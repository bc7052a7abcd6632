import Mathlib.Order.Defs.PartialOrder

/-!
# Programs that read a growing object by atomic calls

A thread with a private state reads a shared object by calls, each of which is
atomic, while other threads let the object grow between the calls. `Resumption`
is what is left of such a program at a moment when others can act: it has
finished, it has aborted, or it is about to make a call. `Program` is the monad
for writing the programs.

Four predicates say what holds of a program. `Every` holds whatever the calls
answer, `Yields` whichever objects of a class answer them. `Settled` says that
the answers the program will see no longer change, so that it does what `eval`
computes on the object as it is. `Keeps` is the rely-guarantee judgement: however
the object grows between the calls, the private state satisfies the guarantee at
every moment, and the program ends with the postcondition.
-/

/-- What is left of a program that makes calls on a shared object. Between two calls it
only has its private state `m`; what a call will answer is open until it is made. -/
inductive Resumption (μ Q : Type) (A : Q → Type) (α : Type) where
  | done (m : μ) (a : α)
  | abort (m : μ)
  | call (m : μ) (q : Q) (k : A q → Resumption μ Q A α)

namespace Resumption

variable {μ Q σ α β : Type} {A : Q → Type}

/-- The private state at this moment. -/
def state : Resumption μ Q A α → μ
  | .done m _ => m
  | .abort m => m
  | .call m _ _ => m

def bind (p : Resumption μ Q A α) (f : μ → α → Resumption μ Q A β) : Resumption μ Q A β :=
  match p with
  | .done m a => f m a
  | .abort m => .abort m
  | .call m q k => .call m q fun a => (k a).bind f

section Run

variable (answer : (q : Q) → σ → A q)

/-- Run to the end on an object that does not change. -/
def eval (s : σ) : Resumption μ Q A α → Option (μ × α)
  | .done m a => some (m, a)
  | .abort _ => none
  | .call _ q k => eval s (k (answer q s))

/-- Make the next call. -/
def step (s : σ) : Resumption μ Q A α → Resumption μ Q A α
  | .call _ q k => k (answer q s)
  | p => p

end Run

variable {answer : (q : Q) → σ → A q} {s s' : σ}

theorem eval_step (p : Resumption μ Q A α) : eval answer s (step answer s p) = eval answer s p := by
  cases p <;> rfl

theorem eval_bind (p : Resumption μ Q A α) (f : μ → α → Resumption μ Q A β) :
    eval answer s (p.bind f) = (eval answer s p).bind fun r => eval answer s (f r.1 r.2) := by
  induction p with
  | done m a => rfl
  | abort m => rfl
  | call m q k ih => exact ih _

/-- Whatever the calls answer, the private state satisfies `S` at every call and at the
end, the result satisfies `P`, and the program does not abort. The answers are arbitrary
here, so this is a property of the program text alone. -/
def Every (S : μ → Prop) (P : μ → α → Prop) : Resumption μ Q A α → Prop
  | .done m a => S m ∧ P m a
  | .abort _ => False
  | .call m _ k => S m ∧ ∀ a, Every S P (k a)

section Every

variable {S : μ → Prop} {P : μ → α → Prop} {P' : μ → β → Prop} {p : Resumption μ Q A α}

theorem Every.state (h : Every S P p) : S p.state := by
  cases p with
  | done m a => exact h.1
  | abort m => exact h.elim
  | call m q k => exact h.1

theorem Every.step (h : Every S P p) : Every S P (step answer s p) := by
  cases p with
  | done m a => exact h
  | abort m => exact h
  | call m q k => exact h.2 _

theorem Every.bind {f : μ → α → Resumption μ Q A β} (h : Every S P p)
    (next : ∀ m a, S m → P m a → Every S P' (f m a)) : Every S P' (p.bind f) := by
  induction p with
  | done m a => exact next m a h.1 h.2
  | abort m => exact h.elim
  | call m q k ih => exact ⟨h.1, fun a => ih a (h.2 a)⟩

/-- Only the states and results that `p` can end with matter to what follows. -/
theorem Every.bind_congr {f g : μ → α → Resumption μ Q A β} (h : Every S P p)
    (same : ∀ m a, S m → P m a → f m a = g m a) : p.bind f = p.bind g := by
  induction p with
  | done m a => exact same m a h.1 h.2
  | abort m => rfl
  | call m q k ih =>
      change call m q (fun a => (k a).bind f) = call m q fun a => (k a).bind g
      congr 1
      funext a
      exact ih a (h.2 a)

theorem Every.mono {P₂ : μ → α → Prop} (h : Every S P p)
    (post : ∀ m a, S m → P m a → P₂ m a) : Every S P₂ p := by
  induction p with
  | done m a => exact ⟨h.1, post m a h.1 h.2⟩
  | abort m => exact h
  | call m q k ih => exact ⟨h.1, fun a => ih a (h.2 a)⟩

/-- A program that cannot abort has a result on every object. -/
theorem Every.eval (h : Every S P p) (s : σ) :
    ∃ m a, eval answer s p = some (m, a) ∧ S m ∧ P m a := by
  induction p with
  | done m a => exact ⟨m, a, rfl, h⟩
  | abort m => exact h.elim
  | call m q k ih => exact ih _ (h.2 _)

/-- Whatever the calls answer, every call the program makes satisfies `R`. This bounds
what the program can read of the shared object. -/
def Asks (R : Q → Prop) : Resumption μ Q A α → Prop
  | .call _ q k => R q ∧ ∀ a, Asks R (k a)
  | _ => True

theorem Asks.bind {R : Q → Prop} {f : μ → α → Resumption μ Q A β} (h : Asks R p)
    (every : Every S P p) (next : ∀ m a, S m → P m a → Asks R (f m a)) : Asks R (p.bind f) := by
  induction p with
  | done m a => exact next m a every.1 every.2
  | abort m => exact h
  | call m q k ih => exact ⟨h.1, fun a => ih a (h.2 a) (every.2 a)⟩

end Every

/-- Whichever objects that satisfy `R` answer the calls, a new one for every call, the
program ends with the postcondition `P` and does not abort. This is the rule for an
object that other threads change between two calls. -/
def Yields (answer : (q : Q) → σ → A q) (R : σ → Prop) (P : μ → α → Prop) :
    Resumption μ Q A α → Prop
  | .done m a => P m a
  | .abort _ => False
  | .call _ q k => ∀ s, R s → Yields answer R P (k (answer q s))

section Yields

variable {R : σ → Prop} {P : μ → α → Prop} {P' : μ → β → Prop} {p : Resumption μ Q A α}

theorem Yields.bind {f : μ → α → Resumption μ Q A β} (h : Yields answer R P p)
    (next : ∀ m a, P m a → Yields answer R P' (f m a)) : Yields answer R P' (p.bind f) := by
  induction p with
  | done m a => exact next m a h
  | abort m => exact h.elim
  | call m q k ih => exact fun s hs => ih _ (h s hs)

/-- In particular the calls may all be answered by one object. -/
theorem Yields.eval (h : Yields answer R P p) (hs : R s) :
    ∃ m a, eval answer s p = some (m, a) ∧ P m a := by
  induction p with
  | done m a => exact ⟨m, a, rfl, h⟩
  | abort m => exact h.elim
  | call m q k ih => exact ih _ (h s hs)

theorem Yields.mono {P₂ : μ → α → Prop} (h : Yields answer R P p)
    (post : ∀ m a, P m a → P₂ m a) : Yields answer R P₂ p := by
  induction p with
  | done m a => exact post m a h
  | abort m => exact h
  | call m q k ih => exact fun s hs => ih _ (h s hs)

/-- What holds whatever the calls answer is a further postcondition. -/
theorem Yields.and_every {S : μ → Prop} {P₂ : μ → α → Prop} (h : Yields answer R P p)
    (every : Every S P₂ p) : Yields answer R (fun m a => P m a ∧ S m ∧ P₂ m a) p := by
  induction p with
  | done m a => exact ⟨h, every⟩
  | abort m => exact h
  | call m q k ih => exact fun s hs => ih _ (h s hs) (every.2 _)

/-- What holds whatever the calls answer holds for any class of objects. -/
theorem Every.yields {S : μ → Prop} (h : Every S P p) :
    Yields answer R (fun m a => S m ∧ P m a) p := by
  induction p with
  | done m a => exact h
  | abort m => exact h
  | call m q k ih => exact fun s _ => ih _ (h.2 _)

end Yields

variable [Preorder σ]

/-- From `s` on, the program always sees the same answers: a call that is answered
later, by a larger object, goes on as if it were answered by `s`. It is then enough to
run the program on `s` alone. -/
def Settled (answer : (q : Q) → σ → A q) (s : σ) : Resumption μ Q A α → Prop
  | .call _ q k =>
    (∀ s', s ≤ s' → k (answer q s') = k (answer q s)) ∧ Settled answer s (k (answer q s))
  | _ => True

section Settled

variable {p : Resumption μ Q A α}

theorem Settled.step (h : Settled answer s p) : Settled answer s (step answer s p) := by
  cases p with
  | done m a => trivial
  | abort m => trivial
  | call m q k => exact h.2

theorem Settled.bind {f : μ → α → Resumption μ Q A β} (h : Settled answer s p)
    (next : ∀ m a, Resumption.eval answer s p = some (m, a) → Settled answer s (f m a)) :
    Settled answer s (p.bind f) := by
  induction p with
  | done m a => exact next m a rfl
  | abort m => trivial
  | call m q k ih =>
      refine ⟨?_, ih _ h.2 next⟩
      intro s' later
      change (k (answer q s')).bind f = (k (answer q s)).bind f
      rw [h.1 s' later]

theorem Settled.later (h : Settled answer s p) (later : s ≤ s') : Settled answer s' p := by
  induction p with
  | done m a => trivial
  | abort m => trivial
  | call m q k ih =>
      have same := h.1 s' later
      constructor
      · intro s'' more
        rw [same]
        exact h.1 s'' (le_trans later more)
      · rw [same]
        exact ih _ h.2

/-- A settled program has one result for good. -/
theorem Settled.eval (h : Settled answer s p) (later : s ≤ s') :
    Resumption.eval answer s' p = Resumption.eval answer s p := by
  induction p with
  | done m a => rfl
  | abort m => rfl
  | call m q k ih =>
      change Resumption.eval answer s' (k (answer q s')) = Resumption.eval answer s (k (answer q s))
      rw [h.1 s' later]
      exact ih _ h.2

end Settled

/-- The rely and guarantee reading of a program. Other threads may enlarge the object
before every call and behind the end; the guarantee `I` holds in every state that is
seen on the way, and the program ends with the postcondition `P`, which later growth
does not break. -/
def Keeps (answer : (q : Q) → σ → A q) (I : μ → σ → Prop) (P : μ → α → σ → Prop) :
    Resumption μ Q A α → σ → Prop
  | .done m a, s => ∀ s', s ≤ s' → I m s' ∧ P m a s'
  | .abort _, _ => False
  | .call m q k, s => ∀ s', s ≤ s' → I m s' ∧ Keeps answer I P (k (answer q s')) s'

section Keeps

variable {I : μ → σ → Prop} {P : μ → α → σ → Prop} {P' : μ → β → σ → Prop}
variable {p : Resumption μ Q A α}

theorem Keeps.later (h : Keeps answer I P p s) (later : s ≤ s') : Keeps answer I P p s' := by
  cases p with
  | done m a => exact fun s'' more => h s'' (le_trans later more)
  | abort m => exact h
  | call m q k => exact fun s'' more => h s'' (le_trans later more)

theorem Keeps.step (h : Keeps answer I P p s) : Keeps answer I P (step answer s p) s := by
  cases p with
  | done m a => exact h
  | abort m => exact h
  | call m q k => exact (h s (le_refl s)).2

theorem Keeps.state (h : Keeps answer I P p s) : I p.state s := by
  cases p with
  | done m a => exact (h s (le_refl s)).1
  | abort m => exact h.elim
  | call m q k => exact (h s (le_refl s)).1

theorem Keeps.done {m : μ} {a : α} (h : Keeps answer I P (.done m a) s) : P m a s :=
  (h s (le_refl s)).2

/-- In particular on the object as it is. -/
theorem Keeps.eval (h : Keeps answer I P p s) :
    ∃ m a, Resumption.eval answer s p = some (m, a) ∧ I m s ∧ P m a s := by
  induction p with
  | done m a => exact ⟨m, a, rfl, h s (le_refl s)⟩
  | abort m => exact h.elim
  | call m q k ih => exact ih _ (h s (le_refl s)).2

theorem Keeps.mono {P₂ : μ → α → σ → Prop} (h : Keeps answer I P p s)
    (post : ∀ m a s', s ≤ s' → P m a s' → P₂ m a s') : Keeps answer I P₂ p s := by
  induction p generalizing s with
  | done m a => exact fun s' later => ⟨(h s' later).1, post m a s' later (h s' later).2⟩
  | abort m => exact h
  | call m q k ih =>
      intro s' later
      exact ⟨(h s' later).1,
        ih _ (h s' later).2 fun m a s'' more => post m a s'' (le_trans later more)⟩

theorem Keeps.bind {f : μ → α → Resumption μ Q A β} (h : Keeps answer I P p s)
    (next : ∀ m a s', s ≤ s' → P m a s' → Keeps answer I P' (f m a) s') :
    Keeps answer I P' (p.bind f) s := by
  induction p generalizing s with
  | done m a => exact next m a s (le_refl s) h.done
  | abort m => exact h
  | call m q k ih =>
      intro s' later
      exact ⟨(h s' later).1,
        ih _ (h s' later).2 fun m a s'' more => next m a s'' (le_trans later more)⟩

/-- What holds whatever the calls answer is kept. -/
theorem Every.keeps {S : μ → Prop} {P : μ → α → Prop} (h : Every S P p)
    (guarantee : ∀ m s', s ≤ s' → S m → I m s') :
    Keeps answer I (fun m a _ => P m a) p s := by
  induction p generalizing s with
  | done m a => exact fun s' later => ⟨guarantee m s' later h.1, h.2⟩
  | abort m => exact h
  | call m q k ih =>
      intro s' later
      exact ⟨guarantee m s' later h.1,
        ih _ (h.2 _) fun m s'' more => guarantee m s'' (le_trans later more)⟩

/-- A class of objects that is closed under growth allows the object to grow. -/
theorem Yields.keeps {R : σ → Prop} {P : μ → α → Prop} (h : Yields answer R P p)
    (grown : ∀ s', s ≤ s' → R s') :
    Keeps answer (fun _ _ => True) (fun m a _ => P m a) p s := by
  induction p generalizing s with
  | done m a => exact fun _ _ => ⟨trivial, h⟩
  | abort m => exact h
  | call m q k ih =>
      intro s' later
      exact ⟨trivial, ih _ (h s' (grown s' later)) fun s'' more => grown s'' (le_trans later more)⟩

/-- A settled program ends with the result it has on the object as it is. -/
theorem Settled.keeps {S : μ → Prop} {P : μ → α → Prop} (h : Settled answer s p)
    (every : Every S P p) (guarantee : ∀ m s', s ≤ s' → S m → I m s') :
    Keeps answer I (fun m a _ => Resumption.eval answer s p = some (m, a)) p s := by
  suffices general : ∀ s₁, s ≤ s₁ → Keeps answer I
      (fun m a _ => Resumption.eval answer s p = some (m, a)) p s₁ from general s (le_refl s)
  induction p with
  | done m a => exact fun s₁ first s' later => ⟨guarantee m s' (le_trans first later) every.1, rfl⟩
  | abort m => exact fun _ _ => every
  | call m q k ih =>
      intro s₁ first s' later
      refine ⟨guarantee m s' (le_trans first later) every.1, ?_⟩
      rw [h.1 s' (le_trans first later)]
      exact ih _ h.2 (every.2 _) s' (le_trans first later)

end Keeps

end Resumption

/-- A program as a function of the private state it starts in. It is a monad, so the
functions of a source are written in the order of their statements. -/
def Program (μ Q : Type) (A : Q → Type) (α : Type) : Type := μ → Resumption μ Q A α

namespace Program

variable {μ Q α β : Type} {A : Q → Type}

/-- Start the program. -/
def start (p : Program μ Q A α) (m : μ) : Resumption μ Q A α := p m

instance : Monad (Program μ Q A) where
  pure a := fun m => .done m a
  bind p f := fun m => (p m).bind fun m a => f a m

instance : MonadStateOf μ (Program μ Q A) where
  get := fun m => .done m m
  set m := fun _ => .done m ⟨⟩
  modifyGet f := fun m => .done (f m).2 (f m).1

/-- An atomic call. -/
def call (q : Q) : Program μ Q A (A q) := fun m => .call m q fun a => .done m a

/-- The process ends. -/
def abort : Program μ Q A α := fun m => .abort m

@[simp] theorem start_pure (a : α) (m : μ) :
    (pure a : Program μ Q A α).start m = .done m a := rfl

@[simp] theorem start_bind (p : Program μ Q A α) (f : α → Program μ Q A β) (m : μ) :
    (p >>= f).start m = (p.start m).bind fun m a => (f a).start m := rfl

@[simp] theorem start_get (m : μ) : (get : Program μ Q A μ).start m = .done m m := rfl

@[simp] theorem start_modify (f : μ → μ) (m : μ) :
    (modify f : Program μ Q A PUnit).start m = .done (f m) ⟨⟩ := rfl

@[simp] theorem start_call (q : Q) (m : μ) :
    (call q : Program μ Q A (A q)).start m = .call m q fun a => .done m a := rfl

@[simp] theorem start_ite (c : Prop) [Decidable c] (p q : Program μ Q A α) (m : μ) :
    (if c then p else q).start m = if c then p.start m else q.start m := by
  split <;> rfl

/-- Started in a state that satisfies `S`, the program ends in such a state with the
result `a`, whichever objects that satisfy `R` answer its calls. The result depends on
nothing else that the program reads. -/
def Computes {σ : Type} (answer : (q : Q) → σ → A q) (R : σ → Prop) (S : μ → Prop)
    (p : Program μ Q A α) (a : α) : Prop :=
  ∀ m, S m → (p.start m).Yields answer R fun m' a' => S m' ∧ a' = a

namespace Computes

variable {σ : Type} {answer : (q : Q) → σ → A q} {R : σ → Prop} {S : μ → Prop}
variable {p : Program μ Q A α} {a : α} {b : β}

theorem pure (a : α) : Computes answer R S (pure a) a :=
  fun _ hm => ⟨hm, rfl⟩

theorem call {q : Q} {a : A q} (same : ∀ s, R s → answer q s = a) :
    Computes answer R S (Program.call q) a :=
  fun _ hm s hs => ⟨hm, same s hs⟩

theorem bind {f : α → Program μ Q A β} (h : Computes answer R S p a)
    (next : Computes answer R S (f a) b) : Computes answer R S (p >>= f) b := by
  intro m hm
  apply (h m hm).bind
  rintro m' a' ⟨hm', rfl⟩
  exact next m' hm'

/-- The result does not depend on what more is known of the state. -/
theorem restrict {S' : μ → Prop} (h : Computes answer R S p a) (sub : ∀ m, S' m → S m)
    (kept : ∀ m, S' m → (p.start m).Every S' fun _ _ => True) : Computes answer R S' p a := by
  intro m hm
  apply ((h m (sub m hm)).and_every (kept m hm)).mono
  rintro m' a' ⟨⟨-, result⟩, hm', -⟩
  exact ⟨hm', result⟩

theorem eval (h : Computes answer R S p a) {m : μ} (hm : S m) {s : σ} (hs : R s) :
    ∃ m', S m' ∧ (p.start m).eval answer s = some (m', a) := by
  obtain ⟨m', a', result, hm', rfl⟩ :
      ∃ m' a', (p.start m).eval answer s = some (m', a') ∧ S m' ∧ a' = a := (h m hm).eval hs
  exact ⟨m', hm', result⟩

end Computes

/-- A frame condition for programs: started in a state that satisfies `S`, the program
stays in such states, only makes calls that satisfy `R`, and does not abort. -/
structure Stays (S : μ → Prop) (R : Q → Prop) (p : Program μ Q A α) : Prop where
  every : ∀ m, S m → (p.start m).Every S fun _ _ => True
  asks : ∀ m, S m → (p.start m).Asks R

namespace Stays

variable {S : μ → Prop} {R : Q → Prop} {p p' : Program μ Q A α} {c : Prop} [Decidable c]

theorem pure (a : α) : Stays S R (Pure.pure a : Program μ Q A α) where
  every _ hm := ⟨hm, trivial⟩
  asks _ _ := trivial

theorem call {q : Q} (hq : R q) : Stays S R (Program.call q : Program μ Q A (A q)) where
  every _ hm := ⟨hm, fun _ => ⟨hm, trivial⟩⟩
  asks _ _ := ⟨hq, fun _ => trivial⟩

theorem modify {f : μ → μ} (kept : ∀ m, S m → S (f m)) :
    Stays S R (modify f : Program μ Q A PUnit) where
  every m hm := ⟨kept m hm, trivial⟩
  asks _ _ := trivial

theorem bind {f : α → Program μ Q A β} (h : Stays S R p) (next : ∀ a, Stays S R (f a)) :
    Stays S R (p >>= f) where
  every m hm := (h.every m hm).bind fun m' a hm' _ => (next a).every m' hm'
  asks m hm := (h.asks m hm).bind (h.every m hm) fun m' a hm' _ => (next a).asks m' hm'

/-- What follows a `get` may rely on the state. -/
theorem get_bind {f : μ → Program μ Q A β} (next : ∀ m, S m → Stays S R (f m)) :
    Stays S R (get >>= f) where
  every m hm := (next m hm).every m hm
  asks m hm := (next m hm).asks m hm

theorem ite (yes : c → Stays S R p) (no : ¬ c → Stays S R p') :
    Stays S R (if c then p else p') := by
  split
  · next h => exact yes h
  · next h => exact no h

end Stays

end Program
