import CtpTrade.Library.Execution
import Mathlib.Algebra.Order.BigOperators.Group.Finset
import Mathlib.Data.Fintype.Basic
import Mathlib.Order.WellFounded

/-!
# Locks that are taken in an order

Threads enter sections of code, and of a section only its lock operations count. A
thread that wants a lock waits until nobody holds it. Where every section takes its locks
in an increasing order and gives back the last one first, the threads never block each
other: as long as one of them is inside a section one can go on, and from every state
there is a way to let all of them leave.
-/

namespace LockOrder

universe u v

variable {ι : Type u} {L : Type v}

/-- An operation of a thread on a lock. Everything else that a section does is left out.
-/
inductive Op (L : Type v) where
  | lock (l : L)
  | unlock (l : L)

/-- Who owns each lock, and what each thread has still to do. -/
structure State (ι : Type u) (L : Type v) where
  owner : L → Option ι := fun _ => none
  /-- What each thread has still to do in its section. -/
  todo : ι → List (Op L) := fun _ => []

/-- A thread outside of any section enters one, or a thread makes its next operation, if
the lock it asks for is free. -/
inductive Action (ι : Type u) (L : Type v) where
  | enter (thread : ι) (code : List (Op L))
  /-- The thread makes its next operation, if it can. -/
  | go (thread : ι)

section Steps

variable [DecidableEq ι] [DecidableEq L]

def next (s : State ι L) : Action ι L → State ι L
  | .enter thread code =>
    match s.todo thread with
    | [] => { s with todo := Function.update s.todo thread code }
    | _ :: _ => s
  | .go thread =>
    match s.todo thread with
    | .lock l :: rest =>
      match s.owner l with
      | none =>
        { owner := Function.update s.owner l (some thread)
          todo := Function.update s.todo thread rest }
      | some _ => s
    | .unlock l :: rest =>
      { owner := Function.update s.owner l none, todo := Function.update s.todo thread rest }
    | [] => s

/-- The state after a schedule. -/
def run (acts : List (Action ι L)) : State ι L := Execution.exec next {} acts

end Steps

/-- The thread is inside a section, and its next operation does not wait: it gives a
lock back, or asks for one that is free. -/
def CanGo (s : State ι L) (thread : ι) : Prop :=
  match s.todo thread with
  | .lock l :: _ => s.owner l = none
  | .unlock _ :: _ => True
  | [] => False

section Order

variable [LT L]

/-- What is left of a section, given the locks that its thread holds, the last one in
front. A lock is only asked for if it is above all that are held, the last one is given
back first, and none is kept at the end. -/
def Ordered : List L → List (Op L) → Prop
  | held, .lock l :: rest => (∀ h ∈ held, h < l) ∧ Ordered (l :: held) rest
  | l' :: held, .unlock l :: rest => l = l' ∧ Ordered held rest
  | [], .unlock _ :: _ => False
  | held, [] => held = []

/-- A piece of a section that leaves the locks as it finds them, so that it can be put
in front of any rest that is in order. -/
def Balanced (held : List L) (code : List (Op L)) : Prop :=
  ∀ rest, Ordered held rest → Ordered held (code ++ rest)

/-- The scope of a lock guard. -/
def guarded (l : L) (body : List (Op L)) : List (Op L) := .lock l :: body ++ [.unlock l]

variable {held : List L} {l : L} {code more : List (Op L)}

theorem balanced_nil : Balanced held ([] : List (Op L)) := fun _ h => h

theorem Balanced.append (first : Balanced held code) (second : Balanced held more) :
    Balanced held (code ++ more) := by
  intro rest h
  rw [List.append_assoc]
  exact first _ (second rest h)

theorem balanced_guarded (above : ∀ h ∈ held, h < l) (body : Balanced (l :: held) code) :
    Balanced held (guarded l code) := by
  intro rest h
  have split : guarded l code ++ rest = .lock l :: (code ++ .unlock l :: rest) := by
    simp [guarded]
  rw [split]
  exact ⟨above, body _ ⟨rfl, h⟩⟩

theorem balanced_flatMap {α : Type*} {xs : List α} {f : α → List (Op L)}
    (each : ∀ x ∈ xs, Balanced held (f x)) : Balanced held (xs.flatMap f) := by
  induction xs with
  | nil => exact balanced_nil
  | cons x xs ih =>
      obtain ⟨first, rest⟩ := List.forall_mem_cons.mp each
      rw [List.flatMap_cons]
      exact first.append (ih rest)

theorem Balanced.ordered (h : Balanced [] code) : Ordered [] code := by
  have all := h [] rfl
  rwa [List.append_nil] at all

end Order

/-- The invariant of the locks: a lock has an owner exactly if the owner holds it, no
thread holds a lock twice, and what each thread has left to do is in order for the locks
it holds. -/
structure Sound [LT L] (s : State ι L) (held : ι → List L) : Prop where
  owner : ∀ thread l, s.owner l = some thread ↔ l ∈ held thread
  once : ∀ thread, (held thread).Nodup
  ordered : ∀ thread, Ordered (held thread) (s.todo thread)

section Run

variable [DecidableEq ι] [DecidableEq L] [LT L]
variable {s : State ι L} {held : ι → List L}

omit [DecidableEq ι] [DecidableEq L] in
theorem sound_start : Sound ({} : State ι L) fun _ => [] where
  owner thread l := by simp
  once _ := List.nodup_nil
  ordered _ := rfl

private theorem sound_lock (hs : Sound s held) {thread : ι} {l : L} {rest : List (Op L)}
    (todo : s.todo thread = .lock l :: rest) (free : s.owner l = none) :
    Sound
      { owner := Function.update s.owner l (some thread)
        todo := Function.update s.todo thread rest }
      (Function.update held thread (l :: held thread)) := by
  have own := hs.ordered thread
  rw [todo] at own
  have fresh (other : ι) : l ∉ held other := by
    intro mem
    rw [(hs.owner other l).mpr mem] at free
    cases free
  refine ⟨fun other l' => ?_, fun other => ?_, fun other => ?_⟩
  · by_cases same : l' = l
    · subst same
      by_cases self : other = thread
      · simp [self]
      · simp [Function.update_of_ne self, fresh other, Ne.symm self]
    · simp only [Function.update_of_ne same, hs.owner other l']
      by_cases self : other = thread
      · simp [self, same]
      · rw [Function.update_of_ne self]
  · by_cases self : other = thread
    · simpa [self, fresh] using hs.once thread
    · rw [Function.update_of_ne self]
      exact hs.once other
  · by_cases self : other = thread
    · simpa [self] using own.2
    · simpa [Function.update_of_ne self] using hs.ordered other

private theorem sound_unlock (hs : Sound s held) {thread : ι} {l : L} {rest : List (Op L)}
    (todo : s.todo thread = .unlock l :: rest) :
    Sound
      { owner := Function.update s.owner l none, todo := Function.update s.todo thread rest }
      (Function.update held thread (held thread).tail) := by
  have own := hs.ordered thread
  rw [todo] at own
  cases stack : held thread with
  | nil =>
      rw [stack] at own
      exact own.elim
  | cons top below =>
      rw [stack] at own
      obtain ⟨rfl, rest_ordered⟩ := own
      have once := hs.once thread
      rw [stack, List.nodup_cons] at once
      have mine : s.owner l = some thread := (hs.owner thread l).mpr (by simp [stack])
      refine ⟨fun other l' => ?_, fun other => ?_, fun other => ?_⟩
      · by_cases same : l' = l
        · subst same
          by_cases self : other = thread
          · simp [self, once.1]
          · have apart : l' ∉ held other := by
              intro mem
              have twice := (hs.owner other l').mpr mem
              rw [mine] at twice
              exact self (Option.some.inj twice).symm
            simp [Function.update_of_ne self, apart]
        · simp only [Function.update_of_ne same, hs.owner other l']
          by_cases self : other = thread
          · simp [self, stack, same]
          · rw [Function.update_of_ne self]
      · by_cases self : other = thread
        · simpa [self] using once.2
        · rw [Function.update_of_ne self]
          exact hs.once other
      · by_cases self : other = thread
        · simpa [self] using rest_ordered
        · simpa [Function.update_of_ne self] using hs.ordered other

theorem sound_next (hs : Sound s held) {a : Action ι L}
    (ordered : ∀ thread code, a = .enter thread code → Ordered [] code) :
    ∃ held', Sound (next s a) held' := by
  cases a with
  | enter thread code =>
      simp only [next]
      cases todo : s.todo thread with
      | cons op rest => exact ⟨held, hs⟩
      | nil =>
          have outside := hs.ordered thread
          rw [todo] at outside
          have none : held thread = [] := by
            cases stack : held thread with
            | nil => rfl
            | cons l below => simp [Ordered, stack] at outside
          refine ⟨held, hs.owner, hs.once, fun other => ?_⟩
          by_cases self : other = thread
          · simpa [self, none] using ordered thread code rfl
          · simpa [Function.update_of_ne self] using hs.ordered other
  | go thread =>
      simp only [next]
      cases todo : s.todo thread with
      | nil => exact ⟨held, hs⟩
      | cons op rest =>
          cases op with
          | unlock l => exact ⟨_, sound_unlock hs todo⟩
          | lock l =>
              cases free : s.owner l with
              | some other => exact ⟨held, by simpa [free] using hs⟩
              | none => exact ⟨_, by simpa [free] using sound_lock hs todo free⟩

theorem sound_run {acts : List (Action ι L)}
    (ordered : ∀ thread code, .enter thread code ∈ acts → Ordered [] code) :
    ∃ held, Sound (run acts) held := by
  induction acts using List.reverseRecOn with
  | nil => exact ⟨_, sound_start⟩
  | append_singleton acts a ih =>
      obtain ⟨held, hs⟩ := ih fun thread code mem => ordered thread code (by simp [mem])
      rw [run, Execution.exec_append]
      exact sound_next hs fun thread code same => ordered thread code (by simp [same])

end Run

section Progress

variable [Preorder L] [WellFoundedGT L] {s : State ι L} {held : ι → List L}

/-- The owner of a highest lock can go on, and where no lock is held anyone can. -/
theorem exists_canGo (hs : Sound s held) (inside : ∃ thread, s.todo thread ≠ []) :
    ∃ thread, CanGo s thread := by
  by_cases locked : ∃ l, ∃ thread, s.owner l = some thread
  · obtain ⟨l, ⟨thread, owns⟩, highest⟩ :=
      wellFounded_gt.has_min {l | ∃ thread, s.owner l = some thread} locked
    have mem := (hs.owner thread l).mp owns
    have own := hs.ordered thread
    refine ⟨thread, ?_⟩
    simp only [CanGo]
    cases todo : s.todo thread with
    | nil =>
        rw [todo] at own
        cases stack : held thread with
        | nil => simp [stack] at mem
        | cons top below => simp [Ordered, stack] at own
    | cons op rest =>
        cases op with
        | unlock l' => trivial
        | lock l' =>
            rw [todo] at own
            by_contra taken
            obtain ⟨other, theirs⟩ := Option.ne_none_iff_exists'.mp taken
            exact highest l' ⟨other, theirs⟩ (own.1 l mem)
  · obtain ⟨thread, busy⟩ := inside
    refine ⟨thread, ?_⟩
    simp only [CanGo]
    cases todo : s.todo thread with
    | nil => exact busy todo
    | cons op rest =>
        cases op with
        | unlock l' => trivial
        | lock l' =>
            by_contra taken
            obtain ⟨other, theirs⟩ := Option.ne_none_iff_exists'.mp taken
            exact locked ⟨l', other, theirs⟩

variable [DecidableEq ι] [DecidableEq L]

omit [Preorder L] [WellFoundedGT L] in
theorem todo_go {thread : ι} (can : CanGo s thread) :
    ∃ op rest, s.todo thread = op :: rest ∧
      (next s (.go thread)).todo = Function.update s.todo thread rest := by
  simp only [CanGo] at can
  cases todo : s.todo thread with
  | nil => simp [todo] at can
  | cons op rest =>
      refine ⟨op, rest, rfl, ?_⟩
      cases op with
      | unlock l => simp only [next, todo]
      | lock l =>
          simp only [todo] at can
          simp only [next, todo, can]

omit [Preorder L] [WellFoundedGT L] in
/-- A thread that goes on leaves less to be done. -/
theorem length_go [Fintype ι] {thread : ι} (can : CanGo s thread) :
    ∑ other, ((next s (.go thread)).todo other).length < ∑ other, (s.todo other).length := by
  obtain ⟨op, rest, todo, made⟩ := todo_go can
  rw [made]
  refine Finset.sum_lt_sum (fun other _ => ?_) ⟨thread, Finset.mem_univ thread, ?_⟩
  · by_cases self : other = thread
    · simp [self, todo]
    · rw [Function.update_of_ne self]
  · simp [todo]

/-- There is a way for all threads to leave their sections. -/
theorem exists_leave [Fintype ι] (hs : Sound s held) :
    ∃ order : List ι, ∀ thread,
      (Execution.exec next s (order.map .go)).todo thread = [] := by
  induction measure : ∑ other, (s.todo other).length using Nat.strong_induction_on
    generalizing s held with
  | _ n ih =>
      by_cases inside : ∃ thread, s.todo thread ≠ []
      · obtain ⟨thread, can⟩ := exists_canGo hs inside
        obtain ⟨held', sound⟩ := sound_next hs (a := .go thread) fun _ _ other => nomatch other
        obtain ⟨order, left⟩ := ih _ (measure ▸ length_go can) sound rfl
        exact ⟨thread :: order, left⟩
      · exact ⟨[], fun thread => by_contra fun busy => inside ⟨thread, busy⟩⟩

end Progress

end LockOrder
