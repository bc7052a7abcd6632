import CtpTrade.Library.Execution
import Mathlib.Data.List.Induction
import Mathlib.Data.List.ReduceOption

/-!
# The object pool: `CSimpleObjectPoll`

The pool owns its objects through a vector of unique pointers. `get` moves the
last one out into a handle whose deleter pushes the object back, so that the
handles may be released in any order. An object stands for its address.
-/

namespace CtpTrade

universe u

/-- The member `_pool`. A slot is a pointer, and a null pointer is `none`. -/
structure CSimpleObjectPoll (T : Type u) where
  pool : List (Option T) := []
  deriving DecidableEq

namespace CSimpleObjectPoll

variable {T : Type u}

def empty (p : CSimpleObjectPoll T) : Bool := p.pool.isEmpty

def size (p : CSimpleObjectPoll T) : Nat := p.pool.length

def add (p : CSimpleObjectPoll T) (ptrObj : Option T) : CSimpleObjectPoll T :=
  { pool := p.pool ++ [ptrObj] }

/-- The handle and the pool behind it, or `none` where `get` throws `logic_error`. -/
def get (p : CSimpleObjectPoll T) : Option (Option T × CSimpleObjectPoll T) :=
  if p.empty then none
  else
    match p.pool.getLast? with
    | none => none
    | some back =>
      -- the slot is null between `release` and `pop_back`
      let released := p.pool.dropLast ++ [none]
      some (back, { pool := released.dropLast })

/-- The deleter of a handle. -/
def giveBack (p : CSimpleObjectPoll T) (t : T) : CSimpleObjectPoll T :=
  { pool := p.pool ++ [some t] }

/-- The objects in the pool. -/
def objects (p : CSimpleObjectPoll T) : List T := p.pool.reduceOption

end CSimpleObjectPoll

/-- A pool with all handles that have been obtained from it, in order. A handle that has
been released is null; its object went back to the pool through the deleter. -/
structure PoolSystem (T : Type u) where
  poll : CSimpleObjectPoll T := {}
  handles : List (Option T) := []

/-- A call of the pool's user. A release names a handle by its number; releasing a null
handle does nothing. -/
inductive PoolAction (T : Type u) where
  | add (obj : T)
  | get
  | release (handle : Nat)

/-- The objects that a schedule adds. -/
def PoolAction.added {T : Type u} (acts : List (PoolAction T)) : List T :=
  acts.filterMap fun
    | .add obj => some obj
    | _ => none

namespace PoolSystem

variable {T : Type u} {s : PoolSystem T} {added : List T}

def next (s : PoolSystem T) : PoolAction T → PoolSystem T
  | .add obj => { s with poll := s.poll.add (some obj) }
  | .get =>
    match s.poll.get with
    | none => s
    | some (handle, poll) => { poll, handles := s.handles ++ [handle] }
  | .release handle =>
    match s.handles[handle]? with
    | some (some obj) =>
      { poll := s.poll.giveBack obj, handles := s.handles.set handle none }
    -- the deleter of a null handle is not called
    | _ => s

def run (acts : List (PoolAction T)) : PoolSystem T := Execution.exec next {} acts

/-- The objects that live handles hold. -/
def held (s : PoolSystem T) : List T := s.handles.reduceOption

/-- The invariant of the pool and its users: no slot of the pool is null, and what is
pooled or held is what has been added, with multiplicities. -/
structure Balanced (added : List T) (s : PoolSystem T) : Prop where
  slots : ∀ slot ∈ s.poll.pool, slot ≠ none
  objects : (s.poll.objects ++ s.held).Perm added

/-- A successful `get` moves the last object of the pool into a new handle. -/
theorem get_cases (hs : Balanced added s) :
    (s.poll.pool = [] ∧ s.poll.get = none) ∨
      ∃ rest obj, s.poll.pool = rest ++ [some obj] ∧
        s.poll.get = some (some obj, { pool := rest }) := by
  induction hpool : s.poll.pool using List.reverseRecOn with
  | nil => exact .inl ⟨rfl, by simp [CSimpleObjectPoll.get, CSimpleObjectPoll.empty, hpool]⟩
  | append_singleton rest slot =>
      obtain ⟨obj, rfl⟩ := Option.ne_none_iff_exists'.mp (hs.slots slot (by simp [hpool]))
      exact .inr ⟨rest, obj, rfl, by simp [CSimpleObjectPoll.get, CSimpleObjectPoll.empty, hpool]⟩

@[simp] theorem reduceOption_append_some (slots : List (Option T)) (obj : T) :
    (slots ++ [some obj]).reduceOption = slots.reduceOption ++ [obj] := by
  rw [List.reduceOption_append]
  rfl

/-- A released handle gives its object away and keeps the others. -/
theorem reduceOption_set_none {handles : List (Option T)} {handle : Nat} {obj : T}
    (h : handles[handle]? = some (some obj)) :
    (obj :: (handles.set handle none).reduceOption).Perm handles.reduceOption := by
  induction handles generalizing handle with
  | nil => cases h
  | cons first handles ih =>
      cases handle with
      | zero =>
          obtain rfl : first = some obj := by simpa using h
          simp [List.reduceOption_cons_of_none, List.reduceOption_cons_of_some]
      | succ handle =>
          have rest := ih h
          cases first with
          | none => simpa [List.reduceOption_cons_of_none] using rest
          | some other =>
              simp only [List.set_cons_succ, List.reduceOption_cons_of_some]
              exact (List.Perm.swap other obj _).trans (rest.cons other)

theorem balanced_next (hs : Balanced added s) (a : PoolAction T) :
    Balanced (added ++ PoolAction.added [a]) (next s a) := by
  cases a with
  | add obj =>
      constructor
      · intro slot h
        obtain old | new := List.mem_append.mp h
        · exact hs.slots slot old
        · rw [List.mem_singleton.mp new]
          exact Option.some_ne_none obj
      · have step : ((next s (.add obj)).poll.objects ++ s.held).Perm
            (obj :: (s.poll.objects ++ s.held)) := by
          simp only [next, CSimpleObjectPoll.add, CSimpleObjectPoll.objects,
            reduceOption_append_some, List.append_assoc, List.singleton_append]
          exact List.perm_middle
        exact step.trans ((hs.objects.cons obj).trans (List.perm_append_singleton obj added).symm)
  | get =>
      have none : PoolAction.added [(.get : PoolAction T)] = [] := rfl
      rw [none, List.append_nil]
      obtain ⟨-, fails⟩ | ⟨rest, obj, pool, get⟩ := get_cases hs
      · simpa only [next, fails] using hs
      · have slots := hs.slots
        have objects := hs.objects
        rw [pool] at slots
        rw [CSimpleObjectPoll.objects, pool, reduceOption_append_some,
          List.append_assoc, List.singleton_append] at objects
        simp only [next, get]
        refine ⟨fun slot h => slots slot (List.mem_append_left _ h), ?_⟩
        refine List.Perm.trans ?_ objects
        rw [held, reduceOption_append_some]
        exact (List.perm_append_singleton obj _).append_left rest.reduceOption
  | release handle =>
      have none : PoolAction.added [(.release handle : PoolAction T)] = [] := rfl
      rw [none, List.append_nil]
      simp only [next]
      split
      · next obj h =>
          constructor
          · intro slot h
            obtain old | new := List.mem_append.mp h
            · exact hs.slots slot old
            · rw [List.mem_singleton.mp new]
              exact Option.some_ne_none obj
          · refine List.Perm.trans ?_ hs.objects
            rw [CSimpleObjectPoll.objects, CSimpleObjectPoll.giveBack,
              reduceOption_append_some, List.append_assoc, List.singleton_append]
            exact (reduceOption_set_none h).append_left s.poll.objects
      · exact hs

theorem balanced_run (acts : List (PoolAction T)) :
    Balanced (PoolAction.added acts) (run acts) := by
  induction acts using List.reverseRecOn with
  | nil => exact ⟨by simp [run], List.Perm.refl _⟩
  | append_singleton acts a ih =>
      have step := balanced_next ih a
      rw [PoolAction.added, List.filterMap_append, run, Execution.exec_append]
      exact step

end PoolSystem

/-- What holds in every reachable state of a pool to which distinct objects have been
added. Users only release what they hold; `getFails` says exactly when `get` returns
null, and `failedGet` that nothing changes then. -/
structure PoolConserved {T : Type u} (added : List T) (s : PoolSystem T) : Prop where
  /-- Pooled or held: every added object, and nothing else. -/
  objects : (s.poll.objects ++ s.held).Perm added
  /-- No object is in two places. -/
  once : (s.poll.objects ++ s.held).Nodup
  /-- The pool has no empty slots, so a handle is never null when it is handed out. -/
  slots : ∀ slot ∈ s.poll.pool, slot ≠ none
  getFails : s.poll.get = none ↔ ∀ obj ∈ added, obj ∈ s.held
  failedGet : s.poll.get = none → s.next .get = s

/-- In every reachable state the objects in the pool and those held by live
handles are the added objects, each once, and `get` throws exactly when all of
them are handed out. -/
theorem object_pool_conserves {T : Type u} (acts : List (PoolAction T))
    (distinct : (PoolAction.added acts).Nodup) :
    PoolConserved (PoolAction.added acts) (PoolSystem.run acts) := by
  have balanced := PoolSystem.balanced_run acts
  have once := balanced.objects.nodup_iff.mpr distinct
  refine ⟨balanced.objects, once, balanced.slots, ?_, ?_⟩
  · obtain ⟨pool, fails⟩ | ⟨rest, obj, pool, get⟩ := PoolSystem.get_cases balanced
    · refine iff_of_true fails fun obj h => ?_
      have mem := balanced.objects.symm.subset h
      rwa [CSimpleObjectPoll.objects, pool] at mem
    · -- the last object of the pool is in no handle
      have pooled : obj ∈ (PoolSystem.run acts).poll.objects := by
        rw [CSimpleObjectPoll.objects, List.reduceOption_mem_iff, pool]
        exact List.mem_append_right _ (List.mem_singleton_self _)
      refine iff_of_false (by simp [get]) fun all => ?_
      have held := all obj (balanced.objects.subset (List.mem_append_left _ pooled))
      exact (List.nodup_append.mp once).2.2 obj pooled obj held rfl
  · intro fails
    simp only [PoolSystem.next, fails]

/-- Two objects handed out, a third handle that fails, and the first object handed out
again after its release. -/
def samplePoolActs : List (PoolAction Nat) :=
  [.add 1, .add 2, .get, .get, .get, .release 0, .get]

theorem object_pool_conserves_sample :
    (PoolSystem.run samplePoolActs).handles = [none, some 1, some 2] ∧
      PoolConserved (PoolAction.added samplePoolActs) (PoolSystem.run samplePoolActs) :=
  ⟨by decide, object_pool_conserves samplePoolActs (by decide)⟩

end CtpTrade
