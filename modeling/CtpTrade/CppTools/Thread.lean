import CtpTrade.Library.Execution

/-!
# Threads that can be stopped: `CppThread`

An owner creates a thread, asks it to stop through an atomic flag and joins it.
The new thread runs `controll_function`, which resets the flag before it calls
the business function. Every load and store of an atomic member is a step, and
the steps of the two parties interleave freely.

A business function is any machine that can read the flag. Whatever else it
depends on is part of its own state, so that one machine stands for one run of
a function that also reads shared data.
-/

namespace CtpTrade

universe u

/-- What a business function does next. -/
inductive BusinessStep (β : Type u) where
  /-- It calls `is_stop()` and goes on with the result. -/
  | isStop (rest : Bool → β)
  /-- It does something else. -/
  | work (rest : β)
  | done

/-- A `function_type` by the state a call starts in and the steps from there. Its steps
are arbitrary, apart from where it calls `is_stop()`. -/
structure Business (β : Type u) where
  entry : β
  step : β → BusinessStep β

/-- The assumption on the code that a thread runs: if every `is_stop()` it calls answers
true, it returns in at most `n` steps. What it does on the answer false is left open. -/
def Business.EndsIn {β : Type u} (function : Business β) : Nat → β → Prop
  | 0, _ => False
  | n + 1, state =>
    match function.step state with
    | .isStop rest => function.EndsIn n (rest true)
    | .work rest => function.EndsIn n rest
    | .done => True

/-- The data members that the functions below use: the function to run and the two
flags, both of them atomic. -/
structure CppThread (β : Type u) where
  function : Option (Business β) := none
  stop : Bool := true
  exit : Bool := true

/-- Where the thread is in `controll_function`. -/
inductive WorkerPc (β : Type u) where
  /-- There is no thread to join. -/
  | absent
  /-- It has been created and is about to execute `_stop.store(false)`. -/
  | resetStop
  | resetExit
  | business (function : Business β) (state : β)
  | setExit
  | returned

/-- The reset of the flag is the next thing the thread does. -/
def WorkerPc.atReset {β : Type u} : WorkerPc β → Bool
  | .resetStop => true
  | _ => false

namespace CppThread

variable {β : Type u}

def isStop (thread : CppThread β) : Bool := thread.stop

def setStop (thread : CppThread β) (flag : Bool) : CppThread β := { thread with stop := flag }

/-- One step of `controll_function`, which resets the flags, runs the function and sets
the exit flag. -/
def controllFunction (thread : CppThread β) : WorkerPc β → CppThread β × WorkerPc β
  | .absent => (thread, .absent)
  | .resetStop => ({ thread with stop := false }, .resetExit)
  | .resetExit =>
    match thread.function with
    | some function => ({ thread with exit := false }, .business function function.entry)
    -- the assertion on `_function` fails
    | none => ({ thread with exit := false }, .resetExit)
  | .business function state =>
    match function.step state with
    | .isStop rest => (thread, .business function (rest thread.isStop))
    | .work rest => (thread, .business function rest)
    | .done => (thread, .setExit)
  | .setExit => ({ thread with exit := true }, .returned)
  | .returned => (thread, .returned)

end CppThread

/-- The owner of a thread object and the thread itself. The last two members are a
record of what was asked for and what was read. -/
structure ThreadSystem (β : Type u) where
  thread : CppThread β := {}
  worker : WorkerPc β := .absent
  /-- The owner is in the `join` of `close_thread`. -/
  joining : Bool := false
  /-- The owner has stored true since the thread was created. -/
  requested : Bool := false
  /-- The results of `is_stop()` since then. -/
  reads : List Bool := []

/-- A step of the owner or of the thread. Either can go on at any time, so the steps
come in any order. -/
inductive ThreadAction (β : Type u) where
  | createThread (function : Business β)
  /-- `set_stop(true)` -/
  | setStop
  /-- The store in `close_thread`. -/
  | closeThread
  /-- The `join` in `close_thread` returns, if it can. -/
  | join
  | worker

namespace ThreadAction

def creates {β : Type u} : ThreadAction β → Bool
  | .createThread _ => true
  | _ => false

def ofWorker {β : Type u} : ThreadAction β → Bool
  | .worker => true
  | _ => false

end ThreadAction

namespace ThreadSystem

variable {β : Type u} {s : ThreadSystem β}

/-- The value that an `is_stop()` of this step returns. -/
def readNext (s : ThreadSystem β) : List Bool :=
  match s.worker with
  | .business function state =>
    match function.step state with
    | .isStop _ => [s.thread.isStop]
    | _ => []
  | _ => []

def hasThread (s : ThreadSystem β) : Bool :=
  match s.worker with
  | .absent => false
  | _ => true

def next (s : ThreadSystem β) : ThreadAction β → ThreadSystem β
  | .createThread function =>
    -- a second thread object cannot be assigned before the first has been joined
    if s.hasThread then s
    else
      { thread := { s.thread with function := some function }, worker := .resetStop }
  | .setStop =>
    if s.hasThread ∧ ¬ s.joining then
      { s with thread := s.thread.setStop true, requested := true }
    else s
  | .closeThread =>
    if s.hasThread ∧ ¬ s.joining then
      { s with thread := s.thread.setStop true, requested := true, joining := true }
    else s
  | .join =>
    match s.joining, s.worker with
    | true, .returned => { s with worker := .absent, joining := false, requested := false }
    | _, _ => s
  | .worker =>
    { s with
      thread := (s.thread.controllFunction s.worker).1
      worker := (s.thread.controllFunction s.worker).2
      reads := if s.requested then s.reads ++ s.readNext else s.reads }

/-- The system after a schedule. -/
def run (acts : List (ThreadAction β)) : ThreadSystem β := Execution.exec next {} acts

/-- The discipline under which stopping works: the owner asks for the stop only after
the thread has passed the reset of the flag at its beginning. -/
def Orderly (s : ThreadSystem β) : ThreadAction β → Prop
  | .setStop | .closeThread => s.worker.atReset = false
  | _ => True

instance : (a : ThreadAction β) → Decidable (Orderly s a)
  | .setStop | .closeThread => inferInstanceAs (Decidable (_ = false))
  | .createThread _ | .join | .worker => .isTrue trivial

/-- The invariant of an orderly run. A stop request still stands in the flag, and no
read of the flag has been answered with false since it was made. -/
structure Kept (s : ThreadSystem β) : Prop where
  passed : s.requested = true → s.worker.atReset = false ∧ s.thread.stop = true
  reads : ∀ value ∈ s.reads, value = true

/-- Past the reset the thread does not touch the flag any more. -/
theorem controllFunction_past (thread : CppThread β) {pc : WorkerPc β}
    (past : pc.atReset = false) :
    (thread.controllFunction pc).2.atReset = false ∧
      (thread.controllFunction pc).1.stop = thread.stop := by
  cases pc with
  | resetStop => cases past
  | absent => exact ⟨rfl, rfl⟩
  | setExit => exact ⟨rfl, rfl⟩
  | returned => exact ⟨rfl, rfl⟩
  | resetExit =>
      simp only [CppThread.controllFunction]
      split <;> exact ⟨rfl, rfl⟩
  | business function state =>
      simp only [CppThread.controllFunction]
      split <;> exact ⟨rfl, rfl⟩

theorem kept_next (hs : Kept s) {a : ThreadAction β} (orderly : Orderly s a) :
    Kept (next s a) := by
  cases a with
  | createThread function =>
      simp only [next]
      split_ifs
      · exact hs
      · exact ⟨by simp, by simp⟩
  | setStop =>
      simp only [next]
      split_ifs
      · exact ⟨fun _ => ⟨orderly, rfl⟩, hs.reads⟩
      · exact hs
  | closeThread =>
      simp only [next]
      split_ifs
      · exact ⟨fun _ => ⟨orderly, rfl⟩, hs.reads⟩
      · exact hs
  | join =>
      simp only [next]
      split
      · exact ⟨by simp, hs.reads⟩
      · exact hs
  | worker =>
      constructor
      · intro requested
        obtain ⟨past, stopped⟩ := hs.passed requested
        obtain ⟨past', same⟩ := controllFunction_past s.thread past
        exact ⟨past', same.trans stopped⟩
      · intro value mem
        simp only [next] at mem
        split_ifs at mem with requested
        · obtain old | new := List.mem_append.mp mem
          · exact hs.reads value old
          · have stopped := (hs.passed requested).2
            simp only [readNext] at new
            split at new
            · split at new
              · rw [List.mem_singleton.mp new]
                exact stopped
              · cases new
            · cases new
        · exact hs.reads value mem

theorem kept_run {acts : List (ThreadAction β)}
    (orderly : Execution.Meets (Execution.total next) Orderly {} acts) : Kept (run acts) :=
  Execution.exec_invariant_of_meets Kept (fun _ _ hs ok => kept_next hs ok)
    ⟨by simp, by simp⟩ orderly

/-- The condition is necessary: the reset wipes out a request that comes before it. -/
theorem orderly_of_kept {a : ThreadAction β} (free : s.joining = false)
    (kept : ∀ more, Kept (Execution.exec next (next s a) more)) : Orderly s a := by
  have lost (early : s.worker.atReset = true) (t : ThreadSystem β) (same : t.worker = s.worker)
      (requested : t.requested = true) : ¬ Kept (next t .worker) := by
    intro kept
    have reset : t.worker = .resetStop := by
      rw [same]
      cases hpc : s.worker with
      | resetStop => rfl
      | _ => simp [hpc, WorkerPc.atReset] at early
    have stopped : (t.thread.controllFunction t.worker).1.stop = true := (kept.passed requested).2
    rw [reset] at stopped
    cases stopped
  have present (early : s.worker.atReset = true) : s.hasThread = true := by
    cases hpc : s.worker with
    | absent => simp [hpc, WorkerPc.atReset] at early
    | _ => simp [hasThread, hpc]
  cases a with
  | createThread => trivial
  | join => trivial
  | worker => trivial
  | setStop =>
      by_contra early
      have early := Bool.not_eq_false _ ▸ early
      refine lost early (next s .setStop) ?_ ?_ (kept [.worker])
      · simp [next, present early, free]
      · simp [next, present early, free]
  | closeThread =>
      by_contra early
      have early := Bool.not_eq_false _ ▸ early
      refine lost early (next s .closeThread) ?_ ?_ (kept [.worker])
      · simp [next, present early, free]
      · simp [next, present early, free]

/-- The thread has nothing more to do after at most `n` of its own steps, provided that
`is_stop()` answers true in all of them. -/
def EndsWithin : WorkerPc β → Nat → Prop
  | .business function state, n + 1 => function.EndsIn n state
  | .setExit, _ + 1 => True
  | .returned, _ => True
  | .absent, _ => True
  | _, _ => False

/-- The stop request stands and the thread is on its way out, with at most `n` steps to
go. Both parts are kept by the steps of all other threads. -/
def Ending (n : Nat) (s : ThreadSystem β) : Prop :=
  s.thread.stop = true ∧ EndsWithin s.worker n

theorem EndsWithin.past {pc : WorkerPc β} {n : Nat} (h : EndsWithin pc n) :
    pc.atReset = false := by
  cases pc with
  | resetStop => cases h
  | _ => rfl

theorem EndsWithin.zero {pc : WorkerPc β} (h : EndsWithin pc 0) :
    pc = .returned ∨ pc = .absent := by
  cases pc with
  | returned => exact .inl rfl
  | absent => exact .inr rfl
  | _ => cases h

/-- A step of the thread on its way out. -/
theorem EndsWithin.step {thread : CppThread β} (stopped : thread.stop = true) {pc : WorkerPc β}
    {n : Nat} (h : EndsWithin pc (n + 1)) : EndsWithin (thread.controllFunction pc).2 n := by
  cases pc with
  | absent => trivial
  | resetStop => cases h
  | resetExit => cases h
  | setExit => trivial
  | returned => trivial
  | business function state =>
      cases n with
      | zero => cases h
      | succ n =>
          simp only [EndsWithin, Business.EndsIn] at h
          simp only [CppThread.controllFunction]
          cases hstep : function.step state with
          | isStop rest =>
              rw [hstep] at h
              rw [CppThread.isStop, stopped]
              exact h
          | work rest =>
              rw [hstep] at h
              exact h
          | done => trivial

theorem ending_worker {n : Nat} (hs : Ending n s) : Ending (n - 1) (next s .worker) := by
  obtain ⟨stopped, ends⟩ := hs
  refine ⟨(controllFunction_past s.thread ends.past).2.trans stopped, ?_⟩
  change EndsWithin (s.thread.controllFunction s.worker).2 (n - 1)
  cases n with
  | succ n => exact ends.step stopped
  | zero =>
      obtain returned | absent := ends.zero
      · rw [returned]
        trivial
      · rw [absent]
        trivial

/-- What the owner does leaves the thread on its way out. -/
theorem ending_owner {n : Nat} (hs : Ending n s) {a : ThreadAction β} (old : a.creates = false)
    (owner : a.ofWorker = false) : Ending n (next s a) := by
  obtain ⟨stopped, ends⟩ := hs
  cases a with
  | createThread => cases old
  | worker => cases owner
  | setStop =>
      simp only [next]
      split_ifs
      · exact ⟨rfl, ends⟩
      · exact ⟨stopped, ends⟩
  | closeThread =>
      simp only [next]
      split_ifs
      · exact ⟨rfl, ends⟩
      · exact ⟨stopped, ends⟩
  | join =>
      simp only [next]
      split
      · exact ⟨stopped, trivial⟩
      · exact ⟨stopped, ends⟩

/-- After enough steps of its own the thread has returned, and may have been joined. -/
theorem ending_run {n : Nat} (hs : Ending n s) {more : List (ThreadAction β)}
    (old : ∀ a ∈ more, a.creates = false) (enough : n ≤ more.countP ThreadAction.ofWorker) :
    (Execution.exec next s more).worker = .returned ∨
      (Execution.exec next s more).worker = .absent := by
  induction more generalizing s n with
  | nil =>
      obtain rfl : n = 0 := by simpa using enough
      exact hs.2.zero
  | cons a more ih =>
      obtain ⟨first, rest⟩ := List.forall_mem_cons.mp old
      rw [List.countP_cons] at enough
      cases owner : a.ofWorker with
      | false =>
          apply ih (ending_owner hs first owner) rest
          simpa [owner] using enough
      | true =>
          obtain rfl : a = .worker := by cases a <;> first | rfl | cases owner
          apply ih (ending_worker hs) rest
          simp only [owner, ↓reduceIte] at enough
          omega

end ThreadSystem

/-- Where a loop of the form `while (!is_stop()) body` is. -/
inductive LoopPc (γ : Type u) where
  | test (data : γ)
  /-- The body is running and has `left` steps to go. -/
  | body (data : γ) (left : Nat)
  | finished

/-- `while (!is_stop()) body`, where the body takes any number of steps. -/
def whileNotStop {γ : Type u} (entry : γ) (steps : γ → Nat) (body : γ → γ) :
    Business (LoopPc γ) where
  entry := .test entry
  step
    | .test data => .isStop fun stop => if stop then .finished else .body data (steps data)
    | .body data 0 => .work (.test (body data))
    | .body data (left + 1) => .work (.body data left)
    | .finished => .done

/-- The loop ends at its next test. -/
theorem whileNotStop_ends {γ : Type u} (entry : γ) (steps : γ → Nat) (body : γ → γ)
    (pc : LoopPc γ) : ∃ n, (whileNotStop entry steps body).EndsIn n pc := by
  have fromTest (data : γ) : (whileNotStop entry steps body).EndsIn 2 (.test data) := trivial
  cases pc with
  | test data => exact ⟨2, fromTest data⟩
  | finished => exact ⟨1, trivial⟩
  | body data left =>
      refine ⟨left + 3, ?_⟩
      induction left with
      | zero => exact fromTest (body data)
      | succ left ih => exact ih

/-- In every run in which the owner stores true only after the new thread has
reset the flag: each `is_stop()` since the request has returned true; and where
the thread is in a function that ends once `is_stop()` is true, such as a loop of
the form `while (!is_stop())`, it has returned after finitely many steps of its
own, whatever the owner does in between. -/
theorem stop_request_kept {β : Type u} {acts : List (ThreadAction β)}
    (orderly : Execution.Meets (Execution.total ThreadSystem.next) ThreadSystem.Orderly {} acts) :
    (∀ value ∈ (ThreadSystem.run acts).reads, value = true) ∧
      ((ThreadSystem.run acts).requested = true → ∀ function state,
        (ThreadSystem.run acts).worker = .business function state →
        ∀ n, function.EndsIn n state → ∀ more : List (ThreadAction β),
          (∀ a ∈ more, a.creates = false) → n + 1 ≤ more.countP ThreadAction.ofWorker →
          (Execution.exec ThreadSystem.next (ThreadSystem.run acts) more).worker = .returned ∨
            (Execution.exec ThreadSystem.next (ThreadSystem.run acts) more).worker = .absent) := by
  have kept := ThreadSystem.kept_run orderly
  refine ⟨kept.reads, ?_⟩
  intro requested function state running n ends more old enough
  refine ThreadSystem.ending_run ⟨(kept.passed requested).2, ?_⟩ old enough
  rw [running]
  exact ends

/-- A loop whose body is one step. -/
def sampleLoop : Business (LoopPc Unit) := whileNotStop () (fun _ => 0) id

/-- The loop is in its body when the owner closes the thread. -/
def closeLoopActs : List (ThreadAction (LoopPc Unit)) :=
  [.createThread sampleLoop, .worker, .worker, .worker, .closeThread]

theorem stop_request_kept_loop :
    (∀ value ∈ (ThreadSystem.run (closeLoopActs ++ [.worker, .worker])).reads, value = true) ∧
      ((Execution.exec ThreadSystem.next (ThreadSystem.run closeLoopActs)
          (List.replicate 4 .worker)).worker = .returned ∨
        (Execution.exec ThreadSystem.next (ThreadSystem.run closeLoopActs)
          (List.replicate 4 .worker)).worker = .absent) :=
  ⟨(stop_request_kept (by decide)).1,
    (stop_request_kept (by decide)).2 rfl sampleLoop (.body () 0) rfl 3 trivial
      (List.replicate 4 .worker) (by decide) (by decide)⟩

/-- The state that the reset of the flag leads to. The owner waits for the thread to
end, the request is no longer in the flag, and the loop goes on for ever. -/
structure Hung (s : ThreadSystem (LoopPc Unit)) : Prop where
  joining : s.joining = true
  forgotten : s.thread.stop = false
  looping : ∃ pc, pc ≠ .finished ∧ s.worker = .business sampleLoop pc

theorem hung_next {s : ThreadSystem (LoopPc Unit)} (hs : Hung s)
    (a : ThreadAction (LoopPc Unit)) : Hung (s.next a) := by
  obtain ⟨joining, forgotten, pc, running, worker⟩ := hs
  have present : s.hasThread = true := by simp [ThreadSystem.hasThread, worker]
  have stays : Hung s := ⟨joining, forgotten, pc, running, worker⟩
  cases a with
  | createThread => simpa [ThreadSystem.next, present] using stays
  | setStop => simpa [ThreadSystem.next, joining] using stays
  | closeThread => simpa [ThreadSystem.next, joining] using stays
  | join => simpa [ThreadSystem.next, joining, worker] using stays
  | worker =>
      have past : s.worker.atReset = false := by simp [worker, WorkerPc.atReset]
      refine ⟨joining, (ThreadSystem.controllFunction_past s.thread past).2.trans forgotten, ?_⟩
      change ∃ pc, pc ≠ .finished ∧
        (s.thread.controllFunction s.worker).2 = .business sampleLoop pc
      rw [worker]
      cases pc with
      | finished => exact absurd rfl running
      | test data =>
          refine ⟨.body data 0, by simp, ?_⟩
          simp [CppThread.controllFunction, sampleLoop, whileNotStop, CppThread.isStop, forgotten]
      | body data left =>
          cases left with
          | zero => exact ⟨.test data, by simp, rfl⟩
          | succ left => exact ⟨.body data left, by simp, rfl⟩

/-- The owner's request comes before the thread has run at all. -/
def hastyCloseActs : List (ThreadAction (LoopPc Unit)) :=
  [.createThread sampleLoop, .closeThread, .worker, .worker, .worker]

/-- The thread resets the flag after the request, reads false, and is never joined. -/
theorem stop_request_lost :
    (¬ ∀ acts : List (ThreadAction (LoopPc Unit)),
        ∀ value ∈ (ThreadSystem.run acts).reads, value = true) ∧
      ∀ more, (Execution.exec ThreadSystem.next (ThreadSystem.run hastyCloseActs) more).joining =
        true := by
  refine ⟨fun claim => absurd (claim hastyCloseActs) (by decide), ?_⟩
  intro more
  have start : Hung (ThreadSystem.run hastyCloseActs) := ⟨rfl, rfl, .body () 0, by simp, rfl⟩
  exact (Execution.exec_invariant Hung (fun _ a hs => hung_next hs a) start more).joining

end CtpTrade
