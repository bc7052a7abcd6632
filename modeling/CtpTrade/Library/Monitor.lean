import CtpTrade.Library.Execution
import Mathlib.Data.List.Perm.Basic

/-!
# Monitors with one condition variable

A monitor is a value behind one mutex and one condition variable. An operation
is a critical section: it waits while its guard is false, changes the value, and
may notify sleepers on its way out. The mutex makes a section atomic except at a
wait, so a step is a call, a re-check of a woken thread, or a spurious wake-up.
There is no bound on the number of threads, and a notification of one sleeper
may pick any of them.

Three rules are derived from the steps: an invariant of the sections is one of
every run; a thread whose guard can only become true under a broadcast never
sleeps while it is true; and where every opening of a free value notifies, the
value is never free with all waiters asleep.
-/

namespace Monitor

universe u v w x

/-- What a critical section does to the condition variable on its way out: nothing,
`notify_one` or `notify_all`. -/
inductive Signal where
  | none
  | one
  | all
  deriving DecidableEq

/-- The code of an operation on a monitor: wait for the guard, change the value, notify.
All of it happens under the mutex of the monitor. -/
structure CriticalSection (σ : Type u) where
  guard : σ → Bool
  effect : σ → σ
  /-- May look at the changed value. -/
  signal : σ → Signal

/-- The operations of a monitor and how its threads use them: a record of the use
so far, and the calls that the record allows. -/
structure Protocol (σ : Type u) (γ : Type v) (ι : Type w) (κ : Type x) where
  code : κ → CriticalSection σ
  allowed : ι → κ → γ → Bool
  record : ι → κ → γ → γ

/-- The value that the monitor protects, a record of its use, and the threads that are
inside of a call. No thread is both asleep and woken. -/
structure State (σ : Type u) (γ : Type v) (ι : Type w) (κ : Type x) where
  value : σ
  history : γ
  /-- The threads that sleep on the condition variable, with the call each is in. -/
  asleep : List (ι × κ) := []
  /-- The threads that have been woken and have not re-checked their guard yet. -/
  woken : List (ι × κ) := []
  deriving DecidableEq

/-- A step of the scheduler. It names a waiting thread by its place, and `pick` is the
choice of `notify_one`; a spurious wake-up needs no notification. -/
inductive Action (ι : Type w) (κ : Type x) where
  | call (thread : ι) (op : κ) (pick : Nat)
  | recheck (place pick : Nat)
  | spurious (place : Nat)

variable {σ : Type u} {γ : Type v} {ι : Type w} {κ : Type x}

namespace State

/-- The threads that are inside a call. -/
def waiting (s : State σ γ ι κ) : List (ι × κ) := s.asleep ++ s.woken

def wake (s : State σ γ ι κ) (place : Nat) : State σ γ ι κ :=
  match s.asleep[place]? with
  | some sleeper =>
    { s with asleep := s.asleep.eraseIdx place, woken := s.woken ++ [sleeper] }
  | none => s

def notify (s : State σ γ ι κ) (pick : Nat) : Signal → State σ γ ι κ
  | .none => s
  | .one => s.wake (pick % s.asleep.length)
  | .all => { s with asleep := [], woken := s.woken ++ s.asleep }

end State

variable (m : Protocol σ γ ι κ)

namespace Protocol

/-- One pass through the loop of a section: enter it if the guard is true, or else go to
sleep. -/
def attempt (s : State σ γ ι κ) (thread : ι) (op : κ) (pick : Nat) : State σ γ ι κ :=
  if (m.code op).guard s.value then
    let value := (m.code op).effect s.value
    { s with value, history := m.record thread op s.history }.notify pick ((m.code op).signal value)
  else { s with asleep := s.asleep ++ [(thread, op)] }

def next [DecidableEq ι] (s : State σ γ ι κ) : Action ι κ → State σ γ ι κ
  | .call thread op pick =>
    if thread ∉ s.waiting.map Prod.fst ∧ m.allowed thread op s.history then
      m.attempt s thread op pick
    else s
  | .recheck place pick =>
    match s.woken[place]? with
    | some (thread, op) =>
      m.attempt { s with woken := s.woken.eraseIdx place } thread op pick
    | none => s
  | .spurious place => s.wake place

/-- The state after a schedule. -/
def run [DecidableEq ι] (value : σ) (history : γ) (acts : List (Action ι κ)) : State σ γ ι κ :=
  Execution.exec m.next { value, history } acts

variable {m}

/-- How a thread comes to the guard of an operation: it calls the operation and does not
wait in one already, or it is one of the woken threads and tries again. Behind the
arrival `woken` are the woken threads that are left. -/
def Arrives (m : Protocol σ γ ι κ) (s : State σ γ ι κ) (thread : ι) (op : κ)
    (woken : List (ι × κ)) : Prop :=
  (woken = s.woken ∧ thread ∉ s.waiting.map Prod.fst ∧ m.allowed thread op s.history = true) ∨
    ((thread, op) :: woken).Perm s.woken

/-- Everything the scheduler can do next. A thread is woken, also without a
notification; a thread arrives and goes to sleep because the guard is false; or it
arrives at a true guard, takes effect and notifies as its code says. Which sleepers are
notified is left open. -/
inductive Step (m : Protocol σ γ ι κ) (s : State σ γ ι κ) : State σ γ ι κ → Prop where
  | idle : Step m s s
  | wake (sleeper : ι × κ) (asleep : List (ι × κ)) (was : (sleeper :: asleep).Perm s.asleep) :
      Step m s { s with asleep, woken := s.woken ++ [sleeper] }
  | sleep (thread : ι) (op : κ) (woken : List (ι × κ)) (arrives : Arrives m s thread op woken)
      (blocked : (m.code op).guard s.value = false) :
      Step m s { s with asleep := s.asleep ++ [(thread, op)], woken }
  | enter (thread : ι) (op : κ) (woken asleep notified : List (ι × κ))
      (arrives : Arrives m s thread op woken) (free : (m.code op).guard s.value = true)
      (split : (notified ++ asleep).Perm s.asleep)
      (signalled : match (m.code op).signal ((m.code op).effect s.value) with
        | .none => notified = []
        | .one => s.asleep ≠ [] → notified ≠ []
        | .all => asleep = []) :
      Step m s
        { value := (m.code op).effect s.value
          history := m.record thread op s.history
          asleep
          woken := woken ++ notified }

private theorem perm_of_getElem? {l : List (ι × κ)} {place : Nat} {a : ι × κ}
    (h : l[place]? = some a) : (a :: l.eraseIdx place).Perm l := by
  obtain ⟨inside, rfl⟩ := List.getElem?_eq_some_iff.mp h
  exact List.getElem_cons_eraseIdx_perm inside

private theorem attempt_step (s : State σ γ ι κ) {thread : ι} {op : κ} {woken : List (ι × κ)}
    (arrives : Arrives m s thread op woken) (pick : Nat) :
    Step m s (m.attempt { s with woken } thread op pick) := by
  simp only [attempt]
  split_ifs with free
  · cases hsignal : (m.code op).signal ((m.code op).effect s.value) with
    | none =>
        have step := Step.enter thread op woken s.asleep [] arrives free (.refl _)
          (by simp [hsignal])
        simpa [State.notify] using step
    | all =>
        exact .enter thread op woken [] s.asleep arrives free (by simp) (by simp [hsignal])
    | one =>
        simp only [State.notify, State.wake]
        cases hpick : s.asleep[pick % s.asleep.length]? with
        | none =>
            have empty : s.asleep = [] := by
              by_contra some
              have inside : pick % s.asleep.length < s.asleep.length :=
                Nat.mod_lt _ (List.length_pos_iff.mpr some)
              simp [inside] at hpick
            have step := Step.enter thread op woken s.asleep [] arrives free (.refl _)
              (by simp [hsignal, empty])
            simpa using step
        | some sleeper =>
            exact .enter thread op woken _ [sleeper] arrives free (perm_of_getElem? hpick)
              (by simp [hsignal])
  · exact .sleep thread op woken arrives (Bool.eq_false_iff.mpr free)

/-- There is a value at which the guard of the operation makes the caller wait. An
operation without this property never sleeps. -/
def Waits (m : Protocol σ γ ι κ) (op : κ) : Prop := ∃ value, (m.code op).guard value = false

/-- Whoever is inside a call is in one that waits. -/
private theorem waiting_step {s s' : State σ γ ι κ} (step : Step m s s')
    (hs : ∀ w ∈ s.waiting, m.Waits w.2) : ∀ w ∈ s'.waiting, m.Waits w.2 := by
  simp only [State.waiting, List.forall_mem_append] at hs ⊢
  obtain ⟨sleepers, others⟩ := hs
  have left {thread : ι} {op : κ} {woken : List (ι × κ)} (arrives : Arrives m s thread op woken) :
      ∀ w ∈ woken, m.Waits w.2 := by
    obtain ⟨rfl, -⟩ | perm := arrives
    · exact others
    · exact fun w hw => others w (perm.subset (List.mem_cons_of_mem _ hw))
  cases step with
  | idle => exact ⟨sleepers, others⟩
  | wake sleeper asleep was =>
      have all := List.forall_mem_cons.mp fun w hw => sleepers w (was.subset hw)
      exact ⟨all.2, List.forall_mem_append.mpr ⟨others, by simpa using all.1⟩⟩
  | sleep thread op woken arrives blocked =>
      refine ⟨List.forall_mem_append.mpr ⟨sleepers, ?_⟩, left arrives⟩
      intro w hw
      rw [List.mem_singleton.mp hw]
      exact ⟨s.value, blocked⟩
  | enter thread op woken asleep notified arrives free split =>
      have all := List.forall_mem_append.mp fun w hw => sleepers w (split.subset hw)
      exact ⟨all.2, List.forall_mem_append.mpr ⟨left arrives, all.1⟩⟩

variable [DecidableEq ι]

theorem next_step (s : State σ γ ι κ) (a : Action ι κ) : Step m s (m.next s a) := by
  cases a with
  | call thread op pick =>
      simp only [next]
      split_ifs with enabled
      · exact attempt_step s (.inl ⟨rfl, enabled⟩) pick
      · exact .idle
  | recheck place pick =>
      simp only [next]
      cases hplace : s.woken[place]? with
      | none => exact .idle
      | some waiter =>
          obtain ⟨thread, op⟩ := waiter
          exact attempt_step s (.inr (perm_of_getElem? hplace)) pick
  | spurious place =>
      simp only [next, State.wake]
      cases hplace : s.asleep[place]? with
      | none => exact .idle
      | some sleeper => exact .wake sleeper _ (perm_of_getElem? hplace)

variable {value : σ} {history : γ} {acts : List (Action ι κ)}

/-- An invariant of the sections that may be entered holds in every run. A section
that waits may be entered at any later time, so it has to keep the invariant
whatever the history is by then. -/
theorem invariant (I : σ → γ → Prop)
    (keep : ∀ thread op value history, I value history → (m.code op).guard value = true →
      m.allowed thread op history = true ∨ m.Waits op →
      I ((m.code op).effect value) (m.record thread op history))
    (start : I value history) :
    I (m.run value history acts).value (m.run value history acts).history := by
  have all : I (m.run value history acts).value (m.run value history acts).history ∧
      ∀ w ∈ (m.run value history acts).waiting, m.Waits w.2 := by
    refine Execution.exec_invariant
      (fun s : State σ γ ι κ => I s.value s.history ∧ ∀ w ∈ s.waiting, m.Waits w.2)
      ?_ ⟨start, by simp [State.waiting]⟩ acts
    rintro s a ⟨hs, waits⟩
    have step := next_step (m := m) s a
    refine ⟨?_, waiting_step step waits⟩
    generalize m.next s a = s' at step
    cases step with
    | idle => exact hs
    | wake => exact hs
    | sleep => exact hs
    | enter thread op woken asleep notified arrives free =>
        apply keep thread op s.value s.history hs free
        obtain ⟨-, -, allowed⟩ | perm := arrives
        · exact .inl allowed
        · have mem : (thread, op) ∈ s.woken := perm.subset (List.mem_cons_self ..)
          exact .inr (waits (thread, op) (List.mem_append_right _ mem))
  exact all.1

/-- If the guard of an operation only becomes true under a broadcast, then no
thread sleeps in this operation while it could go on. -/
theorem asleep_blocked (op : κ)
    (broadcast : ∀ op' value, (m.code op').guard value = true →
      (m.code op).guard value = false → (m.code op).guard ((m.code op').effect value) = true →
      (m.code op').signal ((m.code op').effect value) = .all)
    {thread : ι} (sleeps : (thread, op) ∈ (m.run value history acts).asleep) :
    (m.code op).guard (m.run value history acts).value = false := by
  refine Execution.exec_invariant
    (fun s : State σ γ ι κ => (thread, op) ∈ s.asleep → (m.code op).guard s.value = false)
    ?_ (by simp) acts sleeps
  intro s a hs
  have step := next_step (m := m) s a
  generalize m.next s a = s' at step
  cases step with
  | idle => exact hs
  | wake sleeper asleep was => exact fun mem => hs (was.subset (List.mem_cons_of_mem _ mem))
  | sleep thread' op' woken arrives blocked =>
      intro mem
      obtain mem | mem := List.mem_append.mp mem
      · exact hs mem
      · obtain ⟨rfl, rfl⟩ := Prod.mk.inj (List.mem_singleton.mp mem)
        exact blocked
  | enter thread' op' woken asleep notified arrives free split signalled =>
      intro mem
      have before := hs (split.subset (List.mem_append_right _ mem))
      by_contra opened
      have all := broadcast op' s.value free before (Bool.not_eq_false _ ▸ opened)
      rw [all] at signalled
      simp [signalled] at mem

/-- If every section that leaves the value free notifies, and no guard is false
while it is free, then the value is never free with all waiters asleep. -/
theorem woken_of_free (isFree : σ → Prop)
    (opens : ∀ op value, (m.code op).guard value = true → isFree ((m.code op).effect value) →
      (m.code op).signal ((m.code op).effect value) ≠ .none)
    (fits : ∀ op value, isFree value → (m.code op).guard value = true)
    (free : isFree (m.run value history acts).value)
    (sleeps : (m.run value history acts).asleep ≠ []) :
    (m.run value history acts).woken ≠ [] := by
  refine Execution.exec_invariant
    (fun s : State σ γ ι κ => isFree s.value → s.asleep ≠ [] → s.woken ≠ [])
    ?_ (by simp) acts free sleeps
  intro s a hs
  have step := next_step (m := m) s a
  generalize m.next s a = s' at step
  cases step with
  | idle => exact hs
  | wake => simp
  | sleep thread op woken arrives blocked =>
      intro free
      rw [fits op s.value free] at blocked
      cases blocked
  | enter thread op woken asleep notified arrives enters split signalled =>
      intro free sleeps
      have signal := opens op s.value enters free
      have before : s.asleep ≠ [] := by
        rintro none
        rw [none] at split
        exact sleeps (List.append_eq_nil_iff.mp split.eq_nil).2
      cases hsignal : (m.code op).signal ((m.code op).effect s.value) with
      | none => exact absurd hsignal signal
      | one =>
          rw [hsignal] at signalled
          simp [signalled before]
      | all =>
          rw [hsignal] at signalled
          exact absurd signalled sleeps

/-- A thread is inside at most one call. -/
theorem waiting_nodup : ((m.run value history acts).waiting.map Prod.fst).Nodup := by
  refine Execution.exec_invariant
    (fun s : State σ γ ι κ => (s.waiting.map Prod.fst).Nodup) ?_ (by simp [State.waiting]) acts
  intro s a hs
  have step := next_step (m := m) s a
  generalize m.next s a = s' at step
  -- every step moves waiting threads, adds a thread from outside, or lets one go
  have arrived {thread : ι} {op : κ} {woken : List (ι × κ)}
      (arrives : Arrives m s thread op woken) :
      (((thread, op) :: (s.asleep ++ woken)).map Prod.fst).Nodup := by
    obtain ⟨rfl, outside, -⟩ | perm := arrives
    · exact List.nodup_cons.mpr ⟨outside, hs⟩
    · have same : ((thread, op) :: (s.asleep ++ woken)).Perm s.waiting :=
        List.perm_middle.symm.trans (perm.append_left s.asleep)
      exact (same.map _).nodup_iff.mpr hs
  cases step with
  | idle => exact hs
  | wake sleeper asleep was =>
      have same : (asleep ++ (s.woken ++ [sleeper])).Perm s.waiting := by
        rw [← List.append_assoc]
        exact (List.perm_append_singleton ..).trans (was.append_right s.woken)
      exact (same.map _).nodup_iff.mpr hs
  | sleep thread op woken arrives =>
      have same : (s.asleep ++ [(thread, op)] ++ woken).Perm
          ((thread, op) :: (s.asleep ++ woken)) := by
        rw [List.append_assoc]
        exact List.perm_middle
      exact (same.map _).nodup_iff.mpr (arrived arrives)
  | enter thread op woken asleep notified arrives free split =>
      have same : (asleep ++ (woken ++ notified)).Perm (s.asleep ++ woken) := by
        rw [← List.append_assoc]
        exact (List.perm_append_comm).trans (by
          rw [← List.append_assoc]
          exact split.append_right woken)
      exact (same.map _).nodup_iff.mpr (List.nodup_cons.mp (arrived arrives)).2

end Protocol

end Monitor
