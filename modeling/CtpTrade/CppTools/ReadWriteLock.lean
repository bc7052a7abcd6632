import CtpTrade.Library.Monitor

/-!
# The read-write lock: `CRWLock`

One counter behind one mutex and one condition variable: zero for a free lock,
the number of readers, or a negative number for a writer. Each of the four
members is a critical section of a monitor. The history of the monitor is the
multiset of holders; a thread only unlocks what it holds, and a thread may hold
the lock for reading more than once.

The counter is an integer: an overflow of `int` would need more holders than it
has values.
-/

namespace CtpTrade

open Monitor

/-- The class with the one number that its mutex protects: above zero for readers, `-1`
for a writer, zero where the lock is free. -/
structure CRWLock where
  rwCnt : Int := 0
  deriving DecidableEq

namespace CRWLock

def readLock : CriticalSection CRWLock where
  guard lock := ¬ lock.rwCnt < 0
  effect lock := { rwCnt := lock.rwCnt + 1 }
  signal _ := .none

def readUnlock : CriticalSection CRWLock where
  guard _ := true
  effect lock := { rwCnt := lock.rwCnt - 1 }
  signal lock := if 0 = lock.rwCnt then .one else .none

def writeLock : CriticalSection CRWLock where
  guard lock := ¬ lock.rwCnt ≠ 0
  effect lock := { rwCnt := lock.rwCnt - 1 }
  signal _ := .none

def writeUnlock : CriticalSection CRWLock where
  guard _ := true
  effect _ := { rwCnt := 0 }
  signal _ := .all

end CRWLock

/-- The members of `CRWLock`. -/
inductive LockCall where
  | readLock
  | readUnlock
  | writeLock
  | writeUnlock
  deriving DecidableEq

/-- The threads that hold the lock, once for each time they have locked it. The class
keeps no such record; it is what the proper use of the lock is stated with. -/
structure Holders (ι : Type*) where
  readers : List ι := []
  writers : List ι := []
  deriving DecidableEq

namespace CRWLock

variable {ι : Type*} [DecidableEq ι]

/-- The lock and threads that use it properly: a thread only unlocks what it has locked.
The class does not check this. -/
def protocol (ι : Type*) [DecidableEq ι] : Protocol CRWLock (Holders ι) ι LockCall where
  code
    | .readLock => readLock
    | .readUnlock => readUnlock
    | .writeLock => writeLock
    | .writeUnlock => writeUnlock
  allowed thread
    | .readLock, _ => true
    | .readUnlock, holders => thread ∈ holders.readers
    | .writeLock, _ => true
    | .writeUnlock, holders => thread ∈ holders.writers
  record thread
    | .readLock, holders => { holders with readers := thread :: holders.readers }
    | .readUnlock, holders => { holders with readers := holders.readers.erase thread }
    | .writeLock, holders => { holders with writers := thread :: holders.writers }
    | .writeUnlock, holders => { holders with writers := holders.writers.erase thread }

/-- The free lock after a schedule. -/
def run (acts : List (Action ι LockCall)) : State CRWLock (Holders ι) ι LockCall :=
  (protocol ι).run {} {} acts

/-- The counter `rw_cnt` in terms of the threads that hold the lock. It is the number of
readers while nobody writes, and `-1` while one thread writes; there is no other state.
-/
inductive Counted (lock : CRWLock) (holders : Holders ι) : Prop where
  | reading (noWriter : holders.writers = []) (count : lock.rwCnt = holders.readers.length)
  | writing (writer : ι) (one : holders.writers = [writer]) (noReader : holders.readers = [])
      (count : lock.rwCnt = -1)

/-- The unlocking members never wait. -/
theorem waits_cases {call : LockCall} (waits : (protocol ι).Waits call) :
    call = .readLock ∨ call = .writeLock := by
  obtain ⟨lock, blocked⟩ := waits
  cases call with
  | readLock => exact .inl rfl
  | writeLock => exact .inr rfl
  | readUnlock => cases blocked
  | writeUnlock => cases blocked

/-- So whoever runs one of them is allowed to. -/
theorem allowed_of_not_waits {thread : ι} {call : LockCall} {holders : Holders ι}
    (proper : (protocol ι).allowed thread call holders = true ∨ (protocol ι).Waits call)
    (unlock : call ≠ .readLock ∧ call ≠ .writeLock) :
    (protocol ι).allowed thread call holders = true := by
  obtain allowed | waits := proper
  · exact allowed
  · obtain rfl | rfl := waits_cases waits
    · exact absurd rfl unlock.1
    · exact absurd rfl unlock.2

theorem counted_step {thread : ι} {call : LockCall} {lock : CRWLock} {holders : Holders ι}
    (h : Counted lock holders) (free : ((protocol ι).code call).guard lock = true)
    (proper : (protocol ι).allowed thread call holders = true ∨ (protocol ι).Waits call) :
    Counted (((protocol ι).code call).effect lock)
      ((protocol ι).record thread call holders) := by
  cases call with
  | readLock =>
      have noWriter : ¬ lock.rwCnt < 0 := of_decide_eq_true free
      cases h with
      | reading noWriter count =>
          refine .reading noWriter ?_
          change lock.rwCnt + 1 = _
          simp [protocol, count]
      | writing writer one noReader count => omega
  | writeLock =>
      have zero : lock.rwCnt = 0 := not_not.mp (of_decide_eq_true free)
      cases h with
      | reading noWriter count =>
          have none : holders.readers = [] := List.length_eq_zero_iff.mp (by omega)
          refine .writing thread ?_ none ?_
          · simp [protocol, noWriter]
          · change lock.rwCnt - 1 = -1
            omega
      | writing writer one noReader count => omega
  | readUnlock =>
      have holds : thread ∈ holders.readers :=
        of_decide_eq_true (allowed_of_not_waits proper (by simp))
      cases h with
      | reading noWriter count =>
          refine .reading noWriter ?_
          have pos := List.length_pos_of_mem holds
          change lock.rwCnt - 1 = ((holders.readers.erase thread).length : Int)
          rw [List.length_erase_of_mem holds]
          omega
      | writing writer one noReader count =>
          rw [noReader] at holds
          cases holds
  | writeUnlock =>
      have holds : thread ∈ holders.writers :=
        of_decide_eq_true (allowed_of_not_waits proper (by simp))
      cases h with
      | reading noWriter count =>
          rw [noWriter] at holds
          cases holds
      | writing writer one noReader count =>
          obtain rfl : thread = writer := by simpa [one] using holds
          refine .reading ?_ ?_
          · simp [protocol, one]
          · change (0 : Int) = (holders.readers.length : Int)
            simp [noReader]

theorem counted_run (acts : List (Action ι LockCall)) :
    Counted (run acts).value (run acts).history :=
  Protocol.invariant Counted (fun _ _ _ _ => counted_step) (.reading rfl rfl)

/-- A writer keeps the readers out, and only `write_unlock` ends that, with a broadcast. -/
theorem asleep_reader {acts : List (Action ι LockCall)} {thread : ι}
    (sleeps : (thread, .readLock) ∈ (run acts).asleep) : (run acts).value.rwCnt < 0 := by
  have blocked : readLock.guard (run acts).value = false := by
    refine Protocol.asleep_blocked (m := protocol ι) .readLock ?_ sleeps
    intro call lock enters before after
    have writer : lock.rwCnt < 0 := not_not.mp (of_decide_eq_false before)
    have opened : ¬ (((protocol ι).code call).effect lock).rwCnt < 0 := of_decide_eq_true after
    cases call with
    | writeUnlock => rfl
    | readLock => exact absurd writer (of_decide_eq_true enters)
    | readUnlock =>
        change ¬ lock.rwCnt - 1 < 0 at opened
        omega
    | writeLock =>
        change ¬ lock.rwCnt - 1 < 0 at opened
        omega
  exact not_not.mp (of_decide_eq_false blocked)

/-- A section that frees the lock notifies, and a free lock lets every thread in. -/
theorem woken_of_free {acts : List (Action ι LockCall)} (free : (run acts).value.rwCnt = 0)
    (sleeps : (run acts).asleep ≠ []) : (run acts).woken ≠ [] := by
  refine Protocol.woken_of_free (m := protocol ι) (fun lock => lock.rwCnt = 0) ?_ ?_ free sleeps
  · intro call lock enters freed
    cases call with
    | readLock =>
        have noWriter : ¬ lock.rwCnt < 0 := of_decide_eq_true enters
        change lock.rwCnt + 1 = 0 at freed
        omega
    | readUnlock =>
        change lock.rwCnt - 1 = 0 at freed
        simp [protocol, readUnlock, freed]
    | writeLock =>
        have unlocked : lock.rwCnt = 0 := not_not.mp (of_decide_eq_true enters)
        change lock.rwCnt - 1 = 0 at freed
        omega
    | writeUnlock => simp [protocol, writeUnlock]
  · intro call lock unlocked
    cases call with
    | readLock => simp [protocol, readLock, unlocked]
    | readUnlock => rfl
    | writeLock => simp [protocol, writeLock, unlocked]
    | writeUnlock => rfl

end CRWLock

/-- In every reachable state the counter is the number of readers, or -1 for a
writer, and a writer excludes readers and other writers. -/
theorem rw_lock_excludes {ι : Type*} [DecidableEq ι] (acts : List (Action ι LockCall)) :
    let s := CRWLock.run acts
    (s.history.writers = [] → s.value.rwCnt = s.history.readers.length) ∧
      (s.history.writers ≠ [] → s.value.rwCnt = -1) ∧
      s.history.writers.length ≤ 1 ∧
      ¬ (s.history.writers ≠ [] ∧ s.history.readers ≠ []) := by
  intro s
  cases CRWLock.counted_run acts with
  | reading noWriter count =>
      refine ⟨fun _ => count, fun writer => absurd noWriter writer, ?_, fun both => both.1 noWriter⟩
      simp [s, noWriter]
  | writing writer one noReader count =>
      refine ⟨fun none => ?_, fun _ => count, ?_, fun both => both.2 noReader⟩
      · rw [one] at none
        cases none
      · simp [s, one]

/-- No reader sleeps on a lock that readers may enter, and whenever the lock is
free while a thread sleeps, another thread has been woken and is about to
re-check. -/
theorem rw_lock_loses_no_wakeup {ι : Type*} [DecidableEq ι] (acts : List (Action ι LockCall)) :
    let s := CRWLock.run acts
    (∀ thread, (thread, LockCall.readLock) ∈ s.asleep → ¬ 0 ≤ s.value.rwCnt) ∧
      (s.value.rwCnt = 0 → ∀ thread call, (thread, call) ∈ s.asleep →
        ∃ other call', other ≠ thread ∧ (other, call') ∈ s.woken) := by
  intro s
  constructor
  · intro thread sleeps noWriter
    have writer := CRWLock.asleep_reader sleeps
    change s.value.rwCnt < 0 at writer
    omega
  · intro free thread call sleeps
    obtain ⟨⟨other, call'⟩, woken⟩ :=
      List.exists_mem_of_ne_nil _ (CRWLock.woken_of_free free (List.ne_nil_of_mem sleeps))
    refine ⟨other, call', ?_, woken⟩
    rintro rfl
    -- a thread does not sleep in one call and re-check in another
    have once : (s.waiting.map Prod.fst).Nodup := Protocol.waiting_nodup (m := CRWLock.protocol ι)
    rw [State.waiting, List.map_append] at once
    exact (List.nodup_append.mp once).2.2 _ (List.mem_map_of_mem sleeps) _
      (List.mem_map_of_mem woken) rfl

end CtpTrade
