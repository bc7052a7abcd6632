import CtpTrade.Library.LockOrder
import CtpTrade.TradeManager.EndToEnd
import Mathlib.Data.Fintype.Sum
import Mathlib.Tactic.DeriveFintype

/-!
# The locks of the trader

The threads of the trader guard the tick queue, the tick buffer of each instrument and
each series of bars by a mutex of its own. The distribution thread takes the mutex of a
buffer inside that of the queue, and the calculation thread takes those of the series
inside that of a buffer. Nobody takes them the other way round, so the threads never
block each other.

A section is one pass through the loop of a thread, with what it finds in the shared data
as a parameter. The wait of the login is not a mutex and is left out.
-/

namespace CtpTrade

open LockOrder

/-- The mutexes of the program that its threads share, each with the object that it
belongs to. -/
inductive TraderLock where
  /-- `sub_mutex_` -/
  | sub
  /-- `tick_mutex_[ins]` -/
  | tick (ins : StdString)
  /-- `mutex_` of a series in `basic_minute_kdata_` -/
  | store (no : DataNo) (ins : StdString)
  /-- `mutex_` of a series of the strategy at `index` -/
  | series (index : Nat) (κ : MaNode)
  deriving DecidableEq

namespace TraderLock

def level : TraderLock → Nat
  | .sub => 0
  | .tick _ => 1
  | .store .. => 2
  | .series .. => 2

instance : Preorder TraderLock := Preorder.lift level

theorem lt_iff {a b : TraderLock} : a < b ↔ a.level < b.level := Iff.rfl

theorem level_le (l : TraderLock) : l.level ≤ 2 := by
  cases l <;> simp [level]

instance : WellFoundedGT TraderLock where
  wf := Subrelation.wf
    (fun {a b} (h : b < a) => by
      have top := level_le a
      rw [lt_iff] at h
      change 2 - a.level < 2 - b.level
      omega)
    (measure fun l : TraderLock => 2 - l.level).wf

end TraderLock

instance : Fintype DataNo :=
  ⟨{.one, .five, .fiveteen, .thirty, .sixty}, by intro no; cases no <;> simp⟩

/-- The threads of the program that work on ticks, bars and orders, and so take the
locks. -/
inductive TraderThread (n : Nat) where
  /-- `OnRtnDepthMarketData`, or the thread of the fake feed -/
  | feed
  | distribution
  | calculation
  | compose (threadId : DataNo)
  /-- of one of the `n` strategies -/
  | indicator (index : Fin n)
  deriving DecidableEq, Fintype

/-- `OnRtnDepthMarketData` -/
def feedLocks : List (Op TraderLock) := guarded .sub []

/-- `distribute_mtk_tick` with the queue that it finds. -/
def distributeLocks (subTicks : List MtkData) : List (Op TraderLock) :=
  guarded .sub (subTicks.flatMap fun tick => guarded (.tick tick.instrumentID.chars) [])

/-- `notify_decision_data`: a strategy takes the mutex of the series that gets the bar. -/
def notifyLocks (stgContainer : List CStrategy) (period : Int) (bar : CandleBar) :
    List (Op TraderLock) :=
  stgContainer.zipIdx.flatMap fun stg =>
    if (stg.1.decisionData.nestedFind? (period, bar.barName.chars)).isSome then
      guarded (.series stg.2 (period, bar.barName.chars)) []
    else []

/-- `calculate_min_bar` with the bar that it pushes, if any. -/
def calculateLocks (stgContainer : List CStrategy) (ins : StdString) (pushed : Option CandleBar) :
    List (Op TraderLock) :=
  guarded (.tick ins) (match pushed with
    | some bar =>
      guarded (.store .one bar.barName.chars) [] ++ notifyLocks stgContainer minOne bar
    | none => [])

/-- One iteration of `calculate_md_base_function` with the bar that it composes, if any. -/
def composeLocks (stgContainer : List CStrategy) (threadId : DataNo) (ins : StdString)
    (composed : Option CandleBar) : List (Op TraderLock) :=
  guarded (.store .one ins) [] ++ match composed with
    | some bar =>
      guarded (.store threadId ins) [] ++
        notifyLocks stgContainer (CMdManager.convertDatanoToKtype threadId) bar
    | none => []

/-- A locked call of `strategic_decision_function` on the series of a node. -/
def indicatorLocks (index : Nat) (κ : MaNode) : List (Op TraderLock) := guarded (.series index κ) []

/-- The locked sections of each thread of the program, as sequences of operations on
locks. Where a section depends on data, on the instrument or on a bar that was composed,
there is one for each value. -/
inductive TraderSection {n : Nat} : TraderThread n → List (Op TraderLock) → Prop where
  | feed : TraderSection .feed feedLocks
  | distribution (subTicks : List MtkData) :
      TraderSection .distribution (distributeLocks subTicks)
  | calculation (stgContainer : List CStrategy) (ins : StdString) (pushed : Option CandleBar) :
      TraderSection .calculation (calculateLocks stgContainer ins pushed)
  | compose (stgContainer : List CStrategy) (threadId : DataNo) (ins : StdString)
      (composed : Option CandleBar) :
      TraderSection (.compose threadId) (composeLocks stgContainer threadId ins composed)
  | indicator (index : Fin n) (κ : MaNode) :
      TraderSection (.indicator index) (indicatorLocks index κ)

/-- Below the mutexes of the series `notify_decision_data` may be called with any held. -/
theorem balanced_notifyLocks {held : List TraderLock} (below : ∀ h ∈ held, h.level < 2)
    (stgContainer : List CStrategy) (period : Int) (bar : CandleBar) :
    Balanced held (notifyLocks stgContainer period bar) := by
  refine balanced_flatMap fun stg _ => ?_
  split_ifs
  · exact balanced_guarded below balanced_nil
  · exact balanced_nil

theorem balanced_single {l : TraderLock} {held : List TraderLock} (above : ∀ h ∈ held, h < l) :
    Balanced held (guarded l []) := balanced_guarded above balanced_nil

/-- Every section takes its locks upwards and gives all of them back. -/
theorem TraderSection.ordered {n : Nat} {thread : TraderThread n} {code : List (Op TraderLock)}
    (h : TraderSection thread code) : LockOrder.Ordered [] code := by
  refine Balanced.ordered ?_
  cases h with
  | feed => exact balanced_single (by simp)
  | distribution subTicks =>
      refine balanced_guarded (by simp) (balanced_flatMap fun tick _ => balanced_single ?_)
      simp [TraderLock.lt_iff, TraderLock.level]
  | calculation stgContainer ins pushed =>
      refine balanced_guarded (by simp) ?_
      cases pushed with
      | none => exact balanced_nil
      | some bar =>
          refine (balanced_single ?_).append (balanced_notifyLocks ?_ _ _ _)
          · simp [TraderLock.lt_iff, TraderLock.level]
          · simp [TraderLock.level]
  | compose stgContainer threadId ins composed =>
      refine (balanced_single (by simp)).append ?_
      cases composed with
      | none => exact balanced_nil
      | some bar =>
          exact (balanced_single (by simp)).append (balanced_notifyLocks (by simp) _ _ _)
  | indicator index κ => exact balanced_single (by simp)

/-- In every run of the feed, the distribution, calculation, compose and indicator threads
over their sections, with any data: as long as one of them is inside a section one of them
can go on, and all of them can come to the end of their sections. -/
theorem trader_locks_never_block {n : Nat} {acts : List (Action (TraderThread n) TraderLock)}
    (sections : ∀ thread code, .enter thread code ∈ acts → TraderSection thread code) :
    ((∃ thread, (LockOrder.run acts).todo thread ≠ []) →
        ∃ thread, CanGo (LockOrder.run acts) thread) ∧
      ∃ order : List (TraderThread n), ∀ thread,
        (LockOrder.run (acts ++ order.map .go)).todo thread = [] := by
  obtain ⟨held, hs⟩ := sound_run fun thread code mem => (sections thread code mem).ordered
  refine ⟨exists_canGo hs, ?_⟩
  obtain ⟨order, left⟩ := exists_leave hs
  refine ⟨order, fun thread => ?_⟩
  rw [LockOrder.run, Execution.exec_append]
  exact left thread

/-- The distribution thread waits for a buffer while it holds the queue. -/
def waitActs : List (Action (TraderThread 1) TraderLock) :=
  [.enter .calculation (calculateLocks [] sampleName.chars none), .go .calculation,
    .enter .distribution (distributeLocks [forkTick 0]), .go .distribution, .go .distribution]

theorem trader_locks_never_block_wait :
    ∃ order : List (TraderThread 1), ∀ thread,
      (LockOrder.run (waitActs ++ order.map .go)).todo thread = [] := by
  refine (trader_locks_never_block ?_).2
  intro thread code mem
  simp only [waitActs, List.mem_cons, Action.enter.injEq, reduceCtorEq, List.not_mem_nil,
    or_false, false_or] at mem
  obtain ⟨rfl, rfl⟩ | ⟨rfl, rfl⟩ := mem
  · exact .calculation [] sampleName.chars none
  · exact .distribution [forkTick 0]

end CtpTrade
