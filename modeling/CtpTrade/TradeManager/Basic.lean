import CtpTrade.MdManager.Basic
import CtpTrade.Strategy.Basic

/-!
# Notification of the strategies: `CTradeManager`

A bar that enters a store of the market data module is passed to every attached
strategy by `notify_decision_data`. The thread that stored the bar makes the
call: the calculation thread of the broadcast module for minute bars, and the
compose thread for the bars of a longer period. A step of a call is the `update`
of one strategy, and calls of different threads interleave between these steps.
-/

namespace CtpTrade

/-- The base class, as far as `update` uses it: the copies of the series and the
archive. -/
structure CStrategy where
  decisionData : OrderedMap Int (OrderedMap StdString CCandleBar) := .empty
  /-- The period and the bar of each record passed to `write_save_data`. -/
  archive : List (Int × CandleBar) := []

namespace CStrategy

def update (stg : CStrategy) (period : Int) (stgData : CandleBar) : CStrategy :=
  match stg.decisionData.find? period with
  | some instrKdata =>
    let ins := stgData.barName.chars
    match instrKdata.find? ins with
    | some kdata =>
      { archive := stg.archive ++ [(period, stgData)]
        decisionData := stg.decisionData.set period (instrKdata.set ins (kdata.pushBar stgData)) }
    | none => stg
  | none => stg

/-- One of the five like branches of `construct_decision_data`. -/
def constructPeriod (stg : CStrategy) (ins : StdString) (type : Int) : CStrategy :=
  let kData := ({} : CCandleBar).setCandleType type
  let instrKdata := (stg.decisionData.find? type).getD .empty
  { stg with
    decisionData :=
      efficientMapOperation stg.decisionData type (efficientMapOperation instrKdata ins kData) }

/-- `k_type` is a set of flags. -/
def constructDecisionData (stg : CStrategy) (ins : StdString) (kType : Nat) : CStrategy :=
  [minOne, minFive, minFiveteen, minThirty, minSixty].foldl
    (fun stg type => if kType &&& type.toNat = 0 then stg else stg.constructPeriod ins type) stg

/-- A strategy before the first `update`: there may be series, one for each registered
pair, but no bars in them and none in the archive. -/
structure Fresh (stg : CStrategy) : Prop where
  series : ∀ pair kdata, stg.decisionData.nestedFind? pair = some kdata → kdata.candles = []
  archive : stg.archive = []

theorem fresh_empty : Fresh {} where
  series _ _ h := by cases h
  archive := rfl

theorem Fresh.constructPeriod {stg : CStrategy} (fresh : stg.Fresh) (ins : StdString)
    (type : Int) : (stg.constructPeriod ins type).Fresh where
  series pair kdata h := by
    rw [CStrategy.constructPeriod,
      OrderedMap.nestedFind?_of_write (k := (type, ins))
        (fun _ => find?_efficientMapOperation ..) (fun _ => find?_efficientMapOperation ..)] at h
    split_ifs at h with same
    · cases h
      rfl
    · exact fresh.series pair kdata h
  archive := fresh.archive

/-- Whatever is configured, a strategy starts without bars. -/
theorem Fresh.constructDecisionData {stg : CStrategy} (fresh : stg.Fresh) (ins : StdString)
    (kType : Nat) : (stg.constructDecisionData ins kType).Fresh := by
  rw [CStrategy.constructDecisionData]
  refine List.foldlRecOn _ _ fresh ?_
  intro stg fresh type _
  split_ifs
  · exact fresh
  · exact fresh.constructPeriod ins type

end CStrategy

/-- The series that a moving average strategy reads change like those of every strategy. -/
theorem CMAStrategy.update_decisionData (s : CMAStrategy) (period : Int) (stgData : CandleBar)
    (archive : List (Int × CandleBar)) :
    (s.update period stgData).decisionData =
      ((CStrategy.mk s.decisionData archive).update period stgData).decisionData := by
  simp only [CMAStrategy.update, CStrategy.update, OrderedMap.nestedFind?, OrderedMap.nestedSet]
  cases hperiod : s.decisionData.find? period with
  | none => rfl
  | some instrKdata =>
      simp only [Option.bind_some, Option.getD_some]
      cases instrKdata.find? stgData.barName.chars with
      | none => rfl
      | some kdata => rfl

/-- A call of `notify_decision_data` that has not returned. It hands the bar to one
strategy after the other. -/
structure Notification where
  bar : CandleBar
  /-- The number of strategies that its `for_each` has handled. -/
  handled : Nat := 0

/-- The data manager and the strategies that it calls. Each thread has at most one call
in progress. -/
structure TradeSystem where
  md : MdSystem := {}
  stgContainer : List CStrategy
  /-- The calls in progress, by the thread that makes them. -/
  notifying : DataNo → Option Notification := fun _ => none

/-- A step of one of the threads that work on the stores or hand bars to the strategies.
-/
inductive TradeAction where
  /-- The main thread goes on with `initial_md_manager`. -/
  | main
  /-- The compose thread of a period goes on with its loop. -/
  | thread (threadId : DataNo)
  /-- The calculation thread calls `push_min_one_data(bar.bar_name, bar)`. -/
  | pushMinOneData (bar : CandleBar)
  /-- The call of a thread goes on with the next strategy. -/
  | notify (threadId : DataNo)

namespace TradeSystem

/-- A step of the market data module; a recorded call of `notify_decision_data` begins. -/
def stepMd (s : TradeSystem) (threadId : DataNo) (md : MdSystem) : TradeSystem :=
  match md.manager.notified.drop s.md.manager.notified.length with
  | (_, bar) :: _ =>
    { s with md, notifying := Function.update s.notifying threadId (some { bar }) }
  | [] => { s with md }

def notifyDecisionData (s : TradeSystem) (threadId : DataNo) : TradeSystem :=
  match s.notifying threadId with
  | some call =>
    match s.stgContainer[call.handled]? with
    | some stg =>
      let period := CMdManager.convertDatanoToKtype threadId
      { s with
        stgContainer := s.stgContainer.set call.handled (stg.update period call.bar)
        notifying := Function.update s.notifying threadId
          (some { call with handled := call.handled + 1 }) }
    | none => { s with notifying := Function.update s.notifying threadId none }
  | none => s

/-- One step of the system. A thread with a call in progress does nothing else until the
call has returned. -/
def next (ins : List StdString) (s : TradeSystem) : TradeAction → TradeSystem
  | .main => { s with md := s.md.next ins .main }
  | .thread threadId =>
    match s.notifying threadId with
    | some _ => s
    | none => s.stepMd threadId (s.md.next ins (.thread threadId))
  | .pushMinOneData bar =>
    match s.notifying .one with
    | some _ => s
    | none => s.stepMd .one (s.md.next ins (.pushMinOneData bar.barName.chars bar))
  | .notify threadId => s.notifyDecisionData threadId

/-- The system after a schedule, with the strategies attached before `initial_trader`. -/
def run (ins : List StdString) (stgs : List CStrategy) (acts : List TradeAction) : TradeSystem :=
  Execution.exec (next ins) { stgContainer := stgs } acts

end TradeSystem

end CtpTrade
