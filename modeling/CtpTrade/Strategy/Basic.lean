import CtpTrade.EfficientMap
import CtpTrade.Library.Execution
import CtpTrade.TechniqueIndicator.Basic

/-!
# The moving average strategy: `CStrategy` and `CMAStrategy`

Two threads share the series of the strategy: `update` appends minute bars, and
the indicator thread visits one node of `decision_tech_ma_` after the other. A
step of the indicator thread makes one locked call on the series of the node it
visits, or moves on between two calls; `update` can act between any two steps.
The maps keep their keys once the thread runs, so only the series and the
indicators are shared state.

The archive of the bars and the end of the thread are left out. An order is
recorded with the data that `limit_order_insert` receives, which are the data
logged in every build.
-/

namespace CtpTrade

/-- The arguments of `limit_order_insert`. -/
structure LimitOrder where
  insID : StdString
  actionDirect : Char
  openFlag : Char
  price : ℚ
  quantity : Int
  deriving DecidableEq

/-- `THOST_FTDC_D_Buy`. -/
def directionBuy : Char := '0'

/-- `THOST_FTDC_D_Sell`. -/
def directionSell : Char := '1'

/-- `THOST_FTDC_OF_Open`. -/
def offsetOpen : Char := '0'

def triggerSignalAction (ins : StdString) (action actionReason : Int) (actionPrice : ℚ) :
    Option LimitOrder :=
  if signalIsBuy action then
    if actionReason = techReasonGoldfork then
      some ⟨ins, directionBuy, offsetOpen, actionPrice, 1⟩
    else none
  else if signalIsSell action then
    if actionReason = techReasonDeadfork then
      some ⟨ins, directionSell, offsetOpen, actionPrice, 1⟩
    else none
  else none

/-- A node of `decision_tech_ma_`: the type of the bars and the instrument. -/
abbrev MaNode := Int × StdString

/-- The loop body for one node, in the call it is executing. Each case has what is left
of that call. -/
inductive Visit where
  | checking (body : Resumption CMovingAverage CandleCall CandleCall.Answer Bool)
  /-- `started` once the call has made its first read. -/
  | signalling (dateIndex : Int) (started : Bool)
      (body : Resumption CMovingAverage CandleCall CandleCall.Answer (Int × Int))
  | pricing (dateIndex : Int) (action : Int × Int)
      (body : Resumption CMovingAverage CandleCall CandleCall.Answer ℚ)

/-- A result of `get_signal` with the index it is for. The code keeps no such list; it
is what the order of the results is stated with. -/
structure Evaluation where
  dateIndex : Int
  signal : Int
  reason : Int
  deriving DecidableEq

/-- An order with the index of the signal behind it. -/
structure RaisedOrder where
  dateIndex : Int
  order : LimitOrder
  deriving DecidableEq

/-- What one step of a visit leaves behind. -/
structure VisitStep where
  ma : CMovingAverage
  visit : Option Visit
  evaluation : Option Evaluation := none
  order : Option RaisedOrder := none

namespace Visit

/-- Enter the loop body. -/
def start (ma : CMovingAverage) : Visit := checking (CMovingAverage.isBasicDataReady.start ma)

/-- The next locked call, or what the loop body does when a function has returned. -/
def next (inst : StdString) (kdata : CCandleBar) : Visit → VisitStep
  | checking (.done ma ready) =>
    { ma
      visit := if ready then
        some
          (signalling ma.candleBarReadPos false ((CMovingAverage.getSignal .closePrice).start ma))
      else none }
  | checking body =>
    let body := body.step CandleCall.answer kdata
    { ma := body.state, visit := some (checking body) }
  | signalling dateIndex _ (.done ma action) =>
    { ma
      visit := some (pricing dateIndex action ((CMovingAverage.getLimitPrice .closePrice).start ma))
      evaluation := some ⟨dateIndex, action.1, action.2⟩ }
  | signalling dateIndex _ body =>
    let body := body.step CandleCall.answer kdata
    { ma := body.state, visit := some (signalling dateIndex true body) }
  | pricing dateIndex action (.done ma price) =>
    { ma
      visit := none
      order := (triggerSignalAction inst action.1 action.2 price).map (RaisedOrder.mk dateIndex) }
  | pricing dateIndex action body =>
    let body := body.step CandleCall.answer kdata
    { ma := body.state, visit := some (pricing dateIndex action body) }

end Visit

/-- The strategy with its series and indicators, the place of its thread, and a record
of what it has found and ordered. -/
structure CMAStrategy where
  decisionData : OrderedMap Int (OrderedMap StdString CCandleBar)
  decisionTechMa : OrderedMap Int (OrderedMap StdString CMovingAverage) := .empty
  /-- The nodes this round of the thread has still to visit. -/
  remaining : List MaNode := []
  /-- The visit in progress. -/
  visit : Option (MaNode × Visit) := none
  /-- The results of `get_signal` so far. -/
  evaluations : List (MaNode × Evaluation) := []
  /-- The orders raised so far. -/
  orders : List (MaNode × RaisedOrder) := []

/-- A bar arrives through `update`, or the thread of the strategy makes its next locked
call. -/
inductive StrategyAction where
  | update (period : Int) (stgData : CandleBar)
  | decide
  deriving DecidableEq

namespace CMAStrategy

def update (s : CMAStrategy) (period : Int) (stgData : CandleBar) : CMAStrategy :=
  let ins := stgData.barName.chars
  match s.decisionData.nestedFind? (period, ins) with
  | some kdata =>
    { s with decisionData := s.decisionData.nestedSet (period, ins) (kdata.pushBar stgData) }
  | none => s

/-- The series of a node. -/
def candle (s : CMAStrategy) (node : MaNode) : CCandleBar :=
  (s.decisionData.nestedFind? node).getD {}

/-- The indicator of a node. -/
def ma (s : CMAStrategy) (node : MaNode) : CMovingAverage :=
  (s.decisionTechMa.nestedFind? node).getD (CMovingAverage.setDefaultParameters {})

/-- One step of `strategic_decision_function`: the next locked call of the visit in
progress, or the beginning of the next visit. -/
def strategicDecisionFunction (s : CMAStrategy) : CMAStrategy :=
  match s.visit with
  | some (node, visit) =>
    let result := visit.next node.2 (s.candle node)
    { s with
      decisionTechMa := s.decisionTechMa.nestedSet node result.ma
      visit := result.visit.map (node, ·)
      evaluations := s.evaluations ++ (result.evaluation.map (node, ·)).toList
      orders := s.orders ++ (result.order.map (node, ·)).toList }
  | none =>
    match s.remaining with
    | node :: rest => { s with remaining := rest, visit := some (node, .start (s.ma node)) }
    | [] => { s with remaining := s.decisionTechMa.nestedKeys }

def next (s : CMAStrategy) : StrategyAction → CMAStrategy
  | .update period stgData => s.update period stgData
  | .decide => s.strategicDecisionFunction

/-- Register one indicator with the default parameters. -/
def registerIndicator (techMa : OrderedMap Int (OrderedMap StdString CMovingAverage))
    (node : MaNode) : OrderedMap Int (OrderedMap StdString CMovingAverage) :=
  let maMap := (techMa.find? node.1).getD .empty
  efficientMapOperation techMa node.1
    (efficientMapOperation maMap node.2 (CMovingAverage.setDefaultParameters {}))

/-- The strategy when its thread starts, on the series that `initial_stg` has set up. -/
def initialMaStg (decisionData : OrderedMap Int (OrderedMap StdString CCandleBar)) :
    CMAStrategy where
  decisionData := decisionData
  decisionTechMa := decisionData.nestedKeys.foldl registerIndicator .empty

end CMAStrategy

/-- The strategy after a schedule of the two threads. -/
def strategyRun (decisionData : OrderedMap Int (OrderedMap StdString CCandleBar))
    (acts : List StrategyAction) : CMAStrategy :=
  Execution.exec CMAStrategy.next (CMAStrategy.initialMaStg decisionData) acts

end CtpTrade
