import CtpTrade.EfficientMap
import CtpTrade.PublicDataStruct

/-!
# One minute bars from ticks: `CMdBroadCast`

The data path of `MdBroadcast.cpp`: ticks are queued by the feed, moved into one
buffer for each instrument by the distribution thread, and cut into minute bars
by the calculation thread. Every function below is one critical section of the
source. `Fault` lists the ways in which the source aborts or leaves defined
behaviour; `tradeTime` says whether `_TRADE_TIME_` is defined.

Logging, console output and the connection to the front end are left out.
-/

namespace CtpTrade

/-- How a step of the tick pipeline can go wrong: a call of `abort()`, or an access that
the source does not guard. -/
inductive Fault where
  /-- `*tick_mutex_[ins]` for an instrument without a mutex -/
  | nullMutex
  /-- `abort()` in `tick_base_pushback` -/
  | abortPushback
  /-- `abort()` in `is_minute_tail` -/
  | abortMinuteTail
  /-- `end() - 1` of an empty `tick_base_[ins]` -/
  | emptyTickBase
  /-- `front()` of an empty tick group -/
  | emptyMinTicks
  deriving DecidableEq

/-- A call of `push_min_one_data`. The ticks the bar was made from are recorded for the
specifications; the callee only sees the name and the bar. -/
structure MinutePush where
  ins : StdString
  minTicks : List MtkData
  bar : CandleBar
  deriving DecidableEq

/-- The broadcast module with the data its threads share. Each instrument has a buffer
and a mutex of its own. -/
structure CMdBroadCast where
  subscribeInst : List StdString := []
  mtkOpen : OrderedMap StdString Bool := .empty
  subTicks : List MtkData := []
  /-- The entries are the instruments whose mutex exists. -/
  tickMutex : OrderedMap StdString Unit := .empty
  tickBase : OrderedMap StdString (List MtkData) := .empty
  deriving DecidableEq

/-- The constant `max_minute_ticks`. -/
def maxMinuteTicks : Nat := 120

namespace CMdBroadCast

/-- One round of the loop in `set_intruments`. -/
def registerInstrument (md : CMdBroadCast) (ins : StdString) : CMdBroadCast :=
  { md with
    tickBase := efficientMapOperation md.tickBase ins []
    tickMutex := efficientMapOperation md.tickMutex ins ()
    mtkOpen := efficientMapOperation md.mtkOpen ins false }

def setIntruments (md : CMdBroadCast) (ins : List StdString) : CMdBroadCast :=
  ins.foldl registerInstrument { md with subscribeInst := ins }

/-- `get_instruments` returns the list from now on. -/
theorem setIntruments_subscribeInst (md : CMdBroadCast) (ins : List StdString) :
    (md.setIntruments ins).subscribeInst = ins := by
  suffices kept : ∀ (names : List StdString) (md : CMdBroadCast),
      (names.foldl registerInstrument md).subscribeInst = md.subscribeInst from
    kept ins { md with subscribeInst := ins }
  intro names
  induction names with
  | nil => simp
  | cons name names ih => exact fun md => ih (md.registerInstrument name)

def convertTimeStr2int (updateTime : StdString) : Nat :=
  sizeOfInt (atoi (updateTime.filter (· ≠ ':')))

def checkMtkTime (tradeTime : Bool) (updateTime : StdString) : Bool :=
  if tradeTime then
    let marketTimeInt := convertTimeStr2int updateTime
    (93000 ≤ marketTimeInt && marketTimeInt ≤ 113000) ||
      (130000 ≤ marketTimeInt && marketTimeInt ≤ 150000)
  else true

/-- The tail time when a minute ends between the two times. -/
def isMinuteTail (prevTime nextTime : StdString) : Except Fault (Option Nat) :=
  let prevT := convertTimeStr2int prevTime / 100
  let nextT := convertTimeStr2int nextTime / 100
  if prevT < nextT then .ok (some prevT)
  else if prevT > nextT then .error .abortMinuteTail
  else .ok none

def convertTick2min (tickVec : List MtkData) (minBar : CandleBar) : Except Fault CandleBar :=
  match tickVec.head?, tickVec.getLast? with
  | some firstData, some lastData =>
    let openPrice := firstData.lastPrice
    let closePrice := lastData.lastPrice
    let changePoint := closePrice - openPrice
    .ok { minBar with
      barName := strncpyS 31 firstData.instrumentID.chars
      barEcg := strncpyS 9 firstData.exchangeID.chars
      tradeDay := sizeOfInt (atoi firstData.tradingDay.chars)
      openPrice := openPrice
      closePrice := closePrice
      -- an `int` difference, converted to `size_t` when it is stored
      volumeSize := UInt64.ofInt (lastData.volume - firstData.volume).toInt
      changePoint := changePoint
      changePercent := (changePoint / openPrice) * 100
      highPrice := tickVec.foldl
        (fun high dt => if dt.lastPrice > high then dt.lastPrice else high) openPrice
      lowPrice := tickVec.foldl
        (fun low dt => if dt.lastPrice < low then dt.lastPrice else low) openPrice }
  | _, _ => .error .emptyMinTicks

/-- The search loop of `calculate_process`: the number of ticks up to the first
minute tail, and the minute that ends there. The last tick is never a tail. -/
def findTail (realTickNums : Nat) : List MtkData → Except Fault (Option (Nat × Nat))
  | prev :: next :: rest =>
    match isMinuteTail prev.updateTime.chars next.updateTime.chars with
    | .error e => .error e
    | .ok (some tailTime) => .ok (some (realTickNums + 1, tailTime))
    | .ok none => findTail (realTickNums + 1) (next :: rest)
  | _ => .ok none

def calculateProcess (md : CMdBroadCast) (ins : StdString) (isOpen : Bool) :
    Except Fault (CMdBroadCast × Option MinutePush) :=
  let base := md.tickBase.get ins
  if base = [] then .error .emptyTickBase
  else
    match findTail 0 base with
    | .error e => .error e
    | .ok (some (realTickNums, tailTime)) =>
      let minTicks := base.take realTickNums
      match convertTick2min minTicks { tradeTime := tailTime * 100 } with
      | .error e => .error e
      | .ok minBar =>
        .ok ({ md with tickBase := md.tickBase.set ins (base.drop realTickNums) },
          some ⟨minBar.barName.chars, minTicks, minBar⟩)
    | .ok none =>
      if isOpen then .ok (md, none)
      else .ok ({ md with tickBase := md.tickBase.set ins [] }, none)

def calculateMinBar (md : CMdBroadCast) (ins : StdString) :
    Except Fault (CMdBroadCast × Option MinutePush) :=
  match md.tickMutex.find? ins with
  | none => .error .nullMutex
  | some () =>
    let isOpen := md.mtkOpen.get ins
    if isOpen then
      if (md.tickBase.get ins).length > maxMinuteTicks / 2 then md.calculateProcess ins isOpen
      else .ok (md, none)
    else if md.tickBase.get ins ≠ [] then md.calculateProcess ins isOpen
    else .ok (md, none)

def tickBasePushback (tradeTime : Bool) (md : CMdBroadCast) (ins : StdString) (data : MtkData) :
    Except Fault CMdBroadCast :=
  match md.tickMutex.find? ins with
  | none => .error .nullMutex
  | some () =>
    let mtkVec := md.tickBase.get ins
    let pushed : Except Fault (List MtkData) :=
      match mtkVec.getLast? with
      | none => .ok (mtkVec ++ [data])
      | some back =>
        if back.volume < data.volume then .ok (mtkVec ++ [data])
        else if back.volume > data.volume then .error .abortPushback
        else .ok mtkVec
    match pushed with
    | .error e => .error e
    | .ok mtkVec =>
      .ok { md with
        tickBase := md.tickBase.set ins mtkVec
        mtkOpen := md.mtkOpen.set ins (checkMtkTime tradeTime data.updateTime.chars) }

/-- `OnRtnDepthMarketData`, and the append of the fake feed. -/
def onRtnDepthMarketData (md : CMdBroadCast) (depthMarketData : MtkData) : CMdBroadCast :=
  { md with subTicks := md.subTicks ++ [depthMarketData] }

/-- The loop over the queue in `distribute_mtk_tick`. -/
def pushbackAll (tradeTime : Bool) :
    CMdBroadCast → List MtkData → Except Fault CMdBroadCast
  | md, [] => .ok md
  | md, dt :: rest =>
    match md.tickBasePushback tradeTime dt.instrumentID.chars dt with
    | .error e => .error e
    | .ok md => pushbackAll tradeTime md rest

/-- `distribute_mtk_tick`: every queued tick is pushed, then the queue is cleared. -/
def distributeMtkTick (tradeTime : Bool) (md : CMdBroadCast) : Except Fault CMdBroadCast :=
  match pushbackAll tradeTime md md.subTicks with
  | .error e => .error e
  | .ok md => .ok { md with subTicks := [] }

end CMdBroadCast

end CtpTrade
