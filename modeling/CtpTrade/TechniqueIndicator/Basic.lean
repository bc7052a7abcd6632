import CtpTrade.CandleBar
import CtpTrade.Library.Resumption

/-!
# The moving average indicator: `CTechniqueIndicator` and `CMovingAverage`

An indicator belongs to the strategy thread and reads a candle series that
another thread appends to. Its only accesses to the series are the three locked
calls of `CandleCall`, so a function of the indicator is a `MaProgram`: between
two calls the series may grow. `CMovingAverage` is the only class derived from
`CTechniqueIndicator`, and virtual calls are resolved to it. The pointer to the
series is taken from a reference and never null.
-/

namespace CtpTrade

/-- The locked calls that an indicator makes on a series. Between two of them the series
can grow. -/
inductive CandleCall where
  | getCandleSize
  | getMa (dateIndex : Nat) (periods : Int) (type : PriceType)
  | getSafePrice (dateIndex : Nat) (type : PriceType)

namespace CandleCall

@[reducible] def Answer : CandleCall → Type
  | getCandleSize => Nat
  | getMa .. => Option ℚ
  | getSafePrice .. => ℚ

def answer : (call : CandleCall) → CCandleBar → call.Answer
  | getCandleSize, c => c.getCandleSize
  | getMa dateIndex periods type, c => c.getMa dateIndex periods type
  | getSafePrice dateIndex type, c => c.getSafePrice dateIndex type

end CandleCall

def typeMa : Int := 0x01
def typeMaExp : Int := 0x02

def validTechSignal (signal : Int) : Bool := signal ≥ techSignalMin ∧ signal ≤ techSignalMax

/-- The moving average with its attribute and its read position. -/
structure CMovingAverage where
  initialReadPosFlag : Bool := false
  candleBarReadPos : Int := 0
  maAttribute : MaAttribute := {}
  deriving DecidableEq

abbrev MaProgram := Program CMovingAverage CandleCall CandleCall.Answer

namespace BaseKdata

def getCandleSize : MaProgram Nat := Program.call CandleCall.getCandleSize

def getMa (dateIndex : Nat) (periods : Int) (type : PriceType) : MaProgram (Option ℚ) :=
  Program.call (CandleCall.getMa dateIndex periods type)

def getSafePrice (dateIndex : Nat) (type : PriceType) : MaProgram ℚ :=
  Program.call (CandleCall.getSafePrice dateIndex type)

end BaseKdata

namespace CMovingAverage

def isValidParameters (ma : CMovingAverage) : Bool :=
  (ma.maAttribute.attributeType = typeMa ∨ ma.maAttribute.attributeType = typeMaExp) ∧
    (validTechSignal ma.maAttribute.flagGoldfork ∧ validTechSignal ma.maAttribute.flagDeadfork) ∧
    (validTechSignal ma.maAttribute.flagLong ∧ validTechSignal ma.maAttribute.flagShort) ∧
    ma.maAttribute.periodCycle.length > 0

def defaultAttribute : MaAttribute where
  attributeType := typeMa
  flagGoldfork := techSignalBuyIntense
  flagDeadfork := techSignalSellIntense
  flagLong := techSignalBuy
  flagShort := techSignalSell
  periodCycle := [2, 3, 4]

def setDefaultParameters (ma : CMovingAverage) : CMovingAverage :=
  { ma with maAttribute := defaultAttribute }

def attachParameters (ma : CMovingAverage) (maAttr : MaAttribute) : CMovingAverage :=
  { ma with maAttribute := maAttr }

def accessCalculateParameters (dateIndex periods : Int) : MaProgram Bool :=
  if dateIndex < 0 then return false
  else do
    let size ← BaseKdata.getCandleSize
    if sizeOfInt dateIndex ≥ size ∨ periods ≤ 0 then return false
    else do
      modify fun ma => if ma.isValidParameters then ma else ma.setDefaultParameters
      return true

/-- One step of the exponential average. -/
def maExpStep (maData price : ℚ) (periods : Int) : ℚ :=
  maData * (periods - 1) / (periods + 1) + price * 2 / (periods + 1)

/-- The loop over `i` that computes the exponential average up to `i`. Every
round after the first reads the price at `date_index`. -/
def maExpLoop (dateIndex periods : Int) (type : PriceType) : Nat → MaProgram ℚ
  | 0 => BaseKdata.getSafePrice 0 type
  | i + 1 => do
    let maData ← maExpLoop dateIndex periods type i
    let price ← BaseKdata.getSafePrice (sizeOfInt dateIndex) type
    return maExpStep maData price periods

/-- The average of the attached kind, or `none` where the call returns false and leaves
`data` alone. -/
def calculate (dateIndex periods : Int) (type : PriceType) (useLast : Bool) (data : ℚ) :
    MaProgram (Option ℚ) := do
  let accessed ← accessCalculateParameters dateIndex periods
  if ¬ accessed ∨ periods > dateIndex + 1 then return none
  else do
    let ma ← get
    if ma.maAttribute.attributeType = typeMa then
      BaseKdata.getMa (sizeOfInt dateIndex) periods type
    else if ma.maAttribute.attributeType = typeMaExp then do
      if useLast ∧ data ≠ 0 then do
        let price ← BaseKdata.getSafePrice (sizeOfInt dateIndex) type
        return some (if dateIndex = 0 then price else maExpStep data price periods)
      else do
        let maData ← maExpLoop dateIndex periods type dateIndex.toNat
        return some maData
    else Program.abort

/-- The averages of the shorter and the longer period of a pair, at `date_index - 1` and
at `date_index`: the four numbers that are compared. -/
structure PairAverages where
  lastMinor : ℚ
  lastMajor : ℚ
  nowMinor : ℚ
  nowMajor : ℚ

/-- The four calls at the head of both signal loops; the first that fails ends
them. Without `use_last` the call does not read `data`. -/
def pairAverages (dateIndex p q : Int) (type : PriceType) : MaProgram (Option PairAverages) := do
  match ← calculate dateIndex (min p q) type false 0 with
  | none => return none
  | some nowMinor =>
    match ← calculate dateIndex (max p q) type false 0 with
    | none => return none
    | some nowMajor =>
      match ← calculate (dateIndex - 1) (min p q) type false 0 with
      | none => return none
      | some lastMinor =>
        match ← calculate (dateIndex - 1) (max p q) type false 0 with
        | none => return none
        | some lastMajor => return some ⟨lastMinor, lastMajor, nowMinor, nowMajor⟩

/-- A signal function gives the signal and `action_reason`. -/
def silent : Int × Int := (techSignalNothing, techReasonNothing)

/-- The loop over the remaining periods that confirms a fork. The result is what
`get_fork_signal` returns from inside the loop, if it does. -/
def confirmFork (dateIndex : Int) (type : PriceType) (confirms : ℚ → ℚ → Bool)
    (fork : Int × Int) : List Int → MaProgram (Option (Int × Int))
  | [] => return none
  | period :: rest => do
    match ← calculate dateIndex period type false 0 with
    | none => return some silent
    | some nowMore =>
      match ← calculate (dateIndex - 1) period type false 0 with
      | none => return some silent
      | some lastMore =>
        if confirms nowMore lastMore then return some fork
        else confirmFork dateIndex type confirms fork rest

/-- The block behind each of the two crossing conditions. A fork of the last pair
needs no confirmation. -/
def raiseFork (dateIndex : Int) (type : PriceType) (crossed : Bool) (confirms : ℚ → ℚ → Bool)
    (fork : Int × Int) (rest : List Int) : MaProgram (Option (Int × Int)) :=
  if ¬ crossed then return none
  else if rest = [] then return some fork
  else confirmFork dateIndex type confirms fork rest

def goldCondition (a : PairAverages) : Bool :=
  a.lastMinor < a.nowMinor ∧ a.lastMajor > a.nowMajor ∧
    a.lastMajor > a.lastMinor ∧ a.nowMinor ≥ a.nowMajor

def deadCondition (a : PairAverages) : Bool :=
  a.lastMinor > a.nowMinor ∧ a.lastMajor < a.nowMajor ∧
    a.lastMajor < a.lastMinor ∧ a.nowMinor ≤ a.nowMajor

/-- The loop of `get_fork_signal` over the adjacent pairs of the cycle. -/
def forkLoop (dateIndex : Int) (type : PriceType) (goldFork deadFork : Int) :
    List Int → MaProgram (Int × Int)
  | p :: q :: rest => do
    match ← pairAverages dateIndex p q type with
    | none => return silent
    | some averages =>
      match ← raiseFork dateIndex type (goldCondition averages) (fun now last => now > last)
          (goldFork, techReasonGoldfork) rest with
      | some result => return result
      | none =>
        match ← raiseFork dateIndex type (deadCondition averages) (fun now last => now < last)
            (deadFork, techReasonDeadfork) rest with
        | some result => return result
        | none => forkLoop dateIndex type goldFork deadFork (q :: rest)
  | _ => return silent

def getForkSignal (dateIndex : Int) (periodCycle : List Int) (type : PriceType)
    (goldFork deadFork : Int) : MaProgram (Int × Int) :=
  if dateIndex ≤ 0 then return silent
  else forkLoop dateIndex type goldFork deadFork periodCycle

def longCondition (a : PairAverages) : Bool :=
  a.nowMinor > a.lastMinor ∧ a.nowMajor > a.lastMajor ∧
    a.nowMinor > a.nowMajor ∧ a.nowMinor - a.nowMajor > a.lastMinor - a.lastMajor

def shortCondition (a : PairAverages) : Bool :=
  a.nowMinor < a.lastMinor ∧ a.nowMajor < a.lastMajor ∧
    a.nowMinor < a.nowMajor ∧ a.nowMinor - a.nowMajor < a.lastMinor - a.lastMajor

/-- The loop of `get_trend_signal`; `trend` holds `trend_direct` and
`action_reason`. A failed round returns no signal and leaves the reason alone. -/
def trendLoop (dateIndex : Int) (type : PriceType) (dirLong dirShort : Int) :
    (first : Bool) → (trend : Int × Int) → List Int → MaProgram (Int × Int)
  | first, trend, p :: q :: rest => do
    match ← pairAverages dateIndex p q type with
    | none => return (techSignalNothing, trend.2)
    | some averages =>
      let trend :=
        if longCondition averages ∧ (first ∨ signalIsBuy trend.1) then (dirLong, techReasonLong)
        else if shortCondition averages ∧ (first ∨ signalIsSell trend.1) then
          (dirShort, techReasonShort)
        else silent
      trendLoop dateIndex type dirLong dirShort false trend (q :: rest)
  | _, trend, _ => return trend

def getTrendSignal (dateIndex : Int) (periodCycle : List Int) (type : PriceType)
    (dirLong dirShort : Int) : MaProgram (Int × Int) :=
  if dateIndex ≤ 0 then return silent
  else trendLoop dateIndex type dirLong dirShort true silent periodCycle

def periodMax (periodCycle : List Int) : Int :=
  periodCycle.foldl (fun periodMax pd => if periodMax < pd then pd else periodMax) 0

def isBasicDataReady : MaProgram Bool := do
  let ma ← get
  if ma.initialReadPosFlag then return true
  else do
    let size ← BaseKdata.getCandleSize
    if size > sizeOfInt (periodMax ma.maAttribute.periodCycle) then do
      modify fun ma =>
        { ma with
          candleBarReadPos := periodMax ma.maAttribute.periodCycle, initialReadPosFlag := true }
      return true
    else return false

def getLimitPrice (type : PriceType) : MaProgram ℚ := do
  let ma ← get
  BaseKdata.getSafePrice (sizeOfInt (ma.candleBarReadPos - 1)) type

/-- The size check behind both signals, which advances the read position. -/
def advanceReadPos (dateIndex : Int) : MaProgram Unit := do
  let size ← BaseKdata.getCandleSize
  if size > sizeOfInt dateIndex then
    modify fun ma => { ma with candleBarReadPos := ma.candleBarReadPos + 1 }
  else return ()

def getSignal (type : PriceType) : MaProgram (Int × Int) := do
  let ma ← get
  let dateIndex := ma.candleBarReadPos
  let fork ← getForkSignal dateIndex ma.maAttribute.periodCycle type ma.maAttribute.flagGoldfork
    ma.maAttribute.flagDeadfork
  if signalIsBuy fork.1 ∨ signalIsSell fork.1 then do
    advanceReadPos dateIndex
    return fork
  else do
    let ma ← get
    let trend ← getTrendSignal dateIndex ma.maAttribute.periodCycle type ma.maAttribute.flagLong
      ma.maAttribute.flagShort
    advanceReadPos dateIndex
    return trend

end CMovingAverage

end CtpTrade
