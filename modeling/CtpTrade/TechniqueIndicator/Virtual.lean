import CtpTrade.TechniqueIndicator.Basic

/-!
# The signals of the base class

`get_fork_signal` and `get_trend_signal` belong to `CTechniqueIndicator` and call
the virtual `calculate`. Here they are functions of the `calculate` that the
call is resolved to, so that one can follow what each of their calls returns.
With `CMovingAverage::calculate` they are the signals of the moving average.
-/

namespace CtpTrade

namespace CTechniqueIndicator

open CMovingAverage (PairAverages silent goldCondition deadCondition longCondition shortCondition)

/-- The signature of the virtual `calculate`. -/
abbrev Calculate := (dateIndex periods : Int) → (type : PriceType) → (useLast : Bool) →
  (data : ℚ) → MaProgram (Option ℚ)

variable (calculate : Calculate)

def pairAverages (dateIndex p q : Int) (type : PriceType) : MaProgram (Option PairAverages) := do
  match ← calculate dateIndex (min p q) type false 0 with
  | none => return none
  | some nowMinor =>
    match ← calculate dateIndex (max p q) type false 0 with
    | none => return none
    | some nowMajor =>
      match ← calculate (dateIndex - 1) (min p q) type false 0 with
      | none => return none
      | some lastMinor =>
        match ← calculate (dateIndex - 1) (max p q) type false 0 with
        | none => return none
        | some lastMajor => return some ⟨lastMinor, lastMajor, nowMinor, nowMajor⟩

def confirmFork (dateIndex : Int) (type : PriceType) (confirms : ℚ → ℚ → Bool)
    (fork : Int × Int) : List Int → MaProgram (Option (Int × Int))
  | [] => return none
  | period :: rest => do
    match ← calculate dateIndex period type false 0 with
    | none => return some silent
    | some nowMore =>
      match ← calculate (dateIndex - 1) period type false 0 with
      | none => return some silent
      | some lastMore =>
        if confirms nowMore lastMore then return some fork
        else confirmFork dateIndex type confirms fork rest

def raiseFork (dateIndex : Int) (type : PriceType) (crossed : Bool) (confirms : ℚ → ℚ → Bool)
    (fork : Int × Int) (rest : List Int) : MaProgram (Option (Int × Int)) :=
  if ¬ crossed then return none
  else if rest = [] then return some fork
  else confirmFork calculate dateIndex type confirms fork rest

def forkLoop (dateIndex : Int) (type : PriceType) (goldFork deadFork : Int) :
    List Int → MaProgram (Int × Int)
  | p :: q :: rest => do
    match ← pairAverages calculate dateIndex p q type with
    | none => return silent
    | some averages =>
      match ← raiseFork calculate dateIndex type (goldCondition averages)
          (fun now last => now > last) (goldFork, techReasonGoldfork) rest with
      | some result => return result
      | none =>
        match ← raiseFork calculate dateIndex type (deadCondition averages)
            (fun now last => now < last) (deadFork, techReasonDeadfork) rest with
        | some result => return result
        | none => forkLoop dateIndex type goldFork deadFork (q :: rest)
  | _ => return silent

def getForkSignal (dateIndex : Int) (periodCycle : List Int) (type : PriceType)
    (goldFork deadFork : Int) : MaProgram (Int × Int) :=
  if dateIndex ≤ 0 then return silent
  else forkLoop calculate dateIndex type goldFork deadFork periodCycle

def trendLoop (dateIndex : Int) (type : PriceType) (dirLong dirShort : Int) :
    (first : Bool) → (trend : Int × Int) → List Int → MaProgram (Int × Int)
  | first, trend, p :: q :: rest => do
    match ← pairAverages calculate dateIndex p q type with
    | none => return (techSignalNothing, trend.2)
    | some averages =>
      let trend :=
        if longCondition averages ∧ (first ∨ signalIsBuy trend.1) then (dirLong, techReasonLong)
        else if shortCondition averages ∧ (first ∨ signalIsSell trend.1) then
          (dirShort, techReasonShort)
        else silent
      trendLoop dateIndex type dirLong dirShort false trend (q :: rest)
  | _, trend, _ => return trend

def getTrendSignal (dateIndex : Int) (periodCycle : List Int) (type : PriceType)
    (dirLong dirShort : Int) : MaProgram (Int × Int) :=
  if dateIndex ≤ 0 then return silent
  else trendLoop calculate dateIndex type dirLong dirShort true silent periodCycle

end CTechniqueIndicator

namespace CMovingAverage

open CTechniqueIndicator (Calculate)

/-- `get_signal` where the signals of the base class call this `calculate`. -/
def getSignalWith (calculate : Calculate) (type : PriceType) : MaProgram (Int × Int) := do
  let ma ← get
  let dateIndex := ma.candleBarReadPos
  let fork ← CTechniqueIndicator.getForkSignal calculate dateIndex ma.maAttribute.periodCycle type
    ma.maAttribute.flagGoldfork ma.maAttribute.flagDeadfork
  if signalIsBuy fork.1 ∨ signalIsSell fork.1 then do
    advanceReadPos dateIndex
    return fork
  else do
    let ma ← get
    let trend ← CTechniqueIndicator.getTrendSignal calculate dateIndex ma.maAttribute.periodCycle
      type ma.maAttribute.flagLong ma.maAttribute.flagShort
    advanceReadPos dateIndex
    return trend

theorem confirmFork_calculate (dateIndex : Int) (type : PriceType) (confirms : ℚ → ℚ → Bool)
    (fork : Int × Int) (rest : List Int) :
    CTechniqueIndicator.confirmFork calculate dateIndex type confirms fork rest =
      confirmFork dateIndex type confirms fork rest := by
  induction rest with
  | nil => rfl
  | cons period rest ih =>
      rw [CTechniqueIndicator.confirmFork, ih]
      rfl

theorem raiseFork_calculate (dateIndex : Int) (type : PriceType) (crossed : Bool)
    (confirms : ℚ → ℚ → Bool) (fork : Int × Int) (rest : List Int) :
    CTechniqueIndicator.raiseFork calculate dateIndex type crossed confirms fork rest =
      raiseFork dateIndex type crossed confirms fork rest := by
  rw [CTechniqueIndicator.raiseFork, raiseFork, confirmFork_calculate]

theorem forkLoop_calculate (dateIndex : Int) (type : PriceType) (goldFork deadFork : Int)
    (cycle : List Int) :
    CTechniqueIndicator.forkLoop calculate dateIndex type goldFork deadFork cycle =
      forkLoop dateIndex type goldFork deadFork cycle := by
  induction cycle with
  | nil => rfl
  | cons p cycle ih =>
      cases cycle with
      | nil => rfl
      | cons q rest =>
          rw [CTechniqueIndicator.forkLoop, ih]
          simp only [raiseFork_calculate]
          rfl

theorem trendLoop_calculate (dateIndex : Int) (type : PriceType) (dirLong dirShort : Int)
    (first : Bool) (trend : Int × Int) (cycle : List Int) :
    CTechniqueIndicator.trendLoop calculate dateIndex type dirLong dirShort first trend cycle =
      trendLoop dateIndex type dirLong dirShort first trend cycle := by
  induction cycle generalizing first trend with
  | nil => rfl
  | cons p cycle ih =>
      cases cycle with
      | nil => rfl
      | cons q rest =>
          rw [CTechniqueIndicator.trendLoop]
          simp only [ih]
          rfl

theorem getForkSignal_calculate (dateIndex : Int) (cycle : List Int) (type : PriceType)
    (goldFork deadFork : Int) :
    CTechniqueIndicator.getForkSignal calculate dateIndex cycle type goldFork deadFork =
      getForkSignal dateIndex cycle type goldFork deadFork := by
  rw [CTechniqueIndicator.getForkSignal, getForkSignal, forkLoop_calculate]

theorem getTrendSignal_calculate (dateIndex : Int) (cycle : List Int) (type : PriceType)
    (dirLong dirShort : Int) :
    CTechniqueIndicator.getTrendSignal calculate dateIndex cycle type dirLong dirShort =
      getTrendSignal dateIndex cycle type dirLong dirShort := by
  rw [CTechniqueIndicator.getTrendSignal, getTrendSignal, trendLoop_calculate]

/-- The virtual call of `get_signal` is resolved to `CMovingAverage::calculate`. -/
theorem getSignalWith_calculate (type : PriceType) :
    getSignalWith calculate type = getSignal type := by
  simp only [getSignalWith, getSignal, getForkSignal_calculate, getTrendSignal_calculate]

end CMovingAverage

end CtpTrade
