import CtpTrade.PublicDataStruct

/-!
# Candle series: `CCandleBar`

A series of bars behind one mutex. Every public call locks the mutex for its
whole duration, so a call is one atomic step of any thread system that uses a
series. Composition of bars is one loop body shared by both composing calls.
-/

namespace CtpTrade

/-- The price selectors of `CCandleBar`. Any other number makes `get_price` abort, so
there are only these four. -/
inductive PriceType where
  | openPrice
  | closePrice
  | highPrice
  | lowPrice
  deriving DecidableEq

def minOne : Int := 0x01
def minFive : Int := 0x02
def minFiveteen : Int := 0x04
def minThirty : Int := 0x08
def minSixty : Int := 0x10

/-- A series of bars. Its mutex is held for whole calls, so a call is a function on this
record. -/
structure CCandleBar where
  candleType : Int := minOne
  candles : List CandleBar := []
  deriving DecidableEq

instance : Inhabited CCandleBar := ⟨{}⟩

namespace CCandleBar

def setCandleType (c : CCandleBar) (type : Int) : CCandleBar := { c with candleType := type }

def getCandleSize (c : CCandleBar) : Nat := c.candles.length

def pushBar (c : CCandleBar) (bar : CandleBar) : CCandleBar :=
  { c with candles := c.candles ++ [bar] }

/-- The body of the composing loop, which both composing calls have. The first component
is `src_count`. -/
def composeBody (composeMutiple : Nat) (state : Nat × CandleBar) (srcBar : CandleBar) :
    Nat × CandleBar :=
  let srcCount := state.1 + 1
  let desBar :=
    if srcCount = 1 then srcBar
    else
      let desBar := state.2
      { desBar with
        volumeSize := desBar.volumeSize + srcBar.volumeSize
        closePrice := srcBar.closePrice
        highPrice :=
          if |desBar.highPrice - srcBar.highPrice| < 1 / 1000000 then srcBar.highPrice
          else desBar.highPrice
        lowPrice :=
          if |desBar.lowPrice - srcBar.lowPrice| > 1 / 1000000 then srcBar.lowPrice
          else desBar.lowPrice }
  if srcCount = composeMutiple then
    let changePoint := desBar.closePrice - desBar.openPrice
    (0, { desBar with
      changePoint := changePoint
      changePercent := (changePoint / desBar.openPrice) * 100 })
  else (srcCount, desBar)

/-- The composed bar, or `none` where the call returns false and leaves `desBar` alone. -/
def calculateSpecifiedPeriod (c : CCandleBar) (stratPos composeMutiple : Nat)
    (desBar : CandleBar) : Option CandleBar :=
  if c.candles.length > stratPos + composeMutiple then
    some (((c.candles.drop stratPos).take composeMutiple).foldl
      (composeBody composeMutiple) (0, desBar)).2
  else none

def getPrice (c : CCandleBar) (dateIndex : Nat) (type : PriceType) : ℚ :=
  match c.candles[dateIndex]? with
  | none => 0
  | some bar =>
    match type with
    | .openPrice => bar.openPrice
    | .closePrice => bar.closePrice
    | .highPrice => bar.highPrice
    | .lowPrice => bar.lowPrice

/-- The summing loop of `get_ma`, with the number of rounds left. The test
`i >= 0` of an unsigned `i` always holds and `--i` wraps, so that only the count
of summed prices ends the loop. -/
def maSum (c : CCandleBar) (type : PriceType) : Nat → Nat → ℚ → ℚ
  | 0, _, maData => maData
  | rounds + 1, i, maData =>
    maSum c type rounds (if i = 0 then sizeRange - 1 else i - 1) (maData + c.getPrice i type)

def getMa (c : CCandleBar) (dateIndex : Nat) (periods : Int) (type : PriceType) : Option ℚ :=
  if dateIndex ≥ c.candles.length ∨ periods ≤ 0 ∨ periods > dateIndex + 1 then none
  else some (c.maSum type periods.toNat dateIndex 0 / periods)

def getSafePrice (c : CCandleBar) (dateIndex : Nat) (type : PriceType) : ℚ :=
  c.getPrice dateIndex type

variable {c d : CCandleBar} {pos k : Nat} {des bar : CandleBar} {type : PriceType}

@[simp] theorem pushBar_candles (c : CCandleBar) (bar : CandleBar) :
    (c.pushBar bar).candles = c.candles ++ [bar] := rfl

/-- A series grows by bars behind its last one. -/
instance : Preorder CCandleBar where
  le c d := c.candles <+: d.candles
  le_refl c := List.prefix_refl c.candles
  le_trans _ _ _ := List.IsPrefix.trans

theorem le_pushBar (c : CCandleBar) (bar : CandleBar) : c ≤ c.pushBar bar :=
  List.prefix_append c.candles [bar]

theorem length_mono (grow : c ≤ d) : c.candles.length ≤ d.candles.length :=
  List.IsPrefix.length_le grow

theorem getPrice_mono (grow : c ≤ d) {i : Nat} (inside : i < c.candles.length) :
    d.getPrice i type = c.getPrice i type := by
  obtain ⟨more, hmore⟩ := grow
  have same : d.candles[i]? = c.candles[i]? := by
    rw [← hmore, List.getElem?_append_left inside]
  simp only [getPrice, same]

/-- The sum stops before the index can wrap, so it only reads inside the series. -/
theorem maSum_mono (grow : c ≤ d) {rounds i : Nat} (enough : rounds ≤ i + 1)
    (inside : i < c.candles.length) (maData : ℚ) :
    d.maSum type rounds i maData = c.maSum type rounds i maData := by
  induction rounds generalizing i maData with
  | zero => rfl
  | succ rounds ih =>
      simp only [maSum, getPrice_mono grow inside]
      by_cases first : i = 0
      · obtain rfl : rounds = 0 := by omega
        rfl
      · simp only [first, ↓reduceIte]
        exact ih (by omega) (by omega) _

/-- An average inside the series does not depend on later bars. -/
theorem getMa_mono (grow : c ≤ d) {i : Nat} {periods : Int} (inside : i < c.candles.length) :
    d.getMa i periods type = c.getMa i periods type := by
  have longer := length_mono grow
  have inside' : ¬ i ≥ c.candles.length := by omega
  have inside'' : ¬ i ≥ d.candles.length := by omega
  simp only [getMa, inside', inside'', false_or]
  split
  · rfl
  · rw [maSum_mono grow (by omega) inside]

/-- A composed bar does not depend on later bars. -/
theorem calculateSpecifiedPeriod_mono (grow : c.candles <+: d.candles)
    (h : c.calculateSpecifiedPeriod pos k des = some bar) :
    d.calculateSpecifiedPeriod pos k des = some bar := by
  obtain ⟨more, hmore⟩ := grow
  simp only [calculateSpecifiedPeriod, Option.ite_none_right_eq_some] at h ⊢
  obtain ⟨enough, h⟩ := h
  rw [← hmore, List.length_append]
  refine ⟨by omega, ?_⟩
  rwa [List.drop_append_of_le_length (by omega),
    List.take_append_of_le_length (by simp only [List.length_drop]; omega)]

theorem calculateSpecifiedPeriod_nil (h : c.candles = []) :
    c.calculateSpecifiedPeriod pos k des = none := by
  simp [calculateSpecifiedPeriod, h]

private theorem foldl_composeBody_time {n : Nat} {rest : List CandleBar} (started : 0 < n)
    (room : n + rest.length ≤ k) :
    (rest.foldl (composeBody k) (n, des)).2.tradeDay = des.tradeDay ∧
      (rest.foldl (composeBody k) (n, des)).2.tradeTime = des.tradeTime := by
  induction rest generalizing n des with
  | nil => exact ⟨rfl, rfl⟩
  | cons bar rest ih =>
      have later : ¬ n + 1 = 1 := by omega
      simp only [List.length_cons] at room
      simp only [List.foldl_cons, composeBody, later, ↓reduceIte]
      by_cases last : n + 1 = k
      · obtain rfl : rest = [] := List.length_eq_zero_iff.mp (by omega)
        simp [last]
      · simp only [last, ↓reduceIte]
        exact ih (by omega) (by omega)

/-- A composed bar carries the time stamp of the first bar of its block. -/
theorem calculateSpecifiedPeriod_time (hk : 0 < k)
    (h : c.calculateSpecifiedPeriod pos k des = some bar) :
    ∃ first, c.candles[pos]? = some first ∧ bar.tradeDay = first.tradeDay ∧
      bar.tradeTime = first.tradeTime := by
  simp only [calculateSpecifiedPeriod, Option.ite_none_right_eq_some, Option.some.injEq] at h
  obtain ⟨enough, h⟩ := h
  have hpos : pos < c.candles.length := by omega
  obtain ⟨k, rfl⟩ := Nat.exists_eq_succ_of_ne_zero hk.ne'
  rw [List.drop_eq_getElem_cons hpos, Nat.succ_eq_add_one, List.take_succ_cons,
    List.foldl_cons] at h
  refine ⟨c.candles[pos], List.getElem?_eq_getElem hpos, ?_⟩
  rw [← h]
  by_cases single : k = 0
  · simp [single, composeBody]
  · have first : composeBody (k + 1) (0, des) c.candles[pos] = (1, c.candles[pos]) := by
      have : ¬ 1 = k + 1 := by omega
      simp only [composeBody, Nat.zero_add, ↓reduceIte, this]
    rw [first]
    apply foldl_composeBody_time
    · omega
    · simp only [List.length_take]
      omega

end CCandleBar

end CtpTrade
