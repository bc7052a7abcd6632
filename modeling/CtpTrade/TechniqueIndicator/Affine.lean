import CtpTrade.TechniqueIndicator.Verdict
import Mathlib.Tactic.Linarith
import Mathlib.Tactic.Ring

/-!
# Other units of price

An arithmetic average of prices `a * p + b` is the average of the prices `p` in
the other unit. The comparisons of both signal functions only see the sign of
`a`. A negative `a` exchanges the two sides of every comparison, and with them
buying and selling.
-/

namespace CtpTrade

variable {a b : ℚ}

/-- The bar with every price `p` replaced by `a * p + b`. -/
def CandleBar.reprice (a b : ℚ) (bar : CandleBar) : CandleBar :=
  { bar with
    openPrice := a * bar.openPrice + b
    highPrice := a * bar.highPrice + b
    lowPrice := a * bar.lowPrice + b
    closePrice := a * bar.closePrice + b }

namespace CCandleBar

variable {c : CCandleBar} {type : PriceType} {i : Nat}

def reprice (a b : ℚ) (c : CCandleBar) : CCandleBar :=
  { c with candles := c.candles.map (CandleBar.reprice a b) }

@[simp] theorem length_reprice (c : CCandleBar) :
    (c.reprice a b).candles.length = c.candles.length :=
  List.length_map _

theorem getPrice_reprice (inside : i < c.candles.length) :
    (c.reprice a b).getPrice i type = a * c.getPrice i type + b := by
  have here : c.candles[i]? = some c.candles[i] := List.getElem?_eq_getElem inside
  simp only [getPrice, reprice, List.getElem?_map, here, Option.map_some]
  cases type <;> rfl

theorem maSum_reprice {rounds : Nat} (enough : rounds ≤ i + 1) (inside : i < c.candles.length)
    (maData rest : ℚ) :
    (c.reprice a b).maSum type rounds i (a * maData + rest) =
      a * c.maSum type rounds i maData + rounds * b + rest := by
  induction rounds generalizing i maData rest with
  | zero => simp [maSum]
  | succ rounds ih =>
      simp only [maSum, getPrice_reprice inside]
      have next : a * maData + rest + (a * c.getPrice i type + b) =
          a * (maData + c.getPrice i type) + (rest + b) := by ring
      rw [next]
      by_cases first : i = 0
      · obtain rfl : rounds = 0 := by omega
        simp only [maSum, Nat.zero_add, Nat.cast_one]
        ring
      · simp only [first, ↓reduceIte]
        rw [ih (by omega) (by omega)]
        push_cast
        ring

theorem getMa_reprice {periods : Int} :
    (c.reprice a b).getMa i periods type = (c.getMa i periods type).map fun x => a * x + b := by
  simp only [getMa, length_reprice]
  split_ifs with outside
  · rfl
  · rw [not_or, not_or, not_le, not_le, not_lt] at outside
    obtain ⟨inside, positive, enough⟩ := outside
    have sum : (c.reprice a b).maSum type periods.toNat i (a * 0 + 0) =
        a * c.maSum type periods.toNat i 0 + periods.toNat * b + 0 :=
      maSum_reprice (by omega) inside 0 0
    have count : ((periods.toNat : Nat) : ℚ) = periods := by
      exact_mod_cast congrArg (Int.cast : Int → ℚ) (Int.toNat_of_nonneg positive.le)
    have nonzero : (periods : ℚ) ≠ 0 := by exact_mod_cast positive.ne'
    rw [mul_zero, zero_add, count, add_zero] at sum
    rw [sum, Option.map_some, add_div, mul_div_assoc, mul_div_cancel_left₀ b nonzero]

end CCandleBar

namespace CMovingAverage

open CandleCall

variable {now last : Int → Option ℚ} {x : PairAverages}

theorem averages_reprice (c : CCandleBar) (type : PriceType) (dateIndex periods : Int) :
    averages typeMa (c.reprice a b) type dateIndex periods =
      (averages typeMa c type dateIndex periods).map fun x => a * x + b := by
  simp only [averages, average, accessible, CCandleBar.length_reprice, ↓reduceIte]
  split_ifs
  · rfl
  · exact CCandleBar.getMa_reprice

def PairAverages.reprice (a b : ℚ) (x : PairAverages) : PairAverages where
  lastMinor := a * x.lastMinor + b
  lastMajor := a * x.lastMajor + b
  nowMinor := a * x.nowMinor + b
  nowMajor := a * x.nowMajor + b

theorem pairOf_reprice (p q : Int) :
    pairOf (fun p => (now p).map fun y => a * y + b) (fun p => (last p).map fun y => a * y + b)
        p q =
      (pairOf now last p q).map (PairAverages.reprice a b) := by
  simp only [pairOf]
  cases now (min p q) with
  | none => rfl
  | some nowMinor =>
      cases now (max p q) with
      | none => rfl
      | some nowMajor =>
          cases last (min p q) with
          | none => rfl
          | some lastMinor =>
              cases last (max p q) with
              | none => rfl
              | some lastMajor => rfl

/-- The reason with buying and selling exchanged. -/
def swapReason (reason : Int) : Int :=
  if reason = techReasonGoldfork then techReasonDeadfork
  else if reason = techReasonDeadfork then techReasonGoldfork
  else if reason = techReasonLong then techReasonShort
  else if reason = techReasonShort then techReasonLong
  else reason

/-- The signal of the other side, with its reason: what buying is on one side is selling
on the other. -/
def mirror (r : Int × Int) : Int × Int := (-r.1, swapReason r.2)

/-- What becomes of a signal where prices are multiplied by `a`. -/
def turned (a : ℚ) (r : Int × Int) : Int × Int := if 0 < a then r else mirror r

@[simp] theorem turned_silent (a : ℚ) : turned a silent = silent := by
  rw [turned]
  split <;> rfl

theorem turned_of_pos (ha : 0 < a) : turned a = id := by
  funext r
  exact if_pos ha

theorem turned_of_neg (ha : a < 0) : turned a = mirror := by
  funext r
  exact if_neg (not_lt.mpr ha.le)

section Comparisons

variable {y z w : ℚ}

theorem affine_lt_iff_of_pos (ha : 0 < a) (y z : ℚ) : a * y + b < a * z + b ↔ y < z := by
  rw [add_lt_add_iff_right, mul_lt_mul_iff_right₀ ha]

theorem affine_lt_iff_of_neg (ha : a < 0) (y z : ℚ) : a * y + b < a * z + b ↔ z < y := by
  rw [add_lt_add_iff_right, mul_lt_mul_left_of_neg ha]

theorem affine_sub (a b y z : ℚ) : a * y + b - (a * z + b) = a * (y - z) + 0 := by ring

theorem goldCondition_of_pos (ha : 0 < a) (x : PairAverages) :
    goldCondition (x.reprice a b) = goldCondition x := by
  simp only [goldCondition, PairAverages.reprice, gt_iff_lt, ge_iff_le, ← not_lt,
    affine_lt_iff_of_pos ha]

theorem deadCondition_of_pos (ha : 0 < a) (x : PairAverages) :
    deadCondition (x.reprice a b) = deadCondition x := by
  simp only [deadCondition, PairAverages.reprice, gt_iff_lt, ← not_lt, affine_lt_iff_of_pos ha]

theorem goldCondition_of_neg (ha : a < 0) (x : PairAverages) :
    goldCondition (x.reprice a b) = deadCondition x := by
  simp only [goldCondition, deadCondition, PairAverages.reprice, gt_iff_lt, ge_iff_le, ← not_lt,
    affine_lt_iff_of_neg ha]

theorem deadCondition_of_neg (ha : a < 0) (x : PairAverages) :
    deadCondition (x.reprice a b) = goldCondition x := by
  simp only [goldCondition, deadCondition, PairAverages.reprice, gt_iff_lt, ge_iff_le, ← not_lt,
    affine_lt_iff_of_neg ha]

theorem longCondition_of_pos (ha : 0 < a) (x : PairAverages) :
    longCondition (x.reprice a b) = longCondition x := by
  simp only [longCondition, PairAverages.reprice, gt_iff_lt, affine_sub, affine_lt_iff_of_pos ha]

theorem shortCondition_of_pos (ha : 0 < a) (x : PairAverages) :
    shortCondition (x.reprice a b) = shortCondition x := by
  simp only [shortCondition, PairAverages.reprice, affine_sub, affine_lt_iff_of_pos ha]

theorem longCondition_of_neg (ha : a < 0) (x : PairAverages) :
    longCondition (x.reprice a b) = shortCondition x := by
  simp only [longCondition, shortCondition, PairAverages.reprice, gt_iff_lt, affine_sub,
    affine_lt_iff_of_neg ha]

theorem shortCondition_of_neg (ha : a < 0) (x : PairAverages) :
    shortCondition (x.reprice a b) = longCondition x := by
  simp only [longCondition, shortCondition, PairAverages.reprice, gt_iff_lt, affine_sub,
    affine_lt_iff_of_neg ha]

end Comparisons

section Fork

variable {goldFork : Int} {crossed : Bool} {confirms : ℚ → ℚ → Bool} {fork : Int × Int}
variable {rest : List Int}

/-- Averages in another unit are compared in the old unit by other comparisons. -/
theorem confirmation_map (f : ℚ → ℚ) :
    confirmation (fun p => (now p).map f) (fun p => (last p).map f) confirms fork rest =
      confirmation now last (fun y z => confirms (f y) (f z)) fork rest := by
  induction rest with
  | nil => rfl
  | cons period rest ih =>
      rw [confirmation, confirmation]
      cases now period with
      | none => rfl
      | some nowMore =>
          cases last period with
          | none => rfl
          | some lastMore => simp only [Option.map_some, ih]

theorem raised_map (f : ℚ → ℚ) :
    raised (fun p => (now p).map f) (fun p => (last p).map f) crossed confirms fork rest =
      raised now last crossed (fun y z => confirms (f y) (f z)) fork rest := by
  simp only [raised, confirmation_map]

theorem confirmation_mirror :
    confirmation now last confirms (mirror fork) rest =
      (confirmation now last confirms fork rest).map mirror := by
  induction rest with
  | nil => rfl
  | cons period rest ih =>
      rw [confirmation, confirmation]
      cases now period with
      | none => rfl
      | some nowMore =>
          cases last period with
          | none => rfl
          | some lastMore =>
              simp only [ih]
              split_ifs <;> rfl

theorem raised_mirror :
    raised now last crossed confirms (mirror fork) rest =
      (raised now last crossed confirms fork rest).map mirror := by
  simp only [raised, confirmation_mirror]
  split_ifs <;> rfl

theorem raised_of_not_crossed : raised now last false confirms fork rest = none := rfl

/-- The order in which the two sides are tried does not matter. -/
theorem raised_or_comm (goldConfirms deadConfirms : ℚ → ℚ → Bool) (gold dead : Int × Int) :
    (raised now last (goldCondition x) goldConfirms gold rest).or
        (raised now last (deadCondition x) deadConfirms dead rest) =
      (raised now last (deadCondition x) deadConfirms dead rest).or
        (raised now last (goldCondition x) goldConfirms gold rest) := by
  cases crossed : goldCondition x with
  | false => rw [raised_of_not_crossed, Option.none_or, Option.or_none]
  | true =>
      have notDead : deadCondition x = false :=
        Bool.eq_false_of_not_eq_true (not_dead_of_gold crossed)
      rw [notDead, raised_of_not_crossed, Option.none_or, Option.or_none]

theorem pairFork_reprice (ha : a ≠ 0) (b : ℚ) :
    pairFork (fun p => (now p).map fun y => a * y + b) (fun p => (last p).map fun y => a * y + b)
        goldFork (-goldFork) rest (x.reprice a b) =
      (pairFork now last goldFork (-goldFork) rest x).map (turned a) := by
  rw [pairFork, pairFork, raised_map, raised_map]
  obtain negative | positive := lt_or_gt_of_ne ha
  · have gold : mirror (goldFork, techReasonGoldfork) = (-goldFork, techReasonDeadfork) := rfl
    have dead : mirror (-goldFork, techReasonDeadfork) = (goldFork, techReasonGoldfork) := by
      rw [mirror, neg_neg]
      rfl
    simp only [gt_iff_lt, affine_lt_iff_of_neg negative, goldCondition_of_neg negative,
      deadCondition_of_neg negative, turned_of_neg negative, Option.map_or, ← raised_mirror, gold,
      dead]
    exact (raised_or_comm _ _ _ _).symm
  · simp only [gt_iff_lt, affine_lt_iff_of_pos positive, goldCondition_of_pos positive,
      deadCondition_of_pos positive, turned_of_pos positive, Option.map_id, id_eq]

theorem forkSignal_reprice (ha : a ≠ 0) (b : ℚ) (cycle : List Int) :
    forkSignal (fun p => (now p).map fun y => a * y + b) (fun p => (last p).map fun y => a * y + b)
        goldFork (-goldFork) cycle =
      turned a (forkSignal now last goldFork (-goldFork) cycle) := by
  induction cycle with
  | nil => exact (turned_silent a).symm
  | cons p cycle ih =>
      cases cycle with
      | nil => exact (turned_silent a).symm
      | cons q rest =>
          rw [forkSignal, forkSignal, pairOf_reprice, ih]
          cases pairOf now last p q with
          | none => exact (turned_silent a).symm
          | some x =>
              simp only [Option.map_some, pairFork_reprice ha]
              cases pairFork now last goldFork (-goldFork) rest x with
              | none => rfl
              | some r => rfl

end Fork

section Trend

variable {dirLong : Int} {first : Bool} {trend : Int × Int}

theorem trendStep_reprice (ha : a ≠ 0) (b : ℚ) (x : PairAverages) :
    trendStep dirLong (-dirLong) first (turned a trend) (x.reprice a b) =
      turned a (trendStep dirLong (-dirLong) first trend x) := by
  obtain negative | positive := lt_or_gt_of_ne ha
  · rw [turned_of_neg negative]
    have buy : signalIsBuy (mirror trend).1 = signalIsSell trend.1 := by
      simp [mirror, signalIsBuy, signalIsSell]
    have sell : signalIsSell (mirror trend).1 = signalIsBuy trend.1 := by
      simp [mirror, signalIsBuy, signalIsSell]
    have long : mirror (dirLong, techReasonLong) = (-dirLong, techReasonShort) := rfl
    have short : mirror (-dirLong, techReasonShort) = (dirLong, techReasonLong) := by
      rw [mirror, neg_neg]
      rfl
    have quiet : mirror silent = silent := rfl
    simp only [trendStep, longCondition_of_neg negative, shortCondition_of_neg negative, buy, sell,
      apply_ite mirror, long, short, quiet]
    cases rising : longCondition x with
    | false => simp only [Bool.false_eq_true, false_and, ↓reduceIte]
    | true =>
        have notShort : shortCondition x = false :=
          Bool.eq_false_of_not_eq_true (not_short_of_long rising)
        simp only [notShort, Bool.false_eq_true, false_and, ↓reduceIte]
  · simp only [trendStep, turned_of_pos positive, longCondition_of_pos positive,
      shortCondition_of_pos positive, id_eq]

theorem trendOver_reprice (ha : a ≠ 0) (b : ℚ) (pairs : List (Option PairAverages)) :
    trendOver dirLong (-dirLong) first (turned a trend)
        (pairs.map (Option.map (PairAverages.reprice a b))) =
      turned a (trendOver dirLong (-dirLong) first trend pairs) := by
  induction pairs generalizing first trend with
  | nil => rfl
  | cons pair pairs ih =>
      cases pair with
      | none =>
          rw [List.map_cons, Option.map_none, trendOver, trendOver]
          obtain negative | positive := lt_or_gt_of_ne ha
          · rw [turned_of_neg negative]
            rfl
          · rw [turned_of_pos positive]
            rfl
      | some x =>
          rw [List.map_cons, Option.map_some, trendOver, trendOver, trendStep_reprice ha, ih]

theorem trendSignal_reprice (ha : a ≠ 0) (b : ℚ) (cycle : List Int) :
    trendSignal (fun p => (now p).map fun y => a * y + b)
        (fun p => (last p).map fun y => a * y + b) dirLong (-dirLong) cycle =
      turned a (trendSignal now last dirLong (-dirLong) cycle) := by
  have pairs : pairsOf (fun p => (now p).map fun y => a * y + b)
      (fun p => (last p).map fun y => a * y + b) cycle =
      (pairsOf now last cycle).map (Option.map (PairAverages.reprice a b)) := by
    simp only [pairsOf, List.map_map, pairOf_reprice]
    rfl
  rw [trendSignal, trendSignal, pairs, ← trendOver_reprice ha, turned_silent]

end Trend

/-- With the arithmetic type a change of the price unit leaves both signals as they are,
and a change that turns prices around turns both into their mirror images. It is assumed
that the flags of the two sides mirror each other. -/
theorem signals_equivariant (ma : CMovingAverage)
    (arithmetic : ma.maAttribute.attributeType = typeMa) (c : CCandleBar) (dateIndex : Int)
    (cycle : List Int) (type : PriceType) {goldFork deadFork dirLong dirShort : Int}
    (fork : goldFork = -deadFork) (trend : dirLong = -dirShort) {a : ℚ} (ha : a ≠ 0) (b : ℚ) :
    ∃ f t, outcome (getForkSignal dateIndex cycle type goldFork deadFork) ma c = some f ∧
      outcome (getTrendSignal dateIndex cycle type dirLong dirShort) ma c = some t ∧
      outcome (getForkSignal dateIndex cycle type goldFork deadFork) ma (c.reprice a b) =
        some (if 0 < a then f else mirror f) ∧
      outcome (getTrendSignal dateIndex cycle type dirLong dirShort) ma (c.reprice a b) =
        some (if 0 < a then t else mirror t) := by
  obtain rfl : deadFork = -goldFork := by omega
  obtain rfl : dirShort = -dirLong := by omega
  have kind : ma.typeInForce = typeMa := ofType_typeMa arithmetic
  have priced (index : Int) : averages typeMa (c.reprice a b) type index =
      fun p => (averages typeMa c type index p).map fun y => a * y + b := by
    funext p
    exact averages_reprice c type index p
  refine ⟨_, _, outcome_getForkSignal .., outcome_getTrendSignal .., ?_, ?_⟩
  · rw [outcome_getForkSignal, kind, priced, priced, forkSignal_reprice ha]
    by_cases early : dateIndex ≤ 0
    · simp only [early, ↓reduceIte]
      exact congrArg some (turned_silent a).symm
    · simp only [early, ↓reduceIte, turned]
  · rw [outcome_getTrendSignal, kind, priced, priced, trendSignal_reprice ha]
    by_cases early : dateIndex ≤ 0
    · simp only [early, ↓reduceIte]
      exact congrArg some (turned_silent a).symm
    · simp only [early, ↓reduceIte, turned]

/-- Prices that rise steeply, and their mirror image. -/
theorem signals_equivariant_sample :
    outcome (getTrendSignal 3 [1, 2] .closePrice 10 (-10)) { maAttribute := defaultAttribute }
      ((closing [1, 2, 4, 8]).reprice (-2) 7) = some (-10, techReasonShort) := by
  obtain ⟨f, t, -, trend, -, turned⟩ := signals_equivariant { maAttribute := defaultAttribute } rfl
    (closing [1, 2, 4, 8]) 3 [1, 2] .closePrice (show (15 : Int) = -(-15) by decide)
    (show (10 : Int) = -(-10) by decide) (show (-2 : ℚ) ≠ 0 by decide) 7
  have long : outcome (getTrendSignal 3 [1, 2] .closePrice 10 (-10))
      { maAttribute := defaultAttribute } (closing [1, 2, 4, 8]) = some (10, techReasonLong) := by
    decide +kernel
  obtain rfl : (10, techReasonLong) = t := by simpa [long] using trend
  rw [turned]
  decide +kernel

end CMovingAverage

end CtpTrade
