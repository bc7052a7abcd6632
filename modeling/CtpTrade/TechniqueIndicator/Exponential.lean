import CtpTrade.Library.Smoothing
import CtpTrade.TechniqueIndicator.Verdict
import Mathlib.Tactic.FieldSimp
import Mathlib.Tactic.Linarith

/-!
# The exponential average

The documented recurrence smooths the prices up to `date_index`. The loop reads
the last price at every round, so it smooths a sequence that has this price at
all later positions. The difference of both is a weighted sum of the differences
between the prices in the middle and the last one.
-/

namespace CtpTrade

namespace CMovingAverage

open CandleCall Smoothing

/-- The recurrence that the comment on `calculate` documents, with `a = 2 / (n + 1)`. It
begins with the price of the first bar of the series. -/
def maExp (price : Nat → ℚ) (n : Int) : Nat → ℚ
  | 0 => price 0
  | i + 1 => (1 - 2 / (n + 1)) * maExp price n i + 2 / (n + 1) * price (i + 1)

/-- What the comment of the source asks of the exponential average at `d`: the call
gives the recurrence, whether it computes it anew or goes on from its last value. -/
structure FollowsRecurrence (ma : CMovingAverage) (c : CCandleBar) (type : PriceType) (d : Nat)
    (n : Int) : Prop where
  full : ∀ data, outcome (calculate d n type false data) ma c =
    some (some (maExp (c.getPrice · type) n d))
  incremental : ∀ data, (∀ i, d = i + 1 → data = maExp (c.getPrice · type) n i) →
    outcome (calculate d n type true data) ma c = some (some (maExp (c.getPrice · type) n d))

/-- The differences of the prices between the first and the last one to the last one,
weighted by age, cancel. The loop uses the last price in their place, so this is when it
does not matter. -/
def MiddleCancels (price : Nat → ℚ) (n : Int) (d : Nat) : Prop :=
  ∑ j ∈ Finset.range (d - 1), ((n - 1 : ℚ) / (n + 1)) ^ (d - 1 - j) * (price (j + 1) - price d) = 0

section Exponential

variable {ma : CMovingAverage} {c : CCandleBar} {type : PriceType} {d : Nat} {n : Int}
variable {price : Nat → ℚ} {data : ℚ} {useLast : Bool}

/-- What the past weighs in the average. -/
def pastWeight (n : Int) : ℚ := (n - 1) / (n + 1)

theorem periods_add_one_ne_zero (hn : 0 < n) : (n : ℚ) + 1 ≠ 0 := by
  have positive : (0 : ℚ) < n := by exact_mod_cast hn
  linarith

theorem one_sub_pastWeight (hn : 0 < n) : 1 - pastWeight n = 2 / (n + 1) := by
  have nonzero := periods_add_one_ne_zero hn
  rw [pastWeight]
  field_simp
  ring

theorem maExp_eq_smooth (hn : 0 < n) (i : Nat) :
    maExp price n i = smooth (pastWeight n) price i := by
  induction i with
  | zero => rfl
  | succ i ih =>
      rw [maExp, smooth_succ, ih, ← one_sub_pastWeight hn]
      ring

theorem maExpStep_eq (hn : 0 < n) (maData price : ℚ) :
    maExpStep maData price n = pastWeight n * maData + (1 - pastWeight n) * price := by
  rw [maExpStep, one_sub_pastWeight hn, pastWeight]
  ring

/-- The prices as the loop reads them: the first one, and in every round behind it the
last one. -/
def held (price : Nat → ℚ) (d : Nat) (i : Nat) : ℚ := if i = 0 then price 0 else price d

theorem expAverage_eq_smooth (hn : 0 < n) (i : Nat) :
    expAverage c d n type i = smooth (pastWeight n) (held (c.getPrice · type) d) i := by
  induction i with
  | zero => rfl
  | succ i ih =>
      have later : held (c.getPrice · type) d (i + 1) = c.getPrice d type :=
        if_neg (Nat.succ_ne_zero i)
      rw [expAverage, smooth_succ, ih, maExpStep_eq hn, later, sizeOfInt_natCast]

/-- The loop is right exactly if the prices in the middle cancel. -/
theorem expAverage_eq_iff (hn : 0 < n) :
    expAverage c d n type d = maExp (c.getPrice · type) n d ↔
      MiddleCancels (c.getPrice · type) n d := by
  have difference := smooth_sub_smooth (r := pastWeight n) (p := (c.getPrice · type))
    (q := held (c.getPrice · type) d) rfl d
  have factor : 1 - pastWeight n ≠ 0 := by
    rw [one_sub_pastWeight hn]
    exact div_ne_zero two_ne_zero (periods_add_one_ne_zero hn)
  rw [expAverage_eq_smooth hn, maExp_eq_smooth hn, eq_comm, ← sub_eq_zero, difference,
    mul_eq_zero, or_iff_right factor, MiddleCancels]
  cases d with
  | zero => simp
  | succ k =>
      rw [Finset.sum_range_succ]
      simp [held, pastWeight]

theorem outcome_calculate_exp (valid : ma.isValidParameters)
    (exponential : ma.maAttribute.attributeType = typeMaExp) (inside : d < c.candles.length)
    (hn : 0 < n) (enough : n ≤ d + 1) (useLast : Bool) (data : ℚ) :
    outcome (calculate d n type useLast data) ma c =
      some (some (if useLast ∧ data ≠ 0 then
          if d = 0 then c.getPrice d type else maExpStep data (c.getPrice d type) n
        else expAverage c d n type d)) := by
  have kind : ma.typeInForce = typeMaExp := by rw [typeInForce, inForce_of_valid valid, exponential]
  have access : accessible c d n := by
    simp only [accessible, sizeOfInt_natCast, decide_eq_true_eq]
    omega
  have granted : ¬ (¬ accessible c d n ∨ n > (d : Int) + 1) := by
    rw [not_or, not_not]
    exact ⟨access, by omega⟩
  have other : ¬ typeMaExp = typeMa := by decide
  rw [outcome_calculate, kind, average, if_neg granted, if_neg other, sizeOfInt_natCast,
    Int.toNat_natCast]
  simp only [Nat.cast_eq_zero]
  split_ifs <;> rfl

/-- Both ways of computing the exponential average give the recurrence exactly if the
prices between the first and the last one cancel. The loop of the source reads the last
price in every round. -/
theorem follows_recurrence_iff (valid : ma.isValidParameters)
    (exponential : ma.maAttribute.attributeType = typeMaExp) (inside : d < c.candles.length)
    (hn : 0 < n) (enough : n ≤ d + 1) :
    FollowsRecurrence ma c type d n ↔ MiddleCancels (c.getPrice · type) n d := by
  rw [← expAverage_eq_iff hn]
  have value (useLast : Bool) (data : ℚ) : outcome (calculate d n type useLast data) ma c = _ :=
    outcome_calculate_exp valid exponential inside hn enough useLast data
  constructor
  · intro follows
    have full := follows.full 0
    simpa [value] using full
  · intro loop
    refine ⟨?_, ?_⟩
    · intro data
      simp [value, loop]
    · intro data last
      rw [value]
      by_cases fresh : true = true ∧ data ≠ 0
      · rw [if_pos fresh]
        cases d with
        | zero => rfl
        | succ i =>
            rw [if_neg (Nat.succ_ne_zero i), maExpStep_eq hn, last i rfl, maExp,
              ← one_sub_pastWeight hn, sub_sub_cancel]
      · rw [if_neg fresh, loop]

/-- For instance where all prices behind the first one are the same. -/
theorem middleCancels_of_flat (flat : ∀ j, 0 < j → j < d → price j = price d) :
    MiddleCancels price n d := by
  apply Finset.sum_eq_zero
  intro j hj
  have inside := Finset.mem_range.mp hj
  rw [flat (j + 1) (Nat.succ_pos j) (by omega), sub_self, mul_zero]

end Exponential

/-- Parameters of the exponential type that an access accepts. -/
def sampleExponential : CMovingAverage where
  maAttribute :=
    { attributeType := typeMaExp
      flagGoldfork := techSignalSellIntense
      flagDeadfork := techSignalSellIntense
      flagLong := techSignalSellIntense
      flagShort := techSignalSellIntense
      periodCycle := [2] }

theorem follows_recurrence_iff_flat :
    FollowsRecurrence sampleExponential (closing [1, 3, 3]) .closePrice 2 2 := by
  refine (follows_recurrence_iff (by decide) rfl (by decide) (by decide) (by decide)).mpr ?_
  apply middleCancels_of_flat
  intro j first before
  obtain rfl : j = 1 := by omega
  rfl

/-- Prices that rise faster and faster, for which nothing cancels. -/
theorem recurrence_not_followed :
    ¬ ∀ (ma : CMovingAverage) (c : CCandleBar) (type : PriceType) (d : Nat) (n : Int),
      ma.isValidParameters → ma.maAttribute.attributeType = typeMaExp → d < c.candles.length →
      0 < n → n ≤ d + 1 → FollowsRecurrence ma c type d n := by
  intro claim
  have full := (claim sampleExponential (closing [0, 1, 3]) .closePrice 2 2 (by decide) rfl
    (by decide) (by decide) (by decide)).full 0
  have given : outcome (calculate (2 : Nat) 2 .closePrice false 0) sampleExponential
      (closing [0, 1, 3]) = some (some (8 / 3)) := by decide +kernel
  have documented : maExp ((closing [0, 1, 3]).getPrice · .closePrice) 2 2 = 20 / 9 := by
    decide +kernel
  rw [given, documented] at full
  exact absurd full (by decide +kernel)

end CMovingAverage

end CtpTrade
