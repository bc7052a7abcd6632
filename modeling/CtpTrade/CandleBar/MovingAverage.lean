import CtpTrade.CandleBar
import CtpTrade.Library.Loop
import Mathlib.Algebra.BigOperators.Group.Finset.Basic

/-!
# The loop of `get_ma`

The index of the loop is a `size_t`, so its condition `i >= 0` never fails and a
decrement below zero would wrap. Here the arguments and the variables have their
machine types. The guard in front of the loop leaves exactly the calls for which
the count reaches `periods` before the index has to go below zero, and for them
the call gives the mean. `getMa`, which the indicators read, is this call with its
result as an option.
-/

namespace CtpTrade

/-- The variables of the loop of `get_ma`, with the widths they have in the source. -/
structure MaLoop where
  i : UInt64
  kCount : Int32
  maData : ℚ

namespace CCandleBar

/-- A round of the loop from the test of its condition on; behind the loop the
function returns false. The result is the returned value and `data`. -/
def maBody (c : CCandleBar) (periods : Int32) (type : PriceType) (data : ℚ) (v : MaLoop) :
    (Bool × ℚ) ⊕ MaLoop :=
  if v.i ≥ 0 then
    let maData := v.maData + c.getPrice v.i.toNat type
    let kCount := v.kCount + 1
    if periods = kCount then .inl (true, maData / periods.toInt)
    else .inr { i := v.i - 1, kCount, maData }
  else .inl (false, data)

/-- The variables in front of the first round. -/
def maStart (dateIndex : UInt64) : MaLoop := { i := dateIndex, kCount := 0, maData := 0 }

/-- The call with its loop cut off after a number of rounds; `none` if it is still
running. The comparison with `periods` is one of `size_t`, and its right-hand side can
wrap. -/
def getMaWithin (c : CCandleBar) (dateIndex : UInt64) (periods : Int32) (type : PriceType)
    (data : ℚ) (rounds : Nat) : Option (Bool × ℚ) :=
  if dateIndex < 0 ∨ dateIndex.toNat ≥ c.candles.length ∨ periods ≤ 0 ∨
      sizeOfInt periods.toInt > (dateIndex + 1).toNat then some (false, data)
  else
    match Loop.after (c.maBody periods type data) rounds (maStart dateIndex) with
    | .inl result => some result
    | .inr _ => none

/-- The arithmetic mean of the last `periods` prices up to `dateIndex`, which is what
the loop is for. -/
def mean (c : CCandleBar) (dateIndex periods : Nat) (type : PriceType) : ℚ :=
  (∑ j ∈ Finset.range periods, c.getPrice (dateIndex - j) type) / periods

/-- The condition under which `get_ma` has an average to give: there is at least one
period, and the periods end inside the series and begin at its first bar or later. -/
def Averageable (c : CCandleBar) (dateIndex : UInt64) (periods : Int32) : Prop :=
  0 < periods.toInt ∧ periods.toInt ≤ dateIndex.toNat + 1 ∧ dateIndex.toNat < c.candles.length

/-- The invariant of the loop of `get_ma`. In front of round `k` the index has been
decremented `k` times without a wrap and points into the series, and the sum is the one
of the `k` latest prices. -/
structure MaRound (c : CCandleBar) (dateIndex : UInt64) (type : PriceType) (k : Nat)
    (v : MaLoop) : Prop where
  index : v.i.toNat + k = dateIndex.toNat
  inside : v.i.toNat < c.candles.length
  count : v.kCount.toInt = k
  sum : v.maData = ∑ j ∈ Finset.range k, c.getPrice (dateIndex.toNat - j) type

section Rounds

variable {c : CCandleBar} {dateIndex : UInt64} {periods : Int32} {type : PriceType} {data : ℚ}
variable {k : Nat} {v : MaLoop}

theorem maRound_start (inside : dateIndex.toNat < c.candles.length) :
    MaRound c dateIndex type 0 (maStart dateIndex) where
  index := rfl
  inside := inside
  count := rfl
  sum := rfl

/-- The count stays in the range of `int`, as it does not get above `periods`. -/
theorem MaRound.count_succ (h : MaRound c dateIndex type k v) (room : (k : Int) < periods.toInt) :
    (v.kCount + 1).toInt = k + 1 := by
  have high := periods.toInt_lt
  have next : v.kCount + 1 = Int32.ofInt (k + 1) := by
    rw [Int32.ofInt_add, ← h.count, Int32.ofInt_toInt]
    rfl
  rw [next]
  apply Int32.toInt_ofInt_of_le <;> omega

theorem MaRound.sum_succ (h : MaRound c dateIndex type k v) :
    v.maData + c.getPrice v.i.toNat type =
      ∑ j ∈ Finset.range (k + 1), c.getPrice (dateIndex.toNat - j) type := by
  have position : v.i.toNat = dateIndex.toNat - k := by
    have := h.index
    omega
  rw [Finset.sum_range_succ, h.sum, position]

/-- A round that is not the last one. -/
theorem MaRound.next (h : MaRound c dateIndex type k v) (accepted : Averageable c dateIndex periods)
    (room : (k : Int) + 1 < periods.toInt) :
    ∃ v', c.maBody periods type data v = .inr v' ∧ MaRound c dateIndex type (k + 1) v' := by
  obtain ⟨positive, enough, inside⟩ := accepted
  have counted : (k : Int) < periods.toInt := by omega
  have count := h.count_succ counted
  have index := h.index
  have more : ¬ periods = v.kCount + 1 := by
    intro same
    rw [same, count] at room
    omega
  have above : 1 ≤ v.i := by
    rw [UInt64.le_iff_toNat_le]
    change 1 ≤ v.i.toNat
    omega
  have down : (v.i - 1).toNat = v.i.toNat - 1 := UInt64.toNat_sub_of_le _ _ above
  have condition : v.i ≥ 0 := UInt64.zero_le
  refine ⟨{ i := v.i - 1, kCount := v.kCount + 1, maData := v.maData + c.getPrice v.i.toNat type },
    ?_, ?_⟩
  · simp only [maBody, condition, more, ↓reduceIte]
  · refine ⟨?_, ?_, ?_, h.sum_succ⟩
    · rw [down]
      omega
    · rw [down]
      omega
    · rw [count]
      rfl

/-- The round in which the count reaches `periods`. -/
theorem MaRound.last (h : MaRound c dateIndex type k v) (room : (k : Int) + 1 = periods.toInt) :
    c.maBody periods type data v = .inl (true, c.mean dateIndex.toNat (k + 1) type) := by
  have counted : (k : Int) < periods.toInt := by omega
  have count := h.count_succ counted
  have reached : periods = v.kCount + 1 := by
    rw [← Int32.toInt_inj, count, room]
  have condition : v.i ≥ 0 := UInt64.zero_le
  have divisor : ((periods.toInt : Int) : ℚ) = ((k + 1 : Nat) : ℚ) := by
    rw [← room]
    push_cast
    rfl
  simp only [maBody, condition, ← reached, ↓reduceIte, h.sum_succ, divisor, mean]

/-- The loop of an accepted call returns the mean in round `periods`. -/
theorem ends_maBody (accepted : Averageable c dateIndex periods) (type : PriceType) (data : ℚ) :
    Loop.Ends (c.maBody periods type data) (maStart dateIndex) periods.toInt.toNat
      (true, c.mean dateIndex.toNat periods.toInt.toNat type) := by
  have positive := accepted.1
  obtain ⟨n, hn⟩ := Nat.exists_eq_add_one_of_ne_zero (n := periods.toInt.toNat) (by omega)
  rw [hn]
  apply Loop.ends_of_counts (I := MaRound c dateIndex type) (maRound_start accepted.2.2)
  · intro k inside v h
    exact h.next accepted (by omega)
  · intro v h
    exact h.last (by omega)

/-- In each of its rounds the loop reads inside the series. -/
theorem maRound_of_lt (accepted : Averageable c dateIndex periods)
    (inside : (k : Int) < periods.toInt) (type : PriceType) (data : ℚ) :
    ∃ v, Loop.after (c.maBody periods type data) k (maStart dateIndex) = .inr v ∧
      MaRound c dateIndex type k v := by
  apply Loop.after_of_counts (n := k) (I := MaRound c dateIndex type)
    (maRound_start accepted.2.2) _ k (Nat.le_refl k)
  intro j before v h
  exact h.next accepted (by omega)

/-- The guard refuses the other calls; the sum at the top of `size_t` does not matter,
because no series has a bar there. -/
theorem guard_iff (sized : c.candles.length < sizeRange) (dateIndex : UInt64) (periods : Int32) :
    (dateIndex < 0 ∨ dateIndex.toNat ≥ c.candles.length ∨ periods ≤ 0 ∨
      sizeOfInt periods.toInt > (dateIndex + 1).toNat) ↔ ¬ Averageable c dateIndex periods := by
  have below : ¬ dateIndex < 0 := UInt64.not_lt_zero
  have sign : periods ≤ 0 ↔ periods.toInt ≤ 0 := Int32.le_iff_toInt_le
  rw [or_iff_right below, sign, Averageable]
  by_cases inside : dateIndex.toNat < c.candles.length
  · have next : (dateIndex + 1).toNat = dateIndex.toNat + 1 := by
      rw [UInt64.toNat_add]
      apply Nat.mod_eq_of_lt
      change dateIndex.toNat + 1 < 2 ^ 64
      simp only [sizeRange] at sized
      omega
    rw [next]
    by_cases positive : 0 < periods.toInt
    · have size : sizeOfInt periods.toInt = periods.toInt.toNat := if_pos positive.le
      rw [size]
      omega
    · omega
  · omega

theorem getMaWithin_of_refused (refused : ¬ Averageable c dateIndex periods)
    (sized : c.candles.length < sizeRange) (rounds : Nat) :
    c.getMaWithin dateIndex periods type data rounds = some (false, data) := by
  rw [getMaWithin, if_pos ((guard_iff sized dateIndex periods).mpr refused)]

theorem getMaWithin_of_averageable (accepted : Averageable c dateIndex periods)
    (sized : c.candles.length < sizeRange) (rounds : Nat) :
    c.getMaWithin dateIndex periods type data rounds =
      if (rounds : Int) < periods.toInt then none
      else some (true, c.mean dateIndex.toNat periods.toInt.toNat type) := by
  have passed := (guard_iff sized dateIndex periods).not.mpr (not_not.mpr accepted)
  rw [getMaWithin, if_neg passed]
  by_cases running : (rounds : Int) < periods.toInt
  · obtain ⟨v, reached, -⟩ := maRound_of_lt accepted running type data
    rw [reached, if_pos running]
  · have enough : periods.toInt.toNat ≤ rounds := by omega
    have returned := (ends_maBody accepted type data).after_eq enough
    rw [returned, if_neg running]

end Rounds

/-- The sum adds the prices from the index downwards. -/
theorem maSum_eq_sum (c : CCandleBar) (type : PriceType) {rounds i : Nat}
    (enough : rounds ≤ i + 1) (maData : ℚ) :
    c.maSum type rounds i maData =
      maData + ∑ j ∈ Finset.range rounds, c.getPrice (i - j) type := by
  induction rounds generalizing i maData with
  | zero =>
      rw [Finset.sum_range_zero, add_zero]
      rfl
  | succ rounds ih =>
      rw [maSum, Finset.sum_range_succ', Nat.sub_zero]
      by_cases first : i = 0
      · obtain rfl : rounds = 0 := by omega
        rw [Finset.sum_range_zero, zero_add]
        rfl
      · have shift (j : Nat) : i - 1 - j = i - (j + 1) := by omega
        rw [if_neg first, ih (by omega)]
        simp only [shift]
        rw [add_assoc, add_comm (c.getPrice i type)]

theorem getMa_of_averageable {c : CCandleBar} {dateIndex : UInt64} {periods : Int32}
    {type : PriceType} (accepted : Averageable c dateIndex periods) :
    c.getMa dateIndex.toNat periods.toInt type =
      some (c.mean dateIndex.toNat periods.toInt.toNat type) := by
  obtain ⟨positive, enough, inside⟩ := accepted
  have divisor : ((periods.toInt.toNat : Nat) : ℚ) = ((periods.toInt : Int) : ℚ) := by
    rw [← Int.cast_natCast, Int.toNat_of_nonneg positive.le]
  rw [getMa, if_neg (by omega), maSum_eq_sum c type (by omega), zero_add, mean, divisor]

/-- Enough rounds give what the model of the indicators takes for the call. -/
theorem getMaWithin_eq_getMa {c : CCandleBar} (sized : c.candles.length < sizeRange)
    (dateIndex : UInt64) (periods : Int32) (type : PriceType) (data : ℚ) {rounds : Nat}
    (enough : periods.toInt ≤ rounds) :
    c.getMaWithin dateIndex periods type data rounds =
      match c.getMa dateIndex.toNat periods.toInt type with
      | some mean => some (true, mean)
      | none => some (false, data) := by
  by_cases accepted : Averageable c dateIndex periods
  · rw [getMaWithin_of_averageable accepted sized, getMa_of_averageable accepted,
      if_neg (not_lt.mpr enough)]
  · have none : c.getMa dateIndex.toNat periods.toInt type = none := by
      apply if_pos
      simp only [Averageable] at accepted
      omega
    rw [getMaWithin_of_refused accepted sized, none]

/-- The call returns true exactly for positive periods that lie inside the series, and
then `data` is the mean of their prices. The loop takes `periods` rounds, in each of
which the index is the one of the next bar. -/
theorem get_ma_exact (c : CCandleBar) (sized : c.candles.length < sizeRange)
    (dateIndex : UInt64) (periods : Int32) (type : PriceType) (data : ℚ) :
    ∃ returned out,
      (∀ rounds : Nat, c.getMaWithin dateIndex periods type data rounds =
        if returned = true ∧ (rounds : Int) < periods.toInt then none
        else some (returned, out)) ∧
      (returned = true ↔ 0 < periods.toInt ∧ periods.toInt ≤ dateIndex.toNat + 1 ∧
        dateIndex.toNat < c.candles.length) ∧
      (returned = true → out = (∑ j ∈ Finset.range periods.toInt.toNat,
        c.getPrice (dateIndex.toNat - j) type) / (periods.toInt.toNat : ℚ)) ∧
      (returned = false → out = data) ∧
      (returned = true → ∀ k : Nat, (k : Int) < periods.toInt →
        ∃ v, Loop.after (c.maBody periods type data) k (maStart dateIndex) = .inr v ∧
          v.i.toNat + k = dateIndex.toNat ∧ v.i.toNat < c.candles.length) := by
  by_cases accepted : Averageable c dateIndex periods
  · refine ⟨true, c.mean dateIndex.toNat periods.toInt.toNat type, ?_, ?_, ?_, ?_, ?_⟩
    · intro rounds
      rw [getMaWithin_of_averageable accepted sized]
      simp only [true_and]
    · exact iff_of_true rfl accepted
    · exact fun _ => rfl
    · exact fun refused => absurd refused.symm Bool.false_ne_true
    · intro _ k inside
      obtain ⟨v, reached, round⟩ := maRound_of_lt accepted inside type data
      exact ⟨v, reached, round.index, round.inside⟩
  · refine ⟨false, data, ?_, ?_, ?_, ?_, ?_⟩
    · intro rounds
      rw [getMaWithin_of_refused accepted sized]
      simp only [Bool.false_eq_true, false_and, ↓reduceIte]
    · exact iff_of_false Bool.false_ne_true accepted
    · exact fun returned => absurd returned Bool.false_ne_true
    · exact fun _ => rfl
    · exact fun returned => absurd returned Bool.false_ne_true

/-- Three closing prices. -/
def threeCloses : CCandleBar :=
  { candles := [{ closePrice := 1 }, { closePrice := 2 }, { closePrice := 6 }] }

theorem get_ma_exact_three :
    threeCloses.getMaWithin 2 3 .closePrice 0 2 = none ∧
      threeCloses.getMaWithin 2 3 .closePrice 0 3 = some (true, 3) := by
  obtain ⟨returned, out, call, accepted, mean, -⟩ :=
    get_ma_exact threeCloses (by decide) 2 3 .closePrice 0
  obtain rfl : returned = true := accepted.mpr (by decide)
  have value : out = 3 := (mean rfl).trans (by decide +kernel)
  subst value
  exact ⟨(call 2).trans (by decide), (call 3).trans (by decide)⟩

end CCandleBar

end CtpTrade
