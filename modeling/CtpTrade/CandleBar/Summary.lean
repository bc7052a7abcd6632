import CtpTrade.CandleBar.Conversion
import CtpTrade.Library.Tracking

/-!
# What a composed bar says about its block

Open, close, volume and change of a composed bar are those of its block. The high
and the low are tracked with tests on the tolerance: the high goes on to the next
bar whose high is nearly the same, the low to the next bar whose low is not. The
extremes of the block are kept exactly if the two ways end at them.
-/

namespace CtpTrade

open Tracking

/-- The prices differ by less than the tolerance with which the code takes two prices
for equal. -/
def Near (p q : ℚ) : Prop := |p - q| < 1 / 1000000

/-- The prices differ by more than the tolerance with which the code takes two prices
for equal. -/
def Apart (p q : ℚ) : Prop := |p - q| > 1 / 1000000

instance (p q : ℚ) : Decidable (Near p q) := inferInstanceAs (Decidable (_ < _))
instance (p q : ℚ) : Decidable (Apart p q) := inferInstanceAs (Decidable (_ > _))

/-- A bar that one of the two composing calls of the class makes of a block of `m` bars:
`calculate_specified_period` on the bars behind a position, or a conversion that pushes
one bar for each whole block. -/
inductive ComposedOf : List CandleBar → CandleBar → Prop where
  | specified {c : CCandleBar} {pos m : Nat} {desBar bar : CandleBar} (hm : 1 ≤ m)
      (composed : c.calculateSpecifiedPeriod pos m desBar = some bar) :
      ComposedOf ((c.candles.drop pos).take m) bar
  | converted {c des : CCandleBar} {m j : Nat} {bar : CandleBar} (hm : 2 ≤ m)
      (pushed : (c.convertKdataAndClear m des).2.candles[des.candles.length + j]? = some bar) :
      ComposedOf ((c.candles.drop (j * m)).take m) bar

/-- What a composed bar is for: it opens with the first bar of the block and closes with
the last one, has the highest high and the lowest low of all of them, and carries their
whole volume. -/
structure SummarisesBlock (block : List CandleBar) (bar : CandleBar) : Prop where
  openPrice : ∀ first ∈ block.head?, bar.openPrice = first.openPrice
  closePrice : ∀ last ∈ block.getLast?, bar.closePrice = last.closePrice
  highPrice : IsGreatest {price | price ∈ block.map (·.highPrice)} bar.highPrice
  lowPrice : IsLeast {price | price ∈ block.map (·.lowPrice)} bar.lowPrice
  volumeSize : bar.volumeSize = (block.map (·.volumeSize)).sum
  changePoint : bar.changePoint = bar.closePrice - bar.openPrice

/-- The condition for a block with arbitrary prices, also ones that are nearer to each
other than the tolerance. From the first high one moves on to the next high that is
nearer than the tolerance, and so on through the block: the high on which this ends is a
highest one. From the first low one moves on to the next low that is farther than the
tolerance: the low on which this ends is a lowest one. These are the two tests of the
source, neither of which asks which price is the greater one; on prices that are a price
step apart the condition is `FallsThrough`. -/
def ExtremesKept : List CandleBar → Prop
  | [] => False
  | first :: rest =>
    (∃ top, Leads Near first.highPrice (rest.map (·.highPrice)) top ∧
      ∀ price ∈ (first :: rest).map (·.highPrice), price ≤ top) ∧
    ∃ bottom, Leads Apart first.lowPrice (rest.map (·.lowPrice)) bottom ∧
      ∀ price ∈ (first :: rest).map (·.lowPrice), bottom ≤ price

/-- The first bar has the highest high and the last bar the lowest low, as in a market
that falls through the whole block. For prices on a price step above the tolerance, as
an exchange has them, this is exactly when a composed bar is right. -/
def FallsThrough (block : List CandleBar) : Prop :=
  ∀ first ∈ block.head?, ∀ last ∈ block.getLast?, ∀ bar ∈ block,
    bar.highPrice ≤ first.highPrice ∧ last.lowPrice ≤ bar.lowPrice

section Fields

variable {first last bar : CandleBar} {rest block : List CandleBar}

theorem foldl_mergeBar_openPrice (rest : List CandleBar) (first : CandleBar) :
    (rest.foldl mergeBar first).openPrice = first.openPrice := by
  induction rest generalizing first with
  | nil => rfl
  | cons bar rest ih => exact ih (mergeBar first bar)

theorem foldl_mergeBar_closePrice (rest : List CandleBar) (first : CandleBar) :
    (rest.foldl mergeBar first).closePrice =
      ((first :: rest).getLast (List.cons_ne_nil first rest)).closePrice := by
  induction rest generalizing first with
  | nil => rfl
  | cons bar rest ih =>
      rw [List.foldl_cons, ih (mergeBar first bar), List.getLast_cons_cons]
      cases rest with
      | nil => rfl
      | cons next rest => rw [List.getLast_cons_cons, List.getLast_cons_cons]

theorem foldl_mergeBar_highPrice (rest : List CandleBar) (first : CandleBar) :
    (rest.foldl mergeBar first).highPrice =
      track Near first.highPrice (rest.map (·.highPrice)) := by
  induction rest generalizing first with
  | nil => rfl
  | cons bar rest ih =>
      rw [List.foldl_cons, ih (mergeBar first bar), List.map_cons, track_cons]
      change track Near (if Near first.highPrice bar.highPrice then bar.highPrice
        else first.highPrice) _ = _
      split_ifs <;> rfl

theorem foldl_mergeBar_lowPrice (rest : List CandleBar) (first : CandleBar) :
    (rest.foldl mergeBar first).lowPrice =
      track Apart first.lowPrice (rest.map (·.lowPrice)) := by
  induction rest generalizing first with
  | nil => rfl
  | cons bar rest ih =>
      rw [List.foldl_cons, ih (mergeBar first bar), List.map_cons, track_cons]
      change track Apart (if Apart first.lowPrice bar.lowPrice then bar.lowPrice
        else first.lowPrice) _ = _
      split_ifs <;> rfl

/-- Both composing calls make the same bar of a block. -/
theorem ComposedOf.eq (h : ComposedOf block bar) : block ≠ [] ∧ bar = composeBlock block := by
  cases h with
  | @specified c pos m desBar _ hm composed =>
      have enough : pos + m < c.candles.length := by
        simp only [CCandleBar.calculateSpecifiedPeriod, Option.ite_none_right_eq_some] at composed
        exact composed.1
      have whole : ((c.candles.drop pos).take m).length = m := by
        rw [List.length_take, List.length_drop]
        omega
      refine ⟨List.length_pos_iff.mp (by omega), ?_⟩
      by_cases single : m = 1
      · subst single
        obtain ⟨only, same⟩ := List.length_eq_one_iff.mp whole
        rw [CCandleBar.calculateSpecifiedPeriod, if_pos enough, same] at composed
        rw [same]
        exact (Option.some.inj composed).symm
      · rw [CCandleBar.calculateSpecifiedPeriod_eq c pos (by omega), if_pos enough] at composed
        exact (Option.some.inj composed).symm
  | @converted c des m j _ hm pushed =>
      rw [CCandleBar.convertKdataAndClear_eq hm, List.getElem?_append_right (by omega),
        Nat.add_sub_cancel_left, List.getElem?_map, Option.map_eq_some_iff] at pushed
      obtain ⟨part, hpart, rfl⟩ := pushed
      have whole := Blocks.length_of_mem_blocks (List.mem_of_getElem? hpart)
      have inside : j < c.candles.length / m := by
        rw [← Blocks.length_blocks]
        exact (List.getElem?_eq_some_iff.mp hpart).1
      rw [Blocks.getElem?_blocks inside] at hpart
      obtain rfl := Option.some.inj hpart
      exact ⟨List.length_pos_iff.mp (by omega), rfl⟩

/-- All but the extremes are always right. -/
theorem summarisesBlock_composeBlock_iff (first : CandleBar) (rest : List CandleBar) :
    SummarisesBlock (first :: rest) (composeBlock (first :: rest)) ↔
      (∀ price ∈ (first :: rest).map (·.highPrice),
        price ≤ track Near first.highPrice (rest.map (·.highPrice))) ∧
      ∀ price ∈ (first :: rest).map (·.lowPrice),
        track Apart first.lowPrice (rest.map (·.lowPrice)) ≤ price := by
  have high : (composeBlock (first :: rest)).highPrice =
      track Near first.highPrice (rest.map (·.highPrice)) := foldl_mergeBar_highPrice rest first
  have low : (composeBlock (first :: rest)).lowPrice =
      track Apart first.lowPrice (rest.map (·.lowPrice)) := foldl_mergeBar_lowPrice rest first
  constructor
  · intro summary
    rw [← high, ← low]
    exact ⟨fun price hprice => summary.highPrice.2 hprice,
      fun price hprice => summary.lowPrice.2 hprice⟩
  · rintro ⟨above, below⟩
    refine ⟨?_, ?_, ?_, ?_, composeBlock_volumeSize _, rfl⟩
    · rintro head hhead
      cases hhead
      exact foldl_mergeBar_openPrice rest first
    · intro last hlast
      rw [List.getLast?_eq_getLast_of_ne_nil (List.cons_ne_nil first rest)] at hlast
      cases hlast
      exact foldl_mergeBar_closePrice rest first
    · rw [high]
      exact ⟨track_mem, fun price hprice => above price hprice⟩
    · rw [low]
      exact ⟨track_mem, fun price hprice => below price hprice⟩

theorem extremesKept_iff (first : CandleBar) (rest : List CandleBar) :
    ExtremesKept (first :: rest) ↔
      (∀ price ∈ (first :: rest).map (·.highPrice),
        price ≤ track Near first.highPrice (rest.map (·.highPrice))) ∧
      ∀ price ∈ (first :: rest).map (·.lowPrice),
        track Apart first.lowPrice (rest.map (·.lowPrice)) ≤ price := by
  simp only [ExtremesKept, ← track_eq_iff, exists_eq_left']

/-- Any two highs, and any two lows, are equal or apart. -/
theorem PriceSteps.extremes (steps : PriceSteps block) {one other : CandleBar} (hone : one ∈ block)
    (hother : other ∈ block) :
    (one.highPrice = other.highPrice ∨ Apart one.highPrice other.highPrice) ∧
      (one.lowPrice = other.lowPrice ∨ Apart one.lowPrice other.lowPrice) := by
  have price (bar : CandleBar) (hbar : bar ∈ block) (p : ℚ) (hp : p ∈ bar.prices) :
      p ∈ block.flatMap CandleBar.prices := List.mem_flatMap.mpr ⟨bar, hbar, hp⟩
  constructor
  · exact steps _ (price one hone _ (by simp [CandleBar.prices])) _
      (price other hother _ (by simp [CandleBar.prices]))
  · exact steps _ (price one hone _ (by simp [CandleBar.prices])) _
      (price other hother _ (by simp [CandleBar.prices]))

/-- On a price step above the tolerance the high stays at the first bar and the low
ends at the last one. -/
theorem extremesKept_iff_fallsThrough (first : CandleBar) (rest : List CandleBar)
    (steps : PriceSteps (first :: rest)) :
    ExtremesKept (first :: rest) ↔ FallsThrough (first :: rest) := by
  have high : track Near first.highPrice (rest.map (·.highPrice)) = first.highPrice := by
    apply track_eq_self
    intro price hprice near
    obtain ⟨bar, hbar, rfl⟩ := List.mem_map.mp hprice
    obtain same | far :=
      (steps.extremes (List.mem_cons_self ..) (List.mem_cons_of_mem first hbar)).1
    · exact same.symm
    · exact absurd near (not_lt.mpr (le_of_lt far))
  have low : track Apart first.lowPrice (rest.map (·.lowPrice)) =
      ((first :: rest).getLast (List.cons_ne_nil first rest)).lowPrice := by
    rw [track_eq_getLast]
    · exact List.getLast_map (f := CandleBar.lowPrice) (l := first :: rest) _
    · intro p hp q hq differ
      obtain ⟨one, hone, rfl⟩ := List.mem_map.mp (show p ∈ (first :: rest).map (·.lowPrice) from hp)
      obtain ⟨other, hother, rfl⟩ :=
        List.mem_map.mp (show q ∈ (first :: rest).map (·.lowPrice) from hq)
      exact (steps.extremes hone hother).2.resolve_left differ
  rw [extremesKept_iff, high, low]
  simp only [List.forall_mem_map, FallsThrough, List.head?_cons, Option.mem_some_iff,
    forall_eq', List.getLast?_eq_getLast_of_ne_nil (List.cons_ne_nil first rest),
    forall_and]

end Fields

/-- Three bars that fall. -/
def fallingTriple : CCandleBar :=
  { candles := [{ openPrice := 4, highPrice := 4, lowPrice := 3, closePrice := 3 },
      { openPrice := 3, highPrice := 3, lowPrice := 2, closePrice := 2 }, {}] }

/-- Three bars, the first two of which rise. -/
def risingTriple : CCandleBar :=
  { candles := [{ openPrice := 1, highPrice := 2, lowPrice := 1, closePrice := 2 },
      { openPrice := 2, highPrice := 4, lowPrice := 2, closePrice := 4 }, {}] }

end CtpTrade
