import CtpTrade.CandleBar.MovingAverage
import CtpTrade.TechniqueIndicator.Readiness
import Mathlib.Algebra.Order.BigOperators.Group.Finset

/-!
# What a fork means

The fork loop returns from the middle: the first pair of the cycle that forks
decides, on its own side. Where all averages are available this is a statement
about their values at the bar and one bar before. With the default parameters
these are means of closing prices, so that forks need two means that move against
each other, and a market that only moves one way has none.
-/

namespace CtpTrade

namespace CMovingAverage

open CandleCall

section Decides

variable (now last : Int → ℚ)

/-- The shorter average crosses the falling longer one from below between the two bars.
The longer one has to fall strictly, so two averages that rise together do not cross. -/
def CrossesUp (s l : Int) : Prop :=
  last s < now s ∧ now l < last l ∧ last s < last l ∧ now l ≤ now s

/-- The shorter average crosses the rising longer one from above between the two bars.
The longer one has to rise strictly. -/
def CrossesDown (s l : Int) : Prop :=
  now s < last s ∧ last l < now l ∧ last l < last s ∧ now s ≤ now l

/-- The pair raises a gold fork: it crosses upwards, and a later period of the cycle
rises too, unless there is no later period. -/
def GoldPair (p q : Int) (rest : List Int) : Prop :=
  CrossesUp now last (min p q) (max p q) ∧ (rest = [] ∨ ∃ r ∈ rest, last r < now r)

/-- The pair raises a dead fork: it crosses downwards, and a later period of the cycle
falls too, unless there is no later period. -/
def DeadPair (p q : Int) (rest : List Int) : Prop :=
  CrossesDown now last (min p q) (max p q) ∧ (rest = [] ∨ ∃ r ∈ rest, now r < last r)

/-- The first pair of the cycle that forks at all does so on this side. Later pairs play
no part. -/
def FirstFork (side : Int → Int → List Int → Prop) : List Int → Prop
  | p :: q :: rest =>
    side p q rest ∨ ¬ GoldPair now last p q rest ∧ ¬ DeadPair now last p q rest ∧
      FirstFork side (q :: rest)
  | _ => False

end Decides

section Meaning

variable {now last : Int → ℚ} {p q : Int} {rest cycle : List Int}

theorem goldCondition_pairValues (pq : Int × Int) :
    goldCondition (pairValues now last pq) ↔
      CrossesUp now last (min pq.1 pq.2) (max pq.1 pq.2) := by
  rw [goldCondition, decide_eq_true_eq]
  exact Iff.rfl

theorem deadCondition_pairValues (pq : Int × Int) :
    deadCondition (pairValues now last pq) ↔
      CrossesDown now last (min pq.1 pq.2) (max pq.1 pq.2) := by
  rw [deadCondition, decide_eq_true_eq]
  exact Iff.rfl

theorem not_deadPair_of_gold (gold : GoldPair now last p q rest) : ¬ DeadPair now last p q rest :=
  fun dead => lt_asymm gold.1.1 dead.1.1

/-- A pair returns its fork, or leaves the decision to the later ones. -/
theorem pairFork_cases (now last : Int → ℚ) (p q : Int) (rest : List Int)
    (goldFork deadFork : Int) :
    let r := pairFork (fun p => some (now p)) (fun p => some (last p)) goldFork deadFork rest
      (pairValues now last (p, q))
    GoldPair now last p q rest ∧ r = some (goldFork, techReasonGoldfork) ∨
      DeadPair now last p q rest ∧ r = some (deadFork, techReasonDeadfork) ∨
      ¬ GoldPair now last p q rest ∧ ¬ DeadPair now last p q rest ∧ r = none := by
  intro r
  have gold (x : Int × Int) : raised (fun p => some (now p)) (fun p => some (last p))
      (goldCondition (pairValues now last (p, q))) (fun now last => now > last)
      (goldFork, techReasonGoldfork) rest = some x ↔
        (goldFork, techReasonGoldfork) = x ∧ GoldPair now last p q rest := by
    rw [raised_available_iff, goldCondition_pairValues]
    simp only [decide_eq_true_eq]
    exact Iff.rfl
  have dead (x : Int × Int) : raised (fun p => some (now p)) (fun p => some (last p))
      (deadCondition (pairValues now last (p, q))) (fun now last => now < last)
      (deadFork, techReasonDeadfork) rest = some x ↔
        (deadFork, techReasonDeadfork) = x ∧ DeadPair now last p q rest := by
    rw [raised_available_iff, deadCondition_pairValues]
    simp only [decide_eq_true_eq]
    exact Iff.rfl
  by_cases isGold : GoldPair now last p q rest
  · refine .inl ⟨isGold, ?_⟩
    simp only [r, pairFork, (gold _).mpr ⟨rfl, isGold⟩, Option.some_or]
  · have noGold := Option.eq_none_iff_forall_not_mem.mpr fun x hx => isGold ((gold x).mp hx).2
    by_cases isDead : DeadPair now last p q rest
    · refine .inr (.inl ⟨isDead, ?_⟩)
      simp only [r, pairFork, noGold, (dead _).mpr ⟨rfl, isDead⟩, Option.none_or]
    · have noDead := Option.eq_none_iff_forall_not_mem.mpr fun x hx => isDead ((dead x).mp hx).2
      refine .inr (.inr ⟨isGold, isDead, ?_⟩)
      simp only [r, pairFork, noGold, noDead, Option.none_or]

/-- The first pair that forks gives the signal and the reason. -/
theorem forkSignal_cases_available (now last : Int → ℚ) (goldFork deadFork : Int)
    (cycle : List Int) :
    let r := forkSignal (fun p => some (now p)) (fun p => some (last p)) goldFork deadFork cycle
    FirstFork now last (GoldPair now last) cycle ∧ ¬ FirstFork now last (DeadPair now last) cycle ∧
        r = (goldFork, techReasonGoldfork) ∨
      FirstFork now last (DeadPair now last) cycle ∧
        ¬ FirstFork now last (GoldPair now last) cycle ∧ r = (deadFork, techReasonDeadfork) ∨
      ¬ FirstFork now last (GoldPair now last) cycle ∧
        ¬ FirstFork now last (DeadPair now last) cycle ∧ r = silent := by
  induction cycle with
  | nil => exact .inr (.inr ⟨id, id, rfl⟩)
  | cons p cycle ih =>
      cases cycle with
      | nil => exact .inr (.inr ⟨id, id, rfl⟩)
      | cons q rest =>
          rw [forkSignal_available_cons]
          simp only [FirstFork]
          obtain ⟨gold, found⟩ | ⟨dead, found⟩ | ⟨noGold, noDead, found⟩ :=
            pairFork_cases now last p q rest goldFork deadFork
          · have noDead := not_deadPair_of_gold gold
            rw [found]
            exact .inl ⟨.inl gold, by simp [gold, noDead], rfl⟩
          · have noGold : ¬ GoldPair now last p q rest := fun gold =>
              not_deadPair_of_gold gold dead
            rw [found]
            exact .inr (.inl ⟨.inl dead, by simp [dead, noGold], rfl⟩)
          · rw [found]
            simpa only [noGold, noDead, false_or, not_false_eq_true, true_and,
              Option.getD_none] using ih

/-- The call depends on the averages of its periods alone. -/
theorem outcome_getForkSignal_available {ma : CMovingAverage} {c : CCandleBar} {dateIndex : Int}
    (later : 1 ≤ dateIndex) {type : PriceType}
    (hnow : ∀ p ∈ cycle, outcome (calculate dateIndex p type false 0) ma c = some (some (now p)))
    (hlast : ∀ p ∈ cycle,
      outcome (calculate (dateIndex - 1) p type false 0) ma c = some (some (last p)))
    (goldFork deadFork : Int) :
    outcome (getForkSignal dateIndex cycle type goldFork deadFork) ma c =
      some
        (forkSignal (fun p => some (now p)) (fun p => some (last p)) goldFork deadFork cycle) := by
  have available (index : Int) (upTo : index ≤ dateIndex.toNat) (values : Int → ℚ)
      (h : ∀ p ∈ cycle, outcome (calculate index p type false 0) ma c = some (some (values p))) :
      ∀ p, p ∈ cycle → Program.Computes answer (c.AgreeUpTo dateIndex.toNat)
        (OfType ma.typeInForce) (calculate index p type false 0) (some (values p)) := by
    intro p hp
    have value := h p hp
    rw [outcome_calculate] at value
    rw [← Option.some.inj value]
    exact calculate_computes upTo
  have gives : CTechniqueIndicator.Gives calculate (c.AgreeUpTo dateIndex.toNat)
      (OfType ma.typeInForce) dateIndex type (· ∈ cycle) (fun p => some (now p))
      (fun p => some (last p)) :=
    ⟨available _ (by omega) now hnow, available _ (by omega) last hlast⟩
  have result := outcome_of_computes (gives.getForkSignal goldFork deadFork fun _ hp => hp)
    (.refl _ c)
  rwa [getForkSignal_calculate, if_neg (by omega)] at result

/-- With all averages available the first pair that forks gives the signal: the gold
flag where it crosses upwards, the dead flag where it crosses downwards, and nothing
exactly where no pair forks. The two flags and the empty signal are assumed to be
different, so that they can be told apart. -/
theorem fork_signal_meaning (ma : CMovingAverage) (c : CCandleBar) {dateIndex : Int}
    (later : 1 ≤ dateIndex) {cycle : List Int} {type : PriceType} {now last : Int → ℚ}
    (hnow : ∀ p ∈ cycle, outcome (calculate dateIndex p type false 0) ma c = some (some (now p)))
    (hlast : ∀ p ∈ cycle,
      outcome (calculate (dateIndex - 1) p type false 0) ma c = some (some (last p)))
    {goldFork deadFork : Int} (differ : [techSignalNothing, goldFork, deadFork].Nodup) :
    ∃ r, outcome (getForkSignal dateIndex cycle type goldFork deadFork) ma c = some r ∧
      (r.1 = goldFork ↔ FirstFork now last (GoldPair now last) cycle) ∧
      (r.1 = deadFork ↔ FirstFork now last (DeadPair now last) cycle) ∧
      (r.1 ≠ goldFork → r.1 ≠ deadFork → r.1 = techSignalNothing) := by
  simp only [List.nodup_cons, List.mem_cons, List.not_mem_nil, or_false, not_or,
    not_false_eq_true, List.nodup_nil, and_true] at differ
  obtain ⟨⟨noGold, noDead⟩, apart⟩ := differ
  refine ⟨_, outcome_getForkSignal_available later hnow hlast goldFork deadFork, ?_⟩
  obtain ⟨gold, notDead, same⟩ | ⟨dead, notGold, same⟩ | ⟨notGold, notDead, same⟩ :=
    forkSignal_cases_available now last goldFork deadFork cycle
  · rw [same]
    exact ⟨iff_of_true rfl gold, iff_of_false apart notDead, fun none => absurd rfl none⟩
  · rw [same]
    exact ⟨iff_of_false (Ne.symm apart) notGold, iff_of_true rfl dead,
      fun _ none => absurd rfl none⟩
  · rw [same]
    exact ⟨iff_of_false noGold notGold, iff_of_false noDead notDead, fun _ _ => rfl⟩

/-- Closes that bounce: the shorter mean rises through the falling longer one. -/
theorem fork_signal_meaning_bounce :
    ∃ r, outcome (getForkSignal 3 [1, 3] .closePrice 10 (-10)) {} (closing [9, 4, 1, 5]) =
      some r ∧ r.1 = 10 := by
  have crosses : FirstFork (fun p => if p = 1 then 5 else 10 / 3)
      (fun p => if p = 1 then 1 else 14 / 3)
      (GoldPair (fun p => if p = 1 then 5 else 10 / 3) (fun p => if p = 1 then 1 else 14 / 3))
      [1, 3] := by
    refine .inl ⟨?_, .inl rfl⟩
    simp only [CrossesUp]
    decide +kernel
  obtain ⟨r, result, gold, -⟩ := fork_signal_meaning {} (closing [9, 4, 1, 5])
    (show (1 : Int) ≤ 3 by decide)
    (show ∀ p ∈ [(1 : Int), 3], outcome (calculate 3 p .closePrice false 0) {}
      (closing [9, 4, 1, 5]) = some (some (if p = 1 then 5 else 10 / 3)) by decide +kernel)
    (show ∀ p ∈ [(1 : Int), 3], outcome (calculate (3 - 1) p .closePrice false 0) {}
      (closing [9, 4, 1, 5]) = some (some (if p = 1 then 1 else 14 / 3)) by decide +kernel)
    (show [techSignalNothing, 10, -10].Nodup by decide)
  exact ⟨r, result, gold.mpr crosses⟩

end Meaning

section Default

variable {c : CCandleBar} {idx : Nat}

/-- The means of the closing prices up to a bar, by period. -/
def closeMeans (c : CCandleBar) (idx : Nat) (p : Int) : ℚ := c.mean idx p.toNat .closePrice

theorem outcome_calculate_mean {ma : CMovingAverage} (arithmetic : OfType typeMa ma)
    (inside : idx < c.candles.length) {p : Int} (positive : 0 < p) (enough : p ≤ idx + 1) :
    outcome (calculate idx p .closePrice false 0) ma c = some (some (closeMeans c idx p)) := by
  have kind : ma.typeInForce = typeMa := arithmetic
  have accepted : accessible c idx p := by
    simp only [accessible, sizeOfInt_natCast, decide_eq_true_eq]
    omega
  have divisor : ((p.toNat : Nat) : ℚ) = (p : ℚ) := by
    rw [← Int.cast_natCast, Int.toNat_of_nonneg positive.le]
  have reached : ¬ (¬ accessible c idx p ∨ p > idx + 1) := by
    simp only [accepted, not_true_eq_false, false_or]
    omega
  rw [outcome_calculate, kind, average, if_neg reached, if_pos rfl, sizeOfInt_natCast,
    CCandleBar.getMa, if_neg (by omega),
    CCandleBar.maSum_eq_sum c .closePrice (by omega), zero_add, closeMeans, CCandleBar.mean,
    divisor]

/-- The averages of the default periods at a bar, as `calculate` yields them for the
closing prices to an indicator with the default parameters. Where the code computes in
floating point, these are the values that it compares. -/
def AveragesAt (c : CCandleBar) (idx : Nat) (averages : Int → ℚ) : Prop :=
  ∀ p ∈ defaultAttribute.periodCycle,
    outcome (calculate idx p .closePrice false 0) fresh c = some (some (averages p))

/-- Behind the largest period all averages are there. -/
theorem averagesAt_closeMeans (enough : 4 ≤ idx + 1) (inside : idx < c.candles.length) :
    AveragesAt c idx (closeMeans c idx) := by
  intro p hp
  have periods : ∀ p ∈ defaultAttribute.periodCycle, 0 < p ∧ p ≤ 4 := by decide
  obtain ⟨positive, small⟩ := periods p hp
  exact outcome_calculate_mean (ofType_typeMa rfl) inside positive (by omega)

/-- The fork at a bar is the one of the averages at the bar and at the bar before it. -/
theorem evaluateFork_of_averages {now last : Int → ℚ} (later : 0 < idx)
    (hnow : AveragesAt c idx now) (hlast : AveragesAt c (idx - 1) last) :
    evaluateFork c idx =
      some (forkSignal (fun p => some (now p)) (fun p => some (last p))
        defaultAttribute.flagGoldfork defaultAttribute.flagDeadfork
        defaultAttribute.periodCycle) := by
  have same (i : Nat) (p : Int) : outcome (calculate i p .closePrice false 0) (readingAt idx) c =
      outcome (calculate i p .closePrice false 0) fresh c := by
    rw [outcome_calculate, outcome_calculate]
    rfl
  have before : ((idx : Int) - 1) = ((idx - 1 : Nat) : Int) := by omega
  refine outcome_getForkSignal_available (by omega) ?_ ?_ _ _
  · intro p hp
    rw [same, hnow p hp]
  · intro p hp
    rw [before, same, hlast p hp]

/-- At a bar behind the largest period the fork is the one of the closing means. -/
theorem evaluateFork_means (first : firstIndex ≤ idx) (inside : idx < c.candles.length) :
    evaluateFork c idx =
      some (forkSignal (fun p => some (closeMeans c idx p))
        (fun p => some (closeMeans c (idx - 1) p)) defaultAttribute.flagGoldfork
        defaultAttribute.flagDeadfork defaultAttribute.periodCycle) := by
  have four : firstIndex = 4 := rfl
  have before : idx - 1 < c.candles.length := by omega
  exact evaluateFork_of_averages (by omega) (averagesAt_closeMeans (by omega) inside)
    (averagesAt_closeMeans (by omega) before)

end Default

section OneWay

variable {now last : Int → ℚ}

/-- A fork needs two averages that move against each other. -/
theorem not_firstFork_of_oneWay {side : Int → Int → List Int → Prop}
    (sides : ∀ p q rest, side p q rest → GoldPair now last p q rest ∨ DeadPair now last p q rest)
    {cycle : List Int} (oneWay : (∀ p ∈ cycle, last p ≤ now p) ∨ ∀ p ∈ cycle, now p ≤ last p) :
    ¬ FirstFork now last side cycle := by
  induction cycle with
  | nil => exact id
  | cons p cycle ih =>
      cases cycle with
      | nil => exact id
      | cons q rest =>
          have member : min p q ∈ p :: q :: rest ∧ max p q ∈ p :: q :: rest :=
            ⟨min_rec' (· ∈ p :: q :: rest) (by simp) (by simp),
              max_rec' (· ∈ p :: q :: rest) (by simp) (by simp)⟩
          have later := ih (oneWay.imp (fun up r hr => up r (List.mem_cons_of_mem p hr))
            (fun down r hr => down r (List.mem_cons_of_mem p hr)))
          have noGold : ¬ GoldPair now last p q rest := by
            rintro ⟨⟨minorUp, majorDown, -⟩, -⟩
            obtain up | down := oneWay
            · exact absurd majorDown (not_lt.mpr (up _ member.2))
            · exact absurd minorUp (not_lt.mpr (down _ member.1))
          have noDead : ¬ DeadPair now last p q rest := by
            rintro ⟨⟨minorDown, majorUp, -⟩, -⟩
            obtain up | down := oneWay
            · exact absurd minorDown (not_lt.mpr (up _ member.1))
            · exact absurd majorUp (not_lt.mpr (down _ member.2))
          rintro (here | ⟨-, -, there⟩)
          · exact (sides p q rest here).elim noGold noDead
          · exact later there

variable {c : CCandleBar} {idx : Nat}

/-- The closing prices never fall, or never rise. No average can then turn, and no pair
can cross. -/
def ClosesOneWay (bars : List CandleBar) : Prop :=
  bars.Pairwise (·.closePrice ≤ ·.closePrice) ∨ bars.Pairwise (·.closePrice ≥ ·.closePrice)

theorem getPrice_close {bar : CandleBar} (h : c.candles[idx]? = some bar) :
    c.getPrice idx .closePrice = bar.closePrice := by
  rw [CCandleBar.getPrice, h]

/-- The means move the same way as the prices. -/
theorem closeMeans_oneWay (oneWay : ClosesOneWay c.candles) (inside : idx < c.candles.length)
    (positive : 0 < idx) :
    (∀ p : Int, p ≤ idx → closeMeans c (idx - 1) p ≤ closeMeans c idx p) ∨
      ∀ p : Int, p ≤ idx → closeMeans c idx p ≤ closeMeans c (idx - 1) p := by
  have price (i : Nat) (hi : i < c.candles.length) :
      c.getPrice i .closePrice = c.candles[i].closePrice :=
    getPrice_close (List.getElem?_eq_getElem hi)
  refine oneWay.imp (fun up p enough => ?_) (fun down p enough => ?_)
  · refine div_le_div_of_nonneg_right (Finset.sum_le_sum fun j hj => ?_) (Nat.cast_nonneg _)
    have room := Finset.mem_range.mp hj
    rw [price _ (by omega), price _ (by omega)]
    exact List.pairwise_iff_getElem.mp up _ _ _ _ (by omega)
  · refine div_le_div_of_nonneg_right (Finset.sum_le_sum fun j hj => ?_) (Nat.cast_nonneg _)
    have room := Finset.mem_range.mp hj
    rw [price _ (by omega), price _ (by omega)]
    exact List.pairwise_iff_getElem.mp down _ _ _ _ (by omega)

theorem evaluateFork_oneWay (oneWay : ClosesOneWay c.candles) (first : firstIndex ≤ idx)
    (inside : idx < c.candles.length) : evaluateFork c idx = some silent := by
  have four : firstIndex = 4 := rfl
  have periods : ∀ p ∈ defaultAttribute.periodCycle, p ≤ 4 := by decide
  have means := (closeMeans_oneWay oneWay inside (by omega)).imp
    (fun up p (hp : p ∈ defaultAttribute.periodCycle) =>
      up p (by have := periods p hp; omega))
    (fun down p (hp : p ∈ defaultAttribute.periodCycle) =>
      down p (by have := periods p hp; omega))
  rw [evaluateFork_means first inside]
  obtain ⟨gold, -⟩ | ⟨dead, -⟩ | ⟨-, -, same⟩ := forkSignal_cases_available
    (closeMeans c idx) (closeMeans c (idx - 1)) defaultAttribute.flagGoldfork
    defaultAttribute.flagDeadfork defaultAttribute.periodCycle
  · exact absurd gold (not_firstFork_of_oneWay (fun _ _ _ => .inl) means)
  · exact absurd dead (not_firstFork_of_oneWay (fun _ _ _ => .inr) means)
  · rw [same]

end OneWay

end CMovingAverage

end CtpTrade
