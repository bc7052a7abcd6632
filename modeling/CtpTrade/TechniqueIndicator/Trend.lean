import CtpTrade.TechniqueIndicator.Signals
import CtpTrade.TechniqueIndicator.Verdict
import Mathlib.Data.List.Induction

/-!
# What the signals mean

The trend loop keeps its verdict in one variable and overwrites it at each pair.
Over pairs that have all their averages this amounts to a conjunction
(`trendVerdict`): all pairs long, or all pairs short. A pair without an average
ends the loop; then the signal is taken back, but not the reason.
-/

namespace CtpTrade

namespace CMovingAverage

open CandleCall

/-- All pairs long, or all pairs short. -/
def trendVerdict (dirLong dirShort : Int) (as : List PairAverages) : Int × Int :=
  if as = [] then silent
  else if ∀ a ∈ as, longCondition a then (dirLong, techReasonLong)
  else if ∀ a ∈ as, shortCondition a then (dirShort, techReasonShort)
  else silent

section Verdict

variable {dirLong dirShort : Int} {a : PairAverages} {before as : List PairAverages}

/-- A verdict is long, short or silent, and it is long or short for a reason. -/
theorem trendVerdict_cases (dirLong dirShort : Int) (as : List PairAverages) :
    trendVerdict dirLong dirShort as = (dirLong, techReasonLong) ∧ as ≠ [] ∧
        (∀ a ∈ as, longCondition a) ∨
      trendVerdict dirLong dirShort as = (dirShort, techReasonShort) ∧ as ≠ [] ∧
        (∀ a ∈ as, shortCondition a) ∨
      trendVerdict dirLong dirShort as = silent ∧
        (as = [] ∨ (¬ ∀ a ∈ as, longCondition a) ∧ ¬ ∀ a ∈ as, shortCondition a) := by
  rw [trendVerdict]
  by_cases empty : as = []
  · rw [if_pos empty]
    exact .inr (.inr ⟨rfl, .inl empty⟩)
  · rw [if_neg empty]
    by_cases long : ∀ a ∈ as, longCondition a
    · rw [if_pos long]
      exact .inl ⟨rfl, empty, long⟩
    · rw [if_neg long]
      by_cases short : ∀ a ∈ as, shortCondition a
      · rw [if_pos short]
        exact .inr (.inl ⟨rfl, empty, short⟩)
      · rw [if_neg short]
        exact .inr (.inr ⟨rfl, .inr ⟨long, short⟩⟩)

theorem not_all_short_of_long (some : as ≠ []) (long : ∀ a ∈ as, longCondition a) :
    ¬ ∀ a ∈ as, shortCondition a := by
  obtain ⟨a, rest, rfl⟩ := List.exists_cons_of_ne_nil some
  have first : a ∈ a :: rest := List.mem_cons_self ..
  exact fun short => not_short_of_long (long a first) (short a first)

/-- The sign of the direct tells which conditions held so far. -/
theorem trendVerdict_sign (hl : 0 < dirLong) (hs : dirShort < 0) (some : as ≠ []) :
    (signalIsBuy (trendVerdict dirLong dirShort as).1 ↔ ∀ a ∈ as, longCondition a) ∧
      (signalIsSell (trendVerdict dirLong dirShort as).1 ↔ ∀ a ∈ as, shortCondition a) := by
  simp only [signalIsBuy, signalIsSell, decide_eq_true_eq]
  obtain ⟨same, -, long⟩ | ⟨same, -, short⟩ | ⟨same, no⟩ := trendVerdict_cases dirLong dirShort as
  · have notShort := not_all_short_of_long some long
    rw [same]
    exact ⟨iff_of_true hl long, iff_of_false (by omega) notShort⟩
  · have notLong : ¬ ∀ a ∈ as, longCondition a :=
      fun long => not_all_short_of_long some long short
    rw [same]
    exact ⟨iff_of_false (by omega) notLong, iff_of_true hs short⟩
  · obtain ⟨notLong, notShort⟩ := no.resolve_left some
    rw [same]
    exact ⟨iff_of_false (by decide) notLong, iff_of_false (by decide) notShort⟩

/-- One round turns the verdict on the pairs so far into the one with the next pair. -/
theorem trendStep_verdict (hl : 0 < dirLong) (hs : dirShort < 0) (before : List PairAverages)
    (a : PairAverages) :
    trendStep dirLong dirShort before.isEmpty (trendVerdict dirLong dirShort before) a =
      trendVerdict dirLong dirShort (before ++ [a]) := by
  have all (cond : PairAverages → Bool) :
      (∀ b ∈ before ++ [a], cond b) ↔ cond a ∧ ∀ b ∈ before, cond b := by
    rw [List.forall_mem_append, List.forall_mem_singleton, and_comm]
  have some : before ++ [a] ≠ [] := by simp
  rw [trendVerdict.eq_1 dirLong dirShort (before ++ [a]), if_neg some]
  simp only [all, trendStep]
  by_cases empty : before = []
  · simp [empty]
  · obtain ⟨buy, sell⟩ := trendVerdict_sign hl hs empty
    have later : before.isEmpty = false := by simpa using empty
    simp only [later, Bool.false_eq_true, false_or, buy, sell]

/-- The loop over pairs that have all their averages. -/
theorem trendOver_available (hl : 0 < dirLong) (hs : dirShort < 0) (as : List PairAverages) :
    trendOver dirLong dirShort true silent (as.map some) = trendVerdict dirLong dirShort as := by
  induction as using List.reverseRecOn with
  | nil => rfl
  | append_singleton before a ih =>
      rw [trendOver_concat, ih, Bool.true_and]
      exact trendStep_verdict hl hs before a

/-- The first pair without an average takes the signal back and leaves the reason. -/
theorem trendOver_unavailable (hl : 0 < dirLong) (hs : dirShort < 0) (as : List PairAverages)
    (rest : List (Option PairAverages)) :
    trendOver dirLong dirShort true silent (as.map some ++ none :: rest) =
      (techSignalNothing, (trendVerdict dirLong dirShort as).2) := by
  rw [trendOver_append, trendOver_available hl hs]
  rfl

end Verdict

/-- The condition of a long trend for one pair: both averages rose, the shorter one lies
above the longer one, and the gap between them widened. -/
def Rising (now last : Int → ℚ) (s l : Int) : Prop :=
  now s > last s ∧ now l > last l ∧ now s > now l ∧ now s - now l > last s - last l

/-- The condition of a short trend for one pair: both averages fell, the shorter one
lies below the longer one, and the gap between them widened. -/
def Falling (now last : Int → ℚ) (s l : Int) : Prop :=
  now s < last s ∧ now l < last l ∧ now s < now l ∧ now s - now l < last s - last l

section Meaning

variable {now last : Int → ℚ} {cycle : List Int}

/-- The averages of a pair that has all of them. -/
def pairValues (now last : Int → ℚ) (pq : Int × Int) : PairAverages where
  lastMinor := last (min pq.1 pq.2)
  lastMajor := last (max pq.1 pq.2)
  nowMinor := now (min pq.1 pq.2)
  nowMajor := now (max pq.1 pq.2)

theorem longCondition_pairValues (pq : Int × Int) :
    longCondition (pairValues now last pq) ↔
      Rising now last (min pq.1 pq.2) (max pq.1 pq.2) := by
  rw [longCondition, decide_eq_true_eq]
  exact Iff.rfl

theorem shortCondition_pairValues (pq : Int × Int) :
    shortCondition (pairValues now last pq) ↔
      Falling now last (min pq.1 pq.2) (max pq.1 pq.2) := by
  rw [shortCondition, decide_eq_true_eq]
  exact Iff.rfl

theorem pairsOf_available {nowAvg lastAvg : Int → Option ℚ}
    (hnow : ∀ p ∈ cycle, nowAvg p = some (now p))
    (hlast : ∀ p ∈ cycle, lastAvg p = some (last p)) :
    pairsOf nowAvg lastAvg cycle =
      ((cycle.zip cycle.tail).map (pairValues now last)).map some := by
  rw [pairsOf, List.map_map]
  apply List.map_congr_left
  rintro ⟨p, q⟩ hpq
  obtain ⟨hp, hq⟩ := List.of_mem_zip hpq
  have hq := List.mem_of_mem_tail hq
  have smaller : min p q ∈ cycle := min_rec' (· ∈ cycle) hp hq
  have larger : max p q ∈ cycle := max_rec' (· ∈ cycle) hp hq
  simp only [pairOf, hnow _ smaller, hnow _ larger, hlast _ smaller, hlast _ larger,
    Option.bind_some, Option.map_some, Function.comp_apply, pairValues]

end Meaning

/-- With all averages available the signal is long exactly if all adjacent pairs
rise, and short exactly if all of them fall. -/
theorem trend_signal_meaning (ma : CMovingAverage) (c : CCandleBar) {dateIndex : Int}
    (later : 1 ≤ dateIndex) {cycle : List Int} (two : 2 ≤ cycle.length) {type : PriceType}
    {now last : Int → ℚ}
    (hnow : ∀ p ∈ cycle, outcome (calculate dateIndex p type false 0) ma c = some (some (now p)))
    (hlast : ∀ p ∈ cycle,
      outcome (calculate (dateIndex - 1) p type false 0) ma c = some (some (last p)))
    {dirLong dirShort : Int} (hl : 0 < dirLong) (hs : dirShort < 0) :
    ∃ r, outcome (getTrendSignal dateIndex cycle type dirLong dirShort) ma c = some r ∧
      (r.1 = dirLong ↔
        ∀ pq ∈ cycle.zip cycle.tail, Rising now last (min pq.1 pq.2) (max pq.1 pq.2)) ∧
      (r.1 = dirShort ↔
        ∀ pq ∈ cycle.zip cycle.tail, Falling now last (min pq.1 pq.2) (max pq.1 pq.2)) ∧
      (r.1 ≠ dirLong → r.1 ≠ dirShort → r.1 = techSignalNothing) := by
  have available (index : Int) (values : Int → ℚ)
      (h : ∀ p ∈ cycle, outcome (calculate index p type false 0) ma c = some (some (values p))) :
      ∀ p ∈ cycle, averages ma.typeInForce c type index p = some (values p) := by
    intro p hp
    have value := h p hp
    rw [outcome_calculate] at value
    exact Option.some.inj value
  let as := (cycle.zip cycle.tail).map (pairValues now last)
  have some : as ≠ [] := by
    rw [← List.length_pos_iff, List.length_map, List.length_zip, List.length_tail]
    omega
  have long : (∀ a ∈ as, longCondition a) ↔
      ∀ pq ∈ cycle.zip cycle.tail, Rising now last (min pq.1 pq.2) (max pq.1 pq.2) := by
    simp only [as, List.forall_mem_map, longCondition_pairValues]
  have short : (∀ a ∈ as, shortCondition a) ↔
      ∀ pq ∈ cycle.zip cycle.tail, Falling now last (min pq.1 pq.2) (max pq.1 pq.2) := by
    simp only [as, List.forall_mem_map, shortCondition_pairValues]
  have result : outcome (getTrendSignal dateIndex cycle type dirLong dirShort) ma c =
      .some (trendVerdict dirLong dirShort as) := by
    rw [outcome_getTrendSignal, if_neg (by omega), trendSignal,
      pairsOf_available (available _ now hnow) (available _ last hlast),
      trendOver_available hl hs]
  refine ⟨_, result, ?_⟩
  rw [← long, ← short]
  obtain ⟨same, -, all⟩ | ⟨same, -, all⟩ | ⟨same, no⟩ := trendVerdict_cases dirLong dirShort as
  · have other := not_all_short_of_long some all
    have differ : dirLong ≠ dirShort := by omega
    rw [same]
    exact ⟨iff_of_true rfl all, iff_of_false differ other, fun none => absurd rfl none⟩
  · have other : ¬ ∀ a ∈ as, longCondition a := fun long => not_all_short_of_long some long all
    have differ : dirShort ≠ dirLong := by omega
    rw [same]
    exact ⟨iff_of_false differ other, iff_of_true rfl all, fun _ none => absurd rfl none⟩
  · obtain ⟨notLong, notShort⟩ := no.resolve_left some
    have noLong : techSignalNothing ≠ dirLong := hl.ne
    have noShort : techSignalNothing ≠ dirShort := hs.ne'
    rw [same]
    exact ⟨iff_of_false noLong notLong, iff_of_false noShort notShort, fun _ _ => rfl⟩

/-- Averages of a series that doubles at each bar. -/
theorem trend_signal_meaning_doubling :
    ∃ r, outcome (getTrendSignal 3 [1, 2] .closePrice 10 (-10)) {} (closing [1, 2, 4, 8]) = some r ∧
      r.1 = 10 := by
  have rising : ∀ pq ∈ [((1 : Int), (2 : Int))],
      Rising (fun p => if p = 1 then 8 else 6) (fun p => if p = 1 then 4 else 3)
        (min pq.1 pq.2) (max pq.1 pq.2) := by
    simp only [List.forall_mem_singleton, Rising]
    decide +kernel
  obtain ⟨r, result, long, -⟩ := trend_signal_meaning {} (closing [1, 2, 4, 8])
    (show (1 : Int) ≤ 3 by decide) (show 2 ≤ [(1 : Int), 2].length by decide)
    (show ∀ p ∈ [(1 : Int), 2], outcome (calculate 3 p .closePrice false 0) {}
      (closing [1, 2, 4, 8]) = some (some (if p = 1 then 8 else 6)) by decide +kernel)
    (show ∀ p ∈ [(1 : Int), 2], outcome (calculate (3 - 1) p .closePrice false 0) {}
      (closing [1, 2, 4, 8]) = some (some (if p = 1 then 4 else 3)) by decide +kernel)
    (show (0 : Int) < 10 by decide) (show (-10 : Int) < 0 by decide)
  exact ⟨r, result, long.mpr rising⟩

/-- Signal and reason say the same: buying has its own reason, selling has its own, and
no signal is given without a reason or the other way round. -/
def Agree (buy sell buyReason sellReason : Int) (r : Int × Int) : Prop :=
  (r.2 = buyReason ↔ r.1 = buy) ∧ (r.2 = sellReason ↔ r.1 = sell) ∧
    (r.2 = techReasonNothing ↔ r.1 = techSignalNothing)

theorem agree_of_cases {buy sell buyReason sellReason : Int} {r : Int × Int} (hb : 0 < buy)
    (hs : sell < 0) (reasons : [techReasonNothing, buyReason, sellReason].Nodup)
    (h : r = silent ∨ r = (buy, buyReason) ∨ r = (sell, sellReason)) :
    Agree buy sell buyReason sellReason r := by
  simp only [List.nodup_cons, List.mem_cons, List.not_mem_nil, or_false, not_or,
    not_false_eq_true, List.nodup_nil, and_true] at reasons
  obtain ⟨⟨noBuy, noSell⟩, differ⟩ := reasons
  have quiet : techSignalNothing = 0 := rfl
  obtain rfl | rfl | rfl := h
  · exact ⟨iff_of_false noBuy hb.ne, iff_of_false noSell hs.ne', iff_of_true rfl rfl⟩
  · have apart : buy ≠ sell := by omega
    exact ⟨iff_of_true rfl rfl, iff_of_false differ apart, iff_of_false (Ne.symm noBuy) hb.ne'⟩
  · have apart : sell ≠ buy := by omega
    exact ⟨iff_of_false (Ne.symm differ) apart, iff_of_true rfl rfl,
      iff_of_false (Ne.symm noSell) hs.ne⟩

section Fork

variable {now last : Int → Option ℚ} {crossed : Bool} {confirms : ℚ → ℚ → Bool}
variable {fork r : Int × Int} {rest : List Int}

theorem confirmation_cases (h : confirmation now last confirms fork rest = some r) :
    r = silent ∨ r = fork := by
  induction rest with
  | nil => simp [confirmation] at h
  | cons period rest ih =>
      rw [confirmation] at h
      split at h
      · exact .inl (Option.some.inj h).symm
      · split at h
        · exact .inl (Option.some.inj h).symm
        · split_ifs at h
          · exact .inr (Option.some.inj h).symm
          · exact ih h

theorem raised_cases (h : raised now last crossed confirms fork rest = some r) :
    r = silent ∨ r = fork := by
  rw [raised] at h
  split_ifs at h
  · exact .inr (Option.some.inj h).symm
  · exact confirmation_cases h

/-- A fork function returns a fork with its reason, or nothing. -/
theorem forkSignal_cases (now last : Int → Option ℚ) (goldFork deadFork : Int)
    (cycle : List Int) :
    ForkResult goldFork deadFork (forkSignal now last goldFork deadFork cycle) := by
  induction cycle with
  | nil => exact .inl rfl
  | cons p cycle ih =>
      cases cycle with
      | nil => exact .inl rfl
      | cons q rest =>
          rw [forkSignal]
          split
          · exact .inl rfl
          · next a _ =>
            cases found : pairFork now last goldFork deadFork rest a with
            | none => exact ih
            | some r =>
                rw [pairFork, Option.or_eq_some_iff] at found
                obtain gold | ⟨-, dead⟩ := found
                · exact (raised_cases gold).imp_right .inl
                · exact (raised_cases dead).imp_right .inr

end Fork

/-- A pair that is not the first lacks an average, and the pairs in front of the first
such pair are all long or all short. The loop has then a signal already when it gives
up. -/
def LateFailure (pairs : List (Option PairAverages)) : Prop :=
  ∃ as rest, as ≠ [] ∧ pairs = as.map some ++ none :: rest ∧
    ((∀ a ∈ as, longCondition a) ∨ ∀ a ∈ as, shortCondition a)

theorem available_or_split {α : Type} (l : List (Option α)) :
    (∃ as : List α, l = as.map some) ∨
      ∃ (as : List α) (rest : List (Option α)), l = as.map some ++ none :: rest := by
  induction l with
  | nil => exact .inl ⟨[], rfl⟩
  | cons x l ih =>
      cases x with
      | none => exact .inr ⟨[], l, rfl⟩
      | some a =>
          obtain ⟨as, rfl⟩ | ⟨as, rest, rfl⟩ := ih
          · exact .inl ⟨a :: as, rfl⟩
          · exact .inr ⟨a :: as, rest, rfl⟩

theorem available_append_inj {α : Type} {as bs : List α} {rest more : List (Option α)}
    (h : as.map some ++ none :: rest = bs.map some ++ none :: more) : as = bs := by
  induction as generalizing bs with
  | nil =>
      cases bs with
      | nil => rfl
      | cons b bs => simp at h
  | cons a as ih =>
      cases bs with
      | nil => simp at h
      | cons b bs =>
          simp only [List.map_cons, List.cons_append, List.cons.injEq, Option.some.injEq] at h
          rw [h.1, ih h.2]

/-- The trend over the pairs of a cycle agrees with its reason unless a failure
comes late. -/
theorem agree_trendOver_iff {dirLong dirShort : Int} (hl : 0 < dirLong) (hs : dirShort < 0)
    (pairs : List (Option PairAverages)) :
    Agree dirLong dirShort techReasonLong techReasonShort
        (trendOver dirLong dirShort true silent pairs) ↔ ¬ LateFailure pairs := by
  have distinct : [techReasonNothing, techReasonLong, techReasonShort].Nodup := by decide
  obtain ⟨as, rfl⟩ | ⟨as, rest, rfl⟩ := available_or_split pairs
  · rw [trendOver_available hl hs]
    refine iff_of_true (agree_of_cases hl hs distinct ?_) ?_
    · obtain ⟨same, -⟩ | ⟨same, -⟩ | ⟨same, -⟩ := trendVerdict_cases dirLong dirShort as
      · exact .inr (.inl same)
      · exact .inr (.inr same)
      · exact .inl same
    · rintro ⟨front, rest, -, split, -⟩
      have missing : none ∈ as.map some := by rw [split]; simp
      simp at missing
  · rw [trendOver_unavailable hl hs]
    obtain ⟨same, some, long⟩ | ⟨same, some, short⟩ | ⟨same, no⟩ :=
      trendVerdict_cases dirLong dirShort as
    · refine iff_of_false ?_ (not_not.mpr ⟨as, rest, some, rfl, .inl long⟩)
      rw [same]
      exact fun agree => absurd (agree.1.mp rfl) hl.ne
    · refine iff_of_false ?_ (not_not.mpr ⟨as, rest, some, rfl, .inr short⟩)
      rw [same]
      exact fun agree => absurd (agree.2.1.mp rfl) hs.ne'
    · rw [same]
      refine iff_of_true (agree_of_cases hl hs distinct (.inl rfl)) ?_
      rintro ⟨front, more, some, split, all⟩
      obtain rfl := available_append_inj split
      obtain empty | ⟨notLong, notShort⟩ := no
      · exact some empty
      · obtain long | short := all
        · exact notLong long
        · exact notShort short

/-- Signal and reason agree exactly if no failure comes late in the trend. For the fork
they always do; the trend keeps its reason when it gives up on the signal. -/
theorem signal_reason_agree_iff (ma : CMovingAverage) (c : CCandleBar) (dateIndex : Int)
    (cycle : List Int) (type : PriceType) {goldFork deadFork dirLong dirShort : Int}
    (hg : 0 < goldFork) (hd : deadFork < 0) (hl : 0 < dirLong) (hs : dirShort < 0) :
    ∃ fork trend, outcome (getForkSignal dateIndex cycle type goldFork deadFork) ma c = some fork ∧
      outcome (getTrendSignal dateIndex cycle type dirLong dirShort) ma c = some trend ∧
      (Agree goldFork deadFork techReasonGoldfork techReasonDeadfork fork ∧
          Agree dirLong dirShort techReasonLong techReasonShort trend ↔
        ¬ (0 < dateIndex ∧ LateFailure (pairsOf (averages ma.typeInForce c type dateIndex)
          (averages ma.typeInForce c type (dateIndex - 1)) cycle))) := by
  refine ⟨_, _, outcome_getForkSignal .., outcome_getTrendSignal .., ?_⟩
  have forks : [techReasonNothing, techReasonGoldfork, techReasonDeadfork].Nodup := by decide
  have trends : [techReasonNothing, techReasonLong, techReasonShort].Nodup := by decide
  by_cases early : dateIndex ≤ 0
  · rw [if_pos early, if_pos early]
    have notLater : ¬ 0 < dateIndex := not_lt.mpr early
    have fork := agree_of_cases hg hd forks (.inl rfl)
    have trend := agree_of_cases hl hs trends (.inl rfl)
    exact iff_of_true ⟨fork, trend⟩ fun failure => notLater failure.1
  · rw [if_neg early, if_neg early, trendSignal, agree_trendOver_iff hl hs]
    have fork := agree_of_cases hg hd forks (forkSignal_cases
      (averages ma.typeInForce c type dateIndex) (averages ma.typeInForce c type (dateIndex - 1))
      goldFork deadFork cycle)
    simp only [fork, true_and, not_le.mp early]

/-- A cycle with a single pair cannot fail late. -/
theorem signal_reason_agree_iff_pair :
    ∃ fork trend, outcome (getForkSignal 3 [1, 2] .closePrice 15 (-15)) {} (closing [1, 2, 4, 8]) =
        some fork ∧
      outcome (getTrendSignal 3 [1, 2] .closePrice 10 (-10)) {} (closing [1, 2, 4, 8]) =
        some trend ∧
      Agree 15 (-15) techReasonGoldfork techReasonDeadfork fork ∧
      Agree 10 (-10) techReasonLong techReasonShort trend := by
  obtain ⟨fork, trend, hfork, htrend, agree⟩ := signal_reason_agree_iff {} (closing [1, 2, 4, 8]) 3
    [1, 2] .closePrice (show (0 : Int) < 15 by decide) (show (-15 : Int) < 0 by decide)
    (show (0 : Int) < 10 by decide) (show (-10 : Int) < 0 by decide)
  refine ⟨fork, trend, hfork, htrend, agree.mpr ?_⟩
  rintro ⟨-, as, rest, some, split, -⟩
  have count := congrArg List.length split
  have front := List.length_pos_iff.mpr some
  simp only [pairsOf, List.tail_cons, List.zip_cons_cons, List.zip_nil_right, List.map_cons,
    List.map_nil, List.length_cons, List.length_nil, List.length_append, List.length_map] at count
  omega

/-- A rising first pair in front of a period that is too long for the series. -/
theorem signal_reason_disagree :
    ¬ ∀ (ma : CMovingAverage) (c : CCandleBar) (dateIndex : Int) (cycle : List Int)
        (type : PriceType) (goldFork deadFork dirLong dirShort : Int),
      0 < goldFork → deadFork < 0 → 0 < dirLong → dirShort < 0 →
      ∃ fork trend, outcome (getForkSignal dateIndex cycle type goldFork deadFork) ma c =
          some fork ∧
        outcome (getTrendSignal dateIndex cycle type dirLong dirShort) ma c = some trend ∧
        Agree goldFork deadFork techReasonGoldfork techReasonDeadfork fork ∧
        Agree dirLong dirShort techReasonLong techReasonShort trend := by
  intro claim
  obtain ⟨fork, trend, -, result, -, agree⟩ := claim {} (closing [1, 2, 4, 8]) 3 [1, 2, 9]
    .closePrice 15 (-15) 10 (-10) (by decide) (by decide) (by decide) (by decide)
  have taken : outcome (getTrendSignal 3 [1, 2, 9] .closePrice 10 (-10)) {}
      (closing [1, 2, 4, 8]) = some (techSignalNothing, techReasonLong) := by decide +kernel
  obtain rfl : (techSignalNothing, techReasonLong) = trend := by simpa [taken] using result
  exact absurd (agree.1.mp rfl) (by decide)

end CMovingAverage

end CtpTrade
