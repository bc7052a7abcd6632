import CtpTrade.TechniqueIndicator.Average
import CtpTrade.TechniqueIndicator.Virtual

/-!
# Signals of averages

Both signal functions decide on the averages at `date_index` and one position
before. `forkSignal` and `trendSignal` are the decisions as functions of these
averages, without any access to the series or the parameters. The code computes
them from the bars up to `date_index` alone.
-/

namespace CtpTrade

namespace CMovingAverage

open CandleCall

section Decisions

variable (now last : Int → Option ℚ)

def pairOf (p q : Int) : Option PairAverages :=
  (now (min p q)).bind fun nowMinor =>
    (now (max p q)).bind fun nowMajor =>
      (last (min p q)).bind fun lastMinor =>
        (last (max p q)).map fun lastMajor => ⟨lastMinor, lastMajor, nowMinor, nowMajor⟩

def confirmation (confirms : ℚ → ℚ → Bool) (fork : Int × Int) : List Int → Option (Int × Int)
  | [] => none
  | period :: rest =>
    match now period with
    | none => some silent
    | some nowMore =>
      match last period with
      | none => some silent
      | some lastMore =>
        if confirms nowMore lastMore then some fork else confirmation confirms fork rest

def raised (crossed : Bool) (confirms : ℚ → ℚ → Bool) (fork : Int × Int) (rest : List Int) :
    Option (Int × Int) :=
  if ¬ crossed then none
  else if rest = [] then some fork
  else confirmation now last confirms fork rest

/-- The fork that one pair raises, if any; `rest` are the periods behind it. -/
def pairFork (goldFork deadFork : Int) (rest : List Int) (a : PairAverages) :
    Option (Int × Int) :=
  (raised now last (goldCondition a) (fun now last => now > last)
    (goldFork, techReasonGoldfork) rest).or
  (raised now last (deadCondition a) (fun now last => now < last)
    (deadFork, techReasonDeadfork) rest)

def forkSignal (goldFork deadFork : Int) : List Int → Int × Int
  | p :: q :: rest =>
    match pairOf now last p q with
    | none => silent
    | some a =>
      (pairFork now last goldFork deadFork rest a).getD (forkSignal goldFork deadFork (q :: rest))
  | _ => silent

/-- What one pair makes of the trend so far. -/
def trendStep (dirLong dirShort : Int) (first : Bool) (trend : Int × Int) (a : PairAverages) :
    Int × Int :=
  if longCondition a ∧ (first ∨ signalIsBuy trend.1) then (dirLong, techReasonLong)
  else if shortCondition a ∧ (first ∨ signalIsSell trend.1) then (dirShort, techReasonShort)
  else silent

/-- The trend over the pairs of a cycle; a pair may lack an average. -/
def trendOver (dirLong dirShort : Int) :
    (first : Bool) → (trend : Int × Int) → List (Option PairAverages) → Int × Int
  | _, trend, [] => trend
  | _, trend, none :: _ => (techSignalNothing, trend.2)
  | first, trend, some a :: rest =>
    trendOver dirLong dirShort false (trendStep dirLong dirShort first trend a) rest

def pairsOf (cycle : List Int) : List (Option PairAverages) :=
  (cycle.zip cycle.tail).map fun pq => pairOf now last pq.1 pq.2

def trendSignal (dirLong dirShort : Int) (cycle : List Int) : Int × Int :=
  trendOver dirLong dirShort true silent (pairsOf now last cycle)

end Decisions

section Over

variable {dirLong dirShort : Int}

/-- A pair that lacks no average hands its trend on to the pairs behind it. -/
theorem trendOver_append (first : Bool) (trend : Int × Int) (as : List PairAverages)
    (rest : List (Option PairAverages)) :
    trendOver dirLong dirShort first trend (as.map some ++ rest) =
      trendOver dirLong dirShort (first && as.isEmpty)
        (trendOver dirLong dirShort first trend (as.map some)) rest := by
  induction as generalizing first trend with
  | nil =>
      rw [List.map_nil, List.nil_append, List.isEmpty_nil, Bool.and_true]
      rfl
  | cons a as ih =>
      rw [List.map_cons, List.cons_append, trendOver, trendOver, ih, List.isEmpty_cons,
        Bool.false_and, Bool.and_false]

theorem trendOver_concat (first : Bool) (trend : Int × Int) (as : List PairAverages)
    (a : PairAverages) :
    trendOver dirLong dirShort first trend ((as ++ [a]).map some) =
      trendStep dirLong dirShort (first && as.isEmpty)
        (trendOver dirLong dirShort first trend (as.map some)) a := by
  rw [List.map_append, trendOver_append]
  rfl

end Over

-- The two sides exclude each other.
section Sides

variable {a : PairAverages}

theorem not_dead_of_gold (h : goldCondition a) : ¬ deadCondition a := by
  simp only [goldCondition, deadCondition, decide_eq_true_eq] at h ⊢
  exact fun dead => absurd h.1 (not_lt.mpr dead.1.le)

theorem not_short_of_long (h : longCondition a) : ¬ shortCondition a := by
  simp only [longCondition, shortCondition, decide_eq_true_eq] at h ⊢
  exact fun short => absurd h.1 (not_lt.mpr short.1.le)

end Sides

end CMovingAverage

namespace CTechniqueIndicator

open CandleCall CMovingAverage

/-- The averages that an evaluation at `dateIndex` sees: for the periods that are asked
for, the calls there give `now`, and those one position before give `last`, on every
series that satisfies `R`. -/
structure Gives (calculate : Calculate) (R : CCandleBar → Prop) (S : CMovingAverage → Prop)
    (dateIndex : Int) (type : PriceType) (asked : Int → Prop) (now last : Int → Option ℚ) :
    Prop where
  now : ∀ p, asked p →
    Program.Computes answer R S (calculate dateIndex p type false 0) (now p)
  last : ∀ p, asked p →
    Program.Computes answer R S (calculate (dateIndex - 1) p type false 0) (last p)

namespace Gives

variable {calculate : Calculate} {R : CCandleBar → Prop} {S : CMovingAverage → Prop}
variable {dateIndex : Int} {type : PriceType} {asked : Int → Prop} {now last : Int → Option ℚ}
variable {p q : Int} {rest cycle : List Int}

theorem pairAverages (h : Gives calculate R S dateIndex type asked now last) (hp : asked p)
    (hq : asked q) :
    Program.Computes answer R S (pairAverages calculate dateIndex p q type)
      (pairOf now last p q) := by
  have smaller : asked (min p q) := min_rec' asked hp hq
  have larger : asked (max p q) := max_rec' asked hp hq
  rw [pairOf]
  apply (h.now _ smaller).bind
  cases now (min p q) with
  | none => exact .pure _
  | some nowMinor =>
      apply (h.now _ larger).bind
      cases now (max p q) with
      | none => exact .pure _
      | some nowMajor =>
          apply (h.last _ smaller).bind
          cases last (min p q) with
          | none => exact .pure _
          | some lastMinor =>
              apply (h.last _ larger).bind
              cases last (max p q) with
              | none => exact .pure _
              | some lastMajor => exact .pure _

theorem confirmFork (h : Gives calculate R S dateIndex type asked now last)
    (confirms : ℚ → ℚ → Bool) (fork : Int × Int) (hrest : ∀ p ∈ rest, asked p) :
    Program.Computes answer R S (confirmFork calculate dateIndex type confirms fork rest)
      (confirmation now last confirms fork rest) := by
  induction rest with
  | nil => exact .pure _
  | cons period rest ih =>
      obtain ⟨hperiod, hrest⟩ := List.forall_mem_cons.mp hrest
      rw [confirmation]
      apply (h.now _ hperiod).bind
      cases now period with
      | none => exact .pure _
      | some nowMore =>
          apply (h.last _ hperiod).bind
          cases last period with
          | none => exact .pure _
          | some lastMore =>
              by_cases confirmed : confirms nowMore lastMore
              · simp only [confirmed, ↓reduceIte]
                exact .pure _
              · simp only [confirmed, Bool.false_eq_true, ↓reduceIte]
                exact ih hrest

theorem raiseFork (h : Gives calculate R S dateIndex type asked now last) (crossed : Bool)
    (confirms : ℚ → ℚ → Bool) (fork : Int × Int) (hrest : ∀ p ∈ rest, asked p) :
    Program.Computes answer R S (raiseFork calculate dateIndex type crossed confirms fork rest)
      (raised now last crossed confirms fork rest) := by
  rw [CTechniqueIndicator.raiseFork, raised]
  split
  · exact .pure _
  · split
    · exact .pure _
    · exact h.confirmFork confirms fork hrest

theorem forkLoop (h : Gives calculate R S dateIndex type asked now last)
    (goldFork deadFork : Int) (hcycle : ∀ p ∈ cycle, asked p) :
    Program.Computes answer R S (forkLoop calculate dateIndex type goldFork deadFork cycle)
      (forkSignal now last goldFork deadFork cycle) := by
  induction cycle with
  | nil => exact .pure _
  | cons p cycle ih =>
      obtain ⟨hp, hcycle⟩ := List.forall_mem_cons.mp hcycle
      cases cycle with
      | nil => exact .pure _
      | cons q rest =>
          obtain ⟨hq, hrest⟩ := List.forall_mem_cons.mp hcycle
          rw [forkSignal]
          apply (h.pairAverages hp hq).bind
          cases pairOf now last p q with
          | none => exact .pure _
          | some a =>
              simp only [pairFork]
              apply (h.raiseFork _ _ _ hrest).bind
              cases raised now last (goldCondition a) (fun now last => now > last)
                (goldFork, techReasonGoldfork) rest with
              | some result => exact .pure _
              | none =>
                  apply (h.raiseFork _ _ _ hrest).bind
                  cases raised now last (deadCondition a) (fun now last => now < last)
                    (deadFork, techReasonDeadfork) rest with
                  | some result => exact .pure _
                  | none => exact ih hcycle

theorem trendLoop (h : Gives calculate R S dateIndex type asked now last)
    (dirLong dirShort : Int) (first : Bool) (trend : Int × Int)
    (hcycle : ∀ p ∈ cycle, asked p) :
    Program.Computes answer R S
      (trendLoop calculate dateIndex type dirLong dirShort first trend cycle)
      (trendOver dirLong dirShort first trend (pairsOf now last cycle)) := by
  induction cycle generalizing first trend with
  | nil => exact .pure _
  | cons p cycle ih =>
      obtain ⟨hp, hcycle⟩ := List.forall_mem_cons.mp hcycle
      cases cycle with
      | nil => exact .pure _
      | cons q rest =>
          obtain ⟨hq, hrest⟩ := List.forall_mem_cons.mp hcycle
          rw [pairsOf, List.tail_cons, List.zip_cons_cons, List.map_cons]
          apply (h.pairAverages hp hq).bind
          cases pairOf now last p q with
          | none => exact .pure _
          | some a => exact ih false (trendStep dirLong dirShort first trend a) hcycle

theorem getForkSignal (h : Gives calculate R S dateIndex type asked now last)
    (goldFork deadFork : Int) (hcycle : ∀ p ∈ cycle, asked p) :
    Program.Computes answer R S (getForkSignal calculate dateIndex cycle type goldFork deadFork)
      (if dateIndex ≤ 0 then silent else forkSignal now last goldFork deadFork cycle) := by
  rw [CTechniqueIndicator.getForkSignal]
  split
  · exact .pure _
  · exact h.forkLoop goldFork deadFork hcycle

theorem getTrendSignal (h : Gives calculate R S dateIndex type asked now last)
    (dirLong dirShort : Int) (hcycle : ∀ p ∈ cycle, asked p) :
    Program.Computes answer R S (getTrendSignal calculate dateIndex cycle type dirLong dirShort)
      (if dateIndex ≤ 0 then silent else trendSignal now last dirLong dirShort cycle) := by
  rw [CTechniqueIndicator.getTrendSignal]
  split
  · exact .pure _
  · exact h.trendLoop dirLong dirShort true silent hcycle

end Gives

end CTechniqueIndicator

namespace CMovingAverage

open CandleCall

section Computes

variable {kind : Int} {c : CCandleBar} {n : Nat} {dateIndex : Int} {type : PriceType}

/-- The averages by period. -/
def averages (kind : Int) (c : CCandleBar) (type : PriceType) (dateIndex periods : Int) :
    Option ℚ := average kind c dateIndex periods type false 0

theorem calculate_gives (upTo : dateIndex ≤ n) :
    CTechniqueIndicator.Gives calculate (c.AgreeUpTo n) (OfType kind) dateIndex type
      (fun _ => True) (averages kind c type dateIndex) (averages kind c type (dateIndex - 1)) where
  now _ _ := calculate_computes upTo
  last _ _ := by
    have earlier : dateIndex - 1 ≤ n := by omega
    exact calculate_computes earlier

theorem getForkSignal_computes (upTo : dateIndex ≤ n) (goldFork deadFork : Int)
    (cycle : List Int) :
    Program.Computes answer (c.AgreeUpTo n) (OfType kind)
      (getForkSignal dateIndex cycle type goldFork deadFork)
      (if dateIndex ≤ 0 then silent
        else forkSignal (averages kind c type dateIndex) (averages kind c type (dateIndex - 1))
          goldFork deadFork cycle) := by
  rw [← getForkSignal_calculate]
  exact (calculate_gives upTo).getForkSignal goldFork deadFork fun _ _ => trivial

theorem getTrendSignal_computes (upTo : dateIndex ≤ n) (dirLong dirShort : Int)
    (cycle : List Int) :
    Program.Computes answer (c.AgreeUpTo n) (OfType kind)
      (getTrendSignal dateIndex cycle type dirLong dirShort)
      (if dateIndex ≤ 0 then silent
        else trendSignal (averages kind c type dateIndex) (averages kind c type (dateIndex - 1))
          dirLong dirShort cycle) := by
  rw [← getTrendSignal_calculate]
  exact (calculate_gives upTo).getTrendSignal dirLong dirShort fun _ _ => trivial

theorem outcome_getForkSignal (ma : CMovingAverage) (c : CCandleBar) (dateIndex : Int)
    (cycle : List Int) (type : PriceType) (goldFork deadFork : Int) :
    outcome (getForkSignal dateIndex cycle type goldFork deadFork) ma c =
      some (if dateIndex ≤ 0 then silent
        else forkSignal (averages ma.typeInForce c type dateIndex)
          (averages ma.typeInForce c type (dateIndex - 1)) goldFork deadFork cycle) :=
  outcome_of_computes (getForkSignal_computes (Int.self_le_toNat dateIndex) _ _ _) (.refl _ c)

theorem outcome_getTrendSignal (ma : CMovingAverage) (c : CCandleBar) (dateIndex : Int)
    (cycle : List Int) (type : PriceType) (dirLong dirShort : Int) :
    outcome (getTrendSignal dateIndex cycle type dirLong dirShort) ma c =
      some (if dateIndex ≤ 0 then silent
        else trendSignal (averages ma.typeInForce c type dateIndex)
          (averages ma.typeInForce c type (dateIndex - 1)) dirLong dirShort cycle) :=
  outcome_of_computes (getTrendSignal_computes (Int.self_le_toNat dateIndex) _ _ _) (.refl _ c)

end Computes

/-- The program has one result on both series, also where bars are added to either of
them while it runs. -/
def SameResult {α : Type} (p : MaProgram α) (ma : CMovingAverage) (c d : CCandleBar) : Prop :=
  ∃ a, outcome p ma c = some a ∧ outcome p ma d = some a ∧
    (p.start ma).Keeps answer (fun _ _ => True) (fun _ r _ => r = a) c ∧
    (p.start ma).Keeps answer (fun _ _ => True) (fun _ r _ => r = a) d

theorem sameResult_of_computes {α : Type} {p : MaProgram α} {a : α} {n : Nat}
    {ma : CMovingAverage} {c d : CCandleBar}
    (h : Program.Computes answer (c.AgreeUpTo n) (OfType ma.typeInForce) p a)
    (agree : c.AgreeUpTo n d) (here : n < c.candles.length) (there : n < d.candles.length) :
    SameResult p ma c d := by
  have start : OfType ma.typeInForce ma := rfl
  have grown (s : CCandleBar) (same : c.AgreeUpTo n s) (present : n < s.candles.length) :
      (p.start ma).Keeps answer (fun _ _ => True) (fun _ r _ => r = a) s := by
    refine ((h ma start).keeps fun e later => ?_).mono fun _ _ _ _ result => result.2
    exact (CCandleBar.agreeUpTo_of_le later present).trans same
  exact ⟨a, outcome_of_computes h (.refl n c), outcome_of_computes h agree,
    grown c (.refl n c) here, grown d agree there⟩

/-- Bars behind `date_index` do not matter to an average or a signal, whether they are
there before, arrive during the evaluation or come later: on two series that agree up to
`date_index` the results are the same. -/
theorem no_look_ahead (ma : CMovingAverage) {c d : CCandleBar} {dateIndex : Nat}
    (here : dateIndex < c.candles.length) (there : dateIndex < d.candles.length)
    (agree : ∀ i ≤ dateIndex, d.candles[i]? = c.candles[i]?) (cycle : List Int)
    (type : PriceType) :
    (∀ periods useLast data,
      SameResult (calculate dateIndex periods type useLast data) ma c d) ∧
    (∀ goldFork deadFork,
      SameResult (getForkSignal dateIndex cycle type goldFork deadFork) ma c d) ∧
    ∀ dirLong dirShort,
      SameResult (getTrendSignal dateIndex cycle type dirLong dirShort) ma c d := by
  have same : c.AgreeUpTo dateIndex d := CCandleBar.agreeUpTo_of_getElem? agree
  have upTo : (dateIndex : Int) ≤ dateIndex := le_refl _
  refine ⟨fun periods useLast data => ?_, fun goldFork deadFork => ?_,
    fun dirLong dirShort => ?_⟩
  · exact sameResult_of_computes (calculate_computes upTo) same here there
  · exact sameResult_of_computes (getForkSignal_computes upTo _ _ _) same here there
  · exact sameResult_of_computes (getTrendSignal_computes upTo _ _ _) same here there

/-- A series of closing prices. -/
def closing (prices : List ℚ) : CCandleBar :=
  { candles := prices.map fun price => { closePrice := price } }

theorem no_look_ahead_sample :
    SameResult (getTrendSignal (2 : Nat) [1, 2] .closePrice 10 (-10)) {} (closing [1, 2, 4])
      (closing [1, 2, 4, 0]) :=
  have agree : ∀ i ≤ 2, (closing [1, 2, 4, 0]).candles[i]? = (closing [1, 2, 4]).candles[i]? := by
    intro i upTo
    obtain rfl | rfl | rfl : i = 0 ∨ i = 1 ∨ i = 2 := by omega
    · rfl
    · rfl
    · rfl
  (no_look_ahead {} (by decide) (by decide) agree [1, 2] .closePrice).2.2 10 (-10)

end CMovingAverage

end CtpTrade
