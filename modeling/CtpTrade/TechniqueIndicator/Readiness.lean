import CtpTrade.Library.Tracking
import CtpTrade.TechniqueIndicator.Parameters
import CtpTrade.TechniqueIndicator.ReadPosition
import CtpTrade.TechniqueIndicator.Trend

/-!
# Readiness

`is_basic_data_ready` asks for more bars than the largest period has. This places
the read position at the first index at which `calculate` succeeds for every
period, there and one position before. From then on the position only moves
forwards, so that a bar that is there has all its averages: in `get_signal` no
`calculate` fails, and a missing signal means a failed comparison.
-/

namespace CtpTrade

/-- The public calls of a strategy, with the one that only reads a price. -/
inductive ReaderCall where
  | indicator (call : IndicatorCall)
  | getLimitPrice (type : PriceType)

namespace CMovingAverage

open CandleCall

section PeriodMax

variable {cycle : List Int} {p : Int}

theorem periodMax_isGreatest (cycle : List Int) :
    IsGreatest {p | p ∈ 0 :: cycle} (periodMax cycle) :=
  Tracking.track_isGreatest

theorem le_periodMax (h : p ∈ cycle) : p ≤ periodMax cycle :=
  (periodMax_isGreatest cycle).2 (List.mem_cons_of_mem 0 h)

theorem periodMax_nonneg (cycle : List Int) : 0 ≤ periodMax cycle :=
  (periodMax_isGreatest cycle).2 (List.mem_cons_self ..)

theorem periodMax_mem (nonempty : cycle ≠ []) (positive : ∀ p ∈ cycle, 0 < p) :
    periodMax cycle ∈ cycle := by
  obtain ⟨p, rest, rfl⟩ := List.exists_cons_of_ne_nil nonempty
  have first : p ∈ p :: rest := List.mem_cons_self ..
  have above := le_periodMax first
  have high := positive p first
  obtain none | some := List.mem_cons.mp (periodMax_isGreatest (p :: rest)).1
  · omega
  · exact some

end PeriodMax

/-- On the series as it is the call gives an average, instead of the failure that
`calculate` shows by returning false. -/
def Succeeds (p : MaProgram (Option ℚ)) (m : CMovingAverage) (c : CCandleBar) : Prop :=
  ∃ data, outcome p m c = some (some data)

/-- Every period of the cycle has an average at `dateIndex` and one position before,
which is all that a signal at `dateIndex` compares. -/
def Available (cycle : List Int) (type : PriceType) (useLast : Bool) (data : ℚ)
    (m : CMovingAverage) (c : CCandleBar) (dateIndex : Int) : Prop :=
  ∀ p ∈ cycle, Succeeds (calculate dateIndex p type useLast data) m c ∧
    Succeeds (calculate (dateIndex - 1) p type useLast data) m c

section Available

variable {m : CMovingAverage} {c : CCandleBar} {cycle : List Int} {type : PriceType}
variable {useLast : Bool} {data : ℚ} {dateIndex p : Int}

theorem average_isSome_iff (dateIndex p : Int) (type : PriceType) (useLast : Bool) (data : ℚ) :
    (average typeMa c dateIndex p type useLast data).isSome ↔
      0 ≤ dateIndex ∧ dateIndex < c.candles.length ∧ 0 < p ∧ p ≤ dateIndex + 1 := by
  by_cases negative : dateIndex < 0
  · have refused : ¬ accessible c dateIndex p := by simp [accessible, negative]
    rw [average, if_pos (.inl refused)]
    exact iff_of_false (by simp) fun inside => absurd inside.1 (not_le.mpr negative)
  · lift dateIndex to ℕ using not_lt.mp negative
    simp only [average, accessible, CCandleBar.getMa, sizeOfInt_natCast, ↓reduceIte]
    split_ifs with refused missing
    · simp only [decide_eq_true_eq] at refused
      exact iff_of_false (by simp) (by omega)
    · exact iff_of_false (by simp) (by omega)
    · exact iff_of_true rfl (by omega)

/-- The bounds of `access_calculate_parameters`, `calculate` and `get_ma` together. -/
theorem succeeds_iff (arithmetic : m.maAttribute.attributeType = typeMa) :
    Succeeds (calculate dateIndex p type useLast data) m c ↔
      0 ≤ dateIndex ∧ dateIndex < c.candles.length ∧ 0 < p ∧ p ≤ dateIndex + 1 := by
  have kind : m.typeInForce = typeMa := ofType_typeMa arithmetic
  rw [← average_isSome_iff dateIndex p type useLast data, Option.isSome_iff_exists, Succeeds,
    outcome_calculate, kind]
  simp only [Option.some.injEq]

theorem available_iff (arithmetic : m.maAttribute.attributeType = typeMa)
    (positive : ∀ p ∈ cycle, 0 < p) :
    Available cycle type useLast data m c dateIndex ↔
      ∀ p ∈ cycle, p ≤ dateIndex ∧ dateIndex < c.candles.length := by
  refine forall₂_congr fun p hp => ?_
  have high := positive p hp
  rw [succeeds_iff arithmetic, succeeds_iff arithmetic]
  omega

theorem available_isLeast (arithmetic : m.maAttribute.attributeType = typeMa)
    (nonempty : cycle ≠ []) (positive : ∀ p ∈ cycle, 0 < p)
    (enough : periodMax cycle < c.candles.length) :
    IsLeast {i | Available cycle type useLast data m c i} (periodMax cycle) := by
  constructor
  · exact (available_iff arithmetic positive).mpr fun p hp => ⟨le_periodMax hp, enough⟩
  · intro i available
    have all := (available_iff arithmetic positive).mp available
    exact (all _ (periodMax_mem nonempty positive)).1

end Available

section Fork

variable (now last : Int → ℚ)

/-- The pair crosses in one of the two directions, and a later period of the cycle
confirms the fork by moving the same way, unless there is no later period. -/
def PairForks (p q : Int) (rest : List Int) : Prop :=
  goldCondition (pairValues now last (p, q)) ∧ (rest = [] ∨ ∃ r ∈ rest, now r > last r) ∨
    deadCondition (pairValues now last (p, q)) ∧ (rest = [] ∨ ∃ r ∈ rest, now r < last r)

/-- Some adjacent pair of the cycle raises a fork. Which pair it is makes no difference
to whether there is a signal. -/
def ForkSeen (cycle : List Int) : Prop :=
  ∃ before p q rest, cycle = before ++ p :: q :: rest ∧ PairForks now last p q rest

variable {now last : Int → ℚ} {crossed : Bool} {confirms : ℚ → ℚ → Bool} {fork r : Int × Int}
variable {p q goldFork deadFork : Int} {rest cycle : List Int}

theorem confirmation_available_iff :
    confirmation (fun p => some (now p)) (fun p => some (last p)) confirms fork rest = some r ↔
      fork = r ∧ ∃ period ∈ rest, confirms (now period) (last period) := by
  induction rest with
  | nil => simp [confirmation]
  | cons period rest ih =>
      rw [confirmation]
      by_cases confirmed : confirms (now period) (last period)
      · simp [confirmed]
      · simp only [confirmed, Bool.false_eq_true, ↓reduceIte, ih, List.mem_cons,
          exists_eq_or_imp, false_or]

theorem raised_available_iff :
    raised (fun p => some (now p)) (fun p => some (last p)) crossed confirms fork rest = some r ↔
      fork = r ∧ crossed ∧ (rest = [] ∨ ∃ period ∈ rest, confirms (now period) (last period)) := by
  rw [raised]
  by_cases cross : crossed
  · by_cases final : rest = []
    · simp [cross, final]
    · simp only [cross, final, not_true_eq_false, ↓reduceIte, confirmation_available_iff,
        true_and, false_or]
  · simp [cross]

/-- A pair raises a fork of either side, or none. -/
theorem pairFork_available_iff (goldFork deadFork : Int) :
    (∃ r, pairFork (fun p => some (now p)) (fun p => some (last p)) goldFork deadFork rest
      (pairValues now last (p, q)) = some r) ↔ PairForks now last p q rest := by
  simp only [← Option.isSome_iff_exists, pairFork, Option.isSome_or, Bool.or_eq_true]
  simp only [Option.isSome_iff_exists, raised_available_iff, exists_eq_left', PairForks,
    decide_eq_true_eq]

theorem forkSeen_cons_cons :
    ForkSeen now last (p :: q :: rest) ↔
      PairForks now last p q rest ∨ ForkSeen now last (q :: rest) := by
  constructor
  · rintro ⟨before, p', q', rest', split, forks⟩
    cases before with
    | nil =>
        obtain ⟨rfl, rfl, rfl⟩ : p = p' ∧ q = q' ∧ rest = rest' := by simpa using split
        exact .inl forks
    | cons b before =>
        obtain ⟨-, split⟩ := List.cons.inj split
        exact .inr ⟨before, p', q', rest', split, forks⟩
  · rintro (forks | ⟨before, p', q', rest', split, forks⟩)
    · exact ⟨[], p, q, rest, rfl, forks⟩
    · exact ⟨p :: before, p', q', rest', by rw [split, List.cons_append], forks⟩

theorem forkSignal_available_cons :
    forkSignal (fun p => some (now p)) (fun p => some (last p)) goldFork deadFork
        (p :: q :: rest) =
      (pairFork (fun p => some (now p)) (fun p => some (last p)) goldFork deadFork rest
        (pairValues now last (p, q))).getD
        (forkSignal (fun p => some (now p)) (fun p => some (last p)) goldFork deadFork
          (q :: rest)) := rfl

/-- There is no fork exactly if the comparisons fail for every pair. -/
theorem forkSignal_available (hg : goldFork ≠ techSignalNothing)
    (hd : deadFork ≠ techSignalNothing) (cycle : List Int) :
    (forkSignal (fun p => some (now p)) (fun p => some (last p)) goldFork deadFork cycle).1 =
      techSignalNothing ↔ ¬ ForkSeen now last cycle := by
  induction cycle with
  | nil => exact iff_of_true rfl (by simp [ForkSeen])
  | cons p cycle ih =>
      cases cycle with
      | nil =>
          refine iff_of_true rfl ?_
          rintro ⟨before, p', q', rest, split, -⟩
          have count := congrArg List.length split
          simp only [List.length_cons, List.length_nil, List.length_append] at count
          omega
      | cons q rest =>
          rw [forkSeen_cons_cons, ← pairFork_available_iff goldFork deadFork,
            forkSignal_available_cons]
          cases found : pairFork (fun p => some (now p)) (fun p => some (last p)) goldFork deadFork
            rest (pairValues now last (p, q)) with
          | none => simpa using ih
          | some r =>
              refine iff_of_false ?_ (not_not.mpr (.inl ⟨r, rfl⟩))
              rw [pairFork, Option.or_eq_some_iff, raised_available_iff, raised_available_iff]
                at found
              obtain ⟨rfl, -⟩ | ⟨-, rfl, -⟩ := found
              · exact hg
              · exact hd

end Fork

section Trend

/-- The direction and the reason behind these pairs. -/
def trendBehind (dirLong dirShort : Int) (before : List PairAverages) : Int × Int :=
  trendOver dirLong dirShort true silent (before.map some)

variable (dirLong dirShort : Int)

/-- The averages of the pair lie one way, long or short, and this is the way of the
trend so far, if there is one. -/
def Continues (before : List PairAverages) (a : PairAverages) : Prop :=
  longCondition a ∧ (before = [] ∨ signalIsBuy (trendBehind dirLong dirShort before).1) ∨
    shortCondition a ∧ (before = [] ∨ signalIsSell (trendBehind dirLong dirShort before).1)

/-- There is a pair, and each pair continues the trend of those in front of it. A cycle
of one period has no pair and no trend. -/
def TrendSeen (as : List PairAverages) : Prop :=
  as ≠ [] ∧ ∀ before a after, as = before ++ a :: after → Continues dirLong dirShort before a

variable {dirLong dirShort}

theorem trendStep_ne_nothing (hl : dirLong ≠ techSignalNothing)
    (hs : dirShort ≠ techSignalNothing) (before : List PairAverages) (a : PairAverages) :
    (trendStep dirLong dirShort before.isEmpty (trendBehind dirLong dirShort before) a).1 ≠
      techSignalNothing ↔ Continues dirLong dirShort before a := by
  simp only [trendStep, Continues, List.isEmpty_iff]
  split_ifs with long short
  · exact iff_of_true hl (.inl long)
  · exact iff_of_true hs (.inr short)
  · exact iff_of_false (by simp [silent]) (not_or.mpr ⟨long, short⟩)

/-- There is no trend exactly if the comparisons fail for some pair. -/
theorem trendBehind_eq_nothing (hl : dirLong ≠ techSignalNothing)
    (hs : dirShort ≠ techSignalNothing) (as : List PairAverages) :
    (trendBehind dirLong dirShort as).1 = techSignalNothing ↔
      ¬ TrendSeen dirLong dirShort as := by
  rw [← not_iff_not, not_not]
  induction as using List.reverseRecOn with
  | nil => exact iff_of_false (by simp [trendBehind, trendOver, silent]) (by simp [TrendSeen])
  | append_singleton before a ih =>
      have step : trendBehind dirLong dirShort (before ++ [a]) =
          trendStep dirLong dirShort before.isEmpty (trendBehind dirLong dirShort before) a := by
        rw [trendBehind, trendOver_concat, Bool.true_and]
        rfl
      change (trendBehind dirLong dirShort (before ++ [a])).1 ≠ techSignalNothing ↔ _
      rw [step, trendStep_ne_nothing hl hs]
      constructor
      · intro last
        refine ⟨by simp, ?_⟩
        intro before' a' after split
        obtain rfl | ⟨after, b, rfl⟩ := List.eq_nil_or_concat after
        · obtain ⟨rfl, rfl⟩ : before = before' ∧ a = a' := by simpa using split
          exact last
        · rw [List.concat_eq_append, ← List.cons_append, ← List.append_assoc] at split
          obtain ⟨rfl, -⟩ := List.append_inj' split rfl
          -- A pair behind another one goes on with a trend that is there.
          have there : (trendBehind dirLong dirShort (before' ++ a' :: after)).1 ≠
              techSignalNothing := by
            simp only [Continues, List.append_eq_nil_iff, List.cons_ne_nil, and_false,
              false_or] at last
            exact (signalled_iff _).mp (last.imp And.right And.right)
          exact (ih.mp there).2 before' a' after rfl
      · intro seen
        exact seen.2 before a [] rfl

end Trend

open CTechniqueIndicator (Calculate Gives)

/-- `calculate`, except that the process ends where it fails. -/
def calculateOrAbort : Calculate := fun dateIndex periods type useLast data => do
  match ← calculate dateIndex periods type useLast data with
  | none => Program.abort
  | some average => return some average

/-- However the series grows, `get_signal` does the same where a `calculate` that fails ends
the process, and either signal is missing exactly if comparisons of averages at and in
front of the position fail. -/
structure SignalsComplete (attr : MaAttribute) (m : CMovingAverage) (c : CCandleBar)
    (type : PriceType) : Prop where
  succeed : ∃ signal,
    ((getSignalWith calculateOrAbort type).start m).Keeps answer
      (fun _ _ => True) (fun _ r _ => r = signal) c ∧
    ((getSignal type).start m).Keeps answer (fun _ _ => True) (fun _ r _ => r = signal) c
  compared : ∃ now last : Int → ℚ,
    (∀ p ∈ attr.periodCycle,
      outcome (calculate m.candleBarReadPos p type false 0) m c = some (some (now p)) ∧
      outcome (calculate (m.candleBarReadPos - 1) p type false 0) m c = some (some (last p))) ∧
    ((getForkSignal m.candleBarReadPos attr.periodCycle type attr.flagGoldfork
        attr.flagDeadfork).start m).Keeps answer (fun _ _ => True)
      (fun m' fork _ => m' = m ∧
        (fork.1 = techSignalNothing ↔ ¬ ForkSeen now last attr.periodCycle)) c ∧
    ((getTrendSignal m.candleBarReadPos attr.periodCycle type attr.flagLong
        attr.flagShort).start m).Keeps answer (fun _ _ => True)
      (fun m' trend _ => m' = m ∧
        (trend.1 = techSignalNothing ↔ ¬ TrendSeen attr.flagLong attr.flagShort
          ((attr.periodCycle.zip attr.periodCycle.tail).map (pairValues now last)))) c

section GetSignal

variable {m : CMovingAverage} {c : CCandleBar} {n : Nat} {type : PriceType} {dateIndex : Int}
variable {R : CCandleBar → Prop} {virtual : Calculate}

theorem advanceReadPos_yields {α : Type} (m : CMovingAverage) (dateIndex : Int) (r : α) :
    ((advanceReadPos dateIndex >>= fun _ => pure r).start m).Yields answer R fun m' r' =>
      (m' = m ∨ m' = { m with candleBarReadPos := m.candleBarReadPos + 1 }) ∧ r' = r := by
  rw [Program.start_bind, start_advanceReadPos]
  intro s _
  beta_reduce
  split
  · exact ⟨.inr rfl, rfl⟩
  · exact ⟨.inl rfl, rfl⟩

/-- Where neither signal changes the indicator, the call can only advance. It returns the
fork that is raised, or else the trend. -/
theorem getSignalWith_yields {F T : Int × Int → Prop}
    (fork : ((CTechniqueIndicator.getForkSignal virtual m.candleBarReadPos
      m.maAttribute.periodCycle type m.maAttribute.flagGoldfork
      m.maAttribute.flagDeadfork).start m).Yields answer R fun m' r => m' = m ∧ F r)
    (trend : ((CTechniqueIndicator.getTrendSignal virtual m.candleBarReadPos
      m.maAttribute.periodCycle type m.maAttribute.flagLong m.maAttribute.flagShort).start m).Yields
        answer R fun m' r => m' = m ∧ T r) :
    ((getSignalWith virtual type).start m).Yields answer R
      fun m' r => (m' = m ∨ m' = { m with candleBarReadPos := m.candleBarReadPos + 1 }) ∧
        ∃ f, F f ∧ if signalIsBuy f.1 ∨ signalIsSell f.1 then r = f else T r := by
  simp only [getSignalWith, Program.start_bind, Program.start_get, Resumption.bind]
  apply fork.bind
  rintro m f ⟨rfl, hf⟩
  rw [Program.start_ite]
  by_cases raised : signalIsBuy f.1 ∨ signalIsSell f.1
  · rw [if_pos raised]
    apply (advanceReadPos_yields m m.candleBarReadPos f).mono
    rintro m' r ⟨moved, rfl⟩
    exact ⟨moved, r, hf, (if_pos raised).mpr rfl⟩
  · rw [if_neg raised]
    apply trend.bind
    rintro m t ⟨rfl, ht⟩
    apply (advanceReadPos_yields m m.candleBarReadPos t).mono
    rintro m' r ⟨moved, rfl⟩
    exact ⟨moved, f, hf, (if_neg raised).mpr ht⟩

theorem getSignal_yields (steady : Steady m) (type : PriceType) :
    ((getSignal type).start m).Yields answer R
      fun m' _ => m' = m ∨ m' = { m with candleBarReadPos := m.candleBarReadPos + 1 } := by
  have inside : m.candleBarReadPos ≤ m.candleBarReadPos.toNat := Int.self_le_toNat _
  have fork : ((getForkSignal m.candleBarReadPos m.maAttribute.periodCycle type
      m.maAttribute.flagGoldfork m.maAttribute.flagDeadfork).start m).Yields answer R
        fun m' r => m' = m ∧ ForkResult _ _ r :=
    (getForkSignal_inside steady inside _ _ _).every.yields
  have trend : ((getTrendSignal m.candleBarReadPos m.maAttribute.periodCycle type
      m.maAttribute.flagLong m.maAttribute.flagShort).start m).Yields answer R
        fun m' r => m' = m ∧ TrendReason r.2 :=
    (getTrendSignal_inside steady inside _ _ _).every.yields
  rw [← getForkSignal_calculate] at fork
  rw [← getTrendSignal_calculate] at trend
  rw [← getSignalWith_calculate]
  exact (getSignalWith_yields fork trend).mono fun _ _ moved => moved.1

/-- With parameters that stay, the indicator stays as it is. -/
theorem calculate_computes_of_steady (steady : Steady m) (upTo : dateIndex ≤ n) (p : Int) :
    Program.Computes answer (c.AgreeUpTo n) (· = m) (calculate dateIndex p type false 0)
      (averages m.typeInForce c type dateIndex p) := by
  refine (calculate_computes upTo).restrict ?_ ?_
  · rintro m rfl
    rfl
  · rintro m rfl
    exact (calculate_inside steady upTo p false 0).every

/-- Where no call fails, none ends the process. -/
theorem gives_calculateOrAbort {asked : Int → Prop} {now last : Int → ℚ}
    (h : Gives calculate R (· = m) dateIndex type asked (fun p => some (now p))
      fun p => some (last p)) :
    Gives calculateOrAbort R (· = m) dateIndex type asked (fun p => some (now p))
      fun p => some (last p) where
  now p hp := (h.now p hp).bind (.pure _)
  last p hp := (h.last p hp).bind (.pure _)

end GetSignal

section Available

-- All averages of a cycle are there.
variable {m : CMovingAverage} {c : CCandleBar} {type : PriceType} {dateIndex : Int}
variable {cycle : List Int} {now last : Int → ℚ}

theorem gives_of_available (steady : Steady m)
    (available : ∀ p ∈ cycle, averages m.typeInForce c type dateIndex p = some (now p) ∧
      averages m.typeInForce c type (dateIndex - 1) p = some (last p)) :
    Gives calculate (c.AgreeUpTo dateIndex.toNat) (· = m) dateIndex type (· ∈ cycle)
      (fun p => some (now p)) (fun p => some (last p)) := by
  have upTo : dateIndex ≤ dateIndex.toNat := Int.self_le_toNat _
  have earlier : dateIndex - 1 ≤ dateIndex.toNat := by omega
  constructor
  · intro p hp
    rw [← (available p hp).1]
    exact calculate_computes_of_steady steady upTo p
  · intro p hp
    rw [← (available p hp).2]
    exact calculate_computes_of_steady steady earlier p

/-- `get_signal` decides on the averages, whether or not a failure ends the process. -/
theorem getSignalWith_available {virtual : Calculate}
    (gives : Gives virtual (c.AgreeUpTo m.candleBarReadPos.toNat) (· = m) m.candleBarReadPos type
      (· ∈ m.maAttribute.periodCycle) (fun p => some (now p)) (fun p => some (last p)))
    {fork trend : Int × Int}
    (hfork : fork = if m.candleBarReadPos ≤ 0 then silent
      else forkSignal (fun p => some (now p)) (fun p => some (last p)) m.maAttribute.flagGoldfork
        m.maAttribute.flagDeadfork m.maAttribute.periodCycle)
    (htrend : trend = if m.candleBarReadPos ≤ 0 then silent
      else trendSignal (fun p => some (now p)) (fun p => some (last p)) m.maAttribute.flagLong
        m.maAttribute.flagShort m.maAttribute.periodCycle) :
    ((getSignalWith virtual type).start m).Yields answer
      (c.AgreeUpTo m.candleBarReadPos.toNat)
      fun _ r => r = if signalIsBuy fork.1 ∨ signalIsSell fork.1 then fork else trend := by
  have whole : ∀ p ∈ m.maAttribute.periodCycle, p ∈ m.maAttribute.periodCycle := fun _ hp => hp
  have forks := gives.getForkSignal m.maAttribute.flagGoldfork m.maAttribute.flagDeadfork whole m
    rfl
  have trends := gives.getTrendSignal m.maAttribute.flagLong m.maAttribute.flagShort whole m rfl
  rw [← hfork] at forks
  rw [← htrend] at trends
  apply (getSignalWith_yields forks trends).mono
  rintro m' r ⟨-, f, rfl, result⟩
  split_ifs at result ⊢
  · exact result
  · exact result

theorem getSignal_available (steady : Steady m)
    (available : ∀ p ∈ m.maAttribute.periodCycle,
      averages m.typeInForce c type m.candleBarReadPos p = some (now p) ∧
        averages m.typeInForce c type (m.candleBarReadPos - 1) p = some (last p)) :
    ∃ signal,
      ((getSignalWith calculateOrAbort type).start m).Yields answer
        (c.AgreeUpTo m.candleBarReadPos.toNat) (fun _ r => r = signal) ∧
      ((getSignal type).start m).Yields answer
        (c.AgreeUpTo m.candleBarReadPos.toNat) fun _ r => r = signal := by
  have gives := gives_of_available steady available
  refine ⟨_, getSignalWith_available (gives_calculateOrAbort gives) rfl rfl, ?_⟩
  rw [← getSignalWith_calculate]
  exact getSignalWith_available gives rfl rfl

variable (steady : Steady m)
  (available : ∀ p ∈ cycle, averages m.typeInForce c type dateIndex p = some (now p) ∧
    averages m.typeInForce c type (dateIndex - 1) p = some (last p))
  (later : 0 < dateIndex)

include steady available later

theorem getForkSignal_available {goldFork deadFork : Int} (hg : goldFork ≠ techSignalNothing)
    (hd : deadFork ≠ techSignalNothing) :
    ((getForkSignal dateIndex cycle type goldFork deadFork).start m).Yields answer
      (c.AgreeUpTo dateIndex.toNat)
      fun m' fork => m' = m ∧ (fork.1 = techSignalNothing ↔ ¬ ForkSeen now last cycle) := by
  rw [← getForkSignal_calculate]
  apply ((gives_of_available steady available).getForkSignal _ _ (fun _ hp => hp) m rfl).mono
  rintro m' fork ⟨same, rfl⟩
  rw [if_neg (not_le.mpr later)]
  exact ⟨same, forkSignal_available hg hd cycle⟩

theorem getTrendSignal_available {dirLong dirShort : Int} (hl : dirLong ≠ techSignalNothing)
    (hs : dirShort ≠ techSignalNothing) :
    ((getTrendSignal dateIndex cycle type dirLong dirShort).start m).Yields answer
      (c.AgreeUpTo dateIndex.toNat)
      fun m' trend => m' = m ∧ (trend.1 = techSignalNothing ↔ ¬ TrendSeen dirLong dirShort
        ((cycle.zip cycle.tail).map (pairValues now last))) := by
  rw [← getTrendSignal_calculate]
  apply ((gives_of_available steady available).getTrendSignal _ _ (fun _ hp => hp) m rfl).mono
  rintro m' trend ⟨same, rfl⟩
  have pairs : pairsOf (fun p => some (now p)) (fun p => some (last p)) cycle =
      ((cycle.zip cycle.tail).map (pairValues now last)).map some :=
    pairsOf_available (fun _ _ => rfl) fun _ _ => rfl
  rw [if_neg (not_le.mpr later), trendSignal, pairs]
  exact ⟨same, trendBehind_eq_nothing hl hs _⟩

end Available

/-- The calls one after the other. The log holds what `is_basic_data_ready` returned. -/
def ReaderCall.logged : ReaderCall → MaProgram (List Bool)
  | .indicator .isBasicDataReady => do
    let ready ← isBasicDataReady
    return [ready]
  | .indicator call => do
    IndicatorCall.program call
    return []
  | .getLimitPrice type => do
    let _ ← getLimitPrice type
    return []

def performLogged : List ReaderCall → MaProgram (List Bool)
  | [] => return []
  | call :: calls => do
    let log ← ReaderCall.logged call
    let later ← performLogged calls
    return log ++ later

/-- The calls, and behind them one of `is_basic_data_ready`. -/
def performThenAsk (calls : List ReaderCall) : MaProgram (List Bool × Bool) := do
  let log ← performLogged calls
  let ready ← isBasicDataReady
  return (log, ready)

/-- `calculate` leaves the attached parameters unchanged on every series, also where its
access check fails. -/
def CalculateKeeps (attr : MaAttribute) : Prop :=
  ∀ (ma : CMovingAverage) (dateIndex periods : Int) (type : PriceType) (useLast : Bool)
    (data : ℚ) (c : CCandleBar),
    ((calculate dateIndex periods type useLast data).start (ma.attachParameters attr)).Keeps answer
      (fun m _ => m.maAttribute = attr) (fun _ _ _ => True) c

/-- The indicator in a run of the guard and of evaluations: `ready` says that the guard
has returned true, and from then on the position is not in front of the largest period.
-/
structure Placed (attr : MaAttribute) (ready : Prop) (m : CMovingAverage) : Prop where
  attached : m.maAttribute = attr
  flag : m.initialReadPosFlag ↔ ready
  behind : ready → periodMax attr.periodCycle ≤ m.candleBarReadPos

section Runs

variable {attr : MaAttribute} {m : CMovingAverage} {c : CCandleBar} {ready : Prop}
variable {R : CCandleBar → Prop}

theorem Placed.advance (h : Placed attr ready m) :
    Placed attr ready { m with candleBarReadPos := m.candleBarReadPos + 1 } where
  attached := h.attached
  flag := h.flag
  behind was := by
    have := h.behind was
    change _ ≤ m.candleBarReadPos + 1
    omega

/-- A call with an empty log. -/
theorem Placed.unlogged (h : Placed attr ready m) :
    Placed attr (ready ∨ true ∈ ([] : List Bool)) m := by
  simpa using h

/-- The first answer that is true places the position. -/
theorem Placed.asked (h : Placed attr ready m) :
    (isBasicDataReady.start m).Yields answer R
      fun m' now => Placed attr (ready ∨ now = true) m' := by
  rw [start_isBasicDataReady]
  by_cases flag : m.initialReadPosFlag
  · have was : ready := h.flag.mp flag
    have same : (ready ∨ true = true) = ready := by simp [was]
    rw [if_pos flag]
    change Placed attr (ready ∨ true = true) m
    rwa [same]
  · have never : ¬ ready := h.flag.not.mp flag
    rw [if_neg flag]
    intro s _
    beta_reduce
    split
    · refine ⟨h.attached, by simp, fun _ => ?_⟩
      rw [← h.attached]
    · refine ⟨h.attached, by simp [never, flag], fun was => ?_⟩
      simp [never] at was

/-- While the series grows, the first answer that is true finds the bar at the position
it places. -/
theorem Placed.first_ready (h : Placed attr ready m) (never : ¬ ready) :
    (isBasicDataReady.start m).Keeps answer (fun _ _ => True)
      (fun m' now d => now = true → m'.maAttribute = attr ∧
        m'.candleBarReadPos = periodMax attr.periodCycle ∧
        periodMax attr.periodCycle < d.candles.length) c := by
  have flag : ¬ m.initialReadPosFlag := h.flag.not.mpr never
  rw [start_isBasicDataReady, if_neg flag]
  intro d grow
  refine ⟨trivial, ?_⟩
  change Resumption.Keeps answer _ _
    (if d.candles.length > sizeOfInt (periodMax m.maAttribute.periodCycle) then _ else _) d
  rw [h.attached]
  have nonneg := periodMax_nonneg attr.periodCycle
  lift periodMax attr.periodCycle to ℕ using nonneg with high
  rw [sizeOfInt_natCast]
  by_cases enough : d.candles.length > high
  · rw [if_pos enough]
    intro d' more
    have longer := CCandleBar.length_mono more
    exact ⟨trivial, fun _ => ⟨rfl, rfl, by omega⟩⟩
  · rw [if_neg enough]
    exact fun _ _ => ⟨trivial, by simp⟩

variable (steady : ∀ m : CMovingAverage, m.maAttribute = attr → Steady m)

include steady

theorem Placed.logged (h : Placed attr ready m) (call : ReaderCall) :
    ((ReaderCall.logged call).start m).Yields answer R
      fun m' log => Placed attr (ready ∨ true ∈ log) m' := by
  have steady := steady m h.attached
  cases call with
  | getLimitPrice type =>
      intro s _
      exact h.unlogged
  | indicator call =>
      cases call with
      | isBasicDataReady =>
          apply h.asked.bind
          intro m' now placed
          change Placed attr (ready ∨ true ∈ [now]) m'
          simpa [eq_comm] using placed
      | calculate dateIndex periods type useLast data =>
          have inside : dateIndex ≤ dateIndex.toNat := Int.self_le_toNat _
          have unchanged : ((IndicatorCall.program
              (.calculate dateIndex periods type useLast data)).start m).Yields answer R
                fun m' _ => m' = m :=
            (calculate_inside steady inside _ _ _).every.yields.bind fun _ _ same => same.1
          apply unchanged.bind
          rintro m' u rfl
          exact h.unlogged
      | getSignal type =>
          have moved : ((IndicatorCall.program (.getSignal type)).start m).Yields answer R
              fun m' _ => m' = m ∨ m' = { m with candleBarReadPos := m.candleBarReadPos + 1 } :=
            (getSignal_yields steady type).bind fun _ _ moved => moved
          apply moved.bind
          rintro m' u (rfl | rfl)
          · exact h.unlogged
          · exact h.advance.unlogged

theorem Placed.performLogged (h : Placed attr ready m) (calls : List ReaderCall) :
    ((performLogged calls).start m).Yields answer R
      fun m' log => Placed attr (ready ∨ true ∈ log) m' := by
  induction calls generalizing m ready with
  | nil => exact h.unlogged
  | cons call calls ih =>
      apply (h.logged steady call).bind
      intro m' log placed
      apply (ih placed).bind
      intro m'' later placed
      change Placed attr (ready ∨ true ∈ log ++ later) m''
      rwa [List.mem_append, ← or_assoc]

end Runs

section Exact

variable {attr : MaAttribute} {m : CMovingAverage} {c : CCandleBar} {type : PriceType}

theorem lowestFlags_or_default_of_calculateKeeps (kept : CalculateKeeps attr) :
    LowestFlags attr ∨ attr = defaultAttribute := by
  let m : CMovingAverage := attachParameters {} attr
  obtain ⟨m', a, result, same, -⟩ := (kept {} 0 2 .closePrice false 0 (closing [1])).eval
  have access : ((calculate 0 2 .closePrice false 0).start m).eval answer (closing [1]) =
      some (m.inForce, none) := rfl
  obtain ⟨rfl, -⟩ := Prod.mk.inj (Option.some.inj (access.symm.trans result))
  exact lowestFlags_or_default same

/-- The flags of parameters that stay are signals. -/
theorem flags_ne_nothing (h : LowestFlags attr ∨ attr = defaultAttribute) :
    (attr.flagGoldfork ≠ techSignalNothing ∧ attr.flagDeadfork ≠ techSignalNothing) ∧
      attr.flagLong ≠ techSignalNothing ∧ attr.flagShort ≠ techSignalNothing := by
  obtain ⟨gold, dead, long, short⟩ | rfl := h
  · rw [gold, dead, long, short]
    decide
  · decide

variable (arithmetic : attr.attributeType = typeMa) (positive : ∀ p ∈ attr.periodCycle, 0 < p)

include arithmetic positive

/-- Behind the largest period every average is there, and so is the one before. -/
theorem averages_of_placed (h : Placed attr True m)
    (present : m.candleBarReadPos < c.candles.length) (type : PriceType) :
    ∃ now last : Int → ℚ, ∀ p ∈ attr.periodCycle,
      averages m.typeInForce c type m.candleBarReadPos p = some (now p) ∧
        averages m.typeInForce c type (m.candleBarReadPos - 1) p = some (last p) := by
  have kind : m.typeInForce = typeMa := by
    apply ofType_typeMa
    rw [h.attached]
    exact arithmetic
  have behind := h.behind trivial
  have there (d p : Int) (inside : 0 ≤ d ∧ d < c.candles.length ∧ 0 < p ∧ p ≤ d + 1) :
      averages m.typeInForce c type d p = some ((averages m.typeInForce c type d p).getD 0) := by
    have success : (averages m.typeInForce c type d p).isSome := by
      rw [averages, kind, average_isSome_iff]
      exact inside
    obtain ⟨a, ha⟩ := Option.isSome_iff_exists.mp success
    rw [ha, Option.getD_some]
  refine ⟨fun p => (averages m.typeInForce c type m.candleBarReadPos p).getD 0,
    fun p => (averages m.typeInForce c type (m.candleBarReadPos - 1) p).getD 0, ?_⟩
  intro p hp
  have high := positive p hp
  have below := le_periodMax hp
  exact ⟨there _ p (by omega), there _ p (by omega)⟩

theorem signalsComplete_of_placed (flags : LowestFlags attr ∨ attr = defaultAttribute)
    (nonempty : attr.periodCycle ≠ []) (h : Placed attr True m)
    (present : m.candleBarReadPos < c.candles.length) (type : PriceType) :
    SignalsComplete attr m c type := by
  have steady : Steady m := steady_of_attribute (.inl arithmetic) nonempty flags m h.attached
  obtain ⟨⟨gold, dead⟩, long, short⟩ := flags_ne_nothing flags
  have first := positive _ (periodMax_mem nonempty positive)
  have behind := h.behind trivial
  have later : 0 < m.candleBarReadPos := by omega
  obtain ⟨now, last, available⟩ := averages_of_placed arithmetic positive h present type
  have grown : ∀ d, c ≤ d → c.AgreeUpTo m.candleBarReadPos.toNat d :=
    fun d grow => CCandleBar.agreeUpTo_of_le grow (by omega)
  constructor
  · have complete : ∀ p ∈ m.maAttribute.periodCycle,
        averages m.typeInForce c type m.candleBarReadPos p = some (now p) ∧
          averages m.typeInForce c type (m.candleBarReadPos - 1) p = some (last p) := by
      rw [h.attached]
      exact available
    obtain ⟨signal, checked, plain⟩ := getSignal_available steady complete
    exact ⟨signal, checked.keeps grown, plain.keeps grown⟩
  · refine ⟨now, last, ?_, ?_, ?_⟩
    · intro p hp
      rw [outcome_calculate, outcome_calculate]
      exact ⟨congrArg some (available p hp).1, congrArg some (available p hp).2⟩
    · exact (getForkSignal_available steady available later gold dead).keeps grown
    · exact (getTrendSignal_available steady available later long short).keeps grown

/-- The first call of the guard that returns true puts the position at the least index
where every period has its averages. From then on both signals are complete on every
bar that is there. -/
theorem readiness_guard_exact (kept : CalculateKeeps attr) (nonempty : attr.periodCycle ≠ [])
    (ma : CMovingAverage) (unasked : ma.initialReadPosFlag = false) (calls : List ReaderCall)
    (c : CCandleBar) :
    ((performThenAsk calls).start (ma.attachParameters attr)).Keeps answer (fun _ _ => True)
      (fun m log d => true ∉ log.1 → log.2 = true → ∀ type useLast data,
        IsLeast {i | Available attr.periodCycle type useLast data m d i} m.candleBarReadPos) c ∧
    ((performLogged calls).start (ma.attachParameters attr)).Keeps answer (fun _ _ => True)
      (fun (m : CMovingAverage) log d => true ∈ log → m.candleBarReadPos < d.candles.length →
        ∀ type, SignalsComplete attr m d type) c := by
  have flags := lowestFlags_or_default_of_calculateKeeps kept
  have steady := steady_of_attribute (.inl arithmetic) nonempty flags
  have unset : ¬ (ma.attachParameters attr).initialReadPosFlag := by
    change ¬ ma.initialReadPosFlag
    rw [unasked]
    decide
  have start : Placed attr False (ma.attachParameters attr) :=
    ⟨rfl, iff_of_false unset id, False.elim⟩
  have run := (start.performLogged steady calls).keeps (s := c) fun d _ => trivial
  constructor
  · apply run.bind
    intro m log d grow placed
    by_cases asked : true ∈ log
    · exact (placed.asked.keeps fun _ _ => trivial).bind
        fun _ _ _ _ _ _ _ => ⟨trivial, fun never => absurd asked never⟩
    · have never : ¬ (False ∨ true ∈ log) := by simpa using asked
      apply (placed.first_ready never).bind
      intro m' ready d' grow' first d'' more
      refine ⟨trivial, fun _ now type useLast data => ?_⟩
      obtain ⟨attached, position, enough⟩ := first now
      have longer := CCandleBar.length_mono more
      rw [position]
      apply available_isLeast
      · rw [attached]
        exact arithmetic
      · exact nonempty
      · exact positive
      · omega
  · apply run.mono
    intro m log d grow placed asked present type
    rw [false_or, propext (iff_true_intro asked)] at placed
    exact signalsComplete_of_placed arithmetic positive flags nonempty placed present type

end Exact

theorem calculateKeeps_default : CalculateKeeps defaultAttribute := by
  intro ma dateIndex periods type useLast data c
  have steady := steady_of_attribute (.inl rfl) (by decide) (.inr (Eq.refl defaultAttribute))
  have stays := calculate_stays steady dateIndex periods type useLast data
  exact (stays.every (ma.attachParameters defaultAttribute) rfl).keeps fun _ _ _ hm => hm

theorem readiness_guard_exact_default :
    IsLeast {i | Available [2, 3, 4] .closePrice false 0 (readingAt 4) (closing [1, 2, 3, 4, 5]) i}
        4 ∧
      SignalsComplete defaultAttribute (readingAt 4) (closing [1, 2, 3, 4, 5]) .closePrice := by
  have positive : ∀ p ∈ defaultAttribute.periodCycle, 0 < p := by decide
  have guard (calls : List ReaderCall) := readiness_guard_exact rfl positive calculateKeeps_default
    (by decide) {} rfl calls (closing [1, 2, 3, 4, 5])
  constructor
  · obtain ⟨m, log, result, -, least⟩ := (guard []).1.eval
    have asked : ((performThenAsk []).start (attachParameters {} defaultAttribute)).eval answer
        (closing [1, 2, 3, 4, 5]) = some (readingAt 4, [], true) := rfl
    obtain ⟨rfl, rfl⟩ := Prod.mk.inj (Option.some.inj (asked.symm.trans result))
    exact least (by decide) rfl .closePrice false 0
  · obtain ⟨m, log, result, -, complete⟩ := (guard [.indicator .isBasicDataReady]).2.eval
    have asked : ((performLogged [.indicator .isBasicDataReady]).start
        (attachParameters {} defaultAttribute)).eval answer (closing [1, 2, 3, 4, 5]) =
          some (readingAt 4, [true]) := rfl
    obtain ⟨rfl, rfl⟩ := Prod.mk.inj (Option.some.inj (asked.symm.trans result))
    exact complete (by decide) (by decide) .closePrice

end CMovingAverage

end CtpTrade
