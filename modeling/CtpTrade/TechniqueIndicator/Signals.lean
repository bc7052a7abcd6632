import CtpTrade.TechniqueIndicator.Basic

/-!
# Signals on a growing series

With parameters that no access replaces, the averages and both signals leave the
indicator alone. Where the bar at `date_index` is present, every locked read
gives an answer that later bars cannot change (`Inside`). Where it is missing,
the first locked read is the size check that ends the function
(`BeginsWithCheck`); this is the only read that a new bar can affect.
-/

namespace CtpTrade

namespace CMovingAverage

open CandleCall

variable {ma : CMovingAverage} {n : Nat} {dateIndex : Int} {type : PriceType} {c : CCandleBar}
variable {α β : Type} {P : α → Prop} {P' : β → Prop} {p : MaProgram α}

/-- The state in which an access check leaves the parameters as they are: they are
valid, or they are the default ones, which the check would put there. -/
def Steady (ma : CMovingAverage) : Prop :=
  ma.isValidParameters ∨ ma.maAttribute = defaultAttribute

theorem Steady.kept (h : Steady ma) :
    (if ma.isValidParameters then ma else ma.setDefaultParameters) = ma := by
  obtain valid | same := h
  · simp only [valid, ↓reduceIte]
  · have default : ma.setDefaultParameters = ma := by rw [setDefaultParameters, ← same]
    simp only [default, ite_self]

theorem Steady.attributeType (h : Steady ma) :
    ma.maAttribute.attributeType = typeMa ∨ ma.maAttribute.attributeType = typeMaExp := by
  obtain valid | same := h
  · simp only [isValidParameters, Bool.decide_and, Bool.and_eq_true, decide_eq_true_eq] at valid
    exact valid.1
  · rw [same]
    exact .inl rfl

/-- The program leaves the indicator alone and ends with a result that satisfies `P`. It
only looks inside the series: where bar `n` is present, later bars change nothing it
reads, so it is settled. -/
structure Inside (ma : CMovingAverage) (n : Nat) (p : MaProgram α) (P : α → Prop) : Prop where
  every : (p.start ma).Every (· = ma) fun _ a => P a
  settled : ∀ c : CCandleBar, n < c.candles.length → (p.start ma).Settled answer c

theorem Inside.eval (h : Inside ma n p P) (c : CCandleBar) :
    ∃ a, (p.start ma).eval answer c = some (ma, a) ∧ P a := by
  obtain ⟨m, a, result, same, ha⟩ :
      ∃ m a, (p.start ma).eval answer c = some (m, a) ∧ m = ma ∧ P a := h.every.eval c
  exact ⟨a, same ▸ result, ha⟩

theorem Inside.pure {a : α} (h : P a) : Inside ma n (pure a) P where
  every := ⟨rfl, h⟩
  settled _ _ := trivial

theorem Inside.bind {f : α → MaProgram β} (h : Inside ma n p P)
    (next : ∀ a, P a → Inside ma n (f a) P') : Inside ma n (p >>= f) P' where
  every := by
    apply h.every.bind
    rintro m a rfl ha
    exact (next a ha).every
  settled c present := by
    apply (h.settled c present).bind
    intro m a result
    obtain ⟨a', result', ha⟩ := h.eval c
    obtain ⟨rfl, rfl⟩ : ma = m ∧ a' = a := by simpa [result'] using result
    exact (next a' ha).settled c present

theorem Inside.ite {q : MaProgram α} {cond : Prop} [Decidable cond] (yes : Inside ma n p P)
    (no : Inside ma n q P) : Inside ma n (if cond then p else q) P := by
  split
  · exact yes
  · exact no

theorem getSafePrice_inside {i : Nat} (h : i ≤ n) :
    Inside ma n (BaseKdata.getSafePrice i type) fun _ => True where
  every := ⟨rfl, fun _ => ⟨rfl, trivial⟩⟩
  settled c present := by
    refine ⟨?_, trivial⟩
    intro d grow
    change Resumption.done ma (d.getPrice i type) = .done ma (c.getPrice i type)
    rw [CCandleBar.getPrice_mono grow (by omega)]

theorem getMa_inside {i : Nat} (periods : Int) (h : i ≤ n) :
    Inside ma n (BaseKdata.getMa i periods type) fun _ => True where
  every := ⟨rfl, fun _ => ⟨rfl, trivial⟩⟩
  settled c present := by
    refine ⟨?_, trivial⟩
    intro d grow
    change Resumption.done ma (d.getMa i periods type) = .done ma (c.getMa i periods type)
    rw [CCandleBar.getMa_mono grow (by omega)]

theorem start_accessCalculateParameters (steady : Steady ma) (nonneg : ¬ dateIndex < 0)
    (periods : Int) :
    (accessCalculateParameters dateIndex periods).start ma =
      .call ma .getCandleSize fun size =>
        if sizeOfInt dateIndex ≥ size ∨ periods ≤ 0 then .done ma false else .done ma true := by
  simp only [accessCalculateParameters, nonneg, ↓reduceIte, BaseKdata.getCandleSize,
    Program.start_bind, Program.start_call, Resumption.bind, Program.start_ite,
    Program.start_pure, Program.start_modify, steady.kept]

theorem accessCalculateParameters_inside (steady : Steady ma) (h : dateIndex ≤ n)
    (periods : Int) :
    Inside ma n (accessCalculateParameters dateIndex periods) fun ok => ok → 0 ≤ dateIndex := by
  by_cases negative : dateIndex < 0
  · simp only [accessCalculateParameters, negative, ↓reduceIte]
    exact Inside.pure (by simp)
  · have start := start_accessCalculateParameters steady negative periods
    have position : sizeOfInt dateIndex = dateIndex.toNat := by
      simp only [sizeOfInt, not_lt.mp negative, ↓reduceIte]
    constructor
    · rw [start]
      refine ⟨rfl, ?_⟩
      intro size
      beta_reduce
      split
      · exact ⟨rfl, by simp⟩
      · exact ⟨rfl, fun _ => not_lt.mp negative⟩
    · intro c present
      rw [start]
      constructor
      · intro d grow
        have longer := CCandleBar.length_mono grow
        have here : ¬ sizeOfInt dateIndex ≥ c.candles.length := by omega
        have there : ¬ sizeOfInt dateIndex ≥ d.candles.length := by omega
        simp only [answer, CCandleBar.getCandleSize, here, there]
      · beta_reduce
        split <;> trivial

theorem maExpLoop_inside (nonneg : 0 ≤ dateIndex) (h : dateIndex ≤ n) (periods : Int)
    (rounds : Nat) :
    Inside ma n (maExpLoop dateIndex periods type rounds) fun _ => True := by
  have position : sizeOfInt dateIndex ≤ n := by
    simp only [sizeOfInt, nonneg, ↓reduceIte]
    omega
  induction rounds with
  | zero => exact getSafePrice_inside (Nat.zero_le n)
  | succ rounds ih =>
      refine ih.bind fun maData _ => ?_
      exact (getSafePrice_inside position).bind fun price _ => Inside.pure trivial

theorem calculate_inside (steady : Steady ma) (h : dateIndex ≤ n) (periods : Int)
    (useLast : Bool) (data : ℚ) :
    Inside ma n (calculate dateIndex periods type useLast data) fun _ => True := by
  refine (accessCalculateParameters_inside steady h periods).bind fun accessed nonneg => ?_
  cases accessed with
  | false => exact Inside.pure trivial
  | true =>
      have nonneg := nonneg rfl
      have position : sizeOfInt dateIndex ≤ n := by
        simp only [sizeOfInt, nonneg, ↓reduceIte]
        omega
      refine Inside.ite (Inside.pure trivial) ?_
      refine Inside.bind (P := fun m => m = ma) ⟨⟨rfl, rfl⟩, fun _ _ => trivial⟩ ?_
      rintro m rfl
      by_cases arithmetic : m.maAttribute.attributeType = typeMa
      · rw [if_pos arithmetic]
        exact getMa_inside periods position
      · have exponential := steady.attributeType.resolve_left arithmetic
        rw [if_neg arithmetic, if_pos exponential]
        refine Inside.ite ?_ ?_
        · refine (getSafePrice_inside position).bind fun price _ => ?_
          exact Inside.pure trivial
        · refine (maExpLoop_inside nonneg h periods _).bind fun maData _ => ?_
          exact Inside.pure trivial

theorem pairAverages_inside (steady : Steady ma) (h : dateIndex ≤ n) (p q : Int) :
    Inside ma n (pairAverages dateIndex p q type) fun _ => True := by
  have average (index : Int) (hindex : index ≤ n) (periods : Int) :
      Inside ma n (calculate index periods type false 0) fun _ => True :=
    calculate_inside steady hindex periods false 0
  refine (average dateIndex h _).bind fun nowMinor _ => ?_
  cases nowMinor with
  | none => exact Inside.pure trivial
  | some nowMinor =>
      refine (average dateIndex h _).bind fun nowMajor _ => ?_
      cases nowMajor with
      | none => exact Inside.pure trivial
      | some nowMajor =>
          refine (average (dateIndex - 1) (by omega) _).bind fun lastMinor _ => ?_
          cases lastMinor with
          | none => exact Inside.pure trivial
          | some lastMinor =>
              refine (average (dateIndex - 1) (by omega) _).bind fun lastMajor _ => ?_
              cases lastMajor with
              | none => exact Inside.pure trivial
              | some lastMajor => exact Inside.pure trivial

theorem confirmFork_inside (steady : Steady ma) (h : dateIndex ≤ n) (confirms : ℚ → ℚ → Bool)
    (fork : Int × Int) (rest : List Int) :
    Inside ma n (confirmFork dateIndex type confirms fork rest)
      fun r => ∀ x, r = some x → x = silent ∨ x = fork := by
  induction rest with
  | nil => exact Inside.pure (by simp)
  | cons period rest ih =>
      refine (calculate_inside steady h period false 0).bind fun nowMore _ => ?_
      cases nowMore with
      | none => exact Inside.pure (by simp)
      | some nowMore =>
          refine (calculate_inside steady (by omega) period false 0).bind fun lastMore _ => ?_
          cases lastMore with
          | none => exact Inside.pure (by simp)
          | some lastMore => exact Inside.ite (Inside.pure (by simp)) ih

theorem raiseFork_inside (steady : Steady ma) (h : dateIndex ≤ n) (crossed : Bool)
    (confirms : ℚ → ℚ → Bool) (fork : Int × Int) (rest : List Int) :
    Inside ma n (raiseFork dateIndex type crossed confirms fork rest)
      fun r => ∀ x, r = some x → x = silent ∨ x = fork := by
  refine Inside.ite (Inside.pure (by simp)) (Inside.ite ?_ ?_)
  · exact Inside.pure (by simp)
  · exact confirmFork_inside steady h confirms fork rest

/-- What a fork function can return: nothing, or a signal together with the reason that
belongs to it. -/
def ForkResult (goldFork deadFork : Int) (r : Int × Int) : Prop :=
  r = silent ∨ r = (goldFork, techReasonGoldfork) ∨ r = (deadFork, techReasonDeadfork)

theorem forkLoop_inside (steady : Steady ma) (h : dateIndex ≤ n) (goldFork deadFork : Int)
    (cycle : List Int) :
    Inside ma n (forkLoop dateIndex type goldFork deadFork cycle)
      (ForkResult goldFork deadFork) := by
  have nothing : ForkResult goldFork deadFork silent := .inl rfl
  induction cycle with
  | nil => exact Inside.pure nothing
  | cons p cycle ih =>
      cases cycle with
      | nil => exact Inside.pure nothing
      | cons q rest =>
          refine (pairAverages_inside steady h p q).bind fun averages _ => ?_
          cases averages with
          | none => exact Inside.pure nothing
          | some averages =>
              refine (raiseFork_inside steady h _ _ _ rest).bind fun gold hgold => ?_
              cases gold with
              | some result =>
                  refine Inside.pure ?_
                  obtain hresult | hresult := hgold result rfl
                  · exact .inl hresult
                  · exact .inr (.inl hresult)
              | none =>
                  refine (raiseFork_inside steady h _ _ _ rest).bind fun dead hdead => ?_
                  cases dead with
                  | some result =>
                      refine Inside.pure ?_
                      obtain hresult | hresult := hdead result rfl
                      · exact .inl hresult
                      · exact .inr (.inr hresult)
                  | none => exact ih

theorem getForkSignal_inside (steady : Steady ma) (h : dateIndex ≤ n) (cycle : List Int)
    (goldFork deadFork : Int) :
    Inside ma n (getForkSignal dateIndex cycle type goldFork deadFork)
      (ForkResult goldFork deadFork) :=
  Inside.ite (Inside.pure (.inl rfl)) (forkLoop_inside steady h goldFork deadFork cycle)

/-- A trend never has the reason of a fork, so the two kinds of results can be told
apart by the reason. -/
def TrendReason (reason : Int) : Prop :=
  reason = techReasonNothing ∨ reason = techReasonLong ∨ reason = techReasonShort

instance (reason : Int) : Decidable (TrendReason reason) := inferInstanceAs (Decidable (_ ∨ _))

theorem trendLoop_inside (steady : Steady ma) (h : dateIndex ≤ n) (dirLong dirShort : Int)
    (first : Bool) {trend : Int × Int} (htrend : TrendReason trend.2) (cycle : List Int) :
    Inside ma n (trendLoop dateIndex type dirLong dirShort first trend cycle)
      fun r => TrendReason r.2 := by
  induction cycle generalizing first trend with
  | nil => exact Inside.pure htrend
  | cons p cycle ih =>
      cases cycle with
      | nil => exact Inside.pure htrend
      | cons q rest =>
          refine (pairAverages_inside steady h p q).bind fun averages _ => ?_
          cases averages with
          | none => exact Inside.pure htrend
          | some averages =>
              apply ih
              split
              · exact .inr (.inl rfl)
              · split
                · exact .inr (.inr rfl)
                · exact .inl rfl

theorem getTrendSignal_inside (steady : Steady ma) (h : dateIndex ≤ n) (cycle : List Int)
    (dirLong dirShort : Int) :
    Inside ma n (getTrendSignal dateIndex cycle type dirLong dirShort)
      fun r => TrendReason r.2 :=
  Inside.ite (Inside.pure (.inl rfl))
    (trendLoop_inside steady h dirLong dirShort true (.inl rfl) cycle)

/-- The first read of the program is the size check of `dateIndex`. Where the bar is
missing it ends the program with the result `a` and with the indicator as it was. -/
def BeginsWithCheck (ma : CMovingAverage) (dateIndex : Int) (p : MaProgram α) (a : α) : Prop :=
  ∃ k, p.start ma = .call ma .getCandleSize k ∧
    ∀ size : Nat, sizeOfInt dateIndex ≥ size → k size = .done ma a

section BeginsWithCheck

variable {a : α} {b : β}

theorem BeginsWithCheck.bind {f : α → MaProgram β} (h : BeginsWithCheck ma dateIndex p a)
    (stop : (f a).start ma = .done ma b) : BeginsWithCheck ma dateIndex (p >>= f) b := by
  obtain ⟨k, start, check⟩ := h
  refine ⟨fun size => (k size).bind fun m a => (f a).start m, ?_, ?_⟩
  · rw [Program.start_bind, start]
    rfl
  · intro size missing
    beta_reduce
    rw [check size missing]
    exact stop

theorem BeginsWithCheck.step (h : BeginsWithCheck ma dateIndex p a)
    (missing : c.candles.length ≤ sizeOfInt dateIndex) :
    (p.start ma).step answer c = .done ma a := by
  obtain ⟨k, start, check⟩ := h
  rw [start]
  exact check _ missing

theorem BeginsWithCheck.eval (h : BeginsWithCheck ma dateIndex p a)
    (missing : c.candles.length ≤ sizeOfInt dateIndex) :
    (p.start ma).eval answer c = some (ma, a) := by
  rw [← Resumption.eval_step, h.step missing]
  rfl

theorem calculate_beginsWithCheck (steady : Steady ma) (nonneg : 0 ≤ dateIndex) (periods : Int)
    (useLast : Bool) (data : ℚ) :
    BeginsWithCheck ma dateIndex (calculate dateIndex periods type useLast data) none := by
  have access : BeginsWithCheck ma dateIndex (accessCalculateParameters dateIndex periods)
      false := by
    refine ⟨_, start_accessCalculateParameters steady (by omega) periods, ?_⟩
    intro size missing
    simp only [missing, true_or, ↓reduceIte]
  exact access.bind rfl

theorem pairAverages_beginsWithCheck (steady : Steady ma) (nonneg : 0 ≤ dateIndex) (p q : Int) :
    BeginsWithCheck ma dateIndex (pairAverages dateIndex p q type) none :=
  (calculate_beginsWithCheck steady nonneg (min p q) false 0).bind rfl

theorem getForkSignal_beginsWithCheck (steady : Steady ma) (positive : 0 < dateIndex)
    (p q : Int) (rest : List Int) (goldFork deadFork : Int) :
    BeginsWithCheck ma dateIndex (getForkSignal dateIndex (p :: q :: rest) type goldFork deadFork)
      silent := by
  rw [getForkSignal, if_neg (by omega)]
  exact (pairAverages_beginsWithCheck steady (by omega) p q).bind rfl

theorem getTrendSignal_beginsWithCheck (steady : Steady ma) (positive : 0 < dateIndex)
    (p q : Int) (rest : List Int) (dirLong dirShort : Int) :
    BeginsWithCheck ma dateIndex (getTrendSignal dateIndex (p :: q :: rest) type dirLong dirShort)
      silent := by
  rw [getTrendSignal, if_neg (by omega)]
  exact (pairAverages_beginsWithCheck steady (by omega) p q).bind rfl

/-- Such a program ends with the result of the missing bar, or with the result it
has on the series with the bar. -/
theorem BeginsWithCheck.keeps {I : CMovingAverage → CCandleBar → Prop}
    (check : BeginsWithCheck ma n p a) (inside : Inside ma n p P)
    (guarantee : ∀ d, c ≤ d → I ma d) :
    (p.start ma).Keeps answer I
      (fun m r d => m = ma ∧
        (r = a ∨ n < d.candles.length ∧ (p.start ma).eval answer d = some (ma, r))) c := by
  obtain ⟨k, start, missed⟩ := check
  rw [start]
  intro d later
  refine ⟨guarantee d later, ?_⟩
  by_cases present : n < d.candles.length
  · have settled := inside.settled d present
    have every := inside.every
    rw [start] at settled every
    have kept : ∀ m d', d ≤ d' → m = ma → I m d' := by
      rintro m d' more rfl
      exact guarantee d' (le_trans later more)
    refine (settled.step.keeps every.step kept).mono ?_
    intro m r d' more result
    have longer := CCandleBar.length_mono more
    rw [Resumption.eval_step, ← settled.eval more, ← start] at result
    obtain ⟨r', result', -⟩ := inside.eval d'
    obtain ⟨rfl, rfl⟩ : ma = m ∧ r' = r := by simpa [result'] using result
    exact ⟨rfl, .inr ⟨by omega, start ▸ result'⟩⟩
  · have stopped : k (answer .getCandleSize d) = .done ma a := by
      apply missed
      rw [sizeOfInt_natCast]
      exact not_lt.mp present
    rw [stopped]
    exact fun d' more => ⟨guarantee d' (le_trans later more), rfl, .inl rfl⟩

end BeginsWithCheck

end CMovingAverage

end CtpTrade
