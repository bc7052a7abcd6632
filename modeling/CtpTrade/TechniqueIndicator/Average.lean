import CtpTrade.TechniqueIndicator.Basic

/-!
# Averages of a series

What `calculate` gives is a function of the attribute type that an access leaves
and of the bars up to `date_index`. `average` is this function. It does not
matter which series answers the calls, as long as all of them agree up to
`date_index`.
-/

namespace CtpTrade

namespace CCandleBar

/-- The two series have the same bars at the positions up to `n`, and may differ behind
it in any way, also in their length. -/
def AgreeUpTo (n : Nat) (c d : CCandleBar) : Prop :=
  d.candles.take (n + 1) = c.candles.take (n + 1)

section AgreeUpTo

variable {n i : Nat} {c d : CCandleBar} {type : PriceType}

theorem AgreeUpTo.refl (n : Nat) (c : CCandleBar) : AgreeUpTo n c c := rfl

theorem AgreeUpTo.getElem? (h : AgreeUpTo n c d) (upTo : i ≤ n) :
    d.candles[i]? = c.candles[i]? := by
  have front (s : CCandleBar) : (s.candles.take (n + 1))[i]? = s.candles[i]? :=
    List.getElem?_take_of_lt (by omega)
  rw [← front d, ← front c, h]

theorem AgreeUpTo.missing_iff (h : AgreeUpTo n c d) (upTo : i ≤ n) :
    i ≥ d.candles.length ↔ i ≥ c.candles.length := by
  rw [ge_iff_le, ge_iff_le, ← List.getElem?_eq_none_iff, ← List.getElem?_eq_none_iff,
    h.getElem? upTo]

theorem AgreeUpTo.getPrice (h : AgreeUpTo n c d) (upTo : i ≤ n) :
    d.getPrice i type = c.getPrice i type := by
  simp only [CCandleBar.getPrice, h.getElem? upTo]

theorem AgreeUpTo.maSum (h : AgreeUpTo n c d) {rounds : Nat} (enough : rounds ≤ i + 1)
    (upTo : i ≤ n) (maData : ℚ) :
    d.maSum type rounds i maData = c.maSum type rounds i maData := by
  induction rounds generalizing i maData with
  | zero => rfl
  | succ rounds ih =>
      simp only [CCandleBar.maSum, h.getPrice upTo]
      by_cases first : i = 0
      · obtain rfl : rounds = 0 := by omega
        rfl
      · simp only [first, ↓reduceIte]
        exact ih (by omega) (by omega) _

theorem AgreeUpTo.getMa (h : AgreeUpTo n c d) {periods : Int} (upTo : i ≤ n) :
    d.getMa i periods type = c.getMa i periods type := by
  simp only [CCandleBar.getMa, h.missing_iff upTo]
  split
  · rfl
  · rw [h.maSum (by omega) upTo]

theorem agreeUpTo_of_getElem? (h : ∀ i ≤ n, d.candles[i]? = c.candles[i]?) :
    AgreeUpTo n c d := by
  refine List.ext_getElem? fun i => ?_
  rw [List.getElem?_take, List.getElem?_take]
  split_ifs with upTo
  · exact h i (by omega)
  · rfl

theorem agreeUpTo_of_le (grow : c ≤ d) (present : n < c.candles.length) : AgreeUpTo n c d := by
  obtain ⟨more, hmore⟩ := grow
  rw [AgreeUpTo, ← hmore, List.take_append_of_le_length present]

end AgreeUpTo

end CCandleBar

namespace CMovingAverage

open CandleCall

/-- The indicator behind a successful access. -/
def inForce (ma : CMovingAverage) : CMovingAverage :=
  if ma.isValidParameters then ma else ma.setDefaultParameters

/-- The attribute type behind a successful access. -/
def typeInForce (ma : CMovingAverage) : Int := ma.inForce.maAttribute.attributeType

/-- The kind of average in force, attached or default, is `kind`. -/
def OfType (kind : Int) (ma : CMovingAverage) : Prop := ma.typeInForce = kind

variable {ma : CMovingAverage} {kind : Int} {c : CCandleBar} {n : Nat}
variable {dateIndex periods : Int} {type : PriceType} {useLast : Bool} {data : ℚ}

theorem inForce_of_valid (valid : ma.isValidParameters) : ma.inForce = ma := if_pos valid

theorem inForce_of_invalid (invalid : ¬ ma.isValidParameters) :
    ma.inForce = ma.setDefaultParameters := if_neg invalid

theorem inForce_inForce (ma : CMovingAverage) : ma.inForce.inForce = ma.inForce := by
  by_cases valid : ma.isValidParameters
  · rw [inForce_of_valid valid, inForce_of_valid valid]
  · rw [inForce_of_invalid valid, inForce]
    exact ite_self _

theorem OfType.inForce (h : OfType kind ma) : OfType kind ma.inForce := by
  rw [OfType, typeInForce, inForce_inForce]
  exact h

/-- Parameters that an access accepts have the type of an average, and so have the
default parameters. -/
theorem OfType.cases (h : OfType kind ma) : kind = typeMa ∨ kind = typeMaExp := by
  rw [← show ma.typeInForce = kind from h, typeInForce]
  by_cases valid : ma.isValidParameters
  · rw [inForce_of_valid valid]
    simp only [isValidParameters, Bool.decide_and, Bool.and_eq_true, decide_eq_true_eq] at valid
    exact valid.1
  · rw [inForce_of_invalid valid]
    exact .inl rfl

/-- With the arithmetic type nothing depends on whether the parameters are accepted. -/
theorem ofType_typeMa (h : ma.maAttribute.attributeType = typeMa) : OfType typeMa ma := by
  by_cases valid : ma.isValidParameters
  · rwa [OfType, typeInForce, inForce_of_valid valid]
  · rw [OfType, typeInForce, inForce_of_invalid valid]
    rfl

/-- What `access_calculate_parameters` returns. -/
def accessible (c : CCandleBar) (dateIndex periods : Int) : Bool :=
  ¬ dateIndex < 0 ∧ ¬ (sizeOfInt dateIndex ≥ c.candles.length ∨ periods ≤ 0)

/-- The exponential average as the loop computes it. -/
def expAverage (c : CCandleBar) (dateIndex periods : Int) (type : PriceType) : Nat → ℚ
  | 0 => c.getPrice 0 type
  | i + 1 =>
    maExpStep (expAverage c dateIndex periods type i) (c.getPrice (sizeOfInt dateIndex) type)
      periods

/-- What `calculate` gives on a series that does not change, where an access leaves the
attribute type `kind`. -/
def average (kind : Int) (c : CCandleBar) (dateIndex periods : Int) (type : PriceType)
    (useLast : Bool) (data : ℚ) : Option ℚ :=
  if ¬ accessible c dateIndex periods ∨ periods > dateIndex + 1 then none
  else if kind = typeMa then c.getMa (sizeOfInt dateIndex) periods type
  else if useLast ∧ data ≠ 0 then
    some (if dateIndex = 0 then c.getPrice (sizeOfInt dateIndex) type
      else maExpStep data (c.getPrice (sizeOfInt dateIndex) type) periods)
  else some (expAverage c dateIndex periods type dateIndex.toNat)

theorem accessCalculateParameters_yields (h : OfType kind ma) (upTo : dateIndex ≤ n)
    (periods : Int) :
    ((accessCalculateParameters dateIndex periods).start ma).Yields answer (c.AgreeUpTo n)
      fun m ok => OfType kind m ∧ ok = accessible c dateIndex periods ∧
        (ok → m.maAttribute.attributeType = kind) := by
  by_cases negative : dateIndex < 0
  · simp only [accessCalculateParameters, negative, ↓reduceIte, Program.start_pure]
    exact ⟨h, by simp [accessible, negative], by simp⟩
  · have position : sizeOfInt dateIndex ≤ n := by
      simp only [sizeOfInt, not_lt.mp negative, ↓reduceIte]
      omega
    simp only [accessCalculateParameters, negative, ↓reduceIte]
    intro d agree
    change Resumption.Yields answer _ _
      ((if sizeOfInt dateIndex ≥ d.candles.length ∨ periods ≤ 0 then pure false
        else (do modify inForce; return true) : MaProgram Bool).start ma)
    have same : (sizeOfInt dateIndex ≥ d.candles.length ∨ periods ≤ 0) ↔
        (sizeOfInt dateIndex ≥ c.candles.length ∨ periods ≤ 0) := by
      rw [agree.missing_iff position]
    by_cases refused : sizeOfInt dateIndex ≥ c.candles.length ∨ periods ≤ 0
    · rw [if_pos (same.mpr refused)]
      exact ⟨h, by simp [accessible, refused], by simp⟩
    · rw [if_neg (same.not.mpr refused)]
      exact ⟨h.inForce, by simp [accessible, negative, refused], fun _ => h⟩

section Computes

theorem getSafePrice_computes {i : Nat} (upTo : i ≤ n) :
    Program.Computes answer (c.AgreeUpTo n) (OfType kind) (BaseKdata.getSafePrice i type)
      (c.getPrice i type) :=
  .call fun _ agree => agree.getPrice upTo

theorem maExpLoop_computes (position : sizeOfInt dateIndex ≤ n) (rounds : Nat) :
    Program.Computes answer (c.AgreeUpTo n) (OfType kind)
      (maExpLoop dateIndex periods type rounds) (expAverage c dateIndex periods type rounds) := by
  induction rounds with
  | zero => exact getSafePrice_computes (Nat.zero_le n)
  | succ rounds ih => exact ih.bind ((getSafePrice_computes position).bind (.pure _))

/-- The switch on the attribute type in `calculate`. -/
def switchType (dateIndex periods : Int) (type : PriceType) (useLast : Bool) (data : ℚ) :
    MaProgram (Option ℚ) := do
  let ma ← get
  if ma.maAttribute.attributeType = typeMa then
    BaseKdata.getMa (sizeOfInt dateIndex) periods type
  else if ma.maAttribute.attributeType = typeMaExp then do
    if useLast ∧ data ≠ 0 then do
      let price ← BaseKdata.getSafePrice (sizeOfInt dateIndex) type
      return some (if dateIndex = 0 then price else maExpStep data price periods)
    else do
      let maData ← maExpLoop dateIndex periods type dateIndex.toNat
      return some maData
  else Program.abort

theorem switchType_yields (h : OfType kind ma) (hkind : ma.maAttribute.attributeType = kind)
    (position : sizeOfInt dateIndex ≤ n) :
    ((switchType dateIndex periods type useLast data).start ma).Yields answer (c.AgreeUpTo n)
      fun m a => OfType kind m ∧
        a = if kind = typeMa then c.getMa (sizeOfInt dateIndex) periods type
          else if useLast ∧ data ≠ 0 then
            some (if dateIndex = 0 then c.getPrice (sizeOfInt dateIndex) type
              else maExpStep data (c.getPrice (sizeOfInt dateIndex) type) periods)
          else some (expAverage c dateIndex periods type dateIndex.toNat) := by
  have price : Program.Computes answer (c.AgreeUpTo n) (OfType kind)
      (BaseKdata.getSafePrice (sizeOfInt dateIndex) type)
      (c.getPrice (sizeOfInt dateIndex) type) := getSafePrice_computes position
  rw [switchType, Program.start_bind, Program.start_get]
  simp only [Resumption.bind, Program.start_ite, hkind]
  by_cases arithmetic : kind = typeMa
  · rw [if_pos arithmetic, if_pos arithmetic]
    exact Program.Computes.call (fun _ agree => agree.getMa position) ma h
  · rw [if_neg arithmetic, if_neg arithmetic, if_pos (h.cases.resolve_left arithmetic)]
    split
    · refine Program.Computes.bind price ?_ ma h
      exact .pure _
    · refine Program.Computes.bind (maExpLoop_computes position _) ?_ ma h
      exact .pure _

theorem calculate_computes (upTo : dateIndex ≤ n) :
    Program.Computes answer (c.AgreeUpTo n) (OfType kind)
      (calculate dateIndex periods type useLast data)
      (average kind c dateIndex periods type useLast data) := by
  intro m hm
  apply (accessCalculateParameters_yields hm upTo periods).bind
  rintro m' ok ⟨hm', rfl, hkind⟩
  change ((if ¬ accessible c dateIndex periods ∨ periods > dateIndex + 1 then pure none
    else switchType dateIndex periods type useLast data : MaProgram (Option ℚ)).start m').Yields
      answer _ _
  rw [Program.start_ite, average]
  by_cases refused : ¬ accessible c dateIndex periods ∨ periods > dateIndex + 1
  · rw [if_pos refused, if_pos refused]
    exact ⟨hm', rfl⟩
  · rw [if_neg refused, if_neg refused]
    rw [not_or, not_not] at refused
    obtain ⟨access, enough⟩ := refused
    have nonneg : 0 ≤ dateIndex := by
      simp only [accessible, Bool.decide_and, Bool.and_eq_true, decide_eq_true_eq] at access
      exact not_lt.mp access.1
    have position : sizeOfInt dateIndex ≤ n := by
      simp only [sizeOfInt, nonneg, ↓reduceIte]
      omega
    exact switchType_yields hm' (hkind access) position

end Computes

/-- The result of a program on a series that does not change. `none` is an abort. -/
def outcome {α : Type} (p : MaProgram α) (ma : CMovingAverage) (c : CCandleBar) : Option α :=
  ((p.start ma).eval answer c).map Prod.snd

theorem outcome_of_computes {α : Type} {p : MaProgram α} {a : α} {d : CCandleBar}
    (h : Program.Computes answer (c.AgreeUpTo n) (OfType ma.typeInForce) p a)
    (agree : c.AgreeUpTo n d) : outcome p ma d = some a := by
  have start : OfType ma.typeInForce ma := rfl
  obtain ⟨m, -, result⟩ := h.eval start agree
  rw [outcome, result]
  rfl

theorem outcome_calculate (ma : CMovingAverage) (c : CCandleBar) (dateIndex periods : Int)
    (type : PriceType) (useLast : Bool) (data : ℚ) :
    outcome (calculate dateIndex periods type useLast data) ma c =
      some (average ma.typeInForce c dateIndex periods type useLast data) :=
  outcome_of_computes (calculate_computes (Int.self_le_toNat dateIndex)) (.refl _ c)

end CMovingAverage

end CtpTrade
