import CtpTrade.TechniqueIndicator.Exponential
import CtpTrade.TechniqueIndicator.Signals

/-!
# The attached parameters

Every access checks the parameters and replaces those it does not accept. The
check asks all four flags to lie between two constants that are equal, and the
default parameters themselves do not pass it. Parameters stay in force exactly if
an access accepts them or has nothing to replace; with them stays the kind of
average that the series is asked for.
-/

namespace CtpTrade

/-- The public calls that strategies make on an indicator. -/
inductive IndicatorCall where
  | calculate (dateIndex periods : Int) (type : PriceType) (useLast : Bool) (data : ℚ)
  | isBasicDataReady
  | getSignal (type : PriceType)

namespace CMovingAverage

open CandleCall

def IndicatorCall.program : IndicatorCall → MaProgram Unit
  | .calculate dateIndex periods type useLast data => do
    let _ ← calculate dateIndex periods type useLast data
    return ()
  | .isBasicDataReady => do
    let _ ← isBasicDataReady
    return ()
  | .getSignal type => do
    let _ ← getSignal type
    return ()

/-- One call after the other. -/
def perform : List IndicatorCall → MaProgram Unit
  | [] => return ()
  | call :: calls => do
    IndicatorCall.program call
    perform calls

/-- The calls on the series that an average of the type `kind` needs. All indicators ask
for the size; beyond that an arithmetic one asks for averages and an exponential one for
prices. -/
def OfAverage (kind : Int) : CandleCall → Prop
  | getCandleSize => True
  | getMa .. => kind = typeMa
  | getSafePrice .. => kind = typeMaExp

/-- Behind `attach_parameters` the attribute stays as it is at every moment of every run
of calls, however the series grows in between, and the series is only asked for the
attached kind of average. -/
structure ParametersKept (attr : MaAttribute) : Prop where
  unchanged : ∀ (ma : CMovingAverage) (calls : List IndicatorCall) (c : CCandleBar),
    ((perform calls).start (ma.attachParameters attr)).Keeps answer
      (fun m _ => m.maAttribute = attr) (fun _ _ _ => True) c
  typed : ∀ (ma : CMovingAverage) (calls : List IndicatorCall),
    ((perform calls).start (ma.attachParameters attr)).Asks (OfAverage attr.attributeType)

/-- Whenever an access check behind `attach_parameters` returns true, the parameters are
valid afterwards, whatever has been called in between. -/
def AccessValidates (attr : MaAttribute) : Prop :=
  ∀ (ma : CMovingAverage) (calls : List IndicatorCall) (dateIndex periods : Int)
    (c : CCandleBar),
    ((perform calls >>= fun _ => accessCalculateParameters dateIndex periods).start
      (ma.attachParameters attr)).Keeps answer
        (fun _ _ => True) (fun m ok _ => ok = true → m.isValidParameters) c

/-- All four flags are the lowest signal. The range test of the source takes such flags
for values that have not been set. -/
def LowestFlags (attr : MaAttribute) : Prop :=
  attr.flagGoldfork = techSignalSellIntense ∧ attr.flagDeadfork = techSignalSellIntense ∧
    attr.flagLong = techSignalSellIntense ∧ attr.flagShort = techSignalSellIntense

instance (attr : MaAttribute) : Decidable (LowestFlags attr) :=
  inferInstanceAs (Decidable (_ ∧ _ ∧ _ ∧ _))

section Accepts

variable {attr : MaAttribute} {ma : CMovingAverage}

/-- The two bounds are the same constant. -/
theorem validTechSignal_iff (signal : Int) :
    validTechSignal signal ↔ signal = techSignalSellIntense := by
  have lower : techSignalMin = techSignalSellIntense := rfl
  have upper : techSignalMax = techSignalSellIntense := rfl
  rw [validTechSignal, lower, upper, decide_eq_true_eq, ge_iff_le, and_comm]
  exact le_antisymm_iff.symm

theorem isValidParameters_iff :
    ma.isValidParameters ↔
      (ma.maAttribute.attributeType = typeMa ∨ ma.maAttribute.attributeType = typeMaExp) ∧
        LowestFlags ma.maAttribute ∧ ma.maAttribute.periodCycle ≠ [] := by
  simp only [isValidParameters, validTechSignal_iff, decide_eq_true_eq, LowestFlags, gt_iff_lt,
    List.length_pos_iff]
  tauto

/-- The default parameters do not pass the check that they are the answer to. -/
theorem not_isValidParameters_setDefaultParameters (ma : CMovingAverage) :
    ¬ ma.setDefaultParameters.isValidParameters := by
  rw [isValidParameters_iff]
  rintro ⟨-, lowest, -⟩
  have gold : techSignalBuyIntense = techSignalSellIntense := lowest.1
  exact absurd gold (by decide)

end Accepts

section Stays

variable {attr : MaAttribute}

/-- Programs that leave the attribute alone and only ask the series for what the
attached kind of average needs. -/
abbrev KeepsAttribute (attr : MaAttribute) {α : Type} (p : MaProgram α) : Prop :=
  Program.Stays (fun m => m.maAttribute = attr) (OfAverage attr.attributeType) p

theorem maExpLoop_stays (exponential : attr.attributeType = typeMaExp) (dateIndex periods : Int)
    (type : PriceType) (rounds : Nat) :
    KeepsAttribute attr (maExpLoop dateIndex periods type rounds) := by
  induction rounds with
  | zero => exact .call exponential
  | succ rounds ih => exact .bind ih fun _ => .bind (.call exponential) fun _ => .pure _

theorem advanceReadPos_stays (dateIndex : Int) : KeepsAttribute attr (advanceReadPos dateIndex) :=
  .bind (.call trivial) fun _ => .ite (fun _ => .modify fun _ hm => hm) fun _ => .pure _

theorem isBasicDataReady_stays : KeepsAttribute attr isBasicDataReady := by
  apply Program.Stays.get_bind
  intro m _
  apply Program.Stays.ite
  · intro ready
    exact .pure _
  · intro waiting
    apply Program.Stays.bind (.call trivial)
    intro size
    apply Program.Stays.ite
    · intro enough
      exact .bind (.modify fun _ hm => hm) fun _ => .pure _
    · intro short
      exact .pure _

-- Parameters that an access leaves as they are.
variable (steady : ∀ m : CMovingAverage, m.maAttribute = attr → Steady m)

include steady

theorem accessCalculateParameters_stays (dateIndex periods : Int) :
    KeepsAttribute attr (accessCalculateParameters dateIndex periods) := by
  have replaced (m : CMovingAverage) (hm : m.maAttribute = attr) :
      (if m.isValidParameters then m else m.setDefaultParameters).maAttribute = attr := by
    rw [(steady m hm).kept]
    exact hm
  apply Program.Stays.ite
  · intro negative
    exact .pure _
  · intro inside
    apply Program.Stays.bind (.call trivial)
    intro size
    apply Program.Stays.ite
    · intro refused
      exact .pure _
    · intro accepted
      exact .bind (.modify replaced) fun _ => .pure _

/-- The switch goes by the attached type. -/
theorem calculate_stays (dateIndex periods : Int) (type : PriceType) (useLast : Bool) (data : ℚ) :
    KeepsAttribute attr (calculate dateIndex periods type useLast data) := by
  apply Program.Stays.bind (accessCalculateParameters_stays steady dateIndex periods)
  intro accessed
  apply Program.Stays.ite
  · intro refused
    exact .pure _
  · intro accepted
    apply Program.Stays.get_bind
    intro m hm
    have kind := (steady m hm).attributeType
    rw [hm] at kind ⊢
    apply Program.Stays.ite
    · intro arithmetic
      exact .call arithmetic
    · intro other
      have exponential := kind.resolve_left other
      rw [if_pos exponential]
      apply Program.Stays.ite
      · intro last
        exact .bind (.call exponential) fun _ => .pure _
      · intro whole
        exact .bind (maExpLoop_stays exponential dateIndex periods type _) fun _ => .pure _

theorem pairAverages_stays (dateIndex p q : Int) (type : PriceType) :
    KeepsAttribute attr (pairAverages dateIndex p q type) := by
  have average (index periods : Int) : KeepsAttribute attr (calculate index periods type false 0) :=
    calculate_stays steady index periods type false 0
  apply Program.Stays.bind (average _ _)
  intro nowMinor
  cases nowMinor with
  | none => exact .pure _
  | some nowMinor =>
      apply Program.Stays.bind (average _ _)
      intro nowMajor
      cases nowMajor with
      | none => exact .pure _
      | some nowMajor =>
          apply Program.Stays.bind (average _ _)
          intro lastMinor
          cases lastMinor with
          | none => exact .pure _
          | some lastMinor =>
              apply Program.Stays.bind (average _ _)
              intro lastMajor
              cases lastMajor with
              | none => exact .pure _
              | some lastMajor => exact .pure _

theorem confirmFork_stays (dateIndex : Int) (type : PriceType) (confirms : ℚ → ℚ → Bool)
    (fork : Int × Int) (rest : List Int) :
    KeepsAttribute attr (confirmFork dateIndex type confirms fork rest) := by
  induction rest with
  | nil => exact .pure _
  | cons period rest ih =>
      apply Program.Stays.bind (calculate_stays steady _ _ _ _ _)
      intro nowMore
      cases nowMore with
      | none => exact .pure _
      | some nowMore =>
          apply Program.Stays.bind (calculate_stays steady _ _ _ _ _)
          intro lastMore
          cases lastMore with
          | none => exact .pure _
          | some lastMore => exact .ite (fun _ => .pure _) fun _ => ih

theorem raiseFork_stays (dateIndex : Int) (type : PriceType) (crossed : Bool)
    (confirms : ℚ → ℚ → Bool) (fork : Int × Int) (rest : List Int) :
    KeepsAttribute attr (raiseFork dateIndex type crossed confirms fork rest) :=
  .ite (fun _ => .pure _) fun _ => .ite (fun _ => .pure _) fun _ =>
    confirmFork_stays steady dateIndex type confirms fork rest

theorem forkLoop_stays (dateIndex : Int) (type : PriceType) (goldFork deadFork : Int)
    (cycle : List Int) :
    KeepsAttribute attr (forkLoop dateIndex type goldFork deadFork cycle) := by
  induction cycle with
  | nil => exact .pure _
  | cons p cycle ih =>
      cases cycle with
      | nil => exact .pure _
      | cons q rest =>
          apply Program.Stays.bind (pairAverages_stays steady dateIndex p q type)
          intro averages
          cases averages with
          | none => exact .pure _
          | some averages =>
              apply Program.Stays.bind (raiseFork_stays steady _ _ _ _ _ rest)
              intro gold
              cases gold with
              | some result => exact .pure _
              | none =>
                  apply Program.Stays.bind (raiseFork_stays steady _ _ _ _ _ rest)
                  intro dead
                  cases dead with
                  | some result => exact .pure _
                  | none => exact ih

theorem trendLoop_stays (dateIndex : Int) (type : PriceType) (dirLong dirShort : Int) (first : Bool)
    (trend : Int × Int) (cycle : List Int) :
    KeepsAttribute attr (trendLoop dateIndex type dirLong dirShort first trend cycle) := by
  induction cycle generalizing first trend with
  | nil => exact .pure _
  | cons p cycle ih =>
      cases cycle with
      | nil => exact .pure _
      | cons q rest =>
          apply Program.Stays.bind (pairAverages_stays steady dateIndex p q type)
          intro averages
          cases averages with
          | none => exact .pure _
          | some averages => exact ih _ _

theorem getSignal_stays (type : PriceType) : KeepsAttribute attr (getSignal type) := by
  have forks (dateIndex : Int) (cycle : List Int) (goldFork deadFork : Int) :
      KeepsAttribute attr (getForkSignal dateIndex cycle type goldFork deadFork) :=
    .ite (fun _ => .pure _) fun _ => forkLoop_stays steady ..
  have trends (dateIndex : Int) (cycle : List Int) (dirLong dirShort : Int) :
      KeepsAttribute attr (getTrendSignal dateIndex cycle type dirLong dirShort) :=
    .ite (fun _ => .pure _) fun _ => trendLoop_stays steady ..
  apply Program.Stays.get_bind
  intro m _
  apply Program.Stays.bind (forks ..)
  intro fork
  apply Program.Stays.ite
  · intro raised
    exact .bind (advanceReadPos_stays _) fun _ => .pure _
  · intro quiet
    apply Program.Stays.get_bind
    intro m' _
    apply Program.Stays.bind (trends ..)
    intro trend
    exact .bind (advanceReadPos_stays _) fun _ => .pure _

theorem perform_stays (calls : List IndicatorCall) : KeepsAttribute attr (perform calls) := by
  induction calls with
  | nil => exact .pure _
  | cons call calls ih =>
      refine .bind ?_ fun _ => ih
      cases call with
      | calculate dateIndex periods type useLast data =>
          exact .bind (calculate_stays steady _ _ _ _ _) fun _ => .pure _
      | isBasicDataReady => exact .bind isBasicDataReady_stays fun _ => .pure _
      | getSignal type => exact .bind (getSignal_stays steady type) fun _ => .pure _

end Stays

section Kept

variable {attr : MaAttribute}

/-- Parameters that an access accepts, or that it replaces by themselves. -/
theorem steady_of_attribute (type : attr.attributeType = typeMa ∨ attr.attributeType = typeMaExp)
    (cycle : attr.periodCycle ≠ []) (h : LowestFlags attr ∨ attr = defaultAttribute)
    (m : CMovingAverage) (hm : m.maAttribute = attr) : Steady m := by
  subst hm
  obtain lowest | default := h
  · exact .inl (isValidParameters_iff.mpr ⟨type, lowest, cycle⟩)
  · exact .inr default

theorem parametersKept_of_steady (steady : ∀ m : CMovingAverage, m.maAttribute = attr → Steady m) :
    ParametersKept attr where
  unchanged ma calls _ :=
    ((perform_stays steady calls).every (ma.attachParameters attr) rfl).keeps fun _ _ _ hm => hm
  typed ma calls := (perform_stays steady calls).asks (ma.attachParameters attr) rfl

/-- Parameters that an access leaves as they are. -/
theorem lowestFlags_or_default (same : (attachParameters {} attr).inForce.maAttribute = attr) :
    LowestFlags attr ∨ attr = defaultAttribute := by
  by_cases valid : (attachParameters {} attr).isValidParameters
  · exact .inl (isValidParameters_iff.mp valid).2.1
  · rw [inForce_of_invalid valid] at same
    exact .inr same.symm

/-- The first access on a series with a bar puts the parameters in force. -/
theorem kept_of_parametersKept (kept : ParametersKept attr) :
    LowestFlags attr ∨ attr = defaultAttribute := by
  let m : CMovingAverage := attachParameters {} attr
  have run := kept.unchanged {} [.calculate 0 2 .closePrice false 0] (closing [1])
  obtain ⟨m', u, result, same, -⟩ := run.eval
  have access : ((perform [.calculate 0 2 .closePrice false 0]).start m).eval answer (closing [1]) =
      some (m.inForce, ()) := rfl
  obtain ⟨rfl, -⟩ := Prod.mk.inj (Option.some.inj (access.symm.trans result))
  exact lowestFlags_or_default same

theorem accessValidates_iff (type : attr.attributeType = typeMa ∨ attr.attributeType = typeMaExp)
    (cycle : attr.periodCycle ≠ []) : AccessValidates attr ↔ LowestFlags attr := by
  constructor
  · intro validates
    let m : CMovingAverage := attachParameters {} attr
    have run := validates {} [] 0 1 (closing [1])
    obtain ⟨m', ok, result, -, valid⟩ := run.eval
    have access : ((perform [] >>= fun _ => accessCalculateParameters 0 1).start m).eval answer
        (closing [1]) = some (m.inForce, true) := rfl
    obtain ⟨rfl, rfl⟩ := Prod.mk.inj (Option.some.inj (access.symm.trans result))
    have valid := valid rfl
    by_cases accepted : m.isValidParameters
    · exact (isValidParameters_iff.mp accepted).2.1
    · rw [inForce_of_invalid accepted] at valid
      exact absurd valid (not_isValidParameters_setDefaultParameters m)
  · intro lowest ma calls dateIndex periods c
    have steady := steady_of_attribute type cycle (.inl lowest)
    have stays : KeepsAttribute attr (perform calls >>= fun _ =>
        accessCalculateParameters dateIndex periods) :=
      .bind (perform_stays steady calls) fun _ => accessCalculateParameters_stays steady _ _
    have every : Resumption.Every (fun m => m.maAttribute = attr)
        (fun m ok => ok = true → m.isValidParameters)
        ((perform calls >>= fun _ => accessCalculateParameters dateIndex periods).start
          (ma.attachParameters attr)) := by
      refine (stays.every (ma.attachParameters attr) rfl).mono fun m ok hm _ _ => ?_
      rw [isValidParameters_iff, hm]
      exact ⟨type, lowest, cycle⟩
    exact every.keeps fun _ _ _ _ => trivial

/-- Attached parameters stay in force, and are valid behind every successful access
check, exactly if all four flags are the lowest signal. The default parameters stay in
force as well, without ever being valid. -/
theorem parameters_kept_iff (type : attr.attributeType = typeMa ∨ attr.attributeType = typeMaExp)
    (cycle : attr.periodCycle ≠ []) :
    (ParametersKept attr ∧ AccessValidates attr ↔ LowestFlags attr) ∧
      (ParametersKept attr ↔ LowestFlags attr ∨ attr = defaultAttribute) ∧
      ∀ ma : CMovingAverage, ¬ ma.setDefaultParameters.isValidParameters := by
  have kept : ParametersKept attr ↔ LowestFlags attr ∨ attr = defaultAttribute :=
    ⟨kept_of_parametersKept, fun h => parametersKept_of_steady (steady_of_attribute type cycle h)⟩
  refine ⟨?_, kept, not_isValidParameters_setDefaultParameters⟩
  rw [accessValidates_iff type cycle, kept]
  exact and_iff_right_of_imp .inl

theorem parameters_kept_iff_lowest : ParametersKept sampleExponential.maAttribute :=
  ((parameters_kept_iff (.inr rfl) (by decide)).1.mpr (by decide)).1

/-- The flags of a usual strategy. -/
def usualAttribute : MaAttribute where
  attributeType := typeMaExp
  flagGoldfork := techSignalBuyIntense
  flagDeadfork := techSignalSellIntense
  flagLong := techSignalBuy
  flagShort := techSignalSell
  periodCycle := [5, 10, 20]

/-- Flags in the range of the signals, such as those of the defaults, are taken for
invalid, and the attached parameters are replaced. -/
theorem parameters_not_kept :
    ¬ ∀ attr : MaAttribute, (attr.attributeType = typeMa ∨ attr.attributeType = typeMaExp) →
      (∀ flag ∈ [attr.flagGoldfork, attr.flagDeadfork, attr.flagLong, attr.flagShort],
        flag ∈ [techSignalSellIntense, techSignalSell, techSignalBuy, techSignalBuyIntense]) →
      attr.periodCycle ≠ [] → (∀ period ∈ attr.periodCycle, 0 < period) →
      ParametersKept attr ∧ AccessValidates attr := by
  intro claim
  obtain ⟨kept, -⟩ := claim usualAttribute (.inr rfl) (by decide) (by decide) (by decide)
  exact absurd (kept_of_parametersKept kept) (by decide)

end Kept

end CMovingAverage

end CtpTrade
