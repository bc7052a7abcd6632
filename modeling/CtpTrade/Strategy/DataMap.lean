import CtpTrade.Strategy.Config
import Mathlib.Data.List.Induction

/-!
# The data map of a strategy

`construct_decision_data` enters one name under each selected period: it copies the
inner map out, upserts an empty series and writes the copy back. What the map looks
like behind a sequence of names only depends on which names occur.
-/

namespace CtpTrade

universe u v

namespace CStrategy

/-- The series that is entered under a period. -/
def emptySeries (period : Int) : CCandleBar := ({} : CCandleBar).setCandleType period

/-- The entry of a name under a period into the inner map that was found there. -/
def enter (period : Int) (instrKdata : Option (OrderedMap StdString CCandleBar))
    (ins : StdString) : OrderedMap StdString CCandleBar :=
  efficientMapOperation (instrKdata.getD .empty) ins (emptySeries period)

/-- The statements of a branch. Both uses of `operator[]` look at the entry under the
period; the first of them creates it if there is none. -/
def branchSteps (decisionData : OrderedMap Int (OrderedMap StdString CCandleBar))
    (ins : StdString) (type : Int) : OrderedMap Int (OrderedMap StdString CCandleBar) :=
  let kData := ({} : CCandleBar).setCandleType type
  let decisionData := decisionData.insert type .empty
  let entry := (decisionData.find? type).getD .empty
  let instrKdata := if entry.entries ≠ [] then entry else .empty
  efficientMapOperation decisionData type (efficientMapOperation instrKdata ins kData)

variable {stg : CStrategy} {kType : Nat} {period : Int} {ins : StdString}

/-- The entry that `operator[]` creates is written over, so a branch is one upsert. -/
theorem constructPeriod_eq_branchSteps (type : Int) :
    (stg.constructPeriod ins type).decisionData = branchSteps stg.decisionData ins type := by
  have created : ((stg.decisionData.insert type .empty).find? type).getD .empty =
      (stg.decisionData.find? type).getD .empty := by
    rw [OrderedMap.find?_insert, if_pos rfl]
    rfl
  have copied (m : OrderedMap StdString CCandleBar) :
      (if m.entries ≠ [] then m else .empty) = m := by
    by_cases full : m.entries ≠ []
    · rw [if_pos full]
    · rw [if_neg full]
      obtain ⟨entries, sorted⟩ := m
      obtain rfl : entries = [] := not_not.mp full
      rfl
  apply OrderedMap.ext_find?
  intro period
  simp only [constructPeriod, branchSteps, created, copied]
  rw [find?_efficientMapOperation, find?_efficientMapOperation]
  by_cases same : period = type
  · rw [if_pos same, if_pos same]
  · rw [if_neg same, if_neg same, OrderedMap.find?_insert, if_neg same]

theorem find?_constructPeriod (type : Int) :
    (stg.constructPeriod ins type).decisionData.find? period =
      if period = type then some (enter type (stg.decisionData.find? type) ins)
      else stg.decisionData.find? period :=
  find?_efficientMapOperation stg.decisionData type period _

/-- The five branches are about different periods. -/
theorem find?_constructDecisionData :
    (stg.constructDecisionData ins kType).decisionData.find? period =
      if Selected kType period then some (enter period (stg.decisionData.find? period) ins)
      else stg.decisionData.find? period := by
  have branches (types : List Int) (distinct : types.Nodup) (stg : CStrategy) :
      (types.foldl (fun stg type => if kType &&& type.toNat = 0 then stg
        else stg.constructPeriod ins type) stg).decisionData.find? period =
        if period ∈ types ∧ kType &&& period.toNat ≠ 0 then
          some (enter period (stg.decisionData.find? period) ins)
        else stg.decisionData.find? period := by
    induction types generalizing stg with
    | nil => simp
    | cons type types ih =>
        obtain ⟨fresh, distinct⟩ := List.nodup_cons.mp distinct
        rw [List.foldl_cons, ih distinct]
        by_cases here : period = type
        · subst here
          rw [if_neg (fun later => fresh later.1)]
          by_cases bit : kType &&& period.toNat = 0
          · simp [bit]
          · simp [bit, find?_constructPeriod]
        · by_cases bit : kType &&& type.toNat = 0
          · simp [here, bit]
          · simp [here, bit, find?_constructPeriod]
  exact branches _ (by decide) stg

/-- `decision_data_` behind one call for each name. -/
def builtData (names : List StdString) (kType : Nat) :
    OrderedMap Int (OrderedMap StdString CCandleBar) :=
  (names.foldl (fun stg ins => stg.constructDecisionData ins kType) ({} : CStrategy)).decisionData

/-- The inner map under a selected period. -/
def builtInner (names : List StdString) (period : Int) : OrderedMap StdString CCandleBar :=
  names.foldl (fun instrKdata ins => efficientMapOperation instrKdata ins (emptySeries period))
    .empty

theorem builtInner_concat (names : List StdString) :
    builtInner (names ++ [ins]) period =
      efficientMapOperation (builtInner names period) ins (emptySeries period) := by
  rw [builtInner, List.foldl_append]
  rfl

theorem find?_builtData_concat (names : List StdString) :
    (builtData (names ++ [ins]) kType).find? period =
      if Selected kType period then some (enter period ((builtData names kType).find? period) ins)
      else (builtData names kType).find? period := by
  rw [builtData, List.foldl_append]
  exact find?_constructDecisionData

theorem find?_builtInner (names : List StdString) (name : StdString) :
    (builtInner names period).find? name =
      if name ∈ names then some (emptySeries period) else none := by
  induction names using List.reverseRecOn with
  | nil => rfl
  | append_singleton names ins ih =>
      rw [builtInner_concat, find?_efficientMapOperation, ih]
      by_cases last : name = ins
      · simp [last]
      · simp [last]

/-- There is an entry under the selected periods as soon as there is a name. -/
theorem find?_builtData (names : List StdString) (kType : Nat) (period : Int) :
    (builtData names kType).find? period =
      if names ≠ [] ∧ Selected kType period then some (builtInner names period) else none := by
  induction names using List.reverseRecOn with
  | nil =>
      rw [if_neg fun some => some.1 rfl]
      rfl
  | append_singleton names ins ih =>
      rw [find?_builtData_concat]
      by_cases selected : Selected kType period
      · have before : ((builtData names kType).find? period).getD .empty =
            builtInner names period := by
          rw [ih]
          by_cases empty : names = []
          · simp [empty, builtInner]
          · simp [empty, selected]
        rw [if_pos selected, enter, before, ← builtInner_concat]
        simp [selected]
      · rw [if_neg selected, ih]
        simp [selected]

end CStrategy

/-- What the map is to hold behind a sequence of names, whatever their order and however
often each occurs: every selected period has one empty series for every name, and there
is nothing else. -/
structure DataMapOf (names : List StdString) (kType : Nat)
    (decisionData : OrderedMap Int (OrderedMap StdString CCandleBar)) : Prop where
  /-- The outer keys are the selected periods, or there are none. -/
  periods : decisionData.keys =
    if names = [] then []
    else [minOne, minFive, minFiveteen, minThirty, minSixty].filter
      fun period => kType &&& period.toNat ≠ 0
  names : ∀ period instrKdata, decisionData.find? period = some instrKdata →
    ∀ name, name ∈ instrKdata.keys ↔ name ∈ names
  series : ∀ period instrKdata, decisionData.find? period = some instrKdata →
    ∀ name kdata, instrKdata.find? name = some kdata →
      kdata.candles = [] ∧ kdata.candleType = period

/-- The map holds an empty series for each selected period and each name, whatever the
order and the repetitions of the names; each upsert keeps the order of the keys and
touches one key. -/
theorem data_map_built (names : List StdString) (kType : Nat) :
    DataMapOf names kType (CStrategy.builtData names kType) ∧
      (∀ names' : List StdString, (∀ name, name ∈ names' ↔ name ∈ names) →
        CStrategy.builtData names' kType = CStrategy.builtData names kType) ∧
      ∀ {κ : Type u} {ν : Type v} [LinearOrder κ] (m : OrderedMap κ ν) (k : κ) (v : ν),
        (efficientMapOperation m k v).keys.Pairwise (· < ·) ∧
          (efficientMapOperation m k v).find? k = some v ∧
          ∀ k', k' ≠ k → (efficientMapOperation m k v).find? k' = m.find? k' := by
  refine ⟨⟨?_, ?_, ?_⟩, ?_, ?_⟩
  · apply OrderedMap.keys_eq
    · split
      · exact .nil
      · exact List.Pairwise.filter _ (by decide)
    · intro period
      rw [CStrategy.find?_builtData]
      by_cases empty : names = []
      · simp [empty]
      · simp [empty, Selected]
  · intro period instrKdata found name
    rw [CStrategy.find?_builtData, Option.ite_none_right_eq_some] at found
    obtain ⟨-, rfl⟩ := found.imp_right Option.some.inj
    rw [OrderedMap.mem_keys_iff, CStrategy.find?_builtInner]
    by_cases named : name ∈ names
    · simp [named]
    · simp [named]
  · intro period instrKdata found name kdata entry
    rw [CStrategy.find?_builtData, Option.ite_none_right_eq_some] at found
    obtain ⟨-, rfl⟩ := found.imp_right Option.some.inj
    rw [CStrategy.find?_builtInner, Option.ite_none_right_eq_some] at entry
    obtain ⟨-, rfl⟩ := entry.imp_right Option.some.inj
    exact ⟨rfl, rfl⟩
  · intro names' same
    have inner (period : Int) :
        CStrategy.builtInner names' period = CStrategy.builtInner names period := by
      apply OrderedMap.ext_find?
      intro name
      simp only [CStrategy.find?_builtInner, same]
    have empty : names' = [] ↔ names = [] := by
      simp only [List.eq_nil_iff_forall_not_mem, same]
    apply OrderedMap.ext_find?
    intro period
    simp only [CStrategy.find?_builtData, inner, ne_eq, empty]
  · intro κ ν _ m k v
    refine ⟨OrderedMap.sorted_keys _, ?_, ?_⟩
    · rw [find?_efficientMapOperation, if_pos rfl]
    · intro k' other
      rw [find?_efficientMapOperation, if_neg other]

end CtpTrade
