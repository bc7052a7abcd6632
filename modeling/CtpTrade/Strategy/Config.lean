import CtpTrade.TradeManager.Basic
import Mathlib.Data.List.Infix
import Mathlib.Data.List.Nodup

/-!
# The configuration of a strategy

`load_focused_inst` reads lines of the form `key = name1|name2|...` and registers
the names of one line under the periods that `k_type` selects. It takes the first
line in which `config_head` occurs anywhere, before the spaces are removed, and it
registers every piece between the separators, also the empty ones. A file is a list
of lines.
-/

namespace CtpTrade

/-- The `remove_if` on a line. -/
def trimSpace (line : StdString) : StdString := line.filter (· ≠ ' ')

theorem dropWhile_ne_nil {c : Char} {s : StdString} (h : c ∈ s) : s.dropWhile (· ≠ c) ≠ [] := by
  simp only [ne_eq, List.dropWhile_eq_nil_iff, decide_eq_true_eq, not_forall]
  exact ⟨c, h, by simp⟩

theorem length_behindFirst_lt {c : Char} {s : StdString} (h : c ∈ s) :
    (behindFirst c s).length < s.length := by
  have left := List.length_pos_iff.mpr (dropWhile_ne_nil h)
  have shorter := (List.dropWhile_sublist (fun x => decide (x ≠ c)) (l := s)).length_le
  rw [behindFirst, if_pos h, List.length_drop]
  omega

/-- The loop over the text from `beg_pos` on. Behind the last separator `ins_pos` is
`npos`, which is greater than any `beg_pos`, so the last piece is always taken. -/
def cutInstruments (text : StdString) : List StdString :=
  if _h : '|' ∈ text then beforeFirst '|' text :: cutInstruments (behindFirst '|' text)
  else [text]
termination_by text.length
decreasing_by exact length_behindFirst_lt _h

/-- The result and the strategy behind the call; there is no file if it cannot be
opened. -/
def CStrategy.loadFocusedInst (stg : CStrategy) (configFile : Option (List StdString))
    (configHead : StdString) (kType : Nat) : Bool × CStrategy :=
  match configFile with
  | none => (false, stg)
  | some lines =>
    match lines.find? fun stringLine => configHead <:+: stringLine with
    | none => (false, stg)
    | some stringLine =>
      if '=' ∈ stringLine then
        let names := cutInstruments (behindFirst '=' (trimSpace stringLine))
        (true, names.foldl (fun stg ins => stg.constructDecisionData ins kType) stg)
      else (false, stg)

/-- The key of a line, without spaces. -/
def lineKey (line : StdString) : StdString := beforeFirst '=' (trimSpace line)

/-- All pieces behind the key, without spaces. -/
def linePieces (line : StdString) : List StdString :=
  (behindFirst '=' (trimSpace line)).splitOn '|'

/-- The names of a line are its pieces that are not empty. -/
def lineNames (line : StdString) : List StdString := (linePieces line).filter (· ≠ [])

/-- A configuration in the form that the reader of it has in mind: lines of the form
`key = ...`, and no key twice. -/
structure ConfigText (lines : List StdString) : Prop where
  form : ∀ line ∈ lines, '=' ∈ line
  distinct : (lines.map lineKey).Nodup

/-- The periods under which `construct_decision_data` registers: those of the five whose
bit is set in `kType`. -/
def Selected (kType : Nat) (period : Int) : Prop :=
  period ∈ [minOne, minFive, minFiveteen, minThirty, minSixty] ∧ kType &&& period.toNat ≠ 0

instance (kType : Nat) (period : Int) : Decidable (Selected kType period) :=
  inferInstanceAs (Decidable (_ ∧ _))

/-- The strategy has a series for the instrument under the period, and so takes the bars
of this instrument and period. -/
def CStrategy.Registered (stg : CStrategy) (period : Int) (ins : StdString) : Prop :=
  (stg.decisionData.nestedFind? (period, ins)).isSome

/-- What the call is to do: it finds the line with the key and registers exactly the
names of this line, under exactly the selected periods. -/
structure LoadsFocused (lines : List StdString) (configHead : StdString) (kType : Nat)
    (result : Bool × CStrategy) : Prop where
  found : result.1 = true ↔ ∃ line ∈ lines, lineKey line = configHead
  registered : ∀ period ins, result.2.Registered period ins ↔
    Selected kType period ∧ ∃ line ∈ lines, lineKey line = configHead ∧ ins ∈ lineNames line

/-- When the search for a substring finds the right line: the first line in which the
head occurs anywhere has the pieces that are the names of the line with the key, or
there are no such lines. -/
def HeadFits (lines : List StdString) (configHead : StdString) (kType : Nat) : Prop :=
  match lines.find? fun stringLine => configHead <:+: stringLine with
  | none => ∀ line ∈ lines, lineKey line ≠ configHead
  | some first => ∃ line ∈ lines, lineKey line = configHead ∧
      ((∃ period, Selected kType period) →
        ∀ ins, ins ∈ linePieces first ↔ ins ∈ lineNames line)

section Separators

variable {text : StdString}

theorem beforeFirst_append_behindFirst {c : Char} (h : c ∈ text) :
    text = beforeFirst c text ++ c :: behindFirst c text := by
  have found := dropWhile_ne_nil h
  obtain ⟨head, rest, hrest⟩ := List.exists_cons_of_ne_nil found
  have stop : head = c := by
    have first := List.head_dropWhile_not (fun x => decide (x ≠ c)) found
    simp only [hrest, List.head_cons] at first
    simpa using first
  rw [behindFirst, if_pos h, hrest, List.drop_succ_cons, List.drop_zero, beforeFirst, ← stop,
    ← hrest, stop]
  exact (List.takeWhile_append_dropWhile).symm

theorem not_mem_beforeFirst (c : Char) (text : StdString) : c ∉ beforeFirst c text := by
  intro h
  simpa using List.mem_takeWhile_imp h

/-- The loop takes all pieces between the separators. -/
theorem cutInstruments_eq_splitOn (text : StdString) :
    cutInstruments text = text.splitOn '|' := by
  induction hlen : text.length using Nat.strong_induction_on generalizing text with
  | _ n ih =>
      rw [cutInstruments]
      split
      · next more =>
          have rest := ih _ (hlen ▸ length_behindFirst_lt more) (behindFirst '|' text) rfl
          conv_rhs => rw [beforeFirst_append_behindFirst more]
          rw [List.splitOn_append_cons_self_of_not_mem (not_mem_beforeFirst '|' text), rest]
      · next last => exact (List.splitOn_eq_singleton last).symm

end Separators

section Registered

variable {kType : Nat} {stg : CStrategy} {period : Int} {ins name : StdString}

theorem registered_constructPeriod (type : Int) :
    (stg.constructPeriod name type).Registered period ins ↔
      stg.Registered period ins ∨ period = type ∧ ins = name := by
  rw [CStrategy.Registered, CStrategy.constructPeriod,
    OrderedMap.nestedFind?_of_write (k := (type, name))
      (fun k => find?_efficientMapOperation stg.decisionData type k _)
      (fun k => find?_efficientMapOperation _ name k _)]
  by_cases same : (period, ins) = (type, name)
  · simp [Prod.mk.inj same]
  · rw [if_neg same]
    rw [Prod.mk.injEq] at same
    simp only [same, or_false]
    exact Iff.rfl

/-- Every call of `construct_decision_data` registers one name under the selected
periods. -/
theorem registered_constructDecisionData :
    (stg.constructDecisionData name kType).Registered period ins ↔
      stg.Registered period ins ∨ Selected kType period ∧ ins = name := by
  have types (ts : List Int) (stg : CStrategy) :
      (ts.foldl (fun stg type => if kType &&& type.toNat = 0 then stg
        else stg.constructPeriod name type) stg).Registered period ins ↔
        stg.Registered period ins ∨ (period ∈ ts ∧ kType &&& period.toNat ≠ 0) ∧ ins = name := by
    induction ts generalizing stg with
    | nil => simp
    | cons type ts ih =>
        rw [List.foldl_cons, ih]
        by_cases bit : kType &&& type.toNat = 0
        · rw [if_pos bit, List.mem_cons]
          grind
        · rw [if_neg bit, registered_constructPeriod, List.mem_cons]
          grind
  exact types _ stg

theorem registered_foldl (names : List StdString) :
    (names.foldl (fun stg name => stg.constructDecisionData name kType) stg).Registered
        period ins ↔
      stg.Registered period ins ∨ Selected kType period ∧ ins ∈ names := by
  induction names generalizing stg with
  | nil => simp
  | cons name names ih =>
      rw [List.foldl_cons, ih, registered_constructDecisionData, List.mem_cons]
      tauto

end Registered

section Loads

variable {lines : List StdString} {configHead : StdString} {kType : Nat} {first : StdString}

theorem not_registered_empty (period : Int) (ins : StdString) :
    ¬ ({} : CStrategy).Registered period ins := Bool.false_ne_true

theorem loadFocusedInst_of_none
    (h : (lines.find? fun stringLine => configHead <:+: stringLine) = none) :
    ({} : CStrategy).loadFocusedInst (some lines) configHead kType = (false, {}) := by
  rw [CStrategy.loadFocusedInst]
  simp only [h]

/-- The first line in which the head occurs decides what is registered. -/
theorem loadFocusedInst_of_first
    (h : (lines.find? fun stringLine => configHead <:+: stringLine) = some first)
    (form : '=' ∈ first) (kType : Nat) :
    (({} : CStrategy).loadFocusedInst (some lines) configHead kType).1 = true ∧
      ∀ period ins,
        (({} : CStrategy).loadFocusedInst (some lines) configHead kType).2.Registered period ins ↔
          Selected kType period ∧ ins ∈ linePieces first := by
  rw [CStrategy.loadFocusedInst]
  simp only [h, form, ↓reduceIte, cutInstruments_eq_splitOn, true_and]
  intro period ins
  rw [registered_foldl, or_iff_right (not_registered_empty period ins)]
  exact Iff.rfl

theorem lineKey_inj (config : ConfigText lines) {l l' : StdString} (hl : l ∈ lines)
    (hl' : l' ∈ lines) (same : lineKey l = lineKey l') : l = l' :=
  List.inj_on_of_nodup_map config.distinct hl hl' same

/-- Keys are distinct, so one line says which names belong to the head. -/
theorem named_iff (config : ConfigText lines) {line : StdString} (hline : line ∈ lines)
    (same : lineKey line = configHead) (ins : StdString) :
    (∃ l ∈ lines, lineKey l = configHead ∧ ins ∈ lineNames l) ↔ ins ∈ lineNames line := by
  constructor
  · rintro ⟨other, hother, same', named⟩
    rwa [lineKey_inj config hline hother (same.trans same'.symm)]
  · exact fun named => ⟨line, hline, same, named⟩

/-- On a configuration of the expected form the call loads the line with the key, and
nothing else, exactly if the head fits. -/
theorem loads_focused_iff (config : ConfigText lines) (configHead : StdString) (kType : Nat) :
    LoadsFocused lines configHead kType
        (({} : CStrategy).loadFocusedInst (some lines) configHead kType) ↔
      HeadFits lines configHead kType := by
  rw [HeadFits]
  cases hfirst : lines.find? fun stringLine => configHead <:+: stringLine with
  | none =>
      rw [loadFocusedInst_of_none hfirst]
      constructor
      · intro loads line hline same
        exact absurd (loads.found.mpr ⟨line, hline, same⟩) Bool.false_ne_true
      · intro other
        refine ⟨iff_of_false Bool.false_ne_true ?_, fun period ins => iff_of_false ?_ ?_⟩
        · rintro ⟨line, hline, same⟩
          exact other line hline same
        · exact not_registered_empty period ins
        · rintro ⟨-, line, hline, same, -⟩
          exact other line hline same
  | some first =>
      have form := config.form first (List.mem_of_find?_eq_some hfirst)
      obtain ⟨loaded, entries⟩ := loadFocusedInst_of_first hfirst form kType
      constructor
      · intro loads
        obtain ⟨line, hline, same⟩ := loads.found.mp loaded
        refine ⟨line, hline, same, ?_⟩
        rintro ⟨period, selected⟩ ins
        have entry := (entries period ins).symm.trans (loads.registered period ins)
        rw [named_iff config hline same] at entry
        simpa only [selected, true_and] using entry
      · rintro ⟨line, hline, same, pieces⟩
        refine ⟨iff_of_true loaded ⟨line, hline, same⟩, fun period ins => ?_⟩
        rw [entries, named_iff config hline same]
        exact and_congr_right fun selected => pieces ⟨period, selected⟩ ins

/-- A line that begins with its key, has no empty piece and is found first. -/
theorem headFits_of_first
    (h : (lines.find? fun stringLine => configHead <:+: stringLine) = some first)
    (same : lineKey first = configHead) (full : [] ∉ linePieces first) :
    HeadFits lines configHead kType := by
  have whole : lineNames first = linePieces first := by
    rw [lineNames, List.filter_eq_self]
    intro piece hpiece
    simp only [ne_eq, decide_not, Bool.not_eq_true', decide_eq_false_iff_not]
    rintro rfl
    exact full hpiece
  rw [HeadFits, h]
  refine ⟨first, List.mem_of_find?_eq_some h, same, fun _ ins => ?_⟩
  rw [whole]

end Loads

/-- The configuration file of the repository. -/
def sampleConfig : List StdString :=
  ["MA_STG = rb1610|CF609|IF1606".toList, "RSI_STG = j17019".toList]

theorem loads_focused_iff_sample :
    LoadsFocused sampleConfig "MA_STG".toList 1
      (({} : CStrategy).loadFocusedInst (some sampleConfig) "MA_STG".toList 1) := by
  have config : ConfigText sampleConfig := ⟨by decide +kernel, by decide +kernel⟩
  have first : (sampleConfig.find? fun stringLine => "MA_STG".toList <:+: stringLine) =
      some "MA_STG = rb1610|CF609|IF1606".toList := by decide +kernel
  have same : lineKey "MA_STG = rb1610|CF609|IF1606".toList = "MA_STG".toList := by
    decide +kernel
  have full : [] ∉ linePieces "MA_STG = rb1610|CF609|IF1606".toList := by decide +kernel
  exact (loads_focused_iff config _ 1).mpr (headFits_of_first first same full)

/-- A key that contains the head, in front of the line with the key. -/
def shadowedConfig : List StdString := ["XMA_STG=j17".toList, "MA_STG=rb16|".toList]

/-- The instruments of another strategy are registered, because the head occurs in an
earlier line. -/
theorem loads_other_line :
    ¬ ∀ (lines : List StdString) (configHead : StdString) (kType : Nat), ConfigText lines →
      LoadsFocused lines configHead kType
        (({} : CStrategy).loadFocusedInst (some lines) configHead kType) := by
  intro claim
  have config : ConfigText shadowedConfig := ⟨by decide +kernel, by decide +kernel⟩
  have loads := claim shadowedConfig "MA_STG".toList 1 config
  have first : (shadowedConfig.find? fun stringLine => "MA_STG".toList <:+: stringLine) =
      some "XMA_STG=j17".toList := by decide +kernel
  have listed : Selected 1 minOne ∧ "j17".toList ∈ linePieces "XMA_STG=j17".toList := by
    decide +kernel
  have entry := ((loadFocusedInst_of_first first (by decide +kernel) 1).2 minOne _).mpr listed
  obtain ⟨-, line, hline, same, named⟩ := (loads.registered minOne _).mp entry
  have own : "MA_STG=rb16|".toList ∈ shadowedConfig := by decide +kernel
  have key : lineKey "MA_STG=rb16|".toList = "MA_STG".toList := by decide +kernel
  obtain rfl := lineKey_inj config own hline (key.trans same.symm)
  exact absurd named (by decide +kernel)

end CtpTrade
