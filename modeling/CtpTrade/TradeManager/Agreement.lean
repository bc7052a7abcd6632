import CtpTrade.CandleBar.Conversion
import CtpTrade.MdManager.Composition
import CtpTrade.TradeManager.Basic

/-!
# The strategies agree with the store

A strategy is determined by the calls of `update` it has received, and a store by
the recorded calls of `notify_decision_data`. Between the two stand the calls in
progress: what a strategy has received of a period, followed by the bar it has
still to receive, is what has been recorded for that period.
-/

namespace CtpTrade

/-- The bars of one period and one instrument in a list of calls, in their order. -/
def callsFor (pair : Int × StdString) (calls : List (Int × CandleBar)) : List CandleBar :=
  (calls.filter fun call => (call.1, call.2.barName.chars) = pair).map Prod.snd

/-- The calls for one period. -/
def ofPeriod (period : Int) (calls : List (Int × CandleBar)) : List (Int × CandleBar) :=
  calls.filter fun call => call.1 = period

section Calls

variable {pair : Int × StdString} {calls more : List (Int × CandleBar)} {call : Int × CandleBar}

@[simp] theorem callsFor_nil : callsFor pair [] = [] := rfl

@[simp] theorem callsFor_append : callsFor pair (calls ++ more) =
    callsFor pair calls ++ callsFor pair more := by
  simp [callsFor]

theorem callsFor_singleton :
    callsFor pair [call] = if (call.1, call.2.barName.chars) = pair then [call.2] else [] := by
  by_cases same : (call.1, call.2.barName.chars) = pair <;> simp [callsFor, same]

@[simp] theorem ofPeriod_append {period : Int} : ofPeriod period (calls ++ more) =
    ofPeriod period calls ++ ofPeriod period more := by
  simp [ofPeriod]

theorem ofPeriod_singleton {period : Int} :
    ofPeriod period [call] = if call.1 = period then [call] else [] := by
  by_cases same : call.1 = period <;> simp [ofPeriod, same]

theorem callsFor_ofPeriod : callsFor pair (ofPeriod pair.1 calls) = callsFor pair calls := by
  rw [callsFor, ofPeriod, List.filter_filter, callsFor]
  congr 1
  apply List.filter_congr
  intro call _
  by_cases same : (call.1, call.2.barName.chars) = pair
  · simp [← same]
  · simp [same]

theorem barName_of_mem_callsFor {bar : CandleBar} (h : bar ∈ callsFor pair calls) :
    bar.barName.chars = pair.2 := by
  obtain ⟨call, mem, rfl⟩ := List.mem_map.mp h
  have same := (List.mem_filter.mp mem).2
  rw [decide_eq_true_eq] at same
  rw [← same]

end Calls

theorem convertDatanoToKtype_injective :
    Function.Injective CMdManager.convertDatanoToKtype := by
  intro no other h
  cases no <;> cases other <;> first | rfl | cases h

/-- A call of one thread counts for its period alone. -/
theorem ofPeriod_call (period no : DataNo) (bar : CandleBar) :
    ofPeriod (CMdManager.convertDatanoToKtype period) [(CMdManager.convertDatanoToKtype no, bar)] =
      if period = no then [(CMdManager.convertDatanoToKtype no, bar)] else [] := by
  rw [ofPeriod_singleton]
  by_cases same : period = no
  · rw [same, if_pos rfl, if_pos rfl]
  · rw [if_neg same, if_neg fun h => same (convertDatanoToKtype_injective h).symm]

namespace CStrategy

variable {stg : CStrategy} {pair : Int × StdString}

/-- A call appends to the series of its pair, if there is one. -/
theorem update_series (period : Int) (bar : CandleBar) :
    (stg.update period bar).decisionData.nestedFind? pair =
      (stg.decisionData.nestedFind? pair).map fun kdata =>
        { kdata with candles := kdata.candles ++ callsFor pair [(period, bar)] } := by
  have other (unchanged : pair ≠ (period, bar.barName.chars)) :
      stg.decisionData.nestedFind? pair =
        (stg.decisionData.nestedFind? pair).map fun kdata =>
          { kdata with candles := kdata.candles ++ callsFor pair [(period, bar)] } := by
    rw [callsFor_singleton, if_neg unchanged.symm]
    cases stg.decisionData.nestedFind? pair <;> simp
  have absent (missing : stg.decisionData.nestedFind? (period, bar.barName.chars) = none) :
      stg.decisionData.nestedFind? pair =
        (stg.decisionData.nestedFind? pair).map fun kdata =>
          { kdata with candles := kdata.candles ++ callsFor pair [(period, bar)] } := by
    by_cases same : pair = (period, bar.barName.chars)
    · rw [same, missing]
      rfl
    · exact other same
  rw [update]
  cases hperiod : stg.decisionData.find? period with
  | none => exact absent (by simp [OrderedMap.nestedFind?, hperiod])
  | some instrKdata =>
      cases hins : instrKdata.find? bar.barName.chars with
      | none =>
          simp only [hins]
          exact absent (by simp [OrderedMap.nestedFind?, hperiod, hins])
      | some kdata =>
          have written := OrderedMap.nestedFind?_nestedSet stg.decisionData
            (period, bar.barName.chars) pair (kdata.pushBar bar)
          simp only [OrderedMap.nestedSet, hperiod, Option.getD_some] at written
          simp only [hins, written]
          split_ifs with same
          · rw [same, callsFor_singleton, if_pos rfl]
            simp [OrderedMap.nestedFind?, hperiod, hins, CCandleBar.pushBar]
          · exact other same

/-- It archives the bar exactly when there is a series for it. -/
theorem update_archive (period : Int) (bar : CandleBar) :
    callsFor pair (stg.update period bar).archive =
      callsFor pair stg.archive ++
        if (stg.decisionData.nestedFind? pair).isSome then callsFor pair [(period, bar)]
        else [] := by
  have absent (missing : stg.decisionData.nestedFind? (period, bar.barName.chars) = none) :
      (if (stg.decisionData.nestedFind? pair).isSome then callsFor pair [(period, bar)]
        else []) = [] := by
    rw [callsFor_singleton]
    by_cases same : (period, bar.barName.chars) = pair
    · simp [← same, missing]
    · simp [same]
  rw [update]
  cases hperiod : stg.decisionData.find? period with
  | none => simp [absent (by simp [OrderedMap.nestedFind?, hperiod])]
  | some instrKdata =>
      cases hins : instrKdata.find? bar.barName.chars with
      | none => simp [hins, absent (by simp [OrderedMap.nestedFind?, hperiod, hins])]
      | some kdata =>
          simp only [hins, callsFor_append]
          rw [callsFor_singleton]
          by_cases same : (period, bar.barName.chars) = pair
          · simp [← same, OrderedMap.nestedFind?, hperiod, hins]
          · simp [same]

/-- The strategy after the calls. -/
def receive (stg : CStrategy) (calls : List (Int × CandleBar)) : CStrategy :=
  calls.foldl (fun stg call => stg.update call.1 call.2) stg

theorem receive_concat (calls : List (Int × CandleBar)) (call : Int × CandleBar) :
    stg.receive (calls ++ [call]) = (stg.receive calls).update call.1 call.2 := by
  simp [receive]

theorem receive_series (calls : List (Int × CandleBar)) :
    (stg.receive calls).decisionData.nestedFind? pair =
      (stg.decisionData.nestedFind? pair).map fun kdata =>
        { kdata with candles := kdata.candles ++ callsFor pair calls } := by
  induction calls using List.reverseRecOn with
  | nil =>
      simp only [receive, List.foldl_nil, callsFor_nil, List.append_nil]
      exact (Option.map_id' ..).symm
  | append_singleton calls call ih =>
      rw [receive_concat, update_series, ih, Option.map_map, callsFor_append]
      congr 1
      funext kdata
      simp

theorem receive_archive (calls : List (Int × CandleBar)) :
    callsFor pair (stg.receive calls).archive =
      callsFor pair stg.archive ++
        if (stg.decisionData.nestedFind? pair).isSome then callsFor pair calls else [] := by
  induction calls using List.reverseRecOn with
  | nil => simp [receive]
  | append_singleton calls call ih =>
      have keys : ((stg.receive calls).decisionData.nestedFind? pair).isSome =
          (stg.decisionData.nestedFind? pair).isSome := by
        rw [receive_series, Option.isSome_map]
      rw [receive_concat, update_archive, ih, keys]
      split_ifs <;> simp

end CStrategy

/-- A composed bar has the name of the first bar of its block. -/
theorem composeBlock_barName {first : CandleBar} {rest : List CandleBar} :
    (composeBlock (first :: rest)).barName = first.barName := by
  have merged (desBar : CandleBar) : (rest.foldl mergeBar desBar).barName = desBar.barName := by
    induction rest generalizing desBar with
    | nil => rfl
    | cons bar rest ih => exact ih (mergeBar desBar bar)
  exact merged first

/-- A bar composed of bars of one name has that name. -/
theorem composeBlock_drop_barName {minutes : List CandleBar} {name : StdString}
    (named : ∀ bar ∈ minutes, bar.barName.chars = name) {start multipile : Nat}
    (some : multipile ≠ 0) (inside : start < minutes.length) :
    (composeBlock ((minutes.drop start).take multipile)).barName.chars = name := by
  obtain ⟨k, rfl⟩ := Nat.exists_eq_succ_of_ne_zero some
  rw [List.drop_eq_getElem_cons inside, List.take_succ_cons, composeBlock_barName]
  exact named _ (List.getElem_mem inside)

namespace MdSystem

variable {ins : List StdString} {s : MdSystem}

/-- Minute bars are stored under their own name, as the broadcast module pushes them. -/
def NamedPush (_ : MdSystem) : MdAction → Prop
  | .pushMinOneData name bar => name = bar.barName.chars
  | _ => True

/-- The thread that makes the calls of an action. -/
def caller : MdAction → Option DataNo
  | .main => none
  | .thread no => some no
  | .pushMinOneData _ _ => some .one

/-- A step records at most one call, for the period of its thread. -/
theorem notified_next (ins : List StdString) (s : MdSystem) (a : MdAction) :
    (next ins s a).manager.notified = s.manager.notified ∨
      ∃ no bar, caller a = some no ∧ (next ins s a).manager.notified =
        s.manager.notified ++ [(CMdManager.convertDatanoToKtype no, bar)] := by
  cases a with
  | main =>
      obtain ⟨manager, todo⟩ := s
      cases todo with
      | nil => exact .inl rfl
      | cons first todo => cases first <;> exact .inl rfl
  | pushMinOneData name bar =>
      simp only [next]
      split_ifs
      · exact .inr ⟨.one, bar, rfl, rfl⟩
      · exact .inl rfl
  | thread no =>
      have step := s.manager.calculateMdBaseFunction_step no
      simp only [next]
      generalize s.manager.calculateMdBaseFunction no = md at step
      cases step with
      | idle => exact .inl rfl
      | start => exact .inl rfl
      | move => exact .inl rfl
      | compose th name bar => exact .inr ⟨no, bar, rfl, rfl⟩

/-- Every store holds the bars of the calls that have been recorded for its period and
instrument, in their order. The log of the calls is what the strategies are told. -/
def StoreIsLog (s : MdSystem) : Prop :=
  ∀ no name, s.composedBars no name =
    callsFor (CMdManager.convertDatanoToKtype no, name) s.manager.notified

theorem StoreIsLog.barName (hs : StoreIsLog s) (no : DataNo) (name : StdString) :
    ∀ bar ∈ s.composedBars no name, bar.barName.chars = name := by
  intro bar hbar
  rw [hs no name] at hbar
  exact barName_of_mem_callsFor hbar

/-- A bar that is stored and recorded for the same period and name. -/
private theorem storeIsLog_push {md : CMdManager} {todo : List StartStep} (hs : StoreIsLog s)
    (no : DataNo) (bar : CandleBar)
    (stored : md.basicMinuteKdata = Function.update s.manager.basicMinuteKdata no
      ((s.manager.basicMinuteKdata no).pushOneData bar.barName.chars bar))
    (recorded : md.notified =
      s.manager.notified ++ [(CMdManager.convertDatanoToKtype no, bar)]) :
    StoreIsLog { manager := md, todo := todo } := by
  intro no' name
  have before : ((s.manager.basicMinuteKdata no').series name).candles = _ := hs no' name
  simp only [composedBars, stored, recorded, callsFor_append, callsFor_singleton, Prod.mk.injEq]
  by_cases period : no' = no
  · subst period
    by_cases same : name = bar.barName.chars
    · subst same
      simp [CMdDataSet.series_pushOneData_same, before]
    · rw [Function.update_self, CMdDataSet.series_pushOneData_ne _ _ same, before,
        if_neg fun h => same h.2.symm, List.append_nil]
  · rw [Function.update_of_ne period, before,
      if_neg fun h => period (convertDatanoToKtype_injective h.1).symm, List.append_nil]

private theorem storeIsLog_main (quiet : QuietStart s) (hs : StoreIsLog s) :
    StoreIsLog (next ins s .main) := by
  obtain ⟨manager, todo⟩ := s
  cases todo with
  | nil => exact hs
  | cons first todo =>
      intro no name
      have empty : ((manager.basicMinuteKdata no).series name).candles = [] :=
        quiet (by simp) no name
      have log : callsFor (CMdManager.convertDatanoToKtype no, name) manager.notified = [] := by
        rw [← empty]
        exact (hs no name).symm
      cases first with
      | initialDataset filled =>
          refine Eq.trans ?_ log.symm
          by_cases same : no = filled
          · subst same
            simp only [composedBars, next, mainStep, Function.update_self,
              CMdDataSet.initialDataset_candles]
            rw [ite_eq_left_iff]
            exact fun _ => empty
          · simpa [composedBars, next, mainStep, same] using empty
      | initialCheckupTable => exact empty.trans log.symm
      | createThread => exact empty.trans log.symm
      | setIntruments => exact empty.trans log.symm

theorem storeIsLog_next (start : StartUp ins s) (quiet : QuietStart s) (hs : StoreIsLog s)
    {a : MdAction} (named : NamedPush s a) : StoreIsLog (next ins s a) := by
  cases a with
  | main => exact storeIsLog_main quiet hs
  | pushMinOneData name bar =>
      obtain rfl : name = bar.barName.chars := named
      simp only [next]
      split_ifs
      · exact storeIsLog_push hs .one bar rfl rfl
      · exact hs
  | thread no =>
      have step := s.manager.calculateMdBaseFunction_step no
      simp only [next]
      generalize s.manager.calculateMdBaseFunction no = md at step
      cases step with
      | idle => exact hs
      | start => exact hs
      | move => exact hs
      | compose th name bar running focus enough =>
          have notOne : no ≠ .one := by
            rintro rfl
            rw [start.idleOne] at running
            cases running
          have two : 2 ≤ th.composeMultipile := by
            rw [start.running no th running]
            cases no with
            | one => exact absurd rfl notOne
            | _ => decide
          rw [CCandleBar.calculateSpecifiedPeriod_eq _ _ two,
            Option.ite_none_right_eq_some] at enough
          obtain ⟨inside, composed⟩ := enough
          cases composed
          have short : th.retrieveStartPos < (s.composedBars .one name).length := by
            rw [composedBars]
            omega
          have own := composeBlock_drop_barName (hs.barName .one name)
            (show th.composeMultipile ≠ 0 by omega) short
          refine storeIsLog_push hs no _ ?_ rfl
          rw [composedBars] at own
          rw [own]

theorem storeIsLog_run {acts : List MdAction}
    (named : Execution.Meets (Execution.total (next ins)) NamedPush {} acts) :
    StoreIsLog (run ins acts) :=
  run_invariant_of_started StoreIsLog
    (fun _ _ start quiet hs ok => storeIsLog_next start quiet hs ok)
    (fun _ _ => rfl) named

end MdSystem

namespace TradeSystem

variable {ins : List StdString} {stgs : List CStrategy} {s : TradeSystem}

/-- The call in progress of the period that has not come to strategy `i` yet. -/
def outstanding (s : TradeSystem) (no : DataNo) (i : Nat) : List (Int × CandleBar) :=
  match s.notifying no with
  | some call =>
    if call.handled ≤ i then [(CMdManager.convertDatanoToKtype no, call.bar)] else []
  | none => []

/-- The invariant between the data manager and the strategies: what a strategy has
received of a period, followed by what it still has to receive, is what has been
recorded, so no bar is lost, repeated or overtaken by another of its period. -/
structure Delivered (ins : List StdString) (stgs : List CStrategy) (s : TradeSystem) : Prop where
  /-- The market data module is in a reachable state of its own. -/
  md : ∃ acts, Execution.Meets (Execution.total (MdSystem.next ins)) MdSystem.NamedPush {} acts ∧
    s.md = MdSystem.run ins acts
  length : s.stgContainer.length = stgs.length
  received : ∀ i stg, stgs[i]? = some stg → ∃ calls, s.stgContainer[i]? = some (stg.receive calls) ∧
    ∀ no, ofPeriod (CMdManager.convertDatanoToKtype no) calls ++ s.outstanding no i =
      ofPeriod (CMdManager.convertDatanoToKtype no) s.md.manager.notified

theorem delivered_start (ins : List StdString) (stgs : List CStrategy) :
    Delivered ins stgs { stgContainer := stgs } where
  md := ⟨[], trivial, rfl⟩
  length := rfl
  received _ _ h := ⟨[], h, fun _ => rfl⟩

/-- The module goes on from one of its own runs. -/
theorem Delivered.md_next (hs : Delivered ins stgs s) {a : MdAction}
    (named : MdSystem.NamedPush s.md a) :
    ∃ acts, Execution.Meets (Execution.total (MdSystem.next ins)) MdSystem.NamedPush {} acts ∧
      s.md.next ins a = MdSystem.run ins acts := by
  obtain ⟨acts, meets, reached⟩ := hs.md
  refine ⟨acts ++ [a], ?_, ?_⟩
  · rw [Execution.meets_total_concat]
    refine ⟨meets, ?_⟩
    change MdSystem.NamedPush (MdSystem.run ins acts) a
    rwa [← reached]
  · rw [MdSystem.run_concat, reached]

/-- A step of the module that records no call changes nothing for the strategies. -/
theorem Delivered.of_same (hs : Delivered ins stgs s) {a : MdAction}
    (named : MdSystem.NamedPush s.md a)
    (same : (s.md.next ins a).manager.notified = s.md.manager.notified) :
    Delivered ins stgs { s with md := s.md.next ins a } := by
  refine ⟨hs.md_next named, hs.length, ?_⟩
  intro i stg h
  obtain ⟨calls, state, equal⟩ := hs.received i stg h
  refine ⟨calls, state, fun period => ?_⟩
  rw [same]
  exact equal period

/-- The module's step with the call that it begins. -/
private theorem delivered_stepMd (hs : Delivered ins stgs s) {a : MdAction}
    (named : MdSystem.NamedPush s.md a) {no : DataNo} (idle : s.notifying no = none)
    (own : ∀ other, MdSystem.caller a = some other → other = no) :
    Delivered ins stgs (s.stepMd no (s.md.next ins a)) := by
  obtain same | ⟨other, bar, called, recorded⟩ := MdSystem.notified_next ins s.md a
  · have step : s.stepMd no (s.md.next ins a) = { s with md := s.md.next ins a } := by
      simp only [stepMd, same, List.drop_length]
    rw [step]
    exact hs.of_same named same
  · obtain rfl := own other called
    have step : s.stepMd other (s.md.next ins a) =
        { s with
          md := s.md.next ins a
          notifying := Function.update s.notifying other (some { bar }) } := by
      simp only [stepMd, recorded, List.drop_left]
    rw [step]
    refine ⟨hs.md_next named, hs.length, ?_⟩
    intro i stg h
    obtain ⟨calls, state, equal⟩ := hs.received i stg h
    refine ⟨calls, state, fun period => ?_⟩
    have before := equal period
    rw [recorded, ofPeriod_append, ofPeriod_call, ← before]
    by_cases same : period = other
    · subst same
      simp [outstanding, idle]
    · simp [outstanding, same]

/-- Behind the last strategy the call ends. -/
private theorem delivered_finished (hs : Delivered ins stgs s) {no : DataNo} {call : Notification}
    (hcall : s.notifying no = some call) (finished : s.stgContainer.length ≤ call.handled) :
    Delivered ins stgs { s with notifying := Function.update s.notifying no none } := by
  refine ⟨hs.md, hs.length, ?_⟩
  intro i stg h
  obtain ⟨calls, state, equal⟩ := hs.received i stg h
  refine ⟨calls, state, fun period => ?_⟩
  have before := equal period
  by_cases same : period = no
  · subst same
    have inside : i < s.stgContainer.length := (List.getElem?_eq_some_iff.mp state).1
    have done : ¬ call.handled ≤ i := by omega
    simp only [outstanding, hcall, done, ↓reduceIte] at before
    simpa [outstanding] using before
  · simpa [outstanding, same] using before

/-- The strategy whose turn it is takes the bar, and the others wait as before. -/
private theorem delivered_handled (hs : Delivered ins stgs s) {no : DataNo} {call : Notification}
    (hcall : s.notifying no = some call) {now : CStrategy}
    (hstg : s.stgContainer[call.handled]? = some now) :
    Delivered ins stgs { s with
      stgContainer := s.stgContainer.set call.handled
        (now.update (CMdManager.convertDatanoToKtype no) call.bar)
      notifying := Function.update s.notifying no
        (some { call with handled := call.handled + 1 }) } := by
  refine ⟨hs.md, by simpa using hs.length, ?_⟩
  intro i stg h
  obtain ⟨calls, state, equal⟩ := hs.received i stg h
  by_cases here : call.handled = i
  · subst here
    have inside : call.handled < s.stgContainer.length := (List.getElem?_eq_some_iff.mp state).1
    obtain rfl : now = stg.receive calls := by
      rw [hstg] at state
      exact Option.some.inj state
    refine ⟨calls ++ [(CMdManager.convertDatanoToKtype no, call.bar)], ?_, fun period => ?_⟩
    · rw [CStrategy.receive_concat]
      simp [inside]
    · rw [ofPeriod_append, ofPeriod_call, ← equal period]
      by_cases same : period = no
      · subst same
        simp [outstanding, hcall]
      · simp [outstanding, same]
  · refine ⟨calls, by simpa [here] using state, fun period => ?_⟩
    have before := equal period
    by_cases same : period = no
    · subst same
      have still : call.handled + 1 ≤ i ↔ call.handled ≤ i := by omega
      simpa [outstanding, hcall, still] using before
    · simpa [outstanding, same] using before

private theorem delivered_notify (hs : Delivered ins stgs s) (no : DataNo) :
    Delivered ins stgs (s.notifyDecisionData no) := by
  rw [notifyDecisionData]
  cases hcall : s.notifying no with
  | none => exact hs
  | some call =>
      simp only
      cases hstg : s.stgContainer[call.handled]? with
      | none => exact delivered_finished hs hcall (List.getElem?_eq_none_iff.mp hstg)
      | some now => exact delivered_handled hs hcall hstg

theorem delivered_next (hs : Delivered ins stgs s) (a : TradeAction) :
    Delivered ins stgs (next ins s a) := by
  cases a with
  | main =>
      obtain same | ⟨no, bar, called, -⟩ := MdSystem.notified_next ins s.md .main
      · exact hs.of_same (a := .main) trivial same
      · cases called
  | thread no =>
      simp only [next]
      cases idle : s.notifying no with
      | some call => exact hs
      | none =>
          refine delivered_stepMd hs (a := .thread no) trivial idle ?_
          rintro other ⟨⟩
          rfl
  | pushMinOneData bar =>
      simp only [next]
      cases idle : s.notifying .one with
      | some call => exact hs
      | none =>
          refine delivered_stepMd hs (a := .pushMinOneData bar.barName.chars bar) rfl idle ?_
          rintro other ⟨⟩
          rfl
  | notify no => exact delivered_notify hs no

theorem delivered_run (ins : List StdString) (stgs : List CStrategy) (acts : List TradeAction) :
    Delivered ins stgs (run ins stgs acts) :=
  Execution.exec_invariant (Delivered ins stgs) (fun _ a hs => delivered_next hs a)
    (delivered_start ins stgs) acts

end TradeSystem

/-- The copies and the archive of a strategy hold the bars of the store of one period,
for every instrument under which the strategy has a series. -/
structure AgreesOn (stg : CStrategy) (s : MdSystem) (no : DataNo) : Prop where
  copies : ∀ name kdata,
    stg.decisionData.nestedFind? (CMdManager.convertDatanoToKtype no, name) = some kdata →
      kdata.candles = s.composedBars no name
  archived : ∀ name kdata,
    stg.decisionData.nestedFind? (CMdManager.convertDatanoToKtype no, name) = some kdata →
      callsFor (CMdManager.convertDatanoToKtype no, name) stg.archive = s.composedBars no name

/-- A strategy has the series it was attached with and no others, and nothing else is in
its archive. The registration never changes while bars arrive. -/
structure SameInterests (attached stg : CStrategy) : Prop where
  keys : ∀ pair, (stg.decisionData.nestedFind? pair).isSome =
    (attached.decisionData.nestedFind? pair).isSome
  silent : ∀ pair, attached.decisionData.nestedFind? pair = none →
    callsFor pair stg.archive = []

theorem sameInterests_receive {attached : CStrategy} (start : attached.Fresh)
    (calls : List (Int × CandleBar)) : SameInterests attached (attached.receive calls) where
  keys pair := by rw [CStrategy.receive_series, Option.isSome_map]
  silent pair missing := by
    rw [CStrategy.receive_archive, start.archive, missing]
    rfl

theorem agreesOn_receive {attached : CStrategy} (start : attached.Fresh)
    {calls : List (Int × CandleBar)} {s : MdSystem} {no : DataNo}
    (bars : ∀ name, callsFor (CMdManager.convertDatanoToKtype no, name) calls =
      s.composedBars no name) : AgreesOn (attached.receive calls) s no := by
  constructor
  · intro name kdata h
    rw [CStrategy.receive_series, Option.map_eq_some_iff] at h
    obtain ⟨old, hold, rfl⟩ := h
    simp only [start.series _ old hold, List.nil_append]
    exact bars name
  · intro name kdata h
    rw [CStrategy.receive_series, Option.map_eq_some_iff] at h
    obtain ⟨old, hold, -⟩ := h
    rw [CStrategy.receive_archive, start.archive, hold, callsFor_nil, List.nil_append,
      Option.isSome_some, if_pos rfl]
    exact bars name

open TradeSystem in
/-- In every reachable state the stored bars have the name they are stored under,
and a strategy agrees with the store of a period whenever no call for that period
is in progress. -/
theorem strategies_agree (ins : List StdString) (stgs : List CStrategy)
    (fresh : ∀ stg ∈ stgs, stg.Fresh) (acts : List TradeAction) :
    (∀ no name, ∀ bar ∈ (run ins stgs acts).md.composedBars no name, bar.barName.chars = name) ∧
      (run ins stgs acts).stgContainer.length = stgs.length ∧
      ∀ (i : Nat) (attached stg : CStrategy), stgs[i]? = some attached →
        (run ins stgs acts).stgContainer[i]? = some stg →
        SameInterests attached stg ∧
          ∀ no, (run ins stgs acts).notifying no = none →
            AgreesOn stg (run ins stgs acts).md no := by
  have delivered := delivered_run ins stgs acts
  generalize run ins stgs acts = s at delivered
  obtain ⟨mdActs, named, reached⟩ := delivered.md
  have log : s.md.StoreIsLog := by
    rw [reached]
    exact MdSystem.storeIsLog_run named
  refine ⟨log.barName, delivered.length, ?_⟩
  intro i attached stg hattached hstg
  obtain ⟨calls, state, equal⟩ := delivered.received i attached hattached
  obtain rfl : stg = attached.receive calls := by
    rw [hstg] at state
    exact Option.some.inj state
  have start := fresh attached (List.mem_of_getElem? hattached)
  refine ⟨sameInterests_receive start calls, fun no idle => ?_⟩
  have all : ofPeriod (CMdManager.convertDatanoToKtype no) calls =
      ofPeriod (CMdManager.convertDatanoToKtype no) s.md.manager.notified := by
    rw [← equal no, outstanding, idle, List.append_nil]
  refine agreesOn_receive start fun name => ?_
  calc
    callsFor (CMdManager.convertDatanoToKtype no, name) calls
      = callsFor (CMdManager.convertDatanoToKtype no, name)
          (ofPeriod (CMdManager.convertDatanoToKtype no) calls) := callsFor_ofPeriod.symm
    _ = callsFor (CMdManager.convertDatanoToKtype no, name)
          (ofPeriod (CMdManager.convertDatanoToKtype no) s.md.manager.notified) := by rw [all]
    _ = callsFor (CMdManager.convertDatanoToKtype no, name) s.md.manager.notified :=
        callsFor_ofPeriod
    _ = s.md.composedBars no name := (log no name).symm

/-- A strategy that works on the minute bars and the five-minute bars of one instrument. -/
def sampleStrategy : CStrategy := ({} : CStrategy).constructDecisionData "rb1610".toList 3

/-- Six minute bars, each passed on before the next, and a five-minute bar. -/
def sampleTradeActs : List TradeAction :=
  List.replicate 11 .main ++
    (List.range 6).flatMap (fun k =>
      [.pushMinOneData { sampleBar k with barName := strncpyS 31 "rb1610".toList },
        .notify .one, .notify .one]) ++
    [.thread .five, .thread .five, .notify .five, .notify .five]

theorem strategies_agree_sample :
    ∃ stg, (TradeSystem.run ["rb1610".toList] [sampleStrategy] sampleTradeActs).stgContainer[0]? =
        some stg ∧
      AgreesOn stg
        (TradeSystem.run ["rb1610".toList] [sampleStrategy] sampleTradeActs).md .five := by
  have fresh : ∀ stg ∈ [sampleStrategy], stg.Fresh := by
    intro stg h
    rw [List.mem_singleton.mp h]
    exact CStrategy.fresh_empty.constructDecisionData "rb1610".toList 3
  have agree := strategies_agree ["rb1610".toList] [sampleStrategy] fresh sampleTradeActs
  have inside : 0 < (TradeSystem.run ["rb1610".toList] [sampleStrategy]
      sampleTradeActs).stgContainer.length := by
    rw [agree.2.1]
    exact Nat.zero_lt_one
  have here := List.getElem?_eq_getElem inside
  exact ⟨_, here, (agree.2.2 0 sampleStrategy _ rfl here).2 .five (by decide +kernel)⟩

end CtpTrade
