import CtpTrade.Strategy.Evaluation
import CtpTrade.TradeManager.System

/-!
# The trader projects to its parts

Every step of the whole system is a step of each part or leaves it alone. Each
part therefore is, in every reachable state of the trader, in a reachable state
of its own, and what has been proved of all its runs holds of it here. The feed
and the threads of the other parts play the environment of a part.
-/

namespace CtpTrade

/-- The two parts of the state of a strategy stay together. -/
theorem AttachedStrategy.base_update (attached : AttachedStrategy) (period : Int)
    (stgData : CandleBar) :
    (attached.update period stgData).base = attached.base.update period stgData := by
  have data : (attached.update period stgData).base.decisionData =
      (attached.base.update period stgData).decisionData :=
    CMAStrategy.update_decisionData attached.stg period stgData attached.archive
  have archive : (attached.update period stgData).base.archive =
      (attached.base.update period stgData).archive := rfl
  generalize (attached.update period stgData).base = left at data archive
  generalize attached.base.update period stgData = right at data archive
  obtain ⟨leftData, leftArchive⟩ := left
  obtain ⟨rightData, rightArchive⟩ := right
  obtain rfl : leftData = rightData := data
  obtain rfl : leftArchive = rightArchive := archive
  rfl

theorem AttachedStrategy.base_strategicDecisionFunction (attached : AttachedStrategy) :
    attached.strategicDecisionFunction.base = attached.base := by
  simp only [base, strategicDecisionFunction, CMAStrategy.strategicDecisionFunction]
  split
  · rfl
  · split <;> rfl

/-- The market data module with another state of the broadcast module in it. -/
def MdSystem.withBroadcast (s : MdSystem) (md : CMdBroadCast) : MdSystem :=
  { s with manager := { s.manager with mdBroadcast := md } }

/-- Of the broadcast module a compose thread only reads the instrument list. -/
theorem CMdManager.calculateMdBaseFunction_withBroadcast (manager : CMdManager)
    (md : CMdBroadCast) (list : md.subscribeInst = manager.mdBroadcast.subscribeInst)
    (threadId : DataNo) :
    ({ manager with mdBroadcast := md } : CMdManager).calculateMdBaseFunction threadId =
      { manager.calculateMdBaseFunction threadId with mdBroadcast := md } := by
  simp only [calculateMdBaseFunction]
  cases manager.calculateThread threadId with
  | idle => rfl
  | created => simp only [list]
  | running th =>
      simp only
      cases th.focusInstr[th.next]? with
      | none => rfl
      | some name =>
          simp only [composeIns]
          cases (manager.basicMinuteKdata .one).calculateSpecifiedBar name th.retrieveStartPos
              th.composeMultipile {} <;> rfl

theorem CMdManager.calculateMdBaseFunction_mdBroadcast (manager : CMdManager)
    (threadId : DataNo) :
    (manager.calculateMdBaseFunction threadId).mdBroadcast = manager.mdBroadcast := by
  have step := manager.calculateMdBaseFunction_step threadId
  generalize manager.calculateMdBaseFunction threadId = md at step
  cases step <;> rfl

/-- What the other steps do does not depend on the ticks in the broadcast module. -/
theorem MdSystem.next_withBroadcast (ins : List StdString) (s : MdSystem) (md : CMdBroadCast)
    (list : md.subscribeInst = s.manager.mdBroadcast.subscribeInst) (a : MdAction) :
    ∃ md', md'.subscribeInst = (s.next ins a).manager.mdBroadcast.subscribeInst ∧
      (s.withBroadcast md).next ins a = (s.next ins a).withBroadcast md' := by
  obtain ⟨manager, todo⟩ := s
  cases a with
  | main =>
      cases todo with
      | nil => exact ⟨md, list, rfl⟩
      | cons first rest =>
          cases first with
          | setIntruments =>
              refine ⟨md.setIntruments ins, ?_, rfl⟩
              change _ = (manager.mdBroadcast.setIntruments ins).subscribeInst
              rw [CMdBroadCast.setIntruments_subscribeInst,
                CMdBroadCast.setIntruments_subscribeInst]
          | _ => exact ⟨md, list, rfl⟩
  | pushMinOneData name bar =>
      by_cases started : todo = []
      · subst started
        exact ⟨md, list, rfl⟩
      · refine ⟨md, ?_, ?_⟩
        · simp only [next, started, ↓reduceIte]
          exact list
        · simp only [next, started, ↓reduceIte, withBroadcast]
  | thread threadId =>
      refine ⟨md, ?_, ?_⟩
      · simp only [next, CMdManager.calculateMdBaseFunction_mdBroadcast]
        exact list
      · simp only [next, withBroadcast,
          CMdManager.calculateMdBaseFunction_withBroadcast manager md list]

namespace TradeSystem

variable {ins : List StdString} {t : TradeSystem} {md : CMdBroadCast}

/-- The system with another state of the broadcast module in it. -/
def withBroadcast (t : TradeSystem) (md : CMdBroadCast) : TradeSystem :=
  { t with md := t.md.withBroadcast md }

private theorem stepMd_withBroadcast (threadId : DataNo) (next : MdSystem)
    (md' : CMdBroadCast) :
    (t.withBroadcast md).stepMd threadId (next.withBroadcast md') =
      (t.stepMd threadId next).withBroadcast md' := by
  simp only [stepMd, withBroadcast, MdSystem.withBroadcast]
  generalize next.manager.notified.drop t.md.manager.notified.length = calls
  obtain _ | ⟨⟨_, _⟩, _⟩ := calls <;> rfl

private theorem md_stepMd (threadId : DataNo) (next : MdSystem) :
    (t.stepMd threadId next).md = next := by
  simp only [stepMd]
  split <;> rfl

/-- The strategies do not see the ticks either. -/
theorem next_withBroadcast (list : md.subscribeInst = t.md.manager.mdBroadcast.subscribeInst)
    (a : TradeAction) :
    ∃ md', md'.subscribeInst = (t.next ins a).md.manager.mdBroadcast.subscribeInst ∧
      (t.withBroadcast md).next ins a = (t.next ins a).withBroadcast md' := by
  have free (threadId : DataNo) (b : MdAction) :
      ∃ md', md'.subscribeInst =
          (t.stepMd threadId (t.md.next ins b)).md.manager.mdBroadcast.subscribeInst ∧
        (t.withBroadcast md).stepMd threadId ((t.md.withBroadcast md).next ins b) =
          (t.stepMd threadId (t.md.next ins b)).withBroadcast md' := by
    obtain ⟨md', list', same⟩ := t.md.next_withBroadcast ins md list b
    refine ⟨md', ?_, ?_⟩
    · rw [md_stepMd, list']
    · rw [same, stepMd_withBroadcast]
  cases a with
  | main =>
      obtain ⟨md', list', same⟩ := t.md.next_withBroadcast ins md list .main
      refine ⟨md', list', ?_⟩
      simp only [next, withBroadcast, same]
  | thread threadId =>
      cases busy : t.notifying threadId with
      | some call =>
          simp only [next, withBroadcast, busy]
          exact ⟨md, list, rfl⟩
      | none =>
          simp only [next, busy]
          have here : (t.withBroadcast md).notifying threadId = none := busy
          rw [here]
          exact free threadId (.thread threadId)
  | pushMinOneData bar =>
      cases busy : t.notifying .one with
      | some call =>
          simp only [next, withBroadcast, busy]
          exact ⟨md, list, rfl⟩
      | none =>
          simp only [next, busy]
          have here : (t.withBroadcast md).notifying .one = none := busy
          rw [here]
          exact free .one (.pushMinOneData bar.barName.chars bar)
  | notify threadId =>
      refine ⟨md, ?_, ?_⟩
      · simp only [next, notifyDecisionData]
        split
        · split <;> exact list
        · exact list
      · simp only [next, notifyDecisionData, withBroadcast]
        split
        · split <;> rfl
        · rfl

end TradeSystem

namespace Trader

variable {tradeTime : Bool} {ins : List StdString} {s t : Trader}

theorem stepMd_mdManager (threadId : DataNo) (md : MdSystem) :
    (s.stepMd threadId md).mdManager = md := by
  simp only [stepMd]
  split <;> rfl

theorem stepMd_stgContainer (threadId : DataNo) (md : MdSystem) :
    (s.stepMd threadId md).stgContainer = s.stgContainer := by
  simp only [stepMd]
  split <;> rfl

theorem stepMd_pipeline (s : Trader) (threadId : DataNo) (md : MdSystem) :
    (s.stepMd threadId md).pipeline = { s.pipeline with md := md.manager.mdBroadcast } := by
  simp only [stepMd]
  split <;> rfl

theorem stepMd_pushed (threadId : DataNo) (md : MdSystem) :
    (s.stepMd threadId md).pushed = s.pushed :=
  congrArg Pipeline.pushed (s.stepMd_pipeline threadId md)

theorem notifyDecisionData_mdManager (threadId : DataNo) :
    (s.notifyDecisionData threadId).mdManager = s.mdManager := by
  simp only [notifyDecisionData]
  split
  · split <;> rfl
  · rfl

theorem notifyDecisionData_pipeline (s : Trader) (threadId : DataNo) :
    (s.notifyDecisionData threadId).pipeline = s.pipeline := by
  simp only [notifyDecisionData]
  split
  · split <;> rfl
  · rfl

theorem notifyDecisionData_pushed (threadId : DataNo) :
    (s.notifyDecisionData threadId).pushed = s.pushed :=
  congrArg Pipeline.pushed (s.notifyDecisionData_pipeline threadId)

/-- The broadcast module keeps the list it has been given. -/
theorem subscribeInst_step {p q : Pipeline} {a : PipelineAction}
    (h : Pipeline.step tradeTime p a = .ok q) : q.md.subscribeInst = p.md.subscribeInst := by
  cases a with
  | append tick =>
      cases h
      rfl
  | distribute =>
      obtain ⟨-, rfl⟩ | ⟨tick, rest, -, rfl⟩ := Pipeline.step_distribute h
      · rfl
      · rfl
  | calculate name =>
      obtain ⟨md, push, outcome, rfl⟩ := Pipeline.step_calculate h
      cases outcome <;> rfl

theorem startUp_setPipeline {p : Pipeline} {a : PipelineAction}
    (hs : MdSystem.StartUp ins s.mdManager) (h : Pipeline.step tradeTime s.pipeline a = .ok p) :
    MdSystem.StartUp ins (s.setPipeline p).mdManager := by
  refine ⟨hs.order, ?_, hs.table, hs.idleOne, hs.created, hs.running⟩
  exact (subscribeInst_step h).trans hs.stored

theorem startUp_step (hs : MdSystem.StartUp ins s.mdManager) {a : TraderAction}
    (h : Step tradeTime ins s a t) :
    MdSystem.StartUp ins t.mdManager := by
  cases h with
  | idle => exact hs
  | main => exact MdSystem.startUp_next hs .main
  | broadcast _ b p running stepped => exact startUp_setPipeline hs stepped
  | push name p push running free stepped =>
      rw [stepMd_mdManager]
      exact MdSystem.startUp_next (startUp_setPipeline hs stepped) _
  | thread threadId =>
      rw [stepMd_mdManager]
      exact MdSystem.startUp_next hs (.thread threadId)
  | notify threadId => rwa [notifyDecisionData_mdManager]
  | decide => exact hs

theorem startUp_run {configs : List StgConfig} {acts : List TraderAction}
    (h : run tradeTime ins configs acts = .ok s) : MdSystem.StartUp ins s.mdManager :=
  Execution.run_invariant (fun s => MdSystem.StartUp ins s.mdManager)
    (fun _ _ _ hs hstep => startUp_step hs (step_cases hstep)) (MdSystem.startUp_start ins) h

/-- The broadcast module of the program is the pipeline in the state `p`. The pipeline
begins with the last statement of the start-up; before that nothing is subscribed. -/
def RunsPipeline (ins : List StdString) (s : Trader) (p : Pipeline) : Prop :=
  MdSystem.StartUp ins s.mdManager ∧
    if s.mdManager.todo = [] then s.pipeline = p else s.pipeline = { md := {} } ∧ p = .start ins

theorem runsPipeline_of_same {p : Pipeline} (h : RunsPipeline ins s p)
    (started : MdSystem.StartUp ins t.mdManager) (todo : t.mdManager.todo = s.mdManager.todo)
    (same : t.pipeline = s.pipeline) : RunsPipeline ins t p := by
  refine ⟨started, ?_⟩
  rw [todo, same]
  exact h.2

private theorem runsPipeline_main {p : Pipeline} (h : RunsPipeline ins s p) :
    RunsPipeline ins { s with mdManager := s.mdManager.next ins .main } p := by
  have started : MdSystem.StartUp ins (s.mdManager.next ins .main) :=
    MdSystem.startUp_next h.1 .main
  obtain ⟨⟨manager, todo⟩, appended, distributed, pushed, stgContainer, notifying, locked⟩ := s
  obtain ⟨before, view⟩ := h
  cases todo with
  | nil => exact ⟨before, view⟩
  | cons first rest =>
      obtain ⟨waiting, rfl⟩ : _ = ({ md := {} } : Pipeline) ∧ p = .start ins := by simpa using view
      refine ⟨started, ?_⟩
      have order : first :: rest <:+ initialMdManager := before.order
      by_cases last : rest = []
      · subst last
        obtain rfl : first = .setIntruments := by
          obtain ⟨pre, whole⟩ := order
          have := congrArg List.getLast? whole
          simpa [initialMdManager] using this
        have empty : manager.mdBroadcast = {} := congrArg Pipeline.md waiting
        simpa [MdSystem.next, MdSystem.mainStep, pipeline, Pipeline.start, empty] using waiting
      · have notLast : first ≠ .setIntruments := by
          rintro rfl
          have once : (StartStep.setIntruments :: rest).Nodup := order.sublist.nodup (by decide)
          obtain ⟨pre, whole⟩ := order
          have inRest : .setIntruments ∈ rest := by
            have := congrArg List.getLast? whole
            rw [List.getLast?_append_of_ne_nil _ (by simp),
              List.getLast?_cons_of_ne_nil last] at this
            exact List.mem_of_getLast? this
          exact (List.nodup_cons.mp once).1 inRest
        have kept : (MdSystem.mainStep ins manager first).mdBroadcast = manager.mdBroadcast := by
          cases first with
          | setIntruments => exact absurd rfl notLast
          | _ => rfl
        simpa [MdSystem.next, last, pipeline, kept] using waiting

private theorem runsPipeline_broadcast {p q : Pipeline} {a : PipelineAction}
    (h : RunsPipeline ins s p) (running : s.mdManager.todo = [])
    (stepped : Pipeline.step tradeTime s.pipeline a = .ok q) :
    Pipeline.step tradeTime p a = .ok q ∧ RunsPipeline ins (s.setPipeline q) q := by
  obtain ⟨started, view⟩ := h
  obtain rfl : s.pipeline = p := by rwa [if_pos running] at view
  exact ⟨stepped, startUp_setPipeline started stepped, by rw [if_pos]; exacts [rfl, running]⟩

/-- Seen from the broadcast module, the trader is one of its feeds and schedules. -/
theorem simulates_pipeline (tradeTime : Bool) (ins : List StdString) :
    Execution.Simulates (step tradeTime ins) (Pipeline.step tradeTime) (RunsPipeline ins) := by
  refine Execution.simulates_of_step ?_
  intro s a t p related hstep
  have hcase := step_cases hstep
  have started := startUp_step related.1 hcase
  cases hcase with
  | idle => exact .inl related
  | main => exact .inl (runsPipeline_main related)
  | broadcast _ b q running stepped =>
      obtain ⟨answered, related'⟩ := runsPipeline_broadcast related running stepped
      exact .inr ⟨b, q, answered, related'⟩
  | push name q push running free stepped pushed =>
      obtain ⟨answered, related'⟩ := runsPipeline_broadcast related running stepped
      refine .inr ⟨.calculate name, q, answered, ?_⟩
      refine runsPipeline_of_same related' started ?_ ?_
      · rw [stepMd_mdManager]
        simp only [MdSystem.next]
        split <;> rfl
      · rw [stepMd_pipeline]
        simp only [MdSystem.next]
        split <;> rfl
  | thread threadId =>
      refine .inl (runsPipeline_of_same related started ?_ ?_)
      · rw [stepMd_mdManager]
        rfl
      · rw [stepMd_pipeline]
        simp only [MdSystem.next, CMdManager.calculateMdBaseFunction_mdBroadcast]
        rfl
  | notify threadId =>
      refine .inl (runsPipeline_of_same related started ?_ ?_)
      · rw [notifyDecisionData_mdManager]
      · rw [notifyDecisionData_pipeline]
  | decide => exact .inl (runsPipeline_of_same related started rfl rfl)

theorem runsPipeline_start (ins : List StdString) (configs : List StgConfig) :
    RunsPipeline ins (start configs) (.start ins) :=
  ⟨MdSystem.startUp_start ins, rfl, rfl⟩

/-- The broadcast module of the trader is in a reachable state of its own. -/
theorem run_pipeline {configs : List StgConfig} {acts : List TraderAction}
    (h : run tradeTime ins configs acts = .ok s) :
    ∃ acts' p, Pipeline.run tradeTime ins acts' = .ok p ∧ RunsPipeline ins s p :=
  (simulates_pipeline tradeTime ins).run (runsPipeline_start ins configs) h

/-- The market data module and its calls, with the `CStrategy` part of each strategy. -/
def trade (s : Trader) : TradeSystem where
  md := s.mdManager
  stgContainer := s.stgContainer.map AttachedStrategy.base
  notifying := s.notifying

/-- The data manager and the strategies of the program are the system of them in the
state `t`. The ticks inside of the broadcast module may differ, since that system does
not look at them. -/
def RunsTrade (s : Trader) (t : TradeSystem) : Prop :=
  ∃ md, md.subscribeInst = t.md.manager.mdBroadcast.subscribeInst ∧ s.trade = t.withBroadcast md

private theorem trade_stepMd (threadId : DataNo) (md : MdSystem) :
    (s.stepMd threadId md).trade = s.trade.stepMd threadId md := by
  simp only [stepMd, TradeSystem.stepMd, trade]
  generalize md.manager.notified.drop s.mdManager.manager.notified.length = calls
  obtain _ | ⟨⟨_, _⟩, _⟩ := calls <;> rfl

private theorem trade_notifyDecisionData (threadId : DataNo) :
    (s.notifyDecisionData threadId).trade = s.trade.notifyDecisionData threadId := by
  simp only [notifyDecisionData, TradeSystem.notifyDecisionData, trade, List.getElem?_map]
  cases s.notifying threadId with
  | none => rfl
  | some call =>
      simp only
      cases s.stgContainer[call.handled]? with
      | none => rfl
      | some attached =>
          simp only [Option.map_some, List.map_set, AttachedStrategy.base_update]

private theorem trade_decide {index : Nat} {attached : AttachedStrategy}
    (there : s.stgContainer[index]? = some attached) :
    (s.stgContainer.set index attached.strategicDecisionFunction).map AttachedStrategy.base =
      s.stgContainer.map AttachedStrategy.base := by
  obtain ⟨inside, rfl⟩ := List.getElem?_eq_some_iff.mp there
  have inside' : index < (s.stgContainer.map AttachedStrategy.base).length := by simpa using inside
  have same : s.stgContainer[index].strategicDecisionFunction.base =
      (s.stgContainer.map AttachedStrategy.base)[index] := by
    rw [List.getElem_map, AttachedStrategy.base_strategicDecisionFunction]
  rw [List.map_set, same, List.set_getElem_self]

/-- Seen from the store and the notifications, the trader is one of their schedules. -/
theorem simulates_trade (tradeTime : Bool) (ins : List StdString) :
    Execution.Simulates (step tradeTime ins) (Execution.total (TradeSystem.next ins))
      RunsTrade := by
  refine Execution.simulates_of_step ?_
  rintro s a s' t ⟨md, list, view⟩ hstep
  -- a step that both sides make
  have answer {v : Trader} {m : CMdBroadCast} {b : TradeAction}
      (list : m.subscribeInst = t.md.manager.mdBroadcast.subscribeInst)
      (made : v.trade = (t.withBroadcast m).next ins b) :
      RunsTrade v t ∨ ∃ b t', Execution.total (TradeSystem.next ins) t b = .ok t' ∧
        RunsTrade v t' := by
    obtain ⟨md', list', same⟩ := TradeSystem.next_withBroadcast list b
    exact .inr ⟨b, _, rfl, md', list', made.trans same⟩
  have sees (p : Pipeline) : (s.setPipeline p).trade = t.withBroadcast p.md := by
    have : (s.setPipeline p).trade = s.trade.withBroadcast p.md := rfl
    rw [this, view]
    rfl
  have broadcasts : s.mdManager.manager.mdBroadcast = md :=
    congrArg (fun u => u.md.manager.mdBroadcast) view
  cases step_cases hstep with
  | idle => exact .inl ⟨md, list, view⟩
  | main =>
      refine answer (b := .main) list ?_
      rw [← view]
      rfl
  | broadcast _ b p running stepped =>
      refine .inl ⟨p.md, ?_, sees p⟩
      rw [subscribeInst_step stepped, ← list, ← broadcasts]
      rfl
  | push name p push running free stepped =>
      refine answer (b := .pushMinOneData push.bar) (m := p.md) ?_ ?_
      · rw [subscribeInst_step stepped, ← list, ← broadcasts]
        rfl
      · rw [trade_stepMd, ← sees p]
        have free' : (s.setPipeline p).trade.notifying .one = none := free
        simp only [TradeSystem.next, free']
        rfl
  | thread threadId free =>
      refine answer (b := .thread threadId) list ?_
      have free' : s.trade.notifying threadId = none := free
      rw [trade_stepMd, ← view]
      simp only [TradeSystem.next, free']
      rfl
  | notify threadId =>
      refine answer (b := .notify threadId) list ?_
      rw [trade_notifyDecisionData, view]
      rfl
  | decide index attached there =>
      refine .inl ⟨md, list, ?_⟩
      rw [← view]
      simp only [trade, trade_decide there]

/-- The store and the notifications of the trader are in a reachable state of their own. -/
theorem run_trade {configs : List StgConfig} {acts : List TraderAction}
    (h : run tradeTime ins configs acts = .ok s) :
    ∃ acts', RunsTrade s (TradeSystem.run ins
      (configs.map fun config => (AttachedStrategy.initialMaStg config).base) acts') := by
  have start : RunsTrade (start configs) { stgContainer := configs.map fun config =>
      (AttachedStrategy.initialMaStg config).base } :=
    ⟨{}, rfl, by simp only [Trader.start, trade, List.map_map]; rfl⟩
  obtain ⟨acts', t, reached, related⟩ := (simulates_trade tradeTime ins).run start h
  rw [Execution.run_total] at reached
  cases reached
  exact ⟨acts', related⟩

private theorem run_delivered {configs : List StgConfig} {acts : List TraderAction}
    (h : run tradeTime ins configs acts = .ok s) :
    ∃ t, RunsTrade s t ∧ TradeSystem.Delivered ins
      (configs.map fun config => (AttachedStrategy.initialMaStg config).base) t := by
  obtain ⟨acts', related⟩ := run_trade h
  exact ⟨_, related, TradeSystem.delivered_run ins _ acts'⟩

theorem run_length {configs : List StgConfig} {acts : List TraderAction}
    (h : run tradeTime ins configs acts = .ok s) : s.stgContainer.length = configs.length := by
  obtain ⟨t, ⟨md, -, view⟩, delivered⟩ := run_delivered h
  have same := congrArg (fun t => t.stgContainer.length) view
  simpa [trade, TradeSystem.withBroadcast, delivered.length] using same

/-- The market data module is in a reachable state of its own, up to the ticks. -/
theorem run_mdManager {configs : List StgConfig} {acts : List TraderAction}
    (h : run tradeTime ins configs acts = .ok s) :
    ∃ mdActs md,
      Execution.Meets (Execution.total (MdSystem.next ins)) MdSystem.NamedPush {} mdActs ∧
      s.mdManager = (MdSystem.run ins mdActs).withBroadcast md := by
  obtain ⟨t, ⟨md, -, view⟩, delivered⟩ := run_delivered h
  obtain ⟨mdActs, named, reached⟩ := delivered.md
  have same : s.mdManager = t.md.withBroadcast md := congrArg TradeSystem.md view
  exact ⟨mdActs, md, named, by rw [same, reached]⟩

/-- The stored bars are those of the recorded calls. -/
theorem run_storeIsLog {configs : List StgConfig} {acts : List TraderAction}
    (h : run tradeTime ins configs acts = .ok s) : s.mdManager.StoreIsLog := by
  obtain ⟨mdActs, md, named, same⟩ := run_mdManager h
  rw [same]
  exact MdSystem.storeIsLog_run named

/-- A strategy is the attached one after the recorded calls, up to those in progress. -/
theorem run_received {configs : List StgConfig} {acts : List TraderAction}
    (h : run tradeTime ins configs acts = .ok s) {index : Nat} {attached : AttachedStrategy}
    (there : s.stgContainer[index]? = some attached) :
    ∃ config calls, configs[index]? = some config ∧
      attached.base = (AttachedStrategy.initialMaStg config).base.receive calls ∧
      ∀ no, ofPeriod (CMdManager.convertDatanoToKtype no) calls ++ s.trade.outstanding no index =
        ofPeriod (CMdManager.convertDatanoToKtype no) s.mdManager.manager.notified := by
  have inside : index < configs.length := by
    rw [← run_length h]
    exact (List.getElem?_eq_some_iff.mp there).1
  have config : configs[index]? = some configs[index] := List.getElem?_eq_getElem inside
  obtain ⟨t, ⟨md, -, view⟩, delivered⟩ := run_delivered h
  obtain ⟨calls, state, equal⟩ := delivered.received index
    (AttachedStrategy.initialMaStg configs[index]).base (by simp [inside])
  refine ⟨configs[index], calls, config, ?_, ?_⟩
  · have mine : s.trade.stgContainer[index]? = some attached.base := by simp [trade, there]
    rw [view] at mine
    exact Option.some.inj (mine.symm.trans state)
  · intro no
    have outstanding : s.trade.outstanding no index = t.outstanding no index := by
      rw [view]
      rfl
    have notified : s.mdManager.manager.notified = t.md.manager.notified :=
      congrArg (fun u => u.md.manager.notified) view
    rw [outstanding, notified]
    exact equal no

/-- The strategy at `index` is in the state `stg`. -/
def RunsStrategy (index : Nat) (s : Trader) (stg : CMAStrategy) : Prop :=
  (s.stgContainer[index]?).map AttachedStrategy.stg = some stg

/-- A step is one of the strategy or leaves it alone, and it takes a bar when a call
comes to it. -/
theorem strategy_step {index : Nat} {stg : CMAStrategy} {a : TraderAction}
    (view : RunsStrategy index s stg) (h : Step tradeTime ins s a t) :
    RunsStrategy index t stg ∨ ∃ b, RunsStrategy index t (stg.next b) ∧
      ∀ period bar, b = .update period bar → ∃ no call, a = .notify no ∧
        s.notifying no = some call ∧ call.handled = index ∧
        period = CMdManager.convertDatanoToKtype no ∧ bar = call.bar := by
  -- another strategy, or this one by a step of its own
  have settled {other : Nat} {attached next : AttachedStrategy} {b : StrategyAction}
      (there : s.stgContainer[other]? = some attached) (made : next.stg = attached.stg.next b) :
      ((s.stgContainer.set other next)[index]?).map AttachedStrategy.stg = some stg ∨
        other = index ∧
          ((s.stgContainer.set other next)[index]?).map AttachedStrategy.stg =
            some (stg.next b) := by
    by_cases same : other = index
    · subst same
      obtain ⟨inside, -⟩ := List.getElem?_eq_some_iff.mp there
      obtain rfl : attached.stg = stg := by simpa [RunsStrategy, there] using view
      exact .inr ⟨rfl, by simp [inside, made]⟩
    · rw [List.getElem?_set_ne same]
      exact .inl view
  cases h with
  | idle => exact .inl view
  | main => exact .inl view
  | broadcast => exact .inl view
  | push =>
      refine .inl ?_
      rw [RunsStrategy, stepMd_stgContainer]
      exact view
  | thread =>
      refine .inl ?_
      rw [RunsStrategy, stepMd_stgContainer]
      exact view
  | notify threadId =>
      simp only [notifyDecisionData]
      cases calling : s.notifying threadId with
      | none => exact .inl view
      | some call =>
          simp only
          cases there : s.stgContainer[call.handled]? with
          | none => exact .inl view
          | some attached =>
              have takes : (attached.update (CMdManager.convertDatanoToKtype threadId)
                  call.bar).stg = attached.stg.next
                    (.update (CMdManager.convertDatanoToKtype threadId) call.bar) := rfl
              obtain same | ⟨here, made⟩ := settled there takes
              · exact .inl same
              · refine .inr ⟨_, made, ?_⟩
                rintro period bar ⟨⟩
                exact ⟨threadId, call, rfl, calling, here, rfl, rfl⟩
  | decide other attached there =>
      have decides : attached.strategicDecisionFunction.stg = attached.stg.next .decide := rfl
      obtain same | ⟨-, made⟩ := settled there decides
      · exact .inl same
      · refine .inr ⟨.decide, made, ?_⟩
        rintro period bar ⟨⟩

/-- Seen from a strategy, the trader is one of its feeds and schedules. -/
theorem simulates_strategy (tradeTime : Bool) (ins : List StdString) (index : Nat) :
    Execution.Simulates (step tradeTime ins) (Execution.total CMAStrategy.next)
      (RunsStrategy index) := by
  refine Execution.simulates_of_step ?_
  intro s a s' stg view hstep
  obtain same | ⟨b, made, -⟩ := strategy_step view (step_cases hstep)
  · exact .inl same
  · exact .inr ⟨b, _, rfl, made⟩

/-- The condition on a step of the program that is `Undisturbed` for one of its
strategies: a bar of the node is not delivered to the strategy in the middle of a call
that found none. -/
def Undisturbed (index : Nat) (κ : MaNode) (s : Trader) : TraderAction → Prop
  | .notify no =>
    ∀ call ∈ s.notifying no, ∀ attached ∈ s.stgContainer[index]?,
      call.handled = index → (CMdManager.convertDatanoToKtype no, call.bar.barName.chars) = κ →
        (attached.stg.node κ).missingBarRead = false
  | _ => True

instance (index : Nat) (κ : MaNode) (s : Trader) :
    (a : TraderAction) → Decidable (Undisturbed index κ s a)
  | .notify no =>
    inferInstanceAs (Decidable (∀ call ∈ s.notifying no, ∀ attached ∈ s.stgContainer[index]?,
      call.handled = index → (CMdManager.convertDatanoToKtype no, call.bar.barName.chars) = κ →
        (attached.stg.node κ).missingBarRead = false))
  | .main | .append _ | .distribute | .calculate _ | .thread _ | .decide _ => .isTrue trivial

/-- The strategy is then not disturbed in its own run either. -/
theorem simulates_undisturbed (tradeTime : Bool) (ins : List StdString) (index : Nat)
    (κ : MaNode) :
    Execution.SimulatesWhere (step tradeTime ins) (Execution.total CMAStrategy.next)
      (Undisturbed index κ) (CtpTrade.Undisturbed κ) (RunsStrategy index) := by
  refine Execution.simulatesWhere_of_step ?_
  intro s a s' stg view calm hstep
  obtain same | ⟨b, made, delivers⟩ := strategy_step view (step_cases hstep)
  · exact .inl same
  · refine .inr ⟨b, _, ?_, rfl, made⟩
    cases b with
    | decide => trivial
    | update period bar =>
        intro mine
        obtain ⟨no, call, called, calling, here, rfl, rfl⟩ := delivers period bar rfl
        obtain ⟨attached, there, rfl⟩ := Option.map_eq_some_iff.mp view
        subst called
        exact calm call calling attached there here mine

theorem run_undisturbed {configs : List StgConfig} {acts : List TraderAction}
    (h : run tradeTime ins configs acts = .ok s) {index : Nat} {κ : MaNode}
    (calm : Execution.Meets (step tradeTime ins) (Undisturbed index κ) (start configs) acts)
    {attached : AttachedStrategy} (there : s.stgContainer[index]? = some attached) :
    ∃ data acts', attached.stg = strategyRun data acts' ∧
      Execution.Meets (Execution.total CMAStrategy.next) (CtpTrade.Undisturbed κ)
        (CMAStrategy.initialMaStg data) acts' := by
  have inside : index < configs.length := by
    rw [← run_length h]
    exact (List.getElem?_eq_some_iff.mp there).1
  have start : RunsStrategy index (start configs)
      (AttachedStrategy.initialMaStg configs[index]).stg := by
    simp [RunsStrategy, Trader.start, inside]
  obtain ⟨acts', stg, meets, reached, related⟩ :=
    (simulates_undisturbed tradeTime ins index κ).run start calm h
  rw [Execution.run_total] at reached
  cases reached
  rw [RunsStrategy, there] at related
  exact ⟨_, acts', Option.some.inj related, meets⟩

/-- The strategy at an index is the one that has been attached there, in a reachable
state of its own. -/
theorem run_strategy {configs : List StgConfig} {acts : List TraderAction}
    (h : run tradeTime ins configs acts = .ok s) {index : Nat} {attached : AttachedStrategy}
    (there : s.stgContainer[index]? = some attached) :
    ∃ config acts', configs[index]? = some config ∧
      attached.stg = strategyRun (AttachedStrategy.initialMaStg config).stg.decisionData acts' := by
  have inside : index < configs.length := by
    rw [← run_length h]
    exact (List.getElem?_eq_some_iff.mp there).1
  have start : RunsStrategy index (start configs)
      (AttachedStrategy.initialMaStg configs[index]).stg := by
    simp [RunsStrategy, Trader.start, inside]
  obtain ⟨acts', stg, reached, related⟩ := (simulates_strategy tradeTime ins index).run start h
  rw [Execution.run_total] at reached
  cases reached
  refine ⟨configs[index], acts', List.getElem?_eq_getElem inside, ?_⟩
  rw [RunsStrategy, there] at related
  exact Option.some.inj related

end Trader

end CtpTrade
