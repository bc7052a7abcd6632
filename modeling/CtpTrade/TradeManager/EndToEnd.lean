import CtpTrade.MdBroadcast.TickBars
import CtpTrade.Strategy.SequentialOrders
import CtpTrade.TradeManager.Parts

/-!
# From ticks to orders

What the whole trader does, without its threads: the minute bars of a strategy are
bars of the tick stream, and its orders are those a sequential trader would place
on the bars of the whole stream. No schedule of the threads makes the trader see
a bar, or place an order, that the ticks do not account for.
-/

namespace CtpTrade

theorem AttachedStrategy.fresh_initialMaStg (config : StgConfig) :
    (initialMaStg config).base.Fresh := by
  have loaded : (({} : CStrategy).loadFocusedInst config.configFile config.configHead
      config.kType).2.Fresh := by
    simp only [CStrategy.loadFocusedInst]
    split
    · exact CStrategy.fresh_empty
    · split
      · exact CStrategy.fresh_empty
      · split_ifs
        · refine List.foldlRecOn _ _ CStrategy.fresh_empty ?_
          exact fun stg fresh name _ => fresh.constructDecisionData name config.kType
        · exact CStrategy.fresh_empty
  exact ⟨loaded.series, rfl⟩

namespace Trader

variable {tradeTime : Bool} {ins : List StdString} {s t : Trader}
variable {configs : List StgConfig} {acts : List TraderAction}
variable {index : Nat} {attached : AttachedStrategy}

/-- A strategy has no bar that is not in the store, and all of them once the call
for the period has ended. -/
theorem candle_received (h : run tradeTime ins configs acts = .ok s)
    (there : s.stgContainer[index]? = some attached) (no : DataNo) (name : StdString) :
    (attached.stg.candle (CMdManager.convertDatanoToKtype no, name)).candles <+:
        s.mdManager.composedBars no name ∧
      (s.notifying no = none →
        (attached.stg.decisionData.nestedFind?
          (CMdManager.convertDatanoToKtype no, name)).isSome →
        (attached.stg.candle (CMdManager.convertDatanoToKtype no, name)).candles =
          s.mdManager.composedBars no name) := by
  obtain ⟨config, calls, -, state, equal⟩ := run_received h there
  let pair : Int × StdString := (CMdManager.convertDatanoToKtype no, name)
  have store : callsFor pair calls ++ callsFor pair (s.trade.outstanding no index) =
      s.mdManager.composedBars no name := by
    have split : callsFor pair (ofPeriod pair.1 s.mdManager.manager.notified) =
        callsFor pair s.mdManager.manager.notified := callsFor_ofPeriod
    rw [run_storeIsLog h no name, ← split, ← equal no, callsFor_append, callsFor_ofPeriod]
  have series : attached.stg.decisionData.nestedFind? pair =
      ((AttachedStrategy.initialMaStg config).base.decisionData.nestedFind? pair).map fun kdata =>
        { kdata with candles := kdata.candles ++ callsFor pair calls } := by
    have : attached.stg.decisionData = attached.base.decisionData := rfl
    rw [this, state]
    exact CStrategy.receive_series calls
  change ((attached.stg.decisionData.nestedFind? pair).getD {}).candles <+: _ ∧ (_ →
    (attached.stg.decisionData.nestedFind? pair).isSome →
      ((attached.stg.decisionData.nestedFind? pair).getD {}).candles = _)
  rw [series, ← store]
  cases found : (AttachedStrategy.initialMaStg config).base.decisionData.nestedFind? pair with
  | none => simp
  | some kdata =>
      have empty : kdata.candles = [] :=
        (AttachedStrategy.fresh_initialMaStg config).series pair kdata found
      simp only [Option.map_some, Option.getD_some, empty, List.nil_append]
      refine ⟨List.prefix_append _ _, fun idle _ => ?_⟩
      have none : s.trade.outstanding no index = [] := by
        have idle' : s.trade.notifying no = none := idle
        rw [TradeSystem.outstanding, idle']
      rw [none, callsFor_nil, List.append_nil]

/-- The calls for the minute bars are those of the broadcast module: one for each push,
in the same order and with the same bar. -/
def PushesRecorded (s : Trader) : Prop :=
  ofPeriod minOne s.mdManager.manager.notified = s.pushed.map fun push => (minOne, push.bar)

theorem pushesRecorded_step (started : MdSystem.StartUp ins s.mdManager)
    (hs : s.PushesRecorded) {a : TraderAction}
    (h : Step tradeTime ins s a t) : t.PushesRecorded := by
  -- calls of the other threads are for other periods
  have others {md : MdSystem} (recorded : md.manager.notified = s.mdManager.manager.notified ∨
      ∃ no bar, no ≠ .one ∧ md.manager.notified =
        s.mdManager.manager.notified ++ [(CMdManager.convertDatanoToKtype no, bar)]) :
      ofPeriod minOne md.manager.notified = s.pushed.map fun push => (minOne, push.bar) := by
    obtain same | ⟨no, bar, other, same⟩ := recorded
    · rw [same]
      exact hs
    · have call := ofPeriod_call .one no bar
      rw [if_neg other.symm] at call
      have period : CMdManager.convertDatanoToKtype .one = minOne := rfl
      rw [period] at call
      rw [same, ofPeriod_append, call, List.append_nil]
      exact hs
  cases h with
  | idle => exact hs
  | main =>
      refine others ?_
      obtain same | ⟨no, bar, called, -⟩ := MdSystem.notified_next ins s.mdManager .main
      · exact .inl same
      · cases called
  | broadcast _ b p running stepped silent =>
      rw [PushesRecorded, setPipeline, silent]
      exact hs
  | push name p push running free stepped pushed =>
      have recorded : ((s.setPipeline p).mdManager.next ins
          (.pushMinOneData push.bar.barName.chars push.bar)).manager.notified =
          s.mdManager.manager.notified ++ [(minOne, push.bar)] := by
        have running' : (s.setPipeline p).mdManager.todo = [] := running
        simp only [MdSystem.next, running', ↓reduceIte]
        rfl
      rw [PushesRecorded, stepMd_mdManager, stepMd_pushed, recorded, ofPeriod_append, hs]
      change _ = List.map _ p.pushed
      rw [pushed, List.map_append]
      rfl
  | thread threadId =>
      rw [PushesRecorded, stepMd_mdManager, stepMd_pushed]
      refine others ?_
      by_cases one : threadId = .one
      · subst one
        refine .inl ?_
        simp only [MdSystem.next, CMdManager.calculateMdBaseFunction, started.idleOne]
      · obtain same | ⟨no, bar, called, recorded⟩ :=
          MdSystem.notified_next ins s.mdManager (.thread threadId)
        · exact .inl same
        · cases called
          exact .inr ⟨threadId, bar, one, recorded⟩
  | notify threadId =>
      rw [PushesRecorded, notifyDecisionData_mdManager, notifyDecisionData_pushed]
      exact hs
  | decide => exact hs

theorem pushesRecorded_run (h : run tradeTime ins configs acts = .ok s) : s.PushesRecorded := by
  have both : MdSystem.StartUp ins s.mdManager ∧ s.PushesRecorded := by
    refine Execution.run_invariant
      (fun s => MdSystem.StartUp ins s.mdManager ∧ s.PushesRecorded) ?_ ?_ h
    · rintro s a t ⟨started, recorded⟩ hstep
      exact ⟨startUp_step started (step_cases hstep),
        pushesRecorded_step started recorded (step_cases hstep)⟩
    · exact ⟨MdSystem.startUp_start ins, rfl⟩
  exact both.2

/-- The broadcast module runs, or has pushed nothing yet. -/
theorem pipeline_cases (h : run tradeTime ins configs acts = .ok s) :
    (∃ acts', Pipeline.run tradeTime ins acts' = .ok s.pipeline) ∨
      s.pipeline = { md := {} } := by
  obtain ⟨acts', p, reached, -, view⟩ := run_pipeline h
  split_ifs at view
  · exact .inl ⟨acts', by rw [view, reached]⟩
  · exact .inr view.1

/-- The minute bars in the store are those the broadcast module has pushed. -/
theorem minuteBars_pushed (h : run tradeTime ins configs acts = .ok s) (name : StdString) :
    s.mdManager.composedBars .one name = (s.pipeline.pushedOf name).map MinutePush.bar := by
  have named : ∀ q ∈ s.pushed, q.ins = q.bar.barName.chars := by
    obtain ⟨acts', reached⟩ | waiting := pipeline_cases h
    · exact Pipeline.pushed_named reached
    · have none : s.pushed = [] := congrArg Pipeline.pushed waiting
      simp [none]
  have one : CMdManager.convertDatanoToKtype .one = minOne := rfl
  rw [run_storeIsLog h .one name, one, ← callsFor_ofPeriod, pushesRecorded_run h, callsFor,
    Pipeline.pushedOf, List.filter_map, List.map_map]
  refine congrArg _ (List.filter_congr ?_)
  intro q hq
  simp [named q hq]

/-- They are a prefix of the bars of all ticks that have arrived. -/
theorem minuteBars_leading (h : run tradeTime ins configs acts = .ok s) {name : StdString}
    (opened : AlwaysOpen tradeTime (ticksOf name s.appended)) :
    s.mdManager.composedBars .one name <+: tickBars (ticksOf name s.appended) := by
  rw [minuteBars_pushed h]
  obtain ⟨acts', reached⟩ | waiting := pipeline_cases h
  · exact Pipeline.bars_leading reached opened
  · rw [waiting]
    exact List.nil_prefix

end Trader

open Trader

/-- In every run of the whole trader in which the market is open at the ticks of the
instrument, the minute bars of a strategy are, in order, the leading minute bars of the
tick stream of the instrument. When no minute bar is being delivered, they are all the
bars that have been pushed, and the ticks that have not become bars yet are the newest
ones: in the buffer, or still queued. -/
theorem strategy_bars_follow_ticks {tradeTime : Bool} {ins : List StdString}
    {configs : List StgConfig} {acts : List TraderAction} {s : Trader}
    (h : Trader.run tradeTime ins configs acts = .ok s)
    {index : Nat} {attached : AttachedStrategy}
    (there : s.stgContainer[index]? = some attached) {name : StdString}
    (opened : AlwaysOpen tradeTime (ticksOf name s.appended)) :
    (attached.stg.candle (minOne, name)).candles <+: tickBars (ticksOf name s.appended) ∧
      (s.notifying .one = none →
        (attached.stg.decisionData.nestedFind? (minOne, name)).isSome →
        ∃ groups : List (List MtkData),
          groups.map minuteBar = (attached.stg.candle (minOne, name)).candles.map some ∧
          groups.flatten ++ s.pipeline.buffer name = accepted (ticksOf name s.distributed) ∧
          s.appended = s.distributed ++ s.pipeline.md.subTicks) := by
  obtain ⟨received, all⟩ := candle_received h there .one name
  refine ⟨received.trans (minuteBars_leading h opened), fun idle registered => ?_⟩
  have bars : (attached.stg.candle (minOne, name)).candles =
      (s.pipeline.pushedOf name).map MinutePush.bar :=
    (all idle registered).trans (minuteBars_pushed h name)
  rw [bars]
  obtain ⟨acts', reached⟩ | waiting := pipeline_cases h
  · have conserved := Pipeline.conserved_run name reached opened
    refine ⟨s.pipeline.groupsOf name, ?_, conserved.stream, (Pipeline.sound_run reached).queue⟩
    rw [Pipeline.groupsOf, List.map_map, List.map_map]
    exact List.map_congr_left fun q hq => (conserved.bars q hq).minuteBar
  · have distributed : s.distributed = [] := congrArg Pipeline.distributed waiting
    have appended : s.appended = [] := congrArg Pipeline.appended waiting
    rw [waiting, distributed, appended]
    exact ⟨[], rfl, rfl, rfl⟩

/-- In every run of the whole trader in which the market is open at the ticks of the
instrument, the orders of a strategy on its minute bars are a subsequence of those that
a sequential trader places on the minute bars of the tick stream. No schedule makes the
program order what the ticks do not call for. -/
theorem orders_follow_ticks {tradeTime : Bool} {ins : List StdString}
    {configs : List StgConfig} {acts : List TraderAction} {s : Trader}
    (h : Trader.run tradeTime ins configs acts = .ok s)
    {index : Nat} {attached : AttachedStrategy}
    (there : s.stgContainer[index]? = some attached) {name : StdString}
    (opened : AlwaysOpen tradeTime (ticksOf name s.appended)) :
    (attached.stg.ordersOf (minOne, name)).Sublist
      (sequentialOrders name { candles := tickBars (ticksOf name s.appended) }) := by
  obtain ⟨config, acts', -, own⟩ := run_strategy h there
  have answered : Answered name (attached.stg.node (minOne, name)) := by
    rw [own]
    exact strategy_answered _ acts' (minOne, name)
  refine answered.sublist ?_
  exact (candle_received h there .one name).1.trans (minuteBars_leading h opened)

/-- Once the ticks have been worked off and the strategy idles, its orders are a function
of the tick stream: those of a sequential trader on the bars of the settled minutes. The
run must not deliver a bar of the instrument to the strategy in the middle of a call that
found none, and the market must be open at the ticks of the instrument. -/
theorem orders_determined_by_ticks {tradeTime : Bool} {ins : List StdString}
    {configs : List StgConfig} {acts : List TraderAction} {s : Trader}
    (h : Trader.run tradeTime ins configs acts = .ok s)
    {index : Nat} {attached : AttachedStrategy}
    (there : s.stgContainer[index]? = some attached) {name : StdString}
    (registered : (attached.stg.decisionData.nestedFind? (minOne, name)).isSome)
    (opened : AlwaysOpen tradeTime (ticksOf name s.appended))
    (calm : Execution.Meets (Trader.step tradeTime ins) (Trader.Undisturbed index (minOne, name))
      (Trader.start configs) acts)
    (drained : s.pipeline.md.subTicks = []) (quiet : s.pipeline.Quiescent name)
    (delivered : s.notifying .one = none) (idle : (attached.stg.node (minOne, name)).Idle) :
    attached.stg.ordersOf (minOne, name) =
      sequentialOrders name { candles := settledBars (ticksOf name s.appended) } := by
  obtain ⟨data, acts', own, meets⟩ := run_undisturbed h calm there
  have bars : (attached.stg.candle (minOne, name)).candles =
      (s.pipeline.pushedOf name).map MinutePush.bar :=
    ((candle_received h there .one name).2 delivered registered).trans (minuteBars_pushed h name)
  have settled : (s.pipeline.pushedOf name).map MinutePush.bar =
      settledBars (ticksOf name s.appended) := by
    obtain ⟨acts'', reached⟩ | waiting := pipeline_cases h
    · exact Pipeline.bars_settled reached opened drained quiet
    · rw [waiting] at quiet
      cases quiet
  rw [own] at idle
  have orders := undisturbed_orders meets idle
  rw [← own] at orders
  rw [orders]
  exact sequentialOrders_congr (bars.trans settled)

/-- The ticks of a sample run: five minutes with one tick each and a sixth with 61, so that
five bars are pushed. The last of them is a gold fork. -/
def forkTick (k : Nat) : MtkData where
  instrumentID := sampleName
  lastPrice := [0, 10, 1, 1].getD k 5
  volume := Int32.ofNat (k + 1)
  updateTime := [⟨"10:30:00".toList, by decide⟩, ⟨"10:31:00".toList, by decide⟩,
    ⟨"10:32:00".toList, by decide⟩, ⟨"10:33:00".toList, by decide⟩,
    ⟨"10:34:00".toList, by decide⟩].getD k ⟨"10:35:00".toList, by decide⟩

def forkConfig : StgConfig where
  configFile := some ["MA_STG = rb1610".toList]
  configHead := "MA_STG".toList
  kType := 1

def forkActs : List TraderAction :=
  List.replicate 11 .main ++ (List.range 66).map (fun k => .append (forkTick k)) ++
    List.replicate 66 .distribute ++
    (List.replicate 5 [.calculate sampleName.chars, .notify .one, .notify .one]).flatten ++
    List.replicate 39 (.decide 0)

def forkOrder : RaisedOrder := ⟨4, sampleName.chars, directionBuy, offsetOpen, 5, 1⟩

/-- The sample run in the trading build ends with everything worked off and one order. -/
theorem fork_run : ∃ s, Trader.run true [sampleName.chars] [forkConfig] forkActs = .ok s ∧
    AlwaysOpen true (ticksOf sampleName.chars s.appended) ∧
    s.pipeline.md.subTicks = [] ∧ s.pipeline.Quiescent sampleName.chars ∧
    (s.notifying .one).isNone ∧ ∃ attached : AttachedStrategy, attached ∈ s.stgContainer[0]? ∧
      (attached.stg.decisionData.nestedFind? (minOne, sampleName.chars)).isSome ∧
      (attached.stg.candle (minOne, sampleName.chars)).candles.length = 5 ∧
      (attached.stg.node (minOne, sampleName.chars)).Idle ∧
      attached.stg.ordersOf (minOne, sampleName.chars) = [forkOrder] :=
  Execution.exists_of_check (by decide +kernel)

theorem strategy_bars_follow_ticks_fork :
    ∃ (s : Trader) (attached : AttachedStrategy),
      Trader.run true [sampleName.chars] [forkConfig] forkActs = .ok s ∧
      s.stgContainer[0]? = some attached ∧
      (attached.stg.candle (minOne, sampleName.chars)).candles.length = 5 ∧
      (attached.stg.candle (minOne, sampleName.chars)).candles <+:
        tickBars (ticksOf sampleName.chars s.appended) := by
  obtain ⟨s, hrun, opened, -, -, -, attached, there, -, five, -⟩ := fork_run
  exact ⟨s, attached, hrun, there, five, (strategy_bars_follow_ticks hrun there opened).1⟩

theorem orders_follow_ticks_fork :
    ∃ s, Trader.run true [sampleName.chars] [forkConfig] forkActs = .ok s ∧
      [forkOrder].Sublist (sequentialOrders sampleName.chars
        { candles := tickBars (ticksOf sampleName.chars s.appended) }) := by
  obtain ⟨s, hrun, opened, -, -, -, attached, there, -, -, -, one⟩ := fork_run
  exact ⟨s, hrun, one ▸ orders_follow_ticks hrun there opened⟩

theorem orders_determined_by_ticks_fork :
    ∃ s, Trader.run true [sampleName.chars] [forkConfig] forkActs = .ok s ∧
      sequentialOrders sampleName.chars
        { candles := settledBars (ticksOf sampleName.chars s.appended) } = [forkOrder] := by
  obtain ⟨s, hrun, opened, drained, quiet, delivered, attached, there, registered, -, idle, one⟩ :=
    fork_run
  have calm : Execution.Meets (Trader.step true [sampleName.chars])
      (Trader.Undisturbed 0 (minOne, sampleName.chars)) (Trader.start [forkConfig]) forkActs := by
    decide +kernel
  exact ⟨s, hrun, one ▸
    (orders_determined_by_ticks hrun there registered opened calm drained quiet
      (Option.isNone_iff_eq_none.mp delivered) idle).symm⟩

end CtpTrade
