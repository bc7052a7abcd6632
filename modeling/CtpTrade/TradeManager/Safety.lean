import CtpTrade.MdBroadcast.Safety
import CtpTrade.MdManager.Origin
import CtpTrade.TradeManager.EndToEnd

/-!
# What never happens to the trader

In both builds, with any instruments and strategies: a well-ordered feed never
stops the trader, and no strategy sees, or orders at, a price that no tick of the
instrument has had.
-/

namespace CtpTrade

namespace Trader

variable {tradeTime : Bool} {ins : List StdString} {s t : Trader}
variable {configs : List StgConfig} {acts : List TraderAction}
variable {index : Nat} {attached : AttachedStrategy}

/-- The ticks a schedule feeds in, in order. -/
def appendedBy (acts : List TraderAction) : List MtkData :=
  acts.filterMap fun
    | .append tick => some tick
    | _ => none

theorem appendedBy_concat (acts : List TraderAction) (a : TraderAction) :
    appendedBy (acts ++ [a]) = appendedBy acts ++ appendedBy [a] := by
  simp [appendedBy]

theorem appended_stepMd (threadId : DataNo) (md : MdSystem) :
    (s.stepMd threadId md).appended = s.appended :=
  congrArg Pipeline.appended (s.stepMd_pipeline threadId md)

theorem appended_notifyDecisionData (threadId : DataNo) :
    (s.notifyDecisionData threadId).appended = s.appended :=
  congrArg Pipeline.appended (s.notifyDecisionData_pipeline threadId)

/-- Only the feed brings ticks. -/
theorem appended_step {a : TraderAction} (h : Step tradeTime ins s a t) :
    t.appended = s.appended ∨ ∃ tick, a = .append tick ∧ t.appended = s.appended ++ [tick] := by
  cases h with
  | idle => exact .inl rfl
  | main => exact .inl rfl
  | broadcast _ b p running stepped silent fed =>
      cases b with
      | append tick =>
          cases stepped
          exact .inr ⟨tick, fed tick rfl, rfl⟩
      | distribute =>
          refine .inl ?_
          obtain ⟨-, rfl⟩ | ⟨tick, rest, -, rfl⟩ := Pipeline.step_distribute stepped
          · rfl
          · rfl
      | calculate name =>
          refine .inl ?_
          obtain ⟨md, push, -, rfl⟩ := Pipeline.step_calculate stepped
          rfl
  | push name p push running free stepped =>
      refine .inl ((appended_stepMd _ _).trans ?_)
      obtain ⟨md, push, -, rfl⟩ := Pipeline.step_calculate stepped
      rfl
  | thread threadId => exact .inl (appended_stepMd _ _)
  | notify threadId => exact .inl (appended_notifyDecisionData threadId)
  | decide => exact .inl rfl

/-- Ticks that come before the start-up is over are lost. -/
theorem appended_sublist (h : run tradeTime ins configs acts = .ok s) :
    s.appended.Sublist (appendedBy acts) := by
  induction acts using List.reverseRecOn generalizing s with
  | nil =>
      cases h
      exact List.nil_sublist _
  | append_singleton acts a ih =>
      obtain ⟨m, before, hstep⟩ := Execution.run_concat_ok h
      rw [appendedBy_concat]
      obtain same | ⟨tick, rfl, added⟩ := appended_step (step_cases hstep)
      · rw [same]
        exact (ih before).trans (List.sublist_append_left _ _)
      · rw [added]
        exact (ih before).append (List.Sublist.refl [tick])

/-- A step faults only where the broadcast module does. -/
theorem step_ok {a : TraderAction} (broadcasts : ∀ b, s.mdManager.todo = [] →
      (∀ name, b = .calculate name → a = .calculate name) →
      ∃ p, Pipeline.step tradeTime s.pipeline b = .ok p) :
    ∃ t, step tradeTime ins s a = .ok t := by
  have made (b : PipelineAction) (same : ∀ name, b = .calculate name → a = .calculate name) :
      ∃ t, s.broadcast tradeTime b = .ok t := by
    simp only [Trader.broadcast]
    split_ifs with running
    · obtain ⟨p, hp⟩ := broadcasts b running same
      exact ⟨_, by rw [hp]⟩
    · exact ⟨s, rfl⟩
  cases a with
  | append tick => exact made (.append tick) (by simp)
  | distribute =>
      simp only [step]
      split_ifs
      · exact ⟨s, rfl⟩
      · exact made .distribute (by simp)
  | calculate name =>
      simp only [step]
      cases s.notifying .one with
      | some call => exact ⟨s, rfl⟩
      | none =>
          obtain ⟨t, ht⟩ := made (.calculate name) (by simp)
          simp only [calculateMinBar, ht]
          split
          · exact ⟨_, rfl⟩
          · exact ⟨t, rfl⟩
  | main => exact ⟨_, rfl⟩
  | thread threadId =>
      simp only [step]
      cases s.notifying threadId with
      | some call => exact ⟨s, rfl⟩
      | none => exact ⟨_, rfl⟩
  | notify threadId => exact ⟨_, rfl⟩
  | decide index =>
      simp only [step]
      cases s.stgContainer[index]? with
      | none => exact ⟨s, rfl⟩
      | some attached => exact ⟨_, rfl⟩

/-- On a well-ordered feed of subscribed instruments the next step is possible. -/
theorem step_ok_of_run (h : run tradeTime ins configs acts = .ok s) {a : TraderAction}
    (ordered : ∀ name ∈ ins, Ordered (ticksOf name s.appended))
    (subscribed : ∀ tick ∈ s.appended, tick.instrumentID.chars ∈ ins)
    (calculated : ∀ name, a = .calculate name → name ∈ ins) :
    ∃ t, step tradeTime ins s a = .ok t := by
  refine step_ok fun b running same => ?_
  obtain ⟨acts', p, reached, -, view⟩ := run_pipeline h
  obtain rfl : s.pipeline = p := by rwa [if_pos running] at view
  exact Pipeline.step_ok reached ordered subscribed fun name called =>
    calculated name (same name called)

/-- Every bar of a strategy has been delivered by the thread of its period, so the
period is one of the five. -/
def PeriodsServed (s : Trader) : Prop :=
  ∀ attached ∈ s.stgContainer, ∀ κ, ∀ bar ∈ (attached.stg.candle κ).candles,
    ∃ no, κ.1 = CMdManager.convertDatanoToKtype no

theorem mem_candle_update {period : Int} {new bar : CandleBar} {κ : MaNode}
    (h : bar ∈ ((attached.update period new).stg.candle κ).candles) :
    bar ∈ (attached.stg.candle κ).candles ∨ κ = (period, new.barName.chars) := by
  have series : (attached.update period new).stg.decisionData.nestedFind? κ =
      (attached.stg.decisionData.nestedFind? κ).map fun kdata =>
        { kdata with candles := kdata.candles ++ callsFor κ [(period, new)] } := by
    have data : (attached.update period new).stg.decisionData =
        (attached.base.update period new).decisionData :=
      congrArg CStrategy.decisionData (attached.base_update period new)
    rw [data]
    exact CStrategy.update_series period new
  simp only [CMAStrategy.candle, series] at h ⊢
  cases found : attached.stg.decisionData.nestedFind? κ with
  | none => simp [found] at h
  | some kdata =>
      simp only [found, Option.map_some, Option.getD_some, callsFor_singleton,
        List.mem_append] at h
      obtain old | new := h
      · exact .inl old
      · split_ifs at new with same
        · exact .inr same.symm
        · cases new

theorem periodsServed_step (hs : s.PeriodsServed) {a : TraderAction}
    (h : Step tradeTime ins s a t) : t.PeriodsServed := by
  cases h with
  | idle => exact hs
  | main => exact hs
  | broadcast => exact hs
  | push =>
      rw [PeriodsServed, stepMd_stgContainer]
      exact hs
  | thread =>
      rw [PeriodsServed, stepMd_stgContainer]
      exact hs
  | notify threadId =>
      simp only [notifyDecisionData]
      split
      · next call calling =>
          split
          · next attached there =>
              intro other mem κ bar hbar
              obtain old | rfl := List.mem_or_eq_of_mem_set mem
              · exact hs other old κ bar hbar
              · obtain before | rfl := mem_candle_update hbar
                · exact hs attached (List.mem_of_getElem? there) κ bar before
                · exact ⟨threadId, rfl⟩
          · exact hs
      · exact hs
  | decide index attached there =>
      intro other mem κ bar hbar
      obtain old | rfl := List.mem_or_eq_of_mem_set mem
      · exact hs other old κ bar hbar
      · refine hs attached (List.mem_of_getElem? there) κ bar ?_
        have data : attached.strategicDecisionFunction.stg.decisionData =
            attached.stg.decisionData :=
          congrArg CStrategy.decisionData attached.base_strategicDecisionFunction
        rwa [CMAStrategy.candle, data] at hbar

theorem periodsServed_run (h : run tradeTime ins configs acts = .ok s) : s.PeriodsServed := by
  refine Execution.run_invariant PeriodsServed
    (fun _ _ _ hs hstep => periodsServed_step hs (step_cases hstep)) ?_ h
  intro attached mem κ bar hbar
  obtain ⟨config, -, rfl⟩ := List.mem_map.mp mem
  have fresh := AttachedStrategy.fresh_initialMaStg config
  rw [CMAStrategy.candle] at hbar
  cases found : (AttachedStrategy.initialMaStg config).stg.decisionData.nestedFind? κ with
  | none => simp [found] at hbar
  | some kdata =>
      have empty : kdata.candles = [] := fresh.series κ kdata found
      simp [found, empty] at hbar

/-- The bars in the store have the prices of ticks. -/
theorem composedBars_prices (h : run tradeTime ins configs acts = .ok s) (no : DataNo)
    (name : StdString) :
    ∀ bar ∈ s.mdManager.composedBars no name, PricesFrom (ticksOf name s.appended) bar := by
  have minutes : ∀ bar ∈ s.mdManager.composedBars .one name,
      PricesFrom (ticksOf name s.appended) bar := by
    rw [minuteBars_pushed h]
    intro bar mem
    obtain ⟨push, hpush, rfl⟩ := List.mem_map.mp mem
    obtain ⟨acts', reached⟩ | waiting := pipeline_cases h
    · exact Pipeline.pushed_prices reached name push hpush
    · rw [waiting] at hpush
      cases hpush
  obtain ⟨mdActs, md, -, same⟩ := run_mdManager h
  intro bar mem price hprice
  rw [same] at mem minutes
  obtain ⟨minute, hminute, its⟩ :=
    MdSystem.composedBars_prices ins mdActs no name bar mem price hprice
  exact minutes minute hminute price its

/-- So do those of the strategies. -/
theorem candle_prices (h : run tradeTime ins configs acts = .ok s)
    (there : s.stgContainer[index]? = some attached) (κ : MaNode) :
    ∀ bar ∈ (attached.stg.candle κ).candles, PricesFrom (ticksOf κ.2 s.appended) bar := by
  obtain ⟨period, name⟩ := κ
  intro bar mem
  obtain ⟨no, rfl⟩ := periodsServed_run h attached (List.mem_of_getElem? there) _ bar mem
  exact composedBars_prices h no name bar ((candle_received h there no name).1.subset mem)

/-- With any instruments and at every period an order is a limit order for one lot that
opens a position at a price that a tick of the instrument has had. -/
theorem order_at_tick_price (h : run tradeTime ins configs acts = .ok s)
    (there : s.stgContainer[index]? = some attached) {κ : MaNode} {raised : RaisedOrder}
    (mem : raised ∈ attached.stg.ordersOf κ) :
    ∃ direction, ∃ tick ∈ ticksOf κ.2 s.appended,
      (direction = directionBuy ∨ direction = directionSell) ∧
      raised.order = ⟨κ.2, direction, offsetOpen, tick.lastPrice, 1⟩ := by
  obtain ⟨config, acts', -, own⟩ := run_strategy h there
  have answered : Answered κ.2 (attached.stg.node κ) := by
    rw [own]
    exact strategy_answered _ acts' κ
  obtain ⟨idx, -, -, inside, found⟩ := answered.orderAt raised mem
  obtain ⟨direction, either, order⟩ := orderAt_order found
  obtain ⟨bar, hbar⟩ : ∃ bar, (attached.stg.candle κ).candles[idx]? = some bar :=
    ⟨_, List.getElem?_eq_getElem inside⟩
  obtain ⟨tick, htick, price⟩ := candle_prices h there κ bar (List.mem_of_getElem? hbar)
    bar.closePrice (by simp [CandleBar.prices])
  refine ⟨direction, tick, htick, either, ?_⟩
  have close : (attached.stg.candle κ).getPrice idx .closePrice = tick.lastPrice := by
    rw [CCandleBar.getPrice, hbar, price]
  rw [order, ← close]
  rfl

end Trader

open Trader

/-- In both builds no schedule of the whole trader faults on a well-ordered feed of
subscribed instruments, whatever the strategies do. The calculation thread is only asked
for subscribed instruments, as the source does. -/
theorem trader_never_faults (tradeTime : Bool) {ins : List StdString} {configs : List StgConfig}
    {acts : List TraderAction}
    (feed : ∀ name ∈ ins, WellOrdered (ticksOf name (Trader.appendedBy acts)))
    (subscribed : ∀ tick ∈ Trader.appendedBy acts, tick.instrumentID.chars ∈ ins)
    (calculated : ∀ name, .calculate name ∈ acts → name ∈ ins) :
    ∃ s, Trader.run tradeTime ins configs acts = .ok s := by
  induction acts using List.reverseRecOn with
  | nil => exact ⟨_, rfl⟩
  | append_singleton acts a ih =>
      have before (name : StdString) : (ticksOf name (appendedBy acts)).Sublist
          (ticksOf name (appendedBy (acts ++ [a]))) := by
        rw [appendedBy_concat, ticksOf_append]
        exact List.sublist_append_left _ _
      have named : ∀ tick ∈ appendedBy acts, tick.instrumentID.chars ∈ ins :=
        fun tick ht => subscribed tick (by simp [appendedBy_concat, ht])
      obtain ⟨s, hrun⟩ := ih (fun name hname => (feed name hname).sublist (before name)) named
        (fun name hname => calculated name (by simp [hname]))
      have fed := appended_sublist hrun
      have fedOf (name : StdString) :
          (ticksOf name s.appended).Sublist (ticksOf name (appendedBy (acts ++ [a]))) :=
        (fed.filter _).trans (before name)
      obtain ⟨t, hstep⟩ := step_ok_of_run hrun (a := a)
        (fun name hname => (feed name hname).ordered.sublist (fedOf name))
        (fun tick ht => named tick (fed.subset ht))
        (fun name called => calculated name (by simp [called]))
      refine ⟨t, ?_⟩
      rw [Trader.run, Execution.run_append_ok hrun, Execution.run_cons_ok hstep]
      rfl

/-- The last tick of the morning session and the first one after it, in the whole trader. -/
def lunchTrade : List TraderAction :=
  List.replicate 11 .main ++
    [.append (sampleQuote 10 ⟨"11:29:58".toList, by decide⟩), .distribute, .thread .five,
      .append (sampleQuote 10 ⟨"11:30:02".toList, by decide⟩), .calculate sampleName.chars,
      .distribute, .calculate sampleName.chars, .notify .one, .decide 0]

theorem lunchTrade_wellOrdered (name : StdString) (hname : name ∈ [sampleName.chars]) :
    WellOrdered (ticksOf name (appendedBy lunchTrade)) := by
  obtain rfl := List.mem_singleton.mp hname
  apply WellOrdered.of_number_le
  · intro t ht
    have ht : t ∈ appendedBy lunchTrade := List.mem_of_mem_filter ht
    simp only [lunchTrade, appendedBy, List.filterMap_append, List.filterMap_replicate_of_none,
      List.nil_append, List.filterMap_cons, List.filterMap_nil, List.mem_cons,
      List.not_mem_nil, or_false] at ht
    obtain rfl | rfl := ht
    · exact ⟨⟨11, 29, 58⟩, rfl⟩
    · exact ⟨⟨11, 30, 2⟩, rfl⟩
  · decide
  · decide

theorem trader_never_faults_lunch :
    ∃ s, Trader.run true [sampleName.chars] [forkConfig] lunchTrade = .ok s := by
  apply trader_never_faults
  · exact lunchTrade_wellOrdered
  · decide
  · simp [lunchTrade]

end CtpTrade
