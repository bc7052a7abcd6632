import CtpTrade.Strategy.OrderSafety
import CtpTrade.Strategy.Evaluation
import Mathlib.Data.List.Sort

/-!
# The orders of a sequential trader

A trader that reads a finished series from left to right orders at every fork, at
the close of the bar of the fork. The indicator thread works on a series that
grows under its hands; `Answered` says that it raises exactly one order for each
fork among its evaluations. Its orders are therefore a subsequence of those of
the sequential trader, and all of them where no evaluation is lost.
-/

namespace CtpTrade

open CMovingAverage CandleCall

/-- The order for the fork of a bar, at the close of that bar, or none where the bar has
no fork. -/
def orderAt (inst : StdString) (kdata : CCandleBar) (idx : Nat) : Option RaisedOrder :=
  (evaluateFork kdata idx).bind fun action =>
    (triggerSignalAction inst action.1 action.2 (kdata.getSafePrice idx .closePrice)).map
      (RaisedOrder.mk idx)

/-- The orders of a trader that has the whole series before it starts: one for the fork
of each bar, from the largest period on. -/
def sequentialOrders (inst : StdString) (kdata : CCandleBar) : List RaisedOrder :=
  (List.range' firstIndex (kdata.candles.length - firstIndex)).filterMap (orderAt inst kdata)

/-- What an evaluation leads to, on the bars that are there. -/
def orderOf (inst : StdString) (kdata : CCandleBar) (e : Evaluation) : Option RaisedOrder :=
  (triggerSignalAction inst e.signal e.reason
    (kdata.getSafePrice e.dateIndex.toNat .closePrice)).map (RaisedOrder.mk e.dateIndex)

/-- The evaluation is no fork, or it is the fork of a bar that is there, so that the
price of its order can be read. -/
def EvaluationSound (kdata : CCandleBar) (e : Evaluation) : Prop :=
  TrendReason e.reason ∨ ∃ idx : Nat, e.dateIndex = idx ∧ firstIndex ≤ idx ∧
    idx < kdata.candles.length ∧ evaluateFork kdata idx = some (e.signal, e.reason)

/-- The invariant behind the list of orders: every evaluation has been answered by its
order, if it is a fork, up to the last one while its price is being asked for. -/
structure Answered (inst : StdString) (n : Node) : Prop where
  safe : OrdersSafe inst n
  sound : ∀ e ∈ n.evaluations, EvaluationSound n.kdata e
  orders : match n.visit with
    | some (.pricing dateIndex action _) =>
      ∃ before, n.evaluations = before ++ [⟨dateIndex, action.1, action.2⟩] ∧
        n.orders = before.filterMap (orderOf inst n.kdata)
    | _ => n.orders = n.evaluations.filterMap (orderOf inst n.kdata)

section Lemmas

variable {inst : StdString} {c d : CCandleBar} {e : Evaluation} {idx : Nat}

theorem triggerSignalAction_of_trend {signal reason : Int} (trend : TrendReason reason)
    (inst : StdString) (price : ℚ) : triggerSignalAction inst signal reason price = none := by
  have noGold : reason ≠ techReasonGoldfork := by
    rintro rfl
    exact absurd trend (by decide)
  have noDead : reason ≠ techReasonDeadfork := by
    rintro rfl
    exact absurd trend (by decide)
  simp only [triggerSignalAction, noGold, noDead, ↓reduceIte, ite_self]

theorem triggerSignalAction_of_silent {reason : Int} (inst : StdString) (price : ℚ) :
    triggerSignalAction inst techSignalNothing reason price = none := rfl

theorem orderOf_of_trend (trend : TrendReason e.reason) : orderOf inst c e = none := by
  rw [orderOf, triggerSignalAction_of_trend trend, Option.map_none]

theorem orderOf_of_fork (index : e.dateIndex = idx)
    (fork : evaluateFork c idx = some (e.signal, e.reason)) :
    orderOf inst c e = orderAt inst c idx := by
  rw [orderOf, orderAt, fork, index]
  rfl

theorem EvaluationSound.later (h : EvaluationSound c e) (grow : c ≤ d) : EvaluationSound d e := by
  obtain trend | ⟨idx, index, first, inside, fork⟩ := h
  · exact .inl trend
  · have longer := CCandleBar.length_mono grow
    exact .inr ⟨idx, index, first, by omega, by rw [evaluateFork_mono inside grow, fork]⟩

/-- Later bars do not change what a sound evaluation leads to. -/
theorem orderOf_mono (sound : EvaluationSound c e) (grow : c ≤ d) :
    orderOf inst d e = orderOf inst c e := by
  obtain trend | ⟨idx, index, first, inside, fork⟩ := sound
  · rw [orderOf_of_trend trend, orderOf_of_trend trend]
  · have same : d.getPrice idx .closePrice = c.getPrice idx .closePrice :=
      CCandleBar.getPrice_mono grow inside
    simp only [orderOf, index, Int.toNat_natCast, CCandleBar.getSafePrice, same]

theorem filterMap_orderOf_mono {evaluations : List Evaluation}
    (sound : ∀ e ∈ evaluations, EvaluationSound c e) (grow : c ≤ d) :
    evaluations.filterMap (orderOf inst d) = evaluations.filterMap (orderOf inst c) :=
  List.filterMap_congr fun e he => orderOf_mono (sound e he) grow

/-- A fork of a bar is silent, a gold fork or a dead fork. -/
theorem evaluateFork_outcome (c : CCandleBar) (idx : Nat) :
    ∃ action, evaluateFork c idx = some action ∧ (action = silent ∨ IsFork action) := by
  obtain ⟨action, result, outcome⟩ := (forkAt_inside idx).eval c
  exact ⟨action, by rw [evaluateFork, result]; rfl, outcome⟩

theorem orderAt_mono (inside : idx < c.candles.length) (grow : c ≤ d) :
    orderAt inst d idx = orderAt inst c idx := by
  have same : d.getPrice idx .closePrice = c.getPrice idx .closePrice :=
    CCandleBar.getPrice_mono grow inside
  simp only [orderAt, evaluateFork_mono inside grow, CCandleBar.getSafePrice, same]

/-- The type of the series plays no part. -/
theorem sequentialOrders_congr (same : c.candles = d.candles) :
    sequentialOrders inst c = sequentialOrders inst d := by
  have grow : d ≤ c := by
    change d.candles <+: c.candles
    simp [same]
  rw [sequentialOrders, sequentialOrders, same]
  refine List.filterMap_congr fun idx mem => ?_
  have inside : idx < d.candles.length := by
    have := List.mem_range'_1.mp mem
    omega
  exact orderAt_mono inside grow

/-- An order at an index carries the index. -/
theorem orderAt_dateIndex {raised : RaisedOrder} (h : orderAt inst c idx = some raised) :
    raised.dateIndex = idx := by
  obtain ⟨action, -, h⟩ := Option.bind_eq_some_iff.mp h
  obtain ⟨order, -, rfl⟩ := Option.map_eq_some_iff.mp h
  rfl

/-- It opens a position of one lot at the close of the bar. -/
theorem orderAt_order {raised : RaisedOrder} (h : orderAt inst c idx = some raised) :
    ∃ direction, (direction = directionBuy ∨ direction = directionSell) ∧
      raised.order = ⟨inst, direction, offsetOpen, c.getPrice idx .closePrice, 1⟩ := by
  obtain ⟨action, -, h⟩ := Option.bind_eq_some_iff.mp h
  obtain ⟨order, trigger, rfl⟩ := Option.map_eq_some_iff.mp h
  simp only [triggerSignalAction] at trigger
  split_ifs at trigger
  · cases trigger
    exact ⟨directionBuy, .inl rfl, rfl⟩
  · cases trigger
    exact ⟨directionSell, .inr rfl, rfl⟩

end Lemmas

section Steps

variable {inst : StdString} {n : Node}

theorem Answered.pushBar (h : Answered inst n) (bar : CandleBar) :
    Answered inst { n with kdata := n.kdata.pushBar bar } := by
  have grow := CCandleBar.le_pushBar n.kdata bar
  refine ⟨h.safe.pushBar bar, fun e he => (h.sound e he).later grow, ?_⟩
  obtain ⟨kdata, ma, visit, evaluations, orders⟩ := n
  have before := h.orders
  have sound : ∀ e ∈ evaluations, EvaluationSound kdata e := h.sound
  have grown : orders = evaluations.filterMap (orderOf inst kdata) →
      orders = evaluations.filterMap (orderOf inst (kdata.pushBar bar)) :=
    fun same => same.trans (filterMap_orderOf_mono sound grow).symm
  cases visit with
  | none => exact grown before
  | some visit =>
      cases visit with
      | checking body => exact grown before
      | signalling dateIndex started body => exact grown before
      | pricing dateIndex action body =>
          obtain ⟨answered, split, same⟩ := before
          refine ⟨answered, split, same.trans (filterMap_orderOf_mono ?_ grow).symm⟩
          intro e he
          have split' : evaluations = answered ++ [⟨dateIndex, action.1, action.2⟩] := split
          exact sound e (by simp [split', he])

theorem Answered.checking {body : Resumption CMovingAverage CandleCall Answer Bool}
    (h : Answered inst n) (visiting : n.visit = some (.checking body)) :
    Answered inst (n.decide inst (.checking body)) := by
  have keeps : body.Keeps answer (Behind n.orders)
      (fun m ready d => Behind n.orders m d ∧ (ready = true → m.initialReadPosFlag)) n.kdata :=
    h.safe.visit _ visiting
  have safe := h.safe.checking visiting
  have before : n.orders = n.evaluations.filterMap (orderOf inst n.kdata) := by
    have := h.orders
    rwa [visiting] at this
  obtain ⟨ma, visit, same, -, outcome⟩ := Node.decide_checking_cases keeps
  rw [same] at safe ⊢
  refine ⟨safe, h.sound, ?_⟩
  obtain rfl | ⟨next, rfl, -⟩ | ⟨-, rfl⟩ := outcome
  · exact before
  · exact before
  · exact before

theorem Answered.signalling {dateIndex : Int} {started : Bool}
    {body : Resumption CMovingAverage CandleCall Answer (Int × Int)}
    (h : Answered inst n) (visiting : n.visit = some (.signalling dateIndex started body)) :
    Answered inst (n.decide inst (.signalling dateIndex started body)) := by
  have safe := h.safe.signalling visiting
  obtain ⟨idx, rfl, first, below, keeps⟩ := h.safe.visit _ visiting
  have before : n.orders = n.evaluations.filterMap (orderOf inst n.kdata) := by
    have := h.orders
    rwa [visiting] at this
  cases body with
  | abort m => exact keeps.elim
  | call m q k =>
      rw [Node.decide_signalling_call] at safe ⊢
      exact ⟨safe, h.sound, before⟩
  | done m action =>
      rw [Node.decide_signalling_done] at safe ⊢
      refine ⟨safe, ?_, n.evaluations, rfl, before⟩
      intro e he
      obtain old | last := List.mem_append.mp he
      · exact h.sound e old
      · obtain rfl := List.mem_singleton.mp last
        obtain trend | ⟨rfl, fork, -⟩ := keeps.done
        · exact .inl trend
        · have present : idx < n.kdata.candles.length := by
            obtain ⟨same, -⟩ | ⟨-, inside⟩ := keeps.state
            · have : (idx + 1 : Int) = idx := congrArg candleBarReadPos same
              omega
            · exact inside
          exact .inr ⟨idx, rfl, first, present, fork⟩

theorem Answered.pricing {dateIndex : Int} {action : Int × Int}
    {body : Resumption CMovingAverage CandleCall Answer ℚ} (h : Answered inst n)
    (visiting : n.visit = some (.pricing dateIndex action body)) :
    Answered inst (n.decide inst (.pricing dateIndex action body)) := by
  have safe := h.safe.pricing visiting
  obtain ⟨idx, rfl, first, below, -, keeps⟩ := h.safe.visit _ visiting
  have before : ∃ answered, n.evaluations = answered ++ [⟨idx, action.1, action.2⟩] ∧
      n.orders = answered.filterMap (orderOf inst n.kdata) := by
    have := h.orders
    rwa [visiting] at this
  cases body with
  | abort m => exact keeps.elim
  | call m q k =>
      rw [Node.decide_pricing_call] at safe ⊢
      exact ⟨safe, h.sound, before⟩
  | done m price =>
      rw [Node.decide_pricing_done] at safe ⊢
      refine ⟨safe, h.sound, ?_⟩
      obtain ⟨answered, split, same⟩ := before
      obtain ⟨-, priced⟩ := keeps.done
      -- the price is the one the evaluation leads to, or there is no order
      have last : (triggerSignalAction inst action.1 action.2 price).map (RaisedOrder.mk idx) =
          orderOf inst n.kdata ⟨idx, action.1, action.2⟩ := by
        obtain trend | ⟨-, -, -, bar, there, rfl⟩ := priced
        · rw [triggerSignalAction_of_trend trend, orderOf_of_trend trend, Option.map_none]
        · simp only [orderOf, Int.toNat_natCast, CCandleBar.getSafePrice, CCandleBar.getPrice,
            there]
      change n.orders ++ _ = n.evaluations.filterMap (orderOf inst n.kdata)
      rw [split, List.filterMap_append, same, last]
      cases answers : orderOf inst n.kdata ⟨idx, action.1, action.2⟩ with
      | none => simp [answers]
      | some raised => simp [answers]

theorem Answered.next (h : Answered inst n) (act : NodeAction) :
    Answered inst (n.next inst act) := by
  cases act with
  | idle => exact h
  | pushBar bar => exact h.pushBar bar
  | start =>
      have safe := h.safe.next .start
      obtain ⟨kdata, ma, visit, evaluations, orders⟩ := n
      cases visit with
      | some visit => exact h
      | none => exact ⟨safe, h.sound, h.orders⟩
  | decide =>
      simp only [Node.next]
      cases visiting : n.visit with
      | none => exact h
      | some visit =>
          cases visit with
          | checking body => exact h.checking visiting
          | signalling dateIndex started body => exact h.signalling visiting
          | pricing dateIndex action body => exact h.pricing visiting

end Steps

section Runs

variable {inst : StdString} {n : Node}

theorem strategy_answered (data : OrderedMap Int (OrderedMap StdString CCandleBar))
    (acts : List StrategyAction) (κ : MaNode) :
    Answered κ.2 ((strategyRun data acts).node κ) := by
  refine CMAStrategy.node_invariant (Answered κ.2) (fun _ act h => h.next act) ?_ data acts
  intro kdata
  exact ⟨⟨.inl ⟨rfl, rfl⟩, .nil, by simp, by simp⟩, by simp, rfl⟩

/-- Every order is the one of the sequential trader at its index. -/
theorem Answered.orderAt (h : Answered inst n) :
    ∀ raised ∈ n.orders, ∃ idx : Nat, raised.dateIndex = idx ∧ firstIndex ≤ idx ∧
      idx < n.kdata.candles.length ∧ orderAt inst n.kdata idx = some raised := by
  have answers : ∃ answered : List Evaluation, (∀ e ∈ answered, e ∈ n.evaluations) ∧
      n.orders = answered.filterMap (orderOf inst n.kdata) := by
    have orders := h.orders
    split at orders
    · obtain ⟨before, split, same⟩ := orders
      exact ⟨before, fun e he => by simp [split, he], same⟩
    · exact ⟨n.evaluations, fun e he => he, orders⟩
  obtain ⟨answered, known, same⟩ := answers
  intro raised mem
  rw [same] at mem
  obtain ⟨e, he, answers⟩ := List.mem_filterMap.mp mem
  obtain trend | ⟨idx, index, first, inside, fork⟩ := h.sound e (known e he)
  · rw [orderOf_of_trend trend] at answers
    cases answers
  · rw [orderOf_of_fork index fork] at answers
    exact ⟨idx, orderAt_dateIndex answers, first, inside, answers⟩

/-- The orders of an indicator are a subsequence of those of the sequential trader. -/
theorem Answered.sublist (h : Answered inst n) {c : CCandleBar} (grow : n.kdata ≤ c) :
    n.orders.Sublist (sequentialOrders inst c) := by
  have longer := CCandleBar.length_mono grow
  let index (raised : RaisedOrder) : Nat := raised.dateIndex.toNat
  have increasing : (n.orders.map index).Pairwise (· < ·) := by
    rw [List.pairwise_map]
    refine h.safe.increasing.imp_of_mem ?_
    intro a b ha hb less
    obtain ⟨i, hi, -⟩ := h.orderAt a ha
    obtain ⟨j, hj, -⟩ := h.orderAt b hb
    simp only [index]
    omega
  have inside : n.orders.map index ⊆ List.range' firstIndex (c.candles.length - firstIndex) := by
    intro i hi
    obtain ⟨raised, mem, rfl⟩ := List.mem_map.mp hi
    obtain ⟨idx, same, first, present, -⟩ := h.orderAt raised mem
    rw [List.mem_range'_1]
    simp only [index]
    omega
  have indices : (n.orders.map index).Sublist
      (List.range' firstIndex (c.candles.length - firstIndex)) :=
    List.sublist_of_subperm_of_pairwise (List.subperm_of_subset increasing.nodup inside)
      increasing List.pairwise_lt_range'
  have orders : (n.orders.map index).filterMap (CtpTrade.orderAt inst c) = n.orders := by
    rw [List.filterMap_map]
    refine (List.filterMap_congr ?_).trans List.filterMap_some
    intro raised mem
    obtain ⟨idx, same, -, present, found⟩ := h.orderAt raised mem
    simp only [Function.comp_apply, index, same, Int.toNat_natCast]
    rw [orderAt_mono present grow, found]
  rw [← orders]
  exact indices.filterMap _

/-- The indices of a signal are those of its evaluation. -/
theorem filterMap_signals (evaluations : List Evaluation) (c : CCandleBar) :
    (evaluations.filter Evaluation.signals).filterMap (orderOf inst c) =
      evaluations.filterMap (orderOf inst c) := by
  rw [List.filterMap_filter]
  refine List.filterMap_congr fun e _ => ?_
  by_cases quiet : e.signal = techSignalNothing
  · have silent : orderOf inst c e = none := by
      rw [orderOf, quiet, triggerSignalAction_of_silent, Option.map_none]
    rw [silent, ite_self]
  · rw [if_pos (by simpa [Evaluation.signals] using quiet)]

theorem orderOf_evaluationAt (c : CCandleBar) (idx : Nat) :
    (evaluationAt c idx).bind (orderOf inst c) = CtpTrade.orderAt inst c idx := by
  obtain ⟨fork, result, rfl | isFork⟩ := evaluateFork_outcome c idx
  · -- a silent fork is followed by the trend, which never leads to an order
    obtain ⟨trend, run, reason⟩ := (trendAt_inside idx).eval c
    have follows : evaluateTrend c idx = some trend := by
      rw [evaluateTrend, run]
      rfl
    have quiet : silent.1 = techSignalNothing := rfl
    have none : CtpTrade.orderAt inst c idx = none := by
      rw [CtpTrade.orderAt, result]
      rfl
    rw [none, evaluationAt, evaluate, result, Option.bind_some, if_pos quiet, follows,
      Option.map_some, Option.bind_some]
    exact orderOf_of_trend reason
  · have loud : fork.1 ≠ techSignalNothing := by
      obtain rfl | rfl := isFork
      · decide
      · decide
    rw [evaluationAt, evaluate, result, Option.bind_some, if_neg loud, Option.map_some,
      Option.bind_some]
    exact orderOf_of_fork rfl result

/-- The evaluations of the sequential evaluator lead to the sequential orders. -/
theorem filterMap_sequentialEvaluations (c : CCandleBar) :
    (sequentialEvaluations c).filterMap (orderOf inst c) = sequentialOrders inst c := by
  rw [sequentialEvaluations, sequentialUpTo, filterMap_signals, List.filterMap_filterMap,
    sequentialOrders]
  exact List.filterMap_congr fun idx _ => orderOf_evaluationAt c idx

/-- In an undisturbed run the evaluations of a node come in order. -/
theorem strategy_inOrder {data : OrderedMap Int (OrderedMap StdString CCandleBar)}
    {acts : List StrategyAction} {κ : MaNode}
    (undisturbed : Execution.Meets (Execution.total CMAStrategy.next) (Undisturbed κ)
      (CMAStrategy.initialMaStg data) acts) : ((strategyRun data acts).node κ).InOrder := by
  refine CMAStrategy.node_invariant_of_meets Node.InOrder (·.missingBarRead = false)
    (fun n act h calm => h.next act calm) (fun kdata => .inl ⟨rfl, rfl⟩) data acts ?_
  refine undisturbed.imp ?_
  rintro s a calm bar rfl name
  exact calm (by rw [name])

/-- Where the signals are those of the sequential evaluator, the orders are those
of the sequential trader. -/
theorem Answered.complete (h : Answered inst n) (between : n.visit = none)
    (signals : n.evaluations.filter Evaluation.signals = sequentialEvaluations n.kdata) :
    n.orders = sequentialOrders inst n.kdata := by
  have orders : n.orders = n.evaluations.filterMap (orderOf inst n.kdata) := by
    have := h.orders
    rwa [between] at this
  rw [orders, ← filterMap_signals, signals, filterMap_sequentialEvaluations]

/-- An indicator that idles behind an undisturbed run has ordered at every fork. -/
theorem undisturbed_orders {data : OrderedMap Int (OrderedMap StdString CCandleBar)}
    {acts : List StrategyAction} {κ : MaNode}
    (undisturbed : Execution.Meets (Execution.total CMAStrategy.next) (Undisturbed κ)
      (CMAStrategy.initialMaStg data) acts)
    (idle : ((strategyRun data acts).node κ).Idle) :
    (strategyRun data acts).ordersOf κ =
      sequentialOrders κ.2 ((strategyRun data acts).candle κ) := by
  have inOrder := strategy_inOrder undisturbed
  have between : ((strategyRun data acts).node κ).visit = none :=
    Option.isNone_iff_eq_none.mp idle.1
  rw [Node.InOrder, between] at inOrder
  exact (strategy_answered data acts κ).complete between (Evaluated.complete inOrder idle)

end Runs

end CtpTrade
