import CtpTrade.Strategy.Node

/-!
# Orders of the moving average strategy

An order is raised only behind a fork, and a fork is only found on a bar that was
there at the first read of `get_signal`. The read position has then moved past
that bar, so the price that `get_limit_price` fetches one read later is the
close of the same bar, however many bars have arrived in between, and no later
visit can raise an order for it again.
-/

namespace CtpTrade

open CMovingAverage CandleCall

/-- The result of `get_fork_signal` on a gold fork. -/
def goldSignal : Int × Int := (techSignalBuyIntense, techReasonGoldfork)

/-- The result of `get_fork_signal` on a dead fork. -/
def deadSignal : Int × Int := (techSignalSellIntense, techReasonDeadfork)

/-- What makes an order a sound one: it is the order of the fork at its index, with the
closing price of that bar, the instrument of the strategy and the direction of the fork,
and the fork is among the results of the evaluation. -/
def ForkOrder (kdata : CCandleBar) (evaluations : List Evaluation) (inst : StdString)
    (raised : RaisedOrder) : Prop :=
  ∃ (idx : Nat) (bar : CandleBar) (action : Int × Int),
    raised.dateIndex = idx ∧ kdata.candles[idx]? = some bar ∧
    raised.order.price = bar.closePrice ∧ raised.order.insID = inst ∧
    evaluateFork kdata idx = some action ∧ ⟨idx, action.1, action.2⟩ ∈ evaluations ∧
    (raised.order.actionDirect = directionBuy ∧ action = goldSignal ∨
      raised.order.actionDirect = directionSell ∧ action = deadSignal)

/-- The indicator is fresh and has raised no order, or all its orders are for bars in
front of its read position, which is inside the series or right behind it. An order for
the same bar cannot come again. -/
def Behind (orders : List RaisedOrder) (ma : CMovingAverage) (kdata : CCandleBar) : Prop :=
  ma = fresh ∧ orders = [] ∨
    ∃ pos, ma = readingAt pos ∧ firstIndex ≤ pos ∧ pos ≤ kdata.candles.length ∧
      ∀ raised ∈ orders, raised.dateIndex < pos

/-- A visit that asks for the price of bar `idx`: the price in question is the close of
the bar of the fork, unless the result is a trend, for which no order is made. -/
def Priced (idx : Nat) (action : Int × Int) (ma : CMovingAverage) (price : ℚ)
    (kdata : CCandleBar) : Prop :=
  Reads idx ma kdata ∧ (TrendReason action.2 ∨
    ma = readingAt (idx + 1) ∧ evaluateFork kdata idx = some action ∧ IsFork action ∧
      ∃ bar, kdata.candles[idx]? = some bar ∧ price = bar.closePrice)

/-- What holds in the middle of a visit, by what the visit is doing: checking the guard,
waiting for a signal, or asking for a price. Each case says what the rest of the call
will end with. -/
def VisitSafe (n : Node) : Visit → Prop
  | .checking body =>
    body.Keeps answer (Behind n.orders)
      (fun m ready d => Behind n.orders m d ∧ (ready = true → m.initialReadPosFlag)) n.kdata
  | .signalling dateIndex _ body =>
    ∃ idx : Nat, dateIndex = idx ∧ firstIndex ≤ idx ∧
      (∀ raised ∈ n.orders, raised.dateIndex < idx) ∧
      body.Keeps answer (Reads idx) (Found idx) n.kdata
  | .pricing dateIndex action body =>
    ∃ idx : Nat, dateIndex = idx ∧ firstIndex ≤ idx ∧
      (∀ raised ∈ n.orders, raised.dateIndex < idx) ∧
      ⟨idx, action.1, action.2⟩ ∈ n.evaluations ∧
      body.Keeps answer (Reads idx) (Priced idx action) n.kdata

/-- The invariant of one strategy and instrument: its orders come in strictly increasing
order of their bars, each is a sound one, and a visit under way will not break this. -/
structure OrdersSafe (inst : StdString) (n : Node) : Prop where
  behind : Behind n.orders n.ma n.kdata
  increasing : n.orders.Pairwise fun a b => a.dateIndex < b.dateIndex
  sound : ∀ raised ∈ n.orders, ForkOrder n.kdata n.evaluations inst raised
  visit : ∀ v, n.visit = some v → VisitSafe n v

section Growing

variable {c d : CCandleBar} {orders : List RaisedOrder} {ma : CMovingAverage} {idx : Nat}

theorem Behind.later (h : Behind orders ma c) (grow : c ≤ d) : Behind orders ma d := by
  have longer := CCandleBar.length_mono grow
  obtain h | ⟨pos, hma, first, inside, below⟩ := h
  · exact .inl h
  · exact .inr ⟨pos, hma, first, by omega, below⟩

/-- The read position of an indicator that is placed. -/
theorem Behind.pos (h : Behind orders ma c) (flag : ma.initialReadPosFlag) :
    ∃ pos, ma = readingAt pos ∧ firstIndex ≤ pos ∧ pos ≤ c.candles.length ∧
      ∀ raised ∈ orders, raised.dateIndex < pos := by
  obtain ⟨rfl, -⟩ | h := h
  · simp [fresh] at flag
  · exact h

theorem behind_of_reads (h : Reads idx ma c) (first : firstIndex ≤ idx)
    (below : ∀ raised ∈ orders, raised.dateIndex < idx) : Behind orders ma c := by
  obtain ⟨rfl, inside⟩ | ⟨rfl, inside⟩ := h
  · exact .inr ⟨idx, rfl, first, inside, below⟩
  · refine .inr ⟨idx + 1, rfl, by omega, inside, ?_⟩
    intro raised mem
    have := below raised mem
    push_cast
    omega

theorem ForkOrder.later {evaluations : List Evaluation} {inst : StdString} {raised : RaisedOrder}
    (h : ForkOrder c evaluations inst raised) (grow : c ≤ d) :
    ForkOrder d evaluations inst raised := by
  obtain ⟨idx, bar, action, index, there, price, insID, fork, recorded, direction⟩ := h
  have present : idx < c.candles.length := (List.getElem?_eq_some_iff.mp there).1
  refine ⟨idx, bar, action, index, ?_, price, insID, ?_, recorded, direction⟩
  · obtain ⟨more, hmore⟩ := grow
    rw [← hmore, List.getElem?_append_left present, there]
  · rw [evaluateFork_mono present grow, fork]

theorem ForkOrder.more {evaluations : List Evaluation} {inst : StdString} {raised : RaisedOrder}
    (h : ForkOrder c evaluations inst raised) (others : List Evaluation) :
    ForkOrder c (evaluations ++ others) inst raised := by
  obtain ⟨idx, bar, action, index, there, price, insID, fork, recorded, direction⟩ := h
  exact ⟨idx, bar, action, index, there, price, insID, fork,
    List.mem_append_left others recorded, direction⟩

/-- The read of `get_limit_price` comes after the fork, on a series that may have grown. -/
theorem getLimitPrice_keeps {action : Int × Int} (reads : Reads idx ma c)
    (found : Found idx ma action c) :
    ((getLimitPrice .closePrice).start ma).Keeps answer (Reads idx) (Priced idx action) c := by
  obtain trend | ⟨rfl, fork, isFork⟩ := found
  · intro d grow
    refine ⟨reads.later grow, ?_⟩
    intro d' more
    have there := reads.later (le_trans grow more)
    exact ⟨there, there, .inl trend⟩
  · have present : idx < c.candles.length := by
      obtain ⟨same, -⟩ | ⟨-, inside⟩ := reads
      · simp [readingAt] at same
      · omega
    rw [start_getLimitPrice]
    intro d grow
    refine ⟨reads.later grow, ?_⟩
    intro d' more
    have there := reads.later (le_trans grow more)
    have longer := CCandleBar.length_mono grow
    have bar : d'.candles[idx]? = some d.candles[idx] := by
      obtain ⟨rest, hrest⟩ := more
      rw [← hrest, List.getElem?_append_left (by omega), List.getElem?_eq_getElem]
    refine ⟨there, there, .inr ⟨rfl, ?_, isFork, d.candles[idx], bar, ?_⟩⟩
    · rw [evaluateFork_mono present (le_trans grow more), fork]
    · simp only [answer, CCandleBar.getSafePrice, CCandleBar.getPrice,
        List.getElem?_eq_getElem (show idx < d.candles.length by omega)]

end Growing

section Steps

variable {inst : StdString} {n : Node}

theorem VisitSafe.later {visit : Visit} (h : VisitSafe n visit) (bar : CandleBar) :
    VisitSafe { n with kdata := n.kdata.pushBar bar } visit := by
  have grow := CCandleBar.le_pushBar n.kdata bar
  cases visit with
  | checking body => exact Resumption.Keeps.later h grow
  | signalling dateIndex started body =>
      obtain ⟨idx, index, first, below, keeps⟩ := h
      exact ⟨idx, index, first, below, keeps.later grow⟩
  | pricing dateIndex action body =>
      obtain ⟨idx, index, first, below, recorded, keeps⟩ := h
      exact ⟨idx, index, first, below, recorded, keeps.later grow⟩

theorem OrdersSafe.pushBar (safe : OrdersSafe inst n) (bar : CandleBar) :
    OrdersSafe inst { n with kdata := n.kdata.pushBar bar } where
  behind := safe.behind.later (CCandleBar.le_pushBar n.kdata bar)
  increasing := safe.increasing
  sound raised mem := (safe.sound raised mem).later (CCandleBar.le_pushBar n.kdata bar)
  visit v hv := (safe.visit v hv).later bar

theorem isBasicDataReady_safe (behind : Behind n.orders n.ma n.kdata) :
    VisitSafe n (.start n.ma) := by
  refine isBasicDataReady_keeps ?_ ?_ ?_ behind
  · exact fun m d d' grow h => h.later grow
  · intro d enough h
    obtain ⟨-, none⟩ | ⟨pos, same, -⟩ := h
    · exact .inr ⟨firstIndex, rfl, le_refl _, enough.le, by simp [none]⟩
    · simp [fresh, readingAt] at same
  · obtain ⟨same, -⟩ | ⟨pos, same, -⟩ := behind
    · exact .inl same
    · exact .inr ⟨pos, same⟩

theorem OrdersSafe.checking
    {body : Resumption CMovingAverage CandleCall Answer Bool} (safe : OrdersSafe inst n)
    (visiting : n.visit = some (.checking body)) :
    OrdersSafe inst (n.decide inst (.checking body)) := by
  have keeps : body.Keeps answer (Behind n.orders)
      (fun m ready d => Behind n.orders m d ∧ (ready = true → m.initialReadPosFlag)) n.kdata :=
    safe.visit _ visiting
  obtain ⟨ma, visit, same, behind, outcome⟩ := Node.decide_checking_cases keeps
  rw [same]
  refine ⟨behind, safe.increasing, safe.sound, ?_⟩
  rintro v entered
  change visit = some v at entered
  obtain none | ⟨next, still, keeps'⟩ | ⟨flag, signalling⟩ := outcome
  · cases none.symm.trans entered
  · cases still.symm.trans entered
    exact keeps'
  · cases signalling.symm.trans entered
    obtain ⟨pos, rfl, first, inside, below⟩ := behind.pos flag
    have positive : 0 < pos := Nat.lt_of_lt_of_le (by decide) first
    exact ⟨pos, rfl, first, below, getSignal_keeps positive inside⟩

theorem OrdersSafe.signalling {dateIndex : Int} {started : Bool}
    {body : Resumption CMovingAverage CandleCall Answer (Int × Int)} (safe : OrdersSafe inst n)
    (visiting : n.visit = some (.signalling dateIndex started body)) :
    OrdersSafe inst (n.decide inst (.signalling dateIndex started body)) := by
  obtain ⟨idx, rfl, first, below, keeps⟩ := safe.visit _ visiting
  cases body with
  | abort m => exact keeps.elim
  | call m q k =>
      rw [Node.decide_signalling_call]
      refine ⟨behind_of_reads keeps.step.state first below, safe.increasing, safe.sound, ?_⟩
      rintro v ⟨⟩
      exact ⟨idx, rfl, first, below, keeps.step⟩
  | done m action =>
      rw [Node.decide_signalling_done]
      refine ⟨behind_of_reads keeps.state first below, safe.increasing, ?_, ?_⟩
      · exact fun raised mem => (safe.sound raised mem).more _
      · rintro v ⟨⟩
        exact ⟨idx, rfl, first, below, by simp, getLimitPrice_keeps keeps.state keeps.done⟩

/-- An order is raised exactly behind a fork, in its direction. -/
theorem triggerSignalAction_cases {action : Int × Int} (inst : StdString) (price : ℚ)
    (h : TrendReason action.2 ∨ IsFork action) :
    triggerSignalAction inst action.1 action.2 price = none ∨
      IsFork action ∧ ∃ order, triggerSignalAction inst action.1 action.2 price = some order ∧
        order.price = price ∧ order.insID = inst ∧
        (order.actionDirect = directionBuy ∧ action = goldSignal ∨
          order.actionDirect = directionSell ∧ action = deadSignal) := by
  obtain trend | fork := h
  · have noGold : action.2 ≠ techReasonGoldfork := by
      intro same
      rw [TrendReason, same] at trend
      exact absurd trend (by decide)
    have noDead : action.2 ≠ techReasonDeadfork := by
      intro same
      rw [TrendReason, same] at trend
      exact absurd trend (by decide)
    left
    simp only [triggerSignalAction, noGold, noDead, ↓reduceIte, ite_self]
  · right
    refine ⟨fork, ?_⟩
    obtain rfl | rfl := fork
    · exact ⟨_, rfl, rfl, rfl, .inl ⟨rfl, rfl⟩⟩
    · exact ⟨_, rfl, rfl, rfl, .inr ⟨rfl, rfl⟩⟩

theorem OrdersSafe.pricing {dateIndex : Int} {action : Int × Int}
    {body : Resumption CMovingAverage CandleCall Answer ℚ} (safe : OrdersSafe inst n)
    (visiting : n.visit = some (.pricing dateIndex action body)) :
    OrdersSafe inst (n.decide inst (.pricing dateIndex action body)) := by
  obtain ⟨idx, rfl, first, below, recorded, keeps⟩ := safe.visit _ visiting
  cases body with
  | abort m => exact keeps.elim
  | call m q k =>
      rw [Node.decide_pricing_call]
      refine ⟨behind_of_reads keeps.step.state first below, safe.increasing, safe.sound, ?_⟩
      rintro v ⟨⟩
      exact ⟨idx, rfl, first, below, recorded, keeps.step⟩
  | done m price =>
      rw [Node.decide_pricing_done]
      obtain ⟨reads, priced⟩ := keeps.done
      have outcome : TrendReason action.2 ∨ IsFork action := priced.imp_right fun h => h.2.2.1
      obtain none | ⟨fork, order, raised, same⟩ := triggerSignalAction_cases inst price outcome
      · rw [none]
        simp only [Option.map_none, Option.toList_none, List.append_nil]
        exact ⟨behind_of_reads reads first below, safe.increasing, safe.sound, by simp⟩
      · have noTrend : ¬ TrendReason action.2 := by
          obtain rfl | rfl := fork <;> exact of_decide_eq_false rfl
        obtain ⟨rfl, evaluated, -, bar, there, hprice⟩ := priced.resolve_left noTrend
        obtain ⟨price', insID, direction⟩ := same
        have present : idx < n.kdata.candles.length := (List.getElem?_eq_some_iff.mp there).1
        have new : ForkOrder n.kdata n.evaluations inst ⟨idx, order⟩ :=
          ⟨idx, bar, action, rfl, there, price'.trans hprice, insID, evaluated, recorded, direction⟩
        rw [raised]
        simp only [Option.map_some, Option.toList_some]
        refine ⟨.inr ⟨idx + 1, rfl, by omega, present, ?_⟩, ?_, ?_, by simp⟩
        · intro raised mem
          obtain old | last := List.mem_append.mp mem
          · have := below raised old
            push_cast
            omega
          · obtain rfl := List.mem_singleton.mp last
            push_cast
            omega
        · refine List.pairwise_append.mpr ⟨safe.increasing, List.pairwise_singleton _ _, ?_⟩
          intro raised mem last hlast
          obtain rfl := List.mem_singleton.mp hlast
          exact below raised mem
        · intro raised mem
          obtain old | last := List.mem_append.mp mem
          · exact safe.sound raised old
          · obtain rfl := List.mem_singleton.mp last
            exact new

theorem OrdersSafe.next (safe : OrdersSafe inst n) (act : NodeAction) :
    OrdersSafe inst (n.next inst act) := by
  cases act with
  | idle => exact safe
  | pushBar bar => exact safe.pushBar bar
  | start =>
      simp only [Node.next]
      split
      · refine ⟨safe.behind, safe.increasing, safe.sound, ?_⟩
        rintro v ⟨⟩
        exact isBasicDataReady_safe safe.behind
      · exact safe
  | decide =>
      simp only [Node.next]
      cases visiting : n.visit with
      | none => exact safe
      | some visit =>
          cases visit with
          | checking body => exact safe.checking visiting
          | signalling dateIndex started body => exact safe.signalling visiting
          | pricing dateIndex action body => exact safe.pricing visiting

end Steps

theorem strategy_orders_safe (data : OrderedMap Int (OrderedMap StdString CCandleBar))
    (acts : List StrategyAction) (κ : MaNode) :
    OrdersSafe κ.2 ((strategyRun data acts).node κ) := by
  refine CMAStrategy.node_invariant (OrdersSafe κ.2) (fun _ act safe => safe.next act) ?_ data acts
  intro kdata
  exact ⟨.inl ⟨rfl, rfl⟩, .nil, by simp, by simp⟩

/-- Whatever the schedule, the read position of a placed indicator is inside its
series or right behind it; the orders of an indicator have strictly increasing
indices; and each order has the close of the bar at its index as its price, is
for a fork that `get_fork_signal` finds at that index, and buys exactly on a
gold fork and sells exactly on a dead fork. -/
theorem fork_orders_safe (data : OrderedMap Int (OrderedMap StdString CCandleBar))
    (acts : List StrategyAction) (κ : MaNode) :
    let s := strategyRun data acts
    ((s.ma κ).initialReadPosFlag →
      0 ≤ (s.ma κ).candleBarReadPos ∧
        (s.ma κ).candleBarReadPos ≤ (s.candle κ).candles.length) ∧
    (s.ordersOf κ).Pairwise (fun a b => a.dateIndex < b.dateIndex) ∧
    ∀ raised ∈ s.ordersOf κ, ∃ (idx : Nat) (bar : CandleBar) (action : Int × Int),
      raised.dateIndex = idx ∧ (s.candle κ).candles[idx]? = some bar ∧
      raised.order.price = bar.closePrice ∧
      evaluateFork (s.candle κ) idx = some action ∧
      ⟨idx, action.1, action.2⟩ ∈ s.evaluationsOf κ ∧
      (raised.order.actionDirect = directionBuy ∨ raised.order.actionDirect = directionSell) ∧
      (raised.order.actionDirect = directionBuy ↔ action = goldSignal) ∧
      (raised.order.actionDirect = directionSell ↔ action = deadSignal) := by
  intro s
  have safe : OrdersSafe κ.2 (s.node κ) := strategy_orders_safe data acts κ
  refine ⟨?_, safe.increasing, ?_⟩
  · intro flag
    obtain ⟨pos, same, -, inside, -⟩ := safe.behind.pos flag
    have position : (s.ma κ).candleBarReadPos = pos := by
      change (s.node κ).ma.candleBarReadPos = pos
      rw [same]
      rfl
    rw [position]
    exact ⟨by omega, by exact_mod_cast inside⟩
  · intro raised mem
    obtain ⟨idx, bar, action, index, there, price, -, fork, recorded, direction⟩ :=
      safe.sound raised mem
    refine ⟨idx, bar, action, index, there, price, fork, recorded, ?_⟩
    obtain ⟨buy, rfl⟩ | ⟨sell, rfl⟩ := direction
    · rw [buy]
      decide
    · rw [sell]
      decide

-- A gold fork on the last of five bars is bought at its close.
example :
    let series : CCandleBar := { candles := [0, 10, 1, 1, 5].map fun p => { closePrice := p } }
    let node : MaNode := (minOne, "rb1610".toList)
    let s := strategyRun (OrderedMap.empty.nestedSet node series) (List.replicate 24 .decide)
    s.ordersOf node = [⟨4, "rb1610".toList, directionBuy, offsetOpen, 5, 1⟩] := by
  decide +kernel

end CtpTrade
