import CtpTrade.Strategy.SequentialOrders
import CtpTrade.TechniqueIndicator.Fork

/-!
# The trading rule

What the moving average strategy is for, without threads, read positions and the state of
an indicator: at each bar behind the largest period the first pair of averages that forks
says whether one lot is bought or sold at the close. The averages are those that `calculate`
yields for the bar and for the bar before it, compared as the code compares them. The
strategy only ever places the orders of the rule, and all of them where no evaluation is
lost.
-/

namespace CtpTrade

open CMovingAverage CandleCall

/-- The trading rule: it places this order at the bar. The averages of the closing
prices for 2, 3 and 4 bars, at the bar and at the one before, are compared for the
adjacent pairs of periods; the first pair that crosses, and is confirmed by a later
period if there is one, decides. The order opens one lot at the closing price. -/
structure TradesAt (inst : StdString) (c : CCandleBar) (idx : Nat) (raised : RaisedOrder) :
    Prop where
  first : firstIndex ≤ idx
  inside : idx < c.candles.length
  order : ∃ direction now last, AveragesAt c idx now ∧ AveragesAt c (idx - 1) last ∧
    raised = ⟨idx, inst, direction, offsetOpen, c.getPrice idx .closePrice, 1⟩ ∧
      (direction = directionBuy ∧ FirstFork now last (GoldPair now last) [2, 3, 4] ∨
        direction = directionSell ∧ FirstFork now last (DeadPair now last) [2, 3, 4])

section Rule

variable {inst : StdString} {c : CCandleBar} {idx : Nat} {raised : RaisedOrder}

theorem tradesAt_iff :
    TradesAt inst c idx raised ↔
      firstIndex ≤ idx ∧ idx < c.candles.length ∧ orderAt inst c idx = some raised := by
  have four : firstIndex = 4 := rfl
  constructor
  · rintro ⟨first, inside, direction, now, last, hnow, hlast, rfl, side⟩
    refine ⟨first, inside, ?_⟩
    rw [orderAt, evaluateFork_of_averages (by omega) hnow hlast, Option.bind_some]
    obtain ⟨gold, notDead, same⟩ | ⟨dead, notGold, same⟩ | ⟨notGold, notDead, same⟩ :=
      forkSignal_cases_available now last defaultAttribute.flagGoldfork
        defaultAttribute.flagDeadfork defaultAttribute.periodCycle
    · obtain ⟨rfl, -⟩ | ⟨-, dead⟩ := side
      · rw [same]
        rfl
      · exact absurd dead notDead
    · obtain ⟨-, gold⟩ | ⟨rfl, -⟩ := side
      · exact absurd gold notGold
      · rw [same]
        rfl
    · obtain ⟨-, gold⟩ | ⟨-, dead⟩ := side
      · exact absurd gold notGold
      · exact absurd dead notDead
  · rintro ⟨first, inside, found⟩
    have before : idx - 1 < c.candles.length := by omega
    refine ⟨first, inside, ?_⟩
    rw [orderAt, evaluateFork_means first inside, Option.bind_some] at found
    suffices side : ∃ direction,
        raised = ⟨idx, inst, direction, offsetOpen, c.getPrice idx .closePrice, 1⟩ ∧
          (direction = directionBuy ∧ FirstFork (closeMeans c idx) (closeMeans c (idx - 1))
              (GoldPair (closeMeans c idx) (closeMeans c (idx - 1))) [2, 3, 4] ∨
            direction = directionSell ∧ FirstFork (closeMeans c idx) (closeMeans c (idx - 1))
              (DeadPair (closeMeans c idx) (closeMeans c (idx - 1))) [2, 3, 4]) by
      obtain ⟨direction, order⟩ := side
      exact ⟨direction, _, _, averagesAt_closeMeans (by omega) inside,
        averagesAt_closeMeans (by omega) before, order⟩
    obtain ⟨gold, notDead, same⟩ | ⟨dead, notGold, same⟩ | ⟨notGold, notDead, same⟩ :=
      forkSignal_cases_available (closeMeans c idx) (closeMeans c (idx - 1))
        defaultAttribute.flagGoldfork defaultAttribute.flagDeadfork defaultAttribute.periodCycle
    · rw [same] at found
      exact ⟨directionBuy, (Option.some.inj found).symm, .inl ⟨rfl, gold⟩⟩
    · rw [same] at found
      exact ⟨directionSell, (Option.some.inj found).symm, .inr ⟨rfl, dead⟩⟩
    · rw [same] at found
      cases found

/-- The sequential trader follows the rule. -/
theorem mem_sequentialOrders :
    raised ∈ sequentialOrders inst c ↔ ∃ idx, TradesAt inst c idx raised := by
  rw [sequentialOrders, List.mem_filterMap]
  refine exists_congr fun idx => ?_
  rw [tradesAt_iff, List.mem_range'_1]
  constructor
  · rintro ⟨⟨first, inside⟩, found⟩
    exact ⟨first, by omega, found⟩
  · rintro ⟨first, inside, found⟩
    exact ⟨⟨first, by omega⟩, found⟩

/-- Where the closes move one way the rule places no orders. -/
theorem not_tradesAt_of_oneWay (oneWay : ClosesOneWay c.candles) :
    ¬ TradesAt inst c idx raised := by
  rw [tradesAt_iff]
  rintro ⟨first, inside, found⟩
  rw [orderAt, evaluateFork_oneWay oneWay first inside] at found
  cases found

end Rule

/-- In every state that a strategy can reach its orders are orders of the rule, on bars
that are there. An indicator that idles behind a run in which no bar arrived in the
middle of a call has placed all orders of the rule. -/
theorem strategy_follows_rule (data : OrderedMap Int (OrderedMap StdString CCandleBar))
    (acts : List StrategyAction) (κ : MaNode) :
    (∀ raised ∈ (strategyRun data acts).ordersOf κ,
      ∃ idx, TradesAt κ.2 ((strategyRun data acts).candle κ) idx raised) ∧
    (Execution.Meets (Execution.total CMAStrategy.next) (Undisturbed κ)
        (CMAStrategy.initialMaStg data) acts → ((strategyRun data acts).node κ).Idle →
      ∀ idx raised, TradesAt κ.2 ((strategyRun data acts).candle κ) idx raised →
        raised ∈ (strategyRun data acts).ordersOf κ) := by
  constructor
  · intro raised mem
    obtain ⟨idx, -, first, inside, found⟩ :=
      (strategy_answered data acts κ).orderAt raised mem
    exact ⟨idx, tradesAt_iff.mpr ⟨first, inside, found⟩⟩
  · intro undisturbed idle idx raised trades
    rw [undisturbed_orders undisturbed idle]
    exact mem_sequentialOrders.mpr ⟨idx, trades⟩

/-- The rule buys at the sixth bar, and so does the strategy. -/
theorem strategy_follows_rule_calm :
    ⟨5, soloNode.2, directionBuy, offsetOpen, 5, 1⟩ ∈
      (strategyRun soloData calmSchedule).ordersOf soloNode := by
  have trades : TradesAt soloNode.2 ((strategyRun soloData calmSchedule).candle soloNode) 5
      ⟨5, soloNode.2, directionBuy, offsetOpen, 5, 1⟩ :=
    tradesAt_iff.mpr (by decide +kernel)
  exact (strategy_follows_rule soloData calmSchedule soloNode).2 (by decide +kernel)
    (by decide +kernel) 5 _ trades

end CtpTrade
