import CtpTrade.Strategy.TradingRule
import CtpTrade.TradeManager.Safety

/-!
# A market that moves one way

Bars close where ticks have been, in the order of the ticks, whatever the threads
do and whichever blocks an instrument gets. So where the price of an instrument
never falls, or never rises, no mean of closes ever moves against another one,
and the trader does not trade the instrument at any period.
-/

namespace CtpTrade

open CMovingAverage

namespace Trader

variable {tradeTime : Bool} {ins : List StdString} {s : Trader} {configs : List StgConfig}
variable {acts : List TraderAction} {index : Nat} {attached : AttachedStrategy}

/-- The closes of a strategy's bars follow each other as the prices of the ticks do. -/
theorem candle_pairwise (h : run tradeTime ins configs acts = .ok s)
    (there : s.stgContainer[index]? = some attached) (κ : MaNode) {R : ℚ → ℚ → Prop}
    (ticks : (ticksOf κ.2 s.appended).Pairwise fun a b => R a.lastPrice b.lastPrice) :
    (attached.stg.candle κ).candles.Pairwise fun a b => R a.closePrice b.closePrice := by
  obtain ⟨period, name⟩ := κ
  cases series : (attached.stg.candle (period, name)).candles with
  | nil => exact .nil
  | cons first rest =>
      obtain ⟨no, rfl⟩ := periodsServed_run h attached (List.mem_of_getElem? there) (period, name)
        first (by rw [series]; exact List.mem_cons_self ..)
      rw [← series]
      have minutes : (s.mdManager.composedBars .one name).Pairwise
          fun a b => R a.closePrice b.closePrice := by
        rw [minuteBars_pushed h, List.pairwise_map]
        obtain ⟨acts', reached⟩ | waiting := pipeline_cases h
        · exact Pipeline.pushed_pairwise reached name ticks
        · rw [waiting]
          exact .nil
      obtain ⟨mdActs, md, -, same⟩ := run_mdManager h
      have composed : (s.mdManager.composedBars no name).Pairwise
          fun a b => R a.closePrice b.closePrice := by
        rw [same] at minutes ⊢
        exact MdSystem.composedBars_pairwise ins mdActs no name minutes
      exact composed.sublist (candle_received h there no name).1.sublist

end Trader

open Trader

/-- In both builds, with any instruments, strategies and schedules: where the prices of
the ticks of an instrument never fall, or never rise, no strategy ever orders it, on the
bars of any period. -/
theorem no_orders_on_one_way_market {tradeTime : Bool} {ins : List StdString}
    {configs : List StgConfig} {acts : List TraderAction} {s : Trader}
    (h : Trader.run tradeTime ins configs acts = .ok s) {index : Nat}
    {attached : AttachedStrategy} (there : s.stgContainer[index]? = some attached) (κ : MaNode)
    (oneWay : (ticksOf κ.2 s.appended).Pairwise (·.lastPrice ≤ ·.lastPrice) ∨
      (ticksOf κ.2 s.appended).Pairwise (·.lastPrice ≥ ·.lastPrice)) :
    attached.stg.ordersOf κ = [] := by
  have closes : ClosesOneWay (attached.stg.candle κ).candles :=
    oneWay.imp (candle_pairwise h there κ) (candle_pairwise h there κ)
  obtain ⟨config, acts', -, own⟩ := run_strategy h there
  have answered : Answered κ.2 (attached.stg.node κ) := by
    rw [own]
    exact strategy_answered _ acts' κ
  rw [List.eq_nil_iff_forall_not_mem]
  intro raised mem
  obtain ⟨idx, -, first, inside, found⟩ := answered.orderAt raised mem
  exact not_tradesAt_of_oneWay closes (tradesAt_iff.mpr ⟨first, inside, found⟩)

/-- The sample run with prices that rise. -/
def risingActs : List TraderAction :=
  forkActs.map fun
    | .append tick => .append { tick with lastPrice := tick.volume.toInt }
    | a => a

theorem rising_run : ∃ s, Trader.run false [sampleName.chars] [forkConfig] risingActs = .ok s ∧
    (ticksOf sampleName.chars s.appended).Pairwise (·.lastPrice ≤ ·.lastPrice) ∧
    ∃ attached : AttachedStrategy, attached ∈ s.stgContainer[0]? ∧
      (attached.stg.candle (minOne, sampleName.chars)).candles.length = 5 :=
  Execution.exists_of_check (by decide +kernel)

theorem no_orders_on_one_way_market_rising :
    ∃ (s : Trader) (attached : AttachedStrategy),
      Trader.run false [sampleName.chars] [forkConfig] risingActs = .ok s ∧
      (attached.stg.candle (minOne, sampleName.chars)).candles.length = 5 ∧
      attached.stg.ordersOf (minOne, sampleName.chars) = [] := by
  obtain ⟨s, hrun, rising, attached, there, five⟩ := rising_run
  exact ⟨s, attached, hrun, five, no_orders_on_one_way_market hrun there _ (.inl rising)⟩

end CtpTrade
