import CtpTrade.MdManager.Origin
import CtpTrade.TradeManager.EndToEnd

/-!
# The longer periods of a single instrument

With one instrument a compose thread reads consecutive blocks of minute bars, so
the bars of a strategy at five, fifteen, thirty and sixty minutes are those of the
whole tick stream as well: its minute bars, cut into blocks from the first one on.
-/

namespace CtpTrade

open Blocks

/-- The bars of a period that a reader of the whole stream makes of its minute bars. -/
def periodBars (no : DataNo) (ticks : List MtkData) : List CandleBar :=
  (blocks (MdSystem.multiple no) (tickBars ticks)).map composeBlock

namespace MdSystem

variable {no : DataNo}

theorem BlocksOf.leading (hno : no ≠ .one) {minutes : CCandleBar} {composed : List CandleBar}
    (h : BlocksOf (multiple no) minutes composed) :
    composed <+: (blocks (multiple no) minutes.candles).map composeBlock := by
  have two := two_le_multiple hno
  rw [List.prefix_iff_getElem?]
  intro j hj
  have made := h j composed[j] (List.getElem?_eq_getElem hj)
  rw [CCandleBar.calculateSpecifiedPeriod_eq _ _ two, Option.ite_none_right_eq_some,
    Option.some.injEq] at made
  obtain ⟨room, made⟩ := made
  have whole : j < minutes.candles.length / multiple no := by
    rw [Nat.lt_div_iff_mul_lt (by omega)]
    omega
  rw [List.getElem?_map, getElem?_blocks whole, Option.map_some, made]

end MdSystem

namespace Trader

variable {tradeTime : Bool} {name : StdString} {configs : List StgConfig}
variable {acts : List TraderAction} {s : Trader}

/-- With one instrument the store of a period is a prefix of the bars of all ticks. -/
theorem composedBars_leading (h : run tradeTime [name] configs acts = .ok s)
    (opened : AlwaysOpen tradeTime (ticksOf name s.appended)) {no : DataNo} (hno : no ≠ .one) :
    s.mdManager.composedBars no name <+: periodBars no (ticksOf name s.appended) := by
  have pos : 0 < MdSystem.multiple no := Nat.zero_lt_two.trans_le (MdSystem.two_le_multiple hno)
  have minutes := minuteBars_leading h opened
  obtain ⟨mdActs, md, -, same⟩ := run_mdManager h
  rw [same] at minutes ⊢
  have sole := (MdSystem.soleCursor_run hno (MdSystem.alone_of_single name mdActs)).blocks name
  exact (sole.leading hno).trans ((blocks_leading pos minutes).map composeBlock)

end Trader

open Trader

/-- A strategy that watches a single instrument has, at every longer period, the leading
bars of the stream of its ticks, and its orders are a subsequence of those that a
sequential trader places on the bars of that period. -/
theorem period_orders_follow_ticks {tradeTime : Bool} {name : StdString}
    {configs : List StgConfig} {acts : List TraderAction} {s : Trader}
    (h : Trader.run tradeTime [name] configs acts = .ok s)
    (opened : AlwaysOpen tradeTime (ticksOf name s.appended))
    {index : Nat} {attached : AttachedStrategy}
    (there : s.stgContainer[index]? = some attached) {no : DataNo} (hno : no ≠ .one) :
    let κ := (CMdManager.convertDatanoToKtype no, name)
    (attached.stg.candle κ).candles <+: periodBars no (ticksOf name s.appended) ∧
      (attached.stg.ordersOf κ).Sublist
        (sequentialOrders name { candles := periodBars no (ticksOf name s.appended) }) := by
  intro κ
  have bars : (attached.stg.candle κ).candles <+: periodBars no (ticksOf name s.appended) :=
    (candle_received h there no name).1.trans (composedBars_leading h opened hno)
  refine ⟨bars, ?_⟩
  obtain ⟨config, acts', -, own⟩ := run_strategy h there
  have answered : Answered name (attached.stg.node κ) := by
    rw [own]
    exact strategy_answered _ acts' κ
  exact answered.sublist bars

/-- The ticks of a sample run: six minutes with one tick each and a seventh with 61, so that
six minute bars are pushed, and the first five of them make a bar of five minutes. -/
def fiveTick (k : Nat) : MtkData where
  instrumentID := sampleName
  lastPrice := [4, 2, 7, 1, 5].getD k 3
  volume := Int32.ofNat (k + 1)
  updateTime := [⟨"11:00:00".toList, by decide⟩, ⟨"11:01:00".toList, by decide⟩,
    ⟨"11:02:00".toList, by decide⟩, ⟨"11:03:00".toList, by decide⟩,
    ⟨"11:04:00".toList, by decide⟩,
    ⟨"11:05:00".toList, by decide⟩].getD k ⟨"11:06:00".toList, by decide⟩

def fiveActs : List TraderAction :=
  List.replicate 11 .main ++ (List.range 67).map (fun k => .append (fiveTick k)) ++
    List.replicate 67 .distribute ++
    (List.replicate 6 [.calculate sampleName.chars, .notify .one, .notify .one]).flatten ++
    [.thread .five, .thread .five, .notify .five, .notify .five]

theorem five_run : ∃ s, Trader.run true [sampleName.chars] [{ forkConfig with kType := 2 }]
      fiveActs = .ok s ∧ AlwaysOpen true (ticksOf sampleName.chars s.appended) ∧
    ∃ attached : AttachedStrategy, attached ∈ s.stgContainer[0]? ∧
      (attached.stg.candle (minFive, sampleName.chars)).candles.map (·.closePrice) = [5] :=
  Execution.exists_of_check (by decide +kernel)

theorem period_orders_follow_ticks_five :
    ∃ (s : Trader) (attached : AttachedStrategy),
      Trader.run true [sampleName.chars] [{ forkConfig with kType := 2 }] fiveActs = .ok s ∧
      (attached.stg.candle (minFive, sampleName.chars)).candles.map (·.closePrice) = [5] ∧
      (attached.stg.candle (minFive, sampleName.chars)).candles <+:
        periodBars .five (ticksOf sampleName.chars s.appended) := by
  obtain ⟨s, hrun, opened, attached, there, five⟩ := five_run
  have longer : DataNo.five ≠ .one := by decide
  exact ⟨s, attached, hrun, five, (period_orders_follow_ticks hrun opened there longer).1⟩

end CtpTrade
