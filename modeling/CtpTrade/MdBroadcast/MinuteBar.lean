import CtpTrade.Library.Tracking
import CtpTrade.MdBroadcast.Safety
import CtpTrade.MdBroadcast.Volume

/-!
# The content of a minute bar

A bar is made of the leading minute of a buffer, which is the longest prefix in
the minute of the first tick. The high and the low are tracked through that
prefix. The volume is an `int` difference stored as a `size_t`; it keeps its
value because a reachable buffer is in the order of the feed.
-/

namespace CtpTrade

open Tracking

variable {base g rest : List MtkData} {m : Nat} {minBar bar : CandleBar}

/-- The leading minute is the longest prefix in the minute of the first tick. -/
theorem LeadingMinute.span (h : LeadingMinute base g rest m) :
    g = base.takeWhile (minute · = m) ∧ rest = base.dropWhile (minute · = m) := by
  have all : ∀ t ∈ g, decide (minute t = m) = true := fun t ht => decide_eq_true (h.same t ht)
  obtain ⟨next, more, rfl⟩ := List.exists_cons_of_ne_nil h.rest_ne
  have later : ¬ minute next = m := (h.later next rfl).ne'
  rw [h.split, List.takeWhile_append_of_pos all, List.dropWhile_append_of_pos all,
    List.takeWhile_cons_of_neg (by simpa using later),
    List.dropWhile_cons_of_neg (by simpa using later), List.append_nil]
  exact ⟨rfl, rfl⟩

/-- What a minute bar says about its ticks, of which `first` and `last` are the
outermost ones: name, day, minute and the four prices, and as its volume what the
running volume has grown by inside the minute. -/
structure MinuteBarOf (first last : MtkData) (ticks : List MtkData) (bar : CandleBar) : Prop where
  barName : bar.barName = first.instrumentID
  tradeDay : bar.tradeDay = sizeOfInt (atoi first.tradingDay.chars)
  tradeTime : bar.tradeTime = minute first * 100
  openPrice : bar.openPrice = first.lastPrice
  closePrice : bar.closePrice = last.lastPrice
  highPrice : IsGreatest {price | ∃ t ∈ ticks, t.lastPrice = price} bar.highPrice
  lowPrice : IsLeast {price | ∃ t ∈ ticks, t.lastPrice = price} bar.lowPrice
  changePoint : bar.changePoint = bar.closePrice - bar.openPrice
  /-- The difference does not leave the range of `int`. -/
  noOverflow : (last.volume - first.volume).toInt = last.volume.toInt - first.volume.toInt
  volumeSize : (bar.volumeSize.toNat : Int) = last.volume.toInt - first.volume.toInt

/-- The extremes enclose the first and the last price. -/
theorem MinuteBarOf.encloses {first last : MtkData} {ticks : List MtkData}
    (h : MinuteBarOf first last ticks bar) (hfirst : first ∈ ticks) (hlast : last ∈ ticks) :
    bar.lowPrice ≤ min bar.openPrice bar.closePrice ∧
      max bar.openPrice bar.closePrice ≤ bar.highPrice := by
  rw [h.openPrice, h.closePrice, le_min_iff, max_le_iff]
  exact ⟨⟨h.lowPrice.2 ⟨first, hfirst, rfl⟩, h.lowPrice.2 ⟨last, hlast, rfl⟩⟩,
    h.highPrice.2 ⟨first, hfirst, rfl⟩, h.highPrice.2 ⟨last, hlast, rfl⟩⟩

/-- Tracking the prices of the ticks, from the price of the first one on. -/
theorem trackedPrices_eq {first : MtkData} {tail : List MtkData} :
    {price | price ∈ first.lastPrice :: (first :: tail).map (·.lastPrice)} =
      {price | ∃ t ∈ first :: tail, t.lastPrice = price} := by
  ext price
  simp only [Set.mem_ofPred_eq, List.mem_cons, List.map_cons, List.mem_map]
  grind

/-- The bar of a group of ticks in the order of the feed. -/
theorem minuteBarOf_convertTick2min (h : CMdBroadCast.convertTick2min g minBar = .ok bar)
    (ordered : Ordered g) (total : ∀ t ∈ g, 0 ≤ t.volume)
    (stamp : ∀ t ∈ g.head?, minBar.tradeTime = minute t * 100) :
    ∃ first last, g.head? = some first ∧ g.getLast? = some last ∧
      MinuteBarOf first last g bar := by
  have volume := volumeSize_eq h total (ordered.imp And.left)
  simp only [CMdBroadCast.convertTick2min] at h
  split at h
  · next first last hfirst hlast =>
      cases h
      obtain ⟨tail, rfl⟩ := List.head?_eq_some_iff.mp hfirst
      refine ⟨first, last, hfirst, hlast, ?_⟩
      simp only [spannedVolume, hfirst, hlast] at volume
      have le : first.volume ≤ last.volume := by
        obtain rfl | later := List.mem_cons.mp (List.mem_of_mem_getLast? hlast)
        · exact Int32.le_refl _
        · exact ((List.pairwise_cons.mp ordered).1 last later).1
      exact {
        barName := strncpyS_chars first.instrumentID
        tradeDay := rfl
        tradeTime := stamp first rfl
        openPrice := rfl
        closePrice := rfl
        highPrice := by
          rw [← trackedPrices_eq]
          exact foldl_isGreatest MtkData.lastPrice (first :: tail) first.lastPrice
        lowPrice := by
          rw [← trackedPrices_eq]
          exact foldl_isLeast MtkData.lastPrice (first :: tail) first.lastPrice
        changePoint := rfl
        noOverflow := Int32.toInt_sub_of_le _ _ (total first (List.mem_cons_self ..)) le
        volumeSize := volume }
  · cases h

/-- In every state that a feed in order can reach, in both builds, a bar that
`calculate_process` emits summarises the ticks of the buffer in the minute of the
first one, and the buffer is left with the others, which begin in a later minute. -/
theorem minute_bar_content {tradeTime : Bool} {insList : List StdString}
    {acts : List PipelineAction} {p : Pipeline}
    (h : Pipeline.run tradeTime insList acts = .ok p) {ins : StdString}
    (ordered : Ordered (ticksOf ins p.appended))
    (total : ∀ t ∈ ticksOf ins p.appended, 0 ≤ t.volume) {isOpen : Bool} {md : CMdBroadCast}
    {push : MinutePush} (emits : p.md.calculateProcess ins isOpen = .ok (md, some push)) :
    ∃ first last next, (p.buffer ins).head? = some first ∧
      push.minTicks = (p.buffer ins).takeWhile (minute · = minute first) ∧
      push.minTicks.getLast? = some last ∧ MinuteBarOf first last push.minTicks push.bar ∧
      push.bar.lowPrice ≤ min push.bar.openPrice push.bar.closePrice ∧
      max push.bar.openPrice push.bar.closePrice ≤ push.bar.highPrice ∧
      md.tickBase.get ins = (p.buffer ins).dropWhile (minute · = minute first) ∧
      (md.tickBase.get ins).head? = some next ∧ minute first < minute next := by
  have received : (p.buffer ins).Sublist (ticksOf ins p.appended) :=
    (Pipeline.buffer_sublist ins h).trans (Pipeline.distributed_sublist h ins)
  obtain ⟨g, rest, m, bar, lead, hbar, rfl, hpush⟩ | ⟨-, -, none, -⟩ :=
    CMdBroadCast.calculateProcess_cases emits
  · cases hpush
    have split : p.buffer ins = g ++ rest := lead.split
    have part : g.Sublist (ticksOf ins p.appended) := by
      refine List.Sublist.trans ?_ received
      rw [split]
      exact List.sublist_append_left g rest
    have stamp : ∀ t ∈ g.head?, m * 100 = minute t * 100 := fun t ht => by
      rw [lead.same t (List.mem_of_mem_head? ht)]
    obtain ⟨first, last, hfirst, hlast, summary⟩ := minuteBarOf_convertTick2min hbar
      (ordered.sublist part) (fun t ht => total t (part.subset ht)) stamp
    obtain rfl : minute first = m := lead.same first (List.mem_of_mem_head? hfirst)
    obtain ⟨next, more, rfl⟩ := List.exists_cons_of_ne_nil lead.rest_ne
    have left : (p.md.tickBase.set ins (next :: more)).get ins = next :: more := by simp
    have enclosed := summary.encloses (List.mem_of_mem_head? hfirst)
      (List.mem_of_mem_getLast? hlast)
    refine ⟨first, last, next, ?_, lead.span.1, hlast, summary, enclosed.1, enclosed.2, ?_, ?_,
      lead.later next rfl⟩
    · rw [split, List.head?_append, hfirst]
      rfl
    · exact left.trans lead.span.2
    · exact congrArg List.head? left
  · cases none

/-- Two ticks of different minutes in the buffer. -/
def twoMinuteActs : List PipelineAction :=
  [.append (sampleTick 0), .append (sampleTick 1), .distribute, .distribute]

theorem minute_bar_content_sample :
    ∃ p md push, Pipeline.run true [sampleName.chars] twoMinuteActs = .ok p ∧
      p.md.calculateProcess sampleName.chars true = .ok (md, some push) ∧
      push.minTicks = (p.buffer sampleName.chars).takeWhile (minute · = 930) := by
  have reached : ∃ p, Pipeline.run true [sampleName.chars] twoMinuteActs = .ok p ∧
      Ordered (ticksOf sampleName.chars p.appended) ∧
      (∀ t ∈ ticksOf sampleName.chars p.appended, 0 ≤ t.volume) ∧
      (p.buffer sampleName.chars).head? = some (sampleTick 0) ∧
      ∃ push ∈ (p.md.calculateProcess sampleName.chars true).toOption.bind Prod.snd, True :=
    Execution.exists_of_check (by decide +kernel)
  obtain ⟨p, hrun, ordered, total, front, push, hpush, -⟩ := reached
  rw [Option.mem_def, Option.bind_eq_some_iff] at hpush
  obtain ⟨⟨md, pushed⟩, result, rfl⟩ := hpush
  cases emits : p.md.calculateProcess sampleName.chars true with
  | error e => simp [emits, Except.toOption] at result
  | ok r =>
      obtain rfl : r = (md, some push) := by simpa [emits, Except.toOption] using result
      obtain ⟨first, last, next, hfirst, ticks, -⟩ := minute_bar_content hrun ordered total emits
      obtain rfl : sampleTick 0 = first := by simpa [front] using hfirst
      have stamp : minute (sampleTick 0) = 930 := by decide
      rw [stamp] at ticks
      exact ⟨p, md, push, hrun, emits, ticks⟩

end CtpTrade
