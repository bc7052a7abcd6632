import CtpTrade.CandleBar.Conversion
import CtpTrade.MdBroadcast.MinuteBar
import CtpTrade.MdBroadcast.Schedule

/-!
# The minute bars of a tick stream

`tickBars` reads a stream of one instrument from left to right and makes a bar of
each minute, without buffers, threads or a moment at which anything happens. The
bars that the pipeline has pushed are always a prefix of those of the ticks that
have arrived, so they are what a reader of the whole stream would have found.
-/

namespace CtpTrade

open Segments Tracking

/-- The bar that `convert_tick2min` makes of the ticks of one minute. -/
def minuteBar (minTicks : List MtkData) : Option CandleBar :=
  minTicks.head?.bind fun first =>
    (CMdBroadCast.convertTick2min minTicks { tradeTime := minute first * 100 }).toOption

/-- The bars of all minutes of a stream, which is what a pipeline without a bound on its
buffer would push. -/
def tickBars (ticks : List MtkData) : List CandleBar :=
  (segments minute (accepted ticks)).filterMap minuteBar

/-- The bars of the minutes that are pushed before the calculation comes to rest: all
minutes up to the first one from which too few ticks, or no later minute, are left. -/
def settledBars (ticks : List MtkData) : List CandleBar :=
  (settle (maxMinuteTicks / 2) (segments minute (accepted ticks))).filterMap minuteBar

theorem BarOf.minuteBar {ins : StdString} {q : MinutePush} (h : BarOf ins q) :
    minuteBar q.minTicks = some q.bar := by
  obtain ⟨-, m, same, hbar⟩ := h
  obtain ⟨name, minTicks, bar⟩ := q
  cases minTicks with
  | nil => cases hbar
  | cons first rest =>
      have time : minute first = m := same first (by simp)
      have made : CMdBroadCast.convertTick2min (first :: rest) { tradeTime := m * 100 } =
          .ok bar := hbar
      simp only [CtpTrade.minuteBar, List.head?_cons, Option.bind_some, time, made]
      rfl

/-- The filter only adds ticks behind those it has let through. -/
theorem accepted_append (ticks more : List MtkData) :
    accepted ticks <+: accepted (ticks ++ more) := by
  induction more using List.reverseRecOn with
  | nil => simp
  | append_singleton more t ih =>
      refine ih.trans ?_
      rw [← List.append_assoc, accepted_concat]
      obtain same | same := pushFresh_eq (accepted (ticks ++ more)) t
      · simp [same]
      · simp [same]

namespace Conserved

variable {ins : StdString} {c : Channel}

/-- The pushed groups are the leading minutes of what has arrived, and later ticks
do not change that. -/
theorem segments_leading (h : Conserved ins c) (more : List MtkData) :
    c.groups <+: segments minute (accepted (c.received ++ more)) := by
  obtain ⟨behind, hbehind⟩ := accepted_append c.received more
  rw [← hbehind, ← h.stream]
  by_cases empty : c.buffer = []
  · have none : c.groups = [] := by simp [Channel.groups, h.started empty]
    rw [none]
    exact List.nil_prefix
  · rw [List.append_assoc, (h.settled.append empty behind).segments_eq]
    exact List.prefix_append _ _

theorem bars_eq (h : Conserved ins c) :
    c.pushed.map MinutePush.bar = c.groups.filterMap minuteBar := by
  rw [Channel.groups, List.filterMap_map]
  refine (List.filterMap_eq_map_iff_forall_eq_some.mpr ?_).symm
  exact fun q hq => (h.bars q hq).minuteBar

end Conserved

/-- A push is made under the name of its bar. -/
theorem Pipeline.pushed_named {tradeTime : Bool} {insList : List StdString}
    {acts : List PipelineAction} {p : Pipeline}
    (h : Pipeline.run tradeTime insList acts = .ok p) :
    ∀ q ∈ p.pushed, q.ins = q.bar.barName.chars := by
  refine Execution.run_invariant (fun p => ∀ q ∈ p.pushed, q.ins = q.bar.barName.chars) ?_ ?_ h
  · intro p a p' named hstep
    cases a with
    | append tick =>
        cases hstep
        exact named
    | distribute =>
        obtain ⟨-, rfl⟩ | ⟨tick, rest, -, rfl⟩ := step_distribute hstep
        · exact named
        · exact named
    | calculate ins =>
        obtain ⟨md, push, outcome, rfl⟩ := step_calculate hstep
        intro q hq
        obtain old | new := List.mem_append.mp hq
        · exact named q old
        · cases outcome with
          | idle => cases new
          | dump => cases new
          | emit g rest m bar =>
              obtain rfl : q = _ := List.mem_singleton.mp new
              rfl
  · intro q hq
    cases hq

/-- What has been pushed is a prefix of the bars of all ticks that have arrived. -/
theorem Pipeline.bars_leading {tradeTime : Bool} {insList : List StdString}
    {acts : List PipelineAction} {p : Pipeline} (h : Pipeline.run tradeTime insList acts = .ok p)
    {ins : StdString} (opened : AlwaysOpen tradeTime (ticksOf ins p.appended)) :
    (p.pushedOf ins).map MinutePush.bar <+: tickBars (ticksOf ins p.appended) := by
  have conserved := Pipeline.conserved_run ins h opened
  rw [(Pipeline.sound_run h).queue, ticksOf_append]
  have bars : (p.pushedOf ins).map MinutePush.bar = _ := conserved.bars_eq
  rw [bars, tickBars]
  exact (conserved.segments_leading (ticksOf ins p.md.subTicks)).filterMap _

/-- With an empty queue and nothing left to calculate it is all that can be pushed. -/
theorem Pipeline.bars_settled {tradeTime : Bool} {insList : List StdString}
    {acts : List PipelineAction} {p : Pipeline} (h : Pipeline.run tradeTime insList acts = .ok p)
    {ins : StdString} (opened : AlwaysOpen tradeTime (ticksOf ins p.appended))
    (drained : p.md.subTicks = []) (quiet : p.Quiescent ins) :
    (p.pushedOf ins).map MinutePush.bar = settledBars (ticksOf ins p.appended) := by
  have bars : (p.pushedOf ins).map MinutePush.bar = _ :=
    (Pipeline.conserved_run ins h opened).bars_eq
  rw [bars, Pipeline.channel_groups, (Pipeline.settled_result h opened drained quiet).1,
    settledBars]

/-- Every price of the bar, its open, high, low and close, is the price of one of the
ticks. -/
def PricesFrom (ticks : List MtkData) (bar : CandleBar) : Prop :=
  ∀ price ∈ bar.prices, ∃ t ∈ ticks, t.lastPrice = price

theorem PricesFrom.mono {ticks more : List MtkData} {bar : CandleBar} (h : PricesFrom ticks bar)
    (sub : ticks ⊆ more) : PricesFrom more bar := by
  intro price mem
  obtain ⟨t, ht, same⟩ := h price mem
  exact ⟨t, sub ht, same⟩

theorem pricesFrom_convertTick2min {g : List MtkData} {minBar bar : CandleBar}
    (h : CMdBroadCast.convertTick2min g minBar = .ok bar) : PricesFrom g bar := by
  simp only [CMdBroadCast.convertTick2min] at h
  split at h
  · next first last hfirst hlast =>
      cases h
      obtain ⟨tail, rfl⟩ := List.head?_eq_some_iff.mp hfirst
      have high := foldl_isGreatest MtkData.lastPrice (first :: tail) first.lastPrice
      have low := foldl_isLeast MtkData.lastPrice (first :: tail) first.lastPrice
      rw [trackedPrices_eq] at high low
      intro price mem
      simp only [CandleBar.prices, List.mem_cons, List.not_mem_nil, or_false] at mem
      obtain rfl | rfl | rfl | rfl := mem
      · exact ⟨first, List.mem_cons_self .., rfl⟩
      · exact high.1
      · exact low.1
      · exact ⟨last, List.mem_of_mem_getLast? hlast, rfl⟩
  · cases h

/-- What every channel keeps, also one whose buffer is cleared at the close: groups and
buffer are a part of the received ticks in their order, and each pushed bar is made from
its own group. -/
structure Flows (c : Channel) : Prop where
  stream : (c.groups.flatten ++ c.buffer).Sublist c.received
  bars : ∀ push ∈ c.pushed, ∃ minBar,
    CMdBroadCast.convertTick2min push.minTicks minBar = .ok push.bar

/-- In both builds ticks may get lost, but they do not change their order. -/
theorem Pipeline.flows_run {tradeTime : Bool} {insList : List StdString}
    {acts : List PipelineAction} {p : Pipeline} (h : Pipeline.run tradeTime insList acts = .ok p)
    (ins : StdString) : Flows (p.channel ins) := by
  refine Pipeline.channel_invariant Flows ⟨.slnil, by simp⟩ ?_ h
  intro c d flows hstep
  cases hstep with
  | idle => exact flows
  | push t named =>
      refine ⟨?_, flows.bars⟩
      change (c.groups.flatten ++ pushFresh c.buffer t).Sublist _
      obtain same | same := pushFresh_eq c.buffer t
      · rw [same]
        exact flows.stream.trans (List.sublist_append_left _ _)
      · rw [same, ← List.append_assoc]
        exact flows.stream.append (List.Sublist.refl [t])
  | emit g rest m bar lead enough hbar named =>
      constructor
      · have split : c.buffer = g ++ rest := lead.split
        have stream := flows.stream
        rw [split, ← List.append_assoc] at stream
        simpa [Channel.groups] using stream
      · intro push mem
        obtain old | new := List.mem_append.mp mem
        · exact flows.bars push old
        · obtain rfl := List.mem_singleton.mp new
          exact ⟨_, hbar⟩
  | dump =>
      refine ⟨?_, flows.bars⟩
      refine List.Sublist.trans ?_ flows.stream
      exact (List.Sublist.refl _).append (List.nil_sublist _)

/-- A pushed bar has its prices from the ticks that have arrived. -/
theorem Pipeline.pushed_prices {tradeTime : Bool} {insList : List StdString}
    {acts : List PipelineAction} {p : Pipeline} (h : Pipeline.run tradeTime insList acts = .ok p)
    (ins : StdString) : ∀ push ∈ p.pushedOf ins, PricesFrom (ticksOf ins p.appended) push.bar := by
  have flows := Pipeline.flows_run h ins
  intro push mem
  obtain ⟨minBar, made⟩ := flows.bars push mem
  refine (pricesFrom_convertTick2min made).mono fun t ht => ?_
  have inGroups : t ∈ (p.channel ins).groups.flatten :=
    List.mem_flatten_of_mem (List.mem_map_of_mem mem) ht
  have received : t ∈ ticksOf ins p.distributed :=
    flows.stream.subset (List.mem_append_left _ inGroups)
  exact (Pipeline.distributed_sublist h ins).subset received

/-- The closes of the pushed bars follow each other as the prices of the ticks do. -/
theorem Pipeline.pushed_pairwise {tradeTime : Bool} {insList : List StdString}
    {acts : List PipelineAction} {p : Pipeline} (h : Pipeline.run tradeTime insList acts = .ok p)
    (ins : StdString) {R : ℚ → ℚ → Prop}
    (ticks : (ticksOf ins p.appended).Pairwise fun a b => R a.lastPrice b.lastPrice) :
    (p.pushedOf ins).Pairwise fun a b => R a.bar.closePrice b.bar.closePrice := by
  have flows := Pipeline.flows_run h ins
  have stream : (p.groupsOf ins).flatten.Pairwise fun a b => R a.lastPrice b.lastPrice :=
    ticks.sublist (((List.sublist_append_left _ _).trans flows.stream).trans
      (Pipeline.distributed_sublist h ins))
  have groups := (List.pairwise_flatten.mp stream).2
  rw [Pipeline.groupsOf, List.pairwise_map] at groups
  have close (push : MinutePush) (mem : push ∈ p.pushedOf ins) :
      ∃ last ∈ push.minTicks, push.bar.closePrice = last.lastPrice := by
    obtain ⟨minBar, made⟩ := flows.bars push mem
    simp only [CMdBroadCast.convertTick2min] at made
    split at made
    · next first last hfirst hlast =>
        have same := congrArg CandleBar.closePrice (Except.ok.inj made)
        exact ⟨last, List.mem_of_mem_getLast? hlast, same.symm⟩
    · cases made
  refine groups.imp_of_mem ?_
  intro a b ha hb all
  obtain ⟨x, hx, closeA⟩ := close a ha
  obtain ⟨y, hy, closeB⟩ := close b hb
  rw [closeA, closeB]
  exact all x hx y hy

end CtpTrade
