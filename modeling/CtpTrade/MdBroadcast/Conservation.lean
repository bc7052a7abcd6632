import CtpTrade.MdBroadcast.Channel

/-!
# No accepted tick is lost while the market is open

Without `_TRADE_TIME_` the market counts as open from the first tick on, and with it
while the ticks of the instrument lie inside the trading hours. A buffer is then never
dumped. The emitted tick groups followed by the buffer are exactly the accepted ticks of
the instrument, and the groups are whole minutes.

`Settled` describes the emitted groups from the outside in: each of them was a
leading minute of everything accepted after the groups before it. This one
predicate carries the minute boundaries, the segmentation of the stream, and
the fact that the buffer was large enough for each emission.
-/

namespace CtpTrade

open Segments

/-- Ticks in the order in which an exchange sends them: neither the volume nor the
minute decreases. The feed is not checked for this anywhere in the program. -/
def Ordered (ticks : List MtkData) : Prop :=
  ticks.Pairwise fun a b => a.volume ≤ b.volume ∧ minute a ≤ minute b

instance (ticks : List MtkData) : Decidable (Ordered ticks) := by
  unfold Ordered
  infer_instance

theorem Ordered.sublist {l m : List MtkData} (h : Ordered m) (sub : l.Sublist m) : Ordered l :=
  List.Pairwise.sublist sub h

/-- How the groups have been cut off, the oldest one first. Each group is the leading
minute of what was in the buffer then, which is the group, the later groups and the
present buffer, and there were more than `bound` ticks. -/
def Settled (bound : Nat) : List (List MtkData) → List MtkData → Prop
  | [], _ => True
  | g :: gs, buffer =>
    bound < (g ++ (gs.flatten ++ buffer)).length ∧
      (∃ m, LeadingMinute (g ++ (gs.flatten ++ buffer)) g (gs.flatten ++ buffer) m) ∧
      Settled bound gs buffer

namespace Settled

variable {bound : Nat} {gs : List (List MtkData)} {buffer : List MtkData}

/-- More ticks behind a nonempty buffer do not move the boundaries. -/
theorem append (h : Settled bound gs buffer) (hne : buffer ≠ []) (more : List MtkData) :
    Settled bound gs (buffer ++ more) := by
  induction gs with
  | nil => trivial
  | cons g gs ih =>
      obtain ⟨enough, ⟨m, lead⟩, rest⟩ := h
      refine ⟨?_, ⟨m, ?_⟩, ih rest⟩
      · simp only [List.length_append] at enough ⊢
        omega
      · refine ⟨rfl, lead.group_ne, by simp [hne], lead.same, ?_⟩
        intro t ht
        refine lead.later t ?_
        rw [← List.append_assoc, List.head?_append_of_ne_nil _ (by simp [hne])] at ht
        exact ht

/-- Cutting the leading minute off the buffer settles one more group. -/
theorem concat {g rest : List MtkData} {m : Nat} (h : Settled bound gs (g ++ rest))
    (enough : bound < (g ++ rest).length) (lead : LeadingMinute (g ++ rest) g rest m) :
    Settled bound (gs ++ [g]) rest := by
  induction gs with
  | nil => exact ⟨by simpa using enough, ⟨m, by simpa using lead⟩, trivial⟩
  | cons f gs ih =>
      obtain ⟨enough', lead', rest'⟩ := h
      exact ⟨by simpa using enough', by simpa using lead', ih rest'⟩

/-- The settled groups are the leading segments of the whole stream. -/
theorem segments_eq (h : Settled bound gs buffer) :
    segments minute (gs.flatten ++ buffer) = gs ++ segments minute buffer := by
  induction gs with
  | nil => rfl
  | cons g gs ih =>
      obtain ⟨-, ⟨m, lead⟩, rest⟩ := h
      rw [List.flatten_cons, List.append_assoc, lead.segments_eq, ih rest, List.cons_append]

theorem drop (h : Settled bound gs buffer) (i : Nat) : Settled bound (gs.drop i) buffer := by
  induction gs generalizing i with
  | nil => simpa using h
  | cons g gs ih =>
      cases i with
      | zero => exact h
      | succ i => exact ih h.2.2 i

theorem group_ne_nil (h : Settled bound gs buffer) : ∀ g ∈ gs, g ≠ [] := by
  induction gs with
  | nil => simp
  | cons g gs ih =>
      obtain ⟨-, ⟨m, lead⟩, rest⟩ := h
      intro f hf
      obtain rfl | hf := List.mem_cons.mp hf
      · exact lead.group_ne
      · exact ih rest f hf

/-- Everything behind a settled group, if it is in minute order, is later. -/
theorem later {pre post : List (List MtkData)} {g : List MtkData}
    (h : Settled bound (pre ++ g :: post) buffer)
    (sorted : (post.flatten ++ buffer).Pairwise fun a b => minute a ≤ minute b) :
    g ≠ [] ∧ Uniform minute g ∧ post.flatten ++ buffer ≠ [] ∧
      ∀ t ∈ g, ∀ u ∈ post.flatten ++ buffer, minute t < minute u := by
  have here := h.drop pre.length
  rw [List.drop_left] at here
  obtain ⟨-, ⟨m, lead⟩, -⟩ := here
  refine ⟨lead.group_ne, lead.uniform, lead.rest_ne, ?_⟩
  obtain ⟨first, tail, htail⟩ := List.exists_cons_of_ne_nil lead.rest_ne
  have hfirst : m < minute first := lead.later first (by simp [htail])
  intro t ht u hu
  rw [htail] at hu sorted
  have le : minute first ≤ minute u := by
    obtain rfl | hu := List.mem_cons.mp hu
    · exact Nat.le_refl _
    · exact (List.pairwise_cons.mp sorted).1 u hu
  rw [lead.same t ht]
  exact Nat.lt_of_lt_of_le hfirst le

end Settled

/-- The bar of a push is made from the ticks of the push by `convert_tick2min`, all of
them are of one minute, and it goes out under the instrument's name. -/
def BarOf (ins : StdString) (q : MinutePush) : Prop :=
  q.ins = ins ∧ ∃ m, (∀ t ∈ q.minTicks, minute t = m) ∧
    CMdBroadCast.convertTick2min q.minTicks { tradeTime := m * 100 } = .ok q.bar

/-- The market counts as open at the time stamp of each tick. In a build without
`_TRADE_TIME_` this holds of all ticks, because `check_mtk_time` then returns true at
once. -/
def AlwaysOpen (tradeTime : Bool) (ticks : List MtkData) : Prop :=
  ∀ t ∈ ticks, CMdBroadCast.checkMtkTime tradeTime t.updateTime.chars = true

instance (tradeTime : Bool) (ticks : List MtkData) : Decidable (AlwaysOpen tradeTime ticks) :=
  inferInstanceAs (Decidable (∀ t ∈ ticks, _))

/-- Without `_TRADE_TIME_` the market never closes. -/
theorem alwaysOpen_false (ticks : List MtkData) : AlwaysOpen false ticks := fun _ _ => rfl

theorem AlwaysOpen.subset {tradeTime : Bool} {ticks more : List MtkData}
    (h : AlwaysOpen tradeTime more) (sub : ticks ⊆ more) : AlwaysOpen tradeTime ticks :=
  fun t ht => h t (sub ht)

/-- The invariant of the channel of an instrument whose market never closes. Groups and
buffer together are what has been accepted of the stream, each group has been cut off as
the leading minute, and each bar is the one of its group. -/
structure Conserved (ins : StdString) (c : Channel) : Prop where
  opened : c.buffer ≠ [] → c.isOpen = true
  started : c.buffer = [] → c.pushed = []
  stream : c.groups.flatten ++ c.buffer = accepted c.received
  settled : Settled (maxMinuteTicks / 2) c.groups c.buffer
  bars : ∀ q ∈ c.pushed, BarOf ins q

theorem conserved_push {ins : StdString} {c : Channel} {isOpen : Bool} (hc : Conserved ins c)
    (t : MtkData) (opened : isOpen = true) :
    Conserved ins { c with
      buffer := pushFresh c.buffer t
      isOpen := isOpen
      received := c.received ++ [t] } := by
  refine ⟨fun _ => opened, fun hnil => absurd hnil (pushFresh_ne_nil _ t), ?_, ?_, hc.bars⟩
  · change c.groups.flatten ++ pushFresh c.buffer t = accepted (c.received ++ [t])
    rw [accepted_concat, ← hc.stream]
    by_cases hne : c.buffer = []
    · simp [hne, Channel.groups, hc.started hne]
    · rw [pushFresh_append hne]
  · change Settled _ c.groups (pushFresh c.buffer t)
    by_cases hne : c.buffer = []
    · simp [Channel.groups, hc.started hne, Settled]
    · obtain eq | eq := pushFresh_eq c.buffer t
      · rw [eq]
        exact hc.settled
      · rw [eq]
        exact hc.settled.append hne [t]

theorem conserved_emit {ins : StdString} {c : Channel} (hc : Conserved ins c)
    {g rest : List MtkData} {m : Nat} {bar : CandleBar}
    (lead : LeadingMinute c.buffer g rest m)
    (enough : c.isOpen = true → maxMinuteTicks / 2 < c.buffer.length)
    (hbar : CMdBroadCast.convertTick2min g { tradeTime := m * 100 } = .ok bar) :
    Conserved ins { c with buffer := rest, pushed := c.pushed ++ [⟨ins, g, bar⟩] } := by
  have hne : c.buffer ≠ [] := by simp [lead.split, lead.group_ne]
  have hopen := hc.opened hne
  have settled := hc.settled
  rw [lead.split] at settled
  refine ⟨fun _ => hopen, fun hnil => absurd hnil lead.rest_ne, ?_, ?_, ?_⟩
  · simpa [Channel.groups, lead.split] using hc.stream
  · have := settled.concat (by rw [← lead.split]; exact enough hopen) (lead.split ▸ lead)
    simpa [Channel.groups] using this
  · intro q hq
    obtain hq | hq := List.mem_append.mp hq
    · exact hc.bars q hq
    · obtain rfl := List.mem_singleton.mp hq
      exact ⟨rfl, m, lead.same, hbar⟩

theorem conserved_step {tradeTime : Bool} {ins : StdString} {c d : Channel}
    (hc : AlwaysOpen tradeTime c.received → Conserved ins c)
    (h : Channel.Step tradeTime ins c d) (opened : AlwaysOpen tradeTime d.received) :
    Conserved ins d := by
  cases h with
  | idle => exact hc opened
  | push t =>
      have before := opened.subset (List.subset_append_left _ [t])
      exact conserved_push (hc before) t (opened t (by simp))
  | emit g rest m bar lead enough hbar => exact conserved_emit (hc opened) lead enough hbar
  | dump closed hne =>
      rw [(hc opened).opened hne] at closed
      cases closed

namespace Pipeline

variable {tradeTime : Bool} {insList : List StdString} {acts : List PipelineAction} {p : Pipeline}

theorem conserved_run (ins : StdString) (h : run tradeTime insList acts = .ok p)
    (opened : AlwaysOpen tradeTime (ticksOf ins p.appended)) :
    Conserved ins (p.channel ins) :=
  channel_invariant (fun c => AlwaysOpen tradeTime c.received → Conserved ins c)
    (fun _ => ⟨by simp, by simp, by simp [Channel.groups], trivial, by simp⟩)
    (fun _ _ hc hstep => conserved_step hc hstep) h
    (opened.subset (distributed_sublist h ins).subset)

end Pipeline

theorem accepted_sublist (ticks : List MtkData) : (accepted ticks).Sublist ticks := by
  induction ticks using List.reverseRecOn with
  | nil => exact .refl _
  | append_singleton ticks t ih =>
      rw [accepted_concat]
      exact pushFresh_sublist ih t

/-- The groups that have become minute bars, followed by the buffer, are the
accepted ticks in arrival order. Each group is a whole minute: it is not empty,
its ticks share one minute, and everything accepted after it is later. -/
theorem minute_groups_conserve_stream {insList : List StdString} {acts : List PipelineAction}
    {p : Pipeline} (h : Pipeline.run false insList acts = .ok p) {ins : StdString}
    (ordered : Ordered (ticksOf ins p.appended)) :
    p.appended = p.distributed ++ p.md.subTicks ∧
      (p.groupsOf ins).flatten ++ p.buffer ins = accepted (ticksOf ins p.distributed) ∧
      ∀ pre g post, p.groupsOf ins = pre ++ g :: post →
        g ≠ [] ∧ Uniform minute g ∧ post.flatten ++ p.buffer ins ≠ [] ∧
          ∀ t ∈ g, ∀ u ∈ post.flatten ++ p.buffer ins, minute t < minute u := by
  have conserved := Pipeline.conserved_run ins h (alwaysOpen_false _)
  refine ⟨(Pipeline.sound_run h).queue, conserved.stream, ?_⟩
  intro pre g post hgroups
  have stream : pre.flatten ++ g ++ (post.flatten ++ p.buffer ins) =
      accepted (ticksOf ins p.distributed) := by
    have := conserved.stream
    rw [Pipeline.channel_groups, hgroups] at this
    simpa [Pipeline.channel] using this
  have sorted : (post.flatten ++ p.buffer ins).Pairwise fun a b => minute a ≤ minute b := by
    have tail : (post.flatten ++ p.buffer ins).Sublist (ticksOf ins p.appended) := by
      refine (List.sublist_append_right (pre.flatten ++ g) _).trans ?_
      rw [stream]
      exact (accepted_sublist _).trans (Pipeline.distributed_sublist h ins)
    exact (ordered.sublist tail).imp And.right
  have settled := conserved.settled
  rw [Pipeline.channel_groups, hgroups] at settled
  exact settled.later sorted

def sampleName : InstrumentIDType := ⟨"rb1610".toList, by decide⟩

/-- The ticks of a sample run: one tick in each of two minutes and 61 in the third, so that
two emissions find enough ticks in the buffer. -/
def sampleTick (k : Nat) : MtkData where
  instrumentID := sampleName
  lastPrice := 2000 + k
  volume := Int32.ofNat (k + 1)
  updateTime :=
    if k = 0 then ⟨"09:30:00".toList, by decide⟩
    else if k = 1 then ⟨"09:31:00".toList, by decide⟩
    else ⟨"09:32:00".toList, by decide⟩

def sampleActs : List PipelineAction :=
  (List.range 63).map (fun k => .append (sampleTick k)) ++ List.replicate 63 .distribute ++
    [.calculate sampleName.chars, .calculate sampleName.chars]

theorem minute_groups_conserve_stream_sample :
    ∃ p, Pipeline.run false [sampleName.chars] sampleActs = .ok p ∧
      (p.groupsOf sampleName.chars).length = 2 ∧
      (p.groupsOf sampleName.chars).flatten ++ p.buffer sampleName.chars =
        accepted (ticksOf sampleName.chars p.distributed) := by
  have reached : ∃ p, Pipeline.run false [sampleName.chars] sampleActs = .ok p ∧
      (p.groupsOf sampleName.chars).length = 2 ∧
      Ordered (ticksOf sampleName.chars p.appended) :=
    Execution.exists_of_check (by decide +kernel)
  obtain ⟨p, hrun, htwo, hordered⟩ := reached
  exact ⟨p, hrun, htwo, (minute_groups_conserve_stream hrun hordered).2.1⟩

end CtpTrade
