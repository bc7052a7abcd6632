import CtpTrade.MdBroadcast.Clock

/-!
# The minutes around the end of a session

With `_TRADE_TIME_` the open flag follows the time of the last tick, also of a
tick that the volume filter discards, and a buffer that holds a single minute
is dumped once the flag is closed. A session minute therefore survives exactly
when a traded tick of a later minute reaches the buffer no later than the first
tick outside the trading hours.

A minute with a traded tick goes through three phases: it waits in the buffer
with the market open, it is followed in the buffer by a later minute, and it has
been emitted.
-/

namespace CtpTrade

open Segments

/-- The tick trades, which the stream shows by a volume above that of every earlier
tick. Other ticks are dropped by the pushback of the buffer. -/
def Raising (ticks : List MtkData) (t : MtkData) : Prop :=
  ∃ before after, ticks = before ++ t :: after ∧ ∀ s ∈ before, s.volume < t.volume

/-- The minutes of the two trading sessions, 09:30 to 11:29 and 13:00 to 14:59, as
`check_mtk_time` counts them. -/
def SessionMinute (m : Nat) : Prop := (930 ≤ m ∧ m ≤ 1129) ∨ (1300 ≤ m ∧ m ≤ 1459)

instance (m : Nat) : Decidable (SessionMinute m) := inferInstanceAs (Decidable (_ ∨ _))

/-- The tick lies inside the trading hours, by the same test that sets the flag of the
instrument. -/
def inHours (t : MtkData) : Bool := CMdBroadCast.checkMtkTime true t.updateTime.chars

/-- Up to every tick outside the trading hours behind minute `m`, a tick behind minute
`m` has traded. Without this the close finds minute `m` alone in the buffer and dumps
it. -/
def Followed (m : Nat) (ticks : List MtkData) : Prop :=
  ∀ before t after, ticks = before ++ t :: after → inHours t = false → m < minute t →
    ∃ u, Raising (before ++ [t]) u ∧ m < minute u

theorem Raising.mem {ticks : List MtkData} {t : MtkData} (h : Raising ticks t) : t ∈ ticks := by
  obtain ⟨before, after, rfl, -⟩ := h
  simp

theorem raising_concat {ticks : List MtkData} {x t : MtkData} :
    Raising (ticks ++ [x]) t ↔ Raising ticks t ∨ (t = x ∧ ∀ s ∈ ticks, s.volume < x.volume) := by
  constructor
  · rintro ⟨before, after, eq, high⟩
    obtain rfl | ⟨after, last, rfl⟩ := List.eq_nil_or_concat after
    · obtain ⟨rfl, last⟩ := List.append_inj' eq rfl
      obtain rfl : x = t := by simpa using last
      exact .inr ⟨rfl, high⟩
    · have shorter : ticks ++ [x] = (before ++ t :: after) ++ [last] := by simpa using eq
      obtain ⟨rfl, -⟩ := List.append_inj' shorter rfl
      exact .inl ⟨before, after, rfl, high⟩
  · rintro (⟨before, after, rfl, high⟩ | ⟨rfl, high⟩)
    · exact ⟨before, after ++ [x], by simp, high⟩
    · exact ⟨ticks, [], rfl, high⟩

theorem inHours_of_session {m : Nat} {t : MtkData} (hm : SessionMinute m) (ht : minute t = m) :
    inHours t = true := by
  subst ht
  simp only [SessionMinute, minute] at hm
  simp only [inHours, CMdBroadCast.checkMtkTime, ↓reduceIte, Bool.or_eq_true, Bool.and_eq_true,
    decide_eq_true_eq]
  omega

theorem Followed.front {m : Nat} {ticks : List MtkData} {x : MtkData}
    (h : Followed m (ticks ++ [x])) : Followed m ticks := by
  rintro before t after rfl
  exact h before t (after ++ [x]) (by simp)

theorem mem_pushFresh_old {vec : List MtkData} {t x : MtkData} (h : t ∈ vec) :
    t ∈ pushFresh vec x := by
  obtain eq | eq := pushFresh_eq vec x
  · rwa [eq]
  · simp [eq, h]

/-- A tick with a volume above the back of the buffer enters it. -/
theorem mem_pushFresh_new {vec : List MtkData} {x : MtkData}
    (h : ∀ back ∈ vec.getLast?, back.volume < x.volume) : x ∈ pushFresh vec x := by
  simp only [pushFresh]
  split
  · simp
  · next back hback => simp [h back hback]

namespace LeadingMinute

variable {base g rest : List MtkData} {m : Nat}

theorem getLast?_eq (h : LeadingMinute base g rest m) : base.getLast? = rest.getLast? := by
  rw [h.split, List.getLast?_append_of_ne_nil _ h.rest_ne]

theorem rest_later (h : LeadingMinute base g rest m)
    (sorted : base.Pairwise fun a b => minute a ≤ minute b) : ∀ t ∈ rest, m < minute t := by
  obtain ⟨first, tail, htail⟩ := List.exists_cons_of_ne_nil h.rest_ne
  have hfirst := h.later first (by simp [htail])
  rw [h.split, htail] at sorted
  have behind := (List.pairwise_cons.mp (List.pairwise_append.mp sorted).2.1).1
  intro t ht
  rw [htail] at ht
  obtain rfl | ht := List.mem_cons.mp ht
  · exact hfirst
  · exact Nat.lt_of_lt_of_le hfirst (behind t ht)

/-- What is not in the leading minute stays. -/
theorem mem_rest (h : LeadingMinute base g rest m) {t : MtkData} (ht : t ∈ base)
    (hm : minute t ≠ m) : t ∈ rest := by
  rw [h.split] at ht
  obtain ht | ht := List.mem_append.mp ht
  · exact absurd (h.same t ht) hm
  · exact ht

end LeadingMinute

/-- The bars of minute `m` that have been pushed for the instrument. -/
def Channel.barsOf (c : Channel) (m : Nat) : List MinutePush :=
  c.pushed.filter fun q => q.bar.tradeTime = m * 100

/-- The buffer, the flag and the bars of a channel in terms of the ticks it has
received. The flag shows the last tick, the buffer ends with the largest volume, and
every bar is of a minute that has passed. -/
structure Tracked (c : Channel) : Prop where
  sub : c.buffer.Sublist c.received
  flag : ∀ t ∈ c.received.getLast?, c.isOpen = inHours t
  back : ∀ b ∈ c.buffer.getLast?, ∀ t ∈ c.received, t.volume ≤ b.volume
  earlier : ∀ q ∈ c.pushed, ∃ t ∈ c.received, q.bar.tradeTime < minute t * 100

theorem Tracked.sorted {c : Channel} (hc : Tracked c) (ordered : Ordered c.received) :
    c.buffer.Pairwise fun a b => minute a ≤ minute b :=
  (ordered.sublist hc.sub).imp And.right

private theorem back_pushFresh {vec ticks : List MtkData} {x : MtkData}
    (back : ∀ b ∈ vec.getLast?, ∀ t ∈ ticks, t.volume ≤ b.volume)
    (newest : ∀ t ∈ ticks, t.volume ≤ x.volume) :
    ∀ b ∈ (pushFresh vec x).getLast?, ∀ t ∈ ticks ++ [x], t.volume ≤ b.volume := by
  have appended : ∀ t ∈ ticks ++ [x], t.volume ≤ x.volume := by
    intro t ht
    obtain ht | ht := List.mem_append.mp ht
    · exact newest t ht
    · rw [List.mem_singleton.mp ht]
      exact Int32.le_refl _
  intro b hb t ht
  simp only [pushFresh] at hb
  split at hb
  · obtain rfl : x = b := by simpa using hb
    exact appended t ht
  · next last hlast =>
      split_ifs at hb with fresh
      · obtain rfl : x = b := by simpa using hb
        exact appended t ht
      · obtain rfl : last = b := by simpa [hlast] using hb
        obtain ht | ht := List.mem_append.mp ht
        · exact back last hlast t ht
        · rw [List.mem_singleton.mp ht]
          exact Int32.not_lt.mp fresh

theorem tracked_step {ins : StdString} {c d : Channel} (hc : Tracked c)
    (h : Channel.Step true ins c d) (ordered : Ordered d.received) : Tracked d := by
  cases h with
  | idle => exact hc
  | push x =>
      have newest := (List.pairwise_append.mp ordered).2.2
      refine ⟨pushFresh_sublist hc.sub x, ?_, ?_, ?_⟩
      · intro t ht
        obtain rfl : x = t := by simpa using ht
        rfl
      · exact back_pushFresh hc.back fun t ht => (newest t ht x (by simp)).1
      · intro q hq
        obtain ⟨t, ht, lt⟩ := hc.earlier q hq
        exact ⟨t, List.mem_append_left _ ht, lt⟩
  | emit g rest m bar lead enough hbar =>
      have hrest : rest.Sublist c.buffer := by
        rw [lead.split]
        exact List.sublist_append_right g rest
      refine ⟨hrest.trans hc.sub, hc.flag, ?_, ?_⟩
      · intro b hb
        exact hc.back b (by rwa [lead.getLast?_eq])
      · intro q hq
        obtain hq | hq := List.mem_append.mp hq
        · exact hc.earlier q hq
        · obtain rfl := List.mem_singleton.mp hq
          obtain ⟨first, tail, htail⟩ := List.exists_cons_of_ne_nil lead.rest_ne
          have lt := lead.later first (by simp [htail])
          refine ⟨first, (hrest.trans hc.sub).subset (by simp [htail]), ?_⟩
          rw [(CMdBroadCast.convertTick2min_name hbar).2]
          change m * 100 < minute first * 100
          omega
  | dump => exact ⟨List.nil_sublist _, hc.flag, by simp, hc.earlier⟩

/-- Where the traded ticks of minute `m` are: still waiting at the end of the buffer, in
the buffer in front of a later minute, or in the one bar of the minute. A run goes
through these phases in order. -/
inductive Phase (m : Nat) (c : Channel) : Prop where
  /-- They end the buffer and the market is open. -/
  | waiting (latest : ∀ u, Raising c.received u → minute u ≤ m)
      (inBuffer : ∀ t, Raising c.received t → minute t = m → t ∈ c.buffer)
      (low : ∀ t ∈ c.buffer, minute t ≤ m) (opened : c.isOpen = true) (none : c.barsOf m = [])
  /-- A later minute is behind them in the buffer. -/
  | followed (inBuffer : ∀ t, Raising c.received t → minute t = m → t ∈ c.buffer)
      (later : ∃ u ∈ c.buffer, m < minute u) (none : c.barsOf m = [])
  /-- They are in the one bar of the minute. -/
  | emitted (later : ∃ u ∈ c.received, m < minute u)
      (high : ∀ t ∈ c.buffer, m < minute t)
      (one : ∃ q, c.barsOf m = [q] ∧
        ∀ t, Raising c.received t → minute t = m → t ∈ q.minTicks)

section Push

variable {m : Nat} {c : Channel} {x : MtkData}

/-- The channel after a tick has been pushed. -/
private def pushTick (c : Channel) (x : MtkData) : Channel :=
  { c with
    buffer := pushFresh c.buffer x
    isOpen := inHours x
    received := c.received ++ [x] }

/-- A raising tick enters the buffer. -/
private theorem raising_mem (hc : Tracked c) (high : ∀ s ∈ c.received, s.volume < x.volume) :
    x ∈ pushFresh c.buffer x :=
  mem_pushFresh_new fun back hback =>
    high back (hc.sub.subset (List.mem_of_mem_getLast? hback))

/-- The buffer ends with the highest volume so far, so other ticks are discarded. -/
private theorem pushFresh_discard (hc : Tracked c) (hne : c.buffer ≠ [])
    (high : ¬ ∀ s ∈ c.received, s.volume < x.volume) : pushFresh c.buffer x = c.buffer := by
  have hback := List.getLast?_eq_some_getLast hne
  have stale : ¬ (c.buffer.getLast hne).volume < x.volume := by
    intro lt
    apply high
    intro s hs
    have le := hc.back _ hback s hs
    rw [Int32.le_iff_toInt_le] at le
    rw [Int32.lt_iff_toInt_lt] at lt ⊢
    omega
  simp only [pushFresh, hback, stale, ↓reduceIte]

/-- A tick of another minute raises nothing of minute `m`. -/
private theorem raising_of_other (hx : minute x ≠ m) {t : MtkData}
    (ht : Raising (c.received ++ [x]) t) (hm : minute t = m) : Raising c.received t := by
  obtain old | ⟨rfl, -⟩ := raising_concat.mp ht
  · exact old
  · exact absurd hm hx

/-- The first traded tick of a session minute. -/
private theorem phase_first (hm : SessionMinute m) (hc : Tracked c)
    (sorted : ∀ s ∈ c.received, minute s ≤ minute x)
    (fresh : ¬ ∃ t, Raising c.received t ∧ minute t = m)
    (traded : ∃ t, Raising (c.received ++ [x]) t ∧ minute t = m) : Phase m (pushTick c x) := by
  obtain ⟨t, ht, htm⟩ := traded
  obtain old | ⟨rfl, high⟩ := raising_concat.mp ht
  · exact absurd ⟨t, old, htm⟩ fresh
  refine .waiting ?_ ?_ ?_ (inHours_of_session hm htm) ?_
  · intro u hu
    obtain hu | hu := List.mem_append.mp hu.mem
    · exact htm ▸ sorted u hu
    · rw [List.mem_singleton.mp hu, htm]
  · intro u hu hum
    obtain old | ⟨rfl, -⟩ := raising_concat.mp hu
    · exact absurd ⟨u, old, hum⟩ fresh
    · exact raising_mem hc high
  · intro u hu
    obtain hu | rfl := Pipeline.mem_pushFresh hu
    · exact htm ▸ sorted u (hc.sub.subset hu)
    · exact htm.le
  · apply List.filter_eq_nil_iff.mpr
    intro q hq
    obtain ⟨s, hs, lt⟩ := hc.earlier q hq
    have le := sorted s hs
    simp only [decide_eq_true_eq]
    omega

private theorem phase_push (hm : SessionMinute m) (hc : Tracked c)
    (sorted : ∀ s ∈ c.received, minute s ≤ minute x)
    (followed : Followed m (c.received ++ [x]))
    (traded : ∃ t, Raising c.received t ∧ minute t = m) (phase : Phase m c) :
    Phase m (pushTick c x) := by
  obtain ⟨t₀, ht₀, hm₀⟩ := traded
  have reached : m ≤ minute x := hm₀ ▸ sorted t₀ ht₀.mem
  cases phase with
  | waiting latest inBuffer low opened none =>
      by_cases same : minute x = m
      · refine .waiting ?_ ?_ ?_ (inHours_of_session hm same) none
        · intro u hu
          obtain old | ⟨rfl, -⟩ := raising_concat.mp hu
          · exact latest u old
          · exact same.le
        · intro t ht htm
          obtain old | ⟨rfl, high⟩ := raising_concat.mp ht
          · exact mem_pushFresh_old (inBuffer t old htm)
          · exact raising_mem hc high
        · intro t ht
          obtain ht | rfl := Pipeline.mem_pushFresh ht
          · exact low t ht
          · exact same.le
      · have later : m < minute x := by omega
        have kept (t : MtkData) (ht : Raising (c.received ++ [x]) t) (htm : minute t = m) :
            t ∈ pushFresh c.buffer x :=
          mem_pushFresh_old (inBuffer t (raising_of_other same ht htm) htm)
        by_cases high : ∀ s ∈ c.received, s.volume < x.volume
        · exact .followed kept ⟨x, raising_mem hc high, later⟩ none
        · have latest' (u : MtkData) (hu : Raising (c.received ++ [x]) u) : minute u ≤ m := by
            obtain old | ⟨-, high'⟩ := raising_concat.mp hu
            · exact latest u old
            · exact absurd high' high
          refine .waiting latest' kept ?_ ?_ none
          · intro t ht
            have hne : c.buffer ≠ [] := List.ne_nil_of_mem (inBuffer t₀ ht₀ hm₀)
            exact low t (by rwa [pushTick, pushFresh_discard hc hne high] at ht)
          · -- otherwise a later tick would have traded by now
            by_contra closed
            obtain ⟨u, hu, hum⟩ :=
              followed c.received x [] rfl (by simpa [pushTick] using closed) later
            have := latest' u hu
            omega
  | followed inBuffer later none =>
      obtain ⟨u, hu, hum⟩ := later
      have lt : m < minute x := Nat.lt_of_lt_of_le hum (sorted u (hc.sub.subset hu))
      refine .followed ?_ ⟨u, mem_pushFresh_old hu, hum⟩ none
      intro t ht htm
      exact mem_pushFresh_old (inBuffer t (raising_of_other lt.ne' ht htm) htm)
  | emitted later high one =>
      obtain ⟨u, hu, hum⟩ := later
      have lt : m < minute x := Nat.lt_of_lt_of_le hum (sorted u hu)
      obtain ⟨q, hq, all⟩ := one
      refine .emitted ⟨u, List.mem_append_left _ hu, hum⟩ ?_ ⟨q, hq, ?_⟩
      · intro t ht
        obtain ht | rfl := Pipeline.mem_pushFresh ht
        · exact high t ht
        · exact lt
      · intro t ht htm
        exact all t (raising_of_other lt.ne' ht htm) htm

end Push

/-- An emission takes the minute out of the buffer once a later one follows it. -/
private theorem phase_emit {ins : StdString} {m m' : Nat} {c : Channel} (hc : Tracked c)
    (ordered : Ordered c.received) (traded : ∃ t, Raising c.received t ∧ minute t = m)
    {g rest : List MtkData} {bar : CandleBar} (lead : LeadingMinute c.buffer g rest m')
    (hbar : bar.tradeTime = m' * 100) (phase : Phase m c) :
    Phase m { c with buffer := rest, pushed := c.pushed ++ [⟨ins, g, bar⟩] } := by
  have restLater := lead.rest_later (hc.sorted ordered)
  have inRest {t : MtkData} (ht : t ∈ rest) : t ∈ c.buffer := by simp [lead.split, ht]
  have inGroup {t : MtkData} (ht : t ∈ g) : t ∈ c.buffer := by simp [lead.split, ht]
  have bars (other : m' ≠ m) : Channel.barsOf
      { c with buffer := rest, pushed := c.pushed ++ [⟨ins, g, bar⟩] } m = c.barsOf m := by
    have : ¬ bar.tradeTime = m * 100 := by omega
    simp [Channel.barsOf, this]
  obtain ⟨t₀, ht₀, hm₀⟩ := traded
  cases phase with
  | waiting latest inBuffer low opened none =>
      have lt : m' < m := by
        obtain ⟨first, tail, htail⟩ := List.exists_cons_of_ne_nil lead.rest_ne
        have hfirst : first ∈ rest := by simp [htail]
        exact Nat.lt_of_lt_of_le (restLater first hfirst) (low first (inRest hfirst))
      refine .waiting latest ?_ (fun t ht => low t (inRest ht)) opened ((bars lt.ne).trans none)
      intro t ht htm
      exact lead.mem_rest (inBuffer t ht htm) (by omega)
  | followed inBuffer later none =>
      obtain ⟨u, hu, hum⟩ := later
      by_cases same : m' = m
      · subst same
        refine .emitted ⟨u, hc.sub.subset hu, hum⟩ restLater ⟨⟨ins, g, bar⟩, ?_, ?_⟩
        · have old : c.pushed.filter (fun q => q.bar.tradeTime = m' * 100) = [] := none
          simp [Channel.barsOf, old, hbar]
        · intro t ht htm
          have hmem := inBuffer t ht htm
          rw [lead.split] at hmem
          obtain hmem | hmem := List.mem_append.mp hmem
          · exact hmem
          · have := restLater t hmem
            omega
      · have above : m' < m := by
          have hmem := lead.mem_rest (inBuffer t₀ ht₀ hm₀) (by omega)
          have := restLater t₀ hmem
          omega
        refine .followed ?_ ⟨u, lead.mem_rest hu (by omega), hum⟩ ((bars same).trans none)
        intro t ht htm
        exact lead.mem_rest (inBuffer t ht htm) (by omega)
  | emitted later high one =>
      have other : m' ≠ m := by
        obtain ⟨first, hfirst⟩ := List.exists_mem_of_ne_nil g lead.group_ne
        have := high first (inGroup hfirst)
        have := lead.same first hfirst
        omega
      refine .emitted later (fun t ht => high t (inRest ht)) ?_
      rw [bars other]
      exact one

/-- A dump needs a closed market and a single minute in the buffer. -/
private theorem phase_dump {m : Nat} {c : Channel}
    (traded : ∃ t, Raising c.received t ∧ minute t = m) (closed : c.isOpen = false)
    (uniform : Uniform minute c.buffer) (phase : Phase m c) : Phase m { c with buffer := [] } := by
  obtain ⟨t₀, ht₀, hm₀⟩ := traded
  cases phase with
  | waiting latest inBuffer low opened none =>
      rw [opened] at closed
      cases closed
  | followed inBuffer later none =>
      obtain ⟨u, hu, hum⟩ := later
      have := uniform t₀ (inBuffer t₀ ht₀ hm₀) u hu
      omega
  | emitted later high one => exact .emitted later (by simp) one

/-- The invariant behind the session minutes, for one minute `m`. As long as the feed is
in order and `m` is followed by a trade before the close, the ticks of `m` that traded
are in one of the phases. -/
def MinuteKept (m : Nat) (c : Channel) : Prop :=
  Ordered c.received → Followed m c.received →
    Tracked c ∧ ((∃ t, Raising c.received t ∧ minute t = m) → Phase m c)

theorem minuteKept_step {ins : StdString} {m : Nat} (hm : SessionMinute m) {c d : Channel}
    (hc : MinuteKept m c) (h : Channel.Step true ins c d) : MinuteKept m d := by
  intro ordered followed
  have keep (tracked : Tracked c) : Tracked d := tracked_step tracked h ordered
  cases h with
  | idle => exact hc ordered followed
  | push x named =>
      have front : Ordered c.received := ordered.sublist (List.sublist_append_left _ [x])
      obtain ⟨tracked, phase⟩ := hc front followed.front
      refine ⟨keep tracked, ?_⟩
      intro traded
      have sorted (s : MtkData) (hs : s ∈ c.received) : minute s ≤ minute x :=
        ((List.pairwise_append.mp ordered).2.2 s hs x (by simp)).2
      by_cases before : ∃ t, Raising c.received t ∧ minute t = m
      · exact phase_push hm tracked sorted followed before (phase before)
      · exact phase_first hm tracked sorted before traded
  | emit g rest m' bar lead enough hbar named =>
      obtain ⟨tracked, phase⟩ := hc ordered followed
      refine ⟨keep tracked, ?_⟩
      intro traded
      exact phase_emit tracked ordered traded lead
        (CMdBroadCast.convertTick2min_name hbar).2 (phase traded)
  | dump closed hne uniform =>
      obtain ⟨tracked, phase⟩ := hc ordered followed
      refine ⟨keep tracked, ?_⟩
      intro traded
      exact phase_dump traded closed uniform (phase traded)

/-- At the end of the day, when nothing moves any more, a session minute with a
traded tick has exactly one bar, and the bar contains every traded tick of the
minute, provided that a later tick has traded up to each tick outside the
trading hours behind the minute. -/
theorem session_minute_emitted_once {insList : List StdString} {acts : List PipelineAction}
    {p : Pipeline} (h : Pipeline.run true insList acts = .ok p) {ins : StdString} {m : Nat}
    (ordered : Ordered (ticksOf ins p.appended)) (drained : p.md.subTicks = [])
    (quiet : p.Quiescent ins) (ended : ∀ t ∈ (ticksOf ins p.appended).getLast?, inHours t = false)
    (session : SessionMinute m)
    (traded : ∃ t, Raising (ticksOf ins p.appended) t ∧ minute t = m)
    (followed : Followed m (ticksOf ins p.appended)) :
    ∃ q, (p.pushedOf ins).filter (fun q => q.bar.tradeTime = m * 100) = [q] ∧
      ∀ t, Raising (ticksOf ins p.appended) t → minute t = m → t ∈ q.minTicks := by
  have arrived : p.distributed = p.appended := by
    simpa [drained] using (Pipeline.sound_run h).queue.symm
  have start : MinuteKept m ⟨[], false, [], []⟩ := by
    refine fun _ _ => ⟨⟨.slnil, by simp, by simp, by simp⟩, ?_⟩
    rintro ⟨t, ht, -⟩
    simpa using ht.mem
  have kept : MinuteKept m (p.channel ins) :=
    Pipeline.channel_invariant (MinuteKept m) start
      (fun _ _ hc hstep => minuteKept_step session hc hstep) h
  have received : (p.channel ins).received = ticksOf ins p.appended :=
    congrArg (ticksOf ins) arrived
  obtain ⟨tracked, phase⟩ := kept (received ▸ ordered) (received ▸ followed)
  have phase := phase (received ▸ traded)
  obtain ⟨t₀, ht₀, hm₀⟩ := traded
  obtain ⟨last, hlast⟩ := Option.ne_none_iff_exists'.mp
    (mt List.getLast?_eq_none_iff.mp (List.ne_nil_of_mem ht₀.mem))
  have closed : p.md.mtkOpen.get ins = false :=
    (tracked.flag last (by rw [received]; exact hlast)).trans (ended last hlast)
  have empty : p.buffer ins = [] := by
    obtain ⟨opened, -⟩ | ⟨-, empty⟩ := Pipeline.quiescent_idle quiet
    · rw [opened] at closed
      cases closed
    · exact empty
  have inBuffer_false (h : ∀ t, Raising (p.channel ins).received t → minute t = m →
      t ∈ (p.channel ins).buffer) : False := by
    have hmem : t₀ ∈ p.buffer ins := h t₀ (received ▸ ht₀) hm₀
    simp [empty] at hmem
  cases phase with
  | waiting latest inBuffer => exact (inBuffer_false inBuffer).elim
  | followed inBuffer => exact (inBuffer_false inBuffer).elim
  | emitted later high one => exact received ▸ one

/-- It is enough that a later tick trades before the first tick outside the
trading hours, or is that tick itself. -/
theorem Followed.of_split {m : Nat} {front back : List MtkData} {u : MtkData}
    (inside : ∀ t ∈ front, inHours t = true) (high : ∀ s ∈ front, s.volume < u.volume)
    (later : m < minute u) : Followed m (front ++ u :: back) := by
  intro before t after eq closed _
  have raising (more : List MtkData) : Raising (front ++ u :: more) u := ⟨front, more, rfl, high⟩
  obtain ⟨middle, rfl, rest⟩ | ⟨middle, rfl, rest⟩ := List.append_eq_append_iff.mp eq
  · cases middle with
    | nil =>
        obtain rfl := (List.cons.inj rest).1
        exact ⟨u, by simpa using raising [], later⟩
    | cons v middle =>
        obtain rfl := (List.cons.inj rest).1
        exact ⟨u, by simpa using raising (middle ++ [t]), later⟩
  · cases middle with
    | nil =>
        obtain rfl := (List.cons.inj rest).1
        exact ⟨t, by simpa using raising [], later⟩
    | cons v middle =>
        obtain rfl := (List.cons.inj rest).1
        rw [inside t (by simp)] at closed
        cases closed

/-- Two ticks of the last minute, then one after the close. -/
def closeActs (lastVolume : Int32) : List PipelineAction :=
  [.append (sampleQuote 10 ⟨"14:59:30".toList, by decide⟩),
    .append (sampleQuote 11 ⟨"14:59:59".toList, by decide⟩),
    .append (sampleQuote lastVolume ⟨"15:00:01".toList, by decide⟩),
    .distribute, .distribute, .distribute,
    .calculate sampleName.chars, .calculate sampleName.chars]

theorem session_minute_emitted_once_close :
    ∃ p, Pipeline.run true [sampleName.chars] (closeActs 12) = .ok p ∧
      ∃ q, (p.pushedOf sampleName.chars).filter (fun q => q.bar.tradeTime = 1459 * 100) = [q] := by
  let a := sampleQuote 10 ⟨"14:59:30".toList, by decide⟩
  let b := sampleQuote 11 ⟨"14:59:59".toList, by decide⟩
  let u := sampleQuote 12 ⟨"15:00:01".toList, by decide⟩
  have reached : ∃ p, Pipeline.run true [sampleName.chars] (closeActs 12) = .ok p ∧
      ticksOf sampleName.chars p.appended = [a, b] ++ u :: [] ∧ p.md.subTicks = [] ∧
      p.Quiescent sampleName.chars :=
    Execution.exists_of_check (by decide +kernel)
  obtain ⟨p, hrun, hticks, hqueue, hquiet⟩ := reached
  have one := session_minute_emitted_once hrun (m := 1459) (by rw [hticks]; decide) hqueue hquiet
    (by rw [hticks]; decide) (by decide)
    (hticks ▸ ⟨a, ⟨[], [b, u], rfl, by simp⟩, by decide⟩)
    (hticks ▸ Followed.of_split (by decide) (by decide) (by decide))
  obtain ⟨q, hq, -⟩ := one
  exact ⟨p, hrun, q, hq⟩

/-- A tick after the close that trades nothing closes the flag, and the last
minute of the session is dumped. -/
theorem session_minute_dumped :
    ¬ ∀ (insList : List StdString) (acts : List PipelineAction) (p : Pipeline) (ins : StdString)
      (m : Nat), Pipeline.run true insList acts = .ok p → ins ∈ insList →
      WellOrdered (ticksOf ins p.appended) → p.md.subTicks = [] → p.Quiescent ins →
      (∀ t ∈ (ticksOf ins p.appended).getLast?, inHours t = false) → SessionMinute m →
      (∃ t, Raising (ticksOf ins p.appended) t ∧ minute t = m) →
      ∃ q, (p.pushedOf ins).filter (fun q => q.bar.tradeTime = m * 100) = [q] ∧
        ∀ t, Raising (ticksOf ins p.appended) t → minute t = m → t ∈ q.minTicks := by
  intro claim
  let a := sampleQuote 10 ⟨"14:59:30".toList, by decide⟩
  let b := sampleQuote 11 ⟨"14:59:59".toList, by decide⟩
  let u := sampleQuote 11 ⟨"15:00:01".toList, by decide⟩
  have reached : ∃ p, Pipeline.run true [sampleName.chars] (closeActs 11) = .ok p ∧
      ticksOf sampleName.chars p.appended = [a, b, u] ∧ p.md.subTicks = [] ∧
      p.Quiescent sampleName.chars ∧ p.pushed = [] :=
    Execution.exists_of_check (by decide +kernel)
  obtain ⟨p, hrun, hticks, hqueue, hquiet, hnone⟩ := reached
  have feed : WellOrdered (ticksOf sampleName.chars p.appended) := by
    rw [hticks]
    refine .of_number_le ?_ (by decide) (by decide)
    intro t ht
    simp only [List.mem_cons, List.not_mem_nil, or_false] at ht
    obtain rfl | rfl | rfl := ht
    · exact ⟨⟨14, 59, 30⟩, rfl⟩
    · exact ⟨⟨14, 59, 59⟩, rfl⟩
    · exact ⟨⟨15, 0, 1⟩, rfl⟩
  obtain ⟨q, hq, -⟩ := claim _ _ p _ 1459 hrun (by simp) feed hqueue hquiet
    (by rw [hticks]; decide) (by decide)
    (hticks ▸ ⟨a, ⟨[], [b, u], rfl, by simp⟩, by decide⟩)
  simp [Pipeline.pushedOf, hnone] at hq

end CtpTrade
