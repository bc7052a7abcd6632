import CtpTrade.MdBroadcast.Pipeline

/-!
# One instrument's view of the pipeline

A `Channel` keeps the buffer, the open flag, the emitted bars and the received
ticks of one instrument. Whatever the other instruments do, a pipeline step is
one of four channel steps (`channel_step`), so an invariant of channel steps
holds in every reachable state of the pipeline (`channel_invariant`).
-/

namespace CtpTrade

open Segments

/-- What the pipeline has of one instrument: its buffer and flag, the calls it has led
to, and the ticks it has received. -/
structure Channel where
  buffer : List MtkData
  isOpen : Bool
  pushed : List MinutePush
  received : List MtkData

namespace Channel

def groups (c : Channel) : List (List MtkData) := c.pushed.map MinutePush.minTicks

/-- What a pipeline step can do to the channel of `ins`, for either build. A tick of the
instrument comes in; the leading minute becomes a bar; a closed market's buffer with a
single minute is cleared; or the channel stays as it is. -/
inductive Step (tradeTime : Bool) (ins : StdString) (c : Channel) : Channel → Prop where
  | idle : Step tradeTime ins c c
  | push (t : MtkData) (named : t.instrumentID.chars = ins) :
      Step tradeTime ins c { c with
        buffer := pushFresh c.buffer t
        isOpen := CMdBroadCast.checkMtkTime tradeTime t.updateTime.chars
        received := c.received ++ [t] }
  | emit (g rest : List MtkData) (m : Nat) (bar : CandleBar)
      (lead : LeadingMinute c.buffer g rest m)
      (enough : c.isOpen = true → maxMinuteTicks / 2 < c.buffer.length)
      (hbar : CMdBroadCast.convertTick2min g { tradeTime := m * 100 } = .ok bar)
      (named : bar.barName.chars = ins) :
      Step tradeTime ins c { c with
        buffer := rest
        pushed := c.pushed ++ [⟨ins, g, bar⟩] }
  | dump (closed : c.isOpen = false) (hne : c.buffer ≠ []) (uniform : Uniform minute c.buffer) :
      Step tradeTime ins c { c with buffer := [] }

end Channel

namespace Pipeline

variable {tradeTime : Bool} {p q : Pipeline} {ins : StdString}

/-- The part of the pipeline state that belongs to `ins`. -/
def channel (p : Pipeline) (ins : StdString) : Channel where
  buffer := p.buffer ins
  isOpen := p.md.mtkOpen.get ins
  pushed := p.pushedOf ins
  received := ticksOf ins p.distributed

@[simp] theorem channel_groups (p : Pipeline) (ins : StdString) :
    (p.channel ins).groups = p.groupsOf ins := rfl

theorem channel_start (insList : List StdString) :
    (start insList).channel ins = ⟨[], false, [], []⟩ := by
  simp only [channel, start_buffer, start_mtkOpen]
  rfl

/-- Every pipeline step is a step of the channel, or leaves it alone. -/
theorem channel_step {a : PipelineAction} (sound : Sound p) (h : step tradeTime p a = .ok q) :
    Channel.Step tradeTime ins (p.channel ins) (q.channel ins) := by
  have stay : Channel.Step tradeTime ins (p.channel ins) (p.channel ins) := .idle
  cases a with
  | append tick =>
      rw [step_append] at h
      cases h
      exact stay
  | distribute =>
      obtain ⟨-, rfl⟩ | ⟨tick, rest, hqueue, rfl⟩ := step_distribute h
      · exact stay
      · by_cases same : tick.instrumentID.chars = ins
        · have push : Channel.Step tradeTime ins (p.channel ins) _ := .push tick same
          subst same
          simpa [channel, buffer, pushedOf, ticksOf_cons_same] using push
        · have other : ins ≠ tick.instrumentID.chars := fun h => same h.symm
          simpa [channel, buffer, pushedOf, OrderedMap.get_set_ne _ _ other,
            ticksOf_cons_ne same] using stay
  | calculate ins' =>
      obtain ⟨md, push, outcome, rfl⟩ := step_calculate h
      cases outcome with
      | idle => simpa [channel, buffer, pushedOf] using stay
      | emit g rest m bar lead enough hbar =>
          have named : bar.barName.chars = ins' := by
            obtain ⟨⟨t, ht, hname⟩, -⟩ := CMdBroadCast.convertTick2min_name hbar
            rw [hname]
            exact sound.named ins' t (by simp [buffer, lead.split, ht])
          by_cases same : ins' = ins
          · subst same
            have emit : Channel.Step tradeTime ins' (p.channel ins') _ :=
              .emit g rest m bar lead enough hbar named
            simpa [channel, buffer, pushedOf, named] using emit
          · have other : ins ≠ ins' := fun h => same h.symm
            simpa [channel, buffer, pushedOf, named, OrderedMap.get_set_ne _ _ other, same]
              using stay
      | dump closed hne uniform =>
          by_cases same : ins' = ins
          · subst same
            have dump : Channel.Step tradeTime ins' (p.channel ins') _ := .dump closed hne uniform
            simpa [channel, buffer, pushedOf] using dump
          · have other : ins ≠ ins' := fun h => same h.symm
            simpa [channel, buffer, pushedOf, OrderedMap.get_set_ne _ _ other] using stay

/-- An invariant of channel steps holds in every reachable pipeline state. -/
theorem channel_invariant {insList : List StdString} {acts : List PipelineAction}
    (I : Channel → Prop) (start : I ⟨[], false, [], []⟩)
    (keep : ∀ c d, I c → Channel.Step tradeTime ins c d → I d)
    (h : run tradeTime insList acts = .ok p) : I (p.channel ins) := by
  have both : Sound p ∧ I (p.channel ins) := by
    refine Execution.run_invariant (fun p => Sound p ∧ I (p.channel ins)) ?_ ?_ h
    · rintro p a q ⟨sound, hI⟩ hstep
      exact ⟨sound_step sound hstep, keep _ _ hI (channel_step sound hstep)⟩
    · exact ⟨sound_start insList, by rwa [channel_start]⟩
  exact both.2

end Pipeline

theorem pushFresh_eq (vec : List MtkData) (t : MtkData) :
    pushFresh vec t = vec ∨ pushFresh vec t = vec ++ [t] := by
  simp only [pushFresh]
  split
  · exact .inr rfl
  · split_ifs
    · exact .inr rfl
    · exact .inl rfl

/-- The filter only looks at the back of the buffer. -/
theorem pushFresh_append {front vec : List MtkData} (h : vec ≠ []) (t : MtkData) :
    pushFresh (front ++ vec) t = front ++ pushFresh vec t := by
  have back : (front ++ vec).getLast? = vec.getLast? := by
    simp [List.getLast?_append, List.getLast?_eq_some_getLast h]
  simp only [pushFresh, back, List.getLast?_eq_some_getLast h]
  split_ifs
  · simp
  · rfl

theorem pushFresh_ne_nil (vec : List MtkData) (t : MtkData) : pushFresh vec t ≠ [] := by
  simp only [pushFresh]
  split
  · simp
  · next back hback =>
      have hne : vec ≠ [] := by
        rintro rfl
        simp at hback
      split_ifs
      · simp
      · exact hne

theorem pushFresh_sublist {vec ticks : List MtkData} (h : vec.Sublist ticks) (t : MtkData) :
    (pushFresh vec t).Sublist (ticks ++ [t]) := by
  obtain eq | eq := pushFresh_eq vec t
  · rw [eq]
    exact h.trans (List.sublist_append_left ticks [t])
  · rw [eq]
    exact h.append (List.Sublist.refl [t])

/-- In every build the buffer is a subsequence of the received ticks. -/
theorem Pipeline.buffer_sublist {tradeTime : Bool} {insList : List StdString}
    {acts : List PipelineAction} {p : Pipeline} (ins : StdString)
    (h : Pipeline.run tradeTime insList acts = .ok p) :
    (p.buffer ins).Sublist (ticksOf ins p.distributed) := by
  refine Pipeline.channel_invariant (fun c => c.buffer.Sublist c.received) (.refl _) ?_ h
  intro c d hc hstep
  cases hstep with
  | idle => exact hc
  | push t => exact pushFresh_sublist hc t
  | emit g rest m bar lead =>
      refine List.Sublist.trans ?_ hc
      rw [lead.split]
      exact List.sublist_append_right g rest
  | dump => exact List.nil_sublist _

end CtpTrade
