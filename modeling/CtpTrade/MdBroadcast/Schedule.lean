import CtpTrade.MdBroadcast.Conservation

/-!
# The minute bars do not depend on the schedule

Whether a minute is emitted depends on the buffer size at the moment the
calculation thread looks, so schedules emit at different moments. An emission
that was possible once stays possible while ticks arrive, hence every schedule
that runs until nothing moves any more emits what the greedy consumer `settle`
emits from the segments of the accepted stream.
-/

namespace CtpTrade

open Segments

/-- A push is determined by its tick group. -/
theorem BarOf.eq {ins : StdString} {a b : MinutePush} (ha : BarOf ins a) (hb : BarOf ins b)
    (hne : a.minTicks ≠ []) (same : a.minTicks = b.minTicks) : a = b := by
  obtain ⟨insA, ticksA, barA⟩ := a
  obtain ⟨insB, ticksB, barB⟩ := b
  obtain ⟨rfl, m, hm, hbarA⟩ := ha
  obtain ⟨rfl, n, hn, hbarB⟩ := hb
  obtain rfl : ticksA = ticksB := same
  obtain ⟨t, ht⟩ := List.exists_mem_of_ne_nil _ hne
  obtain rfl : m = n := (hm t ht).symm.trans (hn t ht)
  have eq : barA = barB := by
    rw [hbarA] at hbarB
    exact Except.ok.inj hbarB
  rw [eq]

private theorem pushes_eq {ins : StdString} {xs ys : List MinutePush}
    (hx : ∀ q ∈ xs, BarOf ins q) (hy : ∀ q ∈ ys, BarOf ins q)
    (hne : ∀ g ∈ xs.map MinutePush.minTicks, g ≠ [])
    (same : xs.map MinutePush.minTicks = ys.map MinutePush.minTicks) : xs = ys := by
  induction xs generalizing ys with
  | nil => simpa using same.symm
  | cons x xs ih =>
      cases ys with
      | nil => simp at same
      | cons y ys =>
          obtain ⟨head, tail⟩ := List.cons.inj same
          have hxy : x = y := (hx x (by simp)).eq (hy y (by simp)) (hne _ (by simp)) head
          have rest := ih (fun q hq => hx q (by simp [hq])) (fun q hq => hy q (by simp [hq]))
            (fun g hg => hne g (List.mem_cons_of_mem _ hg)) tail
          rw [hxy, rest]

theorem Settled.forced {bound : Nat} {gs : List (List MtkData)} {buffer : List MtkData}
    (h : Settled bound gs buffer) (i : Nat) (hi : i < gs.length) :
    bound < ((gs ++ segments minute buffer).drop i).flatten.length ∧
      1 < ((gs ++ segments minute buffer).drop i).length := by
  have here := h.drop i
  have split : (gs ++ segments minute buffer).drop i = gs.drop i ++ segments minute buffer :=
    List.drop_append_of_le_length (by omega)
  obtain ⟨g, tail, htail⟩ := List.exists_cons_of_ne_nil (show gs.drop i ≠ [] by simpa using hi)
  rw [split, htail]
  rw [htail] at here
  obtain ⟨enough, ⟨m, lead⟩, -⟩ := here
  refine ⟨by simpa using enough, ?_⟩
  have more : tail ++ segments minute buffer ≠ [] := by
    intro hnil
    obtain ⟨htail', hseg⟩ := List.append_eq_nil_iff.mp hnil
    have hbuffer : buffer = [] := by
      rw [← segments_flatten minute buffer, hseg]
      rfl
    exact lead.rest_ne (by simp [htail', hbuffer])
  have := List.length_pos_iff.mpr more
  simp only [List.cons_append, List.length_cons]
  omega

namespace Pipeline

variable {tradeTime : Bool} {insList : List StdString} {acts : List PipelineAction} {p : Pipeline}
variable {ins : StdString}

/-- A schedule that ends with an empty queue and a quiescent channel emits the
groups the greedy consumer emits, and leaves the other segments in the buffer. -/
theorem settled_result (h : run tradeTime insList acts = .ok p)
    (opened : AlwaysOpen tradeTime (ticksOf ins p.appended)) (drained : p.md.subTicks = [])
    (quiet : p.Quiescent ins) :
    p.groupsOf ins = settle (maxMinuteTicks / 2)
        (segments minute (accepted (ticksOf ins p.appended))) ∧
      (p.groupsOf ins).flatten ++ p.buffer ins = accepted (ticksOf ins p.appended) := by
  have conserved := conserved_run ins h opened
  have arrived : p.distributed = p.appended := by
    simpa [drained] using (sound_run h).queue.symm
  have stream : (p.groupsOf ins).flatten ++ p.buffer ins = accepted (ticksOf ins p.appended) :=
    arrived ▸ conserved.stream
  have settled : Settled (maxMinuteTicks / 2) (p.groupsOf ins) (p.buffer ins) := conserved.settled
  refine ⟨?_, stream⟩
  rw [← stream, settled.segments_eq]
  refine (settle_eq settled.forced ?_).symm
  rw [segments_flatten, ← uniform_iff_segments_length]
  obtain ⟨-, stopped⟩ | ⟨-, empty⟩ := quiescent_idle quiet
  · exact stopped
  · exact .inl (by simp [empty])

end Pipeline

/-- Two schedules of one stream that both end with an empty queue and without
anything left to calculate emit the same bars and leave the same buffers: the
leading minutes of the accepted ticks, up to the first one from which at most
half of `max_minute_ticks` or a single minute are left. -/
theorem minute_bars_schedule_independent {insList : List StdString}
    {acts₁ acts₂ : List PipelineAction} {p₁ p₂ : Pipeline}
    (h₁ : Pipeline.run false insList acts₁ = .ok p₁)
    (h₂ : Pipeline.run false insList acts₂ = .ok p₂)
    (same : p₁.appended = p₂.appended)
    (drained₁ : p₁.md.subTicks = []) (drained₂ : p₂.md.subTicks = [])
    (quiet₁ : ∀ ins ∈ insList, p₁.Quiescent ins) (quiet₂ : ∀ ins ∈ insList, p₂.Quiescent ins) :
    ∀ ins ∈ insList,
      p₁.pushedOf ins = p₂.pushedOf ins ∧ p₁.buffer ins = p₂.buffer ins ∧
      p₁.groupsOf ins = settle (maxMinuteTicks / 2)
        (segments minute (accepted (ticksOf ins p₁.appended))) ∧
      (p₁.groupsOf ins).flatten ++ p₁.buffer ins = accepted (ticksOf ins p₁.appended) := by
  intro ins hins
  obtain ⟨groups₁, stream₁⟩ :=
    Pipeline.settled_result h₁ (alwaysOpen_false _) drained₁ (quiet₁ ins hins)
  obtain ⟨groups₂, stream₂⟩ :=
    Pipeline.settled_result h₂ (alwaysOpen_false _) drained₂ (quiet₂ ins hins)
  have groups : p₁.groupsOf ins = p₂.groupsOf ins := by rw [groups₁, groups₂, same]
  have conserved₁ := Pipeline.conserved_run ins h₁ (alwaysOpen_false _)
  have conserved₂ := Pipeline.conserved_run ins h₂ (alwaysOpen_false _)
  refine ⟨?_, ?_, groups₁, stream₁⟩
  · exact pushes_eq conserved₁.bars conserved₂.bars conserved₁.settled.group_ne_nil groups
  · have both : (p₁.groupsOf ins).flatten ++ p₁.buffer ins =
        (p₁.groupsOf ins).flatten ++ p₂.buffer ins := by rw [stream₁, groups, stream₂, same]
    exact List.append_cancel_left both

/-- The sample stream, with a calculation after each distributed tick. -/
def sampleEagerActs : List PipelineAction :=
  (List.range 63).flatMap (fun k =>
    [.append (sampleTick k), .distribute, .calculate sampleName.chars]) ++
    [.calculate sampleName.chars]

theorem minute_bars_schedule_independent_sample :
    ∃ p₁ p₂, Pipeline.run false [sampleName.chars] sampleActs = .ok p₁ ∧
      Pipeline.run false [sampleName.chars] sampleEagerActs = .ok p₂ ∧
      (p₁.pushedOf sampleName.chars).length = 2 ∧
      p₁.pushedOf sampleName.chars = p₂.pushedOf sampleName.chars := by
  let stream := (List.range 63).map sampleTick
  have late : ∃ p, Pipeline.run false [sampleName.chars] sampleActs = .ok p ∧
      p.appended = stream ∧ p.md.subTicks = [] ∧ p.Quiescent sampleName.chars ∧
      (p.pushedOf sampleName.chars).length = 2 :=
    Execution.exists_of_check (by decide +kernel)
  have eager : ∃ p, Pipeline.run false [sampleName.chars] sampleEagerActs = .ok p ∧
      p.appended = stream ∧ p.md.subTicks = [] ∧ p.Quiescent sampleName.chars :=
    Execution.exists_of_check (by decide +kernel)
  obtain ⟨p₁, hrun₁, happ₁, hqueue₁, hquiet₁, htwo⟩ := late
  obtain ⟨p₂, hrun₂, happ₂, hqueue₂, hquiet₂⟩ := eager
  have same := minute_bars_schedule_independent hrun₁ hrun₂ (happ₁.trans happ₂.symm)
    hqueue₁ hqueue₂ (by simpa using hquiet₁) (by simpa using hquiet₂)
  exact ⟨p₁, p₂, hrun₁, hrun₂, htwo, (same _ (by simp)).1⟩

end CtpTrade
