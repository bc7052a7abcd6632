import CtpTrade.MdBroadcast.Clock

/-!
# A well-ordered feed never stops the pipeline

Each fault of a critical section is excluded by one fact about the state: the
instrument has its mutex, the buffer is in minute order, and no queued tick has
a smaller volume than the back of the buffer. All three follow from the order of
the ticks that were appended, because a buffer is always a subsequence of them.
-/

namespace CtpTrade

namespace Pipeline

variable {tradeTime : Bool} {insList : List StdString} {acts : List PipelineAction} {p : Pipeline}

/-- The ticks a schedule appends, in order. -/
def appendedBy (acts : List PipelineAction) : List MtkData :=
  acts.filterMap fun
    | .append tick => some tick
    | _ => none

/-- No step creates or removes a mutex. -/
theorem tickMutex_run (h : run tradeTime insList acts = .ok p) :
    p.md.tickMutex = (start insList).md.tickMutex := by
  refine Execution.run_invariant (fun p => p.md.tickMutex = (start insList).md.tickMutex) ?_ rfl h
  intro p a q hp hstep
  cases a with
  | append tick =>
      rw [step_append] at hstep
      cases hstep
      exact hp
  | distribute =>
      obtain ⟨-, rfl⟩ | ⟨tick, rest, -, rfl⟩ := step_distribute hstep
      · exact hp
      · exact hp
  | calculate ins =>
      obtain ⟨md, push, outcome, rfl⟩ := step_calculate hstep
      cases outcome <;> exact hp

theorem appended_run (h : run tradeTime insList acts = .ok p) : p.appended = appendedBy acts := by
  induction acts using List.reverseRecOn generalizing p with
  | nil =>
      cases h
      rfl
  | append_singleton acts a ih =>
      obtain ⟨m, hm, hstep⟩ := Execution.run_concat_ok h
      have before := ih hm
      simp only [appendedBy, List.filterMap_append] at before ⊢
      cases a with
      | append tick =>
          rw [step_append] at hstep
          cases hstep
          simp [before]
      | distribute =>
          obtain ⟨-, rfl⟩ | ⟨tick, rest, -, rfl⟩ := step_distribute hstep
          · simp [before]
          · simp [before]
      | calculate ins =>
          obtain ⟨md, push, -, rfl⟩ := step_calculate hstep
          simp [before]

/-- In every build a buffer keeps the order of the feed. -/
theorem buffer_ordered (h : run tradeTime insList acts = .ok p) {ins : StdString}
    (ordered : Ordered (ticksOf ins p.appended)) : Ordered (p.buffer ins) :=
  ordered.sublist ((buffer_sublist ins h).trans (distributed_sublist h ins))

/-- No queued tick is behind the back of its buffer. -/
theorem back_le_queued (h : run tradeTime insList acts = .ok p) {tick : MtkData}
    {rest : List MtkData} (hqueue : p.md.subTicks = tick :: rest)
    (volume : (ticksOf tick.instrumentID.chars p.appended).Pairwise
      fun a b => a.volume ≤ b.volume) :
    ∀ back ∈ (p.buffer tick.instrumentID.chars).getLast?, back.volume ≤ tick.volume := by
  intro back hback
  have received : back ∈ ticksOf tick.instrumentID.chars p.distributed :=
    (buffer_sublist _ h).subset (List.mem_of_mem_getLast? hback)
  rw [(sound_run h).queue, hqueue, ticksOf_append, ticksOf_cons_same rfl] at volume
  exact (List.pairwise_append.mp volume).2.2 back received tick (by simp)

theorem mutex_run (h : run tradeTime insList acts = .ok p) {ins : StdString}
    (hins : ins ∈ insList) : p.md.tickMutex.find? ins = some () := by
  rw [tickMutex_run h]
  exact start_mutex hins

/-- A feed of subscribed instruments whose volumes do not decrease can be distributed. -/
theorem distribute_ok (h : run tradeTime insList acts = .ok p)
    (volume : ∀ ins ∈ insList, (ticksOf ins p.appended).Pairwise fun a b => a.volume ≤ b.volume)
    (subscribed : ∀ tick ∈ p.appended, tick.instrumentID.chars ∈ insList) :
    ∃ q, step tradeTime p .distribute = .ok q := by
  cases hqueue : p.md.subTicks with
  | nil => exact ⟨p, by simp only [step, hqueue]⟩
  | cons tick rest =>
      have hins : tick.instrumentID.chars ∈ insList :=
        subscribed tick (by simp [(sound_run h).queue, hqueue])
      obtain ⟨md, hpush⟩ := CMdBroadCast.tickBasePushback_no_fault tradeTime (mutex_run h hins)
        (back_le_queued h hqueue (volume _ hins))
      simp only [step, hqueue, hpush]
      exact ⟨_, rfl⟩

/-- In a state reached by an ordered feed of subscribed instruments no step faults. -/
theorem step_ok (h : run tradeTime insList acts = .ok p) {a : PipelineAction}
    (ordered : ∀ ins ∈ insList, Ordered (ticksOf ins p.appended))
    (subscribed : ∀ tick ∈ p.appended, tick.instrumentID.chars ∈ insList)
    (calculated : ∀ ins, a = .calculate ins → ins ∈ insList) :
    ∃ q, step tradeTime p a = .ok q := by
  cases a with
  | append tick => exact ⟨_, step_append tick⟩
  | distribute =>
      exact distribute_ok h (fun ins hins => (ordered ins hins).imp And.left) subscribed
  | calculate ins =>
      have hins : ins ∈ insList := calculated ins rfl
      have sorted := buffer_ordered h (ordered ins hins)
      obtain ⟨r, hcalc⟩ := CMdBroadCast.calculateMinBar_ok (mutex_run h hins)
        (sorted.imp And.right)
      simp only [step, hcalc]
      exact ⟨_, rfl⟩

end Pipeline

/-- In both builds no schedule of appends, distributions and calculations faults
on a well-ordered feed of subscribed instruments: neither `abort()` is reached,
no mutex is missing, and no empty buffer or tick group is processed. -/
theorem tick_pipeline_never_faults (tradeTime : Bool) {insList : List StdString}
    {acts : List PipelineAction}
    (feed : ∀ ins ∈ insList, WellOrdered (ticksOf ins (Pipeline.appendedBy acts)))
    (subscribed : ∀ tick ∈ Pipeline.appendedBy acts, tick.instrumentID.chars ∈ insList)
    (calculated : ∀ ins, .calculate ins ∈ acts → ins ∈ insList) :
    ∃ p, Pipeline.run tradeTime insList acts = .ok p := by
  induction acts using List.reverseRecOn with
  | nil => exact ⟨_, rfl⟩
  | append_singleton acts a ih =>
      have split : Pipeline.appendedBy (acts ++ [a]) =
          Pipeline.appendedBy acts ++ Pipeline.appendedBy [a] := by
        simp [Pipeline.appendedBy]
      have before (ins : StdString) : (ticksOf ins (Pipeline.appendedBy acts)).Sublist
          (ticksOf ins (Pipeline.appendedBy (acts ++ [a]))) := by
        rw [split, ticksOf_append]
        exact List.sublist_append_left _ _
      have named : ∀ tick ∈ Pipeline.appendedBy acts, tick.instrumentID.chars ∈ insList :=
        fun tick ht => subscribed tick (by simp [split, ht])
      obtain ⟨p, hrun⟩ := ih (fun ins hins => (feed ins hins).sublist (before ins)) named
        (fun ins hins => calculated ins (by simp [hins]))
      have happ := Pipeline.appended_run hrun
      obtain ⟨q, hstep⟩ := Pipeline.step_ok hrun (a := a)
        (fun ins hins => happ ▸ (feed ins hins).ordered.sublist (before ins))
        (happ ▸ named) (fun ins hins => calculated ins (by simp [hins]))
      refine ⟨q, ?_⟩
      rw [Pipeline.run, Execution.run_append_ok hrun, Execution.run_cons_ok hstep]
      rfl

/-- The last tick of the morning session and the first one after it. -/
def lunchActs : List PipelineAction :=
  [.append (sampleQuote 10 ⟨"11:29:59".toList, by decide⟩), .distribute,
    .append (sampleQuote 10 ⟨"11:30:01".toList, by decide⟩), .calculate sampleName.chars,
    .distribute, .calculate sampleName.chars]

theorem tick_pipeline_never_faults_lunch :
    ∃ p, Pipeline.run true [sampleName.chars] lunchActs = .ok p := by
  apply tick_pipeline_never_faults
  · intro ins hins
    obtain rfl := List.mem_singleton.mp hins
    apply WellOrdered.of_number_le
    · intro t ht
      have ht : t ∈ Pipeline.appendedBy lunchActs := List.mem_of_mem_filter ht
      simp only [lunchActs, Pipeline.appendedBy, List.filterMap_cons, List.filterMap_nil,
        List.mem_cons, List.not_mem_nil, or_false] at ht
      obtain rfl | rfl := ht
      · exact ⟨⟨11, 29, 59⟩, rfl⟩
      · exact ⟨⟨11, 30, 1⟩, rfl⟩
    · decide
    · decide
  · decide
  · simp [lunchActs]

end CtpTrade
