import CtpTrade.Library.Execution
import CtpTrade.MdBroadcast.Process

/-!
# The tick pipeline as a system

A pipeline step is one of the three concurrent activities: the feed appends a
tick to `sub_ticks_`, the distribution thread pushes the next queued tick, or
the calculation thread runs `calculate_min_bar`. The queue holds the ticks that
are not distributed yet, so the three kinds of steps interleave freely.

The state remembers what has been appended, distributed and pushed so far. A
`Channel` is the part of the state that belongs to one instrument; `channel_step`
projects every pipeline step to it, and the theorems about an instrument are
proved there.
-/

namespace CtpTrade

open Segments

/-- The broadcast module with what has passed through it: the ticks that have been
appended to the queue, those that have been taken out of it, and the bars that have been
pushed. -/
structure Pipeline where
  md : CMdBroadCast
  appended : List MtkData := []
  distributed : List MtkData := []
  pushed : List MinutePush := []

/-- A step of one of the three threads of the module. The ticks come from outside and
may come at any time. -/
inductive PipelineAction where
  | append (tick : MtkData)
  | distribute
  | calculate (ins : StdString)

/-- The ticks of one instrument, in order. -/
def ticksOf (ins : StdString) (ticks : List MtkData) : List MtkData :=
  ticks.filter fun t => t.instrumentID.chars = ins

@[simp] theorem ticksOf_nil (ins : StdString) : ticksOf ins [] = [] := rfl

@[simp] theorem ticksOf_append (ins : StdString) (a b : List MtkData) :
    ticksOf ins (a ++ b) = ticksOf ins a ++ ticksOf ins b := List.filter_append ..

theorem ticksOf_cons_same {ins : StdString} {t : MtkData} (h : t.instrumentID.chars = ins)
    (ticks : List MtkData) : ticksOf ins (t :: ticks) = t :: ticksOf ins ticks := by
  simp [ticksOf, h]

theorem ticksOf_cons_ne {ins : StdString} {t : MtkData} (h : t.instrumentID.chars ≠ ins)
    (ticks : List MtkData) : ticksOf ins (t :: ticks) = ticksOf ins ticks := by
  simp [ticksOf, h]

/-- The ticks that enter a buffer that is never cleared: the first tick, and each
tick whose volume is above that of the one accepted before it. -/
def accepted (ticks : List MtkData) : List MtkData := ticks.foldl pushFresh []

@[simp] theorem accepted_nil : accepted [] = [] := rfl

theorem accepted_concat (ticks : List MtkData) (t : MtkData) :
    accepted (ticks ++ [t]) = pushFresh (accepted ticks) t := by
  simp [accepted]

namespace Pipeline

/-- The pipeline right after `set_intruments`. -/
def start (ins : List StdString) : Pipeline :=
  { md := ({} : CMdBroadCast).setIntruments ins }

def step (tradeTime : Bool) (p : Pipeline) : PipelineAction → Except Fault Pipeline
  | .append tick =>
    .ok { p with
      md := p.md.onRtnDepthMarketData tick
      appended := p.appended ++ [tick] }
  | .distribute =>
    match p.md.subTicks with
    | [] => .ok p
    | tick :: rest =>
      match p.md.tickBasePushback tradeTime tick.instrumentID.chars tick with
      | .error e => .error e
      | .ok md => .ok { p with
          md := { md with subTicks := rest }
          distributed := p.distributed ++ [tick] }
  | .calculate ins =>
    match p.md.calculateMinBar ins with
    | .error e => .error e
    | .ok (md, push) => .ok { p with md := md, pushed := p.pushed ++ push.toList }

/-- The state reached by a schedule, if no step of it faults. -/
def run (tradeTime : Bool) (ins : List StdString) (acts : List PipelineAction) :
    Except Fault Pipeline :=
  Execution.run (step tradeTime) (start ins) acts

/-- The calls of `push_min_one_data` for one instrument. -/
def pushedOf (p : Pipeline) (ins : StdString) : List MinutePush :=
  p.pushed.filter fun q => q.ins = ins

/-- The tick groups of one instrument that have become minute bars. -/
def groupsOf (p : Pipeline) (ins : StdString) : List (List MtkData) :=
  (p.pushedOf ins).map MinutePush.minTicks

/-- The buffer `tick_base_[ins]`. -/
def buffer (p : Pipeline) (ins : StdString) : List MtkData := p.md.tickBase.get ins

/-- `calculate_min_bar(ins)` has no further effect, so the calculating thread has done
all its work on the ticks of the instrument so far. -/
def Quiescent (p : Pipeline) (ins : StdString) : Prop :=
  p.md.calculateMinBar ins = .ok (p.md, none)

instance (p : Pipeline) (ins : StdString) : Decidable (p.Quiescent ins) :=
  inferInstanceAs (Decidable (_ = _))

variable {tradeTime : Bool} {p q : Pipeline} {ins : StdString}

theorem step_append (tick : MtkData) :
    step tradeTime p (.append tick) = .ok { p with
      md := p.md.onRtnDepthMarketData tick
      appended := p.appended ++ [tick] } := rfl

theorem step_distribute (h : step tradeTime p .distribute = .ok q) :
    (p.md.subTicks = [] ∧ q = p) ∨ ∃ tick rest, p.md.subTicks = tick :: rest ∧
      q = { p with
        md := { p.md with
          subTicks := rest
          tickBase := p.md.tickBase.set tick.instrumentID.chars
            (pushFresh (p.buffer tick.instrumentID.chars) tick)
          mtkOpen := p.md.mtkOpen.set tick.instrumentID.chars
            (CMdBroadCast.checkMtkTime tradeTime tick.updateTime.chars) }
        distributed := p.distributed ++ [tick] } := by
  simp only [step] at h
  cases hqueue : p.md.subTicks with
  | nil =>
      simp only [hqueue] at h
      cases h
      exact .inl ⟨rfl, rfl⟩
  | cons tick rest =>
      simp only [hqueue] at h
      cases hpush : p.md.tickBasePushback tradeTime tick.instrumentID.chars tick with
      | error e => simp [hpush] at h
      | ok md =>
          simp only [hpush, Except.ok.injEq] at h
          refine .inr ⟨tick, rest, rfl, ?_⟩
          rw [← h, CMdBroadCast.tickBasePushback_ok hpush]
          rfl

theorem step_calculate (h : step tradeTime p (.calculate ins) = .ok q) :
    ∃ md push, CMdBroadCast.Outcome p.md ins md push ∧
      q = { p with md := md, pushed := p.pushed ++ push.toList } := by
  simp only [step] at h
  cases hcalc : p.md.calculateMinBar ins with
  | error e => simp [hcalc] at h
  | ok r =>
      simp only [hcalc, Except.ok.injEq] at h
      exact ⟨r.1, r.2, CMdBroadCast.calculateMinBar_outcome hcalc, h.symm⟩

/-- Where nothing is left to calculate, an open market's buffer is too short or
holds one minute, and a closed market's buffer is empty. -/
theorem quiescent_idle (quiet : p.Quiescent ins) :
    (p.md.mtkOpen.get ins = true ∧
        ((p.buffer ins).length ≤ maxMinuteTicks / 2 ∨ Uniform minute (p.buffer ins))) ∨
      (p.md.mtkOpen.get ins = false ∧ p.buffer ins = []) := by
  unfold Quiescent at quiet
  generalize hr : (p.md, (none : Option MinutePush)) = r at quiet
  obtain ⟨md, push⟩ := r
  obtain ⟨hmd, hpush⟩ := Prod.mk.inj hr
  cases CMdBroadCast.calculateMinBar_outcome quiet with
  | idle h => exact h
  | emit => cases hpush
  | dump closed hne =>
      have dumped : p.buffer ins = [] := by
        rw [buffer, hmd]
        simp
      exact absurd dumped hne

private theorem tickBasePushback_subTicks (md : CMdBroadCast) (queue : List MtkData)
    (data : MtkData) :
    ({ md with subTicks := queue } : CMdBroadCast).tickBasePushback tradeTime ins data =
      (md.tickBasePushback tradeTime ins data).map fun md => { md with subTicks := queue } := by
  simp only [CMdBroadCast.tickBasePushback]
  split
  · rfl
  · split <;> rfl

private theorem pushbackAll_subTicks (md : CMdBroadCast) (queue ticks : List MtkData) :
    ({ md with subTicks := queue } : CMdBroadCast).pushbackAll tradeTime ticks =
      (md.pushbackAll tradeTime ticks).map fun md => { md with subTicks := queue } := by
  induction ticks generalizing md with
  | nil => rfl
  | cons t ticks ih =>
      simp only [CMdBroadCast.pushbackAll, tickBasePushback_subTicks]
      cases md.tickBasePushback tradeTime t.instrumentID.chars t with
      | error e => rfl
      | ok md' => exact ih md'

private theorem pushbackAll_eq_run (queue : List MtkData) (p : Pipeline)
    (h : p.md.subTicks = queue) :
    Execution.run (step tradeTime) p (List.replicate queue.length .distribute) =
      (p.md.pushbackAll tradeTime queue).map fun md =>
        { p with md := { md with subTicks := [] }, distributed := p.distributed ++ queue } := by
  induction queue generalizing p with
  | nil =>
      simp only [List.length_nil, List.replicate_zero, Execution.run_nil,
        CMdBroadCast.pushbackAll, Except.map, List.append_nil]
      rw [← h]
  | cons t queue ih =>
      simp only [List.length_cons, List.replicate_succ, Execution.run, step, h,
        CMdBroadCast.pushbackAll]
      cases p.md.tickBasePushback tradeTime t.instrumentID.chars t with
      | error e => rfl
      | ok md =>
          simp only
          rw [ih _ rfl, pushbackAll_subTicks]
          cases md.pushbackAll tradeTime queue with
          | error e => rfl
          | ok md' => simp [Except.map]

/-- Distributing the whole queue at once is one possible schedule: a distribute
step for each queued tick, with nothing in between. -/
theorem distributeMtkTick_eq_run (p : Pipeline) :
    Execution.run (step tradeTime) p (List.replicate p.md.subTicks.length .distribute) =
      (p.md.distributeMtkTick tradeTime).map fun md =>
        { p with md := md, distributed := p.distributed ++ p.md.subTicks } := by
  rw [pushbackAll_eq_run p.md.subTicks p rfl, CMdBroadCast.distributeMtkTick]
  cases p.md.pushbackAll tradeTime p.md.subTicks <;> rfl

private theorem setIntruments_find? (insList : List StdString) (md : CMdBroadCast)
    (ins : StdString) :
    (insList.foldl CMdBroadCast.registerInstrument md).tickMutex.find? ins =
        (if ins ∈ insList then some () else md.tickMutex.find? ins) ∧
      (insList.foldl CMdBroadCast.registerInstrument md).tickBase.find? ins =
        (if ins ∈ insList then some [] else md.tickBase.find? ins) ∧
      (insList.foldl CMdBroadCast.registerInstrument md).mtkOpen.find? ins =
        (if ins ∈ insList then some false else md.mtkOpen.find? ins) ∧
      (insList.foldl CMdBroadCast.registerInstrument md).subTicks = md.subTicks := by
  induction insList generalizing md with
  | nil => simp
  | cons head insList ih =>
      obtain ⟨hmutex, hbase, hopen, hqueue⟩ := ih (md.registerInstrument head)
      rw [List.foldl_cons, hmutex, hbase, hopen, hqueue]
      simp only [CMdBroadCast.registerInstrument, find?_efficientMapOperation, List.mem_cons]
      by_cases hmem : ins ∈ insList <;> by_cases heq : ins = head <;> simp [hmem, heq]

/-- A subscribed instrument has its mutex. -/
theorem start_mutex {insList : List StdString} (h : ins ∈ insList) :
    (start insList).md.tickMutex.find? ins = some () := by
  have := (setIntruments_find? insList { subscribeInst := insList } ins).1
  simpa [start, CMdBroadCast.setIntruments, h] using this

@[simp] theorem start_buffer (insList : List StdString) : (start insList).buffer ins = [] := by
  have := (setIntruments_find? insList { subscribeInst := insList } ins).2.1
  simp only [buffer, start, CMdBroadCast.setIntruments, OrderedMap.get, this]
  split_ifs <;> rfl

@[simp] theorem start_mtkOpen (insList : List StdString) :
    (start insList).md.mtkOpen.get ins = false := by
  have := (setIntruments_find? insList { subscribeInst := insList } ins).2.2.1
  simp only [start, CMdBroadCast.setIntruments, OrderedMap.get, this]
  split_ifs <;> rfl

@[simp] theorem start_subTicks (insList : List StdString) : (start insList).md.subTicks = [] :=
  (setIntruments_find? insList { subscribeInst := insList } []).2.2.2

/-- Holds in every reachable state, whatever the feed delivers: the queue is what has
been appended and not yet distributed, and every buffer only has ticks of its own
instrument. -/
structure Sound (p : Pipeline) : Prop where
  queue : p.appended = p.distributed ++ p.md.subTicks
  named : ∀ ins, ∀ t ∈ p.buffer ins, t.instrumentID.chars = ins

theorem mem_pushFresh {vec : List MtkData} {data t : MtkData} (h : t ∈ pushFresh vec data) :
    t ∈ vec ∨ t = data := by
  simp only [pushFresh] at h
  split at h
  · simpa using h
  · split_ifs at h
    · simpa using h
    · exact .inl h

theorem sound_start (insList : List StdString) : Sound (start insList) where
  queue := by simp [start_subTicks]; rfl
  named := by simp

theorem sound_step {a : PipelineAction} (hp : Sound p) (h : step tradeTime p a = .ok q) :
    Sound q := by
  cases a with
  | append tick =>
      rw [step_append] at h
      cases h
      exact ⟨by simp [hp.queue, CMdBroadCast.onRtnDepthMarketData], hp.named⟩
  | distribute =>
      obtain ⟨-, rfl⟩ | ⟨tick, rest, hqueue, rfl⟩ := step_distribute h
      · exact hp
      · refine ⟨by simp [hp.queue, hqueue], ?_⟩
        intro ins t ht
        by_cases same : ins = tick.instrumentID.chars
        · subst same
          simp only [buffer, OrderedMap.get_set_same] at ht
          obtain ht | rfl := mem_pushFresh ht
          · exact hp.named _ t ht
          · rfl
        · simp only [buffer, OrderedMap.get_set_ne _ _ same] at ht
          exact hp.named ins t ht
  | calculate ins' =>
      obtain ⟨md, push, outcome, rfl⟩ := step_calculate h
      cases outcome with
      | idle => exact ⟨hp.queue, hp.named⟩
      | emit g rest m bar lead =>
          refine ⟨hp.queue, ?_⟩
          intro ins t ht
          by_cases same : ins = ins'
          · subst same
            simp only [buffer, OrderedMap.get_set_same] at ht
            exact hp.named ins t (by simp [buffer, lead.split, ht])
          · simp only [buffer, OrderedMap.get_set_ne _ _ same] at ht
            exact hp.named ins t ht
      | dump =>
          refine ⟨hp.queue, ?_⟩
          intro ins t ht
          by_cases same : ins = ins'
          · subst same
            simp [buffer] at ht
          · simp only [buffer, OrderedMap.get_set_ne _ _ same] at ht
            exact hp.named ins t ht

theorem sound_run {insList : List StdString} {acts : List PipelineAction}
    (h : run tradeTime insList acts = .ok p) : Sound p :=
  Execution.run_invariant Sound (fun _ _ _ hs hstep => sound_step hs hstep)
    (sound_start insList) h

theorem distributed_sublist {insList : List StdString} {acts : List PipelineAction}
    (h : run tradeTime insList acts = .ok p) (ins : StdString) :
    (ticksOf ins p.distributed).Sublist (ticksOf ins p.appended) := by
  rw [(sound_run h).queue, ticksOf_append]
  exact List.sublist_append_left _ _

end Pipeline

end CtpTrade
