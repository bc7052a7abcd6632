import CtpTrade.MdManager.Basic
import Mathlib.Data.List.Induction

/-!
# What the compose threads see of the start-up

A compose thread copies the instrument list once, when it starts, and the main
thread stores the list only after it has created all threads. A thread works on
the requested instruments exactly when it reads the list after the main thread
has stored it.
-/

namespace CtpTrade

namespace CMdManager

/-- Everything a step of a compose thread can do to the data manager. A thread that does
not exist does nothing; one that has been created takes its copy of the list and of its
multiple; a running one moves its position in the list or composes one bar, which it
stores and announces. -/
inductive ThreadStep (md : CMdManager) (threadId : DataNo) : CMdManager → Prop where
  | idle (h : md.calculateThread threadId = .idle) : ThreadStep md threadId md
  | start (h : md.calculateThread threadId = .created) :
      ThreadStep md threadId { md with
        calculateThread := Function.update md.calculateThread threadId (.running
          { focusInstr := md.mdBroadcast.subscribeInst
            composeMultipile := md.checkupTable.get threadId.index }) }
  /-- Nothing is composed. -/
  | move (th : ComposeThread) (pos : Nat) (h : md.calculateThread threadId = .running th) :
      ThreadStep md threadId { md with
        calculateThread := Function.update md.calculateThread threadId
          (.running { th with next := pos }) }
  | compose (th : ComposeThread) (ins : StdString) (bar : CandleBar)
      (h : md.calculateThread threadId = .running th) (focus : th.focusInstr[th.next]? = some ins)
      (enough : ((md.basicMinuteKdata .one).series ins).calculateSpecifiedPeriod
        th.retrieveStartPos th.composeMultipile {} = some bar) :
      ThreadStep md threadId { md with
        basicMinuteKdata := Function.update md.basicMinuteKdata threadId
          ((md.basicMinuteKdata threadId).pushOneData ins bar)
        notified := md.notified ++ [(convertDatanoToKtype threadId, bar)]
        calculateThread := Function.update md.calculateThread threadId (.running { th with
          retrieveStartPos := th.retrieveStartPos + th.composeMultipile
          next := th.next + 1 }) }

theorem calculateMdBaseFunction_step (md : CMdManager) (threadId : DataNo) :
    ThreadStep md threadId (md.calculateMdBaseFunction threadId) := by
  simp only [calculateMdBaseFunction]
  cases h : md.calculateThread threadId with
  | idle => exact .idle h
  | created => exact .start h
  | running th =>
      cases hfocus : th.focusInstr[th.next]? with
      | none =>
          simp only [hfocus]
          exact .move th 0 h
      | some ins =>
          simp only [hfocus, composeIns]
          cases henough : (md.basicMinuteKdata .one).calculateSpecifiedBar ins
              th.retrieveStartPos th.composeMultipile {} with
          | none => exact .move th (th.next + 1) h
          | some bar => exact .compose th ins bar h hfocus henough

end CMdManager

namespace MdSystem

variable {ins : List StdString} {s : MdSystem}

/-- Where the start-up statements stand: none comes twice, the table is filled
first, and there is no thread for the minute bars. -/
private theorem start_order {first : StartStep} {rest : List StartStep}
    (h : first :: rest <:+ initialMdManager) :
    rest <:+ initialMdManager ∧ first ∉ rest ∧ .initialCheckupTable ∉ rest ∧
      first ≠ .createThread .one := by
  have once : (first :: rest).Nodup := h.sublist.nodup (by decide)
  have tail : rest <:+ initialMdManager.tail := by
    obtain same | later := List.suffix_cons_iff.mp h
    · rw [(List.cons.inj same).2]
      exact List.suffix_refl _
    · exact (List.suffix_cons first rest).trans later
  refine ⟨(List.suffix_cons first rest).trans h, (List.nodup_cons.mp once).1, ?_, ?_⟩
  · intro mem
    exact absurd (tail.subset mem) (by decide)
  · rintro rfl
    exact absurd (h.subset (List.mem_cons_self ..)) (by decide)

/-- The number of minute bars a thread composes into one bar. -/
def multiple : DataNo → Nat
  | .one => 1
  | .five => 5
  | .fiveteen => 15
  | .thirty => 30
  | .sixty => 60

/-- What the start-up guarantees in every reachable state, of whatever interleaving: the
statements of the main thread come in the order of the source, and a thread that runs
was created behind the ones its data comes from. The list is not among these. -/
structure StartUp (ins : List StdString) (s : MdSystem) : Prop where
  order : s.todo <:+ initialMdManager
  /-- The list is stored by the last statement. -/
  stored : s.manager.mdBroadcast.subscribeInst = if .setIntruments ∈ s.todo then [] else ins
  table : .initialCheckupTable ∉ s.todo →
    ∀ no, s.manager.checkupTable.get no.index = multiple no
  idleOne : s.manager.calculateThread .one = .idle
  /-- A thread is created once, and after the table has been filled. -/
  created : ∀ no, s.manager.calculateThread no ≠ .idle →
    .createThread no ∉ s.todo ∧ .initialCheckupTable ∉ s.todo
  running : ∀ no th, s.manager.calculateThread no = .running th →
    th.composeMultipile = multiple no

theorem startUp_start (ins : List StdString) : StartUp ins {} where
  order := List.suffix_refl _
  stored := rfl
  table h := absurd (by decide) h
  idleOne := rfl
  created no h := absurd rfl h
  running no th h := by cases h

private theorem checkupTable_full (md : CMdManager) (no : DataNo) :
    md.initialCheckupTable.checkupTable.get no.index = multiple no := by
  cases no <;>
    simp [CMdManager.initialCheckupTable, OrderedMap.get, OrderedMap.find?_set, DataNo.index,
      multiple]

private theorem startUp_main (hs : StartUp ins s) : StartUp ins (next ins s .main) := by
  obtain ⟨manager, todo⟩ := s
  cases todo with
  | nil => exact hs
  | cons first todo =>
      obtain ⟨order, once, ready, notOne⟩ := start_order hs.order
      have created (no : DataNo) (h : manager.calculateThread no ≠ .idle) :
          .createThread no ∉ todo ∧ .initialCheckupTable ∉ todo := by
        obtain ⟨h₁, h₂⟩ := hs.created no h
        exact ⟨fun h => h₁ (by simp [h]), fun h => h₂ (by simp [h])⟩
      have stored (other : first ≠ .setIntruments) :
          manager.mdBroadcast.subscribeInst = if .setIntruments ∈ todo then [] else ins := by
        have := hs.stored
        simpa [other.symm] using this
      have table (other : first ≠ .initialCheckupTable) (h : .initialCheckupTable ∉ todo) :
          ∀ no, manager.checkupTable.get no.index = multiple no :=
        hs.table (by simp [other.symm, h])
      cases first with
      | initialCheckupTable =>
          exact ⟨order, stored (by simp), fun _ => checkupTable_full manager, hs.idleOne, created,
            hs.running⟩
      | initialDataset no =>
          exact ⟨order, stored (by simp), table (by simp), hs.idleOne, created, hs.running⟩
      | setIntruments =>
          refine ⟨order, ?_, table (by simp), hs.idleOne, created, hs.running⟩
          simpa only [next, mainStep, once, ↓reduceIte] using
            manager.mdBroadcast.setIntruments_subscribeInst ins
      | createThread no =>
          refine ⟨order, stored (by simp), table (by simp), ?_, ?_, ?_⟩
          · have : DataNo.one ≠ no := fun h => notOne (by rw [h])
            simpa [next, mainStep, this] using hs.idleOne
          · intro other h
            by_cases same : other = no
            · subst same
              exact ⟨once, ready⟩
            · exact created other (by simpa [next, mainStep, same] using h)
          · intro other th h
            by_cases same : other = no
            · subst same
              simp [next, mainStep] at h
            · exact hs.running other th (by simpa [next, mainStep, same] using h)

private theorem startUp_thread (hs : StartUp ins s) (threadId : DataNo) :
    StartUp ins (next ins s (.thread threadId)) := by
  have put {md : CMdManager} {th : ComposeThread}
      (busy : s.manager.calculateThread threadId ≠ .idle)
      (broadcast : md.mdBroadcast = s.manager.mdBroadcast)
      (table : md.checkupTable = s.manager.checkupTable)
      (threads : md.calculateThread =
        Function.update s.manager.calculateThread threadId (.running th))
      (hth : th.composeMultipile = multiple threadId) : StartUp ins { s with manager := md } := by
    refine ⟨hs.order, by simpa only [broadcast] using hs.stored,
      by simpa only [table] using hs.table, ?_, ?_, ?_⟩
    · have : DataNo.one ≠ threadId := by
        rintro rfl
        exact busy hs.idleOne
      simpa [threads, this] using hs.idleOne
    · intro no h
      by_cases same : no = threadId
      · subst same
        exact hs.created _ busy
      · exact hs.created no (by simpa [threads, same] using h)
    · intro no th' h
      by_cases same : no = threadId
      · subst same
        simp only [threads, Function.update_self] at h
        cases h
        exact hth
      · exact hs.running no th' (by simpa [threads, same] using h)
  have step := s.manager.calculateMdBaseFunction_step threadId
  simp only [next]
  generalize s.manager.calculateMdBaseFunction threadId = md at step
  cases step with
  | idle => exact hs
  | start h =>
      exact put (by simp [h]) rfl rfl rfl
        (hs.table (hs.created threadId (by simp [h])).2 threadId)
  | move th pos h => exact put (by simp [h]) rfl rfl rfl (hs.running threadId th h)
  | compose th name bar h => exact put (by simp [h]) rfl rfl rfl (hs.running threadId th h)

theorem startUp_next (hs : StartUp ins s) (a : MdAction) : StartUp ins (next ins s a) := by
  cases a with
  | main => exact startUp_main hs
  | thread threadId => exact startUp_thread hs threadId
  | pushMinOneData name bar =>
      simp only [next]
      split_ifs
      · exact ⟨hs.order, hs.stored, hs.table, hs.idleOne, hs.created, hs.running⟩
      · exact hs

theorem startUp_run (ins : List StdString) (acts : List MdAction) : StartUp ins (run ins acts) :=
  Execution.exec_invariant (StartUp ins) (fun _ a hs => startUp_next hs a) (startUp_start ins) acts

variable {no : DataNo} {th : ComposeThread} {a : MdAction}

/-- A thread runs after a step because it ran before, or because the step made
it copy the list. -/
theorem running_next (h : (next ins s a).manager.calculateThread no = .running th) :
    (∃ old, s.manager.calculateThread no = .running old ∧ th.focusInstr = old.focusInstr) ∨
      (a = .thread no ∧ s.manager.calculateThread no = .created ∧
        th.focusInstr = s.manager.mdBroadcast.subscribeInst) := by
  have other (h : s.manager.calculateThread no = .running th) :
      (∃ old, s.manager.calculateThread no = .running old ∧ th.focusInstr = old.focusInstr) ∨
        (a = .thread no ∧ s.manager.calculateThread no = .created ∧
          th.focusInstr = s.manager.mdBroadcast.subscribeInst) := .inl ⟨th, h, rfl⟩
  cases a with
  | main =>
      obtain ⟨manager, todo⟩ := s
      cases todo with
      | nil => exact other h
      | cons first todo =>
          cases first with
          | createThread created =>
              by_cases same : no = created
              · subst same
                simp [next, mainStep] at h
              · exact other (by simpa [next, mainStep, same] using h)
          | initialCheckupTable => exact other h
          | initialDataset => exact other h
          | setIntruments => exact other h
  | pushMinOneData name bar =>
      simp only [next] at h
      split_ifs at h
      · exact other h
      · exact other h
  | thread threadId =>
      have step := s.manager.calculateMdBaseFunction_step threadId
      simp only [next] at h
      generalize s.manager.calculateMdBaseFunction threadId = md at step h
      by_cases same : no = threadId
      · subst same
        cases step with
        | idle => exact other h
        | start created =>
            simp only [Function.update_self, ThreadState.running.injEq] at h
            exact .inr ⟨rfl, created, by rw [← h]⟩
        | move old pos running =>
            simp only [Function.update_self, ThreadState.running.injEq] at h
            exact .inl ⟨old, running, by rw [← h]⟩
        | compose old name bar running =>
            simp only [Function.update_self, ThreadState.running.injEq] at h
            exact .inl ⟨old, running, by rw [← h]⟩
      · cases step with
        | idle => exact other h
        | start => exact other (by simpa [same] using h)
        | move => exact other (by simpa [same] using h)
        | compose => exact other (by simpa [same] using h)

/-- A running thread keeps its list for its whole life. -/
theorem running_kept (hs : StartUp ins s) (h : s.manager.calculateThread no = .running th)
    (a : MdAction) : ∃ later, (next ins s a).manager.calculateThread no = .running later ∧
      later.focusInstr = th.focusInstr := by
  cases a with
  | main =>
      have created := (hs.created no (by simp [h])).1
      obtain ⟨manager, todo⟩ := s
      cases todo with
      | nil => exact ⟨th, h, rfl⟩
      | cons first todo =>
          cases first with
          | createThread other =>
              have ne : no ≠ other := by
                rintro rfl
                exact created (by simp)
              exact ⟨th, by simpa [next, mainStep, ne] using h, rfl⟩
          | initialCheckupTable => exact ⟨th, h, rfl⟩
          | initialDataset => exact ⟨th, h, rfl⟩
          | setIntruments => exact ⟨th, h, rfl⟩
  | pushMinOneData name bar =>
      simp only [next]
      split_ifs
      · exact ⟨th, h, rfl⟩
      · exact ⟨th, h, rfl⟩
  | thread threadId =>
      have step := s.manager.calculateMdBaseFunction_step threadId
      simp only [next]
      generalize s.manager.calculateMdBaseFunction threadId = md at step
      by_cases same : no = threadId
      · subst same
        cases step with
        | idle => exact ⟨th, h, rfl⟩
        | start created => simp [created] at h
        | move old pos running =>
            obtain rfl : old = th := by simpa [running] using h
            exact ⟨{ old with next := pos }, by simp, rfl⟩
        | compose old name bar running =>
            obtain rfl : old = th := by simpa [running] using h
            refine ⟨{ old with
              retrieveStartPos := old.retrieveStartPos + old.composeMultipile
              next := old.next + 1 }, by simp, rfl⟩
      · cases step with
        | idle => exact ⟨th, h, rfl⟩
        | start => exact ⟨th, by simpa [same] using h, rfl⟩
        | move => exact ⟨th, by simpa [same] using h, rfl⟩
        | compose => exact ⟨th, by simpa [same] using h, rfl⟩

theorem not_running_before (hs : StartUp ins s)
    (h : ∀ th, (next ins s a).manager.calculateThread no ≠ .running th) :
    ∀ th, s.manager.calculateThread no ≠ .running th := by
  intro th running
  obtain ⟨later, hlater, -⟩ := running_kept hs running a
  exact h later hlater

theorem created_thread (h : s.manager.calculateThread no = .created) :
    ∃ th, (next ins s (.thread no)).manager.calculateThread no = .running th ∧
      th.focusInstr = s.manager.mdBroadcast.subscribeInst := by
  simp only [next, CMdManager.calculateMdBaseFunction, h, Function.update_self]
  exact ⟨_, rfl, rfl⟩

/-- The condition on a step under which the copies are right: a thread that copies the
list of instruments does so after the main thread has stored it, or there is nothing to
store. -/
def ReadsStoredList (ins : List StdString) (s : MdSystem) : MdAction → Prop
  | .thread no => s.manager.calculateThread no = .created → .setIntruments ∉ s.todo ∨ ins = []
  | _ => True

end MdSystem

open MdSystem in
/-- Every compose thread works on the requested instruments in exactly those
runs in which each of them copies the list after `set_intruments`. -/
theorem compose_threads_focus_iff (ins : List StdString) (acts : List MdAction) :
    (∀ no th, (MdSystem.run ins acts).manager.calculateThread no = .running th →
        th.focusInstr = ins) ↔
      Execution.Meets (Execution.total (MdSystem.next ins)) (ReadsStoredList ins) {} acts := by
  induction acts using List.reverseRecOn with
  | nil => simp [MdSystem.run, Execution.Meets]
  | append_singleton acts a ih =>
      have start := startUp_run ins acts
      rw [Execution.meets_total_concat, ← ih, run_concat]
      change _ ↔ _ ∧ ReadsStoredList ins (MdSystem.run ins acts) a
      generalize MdSystem.run ins acts = s at start
      constructor
      · intro focus
        constructor
        · intro no th h
          obtain ⟨later, hlater, same⟩ := running_kept start h a
          rw [← same]
          exact focus no later hlater
        · cases a with
          | thread no =>
              intro created
              obtain ⟨th, hth, copied⟩ := created_thread created
              have stored := start.stored
              rw [← copied, focus no th hth] at stored
              by_cases pending : .setIntruments ∈ s.todo
              · exact .inr (by simpa [pending] using stored)
              · exact .inl pending
          | main => trivial
          | pushMinOneData => trivial
      · rintro ⟨focus, reads⟩ no th h
        obtain ⟨old, running, same⟩ | ⟨rfl, created, copied⟩ := running_next h
        · rw [same]
          exact focus no old running
        · rw [copied, start.stored]
          obtain done | empty := reads created
          · simp [done]
          · simp [empty]

/-- The thread for five minutes starts before the list is stored. -/
def earlyThreadActs : List MdAction :=
  [.main, .main, .main, .main, .thread .five]

/-- A thread that starts early works on no instrument at all. -/
theorem compose_thread_captures_empty_list :
    ¬ ∀ (ins : List StdString) (acts : List MdAction) (no : DataNo) (th : ComposeThread),
      (MdSystem.run ins acts).manager.calculateThread no = .running th → th.focusInstr = ins := by
  intro claim
  have := claim ["rb1610".toList] earlyThreadActs .five
    { focusInstr := [], composeMultipile := 5 } (by decide)
  exact absurd this (by decide)

end CtpTrade
