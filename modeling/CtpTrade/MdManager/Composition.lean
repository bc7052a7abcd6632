import CtpTrade.MdManager.StartUp

/-!
# Which blocks the composed bars are made of

A compose thread keeps one read cursor for all its instruments and advances it
whenever it composes a bar of any of them. As long as only one instrument has
had a bar composed, the cursor counts the bars of that instrument, and the bars
are made of consecutive disjoint blocks; the first bar of a second instrument
starts where the first instrument has got to.
-/

namespace CtpTrade

namespace MdSystem

variable {ins : List StdString} {s : MdSystem} {no : DataNo}

/-- Each composed bar is the one made of its own block of minute bars: bar `j` of the
bars `j * k` to `j * k + k - 1`, with no bar skipped and none used twice. -/
def BlocksOf (k : Nat) (minutes : CCandleBar) (composed : List CandleBar) : Prop :=
  ∀ j bar, composed[j]? = some bar → minutes.calculateSpecifiedPeriod (j * k) k {} = some bar

/-- The condition on a step of a compose thread that keeps its one cursor right: when
the thread finds enough minute bars of an instrument behind the cursor, it has not
composed a bar of another instrument before. -/
def Alone (s : MdSystem) : MdAction → Prop
  | .thread no => ∀ th name, s.manager.calculateThread no = .running th →
      th.focusInstr[th.next]? = some name →
      th.retrieveStartPos + th.composeMultipile < (s.minuteBars name).candles.length →
      ∀ other ≠ name, s.composedBars no other = []
  | _ => True

theorem BlocksOf.mono {k : Nat} {c d : CCandleBar} {composed : List CandleBar}
    (h : BlocksOf k c composed) (grow : c.candles <+: d.candles) : BlocksOf k d composed :=
  fun j bar hj => CCandleBar.calculateSpecifiedPeriod_mono grow (h j bar hj)

theorem BlocksOf.concat {k : Nat} {c : CCandleBar} {composed : List CandleBar} {bar : CandleBar}
    (h : BlocksOf k c composed)
    (hbar : c.calculateSpecifiedPeriod (composed.length * k) k {} = some bar) :
    BlocksOf k c (composed ++ [bar]) := by
  intro j bar' hj
  rw [List.getElem?_append] at hj
  split_ifs at hj with old
  · exact h j bar' hj
  · rw [List.getElem?_singleton, Option.ite_none_right_eq_some] at hj
    obtain ⟨hzero, hj⟩ := hj
    cases hj
    obtain rfl : j = composed.length := by omega
    exact hbar

/-- Before the start-up is over there are no bars at all, so that no instrument can be
ahead when a thread takes its first look. -/
def QuietStart (s : MdSystem) : Prop :=
  s.todo ≠ [] → ∀ no name, ((s.manager.basicMinuteKdata no).series name).candles = []

private theorem quietStart_main (hs : QuietStart s) : QuietStart (next ins s .main) := by
  obtain ⟨manager, todo⟩ := s
  cases todo with
  | nil => exact hs
  | cons first todo =>
      intro _ no name
      have empty := hs (by simp) no name
      cases first with
      | initialDataset filled =>
          by_cases same : no = filled
          · subst same
            simp only [next, mainStep, Function.update_self, CMdDataSet.initialDataset_candles]
            rw [ite_eq_left_iff]
            exact fun _ => empty
          · simpa [next, mainStep, same] using empty
      | initialCheckupTable => exact empty
      | createThread => exact empty
      | setIntruments => exact empty

private theorem quietStart_next (hs : QuietStart s) (a : MdAction) :
    QuietStart (next ins s a) := by
  cases a with
  | main => exact quietStart_main hs
  | pushMinOneData name bar =>
      simp only [next]
      split_ifs with done
      · exact fun pending => absurd done pending
      · exact hs
  | thread threadId =>
      intro pending no name
      have step := s.manager.calculateMdBaseFunction_step threadId
      simp only [next] at pending ⊢
      generalize s.manager.calculateMdBaseFunction threadId = md at step
      cases step with
      | compose th ins bar running focus enough =>
          rw [CCandleBar.calculateSpecifiedPeriod_nil (hs pending .one ins)] at enough
          cases enough
      | idle => exact hs pending no name
      | start => exact hs pending no name
      | move => exact hs pending no name

theorem quietStart_run (ins : List StdString) (acts : List MdAction) :
    QuietStart (run ins acts) :=
  Execution.exec_invariant QuietStart (fun _ a hs => quietStart_next hs a) (fun _ _ _ => rfl) acts

/-- Further invariants may rely on the two facts about the start-up. -/
theorem run_invariant_of_started (I : MdSystem → Prop) {ok : MdSystem → MdAction → Prop}
    (keep : ∀ s a, StartUp ins s → QuietStart s → I s → ok s a → I (next ins s a)) (start : I {})
    {acts : List MdAction} (meets : Execution.Meets (Execution.total (next ins)) ok {} acts) :
    I (run ins acts) := by
  have all : StartUp ins (run ins acts) ∧ QuietStart (run ins acts) ∧ I (run ins acts) := by
    refine Execution.exec_invariant_of_meets (fun s => StartUp ins s ∧ QuietStart s ∧ I s) ?_
      ⟨startUp_start ins, fun _ _ _ => rfl, start⟩ meets
    rintro s a ⟨started, quiet, hs⟩ hok
    exact ⟨startUp_next started a, quietStart_next quiet a, keep s a started quiet hs hok⟩
  exact all.2.2

/-- What a step of the system can do to the bars and the cursor of one compose thread.
Any step may leave both, where a thread that begins has its cursor at the front; only a
step of the thread itself composes a bar, and then the cursor moves on by a whole block.
-/
inductive ComposeStep (no : DataNo) (a : MdAction) (s s' : MdSystem) : Prop where
  | keep (bars : ∀ name, s'.composedBars no name = s.composedBars no name)
      (cursor : ∀ th', s'.manager.calculateThread no = .running th' →
        (∃ th, s.manager.calculateThread no = .running th ∧
          th'.retrieveStartPos = th.retrieveStartPos) ∨
        ((∀ th, s.manager.calculateThread no ≠ .running th) ∧ th'.retrieveStartPos = 0))
  | compose (th th' : ComposeThread) (name : StdString) (bar : CandleBar)
      (acted : a = .thread no)
      (running : s.manager.calculateThread no = .running th)
      (focus : th.focusInstr[th.next]? = some name)
      (enough : (s.minuteBars name).calculateSpecifiedPeriod th.retrieveStartPos
        th.composeMultipile {} = some bar)
      (running' : s'.manager.calculateThread no = .running th')
      (advance : th'.retrieveStartPos = th.retrieveStartPos + th.composeMultipile)
      (pushed : s'.composedBars no name = s.composedBars no name ++ [bar])
      (others : ∀ other ≠ name, s'.composedBars no other = s.composedBars no other)

private theorem ComposeStep.same {a : MdAction} {s' : MdSystem}
    (bars : ∀ name, s'.composedBars no name = s.composedBars no name)
    (threads : s'.manager.calculateThread no = s.manager.calculateThread no) :
    ComposeStep no a s s' :=
  .keep bars fun th' h => .inl ⟨th', by rw [← threads, h], rfl⟩

private theorem composeStep_main (hs : StartUp ins s) (quiet : QuietStart s) :
    ComposeStep no .main s (next ins s .main) := by
  obtain ⟨manager, todo⟩ := s
  cases todo with
  | nil => exact .same (fun _ => rfl) rfl
  | cons first todo =>
      cases first with
      | createThread created =>
          by_cases same : no = created
          · subst same
            refine .keep (fun _ => rfl) ?_
            intro th' h
            simp [next, mainStep] at h
          · exact .same (fun _ => rfl) (by simp [next, mainStep, same])
      | initialDataset filled =>
          refine .same ?_ rfl
          intro name
          have before := quiet (by simp) no name
          simp only [composedBars, next, mainStep]
          by_cases same : no = filled
          · subst same
            rw [Function.update_self, CMdDataSet.initialDataset_candles, before, ite_self]
          · rw [Function.update_of_ne same]
      | initialCheckupTable => exact .same (fun _ => rfl) rfl
      | setIntruments => exact .same (fun _ => rfl) rfl

private theorem composeStep_thread (threadId : DataNo) :
    ComposeStep no (.thread threadId) s (next ins s (.thread threadId)) := by
  have step := s.manager.calculateMdBaseFunction_step threadId
  simp only [next]
  generalize s.manager.calculateMdBaseFunction threadId = md at step
  by_cases same : no = threadId
  · subst same
    cases step with
    | idle => exact .same (fun _ => rfl) rfl
    | start created =>
        refine .keep (fun _ => rfl) ?_
        intro th' h
        simp only [Function.update_self, ThreadState.running.injEq] at h
        exact .inr ⟨by simp [created], by rw [← h]⟩
    | move th pos running =>
        refine .keep (fun _ => rfl) ?_
        intro th' h
        simp only [Function.update_self, ThreadState.running.injEq] at h
        exact .inl ⟨th, running, by rw [← h]⟩
    | compose th name bar running focus enough =>
        refine .compose th _ name bar rfl running focus enough (Function.update_self ..) rfl ?_ ?_
        · simp [composedBars]
        · intro other hother
          simp [composedBars, CMdDataSet.series_pushOneData_ne _ _ hother]
  · cases step with
    | idle => exact .same (fun _ => rfl) rfl
    | start => exact .same (fun _ => rfl) (by simp [same])
    | move => exact .same (fun _ => rfl) (by simp [same])
    | compose => exact .same (fun _ => by simp [composedBars, same]) (by simp [same])

theorem composeStep_next (hno : no ≠ .one) (hs : StartUp ins s) (quiet : QuietStart s)
    (a : MdAction) : ComposeStep no a s (next ins s a) := by
  cases a with
  | main => exact composeStep_main hs quiet
  | thread threadId => exact composeStep_thread threadId
  | pushMinOneData name bar =>
      simp only [next]
      split_ifs
      · refine .same ?_ rfl
        intro name'
        simp [composedBars, CMdManager.pushMinOneData, hno]
      · exact .same (fun _ => rfl) rfl

/-- Minute bars are only ever appended. -/
theorem minuteBars_next (hs : StartUp ins s) (quiet : QuietStart s) (a : MdAction)
    (name : StdString) :
    (s.minuteBars name).candles <+: ((next ins s a).minuteBars name).candles := by
  cases a with
  | main =>
      by_cases pending : s.todo = []
      · simp only [next, pending]
        exact List.prefix_refl _
      · rw [minuteBars, quiet pending .one name]
        exact List.nil_prefix
  | pushMinOneData ins' bar =>
      simp only [next]
      split_ifs
      · by_cases same : name = ins'
        · subst same
          simp [minuteBars, CMdManager.pushMinOneData]
        · simp [minuteBars, CMdManager.pushMinOneData, CMdDataSet.series_pushOneData_ne _ _ same]
      · exact List.prefix_refl _
  | thread threadId =>
      have step := s.manager.calculateMdBaseFunction_step threadId
      simp only [next]
      generalize s.manager.calculateMdBaseFunction threadId = md at step
      cases step with
      | idle => exact List.prefix_refl _
      | start => exact List.prefix_refl _
      | move => exact List.prefix_refl _
      | compose th ins' bar running =>
          have other : DataNo.one ≠ threadId := by
            rintro rfl
            rw [hs.idleOne] at running
            cases running
          simp [minuteBars, other]

/-- The invariant of a thread that has composed bars of at most one instrument: its
cursor is at the end of the blocks of that instrument, so it is the cursor of the
instrument too. -/
structure SoleCursor (no : DataNo) (s : MdSystem) : Prop where
  blocks : ∀ name, BlocksOf (multiple no) (s.minuteBars name) (s.composedBars no name)
  waiting : (∀ th, s.manager.calculateThread no ≠ .running th) →
    ∀ name, s.composedBars no name = []
  fresh : ∀ th, s.manager.calculateThread no = .running th →
    (∀ name, s.composedBars no name = []) → th.retrieveStartPos = 0
  counted : ∀ th, s.manager.calculateThread no = .running th →
    ∀ name, s.composedBars no name ≠ [] →
      th.retrieveStartPos = (s.composedBars no name).length * multiple no

theorem soleCursor_next (hno : no ≠ .one) (start : StartUp ins s) (quiet : QuietStart s)
    (hs : SoleCursor no s) {a : MdAction} (alone : Alone s a) : SoleCursor no (next ins s a) := by
  have grow := minuteBars_next start quiet a
  cases composeStep_next hno start quiet a with
  | keep bars cursor =>
      refine ⟨?_, ?_, ?_, ?_⟩
      · intro name
        rw [bars name]
        exact (hs.blocks name).mono (grow name)
      · intro stopped name
        rw [bars name]
        exact hs.waiting (not_running_before start stopped) name
      · intro th' running' empty
        obtain ⟨th, running, same⟩ | ⟨-, zero⟩ := cursor th' running'
        · rw [same]
          exact hs.fresh th running fun name => (bars name).symm.trans (empty name)
        · exact zero
      · intro th' running' name hne
        rw [bars name] at hne ⊢
        obtain ⟨th, running, same⟩ | ⟨stopped, -⟩ := cursor th' running'
        · rw [same]
          exact hs.counted th running name hne
        · exact absurd (hs.waiting stopped name) hne
  | compose th th' name bar acted running focus enough running' advance pushed others =>
      subst acted
      have hk : th.composeMultipile = multiple no := start.running no th running
      have sole : ∀ other ≠ name, s.composedBars no other = [] := by
        refine alone th name running focus ?_
        simp only [CCandleBar.calculateSpecifiedPeriod, Option.ite_none_right_eq_some] at enough
        exact enough.1
      have position : th.retrieveStartPos = (s.composedBars no name).length * multiple no := by
        by_cases first : s.composedBars no name = []
        · have none (other : StdString) : s.composedBars no other = [] := by
            by_cases same : other = name
            · rw [same, first]
            · exact sole other same
          rw [first, hs.fresh th running none]
          simp
        · exact hs.counted th running name first
      rw [position, hk] at enough
      refine ⟨?_, ?_, ?_, ?_⟩
      · intro name'
        by_cases same : name' = name
        · subst same
          rw [pushed]
          exact ((hs.blocks name').concat enough).mono (grow name')
        · rw [others name' same]
          exact (hs.blocks name').mono (grow name')
      · exact fun stopped => absurd running' (stopped th')
      · intro _ _ empty
        have := empty name
        simp [pushed] at this
      · intro later hlater name' hne
        obtain rfl : th' = later := by simpa [running'] using hlater
        obtain rfl : name' = name := by
          by_contra other
          exact hne ((others name' other).trans (sole name' other))
        rw [advance, position, hk, pushed]
        simp [Nat.add_mul]

theorem soleCursor_run (hno : no ≠ .one) {acts : List MdAction}
    (alone : Execution.Meets (Execution.total (next ins)) Alone {} acts) :
    SoleCursor no (run ins acts) := by
  refine run_invariant_of_started (SoleCursor no) ?_ ?_ alone
  · exact fun s a started quiet sole hok => soleCursor_next hno started quiet sole hok
  · refine ⟨?_, fun _ _ => rfl, ?_, ?_⟩
    · intro name j bar h
      cases h
    · intro th h
      cases h
    · intro th h
      cases h

theorem focus_subset (ins : List StdString) (acts : List MdAction) :
    ∀ no th, (run ins acts).manager.calculateThread no = .running th →
      ∀ name ∈ th.focusInstr, name ∈ ins := by
  induction acts using List.reverseRecOn with
  | nil =>
      intro no th h
      cases h
  | append_singleton acts a ih =>
      intro no th h name hname
      rw [run_concat] at h
      obtain ⟨old, running, same⟩ | ⟨-, -, copied⟩ := running_next h
      · exact ih no old running name (same ▸ hname)
      · rw [copied, (startUp_run ins acts).stored] at hname
        split_ifs at hname
        · cases hname
        · exact hname

/-- With one subscribed instrument no thread turns to another one. -/
theorem alone_of_single (name : StdString) (acts : List MdAction) :
    Execution.Meets (Execution.total (next [name])) Alone {} acts := by
  suffices both : Execution.Meets (Execution.total (next [name])) Alone {} acts ∧
      ∀ no ≠ .one, ∀ other ≠ name, (run [name] acts).composedBars no other = [] from both.1
  induction acts using List.reverseRecOn with
  | nil => exact ⟨trivial, fun _ _ _ _ => rfl⟩
  | append_singleton acts a ih =>
      obtain ⟨meets, empty⟩ := ih
      have started := startUp_run [name] acts
      have inFocus {no : DataNo} {th : ComposeThread} {n : StdString}
          (running : (run [name] acts).manager.calculateThread no = .running th)
          (focus : th.focusInstr[th.next]? = some n) : n = name := by
        simpa using focus_subset [name] acts no th running n (List.mem_of_getElem? focus)
      refine ⟨Execution.meets_total_concat.mpr ⟨meets, ?_⟩, ?_⟩
      · cases a with
        | main => trivial
        | pushMinOneData => trivial
        | thread no =>
            intro th n running focus _ other hother
            obtain rfl := inFocus running focus
            refine empty no ?_ other hother
            rintro rfl
            have idle := started.idleOne
            change (run [n] acts).manager.calculateThread .one = _ at running
            rw [idle] at running
            cases running
      · intro no hno other hother
        rw [run_concat]
        cases composeStep_next hno started (quietStart_run [name] acts) a with
        | keep bars =>
            rw [bars other]
            exact empty no hno other hother
        | compose th th' n bar acted running focus enough running' advance pushed others =>
            obtain rfl := inFocus running focus
            rw [others other hother]
            exact empty no hno other hother

/-- The invariant behind the converse: the cursor has passed the bars of any two
instruments of the thread together, so it is too far for either of them once both have
bars. -/
structure CursorCovers (no : DataNo) (s : MdSystem) : Prop where
  waiting : (∀ th, s.manager.calculateThread no ≠ .running th) →
    ∀ name, s.composedBars no name = []
  covers : ∀ th, s.manager.calculateThread no = .running th → ∀ x y, x ≠ y →
    ((s.composedBars no x).length + (s.composedBars no y).length) * multiple no ≤
      th.retrieveStartPos

theorem cursorCovers_next (hno : no ≠ .one) (start : StartUp ins s) (quiet : QuietStart s)
    (hs : CursorCovers no s) (a : MdAction) : CursorCovers no (next ins s a) := by
  cases composeStep_next hno start quiet a with
  | keep bars cursor =>
      constructor
      · intro stopped name
        rw [bars name]
        exact hs.waiting (not_running_before start stopped) name
      · intro th' running' x y hxy
        rw [bars x, bars y]
        obtain ⟨th, running, same⟩ | ⟨stopped, -⟩ := cursor th' running'
        · rw [same]
          exact hs.covers th running x y hxy
        · simp [hs.waiting stopped]
  | compose th th' name bar acted running focus enough running' advance pushed others =>
      refine ⟨fun stopped => absurd running' (stopped th'), ?_⟩
      intro later hlater x y hxy
      obtain rfl : th' = later := by simpa [running'] using hlater
      have before := hs.covers th running x y hxy
      have one : (((next ins s a).composedBars no x).length +
          ((next ins s a).composedBars no y).length) ≤
          (s.composedBars no x).length + (s.composedBars no y).length + 1 := by
        by_cases hx : x = name
        · subst hx
          rw [pushed, others y hxy.symm, List.length_append]
          simp only [List.length_singleton]
          omega
        · rw [others x hx]
          by_cases hy : y = name
          · subst hy
            rw [pushed, List.length_append]
            simp only [List.length_singleton]
            omega
          · rw [others y hy]
            omega
      rw [advance, start.running no th running]
      calc _ ≤ ((s.composedBars no x).length + (s.composedBars no y).length + 1) * multiple no :=
            Nat.mul_le_mul_right _ one
        _ ≤ th.retrieveStartPos + multiple no := by
            rw [Nat.add_mul, Nat.one_mul]
            omega

theorem cursorCovers_run (hno : no ≠ .one) (acts : List MdAction) :
    CursorCovers no (run ins acts) := by
  have free : Execution.Meets (Execution.total (next ins)) (fun _ _ => True) {} acts :=
    Execution.meets_of_forall fun _ _ => trivial
  refine run_invariant_of_started (CursorCovers no) ?_ ?_ free
  · exact fun s a started quiet covers _ => cursorCovers_next hno started quiet covers a
  · refine ⟨fun _ _ => rfl, ?_⟩
    intro th h
    cases h

theorem composedBars_next {th : ComposeThread} {name : StdString} {bar : CandleBar}
    (running : s.manager.calculateThread no = .running th)
    (focus : th.focusInstr[th.next]? = some name)
    (enough : (s.minuteBars name).calculateSpecifiedPeriod th.retrieveStartPos
      th.composeMultipile {} = some bar) :
    (next ins s (.thread no)).composedBars no name = s.composedBars no name ++ [bar] := by
  have composed : (s.manager.basicMinuteKdata .one).calculateSpecifiedBar name
      th.retrieveStartPos th.composeMultipile {} = some bar := enough
  simp [next, CMdManager.calculateMdBaseFunction, running, focus, CMdManager.composeIns, composed,
    composedBars]

/-- The instrument's minute bars differ in their time stamps, as those of one feed do.
Only then a bar of the wrong block cannot be equal to that of the right one. -/
def DistinctTimes (c : CCandleBar) : Prop :=
  c.candles.Pairwise fun a b => (a.tradeDay, a.tradeTime) ≠ (b.tradeDay, b.tradeTime)

end MdSystem

/-- In a run in which no compose thread turns from one instrument to another,
the `j`-th bar that a thread has composed for an instrument is, in every state,
the one made of the instrument's own minute bars at `j * k` up to `(j + 1) * k`. -/
theorem composed_bars_are_blocks {ins : List StdString} {acts : List MdAction}
    (alone : Execution.Meets (Execution.total (MdSystem.next ins)) MdSystem.Alone {} acts)
    {no : DataNo} {th : ComposeThread}
    (running : (MdSystem.run ins acts).manager.calculateThread no = .running th)
    {name : StdString} {j : Nat} {bar : CandleBar}
    (h : ((MdSystem.run ins acts).composedBars no name)[j]? = some bar) :
    ((MdSystem.run ins acts).minuteBars name).calculateSpecifiedPeriod
      (j * th.composeMultipile) th.composeMultipile {} = some bar := by
  have started := MdSystem.startUp_run ins acts
  have hno : no ≠ .one := by
    rintro rfl
    rw [started.idleOne] at running
    cases running
  rw [started.running no th running]
  exact (MdSystem.soleCursor_run hno alone).blocks name j bar h

/-- A minute bar that can be told apart by its time. -/
def sampleBar (k : Nat) : CandleBar :=
  { tradeTime := 93000 + 100 * k, openPrice := 2000 + k, closePrice := 2001 + k }

/-- The whole start-up, and then the thread for five minutes. -/
def startActs : List MdAction := List.replicate 11 .main ++ [.thread .five]

def pushActs (name : StdString) (n : Nat) : List MdAction :=
  (List.range n).map fun k => .pushMinOneData name (sampleBar k)

def singleActs : List MdAction :=
  startActs ++ pushActs "rb1610".toList 11 ++ [.thread .five, .thread .five, .thread .five]

theorem composed_bars_are_blocks_single :
    ∃ bar, ((MdSystem.run ["rb1610".toList] singleActs).minuteBars
      "rb1610".toList).calculateSpecifiedPeriod (1 * 5) 5 {} = some bar := by
  have reached : ∃ th bar, (MdSystem.run ["rb1610".toList] singleActs).manager.calculateThread
      .five = .running th ∧ th.composeMultipile = 5 ∧
      ((MdSystem.run ["rb1610".toList] singleActs).composedBars .five "rb1610".toList)[1]? =
        some bar :=
    ⟨{ focusInstr := ["rb1610".toList], retrieveStartPos := 10, composeMultipile := 5, next := 1 },
      ((MdSystem.run ["rb1610".toList] singleActs).composedBars .five "rb1610".toList)[1]?.getD {},
      by decide +kernel, rfl, by decide +kernel⟩
  obtain ⟨th, bar, hrun, hk, hbar⟩ := reached
  have block := composed_bars_are_blocks (MdSystem.alone_of_single "rb1610".toList singleActs)
    hrun hbar
  rw [hk] at block
  exact ⟨bar, block⟩

def twoActs : List MdAction :=
  startActs ++ pushActs "ag1612".toList 6 ++ pushActs "rb1610".toList 11 ++
    [.thread .five, .thread .five]

/-- The first bar of the second instrument is made of its second block, since the cursor
of the thread has been moved on by the first instrument. -/
theorem composed_bars_share_cursor :
    ¬ ∀ (ins : List StdString) (acts : List MdAction) (no : DataNo) (th : ComposeThread)
      (name : StdString) (j : Nat) (bar : CandleBar), ins ≠ [] →
      (MdSystem.run ins acts).manager.calculateThread no = .running th → th.focusInstr = ins →
      ((MdSystem.run ins acts).composedBars no name)[j]? = some bar →
      ((MdSystem.run ins acts).minuteBars name).calculateSpecifiedPeriod
        (j * th.composeMultipile) th.composeMultipile {} = some bar := by
  intro claim
  have := claim ["ag1612".toList, "rb1610".toList] twoActs .five
    { focusInstr := ["ag1612".toList, "rb1610".toList], retrieveStartPos := 10,
      composeMultipile := 5, next := 2 }
    "rb1610".toList 0
    (((MdSystem.run ["ag1612".toList, "rb1610".toList] twoActs).composedBars .five
      "rb1610".toList)[0]?.getD {})
    (by decide) (by decide +kernel) rfl (by decide +kernel)
  exact absurd this (by decide +kernel)

open MdSystem in
/-- The condition is necessary where minute bars can be told apart by their time
stamps: a step that turns to a second instrument misplaces its block. -/
theorem alone_of_composed_blocks {ins : List StdString} {acts : List MdAction} {a : MdAction}
    (distinct : ∀ name, DistinctTimes ((MdSystem.run ins (acts ++ [a])).minuteBars name))
    (blocks : ∀ no ≠ .one, ∀ name, BlocksOf (multiple no)
      ((MdSystem.run ins (acts ++ [a])).minuteBars name)
      ((MdSystem.run ins (acts ++ [a])).composedBars no name)) :
    Alone (MdSystem.run ins acts) a := by
  cases a with
  | main => trivial
  | pushMinOneData => trivial
  | thread no =>
      intro th name running focus enough other hother
      by_contra hne
      rw [run_concat] at distinct blocks
      have started := startUp_run ins acts
      have quiet := quietStart_run ins acts
      have hno : no ≠ .one := by
        rintro rfl
        rw [started.idleOne] at running
        cases running
      have hk : 0 < th.composeMultipile := by
        rw [started.running no th running]
        cases no <;> decide
      have covers := (cursorCovers_run hno acts).covers th running name other hother.symm
      rw [← started.running no th running] at covers
      -- the bar is made of the block behind the cursor, not of the block it should be
      obtain ⟨bar, hbar⟩ : ∃ bar, ((MdSystem.run ins acts).minuteBars name).calculateSpecifiedPeriod
          th.retrieveStartPos th.composeMultipile {} = some bar := by
        simp only [CCandleBar.calculateSpecifiedPeriod, enough, ↓reduceIte]
        exact ⟨_, rfl⟩
      have pushed : (next ins (MdSystem.run ins acts) (.thread no)).composedBars no name = _ :=
        composedBars_next running focus hbar
      have actual := CCandleBar.calculateSpecifiedPeriod_mono
        (minuteBars_next started quiet (.thread no) name) hbar
      have wanted := blocks no hno name ((MdSystem.run ins acts).composedBars no name).length bar
        (by simp [pushed])
      rw [← started.running no th running] at wanted
      obtain ⟨first, hfirst, day, time⟩ := CCandleBar.calculateSpecifiedPeriod_time hk actual
      obtain ⟨own, hown, ownDay, ownTime⟩ := CCandleBar.calculateSpecifiedPeriod_time hk wanted
      have behind : ((MdSystem.run ins acts).composedBars no name).length * th.composeMultipile <
          th.retrieveStartPos := by
        have := List.length_pos_iff.mpr hne
        calc _ < (((MdSystem.run ins acts).composedBars no name).length + 1) *
              th.composeMultipile := by
              rw [Nat.add_mul]
              omega
          _ ≤ _ := Nat.mul_le_mul_right _ (by omega)
          _ ≤ _ := covers
      obtain ⟨hi, rfl⟩ := List.getElem?_eq_some_iff.mp hown
      obtain ⟨hj, rfl⟩ := List.getElem?_eq_some_iff.mp hfirst
      apply List.pairwise_iff_getElem.mp (distinct name) _ _ hi hj behind
      rw [← ownDay, ← ownTime, day, time]

end CtpTrade
