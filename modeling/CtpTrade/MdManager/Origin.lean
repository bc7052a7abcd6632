import CtpTrade.CandleBar.Summary
import CtpTrade.MdManager.Composition

/-!
# How the blocks are dealt out

With several instruments the blocks of a compose thread do not start where they
should. What the thread does is this: it counts its turns, and the instrument
that gets turn `j` composes a bar of its own minute bars in block `j`, which no
instrument ever uses again. The bars of an instrument are therefore made of
disjoint blocks of its own minute bars, in order, but some blocks are left out.
-/

namespace CtpTrade

/-- The bars of an instrument where the turns belong to these instruments in turn: turn
`i` gives its owner the bar of its block `i`, and the others nothing. -/
def dealt (k : Nat) (minutes : List CandleBar) (owners : List StdString) (name : StdString) :
    List CandleBar :=
  (owners.zipIdx.filter fun turn => turn.1 = name).map fun turn =>
    composeBlock ((minutes.drop (turn.2 * k)).take k)

section Dealt

variable {k : Nat} {minutes more : List CandleBar} {owners : List StdString}
variable {name owner : StdString}

theorem dealt_concat :
    dealt k minutes (owners ++ [owner]) name =
      dealt k minutes owners name ++
        if owner = name then [composeBlock ((minutes.drop (owners.length * k)).take k)]
        else [] := by
  rw [dealt, List.zipIdx_append, List.filter_append, List.map_append, dealt]
  congr 1
  by_cases same : owner = name
  · simp [same]
  · simp [same]

/-- Minute bars behind the blocks do not matter. -/
theorem dealt_grow (grow : minutes <+: more)
    (inside : ∀ turn ∈ owners.zipIdx, turn.1 = name → (turn.2 + 1) * k ≤ minutes.length) :
    dealt k more owners name = dealt k minutes owners name := by
  obtain ⟨rest, rfl⟩ := grow
  refine List.map_congr_left fun turn mem => ?_
  obtain ⟨there, same⟩ := List.mem_filter.mp mem
  have room := inside turn there (of_decide_eq_true same)
  rw [Nat.succ_mul] at room
  rw [List.drop_append_of_le_length (by omega),
    List.take_append_of_le_length (by rw [List.length_drop]; omega)]

theorem mem_dealt {bar : CandleBar} (h : bar ∈ dealt k minutes owners name) :
    ∃ j, (name, j) ∈ owners.zipIdx ∧ bar = composeBlock ((minutes.drop (j * k)).take k) := by
  obtain ⟨⟨owner, j⟩, mem, rfl⟩ := List.mem_map.mp h
  obtain ⟨there, same⟩ := List.mem_filter.mp mem
  obtain rfl : owner = name := of_decide_eq_true same
  exact ⟨j, there, rfl⟩

theorem pairwise_zipIdx (owners : List StdString) :
    owners.zipIdx.Pairwise fun turn later => turn.2 < later.2 := by
  have indices : (owners.zipIdx.map Prod.snd).Pairwise (· < ·) := by
    rw [List.zipIdx_map_snd]
    exact List.pairwise_lt_range'
  exact List.pairwise_map.mp indices

theorem prices_composeBlock {block : List CandleBar} (nonempty : block ≠ []) :
    (composeBlock block).prices ⊆ block.flatMap CandleBar.prices := by
  obtain ⟨first, rest, rfl⟩ := List.exists_cons_of_ne_nil nonempty
  exact prices_foldl_mergeBar rest first

/-- A block inside the series closes with its last minute bar. -/
theorem closePrice_block {j : Nat} (pos : 0 < k) (inside : (j + 1) * k ≤ minutes.length) :
    ∃ h : (j + 1) * k - 1 < minutes.length,
      (composeBlock ((minutes.drop (j * k)).take k)).closePrice =
        minutes[(j + 1) * k - 1].closePrice := by
  rw [Nat.succ_mul] at inside ⊢
  have last : j * k + k - 1 < minutes.length := by omega
  refine ⟨last, ?_⟩
  have whole : ((minutes.drop (j * k)).take k).length = k := by
    rw [List.length_take, List.length_drop]
    omega
  have nonempty : (minutes.drop (j * k)).take k ≠ [] := by
    rw [← List.length_pos_iff, whole]
    exact pos
  have close (block : List CandleBar) (h : block ≠ []) :
      (composeBlock block).closePrice = (block.getLast h).closePrice := by
    obtain ⟨first, rest, rfl⟩ := List.exists_cons_of_ne_nil h
    exact foldl_mergeBar_closePrice rest first
  rw [close _ nonempty, List.getLast_eq_getElem]
  simp only [List.getElem_take, List.getElem_drop, whole]
  congr 2
  omega

end Dealt

namespace MdSystem

variable {ins : List StdString} {s : MdSystem} {no : DataNo}

theorem two_le_multiple (hno : no ≠ .one) : 2 ≤ multiple no := by
  cases no
  · exact absurd rfl hno
  all_goals decide

/-- The bars of the thread have been dealt out in these turns, one instrument for each
turn. Turn `i` is block `i` of the minute bars of its instrument, so the cursor is
shared by all instruments of the thread. -/
structure Turns (no : DataNo) (s : MdSystem) (owners : List StdString) : Prop where
  bars : ∀ name, s.composedBars no name =
    dealt (multiple no) (s.minuteBars name).candles owners name
  inside : ∀ turn ∈ owners.zipIdx,
    (turn.2 + 1) * multiple no < (s.minuteBars turn.1).candles.length
  cursor : ∀ th, s.manager.calculateThread no = .running th →
    th.retrieveStartPos = owners.length * multiple no
  waiting : (∀ th, s.manager.calculateThread no ≠ .running th) → owners = []

theorem turns_next (hno : no ≠ .one) (start : StartUp ins s) (quiet : QuietStart s)
    {owners : List StdString} (hs : Turns no s owners) (a : MdAction) :
    ∃ owners', Turns no (next ins s a) owners' := by
  have grow := minuteBars_next start quiet a
  have longer (name : StdString) := (grow name).length_le
  have same (name : StdString) : dealt (multiple no) ((next ins s a).minuteBars name).candles
      owners name = s.composedBars no name := by
    rw [hs.bars name]
    refine dealt_grow (grow name) ?_
    rintro turn mem rfl
    exact (hs.inside turn mem).le
  have inside : ∀ turn ∈ owners.zipIdx,
      (turn.2 + 1) * multiple no < ((next ins s a).minuteBars turn.1).candles.length :=
    fun turn mem => (hs.inside turn mem).trans_le (longer turn.1)
  cases composeStep_next hno start quiet a with
  | keep bars cursor =>
      refine ⟨owners, fun name => (bars name).trans (same name).symm, inside, ?_, ?_⟩
      · intro th' running'
        obtain ⟨th, running, kept⟩ | ⟨stopped, zero⟩ := cursor th' running'
        · rw [kept, hs.cursor th running]
        · rw [zero, hs.waiting stopped, List.length_nil, Nat.zero_mul]
      · exact fun stopped => hs.waiting (not_running_before start stopped)
  | compose th th' name bar acted running focus enough running' advance pushed others =>
      have position := hs.cursor th running
      have multipile := start.running no th running
      rw [position, multipile, CCandleBar.calculateSpecifiedPeriod_eq _ _ (two_le_multiple hno),
        Option.ite_none_right_eq_some, Option.some.injEq] at enough
      obtain ⟨room, made⟩ := enough
      refine ⟨owners ++ [name], ?_, ?_, ?_, fun stopped => absurd running' (stopped th')⟩
      · intro other
        rw [dealt_concat, same other]
        by_cases mine : other = name
        · subst mine
          -- the block is there already, so that later minute bars do not change it
          obtain ⟨rest, hrest⟩ := grow other
          rw [pushed, if_pos rfl, ← made, ← hrest,
            List.drop_append_of_le_length (by omega),
            List.take_append_of_le_length (by rw [List.length_drop]; omega)]
        · rw [others other mine, if_neg (Ne.symm mine), List.append_nil]
      · intro turn mem
        rw [List.zipIdx_append, List.mem_append] at mem
        obtain old | new := mem
        · exact inside turn old
        · obtain rfl : turn = (name, owners.length) := by simpa using new
          have := longer name
          simp only [Nat.add_mul, Nat.one_mul]
          omega
      · intro later hlater
        obtain rfl : th' = later := by simpa [running'] using hlater
        rw [advance, position, multipile, List.length_append, List.length_singleton,
          Nat.succ_mul]

theorem turns_run (hno : no ≠ .one) (ins : List StdString) (acts : List MdAction) :
    ∃ owners, Turns no (run ins acts) owners := by
  have free : Execution.Meets (Execution.total (next ins)) (fun _ _ => True) {} acts :=
    Execution.meets_of_forall fun _ _ => trivial
  refine run_invariant_of_started (fun s => ∃ owners, Turns no s owners) ?_ ?_ free
  · rintro s a started quiet ⟨owners, turns⟩ -
    exact turns_next hno started quiet turns a
  · refine ⟨[], fun _ => rfl, by simp, ?_, fun _ => rfl⟩
    intro th h
    cases h

/-- At every period the prices of the bars are prices of minute bars. -/
theorem composedBars_prices (ins : List StdString) (acts : List MdAction) (no : DataNo)
    (name : StdString) :
    ∀ bar ∈ (run ins acts).composedBars no name, ∀ price ∈ bar.prices,
      ∃ minute ∈ ((run ins acts).minuteBars name).candles, price ∈ minute.prices := by
  intro bar mem price hprice
  by_cases one : no = .one
  · subst one
    exact ⟨bar, mem, hprice⟩
  · have two := two_le_multiple one
    obtain ⟨owners, turns⟩ := turns_run one ins acts
    rw [turns.bars name] at mem
    obtain ⟨j, there, rfl⟩ := mem_dealt mem
    have inside := turns.inside _ there
    have nonempty : (((run ins acts).minuteBars name).candles.drop (j * multiple no)).take
        (multiple no) ≠ [] := by
      rw [← List.length_pos_iff, List.length_take, List.length_drop]
      simp only [Nat.succ_mul] at inside
      omega
    obtain ⟨minute, hminute, its⟩ := List.mem_flatMap.mp (prices_composeBlock nonempty hprice)
    exact ⟨minute, List.mem_of_mem_drop (List.mem_of_mem_take hminute), its⟩

/-- The closes of composed bars follow each other as those of the minute bars do. -/
theorem composedBars_pairwise (ins : List StdString) (acts : List MdAction) (no : DataNo)
    (name : StdString) {R : ℚ → ℚ → Prop}
    (minutes : ((run ins acts).minuteBars name).candles.Pairwise
      fun a b => R a.closePrice b.closePrice) :
    ((run ins acts).composedBars no name).Pairwise fun a b => R a.closePrice b.closePrice := by
  by_cases one : no = .one
  · subst one
    exact minutes
  · have two := two_le_multiple one
    obtain ⟨owners, turns⟩ := turns_run one ins acts
    rw [turns.bars name, dealt, List.pairwise_map]
    refine ((pairwise_zipIdx owners).filter _).imp_of_mem ?_
    rintro ⟨first, i⟩ ⟨second, j⟩ hi hj less
    obtain ⟨thereI, sameI⟩ := List.mem_filter.mp hi
    obtain ⟨thereJ, sameJ⟩ := List.mem_filter.mp hj
    obtain rfl : first = name := of_decide_eq_true sameI
    obtain rfl : second = first := of_decide_eq_true sameJ
    obtain ⟨insideI, closeI⟩ := closePrice_block (by omega) (turns.inside _ thereI).le
    obtain ⟨insideJ, closeJ⟩ := closePrice_block (by omega) (turns.inside _ thereJ).le
    simp only at insideI insideJ closeI closeJ
    rw [closeI, closeJ]
    refine List.pairwise_iff_getElem.mp minutes _ _ _ _ ?_
    have before : (i + 1) * multiple no < (j + 1) * multiple no :=
      Nat.mul_lt_mul_of_pos_right (by omega) (by omega)
    have filled : 0 < (i + 1) * multiple no := Nat.mul_pos (Nat.succ_pos i) (by omega)
    omega

end MdSystem

/-- In every run, with any instruments, the bars of a longer period have been dealt out in
turns: turn `j` belongs to one instrument, whose bar is made of block `j` of its own minute
bars, all of which are there, and the cursor of the thread counts the turns. -/
theorem composed_blocks_dealt {no : DataNo} (hno : no ≠ .one) (ins : List StdString)
    (acts : List MdAction) :
    ∃ owners : List StdString,
      (∀ name, (MdSystem.run ins acts).composedBars no name =
        dealt (MdSystem.multiple no) ((MdSystem.run ins acts).minuteBars name).candles
          owners name) ∧
      (∀ turn ∈ owners.zipIdx, (turn.2 + 1) * MdSystem.multiple no <
        ((MdSystem.run ins acts).minuteBars turn.1).candles.length) ∧
      ∀ th, (MdSystem.run ins acts).manager.calculateThread no = .running th →
        th.retrieveStartPos = owners.length * MdSystem.multiple no := by
  obtain ⟨owners, turns⟩ := MdSystem.turns_run hno ins acts
  exact ⟨owners, turns.bars, turns.inside, turns.cursor⟩

/-- Both instruments have a turn. -/
theorem composed_blocks_dealt_two :
    ∃ owners : List StdString, owners.length = 2 ∧
      (MdSystem.run ["ag1612".toList, "rb1610".toList] twoActs).composedBars .five
        "rb1610".toList = dealt 5 ((MdSystem.run ["ag1612".toList, "rb1610".toList]
          twoActs).minuteBars "rb1610".toList).candles owners "rb1610".toList := by
  let th : ComposeThread :=
    { focusInstr := ["ag1612".toList, "rb1610".toList], retrieveStartPos := 10,
      composeMultipile := 5, next := 2 }
  have running : (MdSystem.run ["ag1612".toList, "rb1610".toList] twoActs).manager.calculateThread
      .five = .running th := by
    decide +kernel
  have five : DataNo.five ≠ .one := by decide
  obtain ⟨owners, bars, -, cursor⟩ :=
    composed_blocks_dealt five ["ag1612".toList, "rb1610".toList] twoActs
  have count : 10 = owners.length * 5 := cursor _ running
  exact ⟨owners, by omega, bars _⟩

end CtpTrade
