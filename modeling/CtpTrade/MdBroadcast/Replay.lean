import CtpTrade.MdBroadcast.FakeFeed
import Mathlib.Data.List.GetD
import Mathlib.Data.List.Infix

/-!
# How long a recorded day can be replayed

The ticks that enter the buffer are the first one and those of rows with a
positive volume, so what the calculation thread sees is determined by the rows.
It cuts off one minute after the other, and aborts where it comes to a minute
that is followed by an earlier one while more than sixty ticks are in the buffer.
No schedule avoids that and no schedule does worse, because it depends on the
number of drawn ticks alone.
-/

namespace CtpTrade

/-- Reading the minutes from the front, the first one that differs from its predecessor
is an earlier one. This is what the search loop reports as a step back in time. -/
def StepsBack : List Nat → Prop
  | a :: b :: rest => b < a ∨ (b = a ∧ StepsBack (b :: rest))
  | _ => False

instance decidableStepsBack : (l : List Nat) → Decidable (StepsBack l)
  | a :: b :: rest =>
    have := decidableStepsBack (b :: rest)
    inferInstanceAs (Decidable (b < a ∨ (b = a ∧ StepsBack (b :: rest))))
  | [] => .isFalse id
  | [_] => .isFalse id

/-- There is a place with more than `bound` entries behind it where the next change of
the minute is a step back. Only there does the search loop look at the buffer at all. -/
def LateStepBack (bound : Nat) (minutes : List Nat) : Prop :=
  ∃ rest ∈ minutes.tails, bound < rest.length ∧ StepsBack rest

instance (bound : Nat) (minutes : List Nat) : Decidable (LateStepBack bound minutes) :=
  inferInstanceAs (Decidable (∃ rest ∈ minutes.tails, _))

theorem StepsBack.append {l : List Nat} (h : StepsBack l) (more : List Nat) :
    StepsBack (l ++ more) := by
  induction l with
  | nil => cases h
  | cons a l ih =>
      cases l with
      | nil => cases h
      | cons b l =>
          obtain lt | ⟨same, rest⟩ := h
          · exact .inl lt
          · exact .inr ⟨same, ih rest⟩

/-- More entries at the end only add to the entries behind a step back. -/
theorem LateStepBack.append {bound : Nat} {l : List Nat} (enough : bound < l.length)
    (h : StepsBack l) (front more : List Nat) : LateStepBack bound (front ++ l ++ more) := by
  refine ⟨l ++ more, ?_, ?_, h.append more⟩
  · rw [List.mem_tails, List.append_assoc]
    exact List.suffix_append front (l ++ more)
  · rw [List.length_append]
    omega

theorem not_stepsBack_of_forall {l : List Nat} {m : Nat} (same : ∀ x ∈ l, x = m) :
    ¬ StepsBack l := by
  induction l with
  | nil => exact id
  | cons a l ih =>
      obtain ⟨rfl, rest⟩ := List.forall_mem_cons.mp same
      cases l with
      | nil => exact id
      | cons b l =>
          have hb : b = a := rest b (List.mem_cons_self ..)
          rintro (lt | ⟨-, back⟩)
          · omega
          · exact ih rest back

theorem not_lateStepBack_of_forall {bound : Nat} {l : List Nat} {m : Nat}
    (same : ∀ x ∈ l, x = m) : ¬ LateStepBack bound l := by
  rintro ⟨rest, hrest, -, back⟩
  have sub := ((List.mem_tails _ _).mp hrest).subset
  exact not_stepsBack_of_forall (fun x hx => same x (sub hx)) back

theorem not_stepsBack_of_forward {lead rest : List Nat} {m : Nat} (same : ∀ x ∈ lead, x = m)
    (later : ∀ x ∈ rest.head?, m < x) (nonempty : lead ≠ []) : ¬ StepsBack (lead ++ rest) := by
  induction lead with
  | nil => exact absurd rfl nonempty
  | cons a lead ih =>
      obtain ⟨rfl, same⟩ := List.forall_mem_cons.mp same
      cases lead with
      | nil =>
          cases rest with
          | nil => exact id
          | cons x rest =>
              have lt := later x rfl
              rintro (lt' | ⟨same', -⟩) <;> omega
      | cons b lead =>
          have hb : b = a := same b (List.mem_cons_self ..)
          rintro (lt | ⟨-, back⟩)
          · omega
          · exact ih same (List.cons_ne_nil _ _) back

/-- A step forward does not hide a step back behind it. -/
theorem LateStepBack.behind {bound : Nat} {lead rest : List Nat} {m : Nat}
    (h : LateStepBack bound (lead ++ rest)) (same : ∀ x ∈ lead, x = m)
    (later : ∀ x ∈ rest.head?, m < x) : LateStepBack bound rest := by
  induction lead with
  | nil => exact h
  | cons a lead ih =>
      obtain ⟨rfl, same⟩ := List.forall_mem_cons.mp same
      obtain ⟨l, hl, enough, back⟩ := h
      have forward : ¬ StepsBack (a :: lead ++ rest) :=
        not_stepsBack_of_forward (List.forall_mem_cons.mpr ⟨rfl, same⟩) later (List.cons_ne_nil _ _)
      obtain rfl | inner := List.suffix_cons_iff.mp ((List.mem_tails _ _).mp hl)
      · exact absurd back forward
      · exact ih ⟨l, (List.mem_tails _ _).mpr inner, enough, back⟩ same

/-- The search loop of `calculate_process` only aborts at a step back. -/
theorem CMdBroadCast.stepsBack_of_findTail {base : List MtkData} {n : Nat} {e : Fault}
    (h : findTail n base = .error e) : StepsBack (base.map minute) := by
  induction base generalizing n with
  | nil => cases h
  | cons a base ih =>
      cases base with
      | nil => cases h
      | cons b base =>
          by_cases lt : minute a < minute b
          · have tail : isMinuteTail a.updateTime.chars b.updateTime.chars =
                .ok (some (minute a)) := if_pos lt
            simp only [findTail, tail] at h
            cases h
          · by_cases gt : minute a > minute b
            · exact .inl gt
            · have none : isMinuteTail a.updateTime.chars b.updateTime.chars = .ok none :=
                (if_neg lt).trans (if_neg gt)
              simp only [findTail, none] at h
              refine .inr ⟨by omega, ih h⟩

/-- The row of draw number `k`. -/
def rowAt (rows : List StdString) (k : Nat) : StdString := rows.getD (k % rows.length) []

/-- The volume of the first `n` drawn rows, as an unbounded number. The code adds it up
in an `int`. -/
def volumeUpTo (rows : List StdString) (n : Nat) : Int :=
  ((List.range n).map fun k => rowVolume (rowAt rows k)).sum

/-- The minutes of the first drawn row and of the later ones with a positive volume,
among the first `n`. -/
def keptMinutes (rows : List StdString) (n : Nat) : List Nat :=
  ((List.range n).filter fun k => k = 0 ∨ 0 < rowVolume (rowAt rows k)).map
    fun k => rowMinute (rowAt rows k)

/-- The condition under which the rows feed `n` ticks without a fault: there is a row at
all, the sum of the volumes fits into an `int`, and the day does not begin again in
front of more than sixty kept ticks. -/
structure Sustains (rows : List StdString) (n : Nat) : Prop where
  some : rows ≠ []
  volume : volumeUpTo rows n ≤ intMax
  minutes : ¬ LateStepBack (maxMinuteTicks / 2) (keptMinutes rows n)

section Rows

variable {ins : StdString} {rows : List StdString}

@[simp] theorem volumeUpTo_zero : volumeUpTo rows 0 = 0 := rfl

theorem volumeUpTo_succ (rows : List StdString) (n : Nat) :
    volumeUpTo rows (n + 1) = volumeUpTo rows n + rowVolume (rowAt rows n) := by
  simp [volumeUpTo, List.range_succ]

theorem fakeRow_rowAt (hrows : ∀ row ∈ rows, FakeRow ins row) (some : rows ≠ []) (k : Nat) :
    FakeRow ins (rowAt rows k) := by
  have inside : k % rows.length < rows.length := Nat.mod_lt _ (List.length_pos_iff.mpr some)
  rw [rowAt, List.getD_eq_getElem _ _ inside]
  exact hrows _ (List.getElem_mem inside)

theorem volumeUpTo_mono (hrows : ∀ row ∈ rows, FakeRow ins row) (some : rows ≠ []) {m n : Nat}
    (le : m ≤ n) : volumeUpTo rows m ≤ volumeUpTo rows n := by
  induction le with
  | refl => exact le_refl _
  | @step k _ ih =>
      rw [Nat.succ_eq_add_one, volumeUpTo_succ]
      have := (fakeRow_rowAt hrows some k).volume
      omega

theorem volumeUpTo_nonneg (hrows : ∀ row ∈ rows, FakeRow ins row) (some : rows ≠ []) (n : Nat) :
    0 ≤ volumeUpTo rows n := volumeUpTo_mono hrows some (Nat.zero_le n)

theorem keptMinutes_succ (n : Nat) :
    keptMinutes rows (n + 1) =
      keptMinutes rows n ++
        if n = 0 ∨ 0 < rowVolume (rowAt rows n) then [rowMinute (rowAt rows n)] else [] := by
  rw [keptMinutes, List.range_succ, List.filter_append, List.map_append, keptMinutes]
  by_cases kept : n = 0 ∨ 0 < rowVolume (rowAt rows n) <;> simp [kept]

theorem keptMinutes_prefix (rows : List StdString) {m n : Nat} (le : m ≤ n) :
    keptMinutes rows m <+: keptMinutes rows n := by
  induction le with
  | refl => exact List.prefix_refl _
  | step _ ih =>
      rw [Nat.succ_eq_add_one, keptMinutes_succ]
      exact ih.trans (List.prefix_append ..)

/-- The ticks are those of the first rows, read cyclically, as far as the pipeline looks
at them: instrument, minute and the running sum of the volume columns. -/
def Views (ins : StdString) (rows : List StdString) (ticks : List MtkData) : Prop :=
  ticks.map tickView = (List.range ticks.length).map fun k =>
    (ins, rowMinute (rowAt rows k), Int32.ofInt (volumeUpTo rows (k + 1)))

variable {ticks more : List MtkData} {t : MtkData}

theorem views_nil : Views ins rows [] := rfl

theorem views_concat :
    Views ins rows (ticks ++ [t]) ↔ Views ins rows ticks ∧
      tickView t = (ins, rowMinute (rowAt rows ticks.length),
        Int32.ofInt (volumeUpTo rows (ticks.length + 1))) := by
  simp only [Views, List.map_append, List.length_append, List.length_singleton, List.range_succ,
    List.map_cons, List.map_nil]
  constructor
  · intro h
    obtain ⟨front, last⟩ := List.append_inj' h rfl
    exact ⟨front, List.head_eq_of_cons_eq last⟩
  · rintro ⟨front, last⟩
    rw [front, last]

theorem Views.prefix (h : Views ins rows (ticks ++ more)) : Views ins rows ticks := by
  induction more using List.reverseRecOn with
  | nil => simpa using h
  | append_singleton more t ih =>
      rw [← List.append_assoc, views_concat] at h
      exact ih h.1

theorem Views.instrument (h : Views ins rows ticks) : ∀ t ∈ ticks, t.instrumentID.chars = ins := by
  intro t ht
  have mem : tickView t ∈ ticks.map tickView := List.mem_map_of_mem ht
  rw [h, List.mem_map] at mem
  obtain ⟨k, -, hk⟩ := mem
  exact congrArg Prod.fst hk.symm

theorem Views.ticksOf_eq (h : Views ins rows ticks) : ticksOf ins ticks = ticks := by
  rw [ticksOf, List.filter_eq_self]
  exact fun t ht => decide_eq_true (h.instrument t ht)

/-- Running totals that fit into an `int` compare as they are. -/
theorem volume_lt_iff (hrows : ∀ row ∈ rows, FakeRow ins row) (some : rows ≠ []) {m n : Nat}
    (hm : volumeUpTo rows m ≤ intMax) (hn : volumeUpTo rows n ≤ intMax) :
    Int32.ofInt (volumeUpTo rows m) < Int32.ofInt (volumeUpTo rows n) ↔
      volumeUpTo rows m < volumeUpTo rows n := by
  have low : intMin ≤ 0 := by decide
  rw [Int32.lt_iff_toInt_lt, toInt_ofInt (low.trans (volumeUpTo_nonneg hrows some m)) hm,
    toInt_ofInt (low.trans (volumeUpTo_nonneg hrows some n)) hn]

/-- The total does not decrease from one tick to a later one. -/
theorem Views.volume_pairwise (hrows : ∀ row ∈ rows, FakeRow ins row) (some : rows ≠ [])
    (h : Views ins rows ticks) (fits : volumeUpTo rows ticks.length ≤ intMax) :
    ticks.Pairwise fun a b => a.volume ≤ b.volume := by
  have views : (ticks.map tickView).Pairwise fun a b => a.2.2 ≤ b.2.2 := by
    rw [h, List.pairwise_map]
    refine List.Pairwise.imp_of_mem ?_ List.pairwise_lt_range
    intro i j hi hj lt
    rw [List.mem_range] at hi hj
    have le (k : Nat) (hk : k < ticks.length) : volumeUpTo rows (k + 1) ≤ intMax :=
      (volumeUpTo_mono hrows some hk).trans fits
    rw [← Int32.not_lt, volume_lt_iff hrows some (le j hj) (le i hi), not_lt]
    exact volumeUpTo_mono hrows some (by omega)
  rw [List.pairwise_map] at views
  exact views

/-- What a buffer that is never cleared has accepted of the drawn ticks: the ticks of
the kept minutes, the last of which carries the whole volume so far. -/
structure AcceptedRows (rows : List StdString) (ticks : List MtkData) : Prop where
  minutes : (accepted ticks).map minute = keptMinutes rows ticks.length
  back : ∀ t ∈ (accepted ticks).getLast?, t.volume = Int32.ofInt (volumeUpTo rows ticks.length)
  nonempty : ticks ≠ [] → accepted ticks ≠ []

/-- The next tick is accepted exactly if its row is counted among the kept ones. -/
theorem AcceptedRows.pushFresh_eq (hrows : ∀ row ∈ rows, FakeRow ins row) (some : rows ≠ [])
    (h : AcceptedRows rows ticks)
    (volume : t.volume = Int32.ofInt (volumeUpTo rows (ticks.length + 1)))
    (fits : volumeUpTo rows (ticks.length + 1) ≤ intMax) :
    pushFresh (accepted ticks) t = accepted ticks ++
      if ticks.length = 0 ∨ 0 < rowVolume (rowAt rows ticks.length) then [t] else [] := by
  have next := volumeUpTo_succ rows ticks.length
  have before := (volumeUpTo_mono hrows some (Nat.le_succ ticks.length)).trans fits
  rw [pushFresh]
  cases hlast : (accepted ticks).getLast? with
  | none =>
      have empty : ticks = [] := by
        by_contra filled
        exact h.nonempty filled (List.getLast?_eq_none_iff.mp hlast)
      simp [empty]
  | some last =>
      have filled : ¬ ticks.length = 0 := by
        intro empty
        rw [List.length_eq_zero_iff.mp empty] at hlast
        cases hlast
      simp only [h.back last hlast, volume, volume_lt_iff hrows some before fits, filled, false_or]
      by_cases traded : 0 < rowVolume (rowAt rows ticks.length)
      · rw [if_pos (by omega), if_pos traded]
      · rw [if_neg (by omega), if_neg traded, List.append_nil]

theorem acceptedRows (hrows : ∀ row ∈ rows, FakeRow ins row) (some : rows ≠ [])
    (h : Views ins rows ticks) (fits : volumeUpTo rows ticks.length ≤ intMax) :
    AcceptedRows rows ticks := by
  induction ticks using List.reverseRecOn with
  | nil => exact ⟨rfl, by simp, by simp⟩
  | append_singleton ticks t ih =>
      obtain ⟨views, view⟩ := views_concat.mp h
      rw [List.length_append, List.length_singleton] at fits
      have before := (volumeUpTo_mono hrows some (Nat.le_succ ticks.length)).trans fits
      have counted := ih views before
      have hminute : minute t = rowMinute (rowAt rows ticks.length) :=
        congrArg (fun view => view.2.1) view
      have hvolume : t.volume = Int32.ofInt (volumeUpTo rows (ticks.length + 1)) :=
        congrArg (fun view => view.2.2) view
      have kept := counted.pushFresh_eq hrows some hvolume fits
      refine ⟨?_, ?_, ?_⟩
      · rw [accepted_concat, kept, List.map_append, counted.minutes, List.length_append,
          List.length_singleton, keptMinutes_succ]
        split_ifs <;> simp [hminute]
      · rw [accepted_concat, kept, List.length_append, List.length_singleton]
        split_ifs with traded
        · simp [hvolume]
        · have idle : volumeUpTo rows (ticks.length + 1) = volumeUpTo rows ticks.length := by
            have nonneg := (fakeRow_rowAt hrows some ticks.length).volume
            rw [volumeUpTo_succ]
            omega
          rw [List.append_nil, idle]
          exact counted.back
      · intro _
        rw [accepted_concat]
        exact pushFresh_ne_nil _ t

end Rows

namespace FakeFeed

variable {ins : StdString} {insList rows : List StdString} {s t : FakeFeed}

/-- The invariant of a fault-free run over a file of rows. The pipeline is in a state of
its own runs, it has received the ticks of the first rows, and index and running total
are those of as many draws. -/
structure Drawn (insList : List StdString) (ins : StdString) (rows : List StdString)
    (s : FakeFeed) : Prop where
  pipeline : ∃ acts, Pipeline.run false insList acts = .ok s.pipeline
  views : Views ins rows s.pipeline.appended
  index : s.fakeDataIndex ≤ rows.length ∧
    s.fakeDataIndex % rows.length = s.pipeline.appended.length % rows.length
  total : s.fakeTotalVolum = volumeUpTo rows s.pipeline.appended.length
  fits : s.fakeTotalVolum ≤ intMax

theorem drawn_start (insList : List StdString) (ins : StdString) (rows : List StdString) :
    Drawn insList ins rows { pipeline := Pipeline.start insList } where
  pipeline := ⟨[], rfl⟩
  views := views_nil
  index := ⟨Nat.zero_le _, rfl⟩
  total := rfl
  fits := by
    change (0 : Int) ≤ intMax
    decide

/-- A step of the pipeline that draws nothing. -/
private theorem drawn_stepPipeline (hs : Drawn insList ins rows s) {a : PipelineAction}
    (h : s.stepPipeline a = .ok t)
    (same : ∀ p, s.pipeline.step false a = .ok p → p.appended = s.pipeline.appended) :
    Drawn insList ins rows t ∧
      ∃ p, s.pipeline.step false a = .ok p ∧ t = { s with pipeline := p } := by
  simp only [stepPipeline] at h
  cases hstep : s.pipeline.step false a with
  | error e => simp [hstep] at h
  | ok p =>
      simp only [hstep, Except.ok.injEq] at h
      subst h
      obtain ⟨acts, reach⟩ := hs.pipeline
      have appended := same p hstep
      refine ⟨⟨⟨acts ++ [a], ?_⟩, ?_, ?_, ?_, hs.fits⟩, p, rfl, rfl⟩
      · rw [Pipeline.run, Execution.run_append_ok reach, Execution.run_cons_ok hstep]
        rfl
      · simpa only [appended] using hs.views
      · simpa only [appended] using hs.index
      · simpa only [appended] using hs.total

/-- A draw takes the next row and appends its tick, unless the total overflows. -/
theorem step_draw (hrows : ∀ row ∈ rows, FakeRow ins row) (some : rows ≠ [])
    (hs : Drawn insList ins rows s) :
    if volumeUpTo rows (s.pipeline.appended.length + 1) ≤ intMax then
      ∃ tick t, step insList rows s .draw = .ok t ∧ Drawn insList ins rows t ∧
        s.pipeline.step false (.append tick) = .ok t.pipeline
    else step insList rows s .draw = .error .volumeOverflow := by
  have length : 0 < rows.length := List.length_pos_iff.mpr some
  obtain ⟨inside, position⟩ := hs.index
  have nonzero : ¬ (s.fakeDataIndex ≥ rows.length ∧ rows.length = 0) := by omega
  have index : (if s.fakeDataIndex ≥ rows.length then s.fakeDataIndex % rows.length
      else s.fakeDataIndex) = s.pipeline.appended.length % rows.length := by
    rw [← position]
    split_ifs with past
    · rfl
    · exact (Nat.mod_eq_of_lt (by omega)).symm
  have total : s.fakeTotalVolum + rowVolume (rowAt rows s.pipeline.appended.length) =
      volumeUpTo rows (s.pipeline.appended.length + 1) := by
    rw [volumeUpTo_succ, hs.total]
  have nonneg : 0 ≤ s.fakeTotalVolum := by
    rw [hs.total]
    exact volumeUpTo_nonneg hrows some _
  have row := CMdBroadCast.transferColumns_row
    (fakeRow_rowAt hrows some s.pipeline.appended.length) nonneg
  rw [total, rowAt] at row
  simp only [step, CMdBroadCast.transferFakeToTickData, nonzero, ↓reduceIte, index]
  split_ifs at row ⊢ with fits
  · obtain ⟨tick, transfer, view⟩ := row
    simp only [transfer]
    obtain ⟨acts, reach⟩ := hs.pipeline
    refine ⟨tick, _, rfl, ⟨⟨acts ++ [.append tick], ?_⟩, ?_, ?_, ?_, ?_⟩, rfl⟩
    · rw [Pipeline.run, Execution.run_append_ok reach]
      rfl
    · exact views_concat.mpr ⟨hs.views, view⟩
    · refine ⟨Nat.mod_lt _ length, ?_⟩
      rw [List.length_append, List.length_singleton, Nat.mod_add_mod]
    · simp
    · exact fits
  · simp only [row]

theorem step_draw_nil : step insList [] s .draw = .error .remainderByZero := by
  simp [step, CMdBroadCast.transferFakeToTickData]

private theorem appended_of_step {p q : Pipeline} {a : PipelineAction}
    (quiet : ∀ tick, a ≠ .append tick) (h : p.step false a = .ok q) :
    q.appended = p.appended := by
  cases a with
  | append tick => exact absurd rfl (quiet tick)
  | distribute =>
      obtain ⟨-, rfl⟩ | ⟨tick, rest, -, rfl⟩ := Pipeline.step_distribute h <;> rfl
  | calculate name =>
      obtain ⟨md, push, -, rfl⟩ := Pipeline.step_calculate h
      rfl

/-- Every fault-free step keeps the invariant, and only a draw adds a tick. -/
theorem drawn_step (hrows : ∀ row ∈ rows, FakeRow ins row) (hs : Drawn insList ins rows s)
    {a : FakeAction} (h : step insList rows s a = .ok t) :
    Drawn insList ins rows t ∧
      t.pipeline.appended.length = s.pipeline.appended.length + draws [a] := by
  have quiet {a : FakeAction} {b : PipelineAction} (none : draws [a] = 0)
      (notAppend : ∀ tick, b ≠ .append tick) (h : s.stepPipeline b = .ok t) :
      Drawn insList ins rows t ∧
        t.pipeline.appended.length = s.pipeline.appended.length + draws [a] := by
    have same (p : Pipeline) (hstep : s.pipeline.step false b = .ok p) :
        p.appended = s.pipeline.appended := appended_of_step notAppend hstep
    obtain ⟨drawn, p, hstep, rfl⟩ := drawn_stepPipeline hs h same
    exact ⟨drawn, by rw [none, same p hstep, Nat.add_zero]⟩
  cases a with
  | draw =>
      by_cases none : rows = []
      · subst none
        rw [step_draw_nil] at h
        cases h
      · have drawn := step_draw hrows none hs
        split_ifs at drawn
        · obtain ⟨tick, t', hstep, drawn, appended⟩ := drawn
          rw [h, Except.ok.injEq] at hstep
          subst hstep
          refine ⟨drawn, ?_⟩
          rw [Pipeline.step_append, Except.ok.injEq] at appended
          rw [← appended]
          simp [draws]
        · rw [h] at drawn
          cases drawn
  | distribute => exact quiet rfl (by simp) h
  | calculate name =>
      simp only [step] at h
      split_ifs at h
      · exact quiet rfl (by simp) h
      · cases h
        exact ⟨hs, rfl⟩

theorem drawn_run (hrows : ∀ row ∈ rows, FakeRow ins row) {acts : List FakeAction}
    (h : Execution.run (step insList rows) { pipeline := Pipeline.start insList } acts = .ok s) :
    Drawn insList ins rows s ∧ s.pipeline.appended.length = draws acts := by
  induction acts using List.reverseRecOn generalizing s with
  | nil =>
      cases h
      exact ⟨drawn_start insList ins rows, rfl⟩
  | append_singleton acts a ih =>
      obtain ⟨m, hm, hstep⟩ := Execution.run_concat_ok h
      obtain ⟨drawn, count⟩ := ih hm
      obtain ⟨drawn', count'⟩ := drawn_step hrows drawn hstep
      refine ⟨drawn', ?_⟩
      rw [count', count, draws, draws, draws, List.count_append]

theorem Drawn.distributed (hs : Drawn insList ins rows s) :
    ∃ rest, s.pipeline.appended = s.pipeline.distributed ++ rest := by
  obtain ⟨acts, reach⟩ := hs.pipeline
  exact ⟨_, (Pipeline.sound_run reach).queue⟩

/-- What has become bars and what is in the buffer are the kept rows of the
distributed ticks. -/
theorem Drawn.minutes (hrows : ∀ row ∈ rows, FakeRow ins row) (some : rows ≠ [])
    (hs : Drawn insList ins rows s) :
    (s.pipeline.groupsOf ins).flatten.map minute ++ (s.pipeline.buffer ins).map minute =
      keptMinutes rows s.pipeline.distributed.length := by
  obtain ⟨acts, reach⟩ := hs.pipeline
  obtain ⟨rest, queue⟩ := hs.distributed
  have views : Views ins rows s.pipeline.distributed := by
    have views := hs.views
    rw [queue] at views
    exact views.prefix
  have fits : volumeUpTo rows s.pipeline.distributed.length ≤ intMax := by
    have fits := hs.fits
    rw [hs.total, queue, List.length_append] at fits
    exact (volumeUpTo_mono hrows some (Nat.le_add_right ..)).trans fits
  have stream := (Pipeline.conserved_run ins reach (alwaysOpen_false _)).stream
  rw [Pipeline.channel_groups] at stream
  rw [← List.map_append, ← (acceptedRows hrows some views fits).minutes]
  congr 1
  rw [← views.ticksOf_eq]
  exact stream

/-- Only drawn ticks are in a buffer. -/
theorem Drawn.buffered (hs : Drawn insList ins rows s) {name : StdString}
    (filled : s.pipeline.buffer name ≠ []) : name = ins ∧ s.pipeline.appended ≠ [] := by
  obtain ⟨acts, reach⟩ := hs.pipeline
  obtain ⟨tick, mem⟩ := List.exists_mem_of_ne_nil _ filled
  have drawn : tick ∈ s.pipeline.appended := List.mem_of_mem_filter
    ((Pipeline.distributed_sublist reach name).subset
      ((Pipeline.buffer_sublist name reach).subset mem))
  refine ⟨?_, List.ne_nil_of_mem drawn⟩
  rw [← hs.views.instrument tick drawn]
  exact ((Pipeline.sound_run reach).named name tick mem).symm

/-- While the rows sustain the feed a buffer that is searched has no step back. -/
theorem findTail_ok_of_sustains (hrows : ∀ row ∈ rows, FakeRow ins row) {n : Nat}
    (sustains : 0 < s.pipeline.appended.length → Sustains rows n) (hs : Drawn insList ins rows s)
    (room : s.pipeline.appended.length ≤ n) (name : StdString)
    (enough : s.pipeline.md.mtkOpen.get name = true →
      maxMinuteTicks / 2 < (s.pipeline.buffer name).length) :
    ∃ found, CMdBroadCast.findTail 0 (s.pipeline.buffer name) = .ok found := by
  cases hfind : CMdBroadCast.findTail 0 (s.pipeline.buffer name) with
  | ok found => exact ⟨found, rfl⟩
  | error e =>
      have back : StepsBack ((s.pipeline.buffer name).map minute) :=
        CMdBroadCast.stepsBack_of_findTail hfind
      have filled : s.pipeline.buffer name ≠ [] := by
        intro empty
        rw [empty] at back
        exact back
      obtain ⟨acts, reach⟩ := hs.pipeline
      have long := enough ((Pipeline.conserved_run name reach (alwaysOpen_false _)).opened filled)
      obtain ⟨rfl, drawn⟩ := hs.buffered filled
      have sustains := sustains (List.length_pos_iff.mpr drawn)
      obtain ⟨rest, queue⟩ := hs.distributed
      have count : s.pipeline.distributed.length ≤ n := by
        rw [queue, List.length_append] at room
        omega
      obtain ⟨more, hmore⟩ := keptMinutes_prefix rows count
      rw [← hs.minutes hrows sustains.some] at hmore
      have late := LateStepBack.append (by rw [List.length_map]; exact long) back
        ((s.pipeline.groupsOf name).flatten.map minute) more
      rw [hmore] at late
      exact absurd late sustains.minutes

/-- While the rows sustain the feed no step faults. -/
theorem step_ok_of_sustains (hins : ins ∈ insList) (hrows : ∀ row ∈ rows, FakeRow ins row)
    {n : Nat} (sustains : n = 0 ∨ Sustains rows n) (hs : Drawn insList ins rows s)
    {a : FakeAction} (room : s.pipeline.appended.length + draws [a] ≤ n) :
    ∃ t, step insList rows s a = .ok t := by
  obtain ⟨acts, reach⟩ := hs.pipeline
  have sustains (drawn : 0 < s.pipeline.appended.length + draws [a]) : Sustains rows n :=
    sustains.resolve_left (by omega)
  have lift {b : PipelineAction} (h : ∃ p, s.pipeline.step false b = .ok p) :
      ∃ t, s.stepPipeline b = .ok t := by
    obtain ⟨p, hstep⟩ := h
    simp only [stepPipeline, hstep]
    exact ⟨_, rfl⟩
  cases a with
  | draw =>
      have sustains := sustains (Nat.succ_pos _)
      have drawn := step_draw hrows sustains.some hs
      have fits : volumeUpTo rows (s.pipeline.appended.length + 1) ≤ intMax :=
        (volumeUpTo_mono hrows sustains.some room).trans sustains.volume
      rw [if_pos fits] at drawn
      obtain ⟨tick, t, hstep, -⟩ := drawn
      exact ⟨t, hstep⟩
  | distribute =>
      apply lift
      apply Pipeline.distribute_ok reach
      · intro name _
        by_cases empty : s.pipeline.appended = []
        · simp [empty]
        · have sustains := sustains (Nat.add_pos_left (List.length_pos_iff.mpr empty) _)
          have fits := hs.fits
          rw [hs.total] at fits
          exact (hs.views.volume_pairwise hrows sustains.some fits).sublist List.filter_sublist
      · intro tick htick
        rw [hs.views.instrument tick htick]
        exact hins
  | calculate name =>
      simp only [step]
      split_ifs with subscribed
      · apply lift
        have find := findTail_ok_of_sustains hrows sustains hs room name
        obtain ⟨r, hcalc⟩ := CMdBroadCast.calculateMinBar_ok_of_find
          (Pipeline.mutex_run reach subscribed) find
        simp only [Pipeline.step, hcalc]
        exact ⟨_, rfl⟩
      · exact ⟨s, rfl⟩

/-- In front of a late step back a calculation aborts or cuts off a minute. -/
theorem step_calculate_of_late (hins : ins ∈ insList) (hrows : ∀ row ∈ rows, FakeRow ins row)
    (hs : Drawn insList ins rows s)
    (back : LateStepBack (maxMinuteTicks / 2) ((s.pipeline.buffer ins).map minute))
    (h : step insList rows s (.calculate ins) = .ok t) :
    Drawn insList ins rows t ∧
      LateStepBack (maxMinuteTicks / 2) ((t.pipeline.buffer ins).map minute) ∧
      (t.pipeline.buffer ins).length < (s.pipeline.buffer ins).length := by
  refine ⟨(drawn_step hrows hs h).1, ?_⟩
  have long : maxMinuteTicks / 2 < (s.pipeline.buffer ins).length := by
    obtain ⟨rest, hrest, enough, -⟩ := back
    have le := ((List.mem_tails _ _).mp hrest).length_le
    rw [List.length_map] at le
    omega
  have filled : s.pipeline.buffer ins ≠ [] := by
    rintro empty
    simp [empty] at long
  have opened : s.pipeline.md.mtkOpen.get ins = true := by
    obtain ⟨acts, reach⟩ := hs.pipeline
    exact (Pipeline.conserved_run ins reach (alwaysOpen_false _)).opened filled
  simp only [step, hins, ↓reduceIte, stepPipeline] at h
  cases hpipe : s.pipeline.step false (.calculate ins) with
  | error e => simp [hpipe] at h
  | ok p =>
      simp only [hpipe, Except.ok.injEq] at h
      subst h
      obtain ⟨md, push, outcome, rfl⟩ := Pipeline.step_calculate hpipe
      cases outcome with
      | idle idle =>
          obtain ⟨-, short | uniform⟩ | ⟨closed, -⟩ := idle
          · exact absurd long (not_lt.mpr short)
          · obtain ⟨first, mem⟩ := List.exists_mem_of_ne_nil _ filled
            refine absurd back (not_lateStepBack_of_forall (m := minute first) ?_)
            intro m hm
            obtain ⟨tick, htick, rfl⟩ := List.mem_map.mp hm
            exact uniform tick htick first mem
          · exact absurd (opened.symm.trans closed) (by simp)
      | dump closed => exact absurd (opened.symm.trans closed) (by simp)
      | emit g rest m bar lead =>
          have split : s.pipeline.buffer ins = g ++ rest := lead.split
          have buffer (q : Pipeline) (h : q.md.tickBase = s.pipeline.md.tickBase.set ins rest) :
              q.buffer ins = rest := by
            simp [Pipeline.buffer, h]
          rw [buffer _ rfl]
          constructor
          · rw [split, List.map_append] at back
            refine back.behind (m := m) ?_ ?_
            · intro x hx
              obtain ⟨tick, htick, rfl⟩ := List.mem_map.mp hx
              exact lead.same tick htick
            · intro x hx
              rw [List.head?_map, Option.mem_map] at hx
              obtain ⟨tick, htick, rfl⟩ := hx
              exact lead.later tick htick
          · have := List.length_pos_iff.mpr lead.group_ne
            rw [split, List.length_append]
            omega

/-- The calculation thread cuts off one minute after the other until it aborts. -/
theorem calculates_fault (hins : ins ∈ insList) (hrows : ∀ row ∈ rows, FakeRow ins row)
    (hs : Drawn insList ins rows s)
    (back : LateStepBack (maxMinuteTicks / 2) ((s.pipeline.buffer ins).map minute)) :
    ∃ k e, Execution.run (step insList rows) s (List.replicate k (.calculate ins)) = .error e := by
  induction hn : (s.pipeline.buffer ins).length using Nat.strong_induction_on generalizing s with
  | _ n ih =>
      cases hstep : step insList rows s (.calculate ins) with
      | error e => exact ⟨1, e, by simp [Execution.run, hstep]⟩
      | ok t =>
          obtain ⟨drawn, behind, fewer⟩ := step_calculate_of_late hins hrows hs back hstep
          obtain ⟨k, e, fault⟩ := ih _ (hn ▸ fewer) drawn behind rfl
          refine ⟨k + 1, e, ?_⟩
          rw [List.replicate_succ, Execution.run_cons_ok hstep, fault]

/-- The schedule that distributes every tick before it draws the next one, which fills
the buffer fastest. -/
def drawAll (n : Nat) : List FakeAction := (List.replicate n [.draw, .distribute]).flatten

theorem drawAll_succ (n : Nat) : drawAll (n + 1) = drawAll n ++ [.draw, .distribute] := by
  simp [drawAll, List.replicate_succ']

@[simp] theorem draws_drawAll (n : Nat) : draws (drawAll n) = n := by
  induction n with
  | zero => rfl
  | succ n ih =>
      rw [draws] at ih
      rw [drawAll_succ, draws, List.count_append, ih]
      rfl

/-- Behind that schedule nothing is queued and nothing has been calculated. -/
theorem drawAll_run (hrows : ∀ row ∈ rows, FakeRow ins row) (n : Nat)
    (h : Execution.run (step insList rows) { pipeline := Pipeline.start insList } (drawAll n) =
      .ok s) : s.pipeline.md.subTicks = [] ∧ s.pipeline.pushed = [] := by
  induction n generalizing s with
  | zero =>
      cases h
      exact ⟨Pipeline.start_subTicks insList, rfl⟩
  | succ n ih =>
      rw [drawAll_succ, List.append_cons] at h
      obtain ⟨m₂, h₂, distribute⟩ := Execution.run_concat_ok h
      obtain ⟨m₁, h₁, draw⟩ := Execution.run_concat_ok h₂
      obtain ⟨queue, pushed⟩ := ih h₁
      have some : rows ≠ [] := by
        rintro rfl
        rw [step_draw_nil] at draw
        cases draw
      have drawn := step_draw hrows some (drawn_run hrows h₁).1
      rw [draw] at drawn
      split_ifs at drawn
      obtain ⟨tick, t, same, -, append⟩ := drawn
      cases same
      rw [Pipeline.step_append, Except.ok.injEq] at append
      simp only [step, stepPipeline] at distribute
      cases hpipe : m₂.pipeline.step false .distribute with
      | error e => simp [hpipe] at distribute
      | ok p =>
          simp only [hpipe, Except.ok.injEq] at distribute
          subst distribute
          have waiting : m₂.pipeline.md.subTicks = [tick] := by
            rw [← append]
            simp [CMdBroadCast.onRtnDepthMarketData, queue]
          have idle : m₂.pipeline.pushed = [] := by
            rw [← append]
            exact pushed
          obtain ⟨empty, -⟩ | ⟨first, rest, hqueue, rfl⟩ := Pipeline.step_distribute hpipe
          · rw [waiting] at empty
            cases empty
          · rw [waiting] at hqueue
            cases hqueue
            exact ⟨rfl, idle⟩

/-- If no schedule with `n` draws faults, the rows sustain them. -/
theorem sustains_of_ok (hins : ins ∈ insList) (hrows : ∀ row ∈ rows, FakeRow ins row) {n : Nat}
    (pos : n ≠ 0)
    (ok : ∀ acts, draws acts ≤ n →
      ∃ s, Execution.run (step insList rows) { pipeline := Pipeline.start insList } acts = .ok s) :
    Sustains rows n := by
  obtain ⟨s, hs⟩ := ok (drawAll n) (draws_drawAll n).le
  obtain ⟨drawn, count⟩ := drawn_run hrows hs
  obtain ⟨queue, pushed⟩ := drawAll_run hrows n hs
  rw [draws_drawAll] at count
  have some : rows ≠ [] := by
    rintro rfl
    obtain ⟨s, hs⟩ := ok [.draw] (Nat.one_le_iff_ne_zero.mpr pos)
    simp [Execution.run, step_draw_nil] at hs
  refine ⟨some, ?_, ?_⟩
  · have fits := drawn.fits
    rwa [drawn.total, count] at fits
  · intro late
    obtain ⟨acts, reach⟩ := drawn.pipeline
    have all : s.pipeline.distributed.length = n := by
      have sound := (Pipeline.sound_run reach).queue
      rw [queue, List.append_nil] at sound
      rw [← sound, count]
    have buffer : (s.pipeline.buffer ins).map minute = keptMinutes rows n := by
      have minutes := drawn.minutes hrows some
      rw [all] at minutes
      simpa [Pipeline.groupsOf, Pipeline.pushedOf, pushed] using minutes
    rw [← buffer] at late
    obtain ⟨k, e, fault⟩ := calculates_fault hins hrows drawn late
    have few : draws (drawAll n ++ List.replicate k (.calculate ins)) ≤ n := by
      have none : (List.replicate k (FakeAction.calculate ins)).count .draw = 0 := by
        rw [List.count_eq_zero]
        intro mem
        cases List.eq_of_mem_replicate mem
      have front := draws_drawAll n
      rw [draws] at front ⊢
      rw [List.count_append, front, none, Nat.add_zero]
    obtain ⟨t, ht⟩ := ok _ few
    rw [Execution.run_append_ok hs, fault] at ht
    cases ht

/-- As long as the rows sustain the draws of a schedule it does not fault. -/
theorem run_ok_of_sustains (hins : ins ∈ insList) (hrows : ∀ row ∈ rows, FakeRow ins row)
    {n : Nat} (sustains : n = 0 ∨ Sustains rows n) {acts : List FakeAction}
    (few : draws acts ≤ n) :
    ∃ s, Execution.run (step insList rows) { pipeline := Pipeline.start insList } acts = .ok s := by
  induction acts using List.reverseRecOn with
  | nil => exact ⟨_, rfl⟩
  | append_singleton acts a ih =>
      have count : draws (acts ++ [a]) = draws acts + draws [a] := List.count_append
      obtain ⟨s, hs⟩ := ih (by omega)
      obtain ⟨drawn, length⟩ := drawn_run hrows hs
      obtain ⟨t, hstep⟩ := step_ok_of_sustains hins hrows sustains drawn (a := a) (by omega)
      refine ⟨t, ?_⟩
      rw [Execution.run_append_ok hs, Execution.run_cons_ok hstep]
      rfl

end FakeFeed

/-- The fake feed can draw `n` ticks under every schedule exactly when the rows of
the file sustain them: no remainder by zero is taken, the total does not overflow,
and neither `abort()` is reached. -/
theorem fake_feed_never_faults_iff {insList : List StdString} {ins : StdString}
    (hins : ins ∈ insList) {csvIn : List StdString}
    (hrows : ∀ row ∈ CMdBroadCast.initialFakeTickData csvIn, FakeRow ins row) (n : Nat) :
    (∀ acts, FakeFeed.draws acts ≤ n → ∃ s, FakeFeed.run insList csvIn acts = .ok s) ↔
      n = 0 ∨ Sustains (CMdBroadCast.initialFakeTickData csvIn) n := by
  constructor
  · intro ok
    by_cases zero : n = 0
    · exact .inl zero
    · exact .inr (FakeFeed.sustains_of_ok hins hrows zero ok)
  · intro sustains acts few
    exact FakeFeed.run_ok_of_sustains hins hrows sustains few

/-- A recorded day of two ticks in two minutes, behind the two header lines. -/
def sampleDay : List StdString :=
  ["rb1610".toList, "".toList, "SHFE,rb1610,2016-03-31 09:00:00.500,2100,1,1,1,6,2,0".toList,
    "SHFE,rb1610,2016-03-31 09:01:00.500,2101,1,1,1,6,2,0".toList]

theorem sampleDay_rows :
    ∀ row ∈ CMdBroadCast.initialFakeTickData sampleDay, FakeRow sampleName.chars row := by
  intro row hrow
  simp only [sampleDay, CMdBroadCast.initialFakeTickData, List.drop_succ_cons, List.drop_zero,
    List.mem_cons, List.not_mem_nil, or_false] at hrow
  obtain rfl | rfl := hrow
  · exact ⟨by decide, by decide +kernel, by decide +kernel⟩
  · exact ⟨by decide, by decide +kernel, by decide +kernel⟩

/-- The first tick and sixty behind it are drawn before the day would have to begin
again in front of too many. -/
theorem fake_feed_never_faults_iff_sample :
    Sustains (CMdBroadCast.initialFakeTickData sampleDay) 61 ∧
      ∀ acts, FakeFeed.draws acts ≤ 61 →
        ∃ s, FakeFeed.run [sampleName.chars] sampleDay acts = .ok s := by
  have sustains : Sustains (CMdBroadCast.initialFakeTickData sampleDay) 61 :=
    ⟨by decide, by decide +kernel, by decide +kernel⟩
  refine ⟨sustains, ?_⟩
  have ok := fake_feed_never_faults_iff (List.mem_singleton_self _) sampleDay_rows 61
  exact ok.mpr (.inr sustains)

/-- An empty file stops the feed at its first draw, and the recorded day does when it
has begun again often enough to fill the buffer. -/
theorem fake_feed_stops :
    (¬ ∀ csvIn, (∀ row ∈ CMdBroadCast.initialFakeTickData csvIn, FakeRow sampleName.chars row) →
      (CMdBroadCast.initialFakeTickData csvIn).Pairwise (fun a b => rowMinute a ≤ rowMinute b) →
      ∀ n acts, FakeFeed.draws acts ≤ n →
        ∃ s, FakeFeed.run [sampleName.chars] csvIn acts = .ok s) ∧
    ¬ ∀ acts, FakeFeed.draws acts ≤ 62 →
      ∃ s, FakeFeed.run [sampleName.chars] sampleDay acts = .ok s := by
  constructor
  · intro claim
    obtain ⟨s, hs⟩ :=
      claim [] (by simp [CMdBroadCast.initialFakeTickData]) .nil 1 [.draw] (le_refl 1)
    rw [FakeFeed.run, CMdBroadCast.initialFakeTickData, List.drop_nil, Execution.run,
      FakeFeed.step_draw_nil] at hs
    cases hs
  · intro ok
    have sustains := FakeFeed.sustains_of_ok (List.mem_singleton_self _) sampleDay_rows
      (Nat.succ_ne_zero 61) ok
    -- from the second tick on there are sixty-one, and the next change of minute is back
    exact sustains.minutes (by decide +kernel)

end CtpTrade
