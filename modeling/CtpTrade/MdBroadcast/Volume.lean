import CtpTrade.MdBroadcast.Conservation
import Mathlib.Algebra.BigOperators.Group.List.Basic

/-!
# What the volumes of the minute bars add up to

The feed's volume is a running total, and a bar stores the difference between
the last and the first tick of its own group. The sum over all bars of an
instrument telescopes, except for what is traded from the last tick of one group
to the first tick of the next: that amount, at least one lot for each boundary
because of the volume filter, is in neither bar.
-/

namespace CtpTrade

/-- The volume traded between the first and the last tick. -/
def spannedVolume (g : List MtkData) : Int :=
  match g.head?, g.getLast? with
  | some a, some b => b.volume.toInt - a.volume.toInt
  | _, _ => 0

/-- The volume traded across the boundaries between consecutive groups. -/
def crossingVolume : List (List MtkData) → Int
  | g :: h :: gs =>
    (match g.getLast?, h.head? with
      | some a, some b => b.volume.toInt - a.volume.toInt
      | _, _ => 0) + crossingVolume (h :: gs)
  | _ => 0

/-- Spans and crossings add up to the whole. -/
theorem spannedVolume_sum {gs : List (List MtkData)} (hne : ∀ g ∈ gs, g ≠ []) :
    (gs.map spannedVolume).sum + crossingVolume gs = spannedVolume gs.flatten := by
  induction gs with
  | nil => rfl
  | cons g gs ih =>
      have hg : g ≠ [] := hne g (by simp)
      have rest := ih fun h hh => hne h (by simp [hh])
      cases gs with
      | nil => simp [crossingVolume]
      | cons h gs =>
          have hh : h ≠ [] := hne h (by simp)
          have hhead : (h ++ gs.flatten).head? = some (h.head hh) := by
            simp [List.head?_append, List.head?_eq_some_head hh]
          have hlast : (g ++ (h ++ gs.flatten)).getLast? = (h ++ gs.flatten).getLast? := by
            simp [List.getLast?_append, List.getLast?_eq_some_getLast (show h ++ gs.flatten ≠ [] by
              simp [hh])]
          have hlast' := List.getLast?_eq_some_getLast (show h ++ gs.flatten ≠ [] by simp [hh])
          simp only [List.flatten_cons] at rest ⊢
          simp only [spannedVolume, hhead, hlast'] at rest
          simp only [List.map_cons, List.sum_cons, crossingVolume, spannedVolume, hlast, hlast',
            List.head?_append, List.head?_eq_some_head hg, List.getLast?_eq_some_getLast hg,
            List.head?_eq_some_head hh, Option.some_or] at rest ⊢
          omega

/-- Accepted ticks have strictly increasing volumes, whatever the feed delivers. -/
theorem accepted_increasing (ticks : List MtkData) :
    (accepted ticks).Pairwise fun a b => a.volume < b.volume := by
  induction ticks using List.reverseRecOn with
  | nil => exact .nil
  | append_singleton ticks t ih =>
      rw [accepted_concat]
      simp only [pushFresh]
      split
      · next hnil =>
          rw [List.getLast?_eq_none_iff.mp hnil]
          simp
      · next back hback =>
          split_ifs with lt
          · refine List.pairwise_append.mpr ⟨ih, by simp, ?_⟩
            intro a ha b hb
            obtain rfl := List.mem_singleton.mp hb
            obtain ⟨front, hfront⟩ := List.getLast?_eq_some_iff.mp hback
            rw [hfront] at ih ha
            obtain ha | ha := List.mem_append.mp ha
            · have hab := (List.pairwise_append.mp ih).2.2 a ha back (by simp)
              rw [Int32.lt_iff_toInt_lt] at hab lt ⊢
              omega
            · obtain rfl := List.mem_singleton.mp ha
              exact lt
          · exact ih

/-- Each boundary between groups of increasing volume loses at least one lot. -/
theorem crossingVolume_pos {gs : List (List MtkData)} (hne : ∀ g ∈ gs, g ≠ [])
    (increasing : gs.flatten.Pairwise fun a b => a.volume < b.volume) :
    (gs.length : Int) - 1 ≤ crossingVolume gs := by
  induction gs with
  | nil => simp [crossingVolume]
  | cons g gs ih =>
      have hg : g ≠ [] := hne g (by simp)
      have rest := ih (fun h hh => hne h (by simp [hh]))
        (increasing.sublist (by simp))
      cases gs with
      | nil => simp [crossingVolume]
      | cons h gs =>
          have hh : h ≠ [] := hne h (by simp)
          have lt : (g.getLast hg).volume < (h.head hh).volume :=
            (List.pairwise_append.mp increasing).2.2 _ (List.getLast_mem hg) _
              (List.mem_append_left _ (List.head_mem hh))
          rw [Int32.lt_iff_toInt_lt] at lt
          simp only [crossingVolume, List.getLast?_eq_some_getLast hg,
            List.head?_eq_some_head hh, List.length_cons] at rest ⊢
          push_cast at rest ⊢
          omega

/-- A running total that does not decrease is stored without wrapping. -/
theorem volumeSize_eq {g : List MtkData} {minBar bar : CandleBar}
    (h : CMdBroadCast.convertTick2min g minBar = .ok bar) (total : ∀ t ∈ g, 0 ≤ t.volume)
    (sorted : g.Pairwise fun a b => a.volume ≤ b.volume) :
    (bar.volumeSize.toNat : Int) = spannedVolume g := by
  simp only [CMdBroadCast.convertTick2min] at h
  split at h
  · next first last hfirst hlast =>
      cases h
      have le : first.volume ≤ last.volume := by
        obtain ⟨tail, rfl⟩ := List.head?_eq_some_iff.mp hfirst
        have hmem := List.mem_of_mem_getLast? hlast
        obtain rfl | hmem := List.mem_cons.mp hmem
        · exact Int32.le_refl _
        · exact (List.pairwise_cons.mp sorted).1 last hmem
      have diff := Int32.toInt_sub_of_le _ _ (total first (List.mem_of_mem_head? hfirst)) le
      have low : 0 ≤ last.volume.toInt - first.volume.toInt := by
        rw [Int32.le_iff_toInt_le] at le
        omega
      have high : last.volume.toInt - first.volume.toInt < 2 ^ 64 := by
        have := last.volume.toInt_lt
        have := first.volume.le_toInt
        omega
      simp only [spannedVolume, hfirst, hlast, diff]
      simp only [UInt64.ofInt, UInt64.toNat_ofNat']
      omega
  · cases h

/-- The volumes of the emitted bars add up to the volume traded from the first
tick of the first group to the last tick of the last group, less what is traded
across the group boundaries. Together these trades are at least as many lots as there
are boundaries, and no bar has them. -/
theorem minute_volume_sum {insList : List StdString} {acts : List PipelineAction} {p : Pipeline}
    (h : Pipeline.run false insList acts = .ok p) {ins : StdString}
    (ordered : Ordered (ticksOf ins p.appended))
    (total : ∀ t ∈ ticksOf ins p.appended, 0 ≤ t.volume) :
    ((p.pushedOf ins).map fun q => (q.bar.volumeSize.toNat : Int)).sum =
        spannedVolume (p.groupsOf ins).flatten - crossingVolume (p.groupsOf ins) ∧
      ((p.groupsOf ins).length : Int) - 1 ≤ crossingVolume (p.groupsOf ins) := by
  have conserved := Pipeline.conserved_run ins h (alwaysOpen_false _)
  have stream : (p.groupsOf ins).flatten ++ p.buffer ins = accepted (ticksOf ins p.distributed) :=
    conserved.stream
  have sub : (p.groupsOf ins).flatten.Sublist (ticksOf ins p.appended) := by
    refine (List.sublist_append_left _ (p.buffer ins)).trans ?_
    rw [stream]
    exact (accepted_sublist _).trans (Pipeline.distributed_sublist h ins)
  have hne : ∀ g ∈ p.groupsOf ins, g ≠ [] := conserved.settled.group_ne_nil
  have spans : (p.pushedOf ins).map (fun q => (q.bar.volumeSize.toNat : Int)) =
      (p.groupsOf ins).map spannedVolume := by
    simp only [Pipeline.groupsOf, List.map_map]
    apply List.map_congr_left
    intro q hq
    obtain ⟨-, m, -, hbar⟩ := conserved.bars q hq
    have part : q.minTicks.Sublist (ticksOf ins p.appended) :=
      (List.sublist_flatten_of_mem (List.mem_map_of_mem hq)).trans sub
    exact volumeSize_eq hbar (fun t ht => total t (part.subset ht))
      ((ordered.sublist part).imp And.left)
  constructor
  · rw [spans, ← spannedVolume_sum hne]
    omega
  · apply crossingVolume_pos hne
    have increasing := accepted_increasing (ticksOf ins p.distributed)
    rw [← stream] at increasing
    exact (List.pairwise_append.mp increasing).1

theorem minute_volume_sum_sample :
    ∃ p, Pipeline.run false [sampleName.chars] sampleActs = .ok p ∧
      ((p.pushedOf sampleName.chars).map fun q => (q.bar.volumeSize.toNat : Int)).sum =
        spannedVolume (p.groupsOf sampleName.chars).flatten -
          crossingVolume (p.groupsOf sampleName.chars) := by
  have reached : ∃ p, Pipeline.run false [sampleName.chars] sampleActs = .ok p ∧
      Ordered (ticksOf sampleName.chars p.appended) ∧
      ∀ t ∈ ticksOf sampleName.chars p.appended, 0 ≤ t.volume :=
    Execution.exists_of_check (by decide +kernel)
  obtain ⟨p, hrun, hordered, htotal⟩ := reached
  exact ⟨p, hrun, (minute_volume_sum hrun hordered htotal).1⟩

/-- With two bars the volume traded between the groups is in neither of them. -/
theorem minute_volume_not_conserved :
    ¬ ∀ (insList : List StdString) (acts : List PipelineAction) (p : Pipeline) (ins : StdString),
      Pipeline.run false insList acts = .ok p → Ordered (ticksOf ins p.appended) →
      (∀ t ∈ ticksOf ins p.appended, 0 ≤ t.volume) → p.pushedOf ins ≠ [] →
      ((p.pushedOf ins).map fun q => (q.bar.volumeSize.toNat : Int)).sum =
        spannedVolume (p.groupsOf ins).flatten := by
  intro claim
  have reached : ∃ p, Pipeline.run false [sampleName.chars] sampleActs = .ok p ∧
      Ordered (ticksOf sampleName.chars p.appended) ∧
      (∀ t ∈ ticksOf sampleName.chars p.appended, 0 ≤ t.volume) ∧
      p.pushedOf sampleName.chars ≠ [] ∧
      ((p.pushedOf sampleName.chars).map fun q => (q.bar.volumeSize.toNat : Int)).sum ≠
        spannedVolume (p.groupsOf sampleName.chars).flatten :=
    Execution.exists_of_check (by decide +kernel)
  obtain ⟨p, hrun, hordered, htotal, hne, hdiff⟩ := reached
  exact hdiff (claim _ _ p _ hrun hordered htotal hne)

end CtpTrade
