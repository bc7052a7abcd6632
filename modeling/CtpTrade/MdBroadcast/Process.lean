import CtpTrade.Library.Segments
import CtpTrade.MdBroadcast.Basic

/-!
# What one critical section of the tick pipeline does

Inversion lemmas for the two critical sections that touch a tick buffer. A
fault-free `tick_base_pushback` is the volume filter `pushFresh` on its own
instrument, and a fault-free `calculate_min_bar` leaves the buffer alone, cuts
off its leading minute, or dumps it. Later modules cite these lemmas and never
unfold the functions.
-/

namespace CtpTrade

open Segments

/-- The minute of a tick as the program reads it: `HHMM` for `HH:MM:SS`. -/
def minute (t : MtkData) : Nat := CMdBroadCast.convertTimeStr2int t.updateTime.chars / 100

/-- The volume filter: a tick enters the buffer if the buffer is empty or its
volume is above the volume of the last tick in the buffer. -/
def pushFresh (vec : List MtkData) (data : MtkData) : List MtkData :=
  match vec.getLast? with
  | none => vec ++ [data]
  | some back => if back.volume < data.volume then vec ++ [data] else vec

/-- The buffer `base` begins with a non-empty group `g` of ticks of minute `m`, and the
first tick behind the group is of a later minute. The group is then complete as far as
the feed is in order. -/
structure LeadingMinute (base g rest : List MtkData) (m : Nat) : Prop where
  split : base = g ++ rest
  group_ne : g ≠ []
  rest_ne : rest ≠ []
  same : ∀ t ∈ g, minute t = m
  later : ∀ t ∈ rest.head?, m < minute t

namespace LeadingMinute

variable {base g rest : List MtkData} {m : Nat}

theorem uniform (h : LeadingMinute base g rest m) : Uniform minute g :=
  fun a ha b hb => (h.same a ha).trans (h.same b hb).symm

theorem boundary (h : LeadingMinute base g rest m) :
    ∀ a ∈ g.getLast?, ∀ b ∈ rest.head?, minute a < minute b := by
  intro a ha b hb
  rw [h.same a (List.mem_of_mem_getLast? ha)]
  exact h.later b hb

theorem segments_eq (h : LeadingMinute base g rest m) :
    segments minute base = g :: segments minute rest := by
  rw [h.split]
  exact segments_cons h.group_ne h.uniform fun a ha b hb => (h.boundary a ha b hb).ne

end LeadingMinute

namespace CMdBroadCast

variable {md md' : CMdBroadCast} {ins : StdString} {push : Option MinutePush}

private theorem isMinuteTail_eq (a b : MtkData) :
    isMinuteTail a.updateTime.chars b.updateTime.chars =
      if minute a < minute b then .ok (some (minute a))
      else if minute a > minute b then .error .abortMinuteTail else .ok none := rfl

/-- What the search loop reports about a buffer of which it has passed `n` ticks: the
end of the leading minute and that minute, or that all ticks are of one minute. -/
def TailSpec (base : List MtkData) (n : Nat) : Option (Nat × Nat) → Prop
  | some (k, m) => ∃ g rest, k = n + g.length ∧ LeadingMinute base g rest m
  | none => Uniform minute base

private theorem tailSpec_cons {a b : MtkData} {base : List MtkData} {n : Nat}
    {found : Option (Nat × Nat)} (same : minute a = minute b)
    (tail : TailSpec (b :: base) (n + 1) found) : TailSpec (a :: b :: base) n found := by
  cases found with
  | some km =>
      obtain ⟨g, rest, hk, lead⟩ := tail
      have hm : minute b = km.2 := by
        obtain ⟨c, g', rfl⟩ := List.exists_cons_of_ne_nil lead.group_ne
        obtain ⟨rfl, -⟩ : b = c ∧ base = g' ++ rest := by simpa using lead.split
        exact lead.same b (by simp)
      refine ⟨a :: g, rest, ?_, ?_, by simp, lead.rest_ne, ?_, lead.later⟩
      · simp only [hk, List.length_cons]
        omega
      · simp [lead.split]
      · intro t ht
        obtain rfl | ht := List.mem_cons.mp ht
        · exact same.trans hm
        · exact lead.same t ht
  | none =>
      have all : ∀ t ∈ a :: b :: base, minute t = minute b := by
        intro t ht
        obtain rfl | ht := List.mem_cons.mp ht
        · exact same
        · exact tail t ht b (by simp)
      exact fun s hs t ht => (all s hs).trans (all t ht).symm

/-- The search loop stops at the end of the leading minute, or finds one minute. -/
theorem findTail_ok {base : List MtkData} {n : Nat} {found : Option (Nat × Nat)}
    (h : findTail n base = .ok found) : TailSpec base n found := by
  induction base generalizing n with
  | nil =>
      cases h
      simp [TailSpec, Uniform]
  | cons a base ih =>
      cases base with
      | nil =>
          cases h
          simp [TailSpec, Uniform]
      | cons b base =>
          simp only [findTail, isMinuteTail_eq] at h
          by_cases lt : minute a < minute b
          · simp only [lt, ↓reduceIte] at h
            cases h
            exact ⟨[a], b :: base, rfl, rfl, by simp, by simp, by simp, by simpa using lt⟩
          · by_cases gt : minute a > minute b
            · simp [lt, gt] at h
            · simp only [lt, gt, ↓reduceIte] at h
              exact tailSpec_cons (by omega) (ih h)

/-- The search only aborts where a minute decreases. -/
theorem findTail_of_sorted {base : List MtkData} (n : Nat)
    (h : base.Pairwise fun a b => minute a ≤ minute b) : ∃ found, findTail n base = .ok found := by
  induction base generalizing n with
  | nil => exact ⟨none, rfl⟩
  | cons a base ih =>
      cases base with
      | nil => exact ⟨none, rfl⟩
      | cons b base =>
          obtain ⟨hhead, hrest⟩ := List.pairwise_cons.mp h
          have le : minute a ≤ minute b := hhead b (by simp)
          simp only [findTail, isMinuteTail_eq]
          split_ifs with lt gt
          · exact ⟨_, rfl⟩
          · omega
          · exact ih (n + 1) hrest

theorem convertTick2min_ok {g : List MtkData} (h : g ≠ []) (minBar : CandleBar) :
    ∃ bar, convertTick2min g minBar = .ok bar := by
  simp only [convertTick2min, List.head?_eq_some_head h, List.getLast?_eq_some_getLast h]
  exact ⟨_, rfl⟩

/-- A minute bar carries the name of its first tick and the time it was given. -/
theorem convertTick2min_name {g : List MtkData} {minBar bar : CandleBar}
    (h : convertTick2min g minBar = .ok bar) :
    (∃ t ∈ g, bar.barName = t.instrumentID) ∧ bar.tradeTime = minBar.tradeTime := by
  simp only [convertTick2min] at h
  split at h
  · next firstData lastData hfirst hlast =>
      cases h
      exact ⟨⟨firstData, List.mem_of_mem_head? hfirst, by simp⟩, rfl⟩
  · cases h

/-- Everything a fault-free `calculate_min_bar(ins)` can do to the data module and what
it pushes. The three cases are those of the source: it leaves the buffer, it turns the
leading minute into a bar, or it clears a buffer that holds a single minute behind the
close. -/
inductive Outcome (md : CMdBroadCast) (ins : StdString) :
    CMdBroadCast → Option MinutePush → Prop where
  /-- The buffer is not looked at, or an open market's buffer holds one minute. -/
  | idle (h : (md.mtkOpen.get ins = true ∧ ((md.tickBase.get ins).length ≤ maxMinuteTicks / 2 ∨
        Uniform minute (md.tickBase.get ins))) ∨
      (md.mtkOpen.get ins = false ∧ md.tickBase.get ins = [])) :
      Outcome md ins md none
  /-- The leading minute becomes a bar and leaves the buffer. -/
  | emit (g rest : List MtkData) (m : Nat) (bar : CandleBar)
      (lead : LeadingMinute (md.tickBase.get ins) g rest m)
      (enough : md.mtkOpen.get ins = true → maxMinuteTicks / 2 < (md.tickBase.get ins).length)
      (hbar : convertTick2min g { tradeTime := m * 100 } = .ok bar) :
      Outcome md ins { md with tickBase := md.tickBase.set ins rest }
        (some ⟨bar.barName.chars, g, bar⟩)
  /-- After the close, a buffer that holds one minute is cleared. -/
  | dump (closed : md.mtkOpen.get ins = false) (hne : md.tickBase.get ins ≠ [])
      (uniform : Uniform minute (md.tickBase.get ins)) :
      Outcome md ins { md with tickBase := md.tickBase.set ins [] } none

/-- A fault-free `calculate_process` cuts off the leading minute of its buffer, or
finds a single minute there. -/
theorem calculateProcess_cases {isOpen : Bool}
    (h : md.calculateProcess ins isOpen = .ok (md', push)) :
    (∃ g rest m bar, LeadingMinute (md.tickBase.get ins) g rest m ∧
        convertTick2min g { tradeTime := m * 100 } = .ok bar ∧
        md' = { md with tickBase := md.tickBase.set ins rest } ∧
        push = some ⟨bar.barName.chars, g, bar⟩) ∨
      (md.tickBase.get ins ≠ [] ∧ Uniform minute (md.tickBase.get ins) ∧ push = none ∧
        md' = if isOpen then md else { md with tickBase := md.tickBase.set ins [] }) := by
  by_cases hne : md.tickBase.get ins = []
  · simp [calculateProcess, hne] at h
  simp only [calculateProcess, hne, ↓reduceIte] at h
  cases hfind : findTail 0 (md.tickBase.get ins) with
  | error e => simp [hfind] at h
  | ok found =>
      have spec := findTail_ok hfind
      cases found with
      | some km =>
          obtain ⟨k, m⟩ := km
          obtain ⟨g, rest, hk, lead⟩ := spec
          have hlen : k = g.length := by omega
          subst hlen
          have htake : (md.tickBase.get ins).take g.length = g := by simp [lead.split]
          have hdrop : (md.tickBase.get ins).drop g.length = rest := by simp [lead.split]
          obtain ⟨bar, hbar⟩ := convertTick2min_ok lead.group_ne { tradeTime := m * 100 }
          simp only [hfind, htake, hdrop, hbar, Except.ok.injEq, Prod.mk.injEq] at h
          obtain ⟨rfl, rfl⟩ := h
          exact .inl ⟨g, rest, m, bar, lead, hbar, rfl, rfl⟩
      | none =>
          simp only [hfind] at h
          cases isOpen with
          | true =>
              cases h
              exact .inr ⟨hne, spec, rfl, rfl⟩
          | false =>
              cases h
              exact .inr ⟨hne, spec, rfl, rfl⟩

private theorem calculateProcess_outcome {isOpen : Bool} (hopen : md.mtkOpen.get ins = isOpen)
    (enough : isOpen = true → maxMinuteTicks / 2 < (md.tickBase.get ins).length)
    (h : md.calculateProcess ins isOpen = .ok (md', push)) : Outcome md ins md' push := by
  obtain ⟨g, rest, m, bar, lead, hbar, rfl, rfl⟩ | ⟨hne, uniform, rfl, rfl⟩ :=
    calculateProcess_cases h
  · exact .emit g rest m bar lead (hopen ▸ enough) hbar
  · cases isOpen with
    | true => exact .idle (.inl ⟨hopen, .inr uniform⟩)
    | false => exact .dump hopen hne uniform

theorem calculateMinBar_outcome (h : md.calculateMinBar ins = .ok (md', push)) :
    Outcome md ins md' push := by
  simp only [calculateMinBar] at h
  split at h
  · cases h
  · split_ifs at h with hopen enough hne
    · exact calculateProcess_outcome rfl (fun _ => enough) h
    · cases h
      exact .idle (.inl ⟨hopen, .inl (by omega)⟩)
    · exact calculateProcess_outcome rfl (fun ho => absurd ho hopen) h
    · cases h
      exact .idle (.inr ⟨by simpa using hopen, by simpa using hne⟩)

/-- With a mutex the critical section can only fault in the search loop. -/
theorem calculateMinBar_ok_of_find (hmutex : md.tickMutex.find? ins = some ())
    (find : (md.mtkOpen.get ins = true → maxMinuteTicks / 2 < (md.tickBase.get ins).length) →
      ∃ found, findTail 0 (md.tickBase.get ins) = .ok found) :
    ∃ r, md.calculateMinBar ins = .ok r := by
  have process (isOpen : Bool) (hne : md.tickBase.get ins ≠ [])
      (enough : md.mtkOpen.get ins = true → maxMinuteTicks / 2 < (md.tickBase.get ins).length) :
      ∃ r, md.calculateProcess ins isOpen = .ok r := by
    obtain ⟨found, hfind⟩ := find enough
    have spec := findTail_ok hfind
    simp only [calculateProcess, hne, ↓reduceIte, hfind]
    cases found with
    | some km =>
        obtain ⟨k, m⟩ := km
        obtain ⟨g, rest, hk, lead⟩ := spec
        have htake : (md.tickBase.get ins).take k = g := by simp [hk, lead.split]
        obtain ⟨bar, hbar⟩ := convertTick2min_ok lead.group_ne { tradeTime := m * 100 }
        simp only [htake, hbar]
        exact ⟨_, rfl⟩
    | none => cases isOpen <;> exact ⟨_, rfl⟩
  simp only [calculateMinBar, hmutex]
  split_ifs with hopen enough hne
  · exact process _ (by rintro hnil; simp [hnil] at enough) fun _ => enough
  · exact ⟨_, rfl⟩
  · exact process _ hne fun ho => absurd ho hopen
  · exact ⟨_, rfl⟩

/-- With a mutex and a buffer in minute order, the critical section cannot fault. -/
theorem calculateMinBar_ok (hmutex : md.tickMutex.find? ins = some ())
    (sorted : (md.tickBase.get ins).Pairwise fun a b => minute a ≤ minute b) :
    ∃ r, md.calculateMinBar ins = .ok r :=
  calculateMinBar_ok_of_find hmutex fun _ => findTail_of_sorted 0 sorted

/-- A fault-free push filters the tick into its own buffer and sets the flag. -/
theorem tickBasePushback_ok {tradeTime : Bool} {data : MtkData}
    (h : md.tickBasePushback tradeTime ins data = .ok md') :
    md' = { md with
      tickBase := md.tickBase.set ins (pushFresh (md.tickBase.get ins) data)
      mtkOpen := md.mtkOpen.set ins (checkMtkTime tradeTime data.updateTime.chars) } := by
  simp only [tickBasePushback] at h
  split at h
  · cases h
  · cases hback : (md.tickBase.get ins).getLast? with
    | none =>
        simp only [hback] at h
        cases h
        simp [pushFresh, hback]
    | some back =>
        simp only [hback] at h
        by_cases lt : back.volume < data.volume
        · simp only [lt, ↓reduceIte] at h
          cases h
          simp [pushFresh, hback, lt]
        · by_cases gt : back.volume > data.volume
          · simp [lt, gt] at h
          · simp only [lt, gt, ↓reduceIte] at h
            cases h
            simp [pushFresh, hback, lt]

/-- With a mutex and no volume decrease at the back, a push cannot fault. -/
theorem tickBasePushback_no_fault (tradeTime : Bool) {data : MtkData}
    (hmutex : md.tickMutex.find? ins = some ())
    (le : ∀ back ∈ (md.tickBase.get ins).getLast?, back.volume ≤ data.volume) :
    ∃ md', md.tickBasePushback tradeTime ins data = .ok md' := by
  simp only [tickBasePushback, hmutex]
  cases hback : (md.tickBase.get ins).getLast? with
  | none => exact ⟨_, rfl⟩
  | some back =>
      have hle := le back hback
      have hgt : ¬ back.volume > data.volume := by
        simpa [gt_iff_lt, Int32.not_lt] using hle
      by_cases lt : back.volume < data.volume
      · simp only [lt, ↓reduceIte]
        exact ⟨_, rfl⟩
      · simp only [lt, hgt, ↓reduceIte]
        exact ⟨_, rfl⟩

end CMdBroadCast

end CtpTrade
