import CtpTrade.MdBroadcast.Conservation

/-!
# The exchange clock

The exchange prints a time of day as `HH:MM:SS`, and the program drops the
colons and reads the digits as one decimal number. The results here say that
this number is `HHMMSS`, so that a feed in clock order is `Ordered` in the sense
of the program's own comparisons of minutes.
-/

namespace CtpTrade

/-- A time of day. Out of range values cannot be built. -/
structure ClockTime where
  hour : Fin 24
  minute : Fin 60
  second : Fin 60
  deriving DecidableEq

namespace ClockTime

def secondOfDay (c : ClockTime) : Nat := c.hour * 3600 + c.minute * 60 + c.second

/-- The digits `HHMMSS` as one number. -/
def number (c : ClockTime) : Nat := c.hour * 10000 + c.minute * 100 + c.second

private def twoDigits (n : Nat) : StdString := [Nat.digitChar (n / 10), Nat.digitChar (n % 10)]

/-- `HH:MM:SS`. -/
def print (c : ClockTime) : StdString :=
  twoDigits c.hour ++ ':' :: twoDigits c.minute ++ ':' :: twoDigits c.second

/-- The numbers are in the order of the clock. -/
theorem number_le_iff {c d : ClockTime} :
    c.number ≤ d.number ↔ c.secondOfDay ≤ d.secondOfDay := by
  obtain ⟨⟨ch, _⟩, ⟨cm, _⟩, ⟨cs, _⟩⟩ := c
  obtain ⟨⟨dh, _⟩, ⟨dm, _⟩, ⟨ds, _⟩⟩ := d
  simp only [secondOfDay, number]
  constructor
  · grind
  · grind

end ClockTime

/-- The program reads `HH:MM:SS` as `HHMMSS`. -/
theorem convertTimeStr2int_print (c : ClockTime) :
    CMdBroadCast.convertTimeStr2int c.print = c.number := by
  obtain ⟨⟨h, hh⟩, ⟨m, hm⟩, ⟨s, hs⟩⟩ := c
  have colon {d : Nat} (hd : d < 10) : d.digitChar ≠ ':' := by
    intro eq
    have := Nat.isDigit_digitChar (n := d)
    rw [eq] at this
    simp [hd] at this
  have digits : (ClockTime.print ⟨⟨h, hh⟩, ⟨m, hm⟩, ⟨s, hs⟩⟩).filter (· ≠ ':') =
      [h / 10, h % 10, m / 10, m % 10, s / 10, s % 10].map Nat.digitChar := by
    simp [ClockTime.print, ClockTime.twoDigits, colon, show h / 10 < 10 by omega,
      show m / 10 < 10 by omega, show s / 10 < 10 by omega]
  have small : ∀ d ∈ [h / 10, h % 10, m / 10, m % 10, s / 10, s % 10], d < 10 := by
    simp only [List.mem_cons, List.not_mem_nil, or_false]
    omega
  rw [CMdBroadCast.convertTimeStr2int, digits, atoi_of_digits (isDigit_map small),
    digitsValue_map small]
  have value : [h / 10, h % 10, m / 10, m % 10, s / 10, s % 10].foldl
      (fun acc d => 10 * acc + d) 0 = h * 10000 + m * 100 + s := by
    simp only [List.foldl_cons, List.foldl_nil]
    grind
  have bounded : ((h * 10000 + m * 100 + s : Nat) : Int) ≤ intMax := by
    simp only [intMax]
    grind
  rw [value, Int.min_eq_right bounded, sizeOfInt_natCast]
  rfl

/-- The `UpdateTime` field of the tick shows the time of day `c`, in the eight
characters that an exchange sends. -/
def ShownAt (t : MtkData) (c : ClockTime) : Prop := t.updateTime.chars = c.print

theorem ShownAt.number {t : MtkData} {c : ClockTime} (h : ShownAt t c) :
    CMdBroadCast.convertTimeStr2int t.updateTime.chars = c.number := by
  rw [h, convertTimeStr2int_print]

theorem ShownAt.minute {t : MtkData} {c : ClockTime} (h : ShownAt t c) :
    minute t = c.hour * 100 + c.minute := by
  rw [CtpTrade.minute, h.number, ClockTime.number]
  grind

/-- The ticks of one instrument as an exchange sends them: valid times of day that never
go back, and a running volume that never decreases. Nothing in the program checks this,
so it is an assumption on the feed. -/
structure WellOrdered (ticks : List MtkData) : Prop where
  timed : ∀ t ∈ ticks, ∃ c, ShownAt t c
  clock : ticks.Pairwise fun a b =>
    ∀ c d, ShownAt a c → ShownAt b d → c.secondOfDay ≤ d.secondOfDay
  volume : ticks.Pairwise fun a b => a.volume ≤ b.volume

namespace WellOrdered

variable {ticks : List MtkData}

theorem sublist {l : List MtkData} (h : WellOrdered ticks) (sub : l.Sublist ticks) :
    WellOrdered l where
  timed t ht := h.timed t (sub.subset ht)
  clock := h.clock.sublist sub
  volume := h.volume.sublist sub

/-- The numbers the program compares do not decrease either. -/
theorem number_le (h : WellOrdered ticks) : ticks.Pairwise fun a b =>
    CMdBroadCast.convertTimeStr2int a.updateTime.chars ≤
      CMdBroadCast.convertTimeStr2int b.updateTime.chars := by
  apply h.clock.imp_of_mem
  intro a b ha hb le
  obtain ⟨c, hc⟩ := h.timed a ha
  obtain ⟨d, hd⟩ := h.timed b hb
  rw [hc.number, hd.number]
  exact ClockTime.number_le_iff.mpr (le c d hc hd)

theorem of_number_le (timed : ∀ t ∈ ticks, ∃ c, ShownAt t c)
    (number : ticks.Pairwise fun a b =>
      CMdBroadCast.convertTimeStr2int a.updateTime.chars ≤
        CMdBroadCast.convertTimeStr2int b.updateTime.chars)
    (volume : ticks.Pairwise fun a b => a.volume ≤ b.volume) : WellOrdered ticks := by
  refine ⟨timed, number.imp ?_, volume⟩
  intro a b le c d hc hd
  rw [hc.number, hd.number] at le
  exact ClockTime.number_le_iff.mp le

theorem ordered (h : WellOrdered ticks) : Ordered ticks :=
  h.volume.imp₂ (fun _ _ volume number => ⟨volume, Nat.div_le_div_right number⟩) h.number_le

end WellOrdered

/-- A tick of the sample instrument. -/
def sampleQuote (volume : Int32) (updateTime : TimeType) : MtkData where
  instrumentID := sampleName
  volume := volume
  updateTime := updateTime

end CtpTrade
