import CtpTrade.MdBroadcast.FakeFeed
import Mathlib.Algebra.Order.Field.Basic
import Mathlib.Tactic.Linarith
import Mathlib.Tactic.NormNum

/-!
# Reading back a recorded tick

A recorded tick is printed as a row of sixteen columns, of which eight hold its
values. Reading the row gives back the names, the date, the time and the volumes. The
prices go through `atoi`, which stops at the decimal point, so that they come back
exactly if they are whole numbers in the range of `int`.
-/

namespace CtpTrade

/-- A number as it is written in a column: sign, whole part and the digits behind the
point. -/
structure DecimalNumber where
  negative : Bool := false
  whole : Nat
  fraction : List (Fin 10) := []

namespace DecimalNumber

/-- The value of the digits behind the point. -/
def fractionValue : List (Fin 10) → ℚ
  | [] => 0
  | d :: rest => (d + fractionValue rest) / 10

def magnitude (p : DecimalNumber) : ℚ := p.whole + fractionValue p.fraction

def value (p : DecimalNumber) : ℚ := if p.negative then -p.magnitude else p.magnitude

/-- The point and the digits behind it, if there are any. -/
def fractionText : List (Fin 10) → StdString
  | [] => []
  | digits => '.' :: digits.map fun d => d.val.digitChar

def unsignedText (p : DecimalNumber) : StdString := numberText p.whole ++ fractionText p.fraction

def text (p : DecimalNumber) : StdString :=
  if p.negative then '-' :: p.unsignedText else p.unsignedText

/-- The decimal number is a whole one in the range of `int`. Exactly these prices
survive the `atoi` by which the code reads a price column. -/
def IsInt (p : DecimalNumber) : Prop := ∃ n : Int, intMin ≤ n ∧ n ≤ intMax ∧ p.value = n

theorem fractionValue_bounds (digits : List (Fin 10)) :
    0 ≤ fractionValue digits ∧ fractionValue digits < 1 := by
  induction digits with
  | nil => exact ⟨le_refl 0, zero_lt_one⟩
  | cons d rest ih =>
      have low : (0 : ℚ) ≤ (d : Nat) := Nat.cast_nonneg _
      have high : ((d : Nat) : ℚ) ≤ 9 := by exact_mod_cast Nat.le_of_lt_succ d.isLt
      rw [fractionValue]
      constructor
      · apply div_nonneg
        · linarith
        · norm_num
      · rw [div_lt_one (by norm_num)]
        linarith

/-- Behind the whole part stands the point or nothing. -/
theorem fractionText_stops (digits : List (Fin 10)) :
    ∀ c ∈ (fractionText digits).head?, c.isDigit = false := by
  intro c hc
  cases digits with
  | nil => cases hc
  | cons d rest =>
      obtain rfl : '.' = c := Option.some.inj hc
      rfl

/-- `atoi` reads the digits in front of the point. -/
theorem atoi_text (p : DecimalNumber) :
    atoi p.text = if p.negative then max intMin (-(p.whole : Int)) else min intMax p.whole := by
  rw [text]
  split_ifs with negative
  · rw [atoi_minus, unsignedText, digitsValue_numberText_append _ (fractionText_stops _)]
  · exact atoi_numberText_append _ (fractionText_stops _)

/-- An integer among the values leaves nothing behind the point. -/
theorem fractionValue_eq_zero {p : DecimalNumber} {n : Int} (h : p.magnitude = n) :
    fractionValue p.fraction = 0 := by
  obtain ⟨low, high⟩ := fractionValue_bounds p.fraction
  have rest : fractionValue p.fraction = ((n - p.whole : Int) : ℚ) := by
    rw [magnitude] at h
    push_cast
    linarith
  rw [rest] at low high ⊢
  have low : (0 : Int) ≤ n - p.whole := by exact_mod_cast low
  have high : n - p.whole < (1 : Int) := by exact_mod_cast high
  have zero : n - p.whole = (0 : Int) := by omega
  exact_mod_cast zero

/-- The price comes back exactly if it is an `int`. -/
theorem atoi_text_eq_value_iff (p : DecimalNumber) :
    ((atoi p.text : Int) : ℚ) = p.value ↔ p.IsInt := by
  have low : intMin ≤ 0 := by decide
  have high : 0 ≤ intMax := by decide
  rw [atoi_text, value]
  constructor
  · intro same
    refine ⟨_, ?_, ?_, same.symm⟩
    · split_ifs <;> omega
    · split_ifs <;> omega
  · rintro ⟨n, above, below, same⟩
    rw [value] at same
    cases negative : p.negative with
    | false =>
        simp only [negative, Bool.false_eq_true, ↓reduceIte] at same ⊢
        have none := fractionValue_eq_zero same
        have whole : (n : ℚ) = (p.whole : Int) := by
          rw [← same, magnitude, none, add_zero]
          rfl
        have whole : n = p.whole := by exact_mod_cast whole
        rw [same, min_eq_right (by omega), whole]
    | true =>
        simp only [negative, ↓reduceIte] at same ⊢
        have opposite : p.magnitude = ((-n : Int) : ℚ) := by
          push_cast
          linarith
        have none := fractionValue_eq_zero opposite
        have whole : (n : ℚ) = ((-p.whole : Int) : ℚ) := by
          rw [← same, magnitude, none, add_zero]
          push_cast
          rfl
        have whole : n = -p.whole := by exact_mod_cast whole
        rw [same, max_eq_right (by omega), whole]

end DecimalNumber

section Columns

variable {piece : StdString}

theorem columns_of_free (free : ',' ∉ piece) : columns piece = [piece] := by
  induction piece with
  | nil => rfl
  | cons c piece ih =>
      rw [List.mem_cons, not_or] at free
      obtain ⟨other, free⟩ := free
      rw [columns, if_neg (Ne.symm other), ih free]

theorem columns_append (free : ',' ∉ piece) (rest : StdString) :
    columns (piece ++ ',' :: rest) = piece :: columns rest := by
  induction piece with
  | nil => rfl
  | cons c piece ih =>
      rw [List.mem_cons, not_or] at free
      obtain ⟨other, free⟩ := free
      rw [List.cons_append, columns, if_neg (Ne.symm other), ih free]

/-- Splitting at the commas undoes joining with commas. -/
theorem columns_intercalate {pieces : List StdString} (some : pieces ≠ [])
    (free : ∀ piece ∈ pieces, ',' ∉ piece) : columns ([','].intercalate pieces) = pieces := by
  induction pieces with
  | nil => exact absurd rfl some
  | cons piece pieces ih =>
      obtain ⟨first, free⟩ := List.forall_mem_cons.mp free
      cases pieces with
      | nil =>
          rw [List.intercalate_singleton]
          exact columns_of_free first
      | cons next pieces =>
          rw [List.intercalate_cons_cons, List.append_assoc, List.singleton_append,
            columns_append first, ih (List.cons_ne_nil _ _) free]

end Columns

/-- The values of a recorded tick, and the text of the columns that the feed does not
read. Texts with a comma in them cannot be built. -/
structure RecordedTick where
  instrument : StdString
  year : Fin 10000
  month : Fin 13
  day : Fin 32
  hour : Fin 24
  minute : Fin 60
  second : Fin 60
  millisecond : Fin 1000
  lastPrice : DecimalNumber
  bidPrice1 : DecimalNumber
  askPrice1 : DecimalNumber
  /-- The increment of the volume. -/
  volume : Int32
  bidVolume1 : Int32
  askVolume1 : Int32
  others : Nat → StdString
  instrument_fits : instrument.length ≤ 30
  instrument_free : ',' ∉ instrument
  others_free : ∀ column, ',' ∉ others column

namespace RecordedTick

/-- `YYYY-MM-DD`. -/
def dateText (t : RecordedTick) : StdString :=
  paddedText 4 t.year ++ '-' :: paddedText 2 t.month ++ '-' :: paddedText 2 t.day

/-- `HH:MM:SS`. -/
def timeText (t : RecordedTick) : StdString :=
  paddedText 2 t.hour ++ ':' :: paddedText 2 t.minute ++ ':' :: paddedText 2 t.second

/-- `YYYY-MM-DD HH:MM:SS.mmm`. -/
def timestamp (t : RecordedTick) : StdString :=
  t.dateText ++ ' ' :: (t.timeText ++ '.' :: paddedText 3 t.millisecond)

/-- `YYYYMMDD`. -/
def dayText (t : RecordedTick) : StdString :=
  paddedText 4 t.year ++ paddedText 2 t.month ++ paddedText 2 t.day

/-- The sixteen columns. -/
def pieces (t : RecordedTick) : List StdString :=
  [t.others 0, t.instrument, t.timestamp, t.lastPrice.text, t.others 4, t.others 5, t.others 6,
    intText t.volume.toInt, t.others 8, t.others 9, t.others 10, t.others 11, t.bidPrice1.text,
    t.askPrice1.text, intText t.bidVolume1.toInt, intText t.askVolume1.toInt]

def row (t : RecordedTick) : StdString := [','].intercalate t.pieces

/-- The tick has the values of the recorded one in all fields that the code fills, and
as its volume the running total behind it. -/
structure Filled (t : RecordedTick) (totalVolum : Int) (tick : MtkData) : Prop where
  instrumentID : tick.instrumentID.chars = t.instrument
  tradingDay : tick.tradingDay.chars = t.dayText
  actionDay : tick.actionDay.chars = t.dayText
  updateTime : tick.updateTime.chars = t.timeText
  lastPrice : tick.lastPrice = t.lastPrice.value
  bidPrice1 : tick.bidPrice1 = t.bidPrice1.value
  askPrice1 : tick.askPrice1 = t.askPrice1.value
  bidVolume1 : tick.bidVolume1 = t.bidVolume1
  askVolume1 : tick.askVolume1 = t.askVolume1
  volume : tick.volume.toInt = totalVolum + t.volume.toInt

/-- The round trip of one recorded tick: the call does not fail, adds the increment to
the running total and fills in the recorded values. -/
def ReadsBack (t : RecordedTick) (totalVolum : Int)
    (result : Except FakeFault (Nat × Int × MtkData)) : Prop :=
  ∃ dataIndex tick, result = .ok (dataIndex, totalVolum + t.volume.toInt, tick) ∧
    t.Filled totalVolum tick

/-- The total behind the tick stays in the range of `int`, so that the addition in the
source does not overflow. -/
def KeepsTotal (t : RecordedTick) (totalVolum : Int) : Prop :=
  intMin ≤ totalVolum + t.volume.toInt ∧ totalVolum + t.volume.toInt ≤ intMax

instance (t : RecordedTick) (totalVolum : Int) : Decidable (t.KeepsTotal totalVolum) :=
  inferInstanceAs (Decidable (_ ∧ _))

section Texts

variable {c : Char} (t : RecordedTick)

theorem not_mem_dateText (digit : c.isDigit = false) (dash : c ≠ '-') : c ∉ t.dateText := by
  simp [dateText, not_mem_paddedText digit, dash]

theorem not_mem_timeText (digit : c.isDigit = false) (colon : c ≠ ':') : c ∉ t.timeText := by
  simp [timeText, not_mem_paddedText digit, colon]

theorem not_mem_numberText (digit : c.isDigit = false) (n : Nat) : c ∉ numberText n :=
  not_mem_paddedText digit _ n

theorem not_mem_intText (digit : c.isDigit = false) (dash : c ≠ '-') (x : Int) :
    c ∉ intText x := by
  rw [intText]
  split_ifs
  · simp [dash, not_mem_numberText digit]
  · exact not_mem_numberText digit _

theorem not_mem_fractionText (digit : c.isDigit = false) (point : c ≠ '.')
    (digits : List (Fin 10)) : c ∉ DecimalNumber.fractionText digits := by
  cases digits with
  | nil => exact List.not_mem_nil
  | cons d rest =>
      have printed : c ∉ (d :: rest).map fun d => d.val.digitChar := by
        intro mem
        obtain ⟨e, -, rfl⟩ := List.mem_map.mp mem
        rw [Nat.isDigit_digitChar, decide_eq_false_iff_not] at digit
        exact digit e.isLt
      rw [DecimalNumber.fractionText, List.mem_cons, not_or]
      · exact ⟨point, printed⟩
      · intro empty
        cases empty

theorem not_mem_text (digit : c.isDigit = false) (dash : c ≠ '-') (point : c ≠ '.')
    (p : DecimalNumber) : c ∉ p.text := by
  have unsigned : c ∉ p.unsignedText := by
    rw [DecimalNumber.unsignedText, List.mem_append, not_or]
    exact ⟨not_mem_numberText digit _, not_mem_fractionText digit point _⟩
  rw [DecimalNumber.text]
  split_ifs
  · rw [List.mem_cons, not_or]
    exact ⟨dash, unsigned⟩
  · exact unsigned

theorem not_mem_timestamp : ',' ∉ t.timestamp := by
  simp [timestamp, t.not_mem_dateText (c := ',') rfl (by decide),
    t.not_mem_timeText (c := ',') rfl (by decide), not_mem_paddedText (c := ',') rfl]

theorem columns_row : columns t.row = t.pieces := by
  apply columns_intercalate (List.cons_ne_nil _ _)
  have price (p : DecimalNumber) : ',' ∉ p.text := not_mem_text rfl (by decide) (by decide) p
  have volume (x : Int) : ',' ∉ intText x := not_mem_intText rfl (by decide) x
  simp only [List.forall_mem_cons, t.others_free, t.instrument_free, t.not_mem_timestamp,
    price, volume, not_false_eq_true, List.not_mem_nil, IsEmpty.forall_iff, implies_true, and_self]

end Texts

section Reads

variable (t : RecordedTick)

theorem tradeDay_timestamp :
    (beforeFirst ' ' t.timestamp).filter (· ≠ '-') = t.dayText := by
  have blank : ' ' ∉ t.dateText := t.not_mem_dateText rfl (by decide)
  have digits (width n : Nat) : (paddedText width n).filter (· ≠ '-') = paddedText width n := by
    rw [List.filter_eq_self]
    intro c hc
    exact decide_eq_true (ne_of_mem_of_not_mem hc (not_mem_paddedText rfl width n))
  rw [timestamp, beforeFirst_append blank, dateText, dayText]
  simp only [List.filter_append, List.filter_cons, digits, ne_eq, not_true_eq_false,
    decide_false, Bool.false_eq_true, ↓reduceIte, List.append_assoc]

theorem updateTime_timestamp : beforeFirst '.' (behindFirst ' ' t.timestamp) = t.timeText := by
  have blank : ' ' ∉ t.dateText := t.not_mem_dateText rfl (by decide)
  have point : '.' ∉ t.timeText := t.not_mem_timeText rfl (by decide)
  rw [timestamp, behindFirst_append blank, beforeFirst_append point]

theorem atoi_intText_toInt (x : Int32) : atoi (intText x.toInt) = x.toInt := by
  have low := x.le_toInt
  have high := x.toInt_lt
  apply atoi_intText
  · simp only [intMin]
    omega
  · simp only [intMax]
    omega

/-- The tick that the row is turned into. -/
def readTick (totalVolum : Int) : MtkData where
  instrumentID := strncpyS 31 t.instrument
  tradingDay := strncpyS 9 t.dayText
  actionDay := strncpyS 9 t.dayText
  updateTime := strncpyS 9 t.timeText
  lastPrice := atoi t.lastPrice.text
  volume := Int32.ofInt (totalVolum + t.volume.toInt)
  bidPrice1 := atoi t.bidPrice1.text
  askPrice1 := atoi t.askPrice1.text
  bidVolume1 := t.bidVolume1
  askVolume1 := t.askVolume1

/-- The loop over the columns of the row. -/
theorem transferColumns_row (totalVolum : Int) :
    CMdBroadCast.transferColumns 0 (columns t.row) (totalVolum, emptyTick) =
      if t.KeepsTotal totalVolum then
        .ok (totalVolum + t.volume.toInt, t.readTick totalVolum)
      else .error .volumeOverflow := by
  rw [columns_row, pieces]
  simp only [CMdBroadCast.transferColumns, CMdBroadCast.transferColumn, atoi_intText_toInt,
    tradeDay_timestamp, updateTime_timestamp, Int32.ofInt_toInt]
  by_cases keeps : t.KeepsTotal totalVolum
  · have range : intMin ≤ totalVolum + t.volume.toInt ∧ totalVolum + t.volume.toInt ≤ intMax :=
      keeps
    rw [if_pos keeps, if_pos range]
    rfl
  · have range : ¬ (intMin ≤ totalVolum + t.volume.toInt ∧ totalVolum + t.volume.toInt ≤ intMax) :=
      keeps
    rw [if_neg keeps, if_neg range]

theorem chars_strncpyS {n : Nat} [NeZero n] {s : StdString} (fits : s.length ≤ n - 1) :
    (strncpyS n s).chars = s := List.take_of_length_le fits

/-- All values but the prices come back. -/
theorem filled_readTick_iff {totalVolum : Int} (keeps : t.KeepsTotal totalVolum) :
    t.Filled totalVolum (t.readTick totalVolum) ↔
      t.lastPrice.IsInt ∧ t.bidPrice1.IsInt ∧ t.askPrice1.IsInt := by
  rw [← t.lastPrice.atoi_text_eq_value_iff, ← t.bidPrice1.atoi_text_eq_value_iff,
    ← t.askPrice1.atoi_text_eq_value_iff]
  constructor
  · intro filled
    exact ⟨filled.lastPrice, filled.bidPrice1, filled.askPrice1⟩
  · rintro ⟨last, bid, ask⟩
    have day : t.dayText.length ≤ 9 - 1 := by simp [dayText]
    have time : t.timeText.length ≤ 9 - 1 := by simp [timeText]
    exact ⟨chars_strncpyS t.instrument_fits, chars_strncpyS day, chars_strncpyS day,
      chars_strncpyS time, last, bid, ask, rfl, rfl, toInt_ofInt keeps.1 keeps.2⟩

/-- Drawing the row, wherever it stands in the table. -/
theorem transferFakeToTickData_row {table : List StdString} {dataIndex : Nat}
    (drawn : table[dataIndex % table.length]? = some t.row) (totalVolum : Int) :
    CMdBroadCast.transferFakeToTickData table dataIndex totalVolum =
      if t.KeepsTotal totalVolum then
        .ok (dataIndex % table.length + 1, totalVolum + t.volume.toInt, t.readTick totalVolum)
      else .error .volumeOverflow := by
  have inside : 0 < table.length := by
    rw [List.length_pos_iff]
    rintro rfl
    cases drawn
  have full : ¬ (dataIndex ≥ table.length ∧ table.length = 0) := fun h => inside.ne' h.2
  have line : (if dataIndex ≥ table.length then dataIndex % table.length else dataIndex) =
      dataIndex % table.length := by
    split_ifs with behind
    · rfl
    · exact (Nat.mod_eq_of_lt (not_le.mp behind)).symm
  have row : table.getD (dataIndex % table.length) [] = t.row := by
    rw [List.getD_eq_getElem?_getD, drawn, Option.getD_some]
  rw [CMdBroadCast.transferFakeToTickData]
  simp only [full, ↓reduceIte, line, row, transferColumns_row]
  by_cases keeps : t.KeepsTotal totalVolum
  · simp only [keeps, ↓reduceIte]
  · simp only [keeps, ↓reduceIte]

end Reads

/-- The function reads back the tick exactly if its prices are whole numbers in the range
of `int` and the total stays in this range. -/
theorem recorded_tick_read_back_iff (t : RecordedTick) {table : List StdString} {dataIndex : Nat}
    (drawn : table[dataIndex % table.length]? = some t.row) (totalVolum : Int) :
    t.ReadsBack totalVolum
        (CMdBroadCast.transferFakeToTickData table dataIndex totalVolum) ↔
      (t.lastPrice.IsInt ∧ t.bidPrice1.IsInt ∧ t.askPrice1.IsInt) ∧ t.KeepsTotal totalVolum := by
  rw [t.transferFakeToTickData_row drawn]
  by_cases keeps : t.KeepsTotal totalVolum
  · rw [if_pos keeps, ← t.filled_readTick_iff keeps, and_iff_left keeps]
    constructor
    · rintro ⟨next, tick, result, filled⟩
      cases result
      exact filled
    · exact fun filled => ⟨_, _, rfl, filled⟩
  · rw [if_neg keeps]
    apply iff_of_false
    · rintro ⟨next, tick, result, -⟩
      cases result
    · exact fun both => keeps both.2

/-- A tick of a future with the given last price. -/
def sampleRecorded (lastPrice : DecimalNumber) : RecordedTick where
  instrument := ['r', 'b', '1', '6', '1', '0']
  year := 2016
  month := 3
  day := 31
  hour := 9
  minute := 30
  second := 0
  millisecond := 500
  lastPrice := lastPrice
  bidPrice1 := { whole := 2231 }
  askPrice1 := { whole := 2232 }
  volume := 14
  bidVolume1 := 3
  askVolume1 := 7
  others _ := []
  instrument_fits := by decide
  instrument_free := by decide
  others_free _ := List.not_mem_nil

theorem isInt_of_whole {whole : Nat} (small : whole ≤ 2147483647) :
    DecimalNumber.IsInt { whole := whole } := by
  refine ⟨whole, ?_, ?_, ?_⟩
  · simp only [intMin]
    omega
  · simp only [intMax]
    omega
  · simp [DecimalNumber.value, DecimalNumber.magnitude, DecimalNumber.fractionValue]

theorem recorded_tick_read_back_iff_whole :
    (sampleRecorded { whole := 2231 }).ReadsBack 100
      (CMdBroadCast.transferFakeToTickData [(sampleRecorded { whole := 2231 }).row] 0 100) := by
  refine (recorded_tick_read_back_iff (sampleRecorded { whole := 2231 }) rfl 100).mpr ⟨?_, ?_⟩
  · exact ⟨isInt_of_whole (by decide), isInt_of_whole (by decide), isInt_of_whole (by decide)⟩
  · decide

/-- A price of 2231.5 comes back as 2231, because the price columns are read by `atoi`.
-/
theorem recorded_tick_lost :
    ¬ ∀ (t : RecordedTick) (table : List StdString) (dataIndex : Nat) (totalVolum : Int),
      table[dataIndex % table.length]? = some t.row → t.KeepsTotal totalVolum →
      t.ReadsBack totalVolum
        (CMdBroadCast.transferFakeToTickData table dataIndex totalVolum) := by
  intro claim
  let t := sampleRecorded { whole := 2231, fraction := [5] }
  have keeps : t.KeepsTotal 100 := by decide
  obtain ⟨next, tick, result, filled⟩ := claim t [t.row] 0 100 rfl keeps
  rw [t.transferFakeToTickData_row (by rfl), if_pos keeps] at result
  cases result
  obtain ⟨n, -, -, value⟩ := ((t.filled_readTick_iff keeps).mp filled).1
  have half : t.lastPrice.value = 2231 + 1 / 2 := by
    change ((2231 : Nat) : ℚ) + (((5 : Nat) : ℚ) + 0) / 10 = 2231 + 1 / 2
    norm_num
  have doubled : (2 * n : Int) = 4463 := by
    rw [half] at value
    have : (2 * n : ℚ) = 4463 := by linarith
    exact_mod_cast this
  omega

end RecordedTick

end CtpTrade
