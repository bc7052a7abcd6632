import Mathlib.Algebra.GroupWithZero.Nat
import Mathlib.Algebra.Order.Ring.Rat
import Mathlib.Data.Char
import Mathlib.Data.List.Lex
import Mathlib.Data.List.TakeWhile
import Mathlib.Data.Nat.Log

/-!
# The C++ platform

Text and integers as the target platform (MSVC, x64) has them. A `std::string`
is a list of characters, a `char[n]` field is a character list that leaves room
for the terminator, and `double` is modelled by exact rationals. Sizes and
positions are natural numbers; the conversions from `int` are explicit because
a negative `int` becomes a huge `size_t`.
-/

namespace CtpTrade

/-- `std::string`. -/
abbrev StdString := List Char

/-- The text in a `char[n]` field: everything before the terminator. A text that does
not fit cannot be built. -/
structure CharArray (n : Nat) where
  chars : StdString
  fits : chars.length < n
  deriving DecidableEq

instance {n : Nat} [NeZero n] : Inhabited (CharArray n) :=
  ⟨⟨[], Nat.pos_of_ne_zero (NeZero.ne n)⟩⟩

/-- `strncpy_s` into a `char[n]` field with count `n - 1`. -/
def strncpyS (n : Nat) [NeZero n] (src : StdString) : CharArray n :=
  ⟨src.take (n - 1), by
    have := Nat.pos_of_ne_zero (NeZero.ne n)
    simp only [List.length_take]
    omega⟩

/-- Copying between fields of one size never truncates. -/
@[simp] theorem strncpyS_chars {n : Nat} [NeZero n] (a : CharArray n) :
    strncpyS n a.chars = a := by
  obtain ⟨chars, fits⟩ := a
  simp only [strncpyS, CharArray.mk.injEq]
  exact List.take_of_length_le (by omega)

/-- The text before the first `c`, or all of it. -/
def beforeFirst (c : Char) (s : StdString) : StdString := s.takeWhile (· ≠ c)

/-- The text behind the first `c`. Without one `npos + 1` is zero, so it is all of it. -/
def behindFirst (c : Char) (s : StdString) : StdString :=
  if c ∈ s then (s.dropWhile (· ≠ c)).drop 1 else s

theorem beforeFirst_append {c : Char} {s : StdString} (free : c ∉ s) (rest : StdString) :
    beforeFirst c (s ++ c :: rest) = s := by
  have passed : ∀ b ∈ s, decide (b ≠ c) = true := by
    intro b hb
    exact decide_eq_true (ne_of_mem_of_not_mem hb free)
  rw [beforeFirst, List.takeWhile_append_of_pos passed, List.takeWhile_cons_of_neg (by simp),
    List.append_nil]

theorem behindFirst_append {c : Char} {s : StdString} (free : c ∉ s) (rest : StdString) :
    behindFirst c (s ++ c :: rest) = rest := by
  have passed : ∀ b ∈ s, decide (b ≠ c) = true := by
    intro b hb
    exact decide_eq_true (ne_of_mem_of_not_mem hb free)
  rw [behindFirst, if_pos (by simp), List.dropWhile_append_of_pos passed,
    List.dropWhile_cons_of_neg (by simp), List.drop_one, List.tail_cons]

/-- The number of values of a `size_t`. -/
def sizeRange : Nat := 2 ^ 64

/-- Conversion of an `int` to `size_t`. -/
def sizeOfInt (x : Int) : Nat := if 0 ≤ x then x.toNat else (sizeRange + x).toNat

theorem sizeOfInt_natCast (n : Nat) : sizeOfInt n = n := by simp [sizeOfInt]

def intMax : Int := 2147483647
def intMin : Int := -2147483648

/-- A value in the range of `int` survives the conversion. -/
theorem toInt_ofInt {x : Int} (low : intMin ≤ x) (high : x ≤ intMax) :
    (Int32.ofInt x).toInt = x := by
  have hmin : intMin = -2 ^ 31 := rfl
  have hmax : intMax = 2 ^ 31 - 1 := rfl
  apply Int32.toInt_ofInt_of_le <;> omega

def isSpace (c : Char) : Bool :=
  c = ' ' || c = '\t' || c = '\n' || c = '\x0b' || c = '\x0c' || c = '\r'

/-- The value of the leading decimal digits. -/
def digitsValue (s : StdString) : Nat :=
  (s.takeWhile Char.isDigit).foldl (fun acc c => 10 * acc + (c.toNat - '0'.toNat)) 0

/-- `atoi`: leading blanks and one sign are skipped, the value ends at the first
character that is no digit, and a value outside `int` saturates. -/
def atoi (s : StdString) : Int :=
  match s.dropWhile isSpace with
  | '-' :: digits => max intMin (-(digitsValue digits : Int))
  | '+' :: digits => min intMax (digitsValue digits)
  | digits => min intMax (digitsValue digits)

/-- The lowest `width` decimal digits of a number, the highest of them first. -/
def decimalDigits : Nat → Nat → List Nat
  | 0, _ => []
  | width + 1, n => decimalDigits width (n / 10) ++ [n % 10]

/-- `sprintf` with the format `%012d`. An `int` has at most ten digits, so the
padded text never gets longer than its width. -/
def sprintf012d (x : Int32) : StdString :=
  if x < 0 then '-' :: (decimalDigits 11 x.toInt.natAbs).map Nat.digitChar
  else (decimalDigits 12 x.toInt.natAbs).map Nat.digitChar

theorem digitsValue_map {ds : List Nat} (h : ∀ d ∈ ds, d < 10) :
    digitsValue (ds.map Nat.digitChar) = ds.foldl (fun acc d => 10 * acc + d) 0 := by
  have digits : (ds.map Nat.digitChar).takeWhile Char.isDigit = ds.map Nat.digitChar := by
    rw [List.takeWhile_eq_self_iff]
    intro c hc
    obtain ⟨d, hd, rfl⟩ := List.mem_map.mp hc
    rw [Nat.isDigit_digitChar]
    exact decide_eq_true (h d hd)
  rw [digitsValue, digits, List.foldl_map]
  apply List.foldl_ext
  intro acc d hd
  change 10 * acc + (d.digitChar.toNat - 48) = _
  rw [Nat.toNat_digitChar_sub_48_of_lt_ten (h d hd)]

theorem isDigit_map {ds : List Nat} (h : ∀ d ∈ ds, d < 10) :
    ∀ c ∈ ds.map Nat.digitChar, c.isDigit = true := by
  intro c hc
  obtain ⟨d, hd, rfl⟩ := List.mem_map.mp hc
  rw [Nat.isDigit_digitChar]
  exact decide_eq_true (h d hd)

/-- A text that begins with a digit has neither blanks nor a sign to skip. -/
theorem atoi_of_digit {c : Char} (digit : c.isDigit = true) (s : StdString) :
    atoi (c :: s) = min intMax (digitsValue (c :: s)) := by
  have other {b : Char} (hb : b.isDigit = false) : c ≠ b := by
    rintro rfl
    simp [digit] at hb
  have notSpace : isSpace c = false := by
    simp only [isSpace, Bool.or_eq_false_iff, decide_eq_false_iff_not]
    refine ⟨⟨⟨⟨⟨?_, ?_⟩, ?_⟩, ?_⟩, ?_⟩, ?_⟩ <;> exact other (by decide)
  rw [atoi, List.dropWhile_cons_of_neg (by simp [notSpace])]
  split
  · next eq => exact absurd (List.cons.inj eq).1 (other (by decide))
  · next eq => exact absurd (List.cons.inj eq).1 (other (by decide))
  · rfl

theorem atoi_of_digits {s : StdString} (h : ∀ c ∈ s, c.isDigit = true) :
    atoi s = min intMax (digitsValue s) := by
  cases s with
  | nil => rfl
  | cons c s => exact atoi_of_digit (h c (List.mem_cons_self ..)) s

theorem atoi_minus (s : StdString) : atoi ('-' :: s) = max intMin (-(digitsValue s : Int)) := rfl

/-- The value ends where the digits end. -/
theorem digitsValue_append {s rest : StdString} (digits : ∀ c ∈ s, c.isDigit = true)
    (stop : ∀ c ∈ rest.head?, c.isDigit = false) : digitsValue (s ++ rest) = digitsValue s := by
  have behind : rest.takeWhile Char.isDigit = [] := by
    cases rest with
    | nil => rfl
    | cons c rest => exact List.takeWhile_cons_of_neg (by simp [stop c rfl])
  rw [digitsValue, digitsValue, List.takeWhile_append_of_pos digits, behind, List.append_nil,
    List.takeWhile_eq_self_iff.mpr digits]

@[simp] theorem length_decimalDigits (width n : Nat) : (decimalDigits width n).length = width := by
  induction width generalizing n with
  | zero => rfl
  | succ width ih => simp [decimalDigits, ih]

theorem lt_of_mem_decimalDigits {width n : Nat} : ∀ d ∈ decimalDigits width n, d < 10 := by
  induction width generalizing n with
  | zero => simp [decimalDigits]
  | succ width ih =>
      intro d hd
      obtain hd | hd := List.mem_append.mp hd
      · exact ih d hd
      · rw [List.mem_singleton.mp hd]
        omega

/-- The digits read back as the number, if there are enough of them. -/
theorem digitsValue_decimalDigits {width n : Nat} (room : n < 10 ^ width) :
    digitsValue ((decimalDigits width n).map Nat.digitChar) = n := by
  rw [digitsValue_map lt_of_mem_decimalDigits]
  induction width generalizing n with
  | zero =>
      obtain rfl : n = 0 := by simpa using room
      rfl
  | succ width ih =>
      have front : n / 10 < 10 ^ width := by
        rw [Nat.pow_succ] at room
        omega
      rw [decimalDigits, List.foldl_append, ih front]
      change 10 * (n / 10) + n % 10 = n
      omega

/-- The lowest `width` digits, with leading zeros. -/
def paddedText (width n : Nat) : StdString := (decimalDigits width n).map Nat.digitChar

/-- The digits of a number without leading zeros. -/
def numberText (n : Nat) : StdString := paddedText (Nat.log 10 n + 1) n

/-- An integer with its sign, if it is negative. -/
def intText (x : Int) : StdString :=
  if x < 0 then '-' :: numberText x.natAbs else numberText x.natAbs

@[simp] theorem length_paddedText (width n : Nat) : (paddedText width n).length = width := by
  simp [paddedText]

theorem isDigit_of_mem_paddedText {width n : Nat} :
    ∀ c ∈ paddedText width n, c.isDigit = true := isDigit_map lt_of_mem_decimalDigits

/-- No other character occurs in a printed number. -/
theorem not_mem_paddedText {c : Char} (other : c.isDigit = false) (width n : Nat) :
    c ∉ paddedText width n := by
  intro mem
  rw [isDigit_of_mem_paddedText c mem] at other
  cases other

theorem digitsValue_numberText (n : Nat) : digitsValue (numberText n) = n :=
  digitsValue_decimalDigits (Nat.lt_pow_succ_log_self (by decide) n)

/-- A number is read up to the first character that is no digit. -/
theorem digitsValue_numberText_append (n : Nat) {rest : StdString}
    (stop : ∀ c ∈ rest.head?, c.isDigit = false) : digitsValue (numberText n ++ rest) = n := by
  have digits : ∀ c ∈ numberText n, c.isDigit = true := isDigit_of_mem_paddedText
  rw [digitsValue_append digits stop, digitsValue_numberText]

theorem atoi_numberText_append (n : Nat) {rest : StdString}
    (stop : ∀ c ∈ rest.head?, c.isDigit = false) :
    atoi (numberText n ++ rest) = min intMax n := by
  have value := digitsValue_numberText_append n stop
  have some : numberText n ≠ [] := by
    rw [← List.length_pos_iff, numberText, length_paddedText]
    exact Nat.succ_pos _
  obtain ⟨c, digits, hc⟩ := List.exists_cons_of_ne_nil some
  have digit : c.isDigit = true := by
    apply isDigit_of_mem_paddedText c
    rw [← numberText, hc]
    exact List.mem_cons_self ..
  rw [hc, List.cons_append] at value ⊢
  rw [atoi_of_digit digit, value]

/-- Reading undoes printing in the range of `int`. -/
theorem atoi_intText {x : Int} (low : intMin ≤ x) (high : x ≤ intMax) : atoi (intText x) = x := by
  have stop : ∀ c ∈ ([] : StdString).head?, c.isDigit = false := by simp
  rw [intText]
  split_ifs with negative
  · rw [atoi_minus, digitsValue_numberText]
    omega
  · have read := atoi_numberText_append x.natAbs stop
    rw [List.append_nil] at read
    rw [read]
    omega

@[simp] theorem length_sprintf012d (x : Int32) : (sprintf012d x).length = 12 := by
  simp only [sprintf012d]
  split_ifs <;> simp

end CtpTrade
