import CtpTrade.Hiredis.Reader
import CtpTrade.Library.Incremental

/-!
# Reading replies from a stream

What the reader does, without its buffer, its stack of tasks and its half-finished
tree: the state of the parser is the arrays it is inside of, each with the elements
that it has so far, and the type byte if that has been read. One turn reads a type
byte, or all that belongs to an object behind its type byte.

The parser is an incremental consumer, so what it makes of a stream does not depend on
how the stream is cut.
-/

namespace CtpTrade

open RedisReader

/-- The position of the first line end. -/
def lineEnd? : StdString → Option Nat
  | [] => none
  | c :: s => if c = '\r' ∧ s.head? = some '\n' then some 0 else (lineEnd? s).map (· + 1)

theorem lineEnd_lt {l : StdString} {n : Nat} (h : lineEnd? l = some n) :
    n + 2 ≤ l.length := by
  induction l generalizing n with
  | nil => simp [lineEnd?] at h
  | cons c l ih =>
      rw [lineEnd?] at h
      split_ifs at h with found
      · obtain rfl := Option.some.inj h
        cases l with
        | nil => simp at found
        | cons d l => simp
      · obtain ⟨m, hm, rfl⟩ := Option.map_eq_some_iff.mp h
        have := ih hm
        simp only [List.length_cons]
        omega

theorem lineEnd_short {l : StdString} (short : l.length ≤ 1) : lineEnd? l = none := by
  cases h : lineEnd? l with
  | none => rfl
  | some n =>
      have := lineEnd_lt h
      omega

/-- With a bound that is not too small the loops see the whole text. -/
theorem seekNewlineLoop_eq {left : Nat} {l : StdString} (enough : l.length ≤ left + 1) :
    seekNewlineLoop left l = lineEnd? l := by
  induction l generalizing left with
  | nil => rfl
  | cons c l ih =>
      rw [List.length_cons] at enough
      have later : seekNewlineLoop (left - 1) l = lineEnd? l := ih (by omega)
      -- where the loops stop short there is no room for a line end
      have stops (few : left ≤ 1) : lineEnd? l = none := lineEnd_short (by omega)
      rw [seekNewlineLoop, lineEnd?, later]
      by_cases return_ : c = '\r'
      · by_cases newline : l.head? = some '\n'
        · simp [return_, newline]
        · by_cases few : left ≤ 1
          · simp [return_, newline, few, stops few]
          · simp [return_, newline, few]
      · by_cases last : left = 0
        · simp [return_, last, stops (by omega)]
        · simp [return_, last]

/-- In a text that an `int` can count the code finds every line end. -/
theorem seekNewline_eq {l : StdString} (short : l.length ≤ 2 ^ 31) :
    seekNewline l = lineEnd? l := by
  have len : ((l.length : Int) - 1).bmod (2 ^ 32) = l.length - 1 :=
    Int.bmod_eq_of_le (by omega) (by omega)
  simp only [seekNewline, len]
  split_ifs with some
  · exact seekNewlineLoop_eq (by omega)
  · rw [lineEnd_short (by omega)]

theorem lineEnd_append {l : StdString} {n : Nat} (h : lineEnd? l = some n)
    (more : StdString) : lineEnd? (l ++ more) = some n := by
  induction l generalizing n with
  | nil => simp [lineEnd?] at h
  | cons c l ih =>
      have nonempty : l ≠ [] := by
        have := lineEnd_lt h
        rintro rfl
        simp at this
      rw [lineEnd?] at h
      rw [List.cons_append, lineEnd?, List.head?_append_of_ne_nil l nonempty]
      split_ifs at h ⊢ with found
      · exact h
      · obtain ⟨m, hm, rfl⟩ := Option.map_eq_some_iff.mp h
        rw [ih hm, Option.map_some]

theorem mem_of_lineEnd {l : StdString} {n : Nat} (h : lineEnd? l = some n) : '\r' ∈ l := by
  induction l generalizing n with
  | nil => simp [lineEnd?] at h
  | cons c l ih =>
      rw [lineEnd?] at h
      split_ifs at h with found
      · simp [found.1]
      · obtain ⟨m, hm, -⟩ := Option.map_eq_some_iff.mp h
        exact List.mem_cons_of_mem c (ih hm)

theorem readLongLongLoop_append {mult v : Int64} {l : StdString} (h : '\r' ∈ l)
    (more : StdString) : readLongLongLoop mult v (l ++ more) = readLongLongLoop mult v l := by
  induction l generalizing v with
  | nil => simp at h
  | cons c l ih =>
      simp only [List.cons_append, readLongLongLoop]
      split_ifs with ends digit
      · rfl
      · exact ih ((List.mem_cons.mp h).resolve_left (Ne.symm ends))
      · rfl

theorem readLongLong_unsigned {c : Char} (minus : c ≠ '-') (plus : c ≠ '+') (l : StdString) :
    readLongLong (c :: l) = readLongLongLoop 1 0 (c :: l) := by
  unfold readLongLong
  split <;> simp_all

theorem readLongLong_append {l : StdString} (h : '\r' ∈ l) (more : StdString) :
    readLongLong (l ++ more) = readLongLong l := by
  cases l with
  | nil => simp at h
  | cons c l =>
      by_cases minus : c = '-'
      · subst minus
        exact readLongLongLoop_append (by simpa using h) more
      · by_cases plus : c = '+'
        · subst plus
          exact readLongLongLoop_append (by simpa using h) more
        · rw [List.cons_append, readLongLong_unsigned minus plus, readLongLong_unsigned minus plus]
          exact readLongLongLoop_append h more

/-- A count that is an `int` survives the conversion. -/
theorem toInt_toInt32 {x : Int64} (low : -1 ≤ x.toInt) (high : x.toInt ≤ intMax) :
    x.toInt32.toInt = x.toInt := by
  rw [intMax] at high
  rw [Int64.toInt_toInt32]
  exact Int.bmod_eq_of_le (by omega) (by omega)

/-- An array that is being read: how many elements it is to have, and those that it has
so far. -/
structure Frame where
  size : Int
  done : List RedisReply

/-- The state of a parser of replies on its own, without buffer, positions and pointers.
It is what the reader of the code is compared with. -/
inductive ParserState where
  | reading (type : Option ReplyType) (frames : List Frame)
  | failed (str : StdString)
  | faulted (fault : ReaderFault)

namespace ReplyParser

abbrev Turn := Incremental.Turn ParserState Char RedisReply

/-- The innermost array has a slot for another element. An array that is full is closed
at once, so this holds whenever an element is read. -/
def HasRoom : List Frame → Prop
  | [] => True
  | f :: _ => (f.done.length : Int) < f.size

instance : DecidablePred HasRoom
  | [] => .isTrue trivial
  | f :: _ => inferInstanceAs (Decidable ((f.done.length : Int) < f.size))

/-- The object is there: put it into its array, which may finish that one too. -/
def finish (obj : RedisReply) : List Frame → ParserState × Option RedisReply
  | [] => (.reading none [], some obj)
  | f :: frames =>
    if (f.done.length : Int) < f.size then
      if (f.done.length : Int) + 1 = f.size then
        finish (.array f.size.toNat (f.done ++ [obj])) frames
      else (.reading none ({ f with done := f.done ++ [obj] } :: frames), none)
    else (.faulted .element, none)

def finished (obj : RedisReply) (frames : List Frame) (rest : StdString) : Turn :=
  ⟨(finish obj frames).1, rest, (finish obj frames).2⟩

/-- Behind the type byte, when `line` is the length of the line. -/
def typed (frames : List Frame) (l : StdString) (line : Nat) : ReplyType → Option Turn
  | .integer => some (finished (.integer (readLongLong l)) frames (l.drop (line + 2)))
  | .status => some (finished (.status (l.take line)) frames (l.drop (line + 2)))
  | .error => some (finished (.error (l.take line)) frames (l.drop (line + 2)))
  | .string =>
    let len := readLongLong l
    if len < 0 then some (finished .nil frames (l.drop (line + 2)))
    else
      let bytelen := line + 2 + len.toNatClampNeg + 2
      if bytelen ≤ l.length then
        let str := (l.drop (line + 2)).take len.toNatClampNeg
        some (finished (.string str) frames (l.drop bytelen))
      else none
  | .array =>
    let elements := readLongLong l
    let size := elements.toInt32.toInt
    if elements = -1 then some (finished .nil frames (l.drop (line + 2)))
    else if 0 < elements then
      if HasRoom frames then some ⟨.reading none (⟨size, []⟩ :: frames), l.drop (line + 2), none⟩
      else some ⟨.faulted .element, l.drop (line + 2), none⟩
    else some (finished (createArray size) frames (l.drop (line + 2)))
  | .nil => some ⟨.faulted .assertion, l.drop (line + 2), none⟩

def typeByte (frames : List Frame) (c : Char) : ParserState :=
  match typeOfByte c with
  | none => .failed (protocolByteText c)
  | some type =>
    if type = .array ∧ frames.length = 8 then .failed depthText else .reading (some type) frames

/-- A type byte is an error, or it is known and not too deep. -/
theorem typeByte_cases (frames : List Frame) (c : Char) :
    (∃ str, typeByte frames c = .failed str) ∨
      ∃ type, typeOfByte c = some type ∧ ¬(type = .array ∧ frames.length = 8) ∧
        typeByte frames c = .reading (some type) frames := by
  cases byte : typeOfByte c with
  | none => exact .inl ⟨protocolByteText c, by simp [typeByte, byte]⟩
  | some type =>
      by_cases deep : type = .array ∧ frames.length = 8
      · exact .inl ⟨depthText, by simp [typeByte, byte, deep]⟩
      · exact .inr ⟨type, rfl, deep, by simp [typeByte, byte, deep]⟩

/-- One turn of the parser: it takes a type byte with its line, or a text of a known
length. What comes behind an error is thrown away. -/
def next : Incremental.Consumer ParserState Char RedisReply
  | .reading none frames, c :: l => some ⟨typeByte frames c, l, none⟩
  | .reading (some type) frames, l =>
    match lineEnd? l with
    | some line => typed frames l line type
    | none => none
  | .failed str, _ :: l => some ⟨.failed str, l, none⟩
  | .faulted fault, _ :: l => some ⟨.faulted fault, l, none⟩
  | _, [] => none

theorem typed_rest {frames : List Frame} {l : StdString} {line : Nat} {type : ReplyType} {t : Turn}
    (h : typed frames l line type = some t) : ∃ n, line + 2 ≤ n ∧ t.rest = l.drop n := by
  cases type with
  | string =>
      simp only [typed] at h
      split_ifs at h
      · cases h
        exact ⟨line + 2, Nat.le_refl _, rfl⟩
      · cases h
        exact ⟨_, by omega, rfl⟩
  | array =>
      simp only [typed] at h
      split_ifs at h <;> cases h <;> exact ⟨line + 2, Nat.le_refl _, rfl⟩
  | _ =>
      cases h
      exact ⟨line + 2, Nat.le_refl _, rfl⟩

theorem typed_append {frames : List Frame} {l : StdString} {line : Nat} {type : ReplyType}
    {t : Turn} (newline : lineEnd? l = some line) (h : typed frames l line type = some t)
    (more : StdString) :
    typed frames (l ++ more) line type = some { t with rest := t.rest ++ more } := by
  have inside := lineEnd_lt newline
  have value := readLongLong_append (mem_of_lineEnd newline) more
  have line_rest : (l ++ more).drop (line + 2) = l.drop (line + 2) ++ more :=
    List.drop_append_of_le_length inside
  have text : (l ++ more).take line = l.take line := List.take_append_of_le_length (by omega)
  cases type with
  | string =>
      simp only [typed, value] at h ⊢
      split_ifs at h with null fits
      · cases h
        simp [null, line_rest, finished]
      · cases h
        have bytes : (l.drop (line + 2) ++ more).take (readLongLong l).toNatClampNeg =
            (l.drop (line + 2)).take (readLongLong l).toNatClampNeg :=
          List.take_append_of_le_length (by simp only [List.length_drop]; omega)
        rw [if_neg null, if_pos (by simp only [List.length_append]; omega), line_rest, bytes,
          List.drop_append_of_le_length fits]
        rfl
  | array =>
      simp only [typed, value, line_rest] at h ⊢
      split_ifs at h ⊢ <;> cases h <;> rfl
  | integer =>
      simp only [typed, value, line_rest] at h ⊢
      cases h
      rfl
  | status =>
      simp only [typed, text, line_rest] at h ⊢
      cases h
      rfl
  | error =>
      simp only [typed, text, line_rest] at h ⊢
      cases h
      rfl
  | nil =>
      simp only [typed, line_rest] at h ⊢
      cases h
      rfl

/-- Every turn reads something, and what comes behind does not change it. -/
theorem lawful : Incremental.Lawful next where
  shrinks := by
    intro s l t h
    match s, l, h with
    | .reading none frames, c :: l, h =>
        cases h
        simp
    | .reading (some type) frames, l, h =>
        simp only [next] at h
        split at h
        · next line newline =>
            obtain ⟨n, far, hn⟩ := typed_rest h
            have := lineEnd_lt newline
            rw [hn, List.length_drop]
            omega
        · cases h
    | .failed str, _ :: l, h =>
        cases h
        simp
    | .faulted fault, _ :: l, h =>
        cases h
        simp
  stable := by
    intro s l t h more
    match s, l, h with
    | .reading none frames, c :: l, h =>
        cases h
        rfl
    | .reading (some type) frames, l, h =>
        simp only [next] at h ⊢
        split at h
        · next line newline =>
            rw [lineEnd_append newline]
            exact typed_append newline h more
        · cases h
    | .failed str, _ :: l, h =>
        cases h
        rfl
    | .faulted fault, _ :: l, h =>
        cases h
        rfl

end ReplyParser

end CtpTrade
