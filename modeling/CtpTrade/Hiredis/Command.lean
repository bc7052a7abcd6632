import CtpTrade.Redis.Reply

/-!
# Commands of hiredis

`redisvFormatCommand` makes a request of a format and its arguments. Spaces in the format
separate the words of the command, and what is interpolated for a conversion goes into
the word it stands in. The request is the words with their lengths.

An argument that the caller did not pass is undefined behaviour, and so is an argument of
another type. `vsnprintf` of the C library is a parameter. The length of the request is
computed in an `int`, which wraps around, and the block for the request has that length. A
word is an sds, which is taken to be as long as its text.
-/

namespace CtpTrade

/-- A variable argument, with the type that the call passes it as. -/
inductive FormatArg where
  /-- for `%s`: what is in front of the terminator -/
  | str (arg : StdString)
  /-- for `%b`: an address and a size -/
  | bytes (arg : StdString)
  | int (arg : Int64)
  | double (arg : ℚ)

/-- What a call of the formatting functions must not come to. -/
inductive FormatFault where
  /-- `va_arg` without such an argument -/
  | argument
  /-- a read behind the end of the format -/
  | overread
  /-- a write behind the block for the request -/
  | overrun
  /-- `assert(pos == totlen)` -/
  | assertion
  deriving DecidableEq

/-- The words that are finished and the one that is being made. An empty word that has
been touched is kept. -/
structure FormatState where
  curargv : List StdString
  curarg : StdString
  touched : Bool

namespace FormatState

def start : FormatState := ⟨[], [], false⟩

/-- `sdscatlen` to the current word, which makes it one. -/
def touch (s : FormatState) (text : StdString) : FormatState :=
  { s with curarg := s.curarg ++ text, touched := true }

/-- A space in the format, or its end. -/
def space (s : FormatState) : FormatState :=
  if s.touched then ⟨s.curargv ++ [s.curarg], [], false⟩ else s

end FormatState

def intfmts : StdString := "diouxX".toList
def doublefmts : StdString := "eEfFgGaA".toList

/-- Skip one character of the format, if it is there. -/
def skipFlag (flag : Char) (p : StdString) : StdString :=
  if p.head? = some flag then p.drop 1 else p

def skipDigits (p : StdString) : StdString := p.dropWhile Char.isDigit

/-- The conversions of `printf` that are known. -/
inductive Conversion where
  | int
  | double
  /-- The format ends in front of the conversion. `strchr` finds the terminator. -/
  | terminator
  deriving DecidableEq

/-- The conversion behind flags, width and precision, and the format behind it. -/
def conversion (p : StdString) : Option (Conversion × StdString) :=
  match p with
  | [] => some (.terminator, [])
  | c :: p =>
    if c ∈ intfmts then some (.int, p)
    else if c ∈ doublefmts then some (.double, p)
    else
      let sized (p : StdString) : Option (Conversion × StdString) :=
        match p with
        | d :: p => if d ∈ intfmts then some (.int, p) else none
        | [] => none
      if c = 'h' then (if p.head? = some 'h' then sized (p.drop 1) else sized p)
      else if c = 'l' then (if p.head? = some 'l' then sized (p.drop 1) else sized p)
      else none

/-- Flags, width and precision. -/
def skipModifiers (p : StdString) : StdString :=
  let p := ['#', '0', '-', ' ', '+'].foldl (fun p flag => skipFlag flag p) p
  let p := skipDigits p
  if p.head? = some '.' then skipDigits (p.drop 1) else p

section Format

variable (vsnprintf : StdString → FormatArg → StdString)

/-- The branch for `printf` formats, at the `%`. `none` is `goto err`. -/
def formatPrintf (c : StdString) (args : List FormatArg) (s : FormatState) :
    Except FormatFault (Option (FormatState × StdString × List FormatArg)) :=
  match conversion (skipModifiers (c.drop 1)) with
  | none => .ok none
  | some (kind, rest) =>
    let text := c.take (c.length - rest.length)
    -- the format that is copied has the terminator in it where it ends early
    let size := if kind = .terminator then text.length + 1 else text.length
    match kind, args with
    | .int, .int arg :: args =>
      if size < 14 then .ok (some (s.touch (vsnprintf text (.int arg)), rest, args))
      else .ok (some (s.touch [], c.drop 2, args))
    | .double, .double arg :: args =>
      if size < 14 then .ok (some (s.touch (vsnprintf text (.double arg)), rest, args))
      else .ok (some (s.touch [], c.drop 2, args))
    | .terminator, .int _ :: args =>
      if size < 14 then .error .overread else .ok (some (s.touch [], c.drop 2, args))
    | _, _ => .error .argument

/-- The loop of `redisvFormatCommand`. Every round takes a character away. -/
def formatLoop : Nat → StdString → List FormatArg → FormatState →
    Except FormatFault (Option FormatState)
  | 0, _, _, s => .ok (some s)
  | _ + 1, [], _, s => .ok (some s)
  | fuel + 1, d :: c, args, s =>
    if d ≠ '%' ∨ c = [] then
      formatLoop fuel c args (if d = ' ' then s.space else s.touch [d])
    else match c.head?, args with
      | some 's', .str arg :: args => formatLoop fuel (c.drop 1) args (s.touch arg)
      | some 's', _ => .error .argument
      | some 'b', .bytes arg :: args => formatLoop fuel (c.drop 1) args (s.touch arg)
      | some 'b', _ => .error .argument
      | some '%', args => formatLoop fuel (c.drop 1) args (s.touch ['%'])
      | _, args => do
        match ← formatPrintf vsnprintf (d :: c) args s with
        | some (s, c, args) => formatLoop fuel c args s
        | none => return none

/-- The loop of `intlen`. An `int` has at most ten digits. -/
def intlenLoop : Nat → Int32 → Nat → Nat
  | 0, _, len => len
  | fuel + 1, i, len => if i / 10 = 0 then len + 1 else intlenLoop fuel (i / 10) (len + 1)

def intlen (i : Int32) : Nat := if i < 0 then intlenLoop 10 (-i) 1 else intlenLoop 10 i 0

/-- The length of a word in the request. The conversion of the sum to `size_t` is undone by
the caller. -/
def bulklen (len : Nat) : Int32 :=
  1 + Int32.ofNat (intlen (Int32.ofNat len)) + 2 + Int32.ofNat len + 2

/-- A word in the request. -/
def bulkText (arg : StdString) : StdString :=
  '$' :: numberText arg.length ++ crlf ++ arg ++ crlf

/-- The request for a list of arguments in the protocol of the server: their number, and
each one with its length in front. -/
def requestText (argv : List StdString) : StdString :=
  '*' :: numberText argv.length ++ crlf ++ argv.flatMap bulkText

/-- The length of the request as the functions that format compute it, in either order. -/
def totlen (argv : List StdString) : Int32 :=
  argv.foldl (fun totlen arg => totlen + bulklen arg.length)
    (1 + Int32.ofNat (intlen (Int32.ofNat argv.length)) + 2)

/-- The common end of the functions that format. `none` is the result `-1`: a negative length
is more than `malloc` can give. The request and its terminator are written into the block
of `totlen + 1` characters, and `pos` has counted them. -/
def buildCommand (argv : List StdString) : Except FormatFault (Option StdString) :=
  let totlen := totlen argv
  let cmd := requestText argv
  if totlen + 1 < 0 then .ok none
  else if totlen.toNatClampNeg < cmd.length then .error .overrun
  else if Int32.ofNat cmd.length = totlen then .ok (some cmd)
  else .error .assertion

def redisFormatCommandArgv (argv : List StdString) : Except FormatFault (Option StdString) :=
  buildCommand argv

/-- `none` is the result `-1`. -/
def redisvFormatCommand (format : StdString) (args : List FormatArg) :
    Except FormatFault (Option StdString) := do
  match ← formatLoop vsnprintf format.length format args .start with
  | some s => buildCommand s.space.curargv
  | none => return none

end Format

theorem intlenLoop_eq {fuel i : Nat} (enough : (numberText i).length ≤ fuel) (small : i < 2 ^ 31)
    (len : Nat) : intlenLoop fuel (Int32.ofNat i) len = (numberText i).length + len := by
  induction fuel generalizing i len with
  | zero => simp [numberText] at enough
  | succ fuel ih =>
      have tenth : Int32.ofNat i / 10 = Int32.ofNat (i / 10) := by
        apply Int32.toInt_inj.mp
        rw [Int32.toInt_div, Int32.toInt_ofNat_of_lt small, Int32.toInt_ofNat_of_lt (by omega),
          show (10 : Int32).toInt = 10 from rfl, Int.tdiv_eq_ediv_of_nonneg (by omega)]
        exact Int.bmod_eq_of_le (by omega) (by omega)
      rw [intlenLoop, tenth]
      by_cases last : i < 10
      · rw [show i / 10 = 0 by omega, if_pos (show Int32.ofNat 0 = 0 from rfl),
          numberText_of_lt last, List.length_singleton,
          Nat.add_comm]
      · have more : Int32.ofNat (i / 10) ≠ 0 := by
          rw [Ne, ← Int32.toInt_inj, Int32.toInt_ofNat_of_lt (by omega)]
          simp only [Int32.toInt_zero]
          omega
        rw [numberText_of_le (by omega), List.length_append, List.length_singleton] at enough ⊢
        rw [if_neg more, ih (by omega) (by omega)]
        omega

theorem intlen_eq {i : Nat} (small : i < 2 ^ 31) :
    intlen (Int32.ofNat i) = (numberText i).length := by
  have nonneg : ¬Int32.ofNat i < 0 := by
    rw [Int32.lt_iff_toInt_lt, Int32.toInt_ofNat_of_lt small]
    simp only [Int32.toInt_zero]
    omega
  rw [intlen, if_neg nonneg]
  exact intlenLoop_eq (length_numberText_le (by omega)) small 0

theorem length_bulkText (arg : StdString) :
    (bulkText arg).length = 1 + (numberText arg.length).length + 2 + arg.length + 2 := by
  simp only [bulkText, crlf, List.length_append, List.length_cons, List.length_nil]
  omega

theorem length_requestText (argv : List StdString) :
    (requestText argv).length =
      1 + (numberText argv.length).length + 2 + (argv.flatMap bulkText).length := by
  simp only [requestText, crlf, List.length_append, List.length_cons, List.length_nil]
  omega

theorem length_le_flatMap_bulkText (argv : List StdString) :
    argv.length ≤ (argv.flatMap bulkText).length := by
  induction argv with
  | nil => exact Nat.le_refl _
  | cons arg argv ih =>
      rw [List.flatMap_cons, List.length_append, length_bulkText, List.length_cons]
      omega

/-- An `int` can hold the length of the request with its terminator, so that none of the
lengths that the code computes on the way wraps. -/
def RequestFits (argv : List StdString) : Prop := (requestText argv).length < 2 ^ 31 - 1

instance (argv : List StdString) : Decidable (RequestFits argv) :=
  inferInstanceAs (Decidable (_ < _))

/-- The sum over the words, whatever has been counted before. -/
theorem foldl_bulklen {argv : List StdString} (words : (argv.flatMap bulkText).length < 2 ^ 31)
    (n : Nat) :
    argv.foldl (fun totlen arg => totlen + bulklen arg.length) (Int32.ofNat n) =
      Int32.ofNat (n + (argv.flatMap bulkText).length) := by
  induction argv generalizing n with
  | nil => rfl
  | cons arg argv ih =>
      rw [List.flatMap_cons, List.length_append] at words
      have word := length_bulkText arg
      have here : bulklen arg.length = Int32.ofNat (bulkText arg).length := by
        rw [bulklen, intlen_eq (by omega), word]
        simp only [Int32.ofNat_add]
        rfl
      rw [List.foldl_cons, here, ← Int32.ofNat_add, ih (by omega), List.flatMap_cons,
        List.length_append, Nat.add_assoc]

theorem totlen_eq {argv : List StdString} (fits : RequestFits argv) :
    totlen argv = Int32.ofNat (requestText argv).length := by
  have total := length_requestText argv
  have count := length_le_flatMap_bulkText argv
  rw [RequestFits] at fits
  have front : 1 + Int32.ofNat (intlen (Int32.ofNat argv.length)) + 2 =
      Int32.ofNat (1 + (numberText argv.length).length + 2) := by
    rw [intlen_eq (by omega)]
    simp only [Int32.ofNat_add]
    rfl
  rw [totlen, front, foldl_bulklen (by omega), total]

/-- The request is built, and the assertion holds. -/
theorem buildCommand_eq {argv : List StdString} (fits : RequestFits argv) :
    buildCommand argv = .ok (some (requestText argv)) := by
  have total := totlen_eq fits
  rw [RequestFits] at fits
  have block : ¬totlen argv + 1 < 0 := by
    rw [total, show (1 : Int32) = Int32.ofNat 1 from rfl, ← Int32.ofNat_add,
      Int32.lt_iff_toInt_lt, Int32.toInt_ofNat_of_lt (by omega)]
    simp only [Int32.toInt_zero]
    omega
  have room : ¬(totlen argv).toNatClampNeg < (requestText argv).length := by
    rw [total, Int32.toNatClampNeg_ofNat_of_lt (by omega)]
    exact Nat.lt_irrefl _
  simp only [buildCommand, if_neg block, if_neg room, if_pos total.symm]

/-- The elements of a format without `printf` conversions, with their arguments. -/
inductive FormatElement where
  | char (c : Char)
  | s (arg : StdString)
  | b (arg : StdString)
  | percent
  deriving DecidableEq

namespace FormatElement

/-- How the element is written in a format. -/
def text : FormatElement → StdString
  | .char c => [c]
  | .s _ => ['%', 's']
  | .b _ => ['%', 'b']
  | .percent => ['%', '%']

/-- The argument that the caller passes for it. -/
def arg? : FormatElement → Option FormatArg
  | .s arg => some (.str arg)
  | .b arg => some (.bytes arg)
  | _ => none

/-- What goes into the command. -/
def value : FormatElement → StdString
  | .char c => [c]
  | .s arg => arg
  | .b arg => arg
  | .percent => ['%']

/-- A character of a format stands for itself: it is not the one that begins a
conversion. -/
def Plain : FormatElement → Prop
  | .char c => c ≠ '%'
  | _ => True

def isSpace (e : FormatElement) : Bool := e = .char ' '

end FormatElement

/-- The words of a format: it is cut at its own spaces, and not at those of the arguments. -/
def formatWords (elements : List FormatElement) : List StdString :=
  ((elements.splitOnP FormatElement.isSpace).filter (· ≠ [])).map fun word =>
    word.flatMap FormatElement.value

namespace FormatState

/-- What one element of the format does. -/
def add (s : FormatState) (e : FormatElement) : FormatState :=
  if e.isSpace then s.space else s.touch e.value

/-- A word that has been begun is continued by the first group up to a space. -/
theorem space_foldl_add (elements : List FormatElement) {s : FormatState}
    (untouched : s.touched = false → s.curarg = []) :
    ∃ word words, elements.splitOnP FormatElement.isSpace = word :: words ∧
      (elements.foldl add s).space.curargv = s.curargv ++
        ((if s.touched ∨ word ≠ [] then [s.curarg ++ word.flatMap FormatElement.value] else []) ++
          (words.filter (· ≠ [])).map fun word => word.flatMap FormatElement.value) := by
  induction elements generalizing s with
  | nil =>
      refine ⟨[], [], rfl, ?_⟩
      by_cases touched : s.touched <;> simp [space, touched]
  | cons e elements ih =>
      rw [List.foldl_cons, List.splitOnP_cons_eq_if_modifyHead]
      by_cases blank : e.isSpace
      · have clean : s.space.touched = false ∧ s.space.curarg = [] := by
          by_cases touched : s.touched
          · simp [space, touched]
          · have := untouched (by simpa using touched)
            simp [space, touched, this]
        obtain ⟨word, words, split, result⟩ := ih (s := s.space) fun _ => clean.2
        refine ⟨[], word :: words, by rw [if_pos blank, split], ?_⟩
        rw [add, if_pos blank, result, clean.1, clean.2]
        by_cases touched : s.touched <;> by_cases empty : word = [] <;>
          simp [space, touched, empty]
      · obtain ⟨word, words, split, result⟩ := ih (s := s.touch e.value) (by simp [touch])
        refine ⟨e :: word, words, by rw [if_neg blank, split]; rfl, ?_⟩
        rw [add, if_neg blank, result]
        simp [touch]

end FormatState

theorem curargv_formatWords (elements : List FormatElement) :
    (elements.foldl FormatState.add .start).space.curargv = formatWords elements := by
  obtain ⟨word, words, split, result⟩ :=
    FormatState.space_foldl_add elements (s := .start) fun _ => rfl
  rw [result, formatWords, split]
  by_cases empty : word = [] <;> simp [FormatState.start, empty]

section Words

variable {vsnprintf : StdString → FormatArg → StdString}

theorem formatLoop_literal {d : Char} (literal : d ≠ '%') (fuel : Nat) (c : StdString)
    (args : List FormatArg) (s : FormatState) :
    formatLoop vsnprintf (fuel + 1) (d :: c) args s =
      formatLoop vsnprintf fuel c args (if d = ' ' then s.space else s.touch [d]) :=
  if_pos (.inl literal)

theorem formatLoop_s (fuel : Nat) (c arg : StdString) (args : List FormatArg) (s : FormatState) :
    formatLoop vsnprintf (fuel + 1) ('%' :: 's' :: c) (.str arg :: args) s =
      formatLoop vsnprintf fuel c args (s.touch arg) := rfl

theorem formatLoop_b (fuel : Nat) (c arg : StdString) (args : List FormatArg) (s : FormatState) :
    formatLoop vsnprintf (fuel + 1) ('%' :: 'b' :: c) (.bytes arg :: args) s =
      formatLoop vsnprintf fuel c args (s.touch arg) := rfl

theorem formatLoop_percent (fuel : Nat) (c : StdString) (args : List FormatArg) (s : FormatState) :
    formatLoop vsnprintf (fuel + 1) ('%' :: '%' :: c) args s =
      formatLoop vsnprintf fuel c args (s.touch ['%']) := rfl

theorem formatLoop_elements {elements : List FormatElement} (plain : ∀ e ∈ elements, e.Plain)
    {fuel : Nat} (enough : (elements.flatMap FormatElement.text).length ≤ fuel) (s : FormatState) :
    formatLoop vsnprintf fuel (elements.flatMap FormatElement.text)
        (elements.filterMap FormatElement.arg?) s =
      .ok (some (elements.foldl FormatState.add s)) := by
  induction elements generalizing fuel s with
  | nil => cases fuel <;> rfl
  | cons e elements ih =>
      have rest : ∀ e ∈ elements, e.Plain := fun e he => plain e (List.mem_cons_of_mem _ he)
      have here : 0 < e.text.length := by cases e <;> simp [FormatElement.text]
      rw [List.flatMap_cons, List.length_append] at enough
      obtain ⟨fuel, rfl⟩ : ∃ k, fuel = k + 1 := ⟨fuel - 1, by omega⟩
      have later := ih rest (by omega : _ ≤ fuel) (s.add e)
      rw [List.flatMap_cons, List.foldl_cons, ← later]
      cases e with
      | char c =>
          have added : s.add (.char c) = if c = ' ' then s.space else s.touch [c] := by
            simp [FormatState.add, FormatElement.isSpace, FormatElement.value]
          rw [added]
          exact formatLoop_literal (plain (.char c) (by simp)) fuel _ _ s
      | s arg => exact formatLoop_s fuel _ arg _ s
      | b arg => exact formatLoop_b fuel _ arg _ s
      | percent => exact formatLoop_percent fuel _ _ s

/-- The request of a format has the words of the format with the arguments in them, if
it is short enough for the `int` of its length. A value is never split, and the length
that was computed beforehand is that of the request. -/
theorem redisvFormatCommand_elements {elements : List FormatElement}
    (plain : ∀ e ∈ elements, e.Plain) (fits : RequestFits (formatWords elements)) :
    redisvFormatCommand vsnprintf (elements.flatMap FormatElement.text)
        (elements.filterMap FormatElement.arg?) =
      .ok (some (requestText (formatWords elements))) := by
  rw [redisvFormatCommand, formatLoop_elements plain (Nat.le_refl _)]
  have built : buildCommand (elements.foldl FormatState.add .start).space.curargv =
      .ok (some (requestText (formatWords elements))) := by
    rw [curargv_formatWords, buildCommand_eq fits]
  simp [bind, Except.bind, built]

/-- `SET k%s %b`, with a space in the first argument and a zero in the second one. -/
def setFormat : List FormatElement :=
  [.char 'S', .char 'E', .char 'T', .char ' ', .char 'k', .s ['a', ' ', 'b'], .char ' ',
    .b ['\x00', '\r', '\n']]

theorem redisvFormatCommand_elements_set :
    redisvFormatCommand (fun format _ => format)
        ['S', 'E', 'T', ' ', 'k', '%', 's', ' ', '%', 'b']
        [.str ['a', ' ', 'b'], .bytes ['\x00', '\r', '\n']] =
      .ok (some (requestText
        [['S', 'E', 'T'], ['k', 'a', ' ', 'b'], ['\x00', '\r', '\n']])) := by
  have words : formatWords setFormat =
      [['S', 'E', 'T'], ['k', 'a', ' ', 'b'], ['\x00', '\r', '\n']] := rfl
  have plain : ∀ e ∈ setFormat, e.Plain := by simp [setFormat, FormatElement.Plain]
  have fits : RequestFits (formatWords setFormat) := by
    rw [words]
    decide
  have built : redisvFormatCommand (fun format _ => format)
      (setFormat.flatMap FormatElement.text) (setFormat.filterMap FormatElement.arg?) = _ :=
    redisvFormatCommand_elements plain fits
  rw [words] at built
  exact built

end Words

end CtpTrade
