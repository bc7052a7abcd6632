import CtpTrade.Platform

/-!
# Quoted arguments

`sdscatrepr` writes a string in double quotes, with escapes for what cannot be printed,
and `sdssplitargs` splits a line into arguments, which can be quoted. What the one
writes the other reads back, for all strings of bytes.
-/

namespace CtpTrade

/-- `%02x` of a byte -/
def hexByte (byte : Nat) : StdString := [Nat.digitChar (byte / 16 % 16), Nat.digitChar (byte % 16)]

def isPrint (c : Char) : Bool := 32 ≤ c.toNat && c.toNat < 127

/-- One round of `sdscatrepr` -/
def reprChar (c : Char) : StdString :=
  if c = '\\' ∨ c = '"' then ['\\', c]
  else if c = '\n' then ['\\', 'n']
  else if c = '\r' then ['\\', 'r']
  else if c = '\t' then ['\\', 't']
  else if c = '\x07' then ['\\', 'a']
  else if c = '\x08' then ['\\', 'b']
  else if isPrint c then [c]
  else '\\' :: 'x' :: hexByte c.toNat

def sdscatrepr (s p : StdString) : StdString := s ++ '"' :: p.flatMap reprChar ++ ['"']

def isHexDigit (c : Char) : Bool :=
  c.isDigit || ('a' ≤ c && c ≤ 'f') || ('A' ≤ c && c ≤ 'F')

def hexDigitToInt (c : Char) : Nat :=
  if c.isDigit then c.toNat - '0'.toNat
  else if 'a' ≤ c && c ≤ 'f' then c.toNat - 'a'.toNat + 10
  else if 'A' ≤ c && c ≤ 'F' then c.toNat - 'A'.toNat + 10
  else 0

/-- The character that a backslash escapes. -/
def unescape (c : Char) : Char :=
  match c with
  | 'n' => '\n'
  | 'r' => '\r'
  | 't' => '\t'
  | 'b' => '\x08'
  | 'a' => '\x07'
  | c => c

/-- `inq` and `insq` -/
inductive Quoting where
  | plain
  | double
  | single
  deriving DecidableEq

/-- A closing quote must be followed by a space or nothing at all. -/
def closes (behind : StdString) : Bool := behind.head?.all isSpace

/-- One token: what it stands for and the line behind it, `none` for `goto err`. -/
def getToken (quoting : Quoting) (current : StdString) : StdString → Option (StdString × StdString)
  | [] => if quoting = .plain then some (current, []) else none
  | c :: p =>
    match quoting with
    | .plain =>
      if c = ' ' ∨ c = '\n' ∨ c = '\r' ∨ c = '\t' then some (current, p)
      else if c = '"' then getToken .double current p
      else if c = '\'' then getToken .single current p
      else getToken .plain (current ++ [c]) p
    | .single =>
      if c = '\'' then if closes p then some (current, p) else none
      else match p with
        | d :: rest =>
          if c = '\\' ∧ d = '\'' then getToken .single (current ++ ['\'']) rest
          else getToken .single (current ++ [c]) (d :: rest)
        | [] => getToken .single (current ++ [c]) []
    | .double =>
      if c = '"' then if closes p then some (current, p) else none
      else if c ≠ '\\' then getToken .double (current ++ [c]) p
      else match p with
        | d :: high :: low :: rest =>
          if d = 'x' ∧ isHexDigit high ∧ isHexDigit low then
            getToken .double
              (current ++ [Char.ofNat (hexDigitToInt high * 16 + hexDigitToInt low)]) rest
          else getToken .double (current ++ [unescape d]) (high :: low :: rest)
        | d :: rest => getToken .double (current ++ [unescape d]) rest
        | [] => getToken .double (current ++ [c]) []

/-- The loop over the tokens. Every token takes a character away. -/
def splitTokens : Nat → StdString → Option (List StdString)
  | 0, _ => some []
  | fuel + 1, line =>
    match line.dropWhile isSpace with
    | [] => some []
    | c :: p => do
      let (token, rest) ← getToken .plain [] (c :: p)
      return token :: (← splitTokens fuel rest)

/-- `none` stands for `NULL`. The line ends at its first zero byte. -/
def sdssplitargs (line : StdString) : Option (List StdString) :=
  let line := line.takeWhile (· ≠ '\x00')
  splitTokens line.length line

theorem getToken_escape {d : Char} (plain : d ≠ 'x') (current tail : StdString) :
    getToken .double current ('\\' :: d :: tail) =
      getToken .double (current ++ [unescape d]) tail := by
  match tail with
  | [] => simp [getToken]
  | [high] => simp [getToken]
  | high :: low :: rest => simp [getToken, plain]

theorem getToken_hex {high low : Char} (hh : isHexDigit high = true) (hl : isHexDigit low = true)
    (current tail : StdString) :
    getToken .double current ('\\' :: 'x' :: high :: low :: tail) =
      getToken .double (current ++ [Char.ofNat (hexDigitToInt high * 16 + hexDigitToInt low)])
        tail := by
  simp [getToken, hh, hl]

theorem getToken_literal {c : Char} (quote : c ≠ '"') (backslash : c ≠ '\\')
    (current tail : StdString) :
    getToken .double current (c :: tail) = getToken .double (current ++ [c]) tail := by
  rw [getToken.eq_def]
  simp [quote, backslash]

theorem hexDigit_digitChar : ∀ d < 16,
    isHexDigit (Nat.digitChar d) = true ∧ hexDigitToInt (Nat.digitChar d) = d := by
  decide

/-- The escape of a character stands for the character. -/
theorem getToken_reprChar {c : Char} (byte : c.toNat < 256) (current tail : StdString) :
    getToken .double current (reprChar c ++ tail) = getToken .double (current ++ [c]) tail := by
  rw [reprChar]
  split_ifs with quoted newline return_ tab bell backspace print
  · have same : unescape c = c := by obtain rfl | rfl := quoted <;> rfl
    have plain : c ≠ 'x' := by obtain rfl | rfl := quoted <;> decide
    rw [List.cons_append, List.singleton_append, getToken_escape plain, same]
  · rw [newline]
    exact getToken_escape (by decide) _ _
  · rw [return_]
    exact getToken_escape (by decide) _ _
  · rw [tab]
    exact getToken_escape (by decide) _ _
  · rw [bell]
    exact getToken_escape (by decide) _ _
  · rw [backspace]
    exact getToken_escape (by decide) _ _
  · rw [List.singleton_append]
    exact getToken_literal (fun h => quoted (.inr h)) (fun h => quoted (.inl h)) _ _
  · obtain ⟨hh, high⟩ := hexDigit_digitChar (c.toNat / 16 % 16) (by omega)
    obtain ⟨hl, low⟩ := hexDigit_digitChar (c.toNat % 16) (by omega)
    have value : c.toNat / 16 % 16 * 16 + c.toNat % 16 = c.toNat := by omega
    rw [hexByte, List.cons_append, List.cons_append, List.cons_append, List.singleton_append,
      getToken_hex hh hl, high, low, value, Char.ofNat_toNat]

theorem getToken_repr {s : StdString} (bytes : ∀ c ∈ s, c.toNat < 256) (current : StdString)
    {rest : StdString} (closed : closes rest = true) :
    getToken .double current (s.flatMap reprChar ++ '"' :: rest) = some (current ++ s, rest) := by
  induction s generalizing current with
  | nil =>
      rw [List.flatMap_nil, List.nil_append, getToken.eq_def]
      simp [closed]
  | cons c s ih =>
      obtain ⟨byte, bytes⟩ := List.forall_mem_cons.mp bytes
      rw [List.flatMap_cons, List.append_assoc, getToken_reprChar byte, ih bytes]
      simp

/-- A line of arguments in quotes, with a space between any two of them. -/
def quotedLine : List StdString → StdString
  | [] => []
  | [arg] => sdscatrepr [] arg
  | arg :: args => sdscatrepr [] arg ++ ' ' :: quotedLine args

theorem closes_quoted (args : List StdString) :
    closes (if args = [] then [] else ' ' :: quotedLine args) = true := by
  split_ifs <;> rfl

theorem quotedLine_cons (arg : StdString) (args : List StdString) :
    quotedLine (arg :: args) =
      '"' :: (arg.flatMap reprChar ++ '"' :: if args = [] then [] else ' ' :: quotedLine args) := by
  cases args with
  | nil => simp [quotedLine, sdscatrepr]
  | cons b args => simp [quotedLine, sdscatrepr]

theorem splitTokens_quotedLine {args : List StdString}
    (bytes : ∀ arg ∈ args, ∀ c ∈ arg, c.toNat < 256) {fuel : Nat} (enough : args.length ≤ fuel) :
    splitTokens fuel (quotedLine args) = some args ∧
      splitTokens fuel (if args = [] then [] else ' ' :: quotedLine args) = some args := by
  induction args generalizing fuel with
  | nil => cases fuel <;> exact ⟨rfl, rfl⟩
  | cons arg args ih =>
      obtain ⟨here, later⟩ := List.forall_mem_cons.mp bytes
      obtain ⟨fuel, rfl⟩ : ∃ k, fuel = k + 1 := ⟨fuel - 1, by simp at enough; omega⟩
      have rest := (ih later (by simpa using enough : args.length ≤ fuel)).2
      have token (blanks : StdString) (hb : ∀ c ∈ blanks, isSpace c = true) :
          splitTokens (fuel + 1) (blanks ++ quotedLine (arg :: args)) = some (arg :: args) := by
        have skipped : (blanks ++ quotedLine (arg :: args)).dropWhile isSpace =
            quotedLine (arg :: args) := by
          rw [List.dropWhile_append_of_pos hb, quotedLine_cons,
            List.dropWhile_cons_of_neg (by decide)]
        have first : getToken .plain [] (quotedLine (arg :: args)) =
            some (arg, if args = [] then [] else ' ' :: quotedLine args) := by
          rw [quotedLine_cons]
          exact getToken_repr here [] (closes_quoted args)
        rw [splitTokens, skipped]
        rw [quotedLine_cons] at first ⊢
        simp only [first]
        simp [rest]
      refine ⟨token [] (by simp), ?_⟩
      rw [if_neg (by simp)]
      exact token [' '] (List.forall_mem_singleton.mpr rfl)

theorem zero_not_mem_reprChar (c : Char) : '\x00' ∉ reprChar c := by
  have digit : ∀ d < 16, Nat.digitChar d ≠ '\x00' := by decide
  rw [reprChar]
  split_ifs with quoted newline return_ tab bell backspace print
  · obtain rfl | rfl := quoted <;> decide
  · decide
  · decide
  · decide
  · decide
  · decide
  · intro mem
    rw [← List.mem_singleton.mp mem] at print
    simp [isPrint] at print
  · simp only [hexByte, List.mem_cons, List.not_mem_nil, or_false, not_or]
    exact ⟨by decide, by decide, (digit _ (by omega)).symm, (digit _ (by omega)).symm⟩

theorem zero_not_mem_quotedLine (args : List StdString) : '\x00' ∉ quotedLine args := by
  induction args with
  | nil => simp [quotedLine]
  | cons arg args ih =>
      have here : '\x00' ∉ arg.flatMap reprChar := by
        intro mem
        obtain ⟨c, -, hc⟩ := List.mem_flatMap.mp mem
        exact zero_not_mem_reprChar c hc
      rw [quotedLine_cons]
      split_ifs <;> simp [here, ih]

theorem length_le_quotedLine (args : List StdString) :
    args.length ≤ (quotedLine args).length := by
  induction args with
  | nil => exact Nat.zero_le _
  | cons arg args ih =>
      rw [quotedLine_cons]
      split_ifs with empty
      · simp [empty]
      · simp only [List.length_cons, List.length_append]
        omega

/-- Arguments that are written in quotes by `sdscatrepr`, with blanks between them, are
read back by `sdssplitargs`, whatever bytes they have: spaces, quotes, backslashes, line
ends or zeros do not split or cut them. -/
theorem sdssplitargs_quotedLine {args : List StdString}
    (bytes : ∀ arg ∈ args, ∀ c ∈ arg, c.toNat < 256) :
    sdssplitargs (quotedLine args) = some args := by
  have whole : (quotedLine args).takeWhile (· ≠ '\x00') = quotedLine args := by
    rw [List.takeWhile_eq_self_iff]
    intro c hc
    exact decide_eq_true (ne_of_mem_of_not_mem hc (zero_not_mem_quotedLine args))
  rw [sdssplitargs, whole]
  exact (splitTokens_quotedLine bytes (length_le_quotedLine args)).1

/-- A space, a quote, a zero byte and an empty argument. -/
theorem sdssplitargs_quotedLine_set :
    sdssplitargs (quotedLine ["SET".toList, "a \"b".toList, ['\x00', '\n', '\\'], []]) =
      some ["SET".toList, "a \"b".toList, ['\x00', '\n', '\\'], []] :=
  sdssplitargs_quotedLine (by simp)

end CtpTrade
