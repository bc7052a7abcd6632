import CtpTrade.Platform

/-!
# The replies of the redis server

A command answers by a sequence of `addReply` calls, each of which appends text to the
output of the client. `RedisAnswer` is what a command can answer with, and
`RedisAnswer.text` the text that the calls for it append.

`ll2string` writes a number from its end, two digits at a time. It writes what the plain
decimal printing does.
-/

namespace CtpTrade

def crlf : StdString := ['\r', '\n']

/-- Two characters of the table `digits`. -/
def twoDigits (i : Nat) : StdString := [Nat.digitChar (i / 10), Nat.digitChar (i % 10)]

/-- The loop of `ll2string`. Ten rounds are enough for 64 bits. -/
def ll2stringLoop : Nat → Nat → StdString → StdString
  | 0, _, dst => dst
  | fuel + 1, value, dst =>
    if 100 ≤ value then ll2stringLoop fuel (value / 100) (twoDigits (value % 100) ++ dst)
    else if value < 10 then Nat.digitChar value :: dst
    else twoDigits value ++ dst

def ll2string (svalue : Int64) : StdString :=
  let digits := ll2stringLoop 10 svalue.toInt.natAbs []
  if svalue < 0 then '-' :: digits else digits

theorem numberText_of_lt {n : Nat} (h : n < 10) : numberText n = [Nat.digitChar n] := by
  rw [numberText, Nat.log_of_lt h]
  simp [paddedText, decimalDigits, Nat.mod_eq_of_lt h]

theorem numberText_of_le {n : Nat} (h : 10 ≤ n) :
    numberText n = numberText (n / 10) ++ [Nat.digitChar (n % 10)] := by
  have positive : 0 < Nat.log 10 n := Nat.log_pos (by decide) h
  have shorter : Nat.log 10 (n / 10) + 1 = Nat.log 10 n := by
    rw [Nat.log_div_base]
    omega
  rw [numberText, numberText, ← shorter]
  simp [paddedText, decimalDigits]

theorem exists_digit (n : Nat) :
    ∃ c s, numberText n = c :: s ∧ c.isDigit = true := by
  have some : numberText n ≠ [] := by
    rw [← List.length_pos_iff, numberText, length_paddedText]
    exact Nat.succ_pos _
  obtain ⟨c, s, hc⟩ := List.exists_cons_of_ne_nil some
  have digit : c.isDigit = true := by
    apply isDigit_of_mem_paddedText c
    rw [← numberText, hc]
    exact List.mem_cons_self ..
  exact ⟨c, s, hc, digit⟩

theorem length_numberText_le {n k : Nat} (h : n < 10 ^ (k + 1)) :
    (numberText n).length ≤ k + 1 := by
  have := Nat.log_lt_of_lt_pow' (Nat.succ_ne_zero k) h
  rw [numberText, length_paddedText]
  omega

theorem twoDigits_eq {n : Nat} (low : 10 ≤ n) (high : n < 100) : twoDigits n = numberText n := by
  rw [numberText_of_le low, numberText_of_lt (by omega)]
  rfl

theorem ll2stringLoop_eq {fuel value : Nat} (enough : value < 100 ^ fuel) (some : 0 < fuel)
    (dst : StdString) : ll2stringLoop fuel value dst = numberText value ++ dst := by
  induction fuel generalizing value dst with
  | zero => omega
  | succ fuel ih =>
      rw [ll2stringLoop]
      split_ifs with more single
      · have smaller : value / 100 < 100 ^ fuel := by
          rw [Nat.pow_succ] at enough
          omega
        have positive : 0 < fuel := by
          by_contra none
          obtain rfl : fuel = 0 := by omega
          simp at enough
          omega
        have split : numberText value = numberText (value / 100) ++ twoDigits (value % 100) := by
          rw [numberText_of_le (by omega), numberText_of_le (n := value / 10) (by omega),
            Nat.div_div_eq_div_mul, List.append_assoc, twoDigits,
            show value / 10 % 10 = value % 100 / 10 by omega,
            show value % 10 = value % 100 % 10 by omega]
          rfl
        rw [ih smaller positive, split, List.append_assoc]
      · rw [numberText_of_lt single]
        rfl
      · rw [twoDigits_eq (by omega) (by omega)]

/-- Two digits at a time or one: the text of the number is the same. -/
theorem ll2string_eq (svalue : Int64) : ll2string svalue = intText svalue.toInt := by
  have enough : svalue.toInt.natAbs < 100 ^ 10 := by
    have low := svalue.le_toInt
    have high := svalue.toInt_lt
    omega
  have sign : svalue < 0 ↔ svalue.toInt < 0 := Int64.lt_iff_toInt_lt
  rw [ll2string, ll2stringLoop_eq enough (by decide), List.append_nil, intText]
  simp only [sign]

/-- `REDIS_SHARED_BULKHDR_LEN` -/
def sharedBulkhdrLen : Int := 32

/-- `shared.mbulkhdr` and `shared.bulkhdr` -/
def sharedHeader (p : Char) (j : Int) : StdString := p :: intText j ++ crlf

/-- `addReplyLongLongWithPrefix`. The callers pass no negative length. -/
def addReplyLongLongWith (ll : Int64) (p : Char) : StdString :=
  if p = '*' ∧ ll.toInt < sharedBulkhdrLen then sharedHeader '*' ll.toInt
  else if p = '$' ∧ ll.toInt < sharedBulkhdrLen then sharedHeader '$' ll.toInt
  else p :: ll2string ll ++ crlf

def addReplyLongLong (ll : Int64) : StdString :=
  if ll = 0 then ":0\r\n".toList
  else if ll = 1 then ":1\r\n".toList
  else addReplyLongLongWith ll ':'

def addReplyMultiBulkLen (length : Int64) : StdString :=
  if length.toInt < sharedBulkhdrLen then sharedHeader '*' length.toInt
  else addReplyLongLongWith length '*'

/-- A `robj` that holds a string, as text or, where the server has found it to be a
number, as an integer. -/
inductive Robj where
  | raw (ptr : StdString)
  | int (ptr : Int64)

/-- The string that the object holds. -/
def Robj.text : Robj → StdString
  | .raw ptr => ptr
  | .int ptr => intText ptr.toInt

/-- `addReply` of an object -/
def addReply : Robj → StdString
  | .raw ptr => ptr
  | .int ptr => ll2string ptr

/-- The loop of `addReplyBulkLen`, on the magnitude of `n`. -/
def addReplyBulkLenLoop : Nat → Nat → Nat → Nat
  | 0, _, len => len
  | fuel + 1, n, len =>
    if n / 10 = 0 then len else addReplyBulkLenLoop fuel (n / 10) (len + 1)

def addReplyBulkLen (obj : Robj) : StdString :=
  let len : Nat := match obj with
    | .raw ptr => ptr.length
    | .int ptr => addReplyBulkLenLoop 20 ptr.toInt.natAbs (if ptr < 0 then 2 else 1)
  if len < 32 then sharedHeader '$' len else addReplyLongLongWith (Int64.ofNat len) '$'

def addReplyBulk (obj : Robj) : StdString := addReplyBulkLen obj ++ addReply obj ++ crlf

def addReplyBulkCBuffer (p : StdString) : StdString :=
  addReplyLongLongWith (Int64.ofNat p.length) '$' ++ p ++ crlf

def addReplyStatus (status : StdString) : StdString := '+' :: status ++ crlf

/-- `addReplyErrorLength` -/
def addReplyError (err : StdString) : StdString := "-ERR ".toList ++ err ++ crlf

/-- The shared texts do not differ from the ones that are made. -/
theorem addReplyLongLongWith_eq (ll : Int64) (p : Char) :
    addReplyLongLongWith ll p = p :: intText ll.toInt ++ crlf := by
  rw [addReplyLongLongWith, ll2string_eq]
  split_ifs with star dollar
  · rw [star.1, sharedHeader]
  · rw [dollar.1, sharedHeader]
  · rfl

theorem addReplyLongLong_eq (ll : Int64) :
    addReplyLongLong ll = ':' :: intText ll.toInt ++ crlf := by
  rw [addReplyLongLong, addReplyLongLongWith_eq]
  split_ifs with zero one
  · rw [zero]
    decide
  · rw [one]
    decide
  · rfl

theorem addReplyMultiBulkLen_eq (length : Int64) :
    addReplyMultiBulkLen length = '*' :: intText length.toInt ++ crlf := by
  rw [addReplyMultiBulkLen, addReplyLongLongWith_eq, sharedHeader]
  split_ifs <;> rfl

theorem addReplyBulkLenLoop_eq {fuel n : Nat} (enough : (numberText n).length ≤ fuel) (len : Nat) :
    addReplyBulkLenLoop fuel n len + 1 = (numberText n).length + len := by
  induction fuel generalizing n len with
  | zero => simp [numberText] at enough
  | succ fuel ih =>
      rw [addReplyBulkLenLoop]
      by_cases last : n < 10
      · rw [if_pos (by omega), numberText_of_lt last, List.length_singleton, Nat.add_comm]
      · rw [numberText_of_le (by omega), List.length_append, List.length_singleton] at enough ⊢
        rw [if_neg (by omega), ih (by omega)]
        omega

theorem addReply_eq (obj : Robj) : addReply obj = obj.text := by
  cases obj with
  | raw ptr => rfl
  | int ptr => exact ll2string_eq ptr

theorem length_toInt {n : Nat} (h : n < 2 ^ 63) : (Int64.ofNat n).toInt = n :=
  Int64.toInt_ofNat_of_lt h

/-- Both encodings of a string are sent in the same way. -/
theorem addReplyBulk_eq {obj : Robj} (short : obj.text.length < 2 ^ 63) :
    addReplyBulk obj = '$' :: numberText obj.text.length ++ crlf ++ obj.text ++ crlf := by
  have header (n : Nat) (hn : n < 2 ^ 63) :
      (if n < 32 then sharedHeader '$' n else addReplyLongLongWith (Int64.ofNat n) '$') =
        '$' :: numberText n ++ crlf := by
    have plain : intText (n : Int) = numberText n := by simp [intText]
    rw [addReplyLongLongWith_eq, sharedHeader, length_toInt hn, plain]
    split_ifs <;> rfl
  have len : addReplyBulkLen obj = '$' :: numberText obj.text.length ++ crlf := by
    cases obj with
    | raw ptr => exact header _ short
    | int ptr =>
        have enough : ptr.toInt.natAbs < 10 ^ 20 := by
          have low := ptr.le_toInt
          have high := ptr.toInt_lt
          omega
        have sign : ptr < 0 ↔ ptr.toInt < 0 := Int64.lt_iff_toInt_lt
        have digits : addReplyBulkLenLoop 20 ptr.toInt.natAbs (if ptr < 0 then 2 else 1) =
            (Robj.int ptr).text.length := by
          have counted : addReplyBulkLenLoop 20 _ _ + 1 = _ :=
            addReplyBulkLenLoop_eq (length_numberText_le enough) (if ptr < 0 then 2 else 1)
          simp only [Robj.text, intText]
          simp only [sign] at counted ⊢
          split_ifs at counted ⊢
          · simp only [List.length_cons]
            omega
          · omega
        rw [← header _ short, ← digits]
        rfl
  rw [addReplyBulk, len, addReply_eq]

theorem addReplyBulkCBuffer_eq {p : StdString} (short : p.length < 2 ^ 63) :
    addReplyBulkCBuffer p = '$' :: numberText p.length ++ crlf ++ p ++ crlf := by
  have plain : intText (p.length : Int) = numberText p.length := by simp [intText]
  rw [addReplyBulkCBuffer, addReplyLongLongWith_eq, length_toInt short, plain]

/-- What a command can answer with, before it is written. An error has its code in
front, such as `ERR`. -/
inductive RedisAnswer where
  | status (str : StdString)
  | error (str : StdString)
  | integer (value : Int64)
  | bulk (obj : Robj)
  | bulkBuffer (p : StdString)
  | nullBulk
  | multiBulk (answers : List RedisAnswer)
  | nullMultiBulk

mutual

/-- The text that the `addReply` calls append for the answer. -/
def RedisAnswer.text : RedisAnswer → StdString
  | .status str => addReplyStatus str
  | .error str => '-' :: str ++ crlf
  | .integer value => addReplyLongLong value
  | .bulk obj => addReplyBulk obj
  | .bulkBuffer p => addReplyBulkCBuffer p
  | .nullBulk => "$-1\r\n".toList
  | .multiBulk answers => addReplyMultiBulkLen (Int64.ofNat answers.length) ++ textOfAll answers
  | .nullMultiBulk => "*-1\r\n".toList

def textOfAll : List RedisAnswer → StdString
  | [] => []
  | a :: answers => a.text ++ textOfAll answers

end

end CtpTrade
