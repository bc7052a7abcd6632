import CtpTrade.Hiredis.Replies
import CtpTrade.Redis.Reply

/-!
# What the server sends is what the client reads

For every answer of the server the reader hands out one reply, with the strings, numbers
and nested arrays of the answer. Answers can follow each other, and the stream can
arrive in any pieces.
-/

namespace CtpTrade

open RedisReader

theorem lineEnd_line {s : StdString} (one_line : '\n' ∉ s) (rest : StdString) :
    lineEnd? (s ++ crlf ++ rest) = some s.length := by
  induction s with
  | nil => rfl
  | cons c s ih =>
      have behind : (s ++ crlf ++ rest).head? ≠ some '\n' := by
        cases s with
        | nil => simp [crlf]
        | cons d s =>
            simp only [List.mem_cons, not_or] at one_line
            simpa using Ne.symm one_line.2.1
      rw [List.cons_append, List.cons_append, lineEnd?, if_neg fun h => behind h.2,
        ih fun mem => one_line (List.mem_cons_of_mem c mem)]
      rfl

theorem readLongLongLoop_digits {ds : List Nat} (digits : ∀ d ∈ ds, d < 10) (mult : Int64) (n : Nat)
    (rest : StdString) :
    readLongLongLoop mult (Int64.ofNat n) (ds.map Nat.digitChar ++ '\r' :: rest) =
      mult * Int64.ofNat (ds.foldl (fun acc d => 10 * acc + d) n) := by
  induction ds generalizing n with
  | nil => simp [readLongLongLoop]
  | cons d ds ih =>
      have small := digits d (by simp)
      have digit : d.digitChar.isDigit = true := by
        rw [Nat.isDigit_digitChar]
        exact decide_eq_true small
      have ends : d.digitChar ≠ '\r' := by
        intro h
        rw [h] at digit
        simp at digit
      have value : Int64.ofNat n * 10 + Int64.ofNat (d.digitChar.toNat - 48) =
          Int64.ofNat (10 * n + d) := by
        rw [Nat.toNat_digitChar_sub_48_of_lt_ten small, Int64.ofNat_add, Int64.ofNat_mul,
          Int64.mul_comm]
        rfl
      rw [List.map_cons, List.cons_append, readLongLongLoop, if_neg ends, if_pos digit, value,
        ih (fun e he => digits e (List.mem_cons_of_mem d he)), List.foldl_cons]

theorem readLongLongLoop_numberText (mult : Int64) (n : Nat) (rest : StdString) :
    readLongLongLoop mult 0 (numberText n ++ '\r' :: rest) = mult * Int64.ofNat n := by
  have digits : ∀ d ∈ decimalDigits (Nat.log 10 n + 1) n, d < 10 := lt_of_mem_decimalDigits
  have read := readLongLongLoop_digits digits mult 0 rest
  have value := digitsValue_numberText n
  rw [numberText, paddedText, digitsValue_map lt_of_mem_decimalDigits] at value
  rw [value] at read
  exact read

theorem newline_not_mem_intText (x : Int) : '\n' ∉ intText x := by
  have digits (n : Nat) : '\n' ∉ numberText n := not_mem_paddedText (by decide) _ _
  rw [intText]
  split_ifs
  · exact fun mem => digits _ ((List.mem_cons.mp mem).resolve_left (by decide))
  · exact digits _

theorem readLongLong_numberText (n : Nat) (rest : StdString) :
    readLongLong (numberText n ++ '\r' :: rest) = Int64.ofNat n := by
  have read := readLongLongLoop_numberText 1 n rest
  obtain ⟨c, s, hc, digit⟩ := exists_digit n
  have other {b : Char} (hb : b.isDigit = false) : c ≠ b := by
    rintro rfl
    simp [digit] at hb
  rw [hc, List.cons_append] at read ⊢
  rw [readLongLong_unsigned (other (by decide)) (other (by decide)), read, Int64.one_mul]

/-- Reading undoes printing for all 64 bits. -/
theorem readLongLong_intText (x : Int64) (rest : StdString) :
    readLongLong (intText x.toInt ++ '\r' :: rest) = x := by
  rw [intText]
  split_ifs with negative
  · change readLongLongLoop (-1) 0 (numberText x.toInt.natAbs ++ '\r' :: rest) = x
    have abs : ((x.toInt.natAbs : Nat) : Int) = -x.toInt := by omega
    rw [readLongLongLoop_numberText, ← Int64.ofInt_eq_ofNat, abs]
    change Int64.ofInt (-1) * _ = x
    rw [← Int64.ofInt_mul, neg_one_mul, neg_neg, Int64.ofInt_toInt]
  · have abs : ((x.toInt.natAbs : Nat) : Int) = x.toInt := by omega
    rw [readLongLong_numberText, ← Int64.ofInt_eq_ofNat, abs, Int64.ofInt_toInt]

mutual

/-- What the client gets for an answer. Text and integer encodings of a string cannot be
told apart there. -/
def RedisAnswer.reply : RedisAnswer → RedisReply
  | .status str => .status str
  | .error str => .error str
  | .integer value => .integer value
  | .bulk obj => .string obj.text
  | .bulkBuffer p => .string p
  | .nullBulk => .nil
  | .multiBulk answers => .array answers.length (repliesOfAll answers)
  | .nullMultiBulk => .nil

def repliesOfAll : List RedisAnswer → List RedisReply
  | [] => []
  | a :: answers => a.reply :: repliesOfAll answers

end

mutual

/-- The answer, which stands inside of `depth` arrays, can be read back. A status and an
error are single lines, a length is a number of 64 bits, an array has a number of
elements that an `int` can count, and no array is inside of more than seven others. -/
def RedisAnswer.Sendable (depth : Nat) : RedisAnswer → Prop
  | .status str => '\n' ∉ str
  | .error str => '\n' ∉ str
  | .integer _ => True
  | .bulk obj => obj.text.length < 2 ^ 63
  | .bulkBuffer p => p.length < 2 ^ 63
  | .nullBulk => True
  | .multiBulk answers =>
    depth < 8 ∧ answers.length ≤ intMax ∧ AllSendable (depth + 1) answers
  | .nullMultiBulk => depth < 8

/-- Every one of the answers is sendable. The stream of a whole conversation is one at
depth zero. -/
def AllSendable (depth : Nat) : List RedisAnswer → Prop
  | [] => True
  | a :: answers => a.Sendable depth ∧ AllSendable depth answers

end

namespace ReplyParser

/-- What is drained behind an object that has been read. -/
def behind (s : ParserState × Option RedisReply) (rest : StdString) :
    Incremental.Config ParserState Char × List RedisReply :=
  ((Incremental.drain next ⟨s.1, rest⟩).1, s.2.toList ++ (Incremental.drain next ⟨s.1, rest⟩).2)

variable {frames : List Frame} {rest : StdString}

/-- A type byte and the turn behind it. -/
theorem drain_typed {c : Char} {type : ReplyType} {l : StdString} {t : Turn}
    (byte : typeOfByte c = some type) (shallow : ¬(type = .array ∧ frames.length = 8))
    (turn : next (.reading (some type) frames) l = some t) :
    Incremental.drain next ⟨.reading none frames, c :: l⟩ = behind (t.state, t.out) t.rest := by
  have first : next (.reading none frames) (c :: l) =
      some ⟨.reading (some type) frames, l, none⟩ := by
    simp [next, typeByte, byte, shallow]
  rw [Incremental.drain_of_turn lawful (c := ⟨.reading none frames, c :: l⟩) first]
  change (let later := Incremental.drain next ⟨.reading (some type) frames, l⟩;
    (later.1, [] ++ later.2)) = _
  rw [Incremental.drain_of_turn lawful (c := ⟨.reading (some type) frames, l⟩) turn]
  rfl

theorem drain_line (c : Char) {type : ReplyType} {s : StdString} {t : Turn}
    (byte : typeOfByte c = some type) (shallow : ¬(type = .array ∧ frames.length = 8))
    (one_line : '\n' ∉ s) (turn : typed frames (s ++ crlf ++ rest) s.length type = some t) :
    Incremental.drain next ⟨.reading none frames, c :: (s ++ crlf ++ rest)⟩ =
      behind (t.state, t.out) t.rest := by
  refine drain_typed byte shallow ?_
  simp only [next, lineEnd_line one_line]
  exact turn

theorem drop_line (s : StdString) (rest : StdString) :
    (s ++ crlf ++ rest).drop (s.length + 2) = rest := by
  rw [List.drop_append_of_le_length (by simp [crlf])]
  simp [crlf]

theorem take_line (s : StdString) (rest : StdString) :
    (s ++ crlf ++ rest).take s.length = s := by
  rw [List.append_assoc, List.take_left]

theorem drain_string {p : StdString} (short : p.length < 2 ^ 63) :
    Incremental.drain next
        ⟨.reading none frames, '$' :: numberText p.length ++ crlf ++ p ++ crlf ++ rest⟩ =
      behind (finish (.string p) frames) rest := by
  have one_line : '\n' ∉ numberText p.length := not_mem_paddedText (by decide) _ _
  have len : readLongLong (numberText p.length ++ crlf ++ (p ++ crlf ++ rest)) =
      Int64.ofNat p.length := by
    rw [List.append_assoc]
    exact readLongLong_numberText _ _
  have bytes : (Int64.ofNat p.length).toNatClampNeg = p.length := by
    rw [← Int64.toNat_toInt, length_toInt short, Int.toNat_natCast]
  have positive : ¬Int64.ofNat p.length < 0 := by
    rw [Int64.lt_iff_toInt_lt, length_toInt short]
    change ¬(p.length : Int) < 0
    omega
  have turn : typed frames (numberText p.length ++ crlf ++ (p ++ crlf ++ rest))
      (numberText p.length).length .string =
        some (finished (.string p) frames rest) := by
    have inside : (numberText p.length).length + 2 + p.length + 2 ≤
        (numberText p.length ++ crlf ++ (p ++ crlf ++ rest)).length := by
      simp only [List.length_append, crlf, List.length_cons, List.length_nil]
      omega
    have str : ((numberText p.length ++ crlf ++ (p ++ crlf ++ rest)).drop
        ((numberText p.length).length + 2)).take p.length = p := by
      rw [drop_line, List.append_assoc, List.take_left]
    have left : (numberText p.length ++ crlf ++ (p ++ crlf ++ rest)).drop
        ((numberText p.length).length + 2 + p.length + 2) = rest := by
      rw [Nat.add_assoc, ← List.drop_drop, drop_line, drop_line]
    simp only [typed, len, bytes, if_neg positive, if_pos inside, str, left]
  have read := drain_line '$' (by rfl) (by simp) one_line turn
  simpa [List.append_assoc, finished] using read

/-- An array is opened. -/
theorem drain_header {n : Nat} (filled : 0 < n) (fits : (n : Int) ≤ intMax) (room : HasRoom frames)
    (shallow : frames.length < 8) :
    Incremental.drain next ⟨.reading none frames, addReplyMultiBulkLen (Int64.ofNat n) ++ rest⟩ =
      Incremental.drain next ⟨.reading none (⟨n, []⟩ :: frames), rest⟩ := by
  rw [intMax] at fits
  have one_line : '\n' ∉ intText n := newline_not_mem_intText n
  have value : (Int64.ofNat n).toInt = n := length_toInt (by omega)
  have count : readLongLong (intText n ++ crlf ++ rest) = Int64.ofNat n := by
    rw [← value, List.append_assoc]
    exact readLongLong_intText _ _
  have present : Int64.ofNat n ≠ -1 := by
    intro h
    have := congrArg Int64.toInt h
    rw [value] at this
    change (n : Int) = -1 at this
    omega
  have positive : 0 < Int64.ofNat n := by
    rw [Int64.lt_iff_toInt_lt, value]
    change (0 : Int) < n
    omega
  have size : (Int64.ofNat n).toInt32.toInt = n := by
    rw [toInt_toInt32 (by omega) (by rw [intMax]; omega), value]
  have turn : typed frames (intText n ++ crlf ++ rest) (intText n).length .array =
      some ⟨.reading none (⟨n, []⟩ :: frames), rest, none⟩ := by
    simp only [typed, count, if_neg present, if_pos positive, if_pos room, size, drop_line]
  rw [addReplyMultiBulkLen_eq, value]
  have read := drain_line '*' (by rfl) (fun h => absurd h.2 (Nat.ne_of_lt shallow)) one_line turn
  simpa [behind] using read

mutual

/-- An answer of the server is one object for the parser. -/
theorem drain_answer (a : RedisAnswer) (frames : List Frame) (rest : StdString)
    (room : HasRoom frames)
    (sendable : a.Sendable frames.length) :
    Incremental.drain next ⟨.reading none frames, a.text ++ rest⟩ =
      behind (finish a.reply frames) rest := by
  match a with
  | .status str =>
      rw [RedisAnswer.text, addReplyStatus]
      have turn : typed frames (str ++ crlf ++ rest) str.length .status =
          some (finished (.status str) frames rest) := by
        simp only [typed, drop_line, take_line]
      exact drain_line '+' (by rfl) (by simp) sendable turn
  | .error str =>
      rw [RedisAnswer.text]
      have turn : typed frames (str ++ crlf ++ rest) str.length .error =
          some (finished (.error str) frames rest) := by
        simp only [typed, drop_line, take_line]
      exact drain_line '-' (by rfl) (by simp) sendable turn
  | .integer value =>
      rw [RedisAnswer.text, addReplyLongLong_eq]
      have read : readLongLong (intText value.toInt ++ crlf ++ rest) = value := by
        rw [List.append_assoc]
        exact readLongLong_intText _ _
      have turn : typed frames (intText value.toInt ++ crlf ++ rest) (intText value.toInt).length
          .integer = some (finished (.integer value) frames rest) := by
        simp only [typed, read, drop_line]
      exact drain_line ':' (by rfl) (by simp) (newline_not_mem_intText _) turn
  | .bulk obj =>
      rw [RedisAnswer.text, addReplyBulk_eq sendable]
      exact drain_string sendable
  | .bulkBuffer p =>
      rw [RedisAnswer.text, addReplyBulkCBuffer_eq sendable]
      exact drain_string sendable
  | .nullBulk =>
      have turn : typed frames ("-1".toList ++ crlf ++ rest) 2 .string =
          some (finished .nil frames rest) := rfl
      exact drain_line '$' (by rfl) (by simp) (by decide) turn
  | .nullMultiBulk =>
      have turn : typed frames ("-1".toList ++ crlf ++ rest) 2 .array =
          some (finished .nil frames rest) := rfl
      exact drain_line '*' (by rfl) (fun h => absurd h.2 (Nat.ne_of_lt sendable)) (by decide) turn
  | .multiBulk [] =>
      have turn : typed frames ("0".toList ++ crlf ++ rest) 1 .array =
          some (finished (.array 0 []) frames rest) := rfl
      exact drain_line '*' (by rfl) (fun h => absurd h.2 (Nat.ne_of_lt sendable.1)) (by decide) turn
  | .multiBulk (a :: answers) =>
      have fits := sendable.2.1
      rw [RedisAnswer.text, List.append_assoc, drain_header (by simp) fits room sendable.1]
      exact drain_answers (a :: answers) [] frames rest (by simp) (by simp) sendable.2.2

/-- The elements that an array still needs finish it. -/
theorem drain_answers (answers : List RedisAnswer) (done : List RedisReply) (frames : List Frame)
    (rest : StdString) {n : Nat} (left : answers ≠ []) (total : done.length + answers.length = n)
    (sendable : AllSendable (frames.length + 1) answers) :
    Incremental.drain next ⟨.reading none (⟨n, done⟩ :: frames), textOfAll answers ++ rest⟩ =
      behind (finish (.array n (done ++ repliesOfAll answers)) frames) rest := by
  match answers with
  | a :: answers =>
      have room : (done.length : Int) < n := by
        simp only [List.length_cons] at total
        omega
      rw [textOfAll, List.append_assoc,
        drain_answer a (⟨n, done⟩ :: frames) (textOfAll answers ++ rest) room sendable.1, finish,
        if_pos room]
      match answers with
      | [] =>
          have last : (done.length : Int) + 1 = n := by
            simp only [List.length_cons, List.length_nil] at total
            omega
          rw [if_pos last]
          simp [textOfAll, repliesOfAll]
      | b :: answers =>
          have more : ¬(done.length : Int) + 1 = n := by
            simp only [List.length_cons] at total
            omega
          rw [if_neg more]
          have later := drain_answers (b :: answers) (done ++ [a.reply]) frames rest (n := n)
            (by simp) (by simp at total ⊢; omega) sendable.2
          simp only [behind, later]
          simp [repliesOfAll]

end

/-- Answers one behind the other. -/
theorem drain_start {answers : List RedisAnswer} (sendable : AllSendable 0 answers) :
    Incremental.drain next (start (textOfAll answers)) = (start [], repliesOfAll answers) := by
  induction answers with
  | nil => exact Incremental.drain_of_waits rfl
  | cons a answers ih =>
      rw [start, textOfAll, drain_answer a [] _ trivial sendable.1]
      have later := ih sendable.2
      rw [start] at later
      simp only [finish, behind, later, repliesOfAll]
      rfl

theorem allSendable_take {depth : Nat} {answers : List RedisAnswer} (h : AllSendable depth answers)
    (k : Nat) : AllSendable depth (answers.take k) := by
  induction answers generalizing k with
  | nil =>
      rw [List.take_nil]
      trivial
  | cons a answers ih =>
      cases k with
      | zero => trivial
      | succ k => exact ⟨h.1, ih h.2 k⟩

/-- An error or a fault in front of the end of a stream is there at the end. -/
theorem state_of_prefix {stream whole : StdString} (h : stream <+: whole)
    (ends : (Incremental.drain next (start whole)).1 = start []) :
    ∃ type frames, (Incremental.drain next (start stream)).1.state = .reading type frames := by
  obtain ⟨more, rfl⟩ := h
  have grown : Incremental.drain next (start (stream ++ more)) = _ :=
    Incremental.drain_feed lawful (start stream) more
  rw [grown] at ends
  generalize (Incremental.drain next (start stream)).1 = c at ends ⊢
  obtain ⟨s, l⟩ := c
  match s with
  | .reading type frames => exact ⟨type, frames, rfl⟩
  | .failed str =>
      have stays := drain_failed str (l ++ more)
      simp only [Incremental.Config.feed, stays, start] at ends
      cases ends
  | .faulted fault =>
      have stays := drain_faulted fault (l ++ more)
      simp only [Incremental.Config.feed, stays, start] at ends
      cases ends

variable {answers : List RedisAnswer} {calls : List (Incremental.Call Char)} {r : RedisReader}
  {out : List RedisReply}

theorem replies_textOfAll (sendable : AllSendable 0 answers) :
    replies (textOfAll answers) = repliesOfAll answers := by
  rw [replies, drain_start sendable]

/-- Behind a part of the text of some answers the parser is in no error and in no fault. -/
theorem state_of_fed (sendable : AllSendable 0 answers)
    (arrived : Incremental.fed calls <+: textOfAll answers) :
    ∃ type frames,
      (Incremental.drain next (Incremental.serve next (start []) calls).1).1.state =
        .reading type frames := by
  have whole : (Incremental.drain next (start (textOfAll answers))).1 = start [] := by
    rw [drain_start sendable]
  have drained : Incremental.drain next (start (Incremental.fed calls)) = _ :=
    Incremental.drain_fed lawful (start []) calls
  have sound := state_of_prefix arrived whole
  rwa [drained] at sound

theorem err_of_fed (sendable : AllSendable 0 answers)
    (arrived : Incremental.fed calls <+: textOfAll answers) (fits : BuffersFit create calls)
    (served : serveReader create calls = .ok (r, out)) : r.err = none := by
  obtain ⟨type, frames, sound⟩ := state_of_fed sendable arrived
  have rep := (out_of_serve fits served).2.1
  generalize (Incremental.serve next (start []) calls).1 = c at rep sound
  cases rep with
  | idle inside => rfl
  | reading reading inside => rfl
  | failed str rest =>
      rw [drain_failed] at sound
      cases sound

theorem exists_serveReader (sendable : AllSendable 0 answers)
    (arrived : Incremental.fed calls <+: textOfAll answers) (fits : BuffersFit create calls) :
    ∃ r out, serveReader create calls = .ok (r, out) := by
  obtain ⟨type, frames, sound⟩ := state_of_fed sendable arrived
  obtain ⟨r, served, -⟩ | ⟨fault, rest, -, faulted⟩ := represents_start.serve fits
  · exact ⟨r, _, served⟩
  · rw [faulted, drain_faulted] at sound
    cases sound

end ReplyParser

open ReplyParser

/-- As long as the text of some answers arrives, in whatever pieces and whenever it is asked,
the reader has no error and hands out the replies for these answers in their order. Once
there is nothing left it has handed out those that have arrived completely. Its buffers
have to be such that an `int` can count them. -/
theorem reader_reads_answers {answers : List RedisAnswer} {calls : List (Incremental.Call Char)}
    (sendable : AllSendable 0 answers) (arrived : Incremental.fed calls <+: textOfAll answers)
    (fits : BuffersFit create calls) :
    ∃ r out, serveReader create calls = .ok (r, out) ∧ r.err = none ∧
      out <+: repliesOfAll answers ∧
      ∀ t ok, r.redisReaderGetReply = .ok (t, ok, .null) →
        ∀ k, textOfAll (answers.take k) <+: Incremental.fed calls →
          repliesOfAll (answers.take k) <+: out := by
  obtain ⟨r, out, served⟩ := exists_serveReader sendable arrived fits
  refine ⟨r, out, served, err_of_fed sendable arrived fits served, ?_, ?_⟩
  · obtain ⟨more, rest⟩ := arrived
    have grown := replies_append (Incremental.fed calls) more
    rw [rest, replies_textOfAll sendable] at grown
    exact (out_prefix_replies fits served).trans grown
  · intro t ok nothing k complete
    obtain ⟨more, rest⟩ := complete
    have grown := replies_append (textOfAll (answers.take k)) more
    rw [rest, replies_textOfAll (allSendable_take sendable k)] at grown
    rwa [(out_eq_replies fits served nothing).1]

/-- An array with a string that is held as an integer, and a status behind it. -/
def twoAnswers : List RedisAnswer :=
  [.multiBulk [.bulk (.int (-7)), .integer 5], .status "OK".toList]

/-- The text of the first answer has arrived, and a part of the second one. -/
def twoCalls : List (Incremental.Call Char) :=
  [.feed "*2\r\n$2\r\n-7\r".toList, .pull, .feed "\n:5\r\n+O".toList, .pull]

theorem reader_reads_answers_two :
    ∃ r out, serveReader create twoCalls = .ok (r, out) ∧ r.err = none ∧
      out <+: repliesOfAll twoAnswers ∧
      ∀ t ok, r.redisReaderGetReply = .ok (t, ok, .null) →
        ∀ k, textOfAll (twoAnswers.take k) <+: Incremental.fed twoCalls →
          repliesOfAll (twoAnswers.take k) <+: out := by
  have short : (Robj.int (-7)).text.length < 2 ^ 63 := by decide
  have status : '\n' ∉ "OK".toList := by decide
  have sendable : AllSendable 0 twoAnswers :=
    ⟨⟨by decide, by decide, short, trivial, trivial⟩, status, trivial⟩
  exact reader_reads_answers sendable (by decide) (represents_start.buffersFit (by decide))

end CtpTrade
