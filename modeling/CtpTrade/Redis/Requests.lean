import CtpTrade.Hiredis.Command
import CtpTrade.Library.Incremental
import CtpTrade.Redis.Query

/-!
# Requests in pieces

What the server reads from a stream of requests that hiredis has formatted, as an
incremental consumer: a number of arguments, and then a length and an argument in turn.
The code has two more ways out of its loops. It refuses a line that has become too long
without an end, and what begins with no `*` it reads as a line. Neither can happen as
long as what has arrived is the beginning of formatted requests.
-/

namespace CtpTrade

theorem strchr_append {l : StdString} {ch : Char} {n : Nat} (h : strchr l ch = some n)
    (more : StdString) : strchr (l ++ more) ch = some n := by
  induction l generalizing n with
  | nil => simp [strchr] at h
  | cons c l ih =>
      rw [strchr] at h
      rw [List.cons_append, strchr]
      split_ifs at h ⊢
      · exact h
      · obtain ⟨m, hm, rfl⟩ := Option.map_eq_some_iff.mp h
        rw [ih hm, Option.map_some]

theorem strchr_of_not_mem {s : StdString} {ch : Char} (absent : ch ∉ s) (zero : '\x00' ∉ s)
    (rest : StdString) : strchr (s ++ ch :: rest) ch = some s.length := by
  induction s with
  | nil => simp [strchr]
  | cons c s ih =>
      simp only [List.mem_cons, not_or] at absent zero
      rw [List.cons_append, strchr, if_neg (Ne.symm absent.1), if_neg (Ne.symm zero.1),
        ih absent.2 zero.2]
      rfl

/-- The first `ch` of a text comes no later than one that is found with more behind. -/
theorem length_le_of_strchr {l more : StdString} {ch : Char} {n : Nat}
    (h : strchr (l ++ more) ch = some n) (absent : strchr l ch = none) : l.length ≤ n := by
  by_contra short
  have found : strchr l ch = some n := by
    clear absent
    induction l generalizing n with
    | nil => simp at short
    | cons c l ih =>
        rw [List.cons_append, strchr] at h
        rw [strchr]
        split_ifs at h ⊢
        · exact h
        · obtain ⟨m, hm, rfl⟩ := Option.map_eq_some_iff.mp h
          rw [ih hm (by simp only [List.length_cons] at short; omega), Option.map_some]
  rw [absent] at found
  cases found

/-- The first line, up to its `\r`, and what comes behind the line end. -/
def line? (l : StdString) : Option (StdString × StdString) :=
  match strchr l '\r' with
  | none => none
  | some n => if n + 2 ≤ l.length then some (l.take n, l.drop (n + 2)) else none

/-- The number in a line that begins with `mark`. -/
def number? (mark : Char) (line : StdString) : Option Int :=
  if line.head? = some mark then string2ll (line.drop 1) else none

theorem line?_of_strchr {l : StdString} {n : Nat} (found : strchr l '\r' = some n)
    (complete : n + 2 ≤ l.length) : line? l = some (l.take n, l.drop (n + 2)) := by
  rw [line?]
  simp only [found, if_pos complete]

theorem line?_of_unfinished {l : StdString} {n : Nat} (found : strchr l '\r' = some n)
    (incomplete : ¬n + 2 ≤ l.length) : line? l = none := by
  rw [line?]
  simp only [found, if_neg incomplete]

theorem line?_of_absent {l : StdString} (absent : strchr l '\r' = none) : line? l = none := by
  rw [line?]
  simp only [absent]

theorem exists_cons_of_number? {mark : Char} {l : StdString} {n : Nat} {ll : Int}
    (h : number? mark (l.take n) = some ll) :
    ∃ line, l = mark :: line ∧ string2ll (line.take (n - 1)) = some ll := by
  rw [number?] at h
  split_ifs at h with first
  cases n with
  | zero => simp at first
  | succ n =>
      cases l with
      | nil => simp at first
      | cons c line =>
          obtain rfl : c = mark := by simpa using first
          exact ⟨line, rfl, h⟩

theorem exists_take_of_line? {l line rest : StdString} (h : line? l = some (line, rest)) :
    ∃ n, line = l.take n := by
  rw [line?] at h
  split at h
  · cases h
  · next n found =>
      split_ifs at h
      cases h
      exact ⟨n, rfl⟩

theorem line?_lt {l line rest : StdString} (h : line? l = some (line, rest)) :
    rest.length < l.length := by
  rw [line?] at h
  split at h
  · cases h
  · split_ifs at h
    cases h
    rw [List.length_drop]
    omega

theorem line?_append {l line rest : StdString} (h : line? l = some (line, rest))
    (more : StdString) : line? (l ++ more) = some (line, rest ++ more) := by
  rw [line?] at h
  split at h
  · cases h
  · next n found =>
      split_ifs at h with complete
      cases h
      simp only [line?, strchr_append found]
      rw [if_pos (by simp only [List.length_append]; omega),
        List.take_append_of_le_length (by omega), List.drop_append_of_le_length complete]

/-- An unfinished line is not longer than what it turns out to be. -/
theorem length_le_of_line? {l more line rest : StdString} (waits : line? l = none)
    (h : line? (l ++ more) = some (line, rest)) : l.length ≤ line.length + 1 := by
  rw [line?] at h
  split at h
  · cases h
  · next n found =>
      split_ifs at h with complete
      cases h
      rw [List.length_take, Nat.min_eq_left (by omega)]
      cases here : strchr l '\r' with
      | none =>
          have := length_le_of_strchr found here
          omega
      | some m =>
          obtain rfl : m = n := by
            rw [strchr_append here] at found
            exact Option.some.inj found
          simp only [line?, here] at waits
          split_ifs at waits with short
          omega

/-- The state of a parser of requests on its own, without buffer and positions. It is
what the request parser of the server is compared with. -/
inductive QueryState where
  /-- in front of a request -/
  | header
  /-- in front of the length of an argument -/
  | bulklen (missing : Nat) (argv : List StdString)
  /-- in front of an argument -/
  | argument (missing : Nat) (argv : List StdString) (len : Nat)
  | failed
  deriving DecidableEq

namespace QueryParser

abbrev Turn := Incremental.Turn QueryState Char (List StdString)

/-- Behind the line with the number of arguments. -/
def afterHeader (line : StdString) : QueryState :=
  match number? '*' line with
  | none => .failed
  | some ll =>
    if 1024 * 1024 < ll then .failed else if ll ≤ 0 then .header else .bulklen ll.toNat []

/-- Behind the line with the length of an argument. -/
def afterBulklen (missing : Nat) (argv : List StdString) (line : StdString) : QueryState :=
  match number? '$' line with
  | none => .failed
  | some ll =>
    if ll < 0 ∨ 512 * 1024 * 1024 < ll then .failed else .argument missing argv ll.toNat

def next : Incremental.Consumer QueryState Char (List StdString)
  | .header, l => (line? l).map fun line => ⟨afterHeader line.1, line.2, none⟩
  | .bulklen missing argv, l =>
    (line? l).map fun line => ⟨afterBulklen missing argv line.1, line.2, none⟩
  | .argument missing argv len, l =>
    if l.length < len + 2 then none
    else if missing = 1 then
      some ⟨.header, l.drop (len + 2), some (argv ++ [l.take len])⟩
    else some ⟨.bulklen (missing - 1) (argv ++ [l.take len]), l.drop (len + 2), none⟩
  | .failed, _ :: l => some ⟨.failed, l, none⟩
  | .failed, [] => none

theorem lawful : Incremental.Lawful next where
  shrinks := by
    intro s l t h
    match s, l, h with
    | .header, l, h =>
        obtain ⟨line, hl, rfl⟩ := Option.map_eq_some_iff.mp h
        exact line?_lt hl
    | .bulklen missing argv, l, h =>
        obtain ⟨line, hl, rfl⟩ := Option.map_eq_some_iff.mp h
        exact line?_lt hl
    | .argument missing argv len, l, h =>
        simp only [next] at h
        split_ifs at h
        all_goals
          cases h
          simp only [List.length_drop]
          omega
    | .failed, c :: l, h =>
        cases h
        simp
  stable := by
    intro s l t h more
    match s, l, h with
    | .header, l, h =>
        obtain ⟨line, hl, rfl⟩ := Option.map_eq_some_iff.mp h
        simp only [next, line?_append hl, Option.map_some]
    | .bulklen missing argv, l, h =>
        obtain ⟨line, hl, rfl⟩ := Option.map_eq_some_iff.mp h
        simp only [next, line?_append hl, Option.map_some]
    | .argument missing argv len, l, h =>
        simp only [next] at h ⊢
        split_ifs at h with short last
        all_goals
          cases h
          rw [if_neg (by simp only [List.length_append]; omega),
            List.drop_append_of_le_length (by omega), List.take_append_of_le_length (by omega)]
        · rw [if_pos last]
        · rw [if_neg last]
    | .failed, c :: l, h =>
        cases h
        rfl

theorem next_argument_last {argv : List StdString} {len : Nat} {l : StdString}
    (enough : ¬l.length < len + 2) :
    next (.argument 1 argv len) l =
      some ⟨.header, l.drop (len + 2), some (argv ++ [l.take len])⟩ := by
  rw [next, if_neg enough, if_pos rfl]

theorem next_argument_more {missing : Nat} {argv : List StdString} {len : Nat} {l : StdString}
    (enough : ¬l.length < len + 2) (more : 0 < missing) :
    next (.argument (missing + 1) argv len) l =
      some ⟨.bulklen missing (argv ++ [l.take len]), l.drop (len + 2), none⟩ := by
  rw [next, if_neg enough, if_neg (by omega), Nat.add_sub_cancel]

/-- An argument that is announced is one of at most 512 MB, which the server has checked
when it read the length. -/
def Announced : QueryState → Prop
  | .argument _ _ len => len ≤ 512 * 1024 * 1024
  | _ => True

theorem announced_next {s : QueryState} {l : StdString} {t : Turn} (h : next s l = some t) :
    Announced t.state := by
  match s, l, h with
  | .header, l, h =>
      obtain ⟨line, -, rfl⟩ := Option.map_eq_some_iff.mp h
      simp only [afterHeader]
      split
      · trivial
      · split_ifs <;> trivial
  | .bulklen missing argv, l, h =>
      obtain ⟨line, -, rfl⟩ := Option.map_eq_some_iff.mp h
      simp only [afterBulklen]
      split
      · trivial
      · split_ifs with outside
        · trivial
        · simp only [Announced]
          omega
  | .argument missing argv len, l, h =>
      simp only [next] at h
      split_ifs at h <;> cases h <;> trivial
  | .failed, c :: l, h =>
      cases h
      trivial

theorem announced_drain {c : Incremental.Config QueryState Char} (h : Announced c.state) :
    Announced (Incremental.drain next c).1.state := by
  induction c using Incremental.turn_induction lawful with
  | waits c waits => rwa [Incremental.drain_of_waits waits]
  | turn c t turns ih =>
      rw [Incremental.drain_of_turn lawful turns]
      exact ih (announced_next turns)

/-- The bytes are the beginning of a stream of requests: with some more input everything
is read, without an error. -/
def Completable (s : QueryState) (l : StdString) : Prop :=
  ∃ more, (Incremental.drain next ⟨s, l ++ more⟩).1 = ⟨.header, []⟩

theorem drain_failed (l : StdString) :
    Incremental.drain next ⟨.failed, l⟩ = (⟨.failed, []⟩, []) := by
  induction l with
  | nil => exact Incremental.drain_of_waits rfl
  | cons c l ih =>
      rw [Incremental.drain_of_turn lawful (t := ⟨.failed, l, none⟩) rfl]
      simp only [Incremental.Turn.config, ih]
      rfl

variable {s : QueryState} {l : StdString} {t : Turn}

theorem Completable.not_failed (h : Completable s l) : s ≠ .failed := by
  rintro rfl
  obtain ⟨more, h⟩ := h
  rw [drain_failed] at h
  cases h

theorem Completable.of_append {more : StdString} (h : Completable s (l ++ more)) :
    Completable s l := by
  obtain ⟨more', h⟩ := h
  exact ⟨more ++ more', by rwa [← List.append_assoc]⟩

theorem Completable.turn (h : Completable s l) (turn : next s l = some t) :
    Completable t.state t.rest := by
  obtain ⟨more, h⟩ := h
  refine ⟨more, ?_⟩
  rw [Incremental.drain_of_turn lawful (c := ⟨s, l ++ more⟩) (lawful.stable turn more)] at h
  exact h

theorem string2llLoop_ge {s : StdString} {v w : Nat} (h : string2llLoop v s = some w) :
    v * 10 ^ s.length ≤ w := by
  induction s generalizing v with
  | nil =>
      cases h
      simp
  | cons c s ih =>
      rw [string2llLoop] at h
      split_ifs at h
      have := ih h
      rw [List.length_cons, Nat.pow_succ]
      calc
        v * (10 ^ s.length * 10) = v * 10 * 10 ^ s.length := by
            rw [Nat.mul_comm (10 ^ s.length), Nat.mul_assoc]
        _ ≤ (v * 10 + (c.toNat - 48)) * 10 ^ s.length :=
            Nat.mul_le_mul_right _ (Nat.le_add_right ..)
        _ ≤ w := this

/-- The first digit is not zero, so a number of 64 bits has no more than 20 of them. -/
theorem length_le_of_string2llDigits {s : StdString} {v : Nat} (h : string2llDigits s = some v)
    (small : v ≤ 2 ^ 64) : s.length ≤ 20 := by
  cases s with
  | nil => simp
  | cons c s =>
      rw [string2llDigits] at h
      split_ifs at h with digit
      have first : 1 ≤ c.toNat - 48 := by
        have low : 48 ≤ c.toNat ∧ c.toNat ≤ 57 := by
          simpa [Char.isDigit, Char.le_def, UInt32.le_iff_toNat_le] using digit.1
        have other : c.toNat ≠ 48 := fun same => digit.2 (Char.ext (UInt32.toNat.inj same))
        omega
      by_contra long
      rw [List.length_cons] at long
      have many : 10 ^ 20 ≤ 10 ^ s.length := Nat.pow_le_pow_right (by decide) (by omega)
      have large : 1 * 10 ^ s.length ≤ v :=
        Nat.le_trans (Nat.mul_le_mul_right _ first) (string2llLoop_ge h)
      omega

theorem length_le_of_string2ll {s : StdString} {ll : Int} (h : string2ll s = some ll) :
    s.length ≤ 21 := by
  rw [string2ll.eq_def] at h
  split at h
  · simp
  · next digits =>
      split at h
      · next v hv =>
          split_ifs at h with large
          have := length_le_of_string2llDigits hv (by omega)
          rw [List.length_cons]
          omega
      · cases h
  · split at h
    · next v hv =>
        split_ifs at h with large
        have := length_le_of_string2llDigits hv (by omega)
        omega
    · cases h

theorem length_le_of_number? {mark : Char} {line : StdString} {ll : Int}
    (h : number? mark line = some ll) : line.length ≤ 22 := by
  rw [number?] at h
  split_ifs at h
  have := length_le_of_string2ll h
  rw [List.length_drop] at this
  omega

/-- A number of arguments within the limit. -/
theorem afterHeader_cases {line : StdString} (h : afterHeader line ≠ .failed) :
    ∃ ll, number? '*' line = some ll ∧ ll ≤ 1024 * 1024 ∧
      afterHeader line = if ll ≤ 0 then .header else .bulklen ll.toNat [] := by
  rw [afterHeader] at h ⊢
  cases hll : number? '*' line with
  | none => simp [hll] at h
  | some ll =>
      simp only [hll] at h ⊢
      by_cases large : 1024 * 1024 < ll
      · rw [if_pos large] at h
        exact absurd rfl h
      · rw [if_neg large]
        exact ⟨ll, rfl, by omega, rfl⟩

/-- A length of an argument within the limit. -/
theorem afterBulklen_cases {missing : Nat} {argv : List StdString} {line : StdString}
    (h : afterBulklen missing argv line ≠ .failed) :
    ∃ len : Nat, number? '$' line = some (len : Int) ∧ len ≤ 512 * 1024 * 1024 ∧
      afterBulklen missing argv line = .argument missing argv len := by
  rw [afterBulklen] at h ⊢
  cases hll : number? '$' line with
  | none => simp [hll] at h
  | some ll =>
      simp only [hll] at h ⊢
      by_cases outside : ll < 0 ∨ 512 * 1024 * 1024 < ll
      · rw [if_pos outside] at h
        exact absurd rfl h
      · rw [if_neg outside]
        obtain ⟨len, rfl⟩ := Int.eq_ofNat_of_zero_le (by omega : 0 ≤ ll)
        exact ⟨len, rfl, by omega, rfl⟩

/-- A line that is still without its end has not become long. -/
theorem Completable.short (h : Completable s l)
    (line : s = .header ∨ ∃ missing argv, s = .bulklen missing argv) (waits : next s l = none) :
    l.length ≤ 23 := by
  obtain ⟨more, h⟩ := h
  cases ht : next s (l ++ more) with
  | none =>
      rw [Incremental.drain_of_waits (c := ⟨s, l ++ more⟩) ht] at h
      have : l ++ more = [] := congrArg Incremental.Config.input h
      simp [List.append_eq_nil_iff.mp this]
  | some t =>
      have whole : Completable s (l ++ more) := ⟨[], by rwa [List.append_nil]⟩
      have fine := (whole.turn ht).not_failed
      obtain rfl | ⟨missing, argv, rfl⟩ := line
      · obtain ⟨found, hfound, rfl⟩ := Option.map_eq_some_iff.mp ht
        obtain ⟨ll, hll, -⟩ := afterHeader_cases fine
        have := length_le_of_line? (Option.map_eq_none_iff.mp waits) hfound
        have := length_le_of_number? hll
        omega
      · obtain ⟨found, hfound, rfl⟩ := Option.map_eq_some_iff.mp ht
        obtain ⟨len, hll, -⟩ := afterBulklen_cases fine
        have := length_le_of_line? (Option.map_eq_none_iff.mp waits) hfound
        have := length_le_of_number? hll
        omega

theorem Completable.pull {c : Incremental.Config QueryState Char}
    (h : Completable c.state c.input) :
    Completable (Incremental.pull next c).1.state (Incremental.pull next c).1.input := by
  induction c using Incremental.turn_induction lawful with
  | waits c hc => rwa [Incremental.pull_of_waits hc]
  | turn c t ht ih =>
      rw [Incremental.pull_of_turn lawful ht]
      cases ho : t.out with
      | some argv => exact h.turn ht
      | none => exact ih (h.turn ht)

/-- A request begins with its `*`. -/
theorem Completable.head? (h : Completable .header l) (nonempty : l ≠ []) :
    l.head? = some '*' := by
  obtain ⟨more, h⟩ := h
  cases ht : next .header (l ++ more) with
  | none =>
      rw [Incremental.drain_of_waits (c := ⟨QueryState.header, l ++ more⟩) ht] at h
      have : l ++ more = [] := congrArg Incremental.Config.input h
      exact absurd (List.append_eq_nil_iff.mp this).1 nonempty
  | some t =>
      have whole : Completable .header (l ++ more) := ⟨[], by rwa [List.append_nil]⟩
      have fine := (whole.turn ht).not_failed
      obtain ⟨⟨line, rest⟩, hline, rfl⟩ := Option.map_eq_some_iff.mp ht
      obtain ⟨ll, hll, -⟩ := afterHeader_cases fine
      obtain ⟨n, rfl⟩ := exists_take_of_line? hline
      obtain ⟨line, hl, -⟩ := exists_cons_of_number? hll
      cases l with
      | nil => exact absurd rfl nonempty
      | cons c l => exact congrArg List.head? hl

/-- The server takes the request: there is a command, and neither the number of
arguments nor the length of one is above the limits of the source. -/
structure Acceptable (argv : List StdString) : Prop where
  nonempty : argv ≠ []
  count : argv.length ≤ 1024 * 1024
  words : ∀ arg ∈ argv, arg.length ≤ 512 * 1024 * 1024

theorem string2llLoop_digit {s : StdString} {v w d : Nat} (digit : d < 10)
    (small : 10 * w + d < 2 ^ 64) (h : string2llLoop v s = some w) :
    string2llLoop v (s ++ [Nat.digitChar d]) = some (10 * w + d) := by
  have value : d.digitChar.toNat - 48 = d := Nat.toNat_digitChar_sub_48_of_lt_ten digit
  have isDigit : d.digitChar.isDigit = true := by
    rw [Nat.isDigit_digitChar]
    exact decide_eq_true digit
  induction s generalizing v with
  | nil =>
      cases h
      rw [List.nil_append, string2llLoop, if_pos isDigit, value, if_neg (by omega),
        if_neg (by omega), Nat.mul_comm w 10]
      rfl
  | cons c s ih =>
      rw [string2llLoop] at h
      rw [List.cons_append, string2llLoop]
      split_ifs at h ⊢
      exact ih h

/-- The number that is printed is read back, within 64 bits. -/
theorem string2llDigits_numberText {n : Nat} (positive : 0 < n) (small : n < 2 ^ 64) :
    string2llDigits (numberText n) = some n := by
  induction n using Nat.strongRecOn with
  | ind n ih =>
      by_cases single : n < 10
      · have digit : n.digitChar.isDigit = true := by
          rw [Nat.isDigit_digitChar]
          exact decide_eq_true single
        have value : n.digitChar.toNat - 48 = n := Nat.toNat_digitChar_sub_48_of_lt_ten single
        have other : n.digitChar ≠ '0' := by
          intro same
          rw [same] at value
          simp at value
          omega
        rw [numberText_of_lt single, string2llDigits, if_pos ⟨digit, other⟩, value]
        rfl
      · have before := ih (n / 10) (by omega) (by omega) (by omega)
        rw [numberText_of_le (by omega)]
        cases hs : numberText (n / 10) with
        | nil => simp [hs, string2llDigits] at before
        | cons c s =>
            rw [hs, string2llDigits] at before
            split_ifs at before with first
            rw [List.cons_append, string2llDigits, if_pos first,
              string2llLoop_digit (Nat.mod_lt n (by decide)) (by omega) before,
              Nat.div_add_mod]

theorem string2ll_numberText {n : Nat} (small : n < 2 ^ 63) :
    string2ll (numberText n) = some (n : Int) := by
  obtain rfl | positive := Nat.eq_zero_or_pos n
  · rfl
  · have digits := string2llDigits_numberText positive (by omega)
    rw [string2ll.eq_def]
    split
    · next zero => simp [zero, string2llDigits] at digits
    · next s minus =>
        obtain ⟨c, s', hc, digit⟩ := exists_digit n
        rw [minus] at hc
        cases hc
        simp at digit
    · rw [digits]
      exact if_neg (by omega)

theorem number?_numberText {mark : Char} {n : Nat} (small : n < 2 ^ 63) :
    number? mark (mark :: numberText n) = some (n : Int) := by
  exact (if_pos rfl).trans (string2ll_numberText small)

theorem line?_numberText {mark : Char} (plain : mark ≠ '\r' ∧ mark ≠ '\x00') (n : Nat)
    (rest : StdString) :
    line? (mark :: numberText n ++ crlf ++ rest) = some (mark :: numberText n, rest) := by
  have absent (c : Char) (hc : c.isDigit = false) : c ∉ numberText n :=
    not_mem_paddedText hc _ _
  have found : strchr (mark :: numberText n ++ '\r' :: '\n' :: rest) '\r' =
      some (mark :: numberText n).length := by
    refine strchr_of_not_mem ?_ ?_ _
    · simpa [Ne.symm plain.1] using absent '\r' (by decide)
    · simpa [Ne.symm plain.2] using absent '\x00' (by decide)
  have text : mark :: numberText n ++ crlf ++ rest =
      mark :: numberText n ++ '\r' :: '\n' :: rest := by simp [crlf]
  simp only [line?, text, found]
  rw [if_pos (by simp), List.take_left, ← List.drop_drop, List.drop_left]
  rfl

theorem dollar : '$' ≠ '\r' ∧ '$' ≠ '\x00' := by decide

theorem star : '*' ≠ '\r' ∧ '*' ≠ '\x00' := by decide

theorem pull_bulkText {words argv : List StdString} (nonempty : words ≠ [])
    (fit : ∀ arg ∈ words, arg.length ≤ 512 * 1024 * 1024) (rest : StdString) :
    Incremental.pull next ⟨.bulklen words.length argv, words.flatMap bulkText ++ rest⟩ =
      (⟨.header, rest⟩, some (argv ++ words)) := by
  induction words generalizing argv with
  | nil => exact absurd rfl nonempty
  | cons arg words ih =>
      have small := fit arg (by simp)
      let behind := words.flatMap bulkText ++ rest
      have text : (arg :: words).flatMap bulkText ++ rest =
          '$' :: numberText arg.length ++ crlf ++ (arg ++ crlf ++ behind) := by
        simp [behind, bulkText]
      have length : next (.bulklen (words.length + 1) argv)
          ('$' :: numberText arg.length ++ crlf ++ (arg ++ crlf ++ behind)) =
          some ⟨.argument (words.length + 1) argv arg.length, arg ++ crlf ++ behind, none⟩ := by
        have state : afterBulklen (words.length + 1) argv ('$' :: numberText arg.length) =
            .argument (words.length + 1) argv arg.length := by
          rw [afterBulklen, number?_numberText (by omega)]
          exact if_neg (by omega)
        have line := line?_numberText dollar arg.length (arg ++ crlf ++ behind)
        simp only [next, line, Option.map_some, state]
      have enough : ¬(arg ++ crlf ++ behind).length < arg.length + 2 := by
        simp [crlf]
      have value : (arg ++ crlf ++ behind).take arg.length = arg := by
        rw [List.append_assoc, List.take_left]
      have left : (arg ++ crlf ++ behind).drop (arg.length + 2) = behind := by
        rw [List.append_assoc, ← List.drop_drop, List.drop_left]
        rfl
      rw [text, List.length_cons, Incremental.pull_of_turn lawful length]
      cases words with
      | nil =>
          have last : next (.argument 1 argv arg.length) (arg ++ crlf ++ behind) =
              some ⟨.header, behind, some (argv ++ [arg])⟩ := by
            rw [next_argument_last enough, value, left]
          exact Incremental.pull_of_turn lawful
            (c := ⟨.argument 1 argv arg.length, arg ++ crlf ++ behind⟩) last
      | cons arg' words =>
          have more : next (.argument (words.length + 1 + 1) argv arg.length)
              (arg ++ crlf ++ behind) =
              some ⟨.bulklen (words.length + 1) (argv ++ [arg]), behind, none⟩ := by
            rw [next_argument_more enough (Nat.succ_pos _), value, left]
          have some_left : arg' :: words ≠ [] := by simp
          have later := @ih (argv ++ [arg]) some_left fun a ha => fit a (List.mem_cons_of_mem _ ha)
          rw [List.append_assoc] at later
          rw [← List.singleton_append (x := arg), ← later]
          exact Incremental.pull_of_turn lawful
            (c := ⟨.argument (words.length + 1 + 1) argv arg.length, arg ++ crlf ++ behind⟩) more

/-- A formatted request is read as one request, up to its end. -/
theorem pull_requestText {argv : List StdString} (h : Acceptable argv) (rest : StdString) :
    Incremental.pull next ⟨.header, requestText argv ++ rest⟩ =
      (⟨.header, rest⟩, some argv) := by
  have count := h.count
  have positive := List.length_pos_iff.mpr h.nonempty
  have text : requestText argv ++ rest =
      '*' :: numberText argv.length ++ crlf ++ (argv.flatMap bulkText ++ rest) := by
    simp [requestText]
  have header : next .header ('*' :: numberText argv.length ++ crlf ++
      (argv.flatMap bulkText ++ rest)) =
      some ⟨.bulklen argv.length [], argv.flatMap bulkText ++ rest, none⟩ := by
    have state : afterHeader ('*' :: numberText argv.length) = .bulklen argv.length [] := by
      rw [afterHeader, number?_numberText (by omega)]
      simp only [if_neg (show ¬(1024 * 1024 < (argv.length : Int)) by omega),
        if_neg (show ¬((argv.length : Int) ≤ 0) by omega), Int.toNat_natCast]
    have line := line?_numberText star argv.length (argv.flatMap bulkText ++ rest)
    simp only [next, line, Option.map_some, state]
  rw [text, Incremental.pull_of_turn lawful header]
  exact pull_bulkText h.nonempty h.words rest

/-- The requests that are complete in the first `len` characters of their text. The
server cannot have executed any other. -/
def arrived : List (List StdString) → Nat → List (List StdString)
  | [], _ => []
  | argv :: reqs, len =>
    if (requestText argv).length ≤ len then
      argv :: arrived reqs (len - (requestText argv).length)
    else []

theorem arrived_append (reqs : List (List StdString)) (len : Nat) :
    ∃ missing, arrived reqs len ++ missing = reqs := by
  induction reqs generalizing len with
  | nil => exact ⟨[], rfl⟩
  | cons argv reqs ih =>
      rw [arrived]
      split_ifs
      · obtain ⟨missing, h⟩ := ih (len - (requestText argv).length)
        exact ⟨missing, congrArg (argv :: ·) h⟩
      · exact ⟨argv :: reqs, rfl⟩

theorem arrived_all (reqs : List (List StdString)) :
    arrived reqs (reqs.flatMap requestText).length = reqs := by
  induction reqs with
  | nil => rfl
  | cons argv reqs ih =>
      rw [List.flatMap_cons, List.length_append, arrived, if_pos (Nat.le_add_right ..),
        Nat.add_sub_cancel_left, ih]

theorem drain_requestText {argv : List StdString} (h : Acceptable argv) (rest : StdString) :
    Incremental.drain next ⟨.header, requestText argv ++ rest⟩ =
      ((Incremental.drain next ⟨.header, rest⟩).1,
        argv :: (Incremental.drain next ⟨.header, rest⟩).2) := by
  rw [Incremental.drain_of_pull lawful, pull_requestText h]
  rfl

/-- Of a part of the stream the parser makes the requests that are complete in it. -/
theorem drain_arrived {reqs : List (List StdString)} (acceptable : ∀ argv ∈ reqs, Acceptable argv)
    {seen more : StdString} (h : seen ++ more = reqs.flatMap requestText) :
    (Incremental.drain next ⟨.header, seen⟩).2 = arrived reqs seen.length := by
  induction reqs generalizing seen with
  | nil =>
      obtain ⟨rfl, rfl⟩ := List.append_eq_nil_iff.mp h
      rfl
  | cons argv reqs ih =>
      have first := acceptable argv (by simp)
      rw [List.flatMap_cons] at h
      rw [arrived]
      split_ifs with complete
      · obtain ⟨tail, rfl, htail⟩ : ∃ tail, seen = requestText argv ++ tail ∧
            tail ++ more = reqs.flatMap requestText := by
          obtain ⟨tail, hs, ht⟩ | ⟨tail, hs, ht⟩ := List.append_eq_append_iff.mp h
          · rw [hs, List.length_append] at complete
            obtain rfl : tail = [] := List.length_eq_zero_iff.mp (by omega)
            exact ⟨[], by rw [hs]; simp, by simpa using ht⟩
          · exact ⟨tail, hs, ht.symm⟩
        rw [drain_requestText first,
          ih (fun a ha => acceptable a (List.mem_cons_of_mem _ ha)) htail,
          List.length_append, Nat.add_sub_cancel_left]
      · obtain ⟨tail, hs, ht⟩ | ⟨tail, hs, -⟩ := List.append_eq_append_iff.mp h
        · have pulled := pull_requestText first []
          rw [List.append_nil, hs] at pulled
          refine Incremental.drain_of_pull_all lawful (c := ⟨QueryState.header, seen⟩) ?_ pulled
          rintro rfl
          rw [hs, List.append_nil] at complete
          exact complete (Nat.le_refl _)
        · rw [hs, List.length_append] at complete
          omega

theorem completable_of_requests {reqs : List (List StdString)}
    (acceptable : ∀ argv ∈ reqs, Acceptable argv) {seen more : StdString}
    (h : seen ++ more = reqs.flatMap requestText) : Completable .header seen := by
  refine ⟨more, ?_⟩
  rw [h]
  clear h
  induction reqs with
  | nil => rfl
  | cons argv reqs ih =>
      rw [List.flatMap_cons, drain_requestText (acceptable argv (by simp))]
      exact ih fun a ha => acceptable a (List.mem_cons_of_mem _ ha)

end QueryParser

end CtpTrade
