import CtpTrade.Redis.Requests

/-!
# The server executes what arrives

The loops of the server on a stream of formatted requests. A client of the server holds
the state of `QueryParser`, and what is left in the query buffer is the input of it.

The limit of a line is tested against the whole buffer, in which large arguments are
too. It is not reached: a large argument is read up to its end, and it leaves the buffer
before the next line.
-/

namespace CtpTrade

open Incremental QueryParser

namespace RedisClient

/-- What the client is in front of. -/
def state (c : RedisClient) : QueryState :=
  if c.multibulklen = 0 then .header
  else if c.bulklen = -1 then .bulklen c.multibulklen.toNat c.argv
  else .argument c.multibulklen.toNat c.argv c.bulklen.toNat

/-- The invariant of a client of the server between two reads. The fields of the request
parser belong together, and the client is neither blocked nor about to be closed. -/
structure Sound (c : RedisClient) : Prop where
  not_inline : c.reqtype ≠ some .inline
  missing : 0 ≤ c.multibulklen
  length : -1 ≤ c.bulklen
  idle : c.multibulklen = 0 → c.argv = [] ∧ c.bulklen = -1
  busy : c.multibulklen ≠ 0 → c.reqtype = some .multibulk
  not_blocked : c.blocked = false
  not_closing : c.closeAfterReply = false

/-- The query buffer is short, or it has nothing else than a large argument that is
being read. The server then reads no more than this argument, so the buffer stays inside
of its limit. -/
def Room (c : RedisClient) (pos : Nat) : Prop :=
  c.querybuf.length ≤ inlineMaxSize ∨
    pos = 0 ∧ mbulkBigArg ≤ c.bulklen ∧ (c.querybuf.length : Int) ≤ c.bulklen + 2

variable {c : RedisClient} {pos m : Nat}

theorem state_bulklen (positive : 0 < c.multibulklen) (unknown : c.bulklen = -1) :
    c.state = .bulklen c.multibulklen.toNat c.argv := by
  rw [state, if_neg (by omega), if_pos unknown]

theorem state_argument {len : Nat} (positive : 0 < c.multibulklen) (known : c.bulklen = len) :
    c.state = .argument c.multibulklen.toNat c.argv len := by
  rw [state, if_neg (by omega), if_neg (by omega), known]
  rfl

theorem Room.short (room : c.Room pos) (unknown : c.bulklen = -1) :
    c.querybuf.length ≤ inlineMaxSize := by
  obtain short | ⟨-, large, -⟩ := room
  · exact short
  · rw [unknown, mbulkBigArg] at large
    omega

/-- The length of an argument is read by a turn of the parser, or both wait. -/
theorem readBulklen_spec (unknown : c.bulklen = -1) (short : c.querybuf.length ≤ inlineMaxSize)
    (fine : Completable (.bulklen m c.argv) (c.querybuf.drop pos)) :
    next (.bulklen m c.argv) (c.querybuf.drop pos) = none ∧ c.readBulklen pos = .wait c pos ∨
    ∃ (q : StdString) (pos' len : Nat),
      c.readBulklen pos = .next { c with querybuf := q, bulklen := len } pos' ∧
      next (.bulklen m c.argv) (c.querybuf.drop pos) =
        some ⟨.argument m c.argv len, q.drop pos', none⟩ ∧
      q.length ≤ c.querybuf.length := by
  rw [readBulklen, if_neg (by simpa using unknown)]
  cases found : strchr (c.querybuf.drop pos) '\r' with
  | none =>
      refine .inl ⟨by rw [next, line?_of_absent found]; rfl, ?_⟩
      exact if_neg (by omega)
  | some n =>
      have length : (c.querybuf.drop pos).length = c.querybuf.length - pos := List.length_drop
      by_cases complete : n + 2 ≤ (c.querybuf.drop pos).length
      · have turn : next (.bulklen m c.argv) (c.querybuf.drop pos) =
            some ⟨afterBulklen m c.argv ((c.querybuf.drop pos).take n),
              (c.querybuf.drop pos).drop (n + 2), none⟩ := by
          rw [next, line?_of_strchr found complete]
          rfl
        obtain ⟨len, hlen, small, state⟩ := afterBulklen_cases (fine.turn turn).not_failed
        obtain ⟨line, hline, value⟩ := exists_cons_of_number? hlen
        simp only [if_neg (show ¬((c.querybuf.length : Int) - 2 < (pos + n : Nat)) by omega)]
        have left : (c.querybuf.drop pos).drop (n + 2) = c.querybuf.drop (pos + (n + 2)) :=
          List.drop_drop
        rw [turn, state, left]
        simp only [hline, value, ne_eq, not_true_eq_false, if_false,
          if_neg (show ¬((len : Int) < 0 ∨ 512 * 1024 * 1024 < (len : Int)) by omega)]
        by_cases large : mbulkBigArg ≤ (len : Int)
        · refine .inr ⟨c.querybuf.drop (pos + (n + 2)), 0, len, if_pos large, by simp, ?_⟩
          rw [List.length_drop]
          omega
        · exact .inr ⟨c.querybuf, pos + (n + 2), len, if_neg large, rfl, Nat.le_refl _⟩
      · refine .inl ⟨by rw [next, line?_of_unfinished found complete]; rfl, ?_⟩
        exact if_pos (by omega)

/-- The argument is taken by a turn of the parser, or both wait. -/
theorem readArgument_spec {len : Nat} (known : c.bulklen = len) (room : c.Room pos) :
    (c.querybuf.drop pos).length < len + 2 ∧ c.readArgument pos = .wait c pos ∨
    ¬(c.querybuf.drop pos).length < len + 2 ∧
      ∃ (q : StdString) (pos' : Nat),
        c.readArgument pos = .next { c with
          querybuf := q
          bulklen := -1
          multibulklen := c.multibulklen - 1
          argv := c.argv ++ [(c.querybuf.drop pos).take len] } pos' ∧
        q.drop pos' = (c.querybuf.drop pos).drop (len + 2) ∧ q.length ≤ inlineMaxSize := by
  have length : (c.querybuf.drop pos).length = c.querybuf.length - pos := List.length_drop
  rw [readArgument, known]
  by_cases short : (c.querybuf.drop pos).length < len + 2
  · exact .inl ⟨short, if_pos (by omega)⟩
  · refine .inr ⟨short, ?_⟩
    rw [if_neg (by omega)]
    by_cases just : pos = 0 ∧ mbulkBigArg ≤ (len : Int) ∧
        (c.querybuf.length : Int) = (len : Int) + 2
    · obtain ⟨rfl, large, exactly⟩ := just
      refine ⟨[], 0, ?_, ?_, by simp⟩
      · simp only [large, exactly, and_self, if_true]
        rw [List.drop_zero, show c.querybuf.length - 2 = len by omega]
      · rw [List.drop_zero, List.drop_zero, List.drop_of_length_le (by omega)]
    · refine ⟨c.querybuf, pos + (len + 2), ?_, List.drop_drop.symm, ?_⟩
      · simp only [if_neg just, Int.toNat_natCast]
      · obtain short | ⟨rfl, large, fits⟩ := room
        · exact short
        · rw [known] at large fits
          rw [List.drop_zero] at short
          exact absurd ⟨rfl, large, by omega⟩ just

/-- The first half of a round, from either state. -/
theorem readBulklen_pull (positive : 0 < c.multibulklen) (bulk : -1 ≤ c.bulklen)
    (room : c.Room pos) (fine : Completable c.state (c.querybuf.drop pos)) :
    next c.state (c.querybuf.drop pos) = none ∧ c.readBulklen pos = .wait c pos ∨
    ∃ (q : StdString) (pos' len : Nat),
      c.readBulklen pos = .next { c with querybuf := q, bulklen := len } pos' ∧
      pull next ⟨c.state, c.querybuf.drop pos⟩ =
        pull next ⟨.argument c.multibulklen.toNat c.argv len, q.drop pos'⟩ ∧
      Completable (.argument c.multibulklen.toNat c.argv len) (q.drop pos') ∧
      { c with querybuf := q, bulklen := len }.Room pos' := by
  by_cases unknown : c.bulklen = -1
  · have short := room.short unknown
    rw [state_bulklen positive unknown] at fine ⊢
    refine (readBulklen_spec unknown short fine).imp id ?_
    rintro ⟨q, pos', len, read, turn, shorter⟩
    exact ⟨q, pos', len, read, pull_of_turn lawful (c := ⟨_, _⟩) turn, fine.turn turn,
      .inl (Nat.le_trans shorter short)⟩
  · obtain ⟨len, known⟩ := Int.eq_ofNat_of_zero_le (by omega : 0 ≤ c.bulklen)
    have front := state_argument positive known
    have same : { c with querybuf := c.querybuf, bulklen := (len : Int) } = c := by
      rw [← known]
    refine .inr ⟨c.querybuf, pos, len, ?_, by rw [front], front ▸ fine, ?_⟩
    · rw [readBulklen, if_pos unknown, same]
    · rwa [same]

/-- The loop over the arguments, as far as the buffer goes: it pulls one request. -/
theorem readArguments_spec {missing : Nat} (count : c.multibulklen = missing)
    (positive : 0 < missing) (bulk : -1 ≤ c.bulklen) (room : c.Room pos)
    (fine : Completable c.state (c.querybuf.drop pos)) :
    (∃ (q : StdString) (a : List StdString) (pos' : Nat),
      readArguments missing c pos = .next { c with
        querybuf := q
        bulklen := -1
        multibulklen := 0
        argv := a } pos' ∧
      pull next ⟨c.state, c.querybuf.drop pos⟩ = (⟨.header, q.drop pos'⟩, some a) ∧
      a ≠ [] ∧ q.length ≤ inlineMaxSize) ∨
    ∃ c' pos', readArguments missing c pos = .wait c' pos' ∧
      pull next ⟨c.state, c.querybuf.drop pos⟩ = (⟨c'.state, c'.querybuf.drop pos'⟩, none) ∧
      0 < c'.multibulklen ∧ -1 ≤ c'.bulklen ∧ c'.reqtype = c.reqtype ∧ c'.output = c.output ∧
      c'.blocked = c.blocked ∧ c'.closeAfterReply = c.closeAfterReply := by
  induction missing generalizing c pos with
  | zero => omega
  | succ missing ih =>
      obtain ⟨waits, read⟩ | ⟨q, pos₁, len, read, same, fine, room⟩ :=
        readBulklen_pull (by omega) bulk room fine
      · refine .inr ⟨c, pos, by rw [readArguments, read], pull_of_waits waits, by omega, bulk,
          rfl, rfl, rfl, rfl⟩
      · have number : c.multibulklen.toNat = missing + 1 := by omega
        rw [number] at same fine
        have positive' : 0 < { c with querybuf := q, bulklen := (len : Int) }.multibulklen := by
          simp only
          omega
        have known : { c with querybuf := q, bulklen := (len : Int) }.bulklen = (len : Int) := rfl
        rw [readArguments, read, same]
        obtain ⟨short, wait⟩ | ⟨enough, q', pos₂, taken, rest, small⟩ :=
          readArgument_spec known room
        · refine .inr ⟨{ c with querybuf := q, bulklen := len }, pos₁, by simp only [wait], ?_, ?_,
            ?_, rfl, rfl, rfl, rfl⟩
          · rw [state_argument positive' known, ← number]
            exact pull_of_waits (if_pos short)
          · simp only
            omega
          · simp only
            omega
        · simp only [taken]
          obtain rfl | more := Nat.eq_zero_or_pos missing
          · have turn : next (.argument (0 + 1) c.argv len) (q.drop pos₁) =
                some ⟨.header, q'.drop pos₂, some (c.argv ++ [(q.drop pos₁).take len])⟩ := by
              rw [Nat.zero_add, next_argument_last enough, rest]
            refine .inl ⟨q', c.argv ++ [(q.drop pos₁).take len], pos₂, ?_,
              pull_of_turn lawful (c := ⟨_, _⟩) turn, by simp, small⟩
            have done : c.multibulklen - 1 = 0 := by omega
            simp only [readArguments, done]
          · have turn : next (.argument (missing + 1) c.argv len) (q.drop pos₁) =
                some ⟨.bulklen missing (c.argv ++ [(q.drop pos₁).take len]), q'.drop pos₂,
                  none⟩ := by
              rw [next_argument_more enough more, rest]
            let held : RedisClient := { c with
              querybuf := q'
              bulklen := -1
              multibulklen := c.multibulklen - 1
              argv := c.argv ++ [(q.drop pos₁).take len] }
            have count' : held.multibulklen = missing := by
              simp only [held]
              omega
            have front := state_bulklen (c := held) (by omega) rfl
            rw [count', Int.toNat_natCast] at front
            have room' : held.Room pos₂ := .inl small
            have later := ih count' more (by simp [held]) room'
            rw [front] at later
            rw [pull_of_turn lawful (c := ⟨_, _⟩) turn]
            exact later (fine.turn turn)

/-- The number of arguments is read by a turn of the parser, or both wait. -/
theorem readMultibulklen_spec (front : c.multibulklen = 0) (unset : c.argv = [])
    (fine : Completable .header c.querybuf) :
    next .header c.querybuf = none ∧ c.readMultibulklen = .ok (c, 0, some false) ∨
    ∃ pos, (next .header c.querybuf = some ⟨.header, c.querybuf.drop pos, none⟩ ∧
        c.readMultibulklen = .ok ({ c with querybuf := c.querybuf.drop pos }, pos, some true)) ∨
      ∃ count : Nat, 0 < count ∧
        next .header c.querybuf = some ⟨.bulklen count [], c.querybuf.drop pos, none⟩ ∧
        c.readMultibulklen = .ok ({ c with multibulklen := count }, pos, none) := by
  rw [readMultibulklen, if_neg (by simpa using front), if_neg (by simpa using unset)]
  cases found : strchr c.querybuf '\r' with
  | none =>
      have waits : next .header c.querybuf = none := by
        rw [next, line?_of_absent found]
        rfl
      have short := fine.short (.inl rfl) waits
      exact .inl ⟨waits, if_neg (by rw [inlineMaxSize]; omega)⟩
  | some n =>
      by_cases complete : n + 2 ≤ c.querybuf.length
      · have turn : next .header c.querybuf =
            some ⟨afterHeader (c.querybuf.take n), c.querybuf.drop (n + 2), none⟩ := by
          rw [next, line?_of_strchr found complete]
          rfl
        obtain ⟨ll, hll, small, state⟩ := afterHeader_cases (fine.turn turn).not_failed
        obtain ⟨line, hline, value⟩ := exists_cons_of_number? hll
        have star : c.querybuf.head? = some '*' := by rw [hline]; rfl
        have digits : string2ll ((c.querybuf.drop 1).take (n - 1)) = some ll := by
          rw [hline]
          exact value
        simp only [if_neg (show ¬((c.querybuf.length : Int) - 2 < n) by omega), star, ne_eq,
          not_true_eq_false, if_false, digits, if_neg (show ¬(1024 * 1024 < ll) by omega)]
        rw [turn, state]
        refine .inr ⟨n + 2, ?_⟩
        by_cases empty : ll ≤ 0
        · exact .inl ⟨by rw [if_pos empty], if_pos empty⟩
        · obtain ⟨count, rfl⟩ := Int.eq_ofNat_of_zero_le (by omega : 0 ≤ ll)
          refine .inr ⟨count, by omega, ?_, if_neg empty⟩
          rw [if_neg empty]
          rfl
      · refine .inl ⟨by rw [next, line?_of_unfinished found complete]; rfl, ?_⟩
        exact if_pos (by omega)

/-- Behind the number of arguments. -/
theorem processMultibulkBuffer_arguments {c₁ : RedisClient}
    (read : c.readMultibulklen = .ok (c₁, pos, none)) (positive : 0 < c₁.multibulklen)
    (bulk : -1 ≤ c₁.bulklen) (type : c₁.reqtype = some .multibulk)
    (both : c₁.blocked = false ∧ c₁.closeAfterReply = false) (room : c₁.Room pos)
    (fine : Completable c₁.state (c₁.querybuf.drop pos)) :
    (∃ c', c.processMultibulkBuffer = .ok (c', false) ∧ c'.Sound ∧ c'.output = c₁.output ∧
      pull next ⟨c₁.state, c₁.querybuf.drop pos⟩ = (⟨c'.state, c'.querybuf⟩, none)) ∨
    ∃ (q : StdString) (a : List StdString),
      c.processMultibulkBuffer = .ok ({ c₁ with
        querybuf := q
        bulklen := -1
        multibulklen := 0
        argv := a }, true) ∧ q.length ≤ inlineMaxSize ∧
      a ≠ [] ∧ pull next ⟨c₁.state, c₁.querybuf.drop pos⟩ = (⟨.header, q⟩, some a) := by
  have count : c₁.multibulklen = c₁.multibulklen.toNat := by omega
  obtain ⟨q, a, pos', arguments, pulled, some, short⟩ |
    ⟨c', pos', arguments, pulled, missing, bulk', same_type, same_output, same_blocked,
      same_close⟩ :=
    readArguments_spec count (by omega) bulk room fine
  · refine .inr ⟨q.drop pos', a, ?_, ?_, some, pulled⟩
    · rw [processMultibulkBuffer, read]
      simp [bind, Except.bind, pure, Except.pure, arguments, positive]
    · rw [List.length_drop]
      omega
  · refine .inl ⟨{ c' with querybuf := c'.querybuf.drop pos' }, ?_, ?_, same_output, pulled⟩
    · rw [processMultibulkBuffer, read]
      simp [bind, Except.bind, pure, Except.pure, arguments, positive, Int.ne_of_gt missing]
    · exact {
        not_inline := by simp [same_type, type]
        missing := Int.le_of_lt missing
        length := bulk'
        idle := fun zero => by simp only at zero; omega
        busy := fun _ => same_type.trans type
        not_blocked := same_blocked.trans both.1
        not_closing := same_close.trans both.2 }

/-- The client has been given one request of the parser, or none, and waits. -/
theorem processMultibulkBuffer_spec (sound : c.Sound) (type : c.reqtype = some .multibulk)
    (room : c.Room 0) (fine : Completable c.state c.querybuf) :
    (∃ c', c.processMultibulkBuffer = .ok (c', false) ∧ c'.Sound ∧ c'.output = c.output ∧
      pull next ⟨c.state, c.querybuf⟩ = (⟨c'.state, c'.querybuf⟩, none)) ∨
    ∃ (q : StdString) (a : List StdString),
      c.processMultibulkBuffer = .ok ({ c with
        querybuf := q
        bulklen := -1
        multibulklen := 0
        argv := a }, true) ∧ q.length ≤ inlineMaxSize ∧
      (a = [] ∧ next c.state c.querybuf = some ⟨.header, q, none⟩ ∨
        a ≠ [] ∧ pull next ⟨c.state, c.querybuf⟩ = (⟨.header, q⟩, some a)) := by
  have both := And.intro sound.not_blocked sound.not_closing
  by_cases front : c.multibulklen = 0
  · obtain ⟨unset, unknown⟩ := sound.idle front
    have header : c.state = .header := if_pos front
    have short := room.short unknown
    rw [header] at fine ⊢
    obtain ⟨waits, read⟩ | ⟨pos, ⟨turn, read⟩ | ⟨count, positive, turn, read⟩⟩ :=
      readMultibulklen_spec front unset fine
    · refine .inl ⟨c, by rw [processMultibulkBuffer, read]; rfl, sound, rfl, ?_⟩
      rw [header]
      exact pull_of_waits waits
    · refine .inr ⟨c.querybuf.drop pos, [], ?_, ?_, .inl ⟨rfl, turn⟩⟩
      · rw [processMultibulkBuffer, read, ← unset, ← unknown, ← front]
        rfl
      · rw [List.length_drop]
        omega
    · rw [pull_of_turn lawful (c := ⟨.header, c.querybuf⟩) turn]
      have behind := fine.turn turn
      let held : RedisClient := { c with multibulklen := count }
      have state : held.state = .bulklen count [] := by
        rw [state_bulklen (c := held) (by simp only [held]; omega) unknown]
        exact congrArg _ unset
      have some_missing : 0 < held.multibulklen := by
        simp only [held]
        omega
      have arguments := processMultibulkBuffer_arguments read some_missing sound.length type both
        (.inl short)
      rw [state] at arguments
      obtain waits | ⟨q, a, read, small, some, pulled⟩ := arguments behind
      · exact .inl waits
      · exact .inr ⟨q, a, read, small, .inr ⟨some, pulled⟩⟩
  · have read : c.readMultibulklen = .ok (c, 0, none) := by
      rw [readMultibulklen, if_pos front]
    have missing := sound.missing
    have arguments := processMultibulkBuffer_arguments read (by omega) sound.length type both room
    rw [List.drop_zero] at arguments
    obtain waits | ⟨q, a, read, small, some, pulled⟩ := arguments fine
    · exact .inl waits
    · exact .inr ⟨q, a, read, small, .inr ⟨some, pulled⟩⟩

/-- In front of an argument something of it is missing. -/
theorem length_lt_of_waits {len : Nat} (positive : 0 < c.multibulklen) (known : c.bulklen = len)
    (waits : next c.state c.querybuf = none) : c.querybuf.length < len + 2 := by
  rw [state_argument positive known, next] at waits
  by_contra enough
  rw [if_neg enough] at waits
  split_ifs at waits

/-- A new read leaves room, as long as it gives no more than it asks for. -/
theorem Sound.room (sound : c.Sound) (waits : next c.state c.querybuf = none)
    (fine : Completable c.state c.querybuf) {buf : StdString} (asked : buf.length ≤ c.readlen) :
    { c with querybuf := c.querybuf ++ buf }.Room 0 := by
  have missing := sound.missing
  have bulk := sound.length
  have plain : c.readlen ≤ iobufLen := by
    rw [readlen]
    split_ifs
    · exact Nat.min_le_left ..
    · exact Nat.le_refl _
  have line (h : c.querybuf.length ≤ 23) : { c with querybuf := c.querybuf ++ buf }.Room 0 := by
    left
    simp only [List.length_append, inlineMaxSize, iobufLen] at plain ⊢
    omega
  by_cases front : c.multibulklen = 0
  · have header : c.state = .header := if_pos front
    exact line (fine.short (.inl header) waits)
  · by_cases unknown : c.bulklen = -1
    · have state := state_bulklen (by omega) unknown
      exact line (fine.short (.inr ⟨_, _, state⟩) waits)
    · obtain ⟨len, known⟩ := Int.eq_ofNat_of_zero_le (by omega : 0 ≤ c.bulklen)
      have short := length_lt_of_waits (by omega) known waits
      by_cases large : mbulkBigArg ≤ c.bulklen
      · right
        rw [readlen, if_pos ⟨sound.busy front, front, unknown, large⟩, Nat.le_min] at asked
        refine ⟨rfl, large, ?_⟩
        simp only [List.length_append]
        omega
      · left
        simp only [List.length_append, inlineMaxSize, iobufLen, mbulkBigArg] at plain large ⊢
        omega

/-- So the query buffer stays below its limit. -/
theorem Sound.below_limit (sound : c.Sound) (announced : Announced c.state)
    {buf : StdString} (room : { c with querybuf := c.querybuf ++ buf }.Room 0) :
    (c.querybuf ++ buf).length ≤ maxQuerybufLen := by
  obtain short | ⟨-, large, full⟩ := room
  · simp only [inlineMaxSize] at short
    rw [maxQuerybufLen]
    omega
  · simp only [mbulkBigArg] at large full
    have missing := sound.missing
    have inside : c.multibulklen ≠ 0 := by
      intro front
      have := (sound.idle front).2
      omega
    obtain ⟨len, known⟩ := Int.eq_ofNat_of_zero_le (by omega : 0 ≤ c.bulklen)
    rw [state_argument (by omega) known, Announced] at announced
    rw [maxQuerybufLen]
    omega

/-- The beginning of a request needs something. -/
theorem Sound.next_nil (sound : c.Sound) : next c.state [] = none := by
  have missing := sound.missing
  by_cases front : c.multibulklen = 0
  · rw [state, if_pos front]
    rfl
  · by_cases unknown : c.bulklen = -1
    · rw [state_bulklen (by omega) unknown]
      rfl
    · rw [state, if_neg front, if_neg unknown, next]
      exact if_pos (Nat.succ_pos _)

end RedisClient

section Commands

variable {σ : Type} (processCommand : σ → List StdString → CommandResult σ)
  (clientsArePaused : σ → Bool)

/-- The requests one after the other, with the text of all replies. It is `none` where a
command blocks the client, closes it or holds it back, and where the clients are paused. -/
def executeAll : σ → List (List StdString) → Option (σ × StdString)
  | server, [] => if clientsArePaused server then none else some (server, [])
  | server, argv :: reqs =>
    let result := processCommand server argv
    if !clientsArePaused server ∧ result.ok ∧ !result.blocks ∧ !result.closes then
      (executeAll result.server reqs).map fun later => (later.1, result.reply ++ later.2)
    else none

variable {processCommand clientsArePaused} {c : RedisClient} {server server' : σ} {out : StdString}

theorem executeAll_cons {argv : List StdString} {reqs : List (List StdString)}
    (h : executeAll processCommand clientsArePaused server (argv :: reqs) = some (server', out)) :
    ∃ result out', processCommand server argv = result ∧ result.ok = true ∧
      result.blocks = false ∧ result.closes = false ∧ out = result.reply ++ out' ∧
      executeAll processCommand clientsArePaused result.server reqs = some (server', out') := by
  simp only [executeAll] at h
  split_ifs at h with plain
  obtain ⟨-, ok, blocks, closes⟩ := plain
  obtain ⟨⟨last, out'⟩, later, same⟩ := Option.map_eq_some_iff.mp h
  obtain ⟨rfl, rfl⟩ := Prod.mk.inj same
  exact ⟨_, out', rfl, ok, by simpa using blocks, by simpa using closes, rfl, later⟩

theorem not_paused_of_executeAll {reqs : List (List StdString)} {result : σ × StdString}
    (h : executeAll processCommand clientsArePaused server reqs = some result) :
    clientsArePaused server = false := by
  cases reqs with
  | nil =>
      rw [executeAll] at h
      split_ifs at h with paused
      simpa using paused
  | cons argv reqs =>
      simp only [executeAll] at h
      split_ifs at h with plain
      simpa using plain.1

theorem executeAll_none
    (h : executeAll processCommand clientsArePaused server [] = some (server', out)) :
    server = server' ∧ out = [] := by
  rw [executeAll] at h
  split_ifs at h
  cases h
  exact ⟨rfl, rfl⟩

theorem executeAll_append (reqs reqs' : List (List StdString)) :
    executeAll processCommand clientsArePaused server (reqs ++ reqs') =
      (executeAll processCommand clientsArePaused server reqs).bind fun first =>
        (executeAll processCommand clientsArePaused first.1 reqs').map fun later =>
          (later.1, first.2 ++ later.2) := by
  induction reqs generalizing server with
  | nil =>
      rw [List.nil_append, executeAll]
      cases later : executeAll processCommand clientsArePaused server reqs' with
      | none => split_ifs <;> simp [later]
      | some result => simp [not_paused_of_executeAll later, later]
  | cons argv reqs ih =>
      rw [List.cons_append, executeAll, executeAll]
      split_ifs
      · rw [ih]
        cases executeAll processCommand clientsArePaused (processCommand server argv).server
          reqs with
        | none => rfl
        | some first => simp [Function.comp_def, List.append_assoc]
      · rfl

/-- A client in front of a request. -/
theorem RedisClient.Sound.reset (sound : c.Sound) (q output : StdString) (b m : Int)
    (a : List StdString) :
    { c with querybuf := q, bulklen := b, multibulklen := m, argv := a, output := output
      }.resetClient.Sound where
  not_inline := by simp [resetClient]
  missing := by simp [resetClient]
  length := by simp [resetClient]
  idle := fun _ => ⟨rfl, rfl⟩
  busy := fun busy => absurd rfl busy
  not_blocked := sound.not_blocked
  not_closing := sound.not_closing

theorem executeRequest_plain (sound : c.Sound) (q : StdString) (b m : Int) {a : List StdString}
    (some : a ≠ []) {result : CommandResult σ} (run : processCommand server a = result)
    (ok : result.ok = true) (blocks : result.blocks = false) (closes : result.closes = false) :
    executeRequest processCommand server
        { c with querybuf := q, bulklen := b, multibulklen := m, argv := a } =
      (result.server, { c with
        querybuf := q
        bulklen := b
        multibulklen := m
        argv := a
        output := c.output ++ result.reply }.resetClient) := by
  have blocked := sound.not_blocked
  have closing := sound.not_closing
  simp only [executeRequest, if_neg some, run, ok, blocks, closes, if_true, Bool.or_false,
    RedisClient.addReplyString, closing, Bool.false_eq_true, if_false]

theorem executeAll_nil (sound : c.Sound) (empty : c.querybuf = [])
    (executed : executeAll processCommand clientsArePaused server
      (drain next ⟨c.state, c.querybuf⟩).2 = some (server', out)) :
    server = server' ∧ out = [] ∧
      (drain next ⟨c.state, c.querybuf⟩).1 = ⟨c.state, c.querybuf⟩ := by
  have waits : Waits next ⟨c.state, c.querybuf⟩ := by
    rw [empty]
    exact sound.next_nil
  rw [drain_of_waits waits] at executed ⊢
  obtain ⟨rfl, rfl⟩ := executeAll_none executed
  exact ⟨rfl, rfl, rfl⟩

section Rounds

variable {c' : RedisClient} {fuel : Nat} {ok : Bool}
  (active : ¬(c.querybuf = [] ∨ clientsArePaused server = true ∨ c.blocked = true ∨
    c.closeAfterReply = true))
  (type : c.reqtype.getD (if c.querybuf.head? = some '*' then .multibulk else .inline) =
    .multibulk)

include active type

theorem processInputLoop_wait
    (wait : { c with reqtype := some .multibulk }.processMultibulkBuffer = .ok (c', false)) :
    processInputLoop processCommand clientsArePaused (fuel + 1) server c = .ok (server, c') := by
  rw [processInputLoop, if_neg active, type]
  simp only [wait]
  rfl

theorem processInputLoop_request
    (read : { c with reqtype := some .multibulk }.processMultibulkBuffer = .ok (c', true)) :
    processInputLoop processCommand clientsArePaused (fuel + 1) server c =
      processInputLoop processCommand clientsArePaused fuel
        (executeRequest processCommand server c').1
        (executeRequest processCommand server c').2 := by
  rw [processInputLoop, if_neg active, type]
  simp only [read]
  rfl

end Rounds

/-- Where requests go on, the type of the next one is `multibulk`, known already or not. -/
theorem RedisClient.Sound.type (sound : c.Sound) (fine : Completable c.state c.querybuf)
    (some : c.querybuf ≠ []) :
    c.reqtype.getD (if c.querybuf.head? = .some '*' then .multibulk else .inline) =
      .multibulk := by
  cases known : c.reqtype with
  | none =>
      have front : c.multibulklen = 0 := by
        by_contra busy
        rw [sound.busy busy] at known
        cases known
      have header : c.state = .header := if_pos front
      rw [header] at fine
      exact if_pos (fine.head? some)
  | some type =>
      cases type with
      | multibulk => rfl
      | inline => exact absurd known sound.not_inline

theorem RedisClient.Sound.typed (sound : c.Sound) :
    RedisClient.Sound { c with reqtype := some .multibulk } where
  not_inline := by simp
  missing := sound.missing
  length := sound.length
  idle := sound.idle
  busy := fun _ => rfl
  not_blocked := sound.not_blocked
  not_closing := sound.not_closing

/-- The loop executes what the parser pulls from the query buffer, up to where it waits. -/
theorem processInputLoop_spec {fuel : Nat} (sound : c.Sound) (room : c.Room 0)
    (fine : Completable c.state c.querybuf) (enough : c.querybuf.length ≤ fuel)
    (executed : executeAll processCommand clientsArePaused server
      (drain next ⟨c.state, c.querybuf⟩).2 = some (server', out)) :
    ∃ c', processInputLoop processCommand clientsArePaused fuel server c = .ok (server', c') ∧
      c'.Sound ∧
      (drain next ⟨c.state, c.querybuf⟩).1 = ⟨c'.state, c'.querybuf⟩ ∧
      c'.output = c.output ++ out := by
  induction fuel generalizing server c out with
  | zero =>
      have empty : c.querybuf = [] := List.length_eq_zero_iff.mp (Nat.le_zero.mp enough)
      obtain ⟨rfl, rfl, drained⟩ := executeAll_nil sound empty executed
      exact ⟨c, if_pos empty, sound, drained, (List.append_nil _).symm⟩
  | succ fuel ih =>
      by_cases empty : c.querybuf = []
      · obtain ⟨rfl, rfl, drained⟩ := executeAll_nil sound empty executed
        exact ⟨c, if_pos (.inl empty), sound, drained, (List.append_nil _).symm⟩
      · have type := sound.type fine empty
        have active : ¬(c.querybuf = [] ∨ clientsArePaused server = true ∨ c.blocked = true ∨
            c.closeAfterReply = true) := by
          simp [empty, not_paused_of_executeAll executed, sound.not_blocked, sound.not_closing]
        obtain ⟨c', wait, sound', same, pulled⟩ | ⟨q, a, read, small, step⟩ :=
          RedisClient.processMultibulkBuffer_spec sound.typed rfl room fine
        · have waits : Waits next ⟨c'.state, c'.querybuf⟩ := by
            have := waits_of_pull lawful (c := ⟨c.state, c.querybuf⟩) (congrArg Prod.snd pulled)
            rwa [show pull next ⟨c.state, c.querybuf⟩ = _ from pulled] at this
          have drained : drain next ⟨c.state, c.querybuf⟩ = (⟨c'.state, c'.querybuf⟩, []) := by
            rw [drain_of_pull lawful, show pull next ⟨c.state, c.querybuf⟩ = _ from pulled,
              drain_of_waits waits]
            rfl
          rw [drained] at executed ⊢
          obtain ⟨rfl, rfl⟩ := executeAll_none executed
          exact ⟨c', processInputLoop_wait active type wait, sound', rfl,
            by rw [same, List.append_nil]⟩
        · have behind : (a = [] ∧ next c.state c.querybuf = some ⟨.header, q, none⟩ ∨
              a ≠ [] ∧ pull next ⟨c.state, c.querybuf⟩ = (⟨.header, q⟩, some a)) := step
          rw [processInputLoop_request active type read]
          obtain ⟨rfl, turn⟩ | ⟨some, pulled⟩ := behind
          · have shorter : q.length < c.querybuf.length := lawful.shrinks turn
            have reset := sound.reset q c.output (-1) 0 []
            rw [drain_of_turn lawful (c := ⟨c.state, c.querybuf⟩) turn] at executed ⊢
            have left : q.length ≤ fuel := by omega
            exact ih reset (.inl small) (fine.turn turn) left executed
          · have shorter : q.length < c.querybuf.length := by
              have := pull_shrinks lawful (c := ⟨c.state, c.querybuf⟩) (congrArg Prod.snd pulled)
              rwa [pulled] at this
            have later_fine := fine.pull (c := ⟨c.state, c.querybuf⟩)
            rw [pulled] at later_fine
            rw [drain_of_pull lawful, pulled] at executed ⊢
            obtain ⟨result, out', command, ok, blocks, closes, rfl, later⟩ :=
              executeAll_cons executed
            have reset := sound.reset q (c.output ++ result.reply) (-1) 0 a
            have left : q.length ≤ fuel := by omega
            obtain ⟨c', run, sound', drained, output⟩ :=
              ih reset (.inl small) later_fine left later
            refine ⟨c', ?_, sound', drained, by rw [output]; exact List.append_assoc ..⟩
            have request := executeRequest_plain sound.typed q (-1) 0 some command ok blocks closes
            rw [← run]
            exact congrArg
              (fun next => processInputLoop processCommand clientsArePaused fuel next.1 next.2)
              request

/-- The invariant of the service. From the bytes `seen` the server has parsed what the
parser takes from all of them at once, has executed the requests that are complete in
them, and has written their answers; `first` is the data that it has begun with. -/
structure Serving (processCommand : σ → List StdString → CommandResult σ)
    (clientsArePaused : σ → Bool) (first : σ) (seen : StdString) (server : σ)
    (c : RedisClient) : Prop where
  sound : c.Sound
  parsed : (drain next ⟨.header, seen⟩).1 = ⟨c.state, c.querybuf⟩
  executed : executeAll processCommand clientsArePaused first (drain next ⟨.header, seen⟩).2 =
    some (server, c.output)

variable {first : σ} {seen buf : StdString}

theorem serving_create (running : clientsArePaused server = false) :
    Serving processCommand clientsArePaused server [] server .create where
  sound := {
    not_inline := by simp [RedisClient.create]
    missing := Int.le_refl _
    length := Int.le_refl _
    idle := fun _ => ⟨rfl, rfl⟩
    busy := fun busy => absurd rfl busy
    not_blocked := rfl
    not_closing := rfl }
  parsed := rfl
  executed := by
    have waits : Waits next ⟨.header, []⟩ := rfl
    rw [drain_of_waits waits, executeAll, running]
    rfl

namespace Serving

theorem waits (h : Serving processCommand clientsArePaused first seen server c) :
    next c.state c.querybuf = none := by
  have := waits_drain lawful ⟨.header, seen⟩
  rwa [h.parsed] at this

theorem announced (h : Serving processCommand clientsArePaused first seen server c) :
    Announced c.state := by
  have := announced_drain (c := ⟨.header, seen⟩) trivial
  rwa [h.parsed] at this

theorem completable (h : Serving processCommand clientsArePaused first seen server c)
    (fine : Completable .header (seen ++ buf)) : Completable c.state (c.querybuf ++ buf) := by
  obtain ⟨more, last⟩ := fine
  refine ⟨more, ?_⟩
  rw [List.append_assoc] at last ⊢
  have fed := drain_feed lawful ⟨.header, seen⟩ (buf ++ more)
  rw [h.parsed] at fed
  rw [← last]
  exact (congrArg Prod.fst fed).symm

/-- A read executes the requests that it completes. -/
theorem read (h : Serving processCommand clientsArePaused first seen server c)
    (fine : Completable .header (seen ++ buf)) (asked : buf.length ≤ c.readlen)
    (executed : executeAll processCommand clientsArePaused first
      (drain next ⟨.header, seen ++ buf⟩).2 = some (server', out)) :
    ∃ c', readQueryFromClient processCommand clientsArePaused server c buf = .ok (server', c') ∧
      Serving processCommand clientsArePaused first (seen ++ buf) server' c' ∧
      c.output <+: c'.output := by
  have behind := h.completable fine
  have fed : drain next ⟨.header, seen ++ buf⟩ =
      ((drain next ⟨c.state, c.querybuf ++ buf⟩).1,
        (drain next ⟨.header, seen⟩).2 ++ (drain next ⟨c.state, c.querybuf ++ buf⟩).2) := by
    have := drain_feed lawful ⟨.header, seen⟩ buf
    rw [h.parsed] at this
    exact this
  rw [fed, executeAll_append, h.executed, Option.bind_some] at executed
  obtain ⟨⟨last, out'⟩, later, same⟩ := Option.map_eq_some_iff.mp executed
  obtain ⟨rfl, rfl⟩ := Prod.mk.inj same
  let filled : RedisClient := { c with querybuf := c.querybuf ++ buf }
  have sound : filled.Sound := { h.sound with }
  have room : filled.Room 0 := h.sound.room h.waits behind.of_append asked
  obtain ⟨c', run, sound', drained, output⟩ := processInputLoop_spec (c := filled) sound
    room behind (Nat.le_refl _) later
  have limit : ¬maxQuerybufLen < (c.querybuf ++ buf).length :=
    Nat.not_lt.mpr (h.sound.below_limit h.announced room)
  refine ⟨c', (if_neg limit).trans run, ⟨sound', ?_, ?_⟩, ⟨out', output.symm⟩⟩
  · rw [fed]
    exact drained
  · rw [fed, executeAll_append, h.executed, Option.bind_some]
    have later' : executeAll processCommand clientsArePaused server
        (drain next ⟨c.state, c.querybuf ++ buf⟩).2 = some (last, out') := later
    rw [later', Option.map_some, output]

/-- Before a read something is asked for. -/
theorem readlen_pos (h : Serving processCommand clientsArePaused first seen server c) :
    0 < c.readlen := by
  have missing := h.sound.missing
  rw [RedisClient.readlen]
  split_ifs with large
  · obtain ⟨-, front, -, large⟩ := large
    rw [mbulkBigArg] at large
    obtain ⟨len, known⟩ := Int.eq_ofNat_of_zero_le (by omega : 0 ≤ c.bulklen)
    have short := RedisClient.length_lt_of_waits (by omega) known h.waits
    rw [iobufLen, Nat.lt_min]
    omega
  · decide

end Serving

variable {reqs : List (List StdString)}

/-- The commands only answer, so those that have arrived do. -/
theorem exists_executeAll_arrived
    (plain : (executeAll processCommand clientsArePaused first reqs).isSome) (len : Nat) :
    ∃ server' out, executeAll processCommand clientsArePaused first (arrived reqs len) =
      some (server', out) := by
  obtain ⟨missing, whole⟩ := arrived_append reqs len
  rw [← whole, executeAll_append] at plain
  cases executed : executeAll processCommand clientsArePaused first (arrived reqs len) with
  | none => simp [executed] at plain
  | some result => exact ⟨result.1, result.2, rfl⟩

theorem serveStream_spec (acceptable : ∀ argv ∈ reqs, Acceptable argv)
    (plain : (executeAll processCommand clientsArePaused first reqs).isSome) (sizes : List Nat)
    {stream : StdString}
    (whole : seen ++ stream = reqs.flatMap requestText)
    (h : Serving processCommand clientsArePaused first seen server c) :
    ∃ server' c' seen' rest,
      serveStream processCommand clientsArePaused sizes server c stream = .ok (server', c', rest) ∧
        seen' ++ rest = reqs.flatMap requestText ∧
        Serving processCommand clientsArePaused first seen' server' c' ∧
        ((∀ present ∈ sizes, 0 < present) → rest.length ≤ stream.length - sizes.length) := by
  induction sizes generalizing server c seen stream with
  | nil => exact ⟨server, c, seen, stream, rfl, whole, h, fun _ => Nat.le_refl _⟩
  | cons present sizes ih =>
      have positive := h.readlen_pos
      let nread := min present c.readlen
      by_cases nothing : stream.take nread = []
      · obtain ⟨server', c', seen', rest, run, whole', serving, progress⟩ := ih whole h
        refine ⟨server', c', seen', rest, ?_, whole', serving, fun some => ?_⟩
        · rw [serveStream]
          simp only [nread] at nothing
          simp only [nothing, if_true]
          exact run
        · have later := progress fun n hn => some n (List.mem_cons_of_mem _ hn)
          have here := some present (by simp)
          have none : stream.length = 0 := by
            have := congrArg List.length nothing
            rw [List.length_take, List.length_nil] at this
            omega
          rw [none] at later ⊢
          omega
      · have split : stream.take nread ++ stream.drop nread = stream := List.take_append_drop ..
        have whole' : seen ++ stream.take nread ++ stream.drop nread =
            reqs.flatMap requestText := by rw [List.append_assoc, split, whole]
        have asked : (stream.take nread).length ≤ c.readlen := by
          rw [List.length_take]
          omega
        obtain ⟨server₁, out, executed⟩ :=
          exists_executeAll_arrived plain (seen ++ stream.take nread).length
        rw [← drain_arrived acceptable whole'] at executed
        obtain ⟨c₁, read, serving₁, -⟩ :=
          h.read (completable_of_requests acceptable whole') asked executed
        obtain ⟨server', c', seen', rest, run, whole'', serving, progress⟩ := ih whole' serving₁
        refine ⟨server', c', seen', rest, ?_, whole'', serving, fun some => ?_⟩
        · rw [serveStream]
          simp only [nread] at nothing read run
          simp only [nothing, if_false, read]
          exact run
        · have later := progress fun n hn => some n (List.mem_cons_of_mem _ hn)
          have here := some present (by simp)
          rw [List.length_drop] at later
          have : 0 < nread := by
            rw [Nat.lt_min]
            omega
          rw [List.length_cons]
          omega

/-- The requests are ones whose commands neither block the client, nor close it, nor pause
the clients. However their stream arrives, the server executes the requests that are
complete in what it has read, in their order, and answers with their replies; its query
buffer never comes to its limit. It comes to the end of the stream, if only something
arrives for every read. -/
theorem server_executes_requests (acceptable : ∀ argv ∈ reqs, Acceptable argv) (server : σ)
    (plain : (executeAll processCommand clientsArePaused server reqs).isSome) (sizes : List Nat) :
    ∃ server' c seen rest,
      serveStream processCommand clientsArePaused sizes server .create (reqs.flatMap requestText) =
        .ok (server', c, rest) ∧
      seen ++ rest = reqs.flatMap requestText ∧
      executeAll processCommand clientsArePaused server (arrived reqs seen.length) =
        some (server', c.output) ∧
      ((∀ present ∈ sizes, 0 < present) →
        (reqs.flatMap requestText).length ≤ sizes.length → arrived reqs seen.length = reqs) := by
  obtain ⟨_, executed⟩ := Option.isSome_iff_exists.mp plain
  have running := not_paused_of_executeAll executed
  obtain ⟨server', c, seen, rest, run, whole, serving, progress⟩ :=
    serveStream_spec acceptable plain sizes (List.nil_append _) (serving_create running)
  refine ⟨server', c, seen, rest, run, whole, ?_, fun some enough => ?_⟩
  · rw [← drain_arrived acceptable whole]
    exact serving.executed
  · have ends := progress some
    obtain rfl : rest = [] := List.length_eq_zero_iff.mp (by omega)
    rw [List.append_nil] at whole
    rw [whole, arrived_all]

/-- A server that answers every command with the number of commands before it. -/
def countCommand (count : Int64) (_ : List StdString) : CommandResult Int64 where
  server := count + 1
  reply := addReplyLongLong count
  ok := true
  blocks := false
  closes := false

def twoRequests : List (List StdString) := [[['S', 'E', 'T'], ['\r', '\n'], []], [['G', 'E', 'T']]]

theorem server_executes_requests_two :
    ∃ server' c seen rest,
      serveStream countCommand (fun _ => false) [1, 30, 50] 0 .create
        (twoRequests.flatMap requestText) = .ok (server', c, rest) ∧
      seen ++ rest = twoRequests.flatMap requestText ∧
      executeAll countCommand (fun _ => false) 0 (arrived twoRequests seen.length) =
        some (server', c.output) ∧
      ((∀ present ∈ [1, 30, 50], 0 < present) →
        (twoRequests.flatMap requestText).length ≤ 3 →
          arrived twoRequests seen.length = twoRequests) := by
  have first : Acceptable [['S', 'E', 'T'], ['\r', '\n'], []] := ⟨by simp, by simp, by simp⟩
  have second : Acceptable [['G', 'E', 'T']] := ⟨by simp, by simp, by simp⟩
  have acceptable : ∀ argv ∈ twoRequests, Acceptable argv := by
    simp [twoRequests, first, second]
  exact server_executes_requests acceptable 0 rfl [1, 30, 50]

end Commands

end CtpTrade
