import CtpTrade.Hiredis.Refinement

/-!
# The replies of a stream

A reader is fed and asked for replies in any order. What it hands out is what the
parser reads from the stream as a whole, so the order of the calls and the pieces in
which the stream arrives do not matter. This is so as long as an `int` can count what is in
the buffer. The reader faults only where the stream announces an array with a number of
elements that is no `int`.
-/

namespace CtpTrade

open RedisReader

/-- The reply behind the pointer that `redisReaderGetReply` yields. -/
def RedisReply.handed : RedisReply → Option RedisReply
  | .null => none
  | v => some v

/-- Call `redisReaderFeed` and `redisReaderGetReply` in any order, and collect the
replies that are handed out. -/
def serveReader : RedisReader → List (Incremental.Call Char) →
    Except ReaderFault (RedisReader × List RedisReply)
  | r, [] => .ok (r, [])
  | r, .feed buf :: calls => serveReader (r.redisReaderFeed buf).1 calls
  | r, .pull :: calls => do
    let (r, _, reply) ← r.redisReaderGetReply
    let (r, later) ← serveReader r calls
    return (r, reply.handed.toList ++ later)

/-- The assumption on the calls of a reader: whenever it is asked for a reply, and at the
end, an `int` can count what is in its buffer. In a longer buffer the code does not find the
end of a line, and it keeps the wrong part of the buffer behind a reply. -/
def BuffersFit : RedisReader → List (Incremental.Call Char) → Prop
  | r, [] => r.buf.length < 2 ^ 31
  | r, .feed buf :: calls => BuffersFit (r.redisReaderFeed buf).1 calls
  | r, .pull :: calls =>
    r.buf.length < 2 ^ 31 ∧
      ∀ r' ok reply, r.redisReaderGetReply = .ok (r', ok, reply) → BuffersFit r' calls

namespace ReplyParser

/-- The parser in front of a stream. -/
def start (stream : StdString) : Incremental.Config ParserState Char := ⟨.reading none [], stream⟩

/-- All replies of a stream, as the parser reads it in one piece. -/
def replies (stream : StdString) : List RedisReply := (Incremental.drain next (start stream)).2

theorem finish_ne_null {obj : RedisReply} (h : obj ≠ .null) (frames : List Frame) :
    (finish obj frames).2 ≠ some .null := by
  induction frames generalizing obj with
  | nil => simpa [finish] using h
  | cons f frames ih =>
      rw [finish]
      split_ifs
      · exact ih (by simp)
      · simp
      · simp

theorem typed_ne_null {frames : List Frame} {l : StdString} {line : Nat} {type : ReplyType}
    {t : Turn} (h : typed frames l line type = some t) : t.out ≠ some .null := by
  cases type with
  | string =>
      simp only [typed] at h
      split_ifs at h
      · cases h
        exact finish_ne_null (by simp) frames
      · cases h
        exact finish_ne_null (by simp) frames
  | array =>
      simp only [typed] at h
      split_ifs at h <;> cases h
      · exact finish_ne_null (by simp) frames
      · simp
      · simp
      · exact finish_ne_null (by simp [createArray]) frames
  | nil =>
      cases h
      simp
  | _ =>
      cases h
      exact finish_ne_null (by simp) frames

/-- A reply is never a null pointer. -/
theorem next_ne_null {s : ParserState} {l : StdString} {t : Turn} (h : next s l = some t) :
    t.out ≠ some .null := by
  match s, l, h with
  | .reading none frames, c :: l, h =>
      cases h
      simp
  | .reading (some type) frames, l, h =>
      simp only [next] at h
      split at h
      · exact typed_ne_null h
      · cases h
  | .failed str, _ :: l, h =>
      cases h
      simp
  | .faulted fault, _ :: l, h =>
      cases h
      simp

theorem pull_ne_null (c : Incremental.Config ParserState Char) :
    (Incremental.pull next c).2 ≠ some .null := by
  induction c using Incremental.turn_induction lawful with
  | waits c h => simp [Incremental.pull_of_waits h]
  | turn c t h ih =>
      rw [Incremental.pull_of_turn lawful h]
      cases ho : t.out with
      | some v =>
          have := next_ne_null h
          simpa [ho] using this
      | none => exact ih

theorem handed_of_ne_null {v : RedisReply} (h : v ≠ .null) : v.handed = some v := by
  cases v <;> first | rfl | exact absurd rfl h

/-- The reader between two calls, for a state of the parser. What the reader has read of
its buffer is gone from the input of the parser, and an error stays for ever. -/
inductive Represents : RedisReader → Incremental.Config ParserState Char → Prop where
  | idle {buf : StdString} {pos : Nat} (inside : pos ≤ buf.length) :
      Represents (replied .null buf pos) ⟨.reading none [], buf.drop pos⟩
  | reading {type : Option ReplyType} {frames : List Frame} {buf : StdString} {pos : Nat}
      (reading : Reading type frames) (inside : pos ≤ buf.length) :
      Represents (reader type frames buf pos) ⟨.reading type frames, buf.drop pos⟩
  | failed (str rest : StdString) : Represents (broken str) ⟨.failed str, rest⟩

theorem represents_start : Represents create (start []) := .idle (Nat.zero_le _)

variable {r : RedisReader} {c : Incremental.Config ParserState Char}

theorem Represents.feed (h : Represents r c) (more : StdString) :
    Represents (r.redisReaderFeed more).1 (c.feed more) := by
  cases h with
  | @idle buf pos inside =>
      have grown : pos ≤ (buf ++ more).length := by
        rw [List.length_append]
        omega
      rw [Incremental.Config.feed]
      change Represents _ ⟨_, buf.drop pos ++ more⟩
      rw [← List.drop_append_of_le_length inside]
      exact .idle grown
  | @reading type frames buf pos reading inside =>
      have grown : pos ≤ (buf ++ more).length := by
        rw [List.length_append]
        omega
      rw [Incremental.Config.feed]
      change Represents _ ⟨_, buf.drop pos ++ more⟩
      rw [← List.drop_append_of_le_length inside]
      exact .reading reading grown
  | failed str rest => exact .failed str (rest ++ more)

theorem getReply_empty (sound : r.err = none) (empty : r.buf.length = 0) :
    r.redisReaderGetReply = .ok (r, true, .null) := by
  rw [redisReaderGetReply, if_neg (by simp [sound]), if_pos empty]

/-- What a call of `redisReaderGetReply` gives, for a state of the parser: it is a pull. The
buffer of the reader does not grow. -/
inductive Asked (r : RedisReader) (c : Incremental.Config ParserState Char) :
    Except ReaderFault (RedisReader × Bool × RedisReply) → Prop where
  | handed {r' : RedisReader} {v : RedisReply} (ok : Bool)
      (after : Represents r' (Incremental.pull next c).1)
      (same : v.handed = (Incremental.pull next c).2)
      (kept : r'.buf.length ≤ r.buf.length) : Asked r c (.ok (r', ok, v))
  | faulted {fault : ReaderFault} {rest : StdString}
      (pulled : (Incremental.pull next c).1 = ⟨.faulted fault, rest⟩) : Asked r c (.error fault)

/-- A call that leaves the input alone. -/
theorem Asked.of_waits (h : Represents r c) (waits : Incremental.Waits next c) (ok : Bool) :
    Asked r c (.ok (r, ok, .null)) := by
  have none_pulled := Incremental.pull_of_waits waits
  refine .handed ok ?_ ?_ (Nat.le_refl _)
  · rwa [none_pulled]
  · rw [none_pulled]
    rfl

/-- Behind the loop the code throws away what it has read, if that is much. -/
theorem sdsrange_drop {s : StdString} {pos : Nat} (short : s.length < 2 ^ 31)
    (inside : pos ≤ s.length) : sdsrange s ((pos : Int).bmod (2 ^ 32)) (-1) = s.drop pos := by
  have start : (pos : Int).bmod (2 ^ 32) = pos := Int.bmod_eq_of_le (by omega) (by omega)
  have len : (s.length : Int).bmod (2 ^ 32) = s.length := Int.bmod_eq_of_le (by omega) (by omega)
  have last : ((s.length : Int) + -1).bmod (2 ^ 32) = s.length - 1 :=
    Int.bmod_eq_of_le (by omega) (by omega)
  rw [sdsrange, start, len, last, if_neg (by omega : ¬ (pos : Int) < 0),
    if_pos (by decide : (-1 : Int) < 0)]
  by_cases all : pos = s.length
  · rw [if_pos (by omega), List.drop_of_length_le (by omega)]
  · have places : max ((s.length : Int) - 1) 0 = s.length - 1 := by omega
    have room : ((s.length : Int) - 1 - pos + 1).toNat = (s.drop pos).length := by
      rw [List.length_drop]
      omega
    simp only [places]
    rw [if_neg (by omega), if_neg (by omega), if_neg (by omega), room, Int.toNat_natCast,
      List.take_length]

/-- Of a buffer that an `int` cannot count the code keeps nothing, although there can be the
beginning of a reply in it. -/
theorem sdsrange_long {s : StdString} {pos : Nat} (long : 2 ^ 31 ≤ s.length)
    (counted : s.length < 2 ^ 32) (small : pos < 2 ^ 31) :
    sdsrange s ((pos : Int).bmod (2 ^ 32)) (-1) = [] := by
  have start : (pos : Int).bmod (2 ^ 32) = pos := Int.bmod_eq_of_le (by omega) (by omega)
  have len : (s.length : Int).bmod (2 ^ 32) = s.length - 2 ^ 32 := by
    rw [Int.bmod_def]
    omega
  rw [sdsrange, start, len, if_neg (by omega : ¬ (pos : Int) < 0)]
  exact if_pos (.inr (by omega))

/-- A call of `redisReaderGetReply` reads items, throws away what it has read, if that is
much, and hands out the tree that it has built. -/
theorem getReply_eq {type : Option ReplyType} {frames : List Frame} {buf : StdString} {pos : Nat}
    (active : (if r.rstack = [] then
      { r with rstack := [{ type := none, elements := -1, idx := -1 }] } else r) =
        reader type frames buf pos) (sound : r.err = none) (filled : r.buf.length ≠ 0) :
    r.redisReaderGetReply = (do
      let r ← processItems ((buf.drop pos).length + 1) (reader type frames buf pos)
      if r.err.isSome then return (r, false, .null)
      else
        let r :=
          if 1024 ≤ r.pos then
            { r with buf := sdsrange r.buf ((r.pos : Int).bmod (2 ^ 32)) (-1), pos := 0 }
          else r
        if r.rstack = [] then return ({ r with reply := .null }, true, r.reply)
        else return (r, true, .null)) := by
  rw [redisReaderGetReply, if_neg (by simp [sound]), if_neg filled]
  simp only [active]
  rfl

/-- What `redisReaderGetReply` gives for what its loop has read. -/
theorem asked_of_pulled {type : Option ReplyType} {frames : List Frame} {buf : StdString}
    {pos : Nat} (reading : Reading type frames) (inside : pos ≤ buf.length)
    (active : (if r.rstack = [] then
      { r with rstack := [{ type := none, elements := -1, idx := -1 }] } else r) =
        reader type frames buf pos) (sound : r.err = none) (filled : r.buf.length ≠ 0)
    (held : r.buf = buf) (short : buf.length < 2 ^ 31) :
    Asked r ⟨.reading type frames, buf.drop pos⟩ r.redisReaderGetReply := by
  have items := pulled (Nat.le_of_lt short) reading inside (Nat.lt_succ_self _)
  have object := pull_ne_null ⟨.reading type frames, buf.drop pos⟩
  have rest (n : Nat) : (buf.drop n).length ≤ r.buf.length := by
    rw [held, List.length_drop]
    omega
  have cut {pos : Nat} (inside : pos ≤ buf.length) := sdsrange_drop short inside
  rw [getReply_eq active sound filled]
  generalize sdsrange = range at cut ⊢
  generalize processItems _ _ = looped at items ⊢
  generalize (⟨.reading type frames, buf.drop pos⟩ : Incremental.Config ParserState Char) = c
    at items object ⊢
  generalize pulls : Incremental.pull next c = result at items object
  cases items with
  | @waiting type frames pos reading inside =>
      by_cases long : 1024 ≤ pos
      · have result : Asked r c (.ok (reader type frames (buf.drop pos) 0, true, .null)) := by
          have start : 0 ≤ (buf.drop pos).length := Nat.zero_le _
          refine .handed true ?_ (congrArg Prod.snd pulls).symm (rest pos)
          simpa [pulls] using Represents.reading reading start
        rw [← cut inside] at result
        simpa [bind, Except.bind, pure, Except.pure, reader, long, tasks_ne_nil] using result
      · have result : Asked r c (.ok (reader type frames buf pos, true, .null)) :=
          .handed true (by simpa [pulls] using Represents.reading reading inside)
            (congrArg Prod.snd pulls).symm (rest 0)
        simpa [bind, Except.bind, pure, Except.pure, reader, long, tasks_ne_nil] using result
  | @replied v pos inside =>
      have there : v.handed = some v := handed_of_ne_null fun h => object (congrArg some h)
      have same : v.handed = (Incremental.pull next c).2 := by rw [there, pulls]
      by_cases long : 1024 ≤ pos
      · have result : Asked r c (.ok (replied .null (buf.drop pos) 0, true, v)) := by
          have start : 0 ≤ (buf.drop pos).length := Nat.zero_le _
          refine .handed true ?_ same (rest pos)
          simpa [pulls] using Represents.idle start
        rw [← cut inside] at result
        simpa [bind, Except.bind, pure, Except.pure, replied, long] using result
      · have result : Asked r c (.ok (replied .null buf pos, true, v)) :=
          .handed true (by simpa [pulls] using Represents.idle inside) same (rest 0)
        simpa [bind, Except.bind, pure, Except.pure, replied, long] using result
  | failed str rest =>
      exact .handed false (by rw [pulls]; exact .failed str rest) (congrArg Prod.snd pulls).symm
        (Nat.zero_le _)
  | faulted fault rest => exact .faulted (congrArg Prod.fst pulls)

/-- A call of `redisReaderGetReply` is a pull of the parser. -/
theorem Represents.getReply (h : Represents r c) (short : r.buf.length < 2 ^ 31) :
    Asked r c r.redisReaderGetReply := by
  have same := h
  cases h with
  | @idle buf pos inside =>
      by_cases filled : buf.length = 0
      · have none_left : buf.drop pos = [] := by
          rw [← List.length_eq_zero_iff, List.length_drop]
          omega
        rw [getReply_empty rfl filled]
        exact .of_waits same (by rw [none_left]; rfl) true
      · exact asked_of_pulled ⟨nested_nil, by simp, by simp⟩ inside rfl rfl filled rfl short
  | @reading type frames buf pos reading inside =>
      by_cases filled : buf.length = 0
      · have none_left : buf.drop pos = [] := by
          rw [← List.length_eq_zero_iff, List.length_drop]
          omega
        rw [getReply_empty rfl filled]
        exact .of_waits same (by rw [none_left]; cases type <;> rfl) true
      · exact asked_of_pulled reading inside (if_neg (tasks_ne_nil _ _ _)) rfl filled rfl short
  | failed str rest =>
      have pulls := pull_failed str rest
      refine .handed false ?_ (congrArg Prod.snd pulls).symm (Nat.le_refl _)
      rw [pulls]
      exact .failed str []

/-- The parser stays in a fault. -/
theorem serve_faulted (fault : ReaderFault) (rest : StdString)
    (calls : List (Incremental.Call Char)) :
    ∃ rest', (Incremental.serve next ⟨.faulted fault, rest⟩ calls).1 = ⟨.faulted fault, rest'⟩ := by
  induction calls generalizing rest with
  | nil => exact ⟨rest, rfl⟩
  | cons call calls ih =>
      cases call with
      | feed more => exact ih (rest ++ more)
      | pull =>
          rw [Incremental.serve, pull_faulted]
          exact ih []

/-- Calls in any order: the reader and the parser hand out the same, and fault together. -/
theorem Represents.serve (h : Represents r c) {calls : List (Incremental.Call Char)}
    (fits : BuffersFit r calls) :
    (∃ r', serveReader r calls = .ok (r', (Incremental.serve next c calls).2) ∧
        Represents r' (Incremental.serve next c calls).1 ∧ r'.buf.length < 2 ^ 31) ∨
      ∃ fault rest, serveReader r calls = .error fault ∧
        (Incremental.serve next c calls).1 = ⟨.faulted fault, rest⟩ := by
  induction calls generalizing r c with
  | nil => exact .inl ⟨r, rfl, h, fits⟩
  | cons call calls ih =>
      cases call with
      | feed more => exact ih (h.feed more) fits
      | pull =>
          obtain ⟨short, later_fit⟩ := fits
          have asked := h.getReply short
          rw [serveReader]
          generalize r.redisReaderGetReply = got at asked later_fit
          cases asked with
          | @handed r' v ok after same kept =>
              obtain ⟨r'', later, after'⟩ | ⟨fault, rest, later, after'⟩ :=
                ih after (later_fit r' ok v rfl)
              · refine .inl ⟨r'', ?_, after'⟩
                simp [later, Incremental.serve, same, bind, Except.bind, pure, Except.pure]
              · refine .inr ⟨fault, rest, ?_, after'⟩
                simp [later, bind, Except.bind]
          | @faulted fault rest pulled =>
              obtain ⟨rest', stays⟩ := serve_faulted fault rest calls
              refine .inr ⟨fault, rest', rfl, ?_⟩
              rw [Incremental.serve, pulled]
              exact stays

/-- The buffers of a reader fit, if an `int` can count all that it is fed with. -/
theorem Represents.buffersFit (h : Represents r c) {calls : List (Incremental.Call Char)}
    (short : r.buf.length + (Incremental.fed calls).length < 2 ^ 31) : BuffersFit r calls := by
  induction calls generalizing r c with
  | nil => exact short
  | cons call calls ih =>
      cases call with
      | feed more =>
          have grown : (r.redisReaderFeed more).1.buf.length ≤ r.buf.length + more.length := by
            rw [redisReaderFeed]
            split_ifs <;> simp
          rw [Incremental.fed, List.length_append] at short
          exact ih (h.feed more) (by omega)
      | pull =>
          rw [Incremental.fed] at short
          have here : r.buf.length < 2 ^ 31 := by omega
          refine ⟨here, fun r' ok reply got => ?_⟩
          have asked := h.getReply here
          rw [got] at asked
          cases asked with
          | handed ok after same kept => exact ih after (by omega)

theorem drain_faulted (fault : ReaderFault) (l : StdString) :
    Incremental.drain next ⟨.faulted fault, l⟩ = (⟨.faulted fault, []⟩, []) := by
  induction l with
  | nil => exact Incremental.drain_of_waits rfl
  | cons c l ih =>
      rw [Incremental.drain_of_turn lawful (t := ⟨.faulted fault, l, none⟩) rfl]
      simp only [Incremental.Turn.config, ih]
      rfl

theorem drain_failed (str l : StdString) :
    Incremental.drain next ⟨.failed str, l⟩ = (⟨.failed str, []⟩, []) := by
  induction l with
  | nil => exact Incremental.drain_of_waits rfl
  | cons c l ih =>
      rw [Incremental.drain_of_turn lawful (t := ⟨.failed str, l, none⟩) rfl]
      simp only [Incremental.Turn.config, ih]
      rfl

theorem replies_append (stream more : StdString) :
    replies stream <+: replies (stream ++ more) := by
  have grown := Incremental.drain_feed lawful (start stream) more
  exact ⟨_, (congrArg Prod.snd grown).symm⟩

/-- What a reader has handed out, and where it is, is what the parser makes of the calls. -/
theorem out_of_serve {calls : List (Incremental.Call Char)} {out : List RedisReply}
    (fits : BuffersFit create calls) (h : serveReader create calls = .ok (r, out)) :
    out = (Incremental.serve next (start []) calls).2 ∧
      Represents r (Incremental.serve next (start []) calls).1 ∧ r.buf.length < 2 ^ 31 := by
  obtain ⟨r', served, after⟩ | ⟨fault, rest, served, -⟩ := represents_start.serve fits
  · rw [served] at h
    obtain ⟨rfl, rfl⟩ := Prod.mk.inj (Except.ok.inj h)
    exact ⟨rfl, after⟩
  · rw [served] at h
    cases h

/-- What has been handed out are the first replies of the stream. -/
theorem out_prefix_replies {calls : List (Incremental.Call Char)} {out : List RedisReply}
    (fits : BuffersFit create calls) (h : serveReader create calls = .ok (r, out)) :
    out <+: replies (Incremental.fed calls) := by
  have whole := Incremental.drain_fed lawful (start []) calls
  rw [(out_of_serve fits h).1]
  exact ⟨_, (congrArg Prod.snd whole).symm⟩

/-- Where the next call finds no reply all of them have been handed out. -/
theorem out_eq_replies {calls : List (Incremental.Call Char)} {out : List RedisReply}
    {t : RedisReader} {ok : Bool} (fits : BuffersFit create calls)
    (h : serveReader create calls = .ok (r, out))
    (nothing : r.redisReaderGetReply = .ok (t, ok, .null)) :
    out = replies (Incremental.fed calls) ∧
      Represents t (Incremental.drain next (start (Incremental.fed calls))).1 := by
  obtain ⟨outs, rep, short⟩ := out_of_serve fits h
  have whole : Incremental.drain next (start (Incremental.fed calls)) = _ :=
    Incremental.drain_fed lawful (start []) calls
  have asked := rep.getReply short
  rw [nothing] at asked
  cases asked with
  | handed ok after same kept =>
      have none_pulled :
          (Incremental.pull next (Incremental.serve next (start []) calls).1).2 = none := same.symm
      have drained := Incremental.drain_of_pull lawful (Incremental.serve next (start []) calls).1
      rw [Incremental.drain_of_waits (Incremental.waits_of_pull lawful none_pulled), none_pulled]
        at drained
      rw [replies, whole, drained, outs]
      exact ⟨by simp, after⟩

/-- The error of the reader is that of the parser. -/
theorem Represents.err_eq {r' : RedisReader} {c' : Incremental.Config ParserState Char}
    (h : Represents r c) (h' : Represents r' c') (same : c.state = c'.state) :
    r.err = r'.err ∧ r.errstr = r'.errstr := by
  cases h <;> cases h'
  case failed.failed =>
      cases same
      exact ⟨rfl, rfl⟩
  all_goals first | exact ⟨rfl, rfl⟩ | cases same

end ReplyParser

open ReplyParser

/-- Two readers that are fed the same stream, in any pieces, and asked for replies at any
moments hand out the same replies and end with the same error, once there are none left.
A reader that has been fed less has handed out the first ones of them. Their buffers have
to be such that an `int` can count them. -/
theorem replies_independent {calls calls' : List (Incremental.Call Char)}
    {r r' t t' : RedisReader} {out out' : List RedisReply} {ok ok' : Bool}
    (fits : BuffersFit create calls) (fits' : BuffersFit create calls')
    (served : serveReader create calls = .ok (r, out))
    (served' : serveReader create calls' = .ok (r', out'))
    (nothing' : r'.redisReaderGetReply = .ok (t', ok', .null)) :
    (Incremental.fed calls <+: Incremental.fed calls' → out <+: out') ∧
      (Incremental.fed calls = Incremental.fed calls' →
        r.redisReaderGetReply = .ok (t, ok, .null) →
        out = out' ∧ t.err = t'.err ∧ t.errstr = t'.errstr) := by
  obtain ⟨all', rep'⟩ := out_eq_replies fits' served' nothing'
  refine ⟨?_, ?_⟩
  · rintro ⟨more, stream⟩
    rw [all', ← stream]
    exact (out_prefix_replies fits served).trans (replies_append _ _)
  · intro stream nothing
    obtain ⟨all, rep⟩ := out_eq_replies fits served nothing
    refine ⟨by rw [all, all', stream], rep.err_eq rep' ?_⟩
    rw [stream]

/-- An array of two elements, cut inside of the first line end. -/
def cutCalls : List (Incremental.Call Char) :=
  [.feed "*2\r".toList, .pull, .feed "\n:1\r\n$1\r\nx\r\n".toList, .pull]

def wholeCalls : List (Incremental.Call Char) := [.feed "*2\r\n:1\r\n$1\r\nx\r\n".toList, .pull]

theorem replies_independent_cut :
    (serveReader create cutCalls).toOption.map Prod.snd =
      (serveReader create wholeCalls).toOption.map Prod.snd := by
  have fits : BuffersFit create cutCalls := represents_start.buffersFit (by decide)
  have fits' : BuffersFit create wholeCalls := represents_start.buffersFit (by decide)
  have served : serveReader create cutCalls = .ok (_, _) := rfl
  have served' : serveReader create wholeCalls = .ok (_, _) := rfl
  exact congrArg some ((replies_independent fits fits' served served' rfl).2 rfl rfl).1

end CtpTrade
