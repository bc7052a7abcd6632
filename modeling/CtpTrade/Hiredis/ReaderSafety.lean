import CtpTrade.Hiredis.Replies

/-!
# The reader does not fault

The reader makes an array for `(int)elements`, and then reads elements if the 64 bits of
`elements` are positive. A count that is no `int` can leave an array without the slot
that the next object is written to. As long as no count is beyond an `int` the reader
never writes behind an array and fails none of its assertions, whatever the stream is,
and what it hands out is complete: no array has a null pointer in it.

This is so as long as an `int` can count what is in the buffer. A longer buffer is thrown
away together with what has not been read, so that the reader goes on in the middle of a
line.
-/

namespace CtpTrade

open RedisReader

/-- The reply can be used without looking at a null pointer: every slot of an array is
filled, and there are as many of them as the array says, at all depths. -/
inductive RedisReply.Complete : RedisReply → Prop where
  | string (str : StdString) : Complete (.string str)
  | integer (value : Int64) : Complete (.integer value)
  | nil : Complete .nil
  | status (str : StdString) : Complete (.status str)
  | error (str : StdString) : Complete (.error str)
  | array {element : List RedisReply} (all : ∀ v ∈ element, Complete v) :
      Complete (.array element.length element)

/-- The number at the beginning of a line is one of elements that an `int` can count, or
`-1` for the null array. The code takes the number for an `int` without a test. -/
def CountFits (l : StdString) : Prop :=
  (lineEnd? l).isSome → -1 ≤ (readLongLong l).toInt ∧ (readLongLong l).toInt ≤ intMax

instance : DecidablePred CountFits := fun l =>
  inferInstanceAs (Decidable ((lineEnd? l).isSome → _ ∧ _))

/-- The assumption on a stream for the safety of the reader: behind every `*` there is a
number that fits. -/
def CountsFit : StdString → Prop
  | [] => True
  | c :: l => (c = '*' → CountFits l) ∧ CountsFit l

instance decidableCountsFit : (l : StdString) → Decidable (CountsFit l)
  | [] => .isTrue trivial
  | _ :: l =>
    have := decidableCountsFit l
    inferInstanceAs (Decidable (_ ∧ CountsFit l))

theorem CountsFit.drop {l : StdString} (h : CountsFit l) (n : Nat) : CountsFit (l.drop n) := by
  induction l generalizing n with
  | nil =>
      rw [List.drop_nil]
      exact h
  | cons c l ih =>
      cases n with
      | zero => exact h
      | succ n => exact ih h.2 n

namespace ReplyParser

/-- An array that is being read: the elements so far are complete, and there is a slot
for the next one. -/
structure Frame.Sound (f : Frame) : Prop where
  room : (f.done.length : Int) < f.size
  complete : ∀ v ∈ f.done, v.Complete

/-- The invariant of the parser on a stream with fitting counts: the open arrays are
sound, and what is still to be read has fitting counts, also in the middle of an array's
head. -/
structure Sound (type : Option ReplyType) (frames : List Frame) (l : StdString) : Prop where
  frames : ∀ f ∈ frames, Frame.Sound f
  known : type ≠ some .nil
  counts : CountsFit l
  count : type = some .array → CountFits l

/-- The invariant for the parser together with its input. A protocol error is sound,
because the reader then reads nothing more; a fault is not. -/
def SoundConfig : Incremental.Config ParserState Char → Prop
  | ⟨.reading type frames, l⟩ => Sound type frames l
  | ⟨.failed _, _⟩ => True
  | ⟨.faulted _, _⟩ => False

theorem soundConfig_finish {obj : RedisReply} {frames : List Frame} {l : StdString}
    (complete : obj.Complete) (sound : ∀ f ∈ frames, Frame.Sound f) (counts : CountsFit l) :
    SoundConfig ⟨(finish obj frames).1, l⟩ ∧ ∀ v ∈ (finish obj frames).2, v.Complete := by
  induction frames generalizing obj with
  | nil =>
      refine ⟨⟨by simp, by simp, counts, by simp⟩, ?_⟩
      simpa [finish] using complete
  | cons f frames ih =>
      have here := sound f (by simp)
      have around : ∀ g ∈ frames, Frame.Sound g := fun g hg => sound g (List.mem_cons_of_mem f hg)
      have all : ∀ v ∈ f.done ++ [obj], v.Complete := by
        intro v hv
        obtain hv | hv := List.mem_append.mp hv
        · exact here.complete v hv
        · rwa [List.mem_singleton.mp hv]
      rw [finish, if_pos here.room]
      split_ifs with last
      · have size : f.size.toNat = (f.done ++ [obj]).length := by
          simp only [List.length_append, List.length_singleton]
          omega
        rw [size]
        exact ih (.array all) around
      · refine ⟨⟨?_, by simp, counts, by simp⟩, by simp⟩
        refine List.forall_mem_cons.mpr ⟨⟨?_, all⟩, around⟩
        have := here.room
        simp only [List.length_append, List.length_singleton]
        omega

theorem soundConfig_typed {type : ReplyType} {frames : List Frame} {l : StdString} {line : Nat}
    {t : Turn} (sound : Sound (some type) frames l) (newline : lineEnd? l = some line)
    (h : typed frames l line type = some t) :
    SoundConfig t.config ∧ ∀ v ∈ t.out, v.Complete := by
  cases type with
  | string =>
      simp only [typed] at h
      split_ifs at h
      · cases h
        exact soundConfig_finish .nil sound.frames (sound.counts.drop _)
      · cases h
        exact soundConfig_finish (.string _) sound.frames (sound.counts.drop _)
  | array =>
      obtain ⟨low, high⟩ := sound.count rfl (by simp [newline])
      have same := toInt_toInt32 low high
      simp only [typed, same] at h
      split_ifs at h with null more room
      · cases h
        exact soundConfig_finish .nil sound.frames (sound.counts.drop _)
      · cases h
        refine ⟨⟨?_, by simp, sound.counts.drop _, by simp⟩, by simp⟩
        refine List.forall_mem_cons.mpr ⟨⟨?_, by simp⟩, sound.frames⟩
        exact Int64.lt_iff_toInt_lt.mp more
      · refine absurd ?_ room
        cases frames with
        | nil => trivial
        | cons f frames => exact (sound.frames f (by simp)).room
      · have zero : (readLongLong l).toInt = 0 := by
          have above : ¬0 < (readLongLong l).toInt := fun h => more (Int64.lt_iff_toInt_lt.mpr h)
          have below : (readLongLong l).toInt ≠ -1 := fun h => null (Int64.toInt_inj.mp h)
          omega
        cases h
        rw [zero]
        have empty : ∀ v ∈ ([] : List RedisReply), v.Complete := by simp
        exact soundConfig_finish (.array empty) sound.frames (sound.counts.drop _)
  | integer =>
      cases h
      exact soundConfig_finish (.integer _) sound.frames (sound.counts.drop _)
  | status =>
      cases h
      exact soundConfig_finish (.status _) sound.frames (sound.counts.drop _)
  | error =>
      cases h
      exact soundConfig_finish (.error _) sound.frames (sound.counts.drop _)
  | nil => exact absurd rfl sound.known

theorem soundConfig_next {c : Incremental.Config ParserState Char} {t : Turn}
    (sound : SoundConfig c) (h : next c.state c.input = some t) :
    SoundConfig t.config ∧ ∀ v ∈ t.out, v.Complete := by
  obtain ⟨s, l⟩ := c
  match s, l, h with
  | .reading none frames, c :: l, h =>
      cases h
      refine ⟨?_, by simp⟩
      change SoundConfig ⟨typeByte frames c, l⟩
      obtain ⟨str, failed⟩ | ⟨type, byte, -, reads⟩ := typeByte_cases frames c
      · rw [failed]
        trivial
      · rw [reads]
        refine ⟨sound.frames, fun h => typeOfByte_ne_nil c (byte.trans h), sound.counts.2, ?_⟩
        intro array
        have star : c = '*' := by
          cases array
          unfold typeOfByte at byte
          split at byte <;> first | rfl | cases byte
        exact sound.counts.1 star
  | .reading (some type) frames, l, h =>
      simp only [next] at h
      split at h
      · next line newline => exact soundConfig_typed sound newline h
      · cases h
  | .failed str, _ :: l, h =>
      cases h
      exact ⟨trivial, by simp⟩

theorem soundConfig_drain {c : Incremental.Config ParserState Char} (sound : SoundConfig c) :
    SoundConfig (Incremental.drain next c).1 ∧ ∀ v ∈ (Incremental.drain next c).2, v.Complete := by
  induction c using Incremental.turn_induction lawful with
  | waits c h =>
      rw [Incremental.drain_of_waits h]
      exact ⟨sound, by simp⟩
  | turn c t h ih =>
      obtain ⟨sound', out⟩ := soundConfig_next sound h
      obtain ⟨later, outs⟩ := ih sound'
      rw [Incremental.drain_of_turn lawful h]
      refine ⟨later, ?_⟩
      intro v hv
      obtain hv | hv := List.mem_append.mp hv
      · exact out v (by simpa using hv)
      · exact outs v hv

end ReplyParser

open ReplyParser

/-- On every stream in which the counts fit, in any pieces and whenever it is asked, the
reader does not fault, and all replies that it hands out are complete. Its buffers have to
be such that an `int` can count them: of a longer one it can lose the head of an array and
then take other bytes of the stream for a count. -/
theorem reader_never_faults {calls : List (Incremental.Call Char)}
    (counts : CountsFit (Incremental.fed calls)) (fits : BuffersFit create calls) :
    ∃ r out, serveReader create calls = .ok (r, out) ∧ ∀ v ∈ out, v.Complete := by
  have sound : SoundConfig (start (Incremental.fed calls)) := ⟨by simp, by simp, counts, by simp⟩
  obtain ⟨whole, all⟩ := soundConfig_drain sound
  obtain ⟨r, served, -⟩ | ⟨fault, rest, -, faulted⟩ := represents_start.serve fits
  · refine ⟨r, _, served, ?_⟩
    intro v hv
    exact all v ((out_prefix_replies fits served).subset hv)
  · have drained : Incremental.drain next (start (Incremental.fed calls)) = _ :=
      Incremental.drain_fed lawful (start []) calls
    rw [drained, faulted, drain_faulted] at whole
    exact whole.elim

/-- A nil inside of an array, and an error behind it. -/
def brokenCalls : List (Incremental.Call Char) :=
  [.feed "*2\r\n*-1\r".toList, .pull, .feed "\n$1\r\nx\r\n?".toList, .pull, .pull]

theorem reader_never_faults_broken :
    ∃ r out, serveReader create brokenCalls = .ok (r, out) ∧ ∀ v ∈ out, v.Complete :=
  reader_never_faults (by decide) (represents_start.buffersFit (by decide))

namespace ReplyParser

theorem lineEnd_replicate {c : Char} (other : c ≠ '\r') (n : Nat) (rest : StdString) :
    lineEnd? (List.replicate n c ++ rest) = (lineEnd? rest).map (· + n) := by
  induction n with
  | zero => simp
  | succ n ih =>
      rw [List.replicate_succ, List.cons_append, lineEnd?, if_neg fun h => other h.1, ih,
        Option.map_map]
      congr 1

theorem countsFit_append {l rest : StdString} (plain : '*' ∉ l) (h : CountsFit rest) :
    CountsFit (l ++ rest) := by
  induction l with
  | nil => exact h
  | cons c l ih =>
      rw [List.mem_cons, not_or] at plain
      exact ⟨fun star => absurd star.symm plain.1, ih plain.2⟩

/-- An array of which the first element is a status of `k` characters, and the head of
another array behind it, which has not come to its end after `n` more of them. -/
def openHead (k n : Nat) : StdString :=
  '*' :: '2' :: '\r' :: '\n' :: '+' ::
    (List.replicate k 'a' ++ '\r' :: '\n' :: '*' :: List.replicate n 'x')

/-- The array that is open behind it. -/
def openFrame (k : Nat) : Frame := ⟨2, [.status (List.replicate k 'a')]⟩

/-- A count that is zero as an `int`, and an element. -/
def wideCount : StdString := "4294967296\r\n:1\r\n".toList

theorem pull_openHead (k n : Nat) : Incremental.pull next (start (openHead k n)) =
    (⟨.reading (some .array) [openFrame k], List.replicate n 'x'⟩, none) := by
  have line : lineEnd? (List.replicate k 'a' ++ '\r' :: '\n' :: '*' :: List.replicate n 'x') =
      some k := by
    rw [lineEnd_replicate (by decide)]
    simp [lineEnd?]
  have status : next (.reading (some .status) [⟨2, []⟩])
      (List.replicate k 'a' ++ '\r' :: '\n' :: '*' :: List.replicate n 'x') =
        some ⟨.reading none [openFrame k], '*' :: List.replicate n 'x', none⟩ := by
    simp only [next, line, typed, finished, finish]
    simp [openFrame, List.drop_append]
  have waits : Incremental.Waits next
      ⟨.reading (some .array) [openFrame k], List.replicate n 'x'⟩ := by
    have none_found := lineEnd_replicate (show 'x' ≠ '\r' by decide) n []
    rw [List.append_nil] at none_found
    simp only [Incremental.Waits, next, none_found]
    rfl
  calc Incremental.pull next (start (openHead k n))
      = Incremental.pull next ⟨.reading (some .array) [], _⟩ :=
        Incremental.pull_of_silent lawful rfl
    _ = Incremental.pull next ⟨.reading none [⟨2, []⟩], _⟩ :=
        Incremental.pull_of_silent lawful rfl
    _ = Incremental.pull next ⟨.reading (some .status) [⟨2, []⟩], _⟩ :=
        Incremental.pull_of_silent lawful rfl
    _ = Incremental.pull next ⟨.reading none [openFrame k], '*' :: List.replicate n 'x'⟩ :=
        Incremental.pull_of_silent lawful status
    _ = Incremental.pull next ⟨.reading (some .array) [openFrame k], List.replicate n 'x'⟩ :=
        Incremental.pull_of_silent lawful rfl
    _ = _ := Incremental.pull_of_waits waits

/-- Behind a call on a buffer of 2^31 characters the head that has not come to its end is
lost. -/
theorem getReply_openHead {k n : Nat} (much : 1018 ≤ k) (more : 0 < n)
    (total : k + n + 8 = 2 ^ 31) :
    (replied .null (openHead k n) 0).redisReaderGetReply =
      .ok (reader (some .array) [openFrame k] [] 0, true, .null) := by
  have len : (openHead k n).length = 2 ^ 31 := by
    simp only [openHead, List.length_cons, List.length_append, List.length_replicate]
    omega
  have reading : Reading none [] := ⟨nested_nil, by simp, by simp⟩
  have filled : (openHead k n).length ≠ 0 := by omega
  have code : (replied .null (openHead k n) 0).redisReaderGetReply = (do
      let r ← processItems ((openHead k n).length + 1) (reader none [] (openHead k n) 0)
      _) := getReply_eq rfl rfl filled
  have items := pulled (Nat.le_of_eq len) reading (Nat.zero_le _) (Nat.lt_succ_self _)
  have pulls := pull_openHead k n
  rw [start] at pulls
  rw [List.drop_zero] at items
  rw [code]
  generalize processItems _ _ = looped at items ⊢
  generalize Incremental.pull next _ = result at items pulls
  have cut (pos : Nat) (small : pos < 2 ^ 31) :=
    sdsrange_long len.ge (len.trans_lt (by decide)) small
  generalize sdsrange = range at cut ⊢
  cases items with
  | @waiting type frames pos reading inside =>
      obtain ⟨state, rest⟩ := Incremental.Config.mk.inj (Prod.mk.inj pulls).1
      obtain ⟨rfl, rfl⟩ := ParserState.reading.inj state
      have left := congrArg List.length rest
      rw [List.length_drop, List.length_replicate] at left
      have long : 1024 ≤ pos := by omega
      have small : pos < 2 ^ 31 := by omega
      simpa [bind, Except.bind, pure, Except.pure, reader, long, tasks_ne_nil] using cut pos small
  | _ => cases pulls

theorem serve_wideCount (k : Nat) :
    (Incremental.serve next ⟨.reading (some .array) [openFrame k], []⟩
      [.feed wideCount, .pull]).1 = ⟨.faulted .element, []⟩ := by
  have counted : next (.reading (some .array) [openFrame k]) wideCount =
      some ⟨.reading none [⟨0, []⟩, openFrame k], [':', '1', '\r', '\n'], none⟩ := by
    rw [openFrame]
    generalize RedisReply.status _ = v
    rfl
  have element : next (.reading (some .integer) [⟨0, []⟩, openFrame k]) ['1', '\r', '\n'] =
      some ⟨.faulted .element, [], none⟩ := rfl
  have pulled : Incremental.pull next ⟨.reading (some .array) [openFrame k], wideCount⟩ =
      (⟨.faulted .element, []⟩, none) := by
    calc Incremental.pull next ⟨.reading (some .array) [openFrame k], wideCount⟩
        = Incremental.pull next ⟨.reading none [⟨0, []⟩, openFrame k], [':', '1', '\r', '\n']⟩ :=
          Incremental.pull_of_silent lawful counted
      _ = Incremental.pull next
            ⟨.reading (some .integer) [⟨0, []⟩, openFrame k], ['1', '\r', '\n']⟩ :=
          Incremental.pull_of_silent lawful rfl
      _ = Incremental.pull next ⟨.faulted .element, []⟩ :=
          Incremental.pull_of_silent lawful element
      _ = _ := pull_faulted .element []
  exact congrArg Prod.fst pulled

/-- The code takes a part of the line for the count. -/
theorem serveReader_openHead {k n : Nat} (much : 1018 ≤ k) (more : 0 < n)
    (total : k + n + 8 = 2 ^ 31) :
    serveReader create [.feed (openHead k n), .pull, .feed wideCount, .pull] =
      .error .element := by
  have nested : Nested [openFrame k] := ⟨by simp, by simp⟩
  have reading : Reading (some .array) [openFrame k] := ⟨nested, by simp, by simp⟩
  have rep : Represents (reader (some .array) [openFrame k] [] 0)
      ⟨.reading (some .array) [openFrame k], []⟩ := .reading reading (Nat.zero_le _)
  have fits : BuffersFit (reader (some .array) [openFrame k] [] 0) [.feed wideCount, .pull] := by
    refine rep.buffersFit ?_
    rw [reader, List.length_nil]
    decide
  have later : serveReader (reader (some .array) [openFrame k] [] 0)
      [.feed wideCount, .pull] = .error .element := by
    have ends := serve_wideCount k
    obtain ⟨r, -, after, -⟩ | ⟨fault, rest, served, faulted⟩ := rep.serve fits
    · rw [ends] at after
      cases after
    · rw [ends] at faulted
      cases faulted
      exact served
  have first := getReply_openHead much more total
  have fed : (create.redisReaderFeed (openHead k n)).1 = replied .null (openHead k n) 0 := rfl
  rw [serveReader, serveReader, fed, first]
  simp only [bind, Except.bind, later]

theorem countsFit_openHead (k n : Nat) : CountsFit (openHead k (n + 1) ++ wideCount) := by
  have head : CountFits (List.replicate (n + 1) 'x' ++ wideCount) := by
    intro _
    have value : readLongLong (List.replicate (n + 1) 'x' ++ wideCount) = -1 := rfl
    rw [value]
    decide
  have behind : CountsFit (List.replicate (n + 1) 'x' ++ wideCount) :=
    countsFit_append (by simp) (by decide)
  have status : CountsFit (List.replicate k 'a' ++ '\r' :: '\n' :: '*' ::
      (List.replicate (n + 1) 'x' ++ wideCount)) :=
    countsFit_append (by simp) ⟨by simp, by simp, fun _ => head, behind⟩
  have two (l : StdString) : CountFits ('2' :: '\r' :: '\n' :: l) := by
    intro _
    have value : readLongLong ('2' :: '\r' :: '\n' :: l) = 2 := rfl
    rw [value]
    decide
  rw [openHead]
  simp only [List.cons_append, List.append_assoc]
  exact ⟨fun _ => two _, by simp, by simp, by simp, by simp, status⟩

end ReplyParser

open ReplyParser

/-- The assumption on the buffers is needed: on a stream in which the counts fit, a reader
with a longer buffer writes through a null pointer. It loses the first part of a line that
begins with `*`, takes the rest of the line for a count, and makes an array without slots
for it. -/
theorem reader_faults_long : ∃ calls : List (Incremental.Call Char),
    CountsFit (Incremental.fed calls) ∧ serveReader create calls = .error .element := by
  refine ⟨[.feed (openHead 1024 (2147482615 + 1)), .pull, .feed wideCount, .pull], ?_, ?_⟩
  · have counts := countsFit_openHead 1024 2147482615
    simpa only [Incremental.fed, List.append_nil] using counts
  · exact serveReader_openHead (by decide) (by decide) (by decide)

end CtpTrade
