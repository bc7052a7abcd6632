import CtpTrade.Hiredis.RoundTrip
import CtpTrade.Library.Execution
import CtpTrade.Redis.Service

/-!
# A conversation with the server

A client of hiredis and the server at the two ends of a connection. Both write what the
connection takes and read what has arrived, at any time and in any pieces. The client
makes its calls in any order, and `redisGetReply` is one of the orders.

The commands only answer: a command works on the state of the server and has one answer,
and none of them blocks the client, closes it or pauses the clients. What the two ends
send each other during the conversation is short enough for the lengths of 32 bits in the
buffers of the client.
-/

namespace CtpTrade

open QueryParser

theorem serveReader_append {r s : RedisReader} {calls : List (Incremental.Call Char)}
    {out : List RedisReply} (h : serveReader s calls = .ok (r, out))
    (more : List (Incremental.Call Char)) :
    serveReader s (calls ++ more) =
      (serveReader r more).map fun later => (later.1, out ++ later.2) := by
  induction calls generalizing s out with
  | nil =>
      cases h
      rw [List.nil_append]
      cases serveReader r more <;> rfl
  | cons call calls ih =>
      cases call with
      | feed buf => exact ih h
      | pull =>
          cases got : s.redisReaderGetReply with
          | error e => simp [serveReader, got, bind, Except.bind] at h
          | ok first =>
              cases rest : serveReader first.1 calls with
              | error e => simp [serveReader, got, rest, bind, Except.bind] at h
              | ok later =>
                  have same : r = later.1 ∧ first.2.2.handed.toList ++ later.2 = out := by
                    simpa [serveReader, got, rest, bind, Except.bind, pure, Except.pure,
                      eq_comm] using h
                  obtain ⟨rfl, rfl⟩ := same
                  have tail := ih rest
                  rw [List.cons_append, serveReader, got]
                  simp only [bind, Except.bind, pure, Except.pure, tail]
                  cases serveReader later.1 more <;> simp [Except.map]

theorem fed_append (calls more : List (Incremental.Call Char)) :
    Incremental.fed (calls ++ more) = Incremental.fed calls ++ Incremental.fed more := by
  induction calls with
  | nil => rfl
  | cons call calls ih =>
      cases call with
      | feed buf => simp only [List.cons_append, Incremental.fed, ih, List.append_assoc]
      | pull => exact ih

section Answers

variable {σ : Type} (command : σ → List StdString → σ × RedisAnswer)

/-- The command for the server: it adds the text of its answer, and the client goes on. -/
def answering (server : σ) (argv : List StdString) : CommandResult σ where
  server := (command server argv).1
  reply := (command server argv).2.text
  ok := true
  blocks := false
  closes := false

/-- The answers to the requests one after the other, if the server executes them in
their order and begins with this data. -/
def answersTo : σ → List (List StdString) → List RedisAnswer
  | _, [] => []
  | server, argv :: reqs => (command server argv).2 :: answersTo (command server argv).1 reqs

variable {command} {server : σ}

theorem executeAll_answering (reqs : List (List StdString)) :
    ∃ server', executeAll (answering command) (fun _ => false) server reqs =
      some (server', textOfAll (answersTo command server reqs)) := by
  induction reqs generalizing server with
  | nil => exact ⟨server, rfl⟩
  | cons argv reqs ih =>
      obtain ⟨server', later⟩ := @ih (command server argv).1
      refine ⟨server', ?_⟩
      simp only [executeAll, answering] at later ⊢
      simp [later, answersTo, textOfAll]

theorem answersTo_append (reqs more : List (List StdString)) :
    ∃ later, answersTo command server (reqs ++ more) = answersTo command server reqs ++ later := by
  induction reqs generalizing server with
  | nil => exact ⟨answersTo command server more, rfl⟩
  | cons argv reqs ih =>
      obtain ⟨later, h⟩ := @ih (command server argv).1
      exact ⟨later, by rw [List.cons_append, answersTo, h]; rfl⟩

theorem textOfAll_append (answers more : List RedisAnswer) :
    textOfAll (answers ++ more) = textOfAll answers ++ textOfAll more := by
  induction answers with
  | nil => rfl
  | cons a answers ih => rw [List.cons_append, textOfAll, ih, textOfAll, List.append_assoc]

end Answers

/-- What can end a conversation: a fault of one of the two ends, or a request that the
client cannot build. -/
inductive ConversationFault where
  | format (fault : FormatFault)
  /-- `REDIS_ERR_OOM`: a request cannot be built. -/
  | memory
  | server (fault : ServerFault)
  | reader (fault : ReaderFault)
  deriving DecidableEq

/-- A client of the library and the server at the two ends of a connection, with what is
on the way in both directions. The transport keeps the order, loses nothing, and may
hand a stream over in any pieces. -/
structure Conversation (σ : Type) where
  /-- the output buffer of the client, `obuf` -/
  obuf : StdString := []
  /-- what the client has written and the server has not read -/
  requests : StdString := []
  server : σ
  client : RedisClient := .create
  /-- how much of its output the server has sent -/
  sent : Nat := 0
  /-- what the server has sent and the client has not read -/
  replies : StdString := []
  reader : RedisReader := .create
  /-- what `redisGetReplyFromReader` has given -/
  received : List RedisReply := []

/-- A step of one end or of the connection. The numbers say how much the operating
system takes or has; any number is possible. -/
inductive ConversationAction where
  /-- `redisAppendCommandArgv` -/
  | append (argv : List StdString)
  /-- `redisBufferWrite`, where `write` takes so many characters -/
  | write (nwritten : Nat)
  /-- `readQueryFromClient`, when so many characters have arrived -/
  | serve (present : Nat)
  /-- The server sends so many characters. -/
  | send (nwritten : Nat)
  /-- `redisBufferRead`, when so many characters have arrived -/
  | read (present : Nat)
  /-- `redisGetReplyFromReader` -/
  | getReply

/-- What `redisBufferWrite` leaves in the output buffer, where `write` has taken so many
characters of it. -/
def redisBufferWrite (obuf : StdString) (written : Nat) : StdString :=
  let nwritten := (written : Int).bmod (2 ^ 32)
  if 0 < nwritten then
    if nwritten = (obuf.length : Int).bmod (2 ^ 32) then [] else sdsrange obuf nwritten (-1)
  else obuf

theorem redisBufferWrite_drop {obuf : StdString} {written : Nat} (short : obuf.length < 2 ^ 31)
    (inside : written ≤ obuf.length) : redisBufferWrite obuf written = obuf.drop written := by
  have range := ReplyParser.sdsrange_drop short inside
  have nwritten : (written : Int).bmod (2 ^ 32) = written :=
    Int.bmod_eq_of_le (by omega) (by omega)
  rw [nwritten] at range
  have len : (obuf.length : Int).bmod (2 ^ 32) = obuf.length :=
    Int.bmod_eq_of_le (by omega) (by omega)
  unfold redisBufferWrite
  rw [nwritten, len]
  dsimp only
  rw [range]
  split_ifs with some_written all
  · rw [List.drop_of_length_le (by omega)]
  · rfl
  · have none_written : written = 0 := by omega
    rw [none_written, List.drop_zero]

namespace Conversation

variable {σ : Type} (command : σ → List StdString → σ × RedisAnswer)

/-- One step of the conversation. A read of nothing has not happened. -/
def step (s : Conversation σ) : ConversationAction → Except ConversationFault (Conversation σ)
  | .append argv => do
    match ← (redisFormatCommandArgv argv).mapError .format with
    | some cmd => return { s with obuf := s.obuf ++ cmd }
    | none => .error .memory
  | .write nwritten =>
    let nwritten := min nwritten s.obuf.length
    .ok { s with
      obuf := redisBufferWrite s.obuf nwritten
      requests := s.requests ++ s.obuf.take nwritten }
  | .serve present =>
    let nread := min present s.client.readlen
    if s.requests.take nread = [] then .ok s
    else do
      let served ← (readQueryFromClient (answering command) (fun _ => false) s.server
        s.client (s.requests.take nread)).mapError .server
      return { s with
        server := served.1
        client := served.2
        requests := s.requests.drop nread }
  | .send nwritten =>
    let out := (s.client.output.drop s.sent).take nwritten
    .ok { s with
      sent := s.sent + out.length
      replies := s.replies ++ out }
  | .read present =>
    let nread := min present (1024 * 16)
    .ok { s with
      reader := (s.reader.redisReaderFeed (s.replies.take nread)).1
      replies := s.replies.drop nread }
  | .getReply => do
    let got ← s.reader.redisReaderGetReply.mapError .reader
    return { s with
      reader := got.1
      received := s.received ++ got.2.2.handed.toList }

/-- The requests that the client has made. -/
def appended : List ConversationAction → List (List StdString)
  | [] => []
  | .append argv :: acts => argv :: appended acts
  | _ :: acts => appended acts

def start (server : σ) : Conversation σ where
  server := server

/-- Nothing is under way between the two sides, and the reader of the client has nothing
more to hand out. -/
structure Quiet (s : Conversation σ) : Prop where
  written : s.obuf = []
  read : s.requests = []
  sent : s.sent = s.client.output.length
  fed : s.replies = []
  nothing : ∃ t ok, s.reader.redisReaderGetReply = .ok (t, ok, .null)

variable {command} {first : σ} {reqs : List (List StdString)} {seen : StdString}
  {calls : List (Incremental.Call Char)} {s : Conversation σ}

variable (command first reqs) in
/-- The assumption on a conversation: requests that the server accepts, with answers
that the client can read. Neither of the two streams is longer than what an `int` of the
client can count, so that none of its lengths wraps, however much of a stream is in a
buffer at once. -/
structure Conversable : Prop where
  acceptable : ∀ argv ∈ reqs, Acceptable argv
  requested : (reqs.flatMap requestText).length < 2 ^ 31 - 1
  sendable : AllSendable 0 (answersTo command first reqs)
  answered : (textOfAll (answersTo command first reqs)).length < 2 ^ 31

namespace Conversable

/-- The first requests of a conversation are a conversation too. -/
theorem of_append {more : List (List StdString)} (h : Conversable command first (reqs ++ more)) :
    Conversable command first reqs := by
  obtain ⟨later, answers⟩ := @answersTo_append σ command first reqs more
  have requested := h.requested
  have sendable := h.sendable
  have answered := h.answered
  rw [List.flatMap_append, List.length_append] at requested
  rw [answers, textOfAll_append, List.length_append] at answered
  rw [answers] at sendable
  have short := ReplyParser.allSendable_take sendable (answersTo command first reqs).length
  rw [List.take_left] at short
  exact {
    acceptable := fun argv mem => h.acceptable argv (List.mem_append_left _ mem)
    requested := by omega
    sendable := short
    answered := by omega }

/-- The client builds each of the requests. -/
theorem fits (h : Conversable command first reqs) {argv : List StdString} (mem : argv ∈ reqs) :
    RequestFits argv := by
  obtain ⟨before, after, rfl⟩ := List.append_of_mem mem
  have requested := h.requested
  rw [List.flatMap_append, List.flatMap_cons, List.length_append, List.length_append] at requested
  rw [RequestFits]
  omega

/-- An `int` counts whatever the reader has in its buffer. -/
theorem buffersFit (h : Conversable command first reqs)
    (arrived : Incremental.fed calls <+: textOfAll (answersTo command first reqs)) :
    BuffersFit RedisReader.create calls := by
  have answered := h.answered
  have part := arrived.length_le
  refine ReplyParser.represents_start.buffersFit ?_
  rw [RedisReader.create, List.length_nil]
  omega

end Conversable

variable (command) in
/-- The invariant of a conversation, with the bytes on the way between the two sides:
the server has read `seen`, and the client has made `calls` on its reader. What is
written, on the way and read makes up the two streams at every moment. -/
structure Conversing (first : σ) (reqs : List (List StdString)) (seen : StdString)
    (calls : List (Incremental.Call Char)) (s : Conversation σ) : Prop where
  requested : seen ++ s.requests ++ s.obuf = reqs.flatMap requestText
  serving : Serving (answering command) (fun _ => false) first seen s.server s.client
  sent_le : s.sent ≤ s.client.output.length
  sent : Incremental.fed calls ++ s.replies = s.client.output.take s.sent
  served : serveReader .create calls = .ok (s.reader, s.received)

theorem conversing_start : Conversing command first [] [] [] (start first) where
  requested := rfl
  serving := serving_create rfl
  sent_le := Nat.le_refl _
  sent := rfl
  served := rfl

namespace Conversing

/-- The server has added the answers to the requests that have arrived. -/
theorem output (h : Conversing command first reqs seen calls s)
    (conversable : Conversable command first reqs) :
    s.client.output = textOfAll (answersTo command first (arrived reqs seen.length)) := by
  have whole := h.requested
  rw [List.append_assoc] at whole
  have executed := h.serving.executed
  obtain ⟨server', answered⟩ := @executeAll_answering σ command first (arrived reqs seen.length)
  rw [drain_arrived conversable.acceptable whole, answered] at executed
  exact (congrArg Prod.snd (Option.some.inj executed)).symm

/-- What the reader has been fed is the beginning of the answers to all requests. -/
theorem fed (h : Conversing command first reqs seen calls s)
    (conversable : Conversable command first reqs) :
    Incremental.fed calls <+: textOfAll (answersTo command first reqs) := by
  obtain ⟨missing, whole⟩ := arrived_append reqs seen.length
  obtain ⟨later, answers⟩ := @answersTo_append σ command first (arrived reqs seen.length) missing
  rw [whole] at answers
  have sent : Incremental.fed calls <+: s.client.output :=
    (show Incremental.fed calls <+: _ from ⟨_, h.sent⟩).trans (List.take_prefix ..)
  rw [h.output conversable] at sent
  refine sent.trans ?_
  rw [answers, textOfAll_append]
  exact List.prefix_append ..

theorem append (h : Conversing command first reqs seen calls s) {argv : List StdString}
    (fits : RequestFits argv) :
    ∃ s', step command s (.append argv) = .ok s' ∧
      Conversing command first (reqs ++ [argv]) seen calls s' := by
  refine ⟨{ s with obuf := s.obuf ++ requestText argv }, ?_, { h with requested := ?_ }⟩
  · simp only [step, redisFormatCommandArgv, buildCommand_eq fits]
    rfl
  · simp only [← List.append_assoc, h.requested, List.flatMap_append, List.flatMap_singleton]

theorem write (h : Conversing command first reqs seen calls s) (nwritten : Nat) :
    Conversing command first reqs seen calls { s with
      obuf := s.obuf.drop nwritten
      requests := s.requests ++ s.obuf.take nwritten } := by
  refine { h with requested := ?_ }
  have split := List.take_append_drop nwritten s.obuf
  simp only [List.append_assoc, split]
  rw [← List.append_assoc, h.requested]

/-- The output buffer is a part of the requests, so an `int` can count it. -/
theorem step_write (h : Conversing command first reqs seen calls s)
    (conversable : Conversable command first reqs) (nwritten : Nat) :
    step command s (.write nwritten) = .ok { s with
      obuf := s.obuf.drop nwritten
      requests := s.requests ++ s.obuf.take nwritten } := by
  have requested := congrArg List.length h.requested
  have all := conversable.requested
  rw [List.length_append] at requested
  rw [List.drop_eq_drop_min, List.take_eq_take_min, step,
    redisBufferWrite_drop (by omega) (Nat.min_le_right ..)]

theorem serve (h : Conversing command first reqs seen calls s)
    (conversable : Conversable command first reqs) (present : Nat) :
    ∃ s' seen', step command s (.serve present) = .ok s' ∧
      Conversing command first reqs seen' calls s' ∧ s'.obuf = s.obuf ∧
      s'.requests = s.requests.drop (min present s.client.readlen) := by
  let nread := min present s.client.readlen
  let buf := s.requests.take nread
  by_cases nothing : buf = []
  · have none_read : s.requests = s.requests.drop nread := by
      have split : buf ++ s.requests.drop nread = s.requests := List.take_append_drop ..
      rw [nothing, List.nil_append] at split
      exact split.symm
    exact ⟨s, seen, if_pos nothing, h, rfl, none_read⟩
  · have split : buf ++ s.requests.drop nread = s.requests := List.take_append_drop ..
    have whole : seen ++ buf ++ (s.requests.drop nread ++ s.obuf) = reqs.flatMap requestText := by
      rw [List.append_assoc seen, ← List.append_assoc buf, split, ← List.append_assoc, h.requested]
    have asked : buf.length ≤ s.client.readlen := by
      simp only [buf, nread, List.length_take]
      omega
    obtain ⟨server', executed⟩ :=
      @executeAll_answering σ command first (arrived reqs (seen ++ buf).length)
    rw [← drain_arrived conversable.acceptable whole] at executed
    obtain ⟨client, read, serving, grown⟩ :=
      h.serving.read (completable_of_requests conversable.acceptable whole) asked executed
    refine ⟨{ s with server := server', client := client, requests := s.requests.drop nread },
      seen ++ buf, ?_, ?_, rfl, rfl⟩
    · have active : step command s (.serve present) = _ := if_neg nothing
      rw [active, show readQueryFromClient (answering command) (fun _ => false) s.server
        s.client (s.requests.take (min present s.client.readlen)) = _ from read]
      rfl
    · obtain ⟨more, grown⟩ := grown
      exact {
        requested := by rw [List.append_assoc]; exact whole
        serving
        sent_le := by
          have := h.sent_le
          simp only [← grown, List.length_append]
          omega
        sent := by
          simp only [← grown, List.take_append_of_le_length h.sent_le]
          exact h.sent
        served := h.served }

theorem send (h : Conversing command first reqs seen calls s) (nwritten : Nat) :
    Conversing command first reqs seen calls { s with
      sent := s.sent + ((s.client.output.drop s.sent).take nwritten).length
      replies := s.replies ++ (s.client.output.drop s.sent).take nwritten } := by
  refine { h with sent_le := ?_, sent := ?_ }
  · have := h.sent_le
    simp only [List.length_take, List.length_drop]
    omega
  · rw [← List.append_assoc, h.sent, List.take_add, List.length_take]
    exact congrArg _ List.take_eq_take_min

theorem read (h : Conversing command first reqs seen calls s) (nread : Nat) :
    Conversing command first reqs seen (calls ++ [.feed (s.replies.take nread)]) { s with
      reader := (s.reader.redisReaderFeed (s.replies.take nread)).1
      replies := s.replies.drop nread } := by
  refine { h with sent := ?_, served := ?_ }
  · rw [fed_append, ← h.sent]
    simp only [Incremental.fed, List.append_nil, List.append_assoc, List.take_append_drop]
  · rw [serveReader_append h.served]
    simp [serveReader, Except.map]

theorem getReply (h : Conversing command first reqs seen calls s)
    (conversable : Conversable command first reqs) :
    ∃ r ok v, s.reader.redisReaderGetReply = .ok (r, ok, v) ∧
      step command s .getReply =
        .ok { s with reader := r, received := s.received ++ v.handed.toList } ∧
      Conversing command first reqs seen (calls ++ [.pull])
        { s with reader := r, received := s.received ++ v.handed.toList } := by
  have same : Incremental.fed (calls ++ [.pull]) = Incremental.fed calls := by
    rw [fed_append]
    exact List.append_nil _
  have arrived := h.fed conversable
  rw [← same] at arrived
  obtain ⟨r, out, served⟩ := ReplyParser.exists_serveReader conversable.sendable arrived
    (conversable.buffersFit arrived)
  have last := serveReader_append h.served [.pull]
  rw [served] at last
  cases got : s.reader.redisReaderGetReply with
  | error e => simp [serveReader, got, bind, Except.bind, Except.map] at last
  | ok got' =>
      refine ⟨got'.1, got'.2.1, got'.2.2, rfl, ?_, { h with sent := ?_, served := ?_ }⟩
      · simp only [step, got]
        rfl
      · rw [same]
        exact h.sent
      · rw [serveReader_append h.served]
        simp [serveReader, got, bind, Except.bind, pure, Except.pure, Except.map]

/-- Nothing is under way: all answers have been handed out. -/
theorem received_of_quiet (h : Conversing command first reqs seen calls s)
    (conversable : Conversable command first reqs) (quiet : s.Quiet) :
    s.received = repliesOfAll (answersTo command first reqs) := by
  have all : seen = reqs.flatMap requestText := by
    rw [← h.requested, quiet.read, quiet.written, List.append_nil, List.append_nil]
  have output := h.output conversable
  rw [all, arrived_all] at output
  have fed : Incremental.fed calls = textOfAll (answersTo command first reqs) := by
    rw [← output, ← List.append_nil (Incremental.fed calls), ← quiet.fed, h.sent, quiet.sent,
      List.take_length]
  obtain ⟨t, ok, nothing⟩ := quiet.nothing
  have fits := conversable.buffersFit (h.fed conversable)
  rw [(ReplyParser.out_eq_replies fits h.served nothing).1, fed,
    ReplyParser.replies_textOfAll conversable.sendable]

/-- What has been handed out are the replies for the first answers. -/
theorem received_prefix (h : Conversing command first reqs seen calls s)
    (conversable : Conversable command first reqs) :
    s.received <+: repliesOfAll (answersTo command first reqs) := by
  obtain ⟨more, rest⟩ := h.fed conversable
  have grown := ReplyParser.replies_append (Incremental.fed calls) more
  rw [rest, ReplyParser.replies_textOfAll conversable.sendable] at grown
  have fits := conversable.buffersFit (h.fed conversable)
  exact (ReplyParser.out_prefix_replies fits h.served).trans grown

end Conversing

/-- A step of either end keeps what holds between them. -/
theorem conversing_step (h : Conversing command first reqs seen calls s) (a : ConversationAction)
    (conversable : Conversable command first (reqs ++ appended [a])) :
    ∃ s' seen' calls', step command s a = .ok s' ∧
      Conversing command first (reqs ++ appended [a]) seen' calls' s' := by
  have before := conversable.of_append
  cases a with
  | append argv =>
      have new : argv ∈ reqs ++ appended [.append argv] := by simp [appended]
      obtain ⟨s', next, after⟩ := h.append (conversable.fits new)
      exact ⟨s', seen, calls, next, after⟩
  | write nwritten =>
      exact ⟨_, seen, calls, h.step_write before nwritten,
        by simpa [appended] using h.write nwritten⟩
  | serve present =>
      obtain ⟨s', seen', next, after, -⟩ := h.serve before present
      exact ⟨s', seen', calls, next, by simpa [appended] using after⟩
  | send nwritten =>
      exact ⟨_, seen, calls, rfl, by simpa [appended] using h.send nwritten⟩
  | read present =>
      exact ⟨_, seen, _, rfl, by simpa [appended] using h.read (min present (1024 * 16))⟩
  | getReply =>
      obtain ⟨r, ok, v, -, next, after⟩ := h.getReply before
      exact ⟨_, seen, _, next, by simpa [appended] using after⟩

theorem appended_append (acts more : List ConversationAction) :
    appended (acts ++ more) = appended acts ++ appended more := by
  induction acts with
  | nil => rfl
  | cons a acts ih =>
      cases a with
      | append argv => exact congrArg (argv :: ·) ih
      | write | serve | send | read | getReply => exact ih

theorem appended_cons (a : ConversationAction) (acts : List ConversationAction) :
    appended (a :: acts) = appended [a] ++ appended acts :=
  appended_append [a] acts

theorem conversing_run {acts : List ConversationAction}
    (h : Conversing command first reqs seen calls s)
    (conversable : Conversable command first (reqs ++ appended acts)) :
    ∃ s' seen' calls', Execution.run (step command) s acts = .ok s' ∧
      Conversing command first (reqs ++ appended acts) seen' calls' s' := by
  induction acts generalizing s reqs seen calls with
  | nil => exact ⟨s, seen, calls, rfl, by rwa [appended, List.append_nil]⟩
  | cons a acts ih =>
      rw [appended_cons, ← List.append_assoc] at conversable ⊢
      obtain ⟨s₁, seen₁, calls₁, next, after⟩ := conversing_step h a conversable.of_append
      rw [Execution.run_cons_ok next]
      exact ih after conversable

/-- Whatever the client asks for and when, and in whatever pieces the two streams arrive:
neither end meets a fault or an error, and the replies that the client gets are those of
the answers to its requests, in their order. They are all of them once nothing is under
way. -/
theorem conversation_replies {acts : List ConversationAction}
    (conversable : Conversable command first (appended acts)) :
    ∃ s, Execution.run (step command) (start first) acts = .ok s ∧
      s.reader.err = none ∧ s.client.closeAfterReply = false ∧
      s.received <+: repliesOfAll (answersTo command first (appended acts)) ∧
      (s.Quiet → s.received = repliesOfAll (answersTo command first (appended acts))) := by
  obtain ⟨s, seen, calls, ran, after⟩ := conversing_run conversing_start conversable
  refine ⟨s, ran, ?_, after.serving.sound.not_closing,
    after.received_prefix conversable, after.received_of_quiet conversable⟩
  have arrived := after.fed conversable
  exact ReplyParser.err_of_fed conversable.sendable arrived (conversable.buffersFit arrived)
    after.served

/-- `SET` counts, and every other command asks for the count. -/
def countingCommand (count : Int64) : List StdString → Int64 × RedisAnswer
  | ['S', 'E', 'T'] :: _ => (count + 1, .status ['O', 'K'])
  | _ => (count, .bulk (.int count))

/-- Two requests, of which the second one is written before there is an answer to the first. -/
def countingActs : List ConversationAction :=
  [.append [['S', 'E', 'T'], ['\r', '\n']], .write 7, .serve 5, .append [['G', 'E', 'T']],
    .getReply, .write 100, .serve 100, .send 3, .read 9, .getReply, .send 100, .read 100,
    .getReply, .getReply]

theorem answersTo_countingActs : answersTo countingCommand 5 (appended countingActs) =
    [.status ['O', 'K'], .bulk (.int 6)] := rfl

theorem conversable_countingActs : Conversable countingCommand 5 (appended countingActs) := by
  have set : Acceptable [['S', 'E', 'T'], ['\r', '\n']] := ⟨by simp, by simp, by simp⟩
  have get : Acceptable [['G', 'E', 'T']] := ⟨by simp, by simp, by simp⟩
  have short : (Robj.int 6).text.length < 2 ^ 63 := by decide
  refine ⟨?_, by decide, ?_, by decide⟩
  · simp [countingActs, appended, set, get]
  · rw [answersTo_countingActs]
    exact ⟨by simp [RedisAnswer.Sendable], short, trivial⟩

theorem replies_countingActs :
    repliesOfAll (answersTo countingCommand 5 (appended countingActs)) =
      [.status ['O', 'K'], .string ['6']] := by
  have six : (Robj.int 6).text = ['6'] := by decide
  rw [answersTo_countingActs]
  simp only [repliesOfAll, RedisAnswer.reply, six]

theorem conversation_replies_counting :
    ∃ s, Execution.run (step countingCommand) (start 5) countingActs = .ok s ∧
      s.reader.err = none ∧ s.client.closeAfterReply = false ∧
      s.received <+: [.status ['O', 'K'], .string ['6']] ∧
      (s.Quiet → s.received = [.status ['O', 'K'], .string ['6']]) := by
  have all := conversation_replies conversable_countingActs
  rwa [replies_countingActs] at all

variable (command) in
/-- Some steps of the two sides and of the connection, without a new request, lead from
the one state to the other. -/
def Leads (s t : Conversation σ) : Prop :=
  ∃ acts, appended acts = [] ∧ Execution.run (step command) s acts = .ok t

variable {t u : Conversation σ}

theorem Leads.refl : Leads command s s := ⟨[], rfl, rfl⟩

theorem Leads.trans (h : Leads command s t) (h' : Leads command t u) : Leads command s u := by
  obtain ⟨acts, none_new, ran⟩ := h
  obtain ⟨acts', none_new', ran'⟩ := h'
  refine ⟨acts ++ acts', ?_, (Execution.run_append_ok ran).trans ran'⟩
  rw [appended_append, none_new, none_new', List.append_nil]

theorem Leads.single {a : ConversationAction} (next : step command s a = .ok t)
    (none_new : appended [a] = []) : Leads command s t :=
  ⟨[a], none_new, Execution.run_cons_ok next⟩

namespace Conversing

/-- The server comes to the end of what has been written. -/
theorem leads_served (h : Conversing command first reqs seen calls s)
    (conversable : Conversable command first reqs) :
    ∃ t seen', Leads command s t ∧ Conversing command first reqs seen' calls t ∧
      t.obuf = s.obuf ∧ t.requests = [] := by
  induction hn : s.requests.length using Nat.strongRecOn generalizing s seen with
  | ind n ih =>
      subst hn
      by_cases empty : s.requests = []
      · exact ⟨s, seen, .refl, h, rfl, empty⟩
      · obtain ⟨s₁, seen₁, next, after, same, rest⟩ := h.serve conversable s.requests.length
        have some := List.length_pos_iff.mpr empty
        have asked := h.serving.readlen_pos
        have shorter : s₁.requests.length < s.requests.length := by
          rw [rest, List.length_drop]
          omega
        obtain ⟨t, seen', leads, last, obuf, requests⟩ := ih _ shorter after rfl
        exact ⟨t, seen', (Leads.single next rfl).trans leads, last, obuf.trans same, requests⟩

/-- The client reads all that has been sent. -/
theorem leads_fed (h : Conversing command first reqs seen calls s) :
    ∃ t calls', Leads command s t ∧ Conversing command first reqs seen calls' t ∧
      t.obuf = s.obuf ∧ t.requests = s.requests ∧ t.sent = s.sent ∧ t.client = s.client ∧
      t.replies = [] := by
  induction hn : s.replies.length using Nat.strongRecOn generalizing s calls with
  | ind n ih =>
      subst hn
      by_cases empty : s.replies = []
      · exact ⟨s, calls, .refl, h, rfl, rfl, rfl, rfl, empty⟩
      · have after := h.read (min s.replies.length (1024 * 16))
        have some := List.length_pos_iff.mpr empty
        have shorter : (s.replies.drop (min s.replies.length (1024 * 16))).length <
            s.replies.length := by
          rw [List.length_drop]
          omega
        obtain ⟨t, calls', leads, last⟩ := ih _ shorter after rfl
        have next : step command s (.read s.replies.length) = .ok _ := rfl
        exact ⟨t, calls', (Leads.single next rfl).trans leads, last⟩

/-- The client asks until there is no reply. -/
theorem leads_nothing (h : Conversing command first reqs seen calls s)
    (conversable : Conversable command first reqs) :
    ∃ t calls', Leads command s t ∧ Conversing command first reqs seen calls' t ∧
      t.obuf = s.obuf ∧ t.requests = s.requests ∧ t.sent = s.sent ∧ t.client = s.client ∧
      t.replies = s.replies ∧ ∃ r ok, t.reader.redisReaderGetReply = .ok (r, ok, .null) := by
  -- every reply that is handed out is one of the answers
  induction hn : (repliesOfAll (answersTo command first reqs)).length - s.received.length
    using Nat.strongRecOn generalizing s calls with
  | ind n ih =>
      subst hn
      obtain ⟨r, ok, v, got, next, after⟩ := h.getReply conversable
      by_cases null : v = .null
      · rw [null] at got
        exact ⟨s, calls, .refl, h, rfl, rfl, rfl, rfl, rfl, r, ok, got⟩
      · have given := (after.received_prefix conversable).length_le
        rw [List.length_append, ReplyParser.handed_of_ne_null null, Option.toList_some,
          List.length_singleton] at given
        have fewer : (repliesOfAll (answersTo command first reqs)).length -
            (s.received ++ v.handed.toList).length <
            (repliesOfAll (answersTo command first reqs)).length - s.received.length := by
          rw [List.length_append, ReplyParser.handed_of_ne_null null, Option.toList_some,
            List.length_singleton]
          omega
        obtain ⟨t, calls', leads, last⟩ := ih _ fewer after rfl
        exact ⟨t, calls', (Leads.single next rfl).trans leads, last⟩

theorem leads_quiet (h : Conversing command first reqs seen calls s)
    (conversable : Conversable command first reqs) :
    ∃ t seen' calls', Leads command s t ∧ Conversing command first reqs seen' calls' t ∧
      t.Quiet := by
  obtain ⟨s₁, seen₁, leads₁, h₁, obuf₁, requests₁⟩ :=
    (h.write s.obuf.length).leads_served conversable
  obtain ⟨s₂, calls₂, leads₂, h₂, obuf₂, requests₂, sent₂, client₂, replies₂⟩ :=
    (h₁.send s₁.client.output.length).leads_fed
  obtain ⟨t, calls₃, leads₃, h₃, obuf₃, requests₃, sent₃, client₃, replies₃, nothing⟩ :=
    h₂.leads_nothing conversable
  have written := h.step_write conversable s.obuf.length
  have sent : step command s₁ (.send s₁.client.output.length) = .ok _ := rfl
  have all_written : s.obuf.drop s.obuf.length = [] := List.drop_length
  have whole := h₁.sent_le
  refine ⟨t, seen₁, calls₃, ?_, h₃, ?_⟩
  · exact (Leads.single written rfl).trans
      (leads₁.trans ((Leads.single sent rfl).trans (leads₂.trans leads₃)))
  · exact {
      written := by rw [obuf₃, obuf₂, obuf₁, all_written]
      read := by rw [requests₃, requests₂, requests₁]
      sent := by
        rw [sent₃, client₃, sent₂, client₂]
        simp only [List.length_take, List.length_drop]
        omega
      fed := by rw [replies₃, replies₂]
      nothing }

end Conversing

/-- From every state that a conversation can reach, the two ends can come to where the
client has got the replies to all of its requests, without another request. No reply is
lost, and neither end gets stuck. -/
theorem conversation_completes {acts : List ConversationAction}
    (conversable : Conversable command first (appended acts)) :
    ∃ s t more, Execution.run (step command) (start first) acts = .ok s ∧
      appended more = [] ∧ Execution.run (step command) s more = .ok t ∧
      t.received = repliesOfAll (answersTo command first (appended acts)) := by
  obtain ⟨s, seen, calls, ran, after⟩ := conversing_run conversing_start conversable
  obtain ⟨t, seen', calls', ⟨more, none_new, ran'⟩, last, quiet⟩ :=
    after.leads_quiet conversable
  exact ⟨s, t, more, ran, none_new, ran', last.received_of_quiet conversable quiet⟩

/-- In the middle of the conversation, behind the second request. -/
theorem conversation_completes_counting :
    ∃ s t more, Execution.run (step countingCommand) (start 5) (countingActs.take 4) = .ok s ∧
      appended more = [] ∧ Execution.run (step countingCommand) s more = .ok t ∧
      t.received = [.status ['O', 'K'], .string ['6']] := by
  have same : appended (countingActs.take 4) = appended countingActs := rfl
  have conversable := conversable_countingActs
  rw [← same] at conversable
  have all := conversation_completes conversable
  rwa [same, replies_countingActs] at all

end Conversation

end CtpTrade
