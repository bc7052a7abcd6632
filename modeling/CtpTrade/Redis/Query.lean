import CtpTrade.Redis.Reply
import CtpTrade.Redis.SplitArgs

/-!
# The requests that the redis server reads

`readQueryFromClient` appends what has arrived to the query buffer, and
`processInputBuffer` takes requests from its front as long as they are complete. A
request is a line of arguments, or a `*` with the number of arguments, and then each
argument with its length. What has been read of a request that is not complete stays in
the client.

What a command does is a parameter: it works on the state of the server, adds text to
the output, and tells whether the client goes on. Whether the clients are paused is read
off the state of the server. The client is no slave, and that the buffers of all clients
are looked at again when a pause ends is left out. The places that `sdsrange` cuts at are
of the type `int`, which the limit of the query buffer keeps them in.
-/

namespace CtpTrade

/-- What a read of the server must not come to. The last one closes the connection. -/
inductive ServerFault where
  /-- a failed `redisAssert` -/
  | assertion
  /-- the loop of `processInputBuffer` does not end -/
  | endless
  /-- `freeClient`: the query buffer is above its limit -/
  | freed
  deriving DecidableEq

/-- `REDIS_REQ_INLINE` and `REDIS_REQ_MULTIBULK` -/
inductive ReqType where
  | inline
  | multibulk
  deriving DecidableEq

/-- What a command leaves: the data of the server, its reply, and what it asks of the
connection. -/
structure CommandResult (σ : Type) where
  server : σ
  /-- the text that it adds to the output -/
  reply : StdString
  /-- `REDIS_OK`: the client can be reset -/
  ok : Bool
  /-- `REDIS_BLOCKED` is set -/
  blocks : Bool
  /-- `REDIS_CLOSE_AFTER_REPLY` is set -/
  closes : Bool

/-- A `redisClient`, as far as reading requests and collecting replies go: the query
buffer, the request that is being read, and the output. -/
structure RedisClient where
  querybuf : StdString
  /-- `none` is the zero of an unknown request. -/
  reqtype : Option ReqType
  multibulklen : Int
  bulklen : Int
  argv : List StdString
  blocked : Bool
  closeAfterReply : Bool
  /-- all text that has been added to the output -/
  output : StdString

/-- `REDIS_INLINE_MAX_SIZE` -/
def inlineMaxSize : Nat := 1024 * 64

/-- `REDIS_MBULK_BIG_ARG` -/
def mbulkBigArg : Int := 1024 * 32

/-- `REDIS_MAX_QUERYBUF_LEN`, the value of `client_max_querybuf_len` -/
def maxQuerybufLen : Nat := 1024 * 1024 * 1024

/-- `REDIS_IOBUF_LEN` -/
def iobufLen : Nat := 1024 * 16

/-- The first `ch` of a string that ends at its first zero byte. -/
def strchr (s : StdString) (ch : Char) : Option Nat :=
  match s with
  | [] => none
  | c :: s =>
    if c = ch then some 0 else if c = '\x00' then none else (strchr s ch).map (· + 1)

/-- The digits behind the first one, with the tests for an overflow of 64 bits. -/
def string2llLoop (v : Nat) : StdString → Option Nat
  | [] => some v
  | c :: s =>
    if c.isDigit then
      if (2 ^ 64 - 1) / 10 < v then none
      else if 2 ^ 64 - 1 - (c.toNat - 48) < v * 10 then none
      else string2llLoop (v * 10 + (c.toNat - 48)) s
    else none

/-- Behind the sign: the first digit is not zero. -/
def string2llDigits : StdString → Option Nat
  | [] => none
  | c :: s => if c.isDigit ∧ c ≠ '0' then string2llLoop (c.toNat - 48) s else none

def string2ll (s : StdString) : Option Int :=
  match s with
  | ['0'] => some 0
  | '-' :: s =>
    match string2llDigits s with
    | some v => if 2 ^ 63 < v then none else some (-v)
    | none => none
  | s =>
    match string2llDigits s with
    | some v => if 2 ^ 63 - 1 < v then none else some v
    | none => none

namespace RedisClient

/-- `createClient` -/
def create : RedisClient where
  querybuf := []
  reqtype := none
  multibulklen := 0
  bulklen := -1
  argv := []
  blocked := false
  closeAfterReply := false
  output := []

/-- `addReplyString`: nothing is added behind the last reply. -/
def addReplyString (c : RedisClient) (s : StdString) : RedisClient :=
  if c.closeAfterReply then c else { c with output := c.output ++ s }

/-- `addReplyError` and `setProtocolError` -/
def protocolError (c : RedisClient) (err : StdString) (pos : Nat) : RedisClient :=
  let c := c.addReplyString (addReplyError err)
  { c with closeAfterReply := true, querybuf := c.querybuf.drop pos }

def resetClient (c : RedisClient) : RedisClient :=
  { c with argv := [], reqtype := none, multibulklen := 0, bulklen := -1 }

/-- The second component of the result is `REDIS_OK`. -/
def processInlineBuffer (c : RedisClient) : RedisClient × Bool :=
  match strchr c.querybuf '\n' with
  | none =>
    if inlineMaxSize < c.querybuf.length then
      (c.protocolError "Protocol error: too big inline request".toList 0, false)
    else (c, false)
  | some newline =>
    let querylen :=
      if newline ≠ 0 ∧ c.querybuf[newline - 1]? = some '\r' then newline - 1 else newline
    match sdssplitargs (c.querybuf.take querylen) with
    | none => (c.protocolError "Protocol error: unbalanced quotes in request".toList 0, false)
    | some argv =>
      -- two characters go also where the line ends without a `\r`
      ({ c with querybuf := c.querybuf.drop (querylen + 2), argv := argv.filter (· ≠ []) }, true)

/-- The number of arguments, if it is unknown: the client, the position behind the number,
and what `processMultibulkBuffer` returns, if it does here. -/
def readMultibulklen (c : RedisClient) : Except ServerFault (RedisClient × Nat × Option Bool) :=
  if c.multibulklen ≠ 0 then .ok (c, 0, none)
  else if c.argv ≠ [] then .error .assertion
  else match strchr c.querybuf '\r' with
  | none =>
    if inlineMaxSize < c.querybuf.length then
      .ok (c.protocolError "Protocol error: too big mbulk count string".toList 0, 0, some false)
    else .ok (c, 0, some false)
  | some newline =>
    if (c.querybuf.length : Int) - 2 < newline then .ok (c, 0, some false)
    else if c.querybuf.head? ≠ some '*' then .error .assertion
    else
      let pos := newline + 2
      match string2ll ((c.querybuf.drop 1).take (newline - 1)) with
      | some ll =>
        if 1024 * 1024 < ll then
          .ok (c.protocolError "Protocol error: invalid multibulk length".toList 0, 0, some false)
        else if ll ≤ 0 then .ok ({ c with querybuf := c.querybuf.drop pos }, pos, some true)
        else .ok ({ c with multibulklen := ll }, pos, none)
      | none =>
        .ok (c.protocolError "Protocol error: invalid multibulk length".toList 0, 0, some false)

/-- How a round of the loop over the arguments goes on. -/
inductive Round where
  | next (c : RedisClient) (pos : Nat)
  | wait (c : RedisClient) (pos : Nat)
  | fail (c : RedisClient)

/-- The length of an argument, if it is unknown. -/
def readBulklen (c : RedisClient) (pos : Nat) : Round :=
  if c.bulklen ≠ -1 then .next c pos
  else match strchr (c.querybuf.drop pos) '\r' with
  | none =>
    if inlineMaxSize < c.querybuf.length then
      .fail (c.protocolError "Protocol error: too big bulk count string".toList 0)
    else .wait c pos
  | some n =>
    if (c.querybuf.length : Int) - 2 < (pos + n : Nat) then .wait c pos
    else match c.querybuf.drop pos with
    | [] => .wait c pos
    | first :: line =>
      if first ≠ '$' then
        let shown := if first = '\r' ∨ first = '\n' then ' ' else first
        let err := "Protocol error: expected '$', got '".toList ++ [shown, '\'']
        .fail (c.protocolError err pos)
      else match string2ll (line.take (n - 1)) with
      | some ll =>
        if ll < 0 ∨ 512 * 1024 * 1024 < ll then
          .fail (c.protocolError "Protocol error: invalid bulk length".toList pos)
        else if mbulkBigArg ≤ ll then
          -- a large argument should begin where the buffer begins
          .next { c with querybuf := c.querybuf.drop (pos + (n + 2)), bulklen := ll } 0
        else .next { c with bulklen := ll } (pos + (n + 2))
      | none => .fail (c.protocolError "Protocol error: invalid bulk length".toList pos)

/-- The argument itself. -/
def readArgument (c : RedisClient) (pos : Nat) : Round :=
  if (c.querybuf.length : Int) - pos < c.bulklen + 2 then .wait c pos
  else
    let c' := { c with bulklen := -1, multibulklen := c.multibulklen - 1 }
    if pos = 0 ∧ mbulkBigArg ≤ c.bulklen ∧ (c.querybuf.length : Int) = c.bulklen + 2 then
      -- the buffer is just the argument and becomes the object
      .next
        { c' with argv := c.argv ++ [c.querybuf.take (c.querybuf.length - 2)], querybuf := [] } 0
    else
      .next { c' with argv := c.argv ++ [(c.querybuf.drop pos).take c.bulklen.toNat] }
        (pos + (c.bulklen.toNat + 2))

/-- The loop over the arguments that are missing. -/
def readArguments : Nat → RedisClient → Nat → Round
  | 0, c, pos => .next c pos
  | missing + 1, c, pos =>
    match c.readBulklen pos with
    | .next c pos =>
      match c.readArgument pos with
      | .next c pos => readArguments missing c pos
      | round => round
    | round => round

def processMultibulkBuffer (c : RedisClient) : Except ServerFault (RedisClient × Bool) := do
  let (c, pos, returned) ← c.readMultibulklen
  match returned with
  | some ok => return (c, ok)
  | none =>
    if c.multibulklen ≤ 0 then .error .assertion
    else match readArguments c.multibulklen.toNat c pos with
    | .fail c => return (c, false)
    | .next c pos | .wait c pos =>
      let c := { c with querybuf := c.querybuf.drop pos }
      return (c, c.multibulklen = 0)

/-- How much `readQueryFromClient` asks for. A large argument is read up to its end. -/
def readlen (c : RedisClient) : Nat :=
  if c.reqtype = some .multibulk ∧ c.multibulklen ≠ 0 ∧ c.bulklen ≠ -1 ∧
      mbulkBigArg ≤ c.bulklen then
    min iobufLen (c.bulklen + 2 - c.querybuf.length).toNat
  else iobufLen

end RedisClient

section Commands

variable {σ : Type} (processCommand : σ → List StdString → CommandResult σ)
  (clientsArePaused : σ → Bool)

open RedisClient

/-- The rest of a round of `processInputBuffer`, behind a complete request. -/
def executeRequest (server : σ) (c : RedisClient) : σ × RedisClient :=
  if c.argv = [] then (server, c.resetClient)
  else
    let result := processCommand server c.argv
    let c := c.addReplyString result.reply
    let c := { c with
      blocked := c.blocked || result.blocks
      closeAfterReply := c.closeAfterReply || result.closes }
    (result.server, if result.ok then c.resetClient else c)

/-- The loop of `processInputBuffer`: one complete request after the other, until the
buffer is empty, the clients are paused, or the client is to be left alone. -/
def processInputLoop : Nat → σ → RedisClient → Except ServerFault (σ × RedisClient)
  | 0, server, c => if c.querybuf = [] then .ok (server, c) else .error .endless
  | fuel + 1, server, c =>
    if c.querybuf = [] ∨ clientsArePaused server ∨ c.blocked ∨ c.closeAfterReply then
      .ok (server, c)
    else do
      let type := c.reqtype.getD (if c.querybuf.head? = some '*' then .multibulk else .inline)
      let c := { c with reqtype := some type }
      let (c, ok) ← match type with
        | .inline => .ok c.processInlineBuffer
        | .multibulk => c.processMultibulkBuffer
      if ok then
        let (server, c) := executeRequest processCommand server c
        processInputLoop fuel server c
      else return (server, c)

/-- Every complete request takes characters away. -/
def processInputBuffer (server : σ) (c : RedisClient) : Except ServerFault (σ × RedisClient) :=
  processInputLoop processCommand clientsArePaused c.querybuf.length server c

/-- `readQueryFromClient`, when `read` has given `buf`: append it, close a client whose
buffer is above the limit, and process what is there. -/
def readQueryFromClient (server : σ) (c : RedisClient) (buf : StdString) :
    Except ServerFault (σ × RedisClient) :=
  let c := { c with querybuf := c.querybuf ++ buf }
  if maxQuerybufLen < c.querybuf.length then .error .freed
  else processInputBuffer processCommand clientsArePaused server c

/-- The server reads from a connection on which `stream` arrives. A call of `read` gives
what has arrived by then, but no more than it asks for. -/
def serveStream : List Nat → σ → RedisClient → StdString →
    Except ServerFault (σ × RedisClient × StdString)
  | [], server, c, stream => .ok (server, c, stream)
  | present :: later, server, c, stream =>
    let nread := min present c.readlen
    if stream.take nread = [] then serveStream later server c stream
    else do
      let (server, c) ←
        readQueryFromClient processCommand clientsArePaused server c (stream.take nread)
      serveStream later server c (stream.drop nread)

end Commands

end CtpTrade
