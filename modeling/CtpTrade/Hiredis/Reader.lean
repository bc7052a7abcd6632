import CtpTrade.Platform

/-!
# The reply reader of hiredis

`redisReaderFeed` appends what has arrived to a buffer, and `redisReaderGetReply`
reads replies from it, as far as they are there. A reply can be an array of replies,
so the reader keeps a stack of tasks, one for each array it is inside of, and it hangs
every object into its parent as soon as it is created.

An object is addressed by the indices that lead to it from the root of the reply. Of
the nine tasks in `rstack` the model has those up to `ridx`, the current one first.
Memory that runs out is left out, and so is the capacity of the buffer, whose length is an
`unsigned int`: the model is meant for a buffer of fewer than 2^32 characters. Where the code
counts the characters in an `int`, as `seekNewline` and `sdsrange` do, so does the model. The
`int` of a line's length (`readLine`) always holds the position that `seekNewline` finds.
-/

namespace CtpTrade

/-- `REDIS_REPLY_*` -/
inductive ReplyType where
  | string
  | array
  | integer
  | nil
  | status
  | error
  deriving DecidableEq

/-- A `redisReply *`, with what it points to. A slot of an array that has not been
filled is a null pointer. -/
inductive RedisReply where
  | null
  | string (str : StdString)
  | array (elements : Nat) (element : List RedisReply)
  | integer (value : Int64)
  | nil
  | status (str : StdString)
  | error (str : StdString)

/-- `REDIS_ERR_*` -/
inductive RedisErr where
  | io
  | eof
  | protocol
  | oom
  | other
  deriving DecidableEq

/-- A `redisReadTask`: an object that is being read, and its place in the array around
it. -/
structure RedisReadTask where
  /-- `none` is the `-1` of a task whose type byte has not been read. -/
  type : Option ReplyType
  elements : Int
  idx : Int
  deriving DecidableEq

/-- What a call of the reader must not come to. None of these is an error that the
reader reports. -/
inductive ReaderFault where
  /-- a failed `assert` -/
  | assertion
  /-- a write through a null `element` or behind its end -/
  | element
  /-- `rstack[-1]` -/
  | stack
  /-- the loop of `redisReaderGetReply` does not end -/
  | endless
  deriving DecidableEq

/-- The size of `errstr`. -/
instance errstrSize : NeZero 128 := ⟨by decide⟩

/-- A `redisReader`. The stack of tasks has the current one in front, and `reply` is the
tree that has been built so far. -/
structure RedisReader where
  err : Option RedisErr
  errstr : CharArray 128
  buf : StdString
  pos : Nat
  rstack : List RedisReadTask
  reply : RedisReply

/-- Write `obj` into the slot at the end of the path. The empty path stands for the root. -/
def RedisReply.store : RedisReply → List Nat → RedisReply → Except ReaderFault RedisReply
  | _, [], obj => .ok obj
  | .array elements element, idx :: path, obj =>
    match element[idx]? with
    | some child => do return .array elements (element.set idx (← child.store path obj))
    | none => .error .element
  | _, _ :: _, _ => .error .assertion

/-- The node that `createArrayObject` allocates. -/
def createArray (elements : Int) : RedisReply :=
  .array (sizeOfInt elements) (List.replicate elements.toNat .null)

/-- The loops of `seekNewline`, where `left` is `_len - pos`. Behind a `\r` without a `\n`
the test of the outer loop comes next, behind any other character the one of the inner loop. -/
def seekNewlineLoop (left : Nat) : StdString → Option Nat
  | [] => none
  | c :: s =>
    if c = '\r' then
      if s.head? = some '\n' then some 0
      else if left ≤ 1 then none
      else (seekNewlineLoop (left - 1) s).map (· + 1)
    else if left = 0 then none
    else (seekNewlineLoop (left - 1) s).map (· + 1)

/-- The position of the first `\r\n`. The bound `(int)(len-1)` is negative for a text of
more than 2^31 characters, which has no line end then. -/
def seekNewline (s : StdString) : Option Nat :=
  let len := ((s.length : Int) - 1).bmod (2 ^ 32)
  if 0 < len then seekNewlineLoop len.toNat s else none

/-- The loop of `readLongLong`, in the arithmetic of 64 bits. Behind the buffer there is
a zero byte. -/
def readLongLongLoop (mult : Int64) : Int64 → StdString → Int64
  | _, [] => -1
  | v, c :: s =>
    if c = '\r' then mult * v
    else if c.isDigit then readLongLongLoop mult (v * 10 + Int64.ofNat (c.toNat - 48)) s
    else -1

def readLongLong (s : StdString) : Int64 :=
  match s with
  | '-' :: s => readLongLongLoop (-1) 0 s
  | '+' :: s => readLongLongLoop 1 0 s
  | s => readLongLongLoop 1 0 s

/-- `sdsrange`: the text from one place up to another one, where a negative place is counted
from the end. The places are of the type `int`, so on 2^31 characters or more it keeps
something else. -/
def sdsrange (s : StdString) (start last : Int) : StdString :=
  let len : Int := s.length
  let start := if start < 0 then max ((len + start).bmod (2 ^ 32)) 0 else start
  let last := if last < 0 then max ((len + last).bmod (2 ^ 32)) 0 else last
  if last < start ∨ len.bmod (2 ^ 32) ≤ start then []
  else
    let last := if len.bmod (2 ^ 32) ≤ last then (len - 1).bmod (2 ^ 32) else last
    if last < start then [] else (s.drop start.toNat).take (last - start + 1).toNat

def chrtos (byte : Char) : StdString :=
  let quoted (s : StdString) : StdString := '"' :: s ++ ['"']
  if byte = '\\' ∨ byte = '"' then quoted ['\\', byte]
  else if byte = '\n' then quoted ['\\', 'n']
  else if byte = '\r' then quoted ['\\', 'r']
  else if byte = '\t' then quoted ['\\', 't']
  else if byte.toNat = 7 then quoted ['\\', 'a']
  else if byte.toNat = 8 then quoted ['\\', 'b']
  else if 32 ≤ byte.toNat ∧ byte.toNat < 127 then quoted [byte]
  else quoted ['\\', 'x', Nat.digitChar (byte.toNat / 16 % 16), Nat.digitChar (byte.toNat % 16)]

def protocolByteText (byte : Char) : StdString :=
  "Protocol error, got ".toList ++ chrtos byte ++ " as reply type byte".toList

def depthText : StdString :=
  "No support for nested multi bulk replies with depth > 7".toList

def moveToNextTask : List RedisReadTask → Except ReaderFault (List RedisReadTask)
  | [] => .ok []
  | [_] => .ok []
  | cur :: prv :: rest =>
    if prv.type ≠ some .array then .error .assertion
    else if cur.idx = prv.elements - 1 then moveToNextTask (prv :: rest)
    else if cur.idx < prv.elements then
      .ok ({ type := none, elements := -1, idx := cur.idx + 1 } :: prv :: rest)
    else .error .assertion

namespace RedisReader

/-- `redisReaderCreate` -/
def create : RedisReader where
  err := none
  errstr := default
  buf := []
  pos := 0
  rstack := []
  reply := .null

/-- What `r->buf + r->pos` points to: the part of the buffer that has not been read. -/
def unread (r : RedisReader) : StdString := r.buf.drop r.pos

/-- The indices that lead to the object of the current task. -/
def path (r : RedisReader) : List Nat := (r.rstack.dropLast.map fun task => task.idx.toNat).reverse

/-- `parent->element[task->idx] = r`, or `r->reply = obj` for the root. -/
def hang (r : RedisReader) (obj : RedisReply) : Except ReaderFault RedisReader := do
  return { r with reply := ← r.reply.store r.path obj }

def next (r : RedisReader) : Except ReaderFault RedisReader := do
  return { r with rstack := ← moveToNextTask r.rstack }

/-- `__redisReaderSetError` -/
def setError (r : RedisReader) (type : RedisErr) (str : StdString) : RedisReader :=
  { r with
    reply := .null
    buf := []
    pos := 0
    rstack := []
    err := some type
    errstr := strncpyS 128 str }

def readLine (r : RedisReader) : Option (StdString × Nat × RedisReader) :=
  (seekNewline r.unread).map fun len => (r.unread, len, { r with pos := r.pos + len + 2 })

/-- A status, an error or an integer: the line behind its type byte. The second
component of the result is `REDIS_OK`. -/
def processLineItem (r : RedisReader) (type : ReplyType) :
    Except ReaderFault (RedisReader × Bool) :=
  match r.readLine with
  | none => .ok (r, false)
  | some (p, len, r) => do
    let obj := match type with
      | .integer => RedisReply.integer (readLongLong p)
      | .status => .status (p.take len)
      | _ => .error (p.take len)
    return (← (← r.hang obj).next, true)

def processBulkItem (r : RedisReader) : Except ReaderFault (RedisReader × Bool) :=
  match seekNewline r.unread with
  | none => .ok (r, false)
  | some s =>
    let len := readLongLong r.unread
    if len < 0 then do
      let r ← r.hang .nil
      return (← { r with pos := r.pos + (s + 2) }.next, true)
    else
      let bytelen := s + 2 + len.toNatClampNeg + 2
      if r.pos + bytelen ≤ r.buf.length then do
        let r ← r.hang (.string ((r.unread.drop (s + 2)).take len.toNatClampNeg))
        return (← { r with pos := r.pos + bytelen }.next, true)
      else .ok (r, false)

def processMultiBulkItem (r : RedisReader) : Except ReaderFault (RedisReader × Bool) :=
  if r.rstack.length = 9 then .ok (r.setError .protocol depthText, false)
  else match r.readLine with
  | none => .ok (r, false)
  | some (p, _, r) =>
    let elements := readLongLong p
    if elements = -1 then do return (← (← r.hang .nil).next, true)
    else do
      -- the object is made for `(int)elements`, the test is on all 64 bits
      let r ← r.hang (createArray elements.toInt32.toInt)
      if 0 < elements then
        match r.rstack with
        | [] => .error .stack
        | cur :: parents =>
          return ({ r with
            rstack := { type := none, elements := -1, idx := 0 } ::
              { cur with elements := elements.toInt32.toInt } :: parents }, true)
      else return (← r.next, true)

/-- The type that a type byte stands for. -/
def typeOfByte : Char → Option ReplyType
  | '-' => some .error
  | '+' => some .status
  | ':' => some .integer
  | '$' => some .string
  | '*' => some .array
  | _ => none

def processTyped (r : RedisReader) : ReplyType → Except ReaderFault (RedisReader × Bool)
  | .error => r.processLineItem .error
  | .status => r.processLineItem .status
  | .integer => r.processLineItem .integer
  | .string => r.processBulkItem
  | .array => r.processMultiBulkItem
  | .nil => .error .assertion

def processItem (r : RedisReader) : Except ReaderFault (RedisReader × Bool) :=
  match r.rstack with
  | [] => .error .stack
  | cur :: parents =>
    match cur.type with
    | some type => r.processTyped type
    | none =>
      match r.unread with
      | [] => .ok (r, false)
      | p :: _ =>
        let r := { r with pos := r.pos + 1 }
        match typeOfByte p with
        | none => .ok (r.setError .protocol (protocolByteText p), false)
        | some type =>
          { r with rstack := { cur with type := some type } :: parents }.processTyped type

/-- The loop of `redisReaderGetReply`, which reads items until a reply is finished or no
item is complete. -/
def processItems : Nat → RedisReader → Except ReaderFault RedisReader
  | 0, _ => .error .endless
  | fuel + 1, r =>
    if r.rstack = [] then .ok r
    else do
      let (r, ok) ← r.processItem
      if ok then processItems fuel r else return r

def redisReaderFeed (r : RedisReader) (buf : StdString) : RedisReader × Bool :=
  if r.err.isSome then (r, false) else ({ r with buf := r.buf ++ buf }, true)

def redisReaderGetReply (r : RedisReader) : Except ReaderFault (RedisReader × Bool × RedisReply) :=
  if r.err.isSome then .ok (r, false, .null)
  else if r.buf.length = 0 then .ok (r, true, .null)
  else do
    let r := if r.rstack = [] then
        { r with rstack := [{ type := none, elements := -1, idx := -1 }] }
      else r
    -- every item takes a byte away, so that is enough
    let r ← processItems (r.unread.length + 1) r
    if r.err.isSome then return (r, false, .null)
    else
      let r :=
        if 1024 ≤ r.pos then
          { r with buf := sdsrange r.buf ((r.pos : Int).bmod (2 ^ 32)) (-1), pos := 0 }
        else r
      if r.rstack = [] then return ({ r with reply := .null }, true, r.reply)
      else return (r, true, .null)

end RedisReader

end CtpTrade
