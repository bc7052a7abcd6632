import CtpTrade.Hiredis.Parser

/-!
# The reader refines the parser

`reader` is the state of the code for a state of the parser: the frames become the
stack of tasks, and the tree hangs together from the root with a null slot where the
next object goes. An item is one or two turns of the parser, and a call of
`redisReaderGetReply` is a pull. The positions in the buffer are of the type `int` in
several places of the code, so all of this is for buffers that an `int` can count.
-/

namespace CtpTrade

open RedisReader

/-- The elements so far and null pointers behind them. -/
def Frame.element (f : Frame) : List RedisReply :=
  f.done ++ List.replicate (f.size.toNat - f.done.length) .null

/-- The node of an array with `hole` in the slot that is read next. -/
def Frame.node (f : Frame) (hole : RedisReply) : RedisReply :=
  .array (sizeOfInt f.size) (f.element.set f.done.length hole)

theorem Frame.length_lt {f : Frame} (room : (f.done.length : Int) < f.size) :
    f.done.length < f.element.length := by
  simp only [element, List.length_append, List.length_replicate]
  omega

/-- The node of a full array. -/
theorem Frame.node_full {f : Frame} (h : (f.done.length : Int) + 1 = f.size) (hole : RedisReply) :
    f.node hole = .array f.size.toNat (f.done ++ [hole]) := by
  have size : f.size = ((f.done.length + 1 : Nat) : Int) := by omega
  rw [node, element, size, sizeOfInt_natCast, Int.toNat_natCast, Nat.add_sub_cancel_left]
  simp

theorem Frame.node_more {f : Frame} (h : (f.done.length : Int) + 1 < f.size) (obj : RedisReply) :
    f.node obj = ({ f with done := f.done ++ [obj] } : Frame).node .null := by
  obtain ⟨k, hk⟩ : ∃ k, f.size.toNat - f.done.length = k + 2 :=
    ⟨f.size.toNat - f.done.length - 2, by omega⟩
  have hk' : f.size.toNat - (f.done.length + 1) = k + 1 := by omega
  simp [node, element, hk, hk', List.replicate_succ]

theorem createArray_eq_node (size : Int) : createArray size = (Frame.mk size []).node .null := by
  cases h : size.toNat with
  | zero => simp [createArray, Frame.node, Frame.element, h]
  | succ n => simp [createArray, Frame.node, Frame.element, h, List.replicate_succ]

namespace ReplyParser

/-- The whole reply, with `hole` in the innermost array. -/
def tree (hole : RedisReply) : List Frame → RedisReply
  | [] => hole
  | f :: frames => tree (f.node hole) frames

/-- The tasks for the arrays, below a current one. -/
def tasks (type : Option ReplyType) (elements : Int) : List Frame → List RedisReadTask
  | [] => [⟨type, elements, -1⟩]
  | f :: frames => ⟨type, elements, f.done.length⟩ :: tasks (some .array) f.size frames

theorem tasks_eq_cons (type : Option ReplyType) (elements : Int) (frames : List Frame) :
    ∃ idx parents, tasks type elements frames = ⟨type, elements, idx⟩ :: parents ∧
      ∀ type' elements', tasks type' elements' frames = ⟨type', elements', idx⟩ :: parents := by
  cases frames with
  | nil => exact ⟨-1, [], rfl, fun _ _ => rfl⟩
  | cons f frames => exact ⟨_, _, rfl, fun _ _ => rfl⟩

@[simp] theorem length_tasks (type : Option ReplyType) (elements : Int) (frames : List Frame) :
    (tasks type elements frames).length = frames.length + 1 := by
  induction frames generalizing type elements with
  | nil => rfl
  | cons f frames ih => simp [tasks, ih]

theorem tasks_ne_nil (type : Option ReplyType) (elements : Int) (frames : List Frame) :
    tasks type elements frames ≠ [] := by
  rw [Ne, ← List.length_eq_zero_iff, length_tasks]
  omega

/-- Where the arrays hang, from the root on. -/
def slots (frames : List Frame) : List Nat := (frames.map fun f => f.done.length).reverse

theorem slots_eq (type : Option ReplyType) (elements : Int) (frames : List Frame) :
    ((tasks type elements frames).dropLast.map fun task => task.idx.toNat).reverse =
      slots frames := by
  have same : (tasks type elements frames).dropLast.map (fun task => task.idx.toNat) =
      frames.map fun f => f.done.length := by
    induction frames generalizing type elements with
    | nil => rfl
    | cons f frames ih =>
        rw [tasks, List.dropLast_cons_of_ne_nil (tasks_ne_nil _ _ _), List.map_cons, ih]
        rfl
  rw [same, slots]

/-- What the code can have on its stack of arrays: the arrays around the innermost one
have room, because that one is in their slot, and there are at most eight of them. -/
structure Nested (frames : List Frame) : Prop where
  room : ∀ f ∈ frames.tail, (f.done.length : Int) < f.size
  depth : frames.length ≤ 8

theorem nested_nil : Nested [] := ⟨by simp, by simp⟩

theorem Nested.all_room {frames : List Frame} (nested : Nested frames) (room : HasRoom frames) :
    ∀ f ∈ frames, (f.done.length : Int) < f.size := by
  cases frames with
  | nil => simp
  | cons f frames => exact List.forall_mem_cons.mpr ⟨room, nested.room⟩

/-- An array is read inside of the innermost one. -/
theorem Nested.push {frames : List Frame} (nested : Nested frames) (room : HasRoom frames)
    (shallow : frames.length ≠ 8) (size : Int) : Nested (⟨size, []⟩ :: frames) := by
  refine ⟨nested.all_room room, ?_⟩
  have := nested.depth
  simp only [List.length_cons]
  omega

/-- Storing goes through the arrays that have room. -/
theorem store_tree {frames : List Frame} (room : ∀ f ∈ frames, (f.done.length : Int) < f.size)
    (hole obj : RedisReply) (path : List Nat) :
    (tree hole frames).store (slots frames ++ path) obj =
      (hole.store path obj).map fun hole => tree hole frames := by
  induction frames generalizing hole path with
  | nil =>
      change hole.store path obj = _
      cases hole.store path obj <;> rfl
  | cons f frames ih =>
      have inside := Frame.length_lt (room f (by simp))
      have split : slots (f :: frames) ++ path = slots frames ++ f.done.length :: path := by
        simp [slots]
      have slot : (f.node hole).store (f.done.length :: path) obj =
          (hole.store path obj).map fun hole => f.node hole := by
        simp only [Frame.node, RedisReply.store, List.getElem?_set_self inside, List.set_set]
        cases hole.store path obj <;> rfl
      rw [split, tree, ih (fun g hg => room g (List.mem_cons_of_mem f hg)), slot]
      cases hole.store path obj <;> rfl

theorem store_slots {frames : List Frame} (nested : Nested frames) (obj : RedisReply) :
    (tree .null frames).store (slots frames) obj =
      if HasRoom frames then .ok (tree obj frames) else .error .element := by
  cases frames with
  | nil => rfl
  | cons f frames =>
      have split : slots (f :: frames) = slots frames ++ [f.done.length] := by simp [slots]
      have inner : ∀ g ∈ frames, (g.done.length : Int) < g.size := nested.room
      rw [split, tree, store_tree inner]
      by_cases room : HasRoom (f :: frames)
      · have inside := Frame.length_lt room
        rw [if_pos room]
        simp only [Frame.node, RedisReply.store, List.getElem?_set_self inside, List.set_set]
        rfl
      · have none_left : f.size.toNat - f.done.length = 0 := by
          simp only [HasRoom] at room
          omega
        rw [if_neg room]
        simp [Frame.node, Frame.element, RedisReply.store, none_left, Except.map]

/-- Moving to the next task finishes the arrays that the object was the last one of. -/
theorem moveToNextTask_tasks {frames : List Frame}
    (room : ∀ f ∈ frames, (f.done.length : Int) < f.size) (short : frames.length ≤ 8)
    (type : Option ReplyType) (elements : Int) (obj : RedisReply) :
    (∃ frames', finish obj frames = (.reading none frames', none) ∧
        moveToNextTask (tasks type elements frames) = .ok (tasks none (-1) frames') ∧
        tree obj frames = tree .null frames' ∧ Nested frames') ∨
      ∃ v, finish obj frames = (.reading none [], some v) ∧
        moveToNextTask (tasks type elements frames) = .ok [] ∧ tree obj frames = v := by
  induction frames generalizing type elements obj with
  | nil => exact .inr ⟨obj, rfl, rfl, rfl⟩
  | cons f frames ih =>
      have here := room f (by simp)
      have around : ∀ g ∈ frames, (g.done.length : Int) < g.size :=
        fun g hg => room g (List.mem_cons_of_mem f hg)
      obtain ⟨idx, parents, cur, same⟩ := tasks_eq_cons (some .array) f.size frames
      by_cases last : (f.done.length : Int) + 1 = f.size
      · have finishes : finish obj (f :: frames) =
            finish (.array f.size.toNat (f.done ++ [obj])) frames := by
          rw [finish, if_pos here, if_pos last]
        have leaves : moveToNextTask (tasks type elements (f :: frames)) =
            moveToNextTask (tasks (some .array) f.size frames) := by
          rw [tasks, cur, moveToNextTask, if_neg (by simp), if_pos (by simp; omega)]
        rw [finishes, leaves, tree, Frame.node_full last]
        exact ih around (by simp only [List.length_cons] at short; omega) _ _ _
      · refine .inl ⟨{ f with done := f.done ++ [obj] } :: frames, ?_, ?_, ?_, ?_⟩
        · rw [finish, if_pos here, if_neg last]
        · rw [tasks, cur, moveToNextTask, if_neg (by simp), if_neg (by simp; omega),
            if_pos (by simpa using here), tasks, cur]
          simp
        · rw [tree, tree, Frame.node_more (by omega)]
        · exact ⟨by simpa using around, by simpa using short⟩

/-- The reader at a state of the parser. -/
def reader (type : Option ReplyType) (frames : List Frame) (buf : StdString) (pos : Nat) :
    RedisReader where
  err := none
  errstr := default
  buf := buf
  pos := pos
  rstack := tasks type (-1) frames
  reply := tree .null frames

/-- The reader with a reply that has not been handed out. -/
def replied (v : RedisReply) (buf : StdString) (pos : Nat) : RedisReader where
  err := none
  errstr := default
  buf := buf
  pos := pos
  rstack := []
  reply := v

/-- The reader behind an error in the stream. -/
def broken (str : StdString) : RedisReader where
  err := some .protocol
  errstr := strncpyS 128 str
  buf := []
  pos := 0
  rstack := []
  reply := .null

/-- What the code makes of an item that the parser has read in its turns, for each of
the four ways in which a turn can end. The position is where the rest of the parser
begins. -/
inductive Answers (buf : StdString) : Turn → Except ReaderFault (RedisReader × Bool) → Prop where
  | reading {frames : List Frame} {pos : Nat} (nested : Nested frames) (inside : pos ≤ buf.length) :
      Answers buf ⟨.reading none frames, buf.drop pos, none⟩
        (.ok (reader none frames buf pos, true))
  | replied (v : RedisReply) {pos : Nat} (inside : pos ≤ buf.length) :
      Answers buf ⟨.reading none [], buf.drop pos, some v⟩ (.ok (replied v buf pos, true))
  | failed (str rest : StdString) :
      Answers buf ⟨.failed str, rest, none⟩ (.ok (broken str, false))
  | faulted (fault : ReaderFault) (rest : StdString) :
      Answers buf ⟨.faulted fault, rest, none⟩ (.error fault)

variable {type : ReplyType} {frames : List Frame} {buf : StdString} {pos pos' : Nat}

theorem hang_reader (nested : Nested frames) (type : Option ReplyType) (obj : RedisReply) :
    (reader type frames buf pos).hang obj =
      if HasRoom frames then .ok { reader type frames buf pos with reply := tree obj frames }
      else .error .element := by
  have path : (reader type frames buf pos).path = slots frames := slots_eq type (-1) frames
  rw [hang, path, show (reader type frames buf pos).reply = tree .null frames from rfl,
    store_slots nested]
  split_ifs <;> rfl

/-- An object without children is hung into the tree, and the task is done. -/
theorem answers_finished (nested : Nested frames) (inside : pos' ≤ buf.length)
    (type : Option ReplyType) (obj : RedisReply) (advance : RedisReader → RedisReader)
    (moves : advance { reader type frames buf pos with reply := tree obj frames } =
      { reader type frames buf pos' with reply := tree obj frames }) :
    Answers buf (finished obj frames (buf.drop pos')) (do
      let r ← (reader type frames buf pos).hang obj
      return (← (advance r).next, true)) := by
  rw [hang_reader nested]
  by_cases room : HasRoom frames
  · rw [if_pos room]
    change Answers buf _ (do return (← (advance _).next, true))
    rw [moves]
    obtain ⟨frames', fin, moved, same, nested'⟩ | ⟨v, fin, moved, same⟩ :=
      moveToNextTask_tasks (nested.all_room room) nested.depth type (-1) obj
    · have code :
          ({ reader type frames buf pos' with reply := tree obj frames } : RedisReader).next =
            .ok (reader none frames' buf pos') := by
        simp only [RedisReader.next, reader, moved, same]
        rfl
      rw [code, finished, fin]
      exact .reading nested' inside
    · have code :
          ({ reader type frames buf pos' with reply := tree obj frames } : RedisReader).next =
            .ok (replied v buf pos') := by
        simp only [RedisReader.next, reader, moved, same]
        rfl
      rw [code, finished, fin]
      exact .replied v inside
  · have fin : finish obj frames = (.faulted .element, none) := by
      cases frames with
      | nil => exact absurd trivial room
      | cons f frames => exact if_neg room
    rw [if_neg room, finished, fin]
    exact .faulted _ _

/-- What the code makes of an item behind its type byte. It takes the turn of the
parser, or it leaves the item alone and the parser waits too. -/
def Item (type : ReplyType) (frames : List Frame) (buf : StdString) (pos : Nat)
    (result : Except ReaderFault (RedisReader × Bool)) : Prop :=
  (next (.reading (some type) frames) (buf.drop pos) = none ∧
      result = .ok (reader (some type) frames buf pos, false)) ∨
    ∃ turn, next (.reading (some type) frames) (buf.drop pos) = some turn ∧
      Answers buf turn result

theorem seekNewline_drop (short : buf.length ≤ 2 ^ 31) (pos : Nat) :
    seekNewline (buf.drop pos) = lineEnd? (buf.drop pos) := by
  refine seekNewline_eq ?_
  rw [List.length_drop]
  omega

theorem item_bulk (short : buf.length ≤ 2 ^ 31) (nested : Nested frames)
    (inside : pos ≤ buf.length) :
    Item .string frames buf pos (reader (some .string) frames buf pos).processBulkItem := by
  have unread : (reader (some .string) frames buf pos).unread = buf.drop pos := rfl
  have seen := seekNewline_drop short pos
  cases ends : lineEnd? (buf.drop pos) with
  | none =>
      refine .inl ⟨by simp only [next, ends], ?_⟩
      simp only [processBulkItem, unread, seen.trans ends]
  | some line =>
      have newline := seen.trans ends
      have far := lineEnd_lt ends
      rw [List.length_drop] at far
      by_cases null : readLongLong (buf.drop pos) < 0
      · refine .inr ⟨finished .nil frames (buf.drop (pos + (line + 2))), ?_, ?_⟩
        · simp [next, ends, typed, null, List.drop_drop]
        · simp only [processBulkItem, unread, newline, if_pos null]
          exact answers_finished nested (by omega) _ _
            (fun r => { r with pos := r.pos + (line + 2) }) rfl
      · by_cases fits : line + 2 + (readLongLong (buf.drop pos)).toNatClampNeg + 2 ≤
            (buf.drop pos).length
        · have fits' : (reader (some .string) frames buf pos).pos +
              (line + 2 + (readLongLong (buf.drop pos)).toNatClampNeg + 2) ≤
                (reader (some .string) frames buf pos).buf.length := by
            rw [List.length_drop] at fits
            simp only [reader]
            omega
          refine .inr ⟨finished (.string ((buf.drop (pos + (line + 2))).take
              (readLongLong (buf.drop pos)).toNatClampNeg)) frames (buf.drop
            (pos + (line + 2 + (readLongLong (buf.drop pos)).toNatClampNeg + 2))), ?_, ?_⟩
          · simp only [next, ends, typed, if_neg null, if_pos fits, List.drop_drop]
          · simp only [processBulkItem, unread, newline, if_neg null, if_pos fits', List.drop_drop]
            exact answers_finished nested fits' _ _
              (fun r => { r with pos :=
                r.pos + (line + 2 + (readLongLong (buf.drop pos)).toNatClampNeg + 2) }) rfl
        · have missing : ¬pos + (line + 2 + (readLongLong (buf.drop pos)).toNatClampNeg + 2) ≤
              buf.length := by
            rw [List.length_drop] at fits
            omega
          refine .inl ⟨by simp only [next, ends, typed, if_neg null, if_neg fits], ?_⟩
          simp only [processBulkItem, unread, newline, if_neg null]
          exact if_neg missing

theorem readLine_reader (type : Option ReplyType) :
    (reader type frames buf pos).readLine =
      (seekNewline (buf.drop pos)).map fun line =>
        (buf.drop pos, line, reader type frames buf (pos + line + 2)) := rfl

theorem item_line (short : buf.length ≤ 2 ^ 31) (nested : Nested frames)
    (inside : pos ≤ buf.length) (line_type : type = .integer ∨ type = .status ∨ type = .error) :
    Item type frames buf pos ((reader (some type) frames buf pos).processLineItem type) := by
  have seen := seekNewline_drop short pos
  cases ends : lineEnd? (buf.drop pos) with
  | none =>
      refine .inl ⟨by simp only [next, ends], ?_⟩
      simp only [processLineItem, readLine_reader, seen.trans ends, Option.map_none]
  | some line =>
      have newline := seen.trans ends
      have far := lineEnd_lt ends
      rw [List.length_drop] at far
      have rest : (buf.drop pos).drop (line + 2) = buf.drop (pos + line + 2) := by
        rw [List.drop_drop, Nat.add_assoc]
      simp only [Item, next, ends, newline, processLineItem, readLine_reader, Option.map_some]
      obtain rfl | rfl | rfl := line_type
      all_goals
        refine .inr ⟨_, rfl, ?_⟩
        rw [rest]
        exact answers_finished nested (by omega) _ _ id rfl

theorem item_array (short : buf.length ≤ 2 ^ 31) (nested : Nested frames)
    (inside : pos ≤ buf.length) (shallow : frames.length ≠ 8) :
    Item .array frames buf pos (reader (some .array) frames buf pos).processMultiBulkItem := by
  have depth : ¬(reader (some .array) frames buf pos).rstack.length = 9 := by
    simp only [reader, length_tasks]
    omega
  have seen := seekNewline_drop short pos
  cases ends : lineEnd? (buf.drop pos) with
  | none =>
      refine .inl ⟨by simp only [next, ends], ?_⟩
      simp only [processMultiBulkItem, if_neg depth, readLine_reader, seen.trans ends,
        Option.map_none]
  | some line =>
      have newline := seen.trans ends
      have far := lineEnd_lt ends
      rw [List.length_drop] at far
      have rest : (buf.drop pos).drop (line + 2) = buf.drop (pos + line + 2) := by
        rw [List.drop_drop, Nat.add_assoc]
      simp only [Item, next, ends, newline, typed, rest, processMultiBulkItem, if_neg depth,
        readLine_reader, Option.map_some]
      by_cases null : readLongLong (buf.drop pos) = -1
      · simp only [if_pos null]
        exact .inr ⟨_, rfl, answers_finished nested (by omega) _ _ id rfl⟩
      · simp only [if_neg null]
        by_cases more : 0 < readLongLong (buf.drop pos)
        · simp only [if_pos more, hang_reader nested]
          by_cases room : HasRoom frames
          · obtain ⟨idx, parents, cur, same⟩ := tasks_eq_cons (some .array) (-1) frames
            simp only [if_pos room]
            refine .inr ⟨_, rfl, ?_⟩
            have code : (reader none (⟨(readLongLong (buf.drop pos)).toInt32.toInt, []⟩ :: frames)
                buf (pos + line + 2)) = { reader (some .array) frames buf (pos + line + 2) with
                  reply := tree (createArray (readLongLong (buf.drop pos)).toInt32.toInt) frames
                  rstack := { type := none, elements := -1, idx := 0 } ::
                    { type := some .array
                      elements := (readLongLong (buf.drop pos)).toInt32.toInt
                      idx := idx } :: parents } := by
              rw [createArray_eq_node]
              simp only [reader, tasks, tree, same]
              rfl
            have answered := Answers.reading (nested.push room shallow
              (readLongLong (buf.drop pos)).toInt32.toInt)
              (show pos + line + 2 ≤ buf.length by omega)
            rw [code] at answered
            simp only [reader, cur] at answered ⊢
            exact answered
          · simp only [if_neg room]
            exact .inr ⟨_, rfl, .faulted _ _⟩
        · simp only [if_neg more]
          exact .inr ⟨_, rfl, answers_finished nested (by omega) _ _ id rfl⟩

/-- A state in which the parser is inside of a stream without an error: the arrays are
nested as the code has them, and the type byte is one that the code goes on with. -/
structure Reading (type : Option ReplyType) (frames : List Frame) : Prop where
  nested : Nested frames
  known : type ≠ some .nil
  shallow : type = some .array → frames.length ≠ 8

/-- Behind the type byte an item is one turn. -/
theorem item_typed (short : buf.length ≤ 2 ^ 31) (reading : Reading (some type) frames)
    (inside : pos ≤ buf.length) :
    Item type frames buf pos ((reader (some type) frames buf pos).processTyped type) := by
  cases type with
  | string => exact item_bulk short reading.nested inside
  | array => exact item_array short reading.nested inside (reading.shallow rfl)
  | integer => exact item_line short reading.nested inside (.inl rfl)
  | status => exact item_line short reading.nested inside (.inr (.inl rfl))
  | error => exact item_line short reading.nested inside (.inr (.inr rfl))
  | nil => exact absurd rfl reading.known

theorem typeOfByte_ne_nil (c : Char) : typeOfByte c ≠ some .nil := by
  unfold typeOfByte
  split <;> simp

/-- The type byte is a turn of its own: the reader goes on with the item, or it breaks. -/
theorem processItem_typeByte (nested : Nested frames) {c : Char} {l : StdString}
    (unread : buf.drop pos = c :: l) :
    (∃ type, typeByte frames c = .reading (some type) frames ∧ Reading (some type) frames ∧
        (reader none frames buf pos).processItem =
          (reader (some type) frames buf (pos + 1)).processTyped type) ∨
      ∃ str, typeByte frames c = .failed str ∧
        (reader none frames buf pos).processItem = .ok (broken str, false) := by
  obtain ⟨idx, parents, cur, same⟩ := tasks_eq_cons none (-1) frames
  have shape (type : Option ReplyType) (pos : Nat) : reader type frames buf pos =
      { reader none frames buf pos with rstack := ⟨type, -1, idx⟩ :: parents } := by
    simp only [reader, same]
  have input : RedisReader.unread { reader none frames buf pos with
      rstack := ⟨none, -1, idx⟩ :: parents } = c :: l := unread
  rw [shape none pos]
  simp only [processItem, input, typeByte]
  cases byte : typeOfByte c with
  | none => exact .inr ⟨_, rfl, rfl⟩
  | some type =>
      by_cases deep : type = .array ∧ frames.length = 8
      · refine .inr ⟨depthText, by simp [deep], ?_⟩
        have full : ((⟨some .array, -1, idx⟩ : RedisReadTask) :: parents).length = 9 := by
          rw [← same (some .array) (-1), length_tasks, deep.2]
        rw [deep.1]
        simp only [processTyped, processMultiBulkItem, if_pos full]
        rfl
      · refine .inl ⟨type, by simp [deep], ⟨nested, ?_, ?_⟩, ?_⟩
        · exact fun h => typeOfByte_ne_nil c (byte.trans h)
        · exact fun h depth => deep ⟨Option.some.inj h, depth⟩
        · rw [shape (some type) (pos + 1)]
          rfl

/-- What the loop of the code makes of a pull: it waits for more, hands out a reply, stops
with the error text, or reaches a fault. -/
inductive Pulled (buf : StdString) :
    Incremental.Config ParserState Char × Option RedisReply → Except ReaderFault RedisReader →
      Prop where
  | waiting {type : Option ReplyType} {frames : List Frame} {pos : Nat}
      (reading : Reading type frames) (inside : pos ≤ buf.length) :
      Pulled buf (⟨.reading type frames, buf.drop pos⟩, none) (.ok (reader type frames buf pos))
  | replied (v : RedisReply) {pos : Nat} (inside : pos ≤ buf.length) :
      Pulled buf (⟨.reading none [], buf.drop pos⟩, some v) (.ok (replied v buf pos))
  | failed (str rest : StdString) :
      Pulled buf (⟨.failed str, rest⟩, none) (.ok (broken str))
  | faulted (fault : ReaderFault) (rest : StdString) :
      Pulled buf (⟨.faulted fault, rest⟩, none) (.error fault)

theorem pull_waiting {s : ParserState} {l : StdString} (h : next s l = none) :
    Incremental.pull next ⟨s, l⟩ = (⟨s, l⟩, none) :=
  Incremental.pull_of_waits h

/-- Behind an error the parser only throws input away. -/
theorem pull_failed (str : StdString) (l : StdString) :
    Incremental.pull next ⟨.failed str, l⟩ = (⟨.failed str, []⟩, none) := by
  induction l with
  | nil => exact pull_waiting rfl
  | cons c l ih =>
      rw [Incremental.pull_of_turn lawful (t := ⟨.failed str, l, none⟩) rfl]
      exact ih

theorem pull_faulted (fault : ReaderFault) (l : StdString) :
    Incremental.pull next ⟨.faulted fault, l⟩ = (⟨.faulted fault, []⟩, none) := by
  induction l with
  | nil => exact pull_waiting rfl
  | cons c l ih =>
      rw [Incremental.pull_of_turn lawful (t := ⟨.faulted fault, l, none⟩) rfl]
      exact ih

theorem processItems_of_processItem {r : RedisReader}
    {result : Except ReaderFault (RedisReader × Bool)} (h : r.processItem = result)
    (active : r.rstack ≠ []) (fuel : Nat) :
    processItems (fuel + 1) r = (do
      let (r, ok) ← result
      if ok then processItems fuel r else return r) := by
  rw [processItems, if_neg active, h]

theorem processItem_some (type : ReplyType) (frames : List Frame) (buf : StdString) (pos : Nat) :
    (reader (some type) frames buf pos).processItem =
      (reader (some type) frames buf pos).processTyped type := by
  obtain ⟨idx, parents, cur, -⟩ := tasks_eq_cons (some type) (-1) frames
  simp only [processItem, reader, cur]

/-- Without a byte of input the type stays open. -/
theorem processItem_none (unread : buf.drop pos = []) :
    (reader none frames buf pos).processItem = .ok (reader none frames buf pos, false) := by
  obtain ⟨idx, parents, cur, -⟩ := tasks_eq_cons none (-1) frames
  simp only [processItem, RedisReader.unread, reader, cur, unread]

/-- What follows behind an item that was read in a turn, if the loop is a pull wherever it
goes on. -/
theorem Pulled.follow {fuel : Nat} {s : ParserState} {l : StdString} {turn : Turn}
    {result : Except ReaderFault (RedisReader × Bool)} (turns : next s l = some turn)
    (answers : Answers buf turn result) (enough : l.length ≤ fuel)
    (loop : ∀ {frames : List Frame} {pos : Nat}, Nested frames → pos ≤ buf.length →
      (buf.drop pos).length < fuel →
      Pulled buf (Incremental.pull next ⟨.reading none frames, buf.drop pos⟩)
        (processItems fuel (reader none frames buf pos))) :
    Pulled buf (Incremental.pull next ⟨s, l⟩) (do
      let (r, ok) ← result
      if ok then processItems fuel r else return r) := by
  have smaller := lawful.shrinks turns
  rw [Incremental.pull_of_turn lawful (c := ⟨s, l⟩) turns]
  cases answers with
  | reading nested inside => exact loop nested inside (by simp only at smaller; omega)
  | replied v inside =>
      cases fuel with
      | zero => simp only at smaller; omega
      | succ fuel => exact .replied v inside
  | failed str rest =>
      change Pulled buf (Incremental.pull next ⟨.failed str, rest⟩) _
      rw [pull_failed]
      exact .failed str []
  | faulted fault rest =>
      change Pulled buf (Incremental.pull next ⟨.faulted fault, rest⟩) _
      rw [pull_faulted]
      exact .faulted fault []

/-- The loop over the items is a pull of the parser, whatever the fuel is that is left. -/
theorem pulled (short : buf.length ≤ 2 ^ 31) {type : Option ReplyType}
    (reading : Reading type frames) (inside : pos ≤ buf.length) {fuel : Nat}
    (enough : (buf.drop pos).length < fuel) :
    Pulled buf (Incremental.pull next ⟨.reading type frames, buf.drop pos⟩)
      (processItems fuel (reader type frames buf pos)) := by
  induction fuel generalizing type frames pos with
  | zero => omega
  | succ fuel ih =>
      have active (type : Option ReplyType) : (reader type frames buf pos).rstack ≠ [] :=
        tasks_ne_nil type (-1) frames
      have loop {frames : List Frame} {pos : Nat} (nested : Nested frames)
          (inside : pos ≤ buf.length) (enough : (buf.drop pos).length < fuel) :=
        ih (⟨nested, by simp, by simp⟩ : Reading none frames) inside enough
      cases type with
      | some type =>
          rw [processItems_of_processItem (processItem_some ..) (active _)]
          obtain ⟨waits, code⟩ | ⟨turn, turns, answers⟩ := item_typed short reading inside
          · rw [pull_waiting waits, code]
            exact .waiting reading inside
          · exact .follow turns answers (by omega) loop
      | none =>
          cases unread : buf.drop pos with
          | nil =>
              rw [processItems_of_processItem (processItem_none unread) (active _),
                pull_waiting rfl, ← unread]
              exact .waiting reading inside
          | cons c l =>
              have next_pos : buf.drop (pos + 1) = l := by
                rw [← List.drop_drop, unread, List.drop_one, List.tail_cons]
              have inside' : pos + 1 ≤ buf.length := by
                have := congrArg List.length unread
                simp only [List.length_drop, List.length_cons] at this
                omega
              rw [Incremental.pull_of_turn lawful
                (c := ⟨.reading none frames, c :: l⟩) (t := ⟨typeByte frames c, l, none⟩) rfl]
              change Pulled buf (Incremental.pull next ⟨typeByte frames c, l⟩) _
              obtain ⟨type, byte, reading', item⟩ | ⟨str, byte, item⟩ :=
                processItem_typeByte reading.nested unread
              · rw [processItems_of_processItem item (active _), byte, ← next_pos]
                obtain ⟨waits, code⟩ | ⟨turn, turns, answers⟩ := item_typed short reading' inside'
                · rw [pull_waiting waits, code]
                  exact .waiting reading' inside'
                · refine .follow turns answers ?_ loop
                  rw [unread, List.length_cons] at enough
                  rw [next_pos]
                  omega
              · rw [processItems_of_processItem item (active _), byte, pull_failed]
                exact .failed str []

end ReplyParser

end CtpTrade
