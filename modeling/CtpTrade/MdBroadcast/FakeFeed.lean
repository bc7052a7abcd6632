import CtpTrade.MdBroadcast.Safety

/-!
# The fake tick feed

Without `_TRADE_TIME_` a thread takes the place of the exchange: it draws the rows
of a recorded day one after the other, begins again behind the last one, and
appends each as a tick. The `Volume` of a tick is the running total of the volume
column. A `FakeFeed` is the tick pipeline with this thread; the index of the next
row and the total are its locals.

The file is a list of lines, and only the columns that the function names are
read.
-/

namespace CtpTrade

/-- How a step of the pipeline with the fake feed can go wrong. The first two faults are
undefined behaviour in the source. -/
inductive FakeFault where
  /-- `data_index % fake_size` for an empty table -/
  | remainderByZero
  /-- `total_volum` leaves the range of `int` -/
  | volumeOverflow
  | pipeline (fault : Fault)
  deriving DecidableEq

/-- The pieces of a line between its commas. -/
def columns : StdString → List StdString
  | [] => [[]]
  | c :: rest =>
    if c = ',' then [] :: columns rest
    else
      match columns rest with
      | [] => [[c]]
      | column :: more => (c :: column) :: more

/-- The record after the `memset` of the feed thread. -/
def emptyTick : MtkData :=
  { instrumentID := default, volume := 0, updateTime := default }

namespace CMdBroadCast

/-- The table `instrument_tick_one_day`, filled from the lines of the file. -/
def initialFakeTickData (csvIn : List StdString) : List StdString := csvIn.drop 2

/-- The loop body of `transfer_fake_to_tick_data` for one piece before a comma. -/
def transferColumn (countIndex : Nat) (subString : StdString) (totalVolum : Int)
    (tick : MtkData) : Except FakeFault (Int × MtkData) :=
  match countIndex with
  | 1 => .ok (totalVolum, { tick with instrumentID := strncpyS 31 subString })
  | 2 =>
    let tradeDay := (beforeFirst ' ' subString).filter (· ≠ '-')
    let updateTime := beforeFirst '.' (behindFirst ' ' subString)
    .ok (totalVolum, { tick with
      tradingDay := strncpyS 9 tradeDay
      actionDay := strncpyS 9 tradeDay
      updateTime := strncpyS 9 updateTime })
  | 3 => .ok (totalVolum, { tick with lastPrice := atoi subString })
  | 7 =>
    let totalVolum := totalVolum + atoi subString
    if intMin ≤ totalVolum ∧ totalVolum ≤ intMax then
      .ok (totalVolum, { tick with volume := Int32.ofInt totalVolum })
    else .error .volumeOverflow
  | 12 => .ok (totalVolum, { tick with bidPrice1 := atoi subString })
  | 13 => .ok (totalVolum, { tick with askPrice1 := atoi subString })
  | 14 => .ok (totalVolum, { tick with bidVolume1 := Int32.ofInt (atoi subString) })
  | _ => .ok (totalVolum, tick)

/-- The loop over a line. The piece behind the last comma is the ask volume. -/
def transferColumns : Nat → List StdString → Int × MtkData → Except FakeFault (Int × MtkData)
  | _, [], state => .ok state
  | _, [last], (totalVolum, tick) =>
    .ok (totalVolum, { tick with askVolume1 := Int32.ofInt (atoi last) })
  | countIndex, subString :: next :: rest, (totalVolum, tick) =>
    match transferColumn countIndex subString totalVolum tick with
    | .error e => .error e
    | .ok state => transferColumns (countIndex + 1) (next :: rest) state

/-- The next index, the new total and the tick. -/
def transferFakeToTickData (table : List StdString) (dataIndex : Nat) (totalVolum : Int) :
    Except FakeFault (Nat × Int × MtkData) :=
  let fakeSize := table.length
  if dataIndex ≥ fakeSize ∧ fakeSize = 0 then .error .remainderByZero
  else
    let dataIndex := if dataIndex ≥ fakeSize then dataIndex % fakeSize else dataIndex
    match transferColumns 0 (columns (table.getD dataIndex [])) (totalVolum, emptyTick) with
    | .error e => .error e
    | .ok (totalVolum, tick) => .ok (dataIndex + 1, totalVolum, tick)

end CMdBroadCast

/-- The pipeline together with the two variables of the feed thread, its index into the
table and its running total. -/
structure FakeFeed where
  pipeline : Pipeline
  fakeDataIndex : Nat := 0
  fakeTotalVolum : Int := 0

/-- A step of one of the three threads that work on the recorded ticks. -/
inductive FakeAction where
  /-- One round of the loop in `distribute_fake_tick_function`. -/
  | draw
  | distribute
  | calculate (ins : StdString)
  deriving DecidableEq

namespace FakeFeed

/-- A step of the pipeline without `_TRADE_TIME_`. -/
def stepPipeline (s : FakeFeed) (a : PipelineAction) : Except FakeFault FakeFeed :=
  match s.pipeline.step false a with
  | .error e => .error (.pipeline e)
  | .ok pipeline => .ok { s with pipeline }

def step (insList table : List StdString) (s : FakeFeed) : FakeAction → Except FakeFault FakeFeed
  | .draw =>
    match CMdBroadCast.transferFakeToTickData table s.fakeDataIndex s.fakeTotalVolum with
    | .error e => .error e
    | .ok (dataIndex, totalVolum, tick) =>
      ({ s with
        fakeDataIndex := dataIndex
        fakeTotalVolum := totalVolum } : FakeFeed).stepPipeline (.append tick)
  | .distribute => s.stepPipeline .distribute
  | .calculate ins =>
    -- the calculation thread loops over the subscribed instruments
    if ins ∈ insList then s.stepPipeline (.calculate ins) else .ok s

/-- The state reached by a schedule, on the lines of a file. -/
def run (insList csvIn : List StdString) (acts : List FakeAction) : Except FakeFault FakeFeed :=
  Execution.run (step insList (CMdBroadCast.initialFakeTickData csvIn))
    { pipeline := Pipeline.start insList } acts

/-- The number of ticks that a schedule draws. -/
def draws (acts : List FakeAction) : Nat := acts.count .draw

end FakeFeed

def rowInstrument (row : StdString) : StdString := (strncpyS 31 ((columns row).getD 1 [])).chars

/-- The minute of a row's update time, as the search loop will see it. -/
def rowMinute (row : StdString) : Nat :=
  CMdBroadCast.convertTimeStr2int
    (strncpyS 9 (beforeFirst '.' (behindFirst ' ' ((columns row).getD 2 [])))).chars / 100

def rowVolume (row : StdString) : Int := atoi ((columns row).getD 7 [])

/-- A row of a file of recorded ticks from which the code makes a tick of the
instrument: all columns that are read are there, the name is the instrument's, and the
volume column is not negative. -/
structure FakeRow (ins row : StdString) : Prop where
  complete : 8 < (columns row).length
  instrument : rowInstrument row = ins
  volume : 0 ≤ rowVolume row

/-- What the pipeline looks at in a tick: instrument, minute and volume. -/
def tickView (t : MtkData) : StdString × Nat × Int32 := (t.instrumentID.chars, minute t, t.volume)

namespace CMdBroadCast

private theorem transferColumn_later {countIndex : Nat} (later : 8 ≤ countIndex)
    (subString : StdString) (totalVolum : Int) (tick : MtkData) :
    ∃ tick', transferColumn countIndex subString totalVolum tick = .ok (totalVolum, tick') ∧
      tickView tick' = tickView tick := by
  unfold transferColumn
  split
  · omega
  · omega
  · omega
  · omega
  · exact ⟨_, rfl, rfl⟩
  · exact ⟨_, rfl, rfl⟩
  · exact ⟨_, rfl, rfl⟩
  · exact ⟨_, rfl, rfl⟩

/-- The columns behind the volume do not matter to the pipeline. -/
private theorem transferColumns_later {countIndex : Nat} (later : 8 ≤ countIndex)
    (pieces : List StdString) (totalVolum : Int) (tick : MtkData) :
    ∃ tick', transferColumns countIndex pieces (totalVolum, tick) = .ok (totalVolum, tick') ∧
      tickView tick' = tickView tick := by
  induction pieces generalizing countIndex tick with
  | nil => exact ⟨tick, rfl, rfl⟩
  | cons piece pieces ih =>
      cases pieces with
      | nil => exact ⟨_, rfl, rfl⟩
      | cons next pieces =>
          obtain ⟨tick', step, same⟩ := transferColumn_later later piece totalVolum tick
          obtain ⟨tick'', rest, same'⟩ := ih (Nat.le_succ_of_le later) tick'
          refine ⟨tick'', ?_, same'.trans same⟩
          simp only [transferColumns, step]
          exact rest

/-- A row adds its volume to the total, or overflows. -/
theorem transferColumns_row {ins row : StdString} (hrow : FakeRow ins row) {totalVolum : Int}
    (nonneg : 0 ≤ totalVolum) :
    if totalVolum + rowVolume row ≤ intMax then
      ∃ tick, transferColumns 0 (columns row) (totalVolum, emptyTick) =
          .ok (totalVolum + rowVolume row, tick) ∧
        tickView tick = (ins, rowMinute row, Int32.ofInt (totalVolum + rowVolume row))
    else transferColumns 0 (columns row) (totalVolum, emptyTick) = .error .volumeOverflow := by
  obtain ⟨complete, rfl, volume⟩ := hrow
  have low : intMin ≤ totalVolum + rowVolume row := by
    simp only [intMin]
    omega
  unfold rowVolume rowInstrument rowMinute at *
  rcases hcols : columns row with
    _ | ⟨c₀, _ | ⟨c₁, _ | ⟨c₂, _ | ⟨c₃, _ | ⟨c₄, _ | ⟨c₅, _ | ⟨c₆, _ | ⟨c₇, _ | ⟨c₈, rest⟩⟩⟩⟩⟩⟩⟩⟩⟩
  iterate 9 simp [hcols] at complete
  simp only [hcols, List.getD_cons_zero, List.getD_cons_succ] at low ⊢
  split_ifs with fits
  · obtain ⟨tick, later, same⟩ := transferColumns_later (le_refl 8) (c₈ :: rest)
      (totalVolum + atoi c₇) { emptyTick with
        instrumentID := strncpyS 31 c₁
        tradingDay := strncpyS 9 ((beforeFirst ' ' c₂).filter (· ≠ '-'))
        actionDay := strncpyS 9 ((beforeFirst ' ' c₂).filter (· ≠ '-'))
        updateTime := strncpyS 9 (beforeFirst '.' (behindFirst ' ' c₂))
        lastPrice := atoi c₃
        volume := Int32.ofInt (totalVolum + atoi c₇) }
    refine ⟨tick, ?_, same⟩
    simp only [transferColumns, transferColumn, low, fits, and_self, ↓reduceIte]
    exact later
  · simp only [transferColumns, transferColumn, low, fits, and_false, ↓reduceIte]

end CMdBroadCast

end CtpTrade
