import CtpTrade.CandleBar
import CtpTrade.Library.Execution
import CtpTrade.MdBroadcast.Basic

/-!
# Longer periods from minute bars: `CMdManager`

The start-up of the market data module and the threads that compose longer
periods, as one system. The main thread works off the statements of
`initial_md_manager`; each compose thread copies its locals when it starts and
then handles one instrument of its list in each step, which is where it takes
locks. Minute bars arrive once the broadcast module runs, because only its
calculation thread pushes them.

The front-end connection and the strategies behind `notify_decision_data` are
left out; the notifications are recorded.
-/

namespace CtpTrade

/-- The data numbers `ONE` to `SIXTY`, which are also the indices of the threads that
compose them. -/
inductive DataNo where
  | one
  | five
  | fiveteen
  | thirty
  | sixty
  deriving DecidableEq

/-- The value of the enumerator. -/
def DataNo.index : DataNo → Nat
  | .one => 0
  | .five => 1
  | .fiveteen => 2
  | .thirty => 3
  | .sixty => 4

/-- The bars of one period, by instrument. -/
structure CMdDataSet where
  datasetType : Int := 0
  dataset : OrderedMap StdString CCandleBar := .empty

namespace CMdDataSet

/-- One round of the loop in `initial_dataset`. -/
def initialSeries (ds : CMdDataSet) (name : StdString) : CMdDataSet :=
  { ds with
    dataset := efficientMapOperation ds.dataset name
      (({} : CCandleBar).setCandleType ds.datasetType) }

def initialDataset (ds : CMdDataSet) (type : Int) (ins : List StdString) : CMdDataSet :=
  ins.foldl initialSeries { ds with datasetType := type }

/-- The bars of one instrument. `operator[]` creates an empty series on first use. -/
def series (ds : CMdDataSet) (ins : StdString) : CCandleBar := ds.dataset.get ins

def pushOneData (ds : CMdDataSet) (ins : StdString) (bar : CandleBar) : CMdDataSet :=
  { ds with dataset := ds.dataset.set ins ((ds.series ins).pushBar bar) }

def calculateSpecifiedBar (ds : CMdDataSet) (ins : StdString) (stratPos composeMutiple : Nat)
    (desBar : CandleBar) : Option CandleBar :=
  (ds.series ins).calculateSpecifiedPeriod stratPos composeMutiple desBar

@[simp] theorem series_pushOneData_same (ds : CMdDataSet) (ins : StdString) (bar : CandleBar) :
    (ds.pushOneData ins bar).series ins = (ds.series ins).pushBar bar := by
  simp [series, pushOneData]

theorem series_pushOneData_ne (ds : CMdDataSet) {ins other : StdString} (bar : CandleBar)
    (h : other ≠ ins) : (ds.pushOneData ins bar).series other = ds.series other := by
  simp [series, pushOneData, OrderedMap.get_set_ne _ _ h]

private theorem foldl_initialSeries (ins : List StdString) (ds : CMdDataSet) (name : StdString) :
    ((ins.foldl initialSeries ds).series name).candles =
      if name ∈ ins then [] else (ds.series name).candles := by
  induction ins generalizing ds with
  | nil => simp
  | cons head ins ih =>
      rw [List.foldl_cons, ih]
      simp only [initialSeries, series, OrderedMap.get, find?_efficientMapOperation, List.mem_cons]
      by_cases mem : name ∈ ins
      · simp [mem]
      · by_cases same : name = head
        · simp [same, CCandleBar.setCandleType]
        · simp [mem, same]

/-- Initialisation empties the series it names and leaves the others alone. -/
theorem initialDataset_candles (ds : CMdDataSet) (type : Int) (ins : List StdString)
    (name : StdString) :
    ((ds.initialDataset type ins).series name).candles =
      if name ∈ ins then [] else (ds.series name).candles :=
  foldl_initialSeries ins _ name

end CMdDataSet

/-- The locals of `calculate_md_base_function`, and its place in the list. There is one
`retrieve_start_pos` for all instruments. -/
structure ComposeThread where
  focusInstr : List StdString
  retrieveStartPos : Nat := 0
  composeMultipile : Nat
  next : Nat := 0
  deriving DecidableEq

/-- Where the compose thread of a period is, as far as its data is concerned. -/
inductive ThreadState where
  | idle
  /-- `create_thread` has been called, the function has not read its locals yet. -/
  | created
  | running (thread : ComposeThread)
  deriving DecidableEq

/-- The data manager with the calls it has made to the trade manager. The broadcast
module is a part of it, whose ticks are looked at elsewhere. -/
structure CMdManager where
  checkupTable : OrderedMap Nat Nat := .empty
  basicMinuteKdata : DataNo → CMdDataSet := fun _ => {}
  calculateThread : DataNo → ThreadState := fun _ => .idle
  mdBroadcast : CMdBroadCast := {}
  /-- The calls of `notify_decision_data`. -/
  notified : List (Int × CandleBar) := []

namespace CMdManager

def initialCheckupTable (md : CMdManager) : CMdManager :=
  { md with
    checkupTable := ((((md.checkupTable.set DataNo.one.index 1).set DataNo.five.index 5).set
      DataNo.fiveteen.index 15).set DataNo.thirty.index 30).set DataNo.sixty.index 60 }

def convertDatanoToKtype : DataNo → Int
  | .one => minOne
  | .five => minFive
  | .fiveteen => minFiveteen
  | .thirty => minThirty
  | .sixty => minSixty

/-- One iteration of the `for_each` in `calculate_md_base_function`. -/
def composeIns (md : CMdManager) (threadId : DataNo) (th : ComposeThread) (ins : StdString) :
    CMdManager × ComposeThread :=
  let baseOneMinute := md.basicMinuteKdata .one
  match baseOneMinute.calculateSpecifiedBar ins th.retrieveStartPos th.composeMultipile {} with
  | some composeBar =>
    ({ md with
        basicMinuteKdata := Function.update md.basicMinuteKdata threadId
          ((md.basicMinuteKdata threadId).pushOneData ins composeBar)
        notified := md.notified ++ [(convertDatanoToKtype threadId, composeBar)] },
      { th with retrieveStartPos := th.retrieveStartPos + th.composeMultipile })
  | none => (md, th)

/-- One step of a thread that runs `calculate_md_base_function`. -/
def calculateMdBaseFunction (md : CMdManager) (threadId : DataNo) : CMdManager :=
  let put (md : CMdManager) (th : ComposeThread) : CMdManager :=
    { md with calculateThread := Function.update md.calculateThread threadId (.running th) }
  match md.calculateThread threadId with
  | .idle => md
  | .created =>
    put md
      { focusInstr := md.mdBroadcast.subscribeInst
        composeMultipile := md.checkupTable.get threadId.index }
  | .running th =>
    match th.focusInstr[th.next]? with
    | some ins =>
      let (md, th) := md.composeIns threadId th ins
      put md { th with next := th.next + 1 }
    | none => put md { th with next := 0 }

def pushMinOneData (md : CMdManager) (ins : StdString) (bar : CandleBar) : CMdManager :=
  { md with
    basicMinuteKdata := Function.update md.basicMinuteKdata .one
      ((md.basicMinuteKdata .one).pushOneData ins bar)
    notified := md.notified ++ [(minOne, bar)] }

end CMdManager

/-- The statements of `initial_md_manager` with those it calls, each a step of the main
thread. -/
inductive StartStep where
  | initialCheckupTable
  | initialDataset (no : DataNo)
  | createThread (no : DataNo)
  | setIntruments
  deriving DecidableEq

/-- `initial_md_manager`: the table, `open_calculate_thread`, `initial_md_broadcast`. -/
def initialMdManager : List StartStep :=
  [.initialCheckupTable,
    .initialDataset .one,
    .initialDataset .five, .createThread .five,
    .initialDataset .fiveteen, .createThread .fiveteen,
    .initialDataset .thirty, .createThread .thirty,
    .initialDataset .sixty, .createThread .sixty,
    .setIntruments]

/-- The data manager while the main thread is still starting it up. The compose threads
run from where they are created. -/
structure MdSystem where
  manager : CMdManager := {}
  /-- What the main thread has still to do. -/
  todo : List StartStep := initialMdManager

/-- A step of the main thread, of a compose thread, or of the thread that pushes minute
bars. -/
inductive MdAction where
  | main
  | thread (threadId : DataNo)
  | pushMinOneData (ins : StdString) (bar : CandleBar)
  deriving DecidableEq

namespace MdSystem

def mainStep (ins : List StdString) (md : CMdManager) : StartStep → CMdManager
  | .initialCheckupTable => md.initialCheckupTable
  | .initialDataset no =>
    { md with
      basicMinuteKdata := Function.update md.basicMinuteKdata no
        ((md.basicMinuteKdata no).initialDataset (CMdManager.convertDatanoToKtype no) ins) }
  | .createThread no =>
    { md with calculateThread := Function.update md.calculateThread no .created }
  | .setIntruments => { md with mdBroadcast := md.mdBroadcast.setIntruments ins }

/-- One step of the system started by `initial_md_manager(ins)`. -/
def next (ins : List StdString) (s : MdSystem) : MdAction → MdSystem
  | .main =>
    match s.todo with
    | [] => s
    | first :: todo => { manager := mainStep ins s.manager first, todo := todo }
  | .thread threadId => { s with manager := s.manager.calculateMdBaseFunction threadId }
  | .pushMinOneData name bar =>
    -- the broadcast module runs after the last statement of the start-up
    if s.todo = [] then { s with manager := s.manager.pushMinOneData name bar } else s

/-- The system after a schedule. -/
def run (ins : List StdString) (acts : List MdAction) : MdSystem :=
  Execution.exec (next ins) {} acts

theorem run_concat (ins : List StdString) (acts : List MdAction) (a : MdAction) :
    run ins (acts ++ [a]) = next ins (run ins acts) a := Execution.exec_append [a]

/-- The one-minute bars of an instrument. -/
def minuteBars (s : MdSystem) (ins : StdString) : CCandleBar :=
  (s.manager.basicMinuteKdata .one).series ins

/-- The bars a thread has composed for an instrument. -/
def composedBars (s : MdSystem) (threadId : DataNo) (ins : StdString) : List CandleBar :=
  ((s.manager.basicMinuteKdata threadId).series ins).candles

end MdSystem

end CtpTrade
