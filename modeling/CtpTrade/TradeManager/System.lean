import CtpTrade.Library.Simulation
import CtpTrade.MdBroadcast.Channel
import CtpTrade.Strategy.Config
import CtpTrade.Strategy.Node
import CtpTrade.TradeManager.Agreement

/-!
# The whole trader

`CTradeManager` with everything that runs below it: the feed, the distribution
and the calculation thread of the broadcast module, the compose threads, the
notification of the strategies and the indicator thread of each strategy, as one
system. Ticks go in and orders come out.

Each part has been modelled on its own, against an environment that may do
anything. Here the parts meet: a minute bar of the broadcast module is the
argument of `push_min_one_data`, and the bars a strategy receives are those of
`notify_decision_data`. `simulates_pipeline`, `simulates_trade` and
`simulates_strategy` project the whole system to its parts, so that whatever
holds of a part in all its runs holds of it here.

The front-end connections, the log and redis are left out.
-/

namespace CtpTrade

/-- The arguments of `initial_ma_stg`. The configuration file is a list of lines if it
can be opened, and `none` otherwise. -/
structure StgConfig where
  configFile : Option (List StdString)
  configHead : StdString
  kType : Nat

/-- A `CMAStrategy` with the archive that its `CStrategy` part keeps of what it has
received. -/
structure AttachedStrategy where
  stg : CMAStrategy
  archive : List (Int × CandleBar) := []

namespace AttachedStrategy

/-- The result of `initial_stg` is not looked at. -/
def initialMaStg (config : StgConfig) : AttachedStrategy where
  stg := .initialMaStg (({} : CStrategy).loadFocusedInst config.configFile config.configHead
    config.kType).2.decisionData

/-- The `CStrategy` part. -/
def base (attached : AttachedStrategy) : CStrategy where
  decisionData := attached.stg.decisionData
  archive := attached.archive

def update (attached : AttachedStrategy) (period : Int) (stgData : CandleBar) :
    AttachedStrategy where
  stg := attached.stg.update period stgData
  archive := (attached.base.update period stgData).archive

def strategicDecisionFunction (attached : AttachedStrategy) : AttachedStrategy :=
  { attached with stg := attached.stg.strategicDecisionFunction }

end AttachedStrategy

/-- The program behind the feed: the data manager with its broadcast module, the
strategies, and the calls in progress. The logs are those of the parts. -/
structure Trader where
  mdManager : MdSystem := {}
  appended : List MtkData := []
  distributed : List MtkData := []
  pushed : List MinutePush := []
  stgContainer : List AttachedStrategy
  notifying : DataNo → Option Notification := fun _ => none
  /-- The instrument whose mutex the calculation thread holds while it makes a call. -/
  locked : Option StdString := none

/-- A step of one of the threads of the program, or a tick of the feed. Any of them can
come next. -/
inductive TraderAction where
  /-- The main thread goes on with `initial_md_manager`. -/
  | main
  /-- The feed queues a tick. -/
  | append (tick : MtkData)
  /-- The distribution thread pushes the next queued tick. -/
  | distribute
  /-- The calculation thread runs `calculate_min_bar(name)`. -/
  | calculate (name : StdString)
  /-- The compose thread of a period goes on with its loop. -/
  | thread (threadId : DataNo)
  /-- The call of a thread goes on with the next strategy. -/
  | notify (threadId : DataNo)
  /-- The indicator thread of a strategy goes on. -/
  | decide (index : Nat)

namespace Trader

/-- The broadcast module, with what has passed through it. -/
def pipeline (s : Trader) : Pipeline where
  md := s.mdManager.manager.mdBroadcast
  appended := s.appended
  distributed := s.distributed
  pushed := s.pushed

def setPipeline (s : Trader) (p : Pipeline) : Trader :=
  { s with
    mdManager :=
      { s.mdManager with manager := { s.mdManager.manager with mdBroadcast := p.md } }
    appended := p.appended
    distributed := p.distributed
    pushed := p.pushed }

/-- A step of the broadcast module, which runs after the last statement of the start-up. -/
def broadcast (tradeTime : Bool) (s : Trader) (a : PipelineAction) : Except Fault Trader :=
  if s.mdManager.todo = [] then
    match Pipeline.step tradeTime s.pipeline a with
    | .error e => .error e
    | .ok p => .ok (s.setPipeline p)
  else .ok s

/-- A step of the market data module; a recorded call of `notify_decision_data` begins. -/
def stepMd (s : Trader) (threadId : DataNo) (md : MdSystem) : Trader :=
  match md.manager.notified.drop s.mdManager.manager.notified.length with
  | (_, bar) :: _ =>
    { s with
      mdManager := md
      notifying := Function.update s.notifying threadId (some { bar }) }
  | [] => { s with mdManager := md }

/-- The next tick is for an instrument whose mutex is held, and the thread waits for it. -/
def distributeWaits (s : Trader) : Bool :=
  match s.mdManager.manager.mdBroadcast.subTicks with
  | tick :: _ => s.locked = some tick.instrumentID.chars
  | [] => false

/-- `calculate_min_bar` up to its call of `push_min_one_data`, which it makes with the
mutex of the instrument held: no other thread sees whether the ticks of the bar have
been erased yet. -/
def calculateMinBar (tradeTime : Bool) (ins : List StdString) (s : Trader) (name : StdString) :
    Except Fault Trader :=
  match s.broadcast tradeTime (.calculate name) with
  | .error e => .error e
  | .ok t =>
    match t.pushed.drop s.pushed.length with
    | push :: _ =>
      let md := t.mdManager.next ins (.pushMinOneData push.bar.barName.chars push.bar)
      .ok ({ t with locked := some name }.stepMd .one md)
    | [] => .ok t

def notifyDecisionData (s : Trader) (threadId : DataNo) : Trader :=
  match s.notifying threadId with
  | some call =>
    match s.stgContainer[call.handled]? with
    | some attached =>
      let period := CMdManager.convertDatanoToKtype threadId
      { s with
        stgContainer := s.stgContainer.set call.handled (attached.update period call.bar)
        notifying := Function.update s.notifying threadId
          (some { call with handled := call.handled + 1 }) }
    | none =>
      { s with
        notifying := Function.update s.notifying threadId none
        locked := if threadId = .one then none else s.locked }
  | none => s

/-- One step of the program. A thread with a call in progress does nothing else until
the call has returned. -/
def step (tradeTime : Bool) (ins : List StdString) (s : Trader) :
    TraderAction → Except Fault Trader
  | .main => .ok { s with mdManager := s.mdManager.next ins .main }
  | .append tick => s.broadcast tradeTime (.append tick)
  | .distribute => if s.distributeWaits then .ok s else s.broadcast tradeTime .distribute
  | .calculate name =>
    match s.notifying .one with
    | some _ => .ok s
    | none => s.calculateMinBar tradeTime ins name
  | .thread threadId =>
    match s.notifying threadId with
    | some _ => .ok s
    | none => .ok (s.stepMd threadId (s.mdManager.next ins (.thread threadId)))
  | .notify threadId => .ok (s.notifyDecisionData threadId)
  | .decide index =>
    match s.stgContainer[index]? with
    | some attached =>
      .ok { s with stgContainer := s.stgContainer.set index attached.strategicDecisionFunction }
    | none => .ok s

/-- The trader in `main`, with its strategies attached. -/
def start (configs : List StgConfig) : Trader where
  stgContainer := configs.map AttachedStrategy.initialMaStg

/-- The state after a schedule of all threads, if no step of it faults. -/
def run (tradeTime : Bool) (ins : List StdString) (configs : List StgConfig)
    (acts : List TraderAction) : Except Fault Trader :=
  Execution.run (step tradeTime ins) (start configs) acts

variable {tradeTime : Bool} {ins : List StdString} {s t : Trader}

/-- Everything a fault-free step of the program can do, for either build. Apart from the
statements of the main thread there is a case for each kind of thread, and one for each
call that hands a bar to the strategies. -/
inductive Step (tradeTime : Bool) (ins : List StdString) (s : Trader) :
    TraderAction → Trader → Prop where
  | idle (a : TraderAction) : Step tradeTime ins s a s
  | main : Step tradeTime ins s .main { s with mdManager := s.mdManager.next ins .main }
  /-- A step of the broadcast module without a call. -/
  | broadcast (a : TraderAction) (b : PipelineAction) (p : Pipeline)
      (running : s.mdManager.todo = []) (stepped : Pipeline.step tradeTime s.pipeline b = .ok p)
      (silent : p.pushed = s.pushed) (fed : ∀ tick, b = .append tick → a = .append tick) :
      Step tradeTime ins s a (s.setPipeline p)
  /-- A minute bar is pushed, and its call begins. -/
  | push (name : StdString) (p : Pipeline) (push : MinutePush) (running : s.mdManager.todo = [])
      (free : s.notifying .one = none)
      (stepped : Pipeline.step tradeTime s.pipeline (.calculate name) = .ok p)
      (pushed : p.pushed = s.pushed ++ [push]) :
      Step tradeTime ins s (.calculate name)
        ({ s.setPipeline p with locked := some name }.stepMd .one
          ((s.setPipeline p).mdManager.next ins
            (.pushMinOneData push.bar.barName.chars push.bar)))
  | thread (threadId : DataNo) (free : s.notifying threadId = none) :
      Step tradeTime ins s (.thread threadId)
        (s.stepMd threadId (s.mdManager.next ins (.thread threadId)))
  | notify (threadId : DataNo) :
      Step tradeTime ins s (.notify threadId) (s.notifyDecisionData threadId)
  | decide (index : Nat) (attached : AttachedStrategy)
      (there : s.stgContainer[index]? = some attached) :
      Step tradeTime ins s (.decide index)
        { s with stgContainer := s.stgContainer.set index attached.strategicDecisionFunction }

private theorem broadcast_ok {a : PipelineAction} (h : s.broadcast tradeTime a = .ok t) :
    t = s ∨ ∃ p, s.mdManager.todo = [] ∧ Pipeline.step tradeTime s.pipeline a = .ok p ∧
      t = s.setPipeline p := by
  simp only [Trader.broadcast] at h
  split_ifs at h with running
  · cases hp : Pipeline.step tradeTime s.pipeline a with
    | error e => simp [hp] at h
    | ok p =>
        simp only [hp, Except.ok.injEq] at h
        exact .inr ⟨p, running, rfl, h.symm⟩
  · cases h
    exact .inl rfl

private theorem broadcast_silent (a : TraderAction) {b : PipelineAction}
    (h : s.broadcast tradeTime b = .ok t)
    (quiet : ∀ p, Pipeline.step tradeTime s.pipeline b = .ok p → p.pushed = s.pushed)
    (fed : ∀ tick, b = .append tick → a = .append tick) :
    Step tradeTime ins s a t := by
  obtain rfl | ⟨p, running, stepped, rfl⟩ := broadcast_ok h
  · exact .idle a
  · exact .broadcast a b p running stepped (quiet p stepped) fed

private theorem calculateMinBar_step {name : StdString} (free : s.notifying .one = none)
    (h : s.calculateMinBar tradeTime ins name = .ok t) :
    Step tradeTime ins s (.calculate name) t := by
  simp only [calculateMinBar] at h
  cases hb : s.broadcast tradeTime (.calculate name) with
  | error e => simp [hb] at h
  | ok u =>
      simp only [hb] at h
      obtain rfl | ⟨p, running, stepped, rfl⟩ := broadcast_ok hb
      · simp only [List.drop_length, Except.ok.injEq] at h
        rw [← h]
        exact .idle _
      · obtain ⟨md, push, outcome, same⟩ := Pipeline.step_calculate stepped
        have pushed : (s.setPipeline p).pushed = s.pushed ++ push.toList := by
          rw [same]
          rfl
        have tail : (s.setPipeline p).pushed.drop s.pushed.length = push.toList := by
          rw [pushed, List.drop_left]
        rw [tail] at h
        cases push with
        | none =>
            cases h
            exact .broadcast _ _ p running stepped (pushed.trans (List.append_nil _)) (by simp)
        | some push =>
            cases h
            exact .push name p push running free stepped pushed

theorem step_cases {a : TraderAction} (h : step tradeTime ins s a = .ok t) :
    Step tradeTime ins s a t := by
  cases a with
  | main =>
      cases h
      exact .main
  | append tick =>
      refine broadcast_silent (.append tick) (b := .append tick) h ?_ (by simp)
      rintro p ⟨⟩
      rfl
  | distribute =>
      simp only [step] at h
      split_ifs at h
      · cases h
        exact .idle _
      · refine broadcast_silent .distribute h ?_ (by simp)
        intro p stepped
        obtain ⟨-, rfl⟩ | ⟨tick, rest, -, rfl⟩ := Pipeline.step_distribute stepped
        · rfl
        · rfl
  | calculate name =>
      cases free : s.notifying .one with
      | some call =>
          simp only [step, free, Except.ok.injEq] at h
          rw [← h]
          exact .idle _
      | none =>
          simp only [step, free] at h
          exact calculateMinBar_step free h
  | thread threadId =>
      cases free : s.notifying threadId with
      | some call =>
          simp only [step, free, Except.ok.injEq] at h
          rw [← h]
          exact .idle _
      | none =>
          simp only [step, free, Except.ok.injEq] at h
          rw [← h]
          exact .thread threadId free
  | notify threadId =>
      cases h
      exact .notify threadId
  | decide index =>
      cases there : s.stgContainer[index]? with
      | none =>
          simp only [step, there, Except.ok.injEq] at h
          rw [← h]
          exact .idle _
      | some attached =>
          simp only [step, there, Except.ok.injEq] at h
          rw [← h]
          exact .decide index attached there

end Trader

end CtpTrade
