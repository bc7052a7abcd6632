import CtpTrade.TdTrade.Login
import CtpTrade.TdTrade.Orders
import CtpTrade.TradeManager.Parts

/-!
# The trader and its front ends: `initial_trader`

The build with `_TRADE_TIME_` as a whole. The main thread works off the statements
of `initial_trader`, while the threads of the two interfaces deliver their callbacks
and the threads below the main thread run as in `Trader`. An order that a strategy raises
becomes a call of `limit_order_insert`, and its thread does nothing else until the call is
over. Every access of the call to the counters of the trade interface is a step of its
own, as the counters have no lock and several threads place orders.

The interfaces and redis are not part of the repository. A request is recorded with
the data it carries, and what a library returns is an input of the step that calls it.
Whether a request reaches the exchange is up to the library: what is recorded is the call.
A callback comes once the interface has been created, at any time. The statements of
one callback, or of one request of the main thread, are one step.

The main thread never leaves the endless loop of `main`, so nothing is released.
-/

namespace CtpTrade

/-- A request as the market data interface receives it. It has numbers of its own. -/
inductive MdRequest where
  | userLogin (field : ReqUserLoginField) (requestId : Int)
  | subscribeMarketData (neededIns : List StdString) (insCount : Nat)
  deriving DecidableEq

/-- The members of `CMdBroadCast` that belong to its interface. The threads of the
pipeline do not look at them. -/
structure CMdSpi where
  /-- `md_api_` is not null. -/
  mdApi : Bool := false
  connectMdFlag : Bool := false
  isReadySubscribe : Bool := false
  deriving DecidableEq

/-- What ends the process: a fault of one of its parts, a null pointer, or a call of
`abort()`. -/
inductive LiveFault where
  | trader (fault : Fault)
  /-- A call through `td_api_` while it is null. -/
  | nullApi
  /-- A callback argument or a library result that is null is dereferenced. -/
  | nullPointer
  | abort
  deriving DecidableEq

namespace CMdSpi

def getReadySubscribe (md : CMdSpi) : Bool := md.isReadySubscribe

/-- The result of the request is not looked at. -/
def subscribeInstruments (md : CMdSpi) (neededIns : List StdString) : Bool × List MdRequest :=
  if md.isReadySubscribe then (true, [.subscribeMarketData neededIns neededIns.length])
  else (false, [])

/-- Every connection asks for a login with an empty account. -/
def onFrontConnected (md : CMdSpi) : CMdSpi × MdRequest :=
  let loginField : ReqUserLoginField :=
    { brokerID := strncpyS 11 [], userID := strncpyS 16 [], password := strncpyS 41 [] }
  ({ md with connectMdFlag := true }, .userLogin loginField 0)

def onFrontDisconnected (md : CMdSpi) : CMdSpi := { md with connectMdFlag := false }

def onRspUserLogin (md : CMdSpi) : Option RspInfoField → Except LiveFault CMdSpi
  | none => .error .nullPointer
  | some info =>
    if info.errorID = 0 then .ok { md with isReadySubscribe := true } else .error .abort

end CMdSpi

/-- The orders that a strategy has raised. -/
def Trader.ordersAt (s : Trader) (index : Nat) : List LimitOrder :=
  match s.stgContainer[index]? with
  | some attached => attached.stg.orders.map fun raised => raised.2.order
  | none => []

/-- `load_all_interested_ins`, the list `main` trades. -/
def CTradeManager.loadAllInterestedIns : List StdString :=
  ["IF1606".toList, "j1701".toList, "rb1610".toList, "CF609".toList]

/-- Where the main thread is in `initial_trader`, by the statement that it executes
next. -/
inductive TraderPc where
  | connectRedis
  /-- `initial_md_manager` up to the creation of the interface -/
  | initialMdManager
  | createMdApi
  /-- `subscribe_market` up to its loop -/
  | subscribeMarket
  /-- the test of `get_ready_subscribe` -/
  | waitReady
  | subscribeInstruments
  | initialTdManager
  | executeLoginConfirm
  | returned
  deriving DecidableEq

/-- What has passed through the two interfaces, in the order in which it did. -/
inductive WireEvent where
  | mdRequest (request : MdRequest)
  | mdAnswer (rspInfo : Option RspInfoField)
  | td (event : LoginEvent)
  /-- a call of `ReqOrderInsert`, with the strategy it is for and the code it returns -/
  | order (index : Nat) (request : OrderRequest) (code : Int)
  deriving DecidableEq

/-- The process as a whole: the trader, the place of the main thread, both interfaces,
and the log of what has passed through them. -/
structure LiveTrader where
  trader : Trader
  pc : TraderPc := .connectRedis
  tradeRet : Bool := true
  /-- The `err` of the context `connect_`, once there is one. -/
  redis : Option Int := none
  md : CMdSpi := {}
  /-- `td_api_` is not null. -/
  tdApi : Bool := false
  login : LoginSystem := {}
  /-- the calls of the indicator threads that are under way -/
  inserting : Nat → Option OrderInsert := fun _ => none
  wire : List WireEvent := []

/-- What the libraries return to the main thread. A statement reads its own part;
nothing is assumed about the values. -/
structure Reply where
  /-- `redisConnectWithTimeout`: the `err` of the context, if there is a context. -/
  redisErr : Option Int := some 0
  /-- The interface could be created. -/
  created : Bool := true
  /-- The code of a request. -/
  code : Int := 0
  deriving DecidableEq

/-- A step of the main thread, a callback of one of the two interfaces, or a step of one
of the other threads. Any of them can come next. -/
inductive LiveAction where
  | main (reply : Reply)
  | mdConnected
  | mdDisconnected
  | mdLogin (rspInfo : Option RspInfoField)
  | tdConnected
  | tdDisconnected
  | tdAnswer (a : BrokerAnswer)
  /-- A step of another thread, or a tick. -/
  | trader (a : TraderAction)
  /-- A step of the call that the thread of a strategy is in. Of the steps only that of
  `ReqOrderInsert` has a code. -/
  | insert (index : Nat) (code : Int)

theorem CMAStrategy.orders_strategicDecisionFunction (stg : CMAStrategy) :
    stg.strategicDecisionFunction.orders = stg.orders ∨
      ∃ raised, stg.strategicDecisionFunction.orders = stg.orders ++ [raised] := by
  simp only [strategicDecisionFunction]
  split
  · rename_i node visit _
    cases (visit.next node.2 (stg.candle node)).order with
    | none => exact .inl (List.append_nil _)
    | some raised => exact .inr ⟨_, rfl⟩
  · split <;> exact .inl rfl

theorem CMAStrategy.orders_update (stg : CMAStrategy) (period : Int) (stgData : CandleBar) :
    (stg.update period stgData).orders = stg.orders := by
  simp only [update]
  split <;> rfl

namespace Trader

variable {tradeTime : Bool} {ins : List StdString} {s t : Trader}

private theorem ordersAt_congr (same : t.stgContainer = s.stgContainer) (index : Nat) :
    t.ordersAt index = s.ordersAt index := by
  rw [ordersAt, same]
  rfl

private theorem ordersAt_set {other : Nat} {attached next : AttachedStrategy}
    (there : s.stgContainer[other]? = some attached) (index : Nat) :
    ({ s with stgContainer := s.stgContainer.set other next } : Trader).ordersAt index =
      if other = index then next.stg.orders.map fun raised => raised.2.order
      else s.ordersAt index := by
  obtain ⟨inside, -⟩ := List.getElem?_eq_some_iff.mp there
  simp only [ordersAt, List.getElem?_set, inside, ↓reduceIte]
  split_ifs <;> rfl

/-- A step raises at most one order, and that of the indicator thread it is a step of. -/
theorem ordersAt_step {a : TraderAction} (h : Step tradeTime ins s a t) (index : Nat) :
    t.ordersAt index = s.ordersAt index ∨
      a = .decide index ∧ ∃ order, t.ordersAt index = s.ordersAt index ++ [order] := by
  cases h with
  | idle => exact .inl rfl
  | main => exact .inl rfl
  | broadcast => exact .inl rfl
  | push => exact .inl (ordersAt_congr (stepMd_stgContainer _ _) index)
  | thread => exact .inl (ordersAt_congr (stepMd_stgContainer _ _) index)
  | notify threadId =>
      simp only [notifyDecisionData]
      cases s.notifying threadId with
      | none => exact .inl rfl
      | some call =>
          cases there : s.stgContainer[call.handled]? with
          | none =>
              simp only [there]
              exact .inl rfl
          | some attached =>
              simp only [there]
              refine .inl ((ordersAt_set there index).trans ?_)
              split_ifs with same
              · subst same
                simp only [AttachedStrategy.update, CMAStrategy.orders_update, ordersAt, there]
              · rfl
  | decide other attached there =>
      have decides : attached.strategicDecisionFunction.stg =
          attached.stg.strategicDecisionFunction := rfl
      rw [ordersAt_set there, decides]
      split_ifs with same
      · subst same
        have own : s.ordersAt other = attached.stg.orders.map fun raised => raised.2.order := by
          simp only [ordersAt, there]
        obtain none | ⟨raised, one⟩ := attached.stg.orders_strategicDecisionFunction
        · rw [own, none]
          exact .inl rfl
        · rw [own, one, List.map_append]
          exact .inr ⟨rfl, raised.2.order, rfl⟩
      · exact .inl rfl

end Trader

namespace LiveTrader

/-- The instruments that `get_instruments_size` and `get_instrument_name` see. -/
def subscribeInst (s : LiveTrader) : List StdString :=
  s.trader.mdManager.manager.mdBroadcast.subscribeInst

/-- A step of the login handshake, with what it puts on the wire. -/
def stepLogin (s : LiveTrader) (a : LoginAction) : LiveTrader :=
  let login := s.login.next a
  { s with
    login
    wire := s.wire ++ (login.events.drop s.login.events.length).map .td }

/-- A step of `execute_login_confirm`, and what `initial_trader` makes of its result. -/
def executeLoginConfirm (s : LiveTrader) (code : Int) : LiveTrader :=
  let t := s.stepLogin (.caller code)
  match t.login.pc with
  | .returned excRet => { t with tradeRet := s.tradeRet && excRet = 0, pc := .returned }
  | _ => t

/-- One statement of `initial_trader`. A failure is recorded, and the rest goes on. -/
def initialTrader (ins : List StdString) (s : LiveTrader) (reply : Reply) :
    Except LiveFault LiveTrader :=
  match s.pc with
  | .connectRedis =>
    match reply.redisErr with
    | none => .error .nullPointer
    | some err =>
      .ok { s with
        redis := some err
        tradeRet := s.tradeRet && err = 0
        pc := .initialMdManager }
  | .initialMdManager =>
    let mdManager := s.trader.mdManager.next ins .main
    .ok { s with
      trader := { s.trader with mdManager }
      pc := if mdManager.todo = [] then .createMdApi else .initialMdManager }
  | .createMdApi =>
    .ok { s with
      md := { s.md with mdApi := reply.created }
      tradeRet := s.tradeRet && reply.created
      pc := .subscribeMarket }
  | .subscribeMarket =>
    if s.subscribeInst.length = 0 then .ok { s with tradeRet := false, pc := .initialTdManager }
    else .ok { s with pc := .waitReady }
  | .waitReady =>
    if s.md.getReadySubscribe then .ok { s with pc := .subscribeInstruments } else .ok s
  | .subscribeInstruments =>
    let (subRet, requests) := s.md.subscribeInstruments s.subscribeInst
    .ok { s with
      tradeRet := s.tradeRet && subRet
      wire := s.wire ++ requests.map .mdRequest
      pc := .initialTdManager }
  | .initialTdManager =>
    .ok { s with
      tdApi := reply.created
      tradeRet := s.tradeRet && reply.created
      pc := .executeLoginConfirm }
  -- the loop only gets past its test when the trade interface has reported a connection
  | .executeLoginConfirm => .ok (s.executeLoginConfirm reply.code)
  | .returned => .ok s

/-- The orders that a step of the trader has raised, with the strategy they are from. -/
def raisedBy (before after : Trader) : TraderAction → List (Nat × LimitOrder)
  | .decide index =>
    ((after.ordersAt index).drop (before.ordersAt index).length).map fun order => (index, order)
  | _ => []

/-- The call of `limit_order_insert` for a raised order begins. -/
def limitOrderInsert (s : LiveTrader) (index : Nat) (order : LimitOrder) : LiveTrader :=
  let field := CTdManager.limitOrderInsert order.insID order.actionDirect order.openFlag
    order.price order.quantity
  { s with inserting := Function.update s.inserting index (some (.readOrderRef field)) }

/-- The call goes on. The code of `ReqOrderInsert` comes back to `trigger_signal_action`, which
does not look at it. -/
def requestOrderInsert (s : LiveTrader) (index : Nat) (code : Int) :
    Except LiveFault LiveTrader :=
  match s.inserting index with
  | none => .ok s
  | some (.reqOrderInsert request) =>
    if s.tdApi then
      .ok { s with
        inserting := Function.update s.inserting index none
        wire := s.wire ++ [.order index request code] }
    else .error .nullApi
  | some call =>
    let (td, call) := s.login.td.accessNext call
    .ok { s with
      login := { s.login with td }
      inserting := Function.update s.inserting index (some call) }

/-- A step of another thread. An order that it raises is placed. -/
def stepTrader (ins : List StdString) (s : LiveTrader) (a : TraderAction) :
    Except LiveFault LiveTrader :=
  match Trader.step true ins s.trader a with
  | .error e => .error (.trader e)
  | .ok trader =>
    match raisedBy s.trader trader a with
    | (index, order) :: _ => .ok ({ s with trader }.limitOrderInsert index order)
    | [] => .ok { s with trader }

def step (ins : List StdString) (s : LiveTrader) : LiveAction → Except LiveFault LiveTrader
  | .main reply => s.initialTrader ins reply
  | .mdConnected =>
    if s.md.mdApi then
      let (md, request) := s.md.onFrontConnected
      .ok { s with md, wire := s.wire ++ [.mdRequest request] }
    else .ok s
  | .mdDisconnected => if s.md.mdApi then .ok { s with md := s.md.onFrontDisconnected } else .ok s
  | .mdLogin rspInfo =>
    if s.md.mdApi then
      match s.md.onRspUserLogin rspInfo with
      | .error e => .error e
      | .ok md => .ok { s with md, wire := s.wire ++ [.mdAnswer rspInfo] }
    else .ok s
  | .tdConnected => if s.tdApi then .ok (s.stepLogin .connected) else .ok s
  | .tdDisconnected => if s.tdApi then .ok (s.stepLogin .disconnected) else .ok s
  | .tdAnswer a => if s.tdApi then .ok (s.stepLogin (.answer a)) else .ok s
  -- the main thread is in `initial_trader`
  | .trader .main => .ok s
  | .trader (.append tick) => if s.md.mdApi then s.stepTrader ins (.append tick) else .ok s
  | .trader (.decide index) =>
    match s.inserting index with
    | some _ => .ok s
    | none => s.stepTrader ins (.decide index)
  | .trader a => s.stepTrader ins a
  | .insert index code => s.requestOrderInsert index code

/-- The process at the call of `initial_trader`, with its strategies attached. -/
def start (configs : List StgConfig) : LiveTrader where
  trader := Trader.start configs

/-- The state after a schedule of all threads, if nothing ends the process. -/
def run (ins : List StdString) (configs : List StgConfig) (acts : List LiveAction) :
    Except LiveFault LiveTrader :=
  Execution.run (step ins) (start configs) acts

variable {ins : List StdString} {s t : LiveTrader}

theorem raisedBy_cases {before after : Trader} {a : TraderAction}
    (h : Trader.step true ins before a = .ok after) :
    raisedBy before after a = [] ∧ (∀ index, after.ordersAt index = before.ordersAt index) ∨
      ∃ index order, a = .decide index ∧ raisedBy before after a = [(index, order)] ∧
        ∀ other, after.ordersAt other =
          before.ordersAt other ++ if other = index then [order] else [] := by
  have each := Trader.ordersAt_step (Trader.step_cases h)
  by_cases decides : ∃ index order, a = .decide index ∧
      after.ordersAt index = before.ordersAt index ++ [order]
  · obtain ⟨index, order, rfl, one⟩ := decides
    refine .inr ⟨index, order, rfl, ?_, fun other => ?_⟩
    · simp [raisedBy, one]
    · split_ifs with same
      · rw [same, one]
      · obtain silent | ⟨decide, -⟩ := each other
        · rw [silent, List.append_nil]
        · exact absurd (TraderAction.decide.inj decide).symm same
  · have silent (index : Nat) : after.ordersAt index = before.ordersAt index := by
      obtain silent | ⟨decide, order, one⟩ := each index
      · exact silent
      · exact absurd ⟨index, order, decide, one⟩ decides
    refine .inl ⟨?_, silent⟩
    cases a with
    | decide index => simp [raisedBy, silent]
    | _ => rfl

/-- Everything a step can do that does not end the process. The statements of the main
thread, the callbacks of both interfaces, the steps of the other threads, and the steps
in which a strategy places an order each have their own cases. -/
inductive Step (ins : List StdString) (s : LiveTrader) : LiveAction → LiveTrader → Prop where
  | idle (a : LiveAction) : Step ins s a s
  | connectRedis (reply : Reply) (err : Int) (here : s.pc = .connectRedis) :
      Step ins s (.main reply)
        { s with redis := some err, tradeRet := s.tradeRet && err = 0, pc := .initialMdManager }
  | initialMdManager (reply : Reply) (here : s.pc = .initialMdManager) :
      Step ins s (.main reply)
        { s with
          trader := { s.trader with mdManager := s.trader.mdManager.next ins .main }
          pc := if (s.trader.mdManager.next ins .main).todo = [] then .createMdApi
            else .initialMdManager }
  | createMdApi (reply : Reply) (here : s.pc = .createMdApi) :
      Step ins s (.main reply)
        { s with
          md := { s.md with mdApi := reply.created }
          tradeRet := s.tradeRet && reply.created
          pc := .subscribeMarket }
  | noInstruments (reply : Reply) (here : s.pc = .subscribeMarket) (none : s.subscribeInst = []) :
      Step ins s (.main reply) { s with tradeRet := false, pc := .initialTdManager }
  | instruments (reply : Reply) (here : s.pc = .subscribeMarket) (some : s.subscribeInst ≠ []) :
      Step ins s (.main reply) { s with pc := .waitReady }
  | ready (reply : Reply) (here : s.pc = .waitReady) (ready : s.md.isReadySubscribe = true) :
      Step ins s (.main reply) { s with pc := .subscribeInstruments }
  | subscribeInstruments (reply : Reply) (here : s.pc = .subscribeInstruments)
      (ready : s.md.isReadySubscribe = true) :
      Step ins s (.main reply)
        { s with
          wire := s.wire ++
            [.mdRequest (.subscribeMarketData s.subscribeInst s.subscribeInst.length)]
          pc := .initialTdManager }
  /-- `subscribe_instruments` finds the flag down again. -/
  | notSubscribed (reply : Reply) (here : s.pc = .subscribeInstruments)
      (ready : s.md.isReadySubscribe = false) :
      Step ins s (.main reply) { s with tradeRet := false, pc := .initialTdManager }
  | initialTdManager (reply : Reply) (here : s.pc = .initialTdManager) :
      Step ins s (.main reply)
        { s with
          tdApi := reply.created
          tradeRet := s.tradeRet && reply.created
          pc := .executeLoginConfirm }
  | caller (reply : Reply) (here : s.pc = .executeLoginConfirm)
      (inside : ∀ excRet, (s.login.next (.caller reply.code)).pc ≠ .returned excRet) :
      Step ins s (.main reply) (s.stepLogin (.caller reply.code))
  | callerReturns (reply : Reply) (here : s.pc = .executeLoginConfirm) (excRet : Int)
      (returns : (s.login.next (.caller reply.code)).pc = .returned excRet) :
      Step ins s (.main reply)
        { s.stepLogin (.caller reply.code) with
          tradeRet := s.tradeRet && excRet = 0
          pc := .returned }
  | mdConnected (created : s.md.mdApi = true) :
      Step ins s .mdConnected
        { s with
          md := s.md.onFrontConnected.1
          wire := s.wire ++ [.mdRequest s.md.onFrontConnected.2] }
  | mdDisconnected (created : s.md.mdApi = true) :
      Step ins s .mdDisconnected { s with md := s.md.onFrontDisconnected }
  | mdLogin (info : RspInfoField) (created : s.md.mdApi = true) (accepted : info.errorID = 0) :
      Step ins s (.mdLogin (some info))
        { s with
          md := { s.md with isReadySubscribe := true }
          wire := s.wire ++ [.mdAnswer (some info)] }
  | tdConnected (created : s.tdApi = true) : Step ins s .tdConnected (s.stepLogin .connected)
  | tdDisconnected (created : s.tdApi = true) :
      Step ins s .tdDisconnected (s.stepLogin .disconnected)
  | tdAnswer (a : BrokerAnswer) (created : s.tdApi = true) :
      Step ins s (.tdAnswer a) (s.stepLogin (.answer a))
  /-- Another thread goes on, and raises no order. -/
  | trader (a : TraderAction) (trader : Trader) (other : a ≠ .main)
      (fed : ∀ tick, a = .append tick → s.md.mdApi = true)
      (stepped : Trader.step true ins s.trader a = .ok trader)
      (silent : ∀ index, trader.ordersAt index = s.trader.ordersAt index) :
      Step ins s (.trader a) { s with trader }
  /-- An indicator thread raises an order, and begins to place it. -/
  | raise (index : Nat) (trader : Trader) (order : LimitOrder) (free : s.inserting index = none)
      (stepped : Trader.step true ins s.trader (.decide index) = .ok trader)
      (raised : ∀ other, trader.ordersAt other =
        s.trader.ordersAt other ++ if other = index then [order] else []) :
      Step ins s (.trader (.decide index)) ({ s with trader }.limitOrderInsert index order)
  /-- A call works on the counters. -/
  | access (index : Nat) (code : Int) (call : OrderInsert) (under : s.inserting index = some call)
      (early : ∀ request, call ≠ .reqOrderInsert request) :
      Step ins s (.insert index code)
        { s with
          login := { s.login with td := (s.login.td.accessNext call).1 }
          inserting := Function.update s.inserting index (some (s.login.td.accessNext call).2) }
  | order (index : Nat) (code : Int) (request : OrderRequest) (created : s.tdApi = true)
      (under : s.inserting index = some (.reqOrderInsert request)) :
      Step ins s (.insert index code)
        { s with
          inserting := Function.update s.inserting index none
          wire := s.wire ++ [.order index request code] }

private theorem stepTrader_step {a : TraderAction} (other : a ≠ .main)
    (fed : ∀ tick, a = .append tick → s.md.mdApi = true)
    (free : ∀ index, a = .decide index → s.inserting index = none)
    (h : s.stepTrader ins a = .ok t) :
    Step ins s (.trader a) t := by
  simp only [stepTrader] at h
  cases stepped : Trader.step true ins s.trader a with
  | error e => simp [stepped] at h
  | ok trader =>
      simp only [stepped] at h
      obtain ⟨none, silent⟩ | ⟨index, order, rfl, one, raised⟩ := raisedBy_cases stepped
      · rw [none] at h
        cases h
        exact .trader a trader other fed stepped silent
      · rw [one] at h
        cases h
        exact .raise index trader order (free index rfl) stepped raised

private theorem requestOrderInsert_step {index : Nat} {code : Int}
    (h : s.requestOrderInsert index code = .ok t) : Step ins s (.insert index code) t := by
  simp only [requestOrderInsert] at h
  cases under : s.inserting index with
  | none =>
      simp only [under] at h
      cases h
      exact .idle _
  | some call =>
      cases call with
      | reqOrderInsert request =>
          simp only [under] at h
          split_ifs at h with created
          cases h
          exact .order index code request created under
      | _ =>
          simp only [under] at h
          cases h
          exact .access index code _ under (by simp)

private theorem initialTrader_step {reply : Reply} (h : s.initialTrader ins reply = .ok t) :
    Step ins s (.main reply) t := by
  simp only [initialTrader] at h
  split at h
  · rename_i here
    split at h
    · cases h
    · cases h
      exact .connectRedis reply _ here
  · cases h
    exact .initialMdManager reply ‹_›
  · cases h
    exact .createMdApi reply ‹_›
  · rename_i here
    split_ifs at h with none
    · cases h
      exact .noInstruments reply here (List.length_eq_zero_iff.mp none)
    · cases h
      exact .instruments reply here fun empty => none (by rw [empty]; rfl)
  · rename_i here
    split_ifs at h with ready
    · cases h
      exact .ready reply here ready
    · cases h
      exact .idle _
  · rename_i here
    simp only [CMdSpi.subscribeInstruments] at h
    cases ready : s.md.isReadySubscribe with
    | true =>
        simp only [ready, ↓reduceIte, Bool.and_true, List.map_cons, List.map_nil] at h
        cases h
        exact .subscribeInstruments reply here ready
    | false =>
        simp only [ready, Bool.false_eq_true, ↓reduceIte, Bool.and_false, List.map_nil,
          List.append_nil] at h
        cases h
        exact .notSubscribed reply here ready
  · cases h
    exact .initialTdManager reply ‹_›
  · rename_i here
    simp only [executeLoginConfirm] at h
    split at h
    · cases h
      exact .callerReturns reply here _ ‹_›
    · cases h
      exact .caller reply here ‹_›
  · cases h
    exact .idle _

theorem step_cases {a : LiveAction} (h : step ins s a = .ok t) : Step ins s a t := by
  cases a with
  | main reply => exact initialTrader_step h
  | mdConnected =>
      simp only [step] at h
      split_ifs at h with created
      · cases h
        exact .mdConnected created
      · cases h
        exact .idle _
  | mdDisconnected =>
      simp only [step] at h
      split_ifs at h with created
      · cases h
        exact .mdDisconnected created
      · cases h
        exact .idle _
  | mdLogin rspInfo =>
      simp only [step] at h
      split_ifs at h with created
      · cases rspInfo with
        | none => cases h
        | some info =>
            simp only [CMdSpi.onRspUserLogin] at h
            split_ifs at h with accepted
            · cases h
              exact .mdLogin info created accepted
      · cases h
        exact .idle _
  | tdConnected =>
      simp only [step] at h
      split_ifs at h with created
      · cases h
        exact .tdConnected created
      · cases h
        exact .idle _
  | tdDisconnected =>
      simp only [step] at h
      split_ifs at h with created
      · cases h
        exact .tdDisconnected created
      · cases h
        exact .idle _
  | tdAnswer a =>
      simp only [step] at h
      split_ifs at h with created
      · cases h
        exact .tdAnswer a created
      · cases h
        exact .idle _
  | trader a =>
      cases a with
      | main =>
          cases h
          exact .idle _
      | append tick =>
          simp only [step] at h
          split_ifs at h with created
          · exact stepTrader_step (by simp) (fun _ _ => created) (by simp) h
          · cases h
            exact .idle _
      | decide index =>
          simp only [step] at h
          cases under : s.inserting index with
          | some call =>
              simp only [under] at h
              cases h
              exact .idle _
          | none =>
              simp only [under] at h
              refine stepTrader_step (by simp) (by simp) ?_ h
              rintro _ ⟨⟩
              exact under
      | _ => exact stepTrader_step (by simp) (by simp) (by simp) h
  | insert index code => exact requestOrderInsert_step h

end LiveTrader

end CtpTrade
