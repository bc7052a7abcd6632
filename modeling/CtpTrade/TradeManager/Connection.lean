import CtpTrade.Library.Trace
import CtpTrade.TradeManager.FrontEnd

/-!
# The start-up protocol of the trader

In any interleaving of the main thread with the callbacks of the two interfaces and
the threads of the strategies: `initial_trader` makes its requests once and in one
order, each after the answer it waits for, and a connection that is lost is not
subscribed again. Its result is the conjunction of the results of its parts.
-/

namespace CtpTrade

/-- The requests of `initial_trader`, without their numbers, which depend on what else
the interfaces are asked for. -/
inductive MainRequest where
  | subscribeMarketData (neededIns : List StdString) (insCount : Nat)
  | userLogin (field : ReqUserLoginField)
  | settlementInfoConfirm (field : SettlementInfoConfirmField)
  deriving DecidableEq

def TdRequest.mainRequest : TdRequest → MainRequest
  | .userLogin field _ => .userLogin field
  | .settlementInfoConfirm field _ => .settlementInfoConfirm field

def TdRequest.number : TdRequest → Int
  | .userLogin _ requestId => requestId
  | .settlementInfoConfirm _ requestId => requestId

def LoginEvent.mainRequest : LoginEvent → Option MainRequest
  | .requested request => some request.mainRequest
  | .answered _ => none

/-- The account of the constructor of `CTdTradeSpi` in the two requests. -/
def accountLogin : MainRequest := .userLogin
  { brokerID := strncpyS 11 "9999".toList
    userID := strncpyS 16 "057131".toList
    password := strncpyS 41 "1998two".toList }

def accountConfirm : MainRequest := .settlementInfoConfirm
  { brokerID := strncpyS 11 "9999".toList, investorID := strncpyS 13 "057131".toList }

/-- The account is the one of the defaults. Nothing in the program changes broker, user
or password. -/
structure CTdTradeSpi.SameAccount (td : CTdTradeSpi) : Prop where
  brokerId : td.tdParams.brokerId = defaultTdParams.brokerId
  userId : td.tdParams.userId = defaultTdParams.userId
  passWord : td.tdParams.passWord = defaultTdParams.passWord

namespace CTdTradeSpi

variable {td : CTdTradeSpi}

/-- An answer only moves the flag of the waits and what the login has brought. -/
theorem deliver_frame (td : CTdTradeSpi) (a : BrokerAnswer) :
    ∃ tdEvent tdParams, td.deliver a = { td with tdEvent, tdParams } ∧
      tdParams.brokerId = td.tdParams.brokerId ∧ tdParams.userId = td.tdParams.userId ∧
      tdParams.passWord = td.tdParams.passWord := by
  cases a with
  | rspUserLogin field info id last =>
      simp only [deliver, onRspUserLogin]
      split
      · split_ifs
        · exact ⟨_, _, rfl, rfl, rfl, rfl⟩
        · cases info <;> exact ⟨_, _, rfl, rfl, rfl, rfl⟩
      · cases info <;> exact ⟨_, _, rfl, rfl, rfl, rfl⟩
  | rspSettlementInfoConfirm field info id last =>
      simp only [deliver, onRspSettlementInfoConfirm]
      split_ifs
      · exact ⟨_, _, rfl, rfl, rfl, rfl⟩
      · cases info <;> exact ⟨_, _, rfl, rfl, rfl, rfl⟩

theorem SameAccount.deliver (same : td.SameAccount) (a : BrokerAnswer) :
    (td.deliver a).SameAccount := by
  obtain ⟨event, params, made, broker, user, pass⟩ := td.deliver_frame a
  rw [made]
  exact ⟨broker.trans same.brokerId, user.trans same.userId, pass.trans same.passWord⟩

theorem SameAccount.requestUserLogin (same : td.SameAccount) :
    td.requestUserLogin.2.mainRequest = accountLogin := by
  simp only [CTdTradeSpi.requestUserLogin, TdRequest.mainRequest, same.brokerId, same.userId,
    same.passWord]
  decide

theorem SameAccount.requestSettleConfirm (same : td.SameAccount) :
    td.requestSettleConfirm.2.mainRequest = accountConfirm := by
  simp only [CTdTradeSpi.requestSettleConfirm, TdRequest.mainRequest, same.brokerId, same.userId]
  decide

end CTdTradeSpi

namespace LoginSystem

/-- The requests of the handshake. -/
def requests (s : LoginSystem) : List MainRequest := s.events.filterMap LoginEvent.mainRequest

/-- What has been sent, and what has been waited for, by where the caller is in
`execute_login_confirm`. Both requests carry the account, the second one is only sent
behind a success, and the loop returns zero only when both have gone out. -/
structure Handshake (s : LoginSystem) : Prop where
  account : s.td.SameAccount
  sent : match s.pc with
    | .poll | .requestUserLogin => s.excRet = 0 ∧ s.requests = []
    | .waitLogin => s.excRet = 0 ∧ s.requests = [accountLogin]
    | .requestSettleConfirm =>
      s.excRet = 0 ∧ s.requests = [accountLogin] ∧ s.td.tdEvent.readyFlag = true
    | .waitSettle =>
      s.excRet = 0 ∧ s.requests = [accountLogin, accountConfirm] ∧
        s.td.tdEvent.readyFlag = true
    | .returned excRet =>
      (excRet = 0 → s.requests = [accountLogin, accountConfirm] ∧
        s.td.tdEvent.readyFlag = true) ∧ s.requests <+: [accountLogin, accountConfirm]
  /-- The flag of the waits is set by a success. -/
  ready : s.td.tdEvent.readyFlag = true → ∃ a, .answered a ∈ s.events ∧ a.isSuccess = true

theorem handshake_start : Handshake {} where
  account := ⟨rfl, rfl, rfl⟩
  sent := ⟨rfl, rfl⟩
  ready h := by cases h

variable {s : LoginSystem}

theorem handshake_answer (hs : s.Handshake) (a : BrokerAnswer) :
    (s.next (.answer a)).Handshake := by
  have same : (s.next (.answer a)).requests = s.requests := by
    simp [requests, next, LoginEvent.mainRequest]
  have flag : (s.next (.answer a)).td.tdEvent.readyFlag =
      (s.td.tdEvent.readyFlag || a.isSuccess) := s.td.deliver_readyFlag a
  refine ⟨hs.account.deliver a, ?_, ?_⟩
  · have sent := hs.sent
    have pc : (s.next (.answer a)).pc = s.pc := rfl
    have ret : (s.next (.answer a)).excRet = s.excRet := rfl
    rw [pc, ret, same, flag]
    cases h : s.pc with
    | requestSettleConfirm =>
        rw [h] at sent
        exact ⟨sent.1, sent.2.1, by rw [sent.2.2]; rfl⟩
    | waitSettle =>
        rw [h] at sent
        exact ⟨sent.1, sent.2.1, by rw [sent.2.2]; rfl⟩
    | returned excRet =>
        rw [h] at sent
        refine ⟨fun zero => ⟨(sent.1 zero).1, ?_⟩, sent.2⟩
        rw [(sent.1 zero).2]
        rfl
    | _ =>
        rw [h] at sent
        exact sent
  · rw [flag, Bool.or_eq_true]
    rintro (before | success)
    · obtain ⟨b, mem, hb⟩ := hs.ready before
      exact ⟨b, List.mem_append_left _ mem, hb⟩
    · exact ⟨a, List.mem_append_right _ (List.mem_singleton_self _), success⟩

private theorem filterMap_requested (events : List LoginEvent) (request : TdRequest) :
    (events ++ [LoginEvent.requested request]).filterMap LoginEvent.mainRequest =
      events.filterMap LoginEvent.mainRequest ++ [request.mainRequest] := by
  simp [LoginEvent.mainRequest]

private theorem ready_of_events (hs : s.Handshake) {t : LoginSystem}
    (flag : t.td.tdEvent.readyFlag = s.td.tdEvent.readyFlag) (more : s.events ⊆ t.events) :
    t.td.tdEvent.readyFlag = true → ∃ a, .answered a ∈ t.events ∧ a.isSuccess = true := by
  rw [flag]
  intro ready
  obtain ⟨a, mem, success⟩ := hs.ready ready
  exact ⟨a, more mem, success⟩

theorem handshake_caller (hs : s.Handshake) (code : Int) :
    (s.next (.caller code)).Handshake := by
  obtain ⟨account, sent, -⟩ := id hs
  simp only [next, executeLoginConfirm]
  cases h : s.pc with
  | poll =>
      rw [h] at sent
      simp only
      split_ifs
      · exact ⟨account, sent, hs.ready⟩
      · exact hs
  | requestUserLogin =>
      rw [h] at sent
      have login := account.requestUserLogin
      have requests : (s.events ++ [LoginEvent.requested s.td.requestUserLogin.2]).filterMap
          LoginEvent.mainRequest = [accountLogin] := by
        rw [filterMap_requested, login]
        exact congrArg (· ++ _) sent.2
      refine ⟨⟨account.brokerId, account.userId, account.passWord⟩, ?_,
        ready_of_events hs rfl (List.subset_append_left _ _)⟩
      simp only
      split_ifs with accepted
      · exact ⟨accepted.symm, requests⟩
      · refine ⟨fun zero => absurd zero.symm accepted, ?_⟩
        simp [LoginSystem.requests, requests]
  | waitLogin =>
      rw [h] at sent
      simp only
      split_ifs with flag
      · exact ⟨account, ⟨sent.1, sent.2, flag⟩, hs.ready⟩
      · exact hs
  | requestSettleConfirm =>
      rw [h] at sent
      obtain ⟨-, before, flag⟩ := sent
      have confirm := account.requestSettleConfirm
      have requests : (s.events ++ [LoginEvent.requested s.td.requestSettleConfirm.2]).filterMap
          LoginEvent.mainRequest = [accountLogin, accountConfirm] := by
        rw [filterMap_requested, confirm]
        exact congrArg (· ++ _) before
      refine ⟨⟨account.brokerId, account.userId, account.passWord⟩, ?_,
        ready_of_events hs rfl (List.subset_append_left _ _)⟩
      simp only
      split_ifs with accepted
      · exact ⟨accepted.symm, requests, flag⟩
      · refine ⟨fun zero => absurd zero.symm accepted, ?_⟩
        simp [LoginSystem.requests, requests]
  | waitSettle =>
      rw [h] at sent
      simp only
      split_ifs with flag
      · refine ⟨account, ⟨fun _ => ⟨sent.2.1, flag⟩, ?_⟩, hs.ready⟩
        exact ⟨[], (List.append_nil _).trans sent.2.1⟩
      · exact hs
  | returned excRet => exact hs

theorem handshake_next (hs : s.Handshake) (a : LoginAction) : (s.next a).Handshake := by
  cases a with
  | connected =>
      exact ⟨⟨hs.account.brokerId, hs.account.userId, hs.account.passWord⟩, hs.sent, hs.ready⟩
  | disconnected =>
      exact ⟨⟨hs.account.brokerId, hs.account.userId, hs.account.passWord⟩, hs.sent, hs.ready⟩
  | answer a => exact handshake_answer hs a
  | caller code => exact handshake_caller hs code

/-- What a step puts on the wire, and what it does to the trade interface. -/
theorem next_events (s : LoginSystem) (a : LoginAction) :
    (s.next a).events = s.events ∧ (s.next a).td.requestId = s.td.requestId ∧
        (s.next a).td.tdParams = s.td.tdParams ∨
      (∃ b, (s.next a).events = s.events ++ [.answered b] ∧ (s.next a).td = s.td.deliver b) ∨
      ∃ request : TdRequest, (s.next a).events = s.events ++ [.requested request] ∧
        request.number = s.td.requestId ∧ (s.next a).td.requestId = s.td.requestId + 1 ∧
        (s.next a).td.tdParams = s.td.tdParams ∧
        (request.isSettlementInfoConfirm = true → s.pc = .requestSettleConfirm) := by
  cases a with
  | connected => exact .inl ⟨rfl, rfl, rfl⟩
  | disconnected => exact .inl ⟨rfl, rfl, rfl⟩
  | answer b => exact .inr (.inl ⟨b, rfl, rfl⟩)
  | caller code =>
      simp only [next, executeLoginConfirm]
      cases s.pc with
      | poll => split_ifs <;> exact .inl ⟨rfl, rfl, rfl⟩
      | requestUserLogin =>
          exact .inr (.inr
            ⟨_, rfl, rfl, rfl, rfl, fun confirm => absurd confirm Bool.false_ne_true⟩)
      | waitLogin => split_ifs <;> exact .inl ⟨rfl, rfl, rfl⟩
      | requestSettleConfirm => exact .inr (.inr ⟨_, rfl, rfl, rfl, rfl, fun _ => rfl⟩)
      | waitSettle => split_ifs <;> exact .inl ⟨rfl, rfl, rfl⟩
      | returned excRet => exact .inl ⟨rfl, rfl, rfl⟩

end LoginSystem

/-- The start-up of the market data module is not begun again. -/
theorem Trader.todo_step {tradeTime : Bool} {ins : List StdString} {s t : Trader}
    {a : TraderAction} (finished : s.mdManager.todo = []) (h : Trader.Step tradeTime ins s a t) :
    t.mdManager.todo = [] := by
  have next (md : MdSystem) (a : MdAction) (h : md.todo = []) : (md.next ins a).todo = [] := by
    cases a <;> simp [MdSystem.next, h]
  cases h with
  | idle => exact finished
  | main => exact next _ _ finished
  | broadcast => exact finished
  | push =>
      rw [stepMd_mdManager]
      exact next _ _ finished
  | thread =>
      rw [stepMd_mdManager]
      exact next _ _ finished
  | notify threadId => rwa [notifyDecisionData_mdManager]
  | decide => exact finished

namespace WireEvent

def mainRequest : WireEvent → Option MainRequest
  | .mdRequest (.subscribeMarketData neededIns insCount) =>
    some (.subscribeMarketData neededIns insCount)
  | .td event => event.mainRequest
  | _ => none

def isSubscription : WireEvent → Bool
  | .mdRequest (.subscribeMarketData ..) => true
  | _ => false

/-- A login that the market data front end has accepted. -/
def isMdLogin : WireEvent → Bool
  | .mdAnswer (some info) => info.errorID = 0
  | _ => false

def isSettlementInfoConfirm : WireEvent → Bool
  | .td (.requested request) => request.isSettlementInfoConfirm
  | _ => false

/-- A successful answer of the trade front end. -/
def isTdSuccess : WireEvent → Bool
  | .td (.answered a) => a.isSuccess
  | _ => false

end WireEvent

namespace LiveTrader

/-- The subscription, once it has been made: where there are instruments. -/
def subscribed (ins : List StdString) : TraderPc → List MainRequest
  | .initialTdManager | .executeLoginConfirm | .returned =>
    if ins = [] then [] else [.subscribeMarketData ins ins.length]
  | _ => []

/-- The invariant between the main thread, the flags of the callbacks and the wire. It
says how far the start-up has come at each statement, that the main thread has sent
exactly the requests of the statements it has passed, and that a subscription and a
confirmation each have a successful login in front of them. -/
structure Protocol (ins : List StdString) (s : LiveTrader) : Prop where
  startUp : MdSystem.StartUp ins s.trader.mdManager
  handshake : s.login.Handshake
  started : s.pc ≠ .connectRedis → s.pc ≠ .initialMdManager → s.trader.mdManager.todo = []
  before : s.pc ≠ .executeLoginConfirm → s.pc ≠ .returned → s.login.pc = .poll
  inside : s.pc ≠ .returned → ∀ excRet, s.login.pc ≠ .returned excRet
  after : s.pc = .returned → ∃ excRet, s.login.pc = .returned excRet
  needed : s.pc = .waitReady ∨ s.pc = .subscribeInstruments → ins ≠ []
  granted : s.pc = .subscribeInstruments → s.md.isReadySubscribe = true
  sent : s.wire.filterMap WireEvent.mainRequest = subscribed ins s.pc ++ s.login.requests
  logged : ∀ event ∈ s.login.events, .td event ∈ s.wire
  ready : s.md.isReadySubscribe = true → ∃ e ∈ s.wire, e.isMdLogin = true
  subscribes : Trace.Preceded (·.isMdLogin) (·.isSubscription) s.wire
  confirms : Trace.Preceded (·.isTdSuccess) (·.isSettlementInfoConfirm) s.wire

variable {ins : List StdString} {s t : LiveTrader}

theorem subscribeInst_eq (hs : s.Protocol ins) (started : s.trader.mdManager.todo = []) :
    s.subscribeInst = ins := by
  have stored := hs.startUp.stored
  rw [started, if_neg List.not_mem_nil] at stored
  exact stored

theorem protocol_start (ins : List StdString) (configs : List StgConfig) :
    (start configs).Protocol ins where
  startUp := MdSystem.startUp_start ins
  handshake := LoginSystem.handshake_start
  started h := absurd rfl h
  before _ _ := rfl
  inside _ _ h := by cases h
  after h := by cases h
  needed h := by cases h <;> contradiction
  granted h := by cases h
  sent := rfl
  logged := by simp [start]
  ready h := by cases h
  subscribes := Trace.each_nil
  confirms := Trace.each_nil

theorem stepLogin_wire {a : LoginAction} {new : List LoginEvent}
    (h : (s.login.next a).events = s.login.events ++ new) :
    (s.stepLogin a).wire = s.wire ++ new.map .td := by
  simp only [stepLogin, h, List.drop_left]

/-- What a step of the handshake keeps on the wire. The confirmation is requested behind
the first wait, which a success has ended. -/
theorem wire_stepLogin (hs : s.Protocol ins) (a : LoginAction) :
    (s.stepLogin a).wire.filterMap WireEvent.mainRequest =
        subscribed ins s.pc ++ (s.login.next a).requests ∧
      (∀ event ∈ (s.login.next a).events, .td event ∈ (s.stepLogin a).wire) ∧
      Trace.Preceded (·.isMdLogin) (·.isSubscription) (s.stepLogin a).wire ∧
      Trace.Preceded (·.isTdSuccess) (·.isSettlementInfoConfirm) (s.stepLogin a).wire := by
  have logged {new : List LoginEvent} (h : (s.login.next a).events = s.login.events ++ new) :
      ∀ event ∈ (s.login.next a).events, .td event ∈ (s.stepLogin a).wire := by
    rw [h, stepLogin_wire h]
    intro event mem
    obtain old | fresh := List.mem_append.mp mem
    · exact List.mem_append_left _ (hs.logged event old)
    · exact List.mem_append_right _ (List.mem_map_of_mem fresh)
  have sent {new : List LoginEvent} (h : (s.login.next a).events = s.login.events ++ new) :
      (s.stepLogin a).wire.filterMap WireEvent.mainRequest =
        subscribed ins s.pc ++ (s.login.next a).requests := by
    have both : (new.map WireEvent.td).filterMap WireEvent.mainRequest =
        new.filterMap LoginEvent.mainRequest := by
      rw [List.filterMap_map]
      rfl
    rw [stepLogin_wire h, List.filterMap_append, hs.sent, both, List.append_assoc,
      LoginSystem.requests, LoginSystem.requests, h, List.filterMap_append]
  obtain ⟨silent, -⟩ | ⟨b, answered, -⟩ | ⟨request, requested, -, -, -, behind⟩ :=
    s.login.next_events a
  · have none : (s.login.next a).events = s.login.events ++ [] := by
      rw [silent, List.append_nil]
    refine ⟨sent none, logged none, ?_, ?_⟩
    · rw [stepLogin_wire none, List.map_nil, List.append_nil]
      exact hs.subscribes
    · rw [stepLogin_wire none, List.map_nil, List.append_nil]
      exact hs.confirms
  · refine ⟨sent answered, logged answered, ?_, ?_⟩
    · rw [stepLogin_wire answered]
      exact Trace.each_concat.mpr ⟨hs.subscribes, fun none => nomatch none⟩
    · rw [stepLogin_wire answered]
      exact Trace.each_concat.mpr ⟨hs.confirms, fun none => nomatch none⟩
  · refine ⟨sent requested, logged requested, ?_, ?_⟩
    · rw [stepLogin_wire requested]
      exact Trace.each_concat.mpr ⟨hs.subscribes, fun none => nomatch none⟩
    · rw [stepLogin_wire requested]
      refine Trace.each_concat.mpr ⟨hs.confirms, fun confirm => ?_⟩
      have handshake := hs.handshake.sent
      rw [behind confirm] at handshake
      obtain ⟨answer, mem, success⟩ := hs.handshake.ready handshake.2.2
      exact ⟨_, hs.logged _ mem, success⟩

/-- A callback of the trade interface leaves the caller where it is. -/
theorem protocol_callback (hs : s.Protocol ins) {a : LoginAction}
    (stays : (s.login.next a).pc = s.login.pc) : (s.stepLogin a).Protocol ins := by
  obtain ⟨sent, logged, subscribes, confirms⟩ := wire_stepLogin hs a
  refine ⟨hs.startUp, LoginSystem.handshake_next hs.handshake a, hs.started, ?_, ?_, ?_,
    hs.needed, hs.granted, sent, logged, ?_, subscribes, confirms⟩
  · exact fun early late => stays.trans (hs.before early late)
  · intro notYet excRet done
    exact hs.inside notYet excRet (stays.symm.trans done)
  · intro returned
    obtain ⟨excRet, done⟩ := hs.after returned
    exact ⟨excRet, stays.trans done⟩
  · intro ready
    obtain ⟨e, mem, login⟩ := hs.ready ready
    exact ⟨e, List.mem_append_left _ mem, login⟩

/-- A step of the caller, which may return from the handshake. -/
theorem protocol_caller (hs : s.Protocol ins) (here : s.pc = .executeLoginConfirm) (code : Int)
    {pc : TraderPc} (tradeRet : Bool)
    (next : pc = .executeLoginConfirm ∧
        (∀ excRet, (s.login.next (.caller code)).pc ≠ .returned excRet) ∨
      pc = .returned ∧ ∃ excRet, (s.login.next (.caller code)).pc = .returned excRet) :
    ({ s.stepLogin (.caller code) with tradeRet, pc } : LiveTrader).Protocol ins := by
  obtain ⟨sent, logged, subscribes, confirms⟩ := wire_stepLogin hs (.caller code)
  have finished : s.trader.mdManager.todo = [] := hs.started (by simp [here]) (by simp [here])
  have handshake := LoginSystem.handshake_next hs.handshake (.caller code)
  rw [here] at sent
  have ready (up : s.md.isReadySubscribe = true) :
      ∃ e ∈ (s.stepLogin (.caller code)).wire, e.isMdLogin = true := by
    obtain ⟨e, mem, login⟩ := hs.ready up
    exact ⟨e, List.mem_append_left _ mem, login⟩
  obtain ⟨rfl, inside⟩ | ⟨rfl, returned⟩ := next
  · exact ⟨hs.startUp, handshake, fun _ _ => finished, fun h => absurd rfl h, fun _ => inside,
      by simp, by simp, by simp, sent, logged, ready, subscribes, confirms⟩
  · exact ⟨hs.startUp, handshake, fun _ _ => finished, fun _ h => absurd rfl h,
      fun h => absurd rfl h, fun _ => returned, by simp, by simp, sent, logged, ready, subscribes,
      confirms⟩

/-- The main thread goes on to another statement in front of the handshake. -/
theorem protocol_goto (hs : s.Protocol ins) (waiting : s.login.pc = .poll) {pc : TraderPc}
    {md : CMdSpi} (redis : Option Int) (tradeRet tdApi : Bool)
    (flag : md.isReadySubscribe = s.md.isReadySubscribe)
    (started : pc ≠ .connectRedis → pc ≠ .initialMdManager → s.trader.mdManager.todo = [])
    (inside : pc ≠ .returned) (needed : pc = .waitReady ∨ pc = .subscribeInstruments → ins ≠ [])
    (granted : pc = .subscribeInstruments → s.md.isReadySubscribe = true)
    (same : subscribed ins pc = subscribed ins s.pc) :
    ({ s with redis, tradeRet, md, tdApi, pc } : LiveTrader).Protocol ins :=
  { hs with
    started
    before := fun _ _ => waiting
    inside := by simp [waiting]
    after := fun returned => absurd returned inside
    needed
    granted := fun here => flag.trans (granted here)
    sent := by rw [same]; exact hs.sent
    ready := fun up => hs.ready (flag.symm.trans up) }

/-- The market data module goes on with its start-up or its work. -/
theorem protocol_manager (hs : s.Protocol ins) {trader : Trader}
    (startUp : MdSystem.StartUp ins trader.mdManager)
    (started : s.pc ≠ .connectRedis → s.pc ≠ .initialMdManager → trader.mdManager.todo = []) :
    ({ s with trader } : LiveTrader).Protocol ins :=
  { hs with startUp, started }

/-- An event that is no request of the main thread. -/
theorem protocol_event (hs : s.Protocol ins) {e : WireEvent} {md : CMdSpi}
    (other : e.mainRequest = none) (notSubscribed : e.isSubscription ≠ true)
    (notConfirmed : e.isSettlementInfoConfirm ≠ true)
    (ready : md.isReadySubscribe = true → ∃ e' ∈ s.wire ++ [e], e'.isMdLogin = true)
    (granted : s.md.isReadySubscribe = true → md.isReadySubscribe = true) :
    ({ s with md, wire := s.wire ++ [e] } : LiveTrader).Protocol ins :=
  { hs with
    granted := fun here => granted (hs.granted here)
    sent := by simpa [other] using hs.sent
    logged := fun event mem => List.mem_append_left _ (hs.logged event mem)
    ready
    subscribes := Trace.each_concat.mpr ⟨hs.subscribes, fun h => absurd h notSubscribed⟩
    confirms := Trace.each_concat.mpr ⟨hs.confirms, fun h => absurd h notConfirmed⟩ }

/-- A call that places an order only works on the counters. -/
theorem protocol_access (hs : s.Protocol ins) (index : Nat) (call : OrderInsert) :
    ({ s with
      login := { s.login with td := (s.login.td.accessNext call).1 }
      inserting := Function.update s.inserting index (some (s.login.td.accessNext call).2) } :
      LiveTrader).Protocol ins := by
  obtain ⟨requestId, orderRef, counters⟩ := s.login.td.accessNext_frame call
  rw [counters]
  obtain ⟨account, sent, ready⟩ := hs.handshake
  exact {
    hs with
    handshake := ⟨⟨account.brokerId, account.userId, account.passWord⟩, sent, ready⟩ }

theorem protocol_step (hs : s.Protocol ins) {a : LiveAction} (h : Step ins s a t) :
    t.Protocol ins := by
  have early (h₁ : s.pc ≠ .executeLoginConfirm) (h₂ : s.pc ≠ .returned) : s.login.pc = .poll :=
    hs.before h₁ h₂
  cases h with
  | idle => exact hs
  | connectRedis reply err here =>
      exact protocol_goto hs (early (by simp [here]) (by simp [here])) _ _ _ rfl (by simp)
        (by simp) (by simp) (by simp) (by simp [subscribed, here])
  | initialMdManager reply here =>
      have waiting := early (by simp [here]) (by simp [here])
      let trader : Trader := { s.trader with mdManager := s.trader.mdManager.next ins .main }
      have startUp : MdSystem.StartUp ins trader.mdManager := MdSystem.startUp_next hs.startUp .main
      have moved := protocol_manager hs startUp fun _ later => absurd here later
      refine protocol_goto moved waiting _ _ _ rfl ?_ ?_ ?_ ?_ ?_
      · intro _ further
        by_contra some
        exact further (if_neg some)
      · split_ifs <;> simp
      · split_ifs <;> simp
      · split_ifs <;> simp
      · split_ifs <;> simp [subscribed, here]
  | createMdApi reply here =>
      have finished := hs.started (by simp [here]) (by simp [here])
      exact protocol_goto hs (early (by simp [here]) (by simp [here])) _ _ _ rfl
        (fun _ _ => finished) (by simp) (by simp) (by simp) (by simp [subscribed, here])
  | noInstruments reply here none =>
      have finished := hs.started (by simp [here]) (by simp [here])
      have empty : ins = [] := by rw [← subscribeInst_eq hs finished, none]
      exact protocol_goto hs (early (by simp [here]) (by simp [here])) _ _ _ rfl
        (fun _ _ => finished) (by simp) (by simp) (by simp) (by simp [subscribed, here, empty])
  | instruments reply here some =>
      have finished := hs.started (by simp [here]) (by simp [here])
      rw [subscribeInst_eq hs finished] at some
      exact protocol_goto hs (early (by simp [here]) (by simp [here])) _ _ _ rfl
        (fun _ _ => finished) (by simp) (fun _ => some) (by simp) (by simp [subscribed, here])
  | ready reply here ready =>
      have finished := hs.started (by simp [here]) (by simp [here])
      exact protocol_goto hs (early (by simp [here]) (by simp [here])) _ _ _ rfl
        (fun _ _ => finished) (by simp) (fun _ => hs.needed (.inl here)) (fun _ => ready)
        (by simp [subscribed, here])
  | subscribeInstruments reply here ready =>
      have finished := hs.started (by simp [here]) (by simp [here])
      have some := hs.needed (.inr here)
      have waiting := early (by simp [here]) (by simp [here])
      have quiet : s.login.requests = [] := by
        have handshake := hs.handshake.sent
        rw [waiting] at handshake
        exact handshake.2
      have sent := hs.sent
      rw [quiet, here] at sent
      rw [subscribeInst_eq hs finished]
      refine ⟨hs.startUp, hs.handshake, fun _ _ => finished, fun _ _ => waiting, ?_, by simp,
        by simp, by simp, ?_, ?_, ?_, ?_, ?_⟩
      · simp [waiting]
      · rw [List.filterMap_append, sent, quiet]
        simp [subscribed, some, WireEvent.mainRequest]
      · exact fun event mem => List.mem_append_left _ (hs.logged event mem)
      · intro up
        obtain ⟨e, mem, login⟩ := hs.ready up
        exact ⟨e, List.mem_append_left _ mem, login⟩
      · exact Trace.each_concat.mpr ⟨hs.subscribes, fun _ => hs.ready ready⟩
      · exact Trace.each_concat.mpr ⟨hs.confirms, fun none => nomatch none⟩
  | notSubscribed reply here ready =>
      rw [hs.granted here] at ready
      cases ready
  | initialTdManager reply here =>
      have finished := hs.started (by simp [here]) (by simp [here])
      exact protocol_goto hs (early (by simp [here]) (by simp [here])) _ _ _ rfl
        (fun _ _ => finished) (by simp) (by simp) (by simp) (by simp [subscribed, here])
  | caller reply here inside =>
      have next := protocol_caller hs here reply.code s.tradeRet (.inl ⟨here, inside⟩)
      exact next
  | callerReturns reply here excRet returns =>
      exact protocol_caller hs here reply.code _ (.inr ⟨rfl, excRet, returns⟩)
  | mdConnected created =>
      refine protocol_event hs rfl (fun none => nomatch none) (fun none => nomatch none) ?_ id
      intro up
      obtain ⟨e, mem, login⟩ := hs.ready up
      exact ⟨e, List.mem_append_left _ mem, login⟩
  | mdDisconnected created => exact { hs with }
  | mdLogin info created accepted =>
      refine protocol_event hs rfl (fun none => nomatch none) (fun none => nomatch none) ?_
        fun _ => rfl
      exact fun _ =>
        ⟨_, List.mem_append_right _ (List.mem_singleton_self _), decide_eq_true accepted⟩
  | tdConnected created => exact protocol_callback hs rfl
  | tdDisconnected created => exact protocol_callback hs rfl
  | tdAnswer a created => exact protocol_callback hs rfl
  | trader a trader other fed stepped silent =>
      exact protocol_manager hs (Trader.startUp_step hs.startUp (Trader.step_cases stepped))
        fun later further => Trader.todo_step (hs.started later further)
          (Trader.step_cases stepped)
  | raise index trader order free stepped raised =>
      have moved := protocol_manager hs
        (Trader.startUp_step hs.startUp (Trader.step_cases stepped)) fun later further =>
          Trader.todo_step (hs.started later further) (Trader.step_cases stepped)
      exact { moved with }
  | access index code call under early => exact protocol_access hs index call
  | order index code request created under =>
      have sent : ({ s with wire := s.wire ++ [.order index request code] } :
          LiveTrader).Protocol ins := by
        refine protocol_event hs rfl (fun none => nomatch none) (fun none => nomatch none) ?_ id
        intro up
        obtain ⟨e, mem, login⟩ := hs.ready up
        exact ⟨e, List.mem_append_left _ mem, login⟩
      exact { sent with }

theorem protocol_run {configs : List StgConfig} {acts : List LiveAction}
    (h : run ins configs acts = .ok s) : s.Protocol ins :=
  Execution.run_invariant (Protocol ins)
    (fun _ _ _ hs hstep => protocol_step hs (step_cases hstep)) (protocol_start ins configs) h

/-- The conjunction of the results so far. -/
def verdict (ins : List StdString) (s : LiveTrader) : Bool :=
  let redis := s.redis = some 0
  let subscribed := redis ∧ s.md.mdApi = true ∧ ins ≠ []
  match s.pc with
  | .connectRedis => true
  | .initialMdManager | .createMdApi => redis
  | .subscribeMarket | .waitReady | .subscribeInstruments => redis ∧ s.md.mdApi = true
  | .initialTdManager => subscribed
  | .executeLoginConfirm => subscribed ∧ s.tdApi = true
  | .returned => subscribed ∧ s.tdApi = true ∧ s.login.pc = .returned 0

/-- The verdict only looks at the result of the handshake once that is there. -/
theorem verdict_congr (pc : t.pc = s.pc) (redis : t.redis = s.redis)
    (md : t.md.mdApi = s.md.mdApi) (td : t.tdApi = s.tdApi)
    (login : s.pc = .returned → t.login.pc = s.login.pc) : t.verdict ins = s.verdict ins := by
  simp only [verdict, pc, redis, md, td]
  cases h : s.pc with
  | returned => simp only [login h]
  | _ => rfl

theorem verdict_step (hs : s.Protocol ins) (soFar : s.tradeRet = s.verdict ins) {a : LiveAction}
    (h : Step ins s a t) : t.tradeRet = t.verdict ins := by
  have finished (h₁ : s.pc ≠ .connectRedis) (h₂ : s.pc ≠ .initialMdManager) :
      s.subscribeInst = ins := subscribeInst_eq hs (hs.started h₁ h₂)
  have kept (pc : t.pc = s.pc) (redis : t.redis = s.redis) (md : t.md.mdApi = s.md.mdApi)
      (td : t.tdApi = s.tdApi) (login : s.pc = .returned → t.login.pc = s.login.pc)
      (ret : t.tradeRet = s.tradeRet) : t.tradeRet = t.verdict ins := by
    rw [ret, soFar, verdict_congr pc redis md td login]
  cases h with
  | idle => exact soFar
  | connectRedis reply err here => simp [soFar, verdict, here]
  | initialMdManager reply here =>
      rw [soFar]
      simp only [verdict, here]
      split_ifs <;> rfl
  | createMdApi reply here => simp [soFar, verdict, here]
  | noInstruments reply here none =>
      rw [finished (by simp [here]) (by simp [here])] at none
      simp [verdict, none]
  | instruments reply here some => simp [soFar, verdict, here]
  | ready reply here ready => simp [soFar, verdict, here]
  | subscribeInstruments reply here ready =>
      simp [soFar, verdict, here, hs.needed (.inr here)]
  | notSubscribed reply here ready =>
      rw [hs.granted here] at ready
      cases ready
  | initialTdManager reply here => simp [soFar, verdict, here, Bool.and_assoc]
  | caller reply here inside => exact kept rfl rfl rfl rfl (by simp [here]) rfl
  | callerReturns reply here excRet returns =>
      simp [soFar, verdict, here, stepLogin, returns, Bool.and_assoc]
  | mdConnected created => exact kept rfl rfl rfl rfl (fun _ => rfl) rfl
  | mdDisconnected created => exact kept rfl rfl rfl rfl (fun _ => rfl) rfl
  | mdLogin info created accepted => exact kept rfl rfl rfl rfl (fun _ => rfl) rfl
  | tdConnected created => exact kept rfl rfl rfl rfl (fun _ => rfl) rfl
  | tdDisconnected created => exact kept rfl rfl rfl rfl (fun _ => rfl) rfl
  | tdAnswer a created => exact kept rfl rfl rfl rfl (fun _ => rfl) rfl
  | trader a trader other fed stepped silent => exact kept rfl rfl rfl rfl (fun _ => rfl) rfl
  | raise index trader order free stepped raised =>
      exact kept rfl rfl rfl rfl (fun _ => rfl) rfl
  | access index code call under early => exact kept rfl rfl rfl rfl (fun _ => rfl) rfl
  | order index code request created under => exact kept rfl rfl rfl rfl (fun _ => rfl) rfl

theorem verdict_run {configs : List StgConfig} {acts : List LiveAction}
    (h : run ins configs acts = .ok s) : s.tradeRet = s.verdict ins := by
  refine (Execution.run_invariant (fun s => s.Protocol ins ∧ s.tradeRet = s.verdict ins) ?_
    ⟨protocol_start ins configs, rfl⟩ h).2
  exact fun _ _ _ hs hstep => ⟨protocol_step hs.1 (step_cases hstep),
    verdict_step hs.1 hs.2 (step_cases hstep)⟩

/-- The requests of a start-up that comes to its end, in their order. -/
def startUpRequests (ins : List StdString) : List MainRequest :=
  (if ins = [] then [] else [.subscribeMarketData ins ins.length]) ++
    [accountLogin, accountConfirm]

theorem Protocol.sent_leading (hs : s.Protocol ins) :
    s.wire.filterMap WireEvent.mainRequest <+: startUpRequests ins := by
  have td : s.login.requests <+: [accountLogin, accountConfirm] := by
    have sent := hs.handshake.sent
    cases hl : s.login.pc with
    | returned excRet =>
        rw [hl] at sent
        exact sent.2
    | _ =>
        simp only [hl] at sent
        simp [sent.2]
  have handshake := hs.handshake.sent
  have sent := hs.sent
  cases here : s.pc with
  | executeLoginConfirm =>
      rw [sent, here]
      exact (List.prefix_append_right_inj _).mpr td
  | returned =>
      rw [sent, here]
      exact (List.prefix_append_right_inj _).mpr td
  | initialTdManager =>
      rw [sent, here]
      exact (List.prefix_append_right_inj _).mpr td
  | _ =>
      have waiting := hs.before (by simp [here]) (by simp [here])
      rw [waiting] at handshake
      rw [sent, here, handshake.2]
      exact List.nil_prefix

end LiveTrader

open LiveTrader

/-- In every run the requests of `initial_trader` are, in order, the leading ones of the
subscription of all instruments, the login and the confirmation, whatever connections
come and go. The subscription is made behind a login that the market data front end has
accepted, and the confirmation behind a success of the trade front end. Where
`initial_trader` returns true, all three have been made. -/
theorem start_up_requests {ins : List StdString} {configs : List StgConfig}
    {acts : List LiveAction} {s : LiveTrader} (h : LiveTrader.run ins configs acts = .ok s) :
    s.wire.filterMap WireEvent.mainRequest <+: startUpRequests ins ∧
      Trace.Preceded (·.isMdLogin) (·.isSubscription) s.wire ∧
      Trace.Preceded (·.isTdSuccess) (·.isSettlementInfoConfirm) s.wire ∧
      (s.pc = .returned → s.tradeRet = true →
        s.redis = some 0 ∧ ins ≠ [] ∧
          s.wire.filterMap WireEvent.mainRequest = startUpRequests ins) := by
  have hs := protocol_run h
  refine ⟨hs.sent_leading, hs.subscribes, hs.confirms, fun returned succeeded => ?_⟩
  have verdict := verdict_run h
  rw [succeeded] at verdict
  simp only [LiveTrader.verdict, returned] at verdict
  obtain ⟨⟨redis, -, some⟩, -, login⟩ := of_decide_eq_true verdict.symm
  refine ⟨redis, some, ?_⟩
  have handshake := hs.handshake.sent
  rw [login] at handshake
  rw [hs.sent, returned, (handshake.1 rfl).1]
  rfl

/-- A start-up without troubles, in which the one success of the trade front end ends both
waits. -/
def startUpActs : List LiveAction :=
  List.replicate 14 (.main {}) ++
    [.mdConnected, .mdLogin (some {}), .main {}, .main {}, .main {}, .tdConnected, .main {},
      .main {}, .tdAnswer loginAnswer, .main {}, .main {}, .main {}]

theorem startUp_run : ∃ s,
    LiveTrader.run CTradeManager.loadAllInterestedIns [] startUpActs = .ok s ∧
      s.pc = .returned ∧ s.tradeRet = true :=
  Execution.exists_of_check (by decide +kernel)

theorem start_up_requests_all : ∃ s,
    LiveTrader.run CTradeManager.loadAllInterestedIns [] startUpActs = .ok s ∧
      s.wire.filterMap WireEvent.mainRequest =
        startUpRequests CTradeManager.loadAllInterestedIns := by
  obtain ⟨s, hrun, returned, succeeded⟩ := startUp_run
  obtain ⟨-, -, -, all⟩ := start_up_requests hrun
  exact ⟨s, hrun, (all returned succeeded).2.2⟩

end CtpTrade
