import CtpTrade.TradeManager.Connection
import CtpTrade.TradeManager.Safety

/-!
# What the strategies place

The trade interface is used by the main thread and by every indicator thread. Whatever
the interleaving, a strategy calls `ReqOrderInsert` once for each order that it raises,
in their order. What the library makes of the call is not looked at, so an order that it
refuses is not placed again.

The two counters of the interface have no lock. As long as nothing else works on them
while a call does, the requests are numbered in the order in which they are made, and the
order references count up from the number of the latest login. The numbers are those of
an `int`, which the model does not let overflow.
-/

namespace CtpTrade

theorem combFlag_fits (flag : Char) : [flag].length < 5 := by simp

/-- `CombOffsetFlag` and `CombHedgeFlag` with their first character set. -/
def combFlag (flag : Char) : CharArray 5 := ⟨[flag], combFlag_fits flag⟩

/-- The order as it is placed, but for its reference. -/
def LimitOrder.inputOrder : LimitOrder → InputOrderField
  | ⟨insID, actionDirect, openFlag, price, quantity⟩ =>
    { brokerID := strncpyS 11 "9999".toList
      instrumentID := strncpyS 31 insID
      userID := strncpyS 16 "057131".toList
      orderPriceType := '2'
      direction := actionDirect
      combOffsetFlag := combFlag openFlag
      combHedgeFlag := combFlag '1'
      limitPrice := price
      volumeTotalOriginal := quantity
      timeCondition := '3'
      volumeCondition := '1'
      contingentCondition := '1'
      forceCloseReason := '0' }

namespace OrderInsert

/-- The order of the call as it is placed, but for its reference. -/
def inputOrder : OrderInsert → InputOrderField
  | .readOrderRef order =>
    { order with
      brokerID := strncpyS 11 "9999".toList
      userID := strncpyS 16 "057131".toList
      orderRef := default }
  | .writeOrderRef order _ => { order with orderRef := default }
  | .readRequestId order => { order with orderRef := default }
  | .writeRequestId request => { request.order with orderRef := default }
  | .reqOrderInsert request => { request.order with orderRef := default }

/-- The call has begun to work on the counters. -/
def begun : OrderInsert → Bool
  | .readOrderRef _ => false
  | _ => true

end OrderInsert

namespace WireEvent

/-- The number of a request to the trade interface. -/
def number : WireEvent → Option Int
  | .td (.requested request) => some request.number
  | .order _ request _ => some request.requestId
  | _ => none

/-- An order of a strategy, without its reference. -/
def orderOf (index : Nat) : WireEvent → Option InputOrderField
  | .order other request _ =>
    if other = index then some { request.order with orderRef := default } else none
  | _ => none

/-- The reference of the next order, behind one more event: a login sets it, and an
order raises it. -/
def nextRef (ref : Int32) : WireEvent → Int32
  | .td (.answered (.rspUserLogin (some field) rspInfo _ true)) =>
    if CTdTradeSpi.isErrorRsp rspInfo then ref else Int32.ofInt (atoi field.maxOrderRef.chars)
  | .order .. => ref + 1
  | _ => ref

/-- An order carries the reference that the events in front of it leave: the one of the
latest login, raised by one for each order since. -/
def Referenced (before : List WireEvent) : WireEvent → Prop
  | .order _ request _ => request.order.orderRef.chars = sprintf012d (before.foldl nextRef 0)
  | _ => True

end WireEvent

namespace LiveTrader

variable {ins : List StdString} {s t : LiveTrader}

/-- The order that the thread of a strategy is placing, if it is in such a call. -/
def underWay (s : LiveTrader) (index : Nat) : List InputOrderField :=
  (s.inserting index).toList.map OrderInsert.inputOrder

/-- The orders that have been handed to the trade interface, together with those whose
calls are under way, are the orders of the strategies, each strategy's in its own order.
No counter is mentioned, so this holds of every interleaving. -/
structure Placing (s : LiveTrader) : Prop where
  account : s.login.td.SameAccount
  orders : ∀ index, s.wire.filterMap (WireEvent.orderOf index) ++ s.underWay index =
    (s.trader.ordersAt index).map LimitOrder.inputOrder

theorem inputOrder_limitOrderInsert (order : LimitOrder) :
    (OrderInsert.readOrderRef (CTdManager.limitOrderInsert order.insID order.actionDirect
      order.openFlag order.price order.quantity)).inputOrder = order.inputOrder := rfl

/-- A step of a call leaves the order that is placed. -/
theorem inputOrder_accessNext {td : CTdTradeSpi} (same : td.SameAccount) (call : OrderInsert) :
    (td.accessNext call).2.inputOrder = call.inputOrder := by
  cases call with
  | readOrderRef order =>
      simp only [CTdTradeSpi.accessNext, OrderInsert.inputOrder, same.brokerId, same.userId,
        InputOrderField.mk.injEq, true_and, and_true]
      decide
  | _ => rfl

theorem SameAccount_of_tdParams {td td' : CTdTradeSpi} (same : td.SameAccount)
    (params : td'.tdParams = td.tdParams) : td'.SameAccount :=
  ⟨params ▸ same.brokerId, params ▸ same.userId, params ▸ same.passWord⟩

theorem placing_start (configs : List StgConfig) : (start configs).Placing where
  account := ⟨rfl, rfl, rfl⟩
  orders index := by
    simp only [start, Trader.start, Trader.ordersAt, List.getElem?_map]
    cases configs[index]? <;> rfl

theorem Placing.congr (hs : s.Placing) (account : t.login.td.SameAccount)
    (inserting : t.inserting = s.inserting) (orders : ∀ index,
      t.wire.filterMap (WireEvent.orderOf index) = s.wire.filterMap (WireEvent.orderOf index))
    (raised : ∀ index, t.trader.ordersAt index = s.trader.ordersAt index) : t.Placing where
  account := account
  orders index := by
    rw [orders, raised, underWay, inserting]
    exact hs.orders index

/-- An event that is no order. -/
theorem filterMap_orderOf {e : WireEvent}
    (other : ∀ index request code, e ≠ .order index request code)
    (wire : List WireEvent) (index : Nat) : (wire ++ [e]).filterMap (WireEvent.orderOf index) =
      wire.filterMap (WireEvent.orderOf index) := by
  have none : e.orderOf index = none := by
    cases e with
    | order index request code => exact absurd rfl (other index request code)
    | _ => rfl
  simp [none]

/-- A step of the handshake. -/
theorem placing_stepLogin (hs : s.Placing) (a : LoginAction) : (s.stepLogin a).Placing := by
  obtain ⟨silent, -, params⟩ | ⟨b, answered, delivered⟩ | ⟨request, requested, -, -, params, -⟩ :=
    s.login.next_events a
  · have none : (s.login.next a).events = s.login.events ++ [] := by
      rw [silent, List.append_nil]
    refine hs.congr (SameAccount_of_tdParams hs.account params) rfl (fun index => ?_) fun _ => rfl
    rw [stepLogin_wire none, List.map_nil, List.append_nil]
  · refine hs.congr ?_ rfl (fun index => ?_) fun _ => rfl
    · change (s.login.next a).td.SameAccount
      rw [delivered]
      exact hs.account.deliver b
    · rw [stepLogin_wire answered, List.map_singleton]
      exact filterMap_orderOf (by simp) _ index
  · refine hs.congr (SameAccount_of_tdParams hs.account params) rfl (fun index => ?_) fun _ => rfl
    rw [stepLogin_wire requested, List.map_singleton]
    exact filterMap_orderOf (by simp) _ index

/-- A strategy that is free raises an order. -/
theorem placing_raise (hs : s.Placing) {index : Nat} {trader : Trader} {order : LimitOrder}
    (free : s.inserting index = none) (raised : ∀ other, trader.ordersAt other =
      s.trader.ordersAt other ++ if other = index then [order] else []) :
    ({ s with trader }.limitOrderInsert index order).Placing := by
  refine ⟨hs.account, fun other => ?_⟩
  have before := hs.orders other
  by_cases same : other = index
  · subst same
    rw [underWay, free] at before
    simp only [limitOrderInsert, underWay, Function.update_self, raised, ↓reduceIte,
      List.map_append, ← before]
    simp [inputOrder_limitOrderInsert]
  · simp only [limitOrderInsert, underWay, Function.update_of_ne same, raised, same, ↓reduceIte,
      List.append_nil]
    exact before

/-- A call goes on. -/
theorem placing_access (hs : s.Placing) {index : Nat} {call : OrderInsert}
    (under : s.inserting index = some call) :
    ({ s with
      login := { s.login with td := (s.login.td.accessNext call).1 }
      inserting := Function.update s.inserting index (some (s.login.td.accessNext call).2) } :
      LiveTrader).Placing := by
  obtain ⟨requestId, orderRef, counters⟩ := s.login.td.accessNext_frame call
  refine ⟨?_, fun other => ?_⟩
  · rw [counters]
    exact ⟨hs.account.brokerId, hs.account.userId, hs.account.passWord⟩
  · have before := hs.orders other
    by_cases same : other = index
    · subst same
      rw [underWay, under] at before
      simp only [underWay, Function.update_self, Option.toList_some, List.map_singleton,
        inputOrder_accessNext hs.account]
      exact before
    · simp only [underWay, Function.update_of_ne same]
      exact before

/-- The call is over, and the order has been placed. -/
theorem placing_order (hs : s.Placing) {index : Nat} (code : Int) {request : OrderRequest}
    (under : s.inserting index = some (.reqOrderInsert request)) :
    ({ s with
      inserting := Function.update s.inserting index none
      wire := s.wire ++ [.order index request code] } : LiveTrader).Placing := by
  refine ⟨hs.account, fun other => ?_⟩
  have before := hs.orders other
  by_cases same : other = index
  · subst same
    rw [underWay, under] at before
    simp only [underWay, Function.update_self, ← before, List.filterMap_append]
    simp [WireEvent.orderOf, OrderInsert.inputOrder]
  · simp only [underWay, Function.update_of_ne same]
    simpa [WireEvent.orderOf, Ne.symm same, underWay] using before

theorem placing_step (hs : s.Placing) {a : LiveAction} (h : Step ins s a t) : t.Placing := by
  -- the market data interface has no part in the orders
  have md {e : WireEvent} (other : ∀ index request code, e ≠ .order index request code)
      (index : Nat) := filterMap_orderOf other s.wire index
  cases h with
  | idle => exact hs
  | connectRedis => exact hs.congr hs.account rfl (fun _ => rfl) fun _ => rfl
  | initialMdManager => exact hs.congr hs.account rfl (fun _ => rfl) fun _ => rfl
  | createMdApi => exact hs.congr hs.account rfl (fun _ => rfl) fun _ => rfl
  | noInstruments => exact hs.congr hs.account rfl (fun _ => rfl) fun _ => rfl
  | instruments => exact hs.congr hs.account rfl (fun _ => rfl) fun _ => rfl
  | ready => exact hs.congr hs.account rfl (fun _ => rfl) fun _ => rfl
  | subscribeInstruments => exact hs.congr hs.account rfl (md (by simp)) fun _ => rfl
  | notSubscribed => exact hs.congr hs.account rfl (fun _ => rfl) fun _ => rfl
  | initialTdManager => exact hs.congr hs.account rfl (fun _ => rfl) fun _ => rfl
  | caller => exact placing_stepLogin hs _
  | callerReturns reply =>
      have called := placing_stepLogin hs (.caller reply.code)
      exact called.congr called.account rfl (fun _ => rfl) fun _ => rfl
  | mdConnected => exact hs.congr hs.account rfl (md (by simp)) fun _ => rfl
  | mdDisconnected => exact hs.congr hs.account rfl (fun _ => rfl) fun _ => rfl
  | mdLogin => exact hs.congr hs.account rfl (md (by simp)) fun _ => rfl
  | tdConnected => exact placing_stepLogin hs _
  | tdDisconnected => exact placing_stepLogin hs _
  | tdAnswer => exact placing_stepLogin hs _
  | trader a trader other fed stepped silent =>
      exact hs.congr hs.account rfl (fun _ => rfl) silent
  | raise index trader order free stepped raised => exact placing_raise hs free raised
  | access index code call under early => exact placing_access hs under
  | order index code request created under => exact placing_order hs code under

theorem placing_run {configs : List StgConfig} {acts : List LiveAction}
    (h : run ins configs acts = .ok s) : s.Placing :=
  Execution.run_invariant Placing (fun _ _ _ hs hstep => placing_step hs (step_cases hstep))
    (placing_start configs) h

/-- A call is that of a strategy which has raised an order. -/
theorem Placing.known (hs : s.Placing) {index : Nat} {call : OrderInsert}
    (under : s.inserting index = some call) : index < s.trader.stgContainer.length := by
  by_contra outside
  have orders := hs.orders index
  have none : s.trader.ordersAt index = [] := by
    rw [Trader.ordersAt, List.getElem?_eq_none (by omega)]
  rw [none, underWay, under] at orders
  simp at orders

/-- The thread of the strategy is between its first access to the counters and the end
of its call. -/
def working (s : LiveTrader) (index : Nat) : Bool := (s.inserting index).any OrderInsert.begun

/-- The condition on a step under which the counters are right: the main thread, the
answers and the other strategies leave the counters alone while a call works on them.
The source has no lock there, so it does not follow from the code. -/
def CallsApart (s : LiveTrader) : LiveAction → Prop
  | .main _ | .tdAnswer _ => ∀ other < s.trader.stgContainer.length, s.working other = false
  | .insert index _ =>
    ∀ other < s.trader.stgContainer.length, other ≠ index → s.working other = false
  | _ => True

instance (s : LiveTrader) (a : LiveAction) : Decidable (CallsApart s a) := by
  cases a <;> unfold CallsApart <;> infer_instance

/-- What the two counters hold, by what the call that works on them will do next:
`number` requests have been made, and the next order is to carry the reference `ref`. In
between one of the counters is ahead by what the call has taken already. -/
def Counted (td : CTdTradeSpi) (number : Int) (ref : Int32) : Option OrderInsert → Prop
  | some (.writeOrderRef _ orderRef) =>
    td.requestId = number ∧ Int32.ofInt td.tdParams.orderRef = ref ∧ orderRef = ref
  | some (.readRequestId order) =>
    td.requestId = number ∧ Int32.ofInt td.tdParams.orderRef = ref + 1 ∧
      order.orderRef.chars = sprintf012d ref
  | some (.writeRequestId request) =>
    td.requestId = number ∧ Int32.ofInt td.tdParams.orderRef = ref + 1 ∧
      request.order.orderRef.chars = sprintf012d ref ∧ request.requestId = number
  | some (.reqOrderInsert request) =>
    td.requestId = number + 1 ∧ Int32.ofInt td.tdParams.orderRef = ref + 1 ∧
      request.order.orderRef.chars = sprintf012d ref ∧ request.requestId = number
  | _ => td.requestId = number ∧ Int32.ofInt td.tdParams.orderRef = ref

/-- The requests that have been made to the trade interface. -/
def made (s : LiveTrader) : Int := (s.wire.filterMap WireEvent.number).length

/-- The reference of the next order. -/
def ref (s : LiveTrader) : Int32 := s.wire.foldl WireEvent.nextRef 0

/-- The invariant between the counters and the wire for calls that are apart: requests
and references on the wire are numbered as they should be, and at most one call works on
the counters. -/
structure Booked (s : LiveTrader) : Prop where
  numbered : Trace.Numbered WireEvent.number s.wire
  referenced : Trace.Each WireEvent.Referenced s.wire
  counted : ∃ active, (∀ index, index ≠ active → s.working index = false) ∧
    Counted s.login.td s.made s.ref (s.inserting active)

theorem booked_start (configs : List StgConfig) : (start configs).Booked where
  numbered := Trace.each_nil
  referenced := Trace.each_nil
  counted := ⟨0, fun _ _ => rfl, rfl, rfl⟩

section Counters

variable {td td' : CTdTradeSpi} {number : Int} {ref : Int32} {call : Option OrderInsert}

theorem Counted.congr (h : Counted td number ref call) (requestId : td'.requestId = td.requestId)
    (orderRef : td'.tdParams.orderRef = td.tdParams.orderRef) : Counted td' number ref call := by
  unfold Counted at h ⊢
  rw [requestId, orderRef]
  exact h

/-- A call that has not begun leaves the counters as they are without it. -/
theorem counted_idle (idle : call.any OrderInsert.begun = false) :
    Counted td number ref call ↔ Counted td number ref none := by
  cases call with
  | none => rfl
  | some call =>
      cases call with
      | readOrderRef order => rfl
      | _ => cases idle

/-- The next step of the only call that works on the counters. -/
theorem Counted.accessNext {call : OrderInsert} (h : Counted td number ref (some call)) :
    Counted (td.accessNext call).1 number ref (some (td.accessNext call).2) := by
  cases call with
  | readOrderRef order => exact ⟨h.1, h.2, h.2⟩
  | writeOrderRef order orderRef =>
      obtain ⟨requestId, -, rfl⟩ := h
      exact ⟨requestId, Int32.ofInt_toInt _, rfl⟩
  | readRequestId order => exact ⟨h.1, h.2.1, h.2.2, h.1⟩
  | writeRequestId request =>
      obtain ⟨-, orderRef, text, same⟩ := h
      exact ⟨by rw [← same]; rfl, orderRef, text, same⟩
  | reqOrderInsert request => exact h

end Counters

/-- Where the others do not work on the counters, it is the call of this strategy, if any. -/
theorem Booked.counted_at (hs : s.Booked) {index : Nat}
    (others : ∀ other, other ≠ index → s.working other = false) :
    Counted s.login.td s.made s.ref (s.inserting index) := by
  obtain ⟨active, quiet, counted⟩ := hs.counted
  by_cases same : index = active
  · rwa [same]
  · rw [counted_idle (quiet index same)]
    rwa [counted_idle (others active (Ne.symm same))] at counted

/-- Where no call works on the counters. -/
theorem Booked.counted_none (hs : s.Booked) (quiet : ∀ index, s.working index = false) :
    Counted s.login.td s.made s.ref none := by
  obtain ⟨active, -, counted⟩ := hs.counted
  rwa [counted_idle (quiet active)] at counted

theorem Placing.quiet (hs : s.Placing)
    (quiet : ∀ other < s.trader.stgContainer.length, s.working other = false) (index : Nat) :
    s.working index = false := by
  cases under : s.inserting index with
  | none => rw [working, under]; rfl
  | some call => exact quiet index (hs.known under)

theorem Placing.others (hs : s.Placing) {index : Nat}
    (others : ∀ other < s.trader.stgContainer.length, other ≠ index → s.working other = false)
    (other : Nat) (apart : other ≠ index) : s.working other = false := by
  cases under : s.inserting other with
  | none => rw [working, under]; rfl
  | some call => exact others other (hs.known under) apart

/-- An answer leaves the reference that `nextRef` reads off it. -/
theorem deliver_nextRef (td : CTdTradeSpi) (a : BrokerAnswer) :
    Int32.ofInt (td.deliver a).tdParams.orderRef =
      WireEvent.nextRef (Int32.ofInt td.tdParams.orderRef) (.td (.answered a)) := by
  cases a with
  | rspUserLogin field info id last =>
      cases field with
      | none =>
          simp only [CTdTradeSpi.deliver, CTdTradeSpi.onRspUserLogin, WireEvent.nextRef]
          cases info <;> rfl
      | some field =>
          cases last with
          | false =>
              simp only [CTdTradeSpi.deliver, CTdTradeSpi.onRspUserLogin, WireEvent.nextRef,
                Bool.false_and]
              cases info <;> rfl
          | true =>
              simp only [CTdTradeSpi.deliver, CTdTradeSpi.onRspUserLogin, WireEvent.nextRef]
              cases error : CTdTradeSpi.isErrorRsp info with
              | false => simp [CTdTradeSpi.notifyTdEvent]
              | true =>
                  simp only [Bool.not_true, Bool.and_false, ↓reduceIte]
                  cases info <;> rfl
  | rspSettlementInfoConfirm field info id last =>
      simp only [CTdTradeSpi.deliver, CTdTradeSpi.onRspSettlementInfoConfirm, WireEvent.nextRef]
      split_ifs
      · rfl
      · cases info <;> rfl

/-- A step that leaves the counters and the calls alone. -/
theorem Booked.congr (hs : s.Booked) (login : t.login = s.login)
    (inserting : t.inserting = s.inserting) (wire : t.wire = s.wire) : t.Booked where
  numbered := wire ▸ hs.numbered
  referenced := wire ▸ hs.referenced
  counted := by
    simp only [working, made, LiveTrader.ref, login, inserting, wire]
    exact hs.counted

/-- An event of the market data interface. -/
theorem booked_md (hs : s.Booked) {e : WireEvent} (number : e.number = none)
    (ref : ∀ ref, WireEvent.nextRef ref e = ref)
    (other : ∀ index request code, e ≠ .order index request code) :
    ({ s with wire := s.wire ++ [e] } : LiveTrader).Booked where
  numbered := Trace.each_concat.mpr ⟨hs.numbered, by simp [number]⟩
  referenced := by
    refine Trace.each_concat.mpr ⟨hs.referenced, ?_⟩
    cases e with
    | order index request code => exact absurd rfl (other index request code)
    | _ => trivial
  counted := by
    obtain ⟨active, quiet, counted⟩ := hs.counted
    refine ⟨active, quiet, ?_⟩
    simpa [made, LiveTrader.ref, number, ref] using counted

/-- A step of the handshake, which makes a request or gets an answer only where no call works
on the counters. -/
theorem booked_stepLogin (hs : s.Booked) {a : LoginAction}
    (quiet : (s.login.next a).events = s.login.events ∨ ∀ index, s.working index = false) :
    (s.stepLogin a).Booked := by
  obtain ⟨silent, number, params⟩ | ⟨b, answered, delivered⟩ |
      ⟨request, requested, numbered, next, params, -⟩ := s.login.next_events a
  · have none : (s.login.next a).events = s.login.events ++ [] := by
      rw [silent, List.append_nil]
    have wire : (s.stepLogin a).wire = s.wire := by
      rw [stepLogin_wire none, List.map_nil, List.append_nil]
    refine ⟨wire ▸ hs.numbered, wire ▸ hs.referenced, ?_⟩
    obtain ⟨active, quiet, counted⟩ := hs.counted
    refine ⟨active, quiet, ?_⟩
    simp only [made, LiveTrader.ref, wire]
    exact counted.congr number (congrArg TdAttribute.orderRef params)
  · have quiet : ∀ index, s.working index = false := by
      obtain silent | quiet := quiet
      · simp [silent] at answered
      · exact quiet
    have wire : (s.stepLogin a).wire = s.wire ++ [.td (.answered b)] := stepLogin_wire answered
    obtain ⟨requestId, orderRef⟩ := hs.counted_none quiet
    have same : (s.login.td.deliver b).requestId = s.login.td.requestId := by
      obtain ⟨event, kept, made, -⟩ := s.login.td.deliver_frame b
      rw [made]
    refine ⟨?_, ?_, 0, fun index _ => quiet index, ?_⟩
    · rw [wire]
      exact Trace.each_concat.mpr ⟨hs.numbered, by simp [WireEvent.number]⟩
    · rw [wire]
      exact Trace.each_concat.mpr ⟨hs.referenced, trivial⟩
    · refine (counted_idle (quiet 0)).mpr ⟨?_, ?_⟩
      · change (s.login.next a).td.requestId = _
        rw [delivered, same, requestId, made, made, wire]
        simp [WireEvent.number]
      · change Int32.ofInt (s.login.next a).td.tdParams.orderRef = _
        rw [delivered, deliver_nextRef, orderRef, LiveTrader.ref, LiveTrader.ref, wire,
          List.foldl_append]
        rfl
  · have quiet : ∀ index, s.working index = false := by
      obtain silent | quiet := quiet
      · simp [silent] at requested
      · exact quiet
    have wire : (s.stepLogin a).wire = s.wire ++ [.td (.requested request)] :=
      stepLogin_wire requested
    obtain ⟨requestId, orderRef⟩ := hs.counted_none quiet
    refine ⟨?_, ?_, 0, fun index _ => quiet index, ?_⟩
    · rw [wire]
      refine Trace.each_concat.mpr ⟨hs.numbered, ?_⟩
      rintro n ⟨⟩
      rw [numbered, requestId]
      rfl
    · rw [wire]
      exact Trace.each_concat.mpr ⟨hs.referenced, trivial⟩
    · refine (counted_idle (quiet 0)).mpr ⟨?_, ?_⟩
      · change (s.login.next a).td.requestId = _
        rw [next, requestId, made, made, wire]
        simp [WireEvent.number]
      · change Int32.ofInt (s.login.next a).td.tdParams.orderRef = _
        rw [params, orderRef, LiveTrader.ref, LiveTrader.ref, wire, List.foldl_append]
        rfl

/-- A call begins without working on the counters. -/
theorem booked_raise (hs : s.Booked) {index : Nat} {trader : Trader} {order : LimitOrder}
    (free : s.inserting index = none) :
    ({ s with trader }.limitOrderInsert index order).Booked := by
  refine ⟨hs.numbered, hs.referenced, ?_⟩
  obtain ⟨active, quiet, counted⟩ := hs.counted
  refine ⟨active, fun other apart => ?_, ?_⟩
  · by_cases same : other = index
    · subst same
      simp [working, limitOrderInsert, OrderInsert.begun]
    · simp only [working, limitOrderInsert, Function.update_of_ne same]
      exact quiet other apart
  · by_cases same : active = index
    · subst same
      rw [free] at counted
      simp only [limitOrderInsert, Function.update_self]
      exact (counted_idle rfl).mpr counted
    · simp only [limitOrderInsert, Function.update_of_ne same]
      exact counted

/-- The only call that works on the counters goes on. -/
theorem booked_access (hs : s.Booked) {index : Nat} {call : OrderInsert}
    (under : s.inserting index = some call)
    (others : ∀ other, other ≠ index → s.working other = false) :
    ({ s with
      login := { s.login with td := (s.login.td.accessNext call).1 }
      inserting := Function.update s.inserting index (some (s.login.td.accessNext call).2) } :
      LiveTrader).Booked := by
  have counted := hs.counted_at others
  rw [under] at counted
  refine ⟨hs.numbered, hs.referenced, index, fun other apart => ?_, ?_⟩
  · simp only [working, Function.update_of_ne apart]
    exact others other apart
  · simp only [Function.update_self]
    exact counted.accessNext

/-- It ends, with a request that carries the next number and the next reference. -/
theorem booked_order (hs : s.Booked) {index : Nat} (code : Int) {request : OrderRequest}
    (under : s.inserting index = some (.reqOrderInsert request))
    (others : ∀ other, other ≠ index → s.working other = false) :
    ({ s with
      inserting := Function.update s.inserting index none
      wire := s.wire ++ [.order index request code] } : LiveTrader).Booked := by
  have counted := hs.counted_at others
  rw [under] at counted
  obtain ⟨requestId, orderRef, text, number⟩ := counted
  refine ⟨Trace.each_concat.mpr ⟨hs.numbered, ?_⟩, Trace.each_concat.mpr ⟨hs.referenced, text⟩,
    index, fun other apart => ?_, ?_⟩
  · rintro n ⟨⟩
    exact number
  · simp only [working, Function.update_of_ne apart]
    exact others other apart
  · simp only [Function.update_self]
    refine ⟨requestId.trans ?_, orderRef.trans ?_⟩
    · simp [made, WireEvent.number]
    · rw [LiveTrader.ref, LiveTrader.ref, List.foldl_append]
      rfl

theorem booked_step (placing : s.Placing) (hs : s.Booked) {a : LiveAction} (apart : s.CallsApart a)
    (h : Step ins s a t) : t.Booked := by
  cases h with
  | idle => exact hs
  | connectRedis => exact hs.congr rfl rfl rfl
  | initialMdManager => exact hs.congr rfl rfl rfl
  | createMdApi => exact hs.congr rfl rfl rfl
  | noInstruments => exact hs.congr rfl rfl rfl
  | instruments => exact hs.congr rfl rfl rfl
  | ready => exact hs.congr rfl rfl rfl
  | subscribeInstruments =>
      exact (booked_md hs rfl (fun _ => rfl) (by simp)).congr rfl rfl rfl
  | notSubscribed => exact hs.congr rfl rfl rfl
  | initialTdManager => exact hs.congr rfl rfl rfl
  | caller => exact booked_stepLogin hs (.inr (placing.quiet apart))
  | callerReturns reply =>
      exact (booked_stepLogin hs (a := .caller reply.code)
        (.inr (placing.quiet apart))).congr rfl rfl rfl
  | mdConnected => exact (booked_md hs rfl (fun _ => rfl) (by simp)).congr rfl rfl rfl
  | mdDisconnected => exact hs.congr rfl rfl rfl
  | mdLogin => exact (booked_md hs rfl (fun _ => rfl) (by simp)).congr rfl rfl rfl
  | tdConnected => exact booked_stepLogin hs (.inl rfl)
  | tdDisconnected => exact booked_stepLogin hs (.inl rfl)
  | tdAnswer => exact booked_stepLogin hs (.inr (placing.quiet apart))
  | trader a trader other fed stepped silent => exact hs.congr rfl rfl rfl
  | raise index trader order free stepped raised => exact booked_raise hs free
  | access index code call under early => exact booked_access hs under (placing.others apart)
  | order index code request created under =>
      exact booked_order hs code under (placing.others apart)

theorem booked_run {configs : List StgConfig} {acts : List LiveAction}
    (h : run ins configs acts = .ok s)
    (apart : Execution.Meets (step ins) CallsApart (start configs) acts) : s.Booked := by
  refine (Execution.run_invariant_of_meets (fun s => s.Placing ∧ s.Booked) ?_
    ⟨placing_start configs, booked_start configs⟩ apart h).2
  rintro s a t ⟨placing, booked⟩ apart hstep
  have made := step_cases hstep
  exact ⟨placing_step placing made, booked_step placing booked apart made⟩

/-- Without the front ends the process is a run of the trader. -/
theorem simulates_trader (ins : List StdString) :
    Execution.Simulates (step ins) (Trader.step true ins) fun s trader => s.trader = trader := by
  refine Execution.simulates_of_step ?_
  rintro s a t _ rfl hstep
  cases step_cases hstep with
  | initialMdManager reply here => exact .inr ⟨.main, _, rfl, rfl⟩
  | trader a trader other fed stepped silent => exact .inr ⟨a, trader, stepped, rfl⟩
  | raise index trader order free stepped raised => exact .inr ⟨_, trader, stepped, rfl⟩
  | _ => exact .inl rfl

theorem run_trader {configs : List StgConfig} {acts : List LiveAction}
    (h : run ins configs acts = .ok s) :
    ∃ acts', Trader.run true ins configs acts' = .ok s.trader := by
  obtain ⟨acts', _, reached, rfl⟩ := (simulates_trader ins).run rfl h
  exact ⟨acts', reached⟩

/-- An order that has been raised is at the price of a tick. -/
theorem tick_of_ordersAt {tradeTime : Bool} {configs : List StgConfig}
    {acts : List TraderAction} {trader : Trader}
    (h : Trader.run tradeTime ins configs acts = .ok trader) {index : Nat} {order : LimitOrder}
    (mem : order ∈ trader.ordersAt index) :
    ∃ direction, ∃ tick ∈ trader.appended, (direction = directionBuy ∨ direction = directionSell) ∧
      order = ⟨tick.instrumentID.chars, direction, offsetOpen, tick.lastPrice, 1⟩ := by
  simp only [Trader.ordersAt] at mem
  split at mem
  · rename_i attached there
    obtain ⟨⟨κ, raised⟩, hraised, rfl⟩ := List.mem_map.mp mem
    have own : raised ∈ attached.stg.ordersOf κ :=
      List.mem_filterMap.mpr ⟨(κ, raised), hraised, if_pos rfl⟩
    obtain ⟨direction, tick, htick, either, same⟩ := Trader.order_at_tick_price h there own
    obtain ⟨fed, its⟩ := List.mem_filter.mp htick
    refine ⟨direction, tick, fed, either, ?_⟩
    rw [same, of_decide_eq_true its]
  · cases mem

end LiveTrader

namespace WireEvent

/-- A login that has succeeded. -/
def isTdLogin : WireEvent → Bool
  | .td (.answered a) => a.isLogin
  | _ => false

def isOrder : WireEvent → Bool
  | .order .. => true
  | _ => false

theorem nextRef_other {e : WireEvent} (login : e.isTdLogin = false) (ref : Int32) :
    nextRef ref e = ref + Int32.ofNat (if e.isOrder then 1 else 0) := by
  unfold nextRef
  split
  · rename_i field info id
    simp only [isTdLogin, BrokerAnswer.isLogin, Option.isSome_some, Bool.and_true, Bool.true_and,
      Bool.not_eq_eq_eq_not, Bool.not_false] at login
    simp [login, isOrder]
  · rfl
  · rename_i notOrder
    have none : e.isOrder = false := by
      cases e with
      | order index request code => exact absurd rfl (notOrder index request code)
      | _ => rfl
    simp [none]

/-- Between two logins the references count the orders. -/
theorem foldl_nextRef {events : List WireEvent} (logins : ∀ e ∈ events, e.isTdLogin = false)
    (ref : Int32) :
    events.foldl nextRef ref = ref + Int32.ofNat (events.countP isOrder) := by
  induction events generalizing ref with
  | nil => simp
  | cons e events ih =>
      obtain ⟨first, rest⟩ := List.forall_mem_cons.mp logins
      rw [List.foldl_cons, ih rest, nextRef_other first, List.countP_cons, Nat.add_comm,
        Int32.ofNat_add, Int32.add_assoc]

end WireEvent

open LiveTrader

/-- The start-up, the sample run in which the strategy buys, and the call that places the
order. -/
def liveActs : List LiveAction :=
  startUpActs ++ (forkActs.drop 11).map .trader ++ List.replicate 5 (.insert 0 0)

theorem live_run : ∃ s, LiveTrader.run [sampleName.chars] [forkConfig] liveActs = .ok s ∧
    (s.wire.filterMap WireEvent.number).length = 3 ∧
    s.wire.filterMap (WireEvent.orderOf 0) = [forkOrder.order.inputOrder] :=
  Execution.exists_of_check (by decide +kernel)

/-- In every run, however the calls of the threads overlap and whatever the library returns,
the calls of `ReqOrderInsert` that a strategy has made, and the one that it is on the way to,
are one for each order that it has raised, in their order. Each order is a limit order of
the account for one lot that opens a position in an instrument at a price that a tick of it
has had. -/
theorem raised_orders_placed {ins : List StdString} {configs : List StgConfig}
    {acts : List LiveAction} {s : LiveTrader} (h : LiveTrader.run ins configs acts = .ok s)
    (index : Nat) :
    s.wire.filterMap (WireEvent.orderOf index) ++ s.underWay index =
        (s.trader.ordersAt index).map LimitOrder.inputOrder ∧
      (s.underWay index).length ≤ 1 ∧
      ∀ order ∈ s.wire.filterMap (WireEvent.orderOf index) ++ s.underWay index, ∃ direction,
        ∃ tick ∈ s.trader.appended, (direction = directionBuy ∨ direction = directionSell) ∧
          order.instrumentID = tick.instrumentID ∧
          order = LimitOrder.inputOrder
            ⟨tick.instrumentID.chars, direction, offsetOpen, tick.lastPrice, 1⟩ := by
  have placed := (placing_run h).orders index
  refine ⟨placed, ?_, fun order mem => ?_⟩
  · rw [underWay]
    cases s.inserting index <;> simp
  rw [placed] at mem
  obtain ⟨raised, hraised, rfl⟩ := List.mem_map.mp mem
  obtain ⟨acts', reached⟩ := run_trader h
  obtain ⟨direction, tick, htick, either, rfl⟩ := tick_of_ordersAt reached hraised
  exact ⟨direction, tick, htick, either, strncpyS_chars _, rfl⟩

theorem raised_orders_placed_fork : ∃ s,
    LiveTrader.run [sampleName.chars] [forkConfig] liveActs = .ok s ∧
      ∃ tick ∈ s.trader.appended, forkOrder.order.inputOrder.limitPrice = tick.lastPrice := by
  obtain ⟨s, hrun, -, one⟩ := live_run
  obtain ⟨-, -, each⟩ := raised_orders_placed hrun 0
  obtain ⟨direction, tick, htick, -, -, order⟩ :=
    each forkOrder.order.inputOrder (by rw [one]; exact List.mem_cons_self ..)
  exact ⟨s, hrun, tick, htick, by rw [order]; rfl⟩

end CtpTrade
