import CtpTrade.TdTrade.Basic

/-!
# Order references

A successful login stores the `MaxOrderRef` of the answer, and every order
carries the stored value as twelve digits and increases it. The value is an
`int`: `atoi` saturates, and the increment wraps around.

`requestOrderInsert` is a call that no other thread gets in between. The two counters
have no lock, so where threads place orders at the same time the call is the steps of
`OrderInsert`, which come to the same without the others.
-/

namespace CtpTrade

instance neZero5 : NeZero 5 := ⟨by decide⟩

/-- `CThostFtdcInputOrderField`, with the fields the program fills. -/
structure InputOrderField where
  brokerID : BrokerIDType := default
  instrumentID : InstrumentIDType := default
  orderRef : OrderRefType := default
  userID : CharArray 16 := default
  orderPriceType : Char := '\x00'
  direction : Char := '\x00'
  combOffsetFlag : CharArray 5 := default
  combHedgeFlag : CharArray 5 := default
  limitPrice : ℚ := 0
  volumeTotalOriginal : Int := 0
  timeCondition : Char := '\x00'
  volumeCondition : Char := '\x00'
  contingentCondition : Char := '\x00'
  forceCloseReason : Char := '\x00'
  isAutoSuspend : Int := 0
  userForceClose : Int := 0
  deriving DecidableEq

/-- An order as the interface receives it. -/
structure OrderRequest where
  order : InputOrderField
  requestId : Int
  deriving DecidableEq

namespace CTdTradeSpi

def requestOrderInsert (td : CTdTradeSpi) (order : InputOrderField) :
    CTdTradeSpi × OrderRequest :=
  let orderRef := Int32.ofInt td.tdParams.orderRef
  let order := { order with
    brokerID := strncpyS 11 td.tdParams.brokerId.chars
    userID := strncpyS 16 td.tdParams.userId.chars
    orderRef := ⟨sprintf012d orderRef, by simp⟩ }
  ({ td with
      requestId := td.requestId + 1
      tdParams := { td.tdParams with orderRef := (orderRef + 1).toInt } },
    ⟨order, td.requestId⟩)

end CTdTradeSpi

namespace CTdManager

/-- `insert_order` up to its call of `request_order_insert`, whose result it returns. -/
def insertOrder (order : InputOrderField) : InputOrderField :=
  { order with
    -- `THOST_FTDC_FCC_NotForceClose`
    forceCloseReason := '0'
    isAutoSuspend := 0
    userForceClose := 0 }

/-- `limit_order_insert` up to the call of `request_order_insert`. -/
def limitOrderInsert (insId : StdString) (actionDirect openFlag : Char) (price : ℚ)
    (quantity : Int) : InputOrderField :=
  insertOrder
    { instrumentID := strncpyS 31 insId
      -- `THOST_FTDC_OPT_LimitPrice`
      orderPriceType := '2'
      direction := actionDirect
      combOffsetFlag := ⟨[openFlag], by simp⟩
      -- `THOST_FTDC_HF_Speculation`
      combHedgeFlag := ⟨['1'], by simp⟩
      limitPrice := price
      volumeTotalOriginal := quantity
      -- `THOST_FTDC_TC_GFD`, `THOST_FTDC_VC_AV` and `THOST_FTDC_CC_Immediately`
      timeCondition := '3'
      volumeCondition := '1'
      contingentCondition := '1' }

end CTdManager

/-- A call of `request_order_insert` that is under way, by what it does next. Another thread
can come in between any two of these steps. -/
inductive OrderInsert where
  | readOrderRef (order : InputOrderField)
  | writeOrderRef (order : InputOrderField) (orderRef : Int32)
  | readRequestId (order : InputOrderField)
  | writeRequestId (request : OrderRequest)
  /-- the call of `ReqOrderInsert` -/
  | reqOrderInsert (request : OrderRequest)
  deriving DecidableEq

namespace CTdTradeSpi

/-- The next step of a call. `order_ref++` and `request_id++` read the counter, and then write
what they have read plus one. -/
def accessNext (td : CTdTradeSpi) : OrderInsert → CTdTradeSpi × OrderInsert
  | .readOrderRef order =>
    let order := { order with
      brokerID := strncpyS 11 td.tdParams.brokerId.chars
      userID := strncpyS 16 td.tdParams.userId.chars }
    (td, .writeOrderRef order (Int32.ofInt td.tdParams.orderRef))
  | .writeOrderRef order orderRef =>
    ({ td with tdParams := { td.tdParams with orderRef := (orderRef + 1).toInt } },
      .readRequestId { order with orderRef := ⟨sprintf012d orderRef, by simp⟩ })
  | .readRequestId order => (td, .writeRequestId ⟨order, td.requestId⟩)
  | .writeRequestId request =>
    ({ td with requestId := request.requestId + 1 }, .reqOrderInsert request)
  | .reqOrderInsert request => (td, .reqOrderInsert request)

/-- A step of a call only moves the counters. -/
theorem accessNext_frame (td : CTdTradeSpi) (call : OrderInsert) :
    ∃ requestId orderRef, (td.accessNext call).1 =
      { td with requestId, tdParams := { td.tdParams with orderRef } } := by
  cases call <;> exact ⟨_, _, rfl⟩

/-- Without another thread the four accesses make the request of `requestOrderInsert`. -/
theorem accessNext_alone (td : CTdTradeSpi) (order : InputOrderField) :
    (fun p : CTdTradeSpi × OrderInsert => p.1.accessNext p.2)^[4] (td, .readOrderRef order) =
      ((td.requestOrderInsert order).1, .reqOrderInsert (td.requestOrderInsert order).2) := rfl

/-- A run of `request_order_insert` calls: the interface afterwards and what it sent. -/
def insertOrders (td : CTdTradeSpi) : List InputOrderField → CTdTradeSpi × List OrderRequest
  | [] => (td, [])
  | order :: orders =>
    let (td, request) := td.requestOrderInsert order
    let (td, requests) := td.insertOrders orders
    (td, request :: requests)

/-- The references written into the orders of the run. -/
def issuedRefs (td : CTdTradeSpi) (orders : List InputOrderField) : List StdString :=
  (td.insertOrders orders).2.map (·.order.orderRef.chars)

end CTdTradeSpi

/-- What references are to satisfy: each is of twelve digits, and each is greater than
the largest used one, which the login has reported, and than every reference before it.
-/
structure RefsFresh (maxOrderRef : StdString) (refs : List StdString) : Prop where
  digits : ∀ ref ∈ refs, ref.length = 12 ∧ ∀ c ∈ ref, c.isDigit = true
  increasing : (maxOrderRef :: refs).Pairwise (digitsValue · < digitsValue ·)

namespace CTdTradeSpi

variable {td : CTdTradeSpi} {order : InputOrderField} {orders : List InputOrderField}

@[simp] theorem issuedRefs_nil : td.issuedRefs [] = [] := rfl

@[simp] theorem issuedRefs_cons :
    td.issuedRefs (order :: orders) =
      sprintf012d (Int32.ofInt td.tdParams.orderRef) ::
        (td.requestOrderInsert order).1.issuedRefs orders := rfl

/-- A successful login leaves the number that `atoi` reads. -/
theorem onRspUserLogin_orderRef (td : CTdTradeSpi) {field : RspUserLoginField}
    {rspInfo : Option RspInfoField} (success : isErrorRsp rspInfo = false) :
    (td.onRspUserLogin (some field) rspInfo true).tdParams.orderRef =
      atoi field.maxOrderRef.chars := by
  simp [onRspUserLogin, success, notifyTdEvent]

end CTdTradeSpi

theorem toInt_ofInt_natCast {n : Nat} (range : (n : Int) ≤ intMax) :
    (Int32.ofInt n).toInt = n := by
  have : intMin ≤ 0 := by decide
  exact toInt_ofInt (by omega) range

theorem sprintf012d_of_le {n : Nat} (range : (n : Int) ≤ intMax) :
    sprintf012d (Int32.ofInt n) = (decimalDigits 12 n).map Nat.digitChar := by
  have same := toInt_ofInt_natCast range
  have nonneg : ¬ Int32.ofInt n < 0 := by
    rw [Int32.lt_iff_toInt_lt, same]
    exact Int.not_lt.mpr (Int.natCast_nonneg n)
  rw [sprintf012d, if_neg nonneg, same, Int.natAbs_natCast]

/-- The text of a reference reads back as its number. -/
theorem digitsValue_sprintf012d {n : Nat} (range : (n : Int) ≤ intMax) :
    digitsValue (sprintf012d (Int32.ofInt n)) = n := by
  rw [sprintf012d_of_le range]
  apply digitsValue_decimalDigits
  have : intMax = 2 ^ 31 - 1 := rfl
  omega

namespace CTdTradeSpi

/-- As long as the stored value stays an `int`, the references count up from it. -/
theorem issuedRefs_of_le {td : CTdTradeSpi} {orders : List InputOrderField} {n : Nat}
    (start : td.tdParams.orderRef = n) (range : (n + orders.length : Int) ≤ intMax + 1) :
    td.issuedRefs orders =
      (List.range' n orders.length).map fun i : Nat => sprintf012d (Int32.ofInt i) := by
  induction orders generalizing td n with
  | nil => rfl
  | cons order orders ih =>
      rw [List.length_cons] at range
      rw [issuedRefs_cons, start, List.length_cons, List.range'_succ, List.map_cons]
      cases orders with
      | nil => rfl
      | cons next orders =>
          congr 1
          rw [List.length_cons] at range
          refine ih ?_ (by rw [List.length_cons]; omega)
          have step : (td.requestOrderInsert order).1.tdParams.orderRef =
              (Int32.ofInt td.tdParams.orderRef + 1).toInt := rfl
          have sum : Int32.ofInt (n : Int) + 1 = Int32.ofInt ((n + 1 : Nat) : Int) := by
            rw [Nat.cast_add, Int32.ofInt_add]
            rfl
          rw [step, start, sum, toInt_ofInt_natCast (by omega)]

/-- Among themselves the references are fresh in that range. -/
theorem issuedRefs_increasing {td : CTdTradeSpi} {orders : List InputOrderField} {n : Nat}
    (start : td.tdParams.orderRef = n) (range : (n + orders.length : Int) ≤ intMax + 1) :
    (td.issuedRefs orders).Pairwise (digitsValue · < digitsValue ·) := by
  rw [issuedRefs_of_le start range, List.pairwise_map]
  refine List.Pairwise.imp_of_mem ?_ List.pairwise_lt_range'
  intro i j hi hj lt
  rw [List.mem_range'_1] at hi hj
  rw [digitsValue_sprintf012d (by omega), digitsValue_sprintf012d (by omega)]
  exact lt

/-- The first order after a login carries a number that has been used. -/
theorem first_ref_le {td : CTdTradeSpi} {maxOrderRef : StdString}
    (digits : ∀ c ∈ maxOrderRef, c.isDigit = true)
    (start : td.tdParams.orderRef = atoi maxOrderRef) :
    digitsValue (sprintf012d (Int32.ofInt td.tdParams.orderRef)) ≤ digitsValue maxOrderRef := by
  have saturated : atoi maxOrderRef = (min intMax.toNat (digitsValue maxOrderRef) : Nat) := by
    rw [atoi_of_digits digits]
    have : intMax = intMax.toNat := rfl
    omega
  rw [start, saturated, digitsValue_sprintf012d ?_]
  · exact Nat.min_le_right ..
  · have : intMax = intMax.toNat := rfl
    omega

end CTdTradeSpi

/-- After a login with any `MaxOrderRef` of digits, the references of a run of
orders are fresh only if the run is empty: the first one repeats `MaxOrderRef`,
or is smaller where that exceeds `int`. -/
theorem order_refs_fresh_iff (td : CTdTradeSpi) (field : RspUserLoginField)
    (rspInfo : Option RspInfoField) (success : CTdTradeSpi.isErrorRsp rspInfo = false)
    (digits : ∀ c ∈ field.maxOrderRef.chars, c.isDigit = true)
    (orders : List InputOrderField) :
    RefsFresh field.maxOrderRef.chars
        ((td.onRspUserLogin (some field) rspInfo true).issuedRefs orders) ↔ orders = [] := by
  constructor
  · intro fresh
    cases orders with
    | nil => rfl
    | cons order orders =>
        have first := (List.pairwise_cons.mp fresh.increasing).1
        rw [CTdTradeSpi.issuedRefs_cons] at first
        have greater := first _ (List.mem_cons_self ..)
        have le := CTdTradeSpi.first_ref_le digits
          (CTdTradeSpi.onRspUserLogin_orderRef td success)
        omega
  · rintro rfl
    exact ⟨by simp, by simp⟩

/-- The answer to a login when one order has been placed before. -/
def sampleLogin : RspUserLoginField := { maxOrderRef := ⟨"1".toList, by decide⟩ }

theorem order_refs_fresh_iff_sample :
    CTdTradeSpi.isErrorRsp none = false ∧ (∀ c ∈ sampleLogin.maxOrderRef.chars, c.isDigit = true) ∧
      (RefsFresh sampleLogin.maxOrderRef.chars
        ((({} : CTdTradeSpi).onRspUserLogin (some sampleLogin) none true).issuedRefs [{}]) ↔
          [({} : InputOrderField)] = []) :=
  ⟨rfl, by simp [sampleLogin],
    order_refs_fresh_iff {} sampleLogin none rfl (by simp [sampleLogin]) [{}]⟩

/-- The first order gets the reference of the order placed before. -/
theorem order_ref_reused :
    (({} : CTdTradeSpi).onRspUserLogin (some sampleLogin) none true).issuedRefs [{}] =
        ["000000000001".toList] ∧
      ¬ ∀ (td : CTdTradeSpi) (field : RspUserLoginField) (orders : List InputOrderField),
        (∀ c ∈ field.maxOrderRef.chars, c.isDigit = true) →
          RefsFresh field.maxOrderRef.chars
            ((td.onRspUserLogin (some field) none true).issuedRefs orders) := by
  have reused : (({} : CTdTradeSpi).onRspUserLogin (some sampleLogin) none true).issuedRefs [{}] =
      ["000000000001".toList] := by decide
  refine ⟨reused, fun claim => ?_⟩
  have fresh := (claim {} sampleLogin [{}] (by simp [sampleLogin])).increasing
  rw [reused] at fresh
  exact absurd fresh (by decide)

end CtpTrade
