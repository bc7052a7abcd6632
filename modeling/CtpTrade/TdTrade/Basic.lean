import CtpTrade.PublicDataStruct

/-!
# The trade interface: `CTdTradeSpi`

The requests of the trade module and the callbacks that answer them. A callback
pointer that may be null is an option. The exchange interface itself is not part
of the repository: a request is recorded with the data it carries, and the code
it returns is an input of the step that makes it.
-/

namespace CtpTrade

instance neZero11 : NeZero 11 := ⟨by decide⟩
instance neZero13 : NeZero 13 := ⟨by decide⟩
instance neZero16 : NeZero 16 := ⟨by decide⟩
instance neZero41 : NeZero 41 := ⟨by decide⟩
instance neZero81 : NeZero 81 := ⟨by decide⟩

abbrev BrokerIDType := CharArray 11
abbrev InvestorIDType := CharArray 13
abbrev PasswordType := CharArray 41
abbrev OrderRefType := CharArray 13

/-- `CThostFtdcRspInfoField`. -/
structure RspInfoField where
  errorID : Int := 0
  errorMsg : CharArray 81 := default
  deriving DecidableEq

/-- `CThostFtdcRspUserLoginField`, with the fields the callback reads. -/
structure RspUserLoginField where
  tradingDay : DateType := default
  frontID : Int := 0
  sessionID : Int := 0
  maxOrderRef : OrderRefType := default
  shfeTime : TimeType := default
  dceTime : TimeType := default
  czceTime : TimeType := default
  ffexTime : TimeType := default
  ineTime : TimeType := default
  deriving DecidableEq

/-- `CThostFtdcSettlementInfoConfirmField`, with the fields the request fills. -/
structure SettlementInfoConfirmField where
  brokerID : BrokerIDType := default
  investorID : InvestorIDType := default
  deriving DecidableEq

/-- `CThostFtdcReqUserLoginField`, with the fields the request fills. -/
structure ReqUserLoginField where
  brokerID : BrokerIDType := default
  userID : CharArray 16 := default
  password : PasswordType := default
  deriving DecidableEq

/-- The record `td_attribute`, which the constructor clears and the answers fill. -/
structure TdAttribute where
  responseMsg : RspInfoField := {}
  brokerId : BrokerIDType := default
  userId : InvestorIDType := default
  passWord : PasswordType := default
  frontId : Int := 0
  sessionId : Int := 0
  orderRef : Int := 0
  /-- The exchanges in the order `SHFE`, `DCE`, `CZCE`, `FFEX`, `INE`. -/
  exchangeTime : List TimeType := List.replicate 5 default
  tradeDay : Nat := 0
  deriving DecidableEq

/-- The constructor of `CTdTradeSpi` fills in the account. -/
def defaultTdParams : TdAttribute :=
  { brokerId := strncpyS 11 "9999".toList
    userId := strncpyS 13 "057131".toList
    passWord := strncpyS 41 "1998two".toList }

/-- The interface object with its counters, its flags and its account. None of the
members but the flag of the event has a lock. -/
structure CTdTradeSpi where
  connectTdFlag : Bool := false
  requestId : Int := 0
  tdEvent : TradeHandle := {}
  tdParams : TdAttribute := defaultTdParams
  deriving DecidableEq

/-- A request as the trade interface receives it, with its number. -/
inductive TdRequest where
  | userLogin (field : ReqUserLoginField) (requestId : Int)
  | settlementInfoConfirm (field : SettlementInfoConfirmField) (requestId : Int)
  deriving DecidableEq

/-- A call of one of the two answering callbacks, with the arguments it has. Null
pointers are `none`. -/
inductive BrokerAnswer where
  | rspUserLogin (field : Option RspUserLoginField) (rspInfo : Option RspInfoField)
      (requestID : Int) (isLast : Bool)
  | rspSettlementInfoConfirm (field : Option SettlementInfoConfirmField)
      (rspInfo : Option RspInfoField) (requestID : Int) (isLast : Bool)
  deriving DecidableEq

namespace CTdTradeSpi

def isErrorRsp (rsp : Option RspInfoField) : Bool :=
  match rsp with
  | some info => info.errorID ≠ 0
  | none => false

def requestUserLogin (td : CTdTradeSpi) : CTdTradeSpi × TdRequest :=
  let loginField : ReqUserLoginField :=
    { brokerID := strncpyS 11 td.tdParams.brokerId.chars
      userID := strncpyS 16 td.tdParams.userId.chars
      password := strncpyS 41 td.tdParams.passWord.chars }
  ({ td with requestId := td.requestId + 1 }, .userLogin loginField td.requestId)

def requestSettleConfirm (td : CTdTradeSpi) : CTdTradeSpi × TdRequest :=
  let confirmField : SettlementInfoConfirmField :=
    { brokerID := strncpyS 11 td.tdParams.brokerId.chars
      investorID := strncpyS 13 td.tdParams.userId.chars }
  ({ td with requestId := td.requestId + 1 }, .settlementInfoConfirm confirmField td.requestId)

def onFrontConnected (td : CTdTradeSpi) : CTdTradeSpi := { td with connectTdFlag := true }

def onFrontDisconnected (td : CTdTradeSpi) : CTdTradeSpi := { td with connectTdFlag := false }

def notifyTdEvent (td : CTdTradeSpi) : CTdTradeSpi :=
  { td with tdEvent := td.tdEvent.notifyHandle }

/-- The answer is not taken as a success: its error message is kept. -/
private def keepMessage (td : CTdTradeSpi) (rspInfo : Option RspInfoField) : CTdTradeSpi :=
  match rspInfo with
  | some info => { td with tdParams := { td.tdParams with responseMsg := info } }
  | none => td

def onRspUserLogin (td : CTdTradeSpi) (rspUserLogin : Option RspUserLoginField)
    (rspInfo : Option RspInfoField) (isLast : Bool) : CTdTradeSpi :=
  match rspUserLogin with
  | some field =>
    if isLast && !isErrorRsp rspInfo then
      notifyTdEvent { td with
        tdParams := { td.tdParams with
          frontId := field.frontID
          sessionId := field.sessionID
          orderRef := atoi field.maxOrderRef.chars
          tradeDay := sizeOfInt (atoi field.tradingDay.chars)
          exchangeTime :=
            [field.shfeTime, field.dceTime, field.czceTime, field.ffexTime, field.ineTime] } }
    else td.keepMessage rspInfo
  | none => td.keepMessage rspInfo

def onRspSettlementInfoConfirm (td : CTdTradeSpi)
    (settlementInfoConfirm : Option SettlementInfoConfirmField) (rspInfo : Option RspInfoField)
    (isLast : Bool) : CTdTradeSpi :=
  if isLast && !isErrorRsp rspInfo && settlementInfoConfirm.isSome then td.notifyTdEvent
  else td.keepMessage rspInfo

/-- Delivery of an answer. The callbacks do not look at the request number. -/
def deliver (td : CTdTradeSpi) : BrokerAnswer → CTdTradeSpi
  | .rspUserLogin field rspInfo _ isLast => td.onRspUserLogin field rspInfo isLast
  | .rspSettlementInfoConfirm field rspInfo _ isLast =>
    td.onRspSettlementInfoConfirm field rspInfo isLast

end CTdTradeSpi

namespace BrokerAnswer

/-- A successful answer to a login request. -/
def isLogin : BrokerAnswer → Bool
  | .rspUserLogin field rspInfo _ isLast =>
    isLast && !CTdTradeSpi.isErrorRsp rspInfo && field.isSome
  | .rspSettlementInfoConfirm .. => false

/-- A successful answer to a settlement confirmation request. -/
def isConfirm : BrokerAnswer → Bool
  | .rspUserLogin .. => false
  | .rspSettlementInfoConfirm field rspInfo _ isLast =>
    isLast && !CTdTradeSpi.isErrorRsp rspInfo && field.isSome

def isSuccess (a : BrokerAnswer) : Bool := a.isLogin || a.isConfirm

end BrokerAnswer

namespace CTdTradeSpi

@[simp] theorem keepMessage_tdEvent (td : CTdTradeSpi) (rspInfo : Option RspInfoField) :
    (td.keepMessage rspInfo).tdEvent = td.tdEvent := by
  cases rspInfo <;> rfl

/-- Every successful answer, whichever it is, sets the one flag. -/
theorem deliver_readyFlag (td : CTdTradeSpi) (a : BrokerAnswer) :
    (td.deliver a).tdEvent.readyFlag = (td.tdEvent.readyFlag || a.isSuccess) := by
  cases a with
  | rspUserLogin field info id last =>
      cases field with
      | none => simp [deliver, onRspUserLogin, BrokerAnswer.isSuccess, BrokerAnswer.isLogin,
          BrokerAnswer.isConfirm]
      | some field =>
          simp only [deliver, onRspUserLogin, BrokerAnswer.isSuccess, BrokerAnswer.isLogin,
            BrokerAnswer.isConfirm, Option.isSome_some, Bool.and_true, Bool.or_false]
          by_cases success : (last && !isErrorRsp info) = true
          · rw [if_pos success, success, Bool.or_true]
            rfl
          · rw [if_neg success, keepMessage_tdEvent, Bool.eq_false_iff.mpr success, Bool.or_false]
  | rspSettlementInfoConfirm field info id last =>
      simp only [deliver, onRspSettlementInfoConfirm, BrokerAnswer.isSuccess,
        BrokerAnswer.isLogin, BrokerAnswer.isConfirm]
      by_cases success : (last && !isErrorRsp info && field.isSome) = true
      · rw [if_pos success, success, Bool.false_or, Bool.or_true]
        rfl
      · rw [if_neg success, keepMessage_tdEvent, Bool.eq_false_iff.mpr success, Bool.false_or,
          Bool.or_false]

end CTdTradeSpi

end CtpTrade
