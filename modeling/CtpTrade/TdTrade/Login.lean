import CtpTrade.Library.Execution
import CtpTrade.TdTrade.Basic
import Mathlib.Data.List.Induction

/-!
# The login handshake: `CTdManager::execute_login_confirm`

The caller's statements and the callbacks of the exchange interface interleave
in any order. The two waits of the handshake share one event whose flag is set by
every successful answer and never reset, so the first success that arrives lets
both of them pass.
-/

namespace CtpTrade

/-- Where the caller of `execute_login_confirm` is, by the statement that it executes
next. -/
inductive LoginPc where
  /-- the test of the connect flag -/
  | poll
  | requestUserLogin
  | waitLogin
  | requestSettleConfirm
  | waitSettle
  | returned (excRet : Int)
  deriving DecidableEq

/-- A request that has been made or an answer that has been delivered. -/
inductive LoginEvent where
  | requested (request : TdRequest)
  | answered (answer : BrokerAnswer)
  deriving DecidableEq

/-- The caller of `execute_login_confirm` with the interface object that the callbacks
work on. The events are the history of the handshake. -/
structure LoginSystem where
  td : CTdTradeSpi := {}
  pc : LoginPc := .poll
  excRet : Int := 0
  /-- The requests and the delivered answers, in order. -/
  events : List LoginEvent := []
  deriving DecidableEq

/-- A callback, or a step of the caller. The front end may connect, disconnect and
answer at any time and in any order. -/
inductive LoginAction where
  | connected
  | disconnected
  | answer (a : BrokerAnswer)
  /-- A step of the caller, and the code that a request of this step is met with. -/
  | caller (code : Int)

namespace LoginSystem

/-- One statement of `execute_login_confirm`. A wait that is not notified stays. -/
def executeLoginConfirm (s : LoginSystem) (code : Int) : LoginSystem :=
  match s.pc with
  | .poll => if s.td.connectTdFlag then { s with pc := .requestUserLogin } else s
  | .requestUserLogin =>
    let (td, request) := s.td.requestUserLogin
    let excRet := s.excRet + code
    { td := td
      pc := if 0 = excRet then .waitLogin else .returned excRet
      excRet := excRet
      events := s.events ++ [.requested request] }
  | .waitLogin => if s.td.tdEvent.waitHandle then { s with pc := .requestSettleConfirm } else s
  | .requestSettleConfirm =>
    let (td, request) := s.td.requestSettleConfirm
    let excRet := s.excRet + code
    { td := td
      pc := if 0 = excRet then .waitSettle else .returned excRet
      excRet := excRet
      events := s.events ++ [.requested request] }
  | .waitSettle => if s.td.tdEvent.waitHandle then { s with pc := .returned s.excRet } else s
  | .returned _ => s

def next (s : LoginSystem) : LoginAction → LoginSystem
  | .connected => { s with td := s.td.onFrontConnected }
  | .disconnected => { s with td := s.td.onFrontDisconnected }
  | .answer a => { s with td := s.td.deliver a, events := s.events ++ [.answered a] }
  | .caller code => s.executeLoginConfirm code

/-- The system after a schedule. -/
def run (acts : List LoginAction) : LoginSystem := Execution.exec next {} acts

/-- The answers a schedule delivers, in order. -/
def answersOf (acts : List LoginAction) : List BrokerAnswer :=
  acts.filterMap fun
    | .answer a => some a
    | _ => none

end LoginSystem

/-- After the first request of the kind, an answer of the kind has been delivered. -/
def answeredAfter (request : TdRequest → Bool) (answer : BrokerAnswer → Bool)
    (events : List LoginEvent) : Bool :=
  let since := events.dropWhile fun
    | .requested r => !request r
    | .answered _ => true
  since.any fun
    | .requested _ => false
    | .answered a => answer a

def TdRequest.isUserLogin : TdRequest → Bool
  | .userLogin .. => true
  | .settlementInfoConfirm .. => false

def TdRequest.isSettlementInfoConfirm : TdRequest → Bool
  | .userLogin .. => false
  | .settlementInfoConfirm .. => true

/-- Both requests, for the login and for the confirmation of the settlement, have been
answered, and without an error in the answer. An answer only counts behind its request.
-/
def Confirmed (events : List LoginEvent) : Prop :=
  answeredAfter TdRequest.isUserLogin BrokerAnswer.isLogin events = true ∧
    answeredAfter TdRequest.isSettlementInfoConfirm BrokerAnswer.isConfirm events = true

instance (events : List LoginEvent) : Decidable (Confirmed events) :=
  inferInstanceAs (Decidable (_ ∧ _))

namespace LoginSystem

/-- The caller has not passed the first wait, and the flag that it waits for has not
been set: nothing can have been sent behind the login. -/
structure Waiting (s : LoginSystem) : Prop where
  quiet : s.td.tdEvent.readyFlag = false
  before : s.pc = .poll ∨ s.pc = .requestUserLogin ∨ s.pc = .waitLogin ∨
    ∃ excRet ≠ 0, s.pc = .returned excRet

theorem waiting_next {s : LoginSystem} (hs : Waiting s) {a : LoginAction}
    (quiet : ∀ b, a = .answer b → b.isSuccess = false) : Waiting (next s a) := by
  cases a with
  | connected => exact ⟨hs.quiet, hs.before⟩
  | disconnected => exact ⟨hs.quiet, hs.before⟩
  | answer b =>
      refine ⟨?_, hs.before⟩
      change (s.td.deliver b).tdEvent.readyFlag = false
      rw [CTdTradeSpi.deliver_readyFlag, hs.quiet, quiet b rfl]
      rfl
  | caller code =>
      obtain poll | request | wait | ⟨excRet, hne, done⟩ := hs.before
      · simp only [next, executeLoginConfirm, poll]
        split_ifs
        · exact ⟨hs.quiet, .inr (.inl rfl)⟩
        · exact hs
      · simp only [next, executeLoginConfirm, request]
        refine ⟨hs.quiet, ?_⟩
        by_cases accepted : 0 = s.excRet + code
        · exact .inr (.inr (.inl (if_pos accepted)))
        · exact .inr (.inr (.inr ⟨_, fun h => accepted h.symm, if_neg accepted⟩))
      · simp only [next, executeLoginConfirm, wait, TradeHandle.waitHandle, hs.quiet]
        exact hs
      · simp only [next, executeLoginConfirm, done]
        exact hs

theorem waiting_run {acts : List LoginAction}
    (quiet : ∀ b ∈ answersOf acts, b.isSuccess = false) : Waiting (run acts) := by
  induction acts using List.reverseRecOn with
  | nil => exact ⟨rfl, .inl rfl⟩
  | append_singleton acts a ih =>
      have split : answersOf (acts ++ [a]) = answersOf acts ++ answersOf [a] := by
        simp [answersOf]
      have before : Waiting (run acts) := ih fun b hb => quiet b (by simp [split, hb])
      rw [run, Execution.exec_append]
      refine waiting_next before ?_
      rintro b rfl
      exact quiet b (by simp [answersOf])

theorem exec_answers (s : LoginSystem) (answers : List BrokerAnswer) :
    Execution.exec next s (answers.map .answer) =
      { s with
        td := answers.foldl CTdTradeSpi.deliver s.td
        events := s.events ++ answers.map .answered } := by
  induction answers generalizing s with
  | nil => simp
  | cons a answers ih =>
      rw [List.map_cons, Execution.exec_cons, ih]
      simp [next]

theorem foldl_deliver_readyFlag (td : CTdTradeSpi) (answers : List BrokerAnswer) :
    (answers.foldl CTdTradeSpi.deliver td).tdEvent.readyFlag =
      (td.tdEvent.readyFlag || answers.any BrokerAnswer.isSuccess) := by
  induction answers generalizing td with
  | nil => simp
  | cons a answers ih =>
      rw [List.foldl_cons, ih, CTdTradeSpi.deliver_readyFlag, List.any_cons, Bool.or_assoc]

/-- The answers come while the caller waits for the login; it then runs on alone. -/
def hastyActs (answers : List BrokerAnswer) : List LoginAction :=
  [.connected, .caller 0, .caller 0] ++ answers.map .answer ++ [.caller 0, .caller 0, .caller 0]

theorem answersOf_hastyActs (answers : List BrokerAnswer) :
    answersOf (hastyActs answers) = answers := by
  simp [answersOf, hastyActs, List.filterMap_map]

/-- The caller returns right after its second request. -/
theorem run_hastyActs {answers : List BrokerAnswer}
    (success : answers.any BrokerAnswer.isSuccess = true) :
    (run (hastyActs answers)).pc = .returned 0 ∧
      ∃ login settle, login.isSettlementInfoConfirm = false ∧
        settle.isSettlementInfoConfirm = true ∧ (run (hastyActs answers)).events =
          .requested login :: answers.map .answered ++ [.requested settle] := by
  let waiting : LoginSystem := Execution.exec next {} [.connected, .caller 0, .caller 0]
  let notified : LoginSystem := Execution.exec next waiting (answers.map .answer)
  have state : run (hastyActs answers) =
      Execution.exec next notified [.caller 0, .caller 0, .caller 0] := by
    simp only [run, hastyActs, Execution.exec_append]
    rfl
  have delivered : notified = { waiting with
      td := answers.foldl CTdTradeSpi.deliver waiting.td
      events := waiting.events ++ answers.map .answered } := exec_answers waiting answers
  have ready : notified.td.tdEvent.readyFlag = true := by
    rw [delivered]
    change (answers.foldl CTdTradeSpi.deliver waiting.td).tdEvent.readyFlag = true
    rw [foldl_deliver_readyFlag, success, Bool.or_true]
  have finish : Execution.exec next notified [.caller 0, .caller 0, .caller 0] =
      { td := notified.td.requestSettleConfirm.1
        pc := .returned 0
        excRet := 0
        events := notified.events ++ [.requested notified.td.requestSettleConfirm.2] } := by
    have hpc : notified.pc = .waitLogin := by
      rw [delivered]
      rfl
    have hret : notified.excRet = 0 := by
      rw [delivered]
      rfl
    have ready' : notified.td.requestSettleConfirm.1.tdEvent.readyFlag = true := ready
    simp [next, executeLoginConfirm, hpc, hret, TradeHandle.waitHandle, ready, ready']
  rw [state, finish]
  refine ⟨rfl, (CTdTradeSpi.onFrontConnected {}).requestUserLogin.2,
    notified.td.requestSettleConfirm.2, rfl, rfl, ?_⟩
  rw [delivered]
  rfl

end LoginSystem

open LoginSystem in
/-- Whatever the schedule, `execute_login_confirm` returns 0 only after both
answers, if and only if none of the answers is a success: with any success among
them there is a schedule that returns 0 before the confirmation is answered. -/
theorem login_confirmed_iff (answers : List BrokerAnswer) :
    (∀ acts, answersOf acts <+: answers → (LoginSystem.run acts).pc = .returned 0 →
        Confirmed (LoginSystem.run acts).events) ↔
      ∀ a ∈ answers, a.isSuccess = false := by
  constructor
  · intro confirmed a ha
    by_contra success
    have any : answers.any BrokerAnswer.isSuccess = true :=
      List.any_eq_true.mpr ⟨a, ha, by simpa using success⟩
    obtain ⟨returned, login, settle, hlogin, hsettle, events⟩ := run_hastyActs any
    have delivered : answersOf (hastyActs answers) <+: answers :=
      ⟨[], by rw [answersOf_hastyActs, List.append_nil]⟩
    have both := confirmed (hastyActs answers) delivered returned
    have late := both.2
    rw [events, answeredAfter, List.dropWhile_append_of_pos, List.dropWhile_cons_of_neg] at late
    · simp at late
    · simp [hsettle]
    · simp [hlogin]
  · intro quiet acts delivered returned
    have waiting := waiting_run fun a ha => quiet a (delivered.subset ha)
    obtain poll | request | wait | ⟨excRet, hne, done⟩ := waiting.before
    · simp [poll] at returned
    · simp [request] at returned
    · simp [wait] at returned
    · rw [done] at returned
      exact absurd (LoginPc.returned.inj returned) hne

/-- A successful answer to the login request. -/
def loginAnswer : BrokerAnswer := .rspUserLogin (some {}) (some {}) 0 true

/-- One successful login answer is enough for a return value of 0: the flag that it sets
is still set when the second wait begins, so the confirmation is not waited for. -/
theorem login_returns_unconfirmed :
    ¬ ∀ acts, (LoginSystem.run acts).pc = .returned 0 →
      Confirmed (LoginSystem.run acts).events := by
  intro claim
  have := claim (LoginSystem.hastyActs [loginAnswer]) (by decide +kernel)
  exact absurd this (by decide +kernel)

end CtpTrade
