import CtpTrade.TradeManager.Connection

/-!
# Whether `initial_trader` returns

The main thread waits in loops without a bound: for the login with the market data front
end, for the connection to the trade front end, and twice for an answer of it. Each wait
can end unless the interface behind it could not be created, and then it never does.
-/

namespace CtpTrade

namespace LiveTrader

variable {ins : List StdString} {s t : LiveTrader}

/-- The main thread waits for a callback of an interface that could not be created, and
so waits for ever. -/
def Stuck (ins : List StdString) (s : LiveTrader) : Prop :=
  (s.pc = .subscribeMarket ∧ ins ≠ [] ∨ s.pc = .waitReady) ∧ s.md.mdApi = false ∨
    s.pc = .executeLoginConfirm ∧ s.tdApi = false

/-- There is a continuation, with suitable answers of the front ends, in which
`initial_trader` returns with the login confirmed. -/
def CanConfirm (ins : List StdString) (s : LiveTrader) : Prop :=
  ∃ acts t, Execution.run (step ins) s acts = .ok t ∧ t.pc = .returned ∧
    t.login.pc = .returned 0

theorem CanConfirm.of_step {a : LiveAction} (h : step ins s a = .ok t)
    (rest : t.CanConfirm ins) : s.CanConfirm ins := by
  obtain ⟨acts, u, reached, returned⟩ := rest
  exact ⟨a :: acts, u, by rw [Execution.run_cons_ok h, reached], returned⟩

section Handshake

-- The caller in `execute_login_confirm`, with every request accepted.
private theorem canConfirm_caller (hs : s.Protocol ins) (here : s.pc = .executeLoginConfirm)
    {pc : LoginPc} (next : (s.login.next (.caller 0)).pc = pc) (inside : ∀ e, pc ≠ .returned e)
    (rest : (s.stepLogin (.caller 0)).Protocol ins → (s.stepLogin (.caller 0)).CanConfirm ins) :
    s.CanConfirm ins := by
  have hstep : step ins s (.main {}) = .ok (s.stepLogin (.caller 0)) := by
    simp only [step, initialTrader, here, executeLoginConfirm]
    split
    · rename_i excRet returned
      exact absurd (next.symm.trans returned) (inside excRet)
    · rfl
  exact .of_step hstep (rest (protocol_step hs (step_cases hstep)))

private theorem canConfirm_waitSettle (hs : s.Protocol ins) (here : s.pc = .executeLoginConfirm)
    (login : s.login.pc = .waitSettle) : s.CanConfirm ins := by
  have sent := hs.handshake.sent
  rw [login] at sent
  obtain ⟨zero, -, flag⟩ := sent
  have next : (s.login.next (.caller 0)).pc = .returned 0 := by
    simp [LoginSystem.next, LoginSystem.executeLoginConfirm, login, TradeHandle.waitHandle, flag,
      zero]
  refine ⟨[.main {}], { s.stepLogin (.caller 0) with tradeRet := s.tradeRet, pc := .returned },
    ?_, rfl, next⟩
  have next' : (s.stepLogin (.caller 0)).login.pc = .returned 0 := next
  simp [Execution.run, step, initialTrader, here, executeLoginConfirm, next']

private theorem canConfirm_requestSettleConfirm (hs : s.Protocol ins)
    (here : s.pc = .executeLoginConfirm) (login : s.login.pc = .requestSettleConfirm) :
    s.CanConfirm ins := by
  have sent := hs.handshake.sent
  rw [login] at sent
  have next : (s.login.next (.caller 0)).pc = .waitSettle := by
    simp [LoginSystem.next, LoginSystem.executeLoginConfirm, login, sent.1]
  exact canConfirm_caller hs here next (by simp) fun hs => canConfirm_waitSettle hs here next

private theorem canConfirm_waitLogin (hs : s.Protocol ins) (here : s.pc = .executeLoginConfirm)
    (created : s.tdApi = true) (login : s.login.pc = .waitLogin) : s.CanConfirm ins := by
  have hstep : step ins s (.tdAnswer loginAnswer) = .ok (s.stepLogin (.answer loginAnswer)) :=
    if_pos created
  have flag : (s.stepLogin (.answer loginAnswer)).login.td.tdEvent.readyFlag = true := by
    refine (s.login.td.deliver_readyFlag loginAnswer).trans ?_
    rw [show loginAnswer.isSuccess = true from rfl, Bool.or_true]
  have waiting : (s.stepLogin (.answer loginAnswer)).login.pc = .waitLogin := login
  have next : ((s.stepLogin (.answer loginAnswer)).login.next (.caller 0)).pc =
      .requestSettleConfirm := by
    simp [LoginSystem.next, LoginSystem.executeLoginConfirm, waiting, TradeHandle.waitHandle, flag]
  exact .of_step hstep (canConfirm_caller (protocol_step hs (step_cases hstep)) here next (by simp)
    fun hs => canConfirm_requestSettleConfirm hs here next)

private theorem canConfirm_requestUserLogin (hs : s.Protocol ins)
    (here : s.pc = .executeLoginConfirm) (created : s.tdApi = true)
    (login : s.login.pc = .requestUserLogin) : s.CanConfirm ins := by
  have sent := hs.handshake.sent
  rw [login] at sent
  have next : (s.login.next (.caller 0)).pc = .waitLogin := by
    simp [LoginSystem.next, LoginSystem.executeLoginConfirm, login, sent.1]
  exact canConfirm_caller hs here next (by simp) fun hs =>
    canConfirm_waitLogin hs here created next

private theorem canConfirm_poll (hs : s.Protocol ins) (here : s.pc = .executeLoginConfirm)
    (created : s.tdApi = true) (login : s.login.pc = .poll) : s.CanConfirm ins := by
  have hstep : step ins s .tdConnected = .ok (s.stepLogin .connected) := if_pos created
  have next : ((s.stepLogin .connected).login.next (.caller 0)).pc = .requestUserLogin := by
    simp [LoginSystem.next, LoginSystem.executeLoginConfirm, stepLogin,
      CTdTradeSpi.onFrontConnected, login]
  exact .of_step hstep (canConfirm_caller (protocol_step hs (step_cases hstep)) here next (by simp)
    fun hs => canConfirm_requestUserLogin hs here created next)

end Handshake

private theorem canConfirm_main (hs : s.Protocol ins) {reply : Reply}
    (hstep : step ins s (.main reply) = .ok t) (rest : t.Protocol ins → t.CanConfirm ins) :
    s.CanConfirm ins :=
  .of_step hstep (rest (protocol_step hs (step_cases hstep)))

private theorem canConfirm_initialTdManager (hs : s.Protocol ins)
    (here : s.pc = .initialTdManager) : s.CanConfirm ins := by
  have waiting := hs.before (by simp [here]) (by simp [here])
  have hstep : step ins s (.main {}) = .ok
      { s with
        tdApi := true
        tradeRet := s.tradeRet && true
        pc := .executeLoginConfirm } := by
    simp [step, initialTrader, here]
  exact canConfirm_main hs hstep fun hs => canConfirm_poll hs rfl rfl waiting

private theorem canConfirm_subscribeInstruments (hs : s.Protocol ins)
    (here : s.pc = .subscribeInstruments) : s.CanConfirm ins := by
  have hstep : step ins s (.main {}) = .ok
      { s with
        tradeRet := s.tradeRet && true
        wire := s.wire ++
          [.mdRequest (.subscribeMarketData s.subscribeInst s.subscribeInst.length)]
        pc := .initialTdManager } := by
    simp [step, initialTrader, here, CMdSpi.subscribeInstruments, hs.granted here]
  exact canConfirm_main hs hstep fun hs => canConfirm_initialTdManager hs rfl

private theorem canConfirm_waitReady (hs : s.Protocol ins) (here : s.pc = .waitReady)
    (created : s.md.mdApi = true) : s.CanConfirm ins := by
  let answered : LiveTrader := { s with
    md := { s.md with isReadySubscribe := true }
    wire := s.wire ++ [.mdAnswer (some {})] }
  have hanswer : step ins s (.mdLogin (some {})) = .ok answered := by
    simp [step, created, CMdSpi.onRspUserLogin, answered]
  have hready : step ins answered (.main {}) =
      .ok { answered with pc := .subscribeInstruments } := by
    simp [step, initialTrader, answered, here, CMdSpi.getReadySubscribe]
  exact .of_step hanswer (canConfirm_main (protocol_step hs (step_cases hanswer)) hready
    fun hs => canConfirm_subscribeInstruments hs rfl)

private theorem canConfirm_subscribeMarket (hs : s.Protocol ins) (here : s.pc = .subscribeMarket)
    (created : ins ≠ [] → s.md.mdApi = true) : s.CanConfirm ins := by
  have list := subscribeInst_eq hs (hs.started (by simp [here]) (by simp [here]))
  by_cases none : ins = []
  · have hstep : step ins s (.main {}) =
        .ok { s with tradeRet := false, pc := .initialTdManager } := by
      simp [step, initialTrader, here, list, none]
    exact canConfirm_main hs hstep fun hs => canConfirm_initialTdManager hs rfl
  · have hstep : step ins s (.main {}) = .ok { s with pc := .waitReady } := by
      simp [step, initialTrader, here, list, none]
    exact canConfirm_main hs hstep fun hs => canConfirm_waitReady hs rfl (created none)

private theorem canConfirm_createMdApi (hs : s.Protocol ins) (here : s.pc = .createMdApi) :
    s.CanConfirm ins := by
  have hstep : step ins s (.main {}) = .ok
      { s with
        md := { s.md with mdApi := true }
        tradeRet := s.tradeRet && true
        pc := .subscribeMarket } := by
    simp [step, initialTrader, here]
  exact canConfirm_main hs hstep fun hs => canConfirm_subscribeMarket hs rfl fun _ => rfl

private theorem canConfirm_initialMdManager {todo : List StartStep} (hs : s.Protocol ins)
    (here : s.pc = .initialMdManager) (rest : s.trader.mdManager.todo = todo) :
    s.CanConfirm ins := by
  induction todo generalizing s with
  | nil =>
      have finished : (s.trader.mdManager.next ins .main).todo = [] := by
        simp [MdSystem.next, rest]
      have hstep : step ins s (.main {}) = .ok
          { s with
            trader := { s.trader with mdManager := s.trader.mdManager.next ins .main }
            pc := .createMdApi } := by
        simp [step, initialTrader, here, finished]
      exact canConfirm_main hs hstep fun hs => canConfirm_createMdApi hs rfl
  | cons first todo ih =>
      have later : (s.trader.mdManager.next ins .main).todo = todo := by
        simp [MdSystem.next, rest]
      have hstep : step ins s (.main {}) = .ok
          { s with
            trader := { s.trader with mdManager := s.trader.mdManager.next ins .main }
            pc := if todo = [] then .createMdApi else .initialMdManager } := by
        simp [step, initialTrader, here, later]
      refine canConfirm_main hs hstep fun hs => ?_
      by_cases finished : todo = []
      · exact canConfirm_createMdApi hs (if_pos finished)
      · exact ih hs (if_neg finished) later

private theorem canConfirm_connectRedis (hs : s.Protocol ins) (here : s.pc = .connectRedis) :
    s.CanConfirm ins := by
  have hstep : step ins s (.main {}) = .ok
      { s with
        redis := some 0
        tradeRet := s.tradeRet && true
        pc := .initialMdManager } := by
    simp [step, initialTrader, here]
  exact canConfirm_main hs hstep fun hs => canConfirm_initialMdManager hs rfl rfl

/-- From wherever the main thread is, unless it is stuck. -/
theorem canConfirm (hs : s.Protocol ins) (free : ¬ s.Stuck ins) (notYet : s.pc ≠ .returned) :
    s.CanConfirm ins := by
  cases here : s.pc with
  | connectRedis => exact canConfirm_connectRedis hs here
  | initialMdManager => exact canConfirm_initialMdManager hs here rfl
  | createMdApi => exact canConfirm_createMdApi hs here
  | subscribeMarket =>
      refine canConfirm_subscribeMarket hs here fun some => ?_
      by_contra down
      exact free (.inl ⟨.inl ⟨here, some⟩, by simpa using down⟩)
  | waitReady =>
      refine canConfirm_waitReady hs here ?_
      by_contra down
      exact free (.inl ⟨.inr here, by simpa using down⟩)
  | subscribeInstruments => exact canConfirm_subscribeInstruments hs here
  | initialTdManager => exact canConfirm_initialTdManager hs here
  | executeLoginConfirm =>
      have created : s.tdApi = true := by
        by_contra down
        exact free (.inr ⟨here, by simpa using down⟩)
      cases hl : s.login.pc with
      | poll => exact canConfirm_poll hs here created hl
      | requestUserLogin => exact canConfirm_requestUserLogin hs here created hl
      | waitLogin => exact canConfirm_waitLogin hs here created hl
      | requestSettleConfirm => exact canConfirm_requestSettleConfirm hs here hl
      | waitSettle => exact canConfirm_waitSettle hs here hl
      | returned excRet => exact absurd hl (hs.inside notYet excRet)
  | returned => exact absurd here notYet

/-- Nothing comes from an interface that has not been created, and an interface is only
created by its own statement of the start-up. -/
structure Silent (s : LiveTrader) : Prop where
  md : s.md.mdApi = true → s.pc ≠ .connectRedis ∧ s.pc ≠ .initialMdManager ∧ s.pc ≠ .createMdApi
  ready : s.md.isReadySubscribe = true → s.md.mdApi = true
  td : s.tdApi = true → s.pc = .executeLoginConfirm ∨ s.pc = .returned
  polling : s.tdApi = false → s.login.td.connectTdFlag = false ∧ s.login.pc = .poll

private theorem silent_poll {login : LoginSystem} (code : Int)
    (polling : login.td.connectTdFlag = false ∧ login.pc = .poll) :
    login.next (.caller code) = login := by
  simp [LoginSystem.next, LoginSystem.executeLoginConfirm, polling]

private theorem silent_goto (silent : s.Silent) (trader : Trader) {pc : TraderPc}
    (redis : Option Int) (tradeRet : Bool) (wire : List WireEvent)
    (early : s.pc ≠ .executeLoginConfirm ∧ s.pc ≠ .returned)
    (later : s.md.mdApi = true → pc ≠ .connectRedis ∧ pc ≠ .initialMdManager ∧ pc ≠ .createMdApi) :
    ({ s with trader, redis, tradeRet, wire, pc } : LiveTrader).Silent where
  md := later
  ready := silent.ready
  td up := by
    obtain here | here := silent.td up
    · exact absurd here early.1
    · exact absurd here early.2
  polling := silent.polling

theorem silent_step (silent : s.Silent) {a : LiveAction} (h : Step ins s a t) : t.Silent := by
  obtain ⟨md, ready, td, polling⟩ := id silent
  cases h with
  | idle => exact silent
  | connectRedis reply err here =>
      exact silent_goto silent _ _ _ _ (by simp [here]) fun up => absurd here (md up).1
  | initialMdManager reply here =>
      exact silent_goto silent _ _ _ _ (by simp [here]) fun up => absurd here (md up).2.1
  | createMdApi reply here =>
      have down : s.md.isReadySubscribe = true → False := fun up => (md (ready up)).2.2 here
      refine ⟨fun _ => by simp, fun up => (down up).elim, ?_, polling⟩
      intro up
      have late := td up
      simp [here] at late
  | noInstruments reply here none =>
      exact silent_goto silent _ _ _ _ (by simp [here]) fun _ => by simp
  | instruments reply here some =>
      exact silent_goto silent _ _ _ _ (by simp [here]) fun _ => by simp
  | ready reply here up => exact silent_goto silent _ _ _ _ (by simp [here]) fun _ => by simp
  | subscribeInstruments reply here up =>
      exact silent_goto silent _ _ _ _ (by simp [here]) fun _ => by simp
  | notSubscribed reply here up =>
      exact silent_goto silent _ _ _ _ (by simp [here]) fun _ => by simp
  | initialTdManager reply here =>
      refine ⟨fun _ => by simp, ready, fun _ => .inl rfl, fun _ => polling ?_⟩
      by_contra up
      have late := td (by simpa using up)
      simp [here] at late
  | caller reply here inside =>
      refine ⟨md, ready, td, fun down => ?_⟩
      change (s.login.next _).td.connectTdFlag = false ∧ (s.login.next _).pc = .poll
      rw [silent_poll _ (polling down)]
      exact polling down
  | callerReturns reply here excRet returns =>
      refine ⟨fun up => by simp, ready, fun _ => .inr rfl, fun down => ?_⟩
      rw [silent_poll _ (polling down), (polling down).2] at returns
      cases returns
  | mdConnected created => exact ⟨md, ready, td, polling⟩
  | mdDisconnected created => exact ⟨md, ready, td, polling⟩
  | mdLogin info created accepted => exact ⟨md, fun _ => created, td, polling⟩
  | tdConnected created => exact ⟨md, ready, td, fun down => by simp [stepLogin, created] at down⟩
  | tdDisconnected created =>
      exact ⟨md, ready, td, fun down => by simp [stepLogin, created] at down⟩
  | tdAnswer a created => exact ⟨md, ready, td, fun down => by simp [stepLogin, created] at down⟩
  | trader a trader other fed stepped silent => exact ⟨md, ready, td, polling⟩
  | raise index trader order free stepped raised => exact ⟨md, ready, td, polling⟩
  | access index code call under early =>
      obtain ⟨requestId, orderRef, counters⟩ := s.login.td.accessNext_frame call
      refine ⟨md, ready, td, fun down => ?_⟩
      simp only [counters]
      exact polling down
  | order index code request created under => exact ⟨md, ready, td, polling⟩

/-- Whoever is stuck stays stuck. -/
theorem stuck_step (hs : s.Protocol ins) (silent : s.Silent) (stuck : s.Stuck ins)
    {a : LiveAction} (h : Step ins s a t) : t.Stuck ins := by
  cases h with
  | idle => exact stuck
  | connectRedis reply err here => simp [Stuck, here] at stuck
  | initialMdManager reply here => simp [Stuck, here] at stuck
  | createMdApi reply here => simp [Stuck, here] at stuck
  | noInstruments reply here none =>
      rw [subscribeInst_eq hs (hs.started (by simp [here]) (by simp [here]))] at none
      simp [Stuck, here, none] at stuck
  | instruments reply here some =>
      simp only [Stuck, here, true_and, reduceCtorEq, or_false, false_and] at stuck
      exact .inl ⟨.inr rfl, stuck.2⟩
  | ready reply here up => simp [Stuck, here, silent.ready up] at stuck
  | subscribeInstruments reply here up => simp [Stuck, here] at stuck
  | notSubscribed reply here up => simp [Stuck, here] at stuck
  | initialTdManager reply here => simp [Stuck, here] at stuck
  | caller reply here inside => exact stuck
  | callerReturns reply here excRet returns =>
      simp only [Stuck, here, true_and, reduceCtorEq, or_false, false_and, false_or] at stuck
      rw [silent_poll _ (silent.polling stuck), (silent.polling stuck).2] at returns
      cases returns
  | mdConnected created => exact stuck
  | mdDisconnected created => exact stuck
  | mdLogin info created accepted => exact stuck
  | tdConnected created => exact stuck
  | tdDisconnected created => exact stuck
  | tdAnswer a created => exact stuck
  | trader a trader other fed stepped quiet => exact stuck
  | raise index trader order free stepped raised => exact stuck
  | access index code call under early => exact stuck
  | order index code request created under => exact stuck

theorem silent_start (configs : List StgConfig) : (start configs).Silent :=
  ⟨by simp [start], by simp [start], by simp [start], fun _ => ⟨rfl, rfl⟩⟩

theorem silent_run {configs : List StgConfig} {acts : List LiveAction}
    (h : run ins configs acts = .ok s) : s.Silent :=
  Execution.run_invariant Silent (fun _ _ _ hs hstep => silent_step hs (step_cases hstep))
    (silent_start configs) h

theorem stuck_run (hs : s.Protocol ins) (silent : s.Silent) (stuck : s.Stuck ins)
    {acts : List LiveAction} (h : Execution.run (step ins) s acts = .ok t) : t.Stuck ins := by
  refine (Execution.run_invariant (fun t => t.Protocol ins ∧ t.Silent ∧ t.Stuck ins) ?_
    ⟨hs, silent, stuck⟩ h).2.2
  rintro s a t ⟨hs, silent, stuck⟩ hstep
  have made := step_cases hstep
  exact ⟨protocol_step hs made, silent_step silent made, stuck_step hs silent stuck made⟩

end LiveTrader

open LiveTrader

end CtpTrade
