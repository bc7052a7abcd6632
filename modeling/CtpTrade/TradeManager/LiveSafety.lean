import CtpTrade.TradeManager.Exchange
import CtpTrade.TradeManager.Return

/-!
# What ends the process

A null pointer of a library and a refused login with the market data front end end the
process, and so does an order that is placed before the trade interface has been
created. On a well-ordered feed of subscribed instruments that begins behind that point
nothing else does, whatever the interleaving.
-/

namespace CtpTrade

namespace LiveTrader

variable {ins : List StdString} {configs : List StgConfig} {acts : List LiveAction}
variable {s t : LiveTrader}

/-- The ticks a schedule feeds in, in order. -/
def fedBy (acts : List LiveAction) : List MtkData :=
  acts.filterMap fun
    | .trader (.append tick) => some tick
    | _ => none

theorem fedBy_concat (acts : List LiveAction) (a : LiveAction) :
    fedBy (acts ++ [a]) = fedBy acts ++ fedBy [a] := by
  simp [fedBy]

def feedsTick : LiveAction → Bool
  | .trader (.append _) => true
  | _ => false

/-- The condition on a feed under which an order finds the trade interface: ticks come
once the interface has been created. -/
def FeedsLate (s : LiveTrader) (a : LiveAction) : Prop := feedsTick a = true → s.tdApi = true

instance (s : LiveTrader) (a : LiveAction) : Decidable (FeedsLate s a) :=
  inferInstanceAs (Decidable (_ → _))

theorem appended_step {a : LiveAction} (h : Step ins s a t) :
    t.trader.appended = s.trader.appended ∨
      ∃ tick, a = .trader (.append tick) ∧ t.trader.appended = s.trader.appended ++ [tick] := by
  have below {a : TraderAction} {trader : Trader}
      (stepped : Trader.step true ins s.trader a = .ok trader) :
      trader.appended = s.trader.appended ∨ ∃ tick, LiveAction.trader a = .trader (.append tick) ∧
        trader.appended = s.trader.appended ++ [tick] := by
    obtain same | ⟨tick, rfl, added⟩ := Trader.appended_step (Trader.step_cases stepped)
    · exact .inl same
    · exact .inr ⟨tick, rfl, added⟩
  cases h with
  | trader a trader other fed stepped silent => exact below stepped
  | raise index trader order free stepped raised => exact below stepped
  | _ => exact .inl rfl

theorem appended_sublist (h : run ins configs acts = .ok s) :
    s.trader.appended.Sublist (fedBy acts) := by
  induction acts using List.reverseRecOn generalizing s with
  | nil =>
      cases h
      exact List.nil_sublist _
  | append_singleton acts a ih =>
      obtain ⟨m, before, hstep⟩ := Execution.run_concat_ok h
      rw [fedBy_concat]
      obtain same | ⟨tick, rfl, added⟩ := appended_step (step_cases hstep)
      · rw [same]
        exact (ih before).trans (List.sublist_append_left _ _)
      · rw [added]
        exact (ih before).append (List.Sublist.refl [tick])

/-- The trade interface is created once. -/
theorem tdApi_step (silent : s.Silent) {a : LiveAction} (h : Step ins s a t)
    (created : s.tdApi = true) : t.tdApi = true := by
  cases h with
  | initialTdManager reply here =>
      have late := silent.td created
      simp [here] at late
  | _ => exact created

/-- So ticks are only there behind it. -/
theorem created_of_appended (h : run ins configs acts = .ok s)
    (late : Execution.Meets (step ins) FeedsLate (start configs) acts)
    (some : s.trader.appended ≠ []) : s.tdApi = true := by
  refine (Execution.run_invariant_of_meets
    (fun s => s.Silent ∧ (s.trader.appended ≠ [] → s.tdApi = true)) ?_
    ⟨silent_start configs, fun some => absurd rfl some⟩ late h).2 some
  rintro s a t ⟨silent, created⟩ hlate hstep
  have made := step_cases hstep
  refine ⟨silent_step silent made, fun some => tdApi_step silent made ?_⟩
  obtain same | ⟨tick, fed, -⟩ := appended_step made
  · exact created (same ▸ some)
  · exact hlate (by rw [fed]; rfl)

/-- An order is only placed behind it. -/
theorem created_of_underWay (h : run ins configs acts = .ok s)
    (late : Execution.Meets (step ins) FeedsLate (start configs) acts) {index : Nat}
    {call : OrderInsert} (under : s.inserting index = some call) : s.tdApi = true := by
  have orders := (placing_run h).orders index
  have mem : call.inputOrder ∈ (s.trader.ordersAt index).map LimitOrder.inputOrder := by
    rw [← orders, underWay, under]
    simp
  obtain ⟨order, raised, -⟩ := List.mem_map.mp mem
  obtain ⟨acts', reached⟩ := run_trader h
  obtain ⟨direction, tick, fed, -⟩ := tick_of_ordersAt reached raised
  exact created_of_appended h late (List.ne_nil_of_mem fed)

/-- The next step is possible. -/
theorem step_ok_of_run (h : run ins configs acts = .ok s)
    (late : Execution.Meets (step ins) FeedsLate (start configs) acts) {a : LiveAction}
    (ordered : ∀ name ∈ ins, Ordered (ticksOf name s.trader.appended))
    (subscribed : ∀ tick ∈ s.trader.appended, tick.instrumentID.chars ∈ ins)
    (calculated : ∀ name, a = .trader (.calculate name) → name ∈ ins)
    (redis : ∀ reply, a = .main reply → reply.redisErr.isSome = true)
    (accepted : ∀ rspInfo, a = .mdLogin rspInfo → ∃ info ∈ rspInfo, info.errorID = 0) :
    ∃ t, step ins s a = .ok t := by
  obtain ⟨acts', reached⟩ := run_trader h
  have below (b : TraderAction) (same : ∀ name, b = .calculate name → a = .trader b) :
      ∃ t, s.stepTrader ins b = .ok t := by
    obtain ⟨trader, stepped⟩ := Trader.step_ok_of_run reached (a := b) ordered subscribed
      fun name calls => calculated name ((same name calls).trans (by rw [calls]))
    simp only [stepTrader, stepped]
    split <;> exact ⟨_, rfl⟩
  cases a with
  | main reply =>
      obtain ⟨err, some⟩ := Option.isSome_iff_exists.mp (redis reply rfl)
      simp only [step, initialTrader, some]
      cases s.pc with
      | subscribeMarket =>
          simp only
          split_ifs <;> exact ⟨_, rfl⟩
      | waitReady =>
          simp only
          split_ifs <;> exact ⟨_, rfl⟩
      | _ => exact ⟨_, rfl⟩
  | mdConnected =>
      simp only [step]
      split_ifs <;> exact ⟨_, rfl⟩
  | mdDisconnected =>
      simp only [step]
      split_ifs <;> exact ⟨_, rfl⟩
  | mdLogin rspInfo =>
      obtain ⟨info, rfl, zero⟩ := accepted rspInfo rfl
      simp only [step, CMdSpi.onRspUserLogin, zero, ↓reduceIte]
      split_ifs <;> exact ⟨_, rfl⟩
  | tdConnected =>
      simp only [step]
      split_ifs <;> exact ⟨_, rfl⟩
  | tdDisconnected =>
      simp only [step]
      split_ifs <;> exact ⟨_, rfl⟩
  | tdAnswer a =>
      simp only [step]
      split_ifs <;> exact ⟨_, rfl⟩
  | trader b =>
      cases b with
      | main => exact ⟨s, rfl⟩
      | append tick =>
          simp only [step]
          split_ifs
          · exact below (.append tick) (by simp)
          · exact ⟨s, rfl⟩
      | decide index =>
          simp only [step]
          split
          · exact ⟨s, rfl⟩
          · exact below (.decide index) (by simp)
      | _ => exact below _ (fun _ _ => rfl)
  | insert index code =>
      simp only [step, requestOrderInsert]
      split
      · exact ⟨s, rfl⟩
      · rename_i request under
        rw [if_pos (created_of_underWay h late under)]
        exact ⟨_, rfl⟩
      · exact ⟨_, rfl⟩

end LiveTrader

open LiveTrader

/-- On a well-ordered feed of subscribed instruments that begins once the trade interface
has been created, no interleaving of the callbacks, the main thread and all other threads
ends the process, provided that redis yields a context and the market data front end
accepts the logins. -/
theorem live_trader_never_faults {ins : List StdString} {configs : List StgConfig}
    {acts : List LiveAction} (feed : ∀ name ∈ ins, WellOrdered (ticksOf name (fedBy acts)))
    (subscribed : ∀ tick ∈ fedBy acts, tick.instrumentID.chars ∈ ins)
    (calculated : ∀ name, .trader (.calculate name) ∈ acts → name ∈ ins)
    (redis : ∀ reply, .main reply ∈ acts → reply.redisErr.isSome = true)
    (accepted : ∀ rspInfo, .mdLogin rspInfo ∈ acts → ∃ info ∈ rspInfo, info.errorID = 0)
    (late : Execution.Meets (LiveTrader.step ins) FeedsLate (LiveTrader.start configs) acts) :
    ∃ s, LiveTrader.run ins configs acts = .ok s := by
  induction acts using List.reverseRecOn with
  | nil => exact ⟨_, rfl⟩
  | append_singleton acts a ih =>
      have before (name : StdString) : (ticksOf name (fedBy acts)).Sublist
          (ticksOf name (fedBy (acts ++ [a]))) := by
        rw [fedBy_concat, ticksOf_append]
        exact List.sublist_append_left _ _
      have named : ∀ tick ∈ fedBy acts, tick.instrumentID.chars ∈ ins :=
        fun tick ht => subscribed tick (by simp [fedBy_concat, ht])
      have earlier := late.of_append
      obtain ⟨s, hrun⟩ := ih (fun name hname => (feed name hname).sublist (before name)) named
        (fun name hname => calculated name (by simp [hname]))
        (fun reply hreply => redis reply (by simp [hreply]))
        (fun info hinfo => accepted info (by simp [hinfo])) earlier
      have fed := appended_sublist hrun
      have fedOf (name : StdString) :
          (ticksOf name s.trader.appended).Sublist (ticksOf name (fedBy (acts ++ [a]))) :=
        (fed.filter _).trans (before name)
      obtain ⟨t, hstep⟩ := step_ok_of_run hrun earlier (a := a)
        (fun name hname => (feed name hname).ordered.sublist (fedOf name))
        (fun tick ht => named tick (fed.subset ht))
        (fun name called => calculated name (by simp [called]))
        (fun reply called => redis reply (by simp [called]))
        (fun info called => accepted info (by simp [called]))
      refine ⟨t, ?_⟩
      rw [LiveTrader.run, Execution.run_append_ok hrun, Execution.run_cons_ok hstep]
      rfl

/-- The start-up, and then the turn of the morning session. -/
def liveLunch : List LiveAction := startUpActs ++ (lunchTrade.drop 11).map .trader

theorem live_trader_never_faults_lunch :
    ∃ s, LiveTrader.run [sampleName.chars] [forkConfig] liveLunch = .ok s := by
  apply live_trader_never_faults
  · exact lunchTrade_wellOrdered
  · decide
  · simp [liveLunch, startUpActs, lunchTrade]
  · simp [liveLunch, startUpActs, lunchTrade]
  · simp [liveLunch, startUpActs, lunchTrade]
  · decide +kernel

end CtpTrade
