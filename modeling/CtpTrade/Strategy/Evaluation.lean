import CtpTrade.Strategy.Node
import Mathlib.Data.List.Range

/-!
# Every bar is evaluated, unless it arrives too early

The results of `get_signal` are compared with those of a sequential evaluation
of the same series. They agree in every run in which no bar of the series
arrives between the first read and the last read of a `get_signal` call that
found no bar at its read position. A bar that arrives there is taken for
evaluated by the size check at the end of the call, although its fork, and
perhaps its trend, has never been calculated.
-/

namespace CtpTrade

open CMovingAverage CandleCall

def evaluationAt (kdata : CCandleBar) (idx : Nat) : Option Evaluation :=
  (evaluate kdata idx).map fun action => ⟨idx, action.1, action.2⟩

/-- A result other than `TECH_SIGNAL_NOTHING`. -/
def Evaluation.signals (e : Evaluation) : Bool := e.signal ≠ techSignalNothing

/-- The signals of the indices in front of `pos`, each evaluated once on the whole
series, from the largest period on. -/
def sequentialUpTo (kdata : CCandleBar) (pos : Nat) : List Evaluation :=
  ((List.range' firstIndex (pos - firstIndex)).filterMap (evaluationAt kdata)).filter
    Evaluation.signals

/-- The signals of all indices from the largest period to the last bar. -/
def sequentialEvaluations (kdata : CCandleBar) : List Evaluation :=
  sequentialUpTo kdata kdata.candles.length

section Sequential

variable {c d : CCandleBar} {pos : Nat}

theorem sequentialUpTo_first : sequentialUpTo c firstIndex = [] := by
  simp [sequentialUpTo]

theorem sequentialUpTo_succ (first : firstIndex ≤ pos) {action : Int × Int}
    (result : evaluate c pos = some action) :
    sequentialUpTo c (pos + 1) =
      sequentialUpTo c pos ++ [⟨pos, action.1, action.2⟩].filter Evaluation.signals := by
  have length : pos + 1 - firstIndex = (pos - firstIndex) + 1 := by omega
  have last : firstIndex + (pos - firstIndex) = pos := by omega
  simp only [sequentialUpTo, length, List.range'_1_concat, last, List.filterMap_append,
    List.filter_append]
  simp only [evaluationAt, result, List.filterMap_cons, List.filterMap_nil, Option.map_some]

/-- The evaluation of the bars present does not depend on later bars. -/
theorem sequentialUpTo_mono (grow : c ≤ d) (inside : pos ≤ c.candles.length) :
    sequentialUpTo d pos = sequentialUpTo c pos := by
  have same : ∀ idx ∈ List.range' firstIndex (pos - firstIndex),
      evaluationAt d idx = evaluationAt c idx := by
    intro idx mem
    have present : idx < c.candles.length := by
      have := List.mem_range'_1.mp mem
      omega
    rw [evaluationAt, evaluationAt, evaluate_mono present grow]
  rw [sequentialUpTo, sequentialUpTo, List.filterMap_congr same]

end Sequential

/-- The results with a signal so far are those of the indices in front of the read
position, one by one as a sequential evaluation of the whole series gives them. -/
def Evaluated (evaluations : List Evaluation) (ma : CMovingAverage) (kdata : CCandleBar) : Prop :=
  ma = fresh ∧ evaluations.filter Evaluation.signals = [] ∨
    ∃ pos, ma = readingAt pos ∧ firstIndex ≤ pos ∧ pos ≤ kdata.candles.length ∧
      evaluations.filter Evaluation.signals = sequentialUpTo kdata pos

/-- A call of `get_signal` for `idx` on its way, in one of four cases: it has not begun;
or the bar is there and the call will end with its evaluation; or the bar is missing and
the call will end without effect, as long as it stays missing; or the call has ended
without effect. A bar that arrives in the third case is what breaks the order. -/
def Pass (idx : Nat) (started : Bool)
    (body : Resumption CMovingAverage CandleCall Answer (Int × Int)) (kdata : CCandleBar) : Prop :=
  started = false ∧ body = (getSignal .closePrice).start (readingAt idx) ∨
  (idx < kdata.candles.length ∧ body.Settled answer kdata ∧
    ∃ action, evaluate kdata idx = some action ∧
      body.eval answer kdata = some (readingAt (idx + 1), action)) ∨
  (idx = kdata.candles.length ∧ started = true ∧
    body.eval answer kdata = some (readingAt idx, silent)) ∨
  body = .done (readingAt idx) silent

/-- What holds in the middle of a visit that leaves the results in order, by what the
visit is doing. While it waits for a signal, the results are those up to its own index,
which is inside the series or right behind it. -/
def VisitInOrder (n : Node) : Visit → Prop
  | .checking body =>
    body.Keeps answer (Evaluated n.evaluations)
      (fun m ready d => Evaluated n.evaluations m d ∧ (ready = true → m.initialReadPosFlag)) n.kdata
  | .signalling dateIndex started body =>
    ∃ idx : Nat, dateIndex = idx ∧ firstIndex ≤ idx ∧ idx ≤ n.kdata.candles.length ∧
      n.evaluations.filter Evaluation.signals = sequentialUpTo n.kdata idx ∧
      Pass idx started body n.kdata
  | .pricing _ _ body =>
    Evaluated n.evaluations n.ma n.kdata ∧ body.Every (· = n.ma) fun _ _ => True

/-- The invariant that an undisturbed run keeps. Between two visits the results are
those of the sequential evaluation; during a visit they are so by what the visit is
doing. -/
def Node.InOrder (n : Node) : Prop :=
  match n.visit with
  | none => Evaluated n.evaluations n.ma n.kdata
  | some visit => VisitInOrder n visit

/-- A call of `get_signal` has made its first read, found no bar at its index,
and has reads left. -/
def Node.missingBarRead (n : Node) : Bool :=
  match n.visit with
  | some (.signalling dateIndex true (.call ..)) => dateIndex = n.kdata.candles.length
  | _ => false

section Growing

variable {c d : CCandleBar} {evaluations : List Evaluation} {ma : CMovingAverage} {idx : Nat}
variable {started : Bool} {body : Resumption CMovingAverage CandleCall Answer (Int × Int)}

theorem Evaluated.later (h : Evaluated evaluations ma c) (grow : c ≤ d) :
    Evaluated evaluations ma d := by
  have longer := CCandleBar.length_mono grow
  obtain h | ⟨pos, same, first, inside, results⟩ := h
  · exact .inl h
  · refine .inr ⟨pos, same, first, by omega, ?_⟩
    rw [results, sequentialUpTo_mono grow inside]

theorem Evaluated.pos (h : Evaluated evaluations ma c) (flag : ma.initialReadPosFlag) :
    ∃ pos, ma = readingAt pos ∧ firstIndex ≤ pos ∧ pos ≤ c.candles.length ∧
      evaluations.filter Evaluation.signals = sequentialUpTo c pos := by
  obtain ⟨rfl, -⟩ | h := h
  · simp [fresh] at flag
  · exact h

theorem Pass.later (h : Pass idx started body c) (grow : c ≤ d)
    (calm : idx = c.candles.length → started = true → ∀ m q k, body ≠ .call m q k) :
    Pass idx started body d := by
  have longer := CCandleBar.length_mono grow
  obtain h | ⟨present, settled, action, result, ends⟩ | ⟨missing, running, ends⟩ | h := h
  · exact .inl h
  · refine .inr (.inl ⟨by omega, settled.later grow, action, ?_, ?_⟩)
    · rw [evaluate_mono present grow, result]
    · rw [settled.eval grow, ends]
  · have noCall := calm missing running
    cases body with
    | call m q k => exact absurd rfl (noCall m q k)
    | abort m => cases ends
    | done m action =>
        cases ends
        exact .inr (.inr (.inr rfl))
  · exact .inr (.inr (.inr h))

/-- What the call comes to if no further bar arrives. -/
theorem Pass.outcome (h : Pass idx started body c) (positive : 0 < idx) :
    (idx < c.candles.length ∧ ∃ action, evaluate c idx = some action ∧
      body.eval answer c = some (readingAt (idx + 1), action)) ∨
    body.eval answer c = some (readingAt idx, silent) := by
  obtain ⟨-, rfl⟩ | ⟨present, -, ends⟩ | ⟨-, -, ends⟩ | rfl := h
  · by_cases present : idx < c.candles.length
    · exact .inl ⟨present, getSignal_eval present⟩
    · exact .inr (getSignal_eval_missing positive (not_lt.mp present))
  · exact .inl ⟨present, ends⟩
  · exact .inr ends
  · exact .inr rfl

theorem Pass.step (h : Pass idx started body c) (positive : 0 < idx)
    (inside : idx ≤ c.candles.length) : Pass idx true (body.step answer c) c := by
  obtain ⟨-, rfl⟩ | ⟨present, settled, action, result, ends⟩ | ⟨missing, -, ends⟩ | rfl := h
  · by_cases present : idx < c.candles.length
    · obtain ⟨action, result, ends⟩ := getSignal_eval present
      refine .inr (.inl ⟨present, (getSignal_settled present).step, action, result, ?_⟩)
      rw [Resumption.eval_step, ends]
    · refine .inr (.inr (.inl ⟨by omega, rfl, ?_⟩))
      rw [Resumption.eval_step, getSignal_eval_missing positive (not_lt.mp present)]
  · refine .inr (.inl ⟨present, settled.step, action, result, ?_⟩)
    rw [Resumption.eval_step, ends]
  · refine .inr (.inr (.inl ⟨missing, rfl, ?_⟩))
    rw [Resumption.eval_step, ends]
  · exact .inr (.inr (.inr rfl))

/-- The result that the call returns is the next one of the sequential evaluation. -/
theorem Pass.evaluated {m : CMovingAverage} {action : Int × Int}
    (h : Pass idx started (.done m action) c) (first : firstIndex ≤ idx)
    (inside : idx ≤ c.candles.length)
    (results : evaluations.filter Evaluation.signals = sequentialUpTo c idx) :
    Evaluated (evaluations ++ [⟨idx, action.1, action.2⟩]) m c := by
  have positive : 0 < idx := Nat.lt_of_lt_of_le (by decide) first
  obtain ⟨present, action', result, ends⟩ | ends := h.outcome positive
  · cases ends
    refine .inr ⟨idx + 1, rfl, by omega, present, ?_⟩
    rw [List.filter_append, results, sequentialUpTo_succ first result]
  · cases ends
    refine .inr ⟨idx, rfl, first, inside, ?_⟩
    rw [List.filter_append, results]
    exact List.append_nil _

end Growing

section Steps

variable {inst : StdString} {n : Node}

theorem isBasicDataReady_inOrder (h : Evaluated n.evaluations n.ma n.kdata) :
    VisitInOrder n (.start n.ma) := by
  refine isBasicDataReady_keeps ?_ ?_ ?_ h
  · exact fun m d d' grow h => h.later grow
  · intro d enough h
    obtain ⟨-, none⟩ | ⟨pos, same, -⟩ := h
    · exact .inr ⟨firstIndex, rfl, le_refl _, enough.le, by rw [none, sequentialUpTo_first]⟩
    · simp [fresh, readingAt] at same
  · obtain ⟨same, -⟩ | ⟨pos, same, -⟩ := h
    · exact .inl same
    · exact .inr ⟨pos, same⟩

theorem VisitInOrder.checking {body : Resumption CMovingAverage CandleCall Answer Bool}
    (h : VisitInOrder n (.checking body)) : (n.decide inst (.checking body)).InOrder := by
  obtain ⟨ma, visit, same, evaluated, outcome⟩ := Node.decide_checking_cases h
  rw [same]
  obtain rfl | ⟨next, rfl, keeps⟩ | ⟨flag, rfl⟩ := outcome
  · exact evaluated
  · exact keeps
  · obtain ⟨pos, rfl, first, inside, results⟩ := evaluated.pos flag
    exact ⟨pos, rfl, first, inside, results, .inl ⟨rfl, rfl⟩⟩

theorem VisitInOrder.signalling {dateIndex : Int} {started : Bool}
    {body : Resumption CMovingAverage CandleCall Answer (Int × Int)}
    (h : VisitInOrder n (.signalling dateIndex started body)) :
    (n.decide inst (.signalling dateIndex started body)).InOrder := by
  obtain ⟨idx, rfl, first, inside, results, pass⟩ := h
  have positive : 0 < idx := Nat.lt_of_lt_of_le (by decide) first
  cases body with
  | abort m =>
      obtain ⟨-, _, -, ends⟩ | ends := pass.outcome positive
      · cases ends
      · cases ends
  | call m q k =>
      rw [Node.decide_signalling_call]
      exact ⟨idx, rfl, first, inside, results, pass.step positive inside⟩
  | done m action =>
      rw [Node.decide_signalling_done]
      exact ⟨pass.evaluated first inside results, rfl, fun _ => ⟨rfl, trivial⟩⟩

theorem VisitInOrder.pricing {dateIndex : Int} {action : Int × Int}
    {body : Resumption CMovingAverage CandleCall Answer ℚ}
    (h : VisitInOrder n (.pricing dateIndex action body)) :
    (n.decide inst (.pricing dateIndex action body)).InOrder := by
  obtain ⟨evaluated, every⟩ := h
  cases body with
  | abort m => exact every.elim
  | call m q k =>
      have next : (k (answer q n.kdata)).Every (· = n.ma) fun _ _ => True := every.2 _
      have same : (k (answer q n.kdata)).state = n.ma := next.state
      rw [Node.decide_pricing_call, same]
      exact ⟨evaluated, next⟩
  | done m price =>
      obtain ⟨rfl, -⟩ := every
      rw [Node.decide_pricing_done]
      exact evaluated

theorem Node.InOrder.pushBar (h : n.InOrder) (calm : n.missingBarRead = false)
    (bar : CandleBar) : Node.InOrder { n with kdata := n.kdata.pushBar bar } := by
  have grow := CCandleBar.le_pushBar n.kdata bar
  have longer := CCandleBar.length_mono grow
  obtain ⟨kdata, ma, visit, evaluations, orders⟩ := n
  cases visit with
  | none => exact Evaluated.later h grow
  | some visit =>
      cases visit with
      | checking body => exact Resumption.Keeps.later h grow
      | signalling dateIndex started body =>
          obtain ⟨idx, rfl, first, inside, results, pass⟩ := h
          refine ⟨idx, rfl, first, le_trans inside longer, ?_, pass.later grow ?_⟩
          · rw [sequentialUpTo_mono grow inside]
            exact results
          · rintro missing rfl m q k rfl
            simp [Node.missingBarRead, missing] at calm
      | pricing dateIndex action body => exact ⟨h.1.later grow, h.2⟩

theorem Node.InOrder.next (h : n.InOrder) (act : NodeAction)
    (calm : ∀ bar, act = .pushBar bar → n.missingBarRead = false) :
    (n.next inst act).InOrder := by
  cases act with
  | idle => exact h
  | pushBar bar => exact h.pushBar (calm bar rfl) bar
  | start =>
      obtain ⟨kdata, ma, visit, evaluations, orders⟩ := n
      cases visit with
      | some visit => exact h
      | none => exact isBasicDataReady_inOrder (n := ⟨kdata, ma, none, evaluations, orders⟩) h
  | decide =>
      obtain ⟨kdata, ma, visit, evaluations, orders⟩ := n
      cases visit with
      | none => exact h
      | some visit =>
          cases visit with
          | checking body => exact VisitInOrder.checking h
          | signalling dateIndex started body => exact VisitInOrder.signalling h
          | pricing dateIndex action body => exact VisitInOrder.pricing h

end Steps

/-- The condition on a step of the strategy under which no index is passed over: no bar
of the series arrives in the middle of a call that has found none. -/
def Undisturbed (κ : MaNode) (s : CMAStrategy) (a : StrategyAction) : Prop :=
  match a with
  | .update period bar =>
    (period, bar.barName.chars) = κ → (s.node κ).missingBarRead = false
  | .decide => True

instance (κ : MaNode) (s : CMAStrategy) : (a : StrategyAction) → Decidable (Undisturbed κ s a)
  | .update period bar =>
    inferInstanceAs
      (Decidable ((period, bar.barName.chars) = κ → (s.node κ).missingBarRead = false))
  | .decide => .isTrue trivial

/-- The part of a visit that can change the indicator: the guard and, if it is open, the
signal. -/
def visitProgram : MaProgram Unit := do
  let ready ← isBasicDataReady
  if ready then do
    let _ ← getSignal .closePrice
    return ()
  else return ()

section Visits

variable {inst : StdString} {n : Node} {m : CMovingAverage}

/-- The thread gets from one state of the node to another by its own steps, while no bar
arrives. -/
def Node.Leads (inst : StdString) (n n' : Node) : Prop :=
  ∃ k, Execution.exec (Node.next inst) n (List.replicate k .decide) = n'

theorem Node.Leads.trans {n₁ n₂ n₃ : Node} (first : n₁.Leads inst n₂) (second : n₂.Leads inst n₃) :
    n₁.Leads inst n₃ := by
  obtain ⟨j, rfl⟩ := first
  obtain ⟨k, rfl⟩ := second
  exact ⟨j + k, by rw [List.replicate_add, Execution.exec_append]⟩

theorem Node.leads_decide {visit : Visit} (visiting : n.visit = some visit) :
    n.Leads inst (n.decide inst visit) := by
  refine ⟨1, ?_⟩
  change n.next inst .decide = _
  simp only [Node.next, visiting]

/-- A function that returns on the present bars returns after finitely many steps. -/
theorem call_returns {α : Type} {a : α} (inst : StdString)
    (InCall : Visit → Resumption CMovingAverage CandleCall Answer α → Prop)
    (calls : ∀ (n : Node) v m q k, InCall v (.call m q k) →
      ∃ ma v', InCall v' (k (answer q n.kdata)) ∧ n.decide inst v = { n with ma, visit := some v' })
    {v : Visit} {body : Resumption CMovingAverage CandleCall Answer α} (inCall : InCall v body)
    (visiting : n.visit = some v) (ends : body.eval answer n.kdata = some (m, a)) :
    ∃ ma v', InCall v' (.done m a) ∧ n.Leads inst { n with ma, visit := some v' } := by
  induction body generalizing n v with
  | abort m => cases ends
  | done m a =>
      cases ends
      refine ⟨n.ma, v, inCall, 0, ?_⟩
      rw [← visiting]
      rfl
  | call m q k ih =>
      obtain ⟨ma, v', inCall', step⟩ := calls n v m q k inCall
      obtain ⟨ma', v'', returned, run⟩ :=
        ih (answer q n.kdata) (n := { n with ma, visit := some v' }) inCall' rfl ends
      refine ⟨ma', v'', returned, (Node.leads_decide visiting).trans ?_⟩
      rw [step]
      exact run

theorem checking_returns {body : Resumption CMovingAverage CandleCall Answer Bool} {ready : Bool}
    (visiting : n.visit = some (.checking body))
    (ends : body.eval answer n.kdata = some (m, ready)) :
    n.Leads inst (n.decide inst (.checking (.done m ready))) := by
  obtain ⟨ma, _, rfl, run⟩ := call_returns inst (fun v body => v = .checking body)
    (by rintro n _ m q k rfl; exact ⟨_, _, rfl, Node.decide_checking_call⟩) rfl visiting ends
  refine run.trans ((Node.leads_decide rfl).trans ⟨0, ?_⟩)
  rw [Node.decide_checking_done, Node.decide_checking_done]
  rfl

theorem signalling_returns {body : Resumption CMovingAverage CandleCall Answer (Int × Int)}
    {dateIndex : Int} {started : Bool} {action : Int × Int}
    (visiting : n.visit = some (.signalling dateIndex started body))
    (ends : body.eval answer n.kdata = some (m, action)) :
    n.Leads inst (n.decide inst (.signalling dateIndex started (.done m action))) := by
  obtain ⟨ma, _, ⟨started', rfl⟩, run⟩ := call_returns inst
    (fun v body => ∃ started, v = .signalling dateIndex started body)
    (by rintro n _ m q k ⟨started, rfl⟩; exact ⟨_, _, ⟨_, rfl⟩, Node.decide_signalling_call⟩)
    ⟨started, rfl⟩ visiting ends
  refine run.trans ((Node.leads_decide rfl).trans ⟨0, ?_⟩)
  rw [Node.decide_signalling_done, Node.decide_signalling_done]
  rfl

theorem pricing_returns {body : Resumption CMovingAverage CandleCall Answer ℚ}
    {dateIndex : Int} {action : Int × Int} {price : ℚ}
    (visiting : n.visit = some (.pricing dateIndex action body))
    (ends : body.eval answer n.kdata = some (m, price)) :
    n.Leads inst (n.decide inst (.pricing dateIndex action (.done m price))) := by
  obtain ⟨ma, _, rfl, run⟩ := call_returns inst
    (fun v body => v = .pricing dateIndex action body)
    (by rintro n _ m q k rfl; exact ⟨_, _, rfl, Node.decide_pricing_call⟩) rfl visiting ends
  refine run.trans ((Node.leads_decide rfl).trans ⟨0, ?_⟩)
  rw [Node.decide_pricing_done, Node.decide_pricing_done]
  rfl

/-- A visit that no bar disturbs ends with the indicator of `visitProgram`. -/
theorem visit_ends (visiting : n.visit = some (.start n.ma))
    (ends : (visitProgram.start n.ma).eval answer n.kdata = some (m, ())) :
    ∃ evaluations orders, n.Leads inst { n with ma := m, visit := none, evaluations, orders } := by
  rw [visitProgram, Program.start_bind, Resumption.eval_bind] at ends
  obtain ⟨⟨m₁, ready⟩, checked, ends⟩ := Option.bind_eq_some_iff.mp ends
  have first : n.Leads inst _ := checking_returns visiting checked
  cases ready with
  | false =>
      cases ends
      exact ⟨_, _, first.trans ⟨0, rfl⟩⟩
  | true =>
      change ((getSignal .closePrice >>= fun _ => pure ()).start m₁).eval answer n.kdata = _ at ends
      rw [Program.start_bind, Resumption.eval_bind] at ends
      obtain ⟨⟨m₂, action⟩, signalled, ends⟩ := Option.bind_eq_some_iff.mp ends
      cases ends
      have second : Node.Leads inst _ _ :=
        signalling_returns (n := n.decide inst (.checking (.done m₁ true))) rfl signalled
      have third : Node.Leads inst _ _ :=
        pricing_returns (n := (n.decide inst (.checking (.done m₁ true))).decide inst
          (.signalling m₁.candleBarReadPos false (.done m₂ action))) rfl rfl
      exact ⟨_, _, first.trans (second.trans (third.trans ⟨0, rfl⟩))⟩

end Visits

/-- No visit is in progress, and one on the present bars leaves the indicator as it is.
Without a new bar nothing will happen here any more. -/
def Node.Idle (n : Node) : Prop :=
  n.visit.isNone ∧ ((visitProgram.start n.ma).eval answer n.kdata).map Prod.fst = some n.ma

instance (n : Node) : Decidable n.Idle := inferInstanceAs (Decidable (_ ∧ _))

/-- The loop only idles: the thread's own visit brings the indicator back. -/
theorem Node.Idle.visit {inst : StdString} {n : Node} (idle : n.Idle) :
    ∃ evaluations orders, Node.Leads inst { n with visit := some (.start n.ma) }
      { n with visit := none, evaluations, orders } := by
  obtain ⟨⟨m, _⟩, ends, same⟩ := Option.map_eq_some_iff.mp idle.2
  obtain rfl : m = n.ma := same
  exact visit_ends (n := { n with visit := some (.start n.ma) }) rfl ends

theorem visitProgram_readingAt {c : CCandleBar} {pos : Nat} (present : pos < c.candles.length) :
    (visitProgram.start (readingAt pos)).eval answer c = some (readingAt (pos + 1), ()) := by
  obtain ⟨action, -, ends⟩ := getSignal_eval present
  simp only [visitProgram, Program.start_bind, start_isBasicDataReady_readingAt, Resumption.bind,
    ↓reduceIte, Resumption.eval_bind, ends, Option.bind_some, Program.start_pure, Resumption.eval]

theorem visitProgram_fresh {c : CCandleBar} (enough : firstIndex < c.candles.length) :
    (visitProgram.start fresh).eval answer c = some (readingAt (firstIndex + 1), ()) := by
  obtain ⟨action, -, ends⟩ := getSignal_eval enough
  have ready : (isBasicDataReady.start fresh).eval answer c =
      some (readingAt firstIndex, true) := by
    rw [start_isBasicDataReady_fresh]
    simp only [Resumption.eval, answer, CCandleBar.getCandleSize, enough, ↓reduceIte]
  simp only [visitProgram, Program.start_bind, Resumption.eval_bind, ready, Option.bind_some,
    ↓reduceIte, ends, Program.start_pure, Resumption.eval]

/-- An idle indicator has evaluated all bars. -/
theorem Evaluated.complete {n : Node} (h : Evaluated n.evaluations n.ma n.kdata)
    (idle : n.Idle) :
    n.evaluations.filter Evaluation.signals = sequentialEvaluations n.kdata := by
  obtain ⟨-, stays⟩ := idle
  obtain ⟨same, none⟩ | ⟨pos, same, first, inside, results⟩ := h
  · have few : ¬ firstIndex < n.kdata.candles.length := by
      intro enough
      rw [same, visitProgram_fresh enough] at stays
      simp [fresh, readingAt] at stays
    have empty : n.kdata.candles.length - firstIndex = 0 := by omega
    rw [none, sequentialEvaluations, sequentialUpTo, empty]
    rfl
  · have last : ¬ pos < n.kdata.candles.length := by
      intro present
      rw [same, visitProgram_readingAt present] at stays
      simp [readingAt] at stays
    have behind : pos = n.kdata.candles.length := by omega
    rw [results, sequentialEvaluations, behind]

/-- In every run in which no bar of the series arrives between the first and the
last read of a `get_signal` call that found no bar at its index: once the
indicator idles, its signals are those of the sequential evaluation. -/
theorem evaluations_sequential (data : OrderedMap Int (OrderedMap StdString CCandleBar))
    (acts : List StrategyAction) (κ : MaNode)
    (undisturbed : Execution.Meets (Execution.total CMAStrategy.next) (Undisturbed κ)
      (CMAStrategy.initialMaStg data) acts)
    (idle : ((strategyRun data acts).node κ).Idle) :
    ((strategyRun data acts).evaluationsOf κ).filter Evaluation.signals =
      sequentialEvaluations ((strategyRun data acts).candle κ) := by
  have inOrder : ((strategyRun data acts).node κ).InOrder := by
    refine CMAStrategy.node_invariant_of_meets Node.InOrder (·.missingBarRead = false)
      (fun n act h calm => h.next act calm) ?_ data acts ?_
    · exact fun kdata => .inl ⟨rfl, rfl⟩
    · refine undisturbed.imp ?_
      rintro s a calm bar rfl name
      exact calm (by rw [name])
  have between : ((strategyRun data acts).node κ).visit = none :=
    Option.isNone_iff_eq_none.mp idle.1
  rw [Node.InOrder, between] at inOrder
  exact Evaluated.complete inOrder idle

def soloNode : MaNode := (minOne, "rb1610".toList)

def soloData : OrderedMap Int (OrderedMap StdString CCandleBar) :=
  OrderedMap.empty.nestedSet soloNode {}

def arrivals (closePrices : List ℚ) : List StrategyAction :=
  closePrices.map fun closePrice =>
    .update minOne { barName := strncpyS 31 "rb1610".toList, closePrice }

/-- The sixth bar arrives between two visits. -/
def calmSchedule : List StrategyAction :=
  arrivals [0, 0, 10, 1, 1] ++ List.replicate 44 .decide ++ arrivals [5] ++
    List.replicate 19 .decide

/-- The sixth bar arrives in front of the last read of a `get_signal` call for its index. -/
def skippingSchedule : List StrategyAction :=
  arrivals [0, 0, 10, 1, 1] ++ List.replicate 49 .decide ++ arrivals [5] ++
    List.replicate 4 .decide

theorem evaluations_sequential_calm :
    ((strategyRun soloData calmSchedule).evaluationsOf soloNode).filter Evaluation.signals =
        sequentialEvaluations ((strategyRun soloData calmSchedule).candle soloNode) ∧
      sequentialEvaluations ((strategyRun soloData calmSchedule).candle soloNode) =
        [⟨5, techSignalBuyIntense, techReasonGoldfork⟩] :=
  ⟨evaluations_sequential soloData calmSchedule soloNode (by decide +kernel) (by decide +kernel),
    by decide +kernel⟩

/-- The indicator idles behind the sixth bar, and its gold fork has been lost: the bar
arrived in the middle of the call that had not found it, and the read position was moved
past it. -/
theorem evaluations_skip_bar :
    ((strategyRun soloData skippingSchedule).node soloNode).Idle ∧
      ((strategyRun soloData skippingSchedule).evaluationsOf soloNode).filter Evaluation.signals =
        [] ∧
      sequentialEvaluations ((strategyRun soloData skippingSchedule).candle soloNode) =
        [⟨5, techSignalBuyIntense, techReasonGoldfork⟩] := by
  decide +kernel

end CtpTrade
