import CtpTrade.Strategy.Basic
import CtpTrade.TechniqueIndicator.ReadPosition

/-!
# One node of the strategy

Seen from one indicator, the strategy does four things: nothing, a bar pushed to
its series, the start of a visit, and a step of the visit. `node_next` is the
projection of the strategy to this small machine, so an invariant of one node
holds of every node in every run.
-/

namespace CtpTrade

open CMovingAverage CandleCall

/-- One indicator with its series, and what the thread has done with it. The indicators
of a strategy do not look at each other, so each can be followed on its own. -/
structure Node where
  kdata : CCandleBar
  ma : CMovingAverage := fresh
  visit : Option Visit := none
  evaluations : List Evaluation := []
  orders : List RaisedOrder := []

/-- What a step of the strategy means for one node. -/
inductive NodeAction where
  | idle
  | pushBar (bar : CandleBar)
  | start
  | decide

namespace Node

/-- The next step of a visit. -/
def decide (inst : StdString) (n : Node) (visit : Visit) : Node :=
  let result := visit.next inst n.kdata
  { kdata := n.kdata
    ma := result.ma
    visit := result.visit
    evaluations := n.evaluations ++ result.evaluation.toList
    orders := n.orders ++ result.order.toList }

def next (inst : StdString) (n : Node) : NodeAction → Node
  | .idle => n
  | .pushBar bar => { n with kdata := n.kdata.pushBar bar }
  | .start => if n.visit.isNone then { n with visit := some (.start n.ma) } else n
  | .decide =>
    match n.visit with
    | some visit => n.decide inst visit
    | none => n

section Decide

-- The steps of a visit: a locked call in each of the three functions, and what
-- follows the return of each.
variable {inst : StdString} {n : Node} {m : CMovingAverage} {q : CandleCall} {α : Type}
variable {dateIndex : Int} {started : Bool} {action : Int × Int}

theorem decide_checking_call {k : q.Answer → Resumption CMovingAverage CandleCall Answer Bool} :
    n.decide inst (.checking (.call m q k)) =
      { n with
        ma := (k (answer q n.kdata)).state
        visit := some (.checking (k (answer q n.kdata))) } := by
  simp [decide, Visit.next, Resumption.step]

theorem decide_checking_done {ready : Bool} :
    n.decide inst (.checking (.done m ready)) =
      { n with
        ma := m
        visit := if ready then
          some (.signalling m.candleBarReadPos false ((getSignal .closePrice).start m))
        else none } := by
  simp [decide, Visit.next]

theorem decide_signalling_call
    {k : q.Answer → Resumption CMovingAverage CandleCall Answer (Int × Int)} :
    n.decide inst (.signalling dateIndex started (.call m q k)) =
      { n with
        ma := (k (answer q n.kdata)).state
        visit := some (.signalling dateIndex true (k (answer q n.kdata))) } := by
  simp [decide, Visit.next, Resumption.step]

theorem decide_signalling_done :
    n.decide inst (.signalling dateIndex started (.done m action)) =
      { n with
        ma := m
        visit := some (.pricing dateIndex action ((getLimitPrice .closePrice).start m))
        evaluations := n.evaluations ++ [⟨dateIndex, action.1, action.2⟩] } := by
  simp [decide, Visit.next]

theorem decide_pricing_call {k : q.Answer → Resumption CMovingAverage CandleCall Answer ℚ} :
    n.decide inst (.pricing dateIndex action (.call m q k)) =
      { n with
        ma := (k (answer q n.kdata)).state
        visit := some (.pricing dateIndex action (k (answer q n.kdata))) } := by
  simp [decide, Visit.next, Resumption.step]

theorem decide_pricing_done {price : ℚ} :
    n.decide inst (.pricing dateIndex action (.done m price)) =
      { n with
        ma := m
        visit := none
        orders := n.orders ++
          ((triggerSignalAction inst action.1 action.2 price).map
            (RaisedOrder.mk dateIndex)).toList } := by
  simp [decide, Visit.next]

/-- A step of `is_basic_data_ready` keeps what holds at every position, and ends
the visit, stays in the call or enters `get_signal` with a placed indicator. -/
theorem decide_checking_cases {I : CMovingAverage → CCandleBar → Prop}
    {body : Resumption CMovingAverage CandleCall Answer Bool}
    (keeps : body.Keeps answer I (fun m ready d => I m d ∧ (ready = true → m.initialReadPosFlag))
      n.kdata) :
    ∃ ma visit, n.decide inst (.checking body) = { n with ma, visit } ∧ I ma n.kdata ∧
      (visit = none ∨
        (∃ next, visit = some (.checking next) ∧ next.Keeps answer I
          (fun m ready d => I m d ∧ (ready = true → m.initialReadPosFlag)) n.kdata) ∨
        (ma.initialReadPosFlag ∧
          visit = some
            (.signalling ma.candleBarReadPos false ((getSignal .closePrice).start ma)))) := by
  cases body with
  | abort m => exact keeps.elim
  | call m q k =>
      exact ⟨_, _, decide_checking_call, keeps.step.state, .inr (.inl ⟨_, rfl, keeps.step⟩)⟩
  | done m ready =>
      obtain ⟨now, flag⟩ := keeps.done
      refine ⟨_, _, decide_checking_done, now, ?_⟩
      cases ready with
      | false => exact .inl rfl
      | true => exact .inr (.inr ⟨flag rfl, rfl⟩)

end Decide

end Node

namespace CMAStrategy

variable (s : CMAStrategy) (κ : MaNode)

/-- The entries of a log that belong to a node. -/
def logOf {α : Type} (log : List (MaNode × α)) : List α :=
  log.filterMap fun entry => if entry.1 = κ then some entry.2 else none

/-- The results of `get_signal` for a node. -/
def evaluationsOf : List Evaluation := logOf κ s.evaluations

/-- The orders of a node. -/
def ordersOf : List RaisedOrder := logOf κ s.orders

def node : Node where
  kdata := s.candle κ
  ma := s.ma κ
  visit := s.visit.bind fun visit => if visit.1 = κ then some visit.2 else none
  evaluations := s.evaluationsOf κ
  orders := s.ordersOf κ

variable {s κ}

theorem logOf_append_same {α : Type} (log : List (MaNode × α)) (entry : Option α) :
    logOf κ (log ++ (entry.map (κ, ·)).toList) = logOf κ log ++ entry.toList := by
  cases entry <;> simp [logOf]

theorem logOf_append_ne {α : Type} (log : List (MaNode × α)) (entry : Option α) {other : MaNode}
    (h : other ≠ κ) : logOf κ (log ++ (entry.map (other, ·)).toList) = logOf κ log := by
  cases entry <;> simp [logOf, h]

theorem node_decide_same {visit : Visit} (h : s.visit = some (κ, visit)) :
    s.strategicDecisionFunction.node κ = (s.node κ).decide κ.2 visit := by
  simp only [strategicDecisionFunction, h, node, Node.decide, ma, candle, evaluationsOf, ordersOf,
    OrderedMap.nestedFind?_nestedSet, ↓reduceIte, Option.getD_some, logOf_append_same]
  congr 1
  cases (visit.next κ.2 ((s.decisionData.nestedFind? κ).getD {})).visit <;> simp

theorem node_decide_ne {other : MaNode} {visit : Visit} (h : s.visit = some (other, visit))
    (ne : other ≠ κ) : s.strategicDecisionFunction.node κ = s.node κ := by
  simp only [strategicDecisionFunction, h, node, ma, candle, evaluationsOf, ordersOf,
    OrderedMap.nestedFind?_nestedSet, ne.symm, ↓reduceIte, logOf_append_ne _ _ ne]
  congr 1
  cases (visit.next other.2 ((s.decisionData.nestedFind? other).getD {})).visit <;> simp [ne]

theorem node_update (s : CMAStrategy) (κ : MaNode) (period : Int) (bar : CandleBar) :
    (s.update period bar).node κ = s.node κ ∨
      (period, bar.barName.chars) = κ ∧
        (s.update period bar).node κ = (s.node κ).next κ.2 (.pushBar bar) := by
  simp only [update]
  cases found : s.decisionData.nestedFind? (period, bar.barName.chars) with
  | none => exact .inl rfl
  | some kdata =>
      by_cases same : (period, bar.barName.chars) = κ
      · subst same
        refine .inr ⟨rfl, ?_⟩
        simp only [node, candle, ma, evaluationsOf, ordersOf, Node.next,
          OrderedMap.nestedFind?_nestedSet, found,
          ↓reduceIte, Option.getD_some]
      · refine .inl ?_
        simp only [node, candle, ma, evaluationsOf, ordersOf, OrderedMap.nestedFind?_nestedSet,
          Ne.symm same, ↓reduceIte]

/-- A step of the strategy is a step of each of its nodes. -/
theorem node_next (s : CMAStrategy) (a : StrategyAction) (κ : MaNode) :
    ∃ act, (s.next a).node κ = (s.node κ).next κ.2 act ∧
      ∀ bar, act = .pushBar bar → a = .update κ.1 bar ∧ bar.barName.chars = κ.2 := by
  cases a with
  | update period bar =>
      obtain same | ⟨rfl, pushed⟩ := node_update s κ period bar
      · exact ⟨.idle, same, by simp⟩
      · refine ⟨.pushBar bar, pushed, ?_⟩
        rintro bar ⟨⟩
        exact ⟨rfl, rfl⟩
  | decide =>
      cases visiting : s.visit with
      | some entry =>
          obtain ⟨other, visit⟩ := entry
          by_cases same : other = κ
          · subst same
            refine ⟨.decide, ?_, by simp⟩
            have here : (s.node other).visit = some visit := by simp [node, visiting]
            simp only [Node.next, here]
            exact node_decide_same visiting
          · exact ⟨.idle, node_decide_ne visiting same, by simp⟩
      | none =>
          have free : (s.node κ).visit = none := by simp [node, visiting]
          cases todo : s.remaining with
          | nil =>
              refine ⟨.idle, ?_, by simp⟩
              simp only [next, strategicDecisionFunction, visiting, todo, node, candle, ma,
                evaluationsOf, ordersOf, Node.next]
          | cons other rest =>
              by_cases same : other = κ
              · subst same
                refine ⟨.start, ?_, by simp⟩
                simp only [Node.next, free, Option.isNone_none, ↓reduceIte]
                simp only [next, strategicDecisionFunction, visiting, todo, node, candle, ma,
                  evaluationsOf, ordersOf, Option.bind_some, ↓reduceIte]
              · refine ⟨.idle, ?_, by simp⟩
                simp only [next, strategicDecisionFunction, visiting, todo, node, candle, ma,
                  evaluationsOf, ordersOf, Node.next, Option.bind_some, same, ↓reduceIte,
                  Option.bind_none]

theorem ma_foldl_registerIndicator {data : OrderedMap Int (OrderedMap StdString CCandleBar)}
    {techMa : OrderedMap Int (OrderedMap StdString CMovingAverage)}
    (h : ({ decisionData := data, decisionTechMa := techMa } : CMAStrategy).ma κ = fresh)
    (nodes : List MaNode) :
    ({ decisionData := data, decisionTechMa := nodes.foldl registerIndicator techMa } :
      CMAStrategy).ma κ = fresh := by
  induction nodes generalizing techMa with
  | nil => exact h
  | cons other nodes ih =>
      apply ih
      have write := OrderedMap.nestedFind?_of_write
        (fun k => find?_efficientMapOperation techMa other.1 k _)
        (fun k => find?_efficientMapOperation _ other.2 k fresh) κ
      simp only [ma] at h ⊢
      rw [registerIndicator, setDefaultParameters_fresh, write]
      split
      · rfl
      · exact h

theorem node_initialMaStg (data : OrderedMap Int (OrderedMap StdString CCandleBar)) (κ : MaNode) :
    (initialMaStg data).node κ = { kdata := (data.nestedFind? κ).getD {} } := by
  have registered : (initialMaStg data).ma κ = fresh :=
    ma_foldl_registerIndicator rfl data.nestedKeys
  simp only [node, registered]
  rfl

/-- An invariant of one node that needs no condition on the arrival of bars. -/
theorem node_invariant (I : Node → Prop) (keep : ∀ n act, I n → I (n.next κ.2 act))
    (start : ∀ kdata, I { kdata := kdata })
    (data : OrderedMap Int (OrderedMap StdString CCandleBar)) (acts : List StrategyAction) :
    I ((strategyRun data acts).node κ) := by
  refine Execution.exec_invariant (fun s : CMAStrategy => I (s.node κ)) ?_ ?_ acts
  · intro s a hs
    obtain ⟨act, hact, -⟩ := node_next s a κ
    rw [hact]
    exact keep _ act hs
  · rw [node_initialMaStg]
    exact start _

/-- An invariant of one node that bars do not break as long as they arrive in calm states. -/
theorem node_invariant_of_meets (I calm : Node → Prop)
    (keep : ∀ n act, I n → (∀ bar, act = .pushBar bar → calm n) → I (n.next κ.2 act))
    (start : ∀ kdata, I { kdata := kdata })
    (data : OrderedMap Int (OrderedMap StdString CCandleBar)) (acts : List StrategyAction)
    (meets : Execution.Meets (Execution.total next)
      (fun s a => ∀ bar, a = .update κ.1 bar → bar.barName.chars = κ.2 → calm (s.node κ))
      (initialMaStg data) acts) :
    I ((strategyRun data acts).node κ) := by
  refine Execution.exec_invariant_of_meets (fun s : CMAStrategy => I (s.node κ)) ?_ ?_ meets
  · intro s a hs hcalm
    obtain ⟨act, hact, pushed⟩ := node_next s a κ
    rw [hact]
    refine keep _ act hs ?_
    intro bar same
    exact hcalm bar (pushed bar same).1 (pushed bar same).2
  · rw [node_initialMaStg]
    exact start _

end CMAStrategy

end CtpTrade
