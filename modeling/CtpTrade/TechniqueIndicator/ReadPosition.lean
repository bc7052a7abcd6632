import CtpTrade.TechniqueIndicator.Signals

/-!
# The read position

With the default parameters the indicator is either fresh or reading at a
position. `get_signal` evaluates the bar at the read position and then advances
past it if it is there. On a bar that is there at its first read the result is
the one of `evaluate`, the evaluation of the same bar on a series that does not
change; on a bar that arrives during the call it can be anything but a fork.
-/

namespace CtpTrade

namespace CMovingAverage

open CandleCall

/-- An indicator with the default parameters before its first bar. -/
def fresh : CMovingAverage := { maAttribute := defaultAttribute }

/-- An indicator with the default parameters that reads at `pos`. -/
def readingAt (pos : Nat) : CMovingAverage where
  initialReadPosFlag := true
  candleBarReadPos := pos
  maAttribute := defaultAttribute

instance : Inhabited CMovingAverage := ⟨fresh⟩

/-- The largest default period, at which reading starts. -/
def firstIndex : Nat := (periodMax defaultAttribute.periodCycle).toNat

theorem setDefaultParameters_fresh : setDefaultParameters {} = fresh := rfl

theorem readingAt_steady (pos : Nat) : Steady (readingAt pos) := .inr rfl

def forkAt (idx : Nat) : MaProgram (Int × Int) :=
  getForkSignal idx defaultAttribute.periodCycle .closePrice defaultAttribute.flagGoldfork
    defaultAttribute.flagDeadfork

def trendAt (idx : Nat) : MaProgram (Int × Int) :=
  getTrendSignal idx defaultAttribute.periodCycle .closePrice defaultAttribute.flagLong
    defaultAttribute.flagShort

/-- The fork at an index of a series that does not change, computed by `get_fork_signal`
with the default parameters. -/
def evaluateFork (c : CCandleBar) (idx : Nat) : Option (Int × Int) :=
  (((forkAt idx).start (readingAt idx)).eval answer c).map Prod.snd

/-- The trend at an index of a series that does not change, computed by
`get_trend_signal` with the default parameters. -/
def evaluateTrend (c : CCandleBar) (idx : Nat) : Option (Int × Int) :=
  (((trendAt idx).start (readingAt idx)).eval answer c).map Prod.snd

/-- What an index is evaluated to: the fork and, if it is silent, the trend. -/
def evaluate (c : CCandleBar) (idx : Nat) : Option (Int × Int) :=
  (evaluateFork c idx).bind fun fork =>
    if fork.1 = techSignalNothing then evaluateTrend c idx else some fork

variable {c d : CCandleBar} {idx pos : Nat}

theorem forkAt_inside (idx : Nat) :
    Inside (readingAt idx) idx (forkAt idx)
      (ForkResult techSignalBuyIntense techSignalSellIntense) :=
  getForkSignal_inside (readingAt_steady idx) (le_refl _) _ _ _

theorem trendAt_inside (idx : Nat) :
    Inside (readingAt idx) idx (trendAt idx) fun r => TrendReason r.2 :=
  getTrendSignal_inside (readingAt_steady idx) (le_refl _) _ _ _

theorem forkAt_beginsWithCheck (positive : 0 < idx) :
    BeginsWithCheck (readingAt idx) idx (forkAt idx) silent :=
  getForkSignal_beginsWithCheck (readingAt_steady idx) (by omega) 2 3 [4] _ _

theorem trendAt_beginsWithCheck (positive : 0 < idx) :
    BeginsWithCheck (readingAt idx) idx (trendAt idx) silent :=
  getTrendSignal_beginsWithCheck (readingAt_steady idx) (by omega) 2 3 [4] _ _

/-- A bar that is present is evaluated for good. -/
theorem evaluateFork_mono (present : idx < c.candles.length) (grow : c ≤ d) :
    evaluateFork d idx = evaluateFork c idx := by
  rw [evaluateFork, evaluateFork, ((forkAt_inside idx).settled c present).eval grow]

theorem evaluateTrend_mono (present : idx < c.candles.length) (grow : c ≤ d) :
    evaluateTrend d idx = evaluateTrend c idx := by
  rw [evaluateTrend, evaluateTrend, ((trendAt_inside idx).settled c present).eval grow]

theorem evaluate_mono (present : idx < c.candles.length) (grow : c ≤ d) :
    evaluate d idx = evaluate c idx := by
  rw [evaluate, evaluate, evaluateFork_mono present grow, evaluateTrend_mono present grow]

theorem start_isBasicDataReady (m : CMovingAverage) :
    isBasicDataReady.start m =
      if m.initialReadPosFlag then .done m true
      else .call m .getCandleSize fun size =>
        if size > sizeOfInt (periodMax m.maAttribute.periodCycle) then
          .done { m with
            candleBarReadPos := periodMax m.maAttribute.periodCycle
            initialReadPosFlag := true } true
        else .done m false := by
  simp only [isBasicDataReady, BaseKdata.getCandleSize, Program.start_bind, Program.start_get,
    Program.start_call, Resumption.bind, Program.start_ite, Program.start_modify,
    Program.start_pure]

theorem start_isBasicDataReady_fresh :
    isBasicDataReady.start fresh =
      .call fresh .getCandleSize fun size =>
        if size > firstIndex then .done (readingAt firstIndex) true else .done fresh false :=
  start_isBasicDataReady fresh

theorem start_isBasicDataReady_readingAt (pos : Nat) :
    isBasicDataReady.start (readingAt pos) = .done (readingAt pos) true := rfl

/-- What holds of the indicator at every position holds while the call places it. -/
theorem isBasicDataReady_keeps {I : CMovingAverage → CCandleBar → Prop} {m : CMovingAverage}
    (kept : ∀ m d d', d ≤ d' → I m d → I m d')
    (placed : ∀ d, firstIndex < d.candles.length → I fresh d → I (readingAt firstIndex) d)
    (state : m = fresh ∨ ∃ pos, m = readingAt pos) (start : I m c) :
    (isBasicDataReady.start m).Keeps answer I
      (fun m ready d => I m d ∧ (ready = true → m.initialReadPosFlag)) c := by
  obtain rfl | ⟨pos, rfl⟩ := state
  · rw [start_isBasicDataReady_fresh]
    intro d grow
    have now := kept _ _ _ grow start
    refine ⟨now, ?_⟩
    change Resumption.Keeps answer _ _ (if d.candles.length > firstIndex then _ else _) d
    by_cases enough : d.candles.length > firstIndex
    · rw [if_pos enough]
      intro d' more
      have there := kept _ _ _ more (placed d enough now)
      exact ⟨there, there, fun _ => rfl⟩
    · rw [if_neg enough]
      intro d' more
      have there := kept _ _ _ more now
      exact ⟨there, there, by simp⟩
  · rw [start_isBasicDataReady_readingAt]
    intro d grow
    have there := kept _ _ _ grow start
    exact ⟨there, there, fun _ => rfl⟩

theorem start_getLimitPrice (idx : Nat) :
    (getLimitPrice .closePrice).start (readingAt (idx + 1)) =
      .call (readingAt (idx + 1)) (.getSafePrice idx .closePrice) fun price =>
        .done (readingAt (idx + 1)) price := by
  have position : (readingAt (idx + 1)).candleBarReadPos - 1 = idx := by
    simp only [readingAt, Nat.cast_add, Nat.cast_one, add_sub_cancel_right]
  change (BaseKdata.getSafePrice (sizeOfInt ((readingAt (idx + 1)).candleBarReadPos - 1))
    .closePrice).start (readingAt (idx + 1)) = _
  rw [position, sizeOfInt_natCast]
  rfl

theorem start_advanceReadPos (m : CMovingAverage) (dateIndex : Int) :
    (advanceReadPos dateIndex).start m =
      .call m .getCandleSize fun size =>
        if size > sizeOfInt dateIndex then
          .done { m with candleBarReadPos := m.candleBarReadPos + 1 } ()
        else .done m () := by
  simp only [advanceReadPos, BaseKdata.getCandleSize, Program.start_bind, Program.start_call,
    Resumption.bind, Program.start_ite, Program.start_modify, Program.start_pure]

theorem start_advanceReadPos_readingAt (idx : Nat) :
    (advanceReadPos idx).start (readingAt idx) =
      .call (readingAt idx) .getCandleSize fun size =>
        if size > idx then .done (readingAt (idx + 1)) () else .done (readingAt idx) () := by
  simp only [start_advanceReadPos, sizeOfInt_natCast, readingAt, Nat.cast_add, Nat.cast_one]

/-- The part of `get_signal` behind the fork. -/
def afterFork (idx : Nat) (fork : Int × Int) : MaProgram (Int × Int) :=
  if fork.1 = techSignalNothing then do
    let trend ← trendAt idx
    advanceReadPos idx
    return trend
  else do
    advanceReadPos idx
    return fork

theorem signalled_iff (signal : Int) :
    (signalIsBuy signal ∨ signalIsSell signal) ↔ signal ≠ techSignalNothing := by
  simp only [signalIsBuy, signalIsSell, techSignalNothing, decide_eq_true_eq]
  omega

theorem start_getSignal (idx : Nat) :
    (getSignal .closePrice).start (readingAt idx) =
      (forkAt idx >>= afterFork idx).start (readingAt idx) := by
  refine Resumption.Every.bind_congr (forkAt_inside idx).every ?_
  rintro m fork rfl -
  by_cases quiet : fork.1 = techSignalNothing
  · have : ¬ (signalIsBuy fork.1 ∨ signalIsSell fork.1) := by simpa [signalled_iff] using quiet
    rw [afterFork, if_pos quiet]
    simp only [this, ↓reduceIte]
    rfl
  · have : signalIsBuy fork.1 ∨ signalIsSell fork.1 := (signalled_iff _).mpr quiet
    rw [afterFork, if_neg quiet]
    simp only [this, ↓reduceIte]
    rfl

section Present

-- On a bar that is present the call evaluates the bar and advances.
theorem advanceReadPos_settled (present : idx < c.candles.length) :
    ((advanceReadPos idx).start (readingAt idx)).Settled answer c := by
  rw [start_advanceReadPos_readingAt]
  constructor
  · intro d grow
    have longer := CCandleBar.length_mono grow
    have there : d.candles.length > idx := by omega
    simp only [answer, CCandleBar.getCandleSize, present, there, ↓reduceIte]
  · beta_reduce
    split <;> trivial

theorem advanceReadPos_eval (present : idx < c.candles.length) :
    ((advanceReadPos idx).start (readingAt idx)).eval answer c =
      some (readingAt (idx + 1), ()) := by
  rw [start_advanceReadPos_readingAt]
  simp only [Resumption.eval, answer, CCandleBar.getCandleSize, present, ↓reduceIte]

theorem afterFork_settled (present : idx < c.candles.length) (fork : Int × Int) :
    ((afterFork idx fork).start (readingAt idx)).Settled answer c := by
  have advance {r : Int × Int} :
      ((advanceReadPos idx >>= fun _ => pure r).start (readingAt idx)).Settled answer c := by
    refine (advanceReadPos_settled present).bind ?_
    intro m a _
    trivial
  rw [afterFork, Program.start_ite]
  split
  · refine ((trendAt_inside idx).settled c present).bind ?_
    intro m trend result
    obtain ⟨trend', result', -⟩ := (trendAt_inside idx).eval c
    obtain ⟨rfl, -⟩ : readingAt idx = m ∧ trend' = trend := by simpa [result'] using result
    exact advance
  · exact advance

theorem getSignal_settled (present : idx < c.candles.length) :
    ((getSignal .closePrice).start (readingAt idx)).Settled answer c := by
  rw [start_getSignal]
  refine ((forkAt_inside idx).settled c present).bind ?_
  intro m fork result
  obtain ⟨fork', result', -⟩ := (forkAt_inside idx).eval c
  obtain ⟨rfl, -⟩ : readingAt idx = m ∧ fork' = fork := by simpa [result'] using result
  exact afterFork_settled present fork

theorem getSignal_eval (present : idx < c.candles.length) :
    ∃ r, evaluate c idx = some r ∧
      ((getSignal .closePrice).start (readingAt idx)).eval answer c =
        some (readingAt (idx + 1), r) := by
  obtain ⟨fork, hfork, -⟩ := (forkAt_inside idx).eval c
  obtain ⟨trend, htrend, -⟩ := (trendAt_inside idx).eval c
  have advanced := advanceReadPos_eval present
  have hafter : ((afterFork idx fork).start (readingAt idx)).eval answer c =
      some (readingAt (idx + 1), if fork.1 = techSignalNothing then trend else fork) := by
    rw [afterFork, Program.start_ite]
    split
    · simp only [Program.start_bind, Resumption.eval_bind, htrend, advanced, Option.bind_some,
        Program.start_pure, Resumption.eval]
    · simp only [Program.start_bind, Resumption.eval_bind, advanced, Option.bind_some,
        Program.start_pure, Resumption.eval]
  refine ⟨if fork.1 = techSignalNothing then trend else fork, ?_, ?_⟩
  · simp only [evaluate, evaluateFork, evaluateTrend, hfork, htrend, Option.map_some,
      Option.bind_some]
    exact (apply_ite some _ trend fork).symm
  · rw [start_getSignal, Program.start_bind, Resumption.eval_bind, hfork]
    exact hafter

end Present

/-- Where the bar is missing throughout, the call does nothing. -/
theorem getSignal_eval_missing (positive : 0 < idx) (missing : c.candles.length ≤ idx) :
    ((getSignal .closePrice).start (readingAt idx)).eval answer c =
      some (readingAt idx, silent) := by
  have position : c.candles.length ≤ sizeOfInt idx := by rwa [sizeOfInt_natCast]
  have hfork := (forkAt_beginsWithCheck positive).eval position
  have htrend := (trendAt_beginsWithCheck positive).eval position
  have stays : ((advanceReadPos idx).start (readingAt idx)).eval answer c =
      some (readingAt idx, ()) := by
    have : ¬ c.candles.length > idx := by omega
    rw [start_advanceReadPos_readingAt]
    simp only [Resumption.eval, answer, CCandleBar.getCandleSize, this, ↓reduceIte]
  have quiet : silent.1 = techSignalNothing := rfl
  rw [start_getSignal, Program.start_bind, Resumption.eval_bind, hfork, Option.bind_some]
  simp only [afterFork, quiet, ↓reduceIte]
  simp only [Program.start_bind, Resumption.eval_bind, htrend, stays, Option.bind_some,
    Program.start_pure, Resumption.eval]

/-- Where the read position is during and behind the evaluation of `idx`: at `idx` or
right behind it, and never behind the end of the series. -/
def Reads (idx : Nat) (m : CMovingAverage) (c : CCandleBar) : Prop :=
  m = readingAt idx ∧ idx ≤ c.candles.length ∨
    m = readingAt (idx + 1) ∧ idx + 1 ≤ c.candles.length

theorem Reads.later {m : CMovingAverage} (h : Reads idx m c) (grow : c ≤ d) : Reads idx m d := by
  have longer := CCandleBar.length_mono grow
  obtain ⟨rfl, h⟩ | ⟨rfl, h⟩ := h
  · exact .inl ⟨rfl, by omega⟩
  · exact .inr ⟨rfl, by omega⟩

theorem advanceReadPos_keeps (room : idx ≤ c.candles.length) :
    ((advanceReadPos idx).start (readingAt idx)).Keeps answer (Reads idx)
      (fun m _ d => Reads idx m d ∧ (idx < c.candles.length → m = readingAt (idx + 1))) c := by
  rw [start_advanceReadPos_readingAt]
  intro d grow
  have longer := CCandleBar.length_mono grow
  refine ⟨.inl ⟨rfl, by omega⟩, ?_⟩
  change Resumption.Keeps answer _ _ (if d.candles.length > idx then _ else _) d
  by_cases present : d.candles.length > idx
  · rw [if_pos present]
    intro d' more
    have longer' := CCandleBar.length_mono more
    have reads : Reads idx (readingAt (idx + 1)) d' := .inr ⟨rfl, by omega⟩
    exact ⟨reads, reads, fun _ => rfl⟩
  · rw [if_neg present]
    intro d' more
    have longer' := CCandleBar.length_mono more
    have reads : Reads idx (readingAt idx) d' := .inl ⟨rfl, by omega⟩
    exact ⟨reads, reads, fun earlier => absurd (by omega) present⟩

/-- A buy or sell signal with the reason of a fork. Only for these the strategy raises
an order. -/
def IsFork (r : Int × Int) : Prop :=
  r = (techSignalBuyIntense, techReasonGoldfork) ∨ r = (techSignalSellIntense, techReasonDeadfork)

/-- The result of `get_signal` at `idx`: a fork is the fork of the bar at `idx`, and the
call has advanced past it. Anything else has the reason of a trend. -/
def Found (idx : Nat) (m : CMovingAverage) (r : Int × Int) (c : CCandleBar) : Prop :=
  TrendReason r.2 ∨ m = readingAt (idx + 1) ∧ evaluateFork c idx = some r ∧ IsFork r

theorem advanceReadPos_found (room : idx ≤ c.candles.length) {r : Int × Int}
    (found : ∀ m d, c ≤ d → (idx < c.candles.length → m = readingAt (idx + 1)) → Found idx m r d) :
    ((advanceReadPos idx >>= fun _ => pure r).start (readingAt idx)).Keeps answer (Reads idx)
      (Found idx) c := by
  refine (advanceReadPos_keeps room).bind ?_
  rintro m - d grow ⟨reads, advanced⟩ d' more
  exact ⟨reads.later more, found m d' (le_trans grow more) advanced⟩

theorem getSignal_keeps (positive : 0 < idx) (room : idx ≤ c.candles.length) :
    ((getSignal .closePrice).start (readingAt idx)).Keeps answer (Reads idx) (Found idx) c := by
  have reads : ∀ s', c ≤ s' → Reads idx (readingAt idx) s' :=
    fun s' later => Reads.later (.inl ⟨rfl, room⟩) later
  rw [start_getSignal]
  refine ((forkAt_beginsWithCheck positive).keeps (forkAt_inside idx) reads).bind ?_
  rintro m fork d grow ⟨rfl, hfork⟩
  have room' : idx ≤ d.candles.length := le_trans room (CCandleBar.length_mono grow)
  change ((afterFork idx fork).start (readingAt idx)).Keeps answer (Reads idx) (Found idx) d
  by_cases quiet : fork.1 = techSignalNothing
  · rw [afterFork, if_pos quiet]
    have every : ((trendAt idx).start (readingAt idx)).Every (· = readingAt idx)
        fun m r => m = readingAt idx ∧ TrendReason r.2 := 
      (trendAt_inside idx).every.mono fun m r same reason => ⟨same, reason⟩
    refine (every.keeps fun m s' later same => ?_).bind ?_
    · exact same ▸ reads s' (le_trans grow later)
    · rintro m trend d' more ⟨rfl, hreason⟩
      apply advanceReadPos_found (le_trans room' (CCandleBar.length_mono more))
      exact fun _ _ _ _ => .inl hreason
  · rw [afterFork, if_neg quiet]
    obtain ⟨present, result⟩ := hfork.resolve_left fun none => quiet (by rw [none]; rfl)
    have hresult : evaluateFork d idx = some fork := by rw [evaluateFork, result]; rfl
    obtain ⟨fork', result', outcome⟩ := (forkAt_inside idx).eval d
    obtain rfl : fork' = fork := by simpa [result'] using result
    apply advanceReadPos_found room'
    intro m s' later advanced
    refine .inr ⟨advanced present, ?_, ?_⟩
    · rw [evaluateFork_mono present later, hresult]
    · exact outcome.resolve_left fun none => quiet (by rw [none]; rfl)

end CMovingAverage

end CtpTrade
