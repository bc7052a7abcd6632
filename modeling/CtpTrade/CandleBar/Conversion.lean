import CtpTrade.CandleBar
import CtpTrade.Library.Blocks
import CtpTrade.Library.Execution
import Mathlib.Data.UInt

/-!
# Conversion between periods

`convert_kdata_and_clear` composes all whole blocks of a series, pushes the bars
into another series and keeps the residue. A bar composed of a block is
`composeBlock` of it, whichever of the two composing calls made it.
-/

namespace CtpTrade

/-- What the loop body does with a later bar of a block. -/
def mergeBar (desBar srcBar : CandleBar) : CandleBar :=
  { desBar with
    volumeSize := desBar.volumeSize + srcBar.volumeSize
    closePrice := srcBar.closePrice
    highPrice :=
      if |desBar.highPrice - srcBar.highPrice| < 1 / 1000000 then srcBar.highPrice
      else desBar.highPrice
    lowPrice :=
      if |desBar.lowPrice - srcBar.lowPrice| > 1 / 1000000 then srcBar.lowPrice
      else desBar.lowPrice }

/-- What it does behind the last bar of a block. -/
def finishBar (desBar : CandleBar) : CandleBar :=
  let changePoint := desBar.closePrice - desBar.openPrice
  { desBar with
    changePoint := changePoint
    changePercent := (changePoint / desBar.openPrice) * 100 }

/-- The bar composed of a block, independent of the loop that makes it. -/
def composeBlock : List CandleBar → CandleBar
  | [] => {}
  | first :: rest => finishBar (rest.foldl mergeBar first)

namespace CCandleBar

/-- The body of the loop in `convert_kdata_and_clear`: `src_count` and `des_bar` with
the series that receives the bars. -/
def convertBody (composeMutiple : Nat) (state : (Nat × CandleBar) × CCandleBar)
    (srcBar : CandleBar) : (Nat × CandleBar) × CCandleBar :=
  let composed := composeBody composeMutiple state.1 srcBar
  if state.1.1 + 1 = composeMutiple then (composed, state.2.pushBar composed.2)
  else (composed, state.2)

/-- The source and the destination after the call. -/
def convertKdataAndClear (c : CCandleBar) (composeMutiple : Nat) (desCandles : CCandleBar) :
    CCandleBar × CCandleBar :=
  let candleNums := c.candles.length
  if composeMutiple < 2 ∨ candleNums < composeMutiple then (c, desCandles)
  else
    let endPos := candleNums % composeMutiple
    let converted := (c.candles.take (candleNums - endPos)).foldl (convertBody composeMutiple)
      ((0, {}), desCandles)
    ({ c with candles := c.candles.drop (candleNums - endPos) }, converted.2)

/-- `operator +` -/
def append (c : CCandleBar) (target : List CandleBar) : CCandleBar :=
  { c with candles := c.candles ++ target }

/-- The bars of the calls at `start_pos`, `start_pos + m` and so on, while they
return true: the loop of a compose thread with a single instrument. -/
def calculateFrom (c : CCandleBar) (m : Nat) (hm : 0 < m) (startPos : Nat) : List CandleBar :=
  match _h : c.calculateSpecifiedPeriod startPos m {} with
  | some bar => bar :: c.calculateFrom m hm (startPos + m)
  | none => []
termination_by c.candles.length - startPos
decreasing_by
  simp only [calculateSpecifiedPeriod, Option.ite_none_right_eq_some] at _h
  omega

variable {c des : CCandleBar} {m n : Nat} {desBar srcBar : CandleBar} {block : List CandleBar}

theorem composeBody_first (hm : 2 ≤ m) : composeBody m (0, desBar) srcBar = (1, srcBar) := by
  have : ¬ 1 = m := by omega
  simp only [composeBody, Nat.zero_add, ↓reduceIte, this]

theorem composeBody_more (later : 0 < n) (room : n + 1 ≠ m) :
    composeBody m (n, desBar) srcBar = (n + 1, mergeBar desBar srcBar) := by
  have : ¬ n + 1 = 1 := by omega
  simp only [composeBody, this, room, ↓reduceIte, mergeBar]

theorem composeBody_last (later : 0 < n) (last : n + 1 = m) :
    composeBody m (n, desBar) srcBar = (0, finishBar (mergeBar desBar srcBar)) := by
  have : ¬ n + 1 = 1 := by omega
  subst last
  simp only [composeBody, this, ↓reduceIte, mergeBar, finishBar]

/-- The rest of a block, with the bars merged so far. -/
private theorem foldl_convertBody_rest {rest : List CandleBar} (later : 0 < n)
    (more : rest ≠ []) (whole : n + rest.length = m) :
    rest.foldl (convertBody m) ((n, desBar), des) =
      ((0, finishBar (rest.foldl mergeBar desBar)),
        des.pushBar (finishBar (rest.foldl mergeBar desBar))) := by
  induction rest generalizing n desBar with
  | nil => exact absurd rfl more
  | cons bar rest ih =>
      rw [List.length_cons] at whole
      rw [List.foldl_cons, List.foldl_cons]
      by_cases last : n + 1 = m
      · obtain rfl : rest = [] := List.length_eq_zero_iff.mp (by omega)
        simp only [convertBody, composeBody_last later last, last, ↓reduceIte, List.foldl_nil]
      · have more : rest ≠ [] := by
          rintro rfl
          exact last (by simpa using whole)
        simp only [convertBody, composeBody_more later last, last, ↓reduceIte]
        exact ih (Nat.succ_pos n) more (by omega)

/-- A whole block leaves the counter at zero and one more bar in the destination. -/
theorem foldl_convertBody_block (hm : 2 ≤ m) (whole : block.length = m) :
    block.foldl (convertBody m) ((0, desBar), des) =
      ((0, composeBlock block), des.pushBar (composeBlock block)) := by
  cases block with
  | nil =>
      rw [List.length_nil] at whole
      omega
  | cons first rest =>
      rw [List.length_cons] at whole
      have : ¬ 0 + 1 = m := by omega
      have more : rest ≠ [] := by
        rintro rfl
        simp only [List.length_nil] at whole
        omega
      rw [List.foldl_cons]
      simp only [convertBody, composeBody_first hm, this, ↓reduceIte]
      exact foldl_convertBody_rest Nat.zero_lt_one more (by omega)

theorem foldl_convertBody_fst (m : Nat) (block : List CandleBar)
    (state : (Nat × CandleBar) × CCandleBar) :
    (block.foldl (convertBody m) state).1 = block.foldl (composeBody m) state.1 := by
  refine (List.foldl_hom Prod.fst ?_).symm
  intro state bar
  simp only [convertBody]
  split_ifs <;> rfl

/-- The other composing call makes the same bar of a block. -/
theorem calculateSpecifiedPeriod_eq (c : CCandleBar) (pos : Nat) (hm : 2 ≤ m)
    (desBar : CandleBar) :
    c.calculateSpecifiedPeriod pos m desBar =
      if pos + m < c.candles.length then some (composeBlock ((c.candles.drop pos).take m))
      else none := by
  rw [calculateSpecifiedPeriod]
  split_ifs with enough
  · have whole : ((c.candles.drop pos).take m).length = m := by
      rw [List.length_take, List.length_drop]
      omega
    have composed := foldl_convertBody_fst m ((c.candles.drop pos).take m) ((0, desBar), {})
    rw [foldl_convertBody_block hm whole] at composed
    rw [← composed]
  · rfl

@[simp] theorem append_candles (target : List CandleBar) :
    (c.append target).candles = c.candles ++ target := rfl

private theorem foldl_pushBar_candles (bars : List CandleBar) :
    (bars.foldl pushBar des) = { des with candles := des.candles ++ bars } := by
  induction bars generalizing des with
  | nil => simp
  | cons bar bars ih => simp [ih, pushBar]

/-- A conversion moves the whole blocks into the destination and keeps the residue. -/
theorem convertKdataAndClear_eq (hm : 2 ≤ m) :
    c.convertKdataAndClear m des =
      ({ c with candles := Blocks.residue m c.candles },
        { des with candles := des.candles ++ (Blocks.blocks m c.candles).map composeBlock }) := by
  rw [convertKdataAndClear]
  by_cases short : c.candles.length < m
  · simp [short, Blocks.blocks_of_length_lt, Blocks.residue_of_length_lt]
  · have enough : ¬ (m < 2 ∨ c.candles.length < m) := by omega
    simp only [enough, ↓reduceIte]
    rw [← Blocks.residue_eq_drop, ← Blocks.flatten_blocks]
    -- between two blocks the counter is zero and the bars so far have been pushed
    let Pushed (state : (Nat × CandleBar) × CCandleBar) (out : List CandleBar) : Prop :=
      state.1.1 = 0 ∧ state.2 = out.foldl pushBar des
    have block : ∀ state out, ∀ b ∈ Blocks.blocks m c.candles, Pushed state out →
        Pushed (b.foldl (convertBody m) state) (out ++ [composeBlock b]) := by
      rintro ⟨⟨count, bar⟩, into⟩ out b hb ⟨hcount, hinto⟩
      obtain rfl : count = 0 := hcount
      rw [foldl_convertBody_block hm (Blocks.length_of_mem_blocks hb)]
      refine ⟨rfl, ?_⟩
      rw [List.foldl_append, ← hinto]
      rfl
    have start : Pushed ((0, {}), des) [] := ⟨rfl, rfl⟩
    have loop := Blocks.foldl_flatten (convertBody m) composeBlock Pushed block start
    rw [loop.2, List.nil_append, foldl_pushBar_candles]

theorem calculateFrom_of_some {pos : 0 < m} {startPos : Nat} {bar : CandleBar}
    (h : c.calculateSpecifiedPeriod startPos m {} = some bar) :
    c.calculateFrom m pos startPos = bar :: c.calculateFrom m pos (startPos + m) := by
  rw [calculateFrom]
  split
  · next found =>
      rw [h] at found
      cases found
      rfl
  · next missing => simp [h] at missing

theorem calculateFrom_of_none {pos : 0 < m} {startPos : Nat}
    (h : c.calculateSpecifiedPeriod startPos m {} = none) :
    c.calculateFrom m pos startPos = [] := by
  rw [calculateFrom]
  split
  · next found => simp [h] at found
  · rfl

/-- The strict size comparison makes the last bar invisible to the calls. -/
theorem calculateFrom_eq (hm : 2 ≤ m) (pos : 0 < m) (startPos : Nat) :
    c.calculateFrom m pos startPos =
      (Blocks.blocks m (c.candles.dropLast.drop startPos)).map composeBlock := by
  induction hleft : c.candles.length - startPos using Nat.strong_induction_on
    generalizing startPos with
  | _ left ih =>
      by_cases enough : startPos + m < c.candles.length
      · have first : (c.candles.drop startPos).take m =
            (c.candles.dropLast.drop startPos).take m := by
          rw [List.dropLast_eq_take, List.drop_take, List.take_take]
          congr 1
          omega
        have whole : ((c.candles.dropLast.drop startPos).take m).length = m := by
          rw [List.length_take, List.length_drop, List.length_dropLast]
          omega
        have split := List.take_append_drop m (c.candles.dropLast.drop startPos)
        rw [List.drop_drop] at split
        have cut := Blocks.blocks_append_of_length (l := c.candles.dropLast.drop (startPos + m))
          pos whole
        rw [split] at cut
        have composed := calculateSpecifiedPeriod_eq c startPos hm {}
        rw [if_pos enough, first] at composed
        rw [calculateFrom_of_some composed, ih _ (by omega) (startPos + m) rfl, cut, List.map_cons]
      · have short : (c.candles.dropLast.drop startPos).length < m := by
          rw [List.length_drop, List.length_dropLast]
          omega
        have nothing := calculateSpecifiedPeriod_eq c startPos hm {}
        rw [if_neg enough] at nothing
        rw [calculateFrom_of_none nothing, Blocks.blocks_of_length_lt short, List.map_nil]

end CCandleBar

/-- The two composing calls make the same bars exactly when some bar is left over behind
the last whole block, or there is no bar at all. One of them stops at a block that ends
with the series, the other one takes it. -/
theorem composing_calls_agree_iff (c des : CCandleBar) {m : Nat} (hm : 2 ≤ m)
    (empty : des.candles = []) :
    c.calculateFrom m (Nat.lt_of_lt_of_le Nat.zero_lt_two hm) 0 =
        (c.convertKdataAndClear m des).2.candles ↔
      c.candles = [] ∨ c.candles.length % m ≠ 0 := by
  rw [CCandleBar.calculateFrom_eq hm, CCandleBar.convertKdataAndClear_eq hm, empty,
    List.nil_append, List.drop_zero]
  constructor
  · intro agree
    by_contra exact
    rw [not_or, not_not] at exact
    obtain ⟨some, exact⟩ := exact
    have fewer := Blocks.length_blocks_dropLast_lt (show 0 < m by omega) some exact
    have count := congrArg List.length agree
    rw [List.length_map, List.length_map] at count
    omega
  · rintro (none | left)
    · rw [none]
      rfl
    · rw [Blocks.blocks_dropLast (show 0 < m by omega) left]

/-- Two minute bars, a whole block for `m = 2`. -/
def samplePair : CCandleBar := { candles := [{}, {}] }

/-- Three minute bars. -/
def sampleTriple : CCandleBar := { candles := [{}, {}, {}] }

theorem composing_calls_agree_iff_triple :
    sampleTriple.calculateFrom 2 Nat.zero_lt_two 0 =
      (sampleTriple.convertKdataAndClear 2 {}).2.candles :=
  (composing_calls_agree_iff sampleTriple {} (le_refl 2) rfl).mpr (.inr (by decide))

/-- A series that ends with a whole block loses this block in one of the two ways. -/
theorem composing_calls_differ :
    ¬ ∀ (c : CCandleBar) (m : Nat) (hm : 2 ≤ m),
      c.calculateFrom m (Nat.lt_of_lt_of_le Nat.zero_lt_two hm) 0 =
        (c.convertKdataAndClear m {}).2.candles := by
  intro claim
  have agree := claim samplePair 2 (le_refl 2)
  rw [CCandleBar.calculateFrom_eq (le_refl 2), CCandleBar.convertKdataAndClear_eq (le_refl 2)]
    at agree
  exact absurd (congrArg List.length agree) (by decide)

/-- A call on the source of a conversion: bars are added one by one or many at a time,
and converted in between. -/
inductive Delivery where
  | pushBar (bar : CandleBar)
  | append (target : List CandleBar)
  | convert

namespace Delivery

/-- The bars that the call delivers. -/
def bars : Delivery → List CandleBar
  | .pushBar bar => [bar]
  | .append target => target
  | .convert => []

/-- The effect on the source and the destination. -/
def apply (m : Nat) (s : CCandleBar × CCandleBar) : Delivery → CCandleBar × CCandleBar
  | .pushBar bar => (s.1.pushBar bar, s.2)
  | .append target => (s.1.append target, s.2)
  | .convert => s.1.convertKdataAndClear m s.2

/-- Everything delivered by a list of calls. -/
def delivered (acts : List Delivery) : List CandleBar := acts.flatMap bars

end Delivery

/-- Source and destination hold what one conversion of all the bars `all` leaves: the
bars of the whole blocks of `m` in order, the remaining bars, and no volume lost in
between. -/
structure BatchConverted (m : Nat) (all : List CandleBar) (src des : CCandleBar) : Prop where
  count : des.candles.length = all.length / m
  bar : ∀ j < all.length / m,
    des.candles[j]? = some (composeBlock ((all.drop (j * m)).take m))
  kept : src.candles = all.drop (all.length - all.length % m)
  volume : (des.candles.map (·.volumeSize)).sum + (src.candles.map (·.volumeSize)).sum =
    (all.map (·.volumeSize)).sum

@[simp] theorem mergeBar_volumeSize (desBar srcBar : CandleBar) :
    (mergeBar desBar srcBar).volumeSize = desBar.volumeSize + srcBar.volumeSize := rfl

private theorem foldl_mergeBar_volumeSize (rest : List CandleBar) (desBar : CandleBar) :
    (rest.foldl mergeBar desBar).volumeSize =
      desBar.volumeSize + (rest.map (·.volumeSize)).sum := by
  induction rest generalizing desBar with
  | nil => simp
  | cons bar rest ih => simp [ih, UInt64.add_assoc]

/-- A composed bar carries the volume of its block. -/
theorem composeBlock_volumeSize (block : List CandleBar) :
    (composeBlock block).volumeSize = (block.map (·.volumeSize)).sum := by
  cases block with
  | nil => rfl
  | cons first rest => exact foldl_mergeBar_volumeSize rest first

private theorem composeBlock_volumes (blocks : List (List CandleBar)) :
    ((blocks.map composeBlock).map (·.volumeSize)).sum =
      (blocks.flatten.map (·.volumeSize)).sum := by
  induction blocks with
  | nil => rfl
  | cons block blocks ih =>
      simp only [List.map_cons, List.sum_cons, ih, composeBlock_volumeSize, List.flatten_cons,
        List.map_append, List.sum_append]

/-- One call on the whole sequence. -/
theorem batchConverted_of_call {c des : CCandleBar} {m : Nat} (hm : 2 ≤ m)
    (empty : des.candles = []) :
    BatchConverted m c.candles (c.convertKdataAndClear m des).1
      (c.convertKdataAndClear m des).2 := by
  rw [CCandleBar.convertKdataAndClear_eq hm, empty, List.nil_append]
  refine { count := ?_, bar := ?_, kept := ?_, volume := ?_ }
  · simp
  · intro j hj
    rw [List.getElem?_map, Blocks.getElem?_blocks hj]
    rfl
  · exact Blocks.residue_eq_drop
  · rw [composeBlock_volumes, ← List.sum_append, ← List.map_append,
      Blocks.flatten_blocks_append_residue]

/-- What one more conversion would leave, whatever has been converted so far. -/
theorem deliver_converted {m : Nat} (hm : 2 ≤ m) {src des : CCandleBar}
    {s : CCandleBar × CCandleBar} {all : List CandleBar}
    (hs : s.1.convertKdataAndClear m s.2 =
      ({ src with candles := all } : CCandleBar).convertKdataAndClear m des) (act : Delivery) :
    (act.apply m s).1.convertKdataAndClear m (act.apply m s).2 =
      ({ src with candles := all ++ act.bars } : CCandleBar).convertKdataAndClear m des := by
  have pos : 0 < m := by omega
  obtain ⟨⟨srcType, now⟩, ⟨desType, out⟩⟩ := s
  rw [CCandleBar.convertKdataAndClear_eq hm, CCandleBar.convertKdataAndClear_eq hm] at hs
  simp only [Prod.mk.injEq, CCandleBar.mk.injEq] at hs
  obtain ⟨⟨rfl, residue⟩, rfl, blocks⟩ := hs
  have arrive (target : List CandleBar) :
      (CCandleBar.mk src.candleType (now ++ target)).convertKdataAndClear m
          (CCandleBar.mk des.candleType out) =
        (CCandleBar.mk src.candleType (all ++ target)).convertKdataAndClear m des := by
    rw [CCandleBar.convertKdataAndClear_eq hm, CCandleBar.convertKdataAndClear_eq hm]
    simp only [Prod.mk.injEq, CCandleBar.mk.injEq, true_and]
    constructor
    · rw [Blocks.residue_append pos, residue, ← Blocks.residue_append pos]
    · rw [Blocks.blocks_append pos, List.map_append, ← List.append_assoc, blocks, residue,
        List.append_assoc, ← List.map_append, ← Blocks.blocks_append pos]
  cases act with
  | pushBar bar => exact arrive [bar]
  | append target => exact arrive target
  | convert =>
      have short := Blocks.length_residue_lt (l := all) pos
      simp only [Delivery.apply, Delivery.bars, List.append_nil]
      rw [CCandleBar.convertKdataAndClear_eq hm, CCandleBar.convertKdataAndClear_eq hm,
        CCandleBar.convertKdataAndClear_eq hm]
      simp only [residue, blocks, Blocks.residue_of_length_lt short,
        Blocks.blocks_of_length_lt short, List.map_nil, List.append_nil]

/-- Any delivery of the bars in parts, with conversions in between and one at the end,
leaves what a single conversion of the whole sequence leaves: the same bars, the same
rest and the whole volume. -/
theorem streaming_conversion {m : Nat} (hm : 2 ≤ m) {src des : CCandleBar}
    (source : src.candles = []) (empty : des.candles = []) (acts : List Delivery) :
    Execution.exec (Delivery.apply m) (src, des) (acts ++ [.convert]) =
        ({ src with candles := Delivery.delivered acts } : CCandleBar).convertKdataAndClear m des ∧
      BatchConverted m (Delivery.delivered acts)
        (Execution.exec (Delivery.apply m) (src, des) (acts ++ [.convert])).1
        (Execution.exec (Delivery.apply m) (src, des) (acts ++ [.convert])).2 := by
  have whole (acts : List Delivery) (s : CCandleBar × CCandleBar) (all : List CandleBar)
      (hs : s.1.convertKdataAndClear m s.2 =
        ({ src with candles := all } : CCandleBar).convertKdataAndClear m des) :
      Execution.exec (Delivery.apply m) s (acts ++ [.convert]) =
        ({ src with candles := all ++ Delivery.delivered acts } :
          CCandleBar).convertKdataAndClear m des := by
    induction acts generalizing s all with
    | nil =>
        rw [Delivery.delivered, List.flatMap_nil, List.append_nil]
        exact hs
    | cons act acts ih =>
        have rest := ih _ _ (deliver_converted hm hs act)
        simpa [Delivery.delivered] using rest
  have start : src.convertKdataAndClear m des =
      ({ src with candles := [] } : CCandleBar).convertKdataAndClear m des := by
    rw [← source]
  have final := whole acts (src, des) [] start
  rw [List.nil_append] at final
  refine ⟨final, ?_⟩
  rw [final]
  exact batchConverted_of_call (c := { src with candles := Delivery.delivered acts }) hm empty

/-- Three bars in two deliveries, with a conversion that finds too few bars. -/
def sampleDeliveries : List Delivery :=
  [.pushBar { closePrice := 1 }, .convert, .append [{ closePrice := 2 }, { closePrice := 3 }]]

theorem streaming_conversion_sample :
    Execution.exec (Delivery.apply 2) ({}, {}) (sampleDeliveries ++ [.convert]) =
        ({ candles := Delivery.delivered sampleDeliveries } :
          CCandleBar).convertKdataAndClear 2 {} ∧
      BatchConverted 2 (Delivery.delivered sampleDeliveries)
        (Execution.exec (Delivery.apply 2) ({}, {}) (sampleDeliveries ++ [.convert])).1
        (Execution.exec (Delivery.apply 2) ({}, {}) (sampleDeliveries ++ [.convert])).2 :=
  streaming_conversion (le_refl 2) rfl rfl sampleDeliveries

def CandleBar.prices (bar : CandleBar) : List ℚ :=
  [bar.openPrice, bar.highPrice, bar.lowPrice, bar.closePrice]

/-- Any two prices of the bars are equal or more than the tolerance apart. Prices on the
price step of an exchange are, since the tolerance is far below every price step. -/
def PriceSteps (bars : List CandleBar) : Prop :=
  ∀ p ∈ bars.flatMap CandleBar.prices, ∀ q ∈ bars.flatMap CandleBar.prices,
    p = q ∨ |p - q| > 1 / 1000000

instance (bars : List CandleBar) : Decidable (PriceSteps bars) :=
  inferInstanceAs (Decidable (∀ p ∈ bars.flatMap CandleBar.prices, _))

section Steps

variable {desBar bar next : CandleBar} {rest : List CandleBar}

theorem PriceSteps.mono {bars fewer : List CandleBar} (steps : PriceSteps bars)
    (sub : fewer.flatMap CandleBar.prices ⊆ bars.flatMap CandleBar.prices) : PriceSteps fewer :=
  fun p hp q hq => steps p (sub hp) q (sub hq)

/-- Merging takes every price from one of its two bars. -/
theorem prices_mergeBar (desBar bar : CandleBar) :
    (mergeBar desBar bar).prices ⊆ desBar.prices ++ bar.prices := by
  intro p hp
  simp only [CandleBar.prices, mergeBar, List.mem_cons, List.not_mem_nil, or_false] at hp
  obtain rfl | rfl | rfl | rfl := hp
  · simp [CandleBar.prices]
  · split_ifs <;> simp [CandleBar.prices]
  · split_ifs <;> simp [CandleBar.prices]
  · simp [CandleBar.prices]

/-- With prices that are equal or far apart the tolerance tests keep the first
high and take the last low. -/
theorem mergeBar_of_steps (steps : PriceSteps [desBar, bar]) :
    mergeBar desBar bar =
      { desBar with
        volumeSize := desBar.volumeSize + bar.volumeSize
        closePrice := bar.closePrice
        lowPrice := bar.lowPrice } := by
  have high := steps desBar.highPrice (by simp [CandleBar.prices]) bar.highPrice
    (by simp [CandleBar.prices])
  have low := steps desBar.lowPrice (by simp [CandleBar.prices]) bar.lowPrice
    (by simp [CandleBar.prices])
  have sameHigh : (if |desBar.highPrice - bar.highPrice| < 1 / 1000000 then bar.highPrice
      else desBar.highPrice) = desBar.highPrice := by
    split_ifs with near
    · obtain same | far := high
      · exact same.symm
      · exact absurd near (not_lt.mpr far.le)
    · rfl
  have newLow : (if |desBar.lowPrice - bar.lowPrice| > 1 / 1000000 then bar.lowPrice
      else desBar.lowPrice) = bar.lowPrice := by
    split_ifs with away
    · rfl
    · exact low.resolve_right away
  rw [mergeBar, sameHigh, newLow]

/-- Merging is associative under price steps. -/
theorem mergeBar_assoc (steps : PriceSteps [desBar, bar, next]) :
    mergeBar desBar (mergeBar bar next) = mergeBar (mergeBar desBar bar) next := by
  have pair (a b : CandleBar) (sub : a.prices ++ b.prices ⊆
      [desBar, bar, next].flatMap CandleBar.prices) : PriceSteps [a, b] :=
    steps.mono (by simpa using sub)
  have left := prices_mergeBar desBar bar
  have right := prices_mergeBar bar next
  rw [mergeBar_of_steps (pair desBar (mergeBar bar next) ?_),
    mergeBar_of_steps (pair (mergeBar desBar bar) next ?_),
    mergeBar_of_steps (pair desBar bar ?_), mergeBar_of_steps (pair bar next ?_)]
  · simp [UInt64.add_assoc]
  · simp
  · simp
  · simp only [List.flatMap_cons, List.flatMap_nil, List.append_nil]
    grind
  · simp only [List.flatMap_cons, List.flatMap_nil, List.append_nil]
    grind

theorem prices_foldl_mergeBar (rest : List CandleBar) (desBar : CandleBar) :
    (rest.foldl mergeBar desBar).prices ⊆
      desBar.prices ++ rest.flatMap CandleBar.prices := by
  induction rest generalizing desBar with
  | nil => simp
  | cons bar rest ih =>
      have first := prices_mergeBar desBar bar
      have others := ih (mergeBar desBar bar)
      rw [List.foldl_cons, List.flatMap_cons]
      grind

/-- Bars may be merged among themselves before they are merged into another one. -/
theorem mergeBar_foldl (steps : PriceSteps (desBar :: bar :: rest)) :
    mergeBar desBar (rest.foldl mergeBar bar) = (bar :: rest).foldl mergeBar desBar := by
  induction rest generalizing bar with
  | nil => rfl
  | cons next rest ih =>
      have three : PriceSteps [desBar, bar, next] := steps.mono (by
        simp only [List.flatMap_cons, List.flatMap_nil, List.append_nil]
        grind)
      have merged := prices_mergeBar bar next
      rw [List.foldl_cons, ih, List.foldl_cons, List.foldl_cons, List.foldl_cons,
        mergeBar_assoc three]
      apply steps.mono
      simp only [List.flatMap_cons]
      grind

/-- The change fields of an unfinished bar do not matter. -/
theorem finishBar_foldl_finishBar :
    finishBar (rest.foldl mergeBar (finishBar desBar)) =
      finishBar (rest.foldl mergeBar desBar) := by
  have change (rest : List CandleBar) (desBar : CandleBar) (point percent : ℚ) :
      finishBar (rest.foldl mergeBar
        { desBar with changePoint := point, changePercent := percent }) =
        finishBar (rest.foldl mergeBar desBar) := by
    induction rest generalizing desBar with
    | nil => rfl
    | cons bar rest ih => exact ih (mergeBar desBar bar)
  exact change rest desBar _ _

/-- Merging composed bars is merging the bars they are composed of. -/
theorem foldl_mergeBar_composed {parts : List (List CandleBar)}
    (nonempty : ∀ part ∈ parts, part ≠ [])
    (steps : PriceSteps (desBar :: parts.flatten)) :
    (parts.map composeBlock).foldl mergeBar desBar = parts.flatten.foldl mergeBar desBar := by
  induction parts generalizing desBar with
  | nil => rfl
  | cons part parts ih =>
      obtain ⟨first, others⟩ := List.forall_mem_cons.mp nonempty
      cases part with
      | nil => exact absurd rfl first
      | cons bar rest =>
          have here : PriceSteps (desBar :: bar :: rest) := steps.mono (by
            simp only [List.flatten_cons, List.flatMap_cons, List.flatMap_append, List.cons_append]
            grind)
          have composed : mergeBar desBar (composeBlock (bar :: rest)) =
              (bar :: rest).foldl mergeBar desBar := mergeBar_foldl here
          have merged := prices_foldl_mergeBar (bar :: rest) desBar
          rw [List.map_cons, List.foldl_cons, composed, List.flatten_cons, List.foldl_append]
          apply ih others
          apply steps.mono
          simp only [List.flatten_cons, List.flatMap_cons, List.flatMap_append, List.cons_append]
            at merged ⊢
          grind

/-- A bar composed of composed bars is the bar composed of everything. -/
theorem composeBlock_flatten {parts : List (List CandleBar)} (nonempty : ∀ part ∈ parts, part ≠ [])
    (steps : PriceSteps parts.flatten) :
    composeBlock (parts.map composeBlock) = composeBlock parts.flatten := by
  cases parts with
  | nil => rfl
  | cons part parts =>
      obtain ⟨first, others⟩ := List.forall_mem_cons.mp nonempty
      cases part with
      | nil => exact absurd rfl first
      | cons bar rest =>
          have merged := prices_foldl_mergeBar rest bar
          have steps' : PriceSteps (rest.foldl mergeBar bar :: parts.flatten) := steps.mono (by
            simp only [List.flatten_cons, List.flatMap_cons, List.flatMap_append, List.cons_append]
            grind)
          rw [List.map_cons, List.flatten_cons, List.cons_append]
          change finishBar ((parts.map composeBlock).foldl mergeBar
              (finishBar (rest.foldl mergeBar bar))) =
            finishBar ((rest ++ parts.flatten).foldl mergeBar bar)
          rw [finishBar_foldl_finishBar, foldl_mergeBar_composed others steps', List.foldl_append]

end Steps

/-- Two conversions in a row, by `a` and then by `b`, push the bars of one conversion by
`a * b`. The prices have to be on a price step, because being nearer than the tolerance
is not transitive. -/
theorem conversions_compose (c mid des direct : CCandleBar) {a b : Nat} (ha : 2 ≤ a) (hb : 2 ≤ b)
    (emptyMid : mid.candles = []) (emptyDes : des.candles = []) (emptyDirect : direct.candles = [])
    (steps : PriceSteps c.candles) :
    ((c.convertKdataAndClear a mid).2.convertKdataAndClear b des).2.candles =
      (c.convertKdataAndClear (a * b) direct).2.candles := by
  have product : 2 ≤ a * b := Nat.le_trans ha (Nat.le_mul_of_pos_right a (by omega))
  rw [CCandleBar.convertKdataAndClear_eq ha, CCandleBar.convertKdataAndClear_eq hb,
    CCandleBar.convertKdataAndClear_eq product]
  simp only [emptyMid, emptyDes, emptyDirect, List.nil_append]
  rw [Blocks.blocks_map, Blocks.blocks_mul (by omega) (by omega), List.map_map, List.map_map]
  apply List.map_congr_left
  intro parts hparts
  have inside (part : List CandleBar) (hpart : part ∈ parts) :
      part ∈ Blocks.blocks a c.candles := by
    rw [← Blocks.flatten_blocks_append_residue b (Blocks.blocks a c.candles)]
    exact List.mem_append_left _ (List.mem_flatten_of_mem hparts hpart)
  apply composeBlock_flatten
  · rintro part hpart rfl
    have whole := Blocks.length_of_mem_blocks (inside [] hpart)
    rw [List.length_nil] at whole
    omega
  · apply steps.mono
    intro price hprice
    obtain ⟨bar, hbar, hprice⟩ := List.mem_flatMap.mp hprice
    obtain ⟨part, hpart, hbar⟩ := List.mem_flatten.mp hbar
    refine List.mem_flatMap.mpr ⟨bar, ?_, hprice⟩
    rw [← Blocks.flatten_blocks_append_residue a c.candles]
    exact List.mem_append_left _ (List.mem_flatten_of_mem (inside part hpart) hbar)

/-- Four bars on a price step of one. -/
def sampleQuadruple : CCandleBar :=
  { candles := [{ openPrice := 3, closePrice := 4 }, { openPrice := 4, closePrice := 2 },
      { openPrice := 2, closePrice := 2 }, { openPrice := 2, closePrice := 5 }] }

theorem conversions_compose_sample :
    ((sampleQuadruple.convertKdataAndClear 2 {}).2.convertKdataAndClear 2 {}).2.candles =
      (sampleQuadruple.convertKdataAndClear (2 * 2) {}).2.candles :=
  conversions_compose sampleQuadruple {} {} {} (le_refl 2) (le_refl 2) rfl rfl rfl
    (by decide +kernel)

end CtpTrade
