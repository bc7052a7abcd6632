import CtpTrade.Library.OrderedMap

/-!
# `efficient_map_operation`

The upsert of `EfficientMap.h`: one `lower_bound` decides whether the existing
entry is assigned or a new one is inserted at the hint.
-/

namespace CtpTrade

variable {κ ν : Type*} [LinearOrder κ]

def efficientMapOperation (m : OrderedMap κ ν) (k : κ) (v : ν) : OrderedMap κ ν :=
  match m.lowerBound k with
  | some first => if ¬ k < first then m.set first v else m.insert k v
  | none => m.insert k v

/-- Both branches write `v` under `k` and nothing else. -/
theorem find?_efficientMapOperation (m : OrderedMap κ ν) (k k' : κ) (v : ν) :
    (efficientMapOperation m k v).find? k' = if k' = k then some v else m.find? k' := by
  have inserted (h : ∀ first, m.lowerBound k = some first → k < first) :
      (m.insert k v).find? k' = if k' = k then some v else m.find? k' := by
    rw [m.find?_insert, OrderedMap.find?_of_not_lowerBound h]
    rfl
  simp only [efficientMapOperation]
  cases hb : m.lowerBound k with
  | none => exact inserted (by simp [hb])
  | some first =>
      by_cases above : k < first
      · simpa only [above, not_true_eq_false, ↓reduceIte] using inserted (by simp [hb, above])
      · obtain rfl : k = first := OrderedMap.eq_of_lowerBound hb above
        simp only [lt_irrefl, not_false_eq_true, ↓reduceIte, m.find?_set]

end CtpTrade
