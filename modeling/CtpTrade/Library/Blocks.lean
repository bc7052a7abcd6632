import Mathlib.Algebra.Order.Ring.Nat
import Mathlib.Data.List.Basic

/-!
# Cutting a stream into blocks

`blocks m l` are the whole blocks of length `m` from the front of `l`, and
`residue m l` is what is left behind the last of them. A decomposition into
blocks and a shorter remainder is unique (`blocks_eq`), and from that follow the
laws for a stream that arrives in parts (`blocks_append`, `residue_append`) and
for blocks of blocks (`blocks_mul`). `foldl_flatten` runs a loop over whole
blocks.
-/

namespace Blocks

universe u v w

variable {α : Type u} {σ : Type w}
variable {m : Nat} {l : List α} {bs : List (List α)}

def blocks (m : Nat) (l : List α) : List (List α) :=
  (List.range (l.length / m)).map fun j => (l.drop (j * m)).take m

def residue (m : Nat) (l : List α) : List α := l.drop (l.length / m * m)

@[simp] theorem length_blocks : (blocks m l).length = l.length / m := by simp [blocks]

theorem getElem?_blocks {j : Nat} (h : j < l.length / m) :
    (blocks m l)[j]? = some ((l.drop (j * m)).take m) := by
  simp [blocks, h]

theorem length_of_mem_blocks {b : List α} (h : b ∈ blocks m l) : b.length = m := by
  simp only [blocks, List.mem_map, List.mem_range] at h
  obtain ⟨j, hj, rfl⟩ := h
  have inside : (j + 1) * m ≤ l.length :=
    (Nat.mul_le_mul_right m hj).trans (Nat.div_mul_le_self ..)
  rw [Nat.succ_mul] at inside
  rw [List.length_take, List.length_drop]
  omega

/-- The length of the residue is the remainder. -/
theorem length_residue : (residue m l).length = l.length % m := by
  rw [residue, List.length_drop]
  have := Nat.div_add_mod' l.length m
  omega

/-- The residue is what stands behind the last `l.length % m` positions. -/
theorem residue_eq_drop : residue m l = l.drop (l.length - l.length % m) := by
  have := Nat.div_add_mod' l.length m
  rw [residue]
  congr 1
  omega

/-- The elements may be rewritten before or after the cut. -/
theorem blocks_map {γ : Type v} (f : α → γ) :
    blocks m (l.map f) = (blocks m l).map (List.map f) := by
  simp only [blocks, List.length_map, List.map_map]
  apply List.map_congr_left
  intro j _
  simp only [Function.comp_apply, List.map_take, List.map_drop]

theorem blocks_of_length_lt (short : l.length < m) : blocks m l = [] := by
  simp [blocks, Nat.div_eq_of_lt short]

theorem residue_of_length_lt (short : l.length < m) : residue m l = l := by
  simp [residue, Nat.div_eq_of_lt short]

/-- The first block comes off. -/
theorem blocks_append_of_length {b : List α} (pos : 0 < m) (hb : b.length = m) :
    blocks m (b ++ l) = b :: blocks m l := by
  have count : (b ++ l).length / m = l.length / m + 1 := by
    rw [List.length_append, hb, Nat.add_div_left _ pos]
  rw [blocks, count, List.range_succ_eq_map, List.map_cons, List.map_map]
  congr 1
  · simp [← hb]
  · apply List.map_congr_left
    intro j _
    have shift : (j + 1) * m = b.length + j * m := by rw [hb, Nat.succ_mul, Nat.add_comm]
    simp only [Function.comp_apply, Nat.succ_eq_add_one, shift, List.drop_length_add_append]

/-- Blocks of length `m` before a shorter remainder are the blocks of the list. -/
theorem blocks_eq (bs : List (List α)) {rest : List α} (lengths : ∀ b ∈ bs, b.length = m)
    (short : rest.length < m) :
    blocks m (bs.flatten ++ rest) = bs := by
  induction bs with
  | nil => exact blocks_of_length_lt short
  | cons b bs ih =>
      obtain ⟨hb, lengths⟩ := List.forall_mem_cons.mp lengths
      rw [List.flatten_cons, List.append_assoc, blocks_append_of_length (by omega) hb, ih lengths]

theorem length_flatten (lengths : ∀ b ∈ bs, b.length = m) :
    bs.flatten.length = bs.length * m := by
  induction bs with
  | nil => simp
  | cons b bs ih =>
      obtain ⟨hb, lengths⟩ := List.forall_mem_cons.mp lengths
      rw [List.flatten_cons, List.length_append, hb, ih lengths, List.length_cons, Nat.succ_mul,
        Nat.add_comm]

theorem residue_eq (bs : List (List α)) {rest : List α} (lengths : ∀ b ∈ bs, b.length = m)
    (short : rest.length < m) : residue m (bs.flatten ++ rest) = rest := by
  have count := congrArg List.length (blocks_eq bs lengths short)
  rw [length_blocks] at count
  rw [residue, count, ← length_flatten lengths, List.drop_left]

/-- The blocks and the residue make up the list. -/
theorem flatten_blocks_append_residue (m : Nat) (l : List α) :
    (blocks m l).flatten ++ residue m l = l := by
  obtain rfl | pos := Nat.eq_zero_or_pos m
  · simp [blocks, residue]
  · induction hn : l.length using Nat.strong_induction_on generalizing l with
    | _ n ih =>
        by_cases short : l.length < m
        · rw [blocks_of_length_lt short, residue_of_length_lt short, List.flatten_nil,
            List.nil_append]
        · have first : (l.take m).length = m := by
            rw [List.length_take]
            omega
          have fewer : (l.drop m).length < n := by
            rw [List.length_drop]
            omega
          have rest := ih _ fewer (l.drop m) rfl
          have lengths : ∀ b ∈ l.take m :: blocks m (l.drop m), b.length = m :=
            List.forall_mem_cons.mpr ⟨first, fun b => length_of_mem_blocks⟩
          have short' : (residue m (l.drop m)).length < m := by
            rw [length_residue]
            exact Nat.mod_lt _ pos
          have whole : (l.take m :: blocks m (l.drop m)).flatten ++ residue m (l.drop m) = l := by
            rw [List.flatten_cons, List.append_assoc, rest, List.take_append_drop]
          have hblocks := blocks_eq _ lengths short'
          have hresidue := residue_eq _ lengths short'
          rw [whole] at hblocks hresidue
          rw [hblocks, hresidue, whole]

/-- The last element is in no block unless it completes one. -/
theorem blocks_dropLast (pos : 0 < m) (left : l.length % m ≠ 0) :
    blocks m l.dropLast = blocks m l := by
  have some : l ≠ [] := by
    intro none
    simp [none] at left
  have whole : (blocks m l.dropLast).flatten ++ (residue m l.dropLast ++ [l.getLast some]) = l := by
    rw [← List.append_assoc, flatten_blocks_append_residue, List.dropLast_append_getLast]
  have short : (residue m l.dropLast ++ [l.getLast some]).length < m := by
    rw [List.length_append, length_residue, List.length_dropLast, List.length_singleton]
    have next : ((l.length - 1) % m + 1) % m = l.length % m := by
      rw [Nat.mod_add_mod, Nat.sub_add_cancel (List.length_pos_iff.mpr some)]
    have lt := Nat.mod_lt (l.length - 1) pos
    by_contra full
    rw [show (l.length - 1) % m + 1 = m by omega, Nat.mod_self] at next
    exact left next.symm
  have unique := blocks_eq (blocks m l.dropLast) (fun b hb => length_of_mem_blocks hb) short
  rw [whole] at unique
  exact unique.symm

theorem length_blocks_dropLast_lt (pos : 0 < m) (some : l ≠ []) (exact : l.length % m = 0) :
    (blocks m l.dropLast).length < (blocks m l).length := by
  have filled : 0 < l.length := List.length_pos_iff.mpr some
  rw [length_blocks, length_blocks, List.length_dropLast, Nat.div_lt_iff_lt_mul pos,
    Nat.div_mul_cancel (Nat.dvd_of_mod_eq_zero exact)]
  omega

theorem flatten_blocks : (blocks m l).flatten = l.take (l.length - l.length % m) := by
  have whole := flatten_blocks_append_residue m l
  have split := List.take_append_drop (l.length - l.length % m) l
  rw [← residue_eq_drop] at split
  exact List.append_cancel_right (whole.trans split.symm)

variable {more : List α}

theorem length_residue_lt (pos : 0 < m) : (residue m l).length < m := by
  rw [length_residue]
  exact Nat.mod_lt _ pos

/-- Decompose the front, then its residue with what follows. -/
theorem append_eq (l more : List α) (m : Nat) :
    l ++ more =
      (blocks m l ++ blocks m (residue m l ++ more)).flatten ++
        residue m (residue m l ++ more) := by
  rw [List.flatten_append, List.append_assoc, flatten_blocks_append_residue, ← List.append_assoc,
    flatten_blocks_append_residue]

theorem blocks_append (pos : 0 < m) :
    blocks m (l ++ more) = blocks m l ++ blocks m (residue m l ++ more) := by
  rw [append_eq l more m]
  apply blocks_eq _ _ (length_residue_lt pos)
  intro b hb
  exact (List.mem_append.mp hb).elim length_of_mem_blocks length_of_mem_blocks

/-- The blocks of a stream are the leading ones of a longer stream. -/
theorem blocks_leading {longer : List α} (pos : 0 < m) (grow : l <+: longer) :
    blocks m l <+: blocks m longer := by
  obtain ⟨more, rfl⟩ := grow
  rw [blocks_append pos]
  exact List.prefix_append _ _

theorem residue_append (pos : 0 < m) :
    residue m (l ++ more) = residue m (residue m l ++ more) := by
  rw [append_eq l more m]
  apply residue_eq _ _ (length_residue_lt pos)
  intro b hb
  exact (List.mem_append.mp hb).elim length_of_mem_blocks length_of_mem_blocks

/-- A block of `a * b` elements is the concatenation of `b` blocks of `a`. -/
theorem blocks_mul {a b : Nat} (ha : 0 < a) (hb : 0 < b) :
    blocks (a * b) l = (blocks b (blocks a l)).map List.flatten := by
  have inner (c : List (List α)) (hc : c ∈ blocks b (blocks a l)) :
      ∀ x ∈ c, x.length = a := by
    intro x hx
    apply length_of_mem_blocks (l := l)
    rw [← flatten_blocks_append_residue b (blocks a l)]
    exact List.mem_append_left _ (List.mem_flatten_of_mem hc hx)
  have left : ∀ x ∈ residue b (blocks a l), x.length = a := by
    intro x hx
    apply length_of_mem_blocks (l := l)
    rw [← flatten_blocks_append_residue b (blocks a l)]
    exact List.mem_append_right _ hx
  have lengths : ∀ c ∈ (blocks b (blocks a l)).map List.flatten, c.length = a * b := by
    intro c hc
    obtain ⟨parts, hparts, rfl⟩ := List.mem_map.mp hc
    rw [length_flatten (inner parts hparts), length_of_mem_blocks hparts, Nat.mul_comm]
  have short : ((residue b (blocks a l)).flatten ++ residue a l).length < a * b := by
    rw [List.length_append, length_flatten left]
    have outer := length_residue_lt (l := blocks a l) hb
    have last := length_residue_lt (l := l) ha
    calc
      (residue b (blocks a l)).length * a + (residue a l).length
        < (residue b (blocks a l)).length * a + a := Nat.add_lt_add_left last _
      _ = ((residue b (blocks a l)).length + 1) * a := (Nat.succ_mul ..).symm
      _ ≤ b * a := Nat.mul_le_mul_right a outer
      _ = a * b := Nat.mul_comm ..
  have whole : ((blocks b (blocks a l)).map List.flatten).flatten ++
      ((residue b (blocks a l)).flatten ++ residue a l) = l := by
    rw [← List.append_assoc, ← List.flatten_flatten, ← List.flatten_append,
      flatten_blocks_append_residue, flatten_blocks_append_residue]
  have unique := blocks_eq _ lengths short
  rwa [whole] at unique

/-- A loop that handles one block as `keep` says handles all of them. -/
theorem foldl_flatten {γ : Type v} (f : σ → α → σ) (g : List α → γ) (R : σ → List γ → Prop)
    (keep : ∀ s out, ∀ b ∈ bs, R s out → R (b.foldl f s) (out ++ [g b])) {s : σ} {out : List γ}
    (start : R s out) : R (bs.flatten.foldl f s) (out ++ bs.map g) := by
  induction bs generalizing s out with
  | nil => simpa using start
  | cons b bs ih =>
      rw [List.flatten_cons, List.foldl_append, List.map_cons, List.append_cons]
      apply ih
      · intro s out c hc
        exact keep s out c (List.mem_cons_of_mem b hc)
      · exact keep s out b (List.mem_cons_self ..) start

end Blocks
