import Mathlib.Data.List.Basic
import Mathlib.Order.Lattice

/-!
# Ordered maps

A map is a list of entries in strictly increasing key order, and carries the
proof of that order, so a map with a repeated or misplaced key cannot be built.
All updates are instances of `alter`, which replaces or creates one entry;
`find?_alter` is therefore the only lookup equation that needs an induction.
-/

/-- An ordered map as a list of entries in strictly increasing key order, which is the
order in which the iterators of `std::map` pass them. No key can occur twice. -/
structure OrderedMap (κ ν : Type*) [LinearOrder κ] where
  entries : List (κ × ν)
  sorted : entries.Pairwise fun a b => a.1 < b.1
  deriving DecidableEq

namespace OrderedMap

variable {κ ν : Type*} [LinearOrder κ]

/-- The map without entries. -/
def empty : OrderedMap κ ν := ⟨[], .nil⟩

private def findIn (k : κ) : List (κ × ν) → Option ν
  | [] => none
  | (k', v) :: rest => if k = k' then some v else findIn k rest

/-- The value stored under `k`, if there is an entry for it. -/
def find? (m : OrderedMap κ ν) (k : κ) : Option ν := findIn k m.entries

private def lowerBoundIn (k : κ) : List (κ × ν) → Option κ
  | [] => none
  | (k', _) :: rest => if k' < k then lowerBoundIn k rest else some k'

/-- The key of the first entry that is not below `k`; `none` is the end of the map. -/
def lowerBound (m : OrderedMap κ ν) (k : κ) : Option κ := lowerBoundIn k m.entries

private def alterIn (k : κ) (f : Option ν → ν) : List (κ × ν) → List (κ × ν)
  | [] => [(k, f none)]
  | (k', v) :: rest =>
    if k' < k then (k', v) :: alterIn k f rest
    else if k < k' then (k, f none) :: (k', v) :: rest
    else (k', f (some v)) :: rest

private theorem mem_alterIn {k : κ} {f : Option ν → ν} {l : List (κ × ν)} {e : κ × ν}
    (h : e ∈ alterIn k f l) : e.1 = k ∨ ∃ e' ∈ l, e'.1 = e.1 := by
  induction l with
  | nil =>
      simp only [alterIn, List.mem_singleton] at h
      exact .inl (by rw [h])
  | cons head rest ih =>
      obtain ⟨k', v⟩ := head
      simp only [alterIn] at h
      split_ifs at h with below above
      · obtain rfl | h := List.mem_cons.mp h
        · exact .inr ⟨(k', v), by simp, rfl⟩
        · obtain h | ⟨e', he', hk⟩ := ih h
          · exact .inl h
          · exact .inr ⟨e', by simp [he'], hk⟩
      · obtain rfl | h := List.mem_cons.mp h
        · exact .inl rfl
        · exact .inr ⟨e, h, rfl⟩
      · obtain rfl | h := List.mem_cons.mp h
        · exact .inr ⟨(k', v), by simp, rfl⟩
        · exact .inr ⟨e, by simp [h], rfl⟩

private theorem sorted_alterIn {k : κ} {f : Option ν → ν} {l : List (κ × ν)}
    (h : l.Pairwise fun a b => a.1 < b.1) :
    (alterIn k f l).Pairwise fun a b => a.1 < b.1 := by
  induction l with
  | nil => simp [alterIn]
  | cons head rest ih =>
      obtain ⟨k', v⟩ := head
      obtain ⟨hhead, hrest⟩ := List.pairwise_cons.mp h
      simp only [alterIn]
      split_ifs with below above
      · refine List.pairwise_cons.mpr ⟨?_, ih hrest⟩
        intro e he
        obtain hk | ⟨e', he', hk⟩ := mem_alterIn he
        · rw [hk]
          exact below
        · rw [← hk]
          exact hhead e' he'
      · refine List.pairwise_cons.mpr ⟨?_, h⟩
        intro e he
        obtain rfl | he := List.mem_cons.mp he
        · exact above
        · exact lt_trans above (hhead e he)
      · exact List.pairwise_cons.mpr ⟨hhead, hrest⟩

/-- Replace the value under `k`, or create the entry when there is none. -/
def alter (m : OrderedMap κ ν) (k : κ) (f : Option ν → ν) : OrderedMap κ ν :=
  ⟨alterIn k f m.entries, sorted_alterIn m.sorted⟩

/-- Write `v` under `k`. -/
def set (m : OrderedMap κ ν) (k : κ) (v : ν) : OrderedMap κ ν := m.alter k fun _ => v

/-- Create an entry for `k`; an entry that exists is left alone, as by
`std::map::insert`. -/
def insert (m : OrderedMap κ ν) (k : κ) (v : ν) : OrderedMap κ ν := m.alter k (·.getD v)

/-- The value under `k`, or the default value where there is no entry, as `operator[]`
reads it. -/
def get [Inhabited ν] (m : OrderedMap κ ν) (k : κ) : ν := (m.find? k).getD default

@[simp] theorem find?_empty (k : κ) : (empty : OrderedMap κ ν).find? k = none := rfl

private theorem findIn_eq_none {k : κ} {l : List (κ × ν)} (h : ∀ e ∈ l, k < e.1) :
    findIn k l = none := by
  induction l with
  | nil => rfl
  | cons head rest ih =>
      have hne : k ≠ head.1 := (h head (by simp)).ne
      simp only [findIn, hne, ↓reduceIte]
      exact ih fun e he => h e (by simp [he])

private theorem findIn_alterIn {k k' : κ} {f : Option ν → ν} {l : List (κ × ν)}
    (h : l.Pairwise fun a b => a.1 < b.1) :
    findIn k' (alterIn k f l) = if k' = k then some (f (findIn k l)) else findIn k' l := by
  induction l with
  | nil => simp [alterIn, findIn]
  | cons head rest ih =>
      obtain ⟨k₀, v⟩ := head
      obtain ⟨hhead, hrest⟩ := List.pairwise_cons.mp h
      obtain below | rfl | above := lt_trichotomy k₀ k
      · simp only [alterIn, below, ↓reduceIte, findIn, below.ne', ih hrest]
        by_cases same : k' = k
        · subst same
          simp [below.ne']
        · simp [same]
      · simp only [alterIn, lt_irrefl, ↓reduceIte, findIn]
        by_cases same : k' = k₀ <;> simp [same]
      · have absent : findIn k rest = none :=
          findIn_eq_none fun e he => lt_trans above (hhead e he)
        simp only [alterIn, above.not_gt, above, ↓reduceIte, findIn, above.ne, absent]

theorem find?_alter (m : OrderedMap κ ν) (k k' : κ) (f : Option ν → ν) :
    (m.alter k f).find? k' = if k' = k then some (f (m.find? k)) else m.find? k' :=
  findIn_alterIn m.sorted

theorem find?_set (m : OrderedMap κ ν) (k k' : κ) (v : ν) :
    (m.set k v).find? k' = if k' = k then some v else m.find? k' :=
  find?_alter m k k' _

theorem find?_insert (m : OrderedMap κ ν) (k k' : κ) (v : ν) :
    (m.insert k v).find? k' = if k' = k then some ((m.find? k).getD v) else m.find? k' :=
  find?_alter m k k' _

section Get

variable [Inhabited ν]

@[simp] theorem get_set_same (m : OrderedMap κ ν) (k : κ) (v : ν) : (m.set k v).get k = v := by
  simp [get, find?_set]

theorem get_set_ne (m : OrderedMap κ ν) {k k' : κ} (v : ν) (h : k' ≠ k) :
    (m.set k v).get k' = m.get k' := by
  simp [get, find?_set, h]

end Get

section Keys

def keys (m : OrderedMap κ ν) : List κ := m.entries.map Prod.fst

theorem sorted_keys (m : OrderedMap κ ν) : m.keys.Pairwise (· < ·) :=
  List.pairwise_map.mpr m.sorted

private theorem mem_iff_findIn {k : κ} {v : ν} {l : List (κ × ν)}
    (h : l.Pairwise fun a b => a.1 < b.1) : (k, v) ∈ l ↔ findIn k l = some v := by
  induction l with
  | nil => simp [findIn]
  | cons head rest ih =>
      obtain ⟨hhead, hrest⟩ := List.pairwise_cons.mp h
      rw [List.mem_cons, ih hrest, findIn]
      by_cases same : k = head.1
      · subst same
        have absent : findIn head.1 rest = none := findIn_eq_none hhead
        simp [absent, Prod.ext_iff, eq_comm]
      · simp [same, Prod.ext_iff]

/-- The entries are what a lookup finds. -/
theorem mem_entries_iff {m : OrderedMap κ ν} {k : κ} {v : ν} :
    (k, v) ∈ m.entries ↔ m.find? k = some v :=
  mem_iff_findIn m.sorted

theorem mem_keys_iff {m : OrderedMap κ ν} {k : κ} : k ∈ m.keys ↔ (m.find? k).isSome := by
  rw [keys, List.mem_map, Option.isSome_iff_exists]
  constructor
  · rintro ⟨⟨k', v⟩, hentry, rfl⟩
    exact ⟨v, mem_entries_iff.mp hentry⟩
  · rintro ⟨v, hv⟩
    exact ⟨(k, v), mem_entries_iff.mpr hv, rfl⟩

/-- A list in strict order is determined by its elements. -/
private theorem eq_of_mem_iff {α : Type*} {r : α → α → Prop} (asymm : ∀ a b, r a b → ¬ r b a)
    {l l' : List α} (hl : l.Pairwise r) (hl' : l'.Pairwise r) (same : ∀ a, a ∈ l ↔ a ∈ l') :
    l = l' := by
  have distinct {l : List α} (h : l.Pairwise r) : l.Nodup := by
    apply h.imp
    rintro a b first rfl
    exact asymm a a first first
  have perm := (List.perm_ext_iff_of_nodup (distinct hl) (distinct hl')).mpr same
  apply List.Perm.eq_of_pairwise _ hl hl' perm
  intro a b _ _ first second
  exact absurd second (asymm a b first)

theorem keys_eq {m : OrderedMap κ ν} {l : List κ} (sorted : l.Pairwise (· < ·))
    (same : ∀ k, (m.find? k).isSome ↔ k ∈ l) : m.keys = l :=
  eq_of_mem_iff (fun _ _ => lt_asymm) m.sorted_keys sorted fun k => mem_keys_iff.trans (same k)

/-- A map is determined by its lookups. -/
theorem ext_find? {m m' : OrderedMap κ ν} (same : ∀ k, m.find? k = m'.find? k) : m = m' := by
  have entries : m.entries = m'.entries := by
    apply eq_of_mem_iff (fun _ _ => lt_asymm) m.sorted m'.sorted
    rintro ⟨k, v⟩
    rw [mem_entries_iff, mem_entries_iff, same]
  cases m
  cases m'
  cases entries
  rfl

end Keys

section Nested

variable {κ' : Type*} [LinearOrder κ']

def nestedFind? (m : OrderedMap κ (OrderedMap κ' ν)) (k : κ × κ') : Option ν :=
  (m.find? k.1).bind (·.find? k.2)

/-- Write `v` under a pair of keys. -/
def nestedSet (m : OrderedMap κ (OrderedMap κ' ν)) (k : κ × κ') (v : ν) :
    OrderedMap κ (OrderedMap κ' ν) :=
  m.set k.1 (((m.find? k.1).getD .empty).set k.2 v)

/-- The pairs of keys in the order of a traversal of both levels, outer keys first. -/
def nestedKeys (m : OrderedMap κ (OrderedMap κ' ν)) : List (κ × κ') :=
  m.entries.flatMap fun outer => outer.2.entries.map fun inner => (outer.1, inner.1)

/-- A write to the inner map under `k.1` that is a write of `v` under `k.2`. -/
theorem nestedFind?_of_write {m m' : OrderedMap κ (OrderedMap κ' ν)} {inner : OrderedMap κ' ν}
    {k : κ × κ'} {v : ν}
    (outerWrite : ∀ k₁, m'.find? k₁ = if k₁ = k.1 then some inner else m.find? k₁)
    (innerWrite : ∀ k₂, inner.find? k₂ =
      if k₂ = k.2 then some v else ((m.find? k.1).getD .empty).find? k₂) (k' : κ × κ') :
    m'.nestedFind? k' = if k' = k then some v else m.nestedFind? k' := by
  obtain ⟨k₁, k₂⟩ := k
  obtain ⟨a, b⟩ := k'
  simp only [nestedFind?, outerWrite, Prod.mk.injEq]
  by_cases outer : a = k₁
  · subst outer
    simp only [↓reduceIte, Option.bind_some, innerWrite, true_and]
    by_cases same : b = k₂
    · simp only [same, ↓reduceIte]
    · simp only [same, ↓reduceIte]
      cases m.find? a <;> rfl
  · simp only [outer, false_and, ↓reduceIte]

theorem nestedFind?_nestedSet (m : OrderedMap κ (OrderedMap κ' ν)) (k k' : κ × κ') (v : ν) :
    (m.nestedSet k v).nestedFind? k' = if k' = k then some v else m.nestedFind? k' :=
  nestedFind?_of_write (fun k₁ => m.find?_set k.1 k₁ _) (fun k₂ => find?_set _ k.2 k₂ v) k'

end Nested

private theorem not_lt_of_lowerBoundIn {k k' : κ} {l : List (κ × ν)}
    (h : lowerBoundIn k l = some k') : ¬ k' < k := by
  induction l with
  | nil => simp [lowerBoundIn] at h
  | cons head rest ih =>
      simp only [lowerBoundIn] at h
      split_ifs at h with below
      · exact ih h
      · obtain rfl : head.1 = k' := by simpa using h
        exact below

/-- A lower bound of `k` that is not above `k` is `k`. -/
theorem eq_of_lowerBound {m : OrderedMap κ ν} {k k' : κ}
    (h : m.lowerBound k = some k') (above : ¬ k < k') : k = k' :=
  le_antisymm (not_lt.mp (not_lt_of_lowerBoundIn h)) (not_lt.mp above)

private theorem findIn_of_not_lowerBoundIn {k : κ} {l : List (κ × ν)}
    (hl : l.Pairwise fun a b => a.1 < b.1)
    (h : ∀ k', lowerBoundIn k l = some k' → k < k') : findIn k l = none := by
  induction l with
  | nil => rfl
  | cons head rest ih =>
      obtain ⟨k₀, v⟩ := head
      obtain ⟨hhead, hrest⟩ := List.pairwise_cons.mp hl
      by_cases below : k₀ < k
      · simp only [lowerBoundIn, below, ↓reduceIte] at h
        simpa [findIn, below.ne'] using ih hrest h
      · have above : k < k₀ := h k₀ (by simp [lowerBoundIn, below])
        apply findIn_eq_none
        intro e he
        obtain rfl | he := List.mem_cons.mp he
        · exact above
        · exact lt_trans above (hhead e he)

/-- When no entry at the lower bound matches `k`, there is no entry for `k`. -/
theorem find?_of_not_lowerBound {m : OrderedMap κ ν} {k : κ}
    (h : ∀ k', m.lowerBound k = some k' → k < k') : m.find? k = none :=
  findIn_of_not_lowerBoundIn m.sorted h

end OrderedMap
