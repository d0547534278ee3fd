import Mathlib.Data.List.AList

/-! # Go maps

A Go map is modelled by Mathlib's association lists without duplicate
keys. Lookups, assignment and `delete` are `AList.lookup`,
`AList.insert` and `AList.erase`; this module adds `len` and the
deletion of several keys, which is what a `for k := range m` loop that
deletes some of the keys it visits amounts to, in whatever order the
keys are visited, `maps.Copy`, and the order in which other loops happen
to visit a map. -/

/-- A Go `map[κ]ν`. -/
abbrev GoMap (κ ν : Type*) := AList fun _ : κ => ν

namespace GoMap

open List AList

variable {κ ν : Type*}

/-- `len(m)`. -/
def len (m : GoMap κ ν) : Nat := m.keys.length

variable {m : GoMap κ ν}

theorem len_eq_zero : len m = 0 ↔ m = ∅ := by
  rw [len, length_eq_zero_iff]
  constructor
  · intro h
    exact ext (map_eq_nil_iff.mp h)
  · rintro rfl
    rfl

theorem len_pos : 0 < len m ↔ m ≠ ∅ := by
  rw [Nat.pos_iff_ne_zero, ne_eq, len_eq_zero]

/-- A map whose keys are all among `n` values has at most `n` entries. -/
theorem len_le_of_keys_subset {ks : List κ} (h : ∀ k ∈ m, k ∈ ks) : len m ≤ ks.length := by
  have hsub : m.keys ⊆ ks := fun k hk => h k (AList.mem_keys.mpr hk)
  exact (subperm_of_subset m.keys_nodup hsub).length_le

/-- A map whose keys are numbered within `[a, b)` has at most `b - a` entries. -/
theorem len_le_of_window {f : κ → Nat} (hf : Function.Injective f) {a b : Nat}
    (h : ∀ k ∈ m, a ≤ f k ∧ f k < b) : len m ≤ b - a := by
  have hsub : m.keys.map f ⊆ range' a (b - a) := by
    intro n hn
    obtain ⟨k, hk, rfl⟩ := mem_map.mp hn
    have hk' := h k (AList.mem_keys.mpr hk)
    exact mem_range'_1.mpr (by omega)
  have hle := (subperm_of_subset (m.keys_nodup.map hf) hsub).length_le
  rwa [length_map, length_range'] at hle

/-- A map whose keys avoid the distinct values `ks`, where both lie in the
distinct values `all`. -/
theorem len_add_length_le {ks all : List κ} (hnd : ks.Nodup) (hdisj : ∀ k ∈ ks, k ∉ m)
    (hm : ∀ k ∈ m, k ∈ all) (hks : ∀ k ∈ ks, k ∈ all) : len m + ks.length ≤ all.length := by
  have hnodup : (m.keys ++ ks).Nodup := by
    refine nodup_append.mpr ⟨m.keys_nodup, hnd, ?_⟩
    rintro k hk _ hk' rfl
    exact hdisj k hk' (AList.mem_keys.mpr hk)
  have hsub : m.keys ++ ks ⊆ all := by
    intro k hk
    rcases mem_append.mp hk with hk | hk
    · exact hm k (AList.mem_keys.mpr hk)
    · exact hks k hk
  have hle := (subperm_of_subset hnodup hsub).length_le
  rwa [length_append] at hle

variable [DecidableEq κ]

theorem mem_of_lookup {k : κ} {v : ν} (h : m.lookup k = some v) : k ∈ m :=
  lookup_isSome.mp (Option.isSome_of_eq_some h)

theorem exists_lookup {k : κ} (h : k ∈ m) : ∃ v, m.lookup k = some v :=
  Option.isSome_iff_exists.mp (lookup_isSome.mpr h)

/-- What is in a map after an assignment: the new value, or an old one. -/
theorem lookup_insert_cases {k k' : κ} {v v' : ν} (h : (m.insert k v).lookup k' = some v') :
    (k' = k ∧ v' = v) ∨ (k' ≠ k ∧ m.lookup k' = some v') := by
  by_cases hk : k' = k
  · subst hk
    rw [lookup_insert] at h
    exact .inl ⟨rfl, (Option.some.inj h).symm⟩
  · rw [lookup_insert_ne hk] at h
    exact .inr ⟨hk, h⟩

theorem lookup_singleton_eq_some {k k' : κ} {v v' : ν}
    (h : (AList.singleton k v : GoMap κ ν).lookup k' = some v') : k' = k ∧ v' = v := by
  rw [← insert_empty] at h
  rcases lookup_insert_cases h with hnew | ⟨-, hold⟩
  · exact hnew
  · cases hold

theorem lookup_singleton (k : κ) (v : ν) : (AList.singleton k v : GoMap κ ν).lookup k = some v := by
  rw [← insert_empty]
  exact lookup_insert _

theorem erase_singleton_ne (k : κ) (v : ν) :
    (AList.singleton k v : GoMap κ ν).erase k ≠ AList.singleton k v := by
  intro heq
  have hgone := lookup_erase k (AList.singleton k v : GoMap κ ν)
  rw [heq, lookup_singleton] at hgone
  cases hgone

/-- Inserting values under keys that they determine: where these keys differ,
the value under a key is the one that was inserted under it, or the old
one. -/
theorem lookup_foldl_insert {key : ν → κ} {vs : List ν} (hkeys : (vs.map key).Nodup)
    (m : GoMap κ ν) {k : κ} {v : ν} :
    (vs.foldl (fun m v => m.insert (key v) v) m).lookup k = some v ↔
      (v ∈ vs ∧ key v = k) ∨ (m.lookup k = some v ∧ ∀ v' ∈ vs, key v' ≠ k) := by
  induction vs generalizing m with
  | nil => simp
  | cons x vs ih =>
    rw [map_cons, nodup_cons] at hkeys
    rw [foldl_cons, ih hkeys.2]
    by_cases hk : k = key x
    · subst hk
      rw [lookup_insert]
      grind
    · rw [lookup_insert_ne hk]
      grind

/-- A map without values is empty. -/
theorem eq_empty_of_lookup (h : ∀ k, m.lookup k = none) : m = ∅ := by
  refine len_eq_zero.mp (length_eq_zero_iff.mpr ?_)
  refine eq_nil_iff_forall_not_mem.mpr fun k hk => ?_
  exact lookup_eq_none.mp (h k) (AList.mem_keys.mpr hk)

/-- Delete the listed keys, one after another. -/
def deleteAll (ks : List κ) (m : GoMap κ ν) : GoMap κ ν :=
  ks.foldl (fun m k => m.erase k) m

@[simp] theorem deleteAll_nil (m : GoMap κ ν) : deleteAll [] m = m := rfl

@[simp] theorem deleteAll_cons (k : κ) (ks : List κ) (m : GoMap κ ν) :
    deleteAll (k :: ks) m = deleteAll ks (m.erase k) := rfl

@[simp] theorem mem_deleteAll {ks : List κ} {k : κ} :
    k ∈ deleteAll ks m ↔ k ∈ m ∧ k ∉ ks := by
  induction ks generalizing m with
  | nil => simp
  | cons x ks ih =>
    rw [deleteAll_cons, ih, mem_erase, mem_cons]
    tauto

theorem lookup_deleteAll (ks : List κ) (m : GoMap κ ν) (k : κ) :
    (deleteAll ks m).lookup k = if k ∈ ks then none else m.lookup k := by
  induction ks generalizing m with
  | nil => simp
  | cons x ks ih =>
    rw [deleteAll_cons, ih]
    by_cases hx : k = x
    · subst hx
      simp [lookup_erase]
    · simp [hx, lookup_erase_ne hx]

/-- Deleting keys does not grow the map. -/
theorem len_deleteAll_le (ks : List κ) (m : GoMap κ ν) : len (deleteAll ks m) ≤ len m :=
  len_le_of_keys_subset fun _ hk => AList.mem_keys.mp (mem_deleteAll.mp hk).1

/-- `maps.Copy(dst, src)`. -/
def copy (dst src : GoMap κ ν) : GoMap κ ν := src ∪ dst

@[simp] theorem copy_empty (src : GoMap κ ν) : copy ∅ src = src := union_empty

theorem lookup_copy (dst src : GoMap κ ν) (k : κ) :
    (copy dst src).lookup k = (src.lookup k).or (dst.lookup k) := by
  unfold copy
  by_cases hk : k ∈ src
  · rw [lookup_union_left hk]
    obtain ⟨v, hv⟩ := exists_lookup hk
    rw [hv]
    rfl
  · rw [lookup_union_right hk, lookup_eq_none.mpr hk]
    rfl

/-- The order in which `for … := range m` visits the keys of a map. -/
structure RangeOrder (κ : Type*) where
  order : List κ → List κ
  perm : ∀ ks, (order ks).Perm ks

/-- A loop that happens to visit the key `k` first. -/
def RangeOrder.first (k : κ) : RangeOrder κ where
  order ks := if k ∈ ks then k :: ks.erase k else ks
  perm ks := by
    split
    · next hk => exact (List.perm_cons_erase hk).symm
    · exact List.Perm.refl ks

/-- A loop that happens to visit the key `k` last. -/
def RangeOrder.last (k : κ) : RangeOrder κ where
  order ks := if k ∈ ks then ks.erase k ++ [k] else ks
  perm ks := by
    split
    · next hk => exact (List.perm_append_singleton k _).trans (List.perm_cons_erase hk).symm
    · exact List.Perm.refl ks

/-- The values of a map as a `range` loop visits them. -/
def values (o : RangeOrder κ) (m : GoMap κ ν) : List ν := (o.order m.keys).filterMap m.lookup

theorem mem_values {o : RangeOrder κ} {v : ν} : v ∈ values o m ↔ ∃ k, m.lookup k = some v := by
  unfold values
  rw [mem_filterMap]
  constructor
  · rintro ⟨k, -, hk⟩
    exact ⟨k, hk⟩
  · rintro ⟨k, hk⟩
    have hmem : k ∈ m.keys := AList.mem_keys.mp (mem_of_lookup hk)
    exact ⟨k, (o.perm m.keys).mem_iff.mpr hmem, hk⟩

theorem values_perm (o o' : RangeOrder κ) (m : GoMap κ ν) : (values o m).Perm (values o' m) :=
  ((o.perm m.keys).trans (o'.perm m.keys).symm).filterMap _

/-- Two maps whose values are related key by key: visited in any two orders,
their values are related up to order. -/
theorem exists_perm_values {μ : Type*} {R : ν → μ → Prop} {m' : GoMap κ μ}
    (h : ∀ k, Option.Rel R (m.lookup k) (m'.lookup k)) (o o' : RangeOrder κ) :
    ∃ vs, vs.Perm (values o' m') ∧ List.Forall₂ R (values o m) vs := by
  have hkeys : m.keys.Perm m'.keys := by
    refine (perm_ext_iff_of_nodup m.keys_nodup m'.keys_nodup).mpr fun k => ?_
    rw [← AList.mem_keys, ← AList.mem_keys, ← lookup_isSome, ← lookup_isSome]
    have hk := h k
    generalize m.lookup k = v at hk ⊢
    generalize m'.lookup k = v' at hk ⊢
    cases hk <;> simp
  refine ⟨(o.order m.keys).filterMap m'.lookup, ?_, ?_⟩
  · exact ((o.perm _).trans (hkeys.trans (o'.perm _).symm)).filterMap _
  · refine rel_filterMap (R := Eq) ?_ (forall₂_refl _)
    rintro k _ rfl
    exact h k

/-- The value under the key that is visited first. -/
theorem values_first {k : κ} {v : ν} (hk : m.lookup k = some v) :
    ∃ rest, values (RangeOrder.first k) m = v :: rest := by
  have hmem : k ∈ m.keys := AList.mem_keys.mp (mem_of_lookup hk)
  refine ⟨(m.keys.erase k).filterMap m.lookup, ?_⟩
  simp [values, RangeOrder.first, hmem, hk]

/-- The value under the key that is visited last. -/
theorem values_last {k : κ} {v : ν} (hk : m.lookup k = some v) :
    ∃ rest, values (RangeOrder.last k) m = rest ++ [v] := by
  have hmem : k ∈ m.keys := AList.mem_keys.mp (mem_of_lookup hk)
  refine ⟨(m.keys.erase k).filterMap m.lookup, ?_⟩
  simp [values, RangeOrder.last, hmem, hk]

end GoMap
