import Mathlib.Data.List.Lex
import Mathlib.Data.List.Sort
import Otedama.Framework.GoMap
import Otedama.Framework.Utf8

/-! # Sorting by a key

Sorting with a comparison of keys. Where the keys differ, the result is
a function of what is sorted, not of the order in which it is listed, and
not of the sorting algorithm either.

Go compares strings byte by byte (`byteKey`). A map that is visited by
its sorted keys is read as a list (`sortedEntries`); two maps with the
same entries give the same list. -/

namespace SortOn

open List

section

variable {α κ : Type*} [LinearOrder κ] (f : α → κ)

/-- The elements in ascending order of their keys. -/
def sortOn (xs : List α) : List α := xs.insertionSort fun a b => f a ≤ f b

instance totalByKey : Std.Total fun a b : α => f a ≤ f b := ⟨fun a b => le_total (f a) (f b)⟩

instance transByKey : IsTrans α fun a b => f a ≤ f b := ⟨fun _ _ _ => le_trans⟩

theorem sortOn_perm (xs : List α) : (sortOn f xs).Perm xs := perm_insertionSort _ xs

theorem sortOn_pairwise (xs : List α) : (sortOn f xs).Pairwise fun a b => f a ≤ f b :=
  pairwise_insertionSort _ xs

variable {f}

/-- Sorting forgets the order of the elements, where their keys differ. -/
theorem sortOn_congr {xs ys : List α} (hf : ∀ a ∈ xs, ∀ b ∈ xs, f a = f b → a = b)
    (h : xs.Perm ys) : sortOn f xs = sortOn f ys := by
  have hperm : (sortOn f xs).Perm (sortOn f ys) :=
    (sortOn_perm f xs).trans (h.trans (sortOn_perm f ys).symm)
  refine hperm.eq_of_pairwise ?_ (sortOn_pairwise f xs) (sortOn_pairwise f ys)
  intro a b ha hb hab hba
  have ha' : a ∈ xs := (sortOn_perm f xs).mem_iff.mp ha
  have hb' : b ∈ xs := h.mem_iff.mpr ((sortOn_perm f ys).mem_iff.mp hb)
  exact hf a ha' b hb' (le_antisymm hab hba)

end

/-! ## Strings -/

/-- What the comparison of strings compares, lexicographically. -/
def byteKey (s : GoString) : List Nat := s.map UInt8.toNat

theorem byteKey_injective : Function.Injective byteKey :=
  map_injective_iff.mpr fun _ _ => UInt8.toNat_inj.mp

/-! ## Maps -/

section

variable {ν : Type*} {m m' : GoMap GoString ν}

/-- The sorted keys of a map, with the values found under them. -/
def sortedEntries (m : GoMap GoString ν) : List (GoString × ν) :=
  (sortOn byteKey m.keys).filterMap fun k => (m.lookup k).map fun v => (k, v)

theorem mem_sortedEntries {k : GoString} {v : ν} :
    (k, v) ∈ sortedEntries m ↔ m.lookup k = some v := by
  unfold sortedEntries
  rw [mem_filterMap]
  constructor
  · rintro ⟨k', -, hk'⟩
    obtain ⟨v', hv', heq⟩ := Option.map_eq_some_iff.mp hk'
    cases heq
    exact hv'
  · intro hk
    have hmem : k ∈ m.keys := AList.mem_keys.mp (GoMap.mem_of_lookup hk)
    exact ⟨k, (sortOn_perm byteKey m.keys).mem_iff.mpr hmem, by rw [hk]; rfl⟩

theorem map_fst_sortedEntries (m : GoMap GoString ν) :
    (sortedEntries m).map Prod.fst = sortOn byteKey m.keys := by
  have hpresent : ∀ k ∈ sortOn byteKey m.keys, ∃ v, m.lookup k = some v := by
    intro k hk
    exact GoMap.exists_lookup (AList.mem_keys.mpr ((sortOn_perm byteKey m.keys).mem_iff.mp hk))
  unfold sortedEntries
  generalize sortOn byteKey m.keys = ks at hpresent ⊢
  induction ks with
  | nil => rfl
  | cons k ks ih =>
    obtain ⟨v, hv⟩ := hpresent k mem_cons_self
    rw [filterMap_cons, hv]
    exact congrArg (k :: ·) (ih fun x hx => hpresent x (mem_cons_of_mem k hx))

theorem nodup_sortedEntries (m : GoMap GoString ν) : ((sortedEntries m).map Prod.fst).Nodup := by
  rw [map_fst_sortedEntries]
  exact (sortOn_perm byteKey m.keys).nodup_iff.mpr m.keys_nodup

theorem sortedEntries_pairwise (m : GoMap GoString ν) :
    (sortedEntries m).Pairwise fun a b => byteKey a.1 < byteKey b.1 := by
  have hle := sortOn_pairwise byteKey m.keys
  have hnodup := nodup_sortedEntries m
  rw [← map_fst_sortedEntries, pairwise_map] at hle
  refine (hle.and (pairwise_map.mp hnodup)).imp fun h => ?_
  exact h.1.lt_of_ne fun heq => h.2 (byteKey_injective heq)

/-- Every list in the order of different keys is that of a map. -/
theorem exists_sortedEntries {es : List (GoString × ν)}
    (h : es.Pairwise fun a b => byteKey a.1 < byteKey b.1) :
    ∃ m : GoMap GoString ν, sortedEntries m = es := by
  have hnodup : (es.map Prod.fst).Nodup :=
    pairwise_map.mpr (h.imp fun hlt heq => absurd (congrArg byteKey heq) hlt.ne)
  let m : GoMap GoString ν := ⟨es.map fun e => ⟨e.1, e.2⟩, by
    rw [NodupKeys, keys, map_map]
    exact hnodup⟩
  have hmem : ∀ e, e ∈ sortedEntries m ↔ e ∈ es := by
    rintro ⟨k, v⟩
    rw [mem_sortedEntries, ← Option.mem_def, AList.mem_lookup_iff]
    simp [m]
  have hperm := (perm_ext_iff_of_nodup (nodup_sortedEntries m).of_map hnodup.of_map).mpr hmem
  refine ⟨m, hperm.eq_of_pairwise ?_ (sortedEntries_pairwise m) h⟩
  intro a b _ _ hab hba
  exact absurd hba hab.asymm

/-- Two maps give the same list exactly if they are the same map. -/
theorem sortedEntries_eq_iff :
    sortedEntries m = sortedEntries m' ↔ ∀ k, m.lookup k = m'.lookup k := by
  constructor
  · intro h k
    ext v
    rw [← mem_sortedEntries, ← mem_sortedEntries, h]
  · intro h
    have hkeys : m.keys.Perm m'.keys := by
      refine (perm_ext_iff_of_nodup m.keys_nodup m'.keys_nodup).mpr fun k => ?_
      rw [← AList.mem_keys, ← AList.mem_keys, ← AList.lookup_isSome, ← AList.lookup_isSome, h k]
    unfold sortedEntries
    rw [sortOn_congr (fun _ _ _ _ heq => byteKey_injective heq) hkeys]
    simp only [h]

end

end SortOn
