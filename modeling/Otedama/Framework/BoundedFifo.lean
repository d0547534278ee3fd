import Mathlib.Data.List.Induction
import Otedama.Framework.GoMap

/-! # Bounded tables that evict in the order of insertion

A map together with the list of its keys in the order of their insertion.
`put` assigns a value: a key that is present keeps its place, a new one
goes to the back, and keys are dropped from the front while there are
more than `cap`. `keep` drops every key but one.

A program that keeps such a table `Follows` these operations: each input
puts, keeps, or leaves the table alone. The main result is
`Follows.disciplined`: after every history the two parts of the table
agree, and an entry is only lost to a `keep` of another key or because it
was the first inserted of one too many. When an entry was inserted is
read off the history (`Since`), not off the list. -/

namespace BoundedFifo

open List AList Function GoMap

variable {κ ν ι : Type*}

/-! ## Tables -/

/-- The entries, and their keys in the order of insertion. -/
structure Table (κ ν : Type*) where
  entries : GoMap κ ν
  order : List κ

def Table.empty : Table κ ν := ⟨∅, []⟩

variable [DecidableEq κ]

/-- Drop the oldest keys while there are more than `cap`. -/
def evict (cap : Nat) : GoMap κ ν → List κ → Table κ ν
  | entries, [] => ⟨entries, []⟩
  | entries, k :: order =>
      if cap < (k :: order).length then evict cap (entries.erase k) order
      else ⟨entries, k :: order⟩

def Table.put (cap : Nat) (t : Table κ ν) (k : κ) (v : ν) : Table κ ν :=
  evict cap (t.entries.insert k v) (if k ∈ t.entries then t.order else t.order ++ [k])

def Table.keep (t : Table κ ν) (k : κ) : Table κ ν :=
  match t.entries.lookup k with
  | some v => ⟨AList.singleton k v, [k]⟩
  | none => Table.empty

/-- The list names the keys of the map, each once, and they are at most `cap`. -/
structure Table.WellFormed (cap : Nat) (t : Table κ ν) : Prop where
  nodup : t.order.Nodup
  mem_order : ∀ k, k ∈ t.order ↔ k ∈ t.entries
  length_le : t.order.length ≤ cap

omit [DecidableEq κ] in
theorem nodup_snoc {order : List κ} {k : κ} (h : order.Nodup) (hk : k ∉ order) :
    (order ++ [k]).Nodup := by
  refine List.nodup_append.mpr ⟨h, List.nodup_singleton k, ?_⟩
  rintro x hx y hy rfl
  exact hk (List.mem_singleton.mp hy ▸ hx)

theorem evict_of_length_le {cap : Nat} {entries : GoMap κ ν} {order : List κ}
    (h : order.length ≤ cap) : evict cap entries order = ⟨entries, order⟩ := by
  cases order with
  | nil => rfl
  | cons k order => rw [evict, if_neg (Nat.not_lt.mpr h)]

namespace Table

variable {cap : Nat} {t : Table κ ν} {k k' : κ} {v v' : ν}

omit [DecidableEq κ] in
theorem WellFormed.length_eq (h : t.WellFormed cap) : GoMap.len t.entries = t.order.length := by
  have hperm : t.entries.keys.Perm t.order := by
    refine (List.perm_ext_iff_of_nodup t.entries.keys_nodup h.nodup).mpr fun k => ?_
    rw [h.mem_order, AList.mem_keys]
  exact hperm.length_eq

/-! What `put` does, by cases on the key and on the room that is left. -/

theorem WellFormed.put_of_mem (h : t.WellFormed cap) (hk : k ∈ t.entries) :
    t.put cap k v = ⟨t.entries.insert k v, t.order⟩ := by
  rw [put, if_pos hk, evict_of_length_le h.length_le]

theorem put_of_room (hk : k ∉ t.entries) (hroom : t.order.length < cap) :
    t.put cap k v = ⟨t.entries.insert k v, t.order ++ [k]⟩ := by
  rw [put, if_neg hk, evict_of_length_le (by simp; omega)]

theorem put_of_full {oldest : κ} {rest : List κ} (hk : k ∉ t.entries)
    (hfull : t.order.length = cap) (horder : t.order = oldest :: rest) :
    t.put cap k v = ⟨(t.entries.insert k v).erase oldest, rest ++ [k]⟩ := by
  rw [horder, length_cons] at hfull
  rw [put, if_neg hk, horder, cons_append, evict, if_pos (by simp; omega),
    evict_of_length_le (by simp; omega)]

section

variable (h : t.WellFormed cap)

include h

/-- The three cases at once. A table that holds `cap` entries holds one. -/
theorem WellFormed.put_cases (hcap : 0 < cap) (k : κ) (v : ν) :
    (k ∈ t.entries ∧ t.put cap k v = ⟨t.entries.insert k v, t.order⟩) ∨
    (k ∉ t.entries ∧ t.order.length < cap ∧
      t.put cap k v = ⟨t.entries.insert k v, t.order ++ [k]⟩) ∨
    ∃ oldest rest, k ∉ t.entries ∧ t.order.length = cap ∧ t.order = oldest :: rest ∧
      t.put cap k v = ⟨(t.entries.insert k v).erase oldest, rest ++ [k]⟩ := by
  by_cases hk : k ∈ t.entries
  · exact .inl ⟨hk, h.put_of_mem hk⟩
  · rcases Nat.lt_or_eq_of_le h.length_le with hroom | hfull
    · exact .inr (.inl ⟨hk, hroom, put_of_room hk hroom⟩)
    · obtain ⟨oldest, rest, horder⟩ : ∃ oldest rest, t.order = oldest :: rest := by
        apply exists_cons_of_length_pos
        omega
      exact .inr (.inr ⟨oldest, rest, hk, hfull, horder, put_of_full hk hfull horder⟩)

theorem WellFormed.put (hcap : 0 < cap) (k : κ) (v : ν) : (t.put cap k v).WellFormed cap := by
  rcases h.put_cases hcap k v with ⟨hk, heq⟩ | ⟨hk, hroom, heq⟩ | ⟨oldest, rest, hk, hfull, horder, heq⟩
  · rw [heq]
    refine ⟨h.nodup, fun x => ?_, h.length_le⟩
    rw [h.mem_order, mem_insert]
    refine ⟨.inr, fun hx => hx.elim (fun heq => heq ▸ hk) id⟩
  · have hnew : k ∉ t.order := fun hmem => hk ((h.mem_order k).mp hmem)
    rw [heq]
    refine ⟨nodup_snoc h.nodup hnew, fun x => ?_, ?_⟩
    · rw [mem_append, mem_singleton, h.mem_order, mem_insert, or_comm]
    · rw [length_append, length_singleton]
      exact hroom
  · have hnew : k ∉ t.order := fun hmem => hk ((h.mem_order k).mp hmem)
    have hnodup := h.nodup
    have hmem := h.mem_order
    rw [horder] at hnew hnodup hmem hfull
    obtain ⟨hfresh, hrest⟩ := nodup_cons.mp hnodup
    rw [mem_cons, not_or] at hnew
    rw [heq]
    refine ⟨nodup_snoc hrest hnew.2, fun x => ?_, ?_⟩
    · rw [mem_append, mem_singleton, mem_erase, mem_insert, ← hmem, mem_cons]
      constructor
      · rintro (hx | rfl)
        · exact ⟨fun heq => hfresh (heq ▸ hx), .inr (.inr hx)⟩
        · exact ⟨hnew.1, .inl rfl⟩
      · rintro ⟨hne, hx | hx | hx⟩
        · exact .inr hx
        · exact absurd hx hne
        · exact .inl hx
    · rw [length_append, length_singleton]
      exact Nat.le_of_eq hfull

theorem WellFormed.keep (k : κ) : (t.keep k).WellFormed cap := by
  unfold Table.keep
  cases hk : t.entries.lookup k with
  | none => exact ⟨nodup_nil, fun x => by simp [empty], Nat.zero_le cap⟩
  | some v =>
    -- The key was in the list, so there is room for one.
    have hmem : k ∈ t.order := (h.mem_order k).mpr (mem_of_lookup hk)
    have hpos : 0 < t.order.length := length_pos_of_mem hmem
    refine ⟨nodup_singleton k, fun x => ?_, Nat.le_trans hpos h.length_le⟩
    show x ∈ [k] ↔ x ∈ (AList.singleton k v : GoMap κ ν)
    rw [← insert_empty, mem_insert]
    simp

/-- The value that was put is there, also if another had to go. -/
theorem WellFormed.lookup_put (hcap : 0 < cap) (k : κ) (v : ν) :
    (t.put cap k v).entries.lookup k = some v := by
  rcases h.put_cases hcap k v with ⟨-, heq⟩ | ⟨-, -, heq⟩ | ⟨oldest, rest, hk, -, horder, heq⟩
  · rw [heq, lookup_insert]
  · rw [heq, lookup_insert]
  · have hne : k ≠ oldest := by
      rintro rfl
      exact hk ((h.mem_order k).mp (horder ▸ mem_cons_self))
    rw [heq, lookup_erase_ne hne, lookup_insert]

theorem WellFormed.lookup_put_cases (hcap : 0 < cap)
    (hget : (t.put cap k v).entries.lookup k' = some v') :
    (k' = k ∧ v' = v) ∨ t.entries.lookup k' = some v' := by
  have hinsert : (t.entries.insert k v).lookup k' = some v' := by
    rcases h.put_cases hcap k v with ⟨-, heq⟩ | ⟨-, -, heq⟩ | ⟨oldest, rest, -, -, -, heq⟩
    · rwa [heq] at hget
    · rwa [heq] at hget
    · rw [heq] at hget
      by_cases hold : k' = oldest
      · subst hold
        rw [lookup_erase] at hget
        cases hget
      · rwa [lookup_erase_ne hold] at hget
  rcases lookup_insert_cases hinsert with hnew | ⟨-, hold⟩
  · exact .inl hnew
  · exact .inr hold

end

theorem lookup_keep_cases (hget : (t.keep k).entries.lookup k' = some v') :
    k' = k ∧ t.entries.lookup k' = some v' := by
  unfold Table.keep at hget
  cases hk : t.entries.lookup k with
  | none =>
    rw [hk] at hget
    cases hget
  | some v =>
    rw [hk] at hget
    obtain ⟨rfl, rfl⟩ := lookup_singleton_eq_some hget
    exact ⟨rfl, hk⟩

end Table

/-! ## Histories -/

/-- The key came with the input at position `n`, and has been present since. -/
def Since (present : List ι → κ → Prop) (hist : List ι) (k : κ) (n : Nat) : Prop :=
  n < hist.length ∧ ¬ present (hist.take n) k ∧
    ∀ m, n < m → m ≤ hist.length → present (hist.take m) k

section

variable {present : List ι → κ → Prop} {hist : List ι} {e : ι} {k : κ} {n : Nat}

omit [DecidableEq κ]

theorem Since.snoc (h : Since present hist k n) (hnow : present (hist ++ [e]) k) :
    Since present (hist ++ [e]) k n := by
  obtain ⟨hn, habsent, hsince⟩ := h
  refine ⟨by simp; omega, by rwa [take_append_of_le_length (Nat.le_of_lt hn)], fun m hm hle => ?_⟩
  rw [length_append, length_singleton] at hle
  rcases Nat.lt_or_eq_of_le hle with hlt | rfl
  · rw [take_append_of_le_length (by omega)]
    exact hsince m hm (by omega)
  · rwa [take_of_length_le (by simp)]

theorem Since.new (habsent : ¬ present hist k) (hnow : present (hist ++ [e]) k) :
    Since present (hist ++ [e]) k hist.length := by
  refine ⟨by simp, by rwa [take_left], fun m hm hle => ?_⟩
  rw [length_append, length_singleton] at hle
  obtain rfl : m = hist.length + 1 := by omega
  rwa [take_of_length_le (by simp)]

end

variable {cap : Nat} {table : List ι → Table κ ν} {received : List ι → ι → Option (κ × ν)}
  {named : ι → Option κ} {hist : List ι}

/-- The table after each history comes about by `put` for what is received,
`keep` for what is named, and nothing else. -/
structure Follows (cap : Nat) (table : List ι → Table κ ν)
    (received : List ι → ι → Option (κ × ν)) (named : ι → Option κ) : Prop where
  start : table [] = Table.empty
  step : ∀ hist e,
    (received hist e = none ∧ table (hist ++ [e]) = table hist) ∨
    (∃ k v, received hist e = some (k, v) ∧ table (hist ++ [e]) = (table hist).put cap k v) ∨
    ∃ k, received hist e = none ∧ named e = some k ∧ table (hist ++ [e]) = (table hist).keep k

/-- The key is the first inserted of all that are in the table. -/
def FirstInserted (table : List ι → Table κ ν) (hist : List ι) (k : κ) : Prop :=
  ∃ n, Since (fun pre k => k ∈ (table pre).entries) hist k n ∧
    ∀ k' ∈ (table hist).entries, k' ≠ k →
      ∃ n', Since (fun pre k => k ∈ (table pre).entries) hist k' n' ∧ n < n'

/-- What a table promises after the inputs `hist`, and of the last of them. -/
structure Disciplined (cap : Nat) (table : List ι → Table κ ν)
    (received : List ι → ι → Option (κ × ν)) (named : ι → Option κ) (hist : List ι) : Prop where
  nodup : (table hist).order.Nodup
  mem_order : ∀ k, k ∈ (table hist).order ↔ k ∈ (table hist).entries
  len_le : GoMap.len (table hist).entries ≤ cap
  /-- What was just received is there. -/
  latest : ∀ pre e k v, hist = pre ++ [e] → received pre e = some (k, v) →
    (table hist).entries.lookup k = some v
  /-- Nothing else changes its content. -/
  content : ∀ pre e k v, hist = pre ++ [e] → (table hist).entries.lookup k = some v →
    received pre e = some (k, v) ∨ (table pre).entries.lookup k = some v
  /-- An entry is lost to a `keep` of another key, or to a new key when it is
      the first inserted of `cap` entries. -/
  lost : ∀ pre e k, hist = pre ++ [e] → k ∈ (table pre).entries → k ∉ (table hist).entries →
    (∃ k', named e = some k' ∧ k' ≠ k) ∨
    (∃ k' v, received pre e = some (k', v) ∧ k' ∉ (table pre).entries) ∧
      GoMap.len (table pre).entries = cap ∧ FirstInserted table pre k

/-- The invariant behind it: the list is in the order of insertion. -/
structure Chronological (cap : Nat) (table : List ι → Table κ ν) (hist : List ι) : Prop where
  wellFormed : (table hist).WellFormed cap
  moments : ∃ since : κ → Nat,
    (∀ k ∈ (table hist).order, Since (fun pre k => k ∈ (table pre).entries) hist k (since k)) ∧
    (table hist).order.Pairwise fun k k' => since k < since k'

omit [DecidableEq κ] in
/-- The keys of a sublist keep their moments. -/
theorem Chronological.of_sublist (h : Chronological cap table hist) {e : ι}
    (hwf : (table (hist ++ [e])).WellFormed cap)
    (hsub : (table (hist ++ [e])).order.Sublist (table hist).order) :
    Chronological cap table (hist ++ [e]) := by
  obtain ⟨since, hsince, hpairs⟩ := h.moments
  refine ⟨hwf, since, fun k hk => ?_, hpairs.sublist hsub⟩
  exact (hsince k (hsub.subset hk)).snoc ((hwf.mem_order k).mp hk)

/-- The keys of a sublist keep their moments, and a new key comes last. -/
theorem Chronological.of_snoc (h : Chronological cap table hist) {e : ι} {k : κ} {kept : List κ}
    (hwf : (table (hist ++ [e])).WellFormed cap) (hnew : k ∉ (table hist).entries)
    (horder : (table (hist ++ [e])).order = kept ++ [k])
    (hsub : kept.Sublist (table hist).order) : Chronological cap table (hist ++ [e]) := by
  obtain ⟨since, hsince, hpairs⟩ := h.moments
  have hne : ∀ x ∈ kept, x ≠ k := by
    rintro x hx rfl
    exact hnew ((h.wellFormed.mem_order x).mp (hsub.subset hx))
  have hpresent : ∀ x ∈ kept ++ [k], x ∈ (table (hist ++ [e])).entries := by
    intro x hx
    exact (hwf.mem_order x).mp (horder ▸ hx)
  refine ⟨hwf, update since k hist.length, ?_, ?_⟩
  · intro x hx
    rw [horder] at hx
    rcases mem_append.mp hx with hkept | hlast
    · rw [update_of_ne (hne x hkept)]
      exact (hsince x (hsub.subset hkept)).snoc (hpresent x hx)
    · obtain rfl := mem_singleton.mp hlast
      rw [update_self]
      exact Since.new hnew (hpresent x hx)
  · rw [horder, pairwise_append]
    refine ⟨?_, pairwise_singleton _ k, ?_⟩
    · refine (hpairs.sublist hsub).imp_of_mem fun hx hy hlt => ?_
      rwa [update_of_ne (hne _ hx), update_of_ne (hne _ hy)]
    · intro x hx y hy
      obtain rfl := mem_singleton.mp hy
      rw [update_of_ne (hne x hx), update_self]
      exact (hsince x (hsub.subset hx)).1

/-- One input keeps the list in the order of insertion. -/
theorem Follows.chronological_step (h : Follows cap table received named) (hcap : 0 < cap)
    (hc : Chronological cap table hist) (e : ι) : Chronological cap table (hist ++ [e]) := by
  rcases h.step hist e with ⟨-, heq⟩ | ⟨k, v, -, heq⟩ | ⟨k, -, -, heq⟩
  · exact hc.of_sublist (heq ▸ hc.wellFormed) (heq ▸ List.Sublist.refl _)
  · have hwf := heq ▸ hc.wellFormed.put hcap k v
    rcases hc.wellFormed.put_cases hcap k v with
      ⟨-, hput⟩ | ⟨hk, -, hput⟩ | ⟨oldest, rest, hk, -, horder, hput⟩
    · rw [hput] at heq
      exact hc.of_sublist hwf (heq ▸ List.Sublist.refl _)
    · rw [hput] at heq
      exact hc.of_snoc hwf hk (heq ▸ rfl) (List.Sublist.refl _)
    · rw [hput] at heq
      exact hc.of_snoc hwf hk (heq ▸ rfl) (horder ▸ sublist_cons_self oldest rest)
  · have hwf := heq ▸ hc.wellFormed.keep k
    refine hc.of_sublist hwf ?_
    -- What is kept is the named key or nothing.
    rw [heq, Table.keep]
    cases hk : (table hist).entries.lookup k with
    | none => exact nil_sublist _
    | some v =>
      refine singleton_sublist.mpr ?_
      exact (hc.wellFormed.mem_order k).mpr (mem_of_lookup hk)

theorem Follows.chronological (h : Follows cap table received named) (hcap : 0 < cap)
    (hist : List ι) : Chronological cap table hist := by
  induction hist using reverseRecOn with
  | nil =>
    refine ⟨?_, fun _ => 0, ?_, ?_⟩
    · rw [h.start]
      exact ⟨nodup_nil, fun k => by simp [Table.empty], Nat.zero_le cap⟩
    · simp [h.start, Table.empty]
    · simp [h.start, Table.empty]
  | append_singleton hist e ih => exact h.chronological_step hcap ih e

omit [DecidableEq κ] in
/-- The key at the front of the list is the first inserted. -/
theorem Chronological.firstInserted (h : Chronological cap table hist) {oldest : κ}
    {rest : List κ} (horder : (table hist).order = oldest :: rest) :
    FirstInserted table hist oldest := by
  obtain ⟨since, hsince, hpairs⟩ := h.moments
  have hmem := h.wellFormed.mem_order
  rw [horder] at hsince hpairs hmem
  refine ⟨since oldest, hsince oldest List.mem_cons_self, fun k hk hne => ?_⟩
  have hrest : k ∈ rest := ((List.mem_cons.mp ((hmem k).mpr hk)).resolve_left hne)
  exact ⟨since k, hsince k (List.mem_cons_of_mem _ hrest), (List.pairwise_cons.mp hpairs).1 k hrest⟩

/-- **Discipline of a bounded table.** -/
theorem Follows.disciplined (h : Follows cap table received named) (hcap : 0 < cap)
    (hist : List ι) : Disciplined cap table received named hist := by
  have hwf := (h.chronological hcap hist).wellFormed
  refine ⟨hwf.nodup, hwf.mem_order, hwf.length_eq ▸ hwf.length_le, ?_, ?_, ?_⟩
  · rintro pre e k v rfl hreceived
    have hpre := (h.chronological hcap pre).wellFormed
    rcases h.step pre e with ⟨hnone, -⟩ | ⟨k', v', hsome, heq⟩ | ⟨k', hnone, -, -⟩
    · rw [hnone] at hreceived
      cases hreceived
    · rw [hsome] at hreceived
      cases hreceived
      rw [heq]
      exact hpre.lookup_put hcap k v
    · rw [hnone] at hreceived
      cases hreceived
  · rintro pre e k v rfl hget
    have hpre := (h.chronological hcap pre).wellFormed
    rcases h.step pre e with ⟨-, heq⟩ | ⟨k', v', hsome, heq⟩ | ⟨k', -, -, heq⟩
    · exact .inr (heq ▸ hget)
    · rw [heq] at hget
      rcases hpre.lookup_put_cases hcap hget with ⟨rfl, rfl⟩ | hold
      · exact .inl hsome
      · exact .inr hold
    · rw [heq] at hget
      exact .inr (Table.lookup_keep_cases hget).2
  · rintro pre e k rfl hk hgone
    have hpre := h.chronological hcap pre
    rcases h.step pre e with ⟨-, heq⟩ | ⟨k', v', hsome, heq⟩ | ⟨k', -, hnamed, heq⟩
    · exact absurd hk (heq ▸ hgone)
    · right
      -- Only a full table loses a key, and it loses the front of the list.
      rcases hpre.wellFormed.put_cases hcap k' v' with
        ⟨-, hput⟩ | ⟨-, -, hput⟩ | ⟨oldest, rest, hk', hfull, horder, hput⟩
      · rw [heq, hput, mem_insert, not_or] at hgone
        exact absurd hk hgone.2
      · rw [heq, hput, mem_insert, not_or] at hgone
        exact absurd hk hgone.2
      · obtain rfl : k = oldest := by
          by_contra hne
          rw [heq, hput, mem_erase, mem_insert] at hgone
          exact hgone ⟨hne, .inr hk⟩
        exact ⟨⟨k', v', hsome, hk'⟩, hpre.wellFormed.length_eq.trans hfull,
          hpre.firstInserted horder⟩
    · left
      refine ⟨k', hnamed, ?_⟩
      rintro rfl
      obtain ⟨v, hv⟩ := exists_lookup hk
      rw [heq, Table.keep, hv] at hgone
      exact hgone (mem_of_lookup (GoMap.lookup_singleton k' v))

end BoundedFifo
