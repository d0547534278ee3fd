import Otedama.Engine.Arbitrate

/-! # Merging the entries of a provider

`streamsSlice` merges all entries of a stream into the one that the loop
over the map happens to visit first. This file

* says what it computes on values, forgetting references, and proves that
  the loop over the heap computes it (`streamsSlice_refines`);
* says which cells of the heap it changes (`mergeEntries_read`);
* determines exactly when the result does not depend on the order in
  which the map is visited (`streamsSlice_order_free_iff`). -/

namespace Otedama.Engine

open Arbitration GoMap Entry List AList

/-! ## Merging values -/

/-- `mergeEntry` on values. -/
def mergeStream (acc : GoMap String Stream) (s : Stream) : GoMap String Stream :=
  match acc.lookup s.id with
  | some rep =>
      acc.insert s.id { rep with
        yieldPerDevice := GoMap.copy rep.yieldPerDevice s.yieldPerDevice
        defaultYield :=
          if rep.defaultYield = Yield.zero then s.defaultYield else rep.defaultYield }
  | none => acc.insert s.id s

/-- The merged streams by id. -/
def mergeStreams (streams : List Stream) : GoMap String Stream := streams.foldl mergeStream ∅

/-- The first entry of a stream. -/
def firstOf (es : List Entry) (id : String) : Option Entry := es.find? fun e => e.id == id

theorem firstOf_snoc (es : List Entry) (s : Entry) (id : String) :
    firstOf (es ++ [s]) id = (firstOf es id).or (if s.id = id then some s else none) := by
  unfold firstOf
  rw [find?_append]
  by_cases hid : s.id = id <;> simp [hid]

theorem mem_of_firstOf {es : List Entry} {id : String} {e : Entry} (h : firstOf es id = some e) :
    e ∈ es ∧ e.id = id :=
  ⟨mem_of_find?_eq_some h, by simpa using find?_some h⟩

/-! ## The loop over the heap -/

/-- The loop has merged the entries `done`, starting from the heap `h₀`; on
values that is `abs`. -/
structure MergeInv (h₀ : YieldHeap) (done : List Entry) (acc : YieldHeap × GoMap String Entry)
    (abs : GoMap String Stream) : Prop where
  keys : acc.2.keys = abs.keys
  lookup : ∀ id, (acc.2.lookup id).map (Entry.resolve acc.1) = abs.lookup id
  size : h₀.size ≤ acc.1.size
  isSome : ∀ id, (acc.2.lookup id).isSome = (firstOf done id).isSome
  /-- A representative shares the map of the first entry of its stream when
      that was empty, and has a map of its own otherwise. -/
  ref : ∀ id rep e, acc.2.lookup id = some rep → firstOf done id = some e →
    rep.yieldPerDevice < acc.1.size ∧
      ((h₀.read e.yieldPerDevice = ∅ ∧ rep.yieldPerDevice = e.yieldPerDevice) ∨
       (h₀.read e.yieldPerDevice ≠ ∅ ∧ h₀.size ≤ rep.yieldPerDevice))
  distinct : ∀ id id' rep rep', acc.2.lookup id = some rep → acc.2.lookup id' = some rep' →
    rep.yieldPerDevice = rep'.yieldPerDevice → id = id'
  /-- Only maps of representatives are written. -/
  frame : ∀ r < h₀.size, (∀ id rep, acc.2.lookup id = some rep → rep.yieldPerDevice ≠ r) →
    acc.1.read r = h₀.read r

section

variable {h₀ : YieldHeap} {done : List Entry} {acc : YieldHeap × GoMap String Entry}
  {abs : GoMap String Stream} {s : Entry}

theorem MergeInv.start (h₀ : YieldHeap) : MergeInv h₀ [] (h₀, ∅) ∅ where
  keys := rfl
  lookup := fun id => rfl
  size := le_refl _
  isSome := fun id => rfl
  ref := fun id rep e hrep => by cases hrep
  distinct := fun id id' rep rep' hrep => by cases hrep
  frame := fun r _ _ => rfl

section

variable (hinv : MergeInv h₀ done acc abs)

include hinv

theorem MergeInv.exists_first {id : String} {rep : Entry} (hrep : acc.2.lookup id = some rep) :
    ∃ e, firstOf done id = some e := by
  rw [← Option.isSome_iff_exists, ← hinv.isSome, hrep]
  rfl

/-- No representative has the map of an entry that is still to come. -/
theorem MergeInv.ref_ne {r : Ref} (hr : r < h₀.size) (hnew : ∀ e ∈ done, e.yieldPerDevice ≠ r)
    {id : String} {rep : Entry} (hrep : acc.2.lookup id = some rep) : rep.yieldPerDevice ≠ r := by
  obtain ⟨e, he⟩ := hinv.exists_first hrep
  rcases (hinv.ref id rep e hrep he).2 with ⟨-, hshared⟩ | ⟨-, hown⟩
  · rw [hshared]
    exact hnew e (mem_of_firstOf he).1
  · exact (hr.trans_le hown).ne'

/-- Storing a representative for the stream of `s`: it may only write its own
map, which no other representative has. -/
theorem MergeInv.insert (s rep : Entry) (heap : YieldHeap) {e : Entry}
    (hsize : acc.1.size ≤ heap.size)
    (hother : ∀ r < acc.1.size, r ≠ rep.yieldPerDevice → heap.read r = acc.1.read r)
    (hfirst : firstOf (done ++ [s]) s.id = some e) (href : rep.yieldPerDevice < heap.size ∧
      ((h₀.read e.yieldPerDevice = ∅ ∧ rep.yieldPerDevice = e.yieldPerDevice) ∨
       (h₀.read e.yieldPerDevice ≠ ∅ ∧ h₀.size ≤ rep.yieldPerDevice)))
    (hsame : ∀ old, acc.2.lookup s.id = some old → old.yieldPerDevice = rep.yieldPerDevice)
    (hapart : ∀ id ≠ s.id, ∀ old, acc.2.lookup id = some old →
      old.yieldPerDevice ≠ rep.yieldPerDevice) :
    MergeInv h₀ (done ++ [s]) (heap, acc.2.insert s.id rep)
      (abs.insert s.id (rep.resolve heap)) := by
  have hfirst' : ∀ id ≠ s.id, firstOf (done ++ [s]) id = firstOf done id := by
    intro id hid
    rw [firstOf_snoc, if_neg (Ne.symm hid), Option.or_none]
  refine ⟨?_, ?_, hinv.size.trans hsize, ?_, ?_, ?_, ?_⟩
  · rw [keys_insert, keys_insert, hinv.keys]
  · intro id
    by_cases hid : id = s.id
    · subst hid
      rw [lookup_insert, lookup_insert]
      rfl
    · rw [lookup_insert_ne hid, lookup_insert_ne hid, ← hinv.lookup]
      cases hold : acc.2.lookup id with
      | none => rfl
      | some old =>
        obtain ⟨e', he'⟩ := hinv.exists_first hold
        have hread := hother _ (hinv.ref id old e' hold he').1 (hapart id hid old hold)
        simp only [Option.map_some, resolve, hread]
  · intro id
    by_cases hid : id = s.id
    · subst hid
      rw [lookup_insert, hfirst]
      rfl
    · rw [lookup_insert_ne hid, hfirst' id hid]
      exact hinv.isSome id
  · intro id rep' e' hrep' he'
    rcases lookup_insert_cases hrep' with ⟨rfl, rfl⟩ | ⟨hid, hold⟩
    · obtain rfl := Option.some.inj (hfirst.symm.trans he')
      exact href
    · rw [hfirst' id hid] at he'
      obtain ⟨hlt, hcases⟩ := hinv.ref id rep' e' hold he'
      exact ⟨hlt.trans_le hsize, hcases⟩
  · intro id id' rep₁ rep₂ h₁ h₂ heq
    rcases lookup_insert_cases h₁ with ⟨hid, rfl⟩ | ⟨hid, hold₁⟩
    · rcases lookup_insert_cases h₂ with ⟨hid', -⟩ | ⟨hid', hold₂⟩
      · rw [hid, hid']
      · exact absurd heq.symm (hapart id' hid' rep₂ hold₂)
    · rcases lookup_insert_cases h₂ with ⟨-, rfl⟩ | ⟨-, hold₂⟩
      · exact absurd heq (hapart id hid rep₁ hold₁)
      · exact hinv.distinct id id' rep₁ rep₂ hold₁ hold₂ heq
  · intro r hr hnot
    have hrep : r ≠ rep.yieldPerDevice := (hnot s.id rep (lookup_insert _)).symm
    rw [hother r (hr.trans_le hinv.size) hrep]
    refine hinv.frame r hr fun id old hold => ?_
    by_cases hid : id = s.id
    · subst hid
      rw [hsame old hold]
      exact hrep.symm
    · exact hnot id old (by rw [lookup_insert_ne hid]; exact hold)

/-- The map of an entry that is still to come is as it was. -/
theorem MergeInv.read_new (hs : s.yieldPerDevice < h₀.size)
    (hnew : ∀ e ∈ done, e.yieldPerDevice ≠ s.yieldPerDevice) :
    acc.1.read s.yieldPerDevice = h₀.read s.yieldPerDevice :=
  hinv.frame _ hs fun _ _ hrep => hinv.ref_ne hs hnew hrep

/-- A turn with a further entry of a stream. -/
theorem MergeInv.next_of_some (hread : acc.1.read s.yieldPerDevice = h₀.read s.yieldPerDevice)
    {rep : Entry} (hrep : acc.2.lookup s.id = some rep) :
    MergeInv h₀ (done ++ [s]) (mergeEntry acc s) (mergeStream abs (s.resolve h₀)) := by
  obtain ⟨e, he⟩ := hinv.exists_first hrep
  have href := hinv.ref _ _ _ hrep he
  have hfirst : firstOf (done ++ [s]) s.id = some e := by
    rw [firstOf_snoc, he]
    rfl
  have habs : abs.lookup (s.resolve h₀).id = some (rep.resolve acc.1) := by
    rw [← Option.map_some, ← hrep]
    exact (hinv.lookup s.id).symm
  simp only [mergeEntry, hrep, mergeStream, habs]
  have hinsert := hinv.insert s
    { rep with
      defaultYield :=
        if rep.defaultYield = Yield.zero then s.defaultYield else rep.defaultYield }
    (acc.1.write rep.yieldPerDevice
      (copy (acc.1.read rep.yieldPerDevice) (acc.1.read s.yieldPerDevice)))
    Heap.size_write.ge (fun r _ hr => Heap.read_write_ne hr) hfirst
    ⟨Heap.size_write.symm ▸ href.1, href.2⟩
    (fun old hold => by obtain rfl := Option.some.inj (hrep.symm.trans hold); rfl)
    (fun id hid old hold heq => hid (hinv.distinct _ _ _ _ hold hrep heq))
  simp only [resolve, Heap.read_write_self href.1, hread] at hinsert
  simp only [resolve, hread]
  exact hinsert

section

variable (hs : s.yieldPerDevice < h₀.size) (hnew : ∀ e ∈ done, e.yieldPerDevice ≠ s.yieldPerDevice)

include hs hnew

/-- A turn with the first entry of a stream. -/
theorem MergeInv.next_of_none (hrep : acc.2.lookup s.id = none) :
    MergeInv h₀ (done ++ [s]) (mergeEntry acc s) (mergeStream abs (s.resolve h₀)) := by
  have hread := hinv.read_new hs hnew
  have hnone : firstOf done s.id = none := by
    rw [← Option.not_isSome_iff_eq_none, ← hinv.isSome, hrep]
    simp
  have hfirst : firstOf (done ++ [s]) s.id = some s := by
    rw [firstOf_snoc, hnone, if_pos rfl]
    rfl
  have hsame : ∀ ref old, acc.2.lookup s.id = some old → old.yieldPerDevice = ref := by
    intro ref old hold
    rw [hrep] at hold
    cases hold
  have habs : abs.lookup (s.resolve h₀).id = none := by
    rw [← Option.map_none, ← hrep]
    exact (hinv.lookup s.id).symm
  simp only [mergeEntry, hrep, mergeStream, habs, copy_empty]
  by_cases hempty : h₀.read s.yieldPerDevice = ∅
  · -- The representative shares the empty map.
    have hlen : ¬ 0 < len (acc.1.read s.yieldPerDevice) := by
      rw [len_pos, hread]
      exact not_not_intro hempty
    rw [if_neg hlen]
    have hinsert := hinv.insert s s acc.1 le_rfl (fun r _ _ => rfl) hfirst
      ⟨hs.trans_le hinv.size, .inl ⟨hempty, rfl⟩⟩ (hsame _)
      (fun id _ old hold => hinv.ref_ne hs hnew hold)
    simp only [resolve, hread] at hinsert
    simp only [resolve]
    exact hinsert
  · have hlen : 0 < len (acc.1.read s.yieldPerDevice) := by
      rw [len_pos, hread]
      exact hempty
    rw [if_pos hlen]
    have hapart : ∀ id ≠ s.id, ∀ old, acc.2.lookup id = some old →
        old.yieldPerDevice ≠ acc.1.size := by
      intro id _ old hold
      obtain ⟨e, he⟩ := hinv.exists_first hold
      exact (hinv.ref id old e hold he).1.ne
    have hinsert := hinv.insert s { s with yieldPerDevice := acc.1.size }
      (acc.1.alloc (acc.1.read s.yieldPerDevice)) (Heap.size_alloc.symm ▸ Nat.le_succ _)
      (fun r hr _ => Heap.read_alloc_of_lt hr) hfirst
      ⟨Heap.size_alloc.symm ▸ Nat.lt_succ_self _, .inr ⟨hempty, hinv.size⟩⟩ (hsame _) hapart
    simp only [resolve, Heap.read_alloc_size, hread] at hinsert
    simp only [resolve, hread]
    exact hinsert

/-- One turn of the loop. -/
theorem MergeInv.next :
    MergeInv h₀ (done ++ [s]) (mergeEntry acc s) (mergeStream abs (s.resolve h₀)) := by
  cases hrep : acc.2.lookup s.id with
  | some rep => exact hinv.next_of_some (hinv.read_new hs hnew) hrep
  | none => exact hinv.next_of_none hs hnew hrep

end

end

end

/-- The entries have maps of their own. -/
structure Separate (heap : YieldHeap) (es : List Entry) : Prop where
  lt : ∀ e ∈ es, e.yieldPerDevice < heap.size
  nodup : (es.map Entry.yieldPerDevice).Nodup

/-- The whole loop. -/
theorem mergeEntries_inv {heap : YieldHeap} {es : List Entry} (hsep : Separate heap es) :
    MergeInv heap es (es.foldl mergeEntry (heap, ∅)) (mergeStreams (es.map (resolve heap))) := by
  obtain ⟨hlt, hnodup⟩ := hsep
  unfold mergeStreams
  induction es using reverseRecOn with
  | nil => exact MergeInv.start heap
  | append_singleton es s ih =>
    rw [map_append, nodup_append] at hnodup
    have hinv := ih (fun e he => hlt e (mem_append_left _ he)) hnodup.1
    rw [foldl_append, map_append, foldl_append]
    refine hinv.next (hlt s (by simp)) fun e he => ?_
    exact hnodup.2.2 _ (mem_map_of_mem he) _ (by simp)

/-- **The loop over the heap merges values**: the streams it returns are those
of `mergeStreams`. -/
theorem streamsSlice_refines {heap : YieldHeap} {m : GoMap String Entry}
    (o o' : GoMap.RangeOrder String) (hsep : Separate heap (values o m)) :
    (streamsSlice heap m o o').2 = values o' (mergeStreams ((values o m).map (resolve heap))) := by
  have hinv := mergeEntries_inv hsep
  unfold streamsSlice
  dsimp only
  generalize values o m = es at hinv ⊢
  unfold values
  rw [map_filterMap, hinv.keys]
  exact filterMap_congr fun id _ => hinv.lookup id

/-- Which maps the loop writes: an entry whose map is empty and that comes
first of its stream finds the yields of the whole stream in its map; every
other entry finds its map unchanged. -/
theorem mergeEntries_read {heap : YieldHeap} {es : List Entry} (hsep : Separate heap es)
    {e : Entry} (he : e ∈ es) : (heap.read e.yieldPerDevice = ∅ ∧ firstOf es e.id = some e ∧
      ∃ s, (mergeStreams (es.map (resolve heap))).lookup e.id = some s ∧
        (es.foldl mergeEntry (heap, ∅)).1.read e.yieldPerDevice = s.yieldPerDevice) ∨
    (¬ (heap.read e.yieldPerDevice = ∅ ∧ firstOf es e.id = some e) ∧
      (es.foldl mergeEntry (heap, ∅)).1.read e.yieldPerDevice = heap.read e.yieldPerDevice) := by
  have hinv := mergeEntries_inv hsep
  generalize es.foldl mergeEntry (heap, ∅) = acc at hinv ⊢
  generalize mergeStreams (es.map (resolve heap)) = abs at hinv ⊢
  by_cases hshared : heap.read e.yieldPerDevice = ∅ ∧ firstOf es e.id = some e
  · left
    obtain ⟨rep, hrep⟩ : ∃ rep, acc.2.lookup e.id = some rep := by
      rw [← Option.isSome_iff_exists, hinv.isSome, hshared.2]
      rfl
    have href : rep.yieldPerDevice = e.yieldPerDevice := by
      rcases (hinv.ref _ _ _ hrep hshared.2).2 with ⟨-, heq⟩ | ⟨hne, -⟩
      · exact heq
      · exact absurd hshared.1 hne
    refine ⟨hshared.1, hshared.2, rep.resolve acc.1, ?_, ?_⟩
    · rw [← hinv.lookup, hrep]
      rfl
    · simp only [resolve, href]
  · right
    refine ⟨hshared, hinv.frame _ (hsep.lt e he) fun id rep hrep heq => hshared ?_⟩
    -- A representative with the map of `e` shares it with the first entry of
    -- its stream, which is then `e`.
    obtain ⟨e', he'⟩ := hinv.exists_first hrep
    obtain ⟨hmem', hid'⟩ := mem_of_firstOf he'
    rcases (hinv.ref _ _ _ hrep he').2 with ⟨hempty, href⟩ | ⟨-, hown⟩
    · obtain rfl : e' = e := inj_on_of_nodup_map hsep.nodup hmem' he (href.symm.trans heq)
      subst hid'
      exact ⟨hempty, he'⟩
    · exact absurd (hsep.lt e he) (heq ▸ hown).not_gt

/-! ## What a merge yields -/

/-- The streams with a given id, in their order. -/
def ofID (streams : List Stream) (id : String) : List Stream := streams.filter fun s => s.id == id

/-- `s` is what merging `l` in this order amounts to: the families of the
first, the first default there is, and for each device the last yield. -/
structure MergeOf (l : List Stream) (s : Stream) : Prop where
  first : ∃ t, l.head? = some t ∧ s.acceptsFamilies = t.acceptsFamilies ∧
    s.isBitcoinMining = t.isBitcoinMining
  yields : ∀ d, s.yieldPerDevice.lookup d =
    l.reverse.findSome? fun t => t.yieldPerDevice.lookup d
  defaultYield : s.defaultYield =
    ((l.map Stream.defaultYield).find? fun y => y ≠ Yield.zero).getD Yield.zero

theorem MergeOf.singleton (s : Stream) : MergeOf [s] s where
  first := ⟨s, rfl, rfl, rfl⟩
  yields := by simp
  defaultYield := by
    by_cases hzero : s.defaultYield = Yield.zero <;> simp [hzero]

/-- One more stream. -/
theorem MergeOf.snoc {l : List Stream} {rep : Stream} (h : MergeOf l rep) (s : Stream) :
    MergeOf (l ++ [s]) { rep with
      yieldPerDevice := copy rep.yieldPerDevice s.yieldPerDevice
      defaultYield :=
        if rep.defaultYield = Yield.zero then s.defaultYield else rep.defaultYield } where
  first := by
    obtain ⟨t, ht, hrest⟩ := h.first
    exact ⟨t, by rw [head?_append, ht]; rfl, hrest⟩
  yields := by
    intro d
    rw [lookup_copy, h.yields, reverse_append, reverse_singleton,
      singleton_append, findSome?_cons]
    cases s.yieldPerDevice.lookup d <;> rfl
  defaultYield := by
    have hdefault := h.defaultYield
    rw [map_append, find?_append]
    cases hfind : (l.map Stream.defaultYield).find? fun y => y ≠ Yield.zero with
    | none =>
      rw [hfind] at hdefault
      have hzero : rep.defaultYield = Yield.zero := hdefault
      by_cases hs : s.defaultYield = Yield.zero <;> simp [hzero, hs]
    | some y =>
      rw [hfind] at hdefault
      have hy : y ≠ Yield.zero := by simpa using find?_some hfind
      have hrep : rep.defaultYield = y := hdefault
      simp [hrep, hy]

/-- The merged map has, for each id, the merge of the streams of that id. -/
theorem mergeStreams_spec (streams : List Stream) (id : String) :
    ((mergeStreams streams).lookup id = none ∧ ofID streams id = []) ∨
      ∃ s, (mergeStreams streams).lookup id = some s ∧ s.id = id ∧ MergeOf (ofID streams id) s := by
  unfold mergeStreams
  induction streams using reverseRecOn with
  | nil => exact .inl ⟨rfl, rfl⟩
  | append_singleton streams s ih =>
    rw [foldl_append]
    have hof : ofID (streams ++ [s]) id = ofID streams id ++ if s.id = id then [s] else [] := by
      unfold ofID
      rw [filter_append]
      by_cases hid : s.id = id <;> simp [hid]
    rw [hof]
    generalize streams.foldl mergeStream ∅ = acc at ih ⊢
    by_cases hid : s.id = id
    · subst hid
      right
      simp only [foldl_cons, foldl_nil, if_true]
      rcases ih with ⟨hnone, hempty⟩ | ⟨rep, hrep, hrepID, hmerge⟩
      · refine ⟨s, ?_, rfl, ?_⟩
        · simp only [mergeStream, hnone]
          exact lookup_insert _
        · rw [hempty]
          exact MergeOf.singleton s
      · refine ⟨_, ?_, ?_, hmerge.snoc s⟩
        · simp only [mergeStream, hrep]
          exact lookup_insert _
        · exact hrepID
    · have hsame : (mergeStream acc s).lookup id = acc.lookup id := by
        unfold mergeStream
        split
        · exact lookup_insert_ne (Ne.symm hid)
        · exact lookup_insert_ne (Ne.symm hid)
      simp only [foldl_cons, foldl_nil, if_neg hid, append_nil, hsame]
      exact ih

/-- A stream of the merged map. -/
theorem mergeOf_of_lookup {streams : List Stream} {id : String} {s : Stream}
    (hs : (mergeStreams streams).lookup id = some s) : s.id = id ∧ MergeOf (ofID streams id) s := by
  rcases mergeStreams_spec streams id with ⟨hnone, -⟩ | ⟨s', hs', hid, hmerge⟩
  · rw [hnone] at hs
    cases hs
  · obtain rfl := Option.some.inj (hs'.symm.trans hs)
    exact ⟨hid, hmerge⟩

section

variable {l : List Stream} {s : Stream}

theorem MergeOf.yield_cases (h : MergeOf l s) (d : String) :
    ((∀ t ∈ l, t.yieldPerDevice.lookup d = none) ∧ s.yieldPerDevice.lookup d = none) ∨
      ∃ t ∈ l, ∃ y, t.yieldPerDevice.lookup d = some y ∧ s.yieldPerDevice.lookup d = some y := by
  rw [h.yields]
  cases hfind : l.reverse.findSome? fun t => t.yieldPerDevice.lookup d with
  | none =>
    refine .inl ⟨fun t ht => ?_, rfl⟩
    exact findSome?_eq_none_iff.mp hfind t (mem_reverse.mpr ht)
  | some y =>
    obtain ⟨t, ht, hy⟩ := exists_of_findSome?_eq_some hfind
    exact .inr ⟨t, mem_reverse.mp ht, y, hy, rfl⟩

theorem MergeOf.default_cases (h : MergeOf l s) :
    ((∀ t ∈ l, t.defaultYield = Yield.zero) ∧ s.defaultYield = Yield.zero) ∨
      ∃ t ∈ l, t.defaultYield ≠ Yield.zero ∧ s.defaultYield = t.defaultYield := by
  rw [h.defaultYield]
  cases hfind : (l.map Stream.defaultYield).find? fun y => y ≠ Yield.zero with
  | none =>
    refine .inl ⟨fun t ht => ?_, rfl⟩
    simpa using find?_eq_none.mp hfind _ (mem_map_of_mem ht)
  | some y =>
    obtain ⟨t, ht, rfl⟩ := mem_map.mp (mem_of_find?_eq_some hfind)
    exact .inr ⟨t, ht, by simpa using find?_some hfind, rfl⟩

end

/-! ## Quoted maps -/

/-- What every map of live streams satisfies, whatever has been quoted. -/
structure StreamsInv (heap : YieldHeap) (m : GoMap String Entry) : Prop where
  lt : ∀ k e, m.lookup k = some e → e.yieldPerDevice < heap.size
  distinct : ∀ k k' e e', m.lookup k = some e → m.lookup k' = some e' →
    e.yieldPerDevice = e'.yieldPerDevice → k = k'
  isBitcoinMining : ∀ k e, m.lookup k = some e → e.isBitcoinMining = isMining e.id

theorem StreamsInv.empty : StreamsInv Heap.empty ∅ where
  lt := fun k e h => by cases h
  distinct := fun k k' e e' h => by cases h
  isBitcoinMining := fun k e h => by cases h

section

variable {heap : YieldHeap} {m : GoMap String Entry}

theorem StreamsInv.separate (hinv : StreamsInv heap m) (o : GoMap.RangeOrder String) :
    Separate heap (values o m) where
  lt := by
    intro e he
    obtain ⟨k, hk⟩ := mem_values.mp he
    exact hinv.lt k e hk
  nodup := by
    unfold values
    rw [map_filterMap]
    refine List.Nodup.filterMap ?_ ((o.perm m.keys).nodup_iff.mpr m.keys_nodup)
    intro k k' r hr hr'
    obtain ⟨e, he, rfl⟩ := Option.map_eq_some_iff.mp hr
    obtain ⟨e', he', heq⟩ := Option.map_eq_some_iff.mp hr'
    exact hinv.distinct k k' e e' he he' heq.symm

/-- The map that `updateStream` gives to an entry: the old one, or a new one
that no other entry has. -/
theorem existingYields_spec (hinv : StreamsInv heap m) (key : String) :
    heap.size ≤ (existingYields heap m key).1.size ∧
      (existingYields heap m key).2 < (existingYields heap m key).1.size ∧
      (∀ k e, m.lookup k = some e →
        (existingYields heap m key).1.read e.yieldPerDevice = heap.read e.yieldPerDevice) ∧
      ∀ k e, k ≠ key → m.lookup k = some e → e.yieldPerDevice ≠ (existingYields heap m key).2 := by
  unfold existingYields
  split
  · next e he =>
    refine ⟨le_rfl, hinv.lt key e he, fun _ _ _ => rfl, fun k e' hne he' heq => ?_⟩
    exact hne (hinv.distinct k key e' e he' he heq)
  · refine ⟨?_, ?_, fun k e he => Heap.read_alloc_of_lt (hinv.lt k e he),
      fun k e _ he => (hinv.lt k e he).ne⟩
    · simp
    · simp

theorem updateStream_lookup (heap : YieldHeap) (m : GoMap String Entry) (q : Quote) (k : String) :
    (updateStream heap m q).2.lookup k =
      if k = q.key then some (updatedEntry heap m q) else m.lookup k := by
  by_cases hk : k = q.key
  · subst hk
    rw [if_pos rfl]
    exact lookup_insert _
  · rw [if_neg hk]
    exact lookup_insert_ne hk

theorem updateStream_size (heap : YieldHeap) (m : GoMap String Entry) (q : Quote) :
    (updateStream heap m q).1.size = (existingYields heap m q.key).1.size := by
  unfold updateStream
  dsimp only
  split <;> simp

theorem StreamsInv.updateStream (hinv : StreamsInv heap m) (q : Quote) :
    StreamsInv (updateStream heap m q).1 (updateStream heap m q).2 := by
  obtain ⟨hsize, hlt, -, hother⟩ := existingYields_spec hinv q.key
  refine ⟨fun k e he => ?_, fun k k' e e' he he' heq => ?_, fun k e he => ?_⟩
  · rw [updateStream_size]
    rw [updateStream_lookup] at he
    split at he
    · obtain rfl := Option.some.inj he
      exact hlt
    · exact (hinv.lt k e he).trans_le hsize
  · rw [updateStream_lookup] at he he'
    by_cases hk : k = q.key
    · by_cases hk' : k' = q.key
      · rw [hk, hk']
      · rw [if_pos hk] at he
        rw [if_neg hk'] at he'
        obtain rfl := Option.some.inj he
        exact absurd heq.symm (hother k' e' hk' he')
    · rw [if_neg hk] at he
      by_cases hk' : k' = q.key
      · rw [if_pos hk'] at he'
        obtain rfl := Option.some.inj he'
        exact absurd heq (hother k e hk he)
      · rw [if_neg hk'] at he'
        exact hinv.distinct k k' e e' he he' heq
  · rw [updateStream_lookup] at he
    split at he
    · obtain rfl := Option.some.inj he
      rfl
    · exact hinv.isBitcoinMining k e he

end

/-- The stream map after the given quotes. -/
def quoted (quotes : List Quote) : YieldHeap × GoMap String Entry :=
  quotes.foldl (fun acc q => updateStream acc.1 acc.2 q) (Heap.empty, ∅)

theorem quoted_inv (quotes : List Quote) : StreamsInv (quoted quotes).1 (quoted quotes).2 := by
  unfold quoted
  suffices h : ∀ acc : YieldHeap × GoMap String Entry, StreamsInv acc.1 acc.2 →
      StreamsInv (quotes.foldl (fun acc q => updateStream acc.1 acc.2 q) acc).1
        (quotes.foldl (fun acc q => updateStream acc.1 acc.2 q) acc).2 from
    h _ StreamsInv.empty
  induction quotes with
  | nil => exact fun _ hinv => hinv
  | cons q quotes ih => exact fun acc hinv => ih _ (hinv.updateStream q)

/-! ## Order freedom -/

/-- The streams are the same to `Decide`. -/
structure SameStream (s s' : Stream) : Prop where
  id : s.id = s'.id
  acceptsFamilies : ∀ f, f ∈ s.acceptsFamilies ↔ f ∈ s'.acceptsFamilies
  defaultYield : s.defaultYield = s'.defaultYield
  isBitcoinMining : s.isBitcoinMining = s'.isBitcoinMining
  yieldFor : ∀ d, s.yieldFor d = s'.yieldFor d

/-- The lists contain the same streams, up to order. -/
def SameStreams (l l' : List Stream) : Prop :=
  ∃ l'', l''.Perm l' ∧ List.Forall₂ SameStream l l''

theorem SameStreams.exists_same {l l' : List Stream} (h : SameStreams l l') {s : Stream}
    (hs : s ∈ l) : ∃ s' ∈ l', SameStream s s' := by
  obtain ⟨l'', hperm, hall⟩ := h
  obtain ⟨i, hi, rfl⟩ := mem_iff_getElem.mp hs
  obtain ⟨hlength, hget⟩ := forall₂_iff_get.mp hall
  have hi' : i < l''.length := hlength ▸ hi
  exact ⟨l''[i], hperm.mem_iff.mp (getElem_mem hi'), hget i hi hi'⟩

/-- The streams can be merged in any order: they accept the same families, do
not list different yields for a device, and have not two defaults. -/
structure Agree (s s' : Stream) : Prop where
  acceptsFamilies : ∀ f, f ∈ s.acceptsFamilies ↔ f ∈ s'.acceptsFamilies
  yields : ∀ d y y', s.yieldPerDevice.lookup d = some y →
    s'.yieldPerDevice.lookup d = some y' → y = y'
  defaultYield : s.defaultYield ≠ Yield.zero → s'.defaultYield ≠ Yield.zero →
    s.defaultYield = s'.defaultYield

/-- Any two entries with the same id agree. -/
def Consistent (heap : YieldHeap) (m : GoMap String Entry) : Prop :=
  ∀ k k' e e', m.lookup k = some e → m.lookup k' = some e' → e.id = e'.id →
    Agree (e.resolve heap) (e'.resolve heap)

/-- Merges of the same streams in two orders are the same where the streams
agree. -/
theorem MergeOf.same {l l' : List Stream} {s s' : Stream} (h : MergeOf l s) (h' : MergeOf l' s')
    (hid : s.id = s'.id) (hperm : l.Perm l') (hagree : ∀ t ∈ l, ∀ t' ∈ l, Agree t t')
    (hmining : ∀ t ∈ l, ∀ t' ∈ l, t.isBitcoinMining = t'.isBitcoinMining) : SameStream s s' := by
  have hmem : ∀ t, t ∈ l' → t ∈ l := fun t => hperm.mem_iff.mpr
  have hdefault : s.defaultYield = s'.defaultYield := by
    rcases h.default_cases with ⟨hall, hzero⟩ | ⟨t, ht, hne, heq⟩
    · rcases h'.default_cases with ⟨-, hzero'⟩ | ⟨t', ht', hne', -⟩
      · rw [hzero, hzero']
      · exact absurd (hall t' (hmem t' ht')) hne'
    · rcases h'.default_cases with ⟨hall', -⟩ | ⟨t', ht', hne', heq'⟩
      · exact absurd (hall' t (hperm.mem_iff.mp ht)) hne
      · rw [heq, heq']
        exact (hagree t ht t' (hmem t' ht')).defaultYield hne hne'
  obtain ⟨first, hfirst, hfamilies, hbtc⟩ := h.first
  obtain ⟨first', hfirst', hfamilies', hbtc'⟩ := h'.first
  have hl := mem_of_mem_head? hfirst
  have hl' := hmem _ (mem_of_mem_head? hfirst')
  refine ⟨hid, fun f => ?_, hdefault, ?_, fun d => ?_⟩
  · rw [hfamilies, hfamilies']
    exact (hagree first hl first' hl').acceptsFamilies f
  · rw [hbtc, hbtc']
    exact hmining first hl first' hl'
  · unfold Stream.yieldFor
    rw [hdefault]
    rcases h.yield_cases d with ⟨hall, hnone⟩ | ⟨t, ht, y, hy, hs⟩
    · rcases h'.yield_cases d with ⟨-, hnone'⟩ | ⟨t', ht', y', hy', -⟩
      · rw [hnone, hnone']
      · rw [hall t' (hmem t' ht')] at hy'
        cases hy'
    · rcases h'.yield_cases d with ⟨hall', -⟩ | ⟨t', ht', y', hy', hs'⟩
      · rw [hall' t (hperm.mem_iff.mp ht)] at hy
        cases hy
      · rw [hs, hs', (hagree t ht t' (hmem t' ht')).yields d y y' hy hy']

section

variable {heap : YieldHeap} {m : GoMap String Entry}

theorem mem_ofID {o : GoMap.RangeOrder String} {id : String} {t : Stream} :
    t ∈ ofID ((values o m).map (resolve heap)) id ↔
      ∃ k e, m.lookup k = some e ∧ e.id = id ∧ e.resolve heap = t := by
  unfold ofID
  rw [mem_filter, mem_map]
  constructor
  · rintro ⟨⟨e, he, rfl⟩, hid⟩
    obtain ⟨k, hk⟩ := mem_values.mp he
    exact ⟨k, e, hk, by simpa using hid, rfl⟩
  · rintro ⟨k, e, hk, hid, rfl⟩
    exact ⟨⟨e, mem_values.mpr ⟨k, hk⟩, rfl⟩, by simpa using hid⟩

/-- The results of two orders that are the same have, for each stream in the
map, a merge each, and the two are the same. -/
theorem same_at (hinv : StreamsInv heap m) {o₁ o₁' o₂ o₂' : GoMap.RangeOrder String}
    (hsame : SameStreams (streamsSlice heap m o₁ o₁').2 (streamsSlice heap m o₂ o₂').2)
    {k : String} {e : Entry} (he : m.lookup k = some e) : ∃ s s', SameStream s s' ∧
      MergeOf (ofID ((values o₁ m).map (resolve heap)) e.id) s ∧
      MergeOf (ofID ((values o₂ m).map (resolve heap)) e.id) s' := by
  rw [streamsSlice_refines o₁ o₁' (hinv.separate o₁),
    streamsSlice_refines o₂ o₂' (hinv.separate o₂)] at hsame
  rcases mergeStreams_spec ((values o₁ m).map (resolve heap)) e.id with
    ⟨-, hempty⟩ | ⟨s, hs, hid, hmerge⟩
  · have hmem : e.resolve heap ∈ ofID ((values o₁ m).map (resolve heap)) e.id :=
      mem_ofID.mpr ⟨k, e, he, rfl, rfl⟩
    rw [hempty] at hmem
    cases hmem
  · obtain ⟨s', hs', hsame⟩ := hsame.exists_same (mem_values.mpr ⟨e.id, hs⟩)
    obtain ⟨id', hlookup'⟩ := mem_values.mp hs'
    obtain ⟨hid', hmerge'⟩ := mergeOf_of_lookup hlookup'
    obtain rfl : e.id = id' := by rw [← hid, hsame.id, hid']
    exact ⟨s, s', hsame, hmerge, hmerge'⟩

/-- The first entry gives the merge its families and, unless it is zero, its
default. -/
theorem MergeOf.of_first {k : String} {e : Entry} (he : m.lookup k = some e) {s : Stream}
    (h : MergeOf (ofID ((values (.first k) m).map (resolve heap)) e.id) s) :
    s.acceptsFamilies = e.acceptsFamilies ∧
      (e.defaultYield ≠ Yield.zero → s.defaultYield = e.defaultYield) := by
  obtain ⟨rest, hrest⟩ := values_first he
  have hof : ofID ((values (.first k) m).map (resolve heap)) e.id =
      e.resolve heap :: ofID (rest.map (resolve heap)) e.id := by
    rw [hrest]
    exact filter_cons_of_pos (by simp [resolve])
  rw [hof] at h
  obtain ⟨t, ht, hfamilies, -⟩ := h.first
  obtain rfl := Option.some.inj ht
  refine ⟨hfamilies, fun hne => ?_⟩
  rw [h.defaultYield]
  simp [resolve, hne]

/-- The last entry gives the merge its yields. -/
theorem MergeOf.of_last {k : String} {e : Entry} (he : m.lookup k = some e) {s : Stream}
    (h : MergeOf (ofID ((values (.last k) m).map (resolve heap)) e.id) s)
    {d : String} {y : Yield} (hy : (e.resolve heap).yieldPerDevice.lookup d = some y) :
    s.yieldFor d = y := by
  obtain ⟨rest, hrest⟩ := values_last he
  have hof : ofID ((values (.last k) m).map (resolve heap)) e.id =
      ofID (rest.map (resolve heap)) e.id ++ [e.resolve heap] := by
    rw [hrest]
    simp [ofID, resolve]
  rw [hof] at h
  unfold Stream.yieldFor
  rw [h.yields]
  simp [hy]

/-- Where entries disagree, two orders give different results. -/
theorem consistent_of_order_free (hinv : StreamsInv heap m)
    (h : ∀ o₁ o₁' o₂ o₂', SameStreams (streamsSlice heap m o₁ o₁').2
      (streamsSlice heap m o₂ o₂').2) : Consistent heap m := by
  intro k k' e e' he he' hid
  obtain ⟨s, s', hsame, hs, hs'⟩ := same_at hinv (h (.first k) (.first k) (.first k') (.first k)) he
  obtain ⟨t, t', htsame, ht, ht'⟩ := same_at hinv (h (.last k) (.first k) (.last k') (.first k)) he
  rw [hid] at hs' ht'
  obtain ⟨hfamilies, hdefault⟩ := hs.of_first he
  obtain ⟨hfamilies', hdefault'⟩ := hs'.of_first he'
  refine ⟨fun f => ?_, fun d y y' hy hy' => ?_, fun hne hne' => ?_⟩
  · show f ∈ e.acceptsFamilies ↔ f ∈ e'.acceptsFamilies
    rw [← hfamilies, ← hfamilies']
    exact hsame.acceptsFamilies f
  · rw [← ht.of_last he hy, ← ht'.of_last he' hy']
    exact htsame.yieldFor d
  · show e.defaultYield = e'.defaultYield
    rw [← hdefault hne, ← hdefault' hne']
    exact hsame.defaultYield

/-- Where entries agree, all orders give the same result. -/
theorem order_free_of_consistent (hinv : StreamsInv heap m) (h : Consistent heap m)
    (o₁ o₁' o₂ o₂' : GoMap.RangeOrder String) :
    SameStreams (streamsSlice heap m o₁ o₁').2 (streamsSlice heap m o₂ o₂').2 := by
  rw [streamsSlice_refines o₁ o₁' (hinv.separate o₁),
    streamsSlice_refines o₂ o₂' (hinv.separate o₂)]
  apply exists_perm_values
  intro id
  have hperm : (ofID ((values o₁ m).map (resolve heap)) id).Perm
      (ofID ((values o₂ m).map (resolve heap)) id) :=
    ((values_perm o₁ o₂ m).map _).filter _
  rcases mergeStreams_spec ((values o₁ m).map (resolve heap)) id with
    ⟨hnone, hempty⟩ | ⟨s, hs, hid, hmerge⟩
  · rcases mergeStreams_spec ((values o₂ m).map (resolve heap)) id with
      ⟨hnone', -⟩ | ⟨s', hs', hid', hmerge'⟩
    · rw [hnone, hnone']
      exact .none
    · obtain ⟨t, ht, -⟩ := hmerge'.first
      rw [hempty] at hperm
      rw [hperm.symm.eq_nil] at ht
      cases ht
  · rcases mergeStreams_spec ((values o₂ m).map (resolve heap)) id with
      ⟨-, hempty'⟩ | ⟨s', hs', hid', hmerge'⟩
    · obtain ⟨t, ht, -⟩ := hmerge.first
      rw [hempty'] at hperm
      rw [hperm.eq_nil] at ht
      cases ht
    · rw [hs, hs']
      refine .some (hmerge.same hmerge' (hid.trans hid'.symm) hperm ?_ ?_)
      · intro t ht t' ht'
        obtain ⟨k, e, hk, he, rfl⟩ := mem_ofID.mp ht
        obtain ⟨k', e', hk', he', rfl⟩ := mem_ofID.mp ht'
        exact h k k' e e' hk hk' (he.trans he'.symm)
      · intro t ht t' ht'
        obtain ⟨k, e, hk, he, rfl⟩ := mem_ofID.mp ht
        obtain ⟨k', e', hk', he', rfl⟩ := mem_ofID.mp ht'
        show e.isBitcoinMining = e'.isBitcoinMining
        rw [hinv.isBitcoinMining k e hk, hinv.isBitcoinMining k' e' hk', he, he']

end

/-- **Order freedom.**  Whatever has been quoted, the merged streams are the
same for all orders of visiting the map exactly when any two entries of
the same stream agree. -/
theorem streamsSlice_order_free_iff (quotes : List Quote) :
    (∀ o₁ o₁' o₂ o₂', SameStreams (streamsSlice (quoted quotes).1 (quoted quotes).2 o₁ o₁').2
      (streamsSlice (quoted quotes).1 (quoted quotes).2 o₂ o₂').2) ↔
    Consistent (quoted quotes).1 (quoted quotes).2 :=
  ⟨consistent_of_order_free (quoted_inv quotes), order_free_of_consistent (quoted_inv quotes)⟩

/-- A provider that takes the GPU for GPU work and the CPU for CPU work. -/
def splitFamilies : List Quote :=
  [{ providerID := "ai.x", deviceID := "gpu0", satsPerSecond := 100, netSatsPerSecond := 0,
     confidence := 1, acceptedFamilies := some [.gpu], at_ := 0 },
   { providerID := "ai.x", deviceID := "cpu0", satsPerSecond := 10, netSatsPerSecond := 0,
     confidence := 1, acceptedFamilies := some [.cpu], at_ := 0 }]

/-- Whichever entry is visited first decides whether the merged stream accepts
GPUs or CPUs. -/
theorem splitFamilies_depends_on_order :
    ¬ SameStreams
      (streamsSlice (quoted splitFamilies).1 (quoted splitFamilies).2 (.first "ai.x:gpu0")
        (.first "ai.x")).2
      (streamsSlice (quoted splitFamilies).1 (quoted splitFamilies).2 (.first "ai.x:cpu0")
        (.first "ai.x")).2 := by
  have hgpu : (streamsSlice (quoted splitFamilies).1 (quoted splitFamilies).2
      (.first "ai.x:gpu0") (.first "ai.x")).2.map Stream.acceptsFamilies = [[.gpu]] := by decide
  have hcpu : (streamsSlice (quoted splitFamilies).1 (quoted splitFamilies).2
      (.first "ai.x:cpu0") (.first "ai.x")).2.map Stream.acceptsFamilies = [[.cpu]] := by decide
  intro hsame
  obtain ⟨s, hs, hfamilies⟩ := List.mem_map.mp (hgpu ▸ List.mem_singleton_self [Family.gpu])
  obtain ⟨s', hs', hsame'⟩ := hsame.exists_same hs
  have hfamilies' : s'.acceptsFamilies ∈ [[Family.cpu]] := hcpu ▸ List.mem_map_of_mem hs'
  have hgpu' := (hsame'.acceptsFamilies .gpu).mp (by simp [hfamilies])
  rw [List.mem_singleton.mp hfamilies'] at hgpu'
  simp at hgpu'

end Otedama.Engine
