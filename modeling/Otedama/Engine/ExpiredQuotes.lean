import Otedama.Engine.MergedStreams

/-! # Expired quotes

A provider's yield for a device should come from its latest quote for the
device, or from its latest device-agnostic quote, as long as these are in
the stream map. `streamsSlice` copies the yields of the entry it visits
first only when there are any: a device-agnostic entry that is visited
first lends its own, empty map to the merged stream, and the yields of the
provider's devices are then written into it for good.

`ticks_sound_iff` says that this is the only way in which an expired quote
comes back. -/

namespace Otedama.Engine

open Arbitration GoMap List

/-! ## The store as a machine -/

/-- What happens to the store. -/
inductive StoreEvent where
  | quote (now : Nat) (q : Quote)
  | tick (now : Nat) (o o' : GoMap.RangeOrder String)

/-- The store, with the streams that each tick hands to `Decide`. -/
def storeLoop : Machine Store StoreEvent (List Stream) where
  step s
    | .quote now q => (s.fold now q, [])
    | .tick now o o' => ((s.tick now o o').1, [(s.tick now o o').2])

/-- The text has no `:` in it. -/
def ColonFree (s : String) : Prop := ':' ∉ s.toList

instance (s : String) : Decidable (ColonFree s) := inferInstanceAs (Decidable (¬ _))

/-- Provider and device ids have no `:` in them. -/
def StoreEvent.ColonFree : StoreEvent → Prop
  | .quote _ q => Engine.ColonFree q.providerID ∧ Engine.ColonFree q.deviceID
  | .tick .. => True

instance : DecidablePred StoreEvent.ColonFree
  | .quote .. => inferInstanceAs (Decidable (_ ∧ _))
  | .tick .. => .isTrue trivial

theorem streamKey_inj {p p' d d' : String} (hp : ColonFree p) (hd : ColonFree d) :
    streamKey p d = streamKey p' d' ↔ p = p' ∧ d = d' := by
  have hlist : ∀ p d, (streamKey p d).toList = p.toList ++ ':' :: d.toList := by
    intro p d
    simp [streamKey, String.toList_append]
  rw [← String.toList_inj, hlist, hlist, append_cons_inj_of_notMem hp hd]
  simp [String.toList_inj]

/-! ## Latest quotes -/

/-- The quote of a provider for a device that an event is, if it is one. -/
def StoreEvent.quoteFor (providerID deviceID : String) : StoreEvent → Option Quote
  | .quote _ q => if q.providerID = providerID ∧ q.deviceID = deviceID then some q else none
  | .tick .. => none

/-- The latest quote of a provider for a device. -/
def latestQuote (hist : List StoreEvent) (providerID deviceID : String) : Option Quote :=
  hist.reverse.findSome? (StoreEvent.quoteFor providerID deviceID)

theorem latestQuote_snoc (hist : List StoreEvent) (e : StoreEvent) (providerID deviceID : String) :
    latestQuote (hist ++ [e]) providerID deviceID =
      (e.quoteFor providerID deviceID).or (latestQuote hist providerID deviceID) := by
  unfold latestQuote
  rw [reverse_append, reverse_singleton, singleton_append, findSome?_cons]
  cases e.quoteFor providerID deviceID <;> rfl

/-- The yield that was quoted last. -/
def quotedYield (hist : List StoreEvent) (providerID deviceID : String) : Yield :=
  ((latestQuote hist providerID deviceID).map Quote.yield).getD Yield.zero

/-- The yield that arbitration should see: that of the latest quote for the
device while its entry is live, else that of the latest device-agnostic
quote while its entry is live. -/
def expectedYield (hist : List StoreEvent) (live : GoMap String Entry)
    (providerID deviceID : String) : Yield :=
  if streamKey providerID deviceID ∈ live then quotedYield hist providerID deviceID
  else if streamKey providerID "" ∈ live then quotedYield hist providerID ""
  else Yield.zero

/-- The streams give the provider the yield `y` on the device; a provider that
is not among them yields nothing. -/
def Reports (streams : List Stream) (providerID deviceID : String) (y : Yield) : Prop :=
  (∀ s ∈ streams, s.id = providerID → s.yieldFor deviceID = y) ∧
    ((∀ s ∈ streams, s.id ≠ providerID) → y = Yield.zero)

/-! ## Entries and the quotes behind them -/

/-- The entry is what the quote leaves. -/
structure LeftBy (heap : YieldHeap) (q : Quote) (e : Entry) : Prop where
  id : e.id = q.providerID
  yields : ∀ d, (heap.read e.yieldPerDevice).lookup d =
    if q.deviceID ≠ "" ∧ d = q.deviceID then some q.yield else none
  defaultYield : e.defaultYield = if q.deviceID = "" then q.yield else Yield.zero

/-- Every entry is what the latest quote under its key left. -/
structure QuotedInv (hist : List StoreEvent) (heap : YieldHeap) (m : GoMap String Entry) : Prop where
  streams : StreamsInv heap m
  entry : ∀ k e, m.lookup k = some e → ∃ q,
    ColonFree q.providerID ∧ ColonFree q.deviceID ∧ k = q.key ∧
      latestQuote hist q.providerID q.deviceID = some q ∧ LeftBy heap q e

theorem QuotedInv.empty : QuotedInv [] Heap.empty ∅ where
  streams := StreamsInv.empty
  entry := fun k e h => by cases h

theorem StreamsInv.of_le {heap heap' : YieldHeap} {m m' : GoMap String Entry}
    (hinv : StreamsInv heap m) (hsize : heap.size ≤ heap'.size)
    (hle : ∀ k e, m'.lookup k = some e → m.lookup k = some e) : StreamsInv heap' m' where
  lt := fun k e he => (hinv.lt k e (hle k e he)).trans_le hsize
  distinct := fun k k' e e' he he' => hinv.distinct k k' e e' (hle k e he) (hle k' e' he')
  isBitcoinMining := fun k e he => hinv.isBitcoinMining k e (hle k e he)

section

variable {hist : List StoreEvent} {heap : YieldHeap} {m : GoMap String Entry}

/-- Dropping entries, and writing no map of those that stay. -/
theorem QuotedInv.of_le (hinv : QuotedInv hist heap m) {heap' : YieldHeap}
    {m' : GoMap String Entry} (hsize : heap.size ≤ heap'.size)
    (hle : ∀ k e, m'.lookup k = some e → m.lookup k = some e)
    (hread : ∀ k e, m'.lookup k = some e →
      heap'.read e.yieldPerDevice = heap.read e.yieldPerDevice) : QuotedInv hist heap' m' where
  streams := hinv.streams.of_le hsize hle
  entry := by
    intro k e he
    obtain ⟨q, hp, hd, hk, hlatest, hid, hyields, hdefault⟩ := hinv.entry k e (hle k e he)
    refine ⟨q, hp, hd, hk, hlatest, hid, ?_, hdefault⟩
    rw [hread k e he]
    exact hyields

/-- A tick quotes nothing. -/
theorem QuotedInv.tick (hinv : QuotedInv hist heap m) (now : Nat) (o o' : GoMap.RangeOrder String) :
    QuotedInv (hist ++ [.tick now o o']) heap m where
  streams := hinv.streams
  entry := by
    intro k e he
    obtain ⟨q, hp, hd, hk, hlatest, hleft⟩ := hinv.entry k e he
    refine ⟨q, hp, hd, hk, ?_, hleft⟩
    rw [latestQuote_snoc]
    exact hlatest

/-- The entry under a key, and the quote that left it. -/
theorem QuotedInv.lookup (hinv : QuotedInv hist heap m) {p d : String} {e : Entry}
    (he : m.lookup (streamKey p d) = some e) (hp : ColonFree p) (hd : ColonFree d) :
    ∃ q, q.providerID = p ∧ q.deviceID = d ∧ latestQuote hist p d = some q ∧ LeftBy heap q e := by
  obtain ⟨q, -, -, hk, hlatest, hleft⟩ := hinv.entry _ e he
  obtain ⟨rfl, rfl⟩ := (streamKey_inj hp hd).mp hk
  exact ⟨q, rfl, rfl, hlatest, hleft⟩

/-- The map of an entry that `updateStream` does not touch. -/
theorem updateStream_read_of_ne (hinv : StreamsInv heap m) (q : Quote) {k : String} {e : Entry}
    (hk : k ≠ q.key) (he : m.lookup k = some e) :
    (updateStream heap m q).1.read e.yieldPerDevice = heap.read e.yieldPerDevice := by
  obtain ⟨-, -, hread, hother⟩ := existingYields_spec hinv q.key
  rw [← hread k e he]
  unfold updateStream
  dsimp only
  split
  · exact Heap.read_write_ne (hother k e hk he)
  · rfl

section

variable (hinv : QuotedInv hist heap m) {q : Quote} (hp : ColonFree q.providerID)
  (hd : ColonFree q.deviceID)

include hinv hp hd

/-- The map that `updateStream` makes or finds for the quote lists its device
at most. -/
theorem QuotedInv.existingYields_lookup {d : String} (hne : ¬ (q.deviceID ≠ "" ∧ d = q.deviceID)) :
    ((existingYields heap m q.key).1.read (existingYields heap m q.key).2).lookup d = none := by
  unfold existingYields
  split
  · next e he =>
    obtain ⟨q₀, -, hdevice, -, hleft⟩ := hinv.lookup he hp hd
    rw [hleft.yields, hdevice, if_neg hne]
  · dsimp only
    rw [Heap.read_alloc_size]
    rfl

/-- The entry that a quote leaves. -/
theorem QuotedInv.leftBy_updatedEntry :
    LeftBy (updateStream heap m q).1 q (updatedEntry heap m q) := by
  obtain ⟨-, hlt, -, -⟩ := existingYields_spec hinv.streams q.key
  refine ⟨rfl, fun d => ?_, ?_⟩
  · unfold updateStream updatedEntry
    dsimp only
    by_cases hdevice : q.deviceID ≠ ""
    · rw [if_pos hdevice, Heap.read_write_self hlt]
      by_cases hsame : d = q.deviceID
      · rw [if_pos ⟨hdevice, hsame⟩, hsame, AList.lookup_insert]
      · have hnot : ¬ (q.deviceID ≠ "" ∧ d = q.deviceID) := fun h => hsame h.2
        rw [if_neg hnot, AList.lookup_insert_ne hsame]
        exact hinv.existingYields_lookup hp hd hnot
    · have hnot : ¬ (q.deviceID ≠ "" ∧ d = q.deviceID) := fun h => hdevice h.1
      rw [if_neg hdevice, if_neg hnot]
      exact hinv.existingYields_lookup hp hd hnot
  · unfold updatedEntry
    dsimp only
    by_cases hdevice : q.deviceID = ""
    · rw [if_neg (not_not_intro hdevice), if_pos hdevice]
    · rw [if_pos hdevice, if_neg hdevice]
      cases he : m.lookup q.key with
      | none => rfl
      | some e =>
        obtain ⟨q₀, -, hdevice₀, -, hleft⟩ := hinv.lookup he hp hd
        exact hleft.defaultYield.trans (if_neg (hdevice₀ ▸ hdevice))

end

/-- Folding a quote. -/
theorem QuotedInv.quote (hinv : QuotedInv hist heap m) (now : Nat) {q : Quote}
    (hp : ColonFree q.providerID) (hd : ColonFree q.deviceID) :
    QuotedInv (hist ++ [.quote now q]) (updateStream heap m q).1 (updateStream heap m q).2 where
  streams := hinv.streams.updateStream q
  entry := by
    intro k e he
    rw [updateStream_lookup] at he
    by_cases hk : k = q.key
    · rw [if_pos hk] at he
      obtain rfl := Option.some.inj he
      refine ⟨q, hp, hd, hk, ?_, hinv.leftBy_updatedEntry hp hd⟩
      rw [latestQuote_snoc]
      simp [StoreEvent.quoteFor]
    · rw [if_neg hk] at he
      obtain ⟨q₀, hp₀, hd₀, hk₀, hlatest, hid, hyields, hdefault⟩ := hinv.entry k e he
      refine ⟨q₀, hp₀, hd₀, hk₀, ?_, hid, ?_, hdefault⟩
      · have hother : ¬ (q.providerID = q₀.providerID ∧ q.deviceID = q₀.deviceID) := by
          rintro ⟨hprovider, hdevice⟩
          exact hk (by rw [hk₀, Quote.key, Quote.key, hprovider, hdevice])
        rw [latestQuote_snoc]
        simp only [StoreEvent.quoteFor, if_neg hother, Option.none_or]
        exact hlatest
      · rw [updateStream_read_of_ne hinv.streams q hk he]
        exact hyields

/-! ## What a tick reports -/

section

variable (hinv : QuotedInv hist heap m)

include hinv

/-- An entry of a provider lies under the provider's key for its device. -/
theorem QuotedInv.of_mem_ofID {o : GoMap.RangeOrder String} {p : String} {t : Stream}
    (ht : t ∈ ofID ((values o m).map (Entry.resolve heap)) p) :
    ∃ q e, m.lookup (streamKey p q.deviceID) = some e ∧ e.resolve heap = t ∧
      latestQuote hist p q.deviceID = some q ∧ LeftBy heap q e := by
  obtain ⟨k, e, he, hid, rfl⟩ := mem_ofID.mp ht
  obtain ⟨q, -, -, rfl, hlatest, hleft⟩ := hinv.entry k e he
  obtain rfl : q.providerID = p := hleft.id.symm.trans hid
  exact ⟨q, e, he, rfl, hlatest, hleft⟩

/-- What lies under a key of a provider is an entry of that provider. -/
theorem QuotedInv.mem_ofID_of_lookup (o : GoMap.RangeOrder String) {p d : String} {e : Entry}
    (he : m.lookup (streamKey p d) = some e) (hp : ColonFree p) (hd : ColonFree d) :
    e.resolve heap ∈ ofID ((values o m).map (Entry.resolve heap)) p := by
  obtain ⟨q, hprovider, -, -, hleft⟩ := hinv.lookup he hp hd
  exact mem_ofID.mpr ⟨_, e, he, hleft.id.trans hprovider, rfl⟩

/-- The merge of a provider's entries has the yield of its live device-agnostic
quote as its default. -/
theorem QuotedInv.defaultYield_merge {o : GoMap.RangeOrder String} {s : Stream} {p : String}
    (hp : ColonFree p) (hmerge : MergeOf (ofID ((values o m).map (Entry.resolve heap)) p) s) :
    s.defaultYield = if streamKey p "" ∈ m then quotedYield hist p "" else Yield.zero := by
  rcases hmerge.default_cases with ⟨hall, hzero⟩ | ⟨t, ht, hne, heq⟩
  · rw [hzero]
    split
    · next hmem =>
      obtain ⟨e, he⟩ := exists_lookup hmem
      have hfree : ColonFree "" := by decide
      obtain ⟨q, -, hdevice, hlatest, hleft⟩ := hinv.lookup he hp hfree
      have hq : e.defaultYield = Yield.zero := hall _ (hinv.mem_ofID_of_lookup o he hp hfree)
      rw [hleft.defaultYield, if_pos hdevice] at hq
      simp [quotedYield, hlatest, hq]
    · rfl
  · obtain ⟨q, e, he, rfl, hlatest, hleft⟩ := hinv.of_mem_ofID ht
    have hdevice : q.deviceID = "" := by
      by_contra hdevice
      exact hne (hleft.defaultYield.trans (if_neg hdevice))
    rw [hdevice] at he hlatest
    rw [if_pos (mem_of_lookup he), heq]
    simp only [quotedYield, hlatest]
    exact hleft.defaultYield.trans (if_pos hdevice)

/-- The merge of a provider's entries gives each device the expected yield. -/
theorem QuotedInv.yieldFor_merge {o : GoMap.RangeOrder String} {s : Stream} {p d : String}
    (hp : ColonFree p) (hd : ColonFree d)
    (hmerge : MergeOf (ofID ((values o m).map (Entry.resolve heap)) p) s) :
    s.yieldFor d = expectedYield hist m p d := by
  unfold Stream.yieldFor expectedYield
  rcases hmerge.yield_cases d with ⟨hall, hnone⟩ | ⟨t, ht, y, hy, hs⟩
  · rw [hnone, Option.getD_none, hinv.defaultYield_merge hp hmerge]
    -- No entry lists the device: the one under its key, if any, is the
    -- device-agnostic one.
    by_cases hmem : streamKey p d ∈ m
    · obtain ⟨e, he⟩ := exists_lookup hmem
      obtain ⟨q, -, hdevice, -, hleft⟩ := hinv.lookup he hp hd
      have hlisted : (heap.read e.yieldPerDevice).lookup d = none :=
        hall _ (hinv.mem_ofID_of_lookup o he hp hd)
      rw [hleft.yields] at hlisted
      have hempty : d = "" := by
        by_contra hne
        rw [if_pos ⟨hdevice ▸ hne, hdevice.symm⟩] at hlisted
        cases hlisted
      subst hempty
      rw [if_pos hmem, if_pos hmem]
    · rw [if_neg hmem]
  · obtain ⟨q, e, he, rfl, hlatest, hleft⟩ := hinv.of_mem_ofID ht
    have hlisted : (heap.read e.yieldPerDevice).lookup d = some y := hy
    rw [hleft.yields] at hlisted
    split at hlisted
    · next hdevice =>
      obtain rfl : d = q.deviceID := hdevice.2
      rw [if_pos (mem_of_lookup he), hs]
      simpa [quotedYield, hlatest] using hlisted.symm
    · cases hlisted

/-- The streams that `streamsSlice` returns report the expected yields. -/
theorem QuotedInv.reports (o o' : GoMap.RangeOrder String) {p d : String} (hp : ColonFree p)
    (hd : ColonFree d) : Reports (streamsSlice heap m o o').2 p d (expectedYield hist m p d) := by
  rw [streamsSlice_refines o o' (hinv.streams.separate o)]
  constructor
  · intro s hs hid
    obtain ⟨id, hlookup⟩ := mem_values.mp hs
    obtain ⟨hid', hmerge⟩ := mergeOf_of_lookup hlookup
    obtain rfl : id = p := hid'.symm.trans hid
    exact hinv.yieldFor_merge hp hd hmerge
  · intro habsent
    rcases mergeStreams_spec ((values o m).map (Entry.resolve heap)) p with
      ⟨-, hempty⟩ | ⟨s, hs, hid, -⟩
    · have hkey : ∀ d, ColonFree d → streamKey p d ∉ m := by
        intro d hd hmem
        obtain ⟨e, he⟩ := exists_lookup hmem
        have hof := hinv.mem_ofID_of_lookup o he hp hd
        rw [hempty] at hof
        cases hof
      unfold expectedYield
      rw [if_neg (hkey d hd), if_neg (hkey "" (by decide))]
    · exact absurd hid (habsent s (mem_values.mpr ⟨p, hs⟩))

end

/-! ## What a tick writes -/

/-- The loop meets an entry without yields first of its stream, and there are
other entries of that stream. -/
def LendsItsMap (heap : YieldHeap) (es : List Entry) : Prop :=
  ∃ e ∈ es, GoMap.len (heap.read e.yieldPerDevice) = 0 ∧ firstOf es e.id = some e ∧
    ∃ e' ∈ es, e' ≠ e ∧ e'.id = e.id

instance (heap : YieldHeap) (es : List Entry) : Decidable (LendsItsMap heap es) :=
  inferInstanceAs (Decidable (∃ e ∈ es, _))

/-- Of two entries of a provider, one lists a device. -/
theorem QuotedInv.exists_listed (hinv : QuotedInv hist heap m) {k k' : String} {e e' : Entry}
    (he : m.lookup k = some e) (he' : m.lookup k' = some e') (hne : e' ≠ e) (hid : e'.id = e.id)
    (hempty : heap.read e.yieldPerDevice = ∅) :
    ∃ d y, (heap.read e'.yieldPerDevice).lookup d = some y := by
  obtain ⟨q, -, -, rfl, -, hleft⟩ := hinv.entry k e he
  obtain ⟨q', -, -, rfl, -, hleft'⟩ := hinv.entry k' e' he'
  have hprovider : q'.providerID = q.providerID := by
    rw [← hleft'.id, ← hleft.id, hid]
  have hagnostic : q.deviceID = "" := by
    by_contra hdevice
    have hlisted := hleft.yields q.deviceID
    rw [hempty, if_pos ⟨hdevice, rfl⟩] at hlisted
    cases hlisted
  have hdevice : q'.deviceID ≠ "" := by
    intro hdevice
    have hkey : q'.key = q.key := by
      rw [Quote.key, Quote.key, hprovider, hdevice, hagnostic]
    rw [hkey, he] at he'
    exact hne (Option.some.inj he').symm
  exact ⟨q'.deviceID, q'.yield, by rw [hleft'.yields, if_pos ⟨hdevice, rfl⟩]⟩

/-- The maps of the entries stay as they are exactly when no entry lends its
map to a merged stream. -/
theorem QuotedInv.frame_iff (hinv : QuotedInv hist heap m) (o o' : GoMap.RangeOrder String) :
    (∀ k e, m.lookup k = some e →
      (streamsSlice heap m o o').1.read e.yieldPerDevice = heap.read e.yieldPerDevice) ↔
    ¬ LendsItsMap heap (values o m) := by
  have hsep := hinv.streams.separate o
  constructor
  · rintro hframe ⟨e, hmem, hlen, hfirst, e', hmem', hne, hid⟩
    have hempty := len_eq_zero.mp hlen
    obtain ⟨k, he⟩ := mem_values.mp hmem
    obtain ⟨k', he'⟩ := mem_values.mp hmem'
    obtain ⟨d, y, hy⟩ := hinv.exists_listed he he' hne hid hempty
    rcases mergeEntries_read hsep hmem with ⟨-, -, s, hs, hread⟩ | ⟨hnot, -⟩
    · -- The merged stream has a yield for `d`, which is now in the map of `e`.
      have hnow : s.yieldPerDevice = ∅ := by
        rw [← hread, ← hempty]
        exact hframe k e he
      rcases (mergeOf_of_lookup hs).2.yield_cases d with ⟨hall, -⟩ | ⟨t, ht, y', -, hs'⟩
      · have hlisted : (heap.read e'.yieldPerDevice).lookup d = none :=
          hall _ (mem_ofID.mpr ⟨k', e', he', hid, rfl⟩)
        rw [hlisted] at hy
        cases hy
      · rw [hnow] at hs'
        cases hs'
    · exact hnot ⟨hempty, hfirst⟩
  · intro hlends k e he
    have hmem : e ∈ values o m := mem_values.mpr ⟨k, he⟩
    rcases mergeEntries_read hsep hmem with ⟨hempty, hfirst, s, hs, hread⟩ | ⟨-, hread⟩
    · -- The entry is alone: the merged stream has no yields either.
      rw [hempty]
      refine hread.trans (eq_empty_of_lookup fun d => ?_)
      rcases (mergeOf_of_lookup hs).2.yield_cases d with ⟨-, hnone⟩ | ⟨t, ht, y, hy, -⟩
      · exact hnone
      · obtain ⟨k', e', he', hid, rfl⟩ := mem_ofID.mp ht
        have halone : e' = e := by
          by_contra hne
          exact hlends ⟨e, hmem, len_eq_zero.mpr hempty, hfirst, e',
            mem_values.mpr ⟨k', he'⟩, hne, hid⟩
        have hlisted : (heap.read e'.yieldPerDevice).lookup d = some y := hy
        rw [halone, hempty] at hlisted
        cases hlisted
    · exact hread

theorem streamsSlice_size {m : GoMap String Entry} (hinv : StreamsInv heap m)
    (o o' : GoMap.RangeOrder String) : heap.size ≤ (streamsSlice heap m o o').1.size :=
  (mergeEntries_inv (hinv.separate o)).size

end

/-! ## Runs -/

/-- The entries that a tick finds live. -/
def Store.live (s : Store) (now : Nat) : GoMap String Entry :=
  (pruneStaleStreams s.streamMap s.lastQuoteAt now).1

theorem Store.lookup_of_live {s : Store} {now : Nat} {k : String} {e : Entry}
    (he : (s.live now).lookup k = some e) : s.streamMap.lookup k = some e := by
  rw [Store.live, pruneStaleStreams, lookup_deleteAll] at he
  split at he
  · cases he
  · exact he

/-- What a tick should do, after the given history: leave the live entries and
their maps alone, and report the expected yields. -/
structure TickSound (hist : List StoreEvent) (s : Store) (now : Nat)
    (o o' : GoMap.RangeOrder String) : Prop where
  streamMap : (s.tick now o o').1.streamMap = s.live now
  frame : ∀ k e, (s.live now).lookup k = some e →
    (s.tick now o o').1.heap.read e.yieldPerDevice = s.heap.read e.yieldPerDevice
  reports : ∀ p d, ColonFree p → ColonFree d →
    Reports (s.tick now o o').2 p d (expectedYield hist (s.live now) p d)

/-- A step of the store does what it should. -/
def StepSound (hist : List StoreEvent) (s : Store) : StoreEvent → Prop
  | .quote .. => True
  | .tick now o o' => TickSound hist s now o o'

/-- A tick does not meet a provider's device-agnostic entry first of several
live entries of that provider. -/
def NoLending (s : Store) : StoreEvent → Prop
  | .quote .. => True
  | .tick now o _ => ¬ LendsItsMap s.heap (GoMap.values o (s.live now))

instance (s : Store) : DecidablePred (NoLending s)
  | .quote .. => .isTrue trivial
  | .tick .. => inferInstanceAs (Decidable (¬ _))

section

variable {hist : List StoreEvent} {s : Store} (hinv : QuotedInv hist s.heap s.streamMap) (now : Nat)

include hinv

/-- The invariant on the live entries of a tick. -/
theorem QuotedInv.live :
    QuotedInv hist s.heap (s.live now) :=
  hinv.of_le le_rfl (fun _ _ => Store.lookup_of_live) fun _ _ _ => rfl

theorem tickSound_iff (o o' : GoMap.RangeOrder String) :
    TickSound hist s now o o' ↔ ¬ LendsItsMap s.heap (values o (s.live now)) := by
  rw [← (hinv.live now).frame_iff o o']
  constructor
  · exact fun h => h.frame
  · intro hframe
    exact ⟨rfl, hframe, fun p d hp hd => (hinv.live now).reports o o' hp hd⟩

end

theorem quotedInv_step {hist : List StoreEvent} {s : Store} {e : StoreEvent} (hfree : e.ColonFree)
    (hinv : QuotedInv hist s.heap s.streamMap) (hlends : NoLending s e) :
    QuotedInv (hist ++ [e]) (storeLoop.step s e).1.heap (storeLoop.step s e).1.streamMap := by
  cases e with
  | quote now q => exact hinv.quote now hfree.1 hfree.2
  | tick now o o' =>
    have hlive := hinv.live now
    have hkept := hlive.of_le (streamsSlice_size hlive.streams o o') (fun _ _ he => he)
      ((hlive.frame_iff o o').mpr hlends)
    exact hkept.tick now o o'

/-- **Expired quotes.**  In a run over colon-free ids, every tick leaves the
live entries alone and reports the expected yields exactly when no tick
meets a provider's device-agnostic entry first of several. -/
theorem ticks_sound_iff (es : List StoreEvent) (hfree : ∀ e ∈ es, e.ColonFree) :
    (∀ pre e, pre ++ [e] <+: es → StepSound pre (storeLoop.run Store.empty pre) e) ↔
      storeLoop.Meets NoLending Store.empty es := by
  refine storeLoop.steps_exact (I := fun hist s => QuotedInv hist s.heap s.streamMap)
    QuotedInv.empty ?_ (fun _ _ _ => quotedInv_step) es hfree
  intro hist s e _ hinv
  cases e with
  | quote now q => exact Iff.rfl
  | tick now o o' => exact tickSound_iff hinv now o o'

/-- A provider offers 10 sat/s to any device and 100 to `gpu0`, and keeps up
the first offer only. The ticks come at once and after four minutes; the
first one visits the entry `first` before the other. -/
def lapsedOffer (first : String) : List StoreEvent :=
  [.quote 0 (sampleQuote "ai.x" "" 10), .quote 0 (sampleQuote "ai.x" "gpu0" 100),
   .tick 0 (.first first) (.first "ai.x"),
   .quote (120 * 10 ^ 9) (sampleQuote "ai.x" "" 10),
   .tick (240 * 10 ^ 9) (.first "ai.x:") (.first "ai.x")]

/-- Visiting the entry for `gpu0` first does no harm to the second tick. -/
theorem lapsedOffer_sound :
    storeLoop.Meets NoLending Store.empty (lapsedOffer "ai.x:gpu0") ∧
    TickSound ((lapsedOffer "ai.x:gpu0").take 4)
      (storeLoop.run Store.empty ((lapsedOffer "ai.x:gpu0").take 4)) (240 * 10 ^ 9)
      (.first "ai.x:") (.first "ai.x") := by
  have hmeets : storeLoop.Meets NoLending Store.empty (lapsedOffer "ai.x:gpu0") := by
    decide +kernel
  have hsound := (ticks_sound_iff (lapsedOffer "ai.x:gpu0") (by decide)).mpr hmeets
  exact ⟨hmeets, hsound ((lapsedOffer "ai.x:gpu0").take 4)
    (.tick (240 * 10 ^ 9) (.first "ai.x:") (.first "ai.x")) (List.prefix_refl _)⟩

/-- Visiting the device-agnostic entry first does: the tick leaves a yield for
`gpu0` in that entry, and after the offer for `gpu0` has expired it is
still reported instead of the 10 sat/s on offer. -/
theorem lapsedOffer_comes_back :
    ¬ TickSound ((lapsedOffer "ai.x:").take 2)
        (storeLoop.run Store.empty ((lapsedOffer "ai.x:").take 2)) 0 (.first "ai.x:")
        (.first "ai.x") ∧
    expectedYield ((lapsedOffer "ai.x:").take 4)
        ((storeLoop.run Store.empty ((lapsedOffer "ai.x:").take 4)).live (240 * 10 ^ 9))
        "ai.x" "gpu0" = ⟨10, 1⟩ ∧
    (((storeLoop.run Store.empty ((lapsedOffer "ai.x:").take 4)).tick (240 * 10 ^ 9)
        (.first "ai.x:") (.first "ai.x")).2.map fun s => (s.id, s.yieldFor "gpu0")) =
      [("ai.x", ⟨100, 1⟩)] := by
  refine ⟨fun hsound => ?_, by decide +kernel, by decide +kernel⟩
  have hlen := congrArg GoMap.len (hsound.frame "ai.x:" _ rfl)
  revert hlen
  decide +kernel

end Otedama.Engine
