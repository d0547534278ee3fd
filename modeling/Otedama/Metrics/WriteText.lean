import Mathlib.Data.Prod.Lex
import Otedama.Metrics.SeriesIdentity

/-! # The exposition of the registry

`WriteText` collects the counters and gauges in whatever order the two
maps are visited, sorts them by name and key, and writes the help and the
type of each name when it first comes up.

What it writes is read back by the text format as the metrics of the
registry (`writeText_faithful`). Three things make it so: names and label
names are those of the format; sorting puts the samples of a name next to
each other; and a name has one kind, since the registry refuses a second.

The output does not depend on the order in which the maps are visited:
each metric stands in its map under its own key, so no two keys are equal.

Floats are values of an arbitrary type with an arbitrary text without
blanks. Collectors are not modelled. -/

namespace Otedama.Metrics

open GoString SortOn List GoMap PromText
open PromText (comma equals quote backslash leftBrace rightBrace space)

/-! ## The function -/

/-- `escapeLabel`: the replacer looks at single bytes. -/
def escapeLabel (v : GoString) : GoString :=
  v.flatMap fun b =>
    if b = backslash then [backslash, backslash]
    else if b = quote then [backslash, quote]
    else if b = newline then [backslash, 110]
    else [b]

def escapeHelp (v : GoString) : GoString :=
  v.flatMap fun b =>
    if b = backslash then [backslash, backslash]
    else if b = newline then [backslash, 110]
    else [b]

def renderLabels (labels : Labels) : GoString :=
  if GoMap.len labels = 0 then []
  else
    leftBrace :: [comma].intercalate ((sortedEntries labels).map fun l =>
      l.1 ++ equals :: quote :: escapeLabel l.2 ++ [quote]) ++ [rightBrace]

/-- `strconv.FormatUint(v, 10)` -/
def formatUint (v : UInt64) : GoString := text (Nat.toDigits 10 v.toNat)

def Kind.text : Kind → GoString
  | .counter => GoString.text "counter".toList
  | .gauge => GoString.text "gauge".toList

structure Entry where
  name : GoString
  help : GoString
  kind : Kind
  labels : Labels
  text : GoString
  key : GoString

def entryOf {V : Type} (kind : Kind) (format : V → GoString) (m : Metric V) : Entry where
  name := m.name
  help := m.help
  kind := kind
  labels := m.labels
  text := format m.value
  key := metricKey m.name m.labels

/-- The loop that writes the entries. `seen` has the names that came up. -/
def writeEntries : List GoString → List Entry → GoString
  | _, [] => []
  | seen, e :: es =>
      (if e.name ∈ seen then []
       else
        GoString.text "# HELP ".toList ++ e.name ++ space :: escapeHelp e.help ++ [newline] ++
          (GoString.text "# TYPE ".toList ++ e.name ++ space :: e.kind.text ++ [newline])) ++
        (e.name ++ renderLabels e.labels ++ space :: e.text ++ [newline]) ++
        writeEntries (e.name :: seen) es

section

variable {F : Type} [Inhabited F] (formatFloat : F → GoString)

/-- The entries, with the maps visited in the orders `o` and `o'`. -/
def entries (r : Registry F) (o o' : GoMap.RangeOrder GoString) : List Entry :=
  (GoMap.values o r.counters.index).map
      (fun c => entryOf .counter formatUint (r.counters.cells.read c)) ++
    (GoMap.values o' r.gauges.index).map
      fun g => entryOf .gauge formatFloat (r.gauges.cells.read g)

/-- What the entries are sorted by. -/
def sortKey (e : Entry) : List Nat ×ₗ List Nat := toLex (byteKey e.name, byteKey e.key)

def writeText (r : Registry F) (o o' : GoMap.RangeOrder GoString) : GoString :=
  writeEntries [] (sortOn sortKey (entries formatFloat r o o'))

end

/-! ## The lines written -/

def Kind.prom : Kind → PromText.Kind
  | .counter => .counter
  | .gauge => .gauge

/-- The lines of the entries. -/
def linesOf : List GoString → List Entry → List PromText.Line
  | _, [] => []
  | seen, e :: es =>
      (if e.name ∈ seen then [] else [.help e.name e.help, .type e.name e.kind.prom]) ++
        .sample e.name (sortedEntries e.labels) e.text :: linesOf (e.name :: seen) es

theorem escapeLabel_eq (v : GoString) : escapeLabel v = escape true v := by
  unfold escapeLabel escape
  congr 1
  funext b
  unfold escapeByte
  by_cases hquote : b = quote
  · subst hquote
    rfl
  · simp [hquote]

theorem escapeHelp_eq (v : GoString) : escapeHelp v = escape false v := by
  unfold escapeHelp escape
  congr 1

theorem renderLabels_eq (labels : Labels) :
    renderLabels labels = PromText.renderLabels (sortedEntries labels) := by
  have hlen : len labels = 0 ↔ sortedEntries labels = [] := by
    rw [len_eq_zero]
    constructor
    · rintro rfl
      rfl
    · intro hnil
      refine eq_empty_of_lookup fun k => ?_
      cases hget : labels.lookup k with
      | none => rfl
      | some v =>
        have hmem := mem_sortedEntries.mpr hget
        rw [hnil] at hmem
        cases hmem
  unfold renderLabels PromText.renderLabels renderLabel
  simp only [hlen, escapeLabel_eq]

theorem writeEntries_eq (seen : List GoString) (es : List Entry) :
    writeEntries seen es = PromText.render (linesOf seen es) := by
  have hkind : ∀ k : Kind, k.text = k.prom.name := by
    intro k
    cases k <;> rfl
  induction es generalizing seen with
  | nil => rfl
  | cons e es ih =>
    rw [writeEntries, linesOf, ih, escapeHelp_eq, renderLabels_eq, hkind]
    split <;> simp [PromText.render, PromText.Line.render]

theorem samples_linesOf (seen : List GoString) (es : List Entry) :
    samples (linesOf seen es) = es.map fun e => (e.name, sortedEntries e.labels, e.text) := by
  unfold samples
  induction es generalizing seen with
  | nil => rfl
  | cons e es ih =>
    rw [linesOf, filterMap_append, filterMap_cons, ih, map_cons]
    split <;> rfl

/-- An entry whose lines can be read. -/
structure Entry.Readable (e : Entry) : Prop where
  name : isValidMetricName e.name = true
  labels : ∀ k ∈ e.labels, isValidLabelName k = true
  text : PromText.noBlanks e.text = true

theorem valid_linesOf {es : List Entry} (h : ∀ e ∈ es, e.Readable) (seen : List GoString) :
    ∀ l ∈ linesOf seen es, l.Valid := by
  induction es generalizing seen with
  | nil => exact forall_mem_nil _
  | cons e es ih =>
    have he := h e mem_cons_self
    have hname : isName true e.name = true := isName_of_isValidName he.name
    intro l hl
    rw [linesOf, mem_append, mem_cons] at hl
    rcases hl with hl | rfl | hl
    · split at hl
      · cases hl
      · rcases mem_cons.mp hl with rfl | hl
        · exact hname
        · obtain rfl := mem_singleton.mp hl
          exact hname
    · refine ⟨hname, fun l hl => ?_, nodup_sortedEntries e.labels, he.text⟩
      have hget : e.labels.lookup l.1 = some l.2 := mem_sortedEntries.mp hl
      exact isName_of_isValidName (he.labels l.1 (mem_of_lookup hget))
    · exact ih (fun x hx => h x (mem_cons_of_mem e hx)) _ l hl

/-! ## Blocks -/

def Entry.sample (e : Entry) : List (GoString × GoString) × GoString :=
  (sortedEntries e.labels, e.text)

/-- Entries of the same name that follow one another, as blocks. -/
def blocksOf : List Entry → List PromText.Block
  | [] => []
  | e :: es =>
      match blocksOf es with
      | [] => [⟨e.name, e.help, e.kind.prom, [e.sample]⟩]
      | b :: bs =>
          if b.name = e.name then ⟨e.name, e.help, e.kind.prom, e.sample :: b.samples⟩ :: bs
          else ⟨e.name, e.help, e.kind.prom, [e.sample]⟩ :: b :: bs

theorem blocksOf_cons (e : Entry) (es : List Entry) :
    (blocksOf es = [] ∧ blocksOf (e :: es) = [⟨e.name, e.help, e.kind.prom, [e.sample]⟩]) ∨
    (∃ b bs, blocksOf es = b :: bs ∧ b.name = e.name ∧
      blocksOf (e :: es) = ⟨e.name, e.help, e.kind.prom, e.sample :: b.samples⟩ :: bs) ∨
    (∃ b bs, blocksOf es = b :: bs ∧ b.name ≠ e.name ∧
      blocksOf (e :: es) = ⟨e.name, e.help, e.kind.prom, [e.sample]⟩ :: b :: bs) := by
  cases hblocks : blocksOf es with
  | nil =>
    refine .inl ⟨rfl, ?_⟩
    rw [blocksOf, hblocks]
  | cons b bs =>
    by_cases hname : b.name = e.name
    · refine .inr (.inl ⟨b, bs, rfl, hname, ?_⟩)
      rw [blocksOf, hblocks]
      exact if_pos hname
    · refine .inr (.inr ⟨b, bs, rfl, hname, ?_⟩)
      rw [blocksOf, hblocks]
      exact if_neg hname

/-- A block has samples, and its name and kind are those of an entry. -/
theorem mem_blocksOf {es : List Entry} {b : PromText.Block} (h : b ∈ blocksOf es) :
    b.samples ≠ [] ∧ ∃ e ∈ es, e.name = b.name ∧ e.kind.prom = b.kind := by
  induction es generalizing b with
  | nil => cases h
  | cons e es ih =>
    have hold : ∀ {b}, b ∈ blocksOf es →
        b.samples ≠ [] ∧ ∃ e' ∈ e :: es, e'.name = b.name ∧ e'.kind.prom = b.kind := by
      intro b hb
      obtain ⟨hne, e', he', hsame⟩ := ih hb
      exact ⟨hne, e', mem_cons_of_mem e he', hsame⟩
    rcases blocksOf_cons e es with ⟨-, heq⟩ | ⟨b', bs, hes, -, heq⟩ | ⟨b', bs, hes, -, heq⟩
    · rw [heq] at h
      obtain rfl := mem_singleton.mp h
      exact ⟨cons_ne_nil _ _, e, mem_cons_self, rfl, rfl⟩
    · rw [heq] at h
      rcases mem_cons.mp h with rfl | h
      · exact ⟨cons_ne_nil _ _, e, mem_cons_self, rfl, rfl⟩
      · exact hold (hes ▸ mem_cons_of_mem b' h)
    · rw [heq] at h
      rcases mem_cons.mp h with rfl | h
      · exact ⟨cons_ne_nil _ _, e, mem_cons_self, rfl, rfl⟩
      · exact hold (hes ▸ h)

/-- Names in ascending order. -/
def NamesSorted (es : List Entry) : Prop :=
  es.Pairwise fun e e' => byteKey e.name ≤ byteKey e'.name

/-- Where the names are sorted, each name has one block. -/
theorem blocksOf_pairwise {es : List Entry} (h : NamesSorted es) :
    (blocksOf es).Pairwise fun b b' => byteKey b.name < byteKey b'.name := by
  induction es with
  | nil => exact List.Pairwise.nil
  | cons e es ih =>
    obtain ⟨hfirst, hes⟩ := pairwise_cons.mp h
    have hle : ∀ b ∈ blocksOf es, byteKey e.name ≤ byteKey b.name := by
      intro b hb
      obtain ⟨-, e', he', hname, -⟩ := mem_blocksOf hb
      exact hname ▸ hfirst e' he'
    have hpairs := ih hes
    rcases blocksOf_cons e es with ⟨-, heq⟩ | ⟨b, bs, hblocks, hname, heq⟩ |
      ⟨b, bs, hblocks, hname, heq⟩
    · rw [heq]
      exact pairwise_singleton _ _
    · rw [hblocks] at hpairs
      obtain ⟨hb, hbs⟩ := pairwise_cons.mp hpairs
      rw [heq]
      exact pairwise_cons.mpr ⟨fun b' hb' => hname ▸ hb b' hb', hbs⟩
    · rw [hblocks] at hpairs hle
      rw [heq]
      refine pairwise_cons.mpr ⟨fun b' hb' => ?_, hpairs⟩
      have hlt : byteKey e.name < byteKey b.name :=
        lt_of_le_of_ne (hle b mem_cons_self) fun heq => hname (byteKey_injective heq.symm)
      rcases mem_cons.mp hb' with rfl | hb'
      · exact hlt
      · exact hlt.trans ((pairwise_cons.mp hpairs).1 b' hb')

/-- The lines of the samples of a block. -/
def sampleLines (b : PromText.Block) : List PromText.Line :=
  b.samples.map fun s => .sample b.name s.1 s.2

/-- The lines of blocks, the first without its head if its name has come up. -/
def linesOfBlocks (seen : List GoString) : List PromText.Block → List PromText.Line
  | [] => []
  | b :: bs =>
      (if b.name ∈ seen then [] else [.help b.name b.help, .type b.name b.kind]) ++
        sampleLines b ++ bs.flatMap PromText.Block.lines

theorem linesOfBlocks_fresh {seen : List GoString} {bs : List PromText.Block}
    (h : ∀ b ∈ bs, b.name ∉ seen) : linesOfBlocks seen bs = bs.flatMap PromText.Block.lines := by
  cases bs with
  | nil => rfl
  | cons b bs =>
    rw [linesOfBlocks, if_neg (h b mem_cons_self)]
    rfl

/-- The loop writes the blocks, as long as no name comes up again but the
first. -/
theorem linesOf_eq_blocks {es : List Entry} (hsorted : NamesSorted es) (seen : List GoString)
    (hseen : ∀ b ∈ (blocksOf es).tail, b.name ∉ seen) :
    linesOf seen es = linesOfBlocks seen (blocksOf es) := by
  induction es generalizing seen with
  | nil => rfl
  | cons e es ih =>
    have hes : NamesSorted es := (pairwise_cons.mp hsorted).2
    have hpairs := blocksOf_pairwise hsorted
    -- The names behind the first block differ from the first.
    have hafter : ∀ {b bs}, blocksOf (e :: es) = b :: bs → b.name = e.name →
        ∀ b' ∈ bs, b'.name ∉ e.name :: seen := by
      intro b bs heq hname b' hb'
      rw [heq] at hpairs hseen
      have hlt := (pairwise_cons.mp hpairs).1 b' hb'
      rw [mem_cons, not_or]
      refine ⟨fun hsame => ?_, hseen b' hb'⟩
      rw [hname, hsame] at hlt
      exact absurd hlt (lt_irrefl _)
    rw [linesOf]
    rcases blocksOf_cons e es with ⟨hblocks, heq⟩ | ⟨b, bs, hblocks, hname, heq⟩ |
      ⟨b, bs, hblocks, hname, heq⟩
    · rw [ih hes _ (by rw [hblocks]; exact forall_mem_nil _), hblocks, heq]
      simp [linesOfBlocks, sampleLines, Entry.sample]
    · -- The next entry has the same name, so its block has no head here.
      have hrest := hafter heq rfl
      have hinner : linesOfBlocks (e.name :: seen) (b :: bs) =
          sampleLines b ++ bs.flatMap PromText.Block.lines := by
        rw [linesOfBlocks, if_pos (hname ▸ mem_cons_self), nil_append]
      rw [ih hes _ (by rw [hblocks]; exact hrest), hblocks, heq, hinner]
      simp [linesOfBlocks, sampleLines, Entry.sample, hname]
    · have hrest := hafter heq rfl
      rw [ih hes _ (by rw [hblocks]; exact fun x hx => hrest x (mem_cons_of_mem b hx)),
        hblocks, heq, linesOfBlocks_fresh hrest]
      simp [linesOfBlocks, sampleLines, Entry.sample]

/-! ## The entries of a registry -/

theorem noBlanks_formatUint (v : UInt64) : noBlanks (formatUint v) = true := by
  refine all_eq_true.mpr fun b hb => ?_
  obtain ⟨c, hc, rfl⟩ := mem_map.mp hb
  have hdigit : c.isDigit = true := Nat.isDigit_of_mem_toDigits (by decide) (by decide) hc
  have hascii : c.toNat < 128 := by
    have hle : c.val ≤ 57 := by simpa using (Bool.and_eq_true_iff.mp hdigit).2
    have hnat : c.toNat ≤ 57 := hle
    omega
  exact forall_ascii (P := fun c => c.isDigit = true →
    (asciiByte c != space && asciiByte c != 9 && asciiByte c != newline) = true)
    (by decide) hascii hdigit

section

variable {F : Type} [Inhabited F] {formatFloat : F → GoString} {r : Registry F}

/-- The references in a map are those of its metrics. -/
theorem values_perm_range {V : Type} [Inhabited V] {f : Family V} (h : f.Indexed)
    (o : GoMap.RangeOrder GoString) : (values o f.index).Perm (range f.cells.size) := by
  have hnodup : (values o f.index).Nodup := by
    unfold values
    refine List.Nodup.filterMap ?_ ((o.perm _).nodup_iff.mpr f.index.keys_nodup)
    intro key key' c hget hget'
    exact (h.key_eq hget).2.symm.trans (h.key_eq hget').2
  refine (perm_ext_iff_of_nodup hnodup nodup_range).mpr fun c => ?_
  rw [mem_values, mem_range]
  constructor
  · rintro ⟨key, hget⟩
    exact (h.key_eq hget).1
  · intro hlt
    exact ⟨_, h.lookup c hlt⟩

theorem map_read_range {α : Type} [Inhabited α] (h : Heap α) :
    (range h.size).map h.read = h.cells := by
  refine ext_getElem (by simp [Heap.size]) fun i hi hi' => ?_
  simp [Heap.read, hi']

/-- The metrics of the registry as entries. -/
def registered (formatFloat : F → GoString) (r : Registry F) : List Entry :=
  r.counters.cells.cells.map (entryOf .counter formatUint) ++
    r.gauges.cells.cells.map (entryOf .gauge formatFloat)

theorem entries_perm (formatFloat : F → GoString) (h : Sound r) (o o' : GoMap.RangeOrder GoString) :
    (entries formatFloat r o o').Perm (registered formatFloat r) := by
  unfold entries registered
  refine List.Perm.append ?_ ?_
  · rw [← map_read_range r.counters.cells, map_map]
    exact (values_perm_range h.counters o).map _
  · rw [← map_read_range r.gauges.cells, map_map]
    exact (values_perm_range h.gauges o').map _

theorem mem_registered {e : Entry} (he : e ∈ registered formatFloat r) :
    (∃ c < r.counters.cells.size, e = entryOf .counter formatUint (r.counters.cells.read c)) ∨
    ∃ g < r.gauges.cells.size, e = entryOf .gauge formatFloat (r.gauges.cells.read g) := by
  unfold registered at he
  rw [← map_read_range r.counters.cells, ← map_read_range r.gauges.cells, map_map, map_map] at he
  rcases mem_append.mp he with he | he
  · obtain ⟨c, hc, rfl⟩ := mem_map.mp he
    exact .inl ⟨c, mem_range.mp hc, rfl⟩
  · obtain ⟨g, hg, rfl⟩ := mem_map.mp he
    exact .inr ⟨g, mem_range.mp hg, rfl⟩

theorem readable_of_mem (h : Sound r) (hfmt : ∀ v, noBlanks (formatFloat v) = true)
    {e : Entry} (he : e ∈ registered formatFloat r) : e.Readable := by
  rcases mem_registered he with ⟨c, hc, rfl⟩ | ⟨g, hg, rfl⟩
  · exact ⟨h.counters.validName c hc, h.counters.validLabels c hc, noBlanks_formatUint _⟩
  · exact ⟨h.gauges.validName g hg, h.gauges.validLabels g hg, hfmt _⟩

/-- Metrics of one map with the same key are the same. -/
theorem Family.Indexed.eq_of_key_eq {V : Type} [Inhabited V] {f : Family V} (h : f.Indexed)
    {c c' : Ref} (hc : c < f.cells.size) (hc' : c' < f.cells.size)
    (hkey : metricKey (f.cells.read c).name (f.cells.read c).labels =
      metricKey (f.cells.read c').name (f.cells.read c').labels) : c = c' := by
  have hget := h.lookup c hc
  rw [hkey, h.lookup c' hc'] at hget
  exact (Option.some.inj hget).symm

/-- The name and the key of an entry tell it apart. -/
theorem eq_of_sortKey_eq (h : Sound r) :
    ∀ e ∈ registered formatFloat r, ∀ e' ∈ registered formatFloat r,
      sortKey e = sortKey e' → e = e' := by
  intro e he e' he' heq
  have hboth := Prod.mk.inj (toLex.injective heq)
  have hname : e.name = e'.name := byteKey_injective hboth.1
  have hkey : e.key = e'.key := byteKey_injective hboth.2
  rcases mem_registered he with ⟨c, hc, rfl⟩ | ⟨g, hg, rfl⟩ <;>
    rcases mem_registered he' with ⟨c', hc', rfl⟩ | ⟨g', hg', rfl⟩
  · rw [h.counters.eq_of_key_eq hc hc' hkey]
  · exact absurd hname (h.disjoint c hc g' hg')
  · exact absurd hname.symm (h.disjoint c' hc' g hg)
  · rw [h.gauges.eq_of_key_eq hg hg' hkey]

/-- Entries of the same name have the same kind. -/
theorem kind_eq_of_name_eq (h : Sound r) {e e' : Entry} (he : e ∈ registered formatFloat r)
    (he' : e' ∈ registered formatFloat r) (hname : e.name = e'.name) : e.kind = e'.kind := by
  rcases mem_registered he with ⟨c, hc, rfl⟩ | ⟨g, hg, rfl⟩ <;>
    rcases mem_registered he' with ⟨c', hc', rfl⟩ | ⟨g', hg', rfl⟩
  · rfl
  · exact absurd hname (h.disjoint c hc g' hg')
  · exact absurd hname.symm (h.disjoint c' hc' g hg)
  · rfl

/-- No two metrics are of one series. -/
theorem nodup_registered (h : Sound r) :
    ((registered formatFloat r).map fun e => (e.name, sortedEntries e.labels)).Nodup := by
  have hpart : ∀ {V : Type} [Inhabited V] (kind : Kind) (format : V → GoString) {f : Family V},
      f.Indexed → ((f.cells.cells.map (entryOf kind format)).map
        fun e => (e.name, sortedEntries e.labels)).Nodup := by
    intro V _ kind format f hf
    rw [← map_read_range f.cells, map_map, map_map]
    refine List.Nodup.map_on ?_ nodup_range
    intro c hc c' hc' heq
    obtain ⟨hname, hlabels⟩ := Prod.mk.inj heq
    have hsame : Series.Same ⟨(f.cells.read c).name, (f.cells.read c).labels⟩
        ⟨(f.cells.read c').name, (f.cells.read c').labels⟩ :=
      ⟨hname, sortedEntries_eq_iff.mp hlabels⟩
    exact hf.eq_of_key_eq (mem_range.mp hc) (mem_range.mp hc') hsame.key_eq
  rw [registered, map_append, nodup_append]
  refine ⟨hpart _ _ h.counters, hpart _ _ h.gauges, ?_⟩
  -- A counter and a gauge differ in their names.
  rw [← map_read_range r.counters.cells, ← map_read_range r.gauges.cells, map_map,
    map_map, map_map, map_map]
  intro x hx y hy heq
  obtain ⟨c, hc, rfl⟩ := mem_map.mp hx
  obtain ⟨g, hg, rfl⟩ := mem_map.mp hy
  exact h.disjoint c (mem_range.mp hc) g (mem_range.mp hg) (Prod.mk.inj heq).1

/-- The entry is that of a counter or a gauge of the series. -/
def Entry.Of (e : Entry) (kind : Kind) (s : Series) : Prop :=
  e.kind = kind ∧ Series.Same ⟨e.name, e.labels⟩ s

/-- The entries are those of the series that were registered, all of them if
the keys tell the series apart. -/
theorem registered_of_returns (formatFloat : F → GoString) (calls : List (Call F)) :
    (∀ e ∈ registered formatFloat (after calls),
      ∃ kind i s c, Returns calls i kind s c ∧ e.Of kind s) ∧
    (KeysTellApart calls → ∀ kind i s c, Returns calls i kind s c →
      ∃ e ∈ registered formatFloat (after calls), e.Of kind s) := by
  have hsound := sound_after calls
  have hself : ∀ s : Series, s.Same s := fun s => ⟨rfl, fun _ => rfl⟩
  constructor
  · intro e he
    rcases mem_registered he with ⟨c, hc, rfl⟩ | ⟨g, hg, rfl⟩
    · obtain ⟨i, hret⟩ := exists_returns calls .counter c hc
      exact ⟨.counter, i, _, c, hret, rfl, hself _⟩
    · obtain ⟨i, hret⟩ := exists_returns calls .gauge g hg
      exact ⟨.gauge, i, _, g, hret, rfl, hself _⟩
  · intro hkeys kind i s c hret
    -- The call that made the metric asked for the same key.
    have hfound : ∀ hc : c < (after calls).size kind,
        ((after calls).seriesOf kind c).key = s.key → ((after calls).seriesOf kind c).Same s := by
      intro hc hkey
      obtain ⟨j, hret'⟩ := exists_returns calls kind c hc
      exact hkeys kind j i _ s c c hret' hret hkey
    unfold registered
    cases kind with
    | counter =>
      obtain ⟨hc, hkey⟩ := hsound.counters.key_eq hret.lookup
      refine ⟨entryOf .counter formatUint ((after calls).counters.cells.read c), ?_, rfl,
        hfound hc hkey⟩
      rw [← map_read_range (after calls).counters.cells, map_map]
      exact mem_append_left _ (mem_map.mpr ⟨c, mem_range.mpr hc, rfl⟩)
    | gauge =>
      obtain ⟨hc, hkey⟩ := hsound.gauges.key_eq hret.lookup
      refine ⟨entryOf .gauge formatFloat ((after calls).gauges.cells.read c), ?_, rfl,
        hfound hc hkey⟩
      rw [← map_read_range (after calls).gauges.cells, map_map]
      exact mem_append_right _ (mem_map.mpr ⟨c, mem_range.mpr hc, rfl⟩)

/-! ## The page -/

theorem namesSorted_sortOn (es : List Entry) : NamesSorted (sortOn sortKey es) := by
  refine (sortOn_pairwise sortKey es).imp fun {e e'} hle => ?_
  rcases Prod.Lex.le_iff.mp hle with hlt | ⟨heq, -⟩
  · exact hlt.le
  · exact heq.le

/-- **The exposition is faithful.**  What is written is read back as the
metrics of the registry, each once, with its name, its labels and the text
of its value, and these are the registered series; each name has one help
line and one type line, with the kind of all its metrics, directly before
its samples; and the page does not depend on the order in which the maps
are visited. -/
theorem writeText_faithful (formatFloat : F → GoString)
    (hfmt : ∀ v, PromText.noBlanks (formatFloat v) = true) (calls : List (Call F))
    (o o' : GoMap.RangeOrder GoString) :
    ∃ lines blocks,
      PromText.parse (writeText formatFloat (after calls) o o') = some lines ∧
      (PromText.samples lines).Perm ((registered formatFloat (after calls)).map
        fun e => (e.name, sortedEntries e.labels, e.text)) ∧
      ((registered formatFloat (after calls)).map
        fun e => (e.name, sortedEntries e.labels)).Nodup ∧
      (∀ e ∈ registered formatFloat (after calls),
        ∃ kind i s c, Returns calls i kind s c ∧ e.Of kind s) ∧
      (KeysTellApart calls → ∀ kind i s c, Returns calls i kind s c →
        ∃ e ∈ registered formatFloat (after calls), e.Of kind s) ∧
      PromText.Grouped lines blocks ∧
      (∀ b ∈ blocks, ∀ e ∈ registered formatFloat (after calls),
        e.name = b.name → e.kind.prom = b.kind) ∧
      ∀ o₁ o₁', writeText formatFloat (after calls) o₁ o₁' =
        writeText formatFloat (after calls) o o' := by
  have hsound := sound_after calls
  have hperm := fun o o' => entries_perm formatFloat hsound o o'
  obtain ⟨es, hes⟩ : ∃ es, es = sortOn sortKey (entries formatFloat (after calls) o o') :=
    ⟨_, rfl⟩
  have hall : es.Perm (registered formatFloat (after calls)) := by
    rw [hes]
    exact (sortOn_perm sortKey _).trans (hperm o o')
  have hnames : NamesSorted es := hes ▸ namesSorted_sortOn _
  obtain ⟨hasked, hkept⟩ := registered_of_returns formatFloat calls
  refine ⟨linesOf [] es, blocksOf es, ?_, ?_, nodup_registered hsound, hasked, hkept,
    ⟨?_, ?_, fun b hb => (mem_blocksOf hb).1⟩, ?_, ?_⟩
  · rw [writeText, ← hes, writeEntries_eq]
    refine PromText.parse_render (valid_linesOf (fun e he => ?_) [])
    exact readable_of_mem hsound hfmt (hall.mem_iff.mp he)
  · rw [samples_linesOf]
    exact hall.map _
  · rw [linesOf_eq_blocks hnames [] fun b _ => List.not_mem_nil]
    exact linesOfBlocks_fresh fun b _ => List.not_mem_nil
  · refine List.pairwise_map.mpr ((blocksOf_pairwise hnames).imp fun {b b'} hlt heq => ?_)
    rw [heq] at hlt
    exact absurd hlt (lt_irrefl _)
  · intro b hb e he hname
    obtain ⟨-, e', he', hname', hkind⟩ := mem_blocksOf hb
    rw [kind_eq_of_name_eq hsound he (hall.mem_iff.mp he') (hname.trans hname'.symm)]
    exact hkind
  · intro o₁ o₁'
    unfold writeText
    rw [sortOn_congr ?_ ((hperm o₁ o₁').trans (hperm o o').symm)]
    intro e he e' he' heq
    exact eq_of_sortKey_eq hsound e ((hperm o₁ o₁').mem_iff.mp he) e'
      ((hperm o₁ o₁').mem_iff.mp he') heq

end

/-- Texts with everything that is escaped, and a counter added to twice. -/
def awkwardCalls : List (Call Nat) :=
  [.newCounter (text "n".toList) [backslash, newline, quote]
      (AList.singleton (text "a".toList) [quote, comma, backslash, newline, 255]),
    .newGauge (text "g".toList) [] ∅, .add 0 41, .add 0 1, .set 0 3]

/-- They are read back; a float is written in unary here. -/
theorem awkwardCalls_faithful :
    (∀ v : Nat, PromText.noBlanks (List.replicate v 49) = true) ∧
    ∃ lines, PromText.parse (writeText (List.replicate · 49) (after awkwardCalls)
        ⟨id, fun _ => List.Perm.refl _⟩ ⟨id, fun _ => List.Perm.refl _⟩) = some lines ∧
      (PromText.samples lines).Perm
        [(text "n".toList, [(text "a".toList, [quote, comma, backslash, newline, 255])],
          text "42".toList), (text "g".toList, [], [49, 49, 49])] := by
  have hfmt : ∀ v : Nat, PromText.noBlanks (List.replicate v 49) = true := by
    intro v
    refine List.all_eq_true.mpr fun b hb => ?_
    rw [List.eq_of_mem_replicate hb]
    rfl
  refine ⟨hfmt, ?_⟩
  obtain ⟨lines, -, hparse, hperm, -⟩ := writeText_faithful (List.replicate · 49) hfmt awkwardCalls
    ⟨id, fun _ => List.Perm.refl _⟩ ⟨id, fun _ => List.Perm.refl _⟩
  refine ⟨lines, hparse, ?_⟩
  have hregistered : ((registered (List.replicate · 49) (after awkwardCalls)).map
      fun e => (e.name, sortedEntries e.labels, e.text)) =
        [(text "n".toList, [(text "a".toList, [quote, comma, backslash, newline, 255])],
          text "42".toList), (text "g".toList, [], [49, 49, 49])] := by
    decide +kernel
  exact hregistered ▸ hperm

end Otedama.Metrics
