import Otedama.Metrics.Registry

/-! # Series identity

A counter or a gauge is asked for by its series: a name and a map of
labels.

* Two calls return the same metric exactly if the keys of their series
  are the same (`ref_eq_iff`).
* The key does not determine the labels: a label value may contain what
  looks like a further label. Series without such values are told apart,
  and every other series is taken for one of them (`series_identity_iff`). -/

namespace Otedama.Metrics

open GoString SortOn List PromText
open PromText (comma equals isName)

section

variable {F : Type} [Inhabited F]

/-! ## Which calls return the same metric -/

def Registry.index (r : Registry F) : Kind → GoMap GoString Ref
  | .counter => r.counters.index
  | .gauge => r.gauges.index

/-- The key of the metric behind a reference. -/
def Registry.keyOf (r : Registry F) : Kind → Ref → GoString
  | .counter, c => metricKey (r.counters.cells.read c).name (r.counters.cells.read c).labels
  | .gauge, g => metricKey (r.gauges.cells.read g).name (r.gauges.cells.read g).labels

structure Series where
  name : GoString
  labels : Labels

def Series.key (s : Series) : GoString := metricKey s.name s.labels

/-- The same name and equal label maps. -/
def Series.Same (s s' : Series) : Prop :=
  s.name = s'.name ∧ ∀ k, s.labels.lookup k = s'.labels.lookup k

/-- What a call asks for. -/
def Call.series : Call F → Option (Kind × Series)
  | .newCounter name _ labels => some (.counter, ⟨name, labels⟩)
  | .newGauge name _ labels => some (.gauge, ⟨name, labels⟩)
  | _ => none

/-- The `i`-th of the calls asks for the series `s` and returns `c`. -/
def Returns (calls : List (Call F)) (i : Nat) (kind : Kind) (s : Series) (c : Ref) : Prop :=
  ∃ call, calls[i]? = some call ∧ call.series = some (kind, s) ∧
    ((registry F).step (after (calls.take i)) call).2 = [.returned kind c]

/-- A metric that is found stays found. -/
theorem lookup_step {r : Registry F} {kind : Kind} {key : GoString} {c : Ref}
    (h : (r.index kind).lookup key = some c) (call : Call F) :
    (((registry F).step r call).1.index kind).lookup key = some c := by
  rcases step_cases r call with
    ⟨name, help, labels, counters, c', -, hreg, heq⟩ | ⟨name, help, labels, gauges, g, -, hreg, heq⟩ |
    ⟨c', delta, heq⟩ | ⟨g, v, heq⟩ | ⟨p, heq⟩
  · rw [heq]
    cases kind with
    | counter => exact lookup_register hreg h
    | gauge => exact h
  · rw [heq]
    cases kind with
    | counter => exact h
    | gauge => exact lookup_register hreg h
  · rw [heq]
    cases kind <;> exact h
  · rw [heq]
    cases kind <;> exact h
  · rw [heq]
    exact h

variable {calls : List (Call F)}

/-- What was returned is found under the key that was asked for. -/
theorem Returns.lookup {i : Nat} {kind : Kind} {s : Series} {c : Ref}
    (h : Returns calls i kind s c) : ((after calls).index kind).lookup s.key = some c := by
  obtain ⟨call, hcall, hseries, hres⟩ := h
  have hsplit : calls = calls.take i ++ call :: calls.drop (i + 1) := by
    obtain ⟨hlt, hget⟩ := List.getElem?_eq_some_iff.mp hcall
    rw [← hget, cons_getElem_drop_succ, take_append_drop]
  have hrun : after calls = (registry F).run ((registry F).step (after (calls.take i)) call).1
      (calls.drop (i + 1)) := by
    conv_lhs => rw [after, hsplit, Machine.run_append]
    rfl
  rw [hrun]
  refine (registry F).run_invariant
    (P := fun r => (r.index kind).lookup s.key = some c) (Q := fun _ => True) ?_
    (fun r call _ hr => lookup_step hr call) _ fun _ _ => trivial
  rcases step_cases (after (calls.take i)) call with
    ⟨name, help, labels, counters, c', rfl, hreg, heq⟩ |
    ⟨name, help, labels, gauges, g, rfl, hreg, heq⟩ | ⟨c', delta, heq⟩ | ⟨g, v, heq⟩ | ⟨p, heq⟩
  · rw [heq] at hres ⊢
    cases hres
    cases hseries
    exact lookup_of_register hreg
  · rw [heq] at hres ⊢
    cases hres
    cases hseries
    exact lookup_of_register hreg
  all_goals
    rw [heq] at hres
    cases hres

/-- Two calls return the same metric exactly if they ask for the same key. -/
theorem ref_eq_iff {i j : Nat} {kind : Kind} {s s' : Series} {c c' : Ref}
    (h : Returns calls i kind s c) (h' : Returns calls j kind s' c') : c = c' ↔ s.key = s'.key := by
  have hkey : ∀ {key c}, ((after calls).index kind).lookup key = some c →
      (after calls).keyOf kind c = key := by
    intro key c hget
    have hsound := sound_after calls
    cases kind with
    | counter => exact (hsound.counters.key_eq hget).2
    | gauge => exact (hsound.gauges.key_eq hget).2
  constructor
  · rintro rfl
    exact (hkey h.lookup).symm.trans (hkey h'.lookup)
  · intro heq
    have hget := h.lookup
    rw [heq, h'.lookup] at hget
    exact (Option.some.inj hget).symm

/-! ## Where a label value ends -/

/-- The value of the label `k` looks as if a further label stood in it: a comma,
a label name that is sorted behind `k`, and `=`. -/
def RunsOn (k v : GoString) : Prop :=
  ∃ a n b, v = a ++ comma :: n ++ equals :: b ∧ isValidLabelName n = true ∧ byteKey k < byteKey n

/-- What runs on does so a first time. -/
theorem RunsOn.first {k v : GoString} (h : RunsOn k v) :
    ∃ a n b, v = a ++ comma :: n ++ equals :: b ∧ isValidLabelName n = true ∧
      byteKey k < byteKey n ∧ ¬ RunsOn k a := by
  induction hv : v.length using Nat.strong_induction_on generalizing v with
  | _ m ih =>
    obtain ⟨a, n, b, rfl, hn, hk⟩ := h
    by_cases ha : RunsOn k a
    · obtain ⟨a', n', b', rfl, hrest⟩ := ih a.length (by simp at hv; omega) ha rfl
      exact ⟨a', n', b' ++ comma :: n ++ equals :: b, by simp, hrest⟩
    · exact ⟨a, n, b, rfl, hn, hk, ha⟩

/-- The part of a key behind the name. -/
def labelText (ls : List (GoString × GoString)) : GoString :=
  ls.flatMap fun l => comma :: l.1 ++ equals :: l.2

theorem labelText_cons (l : GoString × GoString) (ls : List (GoString × GoString)) :
    labelText (l :: ls) = comma :: (l.1 ++ equals :: (l.2 ++ labelText ls)) := by simp [labelText]

omit [Inhabited F] in
theorem metricKey_eq (name : GoString) (labels : Labels) :
    metricKey name labels = name ++ labelText (sortedEntries labels) := by
  unfold metricKey
  split
  · next hzero =>
    rw [GoMap.len_eq_zero.mp hzero]
    exact (List.append_nil name).symm
  · rfl

/-- Labels as in a key, with values that do not run on. -/
structure Readable (ls : List (GoString × GoString)) : Prop where
  sorted : ls.Pairwise fun l l' => byteKey l.1 < byteKey l'.1
  valid : ∀ l ∈ ls, isValidLabelName l.1 = true
  plain : ∀ l ∈ ls, ¬ RunsOn l.1 l.2

section

variable {ls ls' : List (GoString × GoString)}

theorem head_labelText {b : UInt8} {t : GoString} (h : labelText ls = b :: t) : b = comma := by
  cases ls with
  | nil => cases h
  | cons l ls => exact (cons.inj (labelText_cons l ls ▸ h)).1.symm

/-- Where labels end that others start with: not within a name. -/
theorem labelText_eq_append {s : GoString} (hls : ∀ l ∈ ls, isValidLabelName l.1 = true)
    (h : labelText ls = s ++ labelText ls') :
    s = [] ∨ ∃ l ∈ ls, ∃ b, s = comma :: l.1 ++ equals :: b := by
  cases ls with
  | nil => exact .inl (append_eq_nil_iff.mp h.symm).1
  | cons l ls =>
    cases s with
    | nil => exact .inl rfl
    | cons c s =>
      rw [labelText_cons, cons_append, cons.injEq] at h
      obtain ⟨rfl, h⟩ := h
      refine .inr ⟨l, mem_cons_self, ?_⟩
      have hstart : ∀ {b t}, labelText ls' = b :: t → b ∉ l.1 ++ [equals] := by
        intro b t ht hmem
        have hnot := not_mem_of_isName (isName_of_isValidName (hls l mem_cons_self))
          (b := comma) (by decide)
        rw [head_labelText ht, mem_append, mem_singleton] at hmem
        exact hmem.elim hnot (by decide)
      rcases append_eq_append_iff.mp h with ⟨t, rfl, ht⟩ | ⟨t, hname, ht⟩
      · cases t with
        | nil => exact absurd (by simp) (hstart ht.symm)
        | cons b t => exact ⟨t, by rw [(cons.inj ht).1]; rfl⟩
      · cases t with
        | nil => exact absurd (by simp) (hstart ht)
        | cons b t => exact absurd (by simp [hname]) (hstart ht)

/-- Two texts in front of labels are the same, or one of them runs on. -/
theorem append_labelText_cases {s s' : GoString} (hls : ∀ l ∈ ls, isValidLabelName l.1 = true)
    (hls' : ∀ l ∈ ls', isValidLabelName l.1 = true) (h : s ++ labelText ls = s' ++ labelText ls') :
    (s = s' ∧ labelText ls = labelText ls') ∨
      (∃ l ∈ ls, ∃ b, s' = s ++ comma :: l.1 ++ equals :: b) ∨
      ∃ l ∈ ls', ∃ b, s = s' ++ comma :: l.1 ++ equals :: b := by
  rcases append_eq_append_iff.mp h with ⟨t, rfl, ht⟩ | ⟨t, rfl, ht⟩
  · rcases labelText_eq_append hls ht with rfl | ⟨l, hl, b, rfl⟩
    · exact .inl ⟨(append_nil s).symm, ht⟩
    · exact .inr (.inl ⟨l, hl, b, by simp⟩)
  · rcases labelText_eq_append hls' ht with rfl | ⟨l, hl, b, rfl⟩
    · exact .inl ⟨append_nil s', ht.symm⟩
    · exact .inr (.inr ⟨l, hl, b, by simp⟩)

/-- A text has at most one reading. -/
theorem labelText_inj (hls : Readable ls) (hls' : Readable ls') (h : labelText ls = labelText ls') :
    ls = ls' := by
  induction ls generalizing ls' with
  | nil =>
    cases ls' with
    | nil => rfl
    | cons l' ls' => cases h
  | cons l ls ih =>
    cases ls' with
    | nil => cases h
    | cons l' ls' =>
      obtain ⟨hsorted, hvalid, hplain⟩ := hls
      obtain ⟨hsorted', hvalid', hplain'⟩ := hls'
      rw [pairwise_cons] at hsorted hsorted'
      rw [forall_mem_cons] at hvalid hvalid' hplain hplain'
      rw [labelText_cons, labelText_cons, cons.injEq] at h
      have hend : nameByte false false equals = false := by decide
      -- The label name ends at the first `=`.
      have hscan := takeWhile_stop (nameByte_of_mem (isName_of_isValidName hvalid.1)) hend
        (l.2 ++ labelText ls)
      have hscan' := takeWhile_stop (nameByte_of_mem (isName_of_isValidName hvalid'.1)) hend
        (l'.2 ++ labelText ls')
      have hfirst : l.1 = l'.1 := by rw [← hscan.1, h.2, hscan'.1]
      have hrest : equals :: (l.2 ++ labelText ls) = equals :: (l'.2 ++ labelText ls') := by
        rw [← hscan.2, h.2, hscan'.2]
      -- The value ends where labels follow, as it does not run on.
      rcases append_labelText_cases hvalid.2 hvalid'.2 (cons.inj hrest).2 with
        ⟨hsecond, htail⟩ | ⟨x, hx, b, heq⟩ | ⟨x, hx, b, heq⟩
      · rw [Prod.ext hfirst hsecond, ih ⟨hsorted.2, hvalid.2, hplain.2⟩
          ⟨hsorted'.2, hvalid'.2, hplain'.2⟩ htail]
      · exact absurd ⟨_, _, _, heq, hvalid.2 x hx, hfirst ▸ hsorted.1 x hx⟩ hplain'.1
      · exact absurd ⟨_, _, _, heq, hvalid'.2 x hx, hfirst ▸ hsorted'.1 x hx⟩ hplain.1

/-- Every text behind a label name and `=` has a reading. -/
theorem exists_readable {k : GoString} (hk : isValidLabelName k = true) (t : GoString) :
    ∃ v ls, t = v ++ labelText ls ∧ Readable ((k, v) :: ls) := by
  induction ht : t.length using Nat.strong_induction_on generalizing k t with
  | _ m ih =>
    by_cases hrun : RunsOn k t
    · obtain ⟨a, n, b, rfl, hn, hlt, hplain⟩ := hrun.first
      obtain ⟨v, ls, rfl, hsorted, hvalid, hrest⟩ := ih b.length (by simp at ht; omega) hn b rfl
      refine ⟨a, (n, v) :: ls, by simp [labelText_cons], ?_, ?_, ?_⟩
      · refine pairwise_cons.mpr ⟨forall_mem_cons.mpr ⟨hlt, fun l hl => ?_⟩, hsorted⟩
        exact hlt.trans ((pairwise_cons.mp hsorted).1 l hl)
      · exact forall_mem_cons.mpr ⟨hk, hvalid⟩
      · exact forall_mem_cons.mpr ⟨hplain, hrest⟩
    · exact ⟨t, [], (append_nil t).symm, pairwise_singleton _ _, forall_mem_singleton.mpr hk,
        forall_mem_singleton.mpr hrun⟩

end

/-! ## Plain series -/

/-- The series can be registered. -/
def Series.Valid (s : Series) : Prop :=
  isValidMetricName s.name = true ∧ ∀ k ∈ s.labels, isValidLabelName k = true

/-- No label value runs on. -/
def Series.Plain (s : Series) : Prop := ∀ k v, s.labels.lookup k = some v → ¬ RunsOn k v

theorem Series.Plain.readable {s : Series} (h : s.Plain) (hvalid : s.Valid) :
    Readable (sortedEntries s.labels) where
  sorted := sortedEntries_pairwise s.labels
  valid l hl := hvalid.2 l.1 (GoMap.mem_of_lookup (mem_sortedEntries.mp hl))
  plain l hl := h l.1 l.2 (mem_sortedEntries.mp hl)

/-- The key of a plain series tells it apart from other plain ones. -/
theorem Series.Plain.same_of_key_eq {s s' : Series} (h : s.Plain) (h' : s'.Plain) (hs : s.Valid)
    (hs' : s'.Valid) (hkey : s.key = s'.key) : s.Same s' := by
  have hname : ∀ {s : Series}, s.Valid → ∀ {t u}, s.name ≠ t ++ comma :: u := by
    intro s hs t u heq
    refine not_mem_of_isName (isName_of_isValidName hs.1) (b := comma) (by decide) ?_
    simp [heq]
  have hread := h.readable hs
  have hread' := h'.readable hs'
  unfold Series.key at hkey
  rw [metricKey_eq, metricKey_eq] at hkey
  rcases append_labelText_cases hread.valid hread'.valid hkey with
    ⟨heq, htext⟩ | ⟨l, -, b, heq⟩ | ⟨l, -, b, heq⟩
  · exact ⟨heq, sortedEntries_eq_iff.mp (labelText_inj hread hread' htext)⟩
  · exact absurd (heq.trans (append_assoc _ _ _)) (hname hs')
  · exact absurd (heq.trans (append_assoc _ _ _)) (hname hs)

/-- Every series has the key of a plain one. -/
theorem Series.exists_plain {s : Series} (h : s.Valid) :
    ∃ s' : Series, s'.Valid ∧ s'.Plain ∧ s.key = s'.key := by
  cases hentries : sortedEntries s.labels with
  | nil =>
    refine ⟨s, h, fun k v hget => ?_, rfl⟩
    rw [← mem_sortedEntries, hentries] at hget
    cases hget
  | cons l ls =>
    have hl : isValidLabelName l.1 = true := by
      refine h.2 l.1 (GoMap.mem_of_lookup (v := l.2) (mem_sortedEntries.mp ?_))
      rw [hentries]
      exact mem_cons_self
    obtain ⟨v, ls', htext, hread⟩ := exists_readable hl (l.2 ++ labelText ls)
    obtain ⟨m, hm⟩ := exists_sortedEntries hread.sorted
    have hmem : ∀ k v, m.lookup k = some v → isValidLabelName k = true ∧ ¬ RunsOn k v := by
      intro k v hget
      have hin := hm ▸ mem_sortedEntries.mpr hget
      exact ⟨hread.valid _ hin, hread.plain _ hin⟩
    refine ⟨⟨s.name, m⟩, ⟨h.1, fun k hk => ?_⟩, fun k v hget => (hmem k v hget).2, ?_⟩
    · obtain ⟨v, hget⟩ := GoMap.exists_lookup hk
      exact (hmem k v hget).1
    · unfold Series.key
      rw [metricKey_eq, metricKey_eq, hentries, hm, labelText_cons, labelText_cons, htext]

/-- Only valid series are returned. -/
theorem Returns.valid {i : Nat} {kind : Kind} {s : Series} {c : Ref}
    (h : Returns calls i kind s c) : s.Valid := by
  obtain ⟨call, -, hseries, hres⟩ := h
  rcases step_cases (after (calls.take i)) call with
    ⟨name, help, labels, counters, c', rfl, hreg, heq⟩ |
    ⟨name, help, labels, gauges, g, rfl, hreg, heq⟩ | ⟨c', delta, heq⟩ | ⟨g, v, heq⟩ | ⟨p, heq⟩
  · cases hseries
    exact ⟨(register_cases hreg).1, (register_cases hreg).2.1⟩
  · cases hseries
    exact ⟨(register_cases hreg).1, (register_cases hreg).2.1⟩
  all_goals
    rw [heq] at hres
    cases hres

/-! ## Where the metrics come from -/

def Registry.size (r : Registry F) : Kind → Nat
  | .counter => r.counters.cells.size
  | .gauge => r.gauges.cells.size

/-- The series of the metric behind a reference. -/
def Registry.seriesOf (r : Registry F) : Kind → Ref → Series
  | .counter, c => ⟨(r.counters.cells.read c).name, (r.counters.cells.read c).labels⟩
  | .gauge, g => ⟨(r.gauges.cells.read g).name, (r.gauges.cells.read g).labels⟩

/-- A further call takes no result back. -/
theorem Returns.append {i : Nat} {kind : Kind} {s : Series} {c : Ref} (h : Returns calls i kind s c)
    (more : List (Call F)) : Returns (calls ++ more) i kind s c := by
  obtain ⟨call, hcall, hseries, hres⟩ := h
  obtain ⟨hlt, -⟩ := List.getElem?_eq_some_iff.mp hcall
  refine ⟨call, ?_, hseries, ?_⟩
  · rw [getElem?_append_left hlt]
    exact hcall
  · rw [take_append_of_le_length (Nat.le_of_lt hlt)]
    exact hres

/-- What a call does to the series: they stay, except for one that it asks for
and returns. -/
theorem seriesOf_step (r : Registry F) (call : Call F) (kind : Kind) (c : Ref)
    (hc : c < ((registry F).step r call).1.size kind) :
    (c < r.size kind ∧ ((registry F).step r call).1.seriesOf kind c = r.seriesOf kind c) ∨
    (call.series = some (kind, ((registry F).step r call).1.seriesOf kind c) ∧
      ((registry F).step r call).2 = [.returned kind c]) := by
  rcases step_cases r call with
    ⟨name, help, labels, counters, c', rfl, hreg, heq⟩ |
    ⟨name, help, labels, gauges, g, rfl, hreg, heq⟩ | ⟨c', delta, heq⟩ | ⟨g, v, heq⟩ | ⟨p, heq⟩
  · rw [heq] at hc ⊢
    cases kind with
    | counter =>
      rcases read_of_register hreg c hc with ⟨hlt, hread⟩ | ⟨rfl, -, hread⟩
      · exact .inl ⟨hlt, by simp only [Registry.seriesOf, hread]⟩
      · exact .inr ⟨by simp only [Registry.seriesOf, hread, Call.series], rfl⟩
    | gauge => exact .inl ⟨hc, rfl⟩
  · rw [heq] at hc ⊢
    cases kind with
    | counter => exact .inl ⟨hc, rfl⟩
    | gauge =>
      rcases read_of_register hreg c hc with ⟨hlt, hread⟩ | ⟨rfl, -, hread⟩
      · exact .inl ⟨hlt, by simp only [Registry.seriesOf, hread]⟩
      · exact .inr ⟨by simp only [Registry.seriesOf, hread, Call.series], rfl⟩
  · rw [heq] at hc ⊢
    refine .inl ?_
    cases kind with
    | counter =>
      have hlt : c < r.counters.cells.size := Heap.size_write ▸ hc
      obtain ⟨hname, hlabels⟩ := series_write r.counters.cells c'
        ((r.counters.cells.read c').value + delta) hlt
      exact ⟨hlt, congrArg₂ Series.mk hname hlabels⟩
    | gauge => exact ⟨hc, rfl⟩
  · rw [heq] at hc ⊢
    refine .inl ?_
    cases kind with
    | counter => exact ⟨hc, rfl⟩
    | gauge =>
      have hlt : c < r.gauges.cells.size := Heap.size_write ▸ hc
      obtain ⟨hname, hlabels⟩ := series_write r.gauges.cells g v hlt
      exact ⟨hlt, congrArg₂ Series.mk hname hlabels⟩
  · rw [heq] at hc ⊢
    exact .inl ⟨hc, rfl⟩

/-- Each metric was asked for by its series. -/
theorem exists_returns (calls : List (Call F)) : ∀ kind c, c < (after calls).size kind →
      ∃ i, Returns calls i kind ((after calls).seriesOf kind c) c := by
  have hinit : newRegistry = after ([] : List (Call F)) ∧ ∀ kind c,
      c < (newRegistry : Registry F).size kind →
        ∃ i, Returns ([] : List (Call F)) i kind ((newRegistry : Registry F).seriesOf kind c) c := by
    refine ⟨rfl, fun kind c hc => ?_⟩
    cases kind <;> exact absurd hc (Nat.not_lt_zero c)
  refine ((registry F).run_history (Q := fun _ => True)
    (P := fun hist _ r => r = after hist ∧
      ∀ kind c, c < r.size kind → ∃ i, Returns hist i kind (r.seriesOf kind c) c)
    hinit ?_ calls fun _ _ => trivial).2
  rintro hist _ r call - ⟨rfl, ih⟩
  refine ⟨by rw [after, after, Machine.run_append]; rfl, fun kind c hc => ?_⟩
  rcases seriesOf_step (after hist) call kind c hc with ⟨hlt, hsame⟩ | ⟨hseries, hres⟩
  · obtain ⟨i, hret⟩ := ih kind c hlt
    exact ⟨i, hsame ▸ hret.append [call]⟩
  · -- The metric is new, and this call returns it.
    refine ⟨hist.length, call, ?_, hseries, ?_⟩
    · rw [getElem?_append_right le_rfl, Nat.sub_self]
      rfl
    · rw [take_left]
      exact hres

/-! ## Series identity -/

/-- Calls return the same metric exactly for the same series. -/
def Identity (calls : List (Call F)) : Prop :=
  ∀ kind i j s s' c c', Returns calls i kind s c → Returns calls j kind s' c' →
    (c = c' ↔ s.Same s')

/-- What is added to the counter of one series, or set on its gauge, does not
show up in another. -/
def Separate (calls : List (Call F)) : Prop :=
  (∀ i j s s' c c', Returns calls i .counter s c → Returns calls j .counter s' c' →
    ¬ s.Same s' → ∀ delta,
      ((add (after calls) c delta).counters.cells.read c').value =
        ((after calls).counters.cells.read c').value) ∧
  ∀ i j s s' g g', Returns calls i .gauge s g → Returns calls j .gauge s' g' →
    ¬ s.Same s' → ∀ v,
      ((set (after calls) g v).gauges.cells.read g').value =
        ((after calls).gauges.cells.read g').value

/-- No two different series that were registered have the same key. -/
def KeysTellApart (calls : List (Call F)) : Prop :=
  ∀ kind i j s s' c c', Returns calls i kind s c → Returns calls j kind s' c' →
    s.key = s'.key → s.Same s'

/-- The key is a function of the name and the label map. -/
theorem Series.Same.key_eq {s s' : Series} (h : s.Same s') : s.key = s'.key := by
  unfold Series.key
  rw [metricKey_eq, metricKey_eq, h.1, sortedEntries_eq_iff.mpr h.2]

/-- If the keys tell the series apart, so do the metrics. -/
theorem KeysTellApart.identity (h : KeysTellApart calls) : Identity calls ∧ Separate calls := by
  have hident : Identity calls := by
    intro kind i j s s' c c' hret hret'
    rw [ref_eq_iff hret hret']
    exact ⟨h kind i j s s' c c' hret hret', Series.Same.key_eq⟩
  refine ⟨hident, ?_, ?_⟩
  · intro i j s s' c c' hret hret' hdiff delta
    have hne : c' ≠ c := fun heq => hdiff ((hident _ _ _ _ _ _ _ hret hret').mp heq.symm)
    exact congrArg Metric.value (Heap.read_write_ne hne)
  · intro i j s s' g g' hret hret' hdiff v
    have hne : g' ≠ g := fun heq => hdiff ((hident _ _ _ _ _ _ _ hret hret').mp heq.symm)
    exact congrArg Metric.value (Heap.read_write_ne hne)

/-- The call that asks for the series. -/
def Series.ask (s : Series) : Kind → Call F
  | .counter => .newCounter s.name [] s.labels
  | .gauge => .newGauge s.name [] s.labels

omit [Inhabited F] in
theorem Series.series_ask (s : Series) (kind : Kind) :
    (s.ask kind : Call F).series = some (kind, s) := by cases kind <;> rfl

omit [Inhabited F] in
/-- A valid series passes the checks of the names. -/
theorem register_of_valid {V : Type} {s : Series} (hs : s.Valid) (zero : V) (own : Family V)
    (taken : Bool) (clash : Panic) : register zero own taken clash s.name [] s.labels =
      match own.index.lookup s.key with
      | some existing => .ok (own, existing)
      | none =>
        if taken then .error clash
        else .ok (⟨own.index.insert s.key own.cells.size,
          own.cells.alloc ⟨s.name, [], s.labels, zero⟩⟩, own.cells.size) := by
  have hlabels : (s.labels.keys.find? fun k => !isValidLabelName k) = none := by
    refine List.find?_eq_none.mpr fun k hk => ?_
    simp [hs.2 k (AList.mem_keys.mpr hk)]
  unfold register
  rw [hs.1, hlabels]
  rfl

/-- Two series with one key get one metric. -/
theorem returns_ask {s s' : Series} (hs : s.Valid) (hs' : s'.Valid) (hkey : s.key = s'.key)
    (kind : Kind) : ∃ c, Returns [(s.ask kind : Call F), s'.ask kind] 0 kind s c ∧
      Returns [(s.ask kind : Call F), s'.ask kind] 1 kind s' c := by
  have hfirst : Returns [(s.ask kind : Call F)] 0 kind s 0 := by
    refine ⟨_, rfl, s.series_ask kind, ?_⟩
    cases kind with
    | counter | gauge =>
      simp only [Series.ask, registry, newCounter, newGauge, register_of_valid hs]
      rfl
  -- The second call finds what the first has registered.
  have hfound := hkey ▸ hfirst.lookup
  refine ⟨0, hfirst.append [s'.ask kind], _, rfl, s'.series_ask kind, ?_⟩
  show ((registry F).step (after [s.ask kind]) _).2 = _
  generalize after [(s.ask kind : Call F)] = r at hfound
  cases kind with
  | counter | gauge =>
    simp only [Registry.index] at hfound
    simp only [Series.ask, registry, newCounter, newGauge, register_of_valid hs', hfound]
    rfl

theorem identity_of_plain
    (h : ∀ call ∈ calls, ∀ kind s, call.series = some (kind, s) → s.Plain) :
    Identity calls ∧ Separate calls := by
  refine KeysTellApart.identity fun kind i j s s' c c' hret hret' hkey => ?_
  have hplain : ∀ {i s c}, Returns calls i kind s c → s.Plain := by
    rintro i s c ⟨call, hcall, hseries, -⟩
    exact h call (List.mem_of_getElem? hcall) kind s hseries
  exact (hplain hret).same_of_key_eq (hplain hret') hret.valid hret'.valid hkey

/-- **Series identity, and when it fails.**  In every sequence of calls that ask
for plain series, counters and gauges are those of their series and stay
separate. A series that is not plain shares its metric with a plain one. -/
theorem series_identity_iff :
    (∀ calls : List (Call F), (∀ call ∈ calls, ∀ kind s, call.series = some (kind, s) → s.Plain) →
      Identity calls ∧ Separate calls) ∧
    ∀ (s : Series) (kind : Kind), s.Valid → (s.Plain ↔ ∀ s' : Series, s'.Valid → s'.Plain →
      Identity [s.ask kind, (s'.ask kind : Call F)]) := by
  refine ⟨fun _ => identity_of_plain, fun s kind hs => ⟨fun h s' hs' h' => ?_, fun h => ?_⟩⟩
  · refine (identity_of_plain fun call hcall kind' t ht => ?_).1
    rcases List.mem_pair.mp hcall with rfl | rfl
    · rw [Series.series_ask] at ht
      cases ht
      exact h
    · rw [Series.series_ask] at ht
      cases ht
      exact h'
  · -- The plain series with this key gets the same metric, so it is the same one.
    obtain ⟨s', hs', hplain', hkey⟩ := s.exists_plain hs
    obtain ⟨c, hret, hret'⟩ := returns_ask (F := F) hs hs' hkey kind
    have hsame : s.Same s' := (h s' hs' hplain' kind 0 1 s s' c c hret hret').mp rfl
    intro k v hget
    exact hplain' k v (hsame.2 k ▸ hget)

end

/-- Shares of one status. -/
def sharesWith (status : GoString) : Series :=
  ⟨text "shares".toList, AList.singleton (text "status".toList) status⟩

def sharesByStatus : List (Call Nat) :=
  [(sharesWith (text "ok".toList)).ask .counter, (sharesWith (text "ok,late".toList)).ask .counter]

/-- Each status has its own counter. -/
theorem sharesByStatus_identity :
    Returns sharesByStatus 0 .counter (sharesWith (text "ok".toList)) 0 ∧
      Returns sharesByStatus 1 .counter (sharesWith (text "ok,late".toList)) 1 ∧
      Identity sharesByStatus := by
  refine ⟨⟨_, rfl, rfl, by decide +kernel⟩, ⟨_, rfl, rfl, by decide +kernel⟩, ?_⟩
  refine (series_identity_iff.1 sharesByStatus ?_).1
  rintro call hcall kind s hs k v hget ⟨a, n, b, rfl, -⟩
  -- There is no `=` in these values.
  have hmem : equals ∈ a ++ comma :: n ++ equals :: b := by simp
  obtain rfl | rfl : call = _ ∨ call = _ := by simpa [sharesByStatus] using hcall
  · cases hs
    rw [(GoMap.lookup_singleton_eq_some hget).2] at hmem
    exact absurd hmem (by decide)
  · cases hs
    rw [(GoMap.lookup_singleton_eq_some hget).2] at hmem
    exact absurd hmem (by decide)

/-- One label whose value looks like a second one. -/
def runOn : Series :=
  ⟨text "n".toList, AList.singleton (text "a".toList) (text "1,b=2".toList)⟩

/-- The two labels. -/
def twoLabels : Series :=
  ⟨text "n".toList, (AList.singleton (text "a".toList) (text "1".toList)).insert
    (text "b".toList) (text "2".toList)⟩

/-- The second call gets the counter of the first, and sees what is added to it. -/
theorem runOn_shared :
    let calls : List (Call Nat) := [runOn.ask .counter, twoLabels.ask .counter]
    Returns calls 0 .counter runOn 0 ∧ Returns calls 1 .counter twoLabels 0 ∧
      ¬ runOn.Same twoLabels ∧
      ((after calls).counters.cells.read 0).value = 0 ∧
      ((add (after calls) 0 1).counters.cells.read 0).value = 1 := by
  refine ⟨⟨_, rfl, rfl, by decide +kernel⟩, ⟨_, rfl, rfl, by decide +kernel⟩, fun hsame => ?_,
    by decide +kernel, by decide +kernel⟩
  have hvalue := hsame.2 (text "a".toList)
  revert hvalue
  decide +kernel

end Otedama.Metrics
