import Otedama.Framework.CaseMapping
import Otedama.Framework.Strings

/-! # The Prometheus text format

A page of metrics is a sequence of lines, each ended by a newline:

* `# HELP name text`, where backslash and newline are escaped in the text,
* `# TYPE name kind`,
* `name value` and `name{label="value",...} value`, where backslash, double
  quote and newline are escaped in the label values.

Blank lines and other lines that start with `#` say nothing. Timestamps
are not read.

The reader is the specification of the format here; `parse_render` says
that it reads back what `render` writes. -/

namespace PromText

open GoString List

/-! ## Lines -/

def quote : UInt8 := 34
def backslash : UInt8 := 92
def comma : UInt8 := 44
def equals : UInt8 := 61
def space : UInt8 := 32
def leftBrace : UInt8 := 123
def rightBrace : UInt8 := 125
def hash : UInt8 := 35

/-- Types of metrics. -/
inductive Kind where
  | counter
  | gauge
  | histogram
  | summary
  | untyped
  deriving DecidableEq, Repr

def Kind.name : Kind → GoString
  | .counter => text "counter".toList
  | .gauge => text "gauge".toList
  | .histogram => text "histogram".toList
  | .summary => text "summary".toList
  | .untyped => text "untyped".toList

inductive Line where
  | help (name text : GoString)
  | type (name : GoString) (kind : Kind)
  | sample (name : GoString) (labels : List (GoString × GoString)) (value : GoString)
  deriving DecidableEq, Repr

/-- Bytes of names: letters, `_`, digits except in front, and for metrics `:`. -/
def nameByte (colon first : Bool) (b : UInt8) : Bool :=
  (97 ≤ b && b ≤ 122) || (65 ≤ b && b ≤ 90) || b == 95 || (colon && b == 58) ||
    (!first && 48 ≤ b && b ≤ 57)

def isName (colon : Bool) : GoString → Bool
  | [] => false
  | b :: s => nameByte colon true b && s.all (nameByte colon false)

/-- No blank, tab or newline. -/
def noBlanks (s : GoString) : Bool := s.all fun b => b != space && b != 9 && b != newline

/-! ## Writing -/

/-- The bytes of an escaped text. A double quote is special between quotes
only. -/
def escapeByte (quoted : Bool) (b : UInt8) : GoString :=
  if b = backslash then [backslash, backslash]
  else if b = newline then [backslash, 110]
  else if quoted && b == quote then [backslash, quote]
  else [b]

def escape (quoted : Bool) (s : GoString) : GoString := s.flatMap (escapeByte quoted)

def renderLabel (l : GoString × GoString) : GoString :=
  l.1 ++ equals :: quote :: escape true l.2 ++ [quote]

def renderLabels (labels : List (GoString × GoString)) : GoString :=
  if labels = [] then []
  else leftBrace :: [comma].intercalate (labels.map renderLabel) ++ [rightBrace]

def Line.render : Line → GoString
  | .help name text => GoString.text "# HELP ".toList ++ name ++ space :: escape false text
  | .type name kind => GoString.text "# TYPE ".toList ++ name ++ space :: kind.name
  | .sample name labels value => name ++ renderLabels labels ++ space :: value

def render (lines : List Line) : GoString := (lines.map Line.render).flatMap fun l => l ++ [newline]

/-! ## Reading -/

/-- The byte that stands for an escaped one. -/
def unescape (quoted : Bool) (b : UInt8) : Option UInt8 :=
  if b = backslash then some backslash
  else if b = 110 then some newline
  else if quoted && b == quote then some quote
  else none

/-- Read a text to its end. -/
def readText : GoString → Option GoString
  | [] => some []
  | [b] => if b = backslash then none else some [b]
  | b :: c :: s =>
      if b = backslash then
        match unescape false c with
        | some x => (readText s).map (x :: ·)
        | none => none
      else (readText (c :: s)).map (b :: ·)

/-- Read a label value up to its closing quote; what is behind the quote. -/
def readQuoted : GoString → Option (GoString × GoString)
  | [] => none
  | [b] => if b = quote then some ([], []) else none
  | b :: c :: s =>
      if b = quote then some ([], c :: s)
      else if b = backslash then
        match unescape true c with
        | some x => (readQuoted s).map fun r => (x :: r.1, r.2)
        | none => none
      else (readQuoted (c :: s)).map fun r => (b :: r.1, r.2)

/-- Read labels up to the closing brace; what is behind the brace. The fuel is
at least the number of labels. -/
def readLabels : Nat → GoString → Option (List (GoString × GoString) × GoString)
  | 0, _ => none
  | fuel + 1, s =>
      let name := s.takeWhile (nameByte false false)
      match s.dropWhile (nameByte false false) with
      | [] => none
      | b :: s' =>
          if b = rightBrace ∧ name = [] then some ([], s')
          else if b = equals ∧ isName false name then
            match s' with
            | [] => none
            | q :: s' =>
                if q = quote then
                  match readQuoted s' with
                  | some (value, sep :: s') =>
                      if sep = comma then
                        (readLabels fuel s').map fun r => ((name, value) :: r.1, r.2)
                      else if sep = rightBrace then some ([(name, value)], s')
                      else none
                  | _ => none
                else none
          else none

/-- What is behind the labels. -/
def readValue (name : GoString) (labels : List (GoString × GoString)) : GoString → Option Line
  | [] => none
  | b :: value =>
      if b = space ∧ noBlanks value ∧ (labels.map Prod.fst).Nodup then
        some (.sample name labels value)
      else none

def parseSample (line : GoString) : Option Line :=
  let name := line.takeWhile (nameByte true false)
  let rest := line.dropWhile (nameByte true false)
  if isName true name then
    if rest.head? = some leftBrace then
      match readLabels rest.length rest.tail with
      | some (labels, rest) => readValue name labels rest
      | none => none
    else readValue name [] rest
  else none

/-- The name and the text of a line that starts with a keyword. -/
def parseMeta (line : GoString) : GoString × Option GoString :=
  let name := line.takeWhile (· != space)
  match line.dropWhile (· != space) with
  | [] => (name, none)
  | _ :: text => (name, some text)

def parseHelp (line : GoString) : Option Line :=
  match parseMeta line with
  | (_, none) => none
  | (name, some text) => if isName true name then (readText text).map (.help name) else none

def parseType (line : GoString) : Option Line :=
  match parseMeta line with
  | (_, none) => none
  | (name, some text) =>
      if isName true name then
        ([Kind.counter, .gauge, .histogram, .summary, .untyped].find? (·.name == text)).map
          (.type name)
      else none

def parseLine (line : GoString) : Option (List Line) :=
  if GoString.text "# HELP ".toList <+: line then (parseHelp (line.drop 7)).map ([·])
  else if GoString.text "# TYPE ".toList <+: line then (parseType (line.drop 7)).map ([·])
  else if line = [] ∨ line.head? = some hash then some []
  else (parseSample line).map ([·])

def parseLines : List GoString → Option (List Line)
  | [] => some []
  | line :: lines => do
      let first ← parseLine line
      let rest ← parseLines lines
      return first ++ rest

/-- Read a page. Its last line ends with a newline. -/
def parse (s : GoString) : Option (List Line) :=
  if (splitLines s).2 = [] then parseLines (splitLines s).1 else none

/-! ## What is written is read back -/

/-- Lines that can be written. -/
def Line.Valid : Line → Prop
  | .help name _ => isName true name = true
  | .type name _ => isName true name = true
  | .sample name labels value =>
      isName true name = true ∧ (∀ l ∈ labels, isName false l.1 = true) ∧
        (labels.map Prod.fst).Nodup ∧ noBlanks value = true

theorem nameByte_of_first {colon : Bool} {b : UInt8} (h : nameByte colon true b = true) :
    nameByte colon false b = true := by
  simp only [nameByte, Bool.or_eq_true] at h ⊢
  rcases h with h | h
  · exact .inl h
  · cases h

theorem nameByte_of_mem {colon : Bool} {s : GoString} (h : isName colon s = true) :
    ∀ b ∈ s, nameByte colon false b = true := by
  cases s with
  | nil => cases h
  | cons x s =>
    rw [isName, Bool.and_eq_true, all_eq_true] at h
    intro b hb
    rcases mem_cons.mp hb with rfl | hb
    · exact nameByte_of_first h.1
    · exact h.2 b hb

/-- A byte that is not of a name is not in one. -/
theorem not_mem_of_isName {colon : Bool} {s : GoString} (h : isName colon s = true) {b : UInt8}
    (hb : nameByte colon false b = false) : b ∉ s := by
  intro hmem
  rw [nameByte_of_mem h b hmem] at hb
  cases hb

/-- A scan stops behind the bytes that pass, at the first that does not. -/
theorem takeWhile_stop {p : UInt8 → Bool} {s : GoString} (hs : ∀ b ∈ s, p b = true) {b : UInt8}
    (hb : p b = false) (t : GoString) :
    (s ++ b :: t).takeWhile p = s ∧ (s ++ b :: t).dropWhile p = b :: t := by
  constructor
  · rw [takeWhile_append_of_pos hs, takeWhile_cons_of_neg (by simp [hb]), append_nil]
  · rw [dropWhile_append_of_pos hs, dropWhile_cons_of_neg (by simp [hb])]

/-- An escaped byte, read back. -/
theorem escapeByte_cases (quoted : Bool) (b : UInt8) :
    (∃ c, escapeByte quoted b = [backslash, c] ∧ unescape quoted c = some b) ∨
    (escapeByte quoted b = [b] ∧ b ≠ backslash ∧ (quoted = true → b ≠ quote)) := by
  unfold escapeByte
  by_cases hback : b = backslash
  · subst hback
    exact .inl ⟨backslash, if_pos rfl, if_pos rfl⟩
  · rw [if_neg hback]
    by_cases hnew : b = newline
    · subst hnew
      exact .inl ⟨110, if_pos rfl, rfl⟩
    · rw [if_neg hnew]
      by_cases hquote : (quoted && b == quote) = true
      · rw [if_pos hquote]
        obtain ⟨rfl, rfl⟩ : quoted = true ∧ b = quote := by simpa using hquote
        exact .inl ⟨quote, rfl, rfl⟩
      · rw [if_neg hquote]
        refine .inr ⟨rfl, hback, ?_⟩
        rintro rfl heq
        simp [heq] at hquote

theorem newline_not_mem_escape (quoted : Bool) (s : GoString) : newline ∉ escape quoted s := by
  intro hmem
  obtain ⟨b, -, hb⟩ := mem_flatMap.mp hmem
  unfold escapeByte at hb
  split at hb
  · simp [newline, backslash] at hb
  · split at hb
    · simp [newline, backslash] at hb
    · next hnew =>
      split at hb
      · simp [newline, backslash, quote] at hb
      · exact hnew (mem_singleton.mp hb).symm

theorem readText_escape (s : GoString) : readText (escape false s) = some s := by
  induction s with
  | nil => rfl
  | cons b s ih =>
    show readText (escapeByte false b ++ escape false s) = some (b :: s)
    rcases escapeByte_cases false b with ⟨c, hesc, hun⟩ | ⟨hesc, hback, -⟩
    · rw [hesc]
      show readText (backslash :: c :: escape false s) = some (b :: s)
      rw [readText, if_pos rfl, hun, ih]
      rfl
    · rw [hesc, singleton_append]
      cases hrest : escape false s with
      | nil =>
        rw [hrest] at ih
        cases ih
        rw [readText, if_neg hback]
      | cons c t =>
        rw [hrest] at ih
        rw [readText, if_neg hback, ih]
        rfl

theorem readQuoted_escape (s rest : GoString) :
    readQuoted (escape true s ++ quote :: rest) = some (s, rest) := by
  induction s with
  | nil =>
    show readQuoted (quote :: rest) = some ([], rest)
    cases rest with
    | nil => rfl
    | cons c rest => rw [readQuoted, if_pos rfl]
  | cons b s ih =>
    show readQuoted (escapeByte true b ++ escape true s ++ quote :: rest) = some (b :: s, rest)
    rw [append_assoc]
    rcases escapeByte_cases true b with ⟨c, hesc, hun⟩ | ⟨hesc, hback, hquote⟩
    · rw [hesc]
      show readQuoted (backslash :: c :: (escape true s ++ quote :: rest)) = some (b :: s, rest)
      rw [readQuoted, if_neg (by decide), if_pos rfl, hun, ih]
      rfl
    · rw [hesc, singleton_append]
      cases hrest : escape true s ++ quote :: rest with
      | nil => simp at hrest
      | cons c t =>
        rw [hrest] at ih
        rw [readQuoted, if_neg (hquote rfl), if_neg hback, ih]
        rfl

/-- One label, up to the byte behind it. -/
theorem readLabels_label {l : GoString × GoString} (hl : isName false l.1 = true) (fuel : Nat)
    (sep : UInt8) (s : GoString) : readLabels (fuel + 1) (renderLabel l ++ sep :: s) =
      if sep = comma then (readLabels fuel s).map fun r => (l :: r.1, r.2)
      else if sep = rightBrace then some ([l], s) else none := by
  have hsplit : renderLabel l ++ sep :: s =
      l.1 ++ equals :: quote :: (escape true l.2 ++ quote :: sep :: s) := by
    simp [renderLabel]
  obtain ⟨htake, hdrop⟩ := takeWhile_stop (nameByte_of_mem hl) (by decide : nameByte false false equals = false)
    (quote :: (escape true l.2 ++ quote :: sep :: s))
  rw [hsplit, readLabels, htake, hdrop]
  dsimp only
  rw [if_neg (fun h => absurd h.1 (by decide)), if_pos ⟨rfl, hl⟩, if_pos rfl, readQuoted_escape]

theorem readLabels_render {labels : List (GoString × GoString)} (hne : labels ≠ [])
    (hvalid : ∀ l ∈ labels, isName false l.1 = true) {fuel : Nat} (hfuel : labels.length ≤ fuel)
    (rest : GoString) :
    readLabels fuel ([comma].intercalate (labels.map renderLabel) ++ rightBrace :: rest) =
      some (labels, rest) := by
  induction labels generalizing fuel with
  | nil => exact absurd rfl hne
  | cons l labels ih =>
    obtain ⟨fuel, rfl⟩ : ∃ n, fuel = n + 1 := ⟨fuel - 1, by simp at hfuel; omega⟩
    have hl := hvalid l mem_cons_self
    rw [map_cons]
    by_cases hlast : labels = []
    · subst hlast
      show readLabels (fuel + 1) ([comma].intercalate [renderLabel l] ++ rightBrace :: rest) = _
      rw [intercalate_singleton, readLabels_label hl, if_neg (by decide), if_pos rfl]
    · rw [intercalate_cons (by simpa using hlast), append_assoc, cons_append,
        readLabels_label hl, if_pos rfl,
        ih hlast (fun x hx => hvalid x (mem_cons_of_mem l hx)) (by simpa using hfuel)]
      rfl

/-- Each label takes a byte at least. -/
theorem length_le_intercalate (labels : List (GoString × GoString)) :
    labels.length ≤ ([comma].intercalate (labels.map renderLabel)).length + 1 := by
  induction labels with
  | nil => simp
  | cons l labels ih =>
    by_cases hlast : labels = []
    · simp [hlast]
    · rw [map_cons, intercalate_cons (by simpa using hlast)]
      simp only [length_append, length_cons]
      omega

theorem readValue_render {name value : GoString} {labels : List (GoString × GoString)}
    (hvalue : noBlanks value = true) (hnodup : (labels.map Prod.fst).Nodup) :
    readValue name labels (space :: value) = some (.sample name labels value) := by
  rw [readValue, if_pos ⟨rfl, hvalue, hnodup⟩]

theorem parseSample_render {name value : GoString} {labels : List (GoString × GoString)}
    (hname : isName true name = true) (hlabels : ∀ l ∈ labels, isName false l.1 = true)
    (hnodup : (labels.map Prod.fst).Nodup) (hvalue : noBlanks value = true) :
    parseSample (name ++ renderLabels labels ++ space :: value) =
      some (.sample name labels value) := by
  by_cases hne : labels = []
  · subst hne
    obtain ⟨htake, hdrop⟩ := takeWhile_stop (nameByte_of_mem hname)
      (by decide : nameByte true false space = false) value
    have hline : name ++ renderLabels [] ++ space :: value = name ++ space :: value := by
      simp [renderLabels]
    unfold parseSample
    dsimp only
    rw [hline, htake, hdrop, if_pos hname, if_neg (by simp [leftBrace, space])]
    exact readValue_render hvalue hnodup
  · have hline : name ++ renderLabels labels ++ space :: value = name ++ leftBrace ::
        ([comma].intercalate (labels.map renderLabel) ++ rightBrace :: space :: value) := by
      simp [renderLabels, hne]
    obtain ⟨htake, hdrop⟩ := takeWhile_stop (nameByte_of_mem hname)
      (by decide : nameByte true false leftBrace = false)
      ([comma].intercalate (labels.map renderLabel) ++ rightBrace :: space :: value)
    have hlen := length_le_intercalate labels
    unfold parseSample
    dsimp only
    rw [hline, htake, hdrop, if_pos hname, if_pos head?_cons, tail_cons,
      readLabels_render hne hlabels (by simp; omega)]
    exact readValue_render hvalue hnodup

theorem parseMeta_render {name : GoString} (hname : isName true name = true) (text : GoString) :
    parseMeta (name ++ space :: text) = (name, some text) := by
  have hpass : ∀ b ∈ name, (b != space) = true := by
    intro b hb
    refine bne_iff_ne.mpr fun heq => ?_
    exact not_mem_of_isName hname (by decide : nameByte true false space = false) (heq ▸ hb)
  obtain ⟨htake, hdrop⟩ := takeWhile_stop hpass (by decide : (space != space) = false) text
  unfold parseMeta
  dsimp only
  rw [htake, hdrop]

/-- The first byte of a name is no `#`. -/
theorem head_ne_hash {name : GoString} (hname : isName true name = true) (s : GoString) :
    name ++ s ≠ [] ∧ (name ++ s).head? ≠ some hash := by
  cases name with
  | nil => cases hname
  | cons b name =>
    refine ⟨by simp, ?_⟩
    rw [cons_append, head?_cons, ne_eq, Option.some.injEq]
    intro heq
    exact not_mem_of_isName hname (by decide : nameByte true false hash = false)
      (heq ▸ mem_cons_self)

/-- **A line is read back.** -/
theorem parseLine_render {l : Line} (h : l.Valid) : parseLine l.render = some [l] := by
  cases l with
  | help name text =>
    have hpre : GoString.text "# HELP ".toList <+: (Line.help name text).render :=
      ⟨_, (append_assoc ..).symm⟩
    have hdrop : (Line.help name text).render.drop 7 = name ++ space :: escape false text := by
      rw [Line.render, append_assoc]
      exact drop_left' rfl
    have hname : isName true name = true := h
    rw [parseLine, if_pos hpre, hdrop, parseHelp, parseMeta_render hname]
    dsimp only
    rw [if_pos hname, readText_escape]
    rfl
  | type name kind =>
    have hpre : ¬ GoString.text "# HELP ".toList <+: (Line.type name kind).render := by
      intro hpre
      have hbytes : GoString.text "# HELP ".toList =
          (GoString.text "# TYPE ".toList ++ (name ++ space :: kind.name)).take 7 := by
        rw [Line.render, append_assoc] at hpre
        exact prefix_iff_eq_take.mp hpre
      rw [take_left' (by decide)] at hbytes
      revert hbytes
      decide
    have hpre' : GoString.text "# TYPE ".toList <+: (Line.type name kind).render :=
      ⟨_, (append_assoc ..).symm⟩
    have hdrop : (Line.type name kind).render.drop 7 = name ++ space :: kind.name := by
      rw [Line.render, append_assoc]
      exact drop_left' rfl
    have hname : isName true name = true := h
    rw [parseLine, if_neg hpre, if_pos hpre', hdrop, parseType, parseMeta_render hname]
    dsimp only
    rw [if_pos hname]
    cases kind <;> rfl
  | sample name labels value =>
    obtain ⟨hname, hlabels, hnodup, hvalue⟩ := h
    -- A keyword starts with `#`, and a name does not.
    have hhead := head_ne_hash hname (renderLabels labels ++ space :: value)
    rw [← append_assoc] at hhead
    have hkeyword : ∀ {k : GoString}, k.head? = some hash →
        ¬ k <+: name ++ renderLabels labels ++ space :: value := by
      intro k hk hpre
      obtain ⟨t, ht⟩ := hpre
      cases k with
      | nil => cases hk
      | cons b k =>
        refine hhead.2 ?_
        rw [← ht]
        exact hk
    rw [Line.render, parseLine, if_neg (hkeyword rfl), if_neg (hkeyword rfl),
      if_neg (not_or.mpr hhead), parseSample_render hname hlabels hnodup hvalue]
    rfl

theorem newline_not_mem_render {l : Line} (h : l.Valid) : newline ∉ l.render := by
  have hname : ∀ {colon : Bool} {s : GoString}, isName colon s = true → newline ∉ s := by
    intro colon s hs
    refine not_mem_of_isName hs ?_
    cases colon <;> decide
  cases l with
  | help name text =>
    have hesc := newline_not_mem_escape false text
    have hn : newline ∉ name := hname h
    simp only [Line.render, mem_append, mem_cons, not_or]
    exact ⟨⟨by decide, hn⟩, by decide, hesc⟩
  | type name kind =>
    have hn : newline ∉ name := hname h
    simp only [Line.render, mem_append, mem_cons, not_or]
    refine ⟨⟨by decide, hn⟩, by decide, ?_⟩
    cases kind <;> decide
  | sample name labels value =>
    obtain ⟨hn, hlabels, -, hvalue⟩ := h
    have hvalue' : newline ∉ value := by
      intro hmem
      have hb := all_eq_true.mp hvalue newline hmem
      revert hb
      decide
    have hlist : newline ∉ [comma].intercalate (labels.map renderLabel) := by
      refine notMem_intercalate (by decide) fun t ht => ?_
      obtain ⟨l, hl, rfl⟩ := mem_map.mp ht
      simp only [renderLabel, mem_append, mem_cons, not_or]
      exact ⟨⟨hname (hlabels l hl), by decide, by decide, newline_not_mem_escape true l.2⟩,
        by decide⟩
    have hrender : newline ∉ renderLabels labels := by
      unfold renderLabels
      split
      · exact not_mem_nil
      · simp only [mem_append, mem_cons, not_or]
        exact ⟨⟨by decide, hlist⟩, by decide⟩
    simp only [Line.render, mem_append, mem_cons, not_or]
    exact ⟨⟨hname hn, hrender⟩, by decide, hvalue'⟩

/-- **Round trip.** A page of valid lines is read back line by line. -/
theorem parse_render {lines : List Line} (h : ∀ l ∈ lines, l.Valid) :
    parse (render lines) = some lines := by
  have hsplit : splitLines (render lines) = (lines.map Line.render, []) := by
    refine splitLines_flatMap fun line hline => ?_
    obtain ⟨l, hl, rfl⟩ := mem_map.mp hline
    exact newline_not_mem_render (h l hl)
  have hlines : parseLines (lines.map Line.render) = some lines := by
    clear hsplit
    induction lines with
    | nil => rfl
    | cons l lines ih =>
      rw [map_cons, parseLines, parseLine_render (h l mem_cons_self),
        ih fun x hx => h x (mem_cons_of_mem l hx)]
      rfl
  rw [parse, hsplit, if_pos rfl]
  exact hlines

/-! ## Blocks -/

/-- The lines of one metric: its help, its type and its samples. -/
structure Block where
  name : GoString
  help : GoString
  kind : Kind
  samples : List (List (GoString × GoString) × GoString)

def Block.lines (b : Block) : List Line :=
  .help b.name b.help :: .type b.name b.kind :: b.samples.map fun s => .sample b.name s.1 s.2

/-- Each name has one help line and one type line, directly before its
samples, which follow one another. -/
def Grouped (lines : List Line) (blocks : List Block) : Prop :=
  lines = blocks.flatMap Block.lines ∧ (blocks.map Block.name).Nodup ∧
    ∀ b ∈ blocks, b.samples ≠ []

/-- The samples of a page: name, labels and value. -/
def samples (lines : List Line) : List (GoString × List (GoString × GoString) × GoString) :=
  lines.filterMap fun
    | .sample name labels value => some (name, labels, value)
    | _ => none

end PromText
