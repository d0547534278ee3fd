import Otedama.Framework.CaseMapping
import Otedama.Framework.Hex
import Otedama.Framework.Strings

/-! # Quoted Go strings

`strconv.Quote` writes a string between double quotes. The quote and the
backslash get a backslash in front, printable runes stand as they are, and
what is left becomes an escape: a letter for seven control characters, a
number otherwise. A byte that starts no valid encoding is written as the
number of the byte.

Which runes above U+00FF are printable is a parameter (`wide`). -/

namespace GoQuote

open GoString List

def doubleQuote : UInt8 := 34

def backslash : UInt8 := 92

/-! ## Classes of runes -/

/-- `unicode.IsControl`. -/
def isControl (c : Char) : Bool := c.toNat < 0x20 || (0x7f ≤ c.toNat && c.toNat ≤ 0x9f)

/-- `strconv.IsPrint`. -/
def isPrint (wide : Char → Bool) (c : Char) : Bool :=
  if c.toNat ≤ 0xff then
    (0x20 ≤ c.toNat && c.toNat < 0x7f) || (0xa1 ≤ c.toNat && c.toNat ≠ 0xad)
  else wide c

/-! ## Quoting -/

/-- The control characters that are written as a letter. -/
def letters : List (Nat × Char) :=
  [(7, 'a'), (8, 'b'), (12, 'f'), (10, 'n'), (13, 'r'), (9, 't'), (11, 'v')]

/-- An escape: a letter and what belongs to it. -/
def escape (letter : Char) (s : GoString) : GoString := backslash :: asciiByte letter :: s

section

variable (wide : Char → Bool)

/-- `appendEscapedRune`. -/
def escapeRune (c : Char) : GoString :=
  if c.toNat = 34 ∨ c.toNat = 92 then escape c []
  else if isPrint wide c then String.utf8EncodeChar c
  else
    match letters.lookup c.toNat with
    | some letter => escape letter []
    | none =>
        if c.toNat < 0x20 ∨ c.toNat = 0x7f then escape 'x' (Hex.digits 2 c.toNat)
        else if c.toNat < 0x10000 then escape 'u' (Hex.digits 4 c.toNat)
        else escape 'U' (Hex.digits 8 c.toNat)

/-- An undecodable byte. -/
def escapeByte (b : UInt8) : GoString := escape 'x' (Hex.digits 2 b.toNat)

/-- The loop of `strconv.Quote`, where the first `skip` bytes belong to a rune
that has already been written. -/
def quoteFrom : Nat → GoString → GoString
  | _, [] => []
  | skip + 1, _ :: rest => quoteFrom skip rest
  | 0, b :: rest =>
      (if decodeRune b rest = (runeError, 0) then escapeByte b
       else escapeRune wide (decodeRune b rest).1) ++ quoteFrom (decodeRune b rest).2 rest

def quote (s : GoString) : GoString := doubleQuote :: quoteFrom wide 0 s ++ [doubleQuote]

/-! ## What is written for what -/

/-- `Escaped s t`: between the quotes, `t` is written for `s`. -/
inductive Escaped : GoString → GoString → Prop
  | nil : Escaped [] []
  | rune {s t : GoString} (c : Char) :
      Escaped s t → Escaped (String.utf8EncodeChar c ++ s) (escapeRune wide c ++ t)
  | byte {s t : GoString} (b : UInt8) : Escaped s t → Escaped (b :: s) (escapeByte b ++ t)

/-- The forms a rune is written in. -/
theorem escapeRune_cases (c : Char) :
    (c.toNat = 34 ∨ c.toNat = 92) ∧ escapeRune wide c = escape c [] ∨
    ¬ (c.toNat = 34 ∨ c.toNat = 92) ∧ isPrint wide c ∧ escapeRune wide c = String.utf8EncodeChar c ∨
    (∃ letter, (c.toNat, letter) ∈ letters ∧ escapeRune wide c = escape letter []) ∨
    c.toNat < 0x80 ∧ escapeRune wide c = escape 'x' (Hex.digits 2 c.toNat) ∨
    c.toNat < 0x10000 ∧ escapeRune wide c = escape 'u' (Hex.digits 4 c.toNat) ∨
    escapeRune wide c = escape 'U' (Hex.digits 8 c.toNat) := by
  unfold escapeRune
  by_cases hquote : c.toNat = 34 ∨ c.toNat = 92
  · exact .inl ⟨hquote, if_pos hquote⟩
  by_cases hprint : isPrint wide c
  · rw [if_neg hquote, if_pos hprint]
    exact .inr (.inl ⟨hquote, hprint, rfl⟩)
  rw [if_neg hquote, if_neg hprint]
  cases hlookup : letters.lookup c.toNat with
  | some letter =>
    obtain ⟨before, behind, hsplit, -⟩ := lookup_eq_some_iff.mp hlookup
    exact .inr (.inr (.inl ⟨letter, by simp [hsplit], rfl⟩))
  | none =>
    dsimp only
    by_cases hx : c.toNat < 0x20 ∨ c.toNat = 0x7f
    · rw [if_pos hx]
      exact .inr (.inr (.inr (.inl ⟨by omega, rfl⟩)))
    rw [if_neg hx]
    by_cases hu : c.toNat < 0x10000
    · rw [if_pos hu]
      exact .inr (.inr (.inr (.inr (.inl ⟨hu, rfl⟩))))
    · rw [if_neg hu]
      exact .inr (.inr (.inr (.inr (.inr rfl))))

variable {wide}

theorem quoteFrom_append {k : Nat} {xs : List UInt8} (h : xs.length = k) (t : List UInt8) :
    quoteFrom wide k (xs ++ t) = quoteFrom wide 0 t := by
  induction xs generalizing k with
  | nil =>
    subst h
    rfl
  | cons x xs ih =>
    subst h
    exact ih rfl

/-- The induction is on the length, since a rune takes several bytes off. -/
theorem escaped_quoteFrom (s : GoString) : Escaped wide s (quoteFrom wide 0 s) := by
  induction hlen : s.length using Nat.strong_induction_on generalizing s with
  | h n ih =>
    cases s with
    | nil => exact .nil
    | cons b rest =>
      rw [quoteFrom]
      by_cases herr : decodeRune b rest = (runeError, 0)
      · rw [if_pos herr, herr]
        exact .byte b (ih rest.length (by rw [← hlen]; simp) rest rfl)
      rw [if_neg herr]
      obtain ⟨c, t, hdec, hsplit⟩ := (decodeRune_spec b rest).resolve_left herr
      have hpos := length_pos_iff.mpr (String.utf8EncodeChar_ne_nil (c := c))
      rw [hdec]
      -- What is left of the rune's bytes behind `b` is skipped.
      have hrest : rest = (String.utf8EncodeChar c).tail ++ t := by
        have htail := congrArg tail hsplit
        rwa [tail_append_of_ne_nil String.utf8EncodeChar_ne_nil] at htail
      have hskip : quoteFrom wide ((String.utf8EncodeChar c).length - 1) rest =
          quoteFrom wide 0 t := by
        rw [hrest]
        exact quoteFrom_append length_tail t
      have hshort : t.length < n := by
        rw [hsplit, length_append] at hlen
        omega
      rw [hskip, hsplit]
      exact .rune c (ih t.length hshort t rfl)

/-! ## One line -/

theorem newline_notMem_digits (k v : Nat) : newline ∉ Hex.digits k v := by
  induction k generalizing v with
  | zero => exact not_mem_nil
  | succ k ih =>
    have hdigit : ∀ d < 16, newline ≠ Hex.digit d := by decide
    rw [Hex.digits, mem_append, mem_singleton, not_or]
    exact ⟨ih _, hdigit _ (Nat.mod_lt _ (by omega))⟩

theorem newline_notMem_escape {letter : Char} {s : GoString} (hletter : newline ≠ asciiByte letter)
    (hs : newline ∉ s) : newline ∉ escape letter s := by
  unfold escape
  rw [mem_cons, mem_cons, not_or, not_or]
  exact ⟨by decide, hletter, hs⟩

theorem newline_notMem_utf8EncodeChar {c : Char} (h : c.toNat ≠ 10) :
    newline ∉ String.utf8EncodeChar c := by
  intro hmem
  by_cases hc : c.toNat < 128
  · rw [utf8EncodeChar_ascii hc, mem_singleton] at hmem
    have hnat := congrArg UInt8.toNat hmem
    rw [toNat_asciiByte hc] at hnat
    exact h hnat.symm
  · have hge := not_ascii_of_mem (Nat.not_lt.mp hc) _ hmem
    exact absurd hge (by decide)

theorem newline_notMem_escapeRune (c : Char) : newline ∉ escapeRune wide c := by
  obtain ⟨hc, heq⟩ | ⟨-, hprint, heq⟩ | ⟨letter, hmem, heq⟩ | ⟨-, heq⟩ | ⟨-, heq⟩ | heq :=
    escapeRune_cases wide c
  · rw [heq]
    refine newline_notMem_escape ?_ not_mem_nil
    intro hbyte
    have hnat := congrArg UInt8.toNat hbyte
    rw [toNat_asciiByte (by omega)] at hnat
    have hten : newline.toNat = 10 := rfl
    omega
  · rw [heq]
    -- A newline is not printable.
    refine newline_notMem_utf8EncodeChar fun hten => ?_
    simp [isPrint, hten] at hprint
  · have hall : ∀ p ∈ letters, newline ≠ asciiByte p.2 := by decide
    rw [heq]
    exact newline_notMem_escape (hall _ hmem) not_mem_nil
  all_goals
    rw [heq]
    exact newline_notMem_escape (by decide) (newline_notMem_digits _ _)

theorem newline_notMem_quote (s : GoString) : newline ∉ quote wide s := by
  have hbody : ∀ s t, Escaped wide s t → newline ∉ t := by
    intro s t h
    induction h with
    | nil => exact not_mem_nil
    | rune c _ ih =>
      rw [mem_append, not_or]
      exact ⟨newline_notMem_escapeRune c, ih⟩
    | byte b _ ih =>
      rw [mem_append, not_or]
      exact ⟨newline_notMem_escape (by decide) (newline_notMem_digits _ _), ih⟩
  unfold quote
  rw [mem_append, mem_cons, mem_singleton, not_or, not_or]
  exact ⟨⟨by decide, hbody _ _ (escaped_quoteFrom s)⟩, by decide⟩

end

end GoQuote
