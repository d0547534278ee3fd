import Otedama.Framework.GoQuote

/-! # Words of a unit file

How systemd reads the words of a command line in a unit file. Words are
separated by blanks. A single or double quote anywhere in a word opens a
quoted part, which ends at the next quote of the same kind. Escapes are
read inside and outside of quotes. A quote that is not closed makes the
line unreadable.

What happens to a backslash that starts no escape is a parameter: the line
is refused, or the backslash and the byte behind it are kept (`keep`).

- A word written by `strconv.Quote` is read back (`readsAs_quote`).
- A word without blanks, quotes and backslashes stands for itself
  (`readsAs_bare`).
- A word without blanks and double quotes that has a single quote or a
  backslash is read as something else, whatever follows, when unknown
  escapes are refused (`ne_of_special`).
- `words_intercalate` and `bare_of_words` say the same of a whole line. -/

namespace UnitWords

open GoString GoQuote List Option Hex

def singleQuote : UInt8 := 39

def space : UInt8 := 32

def isBlank (b : UInt8) : Bool := [space, 9, 10, 13].contains b

/-! ## Escapes -/

/-- The escapes of one letter. -/
def letterEscapes : List (UInt8 × UInt8) :=
  [(asciiByte 'a', 7), (asciiByte 'b', 8), (asciiByte 'f', 12), (asciiByte 'n', 10),
    (asciiByte 'r', 13), (asciiByte 't', 9), (asciiByte 'v', 11), (backslash, backslash),
    (doubleQuote, doubleQuote), (singleQuote, singleQuote), (asciiByte 's', space)]

def octalValue (b : UInt8) : Option Nat :=
  if 0x30 ≤ b ∧ b ≤ 0x37 then some (b.toNat - 0x30) else none

/-- A number of `k` digits behind digits that have the value `n`. -/
def readDigits (value : UInt8 → Option Nat) (base : Nat) : Nat → Nat → GoString → Option Nat
  | 0, n, _ => some n
  | _ + 1, _, [] => none
  | k + 1, n, b :: s => (value b).bind fun d => readDigits value base k (base * n + d) s

def byteOf (v : Nat) : Option GoString := if v < 256 then some [UInt8.ofNat v] else none

/-- The bytes of a code point. -/
def codePoint (v : Nat) : Option GoString :=
  if v.isValidChar then some (String.utf8EncodeChar (Char.ofNat v)) else none

/-- The escape whose backslash stands in front of the text: what it stands for
and how many bytes of the text belong to it. -/
def readEscape : GoString → Option (GoString × Nat)
  | [] => none
  | b :: s =>
      match letterEscapes.lookup b with
      | some x => some ([x], 1)
      | none =>
          if b = asciiByte 'x' then
            ((readDigits Hex.value 16 2 0 s).bind byteOf).map fun bytes => (bytes, 3)
          else if b = asciiByte 'u' then
            ((readDigits Hex.value 16 4 0 s).bind codePoint).map fun bytes => (bytes, 5)
          else if b = asciiByte 'U' then
            ((readDigits Hex.value 16 8 0 s).bind codePoint).map fun bytes => (bytes, 9)
          else ((readDigits octalValue 8 3 0 (b :: s)).bind byteOf).map fun bytes => (bytes, 3)

/-- The same, for any backslash. -/
def unescape (keep : Bool) (s : GoString) : Option (GoString × Nat) :=
  match readEscape s with
  | some r => some r
  | none => if keep then some (backslash :: s.take 1, (s.take 1).length) else none

/-! ## Words -/

/-- The words from a point on, where the first `skip` bytes belong to an escape
that has been read, `q` is the open quote and `word` is what the word at
this point has so far. -/
def readFrom (keep : Bool) :
    Nat → Option UInt8 → Option GoString → GoString → Option (List GoString)
  | _, none, word, [] => some word.toList
  | _, some _, _, [] => none
  | skip + 1, q, word, _ :: s => readFrom keep skip q word s
  | 0, q, word, b :: s =>
      if q = some b then readFrom keep 0 none word s
      else if b = backslash then
        match unescape keep s with
        | none => none
        | some (bytes, k) => readFrom keep k q (some (word.getD [] ++ bytes)) s
      else if q = none ∧ (b = singleQuote ∨ b = doubleQuote) then
        readFrom keep 0 (some b) (some (word.getD [])) s
      else if q = none ∧ isBlank b then
        (readFrom keep 0 none none s).map (word.toList ++ ·)
      else readFrom keep 0 q (some (word.getD [] ++ [b])) s

def words (keep : Bool) (s : GoString) : Option (List GoString) := readFrom keep 0 none none s

/-- A byte that means nothing outside of quotes. -/
def isBare (b : UInt8) : Bool :=
  !isBlank b && b ≠ backslash && b ≠ singleQuote && b ≠ doubleQuote

section

variable {keep : Bool} {q : Option UInt8} {word : Option GoString} {b : UInt8} {s : GoString}

@[simp] theorem readFrom_end : readFrom keep 0 none word [] = some word.toList := rfl

theorem readFrom_close {c : UInt8} : readFrom keep 0 (some c) word (c :: s) =
    readFrom keep 0 none word s := by
  rw [readFrom, if_pos rfl]

theorem readFrom_open (hb : b = singleQuote ∨ b = doubleQuote) :
    readFrom keep 0 none word (b :: s) = readFrom keep 0 (some b) (some (word.getD [])) s := by
  have hne : b ≠ backslash := by
    rcases hb with rfl | rfl <;> decide
  rw [readFrom, if_neg (by simp), if_neg hne, if_pos ⟨rfl, hb⟩]

theorem readFrom_blank (hb : isBlank b) :
    readFrom keep 0 none word (b :: s) = (readFrom keep 0 none none s).map (word.toList ++ ·) := by
  have hmem : b ∈ [space, 9, 10, 13] := contains_iff_mem.mp hb
  simp only [mem_cons, not_mem_nil, or_false] at hmem
  obtain ⟨hback, hsingle, hdouble⟩ : b ≠ backslash ∧ b ≠ singleQuote ∧ b ≠ doubleQuote := by
    rcases hmem with rfl | rfl | rfl | rfl <;> decide
  rw [readFrom, if_neg (by simp), if_neg hback, if_neg (by simp [hsingle, hdouble]),
    if_pos ⟨rfl, hb⟩]

theorem readFrom_bare (hb : isBare b) :
    readFrom keep 0 none word (b :: s) = readFrom keep 0 none (some (word.getD [] ++ [b])) s := by
  simp only [isBare, Bool.and_eq_true, Bool.not_eq_true', decide_eq_true_eq] at hb
  obtain ⟨⟨⟨hblank, hback⟩, hsingle⟩, hdouble⟩ := hb
  rw [readFrom, if_neg (by simp), if_neg hback, if_neg (by simp [hsingle, hdouble]),
    if_neg (by simp [hblank])]

theorem readFrom_inside {c : UInt8} (hquote : b ≠ c) (hback : b ≠ backslash) :
    readFrom keep 0 (some c) word (b :: s) =
      readFrom keep 0 (some c) (some (word.getD [] ++ [b])) s := by
  rw [readFrom, if_neg (by simp [hquote.symm]), if_neg hback, if_neg (by simp), if_neg (by simp)]

theorem readFrom_backslash (hq : q ≠ some backslash) : readFrom keep 0 q word (backslash :: s) =
      (unescape keep s).bind fun r => readFrom keep r.2 q (some (word.getD [] ++ r.1)) s := by
  rw [readFrom, if_neg hq, if_pos rfl]
  cases unescape keep s <;> rfl

theorem readFrom_skip {k : Nat} {bytes : GoString} (h : bytes.length = k) :
    readFrom keep k q word (bytes ++ s) = readFrom keep 0 q word s := by
  induction bytes generalizing k with
  | nil =>
    subst h
    rfl
  | cons x bytes ih =>
    subst h
    cases q <;> exact ih rfl

theorem readFrom_escape {bytes meant : GoString} (hq : q ≠ some backslash)
    (h : readEscape (bytes ++ s) = some (meant, bytes.length)) :
    readFrom keep 0 q word (backslash :: (bytes ++ s)) =
      readFrom keep 0 q (some (word.getD [] ++ meant)) s := by
  have hun : unescape keep (bytes ++ s) = some (meant, bytes.length) := by
    rw [unescape, h]
  rw [readFrom_backslash hq, hun]
  exact readFrom_skip rfl

end

/-! ## Words that are read back -/

section

variable {keep : Bool} {wide : Char → Bool} {v : GoString}

/-- The text `t` is taken off as the word `v`, whatever follows. -/
def ReadsAs (keep : Bool) (t v : GoString) : Prop :=
  ∀ s, readFrom keep 0 none none (t ++ s) = readFrom keep 0 none (some v) s

/-- Bytes that stand for themselves, one after the other. -/
theorem readFrom_all {q : Option UInt8} (h : ∀ b ∈ v, ∀ w s, readFrom keep 0 q (some w) (b :: s) =
      readFrom keep 0 q (some (w ++ [b])) s) (w s : GoString) :
    readFrom keep 0 q (some w) (v ++ s) = readFrom keep 0 q (some (w ++ v)) s := by
  induction v generalizing w with
  | nil => rw [nil_append, append_nil]
  | cons b v ih =>
    rw [cons_append, h b mem_cons_self, ih fun x hx => h x (mem_cons_of_mem _ hx)]
    simp

theorem readsAs_bare (hne : v ≠ []) (h : ∀ b ∈ v, isBare b) : ReadsAs keep v v := by
  intro s
  cases v with
  | nil => exact absurd rfl hne
  | cons b v =>
    rw [cons_append, readFrom_bare (h b mem_cons_self),
      readFrom_all fun x hx _ _ => readFrom_bare (h x (mem_cons_of_mem _ hx))]
    rfl

/-- A text without blanks and double quotes. -/
def Unquoted (v : GoString) : Prop := ∀ b ∈ v, ¬ isBlank b ∧ b ≠ doubleQuote

theorem readsAs_unquoted (hne : v ≠ []) (hv : Unquoted v)
    (hsingle : singleQuote ∉ v) (hback : backslash ∉ v) : ReadsAs keep v v := by
  refine readsAs_bare hne fun b hb => ?_
  obtain ⟨hblank, hdouble⟩ := hv b hb
  have hs : b ≠ singleQuote := fun heq => hsingle (heq ▸ hb)
  have hbk : b ≠ backslash := fun heq => hback (heq ▸ hb)
  simp [isBare, hblank, hdouble, hs, hbk]

theorem readDigits_digits (k : Nat) {n v : Nat} (j : Nat) (s : GoString) (hv : v < 16 ^ k) :
    readDigits value 16 (k + j) n (digits k v ++ s) = readDigits value 16 j (n * 16 ^ k + v) s := by
  induction k generalizing v j s with
  | zero =>
    obtain rfl : v = 0 := by simpa using hv
    simp [digits]
  | succ k ih =>
    rw [pow_succ] at hv ⊢
    -- The last digit is read behind the others.
    have hdigits : digits (k + 1) v ++ s = digits k (v / 16) ++ (digit (v % 16) :: s) := by
      simp [digits]
    have hvalue : 16 * (n * 16 ^ k + v / 16) + v % 16 = n * (16 ^ k * 16) + v := by
      have hdiv := Nat.div_add_mod v 16
      calc 16 * (n * 16 ^ k + v / 16) + v % 16
          = n * (16 ^ k * 16) + (16 * (v / 16) + v % 16) := by ring
        _ = n * (16 ^ k * 16) + v := by rw [hdiv]
    rw [hdigits, Nat.add_assoc, Nat.add_comm 1 j, ih (j + 1) _ (by omega), readDigits,
      value_digit (by omega), bind_some, hvalue]

theorem readDigits_all {k v : Nat} (s : GoString) (hv : v < 16 ^ k) :
    readDigits value 16 k 0 (digits k v ++ s) = some v := by
  have h := readDigits_digits k (n := 0) 0 s hv
  rwa [Nat.zero_mul, Nat.zero_add] at h

theorem length_digits (k v : Nat) : (digits k v).length = k := by
  induction k generalizing v with
  | zero => rfl
  | succ k ih => rw [digits, length_append, ih, length_singleton]

/-- An escape of `strconv.Quote`, inside double quotes. -/
theorem readFrom_goEscape {letter : Char} {t meant : GoString} {w s : GoString}
    (h : readEscape (asciiByte letter :: t ++ s) = some (meant, t.length + 1)) :
    readFrom keep 0 (some doubleQuote) (some w) (escape letter t ++ s) =
      readFrom keep 0 (some doubleQuote) (some (w ++ meant)) s :=
  readFrom_escape (by decide) h

theorem readFrom_goNumber {v : Nat} (w s : GoString) (hv : v < 256) :
    readFrom keep 0 (some doubleQuote) (some w) (escape 'x' (digits 2 v) ++ s) =
      readFrom keep 0 (some doubleQuote) (some (w ++ [UInt8.ofNat v])) s := by
  refine readFrom_goEscape ?_
  show ((readDigits value 16 2 0 (digits 2 v ++ s)).bind byteOf).map _ = _
  rw [readDigits_all s (by omega), bind_some, byteOf, if_pos hv, length_digits]
  rfl

theorem codePoint_toNat (c : Char) : codePoint c.toNat = some (String.utf8EncodeChar c) := by
  have hvalid : c.toNat.isValidChar := c.valid
  rw [codePoint, if_pos hvalid, Char.ofNat_toNat]

theorem mem_utf8EncodeChar_ne {c : Char} (h : ¬ (c.toNat = 34 ∨ c.toNat = 92)) :
    ∀ b ∈ String.utf8EncodeChar c, b ≠ doubleQuote ∧ b ≠ backslash := by
  intro b hb
  have hnat : b.toNat ≠ 34 ∧ b.toNat ≠ 92 := by
    by_cases hc : c.toNat < 128
    · rw [utf8EncodeChar_ascii hc, mem_singleton] at hb
      rw [hb, toNat_asciiByte hc]
      omega
    · have hge := not_ascii_of_mem (Nat.not_lt.mp hc) b hb
      omega
  exact ⟨fun heq => hnat.1 (congrArg UInt8.toNat heq), fun heq => hnat.2 (congrArg UInt8.toNat heq)⟩

/-- A rune as `strconv.Quote` writes it. -/
theorem readFrom_escapeRune (c : Char) (w s : GoString) :
    readFrom keep 0 (some doubleQuote) (some w) (escapeRune wide c ++ s) =
      readFrom keep 0 (some doubleQuote) (some (w ++ String.utf8EncodeChar c)) s := by
  obtain ⟨hc, heq⟩ | ⟨hc, -, heq⟩ | ⟨letter, hmem, heq⟩ | ⟨hc, heq⟩ | ⟨hc, heq⟩ | heq :=
    escapeRune_cases wide c
  · rw [heq, utf8EncodeChar_ascii (by omega)]
    refine readFrom_goEscape ?_
    have hbyte : asciiByte c = doubleQuote ∨ asciiByte c = backslash := by
      unfold asciiByte
      rcases hc with hc | hc <;> rw [hc]
      · exact .inl rfl
      · exact .inr rfl
    rcases hbyte with hbyte | hbyte <;> rw [hbyte] <;> rfl
  · rw [heq]
    refine readFrom_all (fun b hb _ _ => ?_) w s
    obtain ⟨hquote, hback⟩ := mem_utf8EncodeChar_ne hc b hb
    exact readFrom_inside hquote hback
  · have hall : ∀ p ∈ letters, p.1 < 128 ∧
        letterEscapes.lookup (asciiByte p.2) = some (UInt8.ofNat p.1) := by
      decide
    obtain ⟨hascii, hlookup⟩ := hall _ hmem
    rw [heq, utf8EncodeChar_ascii hascii]
    refine readFrom_goEscape ?_
    show readEscape (asciiByte letter :: ([] ++ s)) = _
    rw [readEscape, hlookup]
    rfl
  · rw [heq, utf8EncodeChar_ascii hc]
    exact readFrom_goNumber w s (by omega)
  · rw [heq]
    refine readFrom_goEscape ?_
    show ((readDigits value 16 4 0 (digits 4 c.toNat ++ s)).bind codePoint).map _ = _
    rw [readDigits_all s (by omega), bind_some, codePoint_toNat, length_digits]
    rfl
  · rw [heq]
    refine readFrom_goEscape ?_
    have hlt : c.toNat < 16 ^ 8 := c.val.toNat_lt
    show ((readDigits value 16 8 0 (digits 8 c.toNat ++ s)).bind codePoint).map _ = _
    rw [readDigits_all s hlt, bind_some, codePoint_toNat, length_digits]
    rfl

theorem readFrom_escaped {t : GoString} (h : Escaped wide v t) (w s : GoString) :
    readFrom keep 0 (some doubleQuote) (some w) (t ++ s) =
      readFrom keep 0 (some doubleQuote) (some (w ++ v)) s := by
  induction h generalizing w with
  | nil => rw [nil_append, append_nil]
  | rune c _ ih => rw [append_assoc, readFrom_escapeRune, ih, append_assoc]
  | byte b _ ih =>
    rw [append_assoc, escapeByte, readFrom_goNumber _ _ b.toNat_lt, ih, UInt8.ofNat_toNat,
      append_assoc]
    rfl

theorem readsAs_quote (v : GoString) : ReadsAs keep (quote wide v) v := by
  intro s
  unfold quote
  rw [cons_append, cons_append, append_assoc, readFrom_open (.inr rfl)]
  show readFrom keep 0 (some doubleQuote) (some []) _ = _
  rw [readFrom_escaped (escaped_quoteFrom v)]
  exact readFrom_close

end

/-! ## Words that are misread

From here on an unknown escape makes the line unreadable. The words read
then never have more bytes than the text they are read from, and fewer if
there is a quote or an escape in it. -/

/-- The end of a word: the end of the text, or a space. -/
def Ends (r : GoString) : Prop := r = [] ∨ ∃ s, r = space :: s

theorem readDigits_within {value : UInt8 → Option Nat} {base : Nat} {v r : GoString}
    (hvalue : value space = none) (hr : Ends r) {k n m : Nat}
    (h : readDigits value base k n (v ++ r) = some m) : k ≤ v.length := by
  induction v generalizing k n with
  | nil =>
    cases k with
    | zero => exact le_rfl
    | succ k =>
      rw [nil_append] at h
      rcases hr with rfl | ⟨s, rfl⟩
      · exact absurd h (by simp [readDigits])
      · exact absurd h (by simp [readDigits, hvalue])
  | cons b v ih =>
    cases k with
    | zero => exact Nat.zero_le _
    | succ k =>
      rw [cons_append, readDigits] at h
      obtain ⟨d, -, hrest⟩ := bind_eq_some_iff.mp h
      exact Nat.succ_le_succ (ih hrest)

theorem length_byteOf {v : Nat} {bytes : GoString} (h : byteOf v = some bytes) :
    bytes.length ≤ 1 := by
  unfold byteOf at h
  split_ifs at h
  rw [← some.inj h]
  exact le_rfl

theorem length_codePoint {v : Nat} {bytes : GoString} (h : codePoint v = some bytes) :
    bytes.length ≤ 4 := by
  unfold codePoint at h
  split_ifs at h
  rw [← some.inj h, String.length_utf8EncodeChar]
  exact Char.utf8Size_le_four _

/-- The same for the bytes of a number. -/
theorem readNumber_within {value : UInt8 → Option Nat} {base k m n size : Nat}
    {enc : Nat → Option GoString} {v r bytes : GoString} (hvalue : value space = none)
    (henc : ∀ {d x}, enc d = some x → x.length ≤ size) (hr : Ends r)
    (h : ((readDigits value base k 0 (v ++ r)).bind enc).map (fun x => (x, m)) = some (bytes, n)) :
    n = m ∧ k ≤ v.length ∧ bytes.length ≤ size := by
  obtain ⟨x, hx, heq⟩ := map_eq_some_iff.mp h
  obtain ⟨rfl, rfl⟩ := Prod.mk.inj heq
  obtain ⟨d, hd, hcode⟩ := bind_eq_some_iff.mp hx
  exact ⟨rfl, readDigits_within hvalue hr hd, henc hcode⟩

/-- An escape does not reach beyond its word and gets shorter. -/
theorem readEscape_within {v r bytes : GoString} {k : Nat} (hr : Ends r)
    (h : readEscape (v ++ r) = some (bytes, k)) : k ≤ v.length ∧ bytes.length ≤ k := by
  cases v with
  | nil =>
    rw [nil_append] at h
    rcases hr with rfl | ⟨s, rfl⟩
    · exact absurd h (by simp [readEscape])
    · exact absurd h (by simp [readEscape, readDigits, show octalValue space = none by decide,
        show letterEscapes.lookup space = none by decide, show space ≠ asciiByte 'x' by decide,
        show space ≠ asciiByte 'u' by decide, show space ≠ asciiByte 'U' by decide])
  | cons b v =>
    rw [cons_append, readEscape] at h
    cases hlookup : letterEscapes.lookup b with
    | some x =>
      rw [hlookup] at h
      obtain ⟨rfl, rfl⟩ := Prod.mk.inj (some.inj h)
      exact ⟨by simp, by simp⟩
    | none =>
      rw [hlookup] at h
      dsimp only at h
      have hhex : value space = none := by decide
      have hoctal : octalValue space = none := by decide
      rw [length_cons]
      split_ifs at h
      · obtain ⟨rfl, hk, hbytes⟩ := readNumber_within hhex length_byteOf hr h
        omega
      · obtain ⟨rfl, hk, hbytes⟩ := readNumber_within hhex length_codePoint hr h
        omega
      · obtain ⟨rfl, hk, hbytes⟩ := readNumber_within hhex length_codePoint hr h
        omega
      · obtain ⟨rfl, hk, hbytes⟩ := readNumber_within (v := b :: v) hoctal length_byteOf hr h
        rw [length_cons] at hk
        omega

/-- What one byte of a word can do. -/
theorem readFrom_cases {q : Option UInt8} {w s : GoString} {b : UInt8} {ws : List GoString}
    (h : readFrom false 0 q (some w) (b :: s) = some ws) :
    (q = some b ∧ readFrom false 0 none (some w) s = some ws) ∨
    (b = backslash ∧ ∃ bytes k, readEscape s = some (bytes, k) ∧
      readFrom false k q (some (w ++ bytes)) s = some ws) ∨
    (q = none ∧ (b = singleQuote ∨ b = doubleQuote) ∧
      readFrom false 0 (some b) (some w) s = some ws) ∨
    (q = none ∧ isBlank b ∧ ∃ rest, ws = w :: rest) ∨
    ((q = none → isBare b) ∧ readFrom false 0 q (some (w ++ [b])) s = some ws) := by
  rw [readFrom] at h
  split_ifs at h with hclose hback hopen hblank
  · exact .inl ⟨hclose, h⟩
  · cases hun : readEscape s with
    | none => simp [unescape, hun] at h
    | some r =>
      simp only [unescape, hun] at h
      exact .inr (.inl ⟨hback, r.1, r.2, rfl, h⟩)
  · exact .inr (.inr (.inl ⟨hopen.1, hopen.2, h⟩))
  · obtain ⟨rest, -, heq⟩ := map_eq_some_iff.mp h
    exact .inr (.inr (.inr (.inl ⟨hblank.1, hblank.2, rest, heq.symm⟩)))
  · refine .inr (.inr (.inr (.inr ⟨fun hq => ?_, h⟩)))
    simp only [hq, true_and, not_or] at hopen hblank
    simp [isBare, hback, hopen.1, hopen.2, hblank]

theorem word_prefix {k : Nat} {q : Option UInt8} {w s : GoString} {ws : List GoString}
    (h : readFrom false k q (some w) s = some ws) : ∃ x rest, ws = x :: rest ∧ w <+: x := by
  induction s generalizing k q w with
  | nil =>
    cases q with
    | none => exact ⟨w, [], (some.inj h).symm, prefix_refl w⟩
    | some c => cases h
  | cons b s ih =>
    cases k with
    | succ k =>
      have hskip : readFrom false k q (some w) s = some ws := by
        cases q <;> exact h
      exact ih hskip
    | zero =>
      obtain ⟨-, hs⟩ | ⟨-, bytes, k, -, hs⟩ | ⟨-, -, hs⟩ | ⟨-, -, rest, rfl⟩ | ⟨-, hs⟩ :=
        readFrom_cases h
      · exact ih hs
      · obtain ⟨x, rest, rfl, hx⟩ := ih hs
        exact ⟨x, rest, rfl, (prefix_append w bytes).trans hx⟩
      · exact ih hs
      · exact ⟨w, rest, rfl, prefix_refl w⟩
      · obtain ⟨x, rest, rfl, hx⟩ := ih hs
        exact ⟨x, rest, rfl, (prefix_append w [b]).trans hx⟩

/-- The word at a point, up to the end `r` of its text: it takes in a blank, or
has at most the bytes that were left. The induction is on the text. -/
theorem length_word_le {v r : GoString} (hr : Ends r) {k : Nat} {q : Option UInt8} {w x : GoString}
    {ws : List GoString} (hk : k ≤ v.length) (hq : q ≠ some space)
    (h : readFrom false k q (some w) (v ++ r) = some (x :: ws)) :
    (∃ b ∈ x, isBlank b) ∨ x.length + k ≤ w.length + v.length := by
  induction v generalizing k q w with
  | nil =>
    obtain rfl : k = 0 := Nat.le_zero.mp hk
    rw [nil_append] at h
    have hword : w = x → x.length + 0 ≤ w.length + 0 := by
      rintro rfl
      exact le_rfl
    rcases hr with rfl | ⟨s, rfl⟩
    · cases q with
      | none => exact .inr (hword (cons.inj (some.inj h)).1)
      | some c => cases h
    obtain ⟨hc, -⟩ | ⟨hback, -⟩ | ⟨-, hopen, -⟩ | ⟨-, -, rest, heq⟩ | ⟨-, hs⟩ := readFrom_cases h
    · exact absurd hc hq
    · exact absurd hback (by decide)
    · exact absurd hopen (by decide)
    · exact .inr (hword (cons.inj heq).1.symm)
    · -- The space is inside quotes.
      obtain ⟨x', rest, heq, hprefix⟩ := word_prefix hs
      obtain ⟨rfl, -⟩ := cons.inj heq
      exact .inl ⟨space, hprefix.subset (by simp), by decide⟩
  | cons b v ih =>
    rw [cons_append] at h
    rw [length_cons] at hk ⊢
    cases k with
    | succ k =>
      have hskip : readFrom false k q (some w) (v ++ r) = some (x :: ws) := by
        cases q <;> exact h
      exact (ih (by omega) hq hskip).imp_right (by omega)
    | zero =>
      obtain ⟨-, hs⟩ | ⟨-, bytes, j, hescape, hs⟩ | ⟨-, hopen, hs⟩ | ⟨-, -, rest, heq⟩ | ⟨-, hs⟩ :=
        readFrom_cases h
      · exact (ih (Nat.zero_le _) (by simp) hs).imp_right (by omega)
      · obtain ⟨hj, hbytes⟩ := readEscape_within hr hescape
        refine (ih hj hq hs).imp_right ?_
        rw [length_append]
        omega
      · have hne : some b ≠ some space := by
          rcases hopen with rfl | rfl <;> decide
        exact (ih (Nat.zero_le _) hne hs).imp_right (by omega)
      · obtain ⟨rfl, -⟩ := cons.inj heq
        exact .inr (by omega)
      · refine (ih (Nat.zero_le _) hq hs).imp_right ?_
        rw [length_append, length_singleton]
        omega

/-- With a single quote or a backslash bytes are lost. -/
theorem length_word_lt {v r : GoString} (hr : Ends r) (hv : Unquoted v)
    (hspecial : singleQuote ∈ v ∨ backslash ∈ v) {w x : GoString} {ws : List GoString}
    (h : readFrom false 0 none (some w) (v ++ r) = some (x :: ws)) :
    (∃ b ∈ x, isBlank b) ∨ x.length < w.length + v.length := by
  induction v generalizing w with
  | nil => exact absurd hspecial (by simp)
  | cons b v ih =>
    obtain ⟨hblank, hdouble⟩ := hv b mem_cons_self
    rw [cons_append] at h
    rw [length_cons]
    obtain ⟨hc, -⟩ | ⟨-, bytes, j, hescape, hs⟩ | ⟨-, hopen, hs⟩ | ⟨-, hb, -⟩ | ⟨hbare, hs⟩ :=
      readFrom_cases h
    · cases hc
    · obtain ⟨hj, hbytes⟩ := readEscape_within hr hescape
      refine (length_word_le hr hj (by simp) hs).imp_right ?_
      rw [length_append]
      omega
    · have hne : some b ≠ some space := by
        rcases hopen with rfl | rfl <;> decide
      exact (length_word_le hr (Nat.zero_le _) hne hs).imp_right (by omega)
    · exact absurd hb hblank
    · -- A byte that is read as such is not special, so there is a special one behind it.
      have hb := hbare rfl
      simp only [isBare, Bool.and_eq_true, decide_eq_true_eq] at hb
      have hrest : singleQuote ∈ v ∨ backslash ∈ v :=
        hspecial.imp (fun hmem => (mem_cons.mp hmem).resolve_left (Ne.symm hb.1.2))
          fun hmem => (mem_cons.mp hmem).resolve_left (Ne.symm hb.1.1.2)
      refine (ih (fun y hy => hv y (mem_cons_of_mem _ hy)) hrest hs).imp_right ?_
      rw [length_append, length_singleton]
      omega

theorem readFrom_start {keep : Bool} {b : UInt8} {s : GoString} (h : ¬ isBlank b) :
    readFrom keep 0 none none (b :: s) = readFrom keep 0 none (some []) (b :: s) := by
  simp [readFrom, h]

/-- Such a text is not the first word that is read from it. -/
theorem ne_of_special {v r : GoString} (hr : Ends r) (hv : Unquoted v)
    (hspecial : singleQuote ∈ v ∨ backslash ∈ v) (ws : List GoString) :
    readFrom false 0 none none (v ++ r) ≠ some (v :: ws) := by
  intro h
  have hstart : readFrom false 0 none none (v ++ r) = readFrom false 0 none (some []) (v ++ r) := by
    cases v with
    | nil => exact absurd hspecial (by simp)
    | cons b v => exact readFrom_start (hv b mem_cons_self).1
  rw [hstart] at h
  obtain ⟨b, hb, hblank⟩ | hlt := length_word_lt hr hv hspecial h
  · exact (hv b hb).1 hblank
  · rw [length_nil, Nat.zero_add] at hlt
    exact Nat.lt_irrefl _ hlt

/-! ## Lines -/

theorem words_cons {keep : Bool} {t v : GoString} (h : ReadsAs keep t v) (s : GoString) :
    words keep (t ++ space :: s) = (words keep s).map (v :: ·) := by
  show readFrom keep 0 none none (t ++ space :: s) = _
  rw [h, readFrom_blank (by decide)]
  rfl

theorem words_last {keep : Bool} {t v : GoString} (h : ReadsAs keep t v) :
    words keep t = some [v] := by
  have hread := h []
  rwa [append_nil] at hread

/-- The texts of words, with spaces between them. -/
theorem words_intercalate {keep : Bool} (ps : List (GoString × GoString)) (hne : ps ≠ [])
    (h : ∀ p ∈ ps, ReadsAs keep p.1 p.2) :
    words keep ([space].intercalate (ps.map Prod.fst)) = some (ps.map Prod.snd) := by
  induction ps with
  | nil => exact absurd rfl hne
  | cons p ps ih =>
    have hp := h p mem_cons_self
    by_cases hlast : ps = []
    · subst hlast
      rw [map_singleton, intercalate_singleton]
      exact words_last hp
    · rw [map_cons, intercalate_cons (by simpa using hlast), words_cons hp,
        ih hlast fun x hx => h x (mem_cons_of_mem _ hx)]
      rfl

/-- The other direction: if each text is either read back or is the word
itself, without blanks and double quotes, and the words are read, then no
word that stands as it is has a single quote or a backslash. The words in
front of the first such word are read back, so that word would be read
next. -/
theorem bare_of_words {ps : List (GoString × GoString)}
    (hps : ∀ p ∈ ps, ReadsAs false p.1 p.2 ∨ p.1 = p.2 ∧ p.2 ≠ [] ∧ Unquoted p.2)
    (h : words false ([space].intercalate (ps.map Prod.fst)) = some (ps.map Prod.snd)) :
    ∀ p ∈ ps, p.1 = p.2 → Unquoted p.2 → singleQuote ∉ p.2 ∧ backslash ∉ p.2 := by
  induction ps with
  | nil => simp
  | cons p ps ih =>
    -- The text behind the first word, with the space.
    obtain ⟨r, hr, htext⟩ : ∃ r, Ends r ∧
        [space].intercalate ((p :: ps).map Prod.fst) = p.1 ++ r := by
      by_cases hlast : ps = []
      · subst hlast
        exact ⟨[], .inl rfl, by simp⟩
      · exact ⟨_, .inr ⟨_, rfl⟩, intercalate_cons (by simpa using hlast)⟩
    have hfirst : p.1 = p.2 → Unquoted p.2 → singleQuote ∉ p.2 ∧ backslash ∉ p.2 := by
      intro hsame hun
      rw [← not_or]
      intro hspecial
      rw [htext, hsame] at h
      exact ne_of_special hr hun hspecial _ h
    have hread : ReadsAs false p.1 p.2 := by
      rcases hps p mem_cons_self with hread | ⟨hsame, hne, hun⟩
      · exact hread
      · obtain ⟨hsingle, hback⟩ := hfirst hsame hun
        rw [hsame]
        exact readsAs_unquoted hne hun hsingle hback
    intro x hx
    rcases mem_cons.mp hx with rfl | hx
    · exact hfirst
    · have hlast : ps ≠ [] := ne_nil_of_mem hx
      rw [map_cons, intercalate_cons (by simpa using hlast), words_cons hread] at h
      obtain ⟨rest, hrest, heq⟩ := map_eq_some_iff.mp h
      rw [map_cons, cons.injEq] at heq
      refine ih (fun y hy => hps y (mem_cons_of_mem _ hy)) ?_ x hx
      rw [hrest, heq.2]

end UnitWords
