import Mathlib.Data.List.Infix

/-! # Go strings and their runes

A Go string is a sequence of bytes, usually but not necessarily UTF-8.
Ranging over it yields runes; a byte that starts no valid encoding
yields `U+FFFD` and is skipped alone. -/

/-- A Go string. -/
abbrev GoString := List UInt8

namespace GoString

open List UInt8

/-- The rune that stands for an undecodable byte. -/
def runeError : Char := Char.ofNat 0xFFFD

/-- Is `b` in the range of continuation bytes? -/
def isCont (b : UInt8) : Bool := 0x80 ≤ b && b ≤ 0xBF

/-- The payload bits of a continuation byte. -/
def contBits (b : UInt8) : Nat := b.toNat % 64

/-- The rune at the head of a non-empty string whose first byte is `b`, with
the number of bytes after `b` that belong to it. The bounds on the
second byte exclude overlong forms and surrogates. -/
def decodeRune (b : UInt8) (rest : List UInt8) : Char × Nat :=
  if b < 0x80 then (Char.ofNat b.toNat, 0)
  else if 0xC2 ≤ b && b ≤ 0xDF then
    match rest with
    | c :: _ =>
      if isCont c then (Char.ofNat (b.toNat % 32 * 64 + contBits c), 1) else (runeError, 0)
    | _ => (runeError, 0)
  else if 0xE0 ≤ b && b ≤ 0xEF then
    match rest with
    | c :: d :: _ =>
      let lo : UInt8 := if b = 0xE0 then 0xA0 else 0x80
      let hi : UInt8 := if b = 0xED then 0x9F else 0xBF
      if lo ≤ c && c ≤ hi && isCont d then
        (Char.ofNat (b.toNat % 16 * 4096 + contBits c * 64 + contBits d), 2)
      else (runeError, 0)
    | _ => (runeError, 0)
  else if 0xF0 ≤ b && b ≤ 0xF4 then
    match rest with
    | c :: d :: e :: _ =>
      let lo : UInt8 := if b = 0xF0 then 0x90 else 0x80
      let hi : UInt8 := if b = 0xF4 then 0x8F else 0xBF
      if lo ≤ c && c ≤ hi && isCont d && isCont e then
        (Char.ofNat (b.toNat % 8 * 262144 + contBits c * 4096 + contBits d * 64 + contBits e), 3)
      else (runeError, 0)
    | _ => (runeError, 0)
  else (runeError, 0)

/-- Runes of a string, where the first `skip` bytes belong to a rune that
has already been produced. -/
def runesFrom : Nat → GoString → List Char
  | _, [] => []
  | skip + 1, _ :: rest => runesFrom skip rest
  | 0, b :: rest => (decodeRune b rest).1 :: runesFrom (decodeRune b rest).2 rest

/-- The runes of a string. -/
def runes (s : GoString) : List Char := runesFrom 0 s

/-- Lower-casing as far as ASCII text can tell: the ASCII letters, and the
two other runes whose lower case is an ASCII letter. Every other rune
is mapped by Go to a rune that is not ASCII. -/
def lowerRune (c : Char) : Char :=
  if c = Char.ofNat 0x212A then 'k'
  else if c = Char.ofNat 0x0130 then 'i'
  else c.toLower

/-! ## Encoding -/

/-- The string with these runes. -/
def encodeRunes (cs : List Char) : GoString := cs.flatMap String.utf8EncodeChar

@[simp] theorem encodeRunes_cons (c : Char) (cs : List Char) :
    encodeRunes (c :: cs) = String.utf8EncodeChar c ++ encodeRunes cs := rfl

theorem toNat_charOfNat {n : Nat} (h : n.isValidChar) : (Char.ofNat n).toNat = n := by
  have hof : Char.ofNat n = Char.ofNatAux n h := dif_pos h
  rw [hof]
  rfl

theorem ofNat_of_toNat {b : UInt8} {n : Nat} (h : b.toNat = n) : UInt8.ofNat n = b := by
  rw [← h, UInt8.ofNat_toNat]

theorem toNat_ite_eq (b k x y : UInt8) :
    (if b = k then x else y).toNat = if b.toNat = k.toNat then x.toNat else y.toNat := by
  by_cases h : b = k
  · rw [if_pos h, if_pos (congrArg UInt8.toNat h)]
  · rw [if_neg h, if_neg (mt UInt8.toNat_inj.mp h)]

/-- The encoding by the number of bytes. -/
theorem utf8EncodeChar_ofNat {v : Nat} (h : v.isValidChar) : String.utf8EncodeChar (Char.ofNat v) =
      if v ≤ 127 then [UInt8.ofNat v]
      else if v ≤ 2047 then [UInt8.ofNat (v / 64 % 32 + 192), UInt8.ofNat (v % 64 + 128)]
      else if v ≤ 65535 then [UInt8.ofNat (v / 4096 % 16 + 224), UInt8.ofNat (v / 64 % 64 + 128),
          UInt8.ofNat (v % 64 + 128)] else
        [UInt8.ofNat (v / 262144 % 8 + 240), UInt8.ofNat (v / 4096 % 64 + 128),
          UInt8.ofNat (v / 64 % 64 + 128), UInt8.ofNat (v % 64 + 128)] := by
  have hval : (Char.ofNat v).val.toNat = v := toNat_charOfNat h
  simp only [String.utf8EncodeChar, hval]

/-- Decoding fails on a single byte, or takes off the encoding of a rune. -/
theorem decodeRune_spec (b : UInt8) (rest : List UInt8) : decodeRune b rest = (runeError, 0) ∨
      ∃ c t, decodeRune b rest = (c, (String.utf8EncodeChar c).length - 1) ∧
        b :: rest = String.utf8EncodeChar c ++ t := by
  have hb := b.toNat_lt
  fun_cases decodeRune b rest with
  | case1 rest h =>
    have hlt : b.toNat < 128 := lt_iff_toNat_lt.mp h
    have henc : String.utf8EncodeChar (Char.ofNat b.toNat) = [b] := by
      rw [utf8EncodeChar_ofNat (.inl (by omega)), if_pos (by omega), UInt8.ofNat_toNat]
    exact .inr ⟨_, rest, by rw [henc]; rfl, by rw [henc]; rfl⟩
  | case2 h1 h2 c tail h3 =>
    simp only [isCont, Bool.and_eq_true, decide_eq_true_eq, le_iff_toNat_le, reduceToNat] at h2 h3
    obtain ⟨v, hv⟩ : ∃ v, v = b.toNat % 32 * 64 + contBits c := ⟨_, rfl⟩
    have henc : String.utf8EncodeChar (Char.ofNat v) = [b, c] := by
      unfold contBits at hv
      have hfst : b.toNat = v / 64 % 32 + 192 := by omega
      have hsnd : c.toNat = v % 64 + 128 := by omega
      rw [utf8EncodeChar_ofNat (.inl (by omega)), if_neg (by omega), if_pos (by omega),
        ofNat_of_toNat hfst, ofNat_of_toNat hsnd]
    exact .inr ⟨Char.ofNat v, tail, by rw [henc, hv]; rfl, by rw [henc]; rfl⟩
  | case3 => exact .inl rfl
  | case4 => exact .inl rfl
  | case5 h1 h2 h3 c d tail lo hi h4 =>
    simp only [isCont, Bool.and_eq_true, decide_eq_true_eq, le_iff_toNat_le, reduceToNat] at h3 h4
    have hlo : lo.toNat = if b.toNat = 224 then 160 else 128 := toNat_ite_eq b 224 160 128
    have hhi : hi.toNat = if b.toNat = 237 then 159 else 191 := toNat_ite_eq b 237 159 191
    obtain ⟨v, hv⟩ : ∃ v, v = b.toNat % 16 * 4096 + contBits c * 64 + contBits d := ⟨_, rfl⟩
    have henc : String.utf8EncodeChar (Char.ofNat v) = [b, c, d] := by
      unfold contBits at hv
      have hcont : 128 ≤ c.toNat ∧ c.toNat ≤ 191 := by
        split_ifs at hlo hhi <;> omega
      have hrange : 2047 < v ∧ (v < 0xd800 ∨ 0xdfff < v) := by
        split_ifs at hlo hhi <;> omega
      have hvalid : v.isValidChar := by
        unfold Nat.isValidChar
        omega
      have hfst : b.toNat = v / 4096 % 16 + 224 := by omega
      have hsnd : c.toNat = v / 64 % 64 + 128 := by omega
      have hthd : d.toNat = v % 64 + 128 := by omega
      rw [utf8EncodeChar_ofNat hvalid, if_neg (by omega), if_neg (by omega), if_pos (by omega),
        ofNat_of_toNat hfst, ofNat_of_toNat hsnd, ofNat_of_toNat hthd]
    exact .inr ⟨Char.ofNat v, tail, by rw [henc, hv]; rfl, by rw [henc]; rfl⟩
  | case6 => exact .inl rfl
  | case7 => exact .inl rfl
  | case8 h1 h2 h3 h4 c d e tail lo hi h5 =>
    simp only [isCont, Bool.and_eq_true, decide_eq_true_eq, le_iff_toNat_le, reduceToNat] at h4 h5
    have hlo : lo.toNat = if b.toNat = 240 then 144 else 128 := toNat_ite_eq b 240 144 128
    have hhi : hi.toNat = if b.toNat = 244 then 143 else 191 := toNat_ite_eq b 244 143 191
    obtain ⟨v, hv⟩ : ∃ v, v = b.toNat % 8 * 262144 + contBits c * 4096 + contBits d * 64 +
      contBits e := ⟨_, rfl⟩
    have henc : String.utf8EncodeChar (Char.ofNat v) = [b, c, d, e] := by
      unfold contBits at hv
      have hcont : 128 ≤ c.toNat ∧ c.toNat ≤ 191 := by
        split_ifs at hlo hhi <;> omega
      have hrange : 65535 < v ∧ v < 0x110000 := by
        split_ifs at hlo hhi <;> omega
      have hfst : b.toNat = v / 262144 % 8 + 240 := by omega
      have hsnd : c.toNat = v / 4096 % 64 + 128 := by omega
      have hthd : d.toNat = v / 64 % 64 + 128 := by omega
      have hfth : e.toNat = v % 64 + 128 := by omega
      rw [utf8EncodeChar_ofNat (.inr (by omega)), if_neg (by omega), if_neg (by omega),
        if_neg (by omega), ofNat_of_toNat hfst, ofNat_of_toNat hsnd, ofNat_of_toNat hthd,
        ofNat_of_toNat hfth]
    exact .inr ⟨Char.ofNat v, tail, by rw [henc, hv]; rfl, by rw [henc]; rfl⟩
  | case9 => exact .inl rfl
  | case10 => exact .inl rfl
  | case11 => exact .inl rfl

theorem runesFrom_append {k : Nat} {xs : List UInt8} (h : xs.length = k) (t : List UInt8) :
    runesFrom k (xs ++ t) = runes t := by
  induction xs generalizing k with
  | nil =>
    subst h
    rfl
  | cons x xs ih =>
    subst h
    exact ih rfl

/-- The first rune of a string. -/
theorem runes_cons_cases (b : UInt8) (rest : List UInt8) :
    runes (b :: rest) = runeError :: runes rest ∨
      ∃ c t, runes (b :: rest) = c :: runes t ∧ b :: rest = String.utf8EncodeChar c ++ t := by
  have hruns : runes (b :: rest) = (decodeRune b rest).1 :: runesFrom (decodeRune b rest).2 rest :=
    rfl
  obtain herr | ⟨c, t, hdec, hsplit⟩ := decodeRune_spec b rest
  · rw [herr] at hruns
    exact .inl hruns
  · refine .inr ⟨c, t, ?_, hsplit⟩
    rw [hruns, hdec]
    cases henc : String.utf8EncodeChar c with
    | nil => exact absurd henc String.utf8EncodeChar_ne_nil
    | cons x xs =>
      rw [henc, cons_append, cons.injEq] at hsplit
      rw [hsplit.2, length_cons, Nat.add_sub_cancel, runesFrom_append rfl]

/-- A string without undecodable bytes is the string of its runes. The
induction is on the length, since a rune takes several bytes off. -/
theorem encodeRunes_runes {s : GoString} (h : runeError ∉ runes s) : encodeRunes (runes s) = s := by
  induction hlen : s.length using Nat.strong_induction_on generalizing s with
  | h n ih =>
    cases s with
    | nil => rfl
    | cons b rest =>
      obtain herr | ⟨c, t, hruns, hsplit⟩ := runes_cons_cases b rest
      · rw [herr] at h
        exact absurd mem_cons_self h
      · rw [hruns] at h ⊢
        have hshort : t.length < n := by
          have hpos := length_pos_iff.mpr (String.utf8EncodeChar_ne_nil (c := c))
          rw [hsplit, length_append] at hlen
          omega
        rw [encodeRunes_cons, hsplit,
          ih t.length hshort (fun hmem => h (mem_cons_of_mem _ hmem)) rfl]

/-- The rune is read back from its encoding. -/
def ReadsBack (c : Char) : Prop := ∀ t, runes (String.utf8EncodeChar c ++ t) = c :: runes t

theorem runes_encodeRunes {cs : List Char} (h : ∀ c ∈ cs, ReadsBack c) :
    runes (encodeRunes cs) = cs := by
  induction cs with
  | nil => rfl
  | cons c cs ih =>
    rw [encodeRunes_cons, h c mem_cons_self, ih fun x hx => h x (mem_cons_of_mem _ hx)]

/-! ## ASCII -/

/-- The byte of an ASCII rune. -/
def asciiByte (c : Char) : UInt8 := UInt8.ofNat c.toNat

theorem toNat_asciiByte {c : Char} (h : c.toNat < 128) : (asciiByte c).toNat = c.toNat := by
  rw [asciiByte, toNat_ofNat']
  omega

theorem utf8EncodeChar_ascii {c : Char} (h : c.toNat < 128) :
    String.utf8EncodeChar c = [asciiByte c] := by
  have henc := utf8EncodeChar_ofNat (v := c.toNat) (.inl (by omega))
  rwa [Char.ofNat_toNat, if_pos (by omega)] at henc

theorem readsBack_ascii {c : Char} (h : c.toNat < 128) : ReadsBack c := by
  intro t
  have hlt : asciiByte c < 0x80 := by
    rw [lt_iff_toNat_lt, toNat_asciiByte h]
    exact h
  have hdec : decodeRune (asciiByte c) t = (c, 0) := by
    rw [decodeRune.eq_def, if_pos hlt, toNat_asciiByte h, Char.ofNat_toNat]
  rw [utf8EncodeChar_ascii h]
  show (decodeRune (asciiByte c) t).1 :: runesFrom (decodeRune (asciiByte c) t).2 t = _
  rw [hdec]
  rfl

/-- The bytes of any other rune are not ASCII. -/
theorem not_ascii_of_mem {c : Char} (h : 128 ≤ c.toNat) :
    ∀ b ∈ String.utf8EncodeChar c, 128 ≤ b.toNat := by
  have henc := utf8EncodeChar_ofNat (v := c.toNat) c.valid
  rw [Char.ofNat_toNat, if_neg (by omega)] at henc
  rw [henc]
  intro b hb
  split_ifs at hb <;>
    simp only [mem_cons, not_mem_nil, or_false] at hb <;>
    rcases hb with rfl | rfl | rfl | rfl <;> rw [toNat_ofNat'] <;> omega

theorem encodeRunes_ascii {cs : List Char} (h : ∀ c ∈ cs, c.toNat < 128) :
    encodeRunes cs = cs.map asciiByte := by
  induction cs with
  | nil => rfl
  | cons c cs ih =>
    rw [encodeRunes_cons, utf8EncodeChar_ascii (h c mem_cons_self),
      ih fun x hx => h x (mem_cons_of_mem _ hx)]
    rfl

theorem ascii_of_encodeRunes {cs : List Char} (h : ∀ b ∈ encodeRunes cs, b.toNat < 128) :
    ∀ c ∈ cs, c.toNat < 128 := by
  intro c hc
  by_contra hlt
  obtain ⟨b, hb⟩ := exists_mem_of_ne_nil _ (String.utf8EncodeChar_ne_nil (c := c))
  have hge := not_ascii_of_mem (Nat.not_lt.mp hlt) b hb
  have hbyte := h b (mem_flatMap.mpr ⟨c, hc, hb⟩)
  omega

theorem runeError_not_ascii : ¬ runeError.toNat < 128 := by
  decide

/-- ASCII runes come from ASCII bytes. -/
theorem eq_map_of_runes_ascii {s : GoString} (h : ∀ c ∈ runes s, c.toNat < 128) :
    s = (runes s).map asciiByte := by
  have herr : runeError ∉ runes s := fun hmem => runeError_not_ascii (h _ hmem)
  rw [← encodeRunes_ascii h, encodeRunes_runes herr]

theorem runes_map_asciiByte {cs : List Char} (h : ∀ c ∈ cs, c.toNat < 128) :
    runes (cs.map asciiByte) = cs := by
  rw [← encodeRunes_ascii h, runes_encodeRunes fun c hc => readsBack_ascii (h c hc)]

/-- An ASCII byte is part of no longer encoding. -/
theorem mem_runes_of_ascii {s : GoString} {b : UInt8} (h : b ∈ s) (hb : b.toNat < 128) :
    Char.ofNat b.toNat ∈ runes s := by
  induction hlen : s.length using Nat.strong_induction_on generalizing s with
  | h n ih =>
    cases s with
    | nil => exact absurd h not_mem_nil
    | cons x rest =>
      by_cases hx : x = b
      · have hdec : decodeRune x rest = (Char.ofNat x.toNat, 0) := by
          rw [decodeRune.eq_def, if_pos (lt_iff_toNat_lt.mpr (hx ▸ hb))]
        show Char.ofNat b.toNat ∈ (decodeRune x rest).1 :: _
        rw [hdec, hx]
        exact mem_cons_self
      have hrest : b ∈ rest := (mem_cons.mp h).resolve_left (Ne.symm hx)
      obtain herr | ⟨c, t, hruns, hsplit⟩ := runes_cons_cases x rest
      · rw [herr]
        exact mem_cons_of_mem _ (ih rest.length (by rw [← hlen]; simp) hrest rfl)
      · -- The rune's own bytes are either one ASCII byte or none.
        have hmem : b ∈ t := by
          rw [hsplit, mem_append] at h
          by_cases hc : c.toNat < 128
          · rw [utf8EncodeChar_ascii hc] at h hsplit
            rw [singleton_append, cons.injEq] at hsplit
            exact h.resolve_left fun hmem => hx (hsplit.1.trans (mem_singleton.mp hmem).symm)
          · refine h.resolve_left fun hmem => ?_
            have := not_ascii_of_mem (Nat.not_lt.mp hc) b hmem
            omega
        have hshort : t.length < n := by
          have hpos := length_pos_iff.mpr (String.utf8EncodeChar_ne_nil (c := c))
          rw [hsplit, length_append] at hlen
          omega
        rw [hruns]
        exact mem_cons_of_mem _ (ih t.length hshort hmem rfl)

/-- `utf8.ValidString`: an undecodable byte does not come back when the runes
are encoded again, since it is read as U+FFFD. -/
def validString (s : GoString) : Bool := encodeRunes (runes s) = s

end GoString
