import Otedama.Framework.Utf8

/-! # Case mapping of Go strings

`strings.ToLower` and `strings.ToUpper` map a string rune by rune with the
Unicode simple case mapping. The mapping itself is a parameter; what is
used of it is how it treats ASCII, and which other runes it maps to ASCII.

ASCII is not closed under it: the KELVIN SIGN is its own upper case, and
its lower case is the letter `k`. So a string that equals its upper case
and whose lower case is ASCII need not be ASCII itself. -/

namespace GoString

open List Char

/-- U+212A KELVIN SIGN. -/
def kelvinSign : Char := Char.ofNat 0x212A

/-- U+0130 LATIN CAPITAL LETTER I WITH DOT ABOVE. -/
def dottedI : Char := Char.ofNat 0x0130

/-- A simple case mapping. -/
structure CaseMapping where
  lower : Char → Char
  upper : Char → Char
  lower_ascii : ∀ c, c.toNat < 128 → lower c = c.toLower
  upper_ascii : ∀ c, c.toNat < 128 → upper c = c.toUpper
  lower_kelvinSign : lower kelvinSign = 'k'
  upper_kelvinSign : upper kelvinSign = kelvinSign
  lower_dottedI : lower dottedI = 'i'
  /-- No other rune has an ASCII lower case. -/
  lower_other : ∀ c, 128 ≤ c.toNat → c ≠ kelvinSign → c ≠ dottedI → 128 ≤ (lower c).toNat

/-- A fact about all ASCII runes is a check of 128 cases. -/
theorem forall_ascii {P : Char → Prop} (h : ∀ n, n < 128 → P (ofNat n)) {c : Char}
    (hc : c.toNat < 128) : P c := by
  have hp := h c.toNat hc
  rwa [ofNat_toNat] at hp

theorem toNat_toUpper_lt {c : Char} (h : c.toNat < 128) : c.toUpper.toNat < 128 := by
  revert h
  exact fun h => forall_ascii (P := fun c => c.toUpper.toNat < 128) (by decide) h

theorem toLower_eq_self {c : Char} (h : 128 ≤ c.toNat) : c.toLower = c := by
  unfold toLower
  rw [dif_neg]
  rintro ⟨-, hle⟩
  have hval : c.val.toNat ≤ 90 := UInt32.le_iff_toNat_le.mp hle
  have hnat : c.toNat = c.val.toNat := rfl
  omega

/-- The part of the Unicode mapping that reaches ASCII. -/
def CaseMapping.ascii : CaseMapping where
  lower := lowerRune
  upper := Char.toUpper
  lower_ascii c hc := by
    have hk : c ≠ Char.ofNat 0x212A := by
      rintro rfl
      exact absurd hc (by decide)
    have hi : c ≠ Char.ofNat 0x0130 := by
      rintro rfl
      exact absurd hc (by decide)
    rw [lowerRune, if_neg hk, if_neg hi]
  upper_ascii c _ := rfl
  lower_kelvinSign := by decide
  upper_kelvinSign := by decide
  lower_dottedI := by decide
  lower_other c hc hk hi := by
    have hk' : c ≠ Char.ofNat 0x212A := hk
    have hi' : c ≠ Char.ofNat 0x0130 := hi
    rw [lowerRune, if_neg hk', if_neg hi', toLower_eq_self hc]
    exact hc

variable (m : CaseMapping)

/-- `strings.ToLower`. -/
def CaseMapping.toLower (s : GoString) : GoString := encodeRunes ((runes s).map m.lower)

/-- `strings.ToUpper`. -/
def CaseMapping.toUpper (s : GoString) : GoString := encodeRunes ((runes s).map m.upper)

/-! ## Text -/

/-- The bytes of a text of ASCII characters. -/
def text (cs : List Char) : GoString := cs.map asciiByte

/-- Lower-case ASCII without the letter `i`. -/
def LowerText (cs : List Char) : Prop := ∀ c ∈ cs, c.toNat < 128 ∧ c.toLower = c ∧ c ≠ 'i'

theorem encodeRunes_eq_text {rs cs : List Char} (hcs : ∀ c ∈ cs, c.toNat < 128) :
    encodeRunes rs = text cs ↔ rs = cs := by
  constructor
  · intro h
    have hrs : ∀ r ∈ rs, r.toNat < 128 := by
      apply ascii_of_encodeRunes
      rw [h]
      intro b hb
      obtain ⟨c, hc, rfl⟩ := mem_map.mp hb
      rw [toNat_asciiByte (hcs c hc)]
      exact hcs c hc
    rw [encodeRunes_ascii hrs] at h
    rw [← runes_map_asciiByte hrs, h, text, runes_map_asciiByte hcs]
  · rintro rfl
    exact encodeRunes_ascii hcs

theorem runes_text {cs : List Char} (hcs : ∀ c ∈ cs, c.toNat < 128) : runes (text cs) = cs :=
  runes_map_asciiByte hcs

theorem toLower_eq_text {s : GoString} {cs : List Char} (hcs : ∀ c ∈ cs, c.toNat < 128) :
    m.toLower s = text cs ↔ (runes s).map m.lower = cs :=
  encodeRunes_eq_text hcs

theorem toLower_text {cs : List Char} (hcs : LowerText cs) : m.toLower (text cs) = text cs := by
  have hascii : ∀ c ∈ cs, c.toNat < 128 := fun c hc => (hcs c hc).1
  rw [toLower_eq_text m hascii, runes_text hascii]
  conv_rhs => rw [← map_id cs]
  apply map_congr_left
  intro c hc
  rw [m.lower_ascii c (hascii c hc)]
  exact (hcs c hc).2.1

/-! ## Upper case -/

/-- Replace the KELVIN SIGN by the letter it looks like. -/
def kelvinToK (s : GoString) : GoString :=
  encodeRunes ((runes s).map fun c => if c = kelvinSign then 'K' else c)

theorem readsBack_kelvinSign : ReadsBack kelvinSign := by
  intro t
  have henc : String.utf8EncodeChar kelvinSign = [0xE2, 0x84, 0xAA] := by decide
  have hdec : decodeRune 0xE2 (0x84 :: 0xAA :: t) = (kelvinSign, 2) := by
    simp [decodeRune, isCont, contBits, kelvinSign]
  rw [henc]
  show (decodeRune 0xE2 (0x84 :: 0xAA :: t)).1 ::
    runesFrom (decodeRune 0xE2 (0x84 :: 0xAA :: t)).2 (0x84 :: 0xAA :: t) = _
  rw [hdec]
  rfl

/-- What the two mappings do to ASCII. -/
theorem toLower_toUpper_ascii {c : Char} (h : c.toNat < 128) :
    c.toLower.toUpper = c.toUpper ∧ c.toUpper.toUpper = c.toUpper ∧
      (c.toLower = c → c.toUpper.toLower = c) ∧ (c.toLower = c → c.toUpper = 'K' → c = 'k') :=
  forall_ascii (P := fun c => c.toLower.toUpper = c.toUpper ∧ c.toUpper.toUpper = c.toUpper ∧
    (c.toLower = c → c.toUpper.toLower = c) ∧ (c.toLower = c → c.toUpper = 'K' → c = 'k'))
    (by decide) h

/-- A rune is the upper case of a letter, up to the KELVIN SIGN, exactly if it
is its own upper case and has the letter as its lower case. -/
theorem lower_upper_iff {r c : Char} (hc : c.toNat < 128 ∧ c.toLower = c ∧ c ≠ 'i') :
    (m.lower r = c ∧ m.upper r = r) ↔ (if r = kelvinSign then 'K' else r) = c.toUpper := by
  obtain ⟨hascii, hlow, hi⟩ := hc
  obtain ⟨-, hup, hback, hK⟩ := toLower_toUpper_ascii hascii
  by_cases hk : r = kelvinSign
  · subst hk
    rw [m.lower_kelvinSign, m.upper_kelvinSign, if_pos rfl]
    constructor
    · rintro ⟨rfl, -⟩
      rfl
    · intro h
      exact ⟨(hK hlow h.symm).symm, rfl⟩
  rw [if_neg hk]
  constructor
  · rintro ⟨hlower, hupper⟩
    by_cases hr : r.toNat < 128
    · rw [m.lower_ascii r hr] at hlower
      rw [m.upper_ascii r hr] at hupper
      rw [← hlower, (toLower_toUpper_ascii hr).1, hupper]
    · -- Only `i` has another rune as its upper case, and it is excluded.
      by_cases hdot : r = dottedI
      · rw [hdot, m.lower_dottedI] at hlower
        exact absurd hlower.symm hi
      · have hother := m.lower_other r (Nat.not_lt.mp hr) hk hdot
        rw [hlower] at hother
        omega
  · rintro rfl
    have hr := toNat_toUpper_lt hascii
    rw [m.lower_ascii _ hr, m.upper_ascii _ hr]
    exact ⟨hback hlow, hup⟩

theorem map_lower_upper_iff {rs cs : List Char} (hcs : LowerText cs) :
    (rs.map m.lower = cs ∧ ∀ r ∈ rs, m.upper r = r) ↔
      (rs.map fun c => if c = kelvinSign then 'K' else c) = cs.map toUpper := by
  induction rs generalizing cs with
  | nil =>
    cases cs with
    | nil => simp
    | cons c cs => simp
  | cons r rs ih =>
    cases cs with
    | nil => simp
    | cons c cs =>
      have hhead := lower_upper_iff m (r := r) (hcs c mem_cons_self)
      have htail := ih fun x hx => hcs x (mem_cons_of_mem _ hx)
      rw [map_cons, map_cons, map_cons, cons.injEq, cons.injEq, ← hhead, ← htail]
      simp only [mem_cons, forall_eq_or_imp]
      tauto

/-- The runes of a string with an ASCII lower case without `i`. -/
theorem ascii_or_kelvinSign {rs cs : List Char} (hcs : LowerText cs) (h : rs.map m.lower = cs) :
    ∀ r ∈ rs, r.toNat < 128 ∨ r = kelvinSign := by
  intro r hr
  by_contra hne
  rw [not_or] at hne
  have hmem : m.lower r ∈ cs := h ▸ mem_map_of_mem hr
  obtain ⟨hascii, -, hi⟩ := hcs _ hmem
  by_cases hdot : r = dottedI
  · rw [hdot, m.lower_dottedI] at hi
    exact hi rfl
  · have hother := m.lower_other r (Nat.not_lt.mp hne.1) hne.2 hdot
    omega

theorem eq_toUpper_iff {s : GoString} (h : ∀ r ∈ runes s, r.toNat < 128 ∨ r = kelvinSign) :
    s = m.toUpper s ↔ ∀ r ∈ runes s, m.upper r = r := by
  have hreads : ∀ c ∈ (runes s).map m.upper, ReadsBack c := by
    intro c hc
    obtain ⟨r, hr, rfl⟩ := mem_map.mp hc
    obtain hascii | rfl := h r hr
    · rw [m.upper_ascii r hascii]
      exact readsBack_ascii (toNat_toUpper_lt hascii)
    · rw [m.upper_kelvinSign]
      exact readsBack_kelvinSign
  have herr : runeError ∉ runes s := by
    intro hmem
    obtain hascii | hk := h _ hmem
    · exact runeError_not_ascii hascii
    · exact absurd hk (by decide)
  have hmap : (∀ r ∈ runes s, m.upper r = r) ↔ (runes s).map m.upper = runes s := by
    conv_rhs => rw [← map_id (runes s), map_map]
    exact map_inj_left.symm
  rw [hmap]
  unfold CaseMapping.toUpper
  constructor
  · intro heq
    have hruns := congrArg runes heq
    rw [runes_encodeRunes hreads] at hruns
    exact hruns.symm
  · intro heq
    rw [heq, encodeRunes_runes herr]

/-- A string with the lower case `text cs` that is its own lower or upper
case is that text, or its upper case up to the KELVIN SIGN. -/
theorem single_case_iff {s : GoString} {cs : List Char} (hcs : LowerText cs) :
    (m.toLower s = text cs ∧ (s = m.toLower s ∨ s = m.toUpper s)) ↔
      s = text cs ∨ kelvinToK s = text (cs.map toUpper) := by
  have hascii : ∀ c ∈ cs, c.toNat < 128 := fun c hc => (hcs c hc).1
  have hupper : ∀ c ∈ cs.map toUpper, c.toNat < 128 := by
    intro c hc
    obtain ⟨d, hd, rfl⟩ := mem_map.mp hc
    exact toNat_toUpper_lt (hascii d hd)
  have hkelvin : kelvinToK s = text (cs.map toUpper) ↔ m.toLower s = text cs ∧ s = m.toUpper s := by
    unfold kelvinToK
    rw [encodeRunes_eq_text hupper, ← map_lower_upper_iff m hcs, toLower_eq_text m hascii]
    constructor
    · rintro ⟨hlow, hup⟩
      exact ⟨hlow, (eq_toUpper_iff m (ascii_or_kelvinSign m hcs hlow)).mpr hup⟩
    · rintro ⟨hlow, hup⟩
      exact ⟨hlow, (eq_toUpper_iff m (ascii_or_kelvinSign m hcs hlow)).mp hup⟩
  rw [hkelvin]
  constructor
  · rintro ⟨hlow, heq | heq⟩
    · exact .inl (heq.trans hlow)
    · exact .inr ⟨hlow, heq⟩
  · rintro (rfl | ⟨hlow, heq⟩)
    · exact ⟨toLower_text m hcs, .inl (toLower_text m hcs).symm⟩
    · exact ⟨hlow, .inr heq⟩

end GoString
