import Otedama.Framework.BitString
import Otedama.Framework.CaseMapping
import Otedama.Framework.GoMap
import Otedama.Framework.Hex
import Otedama.Framework.Reader

/-! # Mnemonics

How the entropy of a wallet is written down as words, and read back.
The entropy and, behind it, the first bits of its hash are one string of
bits; each group of eleven bits of it is the index of a word.

SHA-256 is a parameter. A bit is a `Bool`; the buffers of the source
hold one bit in each byte. -/

namespace Otedama.Lightning

open List hiding Vector

open BitString GoString Reader

/-! ## The source -/

/-- Why a word list, entropy or mnemonic is refused. -/
inductive SeedError where
  /-- `lightning: entropy has %d bits, must be one of 128/160/192/224/256` -/
  | entropyBits (bits : Nat)
  /-- `lightning: wordlist must have exactly %d entries, got %d` -/
  | wordListLength (got : Nat)
  /-- `lightning: wordlist entry at index %d is empty` -/
  | emptyWord (i : Nat)
  /-- `lightning: wordlist entry at index %d is not valid UTF-8` -/
  | invalidWord (i : Nat)
  /-- `lightning: duplicate word %q in wordlist` -/
  | duplicateWord (word : GoString)
  /-- `lightning: wordlist index %d out of range` -/
  | indexRange (i : Nat)
  /-- `lightning: word %q not in wordlist` -/
  | notInWordList (word : GoString)
  /-- `lightning: wordlist must not be nil` -/
  | nilWordList
  /-- `lightning: mnemonic is empty` -/
  | mnemonicEmpty
  /-- `lightning: mnemonic has %d words, must be 12/15/18/21/24` -/
  | mnemonicWords (got : Nat)
  /-- `lightning: word %d: %w` -/
  | word (i : Nat) (err : SeedError)
  /-- `lightning: mnemonic checksum mismatch; check for transcription errors` -/
  | checksum
  deriving DecidableEq, Repr

abbrev Entropy := List UInt8

abbrev Mnemonic := List GoString

def validEntropyBits : List Nat := [128, 160, 192, 224, 256]

def Entropy.validate (e : Entropy) : Except SeedError Unit :=
  if e.length * 8 ∈ validEntropyBits then .ok () else .error (.entropyBits (e.length * 8))

structure WordList where
  words : List GoString
  wordIndex : GoMap GoString Nat

/-- How many words a word list has. -/
def required : Nat := 2048

/-- The loop of `NewWordList`. -/
def indexWords : Nat → List GoString → GoMap GoString Nat →
    Except SeedError (GoMap GoString Nat)
  | _, [], idx => .ok idx
  | i, w :: words, idx =>
      if w = [] then .error (.emptyWord i)
      else if !validString w then .error (.invalidWord i)
      else if (idx.lookup w).isSome then .error (.duplicateWord w)
      else indexWords (i + 1) words (idx.insert w i)

def newWordList (words : List GoString) : Except SeedError WordList :=
  if words.length ≠ required then .error (.wordListLength words.length)
  else do
    let idx ← indexWords 0 words ∅
    return { words := words, wordIndex := idx }

def WordList.word (w : WordList) (i : Nat) : Except SeedError GoString :=
  match w.words[i]? with
  | none => .error (.indexRange i)
  | some word => .ok word

def WordList.index (w : WordList) (word : GoString) : Except SeedError Nat :=
  match w.wordIndex.lookup word with
  | none => .error (.notInWordList word)
  | some i => .ok i

/-- The loop of `MnemonicToEntropy` over the words. -/
def wordIndices (w : WordList) : Nat → Mnemonic → Except SeedError (List Nat)
  | _, [] => .ok []
  | i, word :: m => do
      let idx ← (w.index word).mapError (.word i)
      let idxs ← wordIndices w (i + 1) m
      return idx :: idxs

/-- `entropy[i/8] |= bits[i] << uint(7-(i%8))` -/
def setBit (bits : List Bool) (entropy : Entropy) (i : Nat) : Entropy :=
  entropy.modify (i / 8) fun b => b ||| UInt8.ofNat ((bits.getD i false).toNat <<< (7 - i % 8))

/-- The loop of `MnemonicToEntropy` over the bits of the entropy. -/
def setBits (bits : List Bool) (entBits : Nat) : Entropy :=
  (List.range entBits).foldl (setBit bits) (List.replicate (entBits / 8) 0)

def validCounts : List Nat := [12, 15, 18, 21, 24]

section

variable (sha256 : List UInt8 → Bytes32)

/-- The first byte of the hash. -/
def checksumByte (e : Entropy) : UInt8 := (sha256 e)[0]

/-- The buffer of bits: the entropy, and the high bits of the checksum byte. -/
def checkedBits (e : Entropy) : List Bool :=
  allBits 8 (e.map UInt8.toNat)
    ++ (bits 8 (checksumByte sha256 e).toNat).take (e.length * 8 / 32)

def entropyToMnemonic (e : Entropy) (w : Option WordList) : Except SeedError Mnemonic := do
  e.validate
  match w with
  | none => .error .nilWordList
  | some w =>
      let ent := e.length * 8
      let cs := ent / 32
      let wordCount := (ent + cs) / 11
      (groups 11 wordCount (checkedBits sha256 e)).mapM w.word

def mnemonicToEntropy (m : Mnemonic) (w : Option WordList) : Except SeedError Entropy :=
  match w with
  | none => .error .nilWordList
  | some w =>
      if m.length = 0 then .error .mnemonicEmpty
      else if m.length ∉ validCounts then .error (.mnemonicWords m.length)
      else do
        let totalBits := m.length * 11
        let cs := totalBits / 33
        let entBits := totalBits - cs
        let idxs ← wordIndices w 0 m
        let bits := allBits 11 idxs
        let entropy := setBits bits entBits
        let sum := (checksumByte sha256 entropy).toNat
        -- A mismatch in any bit of the checksum ends the loop.
        if (List.range cs).all fun i => bits.getD (entBits + i) false == sum.testBit (7 - i) then
          return entropy
        else .error .checksum

end

/-- Why no entropy is generated. -/
inductive EntropyError where
  /-- `lightning: entropy bits must be 128/160/192/224/256, got %d` -/
  | bits (got : Nat)
  /-- `lightning: entropy generation failed: %w` -/
  | generation (err : StreamError)
  deriving DecidableEq, Repr

def defaultEntropyBits : Nat := 256

def generateEntropy (bits : Nat) : Reader EntropyError Entropy :=
  if bits ∉ validEntropyBits then throw (.bits bits)
  else (readFull (bits / 8)).adaptExcept .generation

/-- `Seed [64]byte` -/
abbrev Seed := Vector UInt8 64

/-- `strings.Join(m, " ")` -/
def Mnemonic.string (m : Mnemonic) : GoString := List.intercalate (text [' ']) m

/-- The parameter is `pbkdf2.Key` with SHA-512. -/
def mnemonicToSeed (pbkdf2 : GoString → GoString → Nat → Nat → List UInt8) (m : Mnemonic)
    (passphrase : GoString) : Seed :=
  let salt := text "mnemonic".toList ++ passphrase
  Bytes.copyArray 64 (pbkdf2 m.string salt 2048 64)

def fingerprint (hmacSHA256 : GoString → List UInt8 → Bytes32) (s : Seed) : GoString :=
  Hex.encode ((hmacSHA256 (text "otedama-fingerprint-v1".toList) s.toList).toList.take 4)

/-! ## Word lists -/

variable {words : List GoString}

theorem indexWords_eq_ok {i : Nat} {idx idx' : GoMap GoString Nat}
    (h : indexWords i words idx = .ok idx') (word : GoString) (k : Nat) :
    idx'.lookup word = some k ↔
      idx.lookup word = some k ∨ ∃ j, words[j]? = some word ∧ k = i + j := by
  induction words generalizing i idx with
  | nil =>
    cases h
    simp
  | cons w words ih =>
    unfold indexWords at h
    split at h
    · cases h
    split at h
    · cases h
    split at h
    · cases h
    rename_i _ _ hnew
    rw [ih h]
    have hnone : idx.lookup w = none := by simpa using hnew
    constructor
    · intro hk
      obtain hk | ⟨j, hj, rfl⟩ := hk
      · obtain ⟨rfl, rfl⟩ | ⟨-, hk⟩ := GoMap.lookup_insert_cases hk
        · exact .inr ⟨0, rfl, rfl⟩
        · exact .inl hk
      · exact .inr ⟨j + 1, hj, by omega⟩
    · intro hk
      obtain hk | ⟨j, hj, rfl⟩ := hk
      · refine .inl ?_
        have hne : word ≠ w := by
          intro heq
          rw [heq, hnone] at hk
          cases hk
        rw [AList.lookup_insert_ne hne]
        exact hk
      · cases j with
        | zero =>
          obtain rfl : w = word := Option.some.inj hj
          exact .inl (AList.lookup_insert _)
        | succ j => exact .inr ⟨j, hj, by omega⟩

/-- What the loop accepts: words that are not empty, valid, and new. -/
theorem exists_indexWords {i : Nat} {idx : GoMap GoString Nat}
    (hwords : ∀ w ∈ words, w ≠ [] ∧ validString w = true) (hnodup : words.Nodup)
    (hnew : ∀ w ∈ words, idx.lookup w = none) : ∃ idx', indexWords i words idx = .ok idx' := by
  induction words generalizing i idx with
  | nil => exact ⟨idx, rfl⟩
  | cons w words ih =>
    obtain ⟨hne, hvalid⟩ := hwords w mem_cons_self
    have hlookup := hnew w mem_cons_self
    obtain ⟨hnot, hnodup⟩ := nodup_cons.mp hnodup
    unfold indexWords
    rw [if_neg hne, if_neg (by simp [hvalid]), if_neg (by simp [hlookup])]
    apply ih (fun x hx => hwords x (mem_cons_of_mem _ hx)) hnodup
    intro x hx
    have hxw : x ≠ w := by
      intro heq
      exact hnot (heq ▸ hx)
    rw [AList.lookup_insert_ne hxw]
    exact hnew x (mem_cons_of_mem _ hx)

/-- A word list in which words and indices determine each other. -/
structure WordList.Consistent (w : WordList) : Prop where
  size : w.words.length = required
  index : ∀ word i, w.wordIndex.lookup word = some i ↔ w.words[i]? = some word

theorem consistent_of_newWordList {w : WordList} (h : newWordList words = .ok w) :
    w.Consistent := by
  unfold newWordList at h
  split at h
  · cases h
  rename_i hlen
  cases hidx : indexWords 0 words ∅ with
  | error e =>
    rw [hidx] at h
    cases h
  | ok idx =>
    rw [hidx] at h
    cases h
    refine ⟨not_not.mp hlen, ?_⟩
    intro word i
    show idx.lookup word = some i ↔ words[i]? = some word
    rw [indexWords_eq_ok hidx]
    constructor
    · intro hk
      obtain hk | ⟨j, hj, rfl⟩ := hk
      · cases hk
      · rw [zero_add]
        exact hj
    · intro hi
      exact .inr ⟨i, hi, (zero_add i).symm⟩

/-! ## The loops -/

/-- The words with the given indices. -/
def WordList.Spells (w : WordList) (idxs : List Nat) (m : Mnemonic) : Prop :=
  List.Forall₂ (fun i word => w.words[i]? = some word) idxs m

section

variable {w : WordList}

theorem word_eq_ok {i : Nat} {word : GoString} : w.word i = .ok word ↔ w.words[i]? = some word := by
  unfold WordList.word
  cases w.words[i]? with
  | none => simp
  | some _ => simp

theorem index_eq_ok (hw : w.Consistent) {word : GoString} {i : Nat} :
    w.index word = .ok i ↔ w.words[i]? = some word := by
  rw [← hw.index]
  unfold WordList.index
  cases w.wordIndex.lookup word with
  | none => simp
  | some _ => simp

theorem mapM_word_eq_ok {idxs : List Nat} {m : Mnemonic} :
    idxs.mapM w.word = .ok m ↔ w.Spells idxs m := by
  unfold WordList.Spells
  induction idxs generalizing m with
  | nil =>
    rw [forall₂_nil_left_iff, mapM_nil]
    show Except.ok [] = Except.ok m ↔ m = []
    rw [Except.ok.injEq, eq_comm]
  | cons i idxs ih =>
    rw [mapM_cons, bind_eq_ok, forall₂_cons_left_iff]
    simp only [word_eq_ok, bind_eq_ok, ih]
    constructor
    · intro h
      obtain ⟨word, hword, rest, hrest, hm⟩ := h
      exact ⟨word, rest, hword, hrest, (Except.ok.inj hm).symm⟩
    · intro h
      obtain ⟨word, rest, hword, hrest, hm⟩ := h
      exact ⟨word, hword, rest, hrest, congrArg Except.ok hm.symm⟩

theorem wordIndices_eq_ok (hw : w.Consistent) {i : Nat} {m : Mnemonic} {idxs : List Nat} :
    wordIndices w i m = .ok idxs ↔ w.Spells idxs m := by
  unfold WordList.Spells
  induction m generalizing i idxs with
  | nil =>
    rw [forall₂_nil_right_iff, wordIndices, Except.ok.injEq, eq_comm]
  | cons word m ih =>
    rw [wordIndices, bind_eq_ok, forall₂_cons_right_iff]
    simp only [mapError_eq_ok, index_eq_ok hw, bind_eq_ok, ih]
    constructor
    · intro h
      obtain ⟨idx, hidx, rest, hrest, hidxs⟩ := h
      exact ⟨idx, rest, hidx, hrest, (Except.ok.inj hidxs).symm⟩
    · intro h
      obtain ⟨idx, rest, hidx, hrest, hidxs⟩ := h
      exact ⟨idx, hidx, rest, hrest, congrArg Except.ok hidxs.symm⟩

theorem WordList.Spells.lt (hw : w.Consistent) {idxs : List Nat} {m : Mnemonic}
    (h : w.Spells idxs m) : ∀ i ∈ idxs, i < 2 ^ 11 := by
  intro i hi
  obtain ⟨k, hk, rfl⟩ := getElem_of_mem hi
  have hword := h.get hk (h.length_eq ▸ hk)
  have hlt := (List.getElem?_eq_some_iff.mp hword).1
  rwa [hw.size] at hlt

/-- Indices below the size of the list spell a mnemonic. -/
theorem WordList.Consistent.exists_spells (hw : w.Consistent) {idxs : List Nat}
    (h : ∀ i ∈ idxs, i < 2 ^ 11) : ∃ m, w.Spells idxs m := by
  induction idxs with
  | nil => exact ⟨[], List.Forall₂.nil⟩
  | cons i idxs ih =>
    obtain ⟨m, hm⟩ := ih fun j hj => h j (mem_cons_of_mem _ hj)
    have hi : i < w.words.length := by
      rw [hw.size]
      exact h i mem_cons_self
    exact ⟨w.words[i] :: m, List.Forall₂.cons (getElem?_eq_getElem hi) hm⟩

end

/-- After `n` rounds, the first `n` bits are in place and the others clear. -/
def Filled (bits : List Bool) (n : Nat) (entropy : Entropy) : Prop :=
  ∀ k b, entropy[k]? = some b → ∀ j < 8,
    b.toNat.testBit j = (decide (8 * k + (7 - j) < n) && bits.getD (8 * k + (7 - j)) false)

theorem testBit_setBit (b : UInt8) (x : Bool) {s : Nat} (hs : s < 8) (j : Nat) :
    (b ||| UInt8.ofNat (x.toNat <<< s)).toNat.testBit j =
      (b.toNat.testBit j || (decide (j = s) && x)) := by
  have hlt : x.toNat <<< s < 2 ^ 8 := by
    rw [Nat.shiftLeft_eq]
    have hpow : 2 ^ s ≤ 2 ^ 7 := Nat.pow_le_pow_right (by decide) (by omega)
    have hx : x.toNat ≤ 1 := Bool.toNat_le x
    nlinarith
  rw [UInt8.toNat_or, UInt8.toNat_ofNat_of_lt' hlt, Nat.testBit_or]
  cases x with
  | false => simp
  | true =>
    rw [Bool.toNat_true, Nat.one_shiftLeft, Nat.testBit_two_pow, Bool.and_true]
    simp only [eq_comm]

theorem filled_setBit {bits : List Bool} {n : Nat} {entropy : Entropy}
    (h : Filled bits n entropy) : Filled bits (n + 1) (setBit bits entropy n) := by
  intro k b hb j hj
  rw [setBit, getElem?_modify] at hb
  by_cases hk : n / 8 = k
  · -- The byte that is written: its bit `7 - n % 8` is the new one.
    obtain ⟨b', hb', rfl⟩ : ∃ b', entropy[k]? = some b' ∧
        b' ||| UInt8.ofNat ((bits.getD n false).toNat <<< (7 - n % 8)) = b := by
      simpa [hk] using hb
    rw [testBit_setBit b' _ (by omega) j, h k b' hb' j hj]
    by_cases hnew : j = 7 - n % 8
    · have hpos : 8 * k + (7 - j) = n := by omega
      rw [hpos]
      simp [hnew]
    · have hne : 8 * k + (7 - j) ≠ n := by omega
      have hiff : 8 * k + (7 - j) < n + 1 ↔ 8 * k + (7 - j) < n := by omega
      simp [hnew, hiff]
  · have hb' : entropy[k]? = some b := by simpa [hk] using hb
    have hiff : 8 * k + (7 - j) < n + 1 ↔ 8 * k + (7 - j) < n := by omega
    rw [h k b hb' j hj]
    simp [hiff]

theorem length_setBit (bits : List Bool) (entropy : Entropy) (i : Nat) :
    (setBit bits entropy i).length = entropy.length := length_modify _ _ _

/-- What the loop has done after `n` rounds. -/
theorem filled_foldl (bits : List Bool) (len n : Nat) :
    Filled bits n ((range n).foldl (setBit bits) (replicate len 0)) ∧
      ((range n).foldl (setBit bits) (replicate len 0)).length = len := by
  induction n with
  | zero =>
    constructor
    · intro k b hb j _
      obtain ⟨-, rfl⟩ : k < len ∧ 0 = b := by simpa [getElem?_replicate] using hb
      simp
    · exact length_replicate
  | succ n ih =>
    rw [range_succ, foldl_append]
    exact ⟨filled_setBit ih.1, (length_setBit _ _ _).trans ih.2⟩

theorem filled_setBits (bits : List Bool) (n : Nat) :
    Filled bits (n * 8) (setBits bits (n * 8)) ∧ (setBits bits (n * 8)).length = n := by
  rw [setBits, Nat.mul_div_cancel n (by decide)]
  exact filled_foldl bits n (n * 8)

/-- The loop cuts the string of bits into bytes. -/
theorem map_toNat_setBits {bits : List Bool} {n : Nat} (h : n * 8 ≤ bits.length) :
    (setBits bits (n * 8)).map UInt8.toNat = groups 8 n bits := by
  obtain ⟨hfilled, hlen⟩ := filled_setBits bits n
  apply ext_getElem
  · rw [length_map, hlen, length_groups]
  · intro k hk hk'
    rw [length_map] at hk
    rw [getElem_map]
    have hkn : k < n := hlen ▸ hk
    have hslice : ((bits.drop (k * 8)).take 8).length = 8 := by
      rw [length_take, length_drop]
      omega
    have hgroup : (groups 8 n bits)[k] = ofBits ((bits.drop (k * 8)).take 8) := by
      simp [groups]
    rw [hgroup]
    generalize hsl : (bits.drop (k * 8)).take 8 = slice at hslice
    have hslt : ofBits slice < 2 ^ 8 := hslice ▸ ofBits_lt slice
    -- Two bytes with the same eight bits.
    apply bits_inj (UInt8.toNat_lt _) hslt
    apply bits_congr
    intro j hj
    have hin : 8 * k + (7 - j) < n * 8 := by omega
    have hpos : k * 8 + (7 - j) = 8 * k + (7 - j) := by omega
    have hlt : 7 - j < 8 := by omega
    rw [hfilled k _ (getElem?_eq_getElem hk) j hj, testBit_ofBits (by omega), hslice, ← hsl,
      getD_eq_getElem?_getD, getD_eq_getElem?_getD, getElem?_take_of_lt hlt,
      getElem?_drop, hpos, decide_eq_true hin, Bool.true_and]

/-- The loop over the checksum compares the rest of the bits. -/
theorem checksum_loop_iff {bs : List Bool} {entBits cs : Nat} (hlen : bs.length = entBits + cs)
    (hcs : cs ≤ 8) (sum : Nat) :
    ((range cs).all fun i => bs.getD (entBits + i) false == sum.testBit (7 - i)) = true ↔
      bs.drop entBits = (bits 8 sum).take cs := by
  have hbit : ∀ i < cs, ((bits 8 sum).take cs)[i]? = some (sum.testBit (7 - i)) := by
    intro i hi
    rw [getElem?_take_of_lt hi, getElem?_bits (by omega)]
  have hrest : ∀ i < cs, (bs.drop entBits)[i]? = some (bs.getD (entBits + i) false) := by
    intro i hi
    rw [getElem?_drop, getD_eq_getElem?_getD, getElem?_eq_getElem (by omega), Option.getD_some]
  rw [all_eq_true]
  constructor
  · intro h
    apply ext_getElem?
    intro i
    by_cases hi : i < cs
    · rw [hbit i hi, hrest i hi, beq_iff_eq.mp (h i (mem_range.mpr hi))]
    · rw [getElem?_eq_none (by rw [length_drop]; omega),
        getElem?_eq_none (by rw [length_take, length_bits]; omega)]
  · intro h i hi
    have hi := mem_range.mp hi
    have heq := hrest i hi
    rw [h, hbit i hi] at heq
    exact beq_iff_eq.mpr (Option.some.inj heq).symm

/-! ## Entropy and its mnemonic -/

/-- Each size is a multiple of 32 bits. -/
theorem mem_validEntropyBits {n : Nat} :
    n * 8 ∈ validEntropyBits ↔ ∃ k, 4 ≤ k ∧ k ≤ 8 ∧ n = 4 * k := by
  simp only [validEntropyBits, mem_cons, not_mem_nil, or_false]
  constructor
  · intro h
    exact ⟨n / 4, by omega, by omega, by omega⟩
  · intro h
    obtain ⟨k, _, _, _⟩ := h
    omega

theorem mem_validCounts {n : Nat} : n ∈ validCounts ↔ ∃ k, 4 ≤ k ∧ k ≤ 8 ∧ n = 3 * k := by
  simp only [validCounts, mem_cons, not_mem_nil, or_false]
  constructor
  · intro h
    exact ⟨n / 3, by omega, by omega, by omega⟩
  · intro h
    obtain ⟨k, _, _, _⟩ := h
    omega

section

variable {sha256 : List UInt8 → Bytes32} {w : WordList}

/-- The words of `m` spell the entropy and its checksum. -/
structure IsMnemonic (sha256 : List UInt8 → Bytes32) (w : WordList) (e : Entropy)
    (m : Mnemonic) : Prop where
  size : e.length * 8 ∈ validEntropyBits
  spelled : ∃ idxs, w.Spells idxs m ∧ allBits 11 idxs = checkedBits sha256 e

theorem length_checkedBits {e : Entropy} {k : Nat} (hk : k ≤ 8) (he : e.length = 4 * k) :
    (checkedBits sha256 e).length = 3 * k * 11 := by
  rw [checkedBits, length_append, length_allBits, length_map, length_take, length_bits]
  omega

theorem IsMnemonic.length {e : Entropy} {m : Mnemonic} (h : IsMnemonic sha256 w e m) :
    m.length * 4 = e.length * 3 := by
  obtain ⟨idxs, hspells, hbits⟩ := h.spelled
  obtain ⟨k, -, hk, he⟩ := mem_validEntropyBits.mp h.size
  have hlen := congrArg List.length hbits
  rw [length_checkedBits hk he, length_allBits, hspells.length_eq] at hlen
  omega

theorem entropyToMnemonic_eq_ok (hw : w.Consistent) {e : Entropy} {m : Mnemonic} :
    entropyToMnemonic sha256 e (some w) = .ok m ↔ IsMnemonic sha256 w e m := by
  unfold entropyToMnemonic Entropy.validate
  by_cases hsize : e.length * 8 ∈ validEntropyBits
  · obtain ⟨k, -, hk, he⟩ := mem_validEntropyBits.mp hsize
    have hcount : (e.length * 8 + e.length * 8 / 32) / 11 = 3 * k := by omega
    have hlen : (checkedBits sha256 e).length = 3 * k * 11 := length_checkedBits hk he
    rw [if_pos hsize, ok_bind]
    show (groups 11 ((e.length * 8 + e.length * 8 / 32) / 11) _).mapM w.word = .ok m ↔ _
    rw [hcount, mapM_word_eq_ok]
    constructor
    · intro h
      refine ⟨hsize, _, h, ?_⟩
      rw [allBits_groups hlen.ge, take_of_length_le hlen.le]
    · intro h
      obtain ⟨idxs, hspells, hbits⟩ := h.spelled
      -- The groups of the bits are the indices again.
      have hidxs : idxs.length = 3 * k := by
        have hlens := congrArg List.length hbits
        rw [hlen, length_allBits] at hlens
        omega
      have hgroups := groups_allBits_append (by decide) (hspells.lt hw) []
      rw [append_nil, hbits, hidxs] at hgroups
      rwa [hgroups]
  · rw [if_neg hsize]
    constructor
    · intro h
      cases h
    · intro h
      exact absurd h.size hsize

/-- The bytes that the loop cuts off the checked bits are the entropy. -/
theorem setBits_checkedBits {e : Entropy} {n : Nat} (he : e.length = n) :
    setBits (checkedBits sha256 e) (n * 8) = e := by
  have hlen : n * 8 ≤ (checkedBits sha256 e).length := by
    rw [checkedBits, length_append, length_allBits, length_map]
    omega
  have hmap : (e.map UInt8.toNat).length = e.length := length_map _
  apply map_injective_iff.mpr (fun _ _ => UInt8.toNat_inj.mp)
  rw [map_toNat_setBits hlen, ← he, ← hmap]
  exact groups_allBits_append (by decide) (Bytes.map_toNat_lt e) _

/-- Bits of which the checksum loop approves are those of the entropy cut off them. -/
theorem checkedBits_setBits {bs : List Bool} {k : Nat} (hk : k ≤ 8) (hlen : bs.length = 33 * k)
    (hsum : bs.drop (4 * k * 8) =
      (bits 8 (checksumByte sha256 (setBits bs (4 * k * 8))).toNat).take k) :
    checkedBits sha256 (setBits bs (4 * k * 8)) = bs := by
  have hcs : (setBits bs (4 * k * 8)).length * 8 / 32 = k := by
    rw [(filled_setBits bs (4 * k)).2]
    omega
  have hle : 4 * k * 8 ≤ bs.length := by omega
  rw [checkedBits, map_toNat_setBits hle, allBits_groups hle, hcs, ← hsum, take_append_drop]

theorem mnemonicToEntropy_ne_ok {m : Mnemonic} (h : m.length ∉ validCounts) (e : Entropy) :
    mnemonicToEntropy sha256 m (some w) ≠ .ok e := by
  by_cases hzero : m.length = 0
  · simp [mnemonicToEntropy, hzero]
  · simp [mnemonicToEntropy, hzero, h]

theorem mnemonicToEntropy_eq_ok (hw : w.Consistent) {e : Entropy} {m : Mnemonic} :
    mnemonicToEntropy sha256 m (some w) = .ok e ↔ IsMnemonic sha256 w e m := by
  by_cases hcount : m.length ∈ validCounts
  · obtain ⟨k, hk4, hk, hm⟩ := mem_validCounts.mp hcount
    have hcs : m.length * 11 / 33 = k := by omega
    have hent : m.length * 11 - k = 4 * k * 8 := by omega
    have hne : m.length ≠ 0 := by omega
    simp only [mnemonicToEntropy, if_neg hne, if_neg (not_not.mpr hcount), bind_eq_ok,
      wordIndices_eq_ok hw, hcs, hent]
    constructor
    · intro h
      obtain ⟨idxs, hspells, h⟩ := h
      have hlen : (allBits 11 idxs).length = 33 * k := by
        rw [length_allBits, hspells.length_eq]
        omega
      split at h
      case isFalse => cases h
      case isTrue hall =>
        cases h
        have hsum := (checksum_loop_iff (by omega) hk _).mp hall
        refine ⟨?_, idxs, hspells, (checkedBits_setBits hk hlen hsum).symm⟩
        rw [(filled_setBits _ _).2]
        exact mem_validEntropyBits.mpr ⟨k, hk4, hk, rfl⟩
    · intro h
      obtain ⟨idxs, hspells, hbits⟩ := h.spelled
      have he : e.length = 4 * k := by
        have hlen := h.length
        omega
      have hlen : (allBits 11 idxs).length = 4 * k * 8 + k := by
        rw [length_allBits, hspells.length_eq]
        omega
      refine ⟨idxs, hspells, ?_⟩
      rw [hbits, setBits_checkedBits he, if_pos]
      · rfl
      · rw [hbits] at hlen
        rw [checksum_loop_iff hlen hk, checkedBits, drop_left' (by simp; omega)]
        congr 1
        omega
  · constructor
    · intro h
      exact absurd h (mnemonicToEntropy_ne_ok hcount e)
    · intro h
      obtain ⟨k, hk4, hk, he⟩ := mem_validEntropyBits.mp h.size
      have hlen := h.length
      exact absurd (mem_validCounts.mpr ⟨k, hk4, hk, by omega⟩) hcount

/-- Entropy of each size has a mnemonic. -/
theorem exists_isMnemonic (hw : w.Consistent) {e : Entropy}
    (h : e.length * 8 ∈ validEntropyBits) : ∃ m, IsMnemonic sha256 w e m := by
  obtain ⟨k, -, hk, he⟩ := mem_validEntropyBits.mp h
  have hlen : (checkedBits sha256 e).length = 3 * k * 11 := length_checkedBits hk he
  obtain ⟨m, hm⟩ := hw.exists_spells (lt_of_mem_groups (w := 11) (n := 3 * k))
  refine ⟨m, h, _, hm, ?_⟩
  rw [allBits_groups hlen.ge, take_of_length_le hlen.le]

end

/-- Over each word list, encoding is a bijection onto the accepted mnemonics. -/
theorem mnemonic_bijection (sha256 : List UInt8 → Bytes32) {words : List GoString}
    {w : WordList} (h : newWordList words = .ok w) :
    (∀ e : Entropy, e.length ∈ [16, 20, 24, 28, 32] →
      ∃ m, entropyToMnemonic sha256 e (some w) = .ok m ∧
        (e.length, m.length) ∈ [(16, 12), (20, 15), (24, 18), (28, 21), (32, 24)] ∧
        mnemonicToEntropy sha256 m (some w) = .ok e) ∧
    (∀ m e, mnemonicToEntropy sha256 m (some w) = .ok e →
      entropyToMnemonic sha256 e (some w) = .ok m) ∧
    (∀ m, (∃ e, mnemonicToEntropy sha256 m (some w) = .ok e) ↔
      ∃ e, entropyToMnemonic sha256 e (some w) = .ok m) := by
  have hw := consistent_of_newWordList h
  -- Both functions compute the one relation.
  have hsame : ∀ m e, mnemonicToEntropy sha256 m (some w) = .ok e ↔
      entropyToMnemonic sha256 e (some w) = .ok m := by
    intro m e
    rw [mnemonicToEntropy_eq_ok hw, entropyToMnemonic_eq_ok hw]
  refine ⟨?_, fun m e => (hsame m e).mp, fun m => exists_congr (hsame m)⟩
  intro e he
  have hsize : e.length * 8 ∈ validEntropyBits := by
    simp only [validEntropyBits, List.mem_cons, List.not_mem_nil, or_false] at he ⊢
    omega
  obtain ⟨m, hm⟩ : ∃ m, IsMnemonic sha256 w e m := exists_isMnemonic hw hsize
  have hlen := hm.length
  have hok := (entropyToMnemonic_eq_ok hw).mpr hm
  refine ⟨m, hok, ?_, (hsame m e).mpr hok⟩
  simp only [List.mem_cons, List.not_mem_nil, or_false] at he
  -- Each size of the entropy leaves one pair of the table.
  obtain he | he | he | he | he := he <;> simp [he] <;> omega

/-- A word list whose words are runs of the letter `a`. -/
def sampleWords : List GoString := (List.range required).map fun i => List.replicate (i + 1) 97

theorem validString_replicate (n : Nat) : validString (replicate n 97) = true := by
  have hmap : replicate n (97 : UInt8) = (replicate n 'a').map asciiByte := by
    rw [map_replicate]
    rfl
  have hascii : ∀ c ∈ replicate n 'a', c.toNat < 128 := by
    intro c hc
    rw [eq_of_mem_replicate hc]
    decide
  rw [validString, decide_eq_true_eq, hmap, runes_map_asciiByte hascii, encodeRunes_ascii hascii]

/-- The words with their index. -/
def sampleWordList : WordList where
  words := sampleWords
  wordIndex := (indexWords 0 sampleWords ∅).toOption.getD ∅

theorem newWordList_sampleWords : newWordList sampleWords = .ok sampleWordList := by
  have hlen : sampleWords.length = required := by simp [sampleWords]
  have hnodup : sampleWords.Nodup := by
    apply List.Nodup.map _ nodup_range
    intro i j hij
    simpa using congrArg List.length hij
  have hwords : ∀ w ∈ sampleWords, w ≠ [] ∧ validString w = true := by
    intro w hw
    obtain ⟨i, -, rfl⟩ := mem_map.mp hw
    exact ⟨by simp [replicate_succ], validString_replicate _⟩
  obtain ⟨idx, hidx⟩ : ∃ idx, indexWords 0 sampleWords ∅ = .ok idx :=
    exists_indexWords hwords hnodup fun _ _ => rfl
  rw [newWordList, if_neg (not_not.mpr hlen), sampleWordList, hidx]
  rfl

/-- Twelve words for sixteen bytes. -/
theorem mnemonic_bijection_sample :
    ∃ w, newWordList sampleWords = .ok w ∧
      ∃ m, entropyToMnemonic (fun _ => Vector.replicate 32 0) (List.replicate 16 7) (some w)
          = .ok m ∧
        mnemonicToEntropy (fun _ => Vector.replicate 32 0) m (some w)
          = .ok (List.replicate 16 7) := by
  have h := mnemonic_bijection (fun _ => Vector.replicate 32 0) newWordList_sampleWords
  obtain ⟨m, hm, -, hback⟩ := h.1 (List.replicate 16 7) (by decide)
  exact ⟨sampleWordList, newWordList_sampleWords, m, hm, hback⟩

end Otedama.Lightning
