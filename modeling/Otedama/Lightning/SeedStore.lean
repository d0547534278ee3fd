import Otedama.Lightning.Seed

/-! # The encrypted seed

How a seed is encrypted under a passphrase and laid out in a file:
version, salt, nonce, ciphertext.

The cryptographic functions are parameters. Encryption is ideal for a
set of passphrases when decryption under one of them succeeds for the
passphrase that was used and for no other. Ciphertexts are bounded, so no
function is ideal for all passphrases at once; what is used is the
passphrases that occur. -/

namespace Otedama.Lightning

open List hiding Vector

open GoString Reader Bytes

/-! ## The source -/

/-- The functions of the Go libraries that are used. `scryptKey` has the cost
parameters of the source; with these neither it nor the set-up of AES-GCM
can fail. -/
structure Crypto where
  sha256 : List UInt8 → Bytes32
  hmacSHA256 : GoString → List UInt8 → Bytes32
  pbkdf2 : GoString → GoString → Nat → Nat → List UInt8
  scryptKey : GoString → Vector UInt8 16 → Bytes32
  /-- `gcm.Seal` of key, nonce and plaintext. -/
  gcmSeal : Bytes32 → Vector UInt8 12 → List UInt8 → List UInt8
  /-- `gcm.Open` of key, nonce and ciphertext. -/
  gcmOpen : Bytes32 → Vector UInt8 12 → List UInt8 → Option (List UInt8)
  /-- The tag takes sixteen bytes. -/
  length_gcmSeal : ∀ key nonce plaintext,
    (gcmSeal key nonce plaintext).length = plaintext.length + 16

/-- Why a seed is not encrypted, decrypted, written or read. -/
inductive StoreError where
  /-- `lightning: passphrase must not be empty` -/
  | emptyPassphrase
  /-- `lightning: salt generation failed: %w` -/
  | salt (err : StreamError)
  /-- `lightning: nonce generation failed: %w` -/
  | nonce (err : StreamError)
  /-- `lightning: unsupported EncryptedSeed version %d` -/
  | version (v : UInt8)
  /-- `lightning: EncryptedSeed has empty ciphertext` -/
  | emptyCiphertext
  /-- `lightning: decryption failed (wrong passphrase or corrupted file)` -/
  | wrongPassphrase
  /-- `lightning: decrypted seed is %d bytes, want 64` -/
  | seedLength (n : Nat)
  /-- `lightning: Marshal: unsupported version %d` -/
  | marshalVersion (v : UInt8)
  /-- `lightning: EncryptedSeed too short: %d bytes, need at least %d` -/
  | tooShort (n : Nat)
  /-- `lightning: EncryptedSeed too large: %d bytes, need at most %d` -/
  | tooLarge (n : Nat)
  deriving DecidableEq, Repr

@[ext]
structure EncryptedSeed where
  version : UInt8
  salt : Vector UInt8 16
  nonce : Vector UInt8 12
  ciphertext : List UInt8
  deriving DecidableEq, Repr

def currentEncryptedSeedVersion : UInt8 := 1

def minLen : Nat := 1 + 16 + 12

def maxLen : Nat := 4096

def EncryptedSeed.marshal (es : EncryptedSeed) : Except StoreError (List UInt8) :=
  if es.version ≠ currentEncryptedSeedVersion then .error (.marshalVersion es.version)
  else .ok (es.version :: (es.salt.toList ++ (es.nonce.toList ++ es.ciphertext)))

def unmarshalEncryptedSeed (b : List UInt8) : Except StoreError EncryptedSeed :=
  if b.length < minLen then .error (.tooShort b.length)
  else if maxLen < b.length then .error (.tooLarge b.length)
  else if b.headD 0 ≠ currentEncryptedSeedVersion then .error (.version (b.headD 0))
  else .ok
    { version := b.headD 0
      salt := copyArray 16 ((b.drop 1).take 16)
      nonce := copyArray 12 ((b.drop 17).take 12)
      ciphertext := b.drop 29 }

section

variable (c : Crypto)

/-- The seed encrypted under a passphrase, with the given random bytes. -/
def sealSeed (s : Seed) (passphrase : GoString) (salt : Vector UInt8 16)
    (nonce : Vector UInt8 12) : EncryptedSeed where
  version := currentEncryptedSeedVersion
  salt := salt
  nonce := nonce
  ciphertext := c.gcmSeal (c.scryptKey passphrase salt) nonce s.toList

def encryptSeed (s : Seed) (passphrase : GoString) : Reader StoreError EncryptedSeed :=
  if passphrase = [] then throw .emptyPassphrase
  else do
    let salt ← (readFull 16).adaptExcept .salt
    let nonce ← (readFull 12).adaptExcept .nonce
    return sealSeed c s passphrase (copyArray 16 salt) (copyArray 12 nonce)

def decryptSeed (es : EncryptedSeed) (passphrase : GoString) : Except StoreError Seed :=
  if es.version ≠ currentEncryptedSeedVersion then .error (.version es.version)
  else if es.ciphertext.length = 0 then .error .emptyCiphertext
  else
    match c.gcmOpen (c.scryptKey passphrase es.salt) es.nonce es.ciphertext with
    | none => .error .wrongPassphrase
    | some plaintext =>
        if plaintext.length ≠ 64 then .error (.seedLength plaintext.length)
        else .ok (copyArray 64 plaintext)

end

/-! ## The layout -/

theorem marshal_eq_ok {es : EncryptedSeed} {b : List UInt8} :
    es.marshal = .ok b ↔ es.version = currentEncryptedSeedVersion ∧
      b = es.version :: (es.salt.toList ++ (es.nonce.toList ++ es.ciphertext)) := by
  unfold EncryptedSeed.marshal
  split
  · next h => simp [h]
  · next h => simp [not_not.mp h, eq_comm]

/-- What unmarshalling finds in a laid-out seed. -/
theorem unmarshal_layout (v : UInt8) (salt : Vector UInt8 16) (nonce : Vector UInt8 12)
    (ct : List UInt8) :
    let b := v :: (salt.toList ++ (nonce.toList ++ ct))
    copyArray 16 ((b.drop 1).take 16) = salt ∧ copyArray 12 ((b.drop 17).take 12) = nonce ∧
      b.drop 29 = ct := by
  have hsalt : salt.toList.length = 16 := by simp
  have hnonce : nonce.toList.length = 12 := by simp
  have h16 : (salt.toList ++ (nonce.toList ++ ct)).drop 16 = nonce.toList ++ ct :=
    drop_left' hsalt
  have h28 : (salt.toList ++ (nonce.toList ++ ct)).drop 28 = ct := by
    rw [← append_assoc]
    exact drop_left' (by simp)
  refine ⟨?_, ?_, h28⟩
  · show copyArray 16 ((salt.toList ++ (nonce.toList ++ ct)).take 16) = salt
    rw [take_left' hsalt, copyArray_toList]
  · show copyArray 12 (((salt.toList ++ (nonce.toList ++ ct)).drop 16).take 12) = nonce
    rw [h16, take_left' hnonce, copyArray_toList]

/-- A file that is long enough is laid out from what unmarshalling finds. -/
theorem layout_unmarshal {v : UInt8} {rest : List UInt8} (h : 28 ≤ rest.length) :
    v :: rest = v :: ((copyArray 16 (rest.take 16)).toList
      ++ ((copyArray 12 ((rest.drop 16).take 12)).toList ++ rest.drop 28)) := by
  have hsalt : (rest.take 16).length = 16 := by
    rw [length_take]
    omega
  have hnonce : ((rest.drop 16).take 12).length = 12 := by
    rw [length_take, length_drop]
    omega
  have hdrop : rest.drop 28 = (rest.drop 16).drop 12 := by rw [drop_drop]
  rw [toList_copyArray hsalt, toList_copyArray hnonce, hdrop, take_append_drop, take_append_drop]

/-- Marshalling and unmarshalling are inverse to each other, up to the bound
on the length. -/
theorem unmarshalEncryptedSeed_eq_ok {es : EncryptedSeed} {b : List UInt8} :
    unmarshalEncryptedSeed b = .ok es ↔ es.marshal = .ok b ∧ b.length ≤ maxLen := by
  rw [marshal_eq_ok]
  constructor
  · intro h
    unfold unmarshalEncryptedSeed at h
    split at h
    · cases h
    split at h
    · cases h
    split at h
    · cases h
    rename_i hmin hmax hversion
    rw [minLen, not_lt] at hmin
    cases b with
    | nil => cases hmin
    | cons v rest =>
      cases h
      have hlen : 28 ≤ rest.length := Nat.le_of_succ_le_succ hmin
      exact ⟨⟨not_not.mp hversion, layout_unmarshal hlen⟩, not_lt.mp hmax⟩
  · rintro ⟨⟨hversion, rfl⟩, hmax⟩
    have hmin : ¬ (es.version :: (es.salt.toList ++ (es.nonce.toList ++ es.ciphertext))).length
        < minLen := by
      simp only [length_cons, length_append, Vector.length_toList, minLen]
      omega
    obtain ⟨hsalt, hnonce, hct⟩ := unmarshal_layout es.version es.salt es.nonce es.ciphertext
    rw [unmarshalEncryptedSeed, if_neg hmin, if_neg (not_lt.mpr hmax), headD_cons,
      if_neg (not_not.mpr hversion), hsalt, hnonce, hct]

/-! ## Encryption -/

section

variable {c : Crypto} {s s' : Seed} {p p' : GoString} {raw : List UInt8}

theorem encryptSeed_eq_ok {reader reader' : List UInt8} {es : EncryptedSeed}
    (h : encryptSeed c s p reader = .ok es reader') :
    ∃ salt nonce, es = sealSeed c s p salt nonce := by
  unfold encryptSeed at h
  split at h
  · cases h
  · rw [bind_apply, adaptExcept_apply] at h
    cases hsalt : readFull 16 reader with
    | error err rest =>
      rw [hsalt] at h
      cases h
    | ok salt rest =>
      rw [hsalt] at h
      simp only [bind_apply, adaptExcept_apply] at h
      cases hnonce : readFull 12 rest with
      | error err rest' =>
        rw [hnonce] at h
        cases h
      | ok nonce rest' =>
        rw [hnonce] at h
        cases h
        exact ⟨_, _, rfl⟩

theorem version_sealSeed (salt : Vector UInt8 16) (nonce : Vector UInt8 12) :
    (sealSeed c s p salt nonce).version = currentEncryptedSeedVersion := rfl

/-- The file holds the seed encrypted under the passphrase. -/
def Stored (c : Crypto) (s : Seed) (p : GoString) (raw : List UInt8) : Prop :=
  ∃ salt nonce, (sealSeed c s p salt nonce).marshal = .ok raw

/-- **Ideal encryption** for the passphrases of a set. -/
def Crypto.IdealOn (c : Crypto) (P : Set GoString) : Prop :=
  ∀ p ∈ P, ∀ p' ∈ P, ∀ salt nonce, ∀ s : Seed,
    c.gcmOpen (c.scryptKey p' salt) nonce (c.gcmSeal (c.scryptKey p salt) nonce s.toList)
      = if p' = p then some s.toList else none

theorem length_stored (h : Stored c s p raw) : raw.length = 109 := by
  obtain ⟨salt, nonce, h⟩ := h
  rw [(marshal_eq_ok.mp h).2]
  simp [sealSeed, c.length_gcmSeal]

/-- Every stored seed can be read back. -/
theorem Stored.unmarshal (h : Stored c s p raw) :
    ∃ salt nonce, unmarshalEncryptedSeed raw = .ok (sealSeed c s p salt nonce) := by
  have hlen := length_stored h
  obtain ⟨salt, nonce, h⟩ := h
  refine ⟨salt, nonce, unmarshalEncryptedSeed_eq_ok.mpr ⟨h, ?_⟩⟩
  rw [hlen, maxLen]
  omega

variable {P : Set GoString}

theorem decryptSeed_sealSeed (hideal : c.IdealOn P) (hp : p ∈ P) (hp' : p' ∈ P)
    (salt : Vector UInt8 16) (nonce : Vector UInt8 12) :
    decryptSeed c (sealSeed c s p salt nonce) p' = .ok s' ↔ p' = p ∧ s' = s := by
  have hct : ¬ (sealSeed c s p salt nonce).ciphertext.length = 0 := by
    rw [sealSeed, c.length_gcmSeal]
    omega
  rw [decryptSeed, if_neg (not_not.mpr (version_sealSeed salt nonce)), if_neg hct]
  have hopen := hideal p hp p' hp' salt nonce s
  simp only [sealSeed, hopen]
  by_cases hpp : p' = p
  · simp only [hpp, if_true, s.length_toList, ne_eq, not_true, if_false, copyArray_toList,
      Except.ok.injEq, true_and]
    exact eq_comm
  · simp [hpp]

/-- **Decryption.** A stored seed comes back under its own passphrase, and
under no other. -/
theorem Stored.decrypt (h : Stored c s p raw) (hideal : c.IdealOn P) (hp : p ∈ P) :
    ∃ es, unmarshalEncryptedSeed raw = .ok es ∧
      ∀ p' ∈ P, ∀ s', decryptSeed c es p' = .ok s' ↔ p' = p ∧ s' = s := by
  obtain ⟨salt, nonce, hes⟩ := h.unmarshal
  exact ⟨_, hes, fun p' hp' s' => decryptSeed_sealSeed hideal hp hp' salt nonce⟩

/-- A file holds one seed only, under one passphrase. -/
theorem Stored.unique (hideal : c.IdealOn P) (hp : p ∈ P) (hp' : p' ∈ P)
    (h : Stored c s p raw) (h' : Stored c s' p' raw) : s' = s ∧ p' = p := by
  obtain ⟨es, hes, hdec⟩ := h.decrypt hideal hp
  obtain ⟨es', hes', hdec'⟩ := h'.decrypt hideal hp'
  obtain rfl : es = es' := Except.ok.inj (hes.symm.trans hes')
  have hself := (hdec' p' hp' s').mpr ⟨rfl, rfl⟩
  exact ((hdec p' hp' s').mp hself).symm

end

/-! ## Toy functions -/

/-- Functions that are ideal for passphrases of sixteen bytes: the passphrase
is the key, and the key is the tag. -/
def toyCrypto : Crypto where
  sha256 _ := zero32
  hmacSHA256 _ _ := zero32
  pbkdf2 password _ _ n := (password ++ List.replicate n 0).take n
  scryptKey passphrase _ := copy32 passphrase
  gcmSeal key _ plaintext := plaintext ++ key.toList.take 16
  gcmOpen key _ ciphertext :=
    let plaintext := ciphertext.take (ciphertext.length - 16)
    if ciphertext = plaintext ++ key.toList.take 16 then some plaintext else none
  length_gcmSeal key nonce plaintext := by simp

theorem take_copy32 {p : GoString} (h : p.length = 16) : (copy32 p).toList.take 16 = p := by
  apply ext_getElem
  · simp [h]
  · intro i hi hi'
    simp [copy32, copyArray, hi']

theorem toyCrypto_idealOn : toyCrypto.IdealOn {p | p.length = 16} := by
  intro p hp p' hp' salt nonce s
  have hseal : toyCrypto.gcmSeal (toyCrypto.scryptKey p salt) nonce s.toList = s.toList ++ p :=
    congrArg (s.toList ++ ·) (take_copy32 hp)
  have hplain : (s.toList ++ p).take ((s.toList ++ p).length - 16) = s.toList := by
    apply take_left'
    rw [length_append, hp]
    omega
  rw [hseal]
  show (if s.toList ++ p = (s.toList ++ p).take ((s.toList ++ p).length - 16)
      ++ (copy32 p').toList.take 16 then _ else _) = _
  rw [hplain, take_copy32 hp']
  simp only [append_cancel_left_eq, eq_comm]

end Otedama.Lightning
