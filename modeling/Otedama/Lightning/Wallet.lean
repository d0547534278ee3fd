import Otedama.Framework.FileProgram
import Otedama.Lightning.SeedStore

/-! # The wallet file

`NewWalletManager` makes or loads the wallet of a data directory, and
`ChangePassphrase` encrypts it anew. Both are programs over the data
directory: a path is the name of a file in it.

The random bytes of a call are the stream it reads them from. An error
of the operating system carries no detail.

What the programs do to `wallet.dat` is said once, for one program alone
and for several at once: a program replaces it only by a `rename` of a
file that it has written completely. -/

namespace Otedama.Lightning

open GoString FileProgram List

/-! ## The source -/

def walletFile : Path := text "wallet.dat".toList

def fingerprintFile : Path := text "wallet.fingerprint".toList

/-- The temporary files are `.wallet-*.tmp`. -/
def tempFront : Path := text ".wallet-".toList

def tempBack : Path := text ".tmp".toList

/-- A minute, in nanoseconds. -/
def staleTempMaxAge : Int := 60 * 1000000000

structure WalletManager where
  dataDir : GoString
  seed : Seed
  mnemonic : Option Mnemonic
  wordList : Option WordList

inductive WalletError where
  /-- `lightning: dataDir must not be empty` -/
  | emptyDataDir
  /-- `lightning: passphrase must not be empty` -/
  | emptyPassphrase
  /-- `lightning: wordList must not be nil` -/
  | nilWordList
  /-- `lightning: create data dir %q: %w` -/
  | createDataDir (dataDir : GoString)
  /-- `lightning: stat wallet file: %w` -/
  | statWallet
  /-- `lightning: generate entropy: %w` -/
  | generateEntropy (err : EntropyError)
  /-- `lightning: entropy to mnemonic: %w` -/
  | entropyToMnemonic (err : SeedError)
  /-- `lightning: read wallet file: %w` -/
  | readWallet
  /-- `lightning: unmarshal wallet: %w` -/
  | unmarshalWallet (err : StoreError)
  /-- `lightning: wallet unlock failed — check your passphrase` -/
  | unlockFailed
  /-- `lightning: encrypt seed: %w` -/
  | encryptSeed (err : StoreError)
  /-- `lightning: marshal encrypted seed: %w` -/
  | marshalSeed (err : StoreError)
  /-- `lightning: create temp wallet file: %w` -/
  | createTemp
  /-- `lightning: write temp wallet file: %w` -/
  | writeTemp
  /-- `lightning: sync temp wallet file: %w` -/
  | syncTemp
  /-- `lightning: close temp wallet file: %w` -/
  | closeTemp
  /-- `lightning: chmod temp wallet file: %w` -/
  | chmodTemp
  /-- `lightning: rename wallet file: %w` -/
  | renameWallet
  /-- `lightning: new passphrase must not be empty` -/
  | emptyNewPassphrase
  /-- `lightning: incorrect old passphrase` -/
  | incorrectOldPassphrase
  deriving DecidableEq, Repr

/-- The loop of `sweepStaleTempFiles`. -/
def sweepLoop (cutoff : Int) : List Path → Prog Unit
  | [] => return ()
  | p :: ps => do
      match ← stat p with
      | .found modTime =>
          if modTime < cutoff then do
            let _ ← remove p
            sweepLoop cutoff ps
          else sweepLoop cutoff ps
      | .notExist => sweepLoop cutoff ps
      | .failed => sweepLoop cutoff ps

def sweepStaleTempFiles : Prog Unit := do
  match ← glob tempFront tempBack with
  | none => return ()
  | some ps => do
      let time ← now
      sweepLoop (time - staleTempMaxAge) ps

section

variable (c : Crypto)

def save (seed : Seed) (passphrase : GoString) (reader : List UInt8) :
    Prog (Except WalletError Unit) :=
  match encryptSeed c seed passphrase reader with
  | .error err _ => return .error (.encryptSeed err)
  | .ok es _ =>
  match es.marshal with
  | .error err => return .error (.marshalSeed err)
  | .ok raw => do
  match ← createTemp tempFront tempBack with
  | none => return .error .createTemp
  | some tmpPath => do
  if !(← write tmpPath raw) then do
    let _ ← close tmpPath
    let _ ← remove tmpPath
    return .error .writeTemp
  else do
  if !(← sync tmpPath) then do
    let _ ← close tmpPath
    let _ ← remove tmpPath
    return .error .syncTemp
  else do
  if !(← close tmpPath) then do
    let _ ← remove tmpPath
    return .error .closeTemp
  else do
  if !(← chmod tmpPath) then do
    let _ ← remove tmpPath
    return .error .chmodTemp
  else do
  if !(← rename tmpPath walletFile) then do
    let _ ← remove tmpPath
    return .error .renameWallet
  else return .ok ()

def WalletManager.createNew (wm : WalletManager) (passphrase mnemonicPassphrase : GoString)
    (reader : List UInt8) : Prog (Except WalletError WalletManager) :=
  match generateEntropy defaultEntropyBits reader with
  | .error err _ => return .error (.generateEntropy err)
  | .ok entropy reader =>
  match entropyToMnemonic c.sha256 entropy wm.wordList with
  | .error err => return .error (.entropyToMnemonic err)
  | .ok mnemonic => do
  let seed := mnemonicToSeed c.pbkdf2 mnemonic mnemonicPassphrase
  match ← save c seed passphrase reader with
  | .error err => return .error err
  | .ok () => do
      let _ ← writeFile fingerprintFile (fingerprint c.hmacSHA256 seed)
      return .ok { wm with seed := seed, mnemonic := some mnemonic }

def WalletManager.loadExisting (wm : WalletManager) (passphrase : GoString) :
    Prog (Except WalletError WalletManager) := do
  match ← readFile walletFile with
  | none => return .error .readWallet
  | some raw =>
  match unmarshalEncryptedSeed raw with
  | .error err => return .error (.unmarshalWallet err)
  | .ok es =>
  match decryptSeed c es passphrase with
  | .error _ => return .error .unlockFailed
  | .ok seed => return .ok { wm with seed := seed }

/-- The option `WithMnemonicPassphrase` is an argument; without it, it is
empty. -/
def newWalletManager (dataDir passphrase : GoString) (reader : List UInt8)
    (wordList : Option WordList) (mnemonicPassphrase : GoString) :
    Prog (Except WalletError WalletManager) :=
  if dataDir = [] then return .error .emptyDataDir
  else if passphrase = [] then return .error .emptyPassphrase
  else if wordList.isNone then return .error .nilWordList
  else do
  if !(← mkdirAll) then return .error (.createDataDir dataDir)
  else do
  sweepStaleTempFiles
  let wm : WalletManager :=
    { dataDir := dataDir, seed := Vector.replicate 64 0, mnemonic := none, wordList := wordList }
  match ← stat walletFile with
  | .notExist => wm.createNew c passphrase mnemonicPassphrase reader
  | .failed => return .error .statWallet
  | .found _ => do
      match ← wm.loadExisting c passphrase with
      | .error err => return .error err
      | .ok wm => do
          -- The fingerprint of a restored wallet is written again.
          match ← stat fingerprintFile with
          | .notExist => do
              let _ ← writeFile fingerprintFile (fingerprint c.hmacSHA256 wm.seed)
              return .ok wm
          | .failed => return .ok wm
          | .found _ => return .ok wm

def changePassphrase (oldPassphrase newPassphrase : GoString) (reader : List UInt8) :
    Prog (Except WalletError Unit) :=
  if newPassphrase = [] then return .error .emptyNewPassphrase
  else do
  match ← readFile walletFile with
  | none => return .error .readWallet
  | some raw =>
  match unmarshalEncryptedSeed raw with
  | .error err => return .error (.unmarshalWallet err)
  | .ok es =>
  match decryptSeed c es oldPassphrase with
  | .error _ => return .error .incorrectOldPassphrase
  | .ok seed => save c seed newPassphrase reader

/-- The seed that `createNew` derives, if it gets that far. -/
def freshSeed (reader : List UInt8) (wordList : Option WordList)
    (mnemonicPassphrase : GoString) : Option Seed :=
  match generateEntropy defaultEntropyBits reader with
  | .error _ _ => none
  | .ok entropy _ =>
  match entropyToMnemonic c.sha256 entropy wordList with
  | .error _ => none
  | .ok mnemonic => some (mnemonicToSeed c.pbkdf2 mnemonic mnemonicPassphrase)

end

/-! ## The terms of a wallet program -/

theorem head?_of_temp {p : Path} (h : Matches tempFront tempBack p) :
    p.head? = some (asciiByte '.') := by
  obtain ⟨mid, rfl⟩ := h
  rfl

theorem walletFile_not_temp : ¬ Matches tempFront tempBack walletFile := by
  intro h
  exact absurd (head?_of_temp h) (by decide)

theorem fingerprintFile_not_temp : ¬ Matches tempFront tempBack fingerprintFile := by
  intro h
  exact absurd (head?_of_temp h) (by decide)

theorem ne_walletFile {p : Path} (h : Matches tempFront tempBack p) : walletFile ≠ p := by
  intro heq
  exact walletFile_not_temp (heq ▸ h)

/-- `wallet.dat` holds the seed under the passphrase. -/
def Holds (c : Crypto) (s : Seed) (p : GoString) (d : Dir) : Prop :=
  ∃ raw, d.files walletFile = some raw ∧ Stored c s p raw

/-- What a program may rely on: the others keep the assumption `I` on
`wallet.dat`, any seed that it holds under `p`, and our temporary files. -/
structure Guest (c : Crypto) (me : Nat) (rely : Dir → Dir → Prop) (I : Option Content → Prop)
    (p : GoString) : Prop where
  refl : ∀ d, rely d d
  trans : ∀ {d₁ d₂ d₃}, rely d₁ d₂ → rely d₂ d₃ → rely d₁ d₃
  stable : ∀ {d d'}, rely d d' → I (d.files walletFile) → I (d'.files walletFile)
  kept : ∀ {d d'}, rely d d' → ∀ s, Holds c s p d → Holds c s p d'
  leaves : ∀ {d d'}, rely d d' → Leaves tempFront tempBack me d d'

/-- What one call of a wallet program does: a `rename` puts a seed in
`wallet.dat` that `commit` allows; no other call changes `wallet.dat`. -/
structure WalletCall (c : Crypto) (me : Nat) (may : (o : Op) → o.Res → Dir → Prop)
    (commit : Seed → GoString → Prop) (o : Op) (r : o.Res) (d d' : Dir) : Prop where
  spares : Spares tempFront tempBack me d d'
  other : o.renames r = false → d'.files walletFile = d.files walletFile
  rename : o.renames r = true → may o r d ∧ ∃ s p, commit s p ∧ Holds c s p d'

namespace Guest

variable {c : Crypto} {me : Nat} {rely : Dir → Dir → Prop} {I : Option Content → Prop}
  {p : GoString} {may : (o : Op) → o.Res → Dir → Prop} {commit : Seed → GoString → Prop}
  {α : Type} {d : Dir}

def terms (_ : Guest c me rely I p) (may : (o : Op) → o.Res → Dir → Prop)
    (commit : Seed → GoString → Prop) : Terms where
  me := me
  rely := rely
  may := may
  guar := WalletCall c me may commit
  refl := Guest.refl ‹_›
  trans := Guest.trans ‹_›

/-- The postcondition of a call: a failed call leaves the assumption. -/
def Post (I : Option Content → Prop) (H : α → Dir → Prop) (r : Except WalletError α) (d : Dir) :
    Prop :=
  match r with
  | .ok a => H a d
  | .error _ => I (d.files walletFile)

variable (g : Guest c me rely I p)

/-- **Return rule**, for an error. -/
theorem keeps_error {H : α → Dir → Prop} (err : WalletError) (hI : I (d.files walletFile)) :
    (g.terms may commit).Keeps (pure (.error err)) (Post I H) d :=
  Terms.keeps_pure fun _ hrely => g.stable hrely hI

/-- **Return rule**, for a wallet. -/
theorem keeps_ok {wm : WalletManager} (h : Holds c wm.seed p d) :
    (g.terms may commit).Keeps (pure (.ok wm)) (Post I fun wm => Holds c wm.seed p) d :=
  Terms.keeps_pure fun _ hrely => g.kept hrely _ h

/-- **Side rule.** A call that leaves `wallet.dat` alone. -/
theorem keeps_side {o : Op} {f : o.Res → Prog α} {Q : α → Dir → Prop}
    (hren : ∀ r, o.renames r = false)
    (h : ∀ d₁, rely d d₁ → ∀ r d₂, o.Does me d₁ r d₂ → Spares tempFront tempBack me d₁ d₂ ∧
      d₂.files walletFile = d₁.files walletFile ∧ (g.terms may commit).Keeps (f r) Q d₂) :
    (g.terms may commit).Keeps (Prog.call o >>= f) Q d := by
  apply Terms.keeps_call
  intro d₁ hrely r d₂ hdoes _
  obtain ⟨hspares, hwallet, hk⟩ := h d₁ hrely r d₂ hdoes
  exact ⟨⟨hspares, fun _ => hwallet, fun h => by simp [hren r] at h⟩, hk⟩

/-- **Look rule.** A call that changes nothing. -/
theorem keeps_look {o : Op} {f : o.Res → Prog α} {Q : α → Dir → Prop} (ho : o.looks = true)
    (h : ∀ d' r, rely d d' → o.Does me d' r d' → (g.terms may commit).Keeps (f r) Q d') :
    (g.terms may commit).Keeps (Prog.call o >>= f) Q d := by
  apply g.keeps_side (Op.renames_of_looks ho)
  intro d₁ hrely r d₂ hdoes
  obtain rfl := hdoes.eq_of_looks ho
  exact ⟨.refl d₂, rfl, h d₂ r hrely hdoes⟩

/-- A wallet is returned after its fingerprint was written, or was not. -/
theorem keeps_writeFingerprint {wm : WalletManager} (x : Content) (h : Holds c wm.seed p d) :
    (g.terms may commit).Keeps (do let _ ← writeFile fingerprintFile x; return .ok wm)
      (Post I fun wm => Holds c wm.seed p) d := by
  have hne : walletFile ≠ fingerprintFile := by decide
  have hset : ∀ (d₁ : Dir) y, Spares tempFront tempBack me d₁ (d₁.set fingerprintFile y) ∧
      (d₁.set fingerprintFile y).files walletFile = d₁.files walletFile :=
    fun d₁ y => ⟨spares_set fingerprintFile_not_temp y, Dir.set_files_ne hne _⟩
  apply g.keeps_side (fun _ => rfl)
  intro d₁ hrely r d₂ hdoes
  have hd₂ : Spares tempFront tempBack me d₁ d₂ ∧ d₂.files walletFile = d₁.files walletFile := by
    obtain ⟨-, rfl⟩ | ⟨-, rfl | ⟨part, rfl⟩⟩ := hdoes
    · exact hset d₁ _
    · exact ⟨.refl _, rfl⟩
    · exact hset d₁ _
  obtain ⟨raw, hfile, hraw⟩ := g.kept hrely _ h
  exact ⟨hd₂.1, hd₂.2, g.keeps_ok ⟨raw, hd₂.2.trans hfile, hraw⟩⟩

/-- The calls that work on one temporary file. -/
def Works (q : Path) (o : Op) : Prop :=
  (∃ x, o = .write q x) ∨ o = .sync q ∨ o = .close q ∨ o = .remove q

/-- What such a call does to the rest of the directory. -/
theorem Works.does {q : Path} {o : Op} (ho : Works q o) {d d' : Dir} {r : o.Res}
    (hq : Matches tempFront tempBack q) (howner : d.owner q = some me) (h : o.Does me d r d') :
    Spares tempFront tempBack me d d' ∧ d'.files walletFile = d.files walletFile ∧
      d'.owner q = some me := by
  have hrewrite : ∀ x, Spares tempFront tempBack me d (d.rewrite q x) ∧
      (d.rewrite q x).files walletFile = d.files walletFile ∧
      (d.rewrite q x).owner q = some me := by
    intro x
    rw [Dir.rewrite_owner]
    exact ⟨spares_rewrite howner x, Dir.rewrite_files_ne (ne_walletFile hq) x, howner⟩
  have hsame : Spares tempFront tempBack me d d ∧ d.files walletFile = d.files walletFile ∧
      d.owner q = some me := ⟨.refl d, rfl, howner⟩
  obtain ⟨x, rfl⟩ | rfl | rfl | rfl := ho
  · obtain ⟨x', rfl, -⟩ := h
    exact hrewrite x'
  · obtain rfl | ⟨-, part, rfl⟩ := h
    · exact hsame
    · exact hrewrite part
  · obtain rfl | ⟨-, part, rfl⟩ := h
    · exact hsame
    · exact hrewrite part
  · obtain rfl | ⟨-, rfl⟩ := h
    · exact ⟨spares_remove, Dir.set_files_ne (ne_walletFile hq) _, howner⟩
    · exact hsame

theorem Works.renames {q : Path} {o : Op} (ho : Works q o) (r : o.Res) : o.renames r = false := by
  obtain ⟨x, rfl⟩ | rfl | rfl | rfl := ho <;> rfl

/-- **Work rule.** A call on a temporary file of ours. -/
theorem keeps_work {q : Path} {x : Content} {o : Op} (ho : Works q o) {f : o.Res → Prog α}
    {Q : α → Dir → Prop} (hI : I (d.files walletFile)) (hmine : Mine tempFront tempBack me q x d)
    (h : ∀ d₁ r d₂, Mine tempFront tempBack me q x d₁ → o.Does me d₁ r d₂ →
      I (d₂.files walletFile) → d₂.owner q = some me → (g.terms may commit).Keeps (f r) Q d₂) :
    (g.terms may commit).Keeps (Prog.call o >>= f) Q d := by
  apply g.keeps_side ho.renames
  intro d₁ hrely r d₂ hdoes
  have hmine₁ := hmine.leaves (g.leaves hrely)
  obtain ⟨hspares, hwallet, howner⟩ := ho.does hmine.matches' hmine₁.owner hdoes
  refine ⟨hspares, hwallet, h d₁ r d₂ hmine₁ hdoes ?_ howner⟩
  rw [hwallet]
  exact g.stable hrely hI

section

variable {q : Path} {H : α → Dir → Prop} (err : WalletError) (hI : I (d.files walletFile))
  (hq : Matches tempFront tempBack q) (howner : d.owner q = some me)

include hI hq howner

/-- A failed `save` removes its temporary file. -/
theorem keeps_discard :
    (g.terms may commit).Keeps (do let _ ← remove q; return .error err) (Post I H) d := by
  obtain ⟨x, hmine⟩ := Mine.of_owner hq howner
  apply g.keeps_work (.inr (.inr (.inr rfl))) hI hmine
  intro _ _ d₂ _ _ hI₂ _
  exact g.keeps_error err hI₂

theorem keeps_closeDiscard :
    (g.terms may commit).Keeps
      (do let _ ← close q; let _ ← remove q; return .error err) (Post I H) d := by
  obtain ⟨x, hmine⟩ := Mine.of_owner hq howner
  apply g.keeps_work (.inr (.inr (.inl rfl))) hI hmine
  intro _ _ d₂ _ _ hI₂ howner₂
  exact g.keeps_discard err hI₂ hq howner₂

end

/-! ## Saving -/

/-- The call that takes effect: our complete file becomes `wallet.dat`. -/
theorem keeps_commit {q : Path} {raw : Content} {s : Seed} (hcommit : commit s p)
    (hraw : Stored c s p raw) (hI : I (d.files walletFile))
    (hmine : Mine tempFront tempBack me q raw d) :
    (g.terms may commit).Keeps
      (do
        if !(← rename q walletFile) then do
          let _ ← remove q
          return .error .renameWallet
        else return .ok ())
      (Post I fun _ => Holds c s p) d := by
  apply Terms.keeps_call
  intro d₁ hrely r d₂ hdoes hmay
  have hmine₁ := hmine.leaves (g.leaves hrely)
  obtain ⟨rfl, rfl⟩ | ⟨rfl, x, hx, rfl⟩ := hdoes
  · -- The rename failed.
    refine ⟨⟨.refl _, fun _ => rfl, by simp [Op.renames]⟩, ?_⟩
    exact g.keeps_discard .renameWallet (g.stable hrely hI) hmine.matches' hmine₁.owner
  · -- What was renamed is what we wrote: a removed file cannot be renamed.
    obtain rfl : x = raw := by
      obtain hfiles | hfiles := hmine₁.files
      · exact Option.some.inj (hx.symm.trans hfiles)
      · rw [hfiles] at hx
        cases hx
    have hholds : Holds c s p ((d₁.set q none).set walletFile (some x)) :=
      ⟨x, Dir.set_files_self _, hraw⟩
    have hspares : Spares tempFront tempBack me d₁ ((d₁.set q none).set walletFile (some x)) :=
      fun j hj => (spares_remove j hj).trans (spares_set walletFile_not_temp _ j hj)
    refine ⟨⟨hspares, by simp [Op.renames], fun _ => ⟨hmay, s, p, hcommit, hholds⟩⟩, ?_⟩
    exact Terms.keeps_pure fun d' hrely => g.kept hrely s hholds

/-- **Save.** The old `wallet.dat` stays, or the new one is complete. One
step for each call of `save`, in its order. -/
theorem keeps_save {s : Seed} (hcommit : commit s p) (reader : List UInt8)
    (hI : I (d.files walletFile)) :
    (g.terms may commit).Keeps (save c s p reader) (Post I fun _ => Holds c s p) d := by
  unfold save
  split
  · exact g.keeps_error _ hI
  next es reader' hes =>
  split
  · exact g.keeps_error _ hI
  next raw hraw =>
  have hstored : Stored c s p raw := by
    obtain ⟨salt, nonce, rfl⟩ := encryptSeed_eq_ok hes
    exact ⟨salt, nonce, hraw⟩
  apply g.keeps_side (fun _ => rfl)
  intro d₁ hrely r d₂ hdoes
  have hI₁ := g.stable hrely hI
  obtain ⟨rfl, rfl⟩ | ⟨q, rfl, hq, hfree, howner, rfl⟩ := hdoes
  · exact ⟨.refl _, rfl, g.keeps_error _ hI₁⟩
  have hwallet : (d₁.claim q me).files walletFile = d₁.files walletFile :=
    Dir.claim_files_ne (ne_walletFile hq) me
  refine ⟨spares_claim howner, hwallet, ?_⟩
  rw [← hwallet] at hI₁
  -- From here on the file is ours.
  apply g.keeps_work (.inl ⟨raw, rfl⟩) hI₁ (Mine.claim hq)
  intro d₃ r d₄ hmine hdoes hI₄ howner₄
  cases r with
  | false => exact g.keeps_closeDiscard .writeTemp hI₄ hq howner₄
  | true =>
  -- All of `raw` was written, unless a sweep has removed the file meanwhile.
  obtain ⟨x, rfl, hx⟩ := hdoes
  have hmine₄ := hmine.write (hx rfl)
  apply g.keeps_work (.inr (.inl rfl)) hI₄ hmine₄
  intro d₅ r d₆ hmine hdoes hI₆ howner₆
  cases r with
  | false => exact g.keeps_closeDiscard .syncTemp hI₆ hq howner₆
  | true =>
  obtain rfl | ⟨hr, -⟩ := hdoes
  swap
  · cases hr
  apply g.keeps_work (.inr (.inr (.inl rfl))) hI₆ hmine
  intro d₇ r d₈ hmine hdoes hI₈ howner₈
  cases r with
  | false => exact g.keeps_discard .closeTemp hI₈ hq howner₈
  | true =>
  obtain rfl | ⟨hr, -⟩ := hdoes
  swap
  · cases hr
  apply g.keeps_look (by rfl)
  intro d₉ r hrely _
  have hI₉ := g.stable hrely hI₈
  have hmine₉ := hmine.leaves (g.leaves hrely)
  cases r with
  | false => exact g.keeps_discard .chmodTemp hI₉ hq hmine₉.owner
  | true => exact g.keeps_commit hcommit hstored hI₉ hmine₉

/-! ## Opening and changing -/

theorem keeps_sweepLoop {cutoff : Int} {ps : List Path}
    (hps : ∀ q ∈ ps, Matches tempFront tempBack q) (hI : I (d.files walletFile)) :
    (g.terms may commit).Keeps (sweepLoop cutoff ps) (fun _ d => I (d.files walletFile)) d := by
  induction ps generalizing d with
  | nil => exact Terms.keeps_pure fun d' hrely => g.stable hrely hI
  | cons q ps ih =>
    have hq := hps q mem_cons_self
    have hrest : ∀ {d : Dir}, I (d.files walletFile) →
        (g.terms may commit).Keeps (sweepLoop cutoff ps) (fun _ d => I (d.files walletFile)) d :=
      fun hI => ih (fun q hq => hps q (mem_cons_of_mem _ hq)) hI
    apply g.keeps_look (by rfl)
    intro d₁ r hrely _
    have hI₁ := g.stable hrely hI
    cases r with
    | notExist => exact hrest hI₁
    | failed => exact hrest hI₁
    | found modTime =>
      show (g.terms may commit).Keeps (if _ then _ else _) _ d₁
      split
      · apply g.keeps_side (fun _ => rfl)
        intro d₂ hrely r d₃ hdoes
        have hI₂ := g.stable hrely hI₁
        obtain rfl | ⟨-, rfl⟩ := hdoes
        · have hwallet : (d₂.set q none).files walletFile = d₂.files walletFile :=
            Dir.set_files_ne (ne_walletFile hq) _
          exact ⟨spares_remove, hwallet, hrest (by rw [hwallet]; exact hI₂)⟩
        · exact ⟨.refl _, rfl, hrest hI₂⟩
      · exact hrest hI₁

theorem keeps_sweepStaleTempFiles (hI : I (d.files walletFile)) :
    (g.terms may commit).Keeps sweepStaleTempFiles (fun _ d => I (d.files walletFile)) d := by
  apply g.keeps_look (by rfl)
  intro d₁ r hrely hdoes
  have hI₁ := g.stable hrely hI
  cases r with
  | none => exact Terms.keeps_pure fun d' hrely => g.stable hrely hI₁
  | some ps =>
    apply g.keeps_look (by rfl)
    intro d₂ time hrely _
    exact g.keeps_sweepLoop (hdoes.2 ps rfl) (g.stable hrely hI₁)

theorem keeps_createNew {wm : WalletManager} {reader : List UInt8} {mnemonicPassphrase : GoString}
    (hcommit : ∀ s, freshSeed c reader wm.wordList mnemonicPassphrase = some s → commit s p)
    (hI : I (d.files walletFile)) :
    (g.terms may commit).Keeps (wm.createNew c p mnemonicPassphrase reader)
      (Post I fun wm => Holds c wm.seed p) d := by
  unfold WalletManager.createNew
  unfold freshSeed at hcommit
  split
  · exact g.keeps_error _ hI
  next entropy rest hentropy =>
  rw [hentropy] at hcommit
  split
  · exact g.keeps_error _ hI
  next mnemonic hmnemonic =>
  simp only [hmnemonic] at hcommit
  apply Terms.keeps_bind
  refine (g.keeps_save (hcommit _ rfl) rest hI).imp ?_
  intro r d₁ hpost
  cases r with
  | error err => exact g.keeps_error err hpost
  | ok _ => exact g.keeps_writeFingerprint _ hpost

/-- What reading and decrypting `wallet.dat` gives. -/
theorem holds_of_decryptSeed {P : Set GoString} {p' : GoString} {raw : Content}
    {es : EncryptedSeed} {s : Seed} (hideal : c.IdealOn P) (hp : p' ∈ P)
    (hload : ∀ raw, I (some raw) → ∃ s, ∃ p ∈ P, Stored c s p raw)
    (hI : I (d.files walletFile)) (hfile : d.files walletFile = some raw)
    (hes : unmarshalEncryptedSeed raw = .ok es) (hs : decryptSeed c es p' = .ok s) :
    Holds c s p' d := by
  rw [hfile] at hI
  obtain ⟨s', p'', hp'', hstored⟩ := hload raw hI
  obtain ⟨es', hes', hdec⟩ := hstored.decrypt hideal hp''
  obtain rfl : es' = es := Except.ok.inj (hes'.symm.trans hes)
  obtain ⟨rfl, rfl⟩ := (hdec p' hp s).mp hs
  exact ⟨raw, hfile, hstored⟩

theorem keeps_loadExisting {P : Set GoString} (wm : WalletManager) (hideal : c.IdealOn P)
    (hp : p ∈ P) (hload : ∀ raw, I (some raw) → ∃ s, ∃ p ∈ P, Stored c s p raw)
    (hI : I (d.files walletFile)) :
    (g.terms may commit).Keeps (wm.loadExisting c p) (Post I fun wm => Holds c wm.seed p) d := by
  apply g.keeps_look (by rfl)
  intro d₁ r hrely hdoes
  have hI₁ := g.stable hrely hI
  cases r with
  | none => exact g.keeps_error _ hI₁
  | some raw =>
    dsimp only
    split
    · exact g.keeps_error _ hI₁
    next es hes =>
    split
    · exact g.keeps_error _ hI₁
    next s hs =>
    exact g.keeps_ok (holds_of_decryptSeed hideal hp hload hI₁ (hdoes.2 raw rfl) hes hs)

/-- **`NewWalletManager`.** A wallet is returned with the seed that
`wallet.dat` holds. -/
theorem keeps_newWalletManager {P : Set GoString} {dataDir : GoString} {reader : List UInt8}
    {wordList : Option WordList} {mnemonicPassphrase : GoString} (hideal : c.IdealOn P)
    (hp : p ∈ P) (hload : ∀ raw, I (some raw) → ∃ s, ∃ p ∈ P, Stored c s p raw)
    (hcommit : I none → ∀ s, freshSeed c reader wordList mnemonicPassphrase = some s → commit s p)
    (hI : I (d.files walletFile)) : (g.terms may commit).Keeps
      (newWalletManager c dataDir p reader wordList mnemonicPassphrase)
      (Post I fun wm => Holds c wm.seed p) d := by
  unfold newWalletManager
  split
  · exact g.keeps_error _ hI
  split
  · exact g.keeps_error _ hI
  split
  · exact g.keeps_error _ hI
  apply g.keeps_look (by rfl)
  intro d₁ r hrely _
  have hI₁ := g.stable hrely hI
  cases r with
  | false => exact g.keeps_error _ hI₁
  | true =>
  apply Terms.keeps_bind
  refine (g.keeps_sweepStaleTempFiles hI₁).imp ?_
  intro _ d₂ hI₂
  apply g.keeps_look (by rfl)
  intro d₃ r hrely hdoes
  have hI₃ := g.stable hrely hI₂
  cases r with
  | failed => exact g.keeps_error _ hI₃
  | notExist =>
    -- `wallet.dat` is absent at this moment.
    have hnone := hdoes.2 rfl
    exact g.keeps_createNew (hcommit (hnone ▸ hI₃)) hI₃
  | found modTime =>
  apply Terms.keeps_bind
  refine (g.keeps_loadExisting _ hideal hp hload hI₃).imp ?_
  intro r d₄ hpost
  cases r with
  | error err => exact g.keeps_error _ hpost
  | ok wm =>
  apply g.keeps_look (by rfl)
  intro d₅ r hrely _
  have hholds := g.kept hrely _ hpost
  cases r with
  | failed => exact g.keeps_ok hholds
  | found modTime => exact g.keeps_ok hholds
  | notExist => exact g.keeps_writeFingerprint _ hholds

/-- **`ChangePassphrase`.** The seed that `wallet.dat` holds under the old
passphrase is saved under the new one. -/
theorem keeps_changePassphrase {P : Set GoString} {old : GoString} {reader : List UInt8}
    (hideal : c.IdealOn P) (hold : old ∈ P)
    (hload : ∀ raw, I (some raw) → ∃ s, ∃ p ∈ P, Stored c s p raw)
    (hcommit : ∀ s raw, I (some raw) → Stored c s old raw → commit s p)
    (hI : I (d.files walletFile)) : (g.terms may commit).Keeps (changePassphrase c old p reader)
      (Post I fun _ d => ∃ s, Holds c s p d) d := by
  unfold changePassphrase
  split
  · exact g.keeps_error _ hI
  apply g.keeps_look (by rfl)
  intro d₁ r hrely hdoes
  have hI₁ := g.stable hrely hI
  cases r with
  | none => exact g.keeps_error _ hI₁
  | some raw =>
    dsimp only
    split
    · exact g.keeps_error _ hI₁
    next es hes =>
    split
    · exact g.keeps_error _ hI₁
    next s hs =>
    have hfile := hdoes.2 raw rfl
    obtain ⟨raw', hfile', hraw'⟩ := holds_of_decryptSeed hideal hold hload hI₁ hfile hes hs
    have hs := hcommit s raw' (hfile' ▸ hI₁) hraw'
    refine (g.keeps_save hs reader hI₁).imp ?_
    intro r d₂ hpost
    cases r with
    | error err => exact hpost
    | ok _ => exact ⟨s, hpost⟩

end Guest

/-! ## Samples -/

/-- Random bytes for a first run. -/
def sampleReader (b : UInt8) : List UInt8 := 0 :: b :: List.replicate 58 0

def sampleDataDir : GoString := text "data".toList

def samplePassphrase : GoString := List.replicate 16 97

/-- An empty directory. -/
def emptyDir : Dir := ⟨fun _ => none, fun _ => none⟩

end Otedama.Lightning
