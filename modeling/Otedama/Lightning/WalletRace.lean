import Otedama.Lightning.Wallet

/-! # First runs at the same time

Several processes call `NewWalletManager` on one data directory that has
no wallet, under one passphrase. Each looks for `wallet.dat` and, if
there is none, makes a seed of its own and saves it. Between the look and
the `rename` another process can have saved, and the `rename` replaces
what it saved; both return their own seed.

Nothing is lost as long as no `rename` replaces another seed, and as soon
as one does, a seed that a process has returned is gone. -/

namespace Otedama.Lightning

open GoString FileProgram Prog

/-! ## The race -/

/-- What is the process's own in a first run. -/
structure FirstRun where
  reader : List UInt8
  wordList : Option WordList
  mnemonicPassphrase : GoString

def FirstRun.seed (c : Crypto) (a : FirstRun) : Option Seed :=
  freshSeed c a.reader a.wordList a.mnemonicPassphrase

/-- The processes before their first step. -/
def race {n : Nat} (c : Crypto) (dataDir passphrase : GoString) (a : Fin n → FirstRun)
    (disk : Dir) : Shared n (Except WalletError WalletManager) where
  dir := disk
  progs i := newWalletManager c dataDir passphrase (a i).reader (a i).wordList
    (a i).mnemonicPassphrase

/-- `wallet.dat` decrypts to the seed. -/
def DecryptsTo (c : Crypto) (passphrase : GoString) (s : Seed) (d : Dir) : Prop :=
  ∃ raw es, d.files walletFile = some raw ∧ unmarshalEncryptedSeed raw = .ok es ∧
    decryptSeed c es passphrase = .ok s

/-- Every seed that a process has returned is the one in `wallet.dat`. -/
def NoneStranded {n : Nat} (c : Crypto) (passphrase : GoString)
    (s : Shared n (Except WalletError WalletManager)) : Prop :=
  ∀ i wm, s.progs i = .ret (.ok wm) → DecryptsTo c passphrase wm.seed s.dir

/-- All processes have returned. -/
def AllReturned {n : Nat} (s : Shared n (Except WalletError WalletManager)) : Prop :=
  ∀ i, ∃ r, s.progs i = .ret r

/-- The processes whose `rename` took effect made one seed. -/
def OneSeed {n : Nat} (c : Crypto) (a : Fin n → FirstRun) (renamed : List (Fin n)) : Prop :=
  ∀ i ∈ renamed, ∀ j ∈ renamed, (a i).seed c = (a j).seed c

/-! ## A save is followed by success -/

section

variable {c : Crypto}

theorem commits_sweepLoop (cutoff : Int) (ps : List Path) :
    (sweepLoop cutoff ps).Commits (fun _ => False) false := by
  induction ps with
  | nil => exact commits_pure _ _
  | cons p ps ih =>
    apply commits_call (fun _ => rfl)
    intro r
    cases r with
    | notExist => exact ih
    | failed => exact ih
    | found modTime =>
      dsimp only
      split
      · exact commits_call (fun _ => rfl) fun _ => ih
      · exact ih

theorem commits_sweepStaleTempFiles : sweepStaleTempFiles.Commits (fun _ => False) false := by
  apply commits_call (fun _ => rfl)
  intro r
  cases r with
  | none => exact commits_pure _ _
  | some ps => exact commits_call (fun _ => rfl) fun _ => commits_sweepLoop _ ps

theorem commits_save (s : Seed) (p : GoString) (reader : List UInt8) :
    (save c s p reader).Commits (fun r => r = .ok ()) false := by
  have hdiscard : ∀ q err, (do let _ ← remove q; return .error err : Prog _).Commits
      (fun r : Except WalletError Unit => r = .ok ()) false :=
    fun q err => commits_call (fun _ => rfl) fun _ => commits_pure _ _
  unfold save
  split
  · exact commits_pure _ _
  split
  · exact commits_pure _ _
  apply commits_call (fun _ => rfl)
  intro r
  cases r with
  | none => exact commits_pure _ _
  | some q =>
  apply commits_call (fun _ => rfl)
  intro r
  cases r with
  | false => exact commits_call (fun _ => rfl) fun _ => hdiscard q _
  | true =>
  apply commits_call (fun _ => rfl)
  intro r
  cases r with
  | false => exact commits_call (fun _ => rfl) fun _ => hdiscard q _
  | true =>
  apply commits_call (fun _ => rfl)
  intro r
  cases r with
  | false => exact hdiscard q _
  | true =>
  apply commits_call (fun _ => rfl)
  intro r
  cases r with
  | false => exact hdiscard q _
  | true =>
  -- The rename is the last call of a save that succeeds.
  intro r
  cases r with
  | false => exact hdiscard q _
  | true => exact fun _ => rfl

theorem commits_createNew (wm : WalletManager) (passphrase : GoString) (a : FirstRun)
    (hwordList : wm.wordList = a.wordList) :
    (wm.createNew c passphrase a.mnemonicPassphrase a.reader).Commits
      (fun r => ∃ wm, r = .ok wm ∧ a.seed c = some wm.seed) false := by
  unfold WalletManager.createNew FirstRun.seed freshSeed
  rw [hwordList]
  split
  · exact commits_pure _ _
  split
  · exact commits_pure _ _
  apply (commits_save _ _ _).bind
  intro r done hdone
  cases r with
  | error err =>
    -- Without success nothing was renamed.
    obtain rfl : done = false := by simpa using hdone
    exact commits_pure _ _
  | ok _ => exact commits_call (fun _ => rfl) fun _ _ => ⟨_, rfl, rfl⟩

theorem commits_loadExisting (wm : WalletManager) (passphrase : GoString) :
    (wm.loadExisting c passphrase).Commits (fun _ => False) false := by
  apply commits_call (fun _ => rfl)
  intro r
  cases r with
  | none => exact commits_pure _ _
  | some raw =>
    dsimp only
    split
    · exact commits_pure _ _
    split
    · exact commits_pure _ _
    · exact commits_pure _ _

/-- A process that has saved returns its own seed. -/
theorem commits_newWalletManager (dataDir passphrase : GoString) (a : FirstRun) :
    (newWalletManager c dataDir passphrase a.reader a.wordList a.mnemonicPassphrase).Commits
      (fun r => ∃ wm, r = .ok wm ∧ a.seed c = some wm.seed) false := by
  unfold newWalletManager
  split
  · exact commits_pure _ _
  split
  · exact commits_pure _ _
  split
  · exact commits_pure _ _
  apply commits_call (fun _ => rfl)
  intro r
  cases r with
  | false => exact commits_pure _ _
  | true =>
  apply commits_sweepStaleTempFiles.bind
  intro _ done hdone
  obtain rfl : done = false := by simpa using hdone
  apply commits_call (fun _ => rfl)
  intro r
  cases r with
  | failed => exact commits_pure _ _
  | notExist => exact commits_createNew _ passphrase a rfl
  | found modTime =>
  apply (commits_loadExisting _ _).bind
  intro r done hdone
  obtain rfl : done = false := by simpa using hdone
  cases r with
  | error err => exact commits_pure _ _
  | ok wm =>
  apply commits_call (fun _ => rfl)
  intro r
  cases r with
  | failed => exact commits_pure _ _
  | found modTime => exact commits_pure _ _
  | notExist => exact commits_call (fun _ => rfl) fun _ => commits_pure _ _

end

/-! ## What the processes rely on -/

section

variable {n : Nat} {c : Crypto} {dataDir passphrase : GoString} {a : Fin n → FirstRun}

/-- `wallet.dat` is absent or holds a seed under the passphrase. -/
def Sound (c : Crypto) (passphrase : GoString) (w : Option Content) : Prop :=
  ∀ raw, w = some raw → ∃ s, Stored c s passphrase raw

/-- The others never replace the seed in `wallet.dat` by another one. -/
structure RaceRely (c : Crypto) (passphrase : GoString) (me : Nat) (d d' : Dir) : Prop where
  sound : Sound c passphrase (d.files walletFile) → Sound c passphrase (d'.files walletFile)
  kept : ∀ s, Holds c s passphrase d → Holds c s passphrase d'
  leaves : Leaves tempFront tempBack me d d'

theorem raceGuest (c : Crypto) (passphrase : GoString) (me : Nat) :
    Guest c me (RaceRely c passphrase me) (Sound c passphrase) passphrase where
  refl d := ⟨id, fun _ => id, .refl d⟩
  trans h h' := ⟨h'.sound ∘ h.sound, fun s => h'.kept s ∘ h.kept s, h.leaves.trans h'.leaves⟩
  stable h := h.sound
  kept h := h.kept
  leaves h := h.leaves

/-- A `rename` of `i` does not replace another seed. -/
def MayRename (c : Crypto) (passphrase : GoString) (a : FirstRun) (o : Op) (r : o.Res) (d : Dir) :
    Prop :=
  o.renames r = true → ∀ s, Holds c s passphrase d → a.seed c = some s

def raceTerms (c : Crypto) (passphrase : GoString) (a : Fin n → FirstRun) (i : Fin n) : Terms :=
  (raceGuest c passphrase i).terms (MayRename c passphrase (a i))
    fun s p => (a i).seed c = some s ∧ p = passphrase

/-- What one process does, the others can rely on. -/
theorem raceRely_of_guar {i : Fin n} {j : Nat} (hij : j ≠ i) {o : Op} {r : o.Res} {d d' : Dir}
    (h : (raceTerms c passphrase a i).guar o r d d') : RaceRely c passphrase j d d' := by
  have hleaves : Leaves tempFront tempBack j d d' := h.spares j hij
  cases hren : o.renames r with
  | false =>
    have hsame := h.other hren
    refine ⟨fun hsound => hsame ▸ hsound, fun s hholds => ?_, hleaves⟩
    obtain ⟨raw, hfile, hraw⟩ := hholds
    exact ⟨raw, hsame.trans hfile, hraw⟩
  | true =>
    -- The rename puts our seed there; the one it replaces was the same.
    obtain ⟨hmay, s, p, ⟨hs, rfl⟩, hholds⟩ := h.rename hren
    refine ⟨fun _ raw hraw => ?_, fun s' hholds' => ?_, hleaves⟩
    · obtain ⟨raw', hfile, hraw'⟩ := hholds
      obtain rfl : raw' = raw := Option.some.inj (hfile.symm.trans hraw)
      exact ⟨s, hraw'⟩
    · obtain rfl : s = s' := Option.some.inj (hs.symm.trans (hmay hren s' hholds'))
      exact hholds

/-- What holds along a race in which all saves are of one seed. -/
structure RaceInv (c : Crypto) (passphrase : GoString) (a : Fin n → FirstRun)
    (renamed : List (Fin n)) (s : Shared n (Except WalletError WalletManager)) : Prop where
  keeps : ∀ i, (raceTerms c passphrase a i).Keeps (s.progs i)
    (Guest.Post (Sound c passphrase) fun wm => Holds c wm.seed passphrase) s.dir
  /-- The seed in `wallet.dat` was put there by a process of the race. -/
  saved : ∀ raw, s.dir.files walletFile = some raw →
    ∃ i ∈ renamed, ∃ seed, (a i).seed c = some seed ∧ Stored c seed passphrase raw

theorem raceInv_start (hideal : c.IdealOn {passphrase}) {disk : Dir}
    (habsent : disk.files walletFile = none) :
    RaceInv c passphrase a [] (race c dataDir passphrase a disk) where
  keeps i := by
    have hsound : Sound c passphrase (disk.files walletFile) := by
      intro raw hraw
      rw [habsent] at hraw
      cases hraw
    have hload : ∀ raw, Sound c passphrase (some raw) →
        ∃ s, ∃ p ∈ ({passphrase} : Set GoString), Stored c s p raw := by
      intro raw hraw
      obtain ⟨s, hs⟩ := hraw raw rfl
      exact ⟨s, passphrase, rfl, hs⟩
    exact (raceGuest c passphrase i).keeps_newWalletManager hideal rfl hload
      (fun _ s hs => ⟨hs, rfl⟩) hsound
  saved raw hraw := by
    have hnone : some raw = none := hraw.symm.trans habsent
    cases hnone

variable {renamed : List (Fin n)} {s : Shared n (Except WalletError WalletManager)}

section

variable (hideal : c.IdealOn {passphrase})

include hideal

/-- A `rename` in a race of one seed replaces no other seed. -/
theorem RaceInv.mayRename (h : RaceInv c passphrase a renamed s) {i : Fin n}
    (hone : ∀ j ∈ renamed, (a i).seed c = (a j).seed c) {seed : Seed}
    (hholds : Holds c seed passphrase s.dir) : (a i).seed c = some seed := by
  obtain ⟨raw, hfile, hraw⟩ := hholds
  obtain ⟨j, hj, seed', hseed', hraw'⟩ := h.saved raw hfile
  obtain ⟨rfl, -⟩ := Stored.unique hideal rfl rfl hraw hraw'
  rw [hone j hj]
  exact hseed'

theorem raceInv_step {i : Fin n} {b : Bool} {s' : Shared n (Except WalletError WalletManager)}
    (h : RaceInv c passphrase a renamed s) (hstep : Shared.Step i b s s')
    (hone : OneSeed c a (renamed ++ if b then [i] else [])) :
    RaceInv c passphrase a (renamed ++ if b then [i] else []) s' := by
  cases hstep with
  | @call _ o k r d' hprog hdoes =>
    have hmay : MayRename c passphrase (a i) o r s.dir := by
      intro hren seed hholds
      refine h.mayRename hideal (fun j hj => ?_) hholds
      rw [hren] at hone
      exact hone i (by simp) j (by simp [hj])
    have hshare : ∀ j, j ≠ i → ∀ d', (raceTerms c passphrase a i).guar o r s.dir d' →
        (raceTerms c passphrase a j).rely s.dir d' :=
      fun j hj d' hguar => raceRely_of_guar (fun hval => hj (Fin.ext hval)) hguar
    obtain ⟨hguar, hkeeps⟩ := Shared.keeps_step rfl hshare h.keeps hprog hdoes hmay
    refine ⟨hkeeps, fun raw hraw => ?_⟩
    cases hren : o.renames r with
    | false =>
      have hfile : s.dir.files walletFile = some raw := (hguar.other hren).symm.trans hraw
      simpa using h.saved raw hfile
    | true =>
      obtain ⟨-, seed, p, ⟨hseed, rfl⟩, raw', hfile, hstored⟩ := hguar.rename hren
      obtain rfl : raw' = raw := Option.some.inj (hfile.symm.trans hraw)
      exact ⟨i, by simp, seed, hseed, hstored⟩

theorem raceInv_run {disk : Dir} (habsent : disk.files walletFile = none)
    (hrun : Shared.Run (race c dataDir passphrase a disk) renamed s) (hone : OneSeed c a renamed) :
    RaceInv c passphrase a renamed s := by
  induction hrun with
  | start => exact raceInv_start hideal habsent
  | step _ hstep ih =>
    refine raceInv_step hideal (ih fun i hi j hj => ?_) hstep hone
    exact hone i (List.mem_append_left _ hi) j (List.mem_append_left _ hj)

theorem Holds.decryptsTo {s : Seed} {d : Dir} (h : Holds c s passphrase d) :
    DecryptsTo c passphrase s d := by
  obtain ⟨raw, hfile, hraw⟩ := h
  obtain ⟨es, hes, hdec⟩ := hraw.decrypt hideal rfl
  exact ⟨raw, es, hfile, hes, (hdec passphrase rfl s).mpr ⟨rfl, rfl⟩⟩

end

theorem DecryptsTo.unique {s s' : Seed} {d : Dir} (h : DecryptsTo c passphrase s d)
    (h' : DecryptsTo c passphrase s' d) : s = s' := by
  obtain ⟨raw, es, hfile, hes, hs⟩ := h
  obtain ⟨raw', es', hfile', hes', hs'⟩ := h'
  obtain rfl : raw = raw' := Option.some.inj (hfile.symm.trans hfile')
  obtain rfl : es = es' := Except.ok.inj (hes.symm.trans hes')
  exact Except.ok.inj (hs.symm.trans hs')

/-- If no seed is stranded, the processes that saved made one seed. -/
theorem oneSeed_of_noneStranded {disk : Dir}
    (hrun : Shared.Run (race c dataDir passphrase a disk) renamed s) (hdone : AllReturned s)
    (h : NoneStranded c passphrase s) : OneSeed c a renamed := by
  have hown : ∀ i ∈ renamed, ∃ seed, (a i).seed c = some seed ∧
      DecryptsTo c passphrase seed s.dir := by
    intro i hi
    obtain ⟨done, hrenamed, hcommits⟩ :=
      hrun.commits (fun i => commits_newWalletManager dataDir passphrase (a i)) i
    obtain ⟨r, hr⟩ := hdone i
    rw [hr] at hcommits
    obtain ⟨wm, rfl, hseed⟩ := hcommits (hrenamed hi)
    exact ⟨wm.seed, hseed, h i wm hr⟩
  intro i hi j hj
  obtain ⟨seed, hseed, hdec⟩ := hown i hi
  obtain ⟨seed', hseed', hdec'⟩ := hown j hj
  rw [hseed, hseed', hdec.unique hdec']

/-! ## When a seed is stranded -/

/-- **First runs at the same time.**  After all have returned, no seed is
stranded precisely when the processes whose `rename` took effect made one
seed: for different seeds, when at most one `rename` took effect. -/
theorem noneStranded_iff (hideal : c.IdealOn {passphrase}) {disk : Dir}
    (habsent : disk.files walletFile = none) {renamed : List (Fin n)}
    {s : Shared n (Except WalletError WalletManager)}
    (hrun : Shared.Run (race c dataDir passphrase a disk) renamed s) (hdone : AllReturned s) :
    NoneStranded c passphrase s ↔ OneSeed c a renamed := by
  constructor
  · exact oneSeed_of_noneStranded hrun hdone
  · intro hone i wm hwm
    have hkeeps := (raceInv_run hideal habsent hrun hone).keeps i
    rw [hwm] at hkeeps
    exact Holds.decryptsTo hideal hkeeps.result

end

/-- Two first runs with different entropy. -/
def sampleRuns (w : WordList) (i : Fin 2) : FirstRun :=
  ⟨sampleReader (if i.val = 0 then 0 else 0x20), some w, []⟩

/-- The race of the two, in the given order. -/
def sampleRace (schedule : List (Fin 2)) :
    List (Fin 2) × Shared 2 (Except WalletError WalletManager) :=
  schedule.foldl Shared.advance
    ([], race toyCrypto sampleDataDir samplePassphrase (sampleRuns sampleWordList) emptyDir)

theorem sampleRace_run (schedule : List (Fin 2)) :
    Shared.Run (race toyCrypto sampleDataDir samplePassphrase (sampleRuns sampleWordList) emptyDir)
      (sampleRace schedule).1 (sampleRace schedule).2 :=
  Shared.Run.foldl_advance schedule (x := ([], _)) .start

theorem idealOn_samplePassphrase : toyCrypto.IdealOn {samplePassphrase} := by
  have hmem : ({samplePassphrase} : Set GoString) ⊆ {p | p.length = 16} := by
    rintro _ rfl
    rfl
  exact fun p hp p' hp' => toyCrypto_idealOn p (hmem hp) p' (hmem hp')

/-- The theorem at a race that the first process wins: the second one loads
the wallet that it finds. -/
theorem noneStranded_oneSaves :
    toyCrypto.IdealOn {samplePassphrase} ∧
    ∃ w, newWordList sampleWords = .ok w ∧
      ∃ s, Shared.Run (race toyCrypto sampleDataDir samplePassphrase (sampleRuns w) emptyDir)
          [0] s ∧
        AllReturned s ∧ NoneStranded toyCrypto samplePassphrase s := by
  -- A first run makes eleven calls, a load six.
  let schedule := List.replicate 11 (0 : Fin 2) ++ List.replicate 6 1
  have hrun := sampleRace_run schedule
  have hsaved : (sampleRace schedule).1 = [0] := by decide +kernel
  have hdone : AllReturned (sampleRace schedule).2 := by
    unfold AllReturned
    decide +kernel
  have hone : OneSeed toyCrypto (sampleRuns sampleWordList) [0] := by
    intro i hi j hj
    rw [List.mem_singleton.mp hi, List.mem_singleton.mp hj]
  rw [← hsaved] at hone
  exact ⟨idealOn_samplePassphrase, sampleWordList, newWordList_sampleWords, _, hsaved ▸ hrun, hdone,
    (noneStranded_iff idealOn_samplePassphrase rfl hrun hdone).mpr hone⟩

/-- Both look before either saves, and both save: the first seed is lost. -/
theorem bothSave_strands :
    toyCrypto.IdealOn {samplePassphrase} ∧
    ∃ w, newWordList sampleWords = .ok w ∧
      ∃ s, Shared.Run (race toyCrypto sampleDataDir samplePassphrase (sampleRuns w) emptyDir)
          [0, 1] s ∧
        AllReturned s ∧ ¬ NoneStranded toyCrypto samplePassphrase s := by
  -- The fourth call is the look for `wallet.dat`.
  let schedule := [0, 0, 0, 0, 1, 1, 1, 1] ++ List.replicate 7 (0 : Fin 2) ++ List.replicate 7 1
  have hrun := sampleRace_run schedule
  have hsaved : (sampleRace schedule).1 = [0, 1] := by decide +kernel
  have hdone : AllReturned (sampleRace schedule).2 := by
    unfold AllReturned
    decide +kernel
  refine ⟨idealOn_samplePassphrase, sampleWordList, newWordList_sampleWords, _, hsaved ▸ hrun,
    hdone, fun hnone => ?_⟩
  have hdiffer : (sampleRuns sampleWordList 0).seed toyCrypto
      ≠ (sampleRuns sampleWordList 1).seed toyCrypto := by
    decide +kernel
  exact hdiffer (oneSeed_of_noneStranded (hsaved ▸ hrun) hdone hnone 0 (by simp) 1 (by simp))

end Otedama.Lightning
