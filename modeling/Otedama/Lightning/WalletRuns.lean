import Otedama.Lightning.Wallet

/-! # The wallet of one process

Calls of `NewWalletManager` and `ChangePassphrase` on one data directory,
one after the other. Any call to the operating system can fail, and a
call can end between two of them because the process is killed; the next
call then finds the directory as it was left.

Two histories are kept: the calls whose `rename` took effect, in order,
and the calls that returned. The first call that saved made the wallet;
its seed is the one that all later calls keep. -/

namespace Otedama.Lightning

open GoString FileProgram List

/-! ## The system -/

inductive Call where
  | newWalletManager (passphrase : GoString) (reader : List UInt8) (wordList : Option WordList)
      (mnemonicPassphrase : GoString)
  | changePassphrase (oldPassphrase newPassphrase : GoString) (reader : List UInt8)

namespace Call

/-- A wallet is returned by `NewWalletManager` only. -/
abbrev Result := Except WalletError (Option WalletManager)

def prog (c : Crypto) (dataDir : GoString) : Call → Prog Result
  | .newWalletManager passphrase reader wordList mnemonicPassphrase => do
      let r ← Lightning.newWalletManager c dataDir passphrase reader wordList mnemonicPassphrase
      return r.map some
  | .changePassphrase oldPassphrase newPassphrase reader => do
      let r ← Lightning.changePassphrase c oldPassphrase newPassphrase reader
      return r.map fun _ => none

def passphrases : Call → Set GoString
  | .newWalletManager passphrase _ _ _ => {passphrase}
  | .changePassphrase oldPassphrase newPassphrase _ => {oldPassphrase, newPassphrase}

/-- The seed that the call makes, if it creates the wallet. -/
def seed (c : Crypto) : Call → Option Seed
  | .newWalletManager _ reader wordList mnemonicPassphrase =>
      freshSeed c reader wordList mnemonicPassphrase
  | .changePassphrase _ _ _ => none

/-- The passphrase under which the call saves. -/
def savePassphrase : Call → GoString
  | .newWalletManager passphrase _ _ _ => passphrase
  | .changePassphrase _ newPassphrase _ => newPassphrase

end Call

structure Running where
  call : Call
  rest : Prog Call.Result
  /-- `wallet.dat` when the call began. -/
  before : Option Content

structure Return where
  call : Call
  result : Call.Result
  before : Option Content
  /-- `wallet.dat` when the call returned. -/
  after : Option Content

structure System where
  disk : Dir
  running : Option Running
  /-- The calls whose `rename` took effect. -/
  saves : List Call
  returns : List Return

def System.init (disk : Dir) : System := ⟨disk, none, [], []⟩

section

variable (c : Crypto) (dataDir : GoString) (P : Set GoString)

/-- The passphrases of the calls are from `P`. -/
inductive Step : System → System → Prop where
  | start {s : System} (call : Call) (hcall : call.passphrases ⊆ P) (hidle : s.running = none) :
      Step s { s with running := some ⟨call, call.prog c dataDir, s.disk.files walletFile⟩ }
  /-- One call to the operating system. -/
  | op {s : System} {call : Call} {o : Op} {k : o.Res → Prog Call.Result}
      {before : Option Content} {r : o.Res} {disk : Dir}
      (hrunning : s.running = some ⟨call, .op o k, before⟩) (hdoes : o.Does 0 s.disk r disk) :
      Step s
        { s with
          disk := disk
          running := some ⟨call, k r, before⟩
          saves := s.saves ++ if o.renames r then [call] else [] }
  | finish {s : System} {call : Call} {result : Call.Result} {before : Option Content}
      (hrunning : s.running = some ⟨call, .ret result, before⟩) :
      Step s
        { s with
          running := none
          returns := s.returns ++ [⟨call, result, before, s.disk.files walletFile⟩] }
  | crash {s : System} : Step s { s with running := none }

abbrev Steps : System → System → Prop := Relation.ReflTransGen (Step c dataDir P)

/-- The seed of the call that created the wallet. -/
def creatorSeed (saves : List Call) : Option Seed := saves.head?.bind (Call.seed c)

end

/-! ## The invariant -/

variable {c : Crypto} {dataDir : GoString} {P : Set GoString}

variable {saves : List Call} {s : System}

@[simp] theorem creatorSeed_append (h : saves ≠ []) (more : List Call) :
    creatorSeed c (saves ++ more) = creatorSeed c saves := by
  obtain ⟨call, rest, rfl⟩ := exists_cons_of_ne_nil h
  rfl

/-- What `wallet.dat` is after the saves of a run. -/
inductive Represents (c : Crypto) (P : Set GoString) : List Call → Option Content → Prop where
  | absent : Represents c P [] none
  | present {saves : List Call} {last : Call} {s : Seed} {raw : Content}
      (hlast : saves.getLast? = some last) (hseed : creatorSeed c saves = some s)
      (hpassphrase : last.savePassphrase ∈ P) (hraw : Stored c s last.savePassphrase raw) :
      Represents c P saves (some raw)

/-- What a running call may save: the seed of the creator, which can be the
call itself. -/
def MaySave (c : Crypto) (saves : List Call) (call : Call) (s : Seed) (p : GoString) : Prop :=
  p = call.savePassphrase ∧ creatorSeed c (saves ++ [call]) = some s

/-- A save of the running call is one more save of the run. -/
theorem represents_save {call : Call} {s : Seed} {p : GoString} {d : Dir}
    (hcall : call.savePassphrase ∈ P) (hmay : MaySave c saves call s p) (hholds : Holds c s p d) :
    Represents c P (saves ++ [call]) (d.files walletFile) := by
  obtain ⟨rfl, hseed⟩ := hmay
  obtain ⟨raw, hfile, hraw⟩ := hholds
  rw [hfile]
  exact .present getLast?_concat hseed hcall hraw

theorem maySave_append (saves : List Call) (call : Call) :
    MaySave c (saves ++ [call]) call = MaySave c saves call := by
  funext s p
  unfold MaySave
  rw [creatorSeed_append (by simp)]

/-- Nobody else works on the directory. -/
theorem solo (before : Option Content) (p : GoString) : Guest c 0 Eq (· = before) p where
  refl _ := rfl
  trans := Eq.trans
  stable h hI := h ▸ hI
  kept h _ hholds := h ▸ hholds
  leaves h := h ▸ .refl _

/-- The terms of a running call. -/
def soloTerms (c : Crypto) (saves : List Call) (call : Call) (before : Option Content) : Terms :=
  (solo (c := c) before call.savePassphrase).terms (fun _ _ _ => True) (MaySave c saves call)

/-- What a call promises when it returns. -/
def CallPost (c : Crypto) (call : Call) (before : Option Content) : Call.Result → Dir → Prop
  | .ok (some wm), d => Holds c wm.seed call.savePassphrase d
  | .ok none, _ => True
  | .error _, d => d.files walletFile = before

structure Inv (c : Crypto) (P : Set GoString) (s : System) : Prop where
  wallet : Represents c P s.saves (s.disk.files walletFile)
  running : ∀ r, s.running = some r → r.call.passphrases ⊆ P ∧
    (soloTerms c s.saves r.call r.before).Keeps r.rest (CallPost c r.call r.before) s.disk
  seeds : ∀ r ∈ s.returns, ∀ wm, r.result = .ok (some wm) → creatorSeed c s.saves = some wm.seed
  errors : ∀ r ∈ s.returns, ∀ err, r.result = .error err → r.after = r.before

theorem inv_init {disk : Dir} (h : disk.files walletFile = none) : Inv c P (.init disk) where
  wallet := by
    show Represents c P [] (disk.files walletFile)
    rw [h]
    exact .absent
  running := by simp [System.init]
  seeds := by simp [System.init]
  errors := by simp [System.init]

theorem Represents.inv {raw : Content} (h : Represents c P saves (some raw)) :
    ∃ last s, saves.getLast? = some last ∧ creatorSeed c saves = some s ∧
      last.savePassphrase ∈ P ∧ Stored c s last.savePassphrase raw := by
  cases h with
  | present hlast hseed hpassphrase hraw => exact ⟨_, _, hlast, hseed, hpassphrase, hraw⟩

theorem Represents.isSome {w : Option Content} (h : Represents c P saves w) (hne : saves ≠ []) :
    w.isSome := by
  cases h with
  | absent => exact absurd rfl hne
  | present _ _ _ _ => rfl

theorem Represents.ne_nil {raw : Content} (h : Represents c P saves (some raw)) : saves ≠ [] := by
  intro hnil
  obtain ⟨last, s, hlast, -⟩ := h.inv
  rw [hnil] at hlast
  cases hlast

theorem Represents.eq_none_iff {w : Option Content} (h : Represents c P saves w) :
    w = none ↔ saves = [] := by
  constructor
  · intro hw
    by_contra hne
    have hsome := h.isSome hne
    rw [hw] at hsome
    cases hsome
  · intro hsaves
    cases w with
    | none => rfl
    | some raw => exact absurd hsaves h.ne_nil

/-- What is in `wallet.dat` can be decrypted under a passphrase of `P`. -/
theorem Represents.stored {raw : Content} (h : Represents c P saves (some raw)) :
    ∃ s, creatorSeed c saves = some s ∧ ∃ p ∈ P, Stored c s p raw := by
  obtain ⟨last, s, -, hseed, hpassphrase, hraw⟩ := h.inv
  exact ⟨s, hseed, last.savePassphrase, hpassphrase, hraw⟩

/-- If `wallet.dat` holds a seed, it is the seed of the creator. -/
theorem Represents.seed_eq {d : Dir} {s : Seed} {p : GoString} (hideal : c.IdealOn P)
    (h : Represents c P saves (d.files walletFile)) (hp : p ∈ P) (hholds : Holds c s p d) :
    creatorSeed c saves = some s := by
  obtain ⟨raw, hfile, hraw⟩ := hholds
  rw [hfile] at h
  obtain ⟨s', hs', p', hp', hraw'⟩ := h.stored
  rw [hs', (Stored.unique hideal hp hp' hraw hraw').1]

/-- **Begin.** Every call keeps its terms, whatever `wallet.dat` is when it
begins. -/
theorem keeps_prog (hideal : c.IdealOn P) {call : Call} {d : Dir} (hcall : call.passphrases ⊆ P)
    (hwallet : Represents c P saves (d.files walletFile)) :
    (soloTerms c saves call (d.files walletFile)).Keeps (call.prog c dataDir)
      (CallPost c call (d.files walletFile)) d := by
  have hload : ∀ raw, some raw = d.files walletFile → ∃ s, ∃ p ∈ P, Stored c s p raw := by
    intro raw hraw
    rw [← hraw] at hwallet
    obtain ⟨s, -, hs⟩ := hwallet.stored
    exact ⟨s, hs⟩
  cases call with
  | newWalletManager passphrase reader wordList mnemonicPassphrase =>
    -- Only a call that finds no wallet makes a seed.
    have hcommit : none = d.files walletFile →
        ∀ s, freshSeed c reader wordList mnemonicPassphrase = some s →
          MaySave c saves (.newWalletManager passphrase reader wordList mnemonicPassphrase) s
            passphrase := by
      intro hnone s hs
      rw [← hnone] at hwallet
      cases hwallet
      exact ⟨rfl, hs⟩
    apply Terms.keeps_bind
    refine ((solo _ _).keeps_newWalletManager hideal (hcall rfl) hload hcommit rfl).imp ?_
    intro r d' hpost
    apply Terms.keeps_pure
    intro d'' hd
    obtain rfl : d' = d'' := hd
    cases r with
    | error err => exact hpost
    | ok wm => exact hpost
  | changePassphrase oldPassphrase newPassphrase reader =>
    have hold : oldPassphrase ∈ P := hcall (by simp [Call.passphrases])
    -- What the old passphrase decrypts is the seed of the creator.
    have hcommit : ∀ s raw, some raw = d.files walletFile → Stored c s oldPassphrase raw →
        MaySave c saves (.changePassphrase oldPassphrase newPassphrase reader) s
          newPassphrase := by
      intro s raw hraw hstored
      have hseed := hwallet.seed_eq hideal hold ⟨raw, hraw.symm, hstored⟩
      rw [← hraw] at hwallet
      refine ⟨rfl, ?_⟩
      rw [creatorSeed_append hwallet.ne_nil]
      exact hseed
    apply Terms.keeps_bind
    refine ((solo _ _).keeps_changePassphrase hideal hold hload hcommit rfl).imp ?_
    intro r d' hpost
    apply Terms.keeps_pure
    intro d'' hd
    obtain rfl : d' = d'' := hd
    cases r with
    | error err => exact hpost
    | ok _ => trivial

theorem savePassphrase_mem (call : Call) : call.savePassphrase ∈ call.passphrases := by
  cases call <;> simp [Call.savePassphrase, Call.passphrases]

theorem inv_start (hideal : c.IdealOn P) (h : Inv c P s) {call : Call}
    (hcall : call.passphrases ⊆ P) :
    Inv c P { s with running := some ⟨call, call.prog c dataDir, s.disk.files walletFile⟩ } where
  wallet := h.wallet
  running := by
    intro r hr
    cases hr
    exact ⟨hcall, keeps_prog hideal hcall h.wallet⟩
  seeds := h.seeds
  errors := h.errors

theorem inv_op (h : Inv c P s) {call : Call} {o : Op} {k : o.Res → Prog Call.Result}
    {before : Option Content} {r : o.Res} {disk : Dir}
    (hrunning : s.running = some ⟨call, .op o k, before⟩) (hdoes : o.Does 0 s.disk r disk) :
    Inv c P
      { s with
        disk := disk
        running := some ⟨call, k r, before⟩
        saves := s.saves ++ if o.renames r then [call] else [] } := by
  obtain ⟨hcall, hkeeps⟩ := h.running _ hrunning
  obtain ⟨hguar, hk⟩ := hkeeps.step hdoes trivial
  cases hren : o.renames r with
  | false =>
    -- `wallet.dat` is as before, and so is the list of saves.
    simp only [Bool.false_eq_true, if_false, append_nil]
    refine ⟨?_, ?_, h.seeds, h.errors⟩
    · show Represents c P s.saves (disk.files walletFile)
      rw [hguar.other hren]
      exact h.wallet
    · intro r hr
      cases hr
      exact ⟨hcall, hk⟩
  | true =>
    simp only [if_true]
    obtain ⟨-, seed, p, hmay, hholds⟩ := hguar.rename hren
    refine ⟨represents_save (hcall (savePassphrase_mem call)) hmay hholds, ?_, ?_, h.errors⟩
    · intro r hr
      cases hr
      refine ⟨hcall, ?_⟩
      -- The call may save what it could save before.
      show (soloTerms c (s.saves ++ [call]) call before).Keeps _ _ disk
      rw [soloTerms, maySave_append]
      exact hk
    · intro r hr wm hwm
      -- A wallet was returned before, so there was a creator already.
      have hseed := h.seeds r hr wm hwm
      have hne : s.saves ≠ [] := by
        intro hnil
        rw [hnil] at hseed
        cases hseed
      show creatorSeed c (s.saves ++ [call]) = _
      rw [creatorSeed_append hne]
      exact hseed

theorem inv_finish (hideal : c.IdealOn P) (h : Inv c P s) {call : Call} {result : Call.Result}
    {before : Option Content} (hrunning : s.running = some ⟨call, .ret result, before⟩) :
    Inv c P
      { s with
        running := none
        returns := s.returns ++ [⟨call, result, before, s.disk.files walletFile⟩] } := by
  obtain ⟨hcall, hkeeps⟩ := h.running _ hrunning
  have hpost := hkeeps.result
  refine ⟨h.wallet, by simp, ?_, ?_⟩
  · intro r hr wm hwm
    obtain hr | hr := mem_append.mp hr
    · exact h.seeds r hr wm hwm
    · obtain rfl := mem_singleton.mp hr
      obtain rfl : result = .ok (some wm) := hwm
      exact h.wallet.seed_eq hideal (hcall (savePassphrase_mem call)) hpost
  · intro r hr err herr
    obtain hr | hr := mem_append.mp hr
    · exact h.errors r hr err herr
    · obtain rfl := mem_singleton.mp hr
      obtain rfl : result = .error err := herr
      exact hpost

theorem inv_step (hideal : c.IdealOn P) {s' : System} (h : Inv c P s)
    (hstep : Step c dataDir P s s') : Inv c P s' := by
  cases hstep with
  | start call hcall _ => exact inv_start hideal h hcall
  | op hrunning hdoes => exact inv_op h hrunning hdoes
  | finish hrunning => exact inv_finish hideal h hrunning
  | crash => exact ⟨h.wallet, by simp, h.seeds, h.errors⟩

theorem inv_steps (hideal : c.IdealOn P) {s' : System} (h : Inv c P s)
    (hsteps : Steps c dataDir P s s') : Inv c P s' := by
  induction hsteps with
  | refl => exact h
  | tail _ hstep ih => exact inv_step hideal ih hstep

theorem saves_of_steps {s' : System} (hsteps : Steps c dataDir P s s') : s.saves <+: s'.saves := by
  induction hsteps with
  | refl => exact prefix_rfl
  | tail _ hstep ih =>
    refine ih.trans ?_
    cases hstep with
    | start _ _ _ => exact prefix_rfl
    | op _ _ => exact prefix_append _ _
    | finish _ => exact prefix_rfl
    | crash => exact prefix_rfl

/-! ## The seed is never lost -/

/-- **No lost seed.**  Once `wallet.dat` exists it exists forever. Its content
is always complete: the seed of the call that created it, under the
passphrase of the last save that took effect. Every wallet that was
returned has that seed, and a call that failed left `wallet.dat` as it
was. -/
theorem seed_never_lost (hideal : c.IdealOn P) {disk : Dir}
    (habsent : disk.files walletFile = none) {s : System}
    (hsteps : Steps c dataDir P (.init disk) s) :
    (∀ s', Steps c dataDir P s s' → (s.disk.files walletFile).isSome →
      (s'.disk.files walletFile).isSome) ∧
    (s.disk.files walletFile = none ↔ s.saves = []) ∧
    (∀ raw, s.disk.files walletFile = some raw →
      ∃ last seed, s.saves.getLast? = some last ∧ creatorSeed c s.saves = some seed ∧
        Stored c seed last.savePassphrase raw) ∧
    (∀ r ∈ s.returns, ∀ wm, r.result = .ok (some wm) → creatorSeed c s.saves = some wm.seed) ∧
    (∀ r ∈ s.returns, ∀ err, r.result = .error err → r.after = r.before) := by
  have hinv := inv_steps hideal (inv_init habsent) hsteps
  refine ⟨?_, hinv.wallet.eq_none_iff, ?_, hinv.seeds, hinv.errors⟩
  · intro s' hsteps' hsome
    obtain ⟨raw, hraw⟩ := Option.isSome_iff_exists.mp hsome
    have hwallet := hinv.wallet
    rw [hraw] at hwallet
    -- The saves of the run do not become fewer.
    have hne : s'.saves ≠ [] := by
      intro hnil
      have hprefix := saves_of_steps hsteps'
      rw [hnil, List.prefix_nil] at hprefix
      exact hwallet.ne_nil hprefix
    exact (inv_steps hideal hinv hsteps').wallet.isSome hne
  · intro raw hraw
    have hwallet := hinv.wallet
    rw [hraw] at hwallet
    obtain ⟨last, seed, hlast, hseed, -, hstored⟩ := hwallet.inv
    exact ⟨last, seed, hlast, hseed, hstored⟩

/-- The next step of a running call, when no call to the operating system has
to fail. -/
def System.advance (s : System) : System :=
  match s.running with
  | none => s
  | some ⟨call, .ret result, before⟩ =>
      { s with
        running := none
        returns := s.returns ++ [⟨call, result, before, s.disk.files walletFile⟩] }
  | some ⟨call, .op o k, before⟩ =>
      let (r, disk) := o.answer 0 s.disk
      { s with
        disk := disk
        running := some ⟨call, k r, before⟩
        saves := s.saves ++ if o.renames r then [call] else [] }

theorem steps_advance (s : System) (n : Nat) : Steps c dataDir P s (System.advance^[n] s) := by
  induction n generalizing s with
  | zero => exact .refl
  | succ n ih =>
    refine .trans ?_ (ih s.advance)
    rw [System.advance]
    split
    · exact .refl
    · next hrunning => exact .single (.finish hrunning)
    · next hrunning => exact .single (.op hrunning (Op.does_answer 0 _ _))

def firstCall : Call :=
  .newWalletManager samplePassphrase (sampleReader 0) (some sampleWordList) []

/-- A first run: eleven calls, and the return. -/
def firstRun : System :=
  System.advance^[12]
    { System.init emptyDir with
      running := some ⟨firstCall, firstCall.prog toyCrypto sampleDataDir,
        (System.init emptyDir).disk.files walletFile⟩ }

/-- The theorem at a run in which a wallet is created: it holds the seed that
was returned. -/
theorem seed_never_lost_firstRun :
    toyCrypto.IdealOn {p | p.length = 16} ∧
    ∃ s, Steps toyCrypto sampleDataDir {p | p.length = 16} (.init emptyDir) s ∧
      ∃ raw last seed, s.disk.files walletFile = some raw ∧ s.saves.getLast? = some last ∧
        Stored toyCrypto seed last.savePassphrase raw ∧
        ∃ r ∈ s.returns, ∃ wm, r.result = .ok (some wm) ∧ wm.seed = seed := by
  have hstart : Step toyCrypto sampleDataDir {p | p.length = 16} (.init emptyDir) _ :=
    .start firstCall (Set.singleton_subset_iff.mpr rfl) rfl
  have hsteps : Steps _ _ _ _ firstRun := .head hstart (steps_advance _ 12)
  have hfile : (firstRun.disk.files walletFile).isSome := by decide +kernel
  have hreturned : (firstRun.returns.any fun r => r.result.toOption.join.isSome) = true := by
    decide +kernel
  have h := seed_never_lost toyCrypto_idealOn rfl hsteps
  obtain ⟨raw, hraw⟩ := Option.isSome_iff_exists.mp hfile
  obtain ⟨last, seed, hlast, hcreator, hstored⟩ := h.2.2.1 raw hraw
  obtain ⟨r, hr, hresult⟩ := any_eq_true.mp hreturned
  obtain ⟨wm, hwm⟩ := Option.isSome_iff_exists.mp hresult
  have hok : r.result = .ok (some wm) := by
    cases hcases : r.result with
    | error err =>
      rw [hcases] at hwm
      cases hwm
    | ok wallet =>
      rw [hcases] at hwm
      exact congrArg Except.ok hwm
  have hseed := h.2.2.2.1 r hr wm hok
  rw [hcreator] at hseed
  exact ⟨toyCrypto_idealOn, _, hsteps, raw, last, seed, hraw, hlast, hstored, r, hr, wm, hok,
    (Option.some.inj hseed).symm⟩

end Otedama.Lightning
