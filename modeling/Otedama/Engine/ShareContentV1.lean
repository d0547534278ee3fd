import Otedama.Engine.SessionV1
import Otedama.Poolproto.StratumV1

/-! # What a Stratum V1 share proves

A pool does not receive the header that was hashed. It rebuilds it from
its own template and the three numbers of a `mining.submit`: extranonce2,
ntime and nonce. The share counts only if both sides arrive at the same
80 bytes, through every byte order and every padding on the way.

`PoolTemplate` is the pool's side: the template, its canonical
`mining.notify`, and the rebuilding of a header from submitted texts.
The theorem runs a template through the miner's side (parse, complete,
apply, grind, submit) and back. -/

namespace Otedama.Engine

open Hex

open List

open Miner Poolproto Bytes

/-! ## The pool's side -/

/-- A block template of a pool. -/
structure PoolTemplate where
  version : UInt32
  prevHash : Bytes32
  coinb1 : List UInt8
  coinb2 : List UInt8
  branches : List Bytes32
  nBits : UInt32
  nTime : UInt32
  coinb1_ne : coinb1 ≠ []
  coinb2_ne : coinb2 ≠ []

/-- The canonical parameters of a `mining.notify`: lower-case hexadecimal, the
previous hash with the bytes of each word reversed. -/
def PoolTemplate.notify (tmpl : PoolTemplate) (jobID : GoString) (cleanJobs : Bool) : Json :=
  .arr
    [.str jobID, .str (Hex.encode (swapWords tmpl.prevHash).toList),
     .str (Hex.encode tmpl.coinb1), .str (Hex.encode tmpl.coinb2),
     .arr (tmpl.branches.map fun branch => .str (Hex.encode branch.toList)),
     .str (Hex.format32 tmpl.version), .str (Hex.format32 tmpl.nBits),
     .str (Hex.format32 tmpl.nTime), .bool cleanJobs]

section

variable (sha256 : List UInt8 → Bytes32)

/-- The root of the tree whose leftmost leaf is the coinbase transaction. -/
def PoolTemplate.merkleRoot (tmpl : PoolTemplate) (en1 en2 : List UInt8) : Hash :=
  tmpl.branches.foldl (fun root branch => sha256d sha256 (root.toList ++ branch.toList))
    (sha256d sha256 (tmpl.coinb1 ++ en1 ++ en2 ++ tmpl.coinb2))

/-- The header for an extranonce pair, a time and a nonce. -/
def PoolTemplate.headerBytes (tmpl : PoolTemplate) (en1 en2 : List UInt8)
    (ntime nonce : UInt32) : List UInt8 :=
  le32 tmpl.version ++ tmpl.prevHash.toList ++ (tmpl.merkleRoot sha256 en1 en2).toList ++
    le32 ntime ++ le32 tmpl.nBits ++ le32 nonce

/-- The header that the pool rebuilds from the parameters of a
`mining.submit`, for a connection with the given extranonce1. -/
def PoolTemplate.rebuild (tmpl : PoolTemplate) (en1 : List UInt8) :
    List GoString → Option (List UInt8)
  | [_, _, en2Hex, ntimeHex, nonceHex] =>
      match Hex.decode en2Hex, Hex.parseUint32 ntimeHex, Hex.parseUint32 nonceHex with
      | some en2, .ok ntime, .ok nonce => some (tmpl.headerBytes sha256 en1 en2 ntime nonce)
      | _, _, _ => none
  | _ => none

end

/-! ## Parsing what the pool sends -/

/-- Swapping the words twice changes nothing. -/
@[simp] theorem swapWords_swapWords (b : Bytes32) : swapWords (swapWords b) = b := by
  ext i hi
  have hword : (4 * (i / 4) + (3 - i % 4)) / 4 = i / 4 := by omega
  have hbyte : (4 * (i / 4) + (3 - i % 4)) % 4 = 3 - i % 4 := by omega
  have hback : 4 * (i / 4) + (3 - (3 - i % 4)) = i := by omega
  simp only [swapWords, Vector.getElem_ofFn, hword, hbyte, hback]

theorem decodePrevHash_encode (b : Bytes32) :
    decodePrevHash (encode (swapWords b).toList) = .ok b := by
  have hvector : ∀ (v : Bytes32) (h : v.toList.toArray.size = 32),
      Vector.mk v.toList.toArray h = v := fun v _ =>
    Vector.toArray_inj.mp Array.toArray_toList
  simp [decodePrevHash, hvector]

theorem decodeCoinb_encode {bs : List UInt8} (h : bs ≠ []) (err : NotifyError) :
    decodeCoinb (encode bs) err = .ok bs := by
  simp [decodeCoinb, h]

theorem decodeBranch_encode (branch : Bytes32) :
    decodeBranch (encode branch.toList) = .ok branch.toList := by
  simp [decodeBranch]

theorem mapM_decodeBranch (branches : List Bytes32) :
    (branches.map fun branch => encode branch.toList).mapM decodeBranch =
      .ok (branches.map Vector.toList) := by
  induction branches with
  | nil => rfl
  | cons branch branches ih =>
    simp only [map_cons, mapM_cons, decodeBranch_encode, ih]
    rfl

theorem unmarshalStrings_strs (texts : List GoString) :
    unmarshalStrings (.arr (texts.map .str)) = some texts := by
  rw [unmarshalStrings]
  induction texts with
  | nil => rfl
  | cons text texts ih =>
    simp only [map_cons, mapM_cons, unmarshalString, ih]
    rfl

/-- The texts of a canonical `mining.notify`. -/
def PoolTemplate.strings (tmpl : PoolTemplate) (jobID : GoString) (cleanJobs : Bool) :
    NotifyStrings where
  jobID := jobID
  prevHashHex := Hex.encode (swapWords tmpl.prevHash).toList
  coinb1Hex := Hex.encode tmpl.coinb1
  coinb2Hex := Hex.encode tmpl.coinb2
  merkleBranchHexs := tmpl.branches.map fun branch => Hex.encode branch.toList
  versionHex := Hex.format32 tmpl.version
  nbitsHex := Hex.format32 tmpl.nBits
  ntimeHex := Hex.format32 tmpl.nTime
  cleanJobs := cleanJobs

/-- The job that they are decoded into. -/
def PoolTemplate.parsed (tmpl : PoolTemplate) (jobID : GoString) (cleanJobs : Bool) : Job :=
  { Job.zero with
    jobID := jobID, cleanJobs := cleanJobs, coinb1 := tmpl.coinb1, coinb2 := tmpl.coinb2,
    merkleBranch := tmpl.branches.map Vector.toList, version := tmpl.version,
    nBits := tmpl.nBits, nTime := tmpl.nTime, prevHash := tmpl.prevHash }

theorem decodeNotifyJob_strings (tmpl : PoolTemplate) (jobID : GoString) (cleanJobs : Bool) :
    decodeNotifyJob (tmpl.strings jobID cleanJobs) = .ok (tmpl.parsed jobID cleanJobs) := by
  simp only [decodeNotifyJob, PoolTemplate.strings, decodeCoinb_encode tmpl.coinb1_ne,
    decodeCoinb_encode tmpl.coinb2_ne, mapM_decodeBranch, parseUint32_format32,
    decodePrevHash_encode]
  rfl

/-- A canonical `mining.notify` is parsed without loss. -/
theorem parseNotify_notify (tmpl : PoolTemplate) (jobID : GoString) (cleanJobs : Bool) :
    parseNotify (tmpl.notify jobID cleanJobs) = .ok (tmpl.parsed jobID cleanJobs) := by
  have hbranches : unmarshalStrings
      (.arr (tmpl.branches.map fun branch => .str (encode branch.toList))) =
      some (tmpl.branches.map fun branch => encode branch.toList) := by
    have h := unmarshalStrings_strs (tmpl.branches.map fun branch => encode branch.toList)
    rwa [map_map] at h
  rw [← decodeNotifyJob_strings]
  simp only [PoolTemplate.notify, parseNotify, unmarshalRaw, unmarshalNotifyParams,
    unmarshalString, hbranches]
  rfl

/-! ## The negotiated extranonces -/

/-- The pair was accepted from a `mining.subscribe` answer or from a
`mining.set_extranonce`. -/
inductive Negotiated (ep : ExtranoncePair) : Prop where
  | subscribe (result : Json) (h : parseSubscribeResult result = .ok ep)
  | setExtranonce (params : Json) (h : parseSetExtranonce params = some ep)

/-- What every accepted pair satisfies. -/
structure ExtranoncePair.Usable (ep : ExtranoncePair) (en1 : List UInt8) : Prop where
  hex : Hex.decode ep.en1 = some en1
  nonempty : ep.en1 ≠ []
  positive : 0 < ep.size
  bounded : ep.size ≤ 64

theorem extranonce1OK_spec {en1 : GoString} (h : extranonce1OK en1 = true) :
    en1 ≠ [] ∧ ∃ b, decode en1 = some b := by
  unfold extranonce1OK at h
  split at h
  · cases h
  · next hne =>
    split at h
    · cases h
    · next b hb => exact ⟨hne, b, hb⟩

/-- A size that passed the check on the float. -/
theorem size_of_subscribe {size : ℚ} (h : ¬ (size.den ≠ 1 ∨ size ≤ 0 ∨ 64 < size)) :
    0 < size.num ∧ size.num ≤ 64 := by
  simp only [not_or, not_not, not_le, not_lt] at h
  obtain ⟨hden, hpos, hle⟩ := h
  have hnum : (size.num : ℚ) = size := Rat.den_eq_one_iff size |>.mp hden
  refine ⟨Rat.num_pos.mpr hpos, ?_⟩
  have : (size.num : ℚ) ≤ 64 := by rw [hnum]; exact hle
  exact_mod_cast this

theorem Negotiated.usable {ep : ExtranoncePair} (h : Negotiated ep) :
    ∃ en1, ExtranoncePair.Usable ep en1 := by
  cases h with
  | subscribe result h =>
    unfold parseSubscribeResult at h
    split at h
    · split at h
      · split at h
        · cases h
        · next hen1 =>
          split at h
          · split at h
            · cases h
            · next hsize =>
              obtain rfl := Except.ok.inj h
              obtain ⟨hne, b, hb⟩ := extranonce1OK_spec (by simpa using hen1)
              obtain ⟨hpos, hle⟩ := size_of_subscribe hsize
              exact ⟨b, hb, hne, hpos, hle⟩
          · cases h
      · cases h
    · cases h
    · cases h
  | setExtranonce params h =>
    unfold parseSetExtranonce at h
    split at h
    · split at h
      · split at h
        · cases h
        · next hguard =>
          obtain rfl := Option.some.inj h
          simp only [Bool.or_eq_true, Bool.not_eq_true', not_or, Bool.not_eq_false,
            extranonce2SizeOK, Bool.and_eq_true, decide_eq_true_eq] at hguard
          obtain ⟨hen1, hpos, hle⟩ := hguard
          obtain ⟨hne, b, hb⟩ := extranonce1OK_spec hen1
          exact ⟨b, hb, hne, hpos, hle⟩
      · cases h
    · cases h

/-- Completing a job changes the counter only. -/
theorem completeV1Job_extranonce (sha256 : List UInt8 → Bytes32) (s : V1State) (j : Job) :
    (completeV1Job sha256 s j).1.extranonce = s.extranonce := by
  unfold completeV1Job completeV1JobWith
  split
  · rfl
  · split
    · rfl
    · split <;> rfl

/-! ## From the job to the header -/

@[simp] theorem length_extranonce2 (size : Nat) (n : UInt64) :
    (extranonce2 size n).length = size := by
  simp [extranonce2]

section

variable (sha256 : List UInt8 → Bytes32)

/-- The job of a template, completed with a pair of extranonces. -/
def PoolTemplate.completed (tmpl : PoolTemplate) (jobID : GoString) (cleanJobs : Bool)
    (en1 en2 : List UInt8) : Job :=
  { tmpl.parsed jobID cleanJobs with
    merkleRoot := tmpl.merkleRoot sha256 en1 en2
    extraNonce := en2
    coinbaseTx := tmpl.coinb1 ++ en1 ++ en2 ++ tmpl.coinb2 }

/-- What completing does to a job of a session with extranonces. -/
theorem completeV1JobWith_eq (hash256 : List UInt8 → Bytes32) {s : V1State} {ep : ExtranoncePair}
    {en1 : List UInt8} (hs : s.extranonce = some ep) (hep : ExtranoncePair.Usable ep en1) {j : Job}
    (h₁ : j.coinb1 ≠ []) (h₂ : j.coinb2 ≠ []) :
    let en2 := extranonce2 ep.size.toNat (s.en2Counter + 1)
    let coinbase := j.coinb1 ++ en1 ++ en2 ++ j.coinb2
    completeV1JobWith hash256 s j =
      ({ s with en2Counter := s.en2Counter + 1 },
       { j with
         merkleRoot := j.merkleBranch.foldl
           (fun root branch => hash256 (root.toList ++ branch)) (hash256 coinbase)
         extraNonce := en2
         coinbaseTx := coinbase }) := by
  intro en2 coinbase
  have hguard : ¬ (j.coinb1.length = 0 ∨ j.coinb2.length = 0 ∨ ep.en1 = [] ∨
      ep.size ≤ 0 ∨ 64 < ep.size) := by
    have hpos := hep.positive
    have hle := hep.bounded
    simp only [length_eq_zero_iff, h₁, h₂, hep.nonempty, false_or]
    omega
  simp only [completeV1JobWith, hs, if_neg hguard, hep.hex]
  rfl

/-- Completing a parsed template arrives at the pool's Merkle root. -/
theorem completeV1Job_parsed {s : V1State} {ep : ExtranoncePair} {en1 : List UInt8}
    (hs : s.extranonce = some ep) (hep : ExtranoncePair.Usable ep en1) (tmpl : PoolTemplate)
    (jobID : GoString) (cleanJobs : Bool) : ∃ s' en2, en2.length = ep.size.toNat ∧
      completeV1Job sha256 s (tmpl.parsed jobID cleanJobs) =
        (s', tmpl.completed sha256 jobID cleanJobs en1 en2) := by
  refine ⟨{ s with en2Counter := s.en2Counter + 1 },
    extranonce2 ep.size.toNat (s.en2Counter + 1), length_extranonce2 _ _, ?_⟩
  unfold completeV1Job
  rw [completeV1JobWith_eq (sha256d sha256) hs hep tmpl.coinb1_ne tmpl.coinb2_ne]
  simp only [PoolTemplate.parsed, foldl_map]
  rfl

/-- The header that is ground is the pool's header for the job's extranonces. -/
theorem header_bytes_of_found {now : UInt32} {job : Job} {difficulty : ℚ} {work : Work}
    {tmpl : PoolTemplate} {en1 en2 : List UInt8} {ω : Type} {cfg : WorkerConfig} {t : Thread ω}
    {share : Share} (hversion : job.version = tmpl.version) (hprev : job.prevHash = tmpl.prevHash)
    (hbits : job.nBits = tmpl.nBits) (hroot : job.merkleRoot = tmpl.merkleRoot sha256 en1 en2)
    (happly : applyJob now job difficulty = .ok work)
    (hfound : t.found sha256 cfg work = some share) :
    (t.header work).bytes = tmpl.headerBytes sha256 en1 en2 share.nTime share.nonce ∧
      share.extraNonce = job.extraNonce ∧ share.hash = hashHeader sha256 (t.header work) := by
  obtain ⟨target, -, rfl⟩ := applyJob_eq_ok happly
  obtain ⟨-, hextra, hnonce, htime, -, hhash⟩ := Thread.found_eq_some sha256 hfound
  refine ⟨?_, hextra, hhash⟩
  rw [hnonce, htime, Header.bytes, PoolTemplate.headerBytes, ← hversion, ← hprev, ← hbits, ← hroot]
  rfl

/-- A submitted extranonce2 that is not empty is sent as it is, and the pool
reads all three numbers back. -/
theorem rebuild_submitParams (tmpl : PoolTemplate) (en1 : List UInt8) (s : V1State)
    (authorizedUser : Option GoString) (sub : ShareSubmission) (hne : sub.extraNonce ≠ []) :
    (submitParams s authorizedUser sub)[2]? = some (encode sub.extraNonce) ∧
      tmpl.rebuild sha256 en1 (submitParams s authorizedUser sub) =
        some (tmpl.headerBytes sha256 en1 sub.extraNonce sub.nTime sub.nonce) := by
  have hencode : ¬ encode sub.extraNonce = [] := by simpa using hne
  constructor
  · simp [submitParams, hne]
  · simp [submitParams, PoolTemplate.rebuild, hne]

end

/-! ## There and back -/

/-- **Share content.**  Whatever template a pool sends in a canonical
`mining.notify`, under whatever extranonces were accepted: the session
builds a job from it, and a share of that job hashes the header that the
pool rebuilds from its own template and the parameters of the
`mining.submit`. The extranonce2 sent is the one that was hashed, with
the negotiated size. -/
theorem v1_share_content (sha256 : List UInt8 → Bytes32) (tmpl : PoolTemplate) (jobID : GoString)
    (cleanJobs : Bool) (s : V1State) {ep : ExtranoncePair} (hep : Negotiated ep)
    (hs : s.extranonce = some ep) :
    ∃ s' job en1 en2,
      handleNotify sha256 s (tmpl.notify jobID cleanJobs) = (s', some job) ∧
      Hex.decode ep.en1 = some en1 ∧ (en2.length : Int) = ep.size ∧
      ∀ now difficulty work, applyJob now job difficulty = .ok work →
      ∀ (ω : Type) cfg (t : Thread ω) share, t.found sha256 cfg work = some share →
        share.hash = sha256d sha256 (t.header work).bytes ∧
        (t.header work).bytes = tmpl.headerBytes sha256 en1 en2 share.nTime share.nonce ∧
        ∀ sessionNow authorizedUser name,
          let sub : ShareSubmission :=
            { jobID := name, nonce := share.nonce, nTime := share.nTime,
              extraNonce := share.extraNonce }
          (submitParams sessionNow authorizedUser sub)[2]? = some (Hex.encode en2) ∧
          tmpl.rebuild sha256 en1 (submitParams sessionNow authorizedUser sub) =
            some (t.header work).bytes := by
  obtain ⟨en1, husable⟩ := hep.usable
  obtain ⟨s', en2, hlength, hcomplete⟩ :=
    completeV1Job_parsed sha256 hs husable tmpl jobID cleanJobs
  have hpos := husable.positive
  have hnotify : handleNotify sha256 s (tmpl.notify jobID cleanJobs) =
      (s', some (tmpl.completed sha256 jobID cleanJobs en1 en2)) := by
    simp only [handleNotify, parseNotify_notify, hcomplete]
  refine ⟨s', _, en1, en2, hnotify, husable.hex, by omega, ?_⟩
  intro now difficulty work happly ω cfg t share hfound
  obtain ⟨hbytes, hextra, hhash⟩ :=
    header_bytes_of_found sha256 rfl rfl rfl rfl happly hfound
  refine ⟨hhash, hbytes, ?_⟩
  intro sessionNow authorizedUser name sub
  have hen2 : sub.extraNonce = en2 := hextra
  -- The negotiated size is positive, so nothing is padded.
  have hne : sub.extraNonce ≠ [] := by
    rw [hen2]
    rintro rfl
    simp only [List.length_nil] at hlength
    omega
  obtain ⟨hsent, hrebuild⟩ :=
    rebuild_submitParams sha256 tmpl en1 sessionNow authorizedUser sub hne
  refine ⟨?_, ?_⟩
  · rw [hsent, hen2]
  · rw [hrebuild, hbytes, hen2]

/-- A template with one transaction besides the coinbase. -/
def sampleTemplate : PoolTemplate where
  version := 0x20000000
  prevHash := Vector.ofFn fun i => UInt8.ofNat i.val
  coinb1 := [0x01, 0x02]
  coinb2 := [0xff]
  branches := [Vector.replicate 32 0xab]
  nBits := 0x1d00ffff
  nTime := 7
  coinb1_ne := by decide
  coinb2_ne := by decide

/-- Extranonce1 `08f0`, and four bytes for extranonce2. -/
def sampleSubscribe : Json :=
  .arr [.arr [], .str [0x30, 0x38, 0x66, 0x30], .num 4 true]

def sampleV1State : V1State where
  extranonce := some { en1 := [0x30, 0x38, 0x66, 0x30], size := 4 }
  en2Counter := 41

/-- A thread that has rolled its timestamp twice. -/
def sampleThread : Thread Work where
  localWork := none
  localWorkVer := 0
  nonce := 0xdeadbeef
  ntimeRoll := 2
  left := 0

theorem sampleTemplate_content : ∃ job work share bytes,
    (handleNotify (fun _ => zero32) sampleV1State (sampleTemplate.notify [0x61] true)).2 =
      some job ∧ applyJob 9 job 0 = .ok work ∧
    sampleThread.found (fun _ => zero32)
      { threads := 1, nonceStep := 1, nonceOffset := 0, deviceID := "cpu0" } work = some share ∧
    (sampleThread.header work).bytes = bytes ∧ share.nTime = 11 ∧
    sampleTemplate.rebuild (fun _ => zero32) [0x08, 0xf0]
      (submitParams sampleV1State none
        { jobID := [0x61], nonce := share.nonce, nTime := share.nTime,
          extraNonce := share.extraNonce }) = some bytes := by
  have hnegotiated : Negotiated { en1 := [0x30, 0x38, 0x66, 0x30], size := 4 } :=
    .subscribe sampleSubscribe (by decide)
  obtain ⟨s', job, en1, en2, hnotify, hen1, -, hcontent⟩ :=
    v1_share_content (fun _ => zero32) sampleTemplate [0x61] true sampleV1State hnegotiated rfl
  have hbits : job.nBits = 0x1d00ffff ∧ job.nTime = 7 := by
    have heval : (handleNotify (fun _ => zero32) sampleV1State
        (sampleTemplate.notify [0x61] true)).2.map (fun job => (job.nBits, job.nTime)) =
        some (0x1d00ffff, 7) := by decide
    rw [hnotify] at heval
    simpa using heval
  have happly : applyJob 9 job 0 = .ok (newWorkV1 9 job (le256 diff1Target)) := by
    have htarget : v1JobTarget 0x1d00ffff 0 = .ok (le256 diff1Target) := by
      simp [v1JobTarget, targetFromNBits_diff1]
    simp only [applyJob, hbits.1, htarget]
  have hmeets : Hash.lessOrEqual zero32 (le256 diff1Target) = true := by decide
  obtain ⟨share, hfound⟩ : ∃ share, sampleThread.found (fun _ => zero32)
      { threads := 1, nonceStep := 1, nonceOffset := 0, deviceID := "cpu0" }
      (newWorkV1 9 job (le256 diff1Target)) = some share :=
    Thread.exists_found _ hmeets
  obtain ⟨-, -, hsubmit⟩ := hcontent 9 0 _ happly Work _ sampleThread share hfound
  obtain ⟨-, hrebuild⟩ := hsubmit sampleV1State none [0x61]
  obtain rfl : [0x08, 0xf0] = en1 := by
    have heval : Hex.decode [0x30, 0x38, 0x66, 0x30] = some [0x08, 0xf0] := by decide
    exact Option.some.inj (heval.symm.trans hen1)
  have htime : share.nTime = 11 := by
    rw [(Thread.found_eq_some _ hfound).2.2.2.1]
    show rollNTime 9 job.nTime + 2 = 11
    rw [hbits.2]
    decide
  exact ⟨job, _, share, _, by rw [hnotify], happly, hfound, rfl, htime, hrebuild⟩

end Otedama.Engine
