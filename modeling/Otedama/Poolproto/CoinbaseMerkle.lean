import Otedama.Framework.MerkleTree
import Otedama.Poolproto.PreAuthStash

/-! # The coinbase of a V1 job and its place in the block

A V1 pool sends the coinbase in two parts and, instead of the other
transactions, the Merkle branch of the coinbase. Completing a job puts the
extranonces between the parts and folds the branch over the hash of the
result. The branch being what the pool's tree says, the fold arrives at
the root of that tree.

Each job gets the next value of a 64-bit counter as its extranonce2,
big-endian and cut off or padded at the front. -/

namespace Otedama.Poolproto

open Miner Engine Bytes List UInt64

/-! ## The Merkle root -/

/-- The tree of a block: a node is the hash of its two children. -/
def merkleNode (hash256 : List UInt8 → Bytes32) (a b : Bytes32) : Bytes32 :=
  hash256 (a.toList ++ b.toList)

/-- Folding the branch of the coinbase gives the root. -/
theorem foldl_branch (hash256 : List UInt8 → Bytes32) (coinbaseID : Bytes32)
    (others : List Bytes32) : MerkleTree.root (merkleNode hash256) (coinbaseID :: others) =
      some (((MerkleTree.leftBranch (merkleNode hash256) (coinbaseID :: others)).map
        Vector.toList).foldl (fun root branch => hash256 (root.toList ++ branch)) coinbaseID) := by
  rw [MerkleTree.root_eq_foldl_leftBranch, foldl_map]
  rfl

/-! ## The rolling counter -/

/-- The counter is written in positional notation. -/
theorem extranonce2_eq (size : Nat) (n : UInt64) :
    extranonce2 size n = (leBytes size n.toNat).reverse := by
  have hbyte : ∀ i, (if i < 8 then (n >>> ofNat (8 * i)).toUInt8 else 0) =
      UInt8.ofNat (n.toNat / 256 ^ i % 256) := by
    intro i
    have hn := n.toNat_lt
    apply UInt8.toNat_inj.mp
    rw [UInt8.toNat_ofNat']
    by_cases hi : i < 8
    · have hshift : (ofNat (8 * i)).toNat % 64 = 8 * i := by
        rw [UInt64.toNat_ofNat']
        omega
      rw [if_pos hi, UInt64.toNat_toUInt8, UInt64.toNat_shiftRight, hshift,
        Nat.shiftRight_eq_div_pow, two_pow_eight_mul]
      omega
    · -- Beyond the eight bytes of the counter there are only zeros.
      have hzero : n.toNat / 256 ^ i = 0 := by
        apply Nat.div_eq_of_lt
        calc n.toNat < 256 ^ 8 := hn
          _ ≤ 256 ^ i := Nat.pow_le_pow_right (by decide) (by omega)
      rw [if_neg hi, hzero]
      rfl
  rw [leBytes_eq_map]
  apply ext_getElem
  · simp
  · intro k hk hk'
    simp only [extranonce2, getElem_map, getElem_range, getElem_reverse, length_map, length_range]
    exact hbyte _

/-- Equal extranonces come from counters that agree in the bytes written. -/
theorem mod_eq_of_extranonce2_eq {size : Nat} {a b : UInt64}
    (h : extranonce2 size a = extranonce2 size b) :
    a.toNat % 256 ^ min size 8 = b.toNat % 256 ^ min size 8 := by
  rw [extranonce2_eq, extranonce2_eq] at h
  have hmod := congrArg leValue (reverse_injective h)
  rw [leValue_leBytes_mod, leValue_leBytes_mod] at hmod
  rcases Nat.le_total size 8 with hsize | hsize
  · rwa [Nat.min_eq_left hsize]
  · have hfit : ∀ n : UInt64, n.toNat % 256 ^ size = n.toNat := by
      intro n
      apply Nat.mod_eq_of_lt
      calc n.toNat < 256 ^ 8 := n.toNat_lt
        _ ≤ 256 ^ size := Nat.pow_le_pow_right (by decide) hsize
    rw [hfit, hfit] at hmod
    rw [hmod]

/-- Counters that are less than the period apart give different extranonces. -/
theorem extranonce2_ne {size : Nat} (c : UInt64) {i k : Nat} (hik : i < k)
    (hnear : k - i < 256 ^ min size 8) :
    extranonce2 size (c + ofNat i) ≠ extranonce2 size (c + ofNat k) := by
  intro h
  have hperiod : 256 ^ min size 8 ∣ 2 ^ 64 := by
    rw [show 2 ^ 64 = 256 ^ 8 from rfl]
    exact pow_dvd_pow 256 (Nat.min_le_right size 8)
  have hcount : ∀ l, (c + ofNat l).toNat % 256 ^ min size 8 = (c.toNat + l) % 256 ^ min size 8 := by
    intro l
    rw [UInt64.toNat_add, UInt64.toNat_ofNat', Nat.add_mod_mod, Nat.mod_mod_of_dvd _ hperiod]
  have hmod := mod_eq_of_extranonce2_eq h
  rw [hcount, hcount] at hmod
  have hdvd : 256 ^ min size 8 ∣ (c.toNat + k) - (c.toNat + i) :=
    (Nat.modEq_iff_dvd' (by omega)).mp hmod
  have hle := Nat.le_of_dvd (by omega) hdvd
  omega

/-- A session that has negotiated extranonces with an extranonce2 of `size`
bytes. -/
def HasSize (size : Nat) (s : V1State) : Prop :=
  ∃ ep, s.extranonce = some ep ∧ Negotiated ep ∧ ep.size = size

/-- A message that does not change the size. -/
def KeepsSize (size : Nat) : V1Message → Prop
  | .notify _ => True
  | .setExtranonce params => ∀ ep, parseSetExtranonce params = some ep → ep.size = size

section

variable (sha256 : List UInt8 → Bytes32)

/-- One message: the size stays, and a job takes the next counter. -/
theorem v1Session_step_rolls {size : Nat} {s : V1State} (hs : HasSize size s) {e : V1Message}
    (he : KeepsSize size e) : HasSize size ((v1Session sha256).step s e).1 ∧
      ((((v1Session sha256).step s e).2 = [] ∧
          ((v1Session sha256).step s e).1.en2Counter = s.en2Counter) ∨
        ∃ job, ((v1Session sha256).step s e).2 = [job] ∧
          job.extraNonce = extranonce2 size (s.en2Counter + 1) ∧
          ((v1Session sha256).step s e).1.en2Counter = s.en2Counter + 1) := by
  obtain ⟨ep, hep, hneg, hsize⟩ := hs
  cases e with
  | setExtranonce params =>
    show HasSize size (handleSetExtranonce s params) ∧ _
    refine ⟨?_, .inl ⟨rfl, ?_⟩⟩
    · unfold handleSetExtranonce
      split
      · exact ⟨ep, hep, hneg, hsize⟩
      · next new hparse => exact ⟨new, rfl, .setExtranonce params hparse, he new hparse⟩
    · show (handleSetExtranonce s params).en2Counter = s.en2Counter
      unfold handleSetExtranonce
      split <;> rfl
  | notify params =>
    cases hparse : parseNotify params with
    | error err =>
      have hstep : (v1Session sha256).step s (.notify params) = (s, []) := by
        simp [v1Session, handleNotify, hparse]
      rw [hstep]
      exact ⟨⟨ep, hep, hneg, hsize⟩, .inl ⟨rfl, rfl⟩⟩
    | ok j =>
      obtain ⟨en1, husable⟩ := hneg.usable
      have hfresh := fresh_of_parseNotify hparse
      have hdone := completeV1JobWith_eq (sha256d sha256) hep husable hfresh.coinb1 hfresh.coinb2
      have hstep : (v1Session sha256).step s (.notify params) =
          ((completeV1JobWith (sha256d sha256) s j).1,
            [(completeV1JobWith (sha256d sha256) s j).2]) := by
        simp [v1Session, handleNotify, hparse, completeV1Job]
      rw [hstep, hdone, hsize]
      exact ⟨⟨ep, hep, hneg, hsize⟩, .inr ⟨_, rfl, rfl, rfl⟩⟩

/-- Along a run the jobs count the counter up. -/
theorem v1Session_extraNonces {size : Nat} {s : V1State} (hs : HasSize size s)
    (messages : List V1Message) (hmessages : ∀ e ∈ messages, KeepsSize size e) :
    ((v1Session sha256).outputs s messages).map Job.extraNonce =
      (range ((v1Session sha256).outputs s messages).length).map
        fun i => extranonce2 size (s.en2Counter + 1 + ofNat i) := by
  suffices h : HasSize size ((v1Session sha256).run s messages) ∧
      ((v1Session sha256).run s messages).en2Counter =
        s.en2Counter + ofNat ((v1Session sha256).outputs s messages).length ∧
      ((v1Session sha256).outputs s messages).map Job.extraNonce =
        (range ((v1Session sha256).outputs s messages).length).map
          fun i => extranonce2 size (s.en2Counter + 1 + ofNat i) from h.2.2
  refine (v1Session sha256).run_history
    (P := fun _ out s' => HasSize size s' ∧ s'.en2Counter = s.en2Counter + ofNat out.length ∧
      out.map Job.extraNonce = (range out.length).map
        fun i => extranonce2 size (s.en2Counter + 1 + ofNat i))
    ⟨hs, by simp, rfl⟩ ?_ messages hmessages
  rintro - out s' e he ⟨hs', hcounter, hout⟩
  obtain ⟨hnext, ⟨hnone, hsame⟩ | ⟨job, hjob, hextra, hcount⟩⟩ := v1Session_step_rolls sha256 hs' he
  · rw [hnone, append_nil]
    exact ⟨hnext, hsame.trans hcounter, hout⟩
  · have hsum : s.en2Counter + ofNat out.length + 1 = s.en2Counter + 1 + ofNat out.length := by
      rw [UInt64.add_assoc, UInt64.add_comm (ofNat out.length), ← UInt64.add_assoc]
    refine ⟨hnext, ?_, ?_⟩
    · rw [hcount, hcounter, hjob, length_append, length_singleton, UInt64.add_assoc, ofNat_add]
      rfl
    · rw [hjob, length_append, length_singleton, range_succ, map_append,
        map_append, hout, map_singleton, map_singleton, hextra, hcounter, hsum]

end

/-! ## The results -/

/-- The root of a completed job is that of the pool's tree, and the extranonces
of a session do not repeat within a period of the bytes they have. -/
theorem completeV1Job_root_and_rolling :
    (∀ (hash256 : List UInt8 → Bytes32) (s : V1State) (ep : ExtranoncePair) (en1 : List UInt8)
        (params : Json) (j : Job) (others : List Bytes32),
      s.extranonce = some ep → ExtranoncePair.Usable ep en1 → parseNotify params = .ok j →
      let done := (completeV1JobWith hash256 s j).2
      done.coinbaseTx = j.coinb1 ++ en1 ++ done.extraNonce ++ j.coinb2 ∧
      (j.merkleBranch =
          (MerkleTree.leftBranch (merkleNode hash256) (hash256 done.coinbaseTx :: others)).map
            Vector.toList →
        MerkleTree.root (merkleNode hash256) (hash256 done.coinbaseTx :: others) =
          some done.merkleRoot)) ∧
    (∀ (sha256 : List UInt8 → Bytes32) (size : Nat) (s : V1State) (messages : List V1Message),
      1 ≤ size → size ≤ 64 → HasSize size s → (∀ e ∈ messages, KeepsSize size e) →
      let jobs := (v1Session sha256).outputs s messages
      (∀ job ∈ jobs, job.extraNonce.length = size) ∧
      ∀ (i k : Nat) (hi : i < jobs.length) (hk : k < jobs.length), i < k →
        k - i < 256 ^ min size 8 → jobs[i].extraNonce ≠ jobs[k].extraNonce) := by
  constructor
  · intro hash256 s ep en1 params j others hs hep hparse done
    have hfresh := fresh_of_parseNotify hparse
    have hdone : done = _ :=
      congrArg Prod.snd (completeV1JobWith_eq hash256 hs hep hfresh.coinb1 hfresh.coinb2)
    refine ⟨by rw [hdone], ?_⟩
    intro hbranch
    rw [foldl_branch, ← hbranch, hdone]
  · intro sha256 size s messages _ _ hs hmessages jobs
    have hextra : jobs.map Job.extraNonce = _ := v1Session_extraNonces sha256 hs messages hmessages
    have hget : ∀ (i : Nat) (hi : i < jobs.length),
        jobs[i].extraNonce = extranonce2 size (s.en2Counter + 1 + UInt64.ofNat i) := by
      intro i hi
      have helem : (jobs.map Job.extraNonce)[i]? =
          some (extranonce2 size (s.en2Counter + 1 + UInt64.ofNat i)) := by
        rw [hextra, List.getElem?_map, List.getElem?_range hi]
        rfl
      rw [List.getElem?_map, List.getElem?_eq_getElem hi] at helem
      exact Option.some.inj helem
    refine ⟨?_, ?_⟩
    · intro job hjob
      obtain ⟨i, hi, rfl⟩ := List.mem_iff_getElem.mp hjob
      rw [hget i hi, length_extranonce2]
    · intro i k hi hk hik hnear
      rw [hget i hi, hget k hk]
      exact extranonce2_ne _ hik hnear

/-- A hash for samples: the bytes as digits in base 31. -/
def digits31 (bs : List UInt8) : Bytes32 := le256 (bs.foldl (fun n b => 31 * n + b.toNat) 7)

/-- A block with two transactions besides the coinbase. -/
def twoTransactions : PoolTemplate :=
  { sampleTemplate with branches := [le256 5, merkleNode digits31 (le256 6) (le256 6)] }

/-- It is notified twice. -/
theorem twoTransactions_root :
    let done := (completeV1JobWith digits31 sampleV1State (twoTransactions.parsed [0x61] true)).2
    let jobs := (v1Session digits31).outputs sampleV1State
      [.notify (twoTransactions.notify [0x61] true), .notify (twoTransactions.notify [0x62] false)]
    MerkleTree.root (merkleNode digits31) [digits31 done.coinbaseTx, le256 5, le256 6] =
        some done.merkleRoot ∧
      ∃ (h : 1 < jobs.length), jobs[0].extraNonce ≠ jobs[1].extraNonce := by
  intro done jobs
  have hnegotiated : Negotiated { en1 := [0x30, 0x38, 0x66, 0x30], size := 4 } :=
    .subscribe sampleSubscribe (by decide)
  obtain ⟨hroot, hrolls⟩ := completeV1Job_root_and_rolling
  constructor
  · have husable : ExtranoncePair.Usable { en1 := [0x30, 0x38, 0x66, 0x30], size := 4 }
        [0x08, 0xf0] := ⟨by decide, by decide, by decide, by decide⟩
    refine (hroot digits31 sampleV1State _ _ _ _ [le256 5, le256 6] rfl husable
      (parseNotify_notify twoTransactions [0x61] true)).2 ?_
    simp [MerkleTree.leftBranch, MerkleTree.parents, PoolTemplate.parsed, twoTransactions]
  · have hlen : 1 < jobs.length := by decide +kernel
    refine ⟨hlen, (hrolls digits31 4 sampleV1State _ (by decide) (by decide)
      ⟨_, rfl, hnegotiated, rfl⟩ ?_).2 0 1 _ hlen (by decide) (by decide)⟩
    intro e he
    rcases List.mem_pair.mp he with rfl | rfl
    · trivial
    · trivial

end Otedama.Poolproto
