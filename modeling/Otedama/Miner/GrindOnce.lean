import Otedama.Framework.Stride
import Otedama.Miner.Rig

/-! # No header is ground twice

A worker starts every published work at the beginning of the nonce
space. Within one version of the work the threads never meet: thread
`i` visits the positions congruent to `i`, in increasing order, and a
roll and a nonce determine the position. Across versions nothing but
the timestamp keeps two headers of one template apart.

So the worker repeats no header as long as each work that is published
for a template has a timestamp beyond all timestamps that were used for
this template, or still will be in the batches in progress (`Spaced`).
For a template that was never published before this asks nothing. -/

namespace Otedama.Miner

open List Function

variable {ω : Type} {view : ω → Work}

/-! ## Positions -/

/-- The position of a roll and a nonce on the unbounded line. -/
def position (roll nonce : UInt32) : Nat := nonce.toNat + 2 ^ 32 * roll.toNat

def Thread.position (t : Thread ω) : Nat := Miner.position t.ntimeRoll t.nonce

def Hashed.position (h : Hashed ω) : Nat := Miner.position h.roll h.header.nonce

/-- The roll that a thread reaches by the end of the batch in progress. -/
def Thread.lastRoll (cfg : WorkerConfig) (t : Thread ω) : Nat :=
  (t.position + (t.left - 1) * cfg.nonceStep.toNat) / 2 ^ 32

/-- The configuration of a single worker. -/
structure SingleWorker (cfg : WorkerConfig) : Prop where
  offset : cfg.nonceOffset = 0
  step : cfg.nonceStep.toNat = cfg.threads
  threads : 0 < cfg.threads

theorem SingleWorker.startNonce {cfg : WorkerConfig} (h : SingleWorker cfg) {threadID : Nat}
    (hlt : threadID < cfg.threads) : (cfg.startNonce threadID).toNat = threadID := by
  have hstep := cfg.nonceStep.toNat_lt
  rw [h.step] at hstep
  rw [WorkerConfig.startNonce, h.offset, UInt32.zero_add]
  exact UInt32.toNat_ofNat_of_lt' (by simp [UInt32.size]; omega)

/-- One hash moves a thread one step along the line. -/
theorem Thread.position_advance {cfg : WorkerConfig} {t : Thread ω}
    (hroll : t.ntimeRoll.toNat + 1 < 2 ^ 32) :
    (t.advance cfg).position = t.position + cfg.nonceStep.toNat := by
  have hcarry := Stride.carry t.nonce cfg.nonceStep
  have hroll' : (t.advance cfg).ntimeRoll.toNat =
      t.ntimeRoll.toNat + if t.nonce + cfg.nonceStep < t.nonce then 1 else 0 := by
    rw [Thread.advance_ntimeRoll]
    split
    · rw [UInt32.toNat_add]
      exact Nat.mod_eq_of_lt (by simpa using hroll)
    · rfl
  unfold Thread.position Miner.position
  rw [hroll', Thread.advance_nonce, mul_add]
  omega

/-- The roll of a thread in a batch is at most the last one of the batch. -/
theorem Thread.roll_le_lastRoll (cfg : WorkerConfig) (t : Thread ω) :
    t.ntimeRoll.toNat ≤ t.lastRoll cfg := by
  have hpos : 2 ^ 32 * t.ntimeRoll.toNat ≤ t.position := by
    unfold Thread.position Miner.position
    omega
  unfold Thread.lastRoll
  rw [Nat.le_div_iff_mul_le (by decide)]
  omega

/-- The end of the batch does not move while the batch goes on. -/
theorem Thread.lastRoll_advance {cfg : WorkerConfig} {t : Thread ω}
    (hroll : t.ntimeRoll.toNat + 1 < 2 ^ 32) (hleft : 0 < (t.advance cfg).left) :
    (t.advance cfg).lastRoll cfg = t.lastRoll cfg := by
  rw [Thread.advance_left] at hleft
  obtain ⟨n, hn⟩ : ∃ n, t.left = n + 2 := ⟨t.left - 2, by omega⟩
  unfold Thread.lastRoll
  rw [Thread.position_advance hroll, Thread.advance_left, hn]
  congr 1
  rw [show n + 2 - 1 - 1 = n by omega, show n + 2 - 1 = n + 1 by omega, Nat.succ_mul]
  omega

/-! ## The condition -/

/-- A published work has a later timestamp than any that was used for its
template, or will be in the batches in progress; and no timestamp
overflows. -/
def Spaced (rig : Rig ω view) : RigMove ω → Prop
  | .setWork (some ref) =>
      (∀ h ∈ rig.hashed, h.header.template = (view ref).header.template →
        h.header.time < (view ref).header.time) ∧
      (∀ t ∈ rig.threads, ∀ old ∈ t.localWork, 0 < t.left →
        (view old).header.template = (view ref).header.template →
        (view old).header.time.toNat + t.lastRoll rig.cfg < (view ref).header.time.toNat)
  | .hash threadID => ∀ t ∈ rig.threads[threadID]?, ∀ ref ∈ t.localWork,
      (view ref).header.time.toNat + t.ntimeRoll.toNat + 1 < 2 ^ 32
  | _ => True

instance (rig : Rig ω view) : ∀ move, Decidable (Spaced rig move)
  | .setWork (some ref) => inferInstanceAs (Decidable (
      (∀ h ∈ rig.hashed, h.header.template = (view ref).header.template →
        h.header.time < (view ref).header.time) ∧
      (∀ t ∈ rig.threads, ∀ old ∈ t.localWork, 0 < t.left →
        (view old).header.template = (view ref).header.template →
        (view old).header.time.toNat + t.lastRoll rig.cfg < (view ref).header.time.toNat)))
  | .hash threadID => inferInstanceAs (Decidable (
      ∀ t ∈ rig.threads[threadID]?, ∀ ref ∈ t.localWork,
        (view ref).header.time.toNat + t.ntimeRoll.toNat + 1 < 2 ^ 32))
  | .setWork none => .isTrue trivial
  | .reload _ => .isTrue trivial
  | .takeShare => .isTrue trivial

/-- Under version `ver` the template was hashed at `time`, or may still be in
a batch in progress. -/
inductive Uses (rig : Rig ω view) : Nat → Template → Nat → Prop where
  | past (h : Hashed ω) (hmem : h ∈ rig.hashed) :
      Uses rig h.ver h.header.template h.header.time.toNat
  | batch (t : Thread ω) (ref : ω) (hmem : t ∈ rig.threads) (href : t.localWork = some ref)
      (hleft : 0 < t.left) :
      Uses rig t.localWorkVer (view ref).header.template
        ((view ref).header.time.toNat + t.lastRoll rig.cfg)

/-! ## The invariant -/

/-- `published v` is what the `v`-th call of `SetWork` published. -/
structure GrindInv (rig : Rig ω view) (published : Nat → Option ω) : Prop where
  single : SingleWorker rig.cfg
  current : rig.worker.work = published rig.worker.workVer
  future : ∀ v, rig.worker.workVer < v → published v = none
  thread_work : ∀ (i : Nat) t, rig.threads[i]? = some t → t.localWork = published t.localWorkVer
  thread_ver : ∀ (i : Nat) t, rig.threads[i]? = some t → t.localWorkVer ≤ rig.worker.workVer
  thread_pos : ∀ (i : Nat) t, rig.threads[i]? = some t → t.position % rig.cfg.threads = i
  past_work : ∀ h ∈ rig.hashed, published h.ver = some h.ref
  past_template : ∀ h ∈ rig.hashed, h.header.template = (view h.ref).header.template
  past_time : ∀ h ∈ rig.hashed,
    h.header.time.toNat = (view h.ref).header.time.toNat + h.roll.toNat
  past_pos : ∀ h ∈ rig.hashed, h.position % rig.cfg.threads = h.threadID
  /-- A thread is ahead of everything it hashed. -/
  ahead : ∀ (i : Nat) t, rig.threads[i]? = some t → ∀ h ∈ rig.hashed, h.threadID = i →
    h.ver < t.localWorkVer ∨ h.ver = t.localWorkVer ∧ h.position < t.position
  distinct : rig.hashed.Pairwise fun a b => a.ver = b.ver → a.position ≠ b.position
  /-- Later versions start beyond the timestamps of earlier ones. -/
  spaced : ∀ v template time, Uses rig v template time → ∀ v' ref, v < v' →
    published v' = some ref → (view ref).header.template = template →
    time < (view ref).header.time.toNat

/-- Reading a list after one entry was replaced. -/
theorem getElem?_set_cases {α : Type*} {l : List α} {i j : Nat} {a x : α}
    (h : (l.set i a)[j]? = some x) : (j = i ∧ x = a) ∨ (j ≠ i ∧ l[j]? = some x) := by
  by_cases hij : i = j
  · subst hij
    rw [getElem?_set_self'] at h
    cases hold : l[i]? with
    | none => simp [hold] at h
    | some y =>
      left
      simpa [hold, eq_comm] using h
  · rw [getElem?_set_ne hij] at h
    exact .inr ⟨Ne.symm hij, h⟩

theorem forall_getElem?_set {α : Type*} {l : List α} {i : Nat} {a : α} {P : Nat → α → Prop}
    (ha : P i a) (h : ∀ j x, l[j]? = some x → P j x) : ∀ j x, (l.set i a)[j]? = some x → P j x := by
  intro j x hx
  rcases getElem?_set_cases hx with ⟨rfl, rfl⟩ | ⟨-, hx⟩
  · exact ha
  · exact h j x hx

section

variable {rig : Rig ω view} {published : Nat → Option ω}

theorem GrindInv.past_ver (hinv : GrindInv rig published) {h : Hashed ω} (hmem : h ∈ rig.hashed) :
    h.ver ≤ rig.worker.workVer := by
  by_contra hlt
  have hnone := hinv.future h.ver (by omega)
  rw [hinv.past_work h hmem] at hnone
  cases hnone

/-- A worker that has just started. -/
theorem GrindInv.start {cfg : WorkerConfig} (hsingle : SingleWorker cfg) :
    GrindInv (Rig.start view cfg) fun _ => none := by
  have hthread : ∀ (i : Nat) t, (Rig.start view cfg).threads[i]? = some t →
      i < cfg.threads ∧ t = Thread.init cfg i := by
    intro i t h
    simp only [Rig.start, getElem?_map] at h
    obtain ⟨j, hj, rfl⟩ := Option.map_eq_some_iff.mp h
    obtain ⟨hlt, rfl⟩ := List.getElem?_eq_some_iff.mp hj
    refine ⟨by simpa using hlt, ?_⟩
    rw [getElem_range]
  refine ⟨hsingle, rfl, fun _ _ => rfl, ?_, ?_, ?_, ?_, ?_, ?_, ?_, ?_, List.Pairwise.nil, ?_⟩
  · intro i t h
    rw [(hthread i t h).2]
    rfl
  · intro i t h
    rw [(hthread i t h).2]
    exact le_rfl
  · intro i t h
    obtain ⟨hlt, rfl⟩ := hthread i t h
    show (Thread.init cfg i : Thread ω).position % cfg.threads = i
    have hpos : (Thread.init cfg i : Thread ω).position = i := by
      simp [Thread.position, Miner.position, Thread.init, hsingle.startNonce hlt]
    rw [hpos, Nat.mod_eq_of_lt hlt]
  · intro h hmem
    cases hmem
  · intro h hmem
    cases hmem
  · intro h hmem
    cases hmem
  · intro h hmem
    cases hmem
  · intro i t _ h hmem
    cases hmem
  · intro v template time _ v' ref _ hpub
    cases hpub

/-- `SetWork`. -/
theorem GrindInv.setWork (hinv : GrindInv rig published) (work : Option ω)
    (hspaced : Spaced rig (.setWork work)) :
    GrindInv { rig with worker := rig.worker.setWork work }
      (update published (rig.worker.workVer + 1) work) := by
  have hold : ∀ v, v ≤ rig.worker.workVer →
      update published (rig.worker.workVer + 1) work v = published v := by
    intro v hv
    rw [update_of_ne (by omega)]
  refine ⟨hinv.single, ?_, ?_, ?_, ?_, hinv.thread_pos, ?_, hinv.past_template, hinv.past_time,
    hinv.past_pos, hinv.ahead, hinv.distinct, ?_⟩
  · show work = _
    rw [Worker.setWork_workVer, update_self]
  · intro v hv
    have hv' : rig.worker.workVer + 1 < v := hv
    rw [update_of_ne (by omega)]
    exact hinv.future v (by omega)
  · intro i t h
    rw [hold _ (hinv.thread_ver i t h)]
    exact hinv.thread_work i t h
  · intro i t h
    exact (hinv.thread_ver i t h).trans (Nat.le_succ _)
  · intro h hmem
    rw [hold _ (hinv.past_ver hmem)]
    exact hinv.past_work h hmem
  · intro v template time huse v' ref hlt hpub htemplate
    -- Which timestamps are in use does not depend on what is published.
    have huse' : Uses rig v template time := by
      cases huse with
      | past h hmem => exact .past h hmem
      | batch t ref hmem href hleft => exact .batch t ref hmem href hleft
    by_cases hv' : v' = rig.worker.workVer + 1
    · subst hv'
      rw [update_self] at hpub
      subst hpub
      cases huse' with
      | past h hmem => exact UInt32.lt_iff_toNat_lt.mp (hspaced.1 h hmem htemplate.symm)
      | batch t old hmem href hleft => exact hspaced.2 t hmem old href hleft htemplate.symm
    · rw [update_of_ne hv'] at hpub
      exact hinv.spaced v template time huse' v' ref hlt hpub htemplate

/-- A thread looks at the published work. -/
theorem GrindInv.reload [DecidableEq ω] (hinv : GrindInv rig published) {i : Nat} {t : Thread ω}
    (ht : rig.threads[i]? = some t) :
    GrindInv { rig with threads := rig.threads.set i (t.reload rig.cfg i rig.worker) }
      published := by
  obtain ⟨hwork, hver, hkept⟩ := t.reload_spec rig.cfg i rig.worker
  have hpos := hinv.thread_pos i t ht
  have hi : i < rig.cfg.threads := by
    rw [← hpos]
    exact Nat.mod_lt _ hinv.single.threads
  refine ⟨hinv.single, hinv.current, hinv.future, ?_, ?_, ?_, hinv.past_work, hinv.past_template,
    hinv.past_time, hinv.past_pos, ?_, hinv.distinct, ?_⟩
  · refine forall_getElem?_set ?_ hinv.thread_work
    rw [hwork, hver]
    exact hinv.current
  · exact forall_getElem?_set hver.le hinv.thread_ver
  · refine forall_getElem?_set ?_ hinv.thread_pos
    unfold Thread.position at hpos ⊢
    rcases hkept with ⟨_, _, hnonce, hroll⟩ | ⟨_, hnonce, hroll⟩
    · rw [hnonce, hroll]
      exact hpos
    · rw [hnonce, hroll, Miner.position, hinv.single.startNonce hi]
      exact Nat.mod_eq_of_lt (by simpa using hi)
  · refine forall_getElem?_set (fun h hmem hid => ?_) hinv.ahead
    have hahead := hinv.ahead i t ht h hmem hid
    rcases hkept with ⟨_, hsame, hnonce, hroll⟩ | ⟨hchanged, _, _⟩
    · unfold Thread.position at hahead ⊢
      rw [hver, hsame, hnonce, hroll]
      exact hahead
    · -- A changed work has a new version: the thread has hashed nothing of it.
      left
      have hle := hinv.thread_ver i t ht
      have hne : rig.worker.workVer ≠ t.localWorkVer := by
        intro heq
        rcases hchanged with hchanged | hchanged
        · apply hchanged
          rw [hinv.current, hinv.thread_work i t ht, heq]
        · exact hchanged heq
      rw [hver]
      omega
  · intro v template time huse v' ref hlt hpub htemplate
    cases huse with
    | past h hmem => exact hinv.spaced _ _ _ (.past h hmem) v' ref hlt hpub htemplate
    | batch x old hmem href hleft =>
      rcases mem_or_eq_of_mem_set hmem with hmem | rfl
      · exact hinv.spaced _ _ _ (.batch x old hmem href hleft) v' ref hlt hpub htemplate
      · -- Nothing has been published after the current version.
        rw [hver] at hlt
        rw [hinv.future v' hlt] at hpub
        cases hpub

/-- A thread hashes one header. -/
theorem GrindInv.hashOne (sha256 : List UInt8 → Bytes32) (hinv : GrindInv rig published) {i : Nat}
    {t : Thread ω} {ref : ω} (ht : rig.threads[i]? = some t) (href : t.localWork = some ref)
    (hleft : 0 < t.left) (htime : (view ref).header.time.toNat + t.ntimeRoll.toNat + 1 < 2 ^ 32) :
    GrindInv (rig.hashOne sha256 i t ref) published := by
  have hroll : t.ntimeRoll.toNat + 1 < 2 ^ 32 := by omega
  have hadv : (t.advance rig.cfg).position = t.position + rig.cfg.threads := by
    rw [Thread.position_advance hroll, hinv.single.step]
  have hthreads := hinv.single.threads
  have hpos := hinv.thread_pos i t ht
  have htime' : (t.header (view ref)).time.toNat =
      (view ref).header.time.toNat + t.ntimeRoll.toNat := by
    show ((view ref).header.time + t.ntimeRoll).toNat = _
    rw [UInt32.toNat_add]
    exact Nat.mod_eq_of_lt (by omega)
  -- The new record is one more use that the batch had announced.
  have huse : Uses rig t.localWorkVer (view ref).header.template
      ((view ref).header.time.toNat + t.lastRoll rig.cfg) :=
    .batch t ref (mem_of_getElem? ht) href hleft
  refine ⟨hinv.single, hinv.current, hinv.future, ?_, ?_, ?_, ?_, ?_, ?_, ?_, ?_, ?_, ?_⟩
  · exact forall_getElem?_set (hinv.thread_work i t ht) hinv.thread_work
  · exact forall_getElem?_set (hinv.thread_ver i t ht) hinv.thread_ver
  · refine forall_getElem?_set ?_ hinv.thread_pos
    show (t.advance rig.cfg).position % rig.cfg.threads = i
    rw [hadv, Nat.add_mod_right]
    exact hpos
  · exact forall_mem_cons.mpr ⟨(hinv.thread_work i t ht).symm.trans href, hinv.past_work⟩
  · exact forall_mem_cons.mpr ⟨rfl, hinv.past_template⟩
  · exact forall_mem_cons.mpr ⟨htime', hinv.past_time⟩
  · exact forall_mem_cons.mpr ⟨hpos, hinv.past_pos⟩
  · intro j x hx h hmem hid
    rcases getElem?_set_cases hx with ⟨rfl, rfl⟩ | ⟨hne, hx⟩
    · rcases mem_cons.mp hmem with rfl | hmem
      · right
        refine ⟨rfl, ?_⟩
        show t.position < (t.advance rig.cfg).position
        omega
      · rcases hinv.ahead j t ht h hmem hid with hlt | ⟨heq, hlt⟩
        · exact .inl hlt
        · exact .inr ⟨heq, by rw [hadv]; omega⟩
    · rcases mem_cons.mp hmem with rfl | hmem
      · exact absurd hid.symm hne
      · exact hinv.ahead j x hx h hmem hid
  · refine pairwise_cons.mpr ⟨?_, hinv.distinct⟩
    intro h hmem hver heq
    have heq' : t.position = h.position := heq
    -- The residue of the position names the thread, and a thread is ahead of
    -- its own records.
    have hid : h.threadID = i := by
      rw [← hinv.past_pos h hmem, ← heq', hpos]
    rcases hinv.ahead i t ht h hmem hid with hlt | ⟨_, hlt⟩
    · have hver' : t.localWorkVer = h.ver := hver
      omega
    · omega
  · intro v template time huse' v' ref' hlt hpub htemplate
    cases huse' with
    | past h hmem =>
      rcases mem_cons.mp hmem with rfl | hmem
      · have hbound := hinv.spaced _ _ _ huse v' ref' hlt hpub htemplate
        have hle := t.roll_le_lastRoll rig.cfg
        show (t.header (view ref)).time.toNat < _
        omega
      · exact hinv.spaced _ _ _ (.past h hmem) v' ref' hlt hpub htemplate
    | batch x old hmem hold hleft' =>
      rcases mem_or_eq_of_mem_set hmem with hmem | rfl
      · exact hinv.spaced _ _ _ (.batch x old hmem hold hleft') v' ref' hlt hpub htemplate
      · obtain rfl : ref = old := Option.some.inj (href.symm.trans hold)
        show (view ref).header.time.toNat + (t.advance rig.cfg).lastRoll rig.cfg < _
        rw [Thread.lastRoll_advance hroll hleft']
        exact hinv.spaced _ _ _ huse v' ref' hlt hpub htemplate

/-- A share is received from the channel. -/
theorem GrindInv.takeShare (hinv : GrindInv rig published) (shares : List (Emitted ω view)) :
    GrindInv { rig with shares := shares } published := by
  refine ⟨hinv.single, hinv.current, hinv.future, hinv.thread_work, hinv.thread_ver,
    hinv.thread_pos, hinv.past_work, hinv.past_template, hinv.past_time, hinv.past_pos, hinv.ahead,
    hinv.distinct, ?_⟩
  intro v template time huse
  cases huse with
  | past h hmem => exact hinv.spaced _ _ _ (.past h hmem)
  | batch t ref hmem href hleft => exact hinv.spaced _ _ _ (.batch t ref hmem href hleft)

/-- Every step that meets `Spaced` keeps the invariant. -/
theorem GrindInv.next [DecidableEq ω] (sha256 : List UInt8 → Bytes32) {rig' : Rig ω view}
    {move : RigMove ω} (hinv : GrindInv rig published) (hspaced : Spaced rig move)
    (hnext : rig.next sha256 move = some rig') : ∃ published', GrindInv rig' published' := by
  cases move with
  | setWork work =>
    obtain rfl := Option.some.inj hnext
    exact ⟨_, hinv.setWork work hspaced⟩
  | reload i =>
    obtain ⟨t, ht, _, rfl⟩ := Rig.next_reload sha256 hnext
    exact ⟨published, hinv.reload ht⟩
  | hash i =>
    obtain ⟨t, ref, ht, href, hleft, rfl⟩ := Rig.next_hash sha256 hnext
    exact ⟨published, hinv.hashOne sha256 ht href hleft (hspaced t ht ref href)⟩
  | takeShare =>
    simp only [Rig.next] at hnext
    split at hnext
    · cases hnext
    · obtain rfl := Option.some.inj hnext
      exact ⟨published, hinv.takeShare _⟩

/-- No header was hashed twice. -/
theorem GrindInv.headers_distinct (hinv : GrindInv rig published) :
    rig.hashed.Pairwise fun a b => a.header ≠ b.header := by
  -- Two versions of one template: the later one starts after the earlier one.
  have hcross : ∀ a ∈ rig.hashed, ∀ b ∈ rig.hashed, a.header = b.header → ¬ a.ver < b.ver := by
    intro a ha b hb heq hlt
    have htemplate : (view b.ref).header.template = a.header.template := by
      rw [heq, hinv.past_template b hb]
    have hbound := hinv.spaced _ _ _ (.past a ha) b.ver b.ref hlt (hinv.past_work b hb) htemplate
    have htime := hinv.past_time b hb
    rw [heq] at hbound
    omega
  refine hinv.distinct.imp_of_mem ?_
  intro a b ha hb hdistinct heq
  rcases Nat.lt_trichotomy a.ver b.ver with hlt | hver | hlt
  · exact hcross a ha b hb heq hlt
  · -- One version: equal headers have equal rolls and nonces.
    have href : a.ref = b.ref := by
      have hsame := (hinv.past_work a ha).symm.trans (hver ▸ hinv.past_work b hb)
      exact Option.some.inj hsame
    have htimeA := hinv.past_time a ha
    have htimeB := hinv.past_time b hb
    have hroll : a.roll = b.roll := by
      apply UInt32.toNat_inj.mp
      rw [heq, href] at htimeA
      omega
    apply hdistinct hver
    unfold Hashed.position
    rw [hroll, heq]
  · exact hcross b hb a ha heq.symm hlt

end

/-! ## Whole runs -/

/-- The wire forms of the headers whose shares were handed to the channel. -/
def Rig.sentHeaders (rig : Rig ω view) : List (List UInt8) :=
  (rig.hashed.filter Hashed.sent).map fun h => h.header.bytes

/-- In every run of a single worker whose steps are `Spaced`, no two shares
carry the same header. -/
theorem reach_sentHeaders_nodup [DecidableEq ω] (sha256 : List UInt8 → Bytes32)
    {cfg : WorkerConfig} (hsingle : SingleWorker cfg) {rig : Rig ω view}
    (hreach : (rigSystem sha256 view).Reach Spaced (Rig.start view cfg) rig) :
    rig.sentHeaders.Nodup := by
  obtain ⟨published, hinv⟩ : ∃ published, GrindInv rig published := by
    refine hreach.invariant (P := fun rig => ∃ published, GrindInv rig published)
      ⟨_, GrindInv.start hsingle⟩ ?_
    rintro rig move rig' ⟨published, hinv⟩ hspaced hnext
    exact hinv.next sha256 hspaced hnext
  have hfilter := hinv.headers_distinct.filter Hashed.sent
  refine pairwise_map.mpr (hfilter.imp ?_)
  intro a b hne heq
  exact hne (Header.bytes_injective heq)

end Otedama.Miner
