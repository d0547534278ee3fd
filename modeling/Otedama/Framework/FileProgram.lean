import Mathlib.Data.Fin.Basic

/-! # Programs over a directory

A program that works on the files of one directory is a tree: it is done,
or it makes a system call and goes on with the result. What a call may
return and do is a relation, so calls can fail, and writes can be cut
short. A program can stop between any two calls, and several programs
can work on one directory, one call at a time.

The proof rules are of the rely-guarantee kind. `t.Keeps p Q d` says of a
program `p` and a directory `d`: as long as the others change the
directory within `t.rely`, every call of `p` stays within `t.guar`, and
when `p` is done, `Q` holds and goes on holding. Of the own calls,
`t.may` may be assumed.

A file that was created under a temporary name belongs to the program
that asked for it, and the name is not handed out to another. -/

namespace FileProgram

open Function List

/-! ## Directories -/

abbrev Path := List UInt8

abbrev Content := List UInt8

structure Dir where
  files : Path → Option Content
  /-- Who asked for this temporary name. -/
  owner : Path → Option Nat

namespace Dir

variable (d : Dir) (p q : Path)

/-- Store or remove a file. -/
def set (c : Option Content) : Dir := { d with files := Function.update d.files p c }

/-- Overwrite a file through a handle. A file that has been removed
meanwhile has no name any more. -/
def rewrite (c : Content) : Dir := if (d.files p).isSome then d.set p (some c) else d

/-- Create an empty file that belongs to `me`. -/
def claim (me : Nat) : Dir where
  files := Function.update d.files p (some [])
  owner := Function.update d.owner p (some me)

variable {d p q}

@[simp] theorem set_files_self (c : Option Content) : (d.set p c).files p = c :=
  update_self ..

@[simp] theorem set_files_ne (h : q ≠ p) (c : Option Content) : (d.set p c).files q = d.files q :=
  update_of_ne h ..

@[simp] theorem rewrite_owner (c : Content) : (d.rewrite p c).owner = d.owner := by
  unfold rewrite
  split <;> rfl

@[simp] theorem rewrite_files_ne (h : q ≠ p) (c : Content) :
    (d.rewrite p c).files q = d.files q := by
  unfold rewrite
  split
  · exact set_files_ne h _
  · rfl

theorem rewrite_of_none (h : d.files p = none) (c : Content) : d.rewrite p c = d := by
  simp [rewrite, h]

theorem rewrite_of_some {old : Content} (h : d.files p = some old) (c : Content) :
    d.rewrite p c = d.set p (some c) := by
  simp [rewrite, h]

@[simp] theorem claim_files_self (me : Nat) : (d.claim p me).files p = some [] :=
  update_self ..

@[simp] theorem claim_files_ne (h : q ≠ p) (me : Nat) : (d.claim p me).files q = d.files q :=
  update_of_ne h ..

@[simp] theorem claim_owner_self (me : Nat) : (d.claim p me).owner p = some me :=
  update_self ..

@[simp] theorem claim_owner_ne (h : q ≠ p) (me : Nat) : (d.claim p me).owner q = d.owner q :=
  update_of_ne h ..

end Dir

/-! ## System calls -/

/-- What `Stat` reports. -/
inductive Stat where
  | found (modTime : Int)
  | notExist
  | failed
  deriving DecidableEq, Repr

inductive Op where
  | mkdirAll
  /-- Names that begin and end with the given texts. -/
  | glob (front back : Path)
  | now
  | stat (p : Path)
  | remove (p : Path)
  | readFile (p : Path)
  | writeFile (p : Path) (c : Content)
  | createTemp (front back : Path)
  | write (p : Path) (c : Content)
  | sync (p : Path)
  | close (p : Path)
  | chmod (p : Path)
  | rename (p q : Path)

/-- The result of a call. A `Bool` says whether the call succeeded; `none`
is an error. -/
abbrev Op.Res : Op → Type
  | .mkdirAll => Bool
  | .glob _ _ => Option (List Path)
  | .now => Int
  | .stat _ => Stat
  | .remove _ => Bool
  | .readFile _ => Option Content
  | .writeFile _ _ => Bool
  | .createTemp _ _ => Option Path
  | .write _ _ => Bool
  | .sync _ => Bool
  | .close _ => Bool
  | .chmod _ => Bool
  | .rename _ _ => Bool

/-- The name begins with `front` and ends with `back`. -/
def Matches (front back p : Path) : Prop := ∃ mid, p = front ++ mid ++ back

/-- What a call of `me` may return, and how it may leave the directory. Only
`rename` has its full effect or none. -/
def Op.Does (me : Nat) : (o : Op) → Dir → o.Res → Dir → Prop
  | .mkdirAll, d, _, d' => d' = d
  | .glob front back, d, r, d' => d' = d ∧ ∀ ps, r = some ps → ∀ p ∈ ps, Matches front back p
  | .now, d, _, d' => d' = d
  | .stat p, d, r, d' => d' = d ∧ (r = .notExist → d.files p = none)
  | .remove p, d, ok, d' => d' = d.set p none ∨ ok = false ∧ d' = d
  | .readFile p, d, r, d' => d' = d ∧ ∀ c, r = some c → d.files p = some c
  | .writeFile p c, d, ok, d' =>
      ok = true ∧ d' = d.set p (some c) ∨
      ok = false ∧ (d' = d ∨ ∃ part, d' = d.set p (some part))
  | .createTemp front back, d, r, d' =>
      r = none ∧ d' = d ∨
      ∃ p, r = some p ∧ Matches front back p ∧ d.files p = none ∧
        (∀ j, d.owner p = some j → j = me) ∧ d' = d.claim p me
  | .write p c, d, ok, d' =>
      ∃ c', d' = d.rewrite p c' ∧ (ok = true → ∀ old, d.files p = some old → c' = old ++ c)
  | .sync p, d, ok, d' => d' = d ∨ ok = false ∧ ∃ part, d' = d.rewrite p part
  | .close p, d, ok, d' => d' = d ∨ ok = false ∧ ∃ part, d' = d.rewrite p part
  | .chmod _, d, _, d' => d' = d
  | .rename p q, d, ok, d' =>
      ok = false ∧ d' = d ∨
      ok = true ∧ ∃ c, d.files p = some c ∧ d' = (d.set p none).set q (some c)

/-- The calls that change no file. -/
def Op.looks : Op → Bool
  | .mkdirAll | .glob _ _ | .now | .stat _ | .readFile _ | .chmod _ => true
  | _ => false

theorem Op.Does.eq_of_looks {me : Nat} {o : Op} (ho : o.looks = true) {d d' : Dir} {r : o.Res}
    (h : o.Does me d r d') : d' = d := by
  cases o with
  | mkdirAll => exact h
  | glob _ _ => exact h.1
  | now => exact h
  | stat _ => exact h.1
  | readFile _ => exact h.1
  | chmod _ => exact h
  | _ => cases ho

/-- The call is a `rename` that took effect. -/
def Op.renames : (o : Op) → o.Res → Bool
  | .rename _ _, ok => ok
  | _, _ => false

theorem Op.renames_of_looks {o : Op} (ho : o.looks = true) (r : o.Res) : o.renames r = false := by
  cases o with
  | rename _ _ => cases ho
  | _ => rfl

/-! ## Programs -/

inductive Prog (α : Type) where
  | ret (a : α)
  | op (o : Op) (k : o.Res → Prog α)

namespace Prog

variable {α β : Type}

def bind : Prog α → (α → Prog β) → Prog β
  | .ret a, f => f a
  | .op o k, f => .op o fun r => (k r).bind f

instance : Monad Prog where
  pure := .ret
  bind := bind

instance decidableDone : (p : Prog α) → Decidable (∃ a, p = .ret a)
  | .ret a => .isTrue ⟨a, rfl⟩
  | .op _ _ => .isFalse nofun

/-- Make one call. -/
def call (o : Op) : Prog o.Res := .op o .ret

/-- Once the program has renamed, it returns a value of `Q`. `done` says
whether it has already. -/
def Commits (Q : α → Prop) (done : Bool) : Prog α → Prop
  | .ret a => done = true → Q a
  | .op o k => ∀ r, (k r).Commits Q (done || o.renames r)

/-- **Commit rule** for results. -/
theorem commits_pure (Q : α → Prop) (a : α) : (pure a : Prog α).Commits Q false := by
  intro h
  cases h

/-- **Commit rule** for calls other than `rename`. -/
theorem commits_call {Q : α → Prop} {done : Bool} {o : Op} {f : o.Res → Prog α}
    (ho : ∀ r, o.renames r = false) (hf : ∀ r, (f r).Commits Q done) :
    (call o >>= f).Commits Q done := by
  intro r
  rw [ho r, Bool.or_false]
  exact hf r

/-- **Commit rule** for sequences. -/
theorem Commits.bind {R : β → Prop} {Q : α → Prop} {done : Bool} {p : Prog β} {f : β → Prog α}
    (hp : p.Commits R done) (hf : ∀ b done', (done' = true → R b) → (f b).Commits Q done') :
    (p >>= f).Commits Q done := by
  induction p generalizing done with
  | ret b => exact hf b done hp
  | op o k ih => exact fun r => ih r (hp r)

end Prog

abbrev mkdirAll : Prog Bool := .call .mkdirAll
abbrev glob (front back : Path) : Prog (Option (List Path)) := .call (.glob front back)
abbrev now : Prog Int := .call .now
abbrev stat (p : Path) : Prog Stat := .call (.stat p)
abbrev remove (p : Path) : Prog Bool := .call (.remove p)
abbrev readFile (p : Path) : Prog (Option Content) := .call (.readFile p)
abbrev writeFile (p : Path) (c : Content) : Prog Bool := .call (.writeFile p c)
abbrev createTemp (front back : Path) : Prog (Option Path) := .call (.createTemp front back)
abbrev write (p : Path) (c : Content) : Prog Bool := .call (.write p c)
abbrev sync (p : Path) : Prog Bool := .call (.sync p)
abbrev close (p : Path) : Prog Bool := .call (.close p)
abbrev chmod (p : Path) : Prog Bool := .call (.chmod p)
abbrev rename (p q : Path) : Prog Bool := .call (.rename p q)

/-! ## Rely and guarantee -/

/-- The terms on which a program works on a shared directory. -/
structure Terms where
  me : Nat
  /-- What the others may do between two calls. -/
  rely : Dir → Dir → Prop
  /-- When an own call may have this result. -/
  may : (o : Op) → o.Res → Dir → Prop
  /-- What own calls do. -/
  guar : (o : Op) → o.Res → Dir → Dir → Prop
  refl : ∀ d, rely d d
  trans : ∀ {d₁ d₂ d₃}, rely d₁ d₂ → rely d₂ d₃ → rely d₁ d₃

namespace Terms

variable {α β : Type} {t : Terms} {Q : α → Dir → Prop} {d d' : Dir}

def Keeps (t : Terms) : Prog α → (α → Dir → Prop) → Dir → Prop
  | .ret a, Q, d => ∀ d', t.rely d d' → Q a d'
  | .op o k, Q, d => ∀ d₁, t.rely d d₁ → ∀ r d₂, o.Does t.me d₁ r d₂ → t.may o r d₁ →
      t.guar o r d₁ d₂ ∧ t.Keeps (k r) Q d₂

/-- **Stability.** What the others do does not matter. -/
theorem Keeps.rely {p : Prog α} (h : t.Keeps p Q d) (hd : t.rely d d') : t.Keeps p Q d' := by
  cases p with
  | ret a | op o k => exact fun d₁ h₁ => h d₁ (t.trans hd h₁)

/-- **Call rule.** -/
theorem keeps_call {o : Op} {f : o.Res → Prog α}
    (h : ∀ d₁, t.rely d d₁ → ∀ r d₂, o.Does t.me d₁ r d₂ → t.may o r d₁ →
      t.guar o r d₁ d₂ ∧ t.Keeps (f r) Q d₂) : t.Keeps (Prog.call o >>= f) Q d := h

/-- **Return rule.** -/
theorem keeps_pure {a : α} (h : ∀ d', t.rely d d' → Q a d') : t.Keeps (pure a) Q d := h

/-- **Sequence rule.** -/
theorem keeps_bind {p : Prog β} {f : β → Prog α}
    (h : t.Keeps p (fun b d => t.Keeps (f b) Q d) d) : t.Keeps (p >>= f) Q d := by
  induction p generalizing d with
  | ret b => exact h d (t.refl d)
  | op o k ih =>
    intro d₁ h₁ r d₂ hdoes hmay
    obtain ⟨hguar, hk⟩ := h d₁ h₁ r d₂ hdoes hmay
    exact ⟨hguar, ih r hk⟩

/-- **Consequence rule.** -/
theorem Keeps.imp {Q' : α → Dir → Prop} {p : Prog α} (h : t.Keeps p Q d)
    (hQ : ∀ a d, Q a d → Q' a d) : t.Keeps p Q' d := by
  induction p generalizing d with
  | ret a => exact fun d' hd => hQ a d' (h d' hd)
  | op o k ih =>
    intro d₁ h₁ r d₂ hdoes hmay
    obtain ⟨hguar, hk⟩ := h d₁ h₁ r d₂ hdoes hmay
    exact ⟨hguar, ih r hk⟩

/-- **Step rule.** A call stays within the guarantee and leaves a program that
keeps the terms. -/
theorem Keeps.step {o : Op} {k : o.Res → Prog α} (h : t.Keeps (.op o k) Q d) {r : o.Res}
    (hdoes : o.Does t.me d r d') (hmay : t.may o r d) :
    t.guar o r d d' ∧ t.Keeps (k r) Q d' :=
  h d (t.refl d) r d' hdoes hmay

/-- **Result rule.** A program that is done has its postcondition. -/
theorem Keeps.result {a : α} (h : t.Keeps (.ret a) Q d) : Q a d := h d (t.refl d)

end Terms

/-! ## Temporary files -/

section Temporary

variable {front back : Path} {me : Nat} {d d' d'' : Dir} {p : Path}

/-- The temporary files of `me` are left as they are, or removed. -/
def Leaves (front back : Path) (me : Nat) (d d' : Dir) : Prop :=
  ∀ p, Matches front back p → d.owner p = some me →
    d'.owner p = some me ∧ (d'.files p = d.files p ∨ d'.files p = none)

/-- A call of `me` leaves the temporary files of everyone else. -/
def Spares (front back : Path) (me : Nat) (d d' : Dir) : Prop :=
  ∀ j, j ≠ me → Leaves front back j d d'

theorem Leaves.refl (d : Dir) : Leaves front back me d d := fun _ _ howner => ⟨howner, .inl rfl⟩

theorem Leaves.trans (h : Leaves front back me d d') (h' : Leaves front back me d' d'') :
    Leaves front back me d d'' := by
  intro p hp howner
  obtain ⟨howner', hfiles⟩ := h p hp howner
  obtain ⟨howner'', hfiles'⟩ := h' p hp howner'
  refine ⟨howner'', ?_⟩
  obtain hfiles' | hfiles' := hfiles'
  · rw [hfiles']
    exact hfiles
  · exact .inr hfiles'

theorem Spares.refl (d : Dir) : Spares front back me d d := fun _ _ => .refl d

theorem spares_remove : Spares front back me d (d.set p none) := by
  intro j _ q _ howner
  refine ⟨howner, ?_⟩
  by_cases hq : q = p
  · subst hq
    exact .inr (Dir.set_files_self _)
  · exact .inl (Dir.set_files_ne hq _)

theorem spares_set (hp : ¬ Matches front back p) (c : Option Content) :
    Spares front back me d (d.set p c) := by
  intro j _ q hq howner
  have hne : q ≠ p := fun h => hp (h ▸ hq)
  exact ⟨howner, .inl (Dir.set_files_ne hne _)⟩

theorem spares_rewrite (hp : d.owner p = some me) (c : Content) :
    Spares front back me d (d.rewrite p c) := by
  intro j hj q _ howner
  have hne : q ≠ p := by
    intro h
    rw [h, hp] at howner
    exact hj (Option.some.inj howner).symm
  exact ⟨by rw [Dir.rewrite_owner]; exact howner, .inl (Dir.rewrite_files_ne hne _)⟩

theorem spares_claim (hp : ∀ j, d.owner p = some j → j = me) :
    Spares front back me d (d.claim p me) := by
  intro j hj q _ howner
  have hne : q ≠ p := fun h => hj (hp j (h ▸ howner))
  exact ⟨by rw [Dir.claim_owner_ne hne]; exact howner, .inl (Dir.claim_files_ne hne _)⟩

/-- A file of `me` that nobody else has touched: it has the content `me`
gave it, or it has been removed. -/
structure Mine (front back : Path) (me : Nat) (p : Path) (c : Content) (d : Dir) : Prop where
  matches' : Matches front back p
  owner : d.owner p = some me
  files : d.files p = some c ∨ d.files p = none

theorem Mine.of_owner (hp : Matches front back p) (howner : d.owner p = some me) :
    ∃ c, Mine front back me p c d := by
  cases hfile : d.files p with
  | none => exact ⟨[], hp, howner, .inr hfile⟩
  | some c => exact ⟨c, hp, howner, .inl hfile⟩

theorem Mine.leaves {c : Content} (h : Mine front back me p c d)
    (hd : Leaves front back me d d') : Mine front back me p c d' := by
  obtain ⟨howner, hfiles⟩ := hd p h.matches' h.owner
  refine ⟨h.matches', howner, ?_⟩
  obtain hfiles | hfiles := hfiles
  · rw [hfiles]
    exact h.files
  · exact .inr hfiles

theorem Mine.claim (hp : Matches front back p) : Mine front back me p [] (d.claim p me) :=
  ⟨hp, Dir.claim_owner_self me, .inl (Dir.claim_files_self me)⟩

theorem Mine.write {c c' new : Content} (h : Mine front back me p c d)
    (hc : ∀ old, d.files p = some old → c' = old ++ new) :
    Mine front back me p (c ++ new) (d.rewrite p c') := by
  refine ⟨h.matches', by rw [Dir.rewrite_owner]; exact h.owner, ?_⟩
  obtain hfiles | hfiles := h.files
  · rw [Dir.rewrite_of_some hfiles, Dir.set_files_self, hc c hfiles]
    exact .inl rfl
  · rw [Dir.rewrite_of_none hfiles]
    exact .inr hfiles

end Temporary

/-! ## When no call has to fail -/

/-- A result that a call of `me` may have, and the directory after it. The
temporary names are told apart by the number of the program. -/
def Op.answer (me : Nat) : (o : Op) → Dir → o.Res × Dir
  | .mkdirAll, d => (true, d)
  | .glob _ _, d => (some [], d)
  | .now, d => ((0 : Int), d)
  | .stat p, d => (if d.files p = none then .notExist else .found 0, d)
  | .remove p, d => (true, d.set p none)
  | .readFile p, d => (d.files p, d)
  | .writeFile p c, d => (true, d.set p (some c))
  | .createTemp front back, d =>
      let p := front ++ [UInt8.ofNat me] ++ back
      if d.files p = none ∧ d.owner p = none then (some p, d.claim p me) else (none, d)
  | .write p c, d => (true, d.rewrite p ((d.files p).getD [] ++ c))
  | .sync _, d => (true, d)
  | .close _, d => (true, d)
  | .chmod _, d => (true, d)
  | .rename p q, d =>
      match d.files p with
      | some c => (true, (d.set p none).set q (some c))
      | none => (false, d)

theorem Op.does_answer (me : Nat) (o : Op) (d : Dir) :
    o.Does me d (o.answer me d).1 (o.answer me d).2 := by
  cases o with
  | mkdirAll | now | chmod _ => exact rfl
  | glob _ _ => exact ⟨rfl, by simp [answer]⟩
  | stat p =>
    refine ⟨rfl, fun h => ?_⟩
    by_contra hne
    simp [answer, hne] at h
  | remove _ | sync _ | close _ => exact .inl rfl
  | readFile _ => exact ⟨rfl, fun _ => id⟩
  | writeFile _ _ => exact .inl ⟨rfl, rfl⟩
  | createTemp front back =>
    rw [answer]
    split
    · next hfree =>
      have howner : ∀ j, d.owner _ = some j → j = me := fun j hj => by cases hfree.2.symm.trans hj
      exact .inr ⟨_, rfl, ⟨_, rfl⟩, hfree.1, howner, rfl⟩
    · exact .inl ⟨rfl, rfl⟩
  | write p c => exact ⟨_, rfl, fun _ old hold => by rw [hold]; rfl⟩
  | rename p q =>
    rw [answer]
    split
    · next c hfile => exact .inr ⟨rfl, c, hfile, rfl⟩
    · exact .inl ⟨rfl, rfl⟩

/-! ## Several programs -/

/-- `n` programs on one directory. -/
structure Shared (n : Nat) (α : Type) where
  dir : Dir
  progs : Fin n → Prog α

namespace Shared

variable {n : Nat} {α : Type} {s s' s'' : Shared n α}

/-- Program `i` makes its next call; the flag tells a `rename` that took
effect. -/
inductive Step (i : Fin n) : Bool → Shared n α → Shared n α → Prop where
  | call {s : Shared n α} {o : Op} {k : o.Res → Prog α} {r : o.Res} {d' : Dir}
      (hprog : s.progs i = .op o k) (hdoes : o.Does i s.dir r d') :
      Step i (o.renames r) s ⟨d', Function.update s.progs i (k r)⟩

/-- An interleaving, with the programs whose `rename` took effect. -/
inductive Run (s₀ : Shared n α) : List (Fin n) → Shared n α → Prop where
  | start : Run s₀ [] s₀
  | step {i : Fin n} {b : Bool} {renamed : List (Fin n)} {s s' : Shared n α} :
      Run s₀ renamed s → Step i b s s' → Run s₀ (renamed ++ if b then [i] else []) s'

/-- Program `i` makes its next call, if it is not done. -/
def advance (x : List (Fin n) × Shared n α) (i : Fin n) : List (Fin n) × Shared n α :=
  match x.2.progs i with
  | .ret _ => x
  | .op o k =>
      let (r, d) := o.answer i x.2.dir
      (x.1 ++ if o.renames r then [i] else [], ⟨d, Function.update x.2.progs i (k r)⟩)

/-- Any schedule gives an interleaving. -/
theorem Run.foldl_advance {s₀ : Shared n α} (schedule : List (Fin n))
    {x : List (Fin n) × Shared n α} (hrun : Run s₀ x.1 x.2) :
    Run s₀ (schedule.foldl advance x).1 (schedule.foldl advance x).2 := by
  induction schedule generalizing x with
  | nil => exact hrun
  | cons i schedule ih =>
    apply ih
    rw [advance]
    split
    · exact hrun
    · next hprog => exact hrun.step (.call hprog (Op.does_answer i _ _))

/-- **Parallel rule.** One step of an interleaving, when what each program
guarantees is what the others rely on. -/
theorem keeps_step {t : Fin n → Terms} {Q : Fin n → α → Dir → Prop} {i : Fin n} {o : Op}
    {k : o.Res → Prog α} {r : o.Res} {d' : Dir} (hme : (t i).me = i)
    (hshare : ∀ j, j ≠ i → ∀ d', (t i).guar o r s.dir d' → (t j).rely s.dir d')
    (hkeeps : ∀ j, (t j).Keeps (s.progs j) (Q j) s.dir) (hprog : s.progs i = .op o k)
    (hdoes : o.Does i s.dir r d') (hmay : (t i).may o r s.dir) :
    (t i).guar o r s.dir d' ∧ ∀ j, (t j).Keeps (update s.progs i (k r) j) (Q j) d' := by
  have hi := hkeeps i
  rw [hprog] at hi
  obtain ⟨hguar, hk⟩ := hi.step (hme ▸ hdoes) hmay
  refine ⟨hguar, fun j => ?_⟩
  by_cases hj : j = i
  · subst hj
    rw [update_self]
    exact hk
  · rw [update_of_ne hj]
    exact (hkeeps j).rely (hshare j hj d' hguar)

/-- **Commit rule** for interleavings. -/
theorem Run.commits {s₀ : Shared n α} {Q : Fin n → α → Prop} {renamed : List (Fin n)}
    (hrun : Run s₀ renamed s) (hinit : ∀ i, (s₀.progs i).Commits (Q i) false) (i : Fin n) :
    ∃ done, (i ∈ renamed → done = true) ∧ (s.progs i).Commits (Q i) done := by
  induction hrun with
  | start => exact ⟨false, by simp, hinit i⟩
  | @step j b renamed s s' _ hstep ih =>
    obtain ⟨done, hdone, hcommits⟩ := ih
    cases hstep with
    | @call _ o k r _ hprog _ =>
      show ∃ done, _ ∧ (update s.progs j (k r) i).Commits (Q i) done
      by_cases hij : i = j
      · subst hij
        rw [hprog] at hcommits
        rw [update_self]
        refine ⟨done || o.renames r, fun hi => ?_, hcommits r⟩
        cases hren : o.renames r with
        | true => exact Bool.or_true done
        | false =>
          rw [Bool.or_false]
          exact hdone (by simpa [hren] using hi)
      · rw [update_of_ne hij]
        refine ⟨done, fun hi => hdone ?_, hcommits⟩
        cases hren : o.renames r with
        | true => simpa [hren, hij] using hi
        | false => simpa [hren] using hi

end Shared

end FileProgram
