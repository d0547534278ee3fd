import Otedama.Framework.CaseMapping
import Otedama.Framework.Machine

/-! # The capped log file

The log is appended to until a record would take it over the cap; then it
is moved to `.old` and a fresh file is started with a marker.

Each call to the file system may fail, and which ones do is an input of
every `Write` here (`Faults`).

A rotation closes the handle before anything else. Whether the handle is
open afterwards is decided by `OpenFile` alone (`isOpen_write`), and there
is only one way back: another rotation. So where `OpenFile` failed, the
writer comes back if the tracked size still asks for a rotation, and does
not if the size has been set to zero, as it is when the file was moved
(`recovers_iff`).

Sizes are natural numbers. Nobody else touches the two files. -/

namespace Otedama.Cmd

open GoString List

/-! ## The file system -/

/-- How `Rename` fails. -/
inductive RenameError where
  | notExist
  | other
  deriving DecidableEq, Repr

/-- Which calls fail in one `Write`. -/
structure Faults where
  remove : Bool
  rename : Option RenameError
  openFile : Bool
  openStat : Bool
  /-- How many bytes of the marker are written before the failure. -/
  marker : Option Nat
  markerStat : Bool
  /-- How many bytes of the record are written before the failure. -/
  write : Option Nat
  deriving DecidableEq, Repr

def Faults.none : Faults := ⟨false, .none, false, false, .none, false, .none⟩

inductive WriteError where
  | openFile
  | closed
  | failed
  deriving DecidableEq, Repr

/-- The writer and the two files it works on. -/
structure CappedLogFile where
  /-- The file at `path`. -/
  file : Option GoString
  /-- The file at `path + ".old"`. -/
  old : Option GoString
  /-- Whether the handle `f` is open. The file at `path` is moved only while
      it is closed, so an open handle is one of the file at `path`. -/
  isOpen : Bool
  size : Nat
  deriving DecidableEq, Repr

namespace CappedLogFile

def content (c : CappedLogFile) : GoString := c.file.getD []

/-- `c.f.Write` -/
def append (c : CappedLogFile) (fault : Option Nat) (p : GoString) :
    CappedLogFile × Nat × Option WriteError :=
  if c.isOpen then
    match fault with
    | none => ({ c with file := some (c.content ++ p) }, p.length, none)
    | some k => ({ c with file := some (c.content ++ p.take k) }, min k p.length, some .failed)
  else (c, 0, some .closed)

/-- `os.Rename(c.path, oldPath)` -/
def rename (c : CappedLogFile) (x : Faults) : CappedLogFile × Option RenameError :=
  match x.rename with
  | some e => (c, some e)
  | none =>
      match c.file with
      | none => (c, some .notExist)
      | some _ => ({ c with file := none, old := c.file }, none)

/-! ## The writer -/

def openLocked (c : CappedLogFile) (x : Faults) : CappedLogFile × Option WriteError :=
  if x.openFile then (c, some .openFile)
  else
    ({ c with
        file := some c.content
        size := if x.openStat then c.size else c.content.length
        isOpen := true }, none)

/-- `openCappedLogFile`, where `file` and `old` are there already. -/
def openCappedLogFile (x : Faults) (file old : Option GoString) :
    Except WriteError CappedLogFile :=
  match openLocked ⟨file, old, false, 0⟩ x with
  | (c, none) => .ok c
  | (_, some err) => .error err

def marker (oldSize : Nat) : GoString :=
  text "[info] log rotated at ".toList ++ text (Nat.toDigits 10 oldSize) ++ text " bytes\n".toList

/-- The end of a rotation, once the file is out of the way. -/
def startFresh (c : CappedLogFile) (x : Faults) (oldSize : Nat) :
    CappedLogFile × Option WriteError :=
  match openLocked { c with size := 0 } x with
  | (c, some err) => (c, some err)
  | (c, none) =>
      match c.append x.marker (marker oldSize) with
      | (c, _, some err) => (c, some err)
      | (c, _, none) =>
          ({ c with size := if x.markerStat then c.size else c.content.length }, none)

def rotateLocked (c : CappedLogFile) (x : Faults) : CappedLogFile × Option WriteError :=
  -- `Close` and `Remove`
  let closed := { c with isOpen := false, old := if x.remove then c.old else none }
  match closed.rename x with
  | (moved, some .other) => moved.openLocked x
  | (moved, _) => moved.startFresh x c.size

/-- A record that does not fit. -/
def Rotates (cap : Nat) (c : CappedLogFile) (p : GoString) : Prop :=
  0 < c.size ∧ cap < c.size + p.length

instance (cap : Nat) (c : CappedLogFile) (p : GoString) : Decidable (Rotates cap c p) :=
  inferInstanceAs (Decidable (_ ∧ _))

/-- The end of `Write`, behind the rotation. -/
def writeRecord (x : Faults) (p : GoString) :
    CappedLogFile × Option WriteError → CappedLogFile × Nat × Option WriteError
  | (c, some err) => (c, 0, some err)
  | (c, none) =>
      let r := c.append x.write p
      ({ r.1 with size := r.1.size + r.2.1 }, r.2)

def write (cap : Nat) (x : Faults) (c : CappedLogFile) (p : GoString) :
    CappedLogFile × Nat × Option WriteError :=
  writeRecord x p (if Rotates cap c p then c.rotateLocked x else (c, none))

/-- The writer as a machine. The outputs are what `Write` returns. -/
def writer (cap : Nat) : Machine CappedLogFile (Faults × GoString) (Nat × Option WriteError) where
  step c e := ((write cap e.1 c e.2).1, [(write cap e.1 c e.2).2])

/-! ## What one `Write` does -/

variable {cap : Nat} {c : CappedLogFile} {x : Faults} {p : GoString}

@[simp] theorem rename_isOpen : (c.rename x).1.isOpen = c.isOpen := by
  unfold rename
  split
  · rfl
  · split <;> rfl

@[simp] theorem append_isOpen (fault : Option Nat) : (c.append fault p).1.isOpen = c.isOpen := by
  unfold append
  split
  · split <;> rfl
  · rfl

/-- An open that succeeds leaves the handle open, one that fails leaves the
writer alone. -/
theorem openLocked_isOpen (hclosed : c.isOpen = false) :
    (c.openLocked x).1.isOpen = !x.openFile := by
  unfold openLocked
  cases hopen : x.openFile with
  | true => exact hclosed
  | false => rfl

theorem startFresh_isOpen (hclosed : c.isOpen = false) (oldSize : Nat) :
    (c.startFresh x oldSize).1.isOpen = !x.openFile := by
  have hopen := openLocked_isOpen (c := { c with size := 0 }) (x := x) hclosed
  unfold startFresh
  split
  · next heq => rwa [heq] at hopen
  · next c' heq =>
    rw [heq] at hopen
    have happend := append_isOpen (c := c') (p := marker oldSize) x.marker
    split
    · next heq' => rwa [heq', hopen] at happend
    · next heq' => rwa [heq', hopen] at happend

theorem rotateLocked_isOpen : (c.rotateLocked x).1.isOpen = !x.openFile := by
  unfold rotateLocked
  have hclosed : ∀ moved err, ({ c with
      isOpen := false, old := if x.remove then c.old else none } : CappedLogFile).rename x =
        (moved, err) → moved.isOpen = false := by
    intro moved err heq
    have hsame := rename_isOpen (x := x)
      (c := { c with isOpen := false, old := if x.remove then c.old else none })
    rwa [heq] at hsame
  dsimp only
  split
  · next moved heq => exact openLocked_isOpen (hclosed moved _ heq)
  · next moved err _ heq => exact startFresh_isOpen (hclosed moved err heq) c.size

theorem writeRecord_isOpen (r : CappedLogFile × Option WriteError) :
    (writeRecord x p r).1.isOpen = r.1.isOpen := by
  obtain ⟨c, err⟩ := r
  cases err with
  | some err => rfl
  | none => exact append_isOpen x.write

/-- The handle is open after a `Write` if the rotation opened it, or if there
was no rotation and it was open before. -/
theorem isOpen_write :
    (write cap x c p).1.isOpen = if Rotates cap c p then !x.openFile else c.isOpen := by
  unfold write
  rw [writeRecord_isOpen]
  split
  · exact rotateLocked_isOpen
  · rfl

/-- Without failures, a record that does not fit starts a fresh file. -/
theorem write_of_rotates (h : Rotates cap c p) : write cap .none c p =
      (⟨some (marker c.size ++ p), c.file, true, (marker c.size).length + p.length⟩,
        p.length, none) := by
  unfold write
  rw [if_pos h]
  cases hfile : c.file with
  | none | some s =>
    simp [rotateLocked, rename, startFresh, openLocked, append, writeRecord, content,
      Faults.none, hfile]

theorem write_of_open (h : ¬ Rotates cap c p) (hopen : c.isOpen = true) :
    write cap .none c p =
      ({ c with file := some (c.content ++ p), size := c.size + p.length }, p.length, none) := by
  unfold write
  rw [if_neg h]
  simp [writeRecord, append, hopen, Faults.none]

theorem write_of_closed (h : ¬ Rotates cap c p) (hclosed : c.isOpen = false) :
    write cap x c p = (c, 0, some .closed) := by
  have happend : c.append x.write p = (c, 0, some .closed) := by
    unfold append
    rw [if_neg (Bool.eq_false_iff.mp hclosed)]
  unfold write
  rw [if_neg h, writeRecord, happend]
  rfl

/-! ## Once the failures are over -/

/-- The writer after further records, without failures. -/
def later (cap : Nat) (c : CappedLogFile) (ps : List GoString) : CappedLogFile :=
  (writer cap).run c (ps.map fun p => (.none, p))

theorem later_concat (ps : List GoString) :
    later cap c (ps ++ [p]) = (write cap .none (later cap c ps) p).1 := by
  rw [later, map_append, Machine.run_append]
  rfl

/-- The record stands at the end of the file, behind what was there or behind
the marker of a rotation. -/
def Appends (before after : CappedLogFile) (p : GoString) : Prop :=
  after.file = some (before.content ++ p) ∨
    (after.old = before.file ∧ after.file = some (marker before.size ++ p))

/-- One of the records made the writer rotate. -/
def RotatedBy (cap : Nat) (c : CappedLogFile) (ps : List GoString) : Prop :=
  ∃ qs q rest, ps = qs ++ q :: rest ∧ Rotates cap (later cap c qs) q

/-- The size is within the cap, or the file has only a marker and the last
record. -/
def Bounded (cap : Nat) (before after : CappedLogFile) (p : GoString) : Prop :=
  after.content.length ≤ cap ∨
    (Rotates cap before p ∧ after.content.length = (marker before.size).length + p.length)

/-- Every further record is written, completely, and from the next rotation on
the size is bounded. -/
def Recovers (cap : Nat) (c : CappedLogFile) : Prop :=
  ∀ ps p,
    (write cap .none (later cap c ps) p).2 = (p.length, none) ∧
    Appends (later cap c ps) (write cap .none (later cap c ps) p).1 p ∧
    (RotatedBy cap c (ps ++ [p]) → Bounded cap (later cap c ps) (later cap c (ps ++ [p])) p)

/-- The tracked size is that of the file. -/
structure Exact (c : CappedLogFile) : Prop where
  isOpen : c.isOpen = true
  pos : 0 < c.size
  size_eq : c.content.length = c.size

theorem marker_length_pos (n : Nat) : 0 < (marker n).length := by
  unfold marker
  rw [append_assoc, length_append]
  exact Nat.add_pos_left (by decide) _

theorem exact_of_rotates (h : Rotates cap c p) : Exact (write cap .none c p).1 := by
  rw [write_of_rotates h]
  refine ⟨rfl, Nat.add_pos_left (marker_length_pos c.size) _, ?_⟩
  exact length_append

theorem Exact.write (h : Exact c) (p : GoString) : Exact (write cap .none c p).1 := by
  by_cases hrot : Rotates cap c p
  · exact exact_of_rotates hrot
  · rw [write_of_open hrot h.isOpen]
    refine ⟨h.isOpen, Nat.add_pos_left h.pos _, ?_⟩
    show (c.content ++ p).length = c.size + p.length
    rw [length_append, h.size_eq]

theorem exact_of_rotatedBy {ps : List GoString} (h : RotatedBy cap c ps) :
    Exact (later cap c ps) := by
  obtain ⟨qs, q, rest, rfl, hrot⟩ := h
  induction rest using reverseRecOn with
  | nil =>
    rw [later_concat]
    exact exact_of_rotates hrot
  | append_singleton rest p ih =>
    have hsplit : qs ++ q :: (rest ++ [p]) = (qs ++ q :: rest) ++ [p] := by simp
    rw [hsplit, later_concat]
    exact ih.write p

/-- A record keeps the bound where the size is right, and restores it where it
makes the writer rotate. -/
theorem bounded_write (h : Exact c ∨ Rotates cap c p) :
    Bounded cap c (write cap .none c p).1 p := by
  by_cases hrot : Rotates cap c p
  · refine .inr ⟨hrot, ?_⟩
    rw [write_of_rotates hrot]
    exact length_append
  · have hexact : Exact c := h.resolve_right hrot
    refine .inl ?_
    rw [write_of_open hrot hexact.isOpen]
    show (c.content ++ p).length ≤ cap
    rw [length_append, hexact.size_eq]
    have hfits : ¬ cap < c.size + p.length := fun hlt => hrot ⟨hexact.pos, hlt⟩
    omega

/-- What keeps the writer going: an open handle, or a size over the cap, which
makes it rotate at the next record. -/
def Alive (cap : Nat) (c : CappedLogFile) : Prop := c.isOpen = true ∨ cap < c.size

theorem Alive.rotates_or_open (h : Alive cap c) (p : GoString) :
    Rotates cap c p ∨ (¬ Rotates cap c p ∧ c.isOpen = true) := by
  by_cases hrot : Rotates cap c p
  · exact .inl hrot
  · rcases h with hopen | hlarge
    · exact .inr ⟨hrot, hopen⟩
    · exact .inl ⟨by omega, by omega⟩

theorem Alive.write (h : Alive cap c) (p : GoString) : Alive cap (write cap .none c p).1 := by
  rcases h.rotates_or_open p with hrot | ⟨hrot, hopen⟩
  · rw [write_of_rotates hrot]
    exact .inl rfl
  · rw [write_of_open hrot hopen]
    exact .inl hopen

theorem Alive.served (h : Alive cap c) (p : GoString) :
    (CappedLogFile.write cap .none c p).2 = (p.length, none) ∧
      Appends c (CappedLogFile.write cap .none c p).1 p := by
  rcases h.rotates_or_open p with hrot | ⟨hrot, hopen⟩
  · rw [write_of_rotates hrot]
    exact ⟨rfl, .inr ⟨rfl, rfl⟩⟩
  · rw [write_of_open hrot hopen]
    exact ⟨rfl, .inl rfl⟩

theorem Alive.later (h : Alive cap c) (ps : List GoString) : Alive cap (later cap c ps) := by
  induction ps using reverseRecOn with
  | nil => exact h
  | append_singleton ps p ih =>
    rw [later_concat]
    exact ih.write p

theorem recovers_iff_alive : Recovers cap c ↔ Alive cap c := by
  constructor
  · intro h
    by_contra hdead
    obtain ⟨hopen, hsmall⟩ := not_or.mp hdead
    -- A record of no bytes asks for no rotation.
    have hrot : ¬ Rotates cap c [] := fun hrot => hsmall hrot.2
    have hfirst := (h [] []).1
    rw [show CappedLogFile.later cap c [] = c from rfl,
      write_of_closed hrot (Bool.eq_false_iff.mpr hopen)] at hfirst
    cases hfirst
  · intro h ps p
    obtain ⟨hres, happends⟩ := (h.later ps).served p
    refine ⟨hres, happends, fun hrotated => ?_⟩
    rw [later_concat]
    refine bounded_write ?_
    obtain ⟨qs, q, rest, heq, hrot⟩ := hrotated
    -- The rotation is the last record's or an earlier one's.
    rcases eq_nil_or_concat rest with rfl | ⟨rest, q', rfl⟩
    · obtain ⟨rfl, rfl⟩ := append_singleton_inj.mp heq
      exact .inr hrot
    · have hsplit : ps ++ [p] = (qs ++ q :: rest) ++ [q'] := by simpa using heq
      obtain ⟨rfl, rfl⟩ := append_singleton_inj.mp hsplit
      exact .inl (exact_of_rotatedBy ⟨qs, q, rest, rfl, hrot⟩)

/-- A closed handle and a size of zero stay so for ever. -/
theorem later_of_dead (hclosed : c.isOpen = false) (hzero : c.size = 0) (ps : List GoString) :
    later cap c ps = c := by
  have hrot : ∀ p, ¬ Rotates cap c p := fun p hrot => absurd hrot.1 (by omega)
  induction ps using reverseRecOn with
  | nil => rfl
  | append_singleton ps p ih => rw [later_concat, ih, write_of_closed (hrot p) hclosed]

/-! ## Recovery -/

/-- **When the log file recovers.**  After any calls with any failures, the
writer recovers if and only if its handle is open or the tracked size is
over the cap; it does if `OpenFile` never failed in a rotation. -/
theorem recovers_iff (cap : Nat) (x : Faults) (file old : Option GoString) (c₀ : CappedLogFile)
    (hopened : openCappedLogFile x file old = .ok c₀) (calls : List (Faults × GoString)) :
    (Recovers cap ((writer cap).run c₀ calls) ↔
      ((writer cap).run c₀ calls).isOpen = true ∨ cap < ((writer cap).run c₀ calls).size) ∧
    ((∀ call ∈ calls, call.1.openFile = false) → Recovers cap ((writer cap).run c₀ calls)) := by
  refine ⟨recovers_iff_alive, fun hcalls => recovers_iff_alive.mpr (.inl ?_)⟩
  have hstart : c₀.isOpen = true := by
    unfold openCappedLogFile openLocked at hopened
    cases hfail : x.openFile with
    | true =>
      rw [hfail] at hopened
      cases hopened
    | false =>
      rw [hfail] at hopened
      cases hopened
      rfl
  refine (writer cap).run_invariant (P := fun c => c.isOpen = true)
    (Q := fun call => call.1.openFile = false) hstart ?_ calls hcalls
  intro c call hok hopen
  show (write cap call.1 c call.2).1.isOpen = true
  rw [isOpen_write]
  split
  · rw [hok]
    rfl
  · exact hopen

/-- The writer that starts with no file. -/
def fresh : CappedLogFile := ⟨some [], none, true, 0⟩

/-- A log that could not be moved, and is moved at the next record, goes on. -/
theorem recovers_after_failed_move :
    openCappedLogFile .none none none = .ok fresh ∧
    (∀ call ∈ [(Faults.none, text "hello".toList),
      ({ Faults.none with rename := some .other }, text "world".toList)],
        call.1.openFile = false) ∧
    Recovers 8 ((writer 8).run fresh [(.none, text "hello".toList),
      ({ Faults.none with rename := some .other }, text "world".toList)]) := by
  have hopened : openCappedLogFile .none none none = .ok fresh := rfl
  have hcalls : ∀ call ∈ [(Faults.none, text "hello".toList),
      ({ Faults.none with rename := some .other }, text "world".toList)],
        call.1.openFile = false := by
    decide
  exact ⟨hopened, hcalls, (recovers_iff 8 .none none none fresh hopened _).2 hcalls⟩

/-- A log that was moved but could not be opened again is lost: no later record
is written, though nothing fails any more. -/
theorem lost_after_failed_reopen :
    openCappedLogFile .none none none = .ok fresh ∧
    ∃ c, c = (writer 8).run fresh [(.none, text "hello".toList),
        ({ Faults.none with openFile := true }, text "world".toList)] ∧
      ∀ ps p, (write 8 .none (later 8 c ps) p).2 = (0, some .closed) := by
  refine ⟨rfl, _, rfl, fun ps p => ?_⟩
  have hrun : (writer 8).run fresh [(.none, text "hello".toList),
      ({ Faults.none with openFile := true }, text "world".toList)] =
        ⟨none, some (text "hello".toList), false, 0⟩ := by
    decide
  rw [hrun, later_of_dead rfl rfl, write_of_closed (fun hrot => absurd hrot.1 (by decide)) rfl]

end CappedLogFile

end Otedama.Cmd
