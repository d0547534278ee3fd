import Otedama.Framework.Bytes

/-! # Readers of byte streams

A reader takes a value off the front of a byte stream, or fails; either
way it says what is left of the stream. It is *exact* for a grammar when
it succeeds precisely on the streams that start with a spelling of the
value it returns, and takes off that spelling and nothing else.
Exactness goes through sequencing, so the grammar of a record is read off
the reader of the record, field by field.

The second half is about streams that arrive in pieces. What a reader
returns does not depend on how the stream is cut: the reader of the
pieces *simulates* the reader of the whole. -/

/-- How `io.ReadFull` reports the end of the stream. -/
inductive StreamError where
  /-- `io.EOF`: nothing was read. -/
  | eof
  /-- `io.ErrUnexpectedEOF`: something was read, but not enough. -/
  | unexpectedEOF
  deriving DecidableEq, Repr

/-- A reader of values of type `α`. -/
abbrev Reader (ε α : Type) := EStateM ε (List UInt8) α

namespace Reader

open List

variable {ε ε' α β σ τ : Type}

theorem bind_apply (x : EStateM ε σ α) (f : α → EStateM ε σ β) (s : σ) :
    (x >>= f) s =
      match x s with
      | .ok a s' => f a s'
      | .error e s' => .error e s' := by
  show EStateM.bind x f s = _
  unfold EStateM.bind
  cases x s <;> rfl

theorem adaptExcept_apply (g : ε → ε') (x : EStateM ε σ α) (s : σ) :
    x.adaptExcept g s =
      match x s with
      | .ok a s' => .ok a s'
      | .error e s' => .error (g e) s' := by
  unfold EStateM.adaptExcept
  cases x s <;> rfl

@[simp] theorem ok_bind (a : α) (f : α → Except ε β) : (Except.ok a >>= f) = f a := rfl

theorem bind_eq_ok {x : Except ε α} {f : α → Except ε β} {b : β} :
    x >>= f = .ok b ↔ ∃ a, x = .ok a ∧ f a = .ok b := by
  cases x with
  | error e => simp [bind, Except.bind]
  | ok a => simp [bind, Except.bind]

theorem mapError_eq_ok {x : Except ε α} {g : ε → ε'} {a : α} :
    x.mapError g = .ok a ↔ x = .ok a := by
  cases x with
  | error e => simp [Except.mapError]
  | ok b => simp [Except.mapError]

theorem bind_eq_error {x : Except ε α} {f : α → Except ε β} {e : ε} :
    x >>= f = .error e ↔ x = .error e ∨ ∃ a, x = .ok a ∧ f a = .error e := by
  cases x with
  | error e => simp [bind, Except.bind]
  | ok a => simp [bind, Except.bind]

/-! ## Exactness -/

/-- The reader takes off the spellings of `G`. -/
def Exact (get : Reader ε α) (G : α → List UInt8 → Prop) : Prop :=
  ∀ p a t, get p = .ok a t ↔ ∃ bs, G a bs ∧ p = bs ++ t

/-- What two grammars spell one after the other. -/
def Then (G : α → List UInt8 → Prop) (H : α → β → List UInt8 → Prop) (b : β) (bs : List UInt8) :
    Prop :=
  ∃ a bs₁ bs₂, G a bs₁ ∧ H a b bs₂ ∧ bs = bs₁ ++ bs₂

theorem Exact.pure (a : α) : Exact (pure a : Reader ε α) fun b bs => b = a ∧ bs = [] := by
  intro p b t
  constructor
  · intro h
    cases h
    exact ⟨[], ⟨rfl, rfl⟩, rfl⟩
  · rintro ⟨bs, ⟨rfl, rfl⟩, rfl⟩
    rfl

variable {G : α → List UInt8 → Prop} {decode : List UInt8 → Except ε α}

theorem Exact.bind {x : Reader ε α} {f : α → Reader ε β} {H : α → β → List UInt8 → Prop}
    (hx : Exact x G) (hf : ∀ a, Exact (f a) (H a)) : Exact (x >>= f) (Then G H) := by
  intro p b t
  rw [bind_apply]
  constructor
  · intro h
    cases hrun : x p with
    | error e q =>
      rw [hrun] at h
      cases h
    | ok a q =>
      rw [hrun] at h
      obtain ⟨bs₁, hG, rfl⟩ := (hx p a q).mp hrun
      obtain ⟨bs₂, hH, rfl⟩ := (hf a q b t).mp h
      exact ⟨bs₁ ++ bs₂, ⟨a, bs₁, bs₂, hG, hH, rfl⟩, (append_assoc _ _ _).symm⟩
  · rintro ⟨bs, ⟨a, bs₁, bs₂, hG, hH, rfl⟩, rfl⟩
    rw [append_assoc, (hx _ a (bs₂ ++ t)).mpr ⟨bs₁, hG, rfl⟩]
    exact (hf a _ b t).mpr ⟨bs₂, hH, rfl⟩

theorem Exact.adaptExcept {get : Reader ε α} (h : Exact get G) (g : ε → ε') :
    Exact (get.adaptExcept g) G := by
  intro p a t
  rw [← h p a t, adaptExcept_apply]
  cases get p with
  | error e q => simp
  | ok b q => simp

theorem Exact.congr {get : Reader ε α} {G' : α → List UInt8 → Prop} (h : Exact get G)
    (hG : ∀ a bs, G a bs ↔ G' a bs) : Exact get G' := by
  intro p a t
  rw [h p a t]
  simp only [hG]

/-- Run a reader on a whole string and forget what it left. -/
def eval (get : Reader ε α) (p : List UInt8) : Except ε α :=
  match get p with
  | .ok a _ => .ok a
  | .error e _ => .error e

/-- The decoder accepts the strings that start with a spelling of `G`. -/
def Accepts (decode : List UInt8 → Except ε α) (G : α → List UInt8 → Prop) : Prop :=
  ∀ p a, decode p = .ok a ↔ ∃ bs t, G a bs ∧ p = bs ++ t

theorem Exact.accepts {get : Reader ε α} (h : Exact get G) : Accepts get.eval G := by
  intro p a
  unfold eval
  constructor
  · intro hrun
    cases hget : get p with
    | error e q =>
      rw [hget] at hrun
      cases hrun
    | ok b q =>
      rw [hget] at hrun
      cases hrun
      obtain ⟨bs, hG, rfl⟩ := (h p a q).mp hget
      exact ⟨bs, q, hG, rfl⟩
  · rintro ⟨bs, t, hG, rfl⟩
    rw [(h _ a t).mpr ⟨bs, hG, rfl⟩]

theorem Accepts.congr {G' : α → List UInt8 → Prop} (h : Accepts decode G)
    (hG : ∀ a bs, G a bs ↔ G' a bs) : Accepts decode G' := by
  intro p a
  rw [h p a]
  simp only [hG]

/-- A decoder that reads every spelling back, and accepts nothing but
spellings, returns what was spelled. -/
theorem accepts_of_roundTrip (hround : ∀ a bs t, G a bs → decode (bs ++ t) = .ok a)
    (hspell : ∀ p a, decode p = .ok a → ∃ b bs t, G b bs ∧ p = bs ++ t) : Accepts decode G := by
  intro p a
  constructor
  · intro h
    obtain ⟨b, bs, t, hG, rfl⟩ := hspell p a h
    have hba : b = a := Except.ok.inj ((hround b bs t hG).symm.trans h)
    exact ⟨bs, t, hba ▸ hG, rfl⟩
  · rintro ⟨bs, t, hG, rfl⟩
    exact hround a bs t hG

/-- A decoder of a fixed-size code that checks the length first. -/
structure FixedDecoder (c : Bytes.FixedCode α) (decode : List UInt8 → Except ε α)
    (short : Nat → ε) : Prop where
  of_short : ∀ p, p.length < c.size → decode p = .error (short p.length)
  of_encode : ∀ a t, decode (c.encode a ++ t) = .ok a

section

variable {c : Bytes.FixedCode α} {short : Nat → ε} (h : FixedDecoder c decode short)

include h

theorem FixedDecoder.accepts : Accepts decode fun a bs => bs = c.encode a := by
  refine accepts_of_roundTrip ?_ ?_
  · rintro a _ t rfl
    exact h.of_encode a t
  · intro p a hok
    by_cases hlen : c.size ≤ p.length
    · obtain ⟨b, t, rfl⟩ := c.spell hlen
      exact ⟨b, _, t, rfl, rfl⟩
    · rw [h.of_short p (by omega)] at hok
      cases hok

/-- Such a decoder fails on short strings only. -/
theorem FixedDecoder.error_eq {p : List UInt8} {e : ε} (herr : decode p = .error e) :
    e = short p.length := by
  by_cases hlen : c.size ≤ p.length
  · obtain ⟨b, t, rfl⟩ := c.spell hlen
    rw [h.of_encode] at herr
    cases herr
  · rw [h.of_short p (by omega)] at herr
    exact (Except.error.inj herr).symm

end

/-! ## Errors -/

/-- Every error of the reader satisfies `E`. -/
def Throws (get : EStateM ε σ α) (E : ε → Prop) : Prop :=
  ∀ s e s', get s = .error e s' → E e

theorem Throws.pure (a : α) (E : ε → Prop) : Throws (pure a : EStateM ε σ α) E := by
  intro s e s' h
  cases h

theorem Throws.bind {x : EStateM ε σ α} {f : α → EStateM ε σ β} {E : ε → Prop} (hx : Throws x E)
    (hf : ∀ a, Throws (f a) E) : Throws (x >>= f) E := by
  intro s e s' h
  rw [bind_apply] at h
  cases hrun : x s with
  | error e₁ s₁ =>
    rw [hrun] at h
    cases h
    exact hx s _ _ hrun
  | ok a s₁ =>
    rw [hrun] at h
    exact hf a s₁ e s' h

theorem Throws.adaptExcept {x : EStateM ε σ α} {E : ε' → Prop} {g : ε → ε'}
    (h : Throws x fun e => E (g e)) : Throws (x.adaptExcept g) E := by
  intro s e s' herr
  rw [adaptExcept_apply] at herr
  cases hrun : x s with
  | error e₁ s₁ =>
    rw [hrun] at herr
    cases herr
    exact h s _ _ hrun
  | ok a s₁ =>
    rw [hrun] at herr
    cases herr

theorem Throws.eval {get : Reader ε α} {E : ε → Prop} (h : Throws get E) {p : List UInt8} {e : ε}
    (herr : get.eval p = .error e) : E e := by
  unfold Reader.eval at herr
  cases hget : get p with
  | error e₁ q =>
    rw [hget] at herr
    cases herr
    exact h p _ _ hget
  | ok a q =>
    rw [hget] at herr
    cases herr

/-! ## Simulation -/

/-- Map the state of a result. -/
def mapState (f : σ → τ) : EStateM.Result ε σ α → EStateM.Result ε τ α
  | .ok a s => .ok a (f s)
  | .error e s => .error e (f s)

/-- `x` behaves on `s` as `y` does on `f s`. -/
def Simulates (f : σ → τ) (x : EStateM ε σ α) (y : EStateM ε τ α) : Prop :=
  ∀ s, mapState f (x s) = y (f s)

theorem Simulates.pure (f : σ → τ) (a : α) : Simulates f (pure a : EStateM ε σ α) (pure a) := by
  intro s
  rfl

theorem Simulates.throw (f : σ → τ) (e : ε) : Simulates f (throw e : EStateM ε σ α) (throw e) := by
  intro s
  rfl

theorem Simulates.bind {f : σ → τ} {x : EStateM ε σ α} {y : EStateM ε τ α}
    {g : α → EStateM ε σ β} {h : α → EStateM ε τ β} (hxy : Simulates f x y)
    (hgh : ∀ a, Simulates f (g a) (h a)) : Simulates f (x >>= g) (y >>= h) := by
  intro s
  rw [bind_apply, bind_apply, ← hxy s]
  cases x s with
  | error e s' => rfl
  | ok a s' => exact hgh a s'

theorem Simulates.adaptExcept {f : σ → τ} {x : EStateM ε σ α} {y : EStateM ε τ α}
    (hxy : Simulates f x y) (g : ε → ε') : Simulates f (x.adaptExcept g) (y.adaptExcept g) := by
  intro s
  rw [adaptExcept_apply, adaptExcept_apply, ← hxy s]
  cases x s with
  | error e s' => rfl
  | ok a s' => rfl

/-! ## `io.ReadFull` -/

/-- `io.ReadFull` into a buffer of `n` bytes. -/
def readFull (n : Nat) : Reader StreamError (List UInt8) := fun p =>
  if n ≤ p.length then .ok (p.take n) (p.drop n)
  else if p = [] then .error .eof []
  else .error .unexpectedEOF []

theorem readFull_of_le {n : Nat} {p : List UInt8} (h : n ≤ p.length) :
    readFull n p = .ok (p.take n) (p.drop n) :=
  if_pos h

theorem readFull_of_lt {n : Nat} {p : List UInt8} (h : p.length < n) :
    readFull n p = .error (if p = [] then .eof else .unexpectedEOF) [] := by
  unfold readFull
  rw [if_neg (by omega)]
  split <;> rfl

theorem readFull_exact (n : Nat) : Exact (readFull n) fun a bs => a.length = n ∧ bs = a := by
  intro p a t
  constructor
  · intro h
    by_cases hle : n ≤ p.length
    · rw [readFull_of_le hle] at h
      cases h
      exact ⟨p.take n, ⟨by simp [hle], rfl⟩, (take_append_drop n p).symm⟩
    · rw [readFull_of_lt (by omega)] at h
      cases h
  · rintro ⟨_, ⟨rfl, rfl⟩, rfl⟩
    rw [readFull_of_le (by simp)]
    simp

/-- A field of fixed size. -/
theorem readFull_fixed_exact (c : Bytes.FixedCode α) (g : StreamError → ε) :
    Exact (do let b ← (readFull c.size).adaptExcept g; pure (c.decode b))
      fun a bs => bs = c.encode a := by
  refine (((readFull_exact c.size).adaptExcept g).bind fun b => Exact.pure (c.decode b)).congr ?_
  intro a bs
  constructor
  · rintro ⟨b, _, _, ⟨hlen, rfl⟩, ⟨rfl, rfl⟩, rfl⟩
    rw [c.encode_decode _ hlen, append_nil]
  · rintro rfl
    exact ⟨c.encode a, _, [], ⟨c.length_encode a, rfl⟩, ⟨(c.decode_encode a).symm, rfl⟩, by simp⟩

/-- `ReadByte`. -/
def readByte : Reader StreamError UInt8
  | [] => .error .eof []
  | b :: p => .ok b p

theorem readByte_exact : Exact readByte fun b bs => bs = [b] := by
  intro p b t
  cases p with
  | nil => simp [readByte]
  | cons c p => simp [readByte, eq_comm]

/-! ## Streams in pieces -/

/-- A stream, cut into what the single reads return. -/
abbrev Chunks := List (List UInt8)

/-- The loop of `io.ReadFull`: `got` has been read and `n` more bytes are
wanted. -/
def readChunks (got : List UInt8) : Nat → EStateM StreamError Chunks (List UInt8)
  | 0, cs => .ok got cs
  | _ + 1, [] => .error (if got = [] then .eof else .unexpectedEOF) []
  | n + 1, c :: cs =>
      -- A read returns a whole piece, or as much of it as the buffer takes.
      if n + 1 ≤ c.length then .ok (got ++ c.take (n + 1)) (c.drop (n + 1) :: cs)
      else readChunks (got ++ c) (n + 1 - c.length) cs

/-- `io.ReadFull` on a stream in pieces. -/
def readFullChunks (n : Nat) : EStateM StreamError Chunks (List UInt8) := readChunks [] n

theorem readChunks_of_le {got : List UInt8} {n : Nat} {cs : Chunks} (h : n ≤ cs.flatten.length) :
    mapState flatten (readChunks got n cs) =
      .ok (got ++ cs.flatten.take n) (cs.flatten.drop n) := by
  induction cs generalizing got n with
  | nil =>
    obtain rfl : n = 0 := by simpa using h
    simp [readChunks, mapState]
  | cons c cs ih =>
    cases n with
    | zero => simp [readChunks, mapState]
    | succ n =>
      rw [flatten_cons, length_append] at h
      unfold readChunks
      by_cases hc : n + 1 ≤ c.length
      · rw [if_pos hc, flatten_cons, take_append_of_le_length hc, drop_append_of_le_length hc]
        rfl
      · have hlen : c.length ≤ n + 1 := by omega
        rw [if_neg hc, ih (by omega), flatten_cons, take_append,
          take_of_length_le hlen, drop_append, drop_of_length_le hlen,
          nil_append, append_assoc]

theorem readChunks_of_lt {got : List UInt8} {n : Nat} {cs : Chunks} (h : cs.flatten.length < n) :
    readChunks got n cs = .error (if got ++ cs.flatten = [] then .eof else .unexpectedEOF) [] := by
  induction cs generalizing got n with
  | nil =>
    cases n with
    | zero => cases h
    | succ n => simp [readChunks]
  | cons c cs ih =>
    cases n with
    | zero => cases h
    | succ n =>
      rw [flatten_cons, length_append] at h
      unfold readChunks
      rw [if_neg (by omega), ih (by omega), append_assoc, flatten_cons]

/-- Reading from a stream in pieces is reading from the whole stream. -/
theorem readFullChunks_simulates (n : Nat) : Simulates flatten (readFullChunks n) (readFull n) := by
  intro cs
  unfold readFullChunks
  by_cases h : n ≤ cs.flatten.length
  · rw [readChunks_of_le h, readFull_of_le h, nil_append]
  · rw [readChunks_of_lt (by omega), readFull_of_lt (by omega), nil_append]
    rfl

end Reader
