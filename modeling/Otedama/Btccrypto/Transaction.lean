import Otedama.Btccrypto.Coinbase

/-! # Transactions and the payout check

The serialization of a transaction, in the legacy form and with witnesses,
and what the payout check finds in it. The scripts of the outputs decide;
input scripts and witnesses are skipped or not reached.

The parser reads a prefix of its input and does not look behind it. So a
transaction that is cut off within its outputs cannot be read to the end
without a match: the whole one would be read in the same way. -/

namespace Otedama.Btccrypto

open Bytes List

/-! ## Transactions -/

/-- The canonical encoding of a number. -/
def compactSize (v : Nat) : List UInt8 :=
  if v < 0xfd then [UInt8.ofNat v]
  else if v ≤ 0xffff then 0xfd :: leBytes 2 v
  else if v ≤ 0xffffffff then 0xfe :: leBytes 4 v
  else 0xff :: leBytes 8 v

/-- Bytes with their number in front. -/
def withSize (bs : List UInt8) : List UInt8 := compactSize bs.length ++ bs

structure TxIn where
  txid : Bytes32
  index : UInt32
  scriptSig : List UInt8
  sequence : UInt32
  scriptSig_lt : scriptSig.length < 2 ^ 64

def TxIn.bytes (i : TxIn) : List UInt8 :=
  i.txid.toList ++ le32 i.index ++ withSize i.scriptSig ++ le32 i.sequence

structure TxOut where
  value : UInt64
  script : List UInt8
  script_lt : script.length < 2 ^ 64

def TxOut.bytes (o : TxOut) : List UInt8 := le64 o.value ++ withSize o.script

/-- A transaction. The witness of an input is a stack of byte strings. -/
structure Tx where
  version : UInt32
  inputs : List TxIn
  outputs : List TxOut
  witness : Option (List (List (List UInt8)))
  lockTime : UInt32
  inputs_ne : inputs ≠ []
  inputs_lt : inputs.length < 2 ^ 64
  outputs_ne : outputs ≠ []
  outputs_lt : outputs.length < 2 ^ 64
  witness_length : ∀ w, witness = some w → w.length = inputs.length

/-- Version and, in front of a transaction with witnesses, marker and flag. -/
def Tx.head (t : Tx) : List UInt8 := le32 t.version ++ if t.witness.isSome then [0x00, 0x01] else []

/-- Inputs and outputs. -/
def Tx.body (t : Tx) : List UInt8 :=
  compactSize t.inputs.length ++ t.inputs.flatMap TxIn.bytes ++
    (compactSize t.outputs.length ++ t.outputs.flatMap TxOut.bytes)

/-- Witnesses and lock time. -/
def Tx.tail (t : Tx) : List UInt8 :=
  (t.witness.getD []).flatMap (fun stack => compactSize stack.length ++ stack.flatMap withSize) ++
    le32 t.lockTime

def Tx.serialize (t : Tx) : List UInt8 := t.head ++ t.body ++ t.tail

/-- Where the last output ends. -/
def Tx.outputsEnd (t : Tx) : Nat := (t.head ++ t.body).length

/-- Some output has the script. -/
def Tx.Pays (t : Tx) (script : List UInt8) : Prop := ∃ o ∈ t.outputs, o.script = script

instance (t : Tx) (script : List UInt8) : Decidable (t.Pays script) :=
  inferInstanceAs (Decidable (∃ o ∈ t.outputs, o.script = script))

/-! ## Parsing a transaction -/

theorem compact_compactSize {v : Nat} (h : v < 2 ^ 64) (t : List UInt8) :
    compact (compactSize v ++ t) = some (v, (compactSize v).length) := by
  have hwide : ∀ (first : UInt8) (n : Nat), widthOf first = some n → v < 256 ^ n →
      compact (first :: leBytes n v ++ t) = some (v, (first :: leBytes n v).length) := by
    intro first n hw hv
    rw [cons_append, compact_of_width hw (by simp), take_left' (length_leBytes n v),
      leValue_leBytes hv, length_cons, length_leBytes]
  unfold compactSize
  split
  · rename_i hv
    have hnat : (UInt8.ofNat v).toNat = v := by
      rw [UInt8.toNat_ofNat']
      omega
    have hw : widthOf (UInt8.ofNat v) = none := by
      have hne : ∀ x : UInt8, 0xfd ≤ x.toNat → UInt8.ofNat v ≠ x := by
        intro x hx heq
        rw [← heq, hnat] at hx
        omega
      rw [widthOf, if_neg (hne _ (by decide)), if_neg (hne _ (by decide)),
        if_neg (hne _ (by decide))]
    rw [singleton_append, compact_of_noWidth hw, hnat]
    rfl
  split
  · exact hwide 0xfd 2 rfl (by omega)
  split
  · exact hwide 0xfe 4 rfl (by omega)
  · exact hwide 0xff 8 rfl (by omega)

/-- A script with its size, behind `front`. -/
theorem drop_sized {front script : List UInt8} {n : Nat} (hfront : front.length = n)
    (hscript : script.length < 2 ^ 64) (t : List UInt8) :
    compact ((front ++ (compactSize script.length ++ (script ++ t))).drop n) =
        some (script.length, (compactSize script.length).length) ∧
      (front ++ (compactSize script.length ++ (script ++ t))).drop
        (n + (compactSize script.length).length) = script ++ t := by
  rw [← drop_drop, drop_left' hfront, compact_compactSize hscript, drop_left]
  exact ⟨rfl, rfl⟩

/-- An input is skipped. -/
theorem skipInputs_cons (i : TxIn) (n : Nat) (t : List UInt8) :
    skipInputs (n + 1) (i.bytes ++ t) = skipInputs n t := by
  have hfront : (i.txid.toList ++ le32 i.index).length = 36 := by simp
  have hbytes : i.bytes ++ t = (i.txid.toList ++ le32 i.index) ++
      (compactSize i.scriptSig.length ++ (i.scriptSig ++ (le32 i.sequence ++ t))) := by
    simp [TxIn.bytes, withSize]
  obtain ⟨hsize, hscript⟩ := drop_sized hfront i.scriptSig_lt (le32 i.sequence ++ t)
  rw [← hbytes] at hsize hscript
  rw [skipInputs, hsize]
  dsimp only
  rw [hscript, if_neg, ← drop_drop, hscript, ← drop_drop, drop_left, drop_left' (length_le32 _)]
  rw [length_append]
  omega

theorem skipInputs_inputs (is : List TxIn) (t : List UInt8) :
    skipInputs is.length (is.flatMap TxIn.bytes ++ t) = some t := by
  induction is with
  | nil => rfl
  | cons i is ih =>
    rw [length_cons, flatMap_cons, append_assoc, skipInputs_cons, ih]

/-- An output is compared. -/
theorem searchOutputs_cons (script : List UInt8) (o : TxOut) (n : Nat) (t : List UInt8) :
    searchOutputs script (n + 1) (o.bytes ++ t) =
      if o.script = script then some (true, t) else searchOutputs script n t := by
  have hbytes : o.bytes ++ t =
      le64 o.value ++ (compactSize o.script.length ++ (o.script ++ t)) := by
    simp [TxOut.bytes, withSize]
  obtain ⟨hsize, hscript⟩ := drop_sized (length_le64 o.value) o.script_lt t
  rw [← hbytes] at hsize hscript
  rw [searchOutputs, hsize]
  dsimp only
  rw [hscript, take_left, ← drop_drop, hscript, drop_left, if_neg]
  rw [length_append]
  omega

/-- The search compares output scripts and nothing else; without a match it
ends behind the last output. -/
theorem searchOutputs_outputs (script : List UInt8) (os : List TxOut) (t : List UInt8) :
    ∃ rest, searchOutputs script os.length (os.flatMap TxOut.bytes ++ t) =
        some (decide (∃ o ∈ os, o.script = script), rest) ∧
      ((¬ ∃ o ∈ os, o.script = script) → rest = t) := by
  induction os with
  | nil => exact ⟨t, by simp [searchOutputs], fun _ => rfl⟩
  | cons o os ih =>
    rw [length_cons, flatMap_cons, append_assoc, searchOutputs_cons]
    by_cases ho : o.script = script
    · rw [if_pos ho]
      refine ⟨_, by simp [ho]; rfl, ?_⟩
      intro hno
      exact absurd ⟨o, mem_cons_self, ho⟩ hno
    · rw [if_neg ho]
      obtain ⟨rest, hrun, hrest⟩ := ih
      have hiff : (∃ x ∈ o :: os, x.script = script) ↔ ∃ x ∈ os, x.script = script := by
        simp [ho]
      refine ⟨rest, ?_, ?_⟩
      · rw [hrun]
        simp only [hiff]
      · rw [hiff]
        exact hrest

theorem compactSize_ne_nil (v : Nat) : compactSize v ≠ [] := by
  unfold compactSize
  split
  · simp
  split
  · simp
  split <;> simp

/-- The body is parsed, whatever follows it. -/
theorem parseVin_body (t : Tx) (script tail : List UInt8) :
    ∃ rest, parseVin script (t.body ++ tail) = some (decide (t.Pays script), rest) ∧
      (¬ t.Pays script → rest = tail) := by
  have hvin : t.inputs.length ≠ 0 := mt length_eq_zero_iff.mp t.inputs_ne
  have hbody : t.body ++ tail = compactSize t.inputs.length ++ (t.inputs.flatMap TxIn.bytes ++
      (compactSize t.outputs.length ++ (t.outputs.flatMap TxOut.bytes ++ tail))) := by
    simp [Tx.body]
  have hne : compactSize t.outputs.length ++ (t.outputs.flatMap TxOut.bytes ++ tail) ≠ [] := by
    simp [compactSize_ne_nil]
  rw [hbody, parseVin, compact_compactSize t.inputs_lt]
  dsimp only
  rw [if_neg hvin, drop_left, skipInputs_inputs]
  dsimp only
  rw [parseVout, if_neg hne, compact_compactSize t.outputs_lt]
  dsimp only
  rw [drop_left]
  exact searchOutputs_outputs script t.outputs tail

/-- The count of inputs is not taken for a marker. -/
theorem head?_compactSize {v : Nat} (h0 : v ≠ 0) (h : v < 2 ^ 64) (t : List UInt8) :
    (compactSize v ++ t)[0]? ≠ some 0 := by
  unfold compactSize
  split
  · intro heq
    have hbyte : UInt8.ofNat v = 0 := Option.some.inj heq
    have hnat := congrArg UInt8.toNat hbyte
    rw [UInt8.toNat_ofNat'] at hnat
    simp at hnat
    omega
  split
  · simp
  split <;> simp

theorem headSize_head (t : Tx) (tail : List UInt8) :
    headSize (t.head ++ (t.body ++ tail)) = t.head.length := by
  have hversion := length_le32 t.version
  have hvin : t.inputs.length ≠ 0 := mt length_eq_zero_iff.mp t.inputs_ne
  unfold headSize Tx.head
  by_cases hw : t.witness.isSome = true
  · have hbyte : ∀ j, (le32 t.version ++ ([0x00, 0x01] ++ (t.body ++ tail)))[4 + j]? =
        ([0x00, 0x01] ++ (t.body ++ tail))[j]? := by
      intro j
      rw [getElem?_append_right (by omega), hversion, Nat.add_sub_cancel_left]
    rw [if_pos hw, append_assoc, if_pos ⟨hbyte 0, hbyte 1⟩, length_append, hversion]
    rfl
  · have hfirst : (le32 t.version ++ [] ++ (t.body ++ tail))[4]? ≠ some 0 := by
      rw [append_nil, getElem?_append_right (by omega), hversion]
      simp only [Tx.body, append_assoc]
      exact head?_compactSize hvin t.inputs_lt _
    rw [if_neg hw, if_neg (fun h => hfirst h.1), append_nil, hversion]

theorem parsePays_tx (t : Tx) (script : List UInt8) {tail : List UInt8}
    (hlen : 10 ≤ (t.head ++ (t.body ++ tail)).length) :
    ∃ rest, parsePays script (t.head ++ (t.body ++ tail)) = some (decide (t.Pays script), rest) ∧
      (¬ t.Pays script → rest = tail) := by
  rw [parsePays, if_neg (Nat.not_lt.mpr hlen), headSize_head, drop_left]
  exact parseVin_body t script tail

theorem length_serialize (t : Tx) : 10 ≤ (t.head ++ (t.body ++ t.tail)).length := by
  obtain ⟨i, is, his⟩ := exists_cons_of_ne_nil t.inputs_ne
  have hin : 36 ≤ (t.inputs.flatMap TxIn.bytes).length := by
    rw [his, flatMap_cons, length_append]
    simp [TxIn.bytes]
    omega
  simp only [Tx.body, length_append]
  omega

/-! ## Truncation -/

variable {l rest : List UInt8}

theorem drop_append_of_ne_nil {n : Nat} (h : l.drop n ≠ []) (t : List UInt8) :
    (l ++ t).drop n = l.drop n ++ t := by
  apply drop_append_of_le_length
  by_contra hlt
  exact h (drop_eq_nil_of_le (by omega))

theorem ne_nil_of_compact {r : Nat × Nat} (h : compact l = some r) : l ≠ [] := by
  intro hnil
  rw [hnil] at h
  cases h

/-- With more bytes, the search goes the same way. -/
theorem searchOutputs_append {script : List UInt8} {n : Nat} {b : Bool}
    (h : searchOutputs script n l = some (b, rest)) (t : List UInt8) :
    searchOutputs script n (l ++ t) = some (b, rest ++ t) := by
  induction n generalizing l with
  | zero =>
    cases h
    rfl
  | succ n ih =>
    rw [searchOutputs] at h
    cases hc : compact (l.drop 8) with
    | none =>
      rw [hc] at h
      cases h
    | some vm =>
      obtain ⟨pkLen, m⟩ := vm
      rw [hc] at h
      dsimp only at h
      have hm := (compact_size hc).2
      have hpos := (compact_size hc).1
      have hc' : compact ((l ++ t).drop 8) = some (pkLen, m) := by
        rw [drop_append_of_ne_nil (ne_nil_of_compact hc)]
        exact compact_append hc t
      rw [length_drop] at hm
      split at h
      · cases h
      rename_i hlong
      rw [length_drop] at hlong
      -- The script ends within the bytes that were there.
      have hscript : (l ++ t).drop (8 + m) = l.drop (8 + m) ++ t :=
        drop_append_of_le_length (by omega)
      have hrest : (l ++ t).drop (8 + m + pkLen) = l.drop (8 + m + pkLen) ++ t :=
        drop_append_of_le_length (by omega)
      have htake : (l.drop (8 + m) ++ t).take pkLen = (l.drop (8 + m)).take pkLen :=
        take_append_of_le_length (by rw [length_drop]; omega)
      rw [searchOutputs, hc']
      dsimp only
      rw [hscript, hrest, htake, if_neg (by rw [length_append, length_drop]; omega)]
      split at h
      · rename_i heq
        cases h
        rw [if_pos heq]
      · rename_i heq
        rw [if_neg heq]
        exact ih h

theorem skipInputs_nil {n : Nat} (h : skipInputs n [] = some rest) : rest = [] := by
  cases n with
  | zero => exact (Option.some.inj h).symm
  | succ n => cases h

/-- If bytes are left, all inputs were there. -/
theorem skipInputs_append {n : Nat} (h : skipInputs n l = some rest) (hne : rest ≠ [])
    (t : List UInt8) : skipInputs n (l ++ t) = some (rest ++ t) := by
  induction n generalizing l with
  | zero =>
    cases h
    rfl
  | succ n ih =>
    rw [skipInputs] at h
    cases hc : compact (l.drop 36) with
    | none =>
      rw [hc] at h
      cases h
    | some vm =>
      obtain ⟨sl, m⟩ := vm
      rw [hc] at h
      dsimp only at h
      have hm := (compact_size hc).2
      have hpos := (compact_size hc).1
      have hc' : compact ((l ++ t).drop 36) = some (sl, m) := by
        rw [drop_append_of_ne_nil (ne_nil_of_compact hc)]
        exact compact_append hc t
      rw [length_drop] at hm
      split at h
      · cases h
      rename_i hlong
      rw [length_drop] at hlong
      -- A sequence that is cut off leaves nothing behind.
      have hleft : l.drop (36 + m + (sl + 4)) ≠ [] := by
        intro hnil
        rw [hnil] at h
        exact hne (skipInputs_nil h)
      have hscript : (l ++ t).drop (36 + m) = l.drop (36 + m) ++ t :=
        drop_append_of_le_length (by omega)
      rw [skipInputs, hc']
      dsimp only
      rw [hscript, drop_append_of_ne_nil hleft, if_neg (by rw [length_append, length_drop]; omega)]
      exact ih h

theorem parseVout_append {script : List UInt8} {b : Bool} (h : parseVout script l = some (b, rest))
    (t : List UInt8) : parseVout script (l ++ t) = some (b, rest ++ t) := by
  unfold parseVout at h ⊢
  split at h
  · cases h
  rename_i hne
  cases hc : compact l with
  | none =>
    rw [hc] at h
    cases h
  | some vm =>
    obtain ⟨vout, m⟩ := vm
    rw [hc] at h
    rw [if_neg (by simp [hne]), compact_append hc t]
    dsimp only at h ⊢
    rw [drop_append_of_le_length (compact_size hc).2]
    exact searchOutputs_append h t

theorem parseVin_append {script : List UInt8} {b : Bool} (h : parseVin script l = some (b, rest))
    (t : List UInt8) : parseVin script (l ++ t) = some (b, rest ++ t) := by
  unfold parseVin at h ⊢
  cases hc : compact l with
  | none =>
    rw [hc] at h
    cases h
  | some vm =>
    obtain ⟨vin, m⟩ := vm
    rw [hc] at h
    rw [compact_append hc t]
    dsimp only at h ⊢
    split at h
    · cases h
    rename_i hzero
    rw [if_neg hzero, drop_append_of_le_length (compact_size hc).2]
    cases hskip : skipInputs vin (l.drop m) with
    | none =>
      rw [hskip] at h
      cases h
    | some rest' =>
      rw [hskip] at h
      dsimp only at h
      have hne : rest' ≠ [] := by
        intro hnil
        rw [hnil] at h
        cases h
      rw [skipInputs_append hskip hne]
      exact parseVout_append h t

theorem parsePays_append {script : List UInt8} {b : Bool} (h : parsePays script l = some (b, rest))
    (t : List UInt8) : parsePays script (l ++ t) = some (b, rest ++ t) := by
  unfold parsePays at h ⊢
  split at h
  · cases h
  rename_i hlen
  have hhead : headSize (l ++ t) = headSize l := by
    unfold headSize
    rw [getElem?_append_left (by omega), getElem?_append_left (by omega)]
  have hle : headSize l ≤ l.length := by
    unfold headSize
    split <;> omega
  rw [if_neg (by rw [length_append]; omega), hhead, drop_append_of_le_length hle]
  exact parseVin_append h t

/-- A transaction cut off before the end of its outputs is not read to the end. -/
theorem parsePays_take (t : Tx) (script : List UInt8) {n : Nat} (hn : n < t.outputsEnd)
    (rest : List UInt8) : parsePays script (t.serialize.take n) ≠ some (false, rest) := by
  intro h
  unfold Tx.outputsEnd at hn
  have htake : t.serialize.take n = (t.head ++ t.body).take n := take_append_of_le_length hn.le
  have hwhole : (t.head ++ t.body).take n ++ (t.head ++ t.body).drop n =
      t.head ++ (t.body ++ []) := by
    rw [take_append_drop, append_nil]
  rw [htake] at h
  -- The whole front would be read in the same way, with something left over.
  have happ := parsePays_append h ((t.head ++ t.body).drop n)
  have hlen : 10 ≤ (t.head ++ (t.body ++ [])).length := by
    rw [← hwhole, length_append]
    have hlong : ¬ ((t.head ++ t.body).take n).length < 10 := by
      intro hshort
      rw [parsePays, if_pos hshort] at h
      cases h
    omega
  obtain ⟨rest', hparse, hrest⟩ := parsePays_tx t script hlen
  rw [hwhole, hparse, Option.some_inj, Prod.mk.injEq] at happ
  have hnil : rest ++ (t.head ++ t.body).drop n = [] :=
    happ.2.symm.trans (hrest (of_decide_eq_false happ.1))
  have hdrop := (append_eq_nil_iff.mp hnil).2
  exact absurd (drop_eq_nil_iff.mp hdrop) (Nat.not_le.mpr hn)

/-! ## The check reads the outputs -/

/-- On a transaction the check says whether some output has the script. On
any bytes it neither panics nor loops for longer than there are bytes. A
transaction without the end of its outputs never gets the answer "no". -/
theorem coinbasePaysScript_reads_outputs (script : List UInt8) :
    (∀ t : Tx, ∃ c, callCoinbasePaysScript t.serialize script =
      some (.ok (decide (t.Pays script)), c)) ∧
    (∀ tx : List UInt8, ∃ r c, callCoinbasePaysScript tx script = some (r, c) ∧
      c.iters ≤ tx.length) ∧
    (∀ (t : Tx) (n : Nat), n < t.outputsEnd →
      ∀ c, callCoinbasePaysScript (t.serialize.take n) script ≠ some (.ok false, c)) := by
  refine ⟨?_, ?_, ?_⟩
  · intro t
    obtain ⟨r, c, hrun, hagrees⟩ := callCoinbasePaysScript_agrees t.serialize script
    have hserial : t.serialize = t.head ++ (t.body ++ t.tail) := List.append_assoc _ _ _
    obtain ⟨rest, hparse, -⟩ := parsePays_tx t script (length_serialize t)
    have hresult := hagrees.result
    rw [hserial, hparse] at hresult
    refine ⟨c, ?_⟩
    rw [hrun]
    cases r with
    | error e => cases hresult
    | ok b => rw [Option.some.inj hresult]
  · intro tx
    obtain ⟨r, c, hrun, hagrees⟩ := callCoinbasePaysScript_agrees tx script
    exact ⟨r, c, hrun, hagrees.iters⟩
  · intro t n hn c hcall
    obtain ⟨r, c', hrun, hagrees⟩ := callCoinbasePaysScript_agrees (t.serialize.take n) script
    rw [hrun] at hcall
    cases hcall
    have hresult := hagrees.result
    cases hparse : parsePays script (t.serialize.take n) with
    | none =>
      rw [hparse] at hresult
      cases hresult
    | some br =>
      obtain ⟨b, rest⟩ := br
      rw [hparse] at hresult
      cases hresult
      exact parsePays_take t script hn rest hparse

end Otedama.Btccrypto
