import Otedama.Framework.Machine
import Mathlib.Order.Lattice

/-! # Infinite runs and fairness

Progress of a labelled step system. An infinite run takes a step or
rests at every position. An action, that is a set of labels, is treated
fairly if it is not enabled forever without being taken.

* `Run.leadsTo_of_rank`: what a fair action helps along, and no other step
  hinders, comes about.
* `Run.leadsTo_of_processes`: the same for several processes, of which
  some one can always move, where every step helps.
* `Run.ofExec`: a finite execution is an infinite run that rests at its
  end; it is fair to the actions that are not enabled there. -/

namespace LTS

variable {σ ι : Type*} (L : LTS σ ι) {s₀ : σ}

/-! ## Histories -/

/-- **History rule.** A relation between the labels so far and the state holds
of every execution if it holds at the start and every step keeps it. -/
theorem exec_history {P : List ι → σ → Prop} (hinit : P [] s₀)
    (hstep : ∀ hist s l s', L.exec s₀ hist = some s → P hist s → L.next s l = some s' →
      P (hist ++ [l]) s') (ls : List ι) {s : σ} (h : L.exec s₀ ls = some s) : P ls s := by
  induction ls using List.reverseRecOn generalizing s with
  | nil =>
    obtain rfl : s₀ = s := by simpa [exec] using h
    exact hinit
  | append_singleton ls l ih =>
    rw [exec_append] at h
    obtain ⟨s₁, hexec, hlast⟩ := Option.bind_eq_some_iff.mp h
    have hnext : L.next s₁ l = some s := by simpa [exec] using hlast
    exact hstep ls s₁ l s hexec (ih hexec) hnext

/-! ## Infinite runs -/

/-- An infinite run from `s₀`. -/
structure Run (s₀ : σ) where
  state : Nat → σ
  /-- The step taken at a position, or `none` for a rest. -/
  label : Nat → Option ι
  start : state 0 = s₀
  rest : ∀ k, label k = none → state (k + 1) = state k
  step : ∀ k l, label k = some l → L.next (state k) l = some (state (k + 1))

/-- Some label of the action can be taken. -/
def Enabled (A : ι → Prop) (s : σ) : Prop := ∃ l, A l ∧ (L.next s l).isSome

/-- Weak fairness: again and again the action is taken or cannot be. -/
def Run.Fair {L : LTS σ ι} (r : L.Run s₀) (A : ι → Prop) : Prop :=
  ∀ k, ∃ j, k ≤ j ∧ (¬ L.Enabled A (r.state j) ∨ ∃ l, r.label j = some l ∧ A l)

namespace Run

variable {L} (r : L.Run s₀)

/-- Every state of a run is reached by an execution. -/
theorem exists_exec (k : Nat) : ∃ ls, L.exec s₀ ls = some (r.state k) := by
  induction k with
  | zero => exact ⟨[], by rw [r.start]; rfl⟩
  | succ k ih =>
    obtain ⟨ls, hls⟩ := ih
    cases hl : r.label k with
    | none => exact ⟨ls, by rw [r.rest k hl]; exact hls⟩
    | some l =>
      refine ⟨ls ++ [l], ?_⟩
      rw [exec_append, hls, Option.bind_some, exec, r.step k l hl]
      rfl

/-- What holds at some position and is kept by every step holds from there
on. -/
theorem invariant {P : σ → Prop} (hstep : ∀ s l s', P s → L.next s l = some s' → P s') {k j : Nat}
    (hle : k ≤ j) (hk : P (r.state k)) : P (r.state j) := by
  induction j, hle using Nat.le_induction with
  | base => exact hk
  | succ j _ ih =>
    cases hl : r.label j with
    | none => rwa [r.rest j hl]
    | some l => exact hstep _ l _ ih (r.step j l hl)

/-- **Rank rule.** Let every step from `P` reach `Q`, or stay in `P` without
raising the rank `μ`; let the steps of the action `A` lower it, and let
`A` be enabled as long as `P` holds. If `A` is treated fairly, `P` leads
to `Q`. From position `k` on the states have the invariant `I`. -/
theorem leadsTo_of_rank {A : ι → Prop} (hfair : r.Fair A) {I P Q : σ → Prop} {μ : σ → Nat}
    {k : Nat} (hI : ∀ j, k ≤ j → I (r.state j))
    (hstep : ∀ s l s', I s → I s' → P s → L.next s l = some s' →
      Q s' ∨ P s' ∧ μ s' ≤ μ s ∧ (A l → μ s' < μ s))
    (henabled : ∀ s, I s → P s → L.Enabled A s) (hk : P (r.state k)) :
    ∃ j, k ≤ j ∧ Q (r.state j) := by
  induction hm : μ (r.state k) using Nat.strongRecOn generalizing k with
  | ind m ih =>
    obtain ⟨j, hle, hj⟩ := hfair k
    -- Up to position `j` the goal is reached, the rank falls, or nothing changes.
    have hupto : ∀ i, k ≤ i → i ≤ j →
        (∃ i', k ≤ i' ∧ Q (r.state i')) ∨ P (r.state i) ∧ μ (r.state i) ≤ m := by
      intro i hki hij
      induction i, hki using Nat.le_induction with
      | base => exact .inr ⟨hk, hm.le⟩
      | succ i hki ihi =>
        rcases ihi (by omega) with hdone | ⟨hP, hμ⟩
        · exact .inl hdone
        · cases hl : r.label i with
          | none =>
            rw [r.rest i hl]
            exact .inr ⟨hP, hμ⟩
          | some l =>
            rcases hstep _ l _ (hI i hki) (hI (i + 1) (by omega)) hP (r.step i l hl) with
              hQ | ⟨hP', hμ', -⟩
            · exact .inl ⟨i + 1, by omega, hQ⟩
            · exact .inr ⟨hP', hμ'.trans hμ⟩
    rcases hupto j hle le_rfl with hdone | ⟨hP, hμ⟩
    · exact hdone
    · rcases hj with hnot | ⟨l, hl, hA⟩
      · exact absurd (henabled _ (hI j hle) hP) hnot
      · rcases hstep _ l _ (hI j hle) (hI (j + 1) (by omega)) hP (r.step j l hl) with
          hQ | ⟨hP', -, hlt⟩
        · exact ⟨j + 1, by omega, hQ⟩
        · obtain ⟨i, hi, hQ⟩ := ih _ ((hlt hA).trans_le hμ) (fun i hi => hI i (by omega)) hP' rfl
          exact ⟨i, by omega, hQ⟩

/-- While nothing moves the state is the same. -/
theorem moves_or_rests (k : Nat) {j : Nat} (hle : k ≤ j) :
    (∃ i l, k ≤ i ∧ r.state i = r.state k ∧ r.label i = some l) ∨ r.state j = r.state k := by
  induction j, hle using Nat.le_induction with
  | base => exact .inr rfl
  | succ j hle ih =>
    rcases ih with hmoved | hsame
    · exact .inl hmoved
    · cases hl : r.label j with
      | some l => exact .inl ⟨j, l, hle, hsame, hl⟩
      | none => exact .inr ((r.rest j hl).trans hsame)

/-- **Rank rule for several processes.** Let every step from `P` reach `Q`, or
stay in `P` and lower the rank `μ`, and let some process be enabled as long
as `P` holds. If each process is treated fairly, `P` leads to `Q`. From
position `k` on the states have the invariant `I`. -/
theorem leadsTo_of_processes {κ : Type*} {A : κ → ι → Prop} (hfair : ∀ p, r.Fair (A p))
    {I P Q : σ → Prop} {μ : σ → Nat} {k : Nat} (hI : ∀ j, k ≤ j → I (r.state j))
    (hstep : ∀ s l s', I s → I s' → P s → L.next s l = some s' → Q s' ∨ P s' ∧ μ s' < μ s)
    (henabled : ∀ s, I s → P s → ∃ p, L.Enabled (A p) s) (hk : P (r.state k)) :
    ∃ j, k ≤ j ∧ Q (r.state j) := by
  induction hm : μ (r.state k) using Nat.strongRecOn generalizing k with
  | ind m ih =>
    -- The process that is enabled stays so until something moves.
    obtain ⟨i, l, hki, hsame, hl⟩ : ∃ i l, k ≤ i ∧ r.state i = r.state k ∧ r.label i = some l := by
      obtain ⟨p, hp⟩ := henabled _ (hI k le_rfl) hk
      obtain ⟨j, hkj, hj⟩ := hfair p k
      rcases r.moves_or_rests k hkj with hmoved | hsame
      · exact hmoved
      · rcases hj with hnot | ⟨l, hl, -⟩
        · exact absurd (hsame ▸ hp) hnot
        · exact ⟨j, l, hkj, hsame, hl⟩
    rcases hstep _ l _ (hI i hki) (hI (i + 1) (by omega)) (hsame ▸ hk) (r.step i l hl) with
      hQ | ⟨hP, hlt⟩
    · exact ⟨i + 1, by omega, hQ⟩
    · rw [hsame, hm] at hlt
      obtain ⟨j, hij, hQ⟩ := ih _ hlt (fun j hj => hI j (by omega)) hP rfl
      exact ⟨j, by omega, hQ⟩

end Run

/-! ## Finite executions as runs -/

section

variable {L} {s : σ} {ls : List ι}

theorem exec_take (h : L.exec s₀ ls = some s) (k : Nat) : (L.exec s₀ (ls.take k)).isSome := by
  rw [← List.take_append_drop k ls, exec_append] at h
  obtain ⟨s₁, h₁, -⟩ := Option.bind_eq_some_iff.mp h
  simp [h₁]

/-- The run that follows an execution and rests at its end. -/
def Run.ofExec (h : L.exec s₀ ls = some s) : L.Run s₀ where
  state k := (L.exec s₀ (ls.take k)).get (exec_take h k)
  label k := ls[k]?
  start := rfl
  rest k hk := by
    have hlen : ls.length ≤ k := List.getElem?_eq_none_iff.mp hk
    simp only [List.take_of_length_le hlen, List.take_of_length_le (Nat.le_succ_of_le hlen)]
  step k l hl := by
    obtain ⟨s₁, h₁⟩ := Option.isSome_iff_exists.mp (exec_take h k)
    obtain ⟨s₂, h₂⟩ := Option.isSome_iff_exists.mp (exec_take h (k + 1))
    have hsucc : ls.take (k + 1) = ls.take k ++ [l] := by
      rw [List.take_add_one, hl]
      rfl
    have hnext : L.next s₁ l = some s₂ := by
      rw [hsucc, exec_append, h₁] at h₂
      simpa [exec] using h₂
    simp only [h₁, h₂, Option.get_some]
    exact hnext

theorem Run.exec_ofExec (h : L.exec s₀ ls = some s) (k : Nat) :
    L.exec s₀ (ls.take k) = some ((Run.ofExec h).state k) :=
  (Option.some_get (exec_take h k)).symm

theorem Run.ofExec_state (h : L.exec s₀ ls = some s) {k : Nat} (hk : ls.length ≤ k) :
    (Run.ofExec h).state k = s := by
  simp [ofExec, List.take_of_length_le hk, h]

/-- The run is fair to what is not enabled at its end. -/
theorem Run.ofExec_fair (h : L.exec s₀ ls = some s) {A : ι → Prop} (hA : ¬ L.Enabled A s) :
    (Run.ofExec h).Fair A := by
  intro k
  refine ⟨max k ls.length, le_max_left _ _, .inl ?_⟩
  rwa [ofExec_state h (le_max_right _ _)]

end

end LTS
