import Mathlib.Data.List.Induction

/-! # Event loops and labelled step systems

Two small frameworks shared by the whole development.

* `Machine`: an event loop. It reads one input at a time, changes its
  state and emits a list of outputs. It is total: an input that the
  loop ignores leaves the state alone.
* `LTS`: a system of several parties. A label names who moves and
  carries every nondeterministic choice of that move, so the next state
  is a partial function of state and label; `none` means the label is
  not enabled.

Each comes with the induction rules by which every safety result here is
obtained: prove what one step preserves, then apply the rule. -/

/-! ## Machines -/

/-- An event loop with states `σ`, inputs `ι` and outputs `ω`. -/
structure Machine (σ ι ω : Type*) where
  /-- One turn of the loop. -/
  step : σ → ι → σ × List ω

namespace Machine

variable {σ ι ω : Type*} (M : Machine σ ι ω)

/-- The state after reading a list of inputs. -/
def run (s : σ) : List ι → σ
  | [] => s
  | e :: es => run (M.step s e).1 es

/-- Everything emitted while reading a list of inputs. -/
def outputs (s : σ) : List ι → List ω
  | [] => []
  | e :: es => (M.step s e).2 ++ outputs (M.step s e).1 es

@[simp] theorem run_nil (s : σ) : M.run s [] = s := rfl

@[simp] theorem run_cons (s : σ) (e : ι) (es : List ι) :
    M.run s (e :: es) = M.run (M.step s e).1 es := rfl

@[simp] theorem outputs_nil (s : σ) : M.outputs s [] = [] := rfl

@[simp] theorem outputs_cons (s : σ) (e : ι) (es : List ι) :
    M.outputs s (e :: es) = (M.step s e).2 ++ M.outputs (M.step s e).1 es := rfl

theorem run_append (s : σ) (es fs : List ι) : M.run s (es ++ fs) = M.run (M.run s es) fs := by
  induction es generalizing s with
  | nil => rfl
  | cons e es ih => exact ih _

theorem outputs_append (s : σ) (es fs : List ι) :
    M.outputs s (es ++ fs) = M.outputs s es ++ M.outputs (M.run s es) fs := by
  induction es generalizing s with
  | nil => rfl
  | cons e es ih => simp [ih]

/-- **History rule.** A relation between the inputs read so far, the
outputs emitted so far and the state holds of every run if it holds at
the start and every step keeps it. The step obligation may use that
the input satisfies `Q`, which is asked of all inputs of the run. -/
theorem run_history {P : List ι → List ω → σ → Prop} {Q : ι → Prop} {s₀ : σ} (hinit : P [] [] s₀)
    (hstep : ∀ hist out s e, Q e → P hist out s →
      P (hist ++ [e]) (out ++ (M.step s e).2) (M.step s e).1)
    (es : List ι) (hQ : ∀ e ∈ es, Q e) : P es (M.outputs s₀ es) (M.run s₀ es) := by
  induction es using List.reverseRecOn with
  | nil => exact hinit
  | append_singleton es e ih =>
    have hP := ih fun x hx => hQ x (by simp [hx])
    have hs := hstep es (M.outputs s₀ es) (M.run s₀ es) e (hQ e (by simp)) hP
    simpa [run_append, outputs_append] using hs

/-- **Invariant rule.** The history rule for a predicate on states. -/
theorem run_invariant {P : σ → Prop} {Q : ι → Prop} {s₀ : σ} (hinit : P s₀)
    (hstep : ∀ s e, Q e → P s → P (M.step s e).1)
    (es : List ι) (hQ : ∀ e ∈ es, Q e) : P (M.run s₀ es) :=
  M.run_history (P := fun _ _ s => P s) hinit
    (fun _ _ s e hq hP => hstep s e hq hP) es hQ

/-- **History rule for loops that end.** Once it is no longer `Live` a state
stays so; what the live steps keep holds of every run that is still live
at its end. -/
theorem run_history_live {Live : σ → Prop} {P : List ι → σ → Prop} {Q : ι → Prop} {s₀ : σ}
    (hdead : ∀ s e, ¬ Live s → ¬ Live (M.step s e).1) (hinit : P [] s₀)
    (hstep : ∀ hist s e, Q e → Live s → P hist s → P (hist ++ [e]) (M.step s e).1)
    (es : List ι) (hQ : ∀ e ∈ es, Q e) : Live (M.run s₀ es) → P es (M.run s₀ es) := by
  refine M.run_history (P := fun hist _ s => Live s → P hist s) (fun _ => hinit) ?_ es hQ
  intro hist _ s e hq ih hlive'
  have hlive : Live s := by
    by_contra hnot
    exact hdead s e hnot hlive'
  exact hstep hist s e hq hlive (ih hlive)

/-- **Deletion rule.** Let an observation `π` of the state determine what a
step emits and the observation after it. Inputs that emit nothing and
leave the observation alone can be deleted from any run: the outputs and
the final observation stay the same. -/
theorem run_filter_of_unobserved {τ : Type*} (π : σ → τ) (keep : ι → Bool) (es : List ι)
    (hdet : ∀ s s' e, π s = π s' →
      π (M.step s e).1 = π (M.step s' e).1 ∧ (M.step s e).2 = (M.step s' e).2)
    (hinert : ∀ e ∈ es, keep e = false → ∀ s, π (M.step s e).1 = π s ∧ (M.step s e).2 = [])
    (s s' : σ) (hs : π s = π s') : π (M.run s (es.filter keep)) = π (M.run s' es) ∧
      M.outputs s (es.filter keep) = M.outputs s' es := by
  induction es generalizing s s' with
  | nil => exact ⟨hs, rfl⟩
  | cons e es ih =>
    have ih' := ih fun x hx => hinert x (by simp [hx])
    cases hk : keep e with
    | true =>
      obtain ⟨hobs, hout⟩ := hdet s s' e hs
      obtain ⟨hr, ho⟩ := ih' _ _ hobs
      simp [hk, hr, ho, hout]
    | false =>
      -- Only the run over all inputs takes the step.
      obtain ⟨hobs, hout⟩ := hinert e (by simp) hk s'
      obtain ⟨hr, ho⟩ := ih' s (M.step s' e).1 (hs.trans hobs.symm)
      simp [hk, hr, ho, hout]

/-- The rule for inputs that no state reacts to. -/
theorem run_filter_of_inert {keep : ι → Bool} (es : List ι)
    (hinert : ∀ e ∈ es, keep e = false → ∀ s, M.step s e = (s, [])) (s : σ) :
    M.run s (es.filter keep) = M.run s es ∧ M.outputs s (es.filter keep) = M.outputs s es := by
  refine M.run_filter_of_unobserved id keep es ?_ ?_ s s rfl
  · intro s s' e hs
    obtain rfl : s = s' := hs
    exact ⟨rfl, rfl⟩
  · intro e he hk s
    rw [hinert e he hk s]
    exact ⟨rfl, rfl⟩

/-- Every step of the run over `es` from `s` meets the condition `C` on the
state before the step and the input. -/
def Meets (C : σ → ι → Prop) (s : σ) : List ι → Prop
  | [] => True
  | e :: es => C s e ∧ Meets C (M.step s e).1 es

theorem meets_append {C : σ → ι → Prop} (s : σ) (es fs : List ι) :
    M.Meets C s (es ++ fs) ↔ M.Meets C s es ∧ M.Meets C (M.run s es) fs := by
  induction es generalizing s with
  | nil => simp [Meets]
  | cons e es ih => simp [Meets, ih, and_assoc]

/-- A condition on inputs alone is met by a run if all its inputs meet it. -/
theorem meets_iff_forall {C : ι → Prop} (s : σ) (es : List ι) :
    M.Meets (fun _ e => C e) s es ↔ ∀ e ∈ es, C e := by
  induction es generalizing s with
  | nil => simp [Meets]
  | cons e es ih => simp [Meets, ih]

section

variable {I : List ι → σ → Prop} {G : List ι → σ → ι → Prop} {C : σ → ι → Prop}

/-- **Exactness rule for steps.** Let a step from a state with `I` do what it
should, `G`, exactly when `C` holds before it, and let such a step keep
`I`, as long as the inputs so far are within `D`. Then every step of a
run within `D` does what it should exactly when every step of the run
meets `C`. -/
theorem steps_exact_within {D : List ι → Prop} {s₀ : σ} (hI : I [] s₀)
    (hiff : ∀ hist s e, D (hist ++ [e]) → I hist s → (G hist s e ↔ C s e))
    (hstep : ∀ hist s e, D (hist ++ [e]) → I hist s → C s e → I (hist ++ [e]) (M.step s e).1)
    (es : List ι) (hD : ∀ pre, pre <+: es → D pre) :
    (∀ pre e, pre ++ [e] <+: es → G pre (M.run s₀ pre) e) ↔ M.Meets C s₀ es := by
  -- The invariant holds as long as the steps so far met `C`.
  have hkept : ∀ es : List ι, (∀ pre, pre <+: es → D pre) → M.Meets C s₀ es →
      I es (M.run s₀ es) := by
    intro es
    induction es using List.reverseRecOn with
    | nil => exact fun _ _ => hI
    | append_singleton es e ih =>
      intro hD hmeets
      obtain ⟨hpre, hlast⟩ := (M.meets_append s₀ es [e]).mp hmeets
      rw [run_append]
      have hih := ih (fun pre hle => hD pre (hle.trans (List.prefix_append es [e]))) hpre
      exact hstep es _ e (hD _ (List.prefix_refl _)) hih hlast.1
  induction es using List.reverseRecOn with
  | nil =>
    refine iff_of_true ?_ trivial
    intro pre e hpre
    exact absurd (List.prefix_nil.mp hpre) (by simp)
  | append_singleton es e ih =>
    have hD' : ∀ pre, pre <+: es → D pre :=
      fun pre hle => hD pre (hle.trans (List.prefix_append es [e]))
    have hlastD : D (es ++ [e]) := hD _ (List.prefix_refl _)
    rw [meets_append]
    constructor
    · intro h
      have hpre : M.Meets C s₀ es :=
        (ih hD').mp fun pre x hpre => h pre x (hpre.trans (List.prefix_append es [e]))
      have hlast := hiff es _ e hlastD (hkept es hD' hpre)
      exact ⟨hpre, hlast.mp (h es e (List.prefix_refl _)), trivial⟩
    · rintro ⟨hpre, hC, -⟩ pre x hle
      rcases List.prefix_concat_iff.mp hle with heq | hle
      · obtain ⟨rfl, rfl⟩ := List.append_singleton_inj.mp heq
        exact (hiff pre _ x hlastD (hkept pre hD' hpre)).mpr hC
      · exact (ih hD').mpr hpre pre x hle

/-- The rule with a condition on single inputs. -/
theorem steps_exact {Q : ι → Prop} {s₀ : σ} (hI : I [] s₀)
    (hiff : ∀ hist s e, Q e → I hist s → (G hist s e ↔ C s e))
    (hstep : ∀ hist s e, Q e → I hist s → C s e → I (hist ++ [e]) (M.step s e).1) (es : List ι)
    (hQ : ∀ e ∈ es, Q e) :
    (∀ pre e, pre ++ [e] <+: es → G pre (M.run s₀ pre) e) ↔ M.Meets C s₀ es := by
  refine M.steps_exact_within (D := fun hist => ∀ e ∈ hist, Q e) hI ?_ ?_ es ?_
  · intro hist s e hD
    exact hiff hist s e (hD e (by simp))
  · intro hist s e hD
    exact hstep hist s e (hD e (by simp))
  · intro pre hle e he
    exact hQ e (hle.subset he)

end

/-- **Exactness rule.** Let `A` hold along every run, and let a step from a
state with `P` keep `P` exactly when `C` holds before the step. Then `P`
holds after every initial segment of a run exactly when every step of
the run meets `C`. -/
theorem run_exact {A P : List ι → σ → Prop} {C : σ → ι → Prop} {Q : ι → Prop} {s₀ : σ}
    (hA : A [] s₀) (hP : P [] s₀)
    (hAstep : ∀ hist s e, Q e → A hist s → A (hist ++ [e]) (M.step s e).1)
    (hiff : ∀ hist s e, Q e → A hist s → P hist s → (P (hist ++ [e]) (M.step s e).1 ↔ C s e))
    (es : List ι) (hQ : ∀ e ∈ es, Q e) :
    (∀ pre, pre <+: es → P pre (M.run s₀ pre)) ↔ M.Meets C s₀ es := by
  have hrun : ∀ pre e, M.run s₀ (pre ++ [e]) = (M.step (M.run s₀ pre) e).1 := by
    intro pre e
    rw [run_append, run_cons, run_nil]
  -- A step does what it should when the property holds after it.
  rw [← M.steps_exact (I := fun hist s => A hist s ∧ P hist s)
    (G := fun hist s e => P (hist ++ [e]) (M.step s e).1) ⟨hA, hP⟩
    (fun hist s e hq h => hiff hist s e hq h.1 h.2)
    (fun hist s e hq h hC => ⟨hAstep hist s e hq h.1, (hiff hist s e hq h.1 h.2).mpr hC⟩) es hQ]
  constructor
  · intro h pre e hle
    rw [← hrun]
    exact h _ hle
  · intro h pre hle
    cases pre using List.reverseRecOn with
    | nil => exact hP
    | append_singleton pre e =>
      rw [hrun]
      exact h pre e hle

instance decidableMeets {C : σ → ι → Prop} [∀ s e, Decidable (C s e)] :
    ∀ (es : List ι) (s : σ), Decidable (M.Meets C s es)
  | [], _ => .isTrue trivial
  | e :: es, s =>
      have : Decidable (M.Meets C (M.step s e).1 es) := decidableMeets es (M.step s e).1
      inferInstanceAs (Decidable (C s e ∧ M.Meets C (M.step s e).1 es))

section

variable {pause : ω → Prop} {I : σ → Prop} {μ : σ → Nat} {K : Nat}

/-- The machine is paced by `μ`, which `K` bounds: a step that emits something
emits one output, and either increases `μ` or emits a pause as well. -/
structure Paced (pause : ω → Prop) (I : σ → Prop) (μ : σ → Nat) (K : Nat) : Prop where
  inv : ∀ s e, I s → I (M.step s e).1
  bound : ∀ s, I s → μ s ≤ K
  step : ∀ s e, I s →
    ((M.step s e).2 = [] ∧ μ s ≤ μ (M.step s e).1) ∨
    (∃ w, (M.step s e).2 = [w] ∧ μ s < μ (M.step s e).1) ∨
    ∃ w p, (M.step s e).2 = [w, p] ∧ pause p ∧ μ s < K

section

variable {M : Machine σ ι ω} (h : M.Paced pause I μ K) (es : List ι) (s : σ) (hs : I s)
  {out : List ω}

include h hs

theorem Paced.prefix_length (hout : out <+: M.outputs s es) (hnot : ∀ o ∈ out, ¬ pause o) :
    out.length ≤ K - μ s := by
  induction es generalizing s out with
  | nil =>
    rw [outputs_nil, List.prefix_nil] at hout
    simp [hout]
  | cons e es ih =>
    have hs' := h.inv s e hs
    have hbound := h.bound _ hs'
    rw [outputs_cons] at hout
    rcases h.step s e hs with ⟨hnil, hle⟩ | ⟨w, hone, hlt⟩ | ⟨w, p, htwo, hpause, hlt⟩
    · rw [hnil] at hout
      have hlen := ih _ hs' hout hnot
      omega
    · rw [hone] at hout
      rcases List.prefix_cons_iff.mp hout with rfl | ⟨rest, rfl, hrest⟩
      · simp
      · have hlen := ih _ hs' hrest fun o ho => hnot o (List.mem_cons_of_mem w ho)
        rw [List.length_cons]
        omega
    · -- The segment ends before the pause.
      rw [htwo] at hout
      rcases List.prefix_cons_iff.mp hout with rfl | ⟨rest, rfl, hrest⟩
      · simp
      · rcases List.prefix_cons_iff.mp hrest with rfl | ⟨rest', rfl, -⟩
        · rw [List.length_singleton]
          omega
        · exact absurd hpause (hnot p (by simp))

/-- **Pacing rule.** A paced machine emits at most `K` outputs between two
pauses. -/
theorem Paced.infix_length (hout : out <:+: M.outputs s es) (hnot : ∀ o ∈ out, ¬ pause o) :
    out.length ≤ K := by
  induction es generalizing s with
  | nil =>
    rw [outputs_nil, List.infix_nil] at hout
    simp [hout]
  | cons e es ih =>
    have hs' := h.inv s e hs
    have hprefix : ∀ {out : List ω}, out <+: M.outputs s (e :: es) → (∀ o ∈ out, ¬ pause o) →
        out.length ≤ K := fun hout hnot =>
      Nat.le_trans (h.prefix_length (e :: es) s hs hout hnot) (Nat.sub_le K _)
    rw [outputs_cons] at hout hprefix
    rcases h.step s e hs with ⟨hnil, -⟩ | ⟨w, hone, -⟩ | ⟨w, p, htwo, hpause, -⟩
    · rw [hnil] at hout
      exact ih _ hs' hout
    · rw [hone] at hout hprefix
      rcases List.infix_cons_iff.mp hout with hout | hout
      · exact hprefix hout hnot
      · exact ih _ hs' hout
    · rw [htwo] at hout hprefix
      rcases List.infix_cons_iff.mp hout with hout | hout
      · exact hprefix hout hnot
      · rcases List.infix_cons_iff.mp hout with hout | hout
        · rcases List.prefix_cons_iff.mp hout with rfl | ⟨rest, rfl, -⟩
          · exact Nat.zero_le K
          · exact absurd hpause (hnot p (by simp))
        · exact ih _ hs' hout

end

end

end Machine

/-! ## Labelled step systems -/

/-- A system of several parties with states `σ` and labels `ι`. -/
structure LTS (σ ι : Type*) where
  /-- The state after a move, or `none` when the move is not enabled. -/
  next : σ → ι → Option σ

namespace LTS

variable {σ ι : Type*} (L : LTS σ ι)

/-- `L.Reach C s₀ s`: some run leads from `s₀` to `s`, and each of its steps
meets the condition `C` on the state before the step and the label. -/
inductive Reach (C : σ → ι → Prop) (s₀ : σ) : σ → Prop where
  | init : Reach C s₀ s₀
  | step {s s' : σ} (l : ι) :
      Reach C s₀ s → C s l → L.next s l = some s' → Reach C s₀ s'

/-- Execute a list of labels. -/
def exec (s : σ) : List ι → Option σ
  | [] => some s
  | l :: ls => (L.next s l).bind fun s' => exec s' ls

theorem exec_append (s : σ) (ls ls' : List ι) :
    L.exec s (ls ++ ls') = (L.exec s ls).bind fun s' => L.exec s' ls' := by
  induction ls generalizing s with
  | nil => rfl
  | cons l ls ih =>
    simp only [List.cons_append, exec, Option.bind_assoc]
    exact congrArg _ (funext ih)

/-- **Invariant rule** for runs whose steps all meet `C`. -/
theorem Reach.invariant {L : LTS σ ι} {C : σ → ι → Prop} {P : σ → Prop} {s₀ s : σ}
    (h : L.Reach C s₀ s) (hinit : P s₀)
    (hstep : ∀ s l s', P s → C s l → L.next s l = some s' → P s') : P s := by
  induction h with
  | init => exact hinit
  | step l _ hC hnext ih => exact hstep _ l _ ih hC hnext

/-- Every step of the execution of a list of labels meets `C`. -/
def Meets (C : σ → ι → Prop) (s : σ) : List ι → Prop
  | [] => True
  | l :: ls => C s l ∧ ∀ s' ∈ L.next s l, Meets C s' ls

instance decidableMeets {C : σ → ι → Prop} [∀ s l, Decidable (C s l)] :
    ∀ (ls : List ι) (s : σ), Decidable (L.Meets C s ls)
  | [], _ => .isTrue trivial
  | l :: ls, s =>
      match h : L.next s l with
      | none => decidable_of_iff (C s l) (by simp [Meets, h])
      | some s' =>
          have : Decidable (L.Meets C s' ls) := decidableMeets ls s'
          decidable_of_iff (C s l ∧ L.Meets C s' ls) (by simp [Meets, h])

/-- Executing labels leads to a reachable state. -/
theorem Reach.exec {L : LTS σ ι} {C : σ → ι → Prop} {s₀ s s' : σ} (h : L.Reach C s₀ s)
    (ls : List ι) (hmeets : L.Meets C s ls) (hexec : L.exec s ls = some s') : L.Reach C s₀ s' := by
  induction ls generalizing s with
  | nil =>
    obtain rfl : s = s' := by simpa [LTS.exec] using hexec
    exact h
  | cons l ls ih =>
    obtain ⟨hC, hrest⟩ := hmeets
    cases hn : L.next s l with
    | none => simp [LTS.exec, hn] at hexec
    | some s₁ =>
      have hexec' : L.exec s₁ ls = some s' := by simpa [LTS.exec, hn] using hexec
      exact ih (Reach.step l h hC hn) (hrest s₁ hn) hexec'

end LTS
