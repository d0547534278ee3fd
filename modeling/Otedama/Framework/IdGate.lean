import Mathlib.Data.List.Basic

/-! # Identifier gates

A party has at most one current item. Items of the past are still in
flight; when one comes back it is compared with the current one, but
only by a key that several items may share.

The gate is sound when everything in flight that it would let through
has the properties (the tag) of the current item. Moving items around,
dropping them, and putting the current item into flight keep it sound;
so does making another item current, provided nothing in flight shares
its key without sharing its tag. -/

namespace IdGate

variable {α κ τ : Type*} (key : α → κ) (tag : α → τ)

/-- Nothing in flight shares the key of `c` without sharing its tag. -/
def Safe (flight : List α) (c : α) : Prop :=
  ∀ x ∈ flight, key x = key c → tag x = tag c

/-- Whatever the gate lets through has the tag of the current item. -/
def Sound (current : Option α) (flight : List α) : Prop :=
  ∀ c, current = some c → Safe key tag flight c

variable {key tag} {current current' : Option α} {flight flight' : List α}

theorem Sound.of_none : Sound key tag none flight := by
  intro c hc
  cases hc

/-- **Gate rule.** -/
theorem Sound.step (h : Sound key tag current flight)
    (hflight : ∀ c, current' = some c → ∀ x ∈ flight', x ∈ flight ∨ x = c)
    (hcurrent : ∀ c, current' = some c → current = some c ∨ Safe key tag flight c) :
    Sound key tag current' flight' := by
  intro c hc x hx hkey
  have hsafe : Safe key tag flight c := by
    rcases hcurrent c hc with hsame | hsafe
    · exact h c hsame
    · exact hsafe
  rcases hflight c hc x hx with hold | rfl
  · exact hsafe x hold hkey
  · rfl

end IdGate
