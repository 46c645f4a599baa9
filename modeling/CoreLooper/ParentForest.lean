import Mathlib

/-!
# Forests of parent pointers

Every node points to its parent or to none. A node without a parent may be hung below
another one: the pointers stay free of cycles exactly when the other one was not below it.
-/
namespace CoreLooper.ParentForest

variable {ι : Type*} {parent : ι → Option ι} {a b c p : ι}

/-- One step up. -/
def Climbs (parent : ι → Option ι) (a b : ι) : Prop := parent a = some b

/-- The first node is the second one or stands somewhere below it. -/
def Below (parent : ι → Option ι) : ι → ι → Prop := Relation.ReflTransGen (Climbs parent)

def Acyclic (parent : ι → Option ι) : Prop := ∀ a, ¬ Relation.TransGen (Climbs parent) a a

theorem acyclic_none : Acyclic fun _ : ι => none := by
  intro a h
  obtain ⟨b, hb, -⟩ := Relation.TransGen.head'_iff.mp h
  exact absurd hb (by simp [Climbs])

/-- Fewer pointers have fewer cycles. -/
theorem Acyclic.mono {parent' : ι → Option ι} (h : Acyclic parent)
    (hsub : ∀ a b, parent' a = some b → parent a = some b) : Acyclic parent' := by
  intro a hcycle
  exact h a (Relation.TransGen.mono hsub _ _ hcycle)

/-- Only a root is the last node of its way up. -/
theorem eq_of_below_of_root (hroot : parent a = none) (h : Below parent a b) : a = b := by
  cases h.cases_head with
  | inl heq => exact heq
  | inr hstep =>
      obtain ⟨x, hx, -⟩ := hstep
      rw [Climbs, hroot] at hx
      exact absurd hx (by simp)

variable [DecidableEq ι]

theorem climbs_attach_of_ne (h : a ≠ c) :
    Climbs (Function.update parent c (some p)) a b ↔ Climbs parent a b := by
  rw [Climbs, Function.update_of_ne h, Climbs]

theorem climbs_attach_self : Climbs (Function.update parent c (some p)) c b ↔ p = b := by
  rw [Climbs, Function.update_self, Option.some_inj]

/-- A way up with the new pointer leads up without it, or ends above the new parent after
it came through the node. -/
theorem attach_ways (h : Relation.TransGen (Climbs (Function.update parent c (some p))) a b) :
    Relation.TransGen (Climbs parent) a b ∨ Below parent a c ∧ Below parent p b := by
  induction h with
  | single h =>
      by_cases hac : a = c
      · subst hac
        rw [climbs_attach_self] at h
        subst h
        exact .inr ⟨.refl, .refl⟩
      · exact .inl (.single ((climbs_attach_of_ne hac).mp h))
  | tail hway h ih =>
      rename_i x y
      by_cases hxc : x = c
      · subst hxc
        rw [climbs_attach_self] at h
        subst h
        cases ih with
        | inl hway => exact .inr ⟨hway.to_reflTransGen, .refl⟩
        | inr hway => exact .inr ⟨hway.1, .refl⟩
      · have hxy := (climbs_attach_of_ne hxc).mp h
        cases ih with
        | inl hway => exact .inl (hway.tail hxy)
        | inr hway => exact .inr ⟨hway.1, hway.2.tail hxy⟩

theorem Acyclic.attach (h : Acyclic parent) (hnot : ¬ Below parent p c) :
    Acyclic (Function.update parent c (some p)) := by
  intro a hcycle
  cases attach_ways hcycle with
  | inl hcycle => exact h a hcycle
  | inr hways => exact hnot (hways.2.trans hways.1)

end CoreLooper.ParentForest
