import Mathlib.Data.List.Basic
import Mathlib.Data.List.Flatten
import Mathlib.Tactic

/-!
# Substitution of one symbol

`subst c d` puts the word `d` in place of every `c`. Where `d` itself begins with `c`, a pass over
the word may meet the symbols it put in: `Grown` says of each symbol how often it was met.
-/
namespace CoreLooper

section
variable {α : Type*} [DecidableEq α] {c x : α} {d s t w : List α}

/-- Every `c` becomes `d`. -/
def subst (c : α) (d s : List α) : List α := s.flatMap fun x => if x = c then d else [x]

@[simp] theorem subst_nil : subst c d [] = [] := rfl

theorem subst_cons_self : subst c d (c :: s) = d ++ subst c d s := by
  rw [subst, List.flatMap_cons, if_pos rfl, subst]

theorem subst_cons_ne (hx : x ≠ c) : subst c d (x :: s) = x :: subst c d s := by
  rw [subst, List.flatMap_cons, if_neg hx, subst]
  rfl

theorem subst_append : subst c d (s ++ t) = subst c d s ++ subst c d t := List.flatMap_append

theorem subst_of_not_mem (h : c ∉ s) : subst c d s = s := by
  induction s with
  | nil => rfl
  | cons x s ih =>
      obtain ⟨hx, hs⟩ := List.ne_and_not_mem_of_not_mem_cons h
      rw [subst_cons_ne hx.symm, ih hs]

/-- The empty word in place of `c`. -/
theorem subst_empty : subst c [] s = s.filter (· ≠ c) := by
  induction s with
  | nil => rfl
  | cons x s ih =>
      by_cases hx : x = c
      · rw [hx, subst_cons_self, ih, List.filter_cons_of_neg (by simp)]
        rfl
      · rw [subst_cons_ne hx, ih, List.filter_cons_of_pos (by simpa using hx)]

theorem not_mem_subst (hd : c ∉ d) : c ∉ subst c d s := by
  intro h
  obtain ⟨x, -, hx⟩ := List.mem_flatMap.mp h
  split_ifs at hx with hxc
  · exact hd hx
  · exact hxc (List.mem_singleton.mp hx).symm

theorem subst_flatMap {β : Type*} (l : List β) (f : β → List α) :
    subst c d (l.flatMap f) = l.flatMap fun b => subst c d (f b) := List.flatMap_assoc

/-- A word without the first symbol of `d` was there before. -/
theorem prefix_of_subst (hd : ∀ y ∈ d.head?, y ∉ w) (hne : d ≠ []) (h : w <+: subst c d s) :
    w <+: s := by
  induction w generalizing s with
  | nil => exact List.nil_prefix
  | cons y w ih =>
      cases s with
      | nil => exact absurd (List.prefix_nil.mp h) (List.cons_ne_nil y w)
      | cons x s =>
          by_cases hx : x = c
          · rw [hx, subst_cons_self] at h
            obtain ⟨z, d, rfl⟩ := List.exists_cons_of_ne_nil hne
            have hzy : y = z := (List.cons_prefix_cons.mp h).1
            have hz := hd z rfl
            rw [hzy] at hz
            exact absurd List.mem_cons_self hz
          · rw [subst_cons_ne hx] at h
            obtain ⟨hy, h⟩ := List.cons_prefix_cons.mp h
            rw [hy]
            apply List.cons_prefix_cons.mpr
            constructor
            · rfl
            · exact ih (fun z hz hmem => hd z hz (List.mem_cons_of_mem y hmem)) h

end

section
variable {α : Type*} {c : α} {tail s s' u u' w : List α} {ms ms' : List ℕ}

/-- `tail`, as often as that. -/
def repeats (tail : List α) (m : ℕ) : List α := (List.replicate m tail).flatten

theorem repeats_succ (m : ℕ) : repeats tail (m + 1) = tail ++ repeats tail m := by
  rw [repeats, List.replicate_succ, List.flatten_cons, repeats]

theorem repeats_succ' (m : ℕ) : repeats tail (m + 1) = repeats tail m ++ tail := by
  rw [repeats, List.replicate_succ', List.flatten_append]
  simp [repeats]

theorem not_mem_repeats (hc : c ∉ tail) (m : ℕ) : c ∉ repeats tail m := by
  intro h
  obtain ⟨l, hl, hcl⟩ := List.mem_flatten.mp h
  rw [List.eq_of_mem_replicate hl] at hcl
  exact hc hcl

/-- `u` is `s` with so many times `tail` behind each `c`. -/
inductive Grown (c : α) (tail : List α) : List ℕ → List α → List α → Prop
  | nil : Grown c tail [] [] []
  | other {x : α} {ms : List ℕ} {s u : List α} :
      x ≠ c → Grown c tail ms s u → Grown c tail ms (x :: s) (x :: u)
  | mark (m : ℕ) {ms : List ℕ} {s u : List α} :
      Grown c tail ms s u → Grown c tail (m :: ms) (c :: s) (c :: (repeats tail m ++ u))

namespace Grown

theorem append (h : Grown c tail ms s u) (h' : Grown c tail ms' s' u') :
    Grown c tail (ms ++ ms') (s ++ s') (u ++ u') := by
  induction h with
  | nil => exact h'
  | other hx _ ih => exact .other hx ih
  | mark m _ ih =>
      rw [List.cons_append, List.cons_append, List.cons_append, List.append_assoc]
      exact .mark m ih

/-- One `c` more is followed by `tail`. -/
theorem grow (hc : c ∉ tail) {x y : List α} (h : Grown c tail ms s u) (hu : u = x ++ c :: y) :
    ∃ before m behind, ms = before ++ m :: behind ∧
      Grown c tail (before ++ (m + 1) :: behind) s (x ++ c :: tail ++ y) := by
  induction h generalizing x with
  | nil => simp at hu
  | other hz hs ih =>
      cases x with
      | nil => exact absurd (List.cons.inj hu).1 hz
      | cons z x =>
          obtain ⟨rfl, hv⟩ := List.cons.inj hu
          obtain ⟨before, m, behind, hms, hgrown⟩ := ih hv
          exact ⟨before, m, behind, hms, .other hz hgrown⟩
  | mark m hs ih =>
      rename_i ms s u
      cases x with
      | nil =>
          obtain ⟨-, hy⟩ := List.cons.inj hu
          refine ⟨[], m, ms, rfl, ?_⟩
          have hgrown := Grown.mark (m + 1) hs
          rw [repeats_succ, List.append_assoc, hy] at hgrown
          exact hgrown
      | cons z x =>
          obtain ⟨rfl, hy⟩ := List.cons.inj hu
          rcases List.append_eq_append_iff.mp hy with ⟨v, hx, hv⟩ | ⟨v, hr, hv⟩
          · obtain ⟨before, n, behind, hms, hgrown⟩ := ih hv
            refine ⟨m :: before, n, behind, by rw [hms]; rfl, ?_⟩
            have hmark := Grown.mark m hgrown
            rw [hx]
            simpa only [List.cons_append, List.append_assoc] using hmark
          · cases v with
            | nil =>
                obtain ⟨before, n, behind, hms, hgrown⟩ := ih (x := []) hv.symm
                refine ⟨m :: before, n, behind, by rw [hms]; rfl, ?_⟩
                have hmark := Grown.mark m hgrown
                rw [hr, List.append_nil] at hmark
                simpa only [List.cons_append, List.append_assoc, List.nil_append] using hmark
            | cons v vs =>
                have hmem : c ∈ repeats tail m := by
                  rw [hr, (List.cons.inj hv).1]
                  exact List.mem_append_right x List.mem_cons_self
                exact absurd hmem (not_mem_repeats hc m)

theorem of_prefix (hw : c ∉ w) (h : Grown c tail ms (w ++ s) u) :
    ∃ u', u = w ++ u' ∧ Grown c tail ms s u' := by
  induction w generalizing u with
  | nil => exact ⟨u, rfl, h⟩
  | cons x w ih =>
      obtain ⟨hx, hw⟩ := List.ne_and_not_mem_of_not_mem_cons hw
      cases h with
      | other _ h =>
          obtain ⟨u', hu, hgrown⟩ := ih hw h
          exact ⟨u', by rw [hu]; rfl, hgrown⟩
      | mark m h => exact absurd rfl hx

theorem to_prefix (hw : c ∉ w) (h : Grown c tail ms s (w ++ u)) :
    ∃ s', s = w ++ s' ∧ Grown c tail ms s' u := by
  induction w generalizing s with
  | nil => exact ⟨s, rfl, h⟩
  | cons x w ih =>
      obtain ⟨hx, hw⟩ := List.ne_and_not_mem_of_not_mem_cons hw
      rw [List.cons_append] at h
      generalize hv : x :: (w ++ u) = v at h
      cases h with
      | nil => cases hv
      | other _ h =>
          obtain ⟨rfl, hu⟩ := List.cons.inj hv
          rw [← hu] at h
          obtain ⟨s', hs, hgrown⟩ := ih hw h
          exact ⟨s', by rw [hs]; rfl, hgrown⟩
      | mark m h => exact absurd (List.cons.inj hv).1.symm hx

end Grown

variable [DecidableEq α]

theorem grown_self (c : α) (tail s : List α) :
    Grown c tail (List.replicate (s.count c) 0) s s := by
  induction s with
  | nil => exact .nil
  | cons x s ih =>
      by_cases hx : x = c
      · rw [hx, List.count_cons_self, List.replicate_succ]
        exact .mark 0 ih
      · rw [List.count_cons_of_ne hx]
        exact .other hx ih

theorem grown_subst (c : α) (tail s : List α) :
    Grown c tail (List.replicate (s.count c) 1) s (subst c (c :: tail) s) := by
  induction s with
  | nil => exact .nil
  | cons x s ih =>
      by_cases hx : x = c
      · rw [hx, List.count_cons_self, List.replicate_succ, subst_cons_self]
        have hmark := Grown.mark 1 ih
        rw [repeats_succ] at hmark
        simpa [repeats] using hmark
      · rw [List.count_cons_of_ne hx, subst_cons_ne hx]
        exact .other hx ih

end

end CoreLooper
