import Mathlib.Data.List.Infix
import Mathlib.Data.List.Basic
import Mathlib.Tactic

/-!
# One pass that makes two separators one

The pass goes on behind the pair it has met, so a run of separators is halved, not reduced to one.
What stands between the separators stays.
-/
namespace CoreLooper

section
variable {α : Type*} {c x : α} {a b s t : List α}

/-- Two `c` stand side by side. -/
def HasPair (c : α) (s : List α) : Prop := [c, c] <:+: s

def HasTriple (c : α) (s : List α) : Prop := [c, c, c] <:+: s

instance [DecidableEq α] : Decidable (HasPair c s) := inferInstanceAs (Decidable (_ <:+: _))

instance [DecidableEq α] : Decidable (HasTriple c s) := inferInstanceAs (Decidable (_ <:+: _))

theorem begins_pair : [c, c] <+: x :: s ↔ x = c ∧ s.head? = some c := by
  rw [List.cons_prefix_cons, eq_comm]
  cases s with
  | nil => simp
  | cons y s =>
      rw [List.cons_prefix_cons, List.head?_cons, Option.some_inj, eq_comm (a := y)]
      simp

theorem head?_of_pair (h : [c, c] <+: s) : s.head? = some c := by
  cases s with
  | nil => simp at h
  | cons x s =>
      rw [(begins_pair.mp h).1]
      rfl

theorem not_hasPair_nil : ¬ HasPair c [] := by simp [HasPair]

theorem hasPair_cons : HasPair c (x :: s) ↔ (x = c ∧ s.head? = some c) ∨ HasPair c s := by
  rw [HasPair, List.infix_cons_iff, begins_pair, HasPair]

theorem hasTriple_cons : HasTriple c (x :: s) ↔ (x = c ∧ [c, c] <+: s) ∨ HasTriple c s := by
  rw [HasTriple, List.infix_cons_iff, List.cons_prefix_cons, HasTriple, eq_comm]

theorem HasPair.of_triple (h : HasTriple c s) : HasPair c s :=
  List.IsInfix.trans ⟨[], [c], rfl⟩ h

theorem HasPair.append_left (h : HasPair c s) (a : List α) : HasPair c (a ++ s) :=
  h.trans (List.suffix_append a s).isInfix

theorem HasPair.append_right (h : HasPair c s) (a : List α) : HasPair c (s ++ a) :=
  h.trans (List.prefix_append s a).isInfix

/-- Where two words meet there may be one pair more. -/
theorem hasPair_append : HasPair c (s ++ t) ↔
    HasPair c s ∨ (s.getLast? = some c ∧ t.head? = some c) ∨ HasPair c t := by
  induction s with
  | nil => simp [not_hasPair_nil]
  | cons x s ih =>
      rw [List.cons_append, hasPair_cons, hasPair_cons, ih]
      cases s with
      | nil => simp [not_hasPair_nil]
      | cons y s => simp [or_assoc]

/-- The first pair. -/
theorem HasPair.first (h : HasPair c s) :
    ∃ b t, s = b ++ c :: c :: t ∧ ¬ HasPair c (b ++ [c]) := by
  induction s with
  | nil => exact absurd h not_hasPair_nil
  | cons x s ih =>
      by_cases hhead : x = c ∧ s.head? = some c
      · obtain ⟨rfl, hs⟩ := hhead
        obtain ⟨t, rfl⟩ := List.head?_eq_some_iff.mp hs
        exact ⟨[], t, rfl, by simp [HasPair, List.infix_cons_iff]⟩
      · obtain ⟨b, t, rfl, hb⟩ := ih ((hasPair_cons.mp h).resolve_left hhead)
        refine ⟨x :: b, t, rfl, ?_⟩
        have hsame : (b ++ c :: c :: t).head? = (b ++ [c]).head? := by cases b <;> rfl
        rw [List.cons_append, hasPair_cons, not_or, ← hsame]
        exact ⟨hhead, hb⟩

/-- Two ways to cut a word at a pair, of which one is at the first. -/
theorem cut_pair (hb : ¬ HasPair c (b ++ [c])) (h : b ++ c :: c :: t = a ++ c :: c :: s) :
    (a = b ∧ s = t) ∨ (a = b ++ [c] ∧ t = c :: s) ∨
      ∃ a', a = b ++ c :: c :: a' ∧ t = a' ++ c :: c :: s := by
  rcases List.append_eq_append_iff.mp h with ⟨v, rfl, hv⟩ | ⟨v, rfl, hv⟩
  · match v with
    | [] =>
        rw [List.append_nil]
        exact .inl ⟨rfl, (List.cons.inj (List.cons.inj hv).2).2.symm⟩
    | [x] =>
        obtain ⟨rfl, ht⟩ := List.cons.inj hv
        exact .inr (.inl ⟨rfl, (List.cons.inj ht).2⟩)
    | x :: y :: v =>
        obtain ⟨rfl, hyv⟩ := List.cons.inj hv
        obtain ⟨rfl, ht⟩ := List.cons.inj hyv
        exact .inr (.inr ⟨v, rfl, ht⟩)
  · match v with
    | [] =>
        rw [List.append_nil]
        exact .inl ⟨rfl, (List.cons.inj (List.cons.inj hv).2).2⟩
    | [x] =>
        have hx : x = c := (List.cons.inj hv).1.symm
        refine absurd ⟨a, [], ?_⟩ hb
        simp [hx]
    | x :: y :: v =>
        obtain ⟨hx, hyv⟩ := List.cons.inj hv
        have hy : c = y := (List.cons.inj hyv).1
        refine absurd ⟨a, v ++ [c], ?_⟩ hb
        simp [← hx, ← hy]

end

section
variable {α : Type*} [DecidableEq α] {c x : α} {a b s t u w : List α}

/-- Each pair of `c`, from the left, becomes one. -/
def collapse (c : α) : List α → List α
  | [] => []
  | [x] => [x]
  | x :: y :: s => if x = c ∧ y = c then c :: collapse c s else x :: collapse c (y :: s)

@[simp] theorem collapse_nil : collapse c [] = [] := rfl

theorem collapse_pair (s : List α) : collapse c (c :: c :: s) = c :: collapse c s := by
  rw [collapse, if_pos ⟨rfl, rfl⟩]

/-- What does not begin a pair is passed over. -/
theorem collapse_cons (h : ¬ (x = c ∧ s.head? = some c)) :
    collapse c (x :: s) = x :: collapse c s := by
  cases s with
  | nil => rfl
  | cons y s =>
      rw [collapse, if_neg]
      rintro ⟨rfl, rfl⟩
      exact h ⟨rfl, rfl⟩

theorem head?_collapse (c : α) (s : List α) : (collapse c s).head? = s.head? := by
  match s with
  | [] => rfl
  | [x] => rfl
  | x :: y :: s =>
      rw [collapse]
      split_ifs with h
      · rw [List.head?_cons, List.head?_cons, h.1]
      · rfl

theorem length_collapse_le (c : α) (s : List α) : (collapse c s).length ≤ s.length := by
  induction s using collapse.induct c with
  | case1 => exact le_rfl
  | case2 x => exact le_rfl
  | case3 x y s h ih =>
      rw [collapse, if_pos h]
      simp only [List.length_cons]
      omega
  | case4 x y s h ih =>
      rw [collapse, if_neg h]
      simp only [List.length_cons] at ih ⊢
      omega

theorem mem_of_mem_collapse (h : x ∈ collapse c s) : x ∈ s := by
  induction s using collapse.induct c with
  | case1 => exact h
  | case2 y => exact h
  | case3 y z s hc ih =>
      rw [collapse, if_pos hc] at h
      rcases List.mem_cons.mp h with rfl | h
      · rw [hc.1]
        exact List.mem_cons_self
      · exact List.mem_cons_of_mem y (List.mem_cons_of_mem z (ih h))
  | case4 y z s hc ih =>
      rw [collapse, if_neg hc] at h
      rcases List.mem_cons.mp h with rfl | h
      · exact List.mem_cons_self
      · exact List.mem_cons_of_mem y (ih h)

theorem collapse_of_not_hasPair (h : ¬ HasPair c s) : collapse c s = s := by
  induction s with
  | nil => rfl
  | cons x s ih =>
      rw [hasPair_cons, not_or] at h
      rw [collapse_cons h.1, ih h.2]

/-- A run of separators is halved: of three, two are left. -/
theorem hasPair_collapse : HasPair c (collapse c s) ↔ HasTriple c s := by
  induction s using collapse.induct c with
  | case1 => simp [HasPair, HasTriple]
  | case2 x => simp [collapse, HasPair, HasTriple, List.infix_cons_iff]
  | case3 x y s h ih =>
      have hhead : [c, c] <+: c :: s ↔ s.head? = some c :=
        begins_pair.trans (and_iff_right rfl)
      rw [h.1, h.2, collapse_pair, hasPair_cons, ih, head?_collapse, hasTriple_cons, hasTriple_cons,
        hhead, ← or_assoc, ← and_or_left, or_iff_left_of_imp head?_of_pair]
  | case4 x y s h ih =>
      have hnone : ¬ (x = c ∧ (y :: s).head? = some c) := by
        rintro ⟨rfl, hy⟩
        exact h ⟨rfl, Option.some.inj hy⟩
      have hnone' : ¬ (x = c ∧ [c, c] <+: y :: s) := fun h' => hnone ⟨h'.1, head?_of_pair h'.2⟩
      rw [collapse, if_neg h, hasPair_cons, ih, head?_collapse,
        hasTriple_cons (s := y :: s), or_iff_right hnone, or_iff_right hnone']

/-- The pass meets a pair where none begins before. -/
theorem collapse_first (hb : ¬ HasPair c (b ++ [c])) :
    collapse c (b ++ c :: c :: t) = b ++ c :: collapse c t := by
  induction b with
  | nil => exact collapse_pair t
  | cons x b ih =>
      rw [List.cons_append, hasPair_cons, not_or] at hb
      have hhead : (b ++ c :: c :: t).head? = (b ++ [c]).head? := by cases b <;> rfl
      rw [List.cons_append, collapse_cons (by rw [hhead]; exact hb.1), ih hb.2]
      rfl

end

section
variable {α : Type*} [DecidableEq α] {c : α} {a b s : List α}

/-- What stands between the separators, where that is not nothing. -/
def components (c : α) (s : List α) : List (List α) := (s.splitOn c).filter (· ≠ [])

theorem components_append (a b : List α) :
    components c (a ++ c :: b) = components c a ++ components c b := by
  rw [components, List.splitOn_append_cons_self, List.filter_append]
  rfl

theorem components_cons_self (s : List α) : components c (c :: s) = components c s :=
  components_append [] s

/-- One separator less of two leaves what stands between. -/
theorem components_pair (a b : List α) :
    components c (a ++ c :: c :: b) = components c (a ++ c :: b) := by
  rw [components_append, components_append, components_cons_self]

end

end CoreLooper
