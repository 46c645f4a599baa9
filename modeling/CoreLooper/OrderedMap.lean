import Mathlib

/-!
# Ordered maps

`std::map` as a list of entries in strictly increasing order of their keys. Two such maps
with the same entry under every key are equal.
-/
namespace CoreLooper

/-- The entries stand in the order in which the map is iterated. -/
structure OrderedMap (κ ν : Type*) (r : κ → κ → Prop) where
  items : List (κ × ν)
  sorted : items.Pairwise fun a b => r a.1 b.1

namespace OrderedMap

variable {κ ν : Type*} {r : κ → κ → Prop}

theorem ext_items {m m' : OrderedMap κ ν r} (h : m.items = m'.items) : m = m' := by
  cases m
  cases m'
  simpa using h

variable [DecidableEq κ]

instance [DecidableEq ν] : DecidableEq (OrderedMap κ ν r) := fun m m' =>
  decidable_of_iff (m.items = m'.items) ⟨ext_items, fun h => h ▸ rfl⟩

def empty : OrderedMap κ ν r := ⟨[], List.Pairwise.nil⟩

def find (m : OrderedMap κ ν r) (k : κ) : Option ν := m.items.lookup k

def size (m : OrderedMap κ ν r) : ℕ := m.items.length

def erase (m : OrderedMap κ ν r) (k : κ) : OrderedMap κ ν r :=
  ⟨m.items.filter (·.1 ≠ k), m.sorted.filter _⟩

/-- The entry goes before the first greater key; an entry under the same key is replaced. -/
def insertItems [DecidableRel r] (k : κ) (v : ν) : List (κ × ν) → List (κ × ν)
  | [] => [(k, v)]
  | (k', v') :: l =>
      if k = k' then (k, v) :: l
      else if r k k' then (k, v) :: (k', v') :: l
      else (k', v') :: insertItems k v l

theorem mem_insertItems [DecidableRel r] {k : κ} {v : ν} {l : List (κ × ν)} {e : κ × ν}
    (he : e ∈ insertItems (r := r) k v l) : e = (k, v) ∨ e ∈ l := by
  induction l with
  | nil => exact Or.inl (List.mem_singleton.mp he)
  | cons a l ih =>
      simp only [insertItems] at he
      split_ifs at he
      · rcases List.mem_cons.mp he with rfl | he
        · exact Or.inl rfl
        · exact Or.inr (List.mem_cons_of_mem a he)
      · exact List.mem_cons.mp he
      · rcases List.mem_cons.mp he with rfl | he
        · exact Or.inr List.mem_cons_self
        · exact (ih he).imp_right (List.mem_cons_of_mem a)

theorem insertItems_sorted [DecidableRel r] [IsStrictTotalOrder κ r] (k : κ) (v : ν)
    {l : List (κ × ν)} (h : l.Pairwise fun a b => r a.1 b.1) :
    (insertItems (r := r) k v l).Pairwise fun a b => r a.1 b.1 := by
  induction l with
  | nil => exact List.pairwise_singleton _ _
  | cons a l ih =>
      obtain ⟨ha, hl⟩ := List.pairwise_cons.mp h
      simp only [insertItems]
      split_ifs with heq hlt
      · exact List.pairwise_cons.mpr ⟨fun b hb => heq ▸ ha b hb, hl⟩
      · refine List.pairwise_cons.mpr ⟨fun b hb => ?_, h⟩
        rcases List.mem_cons.mp hb with rfl | hb
        · exact hlt
        · exact trans_of r hlt (ha b hb)
      · refine List.pairwise_cons.mpr ⟨fun b hb => ?_, ih hl⟩
        rcases mem_insertItems hb with rfl | hb
        · exact (trichotomous_of r k a.1).resolve_left hlt |>.resolve_left heq
        · exact ha b hb

def insert [DecidableRel r] [IsStrictTotalOrder κ r] (m : OrderedMap κ ν r) (k : κ) (v : ν) :
    OrderedMap κ ν r :=
  ⟨insertItems (r := r) k v m.items, insertItems_sorted k v m.sorted⟩

section
variable {m m' : OrderedMap κ ν r} {k k' : κ} {v : ν}

@[simp] theorem find_empty (k : κ) : (empty : OrderedMap κ ν r).find k = none := rfl

theorem find_insert [DecidableRel r] [IsStrictTotalOrder κ r] :
    (m.insert k v).find k' = if k' = k then some v else m.find k' := by
  show (insertItems (r := r) k v m.items).lookup k' = if k' = k then some v else m.items.lookup k'
  induction m.items with
  | nil =>
      simp only [insertItems, List.lookup_cons, List.lookup_nil]
      by_cases hk : k' = k
      · simp [hk]
      · simp [hk, beq_false_of_ne hk]
  | cons a l ih =>
      by_cases hk : k' = k
      · rw [if_pos hk] at ih ⊢
        simp only [insertItems]
        split_ifs with heq hlt
        · rw [hk, List.lookup_cons_self]
        · rw [hk, List.lookup_cons_self]
        · rw [List.lookup_cons, beq_false_of_ne (fun h => heq (hk.symm.trans h)), ih]
      · rw [if_neg hk] at ih ⊢
        simp only [insertItems]
        split_ifs with heq hlt
        · rw [List.lookup_cons, List.lookup_cons, ← heq, beq_false_of_ne hk]
        · rw [List.lookup_cons, beq_false_of_ne hk]
        · rw [List.lookup_cons, List.lookup_cons, ih]

/-- What is found under a key is an entry of the map. -/
theorem mem_of_find (h : m.find k = some v) : (k, v) ∈ m.items := by
  obtain ⟨l₁, l₂, hl, -⟩ := List.lookup_eq_some_iff.mp h
  rw [hl]
  simp

theorem find_of_mem [IsStrictTotalOrder κ r] (h : (k, v) ∈ m.items) : m.find k = some v := by
  obtain ⟨items, hsorted⟩ := m
  unfold find
  induction items with
  | nil => cases h
  | cons a l ih =>
      obtain ⟨ha, hl⟩ := List.pairwise_cons.mp hsorted
      rcases List.mem_cons.mp h with rfl | h
      · exact List.lookup_cons_self
      · have hne : k ≠ a.1 := fun heq => irrefl_of r a.1 (heq ▸ ha _ h)
        rw [List.lookup_cons, beq_false_of_ne hne]
        exact ih hl h

theorem ext_find [IsStrictTotalOrder κ r] (h : ∀ k, m.find k = m'.find k) : m = m' := by
  have hnodup : ∀ m : OrderedMap κ ν r, m.items.Nodup := fun m =>
    m.sorted.imp fun {a b} hlt (heq : a = b) => irrefl_of r a.1 (by rwa [← heq] at hlt)
  have hperm : m.items.Perm m'.items := by
    refine (List.perm_ext_iff_of_nodup (hnodup m) (hnodup m')).mpr fun a => ?_
    constructor
    · exact fun ha => mem_of_find (h a.1 ▸ find_of_mem ha)
    · exact fun ha => mem_of_find ((h a.1).symm ▸ find_of_mem ha)
  refine ext_items (hperm.eq_of_pairwise ?_ m.sorted m'.sorted)
  intro a b _ _ hab hba
  exact absurd (trans_of r hab hba) (irrefl_of r _)

end
end OrderedMap
end CoreLooper
