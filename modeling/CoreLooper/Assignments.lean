import CoreLooper.OrderedMap

/-!
# Assignments in turn

A list of keys and values that are assigned one after another: the last value of a key is the
one that counts. Assigned to a map, they override what it had.
-/
namespace CoreLooper

section
variable {κ ν : Type*} [DecidableEq κ] {k : κ} {v : ν} {l l' : List (κ × ν)}

/-- The value of the last assignment to `k`. -/
def lastValue (k : κ) : List (κ × ν) → Option ν
  | [] => none
  | a :: l => (lastValue k l).or (if a.1 = k then some a.2 else none)

theorem mem_of_lastValue (h : lastValue k l = some v) : (k, v) ∈ l := by
  induction l with
  | nil => cases h
  | cons a l ih =>
      rw [lastValue, Option.or_eq_some_iff] at h
      rcases h with h | ⟨-, h⟩
      · exact List.mem_cons_of_mem a (ih h)
      · split_ifs at h with ha
        rw [← ha, ← Option.some.inj h]
        exact List.mem_cons_self

theorem lastValue_eq_none_iff : lastValue k l = none ↔ ∀ a ∈ l, a.1 ≠ k := by
  induction l with
  | nil => simp [lastValue]
  | cons a l ih =>
      rw [lastValue, Option.or_eq_none_iff, ih, List.forall_mem_cons]
      by_cases ha : a.1 = k
      · simp [ha]
      · simp [ha]

theorem lastValue_of_mem (hl : (l.map Prod.fst).Nodup) (h : (k, v) ∈ l) :
    lastValue k l = some v := by
  induction l with
  | nil => cases h
  | cons a l ih =>
      obtain ⟨ha, hl⟩ := List.nodup_cons.mp hl
      rw [lastValue]
      rcases List.mem_cons.mp h with h | h
      · have hnone : lastValue k l = none := by
          rw [lastValue_eq_none_iff]
          intro b hb hk
          rw [← h] at ha
          apply ha
          exact List.mem_map.mpr ⟨b, hb, hk⟩
        simp [hnone, ← h]
      · rw [ih hl h, Option.some_or]

/-- With one assignment to each key, their order does not matter. -/
theorem lastValue_perm (hl : (l.map Prod.fst).Nodup) (h : l.Perm l') :
    lastValue k l = lastValue k l' := by
  cases hk : lastValue k l with
  | some v =>
      have hmem := h.mem_iff.mp (mem_of_lastValue hk)
      exact (lastValue_of_mem ((h.map Prod.fst).nodup hl) hmem).symm
  | none =>
      rw [lastValue_eq_none_iff] at hk
      exact (lastValue_eq_none_iff.mpr fun a ha => hk a (h.mem_iff.mpr ha)).symm

end

namespace OrderedMap

variable {κ ν : Type*} {r : κ → κ → Prop} [DecidableEq κ] [DecidableRel r] [IsStrictTotalOrder κ r]

def insertAll (m : OrderedMap κ ν r) (l : List (κ × ν)) : OrderedMap κ ν r :=
  l.foldl (fun m a => m.insert a.1 a.2) m

theorem find_insertAll (m : OrderedMap κ ν r) (l : List (κ × ν)) (k : κ) :
    (m.insertAll l).find k = (lastValue k l).or (m.find k) := by
  induction l generalizing m with
  | nil => rfl
  | cons a l ih =>
      show ((m.insert a.1 a.2).insertAll l).find k = _
      rw [ih, find_insert, lastValue, Option.or_assoc]
      by_cases ha : k = a.1
      · rw [if_pos ha, if_pos ha.symm, Option.some_or]
      · rw [if_neg ha, if_neg (Ne.symm ha), Option.none_or]

omit [DecidableEq κ] [DecidableRel r] in
theorem nodup_keys (m : OrderedMap κ ν r) : (m.items.map Prod.fst).Nodup := by
  rw [List.nodup_iff_pairwise_ne, List.pairwise_map]
  exact m.sorted.imp fun {a b} hlt (heq : a.1 = b.1) => irrefl_of r a.1 (by rwa [← heq] at hlt)

omit [DecidableRel r] in
/-- The entries of a map are found by their last values. -/
theorem find_eq_lastValue (m : OrderedMap κ ν r) (k : κ) : m.find k = lastValue k m.items := by
  cases hk : m.find k with
  | some v => exact (lastValue_of_mem m.nodup_keys (mem_of_find hk)).symm
  | none =>
      rw [eq_comm, lastValue_eq_none_iff]
      rintro a ha rfl
      rw [find_of_mem ha] at hk
      cases hk

/-- A map is made again by inserting its entries in any order. -/
theorem insertAll_perm (m : OrderedMap κ ν r) {l : List (κ × ν)} (h : l.Perm m.items) :
    (empty : OrderedMap κ ν r).insertAll l = m := by
  apply ext_find
  intro k
  rw [find_insertAll, find_empty, Option.or_none, find_eq_lastValue,
    lastValue_perm m.nodup_keys h.symm]

end OrderedMap
end CoreLooper
