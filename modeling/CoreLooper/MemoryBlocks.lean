import Mathlib

/-!
# Blocks of memory

A block is the list of its cells. An access outside the block has no result, and neither has
a request for a block of negative size; what a new block holds is not known.
-/
namespace CoreLooper.MemoryBlocks

variable {α : Type*}

def alloc (junk : ℕ → α) (n : ℤ) : Option (List α) :=
  if 0 ≤ n then some ((List.range n.toNat).map junk) else none

def load (block : List α) (off n : ℤ) : Option (List α) :=
  if 0 ≤ off ∧ 0 ≤ n ∧ off + n ≤ block.length then
    some ((block.drop off.toNat).take n.toNat)
  else none

def store (block : List α) (off : ℤ) (data : List α) : Option (List α) :=
  if 0 ≤ off ∧ off + data.length ≤ block.length then
    some (block.take off.toNat ++ (data ++ block.drop (off.toNat + data.length)))
  else none

variable {block data rest : List α} {off n : ℤ}

theorem alloc_nonneg (junk : ℕ → α) (h : 0 ≤ n) :
    ∃ block, alloc junk n = some block ∧ (block.length : ℤ) = n := by
  refine ⟨(List.range n.toNat).map junk, ?_, ?_⟩
  · rw [alloc, if_pos h]
  · rw [List.length_map, List.length_range]
    exact Int.toNat_of_nonneg h

/-- The cells that follow a known front. -/
theorem load_front (front data tail : List α) (hoff : off = front.length)
    (hn : n = data.length) :
    load (front ++ (data ++ tail)) off n = some data := by
  subst hoff hn
  rw [load, if_pos]
  · simp
  · simp only [List.length_append]
    omega

theorem store_front (front data : List α) (hoff : off = front.length)
    (h : data.length ≤ rest.length) :
    store (front ++ rest) off data = some (front ++ (data ++ rest.drop data.length)) := by
  subst hoff
  rw [store, if_pos]
  · simp [List.drop_append]
  · simp only [List.length_append]
    omega

end CoreLooper.MemoryBlocks
