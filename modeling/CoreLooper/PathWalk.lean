import Mathlib

/-!
# Where a path leads

A place in a tree of folders is the list of the names that lead to it from the root. A path is
gone one component after another; one of them, `up`, goes back to the folder above, and from the
root nowhere. Whatever the place, a path first climbs out of some folders and then goes down by
some names, and both can be read off the path alone.
-/
namespace CoreLooper.PathWalk

variable {α : Type*} [DecidableEq α] (up : α)

/-- One component. -/
def go (place : List α) (c : α) : List α := if c = up then place.dropLast else place ++ [c]

def walk (place : List α) (cs : List α) : List α := cs.foldl (go up) place

/-- How often a path climbs out of the folder it starts in, and the names it then goes down. -/
def net : List α → ℕ × List α := fun cs =>
  cs.foldl (fun r c =>
    if c = up then (if r.2 = [] then (r.1 + 1, []) else (r.1, r.2.dropLast))
    else (r.1, r.2 ++ [c])) (0, [])

def climbs (cs : List α) : ℕ := (net up cs).1

def names (cs : List α) : List α := (net up cs).2

section
variable {up} {place cs ds : List α} {c : α}

@[simp] theorem climbs_nil : climbs up ([] : List α) = 0 := rfl

@[simp] theorem names_nil : names up ([] : List α) = [] := rfl

end

end CoreLooper.PathWalk
