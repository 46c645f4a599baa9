import CoreLooper.CStrings

/-!
# Paths that stay below their root

`HttpTool::is_valid_path` goes through the components of a path and keeps the level it is at.
-/
namespace CoreLooper.Http
open CStrings

/-- The loops over slashes. -/
def skipSlash (path : Bytes) : Bytes := path.dropWhile (· = 47)

/-- The outer loop, at the beginning of a component. -/
def levelLoop : ℕ → ℕ → Bytes → Bool
  | 0, _, _ => true
  | fuel + 1, level, path =>
      if path = [] then true
      else
        let component := path.takeWhile (· ≠ 47)
        let path := skipSlash (path.dropWhile (· ≠ 47))
        if component = ascii "." then levelLoop fuel level path
        else if component = ascii ".." then
          if level = 0 then false else levelLoop fuel (level - 1) path
        else levelLoop fuel (level + 1) path

def isValidPath (path : Bytes) : Bool := levelLoop path.length 0 (skipSlash path)

/-- The components that name something. -/
def components (path : Bytes) : List Bytes :=
  (path.splitOn 47).filter fun c => c ≠ [] ∧ c ≠ ascii "."

/-- How far down a component leads. -/
def descent (component : Bytes) : ℤ := if component = ascii ".." then -1 else 1

/-- The level after each of the components is not above the start. -/
def StaysBelow (level : ℤ) (cs : List Bytes) : Prop :=
  ∀ n, 0 ≤ level + ((cs.take n).map descent).sum

theorem StaysBelow.start {level : ℤ} {cs : List Bytes} (h : StaysBelow level cs) : 0 ≤ level := by
  have := h 0
  simpa using this

theorem staysBelow_cons {level : ℤ} (hlevel : 0 ≤ level) (c : Bytes) (cs : List Bytes) :
    StaysBelow level (c :: cs) ↔ StaysBelow (level + descent c) cs := by
  constructor
  · intro h n
    have := h (n + 1)
    rw [List.take_succ_cons, List.map_cons, List.sum_cons] at this
    omega
  · intro h n
    cases n with
    | zero => simpa using hlevel
    | succ n =>
        have := h n
        rw [List.take_succ_cons, List.map_cons, List.sum_cons]
        omega

theorem staysBelow_nil {level : ℤ} : StaysBelow level [] ↔ 0 ≤ level :=
  ⟨StaysBelow.start, fun h n => by simpa using h⟩

theorem components_append (a b : Bytes) :
    components (a ++ 47 :: b) = components a ++ components b := by
  rw [components, List.splitOn_append_cons_self, List.filter_append]
  rfl

theorem components_slash (path : Bytes) : components (47 :: path) = components path :=
  components_append [] path

theorem components_skipSlash (path : Bytes) : components (skipSlash path) = components path := by
  induction path with
  | nil => rfl
  | cons c path ih =>
      by_cases hc : c = 47
      · rw [hc, components_slash, ← ih, skipSlash, List.dropWhile_cons_of_pos (by simp), skipSlash]
      · rw [skipSlash, List.dropWhile_cons_of_neg (by simpa using hc)]

/-- One component, and what comes behind it. -/
theorem components_eq (path : Bytes) :
    components path = [path.takeWhile (· ≠ 47)].filter (fun c => c ≠ [] ∧ c ≠ ascii ".") ++
      components (skipSlash (path.dropWhile (· ≠ 47))) := by
  have hfront : (47 : UInt8) ∉ path.takeWhile (· ≠ 47) := by
    intro hmem
    have := List.mem_takeWhile_imp hmem
    simp at this
  rw [components_skipSlash]
  conv_lhs => rw [← List.takeWhile_append_dropWhile (p := fun c => decide (c ≠ 47)) (l := path)]
  cases hrest : path.dropWhile (· ≠ 47) with
  | nil =>
      rw [List.append_nil, components, List.splitOn_eq_singleton hfront, components]
      simp
  | cons d rest =>
      have hd : d = 47 := by
        have := List.head?_dropWhile_not (fun c : UInt8 => decide (c ≠ 47)) path
        rw [hrest] at this
        simpa using this
      rw [hd, components_slash, components,
        List.splitOn_append_cons_self_of_not_mem hfront rest, ← List.singleton_append,
        List.filter_append, components]

theorem takeWhile_ne_nil {path : Bytes} (hne : path ≠ []) (hslash : path.head? ≠ some 47) :
    path.takeWhile (· ≠ 47) ≠ [] := by
  cases path with
  | nil => exact absurd rfl hne
  | cons c path =>
      rw [List.takeWhile_cons_of_pos (by simpa using hslash)]
      simp

theorem head_skipSlash (path : Bytes) : (skipSlash path).head? ≠ some 47 := by
  intro h
  have := List.head?_dropWhile_not (fun c : UInt8 => decide (c = 47)) path
  rw [skipSlash] at h
  rw [h] at this
  simp at this

theorem skipSlash_length (path : Bytes) : (skipSlash path).length ≤ path.length :=
  (List.dropWhile_suffix _).length_le

/-- With a component in front, the rest is shorter. -/
theorem rest_length {path : Bytes} (hne : path.takeWhile (· ≠ 47) ≠ []) :
    (skipSlash (path.dropWhile (· ≠ 47))).length < path.length := by
  have hsplit := congrArg List.length
    (List.takeWhile_append_dropWhile (p := fun c => decide (c ≠ 47)) (l := path))
  have hpos := List.length_pos_of_ne_nil hne
  have hskip := skipSlash_length (path.dropWhile (· ≠ 47))
  rw [List.length_append] at hsplit
  omega

theorem levelLoop_iff {fuel : ℕ} {path : Bytes} (hfuel : path.length ≤ fuel)
    (hslash : path.head? ≠ some 47) (level : ℕ) :
    levelLoop fuel level path = true ↔ StaysBelow level (components path) := by
  induction fuel generalizing path level with
  | zero =>
      rw [List.length_eq_zero_iff.mp (Nat.le_zero.mp hfuel)]
      exact iff_of_true rfl (staysBelow_nil.mpr (Int.natCast_nonneg level))
  | succ fuel ih =>
      by_cases hempty : path = []
      · rw [hempty]
        exact iff_of_true rfl (staysBelow_nil.mpr (Int.natCast_nonneg level))
      · have hne := takeWhile_ne_nil hempty hslash
        have hlen := rest_length hne
        have hlater (level : ℕ) :
            levelLoop fuel level (skipSlash (path.dropWhile (· ≠ 47))) = true ↔
              StaysBelow level (components (skipSlash (path.dropWhile (· ≠ 47)))) :=
          ih (by omega) (head_skipSlash _) level
        rw [levelLoop, if_neg hempty, components_eq path]
        dsimp only
        split_ifs with hdot hup hzero
        · rw [hlater, hdot]
          rfl
        · -- up from the start
          rw [hup]
          refine iff_of_false not_false fun h => ?_
          have habove := ((staysBelow_cons (Int.natCast_nonneg level) _ _).mp h).start
          rw [descent, if_pos rfl, hzero] at habove
          omega
        · rw [hlater, hup]
          refine Iff.trans ?_ (staysBelow_cons (Int.natCast_nonneg level) _ _).symm
          rw [descent, if_pos rfl, Nat.cast_sub (by omega)]
          rfl
        · have hkept : decide (path.takeWhile (· ≠ 47) ≠ [] ∧
              path.takeWhile (· ≠ 47) ≠ ascii ".") = true := decide_eq_true ⟨hne, hdot⟩
          rw [hlater, List.filter_cons, hkept, if_pos rfl, List.filter_nil, List.singleton_append,
            staysBelow_cons (Int.natCast_nonneg level), descent, if_neg hup]
          rfl

/-- A path is let through exactly when it never leads above the level it starts at. -/
theorem isValidPath_iff (path : Bytes) :
    isValidPath path = true ↔ StaysBelow 0 (components path) := by
  rw [isValidPath, levelLoop_iff (skipSlash_length path) (head_skipSlash path),
    components_skipSlash]
  rfl

example : isValidPath (ascii "//a/./b/../../c/") = true := by decide

example : isValidPath (ascii "a/../..//a") = false := by decide

end CoreLooper.Http
