import CoreLooper.TextLines
import CoreLooper.Substitution

/-!
# `StringTool::Replace`

The search goes on behind what was put in. The offset there is kept in an `int`: from 2^31 on it
is negative, which `find` takes as an offset behind every string, and from 2^32 on it is too small.
-/
namespace CoreLooper.StringTool

open CStrings TextSeparator

/-- `string::find`. A negative offset becomes a `size_t` beyond every length. -/
def find (obj src : Bytes) (off : ℤ) : Option ℕ :=
  if 0 ≤ off ∧ off ≤ obj.length then
    (strstr (obj.drop off.toNat) src).map (off.toNat + ·)
  else none

/-- The loop of `Replace`. It may go on for ever. -/
def replaceLoop (src dst : Bytes) : ℕ → Bytes → ℤ → Option Bytes
  | 0, _, _ => none
  | fuel + 1, obj, off =>
      match find obj src off with
      | none => some obj
      | some pos =>
          replaceLoop src dst fuel (obj.take pos ++ dst ++ obj.drop (pos + src.length))
            (i32 (pos + dst.length : ℕ))

def replace (fuel : ℕ) (obj src dst : Bytes) : Option Bytes :=
  if src.length = 0 then some obj else replaceLoop src dst fuel obj 0

variable {c x : UInt8} {a b d s t u w : Bytes} {off : ℤ} {fuel pos : ℕ}

theorem strstr_behind (hc : c ∉ a) : strstr (a ++ c :: b) [c] = some a.length := by
  have hhere : strstr (c :: b) [c] = some 0 := strstr_here ⟨b, rfl⟩
  rw [strstr_skip hc, hhere]
  rfl

/-- What is found stands there. -/
theorem find_found {src : Bytes} (h : find t src off = some pos) :
    0 ≤ off ∧ off ≤ pos ∧ src <+: t.drop pos := by
  unfold find at h
  split_ifs at h with hoff
  obtain ⟨i, hi, rfl⟩ := Option.map_eq_some_iff.mp h
  refine ⟨hoff.1, by omega, ?_⟩
  rw [← List.drop_drop]
  exact strstr_found hi

theorem find_negative (h : off < 0) : find t [c] off = none := by
  rw [find, if_neg]
  omega

theorem find_absent (hc : c ∉ t.drop off.toNat) : find t [c] off = none := by
  unfold find
  split_ifs with h
  · rw [strstr_absent hc, Option.map_none]
  · rfl

theorem find_behind (h : 0 ≤ off) (hle : off ≤ a.length) (hc : c ∉ a.drop off.toNat) :
    find (a ++ c :: b) [c] off = some a.length := by
  have hlength : off ≤ (a ++ c :: b).length := by
    rw [List.length_append]
    omega
  have hdrop : (a ++ c :: b).drop off.toNat = a.drop off.toNat ++ c :: b :=
    List.drop_append_of_le_length (by omega)
  rw [find, if_pos ⟨h, hlength⟩, hdrop, strstr_behind hc, Option.map_some, List.length_drop]
  congr 1
  omega

theorem find_some (h : find t [c] off = some pos) :
    0 ≤ off ∧ off ≤ pos ∧ t = t.take pos ++ c :: t.drop (pos + 1) := by
  obtain ⟨h0, hle, y, hy⟩ := find_found h
  refine ⟨h0, hle, ?_⟩
  have hdrop : t.drop (pos + 1) = y := by
    rw [← List.drop_drop, ← hy]
    rfl
  rw [hdrop]
  conv_lhs => rw [← List.take_append_drop pos t, ← hy]
  rfl

theorem replaceLoop_none (h : find t [c] off = none) :
    replaceLoop [c] d (fuel + 1) t off = some t := by
  rw [replaceLoop, h]

/-- One round: the byte found becomes `d`. -/
theorem replaceLoop_found (fuel : ℕ) (h : find (a ++ c :: b) [c] off = some a.length) :
    replaceLoop [c] d (fuel + 1) (a ++ c :: b) off =
      replaceLoop [c] d fuel (a ++ d ++ b) (i32 (a.length + d.length : ℕ)) := by
  have hdrop : (a ++ c :: b).drop (a.length + 1) = b := by
    rw [← List.drop_drop, List.drop_left]
    rfl
  rw [replaceLoop, h]
  simp only [List.length_singleton]
  rw [List.take_left, hdrop]

/-- What is found is a place in the text. -/
theorem round_of_find (h : find t [c] off = some pos) :
    ∃ a b, t = a ++ c :: b ∧ a.length = pos ∧ off ≤ a.length ∧
      ∀ fuel, replaceLoop [c] d (fuel + 1) t off =
        replaceLoop [c] d fuel (a ++ d ++ b) (i32 (a.length + d.length : ℕ)) := by
  obtain ⟨-, hle, ht⟩ := find_some h
  have hpos : (t.take pos).length = pos := by
    have hlength := congrArg List.length ht
    rw [List.length_append, List.length_cons, List.length_drop, List.length_take] at hlength
    rw [List.length_take]
    omega
  refine ⟨t.take pos, t.drop (pos + 1), ht, hpos, by omega, fun fuel => ?_⟩
  have hfind : find (t.take pos ++ c :: t.drop (pos + 1)) [c] off = some (t.take pos).length := by
    rw [← ht, h, hpos]
  have hround := replaceLoop_found (d := d) fuel hfind
  rw [← ht] at hround
  exact hround

/-- More rounds than needed change nothing. -/
theorem replaceLoop_mono {src dst : Bytes} (h : replaceLoop src dst fuel t off = some u) (k : ℕ) :
    replaceLoop src dst (fuel + k) t off = some u := by
  induction fuel generalizing t off with
  | zero => cases h
  | succ fuel ih =>
      rw [Nat.add_right_comm, replaceLoop]
      rw [replaceLoop] at h
      cases hfind : find t src off with
      | none => rwa [hfind] at h
      | some pos =>
          rw [hfind] at h
          exact ih h

theorem replaceLoop_unique {src dst v : Bytes} {k : ℕ} (h : replaceLoop src dst fuel t off = some u)
    (h' : replaceLoop src dst k t off = some v) : u = v := by
  have hu := replaceLoop_mono h k
  rw [Nat.add_comm, replaceLoop_mono h' fuel] at hu
  exact (Option.some.inj hu).symm

/-- Other bytes stay. -/
theorem mem_of_replaceLoop (hx : x ≠ c) (hmem : x ∈ t)
    (h : replaceLoop [c] d fuel t off = some u) : x ∈ u := by
  induction fuel generalizing t off with
  | zero => cases h
  | succ fuel ih =>
      cases hfind : find t [c] off with
      | none =>
          rw [replaceLoop_none hfind] at h
          rwa [← Option.some.inj h]
      | some pos =>
          obtain ⟨a, b, rfl, -, -, hround⟩ := round_of_find (d := d) hfind
          rw [hround] at h
          refine ih ?_ h
          simp only [List.mem_append, List.mem_cons] at hmem ⊢
          rcases hmem with hmem | hmem | hmem
          · exact .inl (.inl hmem)
          · exact absurd hmem hx
          · exact .inr hmem

/-- The offset behind what is put in for the last byte of `a ++ [c]`. -/
def offsetBehind (c : UInt8) (d a : Bytes) : ℕ := (subst c d a).length + d.length

/-- A negative offset comes behind the last `c` only, and an offset that is too small does no harm:
there is no `c` in what is put in. -/
def OffsetsFit (c : UInt8) (d s : Bytes) : Prop :=
  ∀ a b, s = a ++ c :: b →
    (i32 (offsetBehind c d a) < 0 → c ∉ b) ∧
    (0 ≤ i32 (offsetBehind c d a) → c ∈ d → i32 (offsetBehind c d a) = offsetBehind c d a)

theorem i32_le {n : ℕ} : i32 n ≤ n := by
  rw [i32, Int.bmod_def]
  split_ifs
  · omega
  · omega

theorem subst_step (hc : c ∉ b) :
    (subst c d a ++ b) ++ d ++ t = subst c d (a ++ b ++ [c]) ++ t ∧
      (subst c d a ++ b).length + d.length = (subst c d (a ++ b ++ [c])).length ∧
      (subst c d (a ++ b ++ [c])).length = offsetBehind c d (a ++ b) := by
  have hsubst : subst c d (a ++ b ++ [c]) = subst c d a ++ b ++ d := by
    rw [subst_append, subst_append, subst_of_not_mem hc, subst_cons_self, subst_nil,
      List.append_nil]
  refine ⟨by rw [hsubst], ?_, ?_⟩
  · rw [hsubst]
    exact List.length_append.symm
  · rw [hsubst, offsetBehind, subst_append, subst_of_not_mem hc]
    exact List.length_append

/-- A round whose offset leaves no earlier `c` to be found. -/
theorem round_fresh (h : 0 ≤ off) (hoff : off = i32 (subst c d a).length)
    (hclear : c ∈ d → off = (subst c d a).length) (hb : c ∉ b) :
    replaceLoop [c] d (fuel + 1) (subst c d a ++ (b ++ c :: t)) off =
      replaceLoop [c] d fuel (subst c d (a ++ b ++ [c]) ++ t)
        (i32 (subst c d (a ++ b ++ [c])).length) := by
  have hle : off ≤ (subst c d a).length := by
    rw [hoff]
    exact i32_le
  have hdrop : c ∉ (subst c d a ++ b).drop off.toNat := by
    intro hmem
    by_cases hd : c ∈ d
    · have hlength : off.toNat = (subst c d a).length := by
        have := hclear hd
        omega
      rw [hlength, List.drop_left] at hmem
      exact hb hmem
    · rcases List.mem_append.mp (List.mem_of_mem_drop hmem) with hmem | hmem
      · exact not_mem_subst hd hmem
      · exact hb hmem
  have hfind := find_behind (b := t) h (by rw [List.length_append]; omega) hdrop
  obtain ⟨htext, hlength, -⟩ := subst_step (a := a) (d := d) (t := t) hb
  rw [← List.append_assoc, replaceLoop_found _ hfind, htext, hlength]

/-- With offsets that fit, every `c` is replaced once. -/
theorem replaceLoop_fits (hfit : OffsetsFit c d s) (hs : s = a ++ t)
    (hoff : off = i32 (subst c d a).length) (hnegative : off < 0 → c ∉ t)
    (hclear : 0 ≤ off → c ∈ d → off = (subst c d a).length) :
    ∃ fuel, replaceLoop [c] d fuel (subst c d a ++ t) off = some (subst c d s) := by
  induction hn : t.length using Nat.strong_induction_on generalizing a t off with
  | _ n ih =>
      by_cases hc : c ∈ t
      · have h : 0 ≤ off := by
          by_contra hneg
          exact hnegative (by omega) hc
        obtain ⟨b, t', rfl, hb⟩ := List.eq_append_cons_of_mem hc
        have hs' : s = (a ++ b) ++ c :: t' := by rw [hs, List.append_assoc]
        have hlength := (subst_step (a := a) (d := d) (t := t') hb).2.2
        obtain ⟨hneg', hclear'⟩ := hfit (a ++ b) t' hs'
        rw [← hlength] at hneg' hclear'
        have hs'' : s = (a ++ b ++ [c]) ++ t' := by
          rw [hs', List.append_assoc (a ++ b)]
          rfl
        have hlt : t'.length < n := by
          rw [← hn, List.length_append, List.length_cons]
          omega
        obtain ⟨fuel, hloop⟩ := ih t'.length hlt hs'' rfl hneg' hclear' rfl
        use fuel + 1
        rw [round_fresh h hoff (hclear h) hb, hloop]
      · use 1
        have hfind : find (subst c d a ++ t) [c] off = none := by
          rcases lt_or_ge off 0 with hneg | h
          · exact find_negative hneg
          · apply find_absent
            intro hmem
            by_cases hd : c ∈ d
            · have hlen : off.toNat = (subst c d a).length := by
                have := hclear h hd
                omega
              rw [hlen, List.drop_left] at hmem
              exact hc hmem
            · rcases List.mem_append.mp (List.mem_of_mem_drop hmem) with hmem | hmem
              · exact not_mem_subst hd hmem
              · exact hc hmem
        rw [replaceLoop_none hfind, hs, subst_append, subst_of_not_mem hc]

/-- Two ways to cut a word at a `c`, of which one is at the first. -/
theorem cut_behind_first {y z : Bytes} (hb : c ∉ b) (h : b ++ c :: t = y ++ c :: z) :
    (y = b ∧ z = t) ∨ ∃ y', y = b ++ c :: y' ∧ t = y' ++ c :: z := by
  rcases List.append_eq_append_iff.mp h with ⟨v, hy, hv⟩ | ⟨v, hv, hz⟩
  · cases v with
    | nil =>
        rw [List.append_nil] at hy
        exact .inl ⟨hy, (List.cons.inj hv).2.symm⟩
    | cons x v =>
        obtain ⟨rfl, ht⟩ := List.cons.inj hv
        exact .inr ⟨v, hy, ht⟩
  · cases v with
    | nil =>
        rw [List.append_nil] at hv
        exact .inl ⟨hv.symm, (List.cons.inj hz).2⟩
    | cons x v =>
        have hmem : c ∈ b := by
          rw [hv, (List.cons.inj hz).1]
          exact List.mem_append_right y List.mem_cons_self
        exact absurd hmem hb

/-- A negative offset before another `c` leaves that one as it is. -/
theorem replaceLoop_leaves (hd : c ∉ d) (hoff : off = i32 (subst c d a).length)
    (hbad : (off < 0 ∧ c ∈ t) ∨
      ∃ y z, t = y ++ c :: z ∧ i32 (offsetBehind c d (a ++ y)) < 0 ∧ c ∈ z) :
    ∃ fuel u, replaceLoop [c] d fuel (subst c d a ++ t) off = some u ∧ c ∈ u := by
  induction hn : t.length using Nat.strong_induction_on generalizing a t off with
  | _ n ih =>
      have hc : c ∈ t := by
        rcases hbad with h | ⟨y, z, rfl, -, -⟩
        · exact h.2
        · exact List.mem_append_right y List.mem_cons_self
      rcases lt_or_ge off 0 with hneg | h
      · exact ⟨1, _, replaceLoop_none (find_negative hneg), List.mem_append_right _ hc⟩
      · obtain ⟨b, t', rfl, hb⟩ := List.eq_append_cons_of_mem hc
        have hlength := (subst_step (a := a) (d := d) (t := t') hb).2.2
        have hbad' : (i32 (subst c d (a ++ b ++ [c])).length < 0 ∧ c ∈ t') ∨
            ∃ y z, t' = y ++ c :: z ∧
              i32 (offsetBehind c d (a ++ b ++ [c] ++ y)) < 0 ∧ c ∈ z := by
          rcases hbad with hbad | ⟨y, z, hyz, hneg, hz⟩
          · omega
          · rcases cut_behind_first hb hyz with ⟨rfl, rfl⟩ | ⟨y', rfl, rfl⟩
            · rw [hlength]
              exact .inl ⟨hneg, hz⟩
            · refine .inr ⟨y', z, rfl, ?_, hz⟩
              simpa only [List.append_assoc, List.singleton_append] using hneg
        have hlt : t'.length < n := by
          rw [← hn, List.length_append, List.length_cons]
          omega
        obtain ⟨fuel, u, hloop, hu⟩ := ih t'.length hlt rfl hbad' rfl
        refine ⟨fuel + 1, u, ?_, hu⟩
        rw [round_fresh h hoff (fun hmem => absurd hmem hd) hb, hloop]

theorem i32_start : i32 (subst c d []).length = 0 := by
  rw [subst_nil, List.length_nil]
  exact i32_eq (by decide) (by decide)

theorem replace_fits (hfit : OffsetsFit c d s) :
    ∃ fuel, replace fuel s [c] d = some (subst c d s) := by
  obtain ⟨fuel, hloop⟩ :=
    replaceLoop_fits (a := []) hfit rfl i32_start.symm (fun h => by omega)
      (fun _ _ => rfl)
  exact ⟨fuel, hloop⟩

/-- A pass that puts in no `c` leaves one, unless its offsets fit. -/
theorem offsetsFit_of_replace (hd : c ∉ d) (h : replace fuel s [c] d = some u) (hu : c ∉ u) :
    OffsetsFit c d s ∧ u = subst c d s := by
  have hfit : OffsetsFit c d s := by
    intro a b hs
    constructor
    · intro hneg hb
      obtain ⟨k, v, hloop, hv⟩ := replaceLoop_leaves (a := []) (t := s) hd
        i32_start.symm (.inr ⟨a, b, hs, hneg, hb⟩)
      have huv : u = v := replaceLoop_unique h hloop
      rw [huv] at hu
      exact hu hv
    · intro _ hmem
      exact absurd hmem hd
  obtain ⟨k, hloop⟩ := replace_fits hfit
  exact ⟨hfit, replaceLoop_unique h hloop⟩

variable {tail : Bytes} {ms : List ℕ}

/-- What was replaced twice stays so. -/
theorem replaceLoop_over (hc : c ∉ tail) (hgrown : Grown c tail ms s w) (hms : ∃ m ∈ ms, 2 ≤ m)
    (h : replaceLoop [c] (c :: tail) fuel w off = some u) :
    ∃ ms', Grown c tail ms' s u ∧ ∃ m ∈ ms', 2 ≤ m := by
  induction fuel generalizing w ms off with
  | zero => cases h
  | succ fuel ih =>
      cases hfind : find w [c] off with
      | none =>
          rw [replaceLoop_none hfind] at h
          rw [← Option.some.inj h]
          exact ⟨ms, hgrown, hms⟩
      | some pos =>
          obtain ⟨a, b, hw, -, -, hround⟩ := round_of_find (d := c :: tail) hfind
          rw [hround] at h
          obtain ⟨before, m, behind, rfl, hmore⟩ := hgrown.grow hc hw
          refine ih hmore ?_ h
          obtain ⟨n, hn, htwo⟩ := hms
          simp only [List.mem_append, List.mem_cons] at hn
          rcases hn with hn | rfl | hn
          · exact ⟨n, by simp [hn], htwo⟩
          · exact ⟨n + 1, by simp, by omega⟩
          · exact ⟨n, by simp [hn], htwo⟩

/-- An offset that is wrong for what follows. -/
def Strays (c : UInt8) (n : ℕ) (rest : Bytes) : Prop :=
  (i32 n < 0 ∧ c ∈ rest) ∨ (0 ≤ i32 n ∧ i32 n ≠ n)

/-- From an offset that is too small the loop finds what it put in last, or something before. -/
theorem replaceLoop_again (hc : c ∉ tail) (hsmall : tail.length < 2 ^ 32)
    (hoff : off = i32 (subst c (c :: tail) (a ++ [c])).length) (h0 : 0 ≤ off)
    (hne : off ≠ (subst c (c :: tail) (a ++ [c])).length)
    (h : replaceLoop [c] (c :: tail) fuel (subst c (c :: tail) (a ++ [c]) ++ t) off = some u) :
    ∃ ms, Grown c tail ms (a ++ [c] ++ t) u ∧ ∃ m ∈ ms, 2 ≤ m := by
  set front := subst c (c :: tail) (a ++ [c]) with hfront
  have hlast : front = subst c (c :: tail) a ++ c :: tail := by
    rw [hfront, subst_append, subst_cons_self, subst_nil, List.append_nil]
  have hwhole : off + 2 ^ 32 * Int.bdiv front.length (2 ^ 32) = front.length := by
    rw [hoff]
    exact Int.bmod_add_bdiv _ _
  have hlength : front.length = (subst c (c :: tail) a).length + tail.length + 1 := by
    rw [hlast, List.length_append, List.length_cons, Nat.add_assoc]
  have hle : off.toNat ≤ (subst c (c :: tail) a).length := by
    have hlow : off ≤ front.length := by
      rw [hoff]
      exact i32_le
    rcases lt_or_ge 0 (Int.bdiv (front.length : ℤ) (2 ^ 32)) with hpos | hneg
    · omega
    · omega
  have hmem : c ∈ front.drop off.toNat := by
    rw [hlast, List.drop_append_of_le_length hle]
    exact List.mem_append_right _ List.mem_cons_self
  obtain ⟨v, rest, hcut, hv⟩ := List.eq_append_cons_of_mem hmem
  have htake : (front.take off.toNat).length = off.toNat := by
    rw [List.length_take]
    omega
  have hx : front = (front.take off.toNat ++ v) ++ c :: rest := by
    rw [List.append_assoc, ← hcut, List.take_append_drop]
  have hfind := find_behind (a := front.take off.toNat ++ v) (b := rest ++ t) (c := c) h0
    (by rw [List.length_append]; omega) (by rwa [List.drop_left' htake])
  cases fuel with
  | zero => cases h
  | succ fuel =>
      have hround := replaceLoop_found (d := c :: tail) fuel hfind
      have htext : front.take off.toNat ++ v ++ c :: (rest ++ t) = front ++ t := by
        conv_rhs => rw [hx]
        rw [List.append_assoc _ (c :: rest) t, List.cons_append]
      rw [htext, h] at hround
      obtain ⟨before, m, behind, hms, hgrown⟩ := (grown_subst c tail (a ++ [c])).grow hc hx
      have hm : m = 1 := by
        apply List.eq_of_mem_replicate (a := 1)
        rw [hms]
        exact List.mem_append_right before List.mem_cons_self
      have happend := hgrown.append (grown_self c tail t)
      rw [List.append_assoc _ rest t] at happend
      refine replaceLoop_over hc happend ⟨m + 1, ?_, by omega⟩ hround.symm
      simp

/-- A wrong offset leaves some `c` as it is, or replaces one twice. -/
theorem replaceLoop_strays (hc : c ∉ tail) (hsmall : tail.length < 2 ^ 32) (hs : s = a ++ t)
    (ha : a = [] ∨ ∃ a', a = a' ++ [c]) (hoff : off = i32 (subst c (c :: tail) a).length)
    (hbad : Strays c (subst c (c :: tail) a).length t ∨
      ∃ y z, t = y ++ c :: z ∧ Strays c (offsetBehind c (c :: tail) (a ++ y)) z)
    (h : replaceLoop [c] (c :: tail) fuel (subst c (c :: tail) a ++ t) off = some u) :
    ∃ ms, Grown c tail ms s u ∧ ∃ m ∈ ms, m ≠ 1 := by
  induction fuel generalizing a t off with
  | zero => cases h
  | succ fuel ih =>
      rcases lt_or_ge off 0 with hneg | h0
      · have hmem : c ∈ t := by
          rcases hbad with (hbad | hbad) | ⟨y, z, rfl, -⟩
          · exact hbad.2
          · omega
          · exact List.mem_append_right y List.mem_cons_self
        rw [replaceLoop_none (find_negative hneg)] at h
        rw [← Option.some.inj h, hs]
        refine ⟨_, (grown_subst c tail a).append (grown_self c tail t), 0, ?_, by omega⟩
        apply List.mem_append_right
        apply List.mem_replicate.mpr
        exact ⟨(List.count_pos_iff.mpr hmem).ne', rfl⟩
      by_cases hlen : off = (subst c (c :: tail) a).length
      · rcases hbad with (hbad | hbad) | ⟨y, z, hyz, hstray⟩
        · omega
        · exact absurd (hoff.symm.trans hlen) hbad.2
        · have hmem : c ∈ t := by
            rw [hyz]
            exact List.mem_append_right y List.mem_cons_self
          obtain ⟨b, t', rfl, hb⟩ := List.eq_append_cons_of_mem hmem
          rw [round_fresh h0 hoff (fun _ => hlen) hb] at h
          refine ih ?_ (.inr ⟨a ++ b, rfl⟩) rfl ?_ h
          · rw [hs]
            simp only [List.append_assoc, List.singleton_append]
          · have hlength := (subst_step (a := a) (d := c :: tail) (t := t') hb).2.2
            rcases cut_behind_first hb hyz with ⟨rfl, rfl⟩ | ⟨y', rfl, rfl⟩
            · rw [hlength]
              exact .inl hstray
            · refine .inr ⟨y', z, rfl, ?_⟩
              simpa only [List.append_assoc, List.singleton_append] using hstray
      · rcases ha with rfl | ⟨a', rfl⟩
        · rw [i32_start] at hoff
          exact absurd hoff hlen
        · obtain ⟨ms, hgrown, m, hm, htwo⟩ := replaceLoop_again hc hsmall hoff h0 hlen h
          rw [hs]
          exact ⟨ms, hgrown, m, hm, by omega⟩

/-- A pass that puts in what it searches for does so once for each, if its offsets fit. -/
theorem grown_of_replace (hc : c ∉ tail) (hsmall : tail.length < 2 ^ 32)
    (h : replace fuel s [c] (c :: tail) = some u) :
    (OffsetsFit c (c :: tail) s ∧ u = subst c (c :: tail) s) ∨
      ∃ ms, Grown c tail ms s u ∧ ∃ m ∈ ms, m ≠ 1 := by
  by_cases hfit : OffsetsFit c (c :: tail) s
  · obtain ⟨k, hloop⟩ := replace_fits hfit
    exact .inl ⟨hfit, replaceLoop_unique h hloop⟩
  · right
    have hbad : ∃ y z, s = y ++ c :: z ∧ Strays c (offsetBehind c (c :: tail) ([] ++ y)) z := by
      by_contra hnone
      apply hfit
      intro a b hs
      constructor
      · intro hneg hb
        exact hnone ⟨a, b, hs, .inl ⟨hneg, hb⟩⟩
      · intro h0 _
        by_contra hne
        exact hnone ⟨a, b, hs, .inr ⟨h0, hne⟩⟩
    exact replaceLoop_strays (a := []) hc hsmall rfl (.inl rfl) i32_start.symm
      (.inr hbad) h

/-- What passes whose offsets are right make. -/
def escapedBy (passes : List (UInt8 × Bytes)) (s : Bytes) : Bytes :=
  passes.foldl (fun s e => subst e.1 e.2 s) s

/-- In each pass the offsets fit, over the text that those before it make. -/
def PassesFit (passes : List (UInt8 × Bytes)) (s : Bytes) : Prop :=
  ∀ before e behind, passes = before ++ e :: behind → OffsetsFit e.1 e.2 (escapedBy before s)

variable {passes : List (UInt8 × Bytes)} {e : UInt8 × Bytes}

def runPasses (fuel : ℕ) (passes : List (UInt8 × Bytes)) (s : Bytes) : Option Bytes :=
  passes.foldlM (fun s e => replace fuel s [e.1] e.2) s

theorem runPasses_cons : runPasses fuel (e :: passes) s = some text ↔
    ∃ t, replace fuel s [e.1] e.2 = some t ∧ runPasses fuel passes t = some text := by
  rw [runPasses, List.foldlM_cons]
  exact Option.bind_eq_some_iff

theorem passesFit_cons :
    PassesFit (e :: passes) s ↔ OffsetsFit e.1 e.2 s ∧ PassesFit passes (subst e.1 e.2 s) := by
  constructor
  · intro h
    constructor
    · exact h [] e passes rfl
    · intro before e' behind hpasses
      exact h (e :: before) e' behind (by rw [hpasses]; rfl)
  · rintro ⟨he, h⟩ before e' behind hpasses
    cases before with
    | nil =>
        obtain ⟨rfl, -⟩ := List.cons.inj hpasses
        exact he
    | cons e'' before =>
        obtain ⟨rfl, hrest⟩ := List.cons.inj hpasses
        exact h before e' behind hrest

theorem replace_mono (h : replace fuel s [x] w = some u) (k : ℕ) :
    replace (fuel + k) s [x] w = some u := replaceLoop_mono h k

theorem runPasses_mono (h : runPasses fuel passes s = some u) (k : ℕ) :
    runPasses (fuel + k) passes s = some u := by
  induction passes generalizing s with
  | nil => exact h
  | cons e passes ih =>
      obtain ⟨t, ht, h⟩ := runPasses_cons.mp h
      exact runPasses_cons.mpr ⟨t, replace_mono ht k, ih h⟩

/-- Passes whose offsets fit come to an end, and substitute. -/
theorem runPasses_fits (h : PassesFit passes s) :
    ∃ fuel, runPasses fuel passes s = some (escapedBy passes s) := by
  induction passes generalizing s with
  | nil => exact ⟨0, rfl⟩
  | cons e passes ih =>
      obtain ⟨he, h⟩ := passesFit_cons.mp h
      obtain ⟨k, hk⟩ := replace_fits he
      obtain ⟨l, hl⟩ := ih h
      use k + l
      apply runPasses_cons.mpr
      refine ⟨_, replace_mono hk l, ?_⟩
      rw [Nat.add_comm]
      exact runPasses_mono hl k

theorem mem_of_runPasses (hx : ∀ e ∈ passes, x ≠ e.1) (hmem : x ∈ s)
    (h : runPasses fuel passes s = some u) : x ∈ u := by
  induction passes generalizing s with
  | nil =>
      rw [← Option.some.inj h]
      exact hmem
  | cons e passes ih =>
      obtain ⟨t, ht, h⟩ := runPasses_cons.mp h
      have hmem' : x ∈ t := mem_of_replaceLoop (hx e List.mem_cons_self) hmem ht
      exact ih (fun e' he' => hx e' (List.mem_cons_of_mem e he')) hmem' h

/-- If no byte that was to be replaced is left, the offsets have fitted. -/
theorem passesFit_of_runPasses (hself : ∀ e ∈ passes, e.1 ∉ e.2)
    (hdistinct : (passes.map Prod.fst).Nodup) (h : runPasses fuel passes s = some u)
    (hu : ∀ e ∈ passes, e.1 ∉ u) : PassesFit passes s ∧ u = escapedBy passes s := by
  induction passes generalizing s with
  | nil =>
      constructor
      · intro before e behind hnil
        simp at hnil
      · exact (Option.some.inj h).symm
  | cons e passes ih =>
      obtain ⟨t, ht, h⟩ := runPasses_cons.mp h
      obtain ⟨hnot, hdistinct⟩ := List.nodup_cons.mp hdistinct
      have het : e.1 ∉ t := by
        intro hmem
        refine hu e List.mem_cons_self (mem_of_runPasses ?_ hmem h)
        rintro e' he' heq
        rw [heq] at hnot
        exact hnot (List.mem_map_of_mem he')
      obtain ⟨hfit, rfl⟩ := offsetsFit_of_replace (hself e List.mem_cons_self) ht het
      obtain ⟨hrest, hu'⟩ := ih (fun e' he' => hself e' (List.mem_cons_of_mem e he')) hdistinct h
        (fun e' he' => hu e' (List.mem_cons_of_mem e he'))
      exact ⟨passesFit_cons.mpr ⟨hfit, hrest⟩, hu'⟩

/-- Nothing is put in: the offsets stay below the length. -/
theorem offsetsFit_empty (h : s.length < 2 ^ 31) : OffsetsFit c [] s := by
  intro a b hs
  have hle : offsetBehind c [] a ≤ a.length := by
    rw [offsetBehind, subst_empty]
    exact List.length_filter_le _ a
  have hlt : a.length < s.length := by
    rw [hs, List.length_append, List.length_cons]
    omega
  constructor
  · rw [i32_eq (by omega) (by omega)]
    omega
  · exact fun _ hmem => absurd hmem List.not_mem_nil

/-- Passes that remove a byte each. -/
theorem passes_remove (cs : Bytes) (h : s.length < 2 ^ 31) :
    ∃ fuel, runPasses fuel (cs.map (·, [])) s = some (s.filter (· ∉ cs)) := by
  have hpasses : PassesFit (cs.map (·, [])) s ∧
      escapedBy (cs.map (·, [])) s = s.filter (· ∉ cs) := by
    induction cs generalizing s with
    | nil =>
        constructor
        · intro before e behind hnil
          simp at hnil
        · simp [escapedBy]
    | cons c cs ih =>
        have hshort : (subst c [] s).length < 2 ^ 31 := by
          rw [subst_empty]
          exact (List.length_filter_le _ s).trans_lt h
        obtain ⟨hfit, hescaped⟩ := ih hshort
        constructor
        · exact passesFit_cons.mpr ⟨offsetsFit_empty h, hfit⟩
        · have hboth : (s.filter (· ≠ c)).filter (· ∉ cs) = s.filter (· ∉ c :: cs) := by
            rw [List.filter_filter]
            apply List.filter_congr
            intro x _
            simp [Bool.and_comm]
          rw [← hboth, ← subst_empty, ← hescaped]
          rfl
  obtain ⟨hfit, hescaped⟩ := hpasses
  rw [← hescaped]
  exact runPasses_fits hfit

end CoreLooper.StringTool
