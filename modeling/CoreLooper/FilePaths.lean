import CoreLooper.PairCollapse
import CoreLooper.StringTool

/-!
# `File::PathMakePretty` and `File::ConcatPath`

Both make two slashes one in a single pass. `PathMakePretty` rewrites the C string where it stands,
`ConcatPath` goes through `Replace`.
-/
namespace CoreLooper.File

open CStrings StringTool

def maxPath : ℕ := 266

/-- The second loop of `PathMakePretty`, with so many bytes left before `nLen`. -/
def collapseLoop : ℕ → ℕ → ℕ → Bytes → Bytes
  | 0, _, nDst, szFile => szFile.set nDst 0
  | n + 1, nSrc, nDst, szFile =>
      let c := szFile.getD nSrc 0
      if c = 47 ∧ szFile.getD (nSrc + 1) 0 = 47 then
        collapseLoop (n - 1) (nSrc + 2) (nDst + 1) (szFile.set nDst c)
      else collapseLoop n (nSrc + 1) (nDst + 1) (szFile.set nDst c)
  termination_by n => n

/-- What the first loop does to a byte. -/
def slash (c : UInt8) : UInt8 := if c = 92 then 47 else c

/-- `PathMakePretty` of the C string at the start of some memory. -/
def pathMakePretty (szFile : Bytes) : Bytes :=
  let len := i32 (cstr szFile).length
  let szFile := (szFile.take len.toNat).map slash ++ szFile.drop len.toNat
  let nLen := i32 (cstr szFile).length
  collapseLoop nLen.toNat 0 0 szFile

/-- `PathMakePretty` of a `string`, by way of a buffer. -/
def pathMakePrettyString (filePath : Bytes) : Bytes :=
  let copied := (cstr filePath).take (maxPath - 1)
  cstr (pathMakePretty (copied ++ List.replicate (maxPath - copied.length) 0))

/-- What `ConcatPath` has before the pass. -/
def joined (psz1 psz2 : Bytes) : Bytes := cstr psz1 ++ ascii "/" ++ cstr psz2

def concatPath (fuel : ℕ) (psz1 psz2 : Bytes) : Option Bytes :=
  replace fuel (joined psz1 psz2) (ascii "//") (ascii "/")

variable {c : UInt8} {a b r s t u v w x y : Bytes} {off : ℤ} {d fuel n : ℕ}

theorem getD_behind (h : v.drop d = s) : (u ++ v).getD (u.length + d) 0 = s.headD 0 := by
  rw [List.getD_eq_getElem?_getD, List.getElem?_append_right (by omega), Nat.add_sub_cancel_left,
    ← List.head?_drop, h, List.headD_eq_head?_getD]

theorem set_behind (hv : v ≠ []) : (u ++ v).set u.length c = u ++ c :: v.tail := by
  obtain ⟨e, v, rfl⟩ := List.exists_cons_of_ne_nil hv
  rw [List.set_append_right _ _ le_rfl, Nat.sub_self]
  rfl

/-- What is read has not been written over: it stands `d` bytes further on. -/
theorem collapseLoop_eq (hw : w.length = n) (hx : x ≠ []) (hv : v.drop d = w ++ x) :
    ∃ y, collapseLoop n (u.length + d) u.length (u ++ v) = u ++ collapse 47 w ++ 0 :: y := by
  induction n using Nat.strong_induction_on generalizing u v w d with
  | _ n ih =>
      have hne : v ≠ [] := by
        rintro rfl
        rw [List.drop_nil] at hv
        exact hx (List.append_eq_nil_iff.mp hv.symm).2
      cases w with
      | nil =>
          subst hw
          rw [List.length_nil, collapseLoop, set_behind hne, collapse_nil, List.append_nil]
          exact ⟨_, rfl⟩
      | cons c w =>
          subst hw
          have hread : (u ++ v).getD (u.length + d) 0 = c := by rw [getD_behind hv]; rfl
          have hnext : (u ++ v).getD (u.length + d + 1) 0 = (w ++ x).headD 0 := by
            rw [Nat.add_assoc]
            apply getD_behind
            rw [← List.drop_drop, hv]
            rfl
          have htail : ∀ k, v.tail.drop (d + k) = (w ++ x).drop k := by
            intro k
            have hk : 1 + (d + k) = d + (1 + k) := by omega
            rw [← List.drop_one, List.drop_drop, hk, ← List.drop_drop, hv, ← List.drop_drop]
            rfl
          have hset : (u ++ v).set u.length c = (u ++ [c]) ++ v.tail := by
            rw [set_behind hne, List.append_assoc]
            rfl
          have hlength : (u ++ [c]).length = u.length + 1 := List.length_append
          rw [List.length_cons, collapseLoop]
          simp only [hread, hnext, hset]
          split_ifs with hpair
          · obtain ⟨rfl, hpair⟩ := hpair
            cases w with
            | nil =>
                have hne' : v.tail ≠ [] := by
                  intro hnil
                  have hdrop := htail 0
                  rw [hnil, List.drop_nil] at hdrop
                  exact hx hdrop.symm
                rw [← hlength, List.length_nil, Nat.zero_sub, collapseLoop, set_behind hne']
                exact ⟨_, rfl⟩
            | cons z w =>
                obtain rfl : z = 47 := hpair
                obtain ⟨y, hy⟩ := ih w.length (by simp only [List.length_cons]; omega)
                  (u := u ++ [47]) (v := v.tail) (w := w) (d := d + 1) rfl (htail 1)
                have hplace : u.length + 1 + (d + 1) = u.length + d + 2 := by omega
                rw [hlength, hplace] at hy
                rw [List.length_cons, Nat.add_sub_cancel, hy, collapse_pair]
                exact ⟨y, by simp⟩
          · obtain ⟨y, hy⟩ := ih w.length (Nat.lt_succ_self _) (u := u ++ [c]) (v := v.tail)
              (w := w) (d := d) rfl (htail 0)
            have hsingle : ¬ (c = 47 ∧ w.head? = some 47) := by
              rintro ⟨hc, hhead⟩
              apply hpair
              refine ⟨hc, ?_⟩
              rw [List.headD_eq_head?_getD, List.head?_append, hhead]
              rfl
            rw [hlength, Nat.add_right_comm] at hy
            rw [hy, collapse_cons hsingle]
            exact ⟨y, by simp⟩

theorem slash_ne (c : UInt8) : slash c ≠ 92 := by
  unfold slash
  split_ifs with h
  · decide
  · exact h

theorem slash_eq_zero (c : UInt8) : slash c = 0 ↔ c = 0 := by
  unfold slash
  split_ifs with h
  · rw [h]
    decide
  · rfl

/-- The bytes that `int` counts, with slashes only. -/
def counted (s : Bytes) : Bytes := (s.take (i32 s.length).toNat).map slash

theorem length_counted (s : Bytes) : (counted s).length = (i32 s.length).toNat := by
  have hle : i32 s.length ≤ s.length := i32_le
  rw [counted, List.length_map, List.length_take]
  omega

theorem zero_not_mem_counted (hs : 0 ∉ s) : 0 ∉ counted s := by
  intro hmem
  obtain ⟨c, hc, hzero⟩ := List.mem_map.mp hmem
  rw [(slash_eq_zero c).mp hzero] at hc
  exact hs (List.mem_of_mem_take hc)

theorem pathMakePretty_eq (hs : 0 ∉ s) (rest : Bytes) :
    ∃ y, pathMakePretty (s ++ 0 :: rest) = collapse 47 (counted s) ++ 0 :: y := by
  have hle : i32 s.length ≤ s.length := i32_le
  have hfirst : ((s ++ 0 :: rest).take (i32 s.length).toNat).map slash ++
      (s ++ 0 :: rest).drop (i32 s.length).toNat =
      counted s ++ (s.drop (i32 s.length).toNat ++ 0 :: rest) := by
    rw [List.take_append_of_le_length (by omega), List.drop_append_of_le_length (by omega), counted]
  have hagain : (cstr (counted s ++ (s.drop (i32 s.length).toNat ++ 0 :: rest))).length =
      s.length := by
    rw [cstr_append (zero_not_mem_counted hs),
      cstr_append fun hmem => hs (List.mem_of_mem_drop hmem), List.length_append, length_counted]
    have hnil : cstr (0 :: rest) = [] := rfl
    rw [hnil, List.append_nil, List.length_drop]
    omega
  obtain ⟨y, hy⟩ := collapseLoop_eq (u := []) (d := 0) (w := counted s)
    (x := s.drop (i32 s.length).toNat ++ 0 :: rest) (length_counted s) (by simp) rfl
  rw [List.length_nil, Nat.add_zero, List.nil_append, List.nil_append] at hy
  refine ⟨y, ?_⟩
  rw [pathMakePretty, cstr_terminated hs, ← hy]
  simp only [hfirst, hagain]

/-- The C string that is left. -/
theorem cstr_pathMakePretty (hs : 0 ∉ s) (rest : Bytes) :
    cstr (pathMakePretty (s ++ 0 :: rest)) = collapse 47 (counted s) := by
  obtain ⟨y, hy⟩ := pathMakePretty_eq hs rest
  have hnull : 0 ∉ collapse 47 (counted s) := fun hmem =>
    zero_not_mem_counted hs (mem_of_mem_collapse hmem)
  rw [hy, cstr_terminated hnull]

theorem backslash_not_mem (s : Bytes) : 92 ∉ collapse 47 (counted s) := by
  intro hmem
  obtain ⟨c, -, hc⟩ := List.mem_map.mp (mem_of_mem_collapse hmem)
  exact slash_ne c hc

/-- What is short and has nothing to collapse is left as it is. -/
theorem collapse_counted_self (hs : s.length < 2 ^ 31) (hback : 92 ∉ s) (hpair : ¬ HasPair 47 s) :
    collapse 47 (counted s) = s := by
  have hlength : (i32 s.length).toNat = s.length := by
    rw [i32_eq (by omega) (by omega), Int.toNat_natCast]
  have hslash : s.map slash = s := by
    conv_rhs => rw [← List.map_id s]
    apply List.map_congr_left
    intro c hc
    rw [slash, if_neg]
    · rfl
    · rintro rfl
      exact hback hc
  rw [counted, hlength, List.take_length, hslash, collapse_of_not_hasPair hpair]

/-- No backslash, no two slashes side by side, and nothing more to do the next time. -/
def Pretty (szFile : Bytes) : Prop :=
  let result := cstr (pathMakePretty szFile)
  92 ∉ result ∧ ¬ HasPair 47 result ∧ cstr (pathMakePretty (pathMakePretty szFile)) = result

def PrettyString (filePath : Bytes) : Prop :=
  let result := pathMakePrettyString filePath
  92 ∉ result ∧ ¬ HasPair 47 result ∧ pathMakePrettyString result = result

theorem length_collapse_counted (s : Bytes) : (collapse 47 (counted s)).length < 2 ^ 31 := by
  have hle := length_collapse_le 47 (counted s)
  rw [length_counted] at hle
  have := (i32_bounds s.length).2
  omega

theorem pretty_iff (hs : 0 ∉ s) (rest : Bytes) :
    Pretty (s ++ 0 :: rest) ↔ ¬ HasTriple 47 (counted s) := by
  rw [Pretty, ← hasPair_collapse, cstr_pathMakePretty hs]
  constructor
  · rintro ⟨-, hpair, -⟩
    exact hpair
  · intro hpair
    refine ⟨backslash_not_mem s, hpair, ?_⟩
    obtain ⟨y, hy⟩ := pathMakePretty_eq hs rest
    have hnull : 0 ∉ collapse 47 (counted s) := fun hmem =>
      zero_not_mem_counted hs (mem_of_mem_collapse hmem)
    rw [hy, cstr_pathMakePretty hnull]
    exact collapse_counted_self (length_collapse_counted s) (backslash_not_mem s) hpair

/-- What the buffer takes of a path. -/
def copied (filePath : Bytes) : Bytes := (cstr filePath).take (maxPath - 1)

theorem length_copied (filePath : Bytes) : (copied filePath).length < maxPath := by
  rw [copied, List.length_take, maxPath]
  omega

theorem zero_not_mem_copied (filePath : Bytes) : 0 ∉ copied filePath := fun hmem =>
  cstr_not_mem filePath (List.mem_of_mem_take hmem)

theorem pathMakePrettyString_eq (filePath : Bytes) :
    pathMakePrettyString filePath = collapse 47 (counted (copied filePath)) := by
  obtain ⟨k, hk⟩ := Nat.exists_eq_add_of_lt (length_copied filePath)
  have hzeros : maxPath - (copied filePath).length = k + 1 := by omega
  rw [pathMakePrettyString]
  simp only [← copied.eq_1, hzeros, List.replicate_succ]
  exact cstr_pathMakePretty (zero_not_mem_copied filePath) _

theorem prettyString_iff (filePath : Bytes) :
    PrettyString filePath ↔ ¬ HasTriple 47 ((copied filePath).map slash) := by
  have hcounted : counted (copied filePath) = (copied filePath).map slash := by
    have hlength := length_copied filePath
    have hsmall : maxPath < 2 ^ 31 := by decide
    rw [counted, i32_eq (by omega) (by omega), Int.toNat_natCast, List.take_length]
  rw [PrettyString, ← hcounted, ← hasPair_collapse, pathMakePrettyString_eq]
  constructor
  · rintro ⟨-, hpair, -⟩
    exact hpair
  · intro hpair
    refine ⟨backslash_not_mem _, hpair, ?_⟩
    have hnull : 0 ∉ collapse 47 (counted (copied filePath)) := fun hmem =>
      zero_not_mem_counted (zero_not_mem_copied filePath) (mem_of_mem_collapse hmem)
    have hshort : (collapse 47 (counted (copied filePath))).length ≤ maxPath - 1 := by
      have hle := length_collapse_le 47 (counted (copied filePath))
      have hlength := length_copied filePath
      rw [hcounted, List.length_map, ← hcounted] at hle
      omega
    rw [pathMakePrettyString_eq]
    have hagain : copied (collapse 47 (counted (copied filePath))) =
        collapse 47 (counted (copied filePath)) := by
      rw [copied, cstr_eq_self hnull, List.take_of_length_le hshort]
    rw [hagain]
    exact collapse_counted_self (length_collapse_counted _) (backslash_not_mem _) hpair

theorem find_pair_none (h : off < 0 ∨ ¬ HasPair c (t.drop off.toNat)) :
    find t [c, c] off = none := by
  unfold find
  split_ifs with hoff
  · rcases h with h | h
    · omega
    · cases hi : strstr (t.drop off.toNat) [c, c] with
      | none => rfl
      | some i =>
          refine absurd ?_ h
          exact (strstr_found hi).isInfix.trans (List.drop_suffix i _).isInfix
  · rfl

theorem strstr_pair (hb : ¬ HasPair c (b ++ [c])) :
    strstr (b ++ c :: c :: t) [c, c] = some b.length := by
  induction b with
  | nil => exact strstr_here ⟨t, rfl⟩
  | cons x b ih =>
      rw [List.cons_append, hasPair_cons, not_or] at hb
      have hhead : (b ++ c :: c :: t).head? = (b ++ [c]).head? := by cases b <;> rfl
      rw [List.cons_append, strstr_next, ih hb.2]
      · rfl
      · rw [begins_pair, hhead]
        exact hb.1

theorem find_pair (h : 0 ≤ off) (hle : off ≤ a.length)
    (ha : ¬ HasPair c ((a ++ [c]).drop off.toNat)) :
    find (a ++ c :: c :: b) [c, c] off = some a.length := by
  have hlength : off ≤ (a ++ c :: c :: b).length := by
    rw [List.length_append]
    omega
  have hdrop : (a ++ c :: c :: b).drop off.toNat = a.drop off.toNat ++ c :: c :: b :=
    List.drop_append_of_le_length (by omega)
  rw [List.drop_append_of_le_length (by omega)] at ha
  rw [find, if_pos ⟨h, hlength⟩, hdrop, strstr_pair ha, Option.map_some, List.length_drop]
  congr 1
  omega

/-- One round: the pair found becomes one. -/
theorem replaceLoop_pair (h : 0 ≤ off) (hle : off ≤ a.length)
    (ha : ¬ HasPair c ((a ++ [c]).drop off.toNat)) (fuel : ℕ) :
    replaceLoop [c, c] [c] (fuel + 1) (a ++ c :: c :: b) off =
      replaceLoop [c, c] [c] fuel (a ++ [c] ++ b) (i32 (a.length + 1 : ℕ)) := by
  have hdrop : (a ++ c :: c :: b).drop (a.length + 2) = b := by
    rw [← List.drop_drop, List.drop_left]
    rfl
  rw [replaceLoop, find_pair h hle ha]
  simp only [List.length_cons, List.length_nil, Nat.zero_add, Nat.reduceAdd]
  rw [List.take_left, hdrop]

theorem replaceLoop_stops (h : off < 0 ∨ ¬ HasPair c (t.drop off.toNat)) :
    replaceLoop [c, c] [c] (fuel + 1) t off = some t := by
  rw [replaceLoop, find_pair_none h]

/-- In every run, what stands between the separators stays. -/
theorem components_replaceLoop (h : replaceLoop [c, c] [c] fuel t off = some r) :
    components c r = components c t := by
  induction fuel generalizing t off with
  | zero => cases h
  | succ fuel ih =>
      rw [replaceLoop] at h
      cases hfind : find t [c, c] off with
      | none =>
          rw [hfind] at h
          rw [← Option.some.inj h]
      | some pos =>
          rw [hfind] at h
          obtain ⟨-, -, y, hy⟩ := find_found hfind
          have hbehind : t.drop (pos + [c, c].length) = y := by
            rw [← List.drop_drop, ← hy, List.drop_left]
          rw [ih h, hbehind, List.append_assoc]
          conv_rhs => rw [← List.take_append_drop pos t, ← hy]
          exact (components_pair _ y).symm

/-- Behind `n` bytes, the offset is no negative number where another pair follows. -/
def PairOffsetsFit (c : UInt8) (n : ℕ) (t : Bytes) : Prop :=
  ∀ a b, t = a ++ c :: c :: b → HasPair c b → 0 ≤ i32 (n + ((collapse c a).length + 1) : ℕ)

theorem PairOffsetsFit.behind (h : PairOffsetsFit c n (b ++ c :: c :: t))
    (hb : ¬ HasPair c (b ++ [c])) : PairOffsetsFit c (n + (b.length + 1)) t := by
  intro a s ht hs
  have hfit := h (b ++ c :: c :: a) s (by rw [ht]; simp) hs
  rw [collapse_first hb, List.length_append, List.length_cons] at hfit
  have hsum : n + (b.length + 1) + ((collapse c a).length + 1) =
      n + (b.length + ((collapse c a).length + 1) + 1) := by omega
  rwa [hsum]

theorem PairOffsetsFit.first (h : PairOffsetsFit c n (b ++ c :: c :: t))
    (hb : ¬ HasPair c (b ++ [c])) (ht : HasPair c t) : 0 ≤ i32 (n + (b.length + 1) : ℕ) := by
  have hfit := h b t rfl ht
  rwa [collapse_of_not_hasPair fun hpair => hb (hpair.append_right [c])] at hfit

/-- With offsets that fit, and no run of three, each pair is met once. -/
theorem replaceLoop_collapses (hu : ¬ HasPair c u) (hmeet : u.getLast? = some c → t.head? ≠ some c)
    (htriple : ¬ HasTriple c t) (hfit : PairOffsetsFit c u.length t) (hoff : off = i32 u.length)
    (hnegative : off < 0 → ¬ HasPair c t) :
    ∃ fuel, replaceLoop [c, c] [c] fuel (u ++ t) off = some (u ++ collapse c t) := by
  induction hn : t.length using Nat.strong_induction_on generalizing u t off with
  | _ n ih =>
      by_cases hpair : HasPair c t
      · have h0 : 0 ≤ off := by
          by_contra hneg
          exact hnegative (by omega) hpair
        have hle : off ≤ u.length := by
          rw [hoff]
          exact i32_le
        obtain ⟨b, t, rfl, hb⟩ := hpair.first
        have hwhole : ¬ HasPair c (u ++ b ++ [c]) := by
          have hhead : (b ++ c :: c :: t).head? = (b ++ [c]).head? := by cases b <;> rfl
          rw [hhead] at hmeet
          rw [List.append_assoc, hasPair_append, not_or, not_or]
          exact ⟨hu, fun hboth => hmeet hboth.1 hboth.2, hb⟩
        have hround := replaceLoop_pair (a := u ++ b) (b := t) h0
          (by rw [List.length_append]; omega)
          (fun hdrop => hwhole (hdrop.trans (List.drop_suffix _ _).isInfix))
        have hlast : t.head? ≠ some c := by
          intro hhead
          obtain ⟨s, rfl⟩ := List.head?_eq_some_iff.mp hhead
          exact htriple ⟨b, s, by simp⟩
        have hlength : (u ++ b ++ [c]).length = u.length + (b.length + 1) := by simp
        have hshorter : t.length < n := by
          rw [← hn, List.length_append, List.length_cons, List.length_cons]
          omega
        have hplace : (u ++ b).length + 1 = u.length + (b.length + 1) := by simp [Nat.add_assoc]
        obtain ⟨fuel, hloop⟩ := ih t.length hshorter (u := u ++ b ++ [c]) hwhole
          (fun _ => hlast) (fun h => htriple (h.trans ⟨b ++ [c, c], [], by simp⟩))
          (by rw [hlength]; exact hfit.behind hb) (by rw [hlength])
          (fun hneg ht => absurd (hfit.first hb ht) (by omega)) rfl
        use fuel + 1
        rw [← List.append_assoc, hround, hplace, hloop, collapse_first hb]
        simp
      · use 1
        have hwhole : ¬ HasPair c (u ++ t) := by
          rw [hasPair_append, not_or, not_or]
          exact ⟨hu, fun hboth => hmeet hboth.1 hboth.2, hpair⟩
        rw [replaceLoop_stops (.inr fun hdrop =>
          hwhole (hdrop.trans (List.drop_suffix _ _).isInfix)), collapse_of_not_hasPair hpair]

/-- Either the offsets fitted, or some pair is left. -/
theorem replaceLoop_leaves_pair (hlength : u.length + t.length < 2 ^ 32) (hoff : off = i32 u.length)
    (h : replaceLoop [c, c] [c] fuel (u ++ t) off = some r) :
    (¬ HasTriple c t ∧ PairOffsetsFit c u.length t ∧ r = u ++ collapse c t) ∨ HasPair c r := by
  induction fuel generalizing u t off with
  | zero => cases h
  | succ fuel ih =>
      have hexact : 0 ≤ off → off.toNat = u.length := by
        intro h0
        rw [hoff, i32, Int.bmod_def] at h0 ⊢
        split_ifs at h0 ⊢ <;> omega
      by_cases hpair : HasPair c t
      · rcases lt_or_ge off 0 with hneg | h0
        · rw [replaceLoop_stops (.inl hneg)] at h
          rw [← Option.some.inj h]
          exact .inr (hpair.append_left u)
        · obtain ⟨b, t, rfl, hb⟩ := hpair.first
          have hdrop : (u ++ b ++ [c]).drop off.toNat = b ++ [c] := by
            rw [hexact h0, List.append_assoc, List.drop_left]
          have hbehind : off ≤ (u ++ b).length := by
            have := hexact h0
            rw [List.length_append]
            omega
          have hround := replaceLoop_pair (b := t) h0 hbehind (by rwa [hdrop]) fuel
          have hplace : (u ++ b ++ [c]).length = u.length + (b.length + 1) := by simp
          have hnext : (u ++ b).length + 1 = u.length + (b.length + 1) := by simp [Nat.add_assoc]
          rw [← List.append_assoc, hround, hnext] at h
          rcases ih (by simp at hlength ⊢; omega) (by rw [hplace]) h with ⟨-, hfit, hr⟩ | hleft
          · have hwhole : r = u ++ collapse c (b ++ c :: c :: t) := by
              rw [hr, collapse_first hb]
              simp
            by_cases hleft : HasPair c r
            · exact .inr hleft
            · left
              have htriple : ¬ HasTriple c (b ++ c :: c :: t) := by
                rw [← hasPair_collapse]
                intro hcollapsed
                rw [hwhole] at hleft
                exact hleft (hcollapsed.append_left u)
              refine ⟨htriple, ?_, hwhole⟩
              intro a s hcut hs
              rcases cut_pair hb hcut with ⟨rfl, rfl⟩ | ⟨-, rfl⟩ | ⟨a, rfl, rfl⟩
              · -- with a negative offset the loop would have stopped
                rw [collapse_of_not_hasPair fun h => hb (h.append_right [c])]
                by_contra hneg
                cases fuel with
                | zero => cases h
                | succ fuel =>
                    rw [replaceLoop_stops (.inl (by omega))] at h
                    apply hleft
                    rw [← Option.some.inj h]
                    exact hs.append_left _
              · exact absurd ⟨b, s, by simp⟩ htriple
              · have hlater := hfit a s rfl hs
                rw [hplace] at hlater
                rw [collapse_first hb, List.length_append, List.length_cons]
                have hsum : u.length + (b.length + ((collapse c a).length + 1) + 1) =
                    u.length + (b.length + 1) + ((collapse c a).length + 1) := by omega
                rwa [hsum]
          · exact .inr hleft
      · left
        have hstop : off < 0 ∨ ¬ HasPair c ((u ++ t).drop off.toNat) := by
          rcases lt_or_ge off 0 with hneg | h0
          · exact .inl hneg
          · rw [hexact h0, List.drop_left]
            exact .inr hpair
        rw [replaceLoop_stops hstop] at h
        refine ⟨fun h => hpair (.of_triple h), ?_, ?_⟩
        · intro a b ht _
          exact absurd ⟨a, b, by rw [ht]; simp⟩ hpair
        · rw [← Option.some.inj h, collapse_of_not_hasPair hpair]

/-- The pass ends, no two slashes are left side by side, and the components are those of the first
path and then those of the second. -/
def Concats (psz1 psz2 : Bytes) : Prop :=
  ∃ fuel result, concatPath fuel psz1 psz2 = some result ∧ ¬ HasPair 47 result ∧
    components 47 result = components 47 (cstr psz1) ++ components 47 (cstr psz2)

/-- There is no run of three slashes, and no offset is a negative number where another pair
follows. -/
def JoinFits (psz1 psz2 : Bytes) : Prop :=
  ¬ HasTriple 47 (joined psz1 psz2) ∧ PairOffsetsFit 47 0 (joined psz1 psz2)

variable {psz1 psz2 : Bytes}

theorem concats_of_fits (h : JoinFits psz1 psz2) : Concats psz1 psz2 := by
  obtain ⟨fuel, hloop⟩ := replaceLoop_collapses (u := []) not_hasPair_nil (by simp) h.1 h.2
    (rfl : (0 : ℤ) = i32 ([] : Bytes).length) (by simp)
  rw [List.nil_append] at hloop
  refine ⟨fuel, _, hloop, ?_, ?_⟩
  · rw [List.nil_append, hasPair_collapse]
    exact h.1
  · rw [components_replaceLoop hloop]
    exact (congrArg (components 47) (List.append_assoc ..)).trans (components_append _ _)

theorem fits_of_concats (hshort : (joined psz1 psz2).length < 2 ^ 32) (h : Concats psz1 psz2) :
    JoinFits psz1 psz2 := by
  obtain ⟨fuel, result, hloop, hpair, -⟩ := h
  rcases replaceLoop_leaves_pair (u := []) (by rwa [List.length_nil, Nat.zero_add]) rfl
    hloop with hfits | hleft
  · exact ⟨hfits.1, hfits.2.1⟩
  · exact absurd hleft hpair

/-- Exactly where no three separators stand side by side, one pass is enough. Behind 4 GiB of
`ConcatPath` only that it is enough there. -/
theorem paths_normal_iff (szFile filePath psz1 psz2 : Bytes) (hnull : 0 ∈ szFile) :
    (Pretty szFile ↔ ¬ HasTriple 47 (counted (cstr szFile))) ∧
      (PrettyString filePath ↔ ¬ HasTriple 47 ((copied filePath).map slash)) ∧
      (JoinFits psz1 psz2 → Concats psz1 psz2) ∧
      ((joined psz1 psz2).length < 2 ^ 32 → Concats psz1 psz2 → JoinFits psz1 psz2) := by
  obtain ⟨s, rest, rfl, hs⟩ := List.eq_append_cons_of_mem hnull
  rw [cstr_terminated hs]
  exact ⟨pretty_iff hs rest, prettyString_iff filePath, concats_of_fits, fits_of_concats⟩

theorem paths_normal_iff_short :
    (Pretty (ascii "a\\/b" ++ [0]) ↔ ¬ HasTriple 47 (counted (cstr (ascii "a\\/b" ++ [0])))) ∧
      (Concats (ascii "a/" ++ [0]) (ascii "b" ++ [0]) → JoinFits (ascii "a/" ++ [0])
        (ascii "b" ++ [0])) := by
  have hiff := paths_normal_iff (ascii "a\\/b" ++ [0]) [] (ascii "a/" ++ [0]) (ascii "b" ++ [0])
    (by decide)
  exact ⟨hiff.1, hiff.2.2.2 (by decide)⟩

/-- Of three separators two are left. -/
theorem three_leave_two : ¬ Pretty (ascii "a///b" ++ [0]) ∧ ¬ PrettyString (ascii "a\\//b") ∧
    ¬ Concats (ascii "a/" ++ [0]) (ascii "/b" ++ [0]) := by
  refine ⟨?_, ?_, ?_⟩
  · rw [pretty_iff (by decide)]
    decide
  · rw [prettyString_iff]
    decide
  · intro h
    exact absurd (fits_of_concats (by decide) h).1 (by decide)

end CoreLooper.File
