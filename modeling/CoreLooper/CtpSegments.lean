import CoreLooper.CtpSafety

/-!
# How a stream is cut into pieces

`findHeader` reads the length of a body from a text that is not cut where the header ends. With
the text cut there, a frame is `Stable`: what follows it has no influence on it, and then the
frames do not depend on how the stream arrives. The two agree unless the value is blank and a
number follows the header.
-/
namespace CoreLooper.CTP

open CStrings Framing

/-- The text of the length field, up to the end of the header. -/
def lengthValue (pszKey psz : Bytes) (pszHeaderTail : ℕ) : Option Bytes :=
  match strcasestr psz pszKey with
  | none => none
  | some p =>
      if p < pszHeaderTail then some ((psz.take pszHeaderTail).drop (p + pszKey.length)) else none

/-- The header at the start of `psz`, with the length read from the header alone. -/
def cutHeader (pszKey psz : Bytes) : Option Header :=
  match strstr psz (CRLF ++ CRLF) with
  | none => none
  | some tail =>
      some ⟨tail + 4, match lengthValue pszKey psz tail with
        | none => 0
        | some v => atoi v⟩

/-- The key starts a line and does not start inside itself. -/
def IsKey (pszKey : Bytes) : Prop := ∃ n, pszKey.map toLower = 13 :: n ∧ 13 ∉ n

section Cut
variable {pszKey psz y u w t : Bytes} {tail : ℕ} {h : Header}

/-- A field name that starts before the end of the header ends before it. -/
theorem key_before (hkey : IsKey pszKey) (htail : strstr psz (CRLF ++ CRLF) = some tail) {p : ℕ}
    (hp : strcasestr psz pszKey = some p) (hlt : p < tail) : p + pszKey.length ≤ tail := by
  obtain ⟨n, hn, h13⟩ := hkey
  have hget : (psz.map toLower)[tail]? = some 13 := by
    obtain ⟨z, hz⟩ := strstr_found htail
    have : psz[tail]? = some 13 := by
      have h0 : (psz.drop tail)[0]? = some 13 := by rw [← hz]; rfl
      rwa [List.getElem?_drop, Nat.add_zero] at h0
    rw [List.getElem?_map, this]
    rfl
  have hocc := strstr_found hp
  rw [hn] at hocc
  have := occurrence_before hocc h13 hlt hget
  rwa [← hn, List.length_map] at this

theorem lengthValue_append (hkey : IsKey pszKey) (htail : strstr psz (CRLF ++ CRLF) = some tail)
    (y : Bytes) : lengthValue pszKey (psz ++ y) tail = lengthValue pszKey psz tail := by
  have hle : tail + 4 ≤ psz.length := strstr_add_length_le htail
  cases hp : strcasestr psz pszKey with
  | some p =>
      have hp' : strcasestr (psz ++ y) pszKey = some p := by
        unfold strcasestr at hp ⊢
        rw [List.map_append]
        exact strstr_append hp _
      simp only [lengthValue, hp, hp']
      rw [List.take_append_of_le_length (by omega)]
  | none =>
      cases hq : strcasestr (psz ++ y) pszKey with
      | none => simp only [lengthValue, hp, hq]
      | some q =>
          have hlate : ¬ q < tail := by
            intro hlt
            have hend := key_before hkey (strstr_append htail y) hq hlt
            unfold strcasestr at hp hq
            rw [List.map_append] at hq
            rw [strstr_of_append hq (by simp only [List.length_map]; omega)] at hp
            cases hp
          simp only [lengthValue, hp, hq, if_neg hlate]

theorem cutHeader_append (hkey : IsKey pszKey) (hh : cutHeader pszKey psz = some h) (y : Bytes) :
    cutHeader pszKey (psz ++ y) = some h := by
  unfold cutHeader at hh ⊢
  cases htail : strstr psz (CRLF ++ CRLF) with
  | none => rw [htail] at hh; cases hh
  | some tail =>
      rw [htail] at hh
      rw [strstr_append htail y]
      simp only [lengthValue_append hkey htail y]
      exact hh

theorem cutHeader_bounds (hh : cutHeader pszKey psz = some h) :
    4 ≤ h.headerLength ∧ h.headerLength ≤ psz.length := by
  unfold cutHeader at hh
  cases htail : strstr psz (CRLF ++ CRLF) with
  | none => rw [htail] at hh; cases hh
  | some tail =>
      rw [htail] at hh
      obtain rfl := (Option.some.inj hh).symm
      have hle : tail + 4 ≤ psz.length := strstr_add_length_le htail
      simp only
      omega

theorem drop_tail (htail : strstr psz (CRLF ++ CRLF) = some tail) :
    psz.drop tail = 13 :: 10 :: 13 :: 10 :: psz.drop (tail + 4) := by
  obtain ⟨z, hz⟩ := strstr_found htail
  have hdrop : psz.drop (tail + 4) = z := by
    rw [← List.drop_drop, ← hz]
    rfl
  rw [hdrop, ← hz]
  rfl

/-- `findHeader` goes on reading behind the value. -/
theorem findHeader_value (hkey : IsKey pszKey) (htail : strstr psz (CRLF ++ CRLF) = some tail) :
    findHeader pszKey psz = some ⟨tail + 4, match lengthValue pszKey psz tail with
      | none => 0
      | some v => atoi (v ++ psz.drop tail)⟩ := by
  have hle : tail + 4 ≤ psz.length := strstr_add_length_le htail
  simp only [findHeader, htail, lengthValue]
  congr 2
  cases hp : strcasestr psz pszKey with
  | none => rfl
  | some p =>
      by_cases hlt : p < tail
      · have hend := key_before hkey htail hp hlt
        have hvalue : psz.drop (p + pszKey.length) =
            (psz.take tail).drop (p + pszKey.length) ++ psz.drop tail := by
          conv_lhs => rw [← List.take_append_drop tail psz]
          rw [List.drop_append_of_le_length]
          rw [List.length_take]
          omega
        have hcrlf : (strcasestr (psz.drop (p + pszKey.length)) CRLF).isSome := by
          refine strstr_isSome (i := tail - (p + pszKey.length)) ?_
          rw [← List.map_drop, List.drop_drop, Nat.add_sub_cancel' hend, drop_tail htail]
          exact ⟨_, rfl⟩
        rw [hvalue] at hcrlf
        simp only [hvalue, hcrlf, hlt, and_self, if_true]
      · simp only [hlt, false_and, if_false]

/-- The two ways to read the length agree, unless a number follows a blank value. -/
theorem findHeader_eq_cutHeader (hkey : IsKey pszKey)
    (hblank : ∀ tail v, strstr psz (CRLF ++ CRLF) = some tail →
      lengthValue pszKey psz tail = some v → (∀ c ∈ v, isspace c = true) →
      atoi (psz.drop (tail + 4)) = 0) : findHeader pszKey psz = cutHeader pszKey psz := by
  cases htail : strstr psz (CRLF ++ CRLF) with
  | none => simp only [findHeader, cutHeader, htail]
  | some tail =>
      rw [findHeader_value hkey htail]
      simp only [cutHeader, htail]
      congr 2
      cases hv : lengthValue pszKey psz tail with
      | none => rfl
      | some v =>
          simp only
          rw [drop_tail htail]
          by_cases hspace : ∀ c ∈ v, isspace c = true
          · have hv0 : atoi v = 0 := by
              have := atoi_space hspace []
              rwa [List.append_nil] at this
            have hcrlf : ∀ c ∈ ([13, 10, 13, 10] : Bytes), isspace c = true := by simp [isspace]
            have hmore : ∀ c ∈ v ++ [13, 10, 13, 10], isspace c = true := by
              intro c hc
              exact (List.mem_append.mp hc).elim (hspace c) (hcrlf c)
            have := atoi_space hmore (psz.drop (tail + 4))
            rw [List.append_assoc] at this
            rw [hv0, ← hblank tail v htail hv hspace, ← this]
            rfl
          · push Not at hspace
            obtain ⟨c, hc, hcs⟩ := hspace
            exact atoi_stop (by decide) ⟨c, hc, by simpa using hcs⟩ _

/-- A frame whose length stands in its own header is not changed by what follows. -/
theorem cut_stable (hkey : IsKey pszKey) : Stable (nextFrame (cutHeader pszKey)) where
  pos hu := by
    obtain ⟨h, -, -, -, hpos, -⟩ := nextFrame_eq_some hu
    exact hpos
  le hu := by
    obtain ⟨h, -, -, -, -, hle⟩ := nextFrame_eq_some hu
    exact hle
  append := by
    intro u f k v hu
    obtain ⟨h, hh, rfl, hk, hpos, hle⟩ := nextFrame_eq_some hu
    have hlen := (cutHeader_bounds hh).2.trans (cstr_length_le u)
    obtain ⟨y, hy⟩ := cstr_append_starts u v
    have hh' : cutHeader pszKey (cstr (u ++ v)) = some h := by
      rw [hy]
      exact cutHeader_append hkey hh y
    have hframe : frameOf h (u ++ v) = frameOf h u := by
      unfold frameOf
      rw [List.take_append_of_le_length (by omega), List.drop_append_of_le_length hlen,
        List.take_append_of_le_length (by rw [List.length_drop]; omega)]
    rw [nextFrame_some hh', if_pos (by rw [List.length_append]; omega), hframe, hk,
      Int.toNat_natCast]

end Cut

/-- What is ahead in a stream when each length is read from its own header. -/
def IsAhead (pszKey t u : Bytes) : Prop := Ahead (nextFrame (cutHeader pszKey)) t u

/-- No length is negative, and every frame fits the inbox. -/
def InRange (pszKey t : Bytes) : Prop :=
  ∀ u, IsAhead pszKey t u → ∀ h, cutHeader pszKey (cstr u) = some h →
    0 ≤ h.nContentLength ∧ h.headerLength + h.nContentLength ≤ bufferLimit

/-- Where the value of a length is blank, no beginning of what follows the header reads as a
number other than 0. -/
def Separate (pszKey t : Bytes) : Prop :=
  ∀ u, IsAhead pszKey t u → ∀ tail v, strstr (cstr u) (CRLF ++ CRLF) = some tail →
    lengthValue pszKey (cstr u) tail = some v → (∀ c ∈ v, isspace c = true) →
    ∀ w, w <+: u.drop (tail + 4) → atoi (cstr w) = 0

structure Orderly (pszKey t : Bytes) : Prop where
  range : InRange pszKey t
  separate : Separate pszKey t

section Orderly
variable {pszKey t u w : Bytes}

theorem Orderly.ahead (h : Orderly pszKey t) (hu : IsAhead pszKey t u) : Orderly pszKey u where
  range x hx := h.range x (Ahead.trans hu hx)
  separate x hx := h.separate x (Ahead.trans hu hx)

/-- Whatever is buffered of the stream, the parser reads the lengths as they are written. -/
theorem Separate.findHeader_eq (hkey : IsKey pszKey) (h : Separate pszKey t)
    (hu : IsAhead pszKey t u) (hw : w <+: u) :
    findHeader pszKey (cstr w) = cutHeader pszKey (cstr w) := by
  refine findHeader_eq_cutHeader hkey fun tail v htail hv hspace => ?_
  obtain ⟨r, rfl⟩ := hw
  obtain ⟨y, hy⟩ := cstr_append_starts w r
  have hle : tail + 4 ≤ (cstr w).length := strstr_add_length_le htail
  have hlen := cstr_length_le w
  rw [← cstr_drop hle]
  refine h _ hu tail v ?_ ?_ hspace _ ?_
  · rw [hy]
    exact strstr_append htail y
  · rw [hy, lengthValue_append hkey htail y, hv]
  · rw [List.drop_append_of_le_length (by omega)]
    exact List.prefix_append _ _

theorem Separate.agree (hkey : IsKey pszKey) (h : Separate pszKey t) :
    Agree (nextFrame (findHeader pszKey)) (nextFrame (cutHeader pszKey)) t := by
  intro u hu w hw
  simp only [nextFrame, h.findHeader_eq hkey hu hw]

/-- What is buffered of an orderly stream is sound. -/
theorem Orderly.sound (hkey : IsKey pszKey) (h : Orderly pszKey t) (hw : w <+: t) :
    Sound pszKey w := by
  have hahead : ∀ x, Ahead (nextFrame (findHeader pszKey)) w x →
      ∃ y, IsAhead pszKey t y ∧ x <+: y := by
    intro x hx
    induction hx with
    | refl => exact ⟨t, .refl, hw⟩
    | @frame x f k _ hf ih =>
        obtain ⟨y, hy, r, rfl⟩ := ih
        rw [h.separate.agree hkey _ hy x (List.prefix_append x r)] at hf
        refine ⟨_, .frame hy ((cut_stable hkey).append r hf), ?_⟩
        rw [List.drop_append_of_le_length ((cut_stable hkey).le hf)]
        exact List.prefix_append _ _
  intro x hx hd hhd
  obtain ⟨y, hy, r, rfl⟩ := hahead x hx
  rw [h.separate.findHeader_eq hkey hy (List.prefix_append x r)] at hhd
  obtain ⟨z, hz⟩ := cstr_append_starts x r
  have hbounds := cutHeader_bounds hhd
  have hrange := h.range _ hy hd (by rw [hz]; exact cutHeader_append hkey hhd z)
  unfold bufferLimit at hrange
  omega

end Orderly
end CoreLooper.CTP
