import CoreLooper.CommonTextProtocol2
import CoreLooper.Framing

/-!
# When parsing the inbox is safe

The length of a frame is the length of its header plus a number the peer wrote. The loop of
`ParseInbox` cuts the inbox into frames exactly as long as that sum is positive and fits an
`int`; `Sound` says so of every header it comes to, and then the frames are those of
`Framing.drain`.
-/
namespace CoreLooper.CTP

open CStrings Framing

/-- The complete frame at the front of a buffer, with its length, for a way to find headers. -/
def nextFrame (find : Bytes → Option Header) (u : Bytes) : Option (Frame × ℕ) :=
  match find (cstr u) with
  | none => none
  | some h =>
      let nEat := (h.headerLength : ℤ) + h.nContentLength
      if 0 < nEat ∧ nEat ≤ u.length then some (frameOf h u, nEat.toNat) else none

/-- Every header found at the start of the data, or behind a complete frame that was, gives
its frame a positive length that fits an `int`. -/
def Sound (pszKey data : Bytes) : Prop :=
  ∀ u, Ahead (nextFrame (findHeader pszKey)) data u → ∀ h, findHeader pszKey (cstr u) = some h →
    1 ≤ h.headerLength + h.nContentLength ∧ h.headerLength + h.nContentLength < 2 ^ 31

/-- Every frame taken uses bytes up, lies in the data, and `Eat` gets what was used up. -/
structure Safe {σ : Type} (dataLen : ℕ) (r : Parsed σ) : Prop where
  consumes : ∀ pf ∈ r.frames, 1 ≤ i32 (pf.2.headerLength + pf.2.nContentLength)
  inside : ∀ pf ∈ r.frames, 0 ≤ pf.1 ∧
    pf.1 + pf.2.headerLength + max pf.2.nContentLength 0 ≤ dataLen
  eat : 0 ≤ r.eat ∧ r.eat ≤ dataLen

section
variable {pszKey psz u : Bytes} {h : Header}

theorem findHeader_none (htail : strstr psz (CRLF ++ CRLF) = none) :
    findHeader pszKey psz = none := by
  simp only [findHeader, htail]

/-- What `findHeader` gives, in one place. -/
theorem findHeader_eq_some (hh : findHeader pszKey psz = some h) :
    ∃ tail, strstr psz (CRLF ++ CRLF) = some tail ∧ h.headerLength = tail + 4 ∧
      h.nContentLength = match strcasestr psz pszKey with
        | none => 0
        | some p =>
            if p < tail ∧ (strcasestr (psz.drop (p + pszKey.length)) CRLF).isSome
            then atoi (psz.drop (p + pszKey.length)) else 0 := by
  unfold findHeader at hh
  cases htail : strstr psz (CRLF ++ CRLF) with
  | none => rw [htail] at hh; cases hh
  | some tail =>
      rw [htail] at hh
      obtain rfl := (Option.some.inj hh).symm
      exact ⟨tail, rfl, rfl, rfl⟩

theorem findHeader_bounds (hh : findHeader pszKey psz = some h) :
    4 ≤ h.headerLength ∧ h.headerLength ≤ psz.length ∧
      -2 ^ 31 ≤ h.nContentLength ∧ h.nContentLength < 2 ^ 31 := by
  obtain ⟨tail, htail, hlen, hn⟩ := findHeader_eq_some hh
  have hle : tail + 4 ≤ psz.length := strstr_add_length_le htail
  have hzero : -2 ^ 31 ≤ (0 : ℤ) ∧ (0 : ℤ) < 2 ^ 31 := by decide
  have hatoi : ∀ s, -2 ^ 31 ≤ atoi s ∧ atoi s < 2 ^ 31 := fun s => i32_bounds _
  refine ⟨by omega, by omega, ?_⟩
  rw [hn]
  split
  · exact hzero
  · split_ifs
    · exact hatoi _
    · exact hzero

theorem cstr_length_le (u : Bytes) : (cstr u).length ≤ u.length := (cstr_starts u).length_le

section Next
variable {find : Bytes → Option Header}

theorem nextFrame_none (hu : find (cstr u) = none) : nextFrame find u = none := by
  simp only [nextFrame, hu]

theorem nextFrame_some (hu : find (cstr u) = some h) : nextFrame find u =
    if 0 < (h.headerLength : ℤ) + h.nContentLength ∧
      (h.headerLength : ℤ) + h.nContentLength ≤ u.length
    then some (frameOf h u, ((h.headerLength : ℤ) + h.nContentLength).toNat) else none := by
  simp only [nextFrame, hu]

theorem nextFrame_eq_some {f : Frame} {k : ℕ} (hu : nextFrame find u = some (f, k)) :
    ∃ h, find (cstr u) = some h ∧ f = frameOf h u ∧
      (h.headerLength : ℤ) + h.nContentLength = k ∧ 0 < k ∧ k ≤ u.length := by
  cases hh : find (cstr u) with
  | none => rw [nextFrame_none hh] at hu; cases hu
  | some h =>
      rw [nextFrame_some hh] at hu
      split_ifs at hu with hfits
      obtain ⟨rfl, rfl⟩ := Prod.mk.inj (Option.some.inj hu)
      exact ⟨h, rfl, rfl, by omega, by omega, by omega⟩

end Next

theorem nextFrame_bounds {f : Frame} {k : ℕ} (hu : nextFrame (findHeader pszKey) u = some (f, k)) :
    (f.headerLength : ℤ) + f.nContentLength = k ∧ 0 < k ∧ k ≤ u.length ∧
      f.headerLength ≤ u.length := by
  obtain ⟨h, hh, rfl, hk, hpos, hle⟩ := nextFrame_eq_some hu
  exact ⟨hk, hpos, hle, (findHeader_bounds hh).2.1.trans (cstr_length_le u)⟩

/-- A sum of a buffered header's length and an `int` is its own conversion, or negative. -/
theorem i32_sum {H : ℕ} {n : ℤ} (hH : H ≤ bufferLimit) (hn : -2 ^ 31 ≤ n ∧ n < 2 ^ 31) :
    i32 (H + n) = H + n ∧ (H : ℤ) + n < 2 ^ 31 ∨ i32 (H + n) < 0 ∧ 2 ^ 31 ≤ (H : ℤ) + n := by
  unfold bufferLimit at hH
  by_cases hlt : (H : ℤ) + n < 2 ^ 31
  · exact Or.inl ⟨i32_eq (by omega) hlt, hlt⟩
  · refine Or.inr ⟨?_, by omega⟩
    simp only [i32, Int.bmod]
    omega

end

/-- The places of frames that follow each other from `ps` on. -/
def placed : ℤ → List Frame → List (ℤ × Frame)
  | _, [] => []
  | ps, f :: fs => (ps, f) :: placed (ps + (f.headerLength + f.nContentLength)) fs

section Loop
variable {σ : Type} {pszKey data : Bytes} {dispatch : Frame → σ → σ} {p : ℕ}

theorem parseLoop_end (fuel : ℕ) (hp : data.length ≤ p) (s : σ) :
    parseLoop pszKey dispatch data (fuel + 1) p s = some (s, [], (data.length : ℤ) - p) := by
  simp only [parseLoop]
  rw [if_pos (by omega)]

theorem parseLoop_none (fuel : ℕ) (hp : p < data.length)
    (hh : findHeader pszKey (cstr (data.drop p)) = none) (s : σ) :
    parseLoop pszKey dispatch data (fuel + 1) p s = some (s, [], (data.length : ℤ) - p) := by
  simp only [parseLoop]
  rw [if_neg (by omega), if_neg (by omega), Int.toNat_natCast]
  simp only [hh]

variable (dispatch) in
theorem parseLoop_some (fuel : ℕ) (hp : p < data.length) {h : Header}
    (hh : findHeader pszKey (cstr (data.drop p)) = some h) (s : σ) :
    parseLoop pszKey dispatch data (fuel + 1) p s =
      if (data.length : ℤ) - p < i32 (h.headerLength + h.nContentLength) then
        some (s, [], (data.length : ℤ) - p)
      else
        (parseLoop pszKey dispatch data fuel (p + i32 (h.headerLength + h.nContentLength))
          (dispatch (frameOf h (data.drop p)) s)).map
          fun r => (r.1, ((p : ℤ), frameOf h (data.drop p)) :: r.2.1, r.2.2) := by
  conv_lhs => simp only [parseLoop]
  rw [if_neg (by omega), if_neg (by omega), Int.toNat_natCast]
  simp only [hh]
  split_ifs
  · rfl
  · cases parseLoop pszKey dispatch data fuel (p + i32 (h.headerLength + h.nContentLength))
      (dispatch (frameOf h (data.drop p)) s) <;> rfl

variable (dispatch) in
/-- On sound data the loop takes the complete frames at the front, one after another. -/
theorem parseLoop_drain {fuel : ℕ} (hp : p ≤ data.length)
    (hsound : Sound pszKey (data.drop p)) (hfuel : (data.drop p).length ≤ fuel) (s : σ) :
    parseLoop pszKey dispatch data (fuel + 1) p s =
      some ((drain (nextFrame (findHeader pszKey)) fuel (data.drop p)).1.foldl
          (fun s f => dispatch f s) s,
        placed p (drain (nextFrame (findHeader pszKey)) fuel (data.drop p)).1,
        ((drain (nextFrame (findHeader pszKey)) fuel (data.drop p)).2.length : ℤ)) := by
  induction fuel generalizing p s with
  | zero =>
      have hend : data.length ≤ p := by
        rw [List.length_drop] at hfuel
        omega
      rw [parseLoop_end 0 hend]
      simp only [drain, List.foldl_nil, placed, List.length_drop]
      congr 3
      omega
  | succ fuel ih =>
      have hlen : ((data.drop p).length : ℤ) = data.length - p := by
        rw [List.length_drop]
        omega
      rcases Nat.lt_or_ge p data.length with hlt | hend
      · cases hh : findHeader pszKey (cstr (data.drop p)) with
        | none =>
            rw [parseLoop_none _ hlt hh]
            simp only [drain, nextFrame_none hh, List.foldl_nil, placed, hlen]
        | some h =>
            obtain ⟨hpos, hint⟩ := hsound _ .refl h hh
            obtain ⟨hH, hle, hn⟩ := findHeader_bounds hh
            rw [parseLoop_some dispatch _ hlt hh, i32_eq (by omega) hint]
            split_ifs with hshort
            · have hnone : nextFrame (findHeader pszKey) (data.drop p) = none := by
                rw [nextFrame_some hh, if_neg (by omega)]
              simp only [drain, hnone, List.foldl_nil, placed, hlen]
            · have hsome : nextFrame (findHeader pszKey) (data.drop p) =
                  some (frameOf h (data.drop p),
                    ((h.headerLength : ℤ) + h.nContentLength).toNat) := by
                rw [nextFrame_some hh, if_pos (by omega)]
              obtain ⟨k, hk⟩ := Int.eq_ofNat_of_zero_le (a := h.headerLength + h.nContentLength)
                (by omega)
              rw [hk, Int.toNat_natCast] at hsome
              have hdrop : (data.drop p).drop k = data.drop (p + k) := by rw [List.drop_drop]
              have hnext : Sound pszKey (data.drop (p + k)) := fun u hu =>
                hsound u (.of_drop hsome (hdrop.symm ▸ hu))
              have hrest : (data.drop (p + k)).length ≤ fuel := by
                rw [List.length_drop] at hfuel ⊢
                omega
              have hplace : (p : ℤ) + ((frameOf h (data.drop p)).headerLength
                  + (frameOf h (data.drop p)).nContentLength) = ((p + k : ℕ) : ℤ) := by
                rw [Nat.cast_add, ← hk]
                rfl
              rw [hk, ← Nat.cast_add, ih (by omega) hnext hrest]
              simp only [drain, hsome, hdrop, Option.map_some, List.foldl_cons, placed, hplace]
      · have hnil : data.drop p = [] := List.drop_eq_nil_of_le hend
        have hnone : nextFrame (findHeader pszKey) (data.drop p) = none := by
          rw [hnil]
          exact nextFrame_none rfl
        rw [parseLoop_end _ hend]
        simp only [drain, hnone, List.foldl_nil, placed, hlen]

variable (pszKey data) in
/-- The frames taken from sound data, and how much of it they used up. -/
theorem placed_inside (fuel : ℕ) (hp : p ≤ data.length) (pf : ℤ × Frame)
    (hpf : pf ∈ placed p (drain (nextFrame (findHeader pszKey)) fuel (data.drop p)).1) :
    (1 ≤ pf.2.headerLength + pf.2.nContentLength ∧ 0 ≤ pf.1) ∧
      pf.1 + pf.2.headerLength + max pf.2.nContentLength 0 ≤ data.length := by
  induction fuel generalizing p with
  | zero => simp [drain, placed] at hpf
  | succ fuel ih =>
      cases hu : nextFrame (findHeader pszKey) (data.drop p) with
      | none => simp [drain, hu, placed] at hpf
      | some fk =>
          obtain ⟨f, k⟩ := fk
          obtain ⟨hk, hpos, hle, hH⟩ := nextFrame_bounds hu
          rw [List.length_drop] at hle hH
          simp only [drain, hu, placed, List.mem_cons, List.drop_drop] at hpf
          rcases hpf with rfl | hpf
          · simp only
            omega
          · rw [hk, ← Nat.cast_add] at hpf
            exact ih (by omega) hpf

variable (pszKey) in
theorem drain_length_le (fuel : ℕ) (u : Bytes) :
    (drain (nextFrame (findHeader pszKey)) fuel u).2.length ≤ u.length := by
  induction fuel generalizing u with
  | zero => exact Nat.le_refl _
  | succ fuel ih =>
      cases hu : nextFrame (findHeader pszKey) u with
      | none => simp [drain, hu]
      | some fk =>
          simp only [drain, hu]
          exact (ih _).trans (by rw [List.length_drop]; omega)

/-- A loop that takes only frames in the data, each of positive length, met no other header. -/
theorem sound_of_parseLoop {fuel : ℕ} (hlimit : data.length ≤ bufferLimit) (hp : p ≤ data.length)
    {s : σ} {r : σ × List (ℤ × Frame) × ℤ}
    (hr : parseLoop pszKey dispatch data fuel p s = some r)
    (hpos : ∀ pf ∈ r.2.1, 1 ≤ i32 (pf.2.headerLength + pf.2.nContentLength)) :
    Sound pszKey (data.drop p) := by
  induction fuel generalizing p s r with
  | zero => cases hr
  | succ fuel ih =>
      intro u hu h hh
      rcases Nat.lt_or_ge p data.length with hlt | hend
      · cases hfirst : findHeader pszKey (cstr (data.drop p)) with
        | none =>
            rcases hu.front with rfl | ⟨f, k, hf, -⟩
            · rw [hfirst] at hh
              cases hh
            · rw [nextFrame_none hfirst] at hf
              cases hf
        | some h₀ =>
            obtain ⟨hH, hle, hn⟩ := findHeader_bounds hfirst
            have hcstr := cstr_length_le (data.drop p)
            rw [List.length_drop] at hcstr
            have hsum := i32_sum (H := h₀.headerLength) (n := h₀.nContentLength) (by omega) hn
            rw [parseLoop_some dispatch _ hlt hfirst] at hr
            split_ifs at hr with hshort
            · rcases hu.front with rfl | ⟨f, k, hf, -⟩
              · rw [hfirst] at hh
                cases hh
                omega
              · have := nextFrame_bounds hf
                rw [nextFrame_some hfirst] at hf
                rw [List.length_drop] at this hf
                split_ifs at hf with hfits
                omega
            · obtain ⟨r', hr', rfl⟩ := Option.map_eq_some_iff.mp hr
              have hone := hpos _ List.mem_cons_self
              simp only [frameOf] at hone
              rcases hu.front with rfl | ⟨f, k, hf, hahead⟩
              · rw [hfirst] at hh
                cases hh
                omega
              · have hk := nextFrame_bounds hf
                rw [nextFrame_some hfirst] at hf
                split_ifs at hf with hfits
                obtain ⟨rfl, rfl⟩ := Prod.mk.inj (Option.some.inj hf)
                rw [List.drop_drop] at hahead
                have hplace : (p : ℤ) + i32 (h₀.headerLength + h₀.nContentLength) =
                    ((p + ((h₀.headerLength : ℤ) + h₀.nContentLength).toNat : ℕ) : ℤ) := by
                  omega
                rw [hplace] at hr'
                exact ih (by rw [List.length_drop] at hfits; omega) hr'
                  (fun pf hpf => hpos pf (List.mem_cons_of_mem _ hpf)) u hahead h hh
      · rw [List.drop_eq_nil_of_le hend] at hu
        rcases hu.front with rfl | ⟨f, k, hf, -⟩
        · cases hh
        · cases hf

end Loop

/-- What the loop gives on sound data is safe. -/
theorem parseLoop_safe {σ : Type} {pszKey data : Bytes} (dispatch : Frame → σ → σ)
    (hlimit : data.length ≤ bufferLimit) (hsound : Sound pszKey data) (s : σ) :
    ∃ r, parseLoop pszKey dispatch data (data.length + 1) 0 s = some r ∧
      Safe data.length ⟨0, r.2.1, data.length - r.2.2, r.1⟩ := by
  refine ⟨_, parseLoop_drain dispatch (p := 0) (Nat.zero_le _) hsound (Nat.le_refl _) s, ?_⟩
  have hlen := drain_length_le pszKey data.length data
  have hinside := fun pf => placed_inside pszKey data data.length (p := 0) (Nat.zero_le _) pf
  constructor
  · intro pf hpf
    obtain ⟨⟨h1, h2⟩, h3⟩ := hinside pf hpf
    rw [i32_eq] <;> unfold bufferLimit at hlimit <;> omega
  · intro pf hpf
    obtain ⟨⟨h1, h2⟩, h3⟩ := hinside pf hpf
    exact ⟨h2, h3⟩
  · simp only [List.drop_zero]
    omega

theorem sound_nil (pszKey : Bytes) : Sound pszKey [] := by
  intro u hu h hh
  rcases hu.front with rfl | ⟨f, k, hf, -⟩
  · cases hh
  · cases hf

theorem safe_empty {σ : Type} (dataLen : ℕ) (ret : ℤ) (s : σ) : Safe dataLen ⟨ret, [], 0, s⟩ where
  consumes _ hpf := nomatch hpf
  inside _ hpf := nomatch hpf
  eat := ⟨le_refl 0, Int.natCast_nonneg dataLen⟩

theorem CommonTextProtocol.parseInbox_safe (mCB : CommonTextProtocolCB) (s : CommonTextProtocol) :
    (∃ fuel r, s.parseInbox mCB fuel = some r ∧ Safe s.mInbox.length r) ↔
      Sound CommonTextProtocol.pszKey s.mInbox.bytes := by
  by_cases hempty : s.mInbox.length = 0
  · have hnil : s.mInbox.bytes = [] := List.length_eq_zero_iff.mp hempty
    rw [hnil]
    refine ⟨fun _ => sound_nil _, fun _ => ⟨0, _, ?_, safe_empty _ (-1) s⟩⟩
    simp only [parseInbox, if_pos hempty]
  · constructor
    · rintro ⟨fuel, r, hr, hsafe⟩
      simp only [parseInbox, if_neg hempty] at hr
      split at hr
      · cases hr
      · rename_i s' frames cbLeft hloop
        obtain rfl := (Option.some.inj hr).symm
        exact sound_of_parseLoop (p := 0) s.mInbox.fits (Nat.zero_le _) hloop hsafe.consumes
    · intro hsound
      obtain ⟨⟨s', frames, cbLeft⟩, hloop, hsafe⟩ :=
        parseLoop_safe (dispatch mCB) s.mInbox.fits hsound s
      refine ⟨s.mInbox.bytes.length + 1, ⟨0, frames, s.mInbox.length - cbLeft,
        s'.eatInbox (s.mInbox.length - cbLeft)⟩, ?_, hsafe.consumes, hsafe.inside, hsafe.eat⟩
      simp only [parseInbox, if_neg hempty, hloop]

theorem CommonTextProtocol2.skipped_le (s : CommonTextProtocol2) :
    s.skipped ≤ s.mInbox.bytes.length := by
  have hlen : s.mInbox.length = s.mInbox.bytes.length := rfl
  unfold skipped
  split
  · exact Nat.zero_le _
  · split
    · exact Nat.zero_le _
    · split
      · omega
      · exact Nat.zero_le _

theorem CommonTextProtocol2.parseInbox_safe (mCB : CommonTextProtocolCB2)
    (s : CommonTextProtocol2) :
    (∃ fuel r, s.parseInbox mCB fuel = some r ∧ Safe s.mInbox.length r) ↔
      Sound s.pszKey (s.mInbox.bytes.drop s.skipped) := by
  have hskip := s.skipped_le
  by_cases hempty : s.mInbox.length = 0
  · have hnil : s.mInbox.bytes = [] := List.length_eq_zero_iff.mp hempty
    rw [hnil, List.drop_nil]
    refine ⟨fun _ => sound_nil _, fun _ => ⟨0, _, ?_, safe_empty _ (-1) s⟩⟩
    simp only [parseInbox, if_pos hempty]
  · have hlimit := (s.mInbox.eat s.skipped).fits
    have hlen : (s.mInbox.bytes.drop s.skipped).length = s.mInbox.bytes.length - s.skipped :=
      List.length_drop
    constructor
    · rintro ⟨fuel, r, hr, hsafe⟩
      simp only [parseInbox, if_neg hempty] at hr
      split at hr
      · cases hr
      · rename_i s' frames cbLeft hloop
        obtain rfl := (Option.some.inj hr).symm
        refine sound_of_parseLoop (p := 0) hlimit (Nat.zero_le _) hloop fun pf hpf => ?_
        exact hsafe.consumes (s.skipped + pf.1, pf.2) (List.mem_map.mpr ⟨pf, hpf, rfl⟩)
    · intro hsound
      obtain ⟨⟨s', frames, cbLeft⟩, hloop, hsafe⟩ := parseLoop_safe (dispatch mCB)
        hlimit hsound { s with mInbox := s.mInbox.eat s.skipped }
      have heat := hsafe.eat
      have hdata : (s.mInbox.eat s.skipped).length = (s.mInbox.bytes.drop s.skipped).length := rfl
      refine ⟨(s.mInbox.bytes.drop s.skipped).length + 1,
        ⟨0, frames.map fun pf => (s.skipped + pf.1, pf.2),
          s.skipped + ((s.mInbox.eat s.skipped).length - cbLeft),
          s'.eatInbox ((s.mInbox.eat s.skipped).length - cbLeft)⟩, ?_, ?_, ?_, ?_⟩
      · simp only [parseInbox, if_neg hempty]
        rw [show parseLoop (pszKey { s with mInbox := s.mInbox.eat s.skipped }) _ _
          ((s.mInbox.bytes.drop s.skipped).length + 1) 0 _ = _ from hloop]
      · intro pf hpf
        obtain ⟨pf', hpf', rfl⟩ := List.mem_map.mp hpf
        exact hsafe.consumes pf' hpf'
      · intro pf hpf
        obtain ⟨pf', hpf', rfl⟩ := List.mem_map.mp hpf
        have := hsafe.inside pf' hpf'
        simp only [ByteQueue.length_eq, ByteQueue.eat_bytes] at this ⊢
        omega
      · simp only [ByteQueue.length_eq, ByteQueue.eat_bytes] at heat ⊢
        omega

/-- For every inbox: `ParseInbox` of either class ends, uses up at least a byte with every frame,
stays in the data and passes a sum in range to `Eat`, exactly if the inbox is sound. -/
theorem parseInbox_safe_iff_sound (mCB : CommonTextProtocolCB) (s : CommonTextProtocol)
    (mCB' : CommonTextProtocolCB2) (s' : CommonTextProtocol2) :
    ((∃ fuel r, s.parseInbox mCB fuel = some r ∧ Safe s.mInbox.length r) ↔
      Sound CommonTextProtocol.pszKey s.mInbox.bytes) ∧
    ((∃ fuel r, s'.parseInbox mCB' fuel = some r ∧ Safe s'.mInbox.length r) ↔
      Sound s'.pszKey (s'.mInbox.bytes.drop s'.skipped)) :=
  ⟨CommonTextProtocol.parseInbox_safe mCB s, CommonTextProtocol2.parseInbox_safe mCB' s'⟩

/-- A body of -17 bytes behind a header of 17 bytes keeps the loop at its place. -/
theorem parseInbox_minus_seventeen :
    ¬ ∃ fuel r, CommonTextProtocol.parseInbox (fun _ => {}) fuel
      { mInbox := ⟨ascii "a\r\n_bytes=-17\r\n\r\n", by decide⟩ } = some r ∧ Safe 17 r := by
  have hhang : ∀ fuel s, parseLoop CommonTextProtocol.pszKey
      (CommonTextProtocol.dispatch fun _ => {}) (ascii "a\r\n_bytes=-17\r\n\r\n") fuel 0 s =
        none := by
    intro fuel
    induction fuel with
    | zero => exact fun s => rfl
    | succ fuel ih =>
        intro s
        have hheader : findHeader CommonTextProtocol.pszKey
            (cstr ((ascii "a\r\n_bytes=-17\r\n\r\n").drop 0)) = some ⟨17, -17⟩ := by
          decide +kernel
        have hstep := parseLoop_some (CommonTextProtocol.dispatch fun _ => {}) fuel
          (by decide) hheader s
        rw [Nat.cast_zero] at hstep
        rw [hstep, if_neg (by decide)]
        exact congrArg (Option.map _) (ih _)
  rintro ⟨fuel, r, hr, -⟩
  simp only [CommonTextProtocol.parseInbox] at hr
  rw [if_neg (by decide), hhang] at hr
  cases hr

end CoreLooper.CTP
