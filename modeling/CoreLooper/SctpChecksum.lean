import CoreLooper.SctpOutbox

/-!
# What the checksum detects

The register is moved on by a linear map that loses nothing, so two texts that differ in two
adjacent bytes at most have different checksums. A frame that was changed in this way in what the
checksum covers is told of as an error.
-/
namespace CoreLooper.Sctp
open CStrings Framing

theorem low_bit (a : UInt16) : a &&& 1 = 1 ↔ a.toNat % 2 = 1 := by
  rw [← UInt16.toNat_inj, UInt16.toNat_and]
  show a.toNat &&& 1 = 1 ↔ _
  rw [Nat.and_one_is_mod]

theorem low_bit_xor (a b : UInt16) : (a ^^^ b) &&& 1 = 1 ↔ ¬ (a &&& 1 = 1 ↔ b &&& 1 = 1) := by
  rw [low_bit, low_bit, low_bit, UInt16.toNat_xor, Nat.xor_mod_two_eq_one]

theorem xor_common (x a b : UInt16) : (x ^^^ a) ^^^ (x ^^^ b) = a ^^^ b := by
  have hmove : (x ^^^ a) ^^^ (x ^^^ b) = (x ^^^ x) ^^^ (a ^^^ b) := by ac_rfl
  rw [hmove, UInt16.xor_self, UInt16.zero_xor]

/-- Two sums that are equal: what differs on one side differs on the other. -/
theorem xor_exchange {x y a b : UInt16} (h : x ^^^ a = y ^^^ b) : x ^^^ y = a ^^^ b := by
  calc x ^^^ y = (a ^^^ x) ^^^ (a ^^^ y) := (xor_common a x y).symm
    _ = (y ^^^ b) ^^^ (a ^^^ y) := by rw [UInt16.xor_comm a x, h]
    _ = (y ^^^ b) ^^^ (y ^^^ a) := by rw [UInt16.xor_comm a y]
    _ = a ^^^ b := by rw [xor_common, UInt16.xor_comm]

theorem crcShift_xor (a b : UInt16) : crcShift (a ^^^ b) = crcShift a ^^^ crcShift b := by
  have hcancel : ∀ x y p : UInt16, x ^^^ p ^^^ (y ^^^ p) = x ^^^ y := fun x y p => by
    rw [UInt16.xor_comm x p, UInt16.xor_comm y p, xor_common]
  have hbit := low_bit_xor a b
  unfold crcShift
  by_cases ha : a &&& 1 = 1
  · by_cases hb : b &&& 1 = 1
    · have hab : ¬ (a ^^^ b) &&& 1 = 1 := fun h => hbit.mp h (iff_of_true ha hb)
      rw [if_neg hab, if_pos ha, if_pos hb, hcancel, UInt16.shiftRight_xor]
    · have hab : (a ^^^ b) &&& 1 = 1 := hbit.mpr fun h => hb (h.mp ha)
      rw [if_pos hab, if_pos ha, if_neg hb, UInt16.shiftRight_xor]
      ac_rfl
  · by_cases hb : b &&& 1 = 1
    · have hab : (a ^^^ b) &&& 1 = 1 := hbit.mpr fun h => ha (h.mpr hb)
      rw [if_pos hab, if_neg ha, if_pos hb, UInt16.shiftRight_xor]
      ac_rfl
    · have hab : ¬ (a ^^^ b) &&& 1 = 1 := fun h => hbit.mp h (iff_of_false ha hb)
      rw [if_neg hab, if_neg ha, if_neg hb, UInt16.shiftRight_xor]

theorem crcShift_eq_zero {a : UInt16} (h : crcShift a = 0) : a = 0 := by
  have hhalf : (a >>> 1).toNat = a.toNat / 2 := by
    rw [UInt16.toNat_shiftRight]
    exact Nat.shiftRight_one _
  have hlt := a.toNat_lt
  unfold crcShift at h
  split_ifs at h with hbit
  · -- the highest bit of the polynomial is set
    rw [UInt16.xor_eq_zero_iff] at h
    rw [h] at hhalf
    have hpoly : (0xA001 : UInt16).toNat = 40961 := rfl
    omega
  · rw [h] at hhalf
    rw [low_bit] at hbit
    rw [← UInt16.toNat_inj]
    have hzero : (0 : UInt16).toNat = 0 := rfl
    omega

theorem shifts_xor (n : ℕ) (a b : UInt16) :
    crcShift^[n] (a ^^^ b) = crcShift^[n] a ^^^ crcShift^[n] b := by
  induction n generalizing a b with
  | zero => rfl
  | succ n ih => rw [Function.iterate_succ_apply, Function.iterate_succ_apply,
      Function.iterate_succ_apply, crcShift_xor, ih]

theorem shifts_inj (n : ℕ) {a b : UInt16} (h : crcShift^[n] a = crcShift^[n] b) : a = b := by
  induction n generalizing a b with
  | zero => exact h
  | succ n ih =>
      rw [Function.iterate_succ_apply, Function.iterate_succ_apply] at h
      have hone := ih h
      have hzero : crcShift (a ^^^ b) = 0 := by rw [crcShift_xor, hone, UInt16.xor_self]
      exact UInt16.xor_eq_zero_iff.mp (crcShift_eq_zero hzero)

/-- A byte that goes into the register comes out of its low half. -/
theorem shifts_byte : ∀ e : Fin 256, (crcShift^[8] (UInt16.ofNat e)).toNat < 256 → e = 0 := by
  decide +kernel

/-- One byte. -/
def crcByte (crc : UInt16) (c : UInt8) : UInt16 := crcShift^[8] (crc ^^^ c.toUInt16)

theorem crc16Ex_append (crc : UInt16) (x y : Bytes) :
    crc16Ex crc (x ++ y) = crc16Ex (crc16Ex crc x) y := List.foldl_append

theorem crcByte_inj {crc crc' : UInt16} {c : UInt8} (h : crcByte crc c = crcByte crc' c) :
    crc = crc' := by
  have hxor := shifts_inj 8 h
  exact (UInt16.xor_left_inj _).mp hxor

/-- A difference in the register stays. -/
theorem crc16Ex_inj {crc crc' : UInt16} (x : Bytes) (h : crc16Ex crc x = crc16Ex crc' x) :
    crc = crc' := by
  induction x generalizing crc crc' with
  | nil => exact h
  | cons c x ih => exact crcByte_inj (ih h)

theorem toUInt16_inj {c d : UInt8} (h : c.toUInt16 = d.toUInt16) : c = d := by
  rw [← UInt16.toNat_inj] at h
  rw [← UInt8.toNat_inj]
  simpa using h

theorem crcByte_byte_inj {crc : UInt16} {c d : UInt8} (h : crcByte crc c = crcByte crc d) :
    c = d := by
  have hxor := shifts_inj 8 h
  exact toUInt16_inj ((UInt16.xor_right_inj _).mp hxor)

/-- Two bytes can be told from any two others. -/
theorem crcByte_pair_inj {crc : UInt16} {c c' d d' : UInt8}
    (h : crcByte (crcByte crc c) c' = crcByte (crcByte crc d) d') : c = d ∧ c' = d' := by
  have hxor : crcByte crc c ^^^ c'.toUInt16 = crcByte crc d ^^^ d'.toUInt16 := shifts_inj 8 h
  have hdiff : crcShift^[8] (c ^^^ d).toUInt16 = (c' ^^^ d').toUInt16 := by
    rw [UInt8.toUInt16_xor, UInt8.toUInt16_xor, ← xor_exchange hxor, ← xor_common crc, shifts_xor,
      crcByte, crcByte]
  have hsmall := shifts_byte ⟨(c ^^^ d).toNat, (c ^^^ d).toNat_lt⟩ (by
    have hnat : UInt16.ofNat (c ^^^ d).toNat = (c ^^^ d).toUInt16 := UInt16.ofNat_uInt8ToNat _
    show (crcShift^[8] (UInt16.ofNat (c ^^^ d).toNat)).toNat < 256
    rw [hnat, hdiff, UInt8.toNat_toUInt16]
    exact (c' ^^^ d').toNat_lt)
  have hcd : c = d := by
    have hzero : (c ^^^ d).toNat = 0 := congrArg Fin.val hsmall
    exact UInt8.xor_eq_zero_iff.mp (UInt8.toNat_inj.mp hzero)
  subst hcd
  exact ⟨rfl, toUInt16_inj ((UInt16.xor_right_inj _).mp hxor)⟩

/-- Texts that differ in one byte, or in two adjacent ones, have different checksums. -/
theorem crc16Ex_window {w w' : Bytes} (hlen : w.length = w'.length) (hshort : w.length ≤ 2)
    (hne : w ≠ w') (crc : UInt16) (u v : Bytes) :
    crc16Ex crc (u ++ w ++ v) ≠ crc16Ex crc (u ++ w' ++ v) := by
  intro heq
  rw [crc16Ex_append, crc16Ex_append, crc16Ex_append, crc16Ex_append] at heq
  have hmid := crc16Ex_inj v heq
  generalize crc16Ex crc u = start at hmid
  match w, w' with
  | [], [] => exact hne rfl
  | [c], [d] =>
      obtain rfl := crcByte_byte_inj hmid
      exact hne rfl
  | [c, c'], [d, d'] =>
      obtain ⟨rfl, rfl⟩ := crcByte_pair_inj hmid
      exact hne rfl

/-- A field that has a name, and is not the checksum itself. -/
def IsCovered (f : KeyValue) : Prop := f.name ≠ [] ∧ f.name ≠ ascii "crc"

instance (f : KeyValue) : Decidable (IsCovered f) := inferInstanceAs (Decidable (_ ∧ _))

def covered (fs : List KeyValue) : Bytes :=
  (fs.filter IsCovered).flatMap fun f => f.name ++ f.value

section
variable {f g : KeyValue} {fs gs : List KeyValue} {r : TagSCTP} {rest : Bytes}

theorem covered_cons (f : KeyValue) (fs : List KeyValue) :
    covered (f :: fs) = (if IsCovered f then f.name ++ f.value else []) ++ covered fs := by
  unfold covered
  by_cases hf : IsCovered f
  · rw [List.filter_cons_of_pos (by simpa using hf), List.flatMap_cons, if_pos hf]
  · rw [List.filter_cons_of_neg (by simpa using hf), if_neg hf, List.nil_append]

/-- The checksum of the fields is that of the text they make together. -/
theorem crcOf_eq (fs : List KeyValue) : crcOf fs = crc16Ex 0xFFFF (covered fs) := by
  unfold crcOf
  generalize (0xFFFF : UInt16) = crc
  induction fs generalizing crc with
  | nil => rfl
  | cons f fs ih =>
      rw [List.foldl_cons, ih, covered_cons, crc16Ex_append]
      congr 1
      by_cases hf : IsCovered f
      · rw [if_pos hf, if_neg (not_or.mpr hf), crc16Ex_append]
      · rw [if_neg hf, if_pos (by unfold IsCovered at hf; tauto)]
        rfl

/-- The pieces of a text one after another have the effect of the text. -/
theorem crc16Ex_pieces (crc : UInt16) (ps : List Bytes) :
    ps.foldl crc16Ex crc = crc16Ex crc ps.flatten := by
  induction ps generalizing crc with
  | nil => rfl
  | cons p ps ih => rw [List.foldl_cons, ih, List.flatten_cons, crc16Ex_append]

/-- A byte that was left as it is, or one that has no meaning in a line. -/
def Kept (b c : UInt8) : Prop := b = c ∨ c ≠ 61 ∧ c ≠ 13 ∧ c ≠ 10 ∧ c ≠ 0

/-- What a change leaves: the lengths, the checksum, and what it does not cover. -/
structure SameShape (f g : KeyValue) : Prop where
  name : f.name.length = g.name.length
  value : f.value.length = g.value.length
  covered : IsCovered f → IsCovered g
  other : ¬ IsCovered f → f = g

/-- One byte, or two adjacent ones, of what the checksum covers were changed. -/
structure Changed (fs gs : List KeyValue) : Prop where
  shape : List.Forall₂ SameShape fs gs
  window : ∃ u w w' v, covered fs = u ++ w ++ v ∧ covered gs = u ++ w' ++ v ∧
    w.length = w'.length ∧ w.length ≤ 2 ∧ w ≠ w' ∧ ∀ c ∈ w', c ≠ 61 ∧ c ≠ 13 ∧ c ≠ 10 ∧ c ≠ 0

theorem Changed.crc_ne (h : Changed fs gs) : crcOf fs ≠ crcOf gs := by
  obtain ⟨u, w, w', v, hfs, hgs, hlen, hshort, hne, -⟩ := h.window
  rw [crcOf_eq, crcOf_eq, hfs, hgs]
  exact crc16Ex_window hlen hshort hne _ u v

theorem Changed.kept (h : Changed fs gs) : List.Forall₂ Kept (covered fs) (covered gs) := by
  obtain ⟨u, w, w', v, hfs, hgs, hlen, -, -, hok⟩ := h.window
  have hsame : ∀ x : Bytes, List.Forall₂ Kept x x := fun x =>
    List.forall₂_same.mpr fun c _ => Or.inl rfl
  have hwindow : List.Forall₂ Kept w w' := by
    refine List.forall₂_iff_get.mpr ⟨hlen, fun i hi hi' => Or.inr (hok _ ?_)⟩
    exact List.get_mem w' ⟨i, hi'⟩
  rw [hfs, hgs]
  exact List.rel_append (List.rel_append (hsame u) hwindow) (hsame v)

theorem forall₂_split {a a' x x' : Bytes} (hlen : a.length = a'.length)
    (h : List.Forall₂ Kept (a ++ x) (a' ++ x')) :
    List.Forall₂ Kept a a' ∧ List.Forall₂ Kept x x' := by
  have htake := List.forall₂_take_append _ _ _ h
  have hdrop := List.forall₂_drop_append _ _ _ h
  rw [← hlen, List.take_left] at htake
  rw [← hlen, List.drop_left] at hdrop
  exact ⟨htake, hdrop⟩

/-- Each line has bytes of its own that were changed. -/
theorem kept_fields (hshape : List.Forall₂ SameShape fs gs)
    (hkept : List.Forall₂ Kept (covered fs) (covered gs)) : List.Forall₂ (fun f g =>
      List.Forall₂ Kept f.name g.name ∧ List.Forall₂ Kept f.value g.value) fs gs := by
  have hsame : ∀ x : Bytes, List.Forall₂ Kept x x := fun x =>
    List.forall₂_same.mpr fun c _ => Or.inl rfl
  induction hshape with
  | nil => exact .nil
  | @cons f g fs gs hfg _ ih =>
      rw [covered_cons, covered_cons] at hkept
      by_cases hf : IsCovered f
      · rw [if_pos hf, if_pos (hfg.covered hf)] at hkept
        have hlen : (f.name ++ f.value).length = (g.name ++ g.value).length := by
          rw [List.length_append, List.length_append, hfg.name, hfg.value]
        obtain ⟨hhere, hlater⟩ := forall₂_split hlen hkept
        exact .cons (forall₂_split hfg.name hhere) (ih hlater)
      · obtain rfl := hfg.other hf
        rw [if_neg hf] at hkept
        exact .cons ⟨hsame _, hsame _⟩ (ih hkept)

theorem kept_not_mem {x y : Bytes} {c : UInt8} (h : List.Forall₂ Kept x y) (hc : c ∉ x)
    (hbad : c = 61 ∨ c = 13 ∨ c = 10 ∨ c = 0) : c ∉ y := by
  induction h with
  | nil => exact hc
  | @cons a b x y hab _ ih =>
      rw [List.mem_cons, not_or] at hc
      rw [List.mem_cons, not_or]
      refine ⟨?_, ih hc.2⟩
      rintro rfl
      rcases hab with rfl | hok
      · exact hc.1 rfl
      · tauto

/-- No line end can come into a line by a change. -/
theorem kept_line {x y : Bytes} (h : List.Forall₂ Kept x y) (hx : strstr x CRLF = none) :
    strstr y CRLF = none := by
  cases hy : strstr y CRLF with
  | none => rfl
  | some i =>
      obtain ⟨z, hz⟩ := strstr_found hy
      have hdrop := List.forall₂_drop i h
      rw [← hz, CRLF, List.cons_append, List.cons_append, List.forall₂_cons_right_iff] at hdrop
      obtain ⟨a, x', ha, hdrop, hxa⟩ := hdrop
      rw [List.forall₂_cons_right_iff] at hdrop
      obtain ⟨b, x'', hb, -, rfl⟩ := hdrop
      obtain rfl : a = 13 := ha.resolve_right fun hok => hok.2.1 rfl
      obtain rfl : b = 10 := hb.resolve_right fun hok => hok.2.2.1 rfl
      have hsome : (strstr x CRLF).isSome := strstr_isSome (i := i) ⟨x'', hxa.symm⟩
      rw [hx] at hsome
      cases hsome

theorem forall₂_mem_right {α β : Type*} {R : α → β → Prop} {xs : List α} {ys : List β}
    (h : List.Forall₂ R xs ys) {y : β} (hy : y ∈ ys) : ∃ x ∈ xs, R x y := by
  induction h with
  | nil => cases hy
  | @cons a b xs ys hab _ ih =>
      rcases List.mem_cons.mp hy with rfl | hy
      · exact ⟨a, List.mem_cons_self, hab⟩
      · obtain ⟨x, hx, hxy⟩ := ih hy
        exact ⟨x, List.mem_cons_of_mem a hx, hxy⟩

theorem Changed.oneLine (h : Changed fs gs) (hone : ∀ f ∈ fs, OneLine f) :
    ∀ g ∈ gs, OneLine g := by
  intro g hg
  obtain ⟨f, hf, hname, hvalue⟩ := forall₂_mem_right (kept_fields h.shape h.kept) hg
  obtain ⟨hsign, hline, h0, h0'⟩ := hone f hf
  have hwhole : List.Forall₂ Kept (f.name ++ 61 :: f.value) (g.name ++ 61 :: g.value) :=
    List.rel_append hname (.cons (Or.inl rfl) hvalue)
  exact ⟨kept_not_mem hname hsign (by simp), kept_line hwhole hline,
    kept_not_mem hname h0 (by simp), kept_not_mem hvalue h0' (by simp)⟩

theorem SameShape.crc_iff (h : SameShape f g) : f.name = ascii "crc" ↔ g.name = ascii "crc" := by
  by_cases hf : IsCovered f
  · exact iff_of_false hf.2 (h.covered hf).2
  · rw [h.other hf]

theorem SameShape.eq_of_crc (h : SameShape f g) (hf : f.name = ascii "crc") : f = g :=
  h.other fun hc => hc.2 hf

/-- The checksum that came with the frame is still there. -/
theorem getString_shape (h : List.Forall₂ SameShape fs gs) :
    getString gs (ascii "crc") = getString fs (ascii "crc") := by
  induction h with
  | nil => rfl
  | @cons f g fs gs hfg _ ih =>
      unfold getString at ih ⊢
      by_cases hf : f.name = ascii "crc"
      · obtain rfl := hfg.eq_of_crc hf
        rw [List.find?_cons_of_pos (by simpa using hf), List.find?_cons_of_pos (by simpa using hf)]
      · have hg := (not_congr hfg.crc_iff).mp hf
        rw [List.find?_cons_of_neg (by simpa using hg), List.find?_cons_of_neg (by simpa using hf)]
        exact ih

theorem getString_none {name : Bytes} (h : ∀ f ∈ fs, f.name ≠ name) : getString fs name = [] := by
  have hnone : fs.find? (·.name = name) = none := by
    refine List.find?_eq_none.mpr fun f hf => ?_
    simpa using h f hf
  rw [getString, hnone]

theorem hexDigit_inj : ∀ a < 16, ∀ b < 16, toLower (hexDigit a) = toLower (hexDigit b) → a = b := by
  decide +kernel

/-- The text of a checksum in capital or small letters is the text of that one only. -/
theorem hex4_inj {a b : UInt16} (h : (hex4 a).map toLower = (hex4 b).map toLower) : a = b := by
  simp only [hex4, List.map_cons, List.map_nil, List.cons.injEq, and_true] at h
  obtain ⟨h3, h2, h1, h0⟩ := h
  have d3 := hexDigit_inj _ (Nat.mod_lt _ (by decide)) _ (Nat.mod_lt _ (by decide)) h3
  have d2 := hexDigit_inj _ (Nat.mod_lt _ (by decide)) _ (Nat.mod_lt _ (by decide)) h2
  have d1 := hexDigit_inj _ (Nat.mod_lt _ (by decide)) _ (Nat.mod_lt _ (by decide)) h1
  have d0 := hexDigit_inj _ (Nat.mod_lt _ (by decide)) _ (Nat.mod_lt _ (by decide)) h0
  have ha := a.toNat_lt
  have hb := b.toNat_lt
  rw [← UInt16.toNat_inj]
  omega

/-- The checksum is not right for what the table has taken of a changed frame. -/
theorem Changed.checkCrc (h : Changed fs gs) {table : ℕ} (hcrc : Sctp.checkCrc fs = true)
    (htable : fs.length ≤ table ∨ ∀ f ∈ fs.dropLast, f.name ≠ ascii "crc") :
    Sctp.checkCrc (gs.take table) = false := by
  have hlen := h.shape.length_eq
  by_cases hall : fs.length ≤ table
  · rw [List.take_of_length_le (by omega), ← Bool.not_eq_true]
    intro hgood
    simp only [Sctp.checkCrc, decide_eq_true_eq] at hcrc hgood
    rw [getString_shape h.shape] at hgood
    exact h.crc_ne (hex4_inj (hcrc.2.trans hgood.2.symm))
  · have hnone : ∀ g ∈ gs.take table, g.name ≠ ascii "crc" := by
      intro g hg
      obtain ⟨f, hf, hfg⟩ := forall₂_mem_right (List.forall₂_take table h.shape) hg
      have hdrop : f ∈ fs.dropLast := by
        rw [List.dropLast_eq_take]
        exact (List.take_prefix_take_left (by omega)).mem hf
      exact (not_congr hfg.crc_iff).mp (htable.resolve_left hall f hdrop)
    simp [Sctp.checkCrc, getString_none hnone]

/-- A frame that was changed in what its checksum covers is told of as an error, and the frames
behind it are read as before. The checksum can be made of the fields one after another. -/
theorem parse_changed (hwf : WellFormed r.m485Verbose fs)
    (hcrc : fs.length ≤ r.mInboxBundle.mTotalCount.toNat ∨
      ∀ f ∈ fs.dropLast, f.name ≠ ascii "crc")
    (hchanged : Changed fs gs) (hstarts : Starts r.m485Verbose (lines gs))
    (hdata : r.mInbox.data = frame gs ++ rest) :
    (∃ desc, r.parse.events =
      r.events ++ .onError desc :: reports r (frames nextFrame rest).1) ∧
      (∀ items, crcOf items = crc16Ex 0xFFFF (covered items)) ∧
      ∀ (crc : UInt16) (ps : List Bytes), ps.foldl crc16Ex crc = crc16Ex crc ps.flatten := by
  refine ⟨?_, crcOf_eq, crc16Ex_pieces⟩
  have hone := hchanged.oneLine hwf.fields
  obtain ⟨hevents, -, -⟩ := parseLoop_spec r.mInbox.data.length r
  have hframes : drain nextFrame r.mInbox.data.length r.mInbox.data =
      (lines gs :: (frames nextFrame rest).1, (frames nextFrame rest).2) := by
    have hsome := frames_some nextFrame_stable (nextFrame_frame hstarts.ne_nil hone rest)
    rw [List.drop_left] at hsome
    rw [hdata]
    exact hsome
  rw [hframes, reports, List.map_cons, readItems_lines hone hstarts, TagSCTP.report,
    if_neg (by rw [hchanged.checkCrc hwf.crc hcrc]; decide)] at hevents
  exact ⟨_, hevents⟩

end

/-- The frame `cmd=go` with its second byte changed. -/
def cxdFields : List KeyValue := [⟨ascii "cxd", ascii "go"⟩, ⟨ascii "crc", ascii "67D7"⟩]

def cxdReceiver : TagSCTP := { fresh 16 64 with mInbox := ⟨frame cxdFields ++ [], 64⟩ }

theorem parse_changed_cxd :
    (∃ desc, cxdReceiver.parse.events =
      [] ++ .onError desc :: reports cxdReceiver (frames nextFrame []).1) ∧
      (∀ items, crcOf items = crc16Ex 0xFFFF (covered items)) ∧
      ∀ (crc : UInt16) (ps : List Bytes), ps.foldl crc16Ex crc = crc16Ex crc ps.flatten :=
  @parse_changed goFields cxdFields cxdReceiver [] (by decide +kernel) (by decide +kernel)
    { shape := .cons ⟨by decide +kernel, by decide +kernel, by decide +kernel, by decide +kernel⟩
        (.cons ⟨by decide +kernel, by decide +kernel, by decide +kernel, by decide +kernel⟩ .nil)
      window := ⟨ascii "c", ascii "m", ascii "x", ascii "dgo", by decide +kernel, by decide +kernel,
        by decide +kernel, by decide +kernel, by decide +kernel, by decide +kernel⟩ }
    (by decide +kernel) rfl

/-- A frame with the text `cmd=` in a value, too. -/
def cmdFields : List KeyValue :=
  [⟨ascii "cmd", ascii "4oq"⟩, ⟨ascii "x", ascii "cmd=0"⟩, ⟨ascii "crc", ascii "69A5"⟩]

def cmxFields : List KeyValue :=
  [⟨ascii "cmx", ascii "4oq"⟩, ⟨ascii "x", ascii "cmd=0"⟩, ⟨ascii "crc", ascii "69A5"⟩]

/-- On a shared line the receiver looks for `cmd=`. When that was changed, what is left of a frame
can pass the check. -/
theorem parse_changed_verbose :
    WellFormed true cmdFields ∧ Changed cmdFields cmxFields ∧ Starts false (lines cmxFields) ∧
      (TagSCTP.parse { fresh 16 64 with
        m485Verbose := true, mInbox := ⟨frame cmxFields, 64⟩ }).events =
      [.onRecvCommand (ascii "0") [⟨ascii "cmd", ascii "0"⟩, ⟨ascii "crc", ascii "69A5"⟩]] := by
  refine ⟨by decide +kernel, ?_, by decide +kernel, by decide +kernel⟩
  refine ⟨.cons ?_ (.cons ?_ (.cons ?_ .nil)), ascii "cm", ascii "d", ascii "x",
    ascii "4oqxcmd=0", ?_⟩
  · exact ⟨by decide +kernel, by decide +kernel, by decide +kernel, by decide +kernel⟩
  · exact ⟨by decide +kernel, by decide +kernel, by decide +kernel, by decide +kernel⟩
  · exact ⟨by decide +kernel, by decide +kernel, by decide +kernel, by decide +kernel⟩
  · decide +kernel

end CoreLooper.Sctp
