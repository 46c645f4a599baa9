import CoreLooper.CtpReset
import CoreLooper.CtpSafety

/-!
# A stream that is one frame

The pieces of the frame are kept until it is whole. Then it is dispatched once, and nothing of it
stays in the inbox, whatever the owner does meanwhile.
-/
namespace CoreLooper.CTP
open CStrings

namespace CommonTextProtocol

/-- Whatever has come of the text, it has no header or the one whose frame is the text. -/
structure OneFrame (t : Bytes) (h : Header) : Prop where
  length : h.headerLength + h.nContentLength = t.length
  whole : findHeader pszKey (cstr t) = some h
  starts : ∀ w, w <+: t → findHeader pszKey (cstr w) = none ∨ findHeader pszKey (cstr w) = some h

section Loop
variable {σ : Type} {t w : Bytes} {h : Header}

theorem OneFrame.sum_eq (ht : OneFrame t h) (hsize : t.length < bufferLimit) :
    i32 (h.headerLength + h.nContentLength) = t.length := by
  unfold bufferLimit at hsize
  rw [ht.length, i32_eq (by omega) (by omega)]

theorem OneFrame.pos (ht : OneFrame t h) : 0 < t.length := by
  have hbounds := findHeader_bounds ht.whole
  have := cstr_length_le t
  omega

variable (dispatch : Frame → σ → σ) (s : σ)

theorem OneFrame.parseLoop_start (ht : OneFrame t h) (hsize : t.length < bufferLimit)
    (hw : w <+: t) (hlt : w.length < t.length) (hne : w ≠ []) :
    parseLoop pszKey dispatch w 2 0 s = some (s, [], (w.length : ℤ)) := by
  have hpos := List.length_pos_iff.mpr hne
  rcases ht.starts w hw with hnone | hsome
  · have hstop := @parseLoop_none σ pszKey w dispatch 0 1 hpos hnone s
    rwa [Nat.cast_zero, sub_zero] at hstop
  · have hstop := parseLoop_some (p := 0) dispatch 1 hpos hsome s
    rw [Nat.cast_zero, sub_zero, ht.sum_eq hsize, if_pos (by omega)] at hstop
    exact hstop

theorem OneFrame.parseLoop_whole (ht : OneFrame t h) (hsize : t.length < bufferLimit) :
    parseLoop pszKey dispatch t 2 0 s = some (dispatch (frameOf h t) s, [(0, frameOf h t)], 0) := by
  have hstep := parseLoop_some (p := 0) dispatch 1 ht.pos ht.whole s
  have hend := @parseLoop_end σ pszKey t dispatch t.length 0 (Nat.le_refl t.length)
    (dispatch (frameOf h t) s)
  rw [Nat.cast_zero, sub_zero, zero_add, ht.sum_eq hsize, if_neg (by omega), List.drop_zero,
    hend] at hstep
  rw [hstep]
  simp

end Loop

variable {mCB : CommonTextProtocolCB} {s : CommonTextProtocol}

theorem call_mInbox_le (s : CommonTextProtocol) (c : Call) :
    (s.call c).mInbox.bytes.length ≤ s.mInbox.bytes.length := by
  cases c with
  | ResetX => exact Nat.zero_le _
  | AddCommandEx cmd bundle body needAck =>
      rw [call, addCommandEx]
      dsimp only
      split_ifs
      · exact Nat.le_refl _
      · rw [output, waitAck]
        dsimp only
        split_ifs <;> exact Nat.le_refl _

theorem calls_mInbox_le (calls : List Call) (s : CommonTextProtocol) :
    (calls.foldl call s).mInbox.bytes.length ≤ s.mInbox.bytes.length := by
  induction calls generalizing s with
  | nil => exact Nat.le_refl _
  | cons c calls ih => exact (ih (s.call c)).trans (call_mInbox_le s c)

theorem callback_mInbox_le (e : Event) (s : CommonTextProtocol) :
    (callback mCB e s).2.mInbox.bytes.length ≤ s.mInbox.bytes.length :=
  calls_mInbox_le _ _

/-- No call of the owner puts anything into the inbox. -/
theorem dispatch_mInbox_le (f : Frame) (s : CommonTextProtocol) :
    (dispatch mCB f s).mInbox.bytes.length ≤ s.mInbox.bytes.length := by
  unfold dispatch
  dsimp only
  split
  · unfold onCommandAck
    dsimp only
    split
    · exact callback_mInbox_le _ _
    · exact callback_mInbox_le _ _
  · split
    · exact callback_mInbox_le _ _
    · unfold onCommand
      split_ifs
      · exact Nat.le_refl _
      · exact callback_mInbox_le _ _

theorem eatInbox_bytes {k : ℕ} (hk : s.mInbox.bytes.length ≤ k) :
    (s.eatInbox k).mInbox.bytes = [] := by
  unfold eatInbox
  split_ifs with hset hpos
  · rfl
  · rw [Int.toNat_natCast]
    exact List.drop_eq_nil_of_le hk
  · apply List.length_eq_zero_iff.mp
    omega

theorem eatInbox_events (eat : ℤ) (s : CommonTextProtocol) :
    (s.eatInbox eat).events = s.events := by
  unfold eatInbox
  split_ifs <;> rfl

variable {t d : Bytes} {h : Header}

variable (mCB) in
theorem OneFrame.parseInbox_start (ht : OneFrame t h) (hsize : t.length < bufferLimit)
    (hreset : s.mReset = false) (hw : s.mInbox.bytes <+: t)
    (hlt : s.mInbox.bytes.length < t.length) (hne : s.mInbox.bytes ≠ []) :
    parseInbox mCB 2 s = some ⟨0, [], 0, s⟩ := by
  have hlen : s.mInbox.length ≠ 0 := fun h => hne (List.length_eq_zero_iff.mp h)
  have hkeep : s.eatInbox 0 = s := by
    rw [eatInbox, if_neg (by rw [hreset]; exact Bool.false_ne_true), if_neg (lt_irrefl 0)]
  rw [parseInbox, if_neg hlen, ht.parseLoop_start _ _ hsize hw hlt hne]
  dsimp only
  rw [ByteQueue.length_eq, sub_self, hkeep]

variable (mCB) in
theorem OneFrame.parseInbox_whole (ht : OneFrame t h) (hsize : t.length < bufferLimit)
    (hbytes : s.mInbox.bytes = t) :
    ∃ eat r, parseInbox mCB 2 s = some ⟨0, [(0, frameOf h t)], eat, r⟩ ∧
      r.events = (dispatch mCB (frameOf h t) s).events ∧ r.mInbox.bytes = [] := by
  have hlen : s.mInbox.length ≠ 0 := by
    rw [ByteQueue.length_eq, hbytes]
    exact ht.pos.ne'
  refine ⟨t.length, (dispatch mCB (frameOf h t) s).eatInbox t.length, ?_,
    eatInbox_events _ _, eatInbox_bytes ?_⟩
  · rw [parseInbox, if_neg hlen, hbytes, ht.parseLoop_whole _ _ hsize]
    dsimp only
    rw [ByteQueue.length_eq, hbytes, sub_zero]
  · rw [← hbytes]
    exact dispatch_mInbox_le _ _

theorem inputLoop_nil (mCB : CommonTextProtocolCB) (fuel n : ℕ) (eatBytes : ℤ)
    (s : CommonTextProtocol) : inputLoop mCB fuel n eatBytes [] s = some ⟨eatBytes, [], s⟩ := by
  cases n with
  | zero => rfl
  | succ n =>
      rw [inputLoop]
      exact if_pos (Or.inl rfl)

/-- A piece that fits the inbox is stored at once, and the inbox is parsed once. -/
theorem input_piece {fuel : ℕ} (hd : d ≠ [])
    (hroom : s.mInbox.bytes.length + d.length < bufferLimit) :
    input mCB fuel d s =
      (parseInbox mCB fuel { s with mReset := false, mInbox := s.mInbox.write d }).map
        fun p => ⟨if p.ret ≠ 0 then -1 else d.length, p.frames.map Prod.snd, p.state⟩ := by
  obtain ⟨n, hn⟩ : ∃ n, d.length = n + 1 :=
    ⟨d.length - 1, by have := List.length_pos_iff.mpr hd; omega⟩
  have hmore : ¬ (d = [] ∨ False ∨ bufferLimit - s.mInbox.bytes.length - 1 = 0) := by
    simp only [hd, false_or]
    omega
  have htake : d.take (bufferLimit - s.mInbox.bytes.length - 1) = d :=
    List.take_of_length_le (by omega)
  have hdrop : d.drop (bufferLimit - s.mInbox.bytes.length - 1) = [] :=
    List.drop_eq_nil_of_le (by omega)
  rw [input, hn, inputLoop]
  simp only [ByteQueue.length_eq, htake, hdrop, Bool.false_eq_true, if_neg hmore]
  cases parseInbox mCB fuel { s with mReset := false, mInbox := s.mInbox.write d } with
  | none => rfl
  | some p =>
      dsimp only [Option.map_some]
      by_cases hret : p.ret ≠ 0
      · rw [if_pos hret, if_pos hret]
      · rw [if_neg hret, if_neg hret, inputLoop_nil]
        simp [hn]

/-- Nothing more comes. -/
theorem inputs_silence {fuel : ℕ} {ds : List Bytes} (hds : ds.flatten = []) :
    ∃ r, inputs mCB fuel ds s = some ([], r) ∧ r.events = s.events ∧ r.mInbox = s.mInbox := by
  induction ds generalizing s with
  | nil => exact ⟨s, rfl, rfl, rfl⟩
  | cons d ds ih =>
      rw [List.flatten_cons, List.append_eq_nil_iff] at hds
      obtain ⟨rfl, hds⟩ := hds
      obtain ⟨r, hr, hevents, hinbox⟩ := @ih { s with mReset := false } hds
      have hinput : input mCB fuel [] s = some ⟨0, [], { s with mReset := false }⟩ := rfl
      refine ⟨r, ?_, hevents, hinbox⟩
      rw [inputs, hinput]
      dsimp only
      rw [hr]
      rfl

variable (mCB) in
/-- However it arrives, the frame is dispatched once, and nothing of it is left. -/
theorem OneFrame.inputs (ht : OneFrame t h) (hsize : t.length < bufferLimit) {ds : List Bytes}
    (hds : s.mInbox.bytes ++ ds.flatten = t) (hlt : s.mInbox.bytes.length < t.length) :
    ∃ r s', inputs mCB 2 ds s = some ([frameOf h t], r) ∧ s'.events = s.events ∧
      r.events = (dispatch mCB (frameOf h t) s').events ∧ r.mInbox.bytes = [] := by
  induction ds generalizing s with
  | nil =>
      rw [List.flatten_nil, List.append_nil] at hds
      rw [hds] at hlt
      exact absurd hlt (lt_irrefl _)
  | cons d ds ih =>
      rw [List.flatten_cons, ← List.append_assoc] at hds
      by_cases hd : d = []
      · subst hd
        rw [List.append_nil] at hds
        obtain ⟨r, s', hr, hs', hevents, hinbox⟩ := @ih { s with mReset := false } hds hlt
        have hinput : input mCB 2 [] s = some ⟨0, [], { s with mReset := false }⟩ := rfl
        refine ⟨r, s', ?_, hs', hevents, hinbox⟩
        rw [CommonTextProtocol.inputs, hinput]
        dsimp only
        rw [hr]
        rfl
      · have hstart : s.mInbox.bytes ++ d <+: t := ⟨ds.flatten, hds⟩
        have hroom : s.mInbox.bytes.length + d.length ≤ t.length := by
          rw [← List.length_append]
          exact hstart.length_le
        have hwrite : (s.mInbox.write d).bytes = s.mInbox.bytes ++ d :=
          ByteQueue.write_bytes (by omega)
        have hpiece := @input_piece mCB s d 2 hd (by omega)
        by_cases hwhole : s.mInbox.bytes ++ d = t
        · obtain ⟨eat, r, hparse, hevents, hinbox⟩ := ht.parseInbox_whole mCB
            (s := { s with mReset := false, mInbox := s.mInbox.write d }) hsize
            (hwrite.trans hwhole)
          have hrest : ds.flatten = [] := by
            rw [hwhole] at hds
            exact List.append_right_eq_self.mp hds
          obtain ⟨r', hr', hevents', hinbox'⟩ := @inputs_silence mCB r 2 ds hrest
          refine ⟨r', { s with mReset := false, mInbox := s.mInbox.write d }, ?_, rfl,
            hevents'.trans hevents, by rw [hinbox', hinbox]⟩
          rw [CommonTextProtocol.inputs, hpiece, hparse]
          dsimp only [Option.map_some]
          rw [hr']
          rfl
        · have hshort : (s.mInbox.bytes ++ d).length < t.length := by
            have hle := hstart.length_le
            have hne : (s.mInbox.bytes ++ d).length ≠ t.length :=
              fun heq => hwhole (hstart.eq_of_length heq)
            omega
          have hparse := ht.parseInbox_start mCB
            (s := { s with mReset := false, mInbox := s.mInbox.write d }) hsize rfl
            (by rw [hwrite]; exact hstart) (by rw [hwrite]; exact hshort)
            (by rw [hwrite]; simp [hd])
          obtain ⟨r, s', hr, hs', hevents, hinbox⟩ :=
            @ih { s with mReset := false, mInbox := s.mInbox.write d }
              (by rw [hwrite]; exact hds) (by rw [hwrite]; exact hshort)
          refine ⟨r, s', ?_, hs', hevents, hinbox⟩
          rw [CommonTextProtocol.inputs, hpiece, hparse]
          dsimp only [Option.map_some]
          rw [hr]
          rfl

/-- The first frame of a text in one piece is that of its first header. -/
theorem frame_of_inputs {fuel : ℕ} {f : Frame} {fs : List Frame} {r : CommonTextProtocol}
    (hne : t ≠ []) (hsize : t.length < bufferLimit) (hempty : s.mInbox.bytes = [])
    (hr : CommonTextProtocol.inputs mCB fuel [t] s = some (f :: fs, r)) :
    ∃ h, findHeader pszKey (cstr t) = some h ∧ f = frameOf h t := by
  have hwrite : (s.mInbox.write t).bytes = t := by
    rw [ByteQueue.write_bytes (by rw [hempty, List.length_nil]; omega), hempty, List.nil_append]
  rw [CommonTextProtocol.inputs, input_piece hne (by rw [hempty, List.length_nil]; omega)] at hr
  cases hparse : parseInbox mCB fuel { s with mReset := false, mInbox := s.mInbox.write t } with
  | none =>
      rw [hparse] at hr
      cases hr
  | some p =>
      rw [hparse] at hr
      simp only [Option.map_some, CommonTextProtocol.inputs, List.append_nil, Option.some.injEq,
        Prod.mk.injEq] at hr
      rw [parseInbox, if_neg (by rw [ByteQueue.length_eq, hwrite]; simpa using hne)] at hparse
      dsimp only at hparse
      rw [hwrite] at hparse
      have hpos := List.length_pos_iff.mpr hne
      cases fuel with
      | zero => cases hparse
      | succ fuel =>
          cases hheader : findHeader pszKey (cstr t) with
          | none =>
              have hloop := @parseLoop_none _ pszKey t (dispatch mCB) 0 fuel hpos hheader
                { s with mReset := false, mInbox := s.mInbox.write t }
              rw [Nat.cast_zero] at hloop
              rw [hloop] at hparse
              obtain rfl := (Option.some.inj hparse).symm
              cases hr.1
          | some h =>
              refine ⟨h, rfl, ?_⟩
              have hloop := parseLoop_some (p := 0) (dispatch mCB) fuel hpos hheader
                { s with mReset := false, mInbox := s.mInbox.write t }
              rw [Nat.cast_zero] at hloop
              rw [hloop] at hparse
              split_ifs at hparse with hshort
              · obtain rfl := (Option.some.inj hparse).symm
                cases hr.1
              · rw [List.drop_zero] at hparse
                generalize parseLoop pszKey (dispatch mCB) t fuel _ _ = rest at hparse
                cases rest with
                | none => cases hparse
                | some q =>
                    obtain rfl := (Option.some.inj hparse).symm
                    exact (List.cons.inj hr.1).1.symm

end CommonTextProtocol
end CoreLooper.CTP
