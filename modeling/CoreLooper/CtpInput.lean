import CoreLooper.CtpSegments

/-!
# Segmentation of the input

While the owner makes no reset, dispatching a frame reads and changes nothing of the inbox, and
`Input` takes the frames of `Framing.feed` from each piece. On an orderly stream these are the
frames whose lengths are read from their own headers, so that every way to cut the stream leads
to the same state.
-/
namespace CoreLooper.CTP

open CStrings Framing

def NeverResets (mCB : CommonTextProtocolCB) : Prop := ∀ es, Call.ResetX ∉ (mCB es).calls

namespace CommonTextProtocol

def withInbox (q : ByteQueue bufferLimit) (s : CommonTextProtocol) : CommonTextProtocol :=
  { s with mInbox := q }

section Frame
variable {mCB : CommonTextProtocolCB} {q : ByteQueue bufferLimit} {s : CommonTextProtocol}

@[simp] theorem withInbox_mInbox : (s.withInbox q).mInbox = q := rfl
@[simp] theorem withInbox_mReset : (s.withInbox q).mReset = s.mReset := rfl
@[simp] theorem withInbox_events : (s.withInbox q).events = s.events := rfl
@[simp] theorem withInbox_withInbox (q' : ByteQueue bufferLimit) :
    (s.withInbox q').withInbox q = s.withInbox q := rfl

theorem waitAck_withInbox (seq : ℤ) (bundle : Bundle) (needAck : Bool) :
    (s.withInbox q).waitAck seq bundle needAck = (s.waitAck seq bundle needAck).withInbox q ∧
      (s.waitAck seq bundle needAck).mReset = s.mReset := by
  unfold waitAck
  by_cases h : ¬ s.mReset ∧ needAck
  · rw [if_pos h, if_pos (show ¬ (s.withInbox q).mReset ∧ needAck from h)]
    exact ⟨rfl, rfl⟩
  · rw [if_neg h, if_neg (show ¬ (¬ (s.withInbox q).mReset ∧ needAck) from h)]
    exact ⟨rfl, rfl⟩

theorem addCommandEx_withInbox (cmd : Bytes) (bundle : Bundle) (body : Bytes) (needAck : Bool) :
    (addCommandEx cmd bundle body needAck (s.withInbox q)).2 =
      (addCommandEx cmd bundle body needAck s).2.withInbox q ∧
    (addCommandEx cmd bundle body needAck s).2.mReset = s.mReset := by
  unfold addCommandEx
  simp only
  split_ifs
  · exact ⟨rfl, rfl⟩
  · have hseq : (s.withInbox q).mSeq = s.mSeq := rfl
    rw [hseq]
    obtain ⟨h1, h2⟩ := waitAck_withInbox (q := q) (s := { s with
      mSeq := i32 (s.mSeq + 1)
      mOutbox := (s.mOutbox.write (addCommandHeader cmd (i32 (s.mSeq + 1)) bundle body
        needAck)).write body }) (i32 (s.mSeq + 1)) bundle needAck
    exact ⟨congrArg output h1, h2⟩

theorem calls_withInbox {calls : List Call} (h : Call.ResetX ∉ calls) :
    calls.foldl call (s.withInbox q) = (calls.foldl call s).withInbox q ∧
      (calls.foldl call s).mReset = s.mReset := by
  induction calls generalizing s with
  | nil => exact ⟨rfl, rfl⟩
  | cons c calls ih =>
      rw [List.foldl_cons, List.foldl_cons]
      cases c with
      | AddCommandEx cmd bundle body needAck =>
          obtain ⟨h1, h2⟩ := addCommandEx_withInbox (s := s) (q := q) cmd bundle body needAck
          obtain ⟨h3, h4⟩ := ih (s := (addCommandEx cmd bundle body needAck s).2)
            fun hm => h (List.mem_cons_of_mem _ hm)
          simp only [call, h1]
          exact ⟨h3, h4.trans h2⟩
      | ResetX => exact absurd List.mem_cons_self h

theorem callback_withInbox (hcb : NeverResets mCB) (e : Event) :
    (callback mCB e (s.withInbox q)).1 = (callback mCB e s).1 ∧
      (callback mCB e (s.withInbox q)).2 = (callback mCB e s).2.withInbox q ∧
      (callback mCB e s).2.mReset = s.mReset := by
  obtain ⟨h1, h2⟩ := calls_withInbox (s := { s with events := s.events ++ [e] }) (q := q)
    (hcb (s.events ++ [e]))
  exact ⟨rfl, h1, h2⟩

theorem onCommandAck_withInbox (hcb : NeverResets mCB) (cmd : Bytes) (ackBundle : Bundle) :
    onCommandAck mCB cmd ackBundle (s.withInbox q) =
      (onCommandAck mCB cmd ackBundle s).withInbox q ∧
    (onCommandAck mCB cmd ackBundle s).mReset = s.mReset := by
  have hmap : (s.withInbox q).mWaitAckItems = s.mWaitAckItems := rfl
  simp only [onCommandAck, hmap]
  split
  · rename_i reqBundle _
    have := callback_withInbox (q := q) hcb
      (s := { s with
        mWaitAckItems := s.mWaitAckItems.erase (ackBundle.getInt CTP_CMD_SEQ (-1)) })
      (.OnCommandAck cmd reqBundle ackBundle s.mInputBody.bytes)
    exact ⟨this.2.1, this.2.2⟩
  · have := callback_withInbox (q := q) hcb (s := s)
      (.OnCommandAck cmd .empty ackBundle s.mInputBody.bytes)
    exact ⟨this.2.1, this.2.2⟩

theorem onCommand_withInbox (hcb : NeverResets mCB) (cmd : Bytes) (inputBundle : Bundle) :
    onCommand mCB cmd inputBundle (s.withInbox q) = (onCommand mCB cmd inputBundle s).withInbox q ∧
    (onCommand mCB cmd inputBundle s).mReset = s.mReset := by
  have hbody : (s.withInbox q).mInputBody = s.mInputBody := rfl
  obtain ⟨h1, h2, h3⟩ := callback_withInbox (q := q) (s := s) hcb
    (.OnCommand cmd inputBundle s.mInputBody.bytes)
  simp only [onCommand, hbody, h1, h2]
  split_ifs
  · exact ⟨rfl, rfl⟩
  · exact ⟨rfl, h3⟩

/-- A frame is dispatched without a look at the inbox, which stays as it is. -/
theorem dispatch_withInbox (hcb : NeverResets mCB) (f : Frame) :
    dispatch mCB f (s.withInbox q) = (dispatch mCB f s).withInbox q ∧
      (dispatch mCB f s).mReset = s.mReset := by
  unfold dispatch
  simp only
  split
  · exact onCommandAck_withInbox (s := { s with mInputBody := _ }) hcb _ _
  · split
    · have := callback_withInbox (q := q) hcb
        (s := { s with mInputBody := ByteQueue.clear.write f.body })
      exact ⟨(this _).2.1, (this _).2.2⟩
    · exact onCommand_withInbox (s := { s with mInputBody := _ }) hcb _ _

theorem dispatches_withInbox (hcb : NeverResets mCB) (fs : List Frame) :
    fs.foldl (fun s f => dispatch mCB f s) (s.withInbox q) =
        (fs.foldl (fun s f => dispatch mCB f s) s).withInbox q ∧
      (fs.foldl (fun s f => dispatch mCB f s) s).mReset = s.mReset := by
  induction fs generalizing s with
  | nil => exact ⟨rfl, rfl⟩
  | cons f fs ih =>
      obtain ⟨h1, h2⟩ := dispatch_withInbox (s := s) (q := q) hcb f
      rw [List.foldl_cons, List.foldl_cons, h1]
      exact ⟨ih.1, ih.2.trans h2⟩

theorem dispatches_mInbox (hcb : NeverResets mCB) (fs : List Frame) :
    (fs.foldl (fun s f => dispatch mCB f s) s).mInbox = s.mInbox := by
  have := (dispatches_withInbox (s := s) (q := s.mInbox) hcb fs).1
  rw [show s.withInbox s.mInbox = s from rfl] at this
  rw [this]
  rfl

end Frame

theorem isKey : IsKey pszKey := ⟨[10, 95, 98, 121, 116, 101, 115, 61], by decide, by decide⟩

/-- The complete frame at the front, with the length its own header states. -/
def nextCut : Bytes → Option (Frame × ℕ) := nextFrame (cutHeader pszKey)

theorem nextCut_stable : Stable nextCut := cut_stable isKey

section Input
variable {mCB : CommonTextProtocolCB} {s : CommonTextProtocol} {fuel : ℕ}

theorem eatInbox_eq (hreset : s.mReset = false) (k : ℕ) :
    s.eatInbox k = s.withInbox (s.mInbox.eat k) := by
  unfold eatInbox
  rw [if_neg (by rw [hreset]; exact Bool.false_ne_true)]
  split_ifs with hpos
  · rw [Int.toNat_natCast]
    rfl
  · obtain rfl : k = 0 := by omega
    rfl

/-- `ParseInbox` on sound data. -/
theorem parseInbox_drain (fuel : ℕ) (hcb : NeverResets mCB) (hreset : s.mReset = false)
    (hne : s.mInbox.bytes ≠ []) (hsound : Sound pszKey s.mInbox.bytes)
    (hfuel : s.mInbox.bytes.length ≤ fuel) :
    ∃ frames eat q, parseInbox mCB (fuel + 1) s = some ⟨0, frames, eat,
        ((drain (nextFrame (findHeader pszKey)) fuel s.mInbox.bytes).1.foldl
          (fun s f => dispatch mCB f s) s).withInbox q⟩ ∧
      frames.map Prod.snd = (drain (nextFrame (findHeader pszKey)) fuel s.mInbox.bytes).1 ∧
      q.bytes = (drain (nextFrame (findHeader pszKey)) fuel s.mInbox.bytes).2 := by
  have hloop := parseLoop_drain (dispatch mCB) (p := 0) (Nat.zero_le _) hsound hfuel s
  rw [List.drop_zero, Nat.cast_zero] at hloop
  obtain ⟨r, hr⟩ := drain_suffix (nextFrame (findHeader pszKey)) fuel s.mInbox.bytes
  generalize drain (nextFrame (findHeader pszKey)) fuel s.mInbox.bytes = d at hloop hr
  obtain ⟨fs, rest⟩ := d
  have hplaced : ∀ (fs : List Frame) (p : ℤ), (placed p fs).map Prod.snd = fs := by
    intro fs
    induction fs with
    | nil => exact fun p => rfl
    | cons f fs ih => exact fun p => congrArg (f :: ·) (ih _)
  simp only at hr hloop
  have hinbox := dispatches_mInbox (s := s) hcb fs
  have hmreset := (dispatches_withInbox (s := s) (q := s.mInbox) hcb fs).2
  have hlen : s.mInbox.length ≠ 0 := fun h => hne (List.length_eq_zero_iff.mp h)
  have heat : (s.mInbox.length : ℤ) - (rest.length : ℤ) = r.length := by
    rw [ByteQueue.length_eq, ← hr, List.length_append]
    omega
  refine ⟨placed 0 fs, r.length, s.mInbox.eat r.length, ?_, hplaced fs 0, ?_⟩
  · simp only [parseInbox, if_neg hlen, hloop, heat]
    rw [eatInbox_eq (hmreset.trans hreset), hinbox]
  · rw [ByteQueue.eat_bytes, ← hr, List.drop_left]

/-- What the loop of `Input` does with a piece of an orderly stream. -/
theorem inputLoop_feed (hcb : NeverResets mCB) (hfuel : bufferLimit ≤ fuel) {n : ℕ} {d r : Bytes}
    (hn : d.length ≤ n) (hreset : s.mReset = false)
    (hord : Orderly pszKey (s.mInbox.bytes ++ d ++ r)) (eatBytes : ℤ) :
    ∃ ret q, inputLoop mCB fuel n eatBytes d s = some ⟨ret,
        (feed nextCut (bufferLimit - 1) n s.mInbox.bytes d).1,
        ((feed nextCut (bufferLimit - 1) n s.mInbox.bytes d).1.foldl
          (fun s f => dispatch mCB f s) s).withInbox q⟩ ∧
      q.bytes = (feed nextCut (bufferLimit - 1) n s.mInbox.bytes d).2 ∧
      (Orderly pszKey (q.bytes ++ r) ∨ bufferLimit - 1 ≤ q.bytes.length) := by
  induction n generalizing d s eatBytes with
  | zero =>
      obtain rfl := List.length_eq_zero_iff.mp (Nat.le_zero.mp hn)
      rw [List.append_nil] at hord
      exact ⟨eatBytes, s.mInbox, rfl, rfl, Or.inl hord⟩
  | succ n ih =>
      have hfits := s.mInbox.fits
      by_cases hstop : d = [] ∨ bufferLimit - 1 ≤ s.mInbox.bytes.length
      · have hloop : inputLoop mCB fuel (n + 1) eatBytes d s = some ⟨eatBytes, [], s⟩ := by
          simp only [inputLoop]
          rw [if_pos]
          rw [ByteQueue.length_eq]
          exact hstop.imp_right fun h => Or.inr (by omega)
        have hfeed : feed nextCut (bufferLimit - 1) (n + 1) s.mInbox.bytes d =
            ([], s.mInbox.bytes) := by
          simp only [feed, if_pos hstop]
        rw [hloop, hfeed]
        refine ⟨eatBytes, s.mInbox, rfl, rfl, hstop.imp_left ?_⟩
        rintro rfl
        rwa [List.append_nil] at hord
      · obtain ⟨hd, hroom⟩ := not_or.mp hstop
        obtain ⟨room, hroom'⟩ : ∃ room, bufferLimit - 1 - s.mInbox.bytes.length = room := ⟨_, rfl⟩
        have hmax : bufferLimit - s.mInbox.length - 1 = room := by
          rw [ByteQueue.length_eq]
          omega
        have hlt : (d.take room).length ≤ room := List.length_take_le _ _
        have hwrite : (s.mInbox.write (d.take room)).bytes = s.mInbox.bytes ++ d.take room :=
          ByteQueue.write_bytes (by omega)
        have hsplit : s.mInbox.bytes ++ d ++ r =
            (s.mInbox.bytes ++ d.take room) ++ (d.drop room ++ r) := by
          conv_lhs => rw [← List.take_append_drop room d]
          simp only [List.append_assoc]
        rw [hsplit] at hord
        obtain ⟨data, hdata⟩ : ∃ data, s.mInbox.bytes ++ d.take room = data := ⟨_, rfl⟩
        rw [hdata] at hord hwrite
        have hlen : data.length ≤ bufferLimit - 1 := by
          rw [← hdata, List.length_append]
          omega
        have hne : data ≠ [] := by
          rw [← hdata]
          have := List.length_pos_iff.mpr hd
          refine fun h => hd ?_
          have htake := (List.append_eq_nil_iff.mp h).2
          rcases List.take_eq_nil_iff.mp htake with h0 | h0
          · omega
          · exact h0
        have hsound := hord.sound isKey (List.prefix_append data _)
        obtain ⟨fuel, rfl⟩ : ∃ g, fuel = g + 1 := ⟨fuel - 1, by unfold bufferLimit at hfuel; omega⟩
        obtain ⟨frames, eat, q, hparse, hframes, hq⟩ := parseInbox_drain fuel hcb
          (s := s.withInbox (s.mInbox.write (d.take room))) hreset
            (by rwa [withInbox_mInbox, hwrite])
          (by rwa [withInbox_mInbox, hwrite])
          (by rw [withInbox_mInbox, hwrite]; unfold bufferLimit at *; omega)
        simp only [withInbox_mInbox, hwrite] at hparse hframes hq
        have hdrain : drain (nextFrame (findHeader pszKey)) fuel data =
            drain nextCut (s.mInbox.bytes.length + room) data := by
          rw [(drain_congr nextCut_stable fuel (hord.separate.agree isKey)).1]
          unfold bufferLimit at *
          exact (drain_fuel nextCut_stable (by omega)).trans
            (drain_fuel nextCut_stable (by omega)).symm
        rw [hdrain] at hparse hframes hq
        have hahead := drain_ahead nextCut_stable (s.mInbox.bytes.length + room) data
          (d.drop room ++ r)
        generalize hfs : drain nextCut (s.mInbox.bytes.length + room) data = fr at *
        obtain ⟨fs, rest⟩ := fr
        simp only at hparse hframes hq hahead
        have hroompos : 0 < room := by omega
        obtain ⟨hstate, hstill⟩ := dispatches_withInbox (s := s)
          (q := s.mInbox.write (d.take room)) hcb fs
        rw [hstate, withInbox_withInbox] at hparse
        have hnext := ih (s := (fs.foldl (fun s f => dispatch mCB f s) s).withInbox q)
          (d := d.drop room) (by rw [List.length_drop]; omega) (hstill.trans hreset)
          (by rw [withInbox_mInbox, hq, List.append_assoc]; exact hord.ahead hahead)
          (eatBytes + (d.take room).length)
        rw [withInbox_mInbox, hq] at hnext
        obtain ⟨ret, q', hloop, hq', hrest⟩ := hnext
        have hfeed : feed nextCut (bufferLimit - 1) (n + 1) s.mInbox.bytes d =
            (fs ++ (feed nextCut (bufferLimit - 1) n rest (d.drop room)).1,
              (feed nextCut (bufferLimit - 1) n rest (d.drop room)).2) := by
          simp only [feed, if_neg hstop, hroom', hdata, hfs]
        refine ⟨ret, q', ?_, by rw [hfeed, hq'], hrest⟩
        simp only [inputLoop, hmax]
        rw [if_neg]
        · rw [show parseInbox mCB (fuel + 1) { s with mInbox := s.mInbox.write (d.take room) } = _
            from hparse]
          simp only [ne_eq, not_true_eq_false, if_false, hframes]
          rw [hloop, hfeed]
          simp only [List.foldl_append]
          rw [(dispatches_withInbox (q := q) hcb _).1, withInbox_withInbox]
        · rw [hreset]
          simp only [Bool.false_eq_true, false_or, not_or]
          exact ⟨hd, by omega⟩

/-- What `Input` does with a piece of an orderly stream, or with a full inbox. -/
theorem input_fold (hcb : NeverResets mCB) (hfuel : bufferLimit ≤ fuel) {d r : Bytes}
    (hreset : s.mReset = false) (hrest : nextCut s.mInbox.bytes = none)
    (hord : Orderly pszKey (s.mInbox.bytes ++ d ++ r) ∨
      bufferLimit - 1 ≤ s.mInbox.bytes.length) :
    ∃ ret q, input mCB fuel d s = some ⟨ret,
        (d.foldl (feedOne nextCut (bufferLimit - 1)) ([], s.mInbox.bytes)).1,
        ((d.foldl (feedOne nextCut (bufferLimit - 1)) ([], s.mInbox.bytes)).1.foldl
          (fun s f => dispatch mCB f s) s).withInbox q⟩ ∧
      q.bytes = (d.foldl (feedOne nextCut (bufferLimit - 1)) ([], s.mInbox.bytes)).2 ∧
      (Orderly pszKey (q.bytes ++ r) ∨ bufferLimit - 1 ≤ q.bytes.length) := by
  have hinput : input mCB fuel d s = inputLoop mCB fuel d.length 0 d s := by
    unfold input
    rw [show { s with mReset := false } = s by rw [← hreset]]
  rw [hinput]
  rcases hord with hord | hfull
  · obtain ⟨ret, q, h1, h2, h3⟩ := inputLoop_feed hcb hfuel (Nat.le_refl d.length) hreset hord 0
    rw [feed_eq_fold _ nextCut_stable hrest (Nat.le_refl _)] at h1 h2
    exact ⟨ret, q, h1, h2, h3⟩
  · rw [feedOne_full hfull]
    refine ⟨0, s.mInbox, ?_, rfl, Or.inr hfull⟩
    cases hd : d.length with
    | zero => rfl
    | succ n =>
        simp only [inputLoop]
        rw [if_pos]
        · rfl
        · rw [ByteQueue.length_eq]
          exact Or.inr (Or.inr (by omega))

/-- What a peer does with an orderly stream, however it arrives. -/
theorem inputs_fold (hcb : NeverResets mCB) (hfuel : bufferLimit ≤ fuel) {ds : List Bytes}
    (hreset : s.mReset = false) (hrest : nextCut s.mInbox.bytes = none)
    (hord : Orderly pszKey (s.mInbox.bytes ++ ds.flatten) ∨
      bufferLimit - 1 ≤ s.mInbox.bytes.length) :
    ∃ q, inputs mCB fuel ds s = some
        ((ds.flatten.foldl (feedOne nextCut (bufferLimit - 1)) ([], s.mInbox.bytes)).1,
        ((ds.flatten.foldl (feedOne nextCut (bufferLimit - 1)) ([], s.mInbox.bytes)).1.foldl
          (fun s f => dispatch mCB f s) s).withInbox q) ∧
      q.bytes = (ds.flatten.foldl (feedOne nextCut (bufferLimit - 1)) ([], s.mInbox.bytes)).2 := by
  induction ds generalizing s with
  | nil => exact ⟨s.mInbox, rfl, rfl⟩
  | cons d ds ih =>
      rw [List.flatten_cons, ← List.append_assoc] at hord
      obtain ⟨ret, q, hinput, hq, hnext⟩ := input_fold hcb hfuel hreset hrest hord
      have hdrained := feedOne_fold_rest nextCut_stable (bufferLimit - 1) d
        (s := ([], s.mInbox.bytes)) hrest
      rw [List.flatten_cons, List.foldl_append]
      generalize d.foldl (feedOne nextCut (bufferLimit - 1)) ([], s.mInbox.bytes) = fr at *
      obtain ⟨fs, rest⟩ := fr
      simp only at hinput hq hdrained
      obtain ⟨q', hinputs, hq'⟩ := ih
        (s := (fs.foldl (fun s f => dispatch mCB f s) s).withInbox q)
        ((dispatches_withInbox (q := q) hcb fs).2.trans hreset)
        (by rwa [withInbox_mInbox, hq]) (by rwa [withInbox_mInbox])
      rw [withInbox_mInbox, hq] at hinputs hq'
      refine ⟨q', ?_, ?_⟩
      · simp only [inputs, hinput, hinputs]
        rw [feedOne_fold_frames _ fs rest, List.foldl_append,
          (dispatches_withInbox (q := q) hcb _).1, withInbox_withInbox]
      · rw [feedOne_fold_frames _ fs rest, hq']

/-- The frames, the calls and the rest are functions of the stream. -/
theorem inputs_orderly (hcb : NeverResets mCB) (hfuel : bufferLimit ≤ fuel)
    (hempty : s.mInbox.bytes = []) {ds : List Bytes} (hord : Orderly pszKey ds.flatten) :
    ∃ r, inputs mCB fuel ds s = some r ∧
      r.1 = (ds.flatten.foldl (feedOne nextCut (bufferLimit - 1)) ([], [])).1 ∧
      r.2.events = ((ds.flatten.foldl (feedOne nextCut (bufferLimit - 1)) ([], [])).1.foldl
        (fun s f => dispatch mCB f s) { s with mReset := false }).events ∧
      r.2.mInbox.bytes = (ds.flatten.foldl (feedOne nextCut (bufferLimit - 1)) ([], [])).2 := by
  obtain ⟨q, hinputs, hq⟩ := inputs_fold (s := { s with mReset := false }) hcb hfuel rfl
    (by simp only [hempty]; rfl) (Or.inl (by simpa only [hempty, List.nil_append] using hord))
  simp only [hempty] at hinputs hq
  cases ds with
  | nil => exact ⟨([], s), rfl, rfl, rfl, hempty⟩
  | cons d ds => exact ⟨_, hinputs, rfl, rfl, hq⟩

/-- Two ways to cut an orderly stream lead to the same calls on the owner and leave the same
bytes in the inbox. -/
theorem inputs_segments (hcb : NeverResets mCB) (hempty : s.mInbox.bytes = [])
    {ds ds' : List Bytes} (hsame : ds.flatten = ds'.flatten) (hrange : InRange pszKey ds.flatten)
    (hseparate : Separate pszKey ds.flatten) (hfuel : bufferLimit ≤ fuel) :
    ∃ r r', inputs mCB fuel ds s = some r ∧ inputs mCB fuel ds' s = some r' ∧
      r.2.events = r'.2.events ∧ r.2.mInbox = r'.2.mInbox := by
  obtain ⟨r, hr, -, hevents, hrest⟩ := inputs_orderly hcb hfuel hempty ⟨hrange, hseparate⟩
  obtain ⟨r', hr', -, hevents', hrest'⟩ := inputs_orderly hcb hfuel hempty
    (hsame ▸ (⟨hrange, hseparate⟩ : Orderly pszKey ds.flatten))
  exact ⟨r, r', hr, hr', by rw [hevents, hevents', hsame],
    ByteQueue.ext (by rw [hrest, hrest', hsame])⟩

end Input

/-- One command with a body of one byte, whole and in two pieces. -/
theorem inputs_segments_one_byte :
    ∃ r r', inputs (fun _ => {}) bufferLimit [ascii "_cmd=a\r\n_bytes=1\r\n\r\nx"] {} = some r ∧
      inputs (fun _ => {}) bufferLimit [ascii "_cmd=a\r\n_by", ascii "tes=1\r\n\r\nx"]
        {} = some r' ∧
      r.2.events = r'.2.events ∧ r.2.mInbox = r'.2.mInbox := by
  have hahead : ∀ u, IsAhead pszKey (ascii "_cmd=a\r\n_bytes=1\r\n\r\nx") u →
      u = ascii "_cmd=a\r\n_bytes=1\r\n\r\nx" ∨ u = [] := by
    intro u hu
    have hnext : nextFrame (cutHeader pszKey) (ascii "_cmd=a\r\n_bytes=1\r\n\r\nx") =
        some (⟨20, 1, ascii "_cmd=a\r\n_bytes=1", ascii "x"⟩, 21) := by decide
    refine (Ahead.of_some hu hnext).imp_right fun hrest => ?_
    exact Ahead.of_none hrest (by decide)
  refine inputs_segments (fun es => List.not_mem_nil) rfl (by decide) ?_ ?_ (le_refl _)
  · intro u hu h hh
    rw [List.flatten_singleton] at hu
    rcases hahead u hu with rfl | rfl
    · have hheader : cutHeader pszKey (cstr (ascii "_cmd=a\r\n_bytes=1\r\n\r\nx")) =
          some ⟨20, 1⟩ := by decide
      rw [hheader] at hh
      cases hh
      decide
    · cases hh
  · intro u hu tail v htail hv hspace
    rw [List.flatten_singleton] at hu
    rcases hahead u hu with rfl | rfl
    · have hfound : strstr (cstr (ascii "_cmd=a\r\n_bytes=1\r\n\r\nx")) (CRLF ++ CRLF) =
          some 16 := by decide
      have hvalue : lengthValue pszKey (cstr (ascii "_cmd=a\r\n_bytes=1\r\n\r\nx")) 16 =
          some (ascii "1") := by decide
      rw [hfound] at htail
      cases htail
      rw [hvalue] at hv
      cases hv
      exact absurd (hspace 49 (by decide)) (by decide)
    · cases htail

/-- Behind a blank length the body of the next bytes is taken if they are there already. -/
theorem inputs_blank_length :
    InRange pszKey (ascii "_cmd=a\r\n_bytes=\r\n\r\n5hello") ∧
      (inputs (fun _ => {}) bufferLimit
          [ascii "_cmd=a\r\n_bytes=\r\n\r\n", ascii "5hello"] {}).map (·.2.events) ≠
        (inputs (fun _ => {}) bufferLimit
          [ascii "_cmd=a\r\n_bytes=\r\n\r\n5hello"] {}).map (·.2.events) := by
  refine ⟨?_, by decide +kernel⟩
  intro u hu h hh
  have hnext : nextFrame (cutHeader pszKey) (ascii "_cmd=a\r\n_bytes=\r\n\r\n5hello") =
      some (⟨19, 0, ascii "_cmd=a\r\n_bytes=", []⟩, 19) := by decide
  rcases Ahead.of_some hu hnext with rfl | hrest
  · have hheader : cutHeader pszKey (cstr (ascii "_cmd=a\r\n_bytes=\r\n\r\n5hello")) =
        some ⟨19, 0⟩ := by decide
    rw [hheader] at hh
    cases hh
    decide
  · obtain rfl := Ahead.of_none hrest (by decide)
    have hnone : cutHeader pszKey
        (cstr ((ascii "_cmd=a\r\n_bytes=\r\n\r\n5hello").drop 19)) = none := by decide
    rw [hnone] at hh
    cases hh

end CommonTextProtocol
end CoreLooper.CTP
