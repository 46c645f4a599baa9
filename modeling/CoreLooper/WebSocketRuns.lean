import CoreLooper.WebSocketFrames

/-!
# A stream of frames

The frames of a stream come out with their headers and payloads, in whatever pieces the stream
comes in. A frame with a payload is told of as complete once; an empty one is so a second time as
soon as a byte follows it.
-/
namespace CoreLooper.WebSocket
open CStrings WebSocketSplitter

/-- The payload as it is sent. -/
def Frame.body (f : Frame) : Bytes :=
  if f.header.masked then xorMask f.header.mask 0 f.data else f.data

def Frame.bytes (f : Frame) : Bytes := encode f.header f.data

section
variable {f : Frame} {fs done rest : List Frame} {s : WebSocketSplitter} {ptr y : Bytes} {n : ℕ}

theorem Frame.bytes_eq (f : Frame) : f.bytes = f.head ++ f.body := rfl

theorem Frame.body_length (f : Frame) : f.body.length = f.data.length := by
  unfold Frame.body
  split_ifs
  · exact xorMask_length _ _ _
  · rfl

theorem Frame.head_length (f : Frame) : 2 ≤ f.head.length := by
  rw [Frame.head_eq, List.length_cons, List.length_cons]
  omega

theorem Frame.bytes_ne_nil (f : Frame) : f.bytes ≠ [] := by
  refine List.ne_nil_of_length_pos ?_
  have := f.head_length
  rw [Frame.bytes_eq, List.length_append]
  omega

/-- A frame as it should be: its header, its payload in pieces, and its end. -/
def Received (f : Frame) (es : List Event) : Prop :=
  ∃ (h : WebSocketHeader) (pieces : List (Bytes × ℕ)), f.IsHeader h ∧
    (pieces.map Prod.fst).flatten = f.data ∧
    es = .header h :: (pieces.map (fun p => .playload h p.1 p.2) ++ [.complete h])

/-- An empty frame with something behind it. -/
def Doubled (f : Frame) (es : List Event) : Prop :=
  ∃ h, f.IsHeader h ∧ es = [.header h, .complete h, .playload h [] 0, .complete h]

/-- What was told of frames, all of which are over. -/
inductive Log : List Frame → List Event → Prop where
  | nil : Log [] []
  | received {fs f es es'} : Log fs es → f.data ≠ [] → Received f es' →
      Log (fs ++ [f]) (es ++ es')
  | doubled {fs f es es'} : Log fs es → f.data = [] → Doubled f es' → Log (fs ++ [f]) (es ++ es')

/-- The end of a header, which is also the end of an empty frame. -/
def opening (f : Frame) (h : WebSocketHeader) : List Event :=
  .header h :: if f.data = [] then [.complete h] else []

/-- In the middle of the payload of a frame. -/
structure InBody (done : List Frame) (f : Frame) (s : WebSocketSplitter) : Prop where
  got : s.gotHeader = true
  isHeader : f.IsHeader s.header
  le : s.playloadOffset ≤ f.data.length
  lt : f.data ≠ [] → s.playloadOffset < f.data.length
  mask : f.header.masked = true → s.maskOffset = s.playloadOffset % 4
  log : ∃ (es : List Event) (pieces : List (Bytes × ℕ)), Log done es ∧
    (pieces.map Prod.fst).flatten = f.data.take s.playloadOffset ∧ (f.data = [] → pieces = []) ∧
    s.events = es ++ (opening f s.header ++ pieces.map fun p => .playload s.header p.1 p.2)

/-- At the start of a frame, with what is kept of its header. -/
structure AtHead (done rest : List Frame) (s : WebSocketSplitter) : Prop where
  got : s.gotHeader = false
  more : ∀ f ∈ done.getLast?, f.data = [] → rest ≠ []
  log : Log done s.events

/-- The state when `y` is still to come of the frames. -/
inductive Reading (fs : List Frame) (y : Bytes) (s : WebSocketSplitter) : Prop where
  | head (done rest : List Frame) : fs = done ++ rest → AtHead done rest s →
      s.remainData ++ y = rest.flatMap Frame.bytes →
      (∀ f ∈ rest.head?, s.remainData.length < f.head.length) → Reading fs y s
  | body (done : List Frame) (f : Frame) (rest : List Frame) : fs = done ++ f :: rest →
      InBody done f s → s.remainData = [] →
      y = f.body.drop s.playloadOffset ++ rest.flatMap Frame.bytes → Reading fs y s

theorem xorMask_drop (mask : Bytes) (i k : ℕ) (data : Bytes) :
    (xorMask mask i data).drop k = xorMask mask (i + k) (data.drop k) := by
  induction k generalizing i data with
  | zero => rfl
  | succ k ih =>
      cases data with
      | nil => rfl
      | cons c data =>
          rw [xorMask, List.drop_succ_cons, List.drop_succ_cons, ih, Nat.add_assoc,
            Nat.add_comm 1 k]

theorem xorMask_take (mask : Bytes) (i k : ℕ) (data : Bytes) :
    (xorMask mask i data).take k = xorMask mask i (data.take k) := by
  induction k generalizing i data with
  | zero => rfl
  | succ k ih =>
      cases data with
      | nil => rfl
      | cons c data => rw [xorMask, List.take_succ_cons, List.take_succ_cons, ih, xorMask]

/-- A piece of the payload is handed on as it was before it was masked. -/
theorem onPlayloadData_piece (hh : f.IsHeader s.header)
    (hmask : f.header.masked = true → s.maskOffset = n % 4) (k recved : ℕ) :
    ({ s with playloadOffset := recved }.onPlayloadData ((f.body.drop n).take k)).events =
        s.events ++ [.playload s.header ((f.data.drop n).take k) recved] ∧
      (f.header.masked = true →
        ({ s with playloadOffset := recved }.onPlayloadData
          ((f.body.drop n).take k)).maskOffset = (n + ((f.data.drop n).take k).length) % 4) := by
  unfold onPlayloadData Frame.body
  by_cases hm : f.header.masked = true
  · have hflag : s.header.maskFlag = true := hh.maskFlag.trans hm
    have hbody : ((xorMask f.header.mask 0 f.data).drop n).take k =
        xorMask f.header.mask n ((f.data.drop n).take k) := by
      rw [xorMask_drop, xorMask_take, Nat.zero_add]
    rw [if_pos hm, if_pos hflag, hbody, hh.mask hm, hmask hm]
    refine ⟨?_, fun _ => ?_⟩
    · simp only [emit]
      rw [xorMask_mod (Nat.mod_mod n 4), xorMask_twice]
    · simp only [emit, xorMask_length]
      omega
  · have hflag : ¬ s.header.maskFlag = true := by rw [hh.maskFlag]; exact hm
    rw [if_neg hm, if_neg hflag]
    exact ⟨rfl, fun hm' => absurd hm' hm⟩

@[simp] theorem onPlayloadData_frame (s : WebSocketSplitter) (data : Bytes) :
    (s.onPlayloadData data).header = s.header ∧ (s.onPlayloadData data).gotHeader = s.gotHeader ∧
      (s.onPlayloadData data).playloadOffset = s.playloadOffset ∧
      (s.onPlayloadData data).remainData = s.remainData := by
  unfold onPlayloadData emit
  split_ifs <;> exact ⟨rfl, rfl, rfl, rfl⟩

/-- The last piece of a frame. -/
theorem log_done (h : InBody done f s) :
    Log (done ++ [f]) (s.events ++
      [.playload s.header (f.data.drop s.playloadOffset) f.data.length, .complete s.header]) := by
  obtain ⟨es, pieces, hlog, hflat, hnone, hevents⟩ := h.log
  rw [hevents, List.append_assoc]
  by_cases hempty : f.data = []
  · refine .doubled hlog hempty ⟨s.header, h.isHeader, ?_⟩
    rw [hnone hempty, opening, if_pos hempty, hempty]
    simp
  · refine .received hlog hempty ⟨s.header,
      pieces ++ [(f.data.drop s.playloadOffset, f.data.length)], h.isHeader, ?_, ?_⟩
    · rw [List.map_append, List.flatten_append, hflat]
      simp
    · rw [opening, if_neg hempty]
      simp

/-- A piece in the middle of a frame. -/
theorem log_more {piece : Bytes} (h : InBody done f s) {k : ℕ}
    (hk : s.playloadOffset + k < f.data.length)
    (hpiece : piece = (f.data.drop s.playloadOffset).take k) :
    ∃ (es : List Event) (pieces : List (Bytes × ℕ)), Log done es ∧
      (pieces.map Prod.fst).flatten = f.data.take (s.playloadOffset + k) ∧
      (f.data = [] → pieces = []) ∧
      s.events ++ [.playload s.header piece (s.playloadOffset + k)] =
        es ++ (opening f s.header ++ pieces.map fun p => .playload s.header p.1 p.2) := by
  obtain ⟨es, pieces, hlog, hflat, -, hevents⟩ := h.log
  refine ⟨es, pieces ++ [(piece, s.playloadOffset + k)], hlog, ?_, ?_, ?_⟩
  · rw [List.map_append, List.flatten_append, hflat, hpiece, List.take_add]
    simp
  · intro hempty
    rw [hempty] at hk
    cases hk
  · rw [hevents]
    simp

/-- The data ends before the payload. -/
theorem playload_part (hnil : ptr ≠ [])
    (hlt : ptr.length + s.playloadOffset < s.header.playloadLen) : s.playload ptr =
      ({ { s with playloadOffset := s.playloadOffset + ptr.length }.onPlayloadData ptr with
        remainData := [] }, none) := by
  have hslice : ¬ ptr.length + s.playloadOffset > s.header.playloadLen := by omega
  have hframe := onPlayloadData_frame { s with playloadOffset := s.playloadOffset + ptr.length } ptr
  have hend : ¬ s.playloadOffset + ptr.length = s.header.playloadLen := by omega
  rw [playload, if_neg hnil]
  simp only [if_neg hslice, List.take_length, hframe, if_neg hend]

/-- The data reaches the end of the payload. -/
theorem playload_end (hnil : ptr ≠ []) (hoff : s.playloadOffset ≤ s.header.playloadLen)
    (hge : s.header.playloadLen ≤ ptr.length + s.playloadOffset) :
    (s.playload ptr).1 = { { s with playloadOffset := s.header.playloadLen }.onPlayloadData
        (ptr.take (s.header.playloadLen - s.playloadOffset)) with
        gotHeader := false
        events := ({ s with playloadOffset := s.header.playloadLen }.onPlayloadData
          (ptr.take (s.header.playloadLen - s.playloadOffset))).events ++ [.complete s.header]
        remainData := ptr.drop (s.header.playloadLen - s.playloadOffset) } ∧
      (s.playload ptr).2 =
        if ptr.drop (s.header.playloadLen - s.playloadOffset) = [] then none
        else some (ptr.drop (s.header.playloadLen - s.playloadOffset)) := by
  have hslice : (if ptr.length + s.playloadOffset > s.header.playloadLen then
      s.header.playloadLen - s.playloadOffset else ptr.length) =
      s.header.playloadLen - s.playloadOffset := by
    split_ifs <;> omega
  have hend : s.playloadOffset + (s.header.playloadLen - s.playloadOffset) =
      s.header.playloadLen := by omega
  have hframe := onPlayloadData_frame { s with playloadOffset := s.header.playloadLen }
    (ptr.take (s.header.playloadLen - s.playloadOffset))
  rw [playload, if_neg hnil]
  simp only [hslice, hend, hframe, if_true, emit]
  by_cases hrest : ptr.drop (s.header.playloadLen - s.playloadOffset) = []
  · simp [hrest]
  · simp [hrest]

/-- The part behind a header either uses all its data, or ends a frame and leaves what is behind
it. -/
theorem playload_reading (h : InBody done f s)
    (hptr : ptr ++ y = f.body.drop s.playloadOffset ++ rest.flatMap Frame.bytes) :
    (s.playload ptr).2 = none ∧ Reading (done ++ f :: rest) y (s.playload ptr).1 ∨
      ∃ r, (s.playload ptr).2 = some r ∧ (s.playload ptr).1.remainData = r ∧
        AtHead (done ++ [f]) rest (s.playload ptr).1 ∧ r ++ y = rest.flatMap Frame.bytes ∧
        r.length ≤ ptr.length := by
  have hlen := h.isHeader.len
  have hbody : (f.body.drop s.playloadOffset).length = f.data.length - s.playloadOffset := by
    rw [List.length_drop, f.body_length]
  have hle := h.le
  by_cases hnil : ptr = []
  · left
    rw [playload, if_pos hnil]
    rw [hnil, List.nil_append] at hptr
    exact ⟨rfl, .body done f rest rfl ⟨h.got, h.isHeader, h.le, h.lt, h.mask, h.log⟩ rfl hptr⟩
  · have hpos := List.length_pos_iff.mpr hnil
    by_cases hlt : ptr.length + s.playloadOffset < s.header.playloadLen
    · -- still in the payload
      left
      have hfront : ptr = (f.body.drop s.playloadOffset).take ptr.length := by
        have htake := congrArg (List.take ptr.length) hptr
        rwa [List.take_left, List.take_append_of_le_length (by omega)] at htake
      have hafter : y = f.body.drop (s.playloadOffset + ptr.length) ++
        rest.flatMap Frame.bytes := by
        have hdrop := congrArg (List.drop ptr.length) hptr
        rwa [List.drop_left, List.drop_append_of_le_length (by omega), List.drop_drop] at hdrop
      obtain ⟨hevents, hmask⟩ := onPlayloadData_piece h.isHeader h.mask ptr.length
        (s.playloadOffset + ptr.length)
      have hpiece : ((f.data.drop s.playloadOffset).take ptr.length).length = ptr.length := by
        rw [List.length_take, List.length_drop]
        omega
      rw [← hfront, hpiece] at hmask
      rw [← hfront] at hevents
      have hframe := onPlayloadData_frame
        { s with playloadOffset := s.playloadOffset + ptr.length } ptr
      rw [playload_part hnil hlt]
      refine ⟨rfl, .body done f rest rfl ⟨?_, ?_, ?_, ?_, ?_, ?_⟩ rfl ?_⟩
      · exact hframe.2.1.trans h.got
      · rw [hframe.1]
        exact h.isHeader
      · rw [hframe.2.2.1]
        show s.playloadOffset + ptr.length ≤ _
        omega
      · rw [hframe.2.2.1]
        show _ → s.playloadOffset + ptr.length < _
        omega
      · rw [hframe.2.2.1]
        exact hmask
      · rw [hframe.2.2.1, hframe.1, hevents]
        exact log_more h (by omega) rfl
      · rw [hframe.2.2.1]
        exact hafter
    · have hge := Nat.not_lt.mp hlt
      have hfront : ptr.take (s.header.playloadLen - s.playloadOffset) =
          f.body.drop s.playloadOffset := by
        have htake := congrArg (List.take (s.header.playloadLen - s.playloadOffset)) hptr
        rwa [List.take_append_of_le_length (by omega), hlen, ← hbody, List.take_left, hbody,
          ← hlen] at htake
      have hafter : ptr.drop (s.header.playloadLen - s.playloadOffset) ++ y =
          rest.flatMap Frame.bytes := by
        have hdrop := congrArg (List.drop (s.header.playloadLen - s.playloadOffset)) hptr
        rwa [List.drop_append_of_le_length (by omega), hlen, ← hbody, List.drop_left, hbody,
          ← hlen] at hdrop
      obtain ⟨hevents, -⟩ := onPlayloadData_piece h.isHeader h.mask
        (s.header.playloadLen - s.playloadOffset) s.header.playloadLen
      have hwhole : (f.body.drop s.playloadOffset).take
          (s.header.playloadLen - s.playloadOffset) = f.body.drop s.playloadOffset :=
        List.take_of_length_le (by omega)
      have hwhole' : (f.data.drop s.playloadOffset).take
          (s.header.playloadLen - s.playloadOffset) = f.data.drop s.playloadOffset :=
        List.take_of_length_le (by rw [List.length_drop]; omega)
      rw [hwhole, ← hfront, hwhole'] at hevents
      obtain ⟨hstate, hrest⟩ := playload_end hnil (by omega) hge
      have hlog := log_done h
      have hhead : AtHead (done ++ [f]) rest (s.playload ptr).1 := by
        rw [hstate]
        refine ⟨rfl, ?_, ?_⟩
        · intro g hg hempty
          rw [List.getLast?_concat, Option.mem_some_iff] at hg
          subst hg
          -- nothing of the data belongs to an empty frame
          rintro rfl
          rw [hlen, hempty] at hafter
          simp [hnil] at hafter
        · show Log _ (_ ++ [Event.complete s.header])
          rw [hevents, List.append_assoc, hlen]
          exact hlog
      by_cases hmore : ptr.drop (s.header.playloadLen - s.playloadOffset) = []
      · left
        rw [if_pos hmore] at hrest
        refine ⟨hrest, .head (done ++ [f]) rest (by simp) hhead ?_ ?_⟩
        · rw [hstate]
          exact hafter
        · intro g _
          rw [hstate]
          show (ptr.drop _).length < _
          rw [hmore]
          have := g.head_length
          simp only [List.length_nil]
          omega
      · right
        rw [if_neg hmore] at hrest
        refine ⟨_, hrest, by rw [hstate], hhead, hafter, ?_⟩
        rw [List.length_drop]
        omega

theorem gotNewHeader_inBody (h : AtHead done (f :: rest) s) {hd : WebSocketHeader}
    (hhead : f.IsHeader hd) : InBody done f (s.gotNewHeader hd) ∧
      (s.gotNewHeader hd).playloadOffset = 0 := by
  have hlen := hhead.len
  unfold gotNewHeader
  by_cases hempty : f.data = []
  · have hzero : hd.playloadLen = 0 := by rw [hlen, hempty, List.length_nil]
    rw [if_pos hzero]
    refine ⟨⟨rfl, hhead, Nat.zero_le _, fun hne => absurd hempty hne, fun _ => rfl, ?_⟩, rfl⟩
    refine ⟨s.events, [], h.log, by simp [emit], fun _ => rfl, ?_⟩
    simp [emit, opening, hempty]
  · have hpos := List.length_pos_iff.mpr hempty
    have hnonzero : ¬ hd.playloadLen = 0 := by omega
    rw [if_neg hnonzero]
    refine ⟨⟨rfl, hhead, Nat.zero_le _, fun _ => hpos, fun _ => rfl, ?_⟩, rfl⟩
    refine ⟨s.events, [], h.log, by simp [emit], fun _ => rfl, ?_⟩
    simp [emit, opening, hempty]

/-- All frames that begin in some data. -/
theorem beginDecode_reading (fuel : ℕ) {data : Bytes} (h : AtHead done rest s)
    (hlen : ∀ f ∈ rest, f.data.length < 2 ^ 64) (hdata : data ++ y = rest.flatMap Frame.bytes)
    (hremain : s.remainData = [] ∨ s.remainData = data) (hfuel : data.length < fuel) :
    Reading (done ++ rest) y (beginDecode fuel s data) := by
  induction fuel generalizing s done rest data with
  | zero => cases hfuel
  | succ fuel ih =>
      -- a header that is not there as a whole is kept
      have hkeep : (∀ f ∈ rest.head?, data.length < f.head.length) →
          (decodeHeader s.header data).2 = none →
          Reading (done ++ rest) y (beginDecode (fuel + 1) s data) := by
        intro hshort hnone
        obtain ⟨hd, hpair⟩ : ∃ hd, decodeHeader s.header data = (hd, none) :=
          ⟨_, Prod.ext rfl hnone⟩
        have hdata' : (if s.remainData = [] then data else s.remainData) = data := by
          split_ifs with hempty
          · rfl
          · exact hremain.resolve_left hempty
        rw [beginDecode, hpair]
        refine .head done rest rfl ⟨h.got, h.more, h.log⟩ ?_ ?_
        · show (if s.remainData = [] then data else s.remainData) ++ y = _
          rw [hdata']
          exact hdata
        · show ∀ f ∈ rest.head?, (if s.remainData = [] then data else s.remainData).length < _
          rw [hdata']
          exact hshort
      cases rest with
      | nil =>
          obtain ⟨rfl, -⟩ := List.append_eq_nil_iff.mp hdata
          exact hkeep (by simp) rfl
      | cons f rest =>
          rw [List.flatMap_cons, Frame.bytes_eq, List.append_assoc] at hdata
          have hf := hlen f List.mem_cons_self
          by_cases hshort : data.length < f.head.length
          · have hfront : data <+: f.head :=
              List.prefix_of_prefix_length_le ⟨y, hdata⟩ (List.prefix_append _ _) (by omega)
            obtain ⟨q, hq⟩ := hfront
            refine hkeep (by simpa using hshort) (decodeHeader_part f hf s.header hq ?_)
            rintro rfl
            rw [List.append_nil] at hq
            rw [hq] at hshort
            exact Nat.lt_irrefl _ hshort
          · obtain ⟨ptr, rfl⟩ : f.head <+: data :=
              List.prefix_of_prefix_length_le ⟨_, hdata.symm⟩ (List.prefix_append _ _) (by omega)
            rw [List.append_assoc, List.append_cancel_left_eq] at hdata
            obtain ⟨hd, hhead, hisHeader⟩ := decodeHeader_whole f hf s.header ptr
            obtain ⟨hbody, hzero⟩ := gotNewHeader_inBody h hisHeader
            have hptr : ptr ++ y = f.body.drop (s.gotNewHeader hd).playloadOffset ++
                rest.flatMap Frame.bytes := by
              rw [hzero, List.drop_zero]
              exact hdata
            have htwo := f.head_length
            rw [List.length_append] at hfuel
            rw [beginDecode, hhead]
            rcases playload_reading hbody hptr with ⟨hnone, hread⟩ | ⟨r, hsome, hr, hat, hy, hle⟩
            · obtain ⟨s', hpair⟩ : ∃ s', (s.gotNewHeader hd).playload ptr = (s', none) :=
                ⟨_, Prod.ext rfl hnone⟩
              rw [hpair] at hread
              simp only [hpair]
              exact hread
            · obtain ⟨s', hpair⟩ : ∃ s', (s.gotNewHeader hd).playload ptr = (s', some r) :=
                ⟨_, Prod.ext rfl hsome⟩
              rw [hpair] at hat hr
              simp only [hpair]
              have hrest := ih hat (fun g hg => hlen g (List.mem_cons_of_mem f hg)) hy
                (Or.inr hr) (by omega)
              rwa [List.append_assoc] at hrest

/-- One piece of the stream. -/
theorem decode_reading {v : Bytes} (hlen : ∀ f ∈ fs, f.data.length < 2 ^ 64)
    (h : Reading fs (v ++ y) s) : Reading fs y (s.decode v) := by
  cases h with
  | head done rest hfs hat hy _ =>
      subst hfs
      have hrest : ∀ f ∈ rest, f.data.length < 2 ^ 64 := fun f hf =>
        hlen f (List.mem_append_right done hf)
      have hgot : ¬ s.gotHeader = true := by rw [hat.got]; decide
      rw [← List.append_assoc] at hy
      rw [decode, if_neg hgot]
      by_cases hempty : s.remainData = []
      · rw [if_pos hempty]
        rw [hempty, List.nil_append] at hy
        exact beginDecode_reading _ hat hrest hy (Or.inl hempty) (Nat.lt_succ_self _)
      · rw [if_neg hempty]
        exact beginDecode_reading (s := { s with remainData := s.remainData ++ v }) _
          ⟨hat.got, hat.more, hat.log⟩ hrest hy (Or.inr rfl) (Nat.lt_succ_self _)
  | body done f rest hfs hin _ hy =>
      subst hfs
      rw [decode, if_pos hin.got]
      rcases playload_reading hin hy with ⟨hnone, hread⟩ | ⟨r, hsome, hr, hat, hy', -⟩
      · obtain ⟨s', hpair⟩ : ∃ s', s.playload v = (s', none) := ⟨_, Prod.ext rfl hnone⟩
        rw [hpair] at hread
        simp only [hpair]
        exact hread
      · obtain ⟨s', hpair⟩ : ∃ s', s.playload v = (s', some r) := ⟨_, Prod.ext rfl hsome⟩
        rw [hpair] at hat hr
        simp only [hpair]
        have hrest := beginDecode_reading (r.length + 1) hat
          (fun g hg => hlen g (by simp [hg])) hy' (Or.inr hr) (Nat.lt_succ_self _)
        rwa [List.append_assoc] at hrest

theorem decodes_reading (chunks : List Bytes) (hlen : ∀ f ∈ fs, f.data.length < 2 ^ 64)
    (h : Reading fs (chunks.flatten ++ y) s) : Reading fs y (chunks.foldl decode s) := by
  induction chunks generalizing s with
  | nil => exact h
  | cons v chunks ih =>
      rw [List.flatten_cons, List.append_assoc] at h
      exact ih (decode_reading hlen h)

/-- Every frame is told of in turn, once, and completely. -/
def Completed (fs : List Frame) (events : List Event) : Prop :=
  ∃ ess : List (List Event), events = ess.flatten ∧ List.Forall₂ Received fs ess

/-- At the end all frames are over, or the last one is empty and nothing came behind it. -/
theorem reading_end (h : Reading fs [] s) :
    (Log fs s.events ∧ ∀ f ∈ fs.getLast?, f.data ≠ []) ∨
      ∃ done f es es', fs = done ++ [f] ∧ f.data = [] ∧ Log done es ∧ Received f es' ∧
        s.events = es ++ es' := by
  cases h with
  | head done rest hfs hat hy hshort =>
      cases rest with
      | nil =>
          rw [List.append_nil] at hfs
          subst hfs
          exact Or.inl ⟨hat.log, fun f hf hempty => hat.more f hf hempty rfl⟩
      | cons f rest =>
          rw [List.append_nil, List.flatMap_cons, Frame.bytes_eq] at hy
          have hlt := hshort f rfl
          rw [hy] at hlt
          simp only [List.length_append] at hlt
          omega
  | body done f rest hfs hin _ hy =>
      obtain ⟨hbody, hrest⟩ := List.append_eq_nil_iff.mp hy.symm
      have hover : f.data.length ≤ s.playloadOffset := by
        rw [List.drop_eq_nil_iff, f.body_length] at hbody
        exact hbody
      have hempty : f.data = [] := by
        by_contra hne
        have := hin.lt hne
        omega
      obtain rfl : rest = [] := by
        cases rest with
        | nil => rfl
        | cons g rest =>
            rw [List.flatMap_cons] at hrest
            exact absurd (List.append_eq_nil_iff.mp hrest).1 g.bytes_ne_nil
      obtain ⟨es, pieces, hlog, -, hnone, hevents⟩ := hin.log
      refine Or.inr ⟨done, f, es, _, hfs, hempty, hlog, ⟨s.header, [], hin.isHeader, ?_, rfl⟩, ?_⟩
      · rw [hempty]
        rfl
      · rw [hevents, hnone hempty, opening, if_pos hempty]
        rfl

theorem log_completed {es : List Event} (h : Log fs es) (hne : ∀ f ∈ fs, f.data ≠ []) :
    Completed fs es := by
  induction h with
  | nil => exact ⟨[], rfl, .nil⟩
  | @received fs f es es' _ _ hf ih =>
      obtain ⟨ess, hes, hall⟩ := ih fun g hg => hne g (List.mem_append_left _ hg)
      exact ⟨ess ++ [es'], by simp [hes], List.rel_append hall (.cons hf .nil)⟩
  | @doubled fs f es es' _ hempty _ _ => exact absurd hempty (hne f (by simp))

theorem completed_snoc {es es' : List Event} (h : Completed fs es) (hf : Received f es') :
    Completed (fs ++ [f]) (es ++ es') := by
  obtain ⟨ess, hes, hall⟩ := h
  exact ⟨ess ++ [es'], by simp [hes], List.rel_append hall (.cons hf .nil)⟩

/-- How often the end of a frame was told. -/
def completes (es : List Event) : ℕ :=
  es.countP fun e =>
    match e with
    | .complete _ => true
    | _ => false

theorem completes_append (es es' : List Event) :
    completes (es ++ es') = completes es + completes es' := List.countP_append

theorem received_completes {es : List Event} (h : Received f es) : completes es = 1 := by
  obtain ⟨hd, pieces, -, -, rfl⟩ := h
  have hnone : completes (pieces.map fun p => .playload hd p.1 p.2) = 0 := by
    refine List.countP_eq_zero.mpr fun e he => ?_
    obtain ⟨p, -, rfl⟩ := List.mem_map.mp he
    simp
  have hsplit := completes_append (.header hd :: pieces.map fun p => .playload hd p.1 p.2)
    [.complete hd]
  rw [List.cons_append] at hsplit
  rw [hsplit]
  show completes (pieces.map fun p => .playload hd p.1 p.2) + 1 = 1
  rw [hnone]

theorem completed_completes {es : List Event} (h : Completed fs es) :
    completes es = fs.length := by
  obtain ⟨ess, rfl, hall⟩ := h
  induction hall with
  | nil => rfl
  | cons hf _ ih => rw [List.flatten_cons, completes_append, received_completes hf, ih,
      List.length_cons, Nat.add_comm]

/-- An empty frame is over twice. -/
theorem log_completes {es : List Event} (h : Log fs es) :
    completes es = fs.length + (fs.filter (·.data = [])).length := by
  induction h with
  | nil => rfl
  | @received fs f es es' _ hne hf ih =>
      rw [completes_append, received_completes hf, ih, List.filter_append,
        List.filter_cons_of_neg (by simpa using hne), List.length_append]
      simp only [List.filter_nil, List.append_nil, List.length_singleton]
      omega
  | @doubled fs f es es' _ hempty hf ih =>
      obtain ⟨hd, -, rfl⟩ := hf
      have htwo : completes [.header hd, .complete hd, .playload hd [] 0, .complete hd] = 2 := rfl
      rw [completes_append, htwo, ih, List.filter_append,
        List.filter_cons_of_pos (by simpa using hempty), List.length_append, List.length_append]
      simp only [List.filter_nil, List.length_singleton]
      omega

theorem new_reading (hd : WebSocketHeader) (fs : List Frame) :
    Reading fs (fs.flatMap Frame.bytes) (new hd) := by
  refine .head [] fs rfl ⟨rfl, by simp, .nil⟩ rfl fun f _ => ?_
  have := f.head_length
  show 0 < _
  omega

/-- Frames with a payload come out as they went in, in whatever pieces the stream arrives. -/
theorem decodes_encode (hd : WebSocketHeader) (chunks : List Bytes)
    (hdata : ∀ f ∈ fs, f.data ≠ [] ∧ f.data.length < 2 ^ 31)
    (hcut : chunks.flatten = fs.flatMap fun f => encode f.header f.data) :
    Completed fs (chunks.foldl decode (new hd)).events := by
  have hread := new_reading hd fs
  have hstream : chunks.flatten ++ [] = fs.flatMap Frame.bytes := by
    rw [List.append_nil]
    exact hcut
  rw [← hstream] at hread
  have hend := decodes_reading chunks
    (fun f hf => Nat.lt_trans (hdata f hf).2 (by decide)) hread
  rcases reading_end hend with ⟨hlog, -⟩ | ⟨done, f, es, es', rfl, hempty, -⟩
  · exact log_completed hlog fun f hf => (hdata f hf).1
  · exact absurd hempty (hdata f (by simp)).1

/-- A text of five bytes with a mask. -/
def helloFrame : Frame := ⟨⟨true, 0, .TEXT, true, 0, [1, 2, 3, 4]⟩, ascii "hello"⟩

def pingFrame : Frame := ⟨⟨true, 0, .PING, false, 0, []⟩, []⟩

/-- Two of them, cut inside the payload of the first and the header of the second. -/
theorem decodes_encode_hello :
    Completed [helloFrame, helloFrame]
      (([(helloFrame.bytes ++ helloFrame.bytes).take 8,
        ((helloFrame.bytes ++ helloFrame.bytes).drop 8).take 4,
        (helloFrame.bytes ++ helloFrame.bytes).drop 12].foldl decode
          (new helloFrame.header)).events) :=
  decodes_encode helloFrame.header _ (by decide +kernel) (by decide +kernel)

/-- The end of every frame is told exactly once if and only if no frame but the last is empty. -/
theorem decodes_complete_iff (hd : WebSocketHeader) (chunks : List Bytes)
    (hlen : ∀ f ∈ fs, f.data.length < 2 ^ 64)
    (hcut : chunks.flatten = fs.flatMap fun f => encode f.header f.data) :
    Completed fs (chunks.foldl decode (new hd)).events ↔ ∀ f ∈ fs.dropLast, f.data ≠ [] := by
  have hread := new_reading hd fs
  have hstream : chunks.flatten ++ [] = fs.flatMap Frame.bytes := by
    rw [List.append_nil]
    exact hcut
  rw [← hstream] at hread
  have hend := reading_end (decodes_reading chunks hlen hread)
  constructor
  · intro hdone f hf hempty
    have hcount := completed_completes hdone
    have hmem : ∀ gs : List Frame, f ∈ gs → 0 < (gs.filter (·.data = [])).length := fun gs hg =>
      List.length_pos_of_mem (List.mem_filter.mpr ⟨hg, by simpa using hempty⟩)
    rcases hend with ⟨hlog, -⟩ | ⟨done, g, es, es', rfl, -, hlog, hg, hevents⟩
    · rw [log_completes hlog] at hcount
      have := hmem fs (List.mem_of_mem_dropLast hf)
      omega
    · rw [hevents, completes_append, log_completes hlog, received_completes hg,
        List.length_append, List.length_singleton] at hcount
      rw [List.dropLast_concat] at hf
      have := hmem done hf
      omega
  · intro hne
    rcases hend with ⟨hlog, hlast⟩ | ⟨done, g, es, es', rfl, -, hlog, hg, hevents⟩
    · refine log_completed hlog fun f hf => ?_
      rcases List.eq_nil_or_concat fs with rfl | ⟨gs, g, rfl⟩
      · cases hf
      · rw [List.concat_eq_append] at hne hlast hf
        rw [List.dropLast_concat] at hne
        rw [List.getLast?_concat] at hlast
        rcases List.mem_append.mp hf with hf | hf
        · exact hne f hf
        · rw [List.mem_singleton.mp hf]
          exact hlast g rfl
    · rw [List.dropLast_concat] at hne
      rw [hevents]
      exact completed_snoc (log_completed hlog hne) hg

/-- An empty frame at the end of the stream. -/
theorem decodes_complete_last :
    Completed [helloFrame, pingFrame]
        (([helloFrame.bytes, pingFrame.bytes].foldl decode (new helloFrame.header)).events) ↔
      ∀ f ∈ [helloFrame, pingFrame].dropLast, f.data ≠ [] :=
  decodes_complete_iff helloFrame.header _ (by decide +kernel) (by decide +kernel)

/-- A ping before a text is over twice. -/
theorem decodes_complete_ping :
    ¬ Completed [pingFrame, helloFrame]
        (((new helloFrame.header).decode (pingFrame.bytes ++ helloFrame.bytes)).events) ∧
      completes (((new helloFrame.header).decode
        (pingFrame.bytes ++ helloFrame.bytes)).events) = 3 := by
  have hthree : completes (((new helloFrame.header).decode
      (pingFrame.bytes ++ helloFrame.bytes)).events) = 3 := by decide +kernel
  refine ⟨fun h => ?_, hthree⟩
  have htwo := completed_completes h
  rw [hthree] at htwo
  cases htwo

end
end CoreLooper.WebSocket
