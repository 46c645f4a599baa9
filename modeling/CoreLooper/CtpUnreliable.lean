import CoreLooper.CtpMessages

/-!
# Messages between noise

In unreliable mode the second protocol looks for the start of a command before its loop, and only
there. Noise in front of the first message of a round is eaten; noise behind a message of the same
round is read as part of the next header.
-/
namespace CoreLooper.CTP
open CStrings

/-- Noise, and the message behind it. -/
structure Segment where
  noise : Bytes
  message : Message
  noise_start : ¬ CTP_CMD ++ [61] <:+: noise
  noise_end : ¬ CRLF ++ CRLF <:+: noise

/-- The text of segments, and what follows them. -/
def stream : List Segment → Bytes → Bytes
  | [], tail => tail
  | g :: gs, tail => g.noise ++ (g.message.text ++ stream gs tail)

namespace Segment

variable (g : Segment)

def length : ℕ := g.noise.length + g.message.text.length

/-- The segment without its noise. -/
def quiet : Segment where
  noise := []
  message := g.message
  noise_start := by
    rw [List.infix_nil]
    exact List.cons_ne_nil _ _
  noise_end := by
    rw [List.infix_nil]
    exact List.cons_ne_nil _ _

/-- The header behind the noise is found, with its length. -/
def Readable : Prop :=
  0 ∉ g.noise ∧ ¬ CommonTextProtocol.pszKey <:+: g.noise.map toLower

/-- Nor does the noise change a field. -/
def Harmless : Prop :=
  g.Readable ∧ parseHeaderItems (g.noise ++ g.message.header) = g.message.bundle

/-- The noise fits the inbox with the start of the message, and the message does. -/
def Sized : Prop := g.noise.length + 6 ≤ bufferLimit - 1 ∧ g.message.text.length ≤ bufferLimit - 1

variable {g} in
theorem Sized.length_lt (hg : g.Sized) : g.length < 2 ^ 31 := by
  obtain ⟨hnoise, htext⟩ := hg
  unfold bufferLimit at hnoise htext
  rw [length]
  omega

variable {g} in
theorem Sized.body_le (hg : g.Sized) : g.message.body.length ≤ bufferLimit := by
  have htext := hg.2
  rw [Message.text, List.length_append] at htext
  omega

/-- What the parser takes where nothing was eaten. -/
def frame : Frame where
  headerLength := g.noise.length + g.message.head.length
  nContentLength := g.message.body.length
  header := g.noise ++ g.message.header
  body := g.message.body

variable {g} in
theorem Sized.quiet (hg : g.Sized) : g.quiet.Sized :=
  ⟨by unfold bufferLimit; exact (by decide : 0 + 6 ≤ 16 * 1024 * 1024 - 1), hg.2⟩

theorem quiet_harmless : g.quiet.Harmless := by
  have hitems : parseHeaderItems ([] ++ g.message.header) = g.message.bundle :=
    g.message.parseHeaderItems_header
  exact ⟨⟨List.not_mem_nil, by simp [quiet, CommonTextProtocol.pszKey, CRLF]⟩, hitems⟩

/-- What is to be delivered. -/
def event : Bytes × Bundle × Bytes := (g.message.cmd, g.message.bundle, g.message.body)

theorem text_eq (tail : Bytes) : g.noise ++ (g.message.text ++ tail) =
    g.noise ++ (g.message.head ++ (g.message.body ++ tail)) := by
  rw [Message.text, List.append_assoc]

theorem head_long : 6 ≤ g.message.head.length := by
  have hcmd := List.length_pos_iff.mpr g.message.cmd_ne
  have hfour : CTP_CMD.length = 4 := by decide
  rw [g.message.head_length, Message.cmdLine, List.length_append, List.length_cons, hfour]
  omega

theorem length_eq : g.length = g.noise.length + g.message.head.length + g.message.body.length := by
  rw [length, Message.text, List.length_append, Nat.add_assoc]

end Segment

section
variable {w h n : Bytes}

theorem strstr_none (hn : ¬ n <:+: h) (hw : w <:+: h) : strstr w n = none := by
  cases hfound : strstr w n with
  | none => rfl
  | some i =>
      have hcontained := (strstr_found hfound).isInfix.trans (List.drop_suffix i w).isInfix
      exact absurd (hcontained.trans hw) hn

end

/-- No beginning of a text has a header. -/
def Endless (t : Bytes) : Prop :=
  ∀ r, r <+: t → findHeader CommonTextProtocol.pszKey (cstr r) = none

theorem endless_noise {t : Bytes} (ht : ¬ CRLF ++ CRLF <:+: t) : Endless t := fun r hr =>
  findHeader_none (strstr_none ht ((cstr_starts r).trans hr).isInfix)

/-- A null hides what stands behind it. -/
theorem endless_null {noise : Bytes} (hnoise : ¬ CRLF ++ CRLF <:+: noise) (hnull : 0 ∈ noise)
    (t : Bytes) : Endless (noise ++ t) := by
  intro r hr
  apply findHeader_none
  have hstart := (cstr_starts r).trans hr
  have hshort : (cstr r).length ≤ noise.length := by
    by_contra hlong
    have hin : noise <+: cstr r :=
      List.prefix_of_prefix_length_le (List.prefix_append noise t) hstart (by omega)
    exact cstr_not_mem r (hin.subset hnull)
  exact strstr_none hnoise
    (List.prefix_of_prefix_length_le hstart (List.prefix_append noise t) hshort).isInfix

namespace Segment

variable {g : Segment} {r tail : Bytes}

/-- There is no header before the message has all of its own. -/
theorem early (hr : r <+: g.noise ++ (g.message.text ++ tail))
    (hlt : r.length < g.noise.length + g.message.head.length) :
    findHeader CommonTextProtocol.pszKey (cstr r) = none := by
  have hlen := cstr_length_le r
  rw [text_eq] at hr
  exact findHeader_none (g.message.strstr_early g.noise (g.message.body ++ tail) g.noise_end
    ((cstr_starts r).trans hr) (by omega))

theorem found (hg : g.Readable) (y : Bytes) :
    findHeader CommonTextProtocol.pszKey (cstr (g.noise ++ (g.message.head ++ y))) =
      some ⟨g.noise.length + g.message.head.length, g.message.body.length⟩ := by
  rw [cstr_append hg.1, cstr_append g.message.head_no_null]
  exact g.message.findHeader_message (cstr y) g.noise_end hg.2

theorem sum_eq (hsize : g.length < 2 ^ 31) :
    i32 (((g.noise.length + g.message.head.length : ℕ) : ℤ) + g.message.body.length) =
      (g.length : ℤ) := by
  have hlen := g.length_eq
  rw [i32_eq (by omega) (by omega), hlen]
  push_cast
  rfl

theorem frameOf_eq (y : Bytes) :
    frameOf ⟨g.noise.length + g.message.head.length, g.message.body.length⟩
      (g.noise ++ (g.message.text ++ y)) = g.frame := by
  have hhead : g.message.head = g.message.header ++ (CRLF ++ CRLF) := rfl
  have hlen := g.message.header_length
  have htake : (g.noise ++ (g.message.text ++ y)).take
      (g.noise.length + g.message.head.length - 4) = g.noise ++ g.message.header := by
    have hcut : g.noise.length + g.message.head.length - 4 =
        (g.noise ++ g.message.header).length := by
      rw [List.length_append]
      omega
    have hsplit : g.noise ++ (g.message.text ++ y) =
        g.noise ++ g.message.header ++ (CRLF ++ CRLF ++ g.message.body ++ y) := by
      simp [Message.text, hhead]
    rw [hcut, hsplit, List.take_left]
  have hdrop : (g.noise ++ (g.message.text ++ y)).drop
      (g.noise.length + g.message.head.length) = g.message.body ++ y := by
    have hsplit : g.noise ++ (g.message.text ++ y) =
        g.noise ++ g.message.head ++ (g.message.body ++ y) := by
      simp [Message.text]
    rw [hsplit, ← List.length_append, List.drop_left]
  rw [frameOf]
  simp only [htake, hdrop, Int.toNat_natCast, List.take_left]
  rfl

/-- The start of the message is the first in the text. -/
theorem strstr_start (tail : Bytes) :
    strstr (g.noise ++ (g.message.text ++ tail)) (CTP_CMD ++ [61]) = some g.noise.length := by
  obtain ⟨z, hz⟩ := g.message.cmdLine_starts
  have htext : g.message.text ++ tail =
      95 :: 99 :: 109 :: 100 :: 61 :: (z ++ behind g.message.fields (g.message.body ++ tail)) := by
    rw [Message.text, List.append_assoc, Message.head_append, hz]
    rfl
  have hcmd : CTP_CMD ++ [61] = [95, 99, 109, 100, 61] := by decide
  have hover : ∀ i, 0 < i → i < (CTP_CMD ++ [61]).length →
      ¬ (CTP_CMD ++ [61]).drop i <+: g.message.text ++ tail := by
    intro i hpos hlt
    rw [hcmd] at hlt ⊢
    rw [htext]
    have hfive : i < 5 := hlt
    interval_cases i <;> simp
  have hhere : CTP_CMD ++ [61] <+: g.message.text ++ tail := by
    rw [hcmd, htext]
    exact ⟨_, rfl⟩
  rw [strstr_front g.noise_start hover, strstr_here hhere]
  rfl

end Segment

section
variable {σ : Type} (dispatch : Frame → σ → σ) {data tail : Bytes} {p fuel : ℕ}

/-- Less than a segment is left to the next round. -/
theorem parseLoop_incomplete {g : Segment} (hg : g.Readable) (hsize : g.length < 2 ^ 31)
    (hr : data.drop p <+: g.noise ++ (g.message.text ++ tail))
    (hlt : (data.drop p).length < g.length) (s : σ) :
    parseLoop CommonTextProtocol.pszKey dispatch data (fuel + 1) p s =
      some (s, [], (data.length : ℤ) - p) := by
  by_cases hend : data.length ≤ p
  · exact parseLoop_end fuel hend s
  · by_cases hearly : (data.drop p).length < g.noise.length + g.message.head.length
    · exact parseLoop_none fuel (by omega) (g.early hr hearly) s
    · obtain ⟨x, hx⟩ := hr
      have hlen := g.length_eq
      have hall : data.drop p ++ x = (g.noise ++ g.message.head) ++ (g.message.body ++ tail) := by
        rw [hx, g.text_eq, List.append_assoc]
      have hstart : g.noise ++ g.message.head <+: data.drop p := by
        apply List.prefix_of_prefix_length_le (List.prefix_append _ _) ⟨x, hall⟩
        rw [List.length_append]
        omega
      obtain ⟨y, hy⟩ := hstart
      rw [List.append_assoc] at hy
      have hfound := g.found hg y
      rw [hy] at hfound
      rw [List.length_drop] at hlt
      rw [parseLoop_some dispatch fuel (by omega) hfound, g.sum_eq hsize, if_pos (by omega)]

/-- A segment is taken. -/
theorem parseLoop_segment {g : Segment} (hg : g.Readable) (hsize : g.length < 2 ^ 31) {y : Bytes}
    (hr : data.drop p = g.noise ++ (g.message.text ++ y)) (s : σ) :
    parseLoop CommonTextProtocol.pszKey dispatch data (fuel + 1) p s =
      (parseLoop CommonTextProtocol.pszKey dispatch data fuel ((p + g.length : ℕ) : ℤ)
        (dispatch g.frame s)).map fun r => (r.1, ((p : ℤ), g.frame) :: r.2.1, r.2.2) := by
  have hlen := g.length_eq
  have hhead := g.message.header_length
  have hdata : data.length - p = g.length + y.length := by
    rw [← List.length_drop, hr, Segment.length]
    simp only [List.length_append]
    omega
  have hfound := g.found hg (g.message.body ++ y)
  rw [← g.text_eq, ← hr] at hfound
  rw [parseLoop_some dispatch fuel (by omega) hfound, g.sum_eq hsize, if_neg (by omega), hr,
    g.frameOf_eq]
  rfl

/-- All complete segments at the front are taken. -/
theorem parseLoop_stream {t : Bytes} (ht : Endless t) {gs : List Segment}
    (hgs : ∀ g ∈ gs, g.Readable) (hsize : ∀ g ∈ gs, g.length < 2 ^ 31)
    (hdata : data.drop p <+: stream gs t) (hp : p ≤ data.length)
    (hfuel : (data.drop p).length ≤ fuel) (s : σ) :
    ∃ (done left : List Segment) (rest : Bytes) (pfs : List (ℤ × Frame)), gs = done ++ left ∧
      data.drop p = stream done rest ∧ rest <+: stream left t ∧
      (∀ g ∈ left.head?, rest.length < g.length) ∧
      parseLoop CommonTextProtocol.pszKey dispatch data (fuel + 1) p s =
        some (done.foldl (fun s g => dispatch g.frame s) s, pfs, (rest.length : ℤ)) := by
  have hrest : ∀ {p}, p ≤ data.length → ((data.drop p).length : ℤ) = data.length - p := by
    intro p hp
    rw [List.length_drop]
    omega
  induction gs generalizing p fuel s with
  | nil =>
      refine ⟨[], [], data.drop p, [], rfl, rfl, hdata, by simp, ?_⟩
      rw [hrest hp]
      by_cases hend : data.length ≤ p
      · exact parseLoop_end fuel hend s
      · exact parseLoop_none fuel (by omega) (ht _ hdata) s
  | cons g gs ih =>
      have hg := hgs g List.mem_cons_self
      have hg' := hsize g List.mem_cons_self
      by_cases hlt : (data.drop p).length < g.length
      · refine ⟨[], g :: gs, data.drop p, [], rfl, rfl, hdata, by simpa using hlt, ?_⟩
        rw [hrest hp]
        exact parseLoop_incomplete dispatch hg hg' hdata hlt s
      · obtain ⟨y, hy⟩ : ∃ y, data.drop p = g.noise ++ (g.message.text ++ y) := by
          obtain ⟨x, hx⟩ := hdata
          rw [stream, ← List.append_assoc] at hx
          have hstart : g.noise ++ g.message.text <+: data.drop p := by
            apply List.prefix_of_prefix_length_le (List.prefix_append _ _) ⟨x, hx⟩
            rw [List.length_append]
            exact Nat.le_of_not_lt hlt
          obtain ⟨y, hy⟩ := hstart
          exact ⟨y, by rw [← hy, List.append_assoc]⟩
        have hnext : data.drop (p + g.length) = y := by
          rw [← List.drop_drop, hy, ← List.append_assoc, Segment.length, ← List.length_append,
            List.drop_left]
        have hylen : (data.drop p).length = g.length + y.length := by
          rw [hy, Segment.length]
          simp only [List.length_append]
          omega
        have hlen := g.length_eq
        have hhead := g.message.header_length
        rw [List.length_drop] at hylen
        obtain ⟨m, rfl⟩ : ∃ m, fuel = m + 1 := by
          rw [List.length_drop] at hfuel
          exact ⟨fuel - 1, by omega⟩
        have hpre : data.drop (p + g.length) <+: stream gs t := by
          rw [hnext]
          rw [hy, stream, List.prefix_append_right_inj, List.prefix_append_right_inj] at hdata
          exact hdata
        have hfuel' : (data.drop (p + g.length)).length ≤ m := by
          rw [List.length_drop] at hfuel ⊢
          omega
        obtain ⟨done, left, rest, pfs, hsplit, hdone, hleft, hshort, hloop⟩ := ih
          (fun g' hg' => hgs g' (List.mem_cons_of_mem g hg'))
          (fun g' hg' => hsize g' (List.mem_cons_of_mem g hg')) hpre (by omega) hfuel'
          (dispatch g.frame s)
        refine ⟨g :: done, left, rest, (p, g.frame) :: pfs, by rw [hsplit]; rfl, ?_, hleft, hshort,
          ?_⟩
        · rw [stream, ← hdone, hnext, hy]
        · rw [parseLoop_segment dispatch hg hg' hy, hloop]
          rfl

end

namespace CommonTextProtocol2

def NeverResets (mCB : CommonTextProtocolCB2) : Prop := ∀ es, Call.ResetX ∉ mCB es

/-- The commands handed to the owner, with their fields and bodies. -/
def delivered (es : List Event) : List (Bytes × Bundle × Bytes) :=
  es.filterMap fun e => match e with
    | .OnCommand cmd inputBundle inputBody => some (cmd, inputBundle, inputBody)
    | .Output _ => none

/-- The object reads in unreliable mode, with the names it has from the start. -/
structure Reading (s : CommonTextProtocol2) : Prop where
  mReset : s.mReset = false
  mReliableMode : s.mReliableMode = false
  mStringCmd : s.mStringCmd = CTP_CMD
  mStringBytes : s.mStringBytes = CTP_CMD_BODY_LENGTH

/-- What the command in a frame is handed out as, if it has a name. -/
def handedOut (f : Frame) : Option (Bytes × Bundle × Bytes) :=
  let headerItems := parseHeaderItems f.header
  if headerItems.getString CTP_CMD = [] then none
  else some (headerItems.getString CTP_CMD, headerItems, f.body)

section
variable {mCB : CommonTextProtocolCB2} {s : CommonTextProtocol2}

/-- The calls of an owner that does not reset leave the inbox alone and deliver nothing. -/
theorem calls_keep {calls : List Call} (h : Call.ResetX ∉ calls) (hs : Reading s) :
    Reading (calls.foldl call s) ∧ (calls.foldl call s).mInbox = s.mInbox ∧
      delivered (calls.foldl call s).events = delivered s.events := by
  induction calls generalizing s with
  | nil => exact ⟨hs, rfl, rfl⟩
  | cons c calls ih =>
      cases c with
      | ResetX => exact absurd List.mem_cons_self h
      | AddCommand cmd bundle body =>
          have hone : Reading (addCommand cmd bundle body s).2 ∧
              (addCommand cmd bundle body s).2.mInbox = s.mInbox ∧
              delivered (addCommand cmd bundle body s).2.events = delivered s.events := by
            unfold addCommand
            dsimp only
            split_ifs
            · exact ⟨⟨hs.mReset, hs.mReliableMode, hs.mStringCmd, hs.mStringBytes⟩, rfl, rfl⟩
            · refine ⟨⟨hs.mReset, hs.mReliableMode, hs.mStringCmd, hs.mStringBytes⟩, rfl, ?_⟩
              simp [output, delivered]
          obtain ⟨h1, h2, h3⟩ := ih (fun hm => h (List.mem_cons_of_mem _ hm)) hone.1
          rw [List.foldl_cons]
          exact ⟨h1, h2.trans hone.2.1, h3.trans hone.2.2⟩

theorem dispatch_keep (hcb : NeverResets mCB) (hs : Reading s) {f : Frame}
    (hbody : f.body.length ≤ bufferLimit) :
    Reading (dispatch mCB f s) ∧ (dispatch mCB f s).mInbox = s.mInbox ∧
      delivered (dispatch mCB f s).events = delivered s.events ++ (handedOut f).toList := by
  have hname : cstr s.mStringCmd = CTP_CMD := by
    rw [hs.mStringCmd]
    decide
  have hinput : (ByteQueue.clear.write f.body : ByteQueue bufferLimit).bytes = f.body :=
    ByteQueue.write_bytes (by simpa using hbody)
  unfold dispatch onCommand
  dsimp only
  rw [hname]
  split_ifs with hcmd
  · refine ⟨⟨hs.mReset, hs.mReliableMode, hs.mStringCmd, hs.mStringBytes⟩, rfl, ?_⟩
    simp [handedOut, hcmd]
  · obtain ⟨h1, h2, h3⟩ := calls_keep (hcb _) (s := { s with
      mInputBody := ByteQueue.clear.write f.body
      events := s.events ++ [.OnCommand ((parseHeaderItems f.header).getString CTP_CMD)
        (parseHeaderItems f.header) (ByteQueue.clear.write f.body : ByteQueue bufferLimit).bytes] })
      ⟨hs.mReset, hs.mReliableMode, hs.mStringCmd, hs.mStringBytes⟩
    refine ⟨h1, h2, h3.trans ?_⟩
    simp [delivered, handedOut, hcmd, hinput]

theorem dispatches_keep (hcb : NeverResets mCB) (hs : Reading s) {gs : List Segment}
    (hbody : ∀ g ∈ gs, g.message.body.length ≤ bufferLimit) :
    Reading (gs.foldl (fun s g => dispatch mCB g.frame s) s) ∧
      (gs.foldl (fun s g => dispatch mCB g.frame s) s).mInbox = s.mInbox ∧
      delivered (gs.foldl (fun s g => dispatch mCB g.frame s) s).events =
        delivered s.events ++ gs.filterMap fun g => handedOut g.frame := by
  induction gs generalizing s with
  | nil => exact ⟨hs, rfl, by simp⟩
  | cons g gs ih =>
      have hone : g.frame.body.length ≤ bufferLimit := hbody g List.mem_cons_self
      obtain ⟨h1, h2, h3⟩ := dispatch_keep hcb hs hone
      obtain ⟨h4, h5, h6⟩ := ih h1 fun g' hg' => hbody g' (List.mem_cons_of_mem g hg')
      refine ⟨h4, h5.trans h2, ?_⟩
      rw [List.foldl_cons, h6, h3, List.append_assoc]
      congr 1
      cases hout : handedOut g.frame <;> simp [hout]

end

section
variable {mCB : CommonTextProtocolCB2} {s : CommonTextProtocol2} {fuel : ℕ}

theorem Reading.pszKey_eq (hs : Reading s) : s.pszKey = CommonTextProtocol.pszKey := by
  rw [pszKey, hs.mStringBytes]
  decide

theorem Reading.skipped_eq (hs : Reading s) : s.skipped =
    match strstr s.mInbox.bytes (CTP_CMD ++ [61]) with
    | none => 0
    | some i => if i + 5 < s.mInbox.bytes.length then i else 0 := by
  have hstart : s.mStringCmd ++ ascii "=" = CTP_CMD ++ [61] := by
    rw [hs.mStringCmd]
    decide
  have hfive : (CTP_CMD ++ [61]).length = 5 := by decide
  have hmode : ¬ s.mReliableMode = true := by
    rw [hs.mReliableMode]
    decide
  unfold skipped
  rw [if_neg hmode, hstart, hfive]
  rfl

/-- Segments the loop takes from behind the skipped bytes are handed out, and the rest is kept. -/
theorem parseInbox_taken (hcb : NeverResets mCB) (hs : Reading s) (hne : s.mInbox.bytes ≠ [])
    {done : List Segment} (hbody : ∀ g ∈ done, g.message.body.length ≤ bufferLimit) {rest : Bytes}
    {pfs : List (ℤ × Frame)}
    (hloop : parseLoop CommonTextProtocol.pszKey (dispatch mCB) (s.mInbox.bytes.drop s.skipped) fuel
      0 { s with mInbox := s.mInbox.eat s.skipped } =
        some (done.foldl (fun s g => dispatch mCB g.frame s)
          { s with mInbox := s.mInbox.eat s.skipped }, pfs, (rest.length : ℤ)))
    (hrest : rest <:+ s.mInbox.bytes.drop s.skipped) :
    ∃ r, parseInbox mCB fuel s = some r ∧ r.ret = 0 ∧ Reading r.state ∧
      r.state.mInbox.bytes = rest ∧
      delivered r.state.events = delivered s.events ++
        done.filterMap fun g => handedOut g.frame := by
  obtain ⟨t, ht⟩ : ∃ t, t = { s with mInbox := s.mInbox.eat s.skipped } := ⟨_, rfl⟩
  have hread : Reading t := by
    rw [ht]
    exact ⟨hs.mReset, hs.mReliableMode, hs.mStringCmd, hs.mStringBytes⟩
  have hevents : t.events = s.events := by rw [ht]
  have hinbox : t.mInbox.bytes = s.mInbox.bytes.drop s.skipped := by rw [ht]; rfl
  obtain ⟨h1, h2, h3⟩ := dispatches_keep hcb hread hbody
  rw [← ht] at hloop
  generalize done.foldl (fun s g => dispatch mCB g.frame s) t = u at h1 h2 h3 hloop
  obtain ⟨x, hx⟩ := hrest
  have hlength : (t.mInbox.length : ℤ) - (rest.length : ℤ) = x.length := by
    rw [ByteQueue.length_eq, hinbox, ← hx, List.length_append]
    omega
  have heat : u.eatInbox x.length = { u with mInbox := u.mInbox.eat x.length } := by
    have hmode : ¬ u.mReset = true := by
      rw [h1.mReset]
      decide
    unfold eatInbox
    rw [if_neg hmode]
    split_ifs with hpos
    · rw [Int.toNat_natCast]
    · have hzero : x.length = 0 := by omega
      have hsame : u.mInbox.eat x.length = u.mInbox := by
        apply ByteQueue.ext
        rw [ByteQueue.eat_bytes, hzero, List.drop_zero]
      rw [hsame]
  have hlen : s.mInbox.length ≠ 0 := fun h => hne (List.length_eq_zero_iff.mp h)
  refine ⟨⟨0, pfs.map fun pf => (s.skipped + pf.1, pf.2), s.skipped + x.length,
    { u with mInbox := u.mInbox.eat x.length }⟩, ?_, rfl, ?_, ?_, ?_⟩
  · have hdata : (s.mInbox.eat s.skipped).bytes = s.mInbox.bytes.drop s.skipped := rfl
    have hkey : t.pszKey = CommonTextProtocol.pszKey := hread.pszKey_eq
    simp only [parseInbox, if_neg hlen, ← ht, hdata, hkey, hloop]
    rw [show (s.mInbox.eat s.skipped).length = t.mInbox.length by rw [ht], hlength, heat]
  · exact ⟨h1.mReset, h1.mReliableMode, h1.mStringCmd, h1.mStringBytes⟩
  · show u.mInbox.bytes.drop x.length = rest
    rw [h2, hinbox, ← hx, List.drop_left]
  · show delivered u.events = _
    rw [h3, hevents]

/-- Harmless noise leaves a message as it is. -/
theorem handedOut_harmless {g : Segment} (hg : g.Harmless) : handedOut g.frame = some g.event := by
  have hitems : parseHeaderItems g.frame.header = g.message.bundle := hg.2
  simp only [handedOut, hitems, g.message.bundle_cmd, if_neg g.message.cmd_ne]
  rfl

/-- The noise in front of a message is skipped when a byte behind its start is there. -/
theorem skipped_noise (hs : Reading s) {g : Segment} {tail : Bytes}
    (hw : s.mInbox.bytes <+: g.noise ++ (g.message.text ++ tail)) :
    s.skipped = if g.noise.length + 5 < s.mInbox.bytes.length then g.noise.length else 0 := by
  obtain ⟨x, hx⟩ := hw
  have hstart := g.strstr_start tail
  rw [← hx] at hstart
  have hfive : (CTP_CMD ++ [61]).length = 5 := by decide
  rw [hs.skipped_eq]
  cases hfound : strstr s.mInbox.bytes (CTP_CMD ++ [61]) with
  | none =>
      have hshort : ¬ g.noise.length + 5 < s.mInbox.bytes.length := by
        intro hlt
        rw [strstr_of_append hstart (by omega)] at hfound
        cases hfound
      rw [if_neg hshort]
  | some i =>
      have hsame := strstr_append hfound x
      rw [hstart] at hsame
      cases hsame
      rfl

end

/-- The object waits for the segments `gs`, of which the bytes `v` are still to come. -/
structure Awaiting (tail : Bytes) (s : CommonTextProtocol2) (v : Bytes) (gs : List Segment) :
    Prop where
  reading : Reading s
  stream_eq : s.mInbox.bytes ++ v = stream gs tail
  harmless : ∀ g ∈ gs.tail, g.Harmless
  sized : ∀ g ∈ gs, g.Sized
  room : gs = [] ∨ s.mInbox.bytes.length < bufferLimit - 1
  incomplete : ∀ g ∈ gs.head?, s.mInbox.bytes.length < g.length

section
variable {mCB : CommonTextProtocolCB2} {s : CommonTextProtocol2} {fuel : ℕ} {tail v : Bytes}
  {gs : List Segment}

theorem stream_append (done : List Segment) (rest v : Bytes) :
    stream done rest ++ v = stream done (rest ++ v) := by
  induction done with
  | nil => rfl
  | cons g done ih => simp only [stream, List.append_assoc, ih]

theorem stream_split (done left : List Segment) (tail : Bytes) :
    stream (done ++ left) tail = stream done (stream left tail) := by
  induction done with
  | nil => rfl
  | cons g done ih => simp only [List.cons_append, stream, ih]

theorem stream_inj (done : List Segment) {a b : Bytes} (h : stream done a = stream done b) :
    a = b := by
  induction done with
  | nil => exact h
  | cons g done ih =>
      simp only [stream] at h
      exact ih (List.append_cancel_left (List.append_cancel_left h))

theorem stream_suffix (done : List Segment) (rest : Bytes) : rest <:+ stream done rest := by
  induction done with
  | nil => exact List.suffix_refl rest
  | cons g done ih =>
      exact ih.trans ((List.suffix_append g.message.text _).trans (List.suffix_append g.noise _))

theorem stream_long (done : List Segment) (rest : Bytes) (hne : done ≠ []) :
    rest.length < (stream done rest).length := by
  cases done with
  | nil => exact absurd rfl hne
  | cons g done =>
      have hlen := g.length_eq
      have hhead := g.head_long
      have hle := (stream_suffix done rest).length_le
      rw [Segment.length] at hlen
      simp only [stream, List.length_append]
      omega

/-- Nothing is taken where nothing is skipped and there is no header. -/
theorem parseInbox_waiting (hcb : NeverResets mCB) (hs : Reading s) (hne : s.mInbox.bytes ≠ [])
    (hskip : s.skipped = 0)
    (hnone : findHeader CommonTextProtocol.pszKey (cstr s.mInbox.bytes) = none) :
    ∃ r, parseInbox mCB (fuel + 1) s = some r ∧ r.ret = 0 ∧ Reading r.state ∧
      r.state.mInbox.bytes = s.mInbox.bytes ∧ delivered r.state.events = delivered s.events := by
  have hdata : s.mInbox.bytes.drop s.skipped = s.mInbox.bytes := by rw [hskip, List.drop_zero]
  have hpos := List.length_pos_iff.mpr hne
  have hloop : parseLoop CommonTextProtocol.pszKey (dispatch mCB) (s.mInbox.bytes.drop s.skipped)
      (fuel + 1) 0 { s with mInbox := s.mInbox.eat s.skipped } =
        some ({ s with mInbox := s.mInbox.eat s.skipped }, [], (s.mInbox.bytes.length : ℤ)) := by
    rw [hdata]
    have hfirst : findHeader CommonTextProtocol.pszKey (cstr (s.mInbox.bytes.drop 0)) = none := by
      rwa [List.drop_zero]
    have hstop := @parseLoop_none _ _ _ (dispatch mCB) 0 fuel hpos hfirst
      { s with mInbox := s.mInbox.eat s.skipped }
    simpa using hstop
  obtain ⟨r, h1, h2, h3, h4, h5⟩ := @parseInbox_taken mCB s (fuel + 1) hcb hs hne []
    (fun g hg => absurd hg List.not_mem_nil) s.mInbox.bytes [] hloop (by rw [hdata])
  exact ⟨r, h1, h2, h3, h4, by rw [h5]; simp⟩

/-- The messages that are complete behind the skipped noise are taken. -/
theorem parseInbox_complete (hcb : NeverResets mCB) (hs : Reading s) {g : Segment}
    (hgs : ∀ g ∈ gs, g.Readable) (hsize : ∀ g' ∈ g :: gs, g'.Sized) (htail : Endless tail)
    (hw : s.mInbox.bytes <+: g.noise ++ (g.message.text ++ stream gs tail))
    (hlong : g.noise.length + 5 < s.mInbox.bytes.length)
    (hfuel : s.mInbox.bytes.length ≤ fuel) :
    ∃ (r : Parsed CommonTextProtocol2) (done left : List Segment),
      parseInbox mCB (fuel + 1) s = some r ∧ r.ret = 0 ∧ Reading r.state ∧
      g.quiet :: gs = done ++ left ∧
      s.mInbox.bytes = g.noise ++ stream done r.state.mInbox.bytes ∧
      (∀ g' ∈ left.head?, r.state.mInbox.bytes.length < g'.length) ∧
      delivered r.state.events = delivered s.events ++
        done.filterMap fun g => handedOut g.frame := by
  have hne : s.mInbox.bytes ≠ [] := List.ne_nil_of_length_pos (by omega)
  have hskip : s.skipped = g.noise.length := by rw [skipped_noise hs hw, if_pos hlong]
  obtain ⟨y, hy⟩ : ∃ y, s.mInbox.bytes = g.noise ++ y := by
    obtain ⟨x, hx⟩ := hw
    obtain ⟨y, hy⟩ := List.prefix_of_prefix_length_le (List.prefix_append g.noise _) ⟨x, hx⟩
      (by omega)
    exact ⟨y, hy.symm⟩
  have hdata : s.mInbox.bytes.drop s.skipped = y := by rw [hskip, hy, List.drop_left]
  have hstream : y <+: stream (g.quiet :: gs) tail := by
    rw [hy, List.prefix_append_right_inj] at hw
    exact hw
  have hread : ∀ g' ∈ g.quiet :: gs, g'.Readable := by
    intro g' hg'
    rcases List.mem_cons.mp hg' with rfl | hg'
    · exact g.quiet_harmless.1
    · exact hgs g' hg'
  have hsized : ∀ g' ∈ g.quiet :: gs, g'.Sized := by
    intro g' hg'
    rcases List.mem_cons.mp hg' with rfl | hg'
    · exact (hsize g List.mem_cons_self).quiet
    · exact hsize g' (List.mem_cons_of_mem g hg')
  have hlength : (y.drop 0).length ≤ fuel := by
    rw [List.drop_zero]
    rw [hy, List.length_append] at hfuel
    omega
  obtain ⟨done, left, rest, pfs, hsplit, hdone, -, hleft, hloop⟩ :=
    parseLoop_stream (dispatch mCB) (p := 0) htail hread (fun g' hg' => (hsized g' hg').length_lt)
      (by rwa [List.drop_zero]) (Nat.zero_le _) hlength { s with mInbox := s.mInbox.eat s.skipped }
  rw [List.drop_zero] at hdone
  have hsuffix : rest <:+ y := by
    rw [hdone]
    exact stream_suffix done rest
  obtain ⟨r, h1, h2, h3, h4, h5⟩ := parseInbox_taken hcb hs hne
    (fun g' hg' => (hsized g' (by rw [hsplit]; exact List.mem_append_left left hg')).body_le)
    (by rw [hdata]; exact hloop) (by rwa [hdata])
  refine ⟨r, done, left, h1, h2, h3, hsplit, ?_, ?_, h5⟩
  · rw [h4, ← hdone, hy]
  · rw [h4]
    exact hleft

/-- A round takes the messages that are complete, and waits for the others. -/
theorem parseInbox_awaiting (hcb : NeverResets mCB) (hs : Awaiting tail s v gs)
    (htail : ¬ CTP_CMD ++ [61] <:+: tail ∧ ¬ CRLF ++ CRLF <:+: tail) (hfuel : bufferLimit ≤ fuel)
    {d v' : Bytes} (hv : v = d ++ v') (hd : d ≠ [])
    (hfit : s.mInbox.bytes.length + d.length ≤ bufferLimit - 1) :
    ∃ (r : Parsed CommonTextProtocol2) (done : List (Bytes × Bundle × Bytes))
      (left : List Segment),
      parseInbox mCB fuel { s with mInbox := s.mInbox.write d } = some r ∧ r.ret = 0 ∧
      Awaiting tail r.state v' left ∧ delivered r.state.events = delivered s.events ++ done ∧
      gs.map Segment.event = done ++ left.map Segment.event := by
  have hwrite : (s.mInbox.write d).bytes = s.mInbox.bytes ++ d := ByteQueue.write_bytes (by omega)
  have hall : (s.mInbox.write d).bytes ++ v' = stream gs tail := by
    rw [hwrite, List.append_assoc, ← hv, hs.stream_eq]
  have hlen : (s.mInbox.write d).bytes.length ≤ bufferLimit - 1 := by
    rw [hwrite, List.length_append]
    exact hfit
  have hne : (s.mInbox.write d).bytes ≠ [] := by
    rw [hwrite]
    simp [hd]
  have hread : Reading { s with mInbox := s.mInbox.write d } :=
    ⟨hs.reading.mReset, hs.reading.mReliableMode, hs.reading.mStringCmd, hs.reading.mStringBytes⟩
  obtain ⟨m, rfl⟩ : ∃ m, fuel = m + 1 := ⟨fuel - 1, by unfold bufferLimit at hfuel; omega⟩
  generalize s.mInbox.write d = w at hall hlen hne hread
  have hstart : w.bytes <+: stream gs tail := ⟨v', hall⟩
  cases gs with
  | nil =>
      have hskip : skipped { s with mInbox := w } = 0 := by
        rw [hread.skipped_eq, strstr_none htail.1 hstart.isInfix]
      obtain ⟨r, h1, h2, h3, h4, h5⟩ := parseInbox_waiting hcb hread hne hskip
        (endless_noise htail.2 _ hstart)
      refine ⟨r, [], [], h1, h2, ⟨h3, ?_, by simp, by simp, Or.inl rfl, by simp⟩, by simp [h5], rfl⟩
      rw [h4]
      exact hall
  | cons g gs =>
      by_cases hlong : g.noise.length + 5 < w.bytes.length
      · have hmany : w.bytes.length ≤ m := by omega
        have hreadable : ∀ g' ∈ gs, g'.Readable := fun g' hg' => (hs.harmless g' hg').1
        obtain ⟨r, done, left, h1, h2, h3, hsplit, hbytes, hleft, h5⟩ :=
          parseInbox_complete hcb hread hreadable hs.sized (endless_noise htail.2) hstart hlong
            hmany
        have hharmless : ∀ g' ∈ g.quiet :: gs, g'.Harmless := by
          intro g' hg'
          rcases List.mem_cons.mp hg' with rfl | hg'
          · exact g.quiet_harmless
          · exact hs.harmless g' hg'
        have hsized : ∀ g' ∈ g.quiet :: gs, g'.Sized := by
          intro g' hg'
          rcases List.mem_cons.mp hg' with rfl | hg'
          · exact (hs.sized g List.mem_cons_self).quiet
          · exact hs.sized g' (List.mem_cons_of_mem g hg')
        rw [hsplit] at hharmless hsized
        have hevents : (done.filterMap fun g => handedOut g.frame) = done.map Segment.event := by
          rw [List.filterMap_congr fun g' hg' =>
            handedOut_harmless (hharmless g' (List.mem_append_left left hg'))]
          exact congrFun List.filterMap_eq_map' done
        refine ⟨r, done.map Segment.event, left, h1, h2, ⟨h3, ?_, ?_, ?_, ?_, hleft⟩, ?_, ?_⟩
        · have hquiet : stream (g.quiet :: gs) tail = g.message.text ++ stream gs tail := rfl
          change w.bytes = _ at hbytes
          rw [hbytes, stream, List.append_assoc, List.append_cancel_left_eq, ← hquiet, hsplit,
            stream_append, stream_split] at hall
          exact stream_inj done hall
        · exact fun g' hg' => hharmless g' (List.mem_append_right done (List.mem_of_mem_tail hg'))
        · exact fun g' hg' => hsized g' (List.mem_append_right done hg')
        · cases left with
          | nil => exact Or.inl rfl
          | cons g' left =>
              refine Or.inr ?_
              have hshort := hleft g' rfl
              cases done with
              | nil =>
                  -- nothing was taken: the first message is not complete
                  cases hsplit
                  have hmax := (hs.sized g List.mem_cons_self).2
                  have hzero : g.quiet.length = g.message.text.length := by
                    simp [Segment.length, Segment.quiet]
                  omega
              | cons g₀ done =>
                  have hless := stream_long (g₀ :: done) r.state.mInbox.bytes (by simp)
                  change w.bytes = _ at hbytes
                  rw [hbytes, List.length_append] at hlen
                  omega
        · rw [h5, hevents]
        · have hsame : (g :: gs).map Segment.event = (g.quiet :: gs).map Segment.event := rfl
          rw [hsame, hsplit, List.map_append]
      · have hskip : skipped { s with mInbox := w } = 0 := by
          rw [skipped_noise hread hstart, if_neg hlong]
        have hhead := g.head_long
        have hshort : w.bytes.length < g.noise.length + g.message.head.length := by omega
        obtain ⟨r, h1, h2, h3, h4, h5⟩ := parseInbox_waiting hcb hread hne hskip
          (g.early hstart hshort)
        change r.state.mInbox.bytes = w.bytes at h4
        refine ⟨r, [], g :: gs, h1, h2, ⟨h3, ?_, hs.harmless, hs.sized, Or.inr ?_, ?_⟩,
          by simp [h5], rfl⟩
        · rw [h4]
          exact hall
        · have := (hs.sized g List.mem_cons_self).1
          rw [h4]
          omega
        · have := g.length_eq
          simp only [List.head?_cons, Option.mem_some_iff, forall_eq', h4]
          omega

/-- Behind the last message the inbox may be full. -/
def Settled (tail : Bytes) (s : CommonTextProtocol2) (v : Bytes) (gs : List Segment) : Prop :=
  Awaiting tail s v gs ∨ gs = [] ∧ s.mReset = false ∧ bufferLimit - 1 ≤ s.mInbox.bytes.length

theorem inputLoop_full (hfull : bufferLimit - 1 ≤ s.mInbox.bytes.length) (n : ℕ) (eatBytes : ℤ)
    (d : Bytes) : inputLoop mCB fuel n eatBytes d s = some (eatBytes, s) := by
  cases n with
  | zero => rfl
  | succ n =>
      have hroom : bufferLimit - s.mInbox.length - 1 = 0 := by
        rw [ByteQueue.length_eq]
        omega
      simp only [inputLoop]
      rw [if_pos (Or.inr (Or.inr hroom))]

theorem inputLoop_awaiting (hcb : NeverResets mCB)
    (htail : ¬ CTP_CMD ++ [61] <:+: tail ∧ ¬ CRLF ++ CRLF <:+: tail) (hfuel : bufferLimit ≤ fuel)
    {n : ℕ} {d v' : Bytes} (hn : d.length ≤ n) (hs : Awaiting tail s (d ++ v') gs)
    (eatBytes : ℤ) :
    ∃ (ret : ℤ) (s' : CommonTextProtocol2) (done : List (Bytes × Bundle × Bytes))
      (left : List Segment),
      inputLoop mCB fuel n eatBytes d s = some (ret, s') ∧ Settled tail s' v' left ∧
      delivered s'.events = delivered s.events ++ done ∧
      gs.map Segment.event = done ++ left.map Segment.event := by
  induction n generalizing d s gs eatBytes with
  | zero =>
      rw [List.length_eq_zero_iff.mp (Nat.le_zero.mp hn)] at hs
      exact ⟨eatBytes, s, [], gs, rfl, Or.inl hs, by simp, rfl⟩
  | succ n ih =>
      by_cases hd : d = []
      · rw [hd] at hs
        refine ⟨eatBytes, s, [], gs, ?_, Or.inl hs, by simp, rfl⟩
        simp only [inputLoop]
        rw [if_pos (Or.inl hd)]
      · by_cases hfull : bufferLimit - 1 ≤ s.mInbox.bytes.length
        · have hnil : gs = [] := by
            rcases hs.room with hnil | hroom
            · exact hnil
            · omega
          exact ⟨eatBytes, s, [], gs, inputLoop_full hfull _ _ d,
            Or.inr ⟨hnil, hs.reading.mReset, hfull⟩, by simp, rfl⟩
        · obtain ⟨room, hroom⟩ : ∃ room, bufferLimit - s.mInbox.length - 1 = room := ⟨_, rfl⟩
          have hlen : s.mInbox.length = s.mInbox.bytes.length := rfl
          have hpos : 0 < room := by omega
          have hv : d ++ v' = d.take room ++ (d.drop room ++ v') := by
            rw [← List.append_assoc, List.take_append_drop]
          have htake : d.take room ≠ [] := by
            intro hnil
            rcases List.take_eq_nil_iff.mp hnil with hzero | hnil
            · omega
            · exact hd hnil
          have hle : (d.take room).length ≤ room := List.length_take_le _ _
          obtain ⟨r, done, left, hparse, hret, hnext, hevents, hmap⟩ :=
            parseInbox_awaiting hcb hs htail hfuel hv htake (by omega)
          have hshort : (d.drop room).length ≤ n := by
            rw [List.length_drop]
            have := List.length_pos_iff.mpr hd
            omega
          obtain ⟨ret, s', done', left', hloop, hsettled, hevents', hmap'⟩ :=
            ih hshort hnext (eatBytes + (d.take room).length)
          refine ⟨ret, s', done ++ done', left', ?_, hsettled, ?_, ?_⟩
          · have hgo : ¬ (d = [] ∨ s.mReset = true ∨ room = 0) := by
              rw [hs.reading.mReset]
              simp only [Bool.false_eq_true, false_or, not_or]
              exact ⟨hd, by omega⟩
            simp only [inputLoop, hroom]
            rw [if_neg hgo]
            simp only [hparse, hret, ne_eq, not_true_eq_false, if_false]
            exact hloop
          · rw [hevents', hevents, List.append_assoc]
          · rw [hmap, hmap', List.append_assoc]

/-- Every segment's message is delivered once the stream has arrived. -/
theorem inputs_settled (hcb : NeverResets mCB)
    (htail : ¬ CTP_CMD ++ [61] <:+: tail ∧ ¬ CRLF ++ CRLF <:+: tail) (hfuel : bufferLimit ≤ fuel)
    {ds : List Bytes} (hs : Settled tail s ds.flatten gs) :
    ∃ s', inputs mCB fuel ds s = some s' ∧
      delivered s'.events = delivered s.events ++ gs.map Segment.event := by
  induction ds generalizing s gs with
  | nil =>
      refine ⟨s, rfl, ?_⟩
      rcases hs with hs | ⟨rfl, -⟩
      · cases gs with
        | nil => simp
        | cons g gs =>
            have hshort := hs.incomplete g rfl
            have hall := congrArg List.length hs.stream_eq
            simp only [List.flatten_nil, List.append_nil, stream, List.length_append] at hall
            rw [Segment.length] at hshort
            omega
      · simp
  | cons d ds ih =>
      have hreset : s.mReset = false := by
        rcases hs with hs | ⟨-, hreset, -⟩
        · exact hs.reading.mReset
        · exact hreset
      have hinput : input mCB fuel d s = inputLoop mCB fuel d.length 0 d s := by
        have hsame : { s with mReset := false } = s := by rw [← hreset]
        rw [input, hsame]
      rcases hs with hs | ⟨rfl, -, hfull⟩
      · rw [List.flatten_cons] at hs
        obtain ⟨ret, s', done, left, hloop, hsettled, hevents, hmap⟩ :=
          inputLoop_awaiting hcb htail hfuel (Nat.le_refl _) hs 0
        obtain ⟨s'', hinputs, hevents'⟩ := ih hsettled
        refine ⟨s'', ?_, ?_⟩
        · simp only [inputs, hinput, hloop]
          exact hinputs
        · rw [hevents', hevents, hmap, List.append_assoc]
      · have hrest : Settled tail s ds.flatten [] := Or.inr ⟨rfl, hreset, hfull⟩
        obtain ⟨s', hinputs, hevents⟩ := ih hrest
        refine ⟨s', ?_, hevents⟩
        simp only [inputs, hinput, inputLoop_full hfull]
        exact hinputs

end

/-- Messages with noise in front of them, and noise at the end. -/
structure Interleaving where
  segments : List Segment
  tail : Bytes
  tail_start : ¬ CTP_CMD ++ [61] <:+: tail
  tail_end : ¬ CRLF ++ CRLF <:+: tail

namespace Interleaving

variable (t : Interleaving)

def text : Bytes := stream t.segments t.tail

/-- However the text arrives, the owner gets every message once and in order, with its fields. -/
def Delivers : Prop :=
  ∀ mCB, NeverResets mCB → ∀ fuel, bufferLimit ≤ fuel → ∀ ds : List Bytes, ds.flatten = t.text →
    ∃ s, inputs mCB fuel ds { mReliableMode := false } = some s ∧
      delivered s.events = t.segments.map Segment.event

/-- The noise between two messages is harmless, and nothing is too long for the inbox. -/
structure Calm : Prop where
  harmless : ∀ g ∈ t.segments.tail, g.Harmless
  sized : ∀ g ∈ t.segments, g.Sized

variable {t}

theorem delivers_of_calm (h : t.Calm) : t.Delivers := by
  intro mCB hcb fuel hfuel ds hds
  have hstart : Awaiting t.tail { mReliableMode := false } ds.flatten t.segments := by
    refine ⟨⟨rfl, rfl, rfl, rfl⟩, ?_, h.harmless, h.sized, Or.inr ?_, ?_⟩
    · rw [hds]
      rfl
    · show 0 < bufferLimit - 1
      unfold bufferLimit
      omega
    · intro g _
      have := g.length_eq
      have := g.head_long
      show 0 < g.length
      omega
  obtain ⟨s, hinputs, hevents⟩ :=
    inputs_settled hcb ⟨t.tail_start, t.tail_end⟩ hfuel (Or.inl hstart)
  exact ⟨s, hinputs, by rw [hevents]; rfl⟩

theorem filterMap_eq_map {α β : Type} {f : α → Option β} {g : α → β} {l m : List α}
    (hl : l <+: m) (h : l.filterMap f = m.map g) : l = m ∧ ∀ a ∈ m, f a = some (g a) := by
  induction l generalizing m with
  | nil =>
      have hnil : m = [] := by simpa using h.symm
      rw [hnil]
      exact ⟨rfl, fun a ha => absurd ha List.not_mem_nil⟩
  | cons a l ih =>
      obtain ⟨r, rfl⟩ := hl
      rw [List.cons_append, List.map_cons] at h
      cases hf : f a with
      | none =>
          rw [List.filterMap_cons_none hf] at h
          have hle := List.length_filterMap_le f l
          rw [h] at hle
          simp at hle
      | some b =>
          rw [List.filterMap_cons_some hf, List.cons.injEq] at h
          obtain ⟨hsame, hall⟩ := ih (List.prefix_append l r) h.2
          rw [List.cons_append, ← hsame]
          refine ⟨rfl, ?_⟩
          intro a' ha'
          rcases List.mem_cons.mp ha' with rfl | ha'
          · rw [hf, h.1]
          · exact hall a' (by rw [← hsame]; exact ha')

theorem stream_length {gs : List Segment} {tail : Bytes} {g : Segment} (hg : g ∈ gs) :
    g.length ≤ (stream gs tail).length := by
  induction gs with
  | nil => cases hg
  | cons g' gs ih =>
      simp only [stream, List.length_append]
      rcases List.mem_cons.mp hg with rfl | hg
      · rw [Segment.length]
        omega
      · have := ih hg
        omega

/-- The text arrives at once: messages are taken as far as their headers can be read. -/
theorem inputs_whole {g : Segment} {as : List Segment} {rest : Bytes}
    (htext : t.text = stream (g :: as) rest) (hlength : t.text.length < bufferLimit)
    (hread : ∀ g' ∈ as, g'.Readable) (hsize : ∀ g' ∈ g :: as, g'.Sized) (hrest : Endless rest) :
    ∃ s, inputs (fun _ => []) bufferLimit [t.text] { mReliableMode := false } = some s ∧
      delivered s.events = g.event :: as.filterMap fun g => handedOut g.frame := by
  have hlong : g.noise.length + 5 < t.text.length := by
    have hlen := g.length_eq
    have hhead := g.head_long
    have hall : g.length ≤ (stream (g :: as) rest).length := stream_length List.mem_cons_self
    rw [htext]
    omega
  obtain ⟨w, hw⟩ : ∃ w : ByteQueue bufferLimit, w = ByteQueue.clear.write t.text := ⟨_, rfl⟩
  have hbytes : w.bytes = t.text := by
    rw [hw]
    exact ByteQueue.write_bytes (by simpa using Nat.le_of_lt hlength)
  obtain ⟨s, hs⟩ : ∃ s : CommonTextProtocol2, s = { mReliableMode := false, mInbox := w } :=
    ⟨_, rfl⟩
  have hreading : Reading s := by
    rw [hs]
    exact ⟨rfl, rfl, rfl, rfl⟩
  have hinbox : s.mInbox.bytes = t.text := by rw [hs, hbytes]
  have hcb : NeverResets fun _ => [] := fun es => List.not_mem_nil
  obtain ⟨m, hm⟩ : ∃ m, bufferLimit = m + 1 := ⟨bufferLimit - 1, by unfold bufferLimit; rfl⟩
  obtain ⟨r, done, left, hparse, hret, hreading', hsplit, hdone, hleft, hevents⟩ :=
    parseInbox_complete hcb hreading hread hsize hrest
      (by rw [hinbox, htext]; exact List.prefix_rfl) (by rw [hinbox]; exact hlong)
      (by rw [hinbox]; omega : s.mInbox.bytes.length ≤ m)
  have hfinal : r.state.mInbox.bytes = stream left rest := by
    have hquiet : stream (g.quiet :: as) rest = g.message.text ++ stream as rest := rfl
    rw [hinbox, htext, stream, List.append_cancel_left_eq, ← hquiet, hsplit, stream_split] at hdone
    exact (stream_inj done hdone).symm
  have hnone : left = [] := by
    cases left with
    | nil => rfl
    | cons g' left =>
        have hshort := hleft g' rfl
        have hlong : g'.length ≤ (stream (g' :: left) rest).length :=
          stream_length List.mem_cons_self
        rw [hfinal] at hshort
        omega
  rw [hnone, List.append_nil] at hsplit
  refine ⟨r.state, ?_, ?_⟩
  · have hne : t.text ≠ [] := List.ne_nil_of_length_pos (by omega)
    have hroom : (t.text.drop (bufferLimit - 1)) = [] := List.drop_eq_nil_of_le (by omega)
    have htake : (t.text.take (bufferLimit - 1)) = t.text := List.take_of_length_le (by omega)
    obtain ⟨n, hn⟩ : ∃ n, t.text.length = n + 1 := ⟨t.text.length - 1, by omega⟩
    have hstop : ∀ e, inputLoop (fun _ => []) bufferLimit n e [] r.state = some (e, r.state) := by
      intro e
      cases n <;> simp [inputLoop]
    have hzero : bufferLimit - (ByteQueue.clear : ByteQueue bufferLimit).length - 1 =
        bufferLimit - 1 := rfl
    have hopen : ¬ (t.text = [] ∨ false = true ∨ bufferLimit - 1 = 0) := by
      unfold bufferLimit
      simp [hne]
    rw [← hm] at hparse
    rw [hs, hw] at hparse
    simp only [inputs, input, hn, inputLoop, hzero, htake, hroom]
    rw [if_neg hopen]
    simp only [hparse, hret, ne_eq, not_true_eq_false, if_false, hstop]
  · have hquiet : handedOut g.quiet.frame = some g.event := handedOut_harmless g.quiet_harmless
    have hcons : (g.quiet :: as).filterMap (fun g => handedOut g.frame) =
        g.event :: as.filterMap fun g => handedOut g.frame := by
      simp only [List.filterMap_cons, hquiet]
    rw [hevents, ← hsplit, hcons, hs]
    rfl

/-- Noise without a length that changes a header is found out where the text arrives at once. -/
theorem calm_of_delivers (hlength : t.text.length < bufferLimit)
    (hkey : ∀ g ∈ t.segments, ¬ CommonTextProtocol.pszKey <:+: g.noise.map toLower)
    (h : t.Delivers) : t.Calm := by
  have hsized : ∀ g ∈ t.segments, g.Sized := by
    intro g hg
    have hle : g.length ≤ t.text.length := stream_length hg
    have hlen := g.length_eq
    have hhead := g.head_long
    refine ⟨by omega, ?_⟩
    rw [Segment.length] at hle hlen
    omega
  refine ⟨?_, hsized⟩
  cases hsegments : t.segments with
  | nil => exact fun g hg => absurd hg List.not_mem_nil
  | cons g gs =>
      rw [hsegments] at hkey hsized
      obtain ⟨as, has⟩ : ∃ as, as = gs.takeWhile fun g => decide (0 ∉ g.noise) := ⟨_, rfl⟩
      obtain ⟨bs, hbs⟩ : ∃ bs, bs = gs.dropWhile fun g => decide (0 ∉ g.noise) := ⟨_, rfl⟩
      have hgs : gs = as ++ bs := by rw [has, hbs, List.takeWhile_append_dropWhile]
      have hread : ∀ g' ∈ as, g'.Readable := by
        intro g' hg'
        refine ⟨?_, hkey g'
          (List.mem_cons_of_mem g (by rw [hgs]; exact List.mem_append_left bs hg'))⟩
        rw [has] at hg'
        have hclean := List.mem_takeWhile_imp hg'
        simpa using hclean
      have hrest : Endless (stream bs t.tail) := by
        cases hcons : bs with
        | nil => exact endless_noise t.tail_end
        | cons b bs' =>
            have hnull : ¬ decide (0 ∉ b.noise) = true := by
              have := List.head?_dropWhile_not (fun g : Segment => decide (0 ∉ g.noise)) gs
              rw [← hbs, hcons] at this
              simpa using this
            simp only [decide_eq_true_eq, not_not] at hnull
            exact endless_null b.noise_end hnull _
      have htext : t.text = stream (g :: as) (stream bs t.tail) := by
        rw [text, hsegments, hgs, ← List.cons_append, stream_split]
      obtain ⟨s, hinputs, hevents⟩ := inputs_whole htext hlength hread
        (fun g' hg' => hsized g' (by
          rw [hgs, ← List.cons_append]
          exact List.mem_append_left bs hg')) hrest
      obtain ⟨s', hinputs', hevents'⟩ := h (fun _ => []) (fun es => List.not_mem_nil) bufferLimit
        (Nat.le_refl _) [t.text] (by simp)
      rw [hinputs, Option.some.injEq] at hinputs'
      rw [← hinputs', hevents, hsegments, List.map_cons, List.cons.injEq] at hevents'
      obtain ⟨hsame, hall⟩ := filterMap_eq_map (by rw [hgs]; exact List.prefix_append as bs)
        hevents'.2
      rw [List.tail_cons]
      intro g' hg'
      refine ⟨hread g' (by rwa [hsame]), ?_⟩
      have hout := hall g' hg'
      simp only [handedOut] at hout
      split_ifs at hout
      have := congrArg (fun e => e.2.1) (Option.some.inj hout)
      exact this

/-- Noise between messages that changes no header does no harm. Where a whole stream fits the
inbox and no noise holds a length, this is all that does none. -/
theorem delivers_calm : (t.Calm → t.Delivers) ∧ (t.text.length < bufferLimit →
    (∀ g ∈ t.segments, ¬ CommonTextProtocol.pszKey <:+: g.noise.map toLower) →
    t.Delivers → t.Calm) :=
  ⟨delivers_of_calm, calm_of_delivers⟩

/-- The command `a`, with nothing else. -/
def plainMessage : Message where
  cmd := ascii "a"
  fields := []
  body := []
  cmd_ne := by decide
  cmd_clean := by decide
  fields_ne := fun f hf => absurd hf List.not_mem_nil
  length := rfl

/-- The command twice, with a text between them. -/
def twice (noise : Bytes) (hstart : ¬ CTP_CMD ++ [61] <:+: noise)
    (hend : ¬ CRLF ++ CRLF <:+: noise) :
    Interleaving where
  segments := [⟨ascii "z", plainMessage, by decide, by decide⟩,
    ⟨noise, plainMessage, hstart, hend⟩]
  tail := []
  tail_start := by decide
  tail_end := by decide

theorem delivers_calm_line :
    (twice CRLF (by decide) (by decide)).Delivers := by
  apply delivers_calm.1
  refine ⟨?_, ?_⟩
  · intro g hg
    obtain rfl := List.mem_singleton.mp hg
    exact ⟨⟨by decide, by decide⟩, by decide⟩
  · intro g hg
    fin_cases hg <;> exact ⟨by decide, by decide⟩

/-- `z` between the two, and all in one read: the second is lost. -/
theorem delivers_noise : ¬ ∀ t : Interleaving, t.Delivers := by
  intro h
  obtain ⟨s, hinputs, hevents⟩ := h (twice (ascii "z") (by decide) (by decide))
    (fun _ => []) (fun es => List.not_mem_nil) bufferLimit (Nat.le_refl _)
    [ascii "z_cmd=a\r\n\r\nz_cmd=a\r\n\r\n"] (by decide)
  have hrun : (inputs (fun _ => []) bufferLimit [ascii "z_cmd=a\r\n\r\nz_cmd=a\r\n\r\n"]
      { mReliableMode := false }).map (fun s => (delivered s.events).length) = some 1 := by
    decide
  rw [hinputs, Option.map_some, hevents] at hrun
  revert hrun
  decide

end Interleaving
end CommonTextProtocol2

end CoreLooper.CTP
