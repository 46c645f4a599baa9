import CoreLooper.ByteBuffer
import CoreLooper.ByteQueue
import CoreLooper.Framing

/-!
# JcpProtocol

Json texts over a stream, each with an empty line behind it. The inbox is searched as a C string;
the memory behind a full inbox is taken to begin with a null. The json parser is a parameter.
-/
namespace CoreLooper.Jcp
open CStrings Framing

/-- The signals that `InputData` gives. -/
inductive Event (J : Type) where
  | SignalJcpCommand (cmd : Bytes) (json : J)
  | SignalJcpError (text : Bytes)

/-- The end of a frame. -/
def terminator : Bytes := [13, 10, 13, 10]

/-- The text of `sendJson`. -/
def sendJson (text : Bytes) : Bytes := text ++ terminator

structure JcpProtocol (J : Type) where
  mInbox : ByteQueue ByteBuffer.defaultMaxSize := .clear
  events : List (Event J) := []

section
variable {J : Type} (parseObject : Bytes → Option J) (cmd : J → Bytes)

def handleFrame (frame : Bytes) : Event J :=
  match parseObject frame with
  | some json => .SignalJcpCommand (cmd json) json
  | none => .SignalJcpError (ascii "invalid json frame?")

/-- The loop of `InputData`. -/
def inputLoop : ℕ → JcpProtocol J → JcpProtocol J
  | 0, s => s
  | fuel + 1, s =>
      if s.mInbox.length = 0 then s
      else
        match strstr (cstr s.mInbox.bytes) terminator with
        | none => s
        | some fin =>
            inputLoop fuel
              { mInbox := s.mInbox.eat (fin + 4)
                events := s.events ++ [handleFrame parseObject cmd (s.mInbox.bytes.take fin)] }

def inputData (s : JcpProtocol J) (data : Bytes) : JcpProtocol J :=
  let ret := min data.length s.mInbox.room
  let s := { s with mInbox := s.mInbox.write data }
  if ret ≠ data.length then
    { s with events := s.events ++ [.SignalJcpError (ascii "inbox overflow")] }
  else
    let s := inputLoop parseObject cmd s.mInbox.length s
    if s.mInbox.length > 4 * 1024 then
      { s with events := s.events ++ [.SignalJcpError (ascii "invalid frame?")] }
    else s

/-- The signals for what `data` brings, one call for each piece. -/
def inputs (chunks : List Bytes) : JcpProtocol J :=
  chunks.foldl (inputData parseObject cmd) {}

end

/-- The signal is about a frame, not about the inbox as a whole. -/
def Event.handles {J : Type} : Event J → Bool
  | .SignalJcpCommand _ _ => true
  | .SignalJcpError text => text = ascii "invalid json frame?"

/-- Each text is handled once and in order, whatever the parser makes of it. -/
def Handles (texts chunks : List Bytes) : Prop :=
  ∀ (J : Type) (parseObject : Bytes → Option J) (cmd : J → Bytes),
    (inputs parseObject cmd chunks).events.filter Event.handles =
      texts.map (handleFrame parseObject cmd)

/-- The first frame of the inbox and its length. -/
def nextFrame (text : Bytes) : Option (Bytes × ℕ) :=
  (strstr (cstr text) terminator).map fun fin => (text.take fin, fin + 4)

/-- Nothing in the texts is taken for the end of the string or for an earlier terminator, and the
pieces fit the inbox together with the unfinished frame before them. -/
structure Deliverable (texts chunks : List Bytes) : Prop where
  noNull : ∀ t ∈ texts, 0 ∉ t
  noLineEnd : ∀ t ∈ texts, ¬ [13, 10] <:+ t
  fits : Fits nextFrame (ByteBuffer.defaultMaxSize + 1) [] chunks

section
variable {t u : Bytes} {f : Bytes} {k : ℕ}

theorem nextFrame_some (h : nextFrame u = some (f, k)) :
    ∃ fin, strstr (cstr u) terminator = some fin ∧ f = u.take fin ∧ k = fin + 4 := by
  rw [nextFrame, Option.map_eq_some_iff] at h
  obtain ⟨fin, hfin, heq⟩ := h
  cases heq
  exact ⟨fin, hfin, rfl, rfl⟩

/-- The terminator lies in the string, and the string in the inbox. -/
theorem terminator_le {fin : ℕ} (h : strstr (cstr u) terminator = some fin) :
    fin + 4 ≤ u.length := by
  have hin : fin + 4 ≤ (cstr u).length := strstr_add_length_le h
  have hstr := (cstr_starts u).length_le
  omega

theorem nextFrame_stable : Stable nextFrame where
  pos h := by
    obtain ⟨fin, -, -, rfl⟩ := nextFrame_some h
    omega
  le h := by
    obtain ⟨fin, hfin, -, rfl⟩ := nextFrame_some h
    exact terminator_le hfin
  append v h := by
    obtain ⟨fin, hfin, rfl, rfl⟩ := nextFrame_some h
    have hle := terminator_le hfin
    obtain ⟨y, hy⟩ := cstr_append_starts _ v
    rw [nextFrame, hy, strstr_append hfin, Option.map_some,
      List.take_append_of_le_length (by omega)]

theorem nextFrame_nil : nextFrame [] = none := rfl

theorem nextFrame_size (h : nextFrame u = some (f, k)) : k = f.length + 4 := by
  obtain ⟨fin, hfin, rfl, rfl⟩ := nextFrame_some h
  have hle := terminator_le hfin
  rw [List.length_take, Nat.min_eq_left (by omega)]

/-- A text is read up to its terminator when nothing in it looks like the end. -/
theorem nextFrame_sendJson (hnull : 0 ∉ t) (hend : ¬ [13, 10] <:+ t) (hin : ¬ terminator <:+: t)
    (rest : Bytes) : nextFrame (sendJson t ++ rest) = some (t, t.length + 4) := by
  have hno : (0 : UInt8) ∉ sendJson t := by
    simp [sendJson, terminator, hnull]
  have hfirst : ∀ j < t.length, ¬ terminator <+: (t ++ (terminator ++ cstr rest)).drop j := by
    intro j hj hp
    rw [List.drop_append_of_le_length (by omega)] at hp
    have hback := List.length_drop (i := j) (l := t)
    by_cases hfit : 4 ≤ t.length - j
    · have hstarts : terminator <+: t.drop j :=
        List.prefix_of_prefix_length_le hp (List.prefix_append _ _) (by rw [hback]; exact hfit)
      exact hin (hstarts.isInfix.trans (List.drop_suffix j t).isInfix)
    · -- the occurrence overlaps the terminator of the text
      have hsuffix : t.drop j <:+ t := List.drop_suffix j t
      rcases hd : t.drop j with _ | ⟨a, _ | ⟨b, _ | ⟨c, _ | ⟨d, l⟩⟩⟩⟩
      · rw [hd] at hback
        simp only [List.length_nil] at hback
        omega
      · rw [hd] at hp
        simp [terminator] at hp
      · rw [hd] at hp hsuffix
        simp only [terminator, List.cons_append, List.nil_append, List.cons_prefix_cons] at hp
        obtain ⟨rfl, rfl, -⟩ := hp
        exact hend hsuffix
      · rw [hd] at hp
        simp [terminator] at hp
      · rw [hd] at hback
        simp only [List.length_cons] at hback
        omega
  have hfound : strstr (cstr (sendJson t ++ rest)) terminator = some t.length := by
    rw [cstr_append hno, sendJson, List.append_assoc, strstr_pass hfirst,
      strstr_here (List.prefix_append _ _)]
    simp
  rw [nextFrame, hfound, Option.map_some, sendJson, List.append_assoc, List.take_left]

/-- Only such a text is. -/
theorem nextFrame_reads {rest : Bytes} (h : nextFrame (sendJson t ++ rest) = some (t, k)) :
    0 ∉ t ∧ ¬ [13, 10] <:+ t := by
  obtain ⟨fin, hfin, htake, -⟩ := nextFrame_some h
  have hle := terminator_le hfin
  have hlen : fin = t.length := by
    have := congrArg List.length htake
    rw [List.length_take] at this
    omega
  subst hlen
  have hwhole : sendJson t <+: cstr (sendJson t ++ rest) := by
    apply List.prefix_of_prefix_length_le (List.prefix_append _ rest) (cstr_starts _)
    have hin : t.length + 4 ≤ (cstr (sendJson t ++ rest)).length := strstr_add_length_le hfin
    simpa [sendJson, terminator] using hin
  constructor
  · intro hmem
    exact cstr_not_mem _ (hwhole.subset (List.mem_append_left _ hmem))
  · rintro ⟨s, rfl⟩
    obtain ⟨y, hy⟩ := hwhole
    apply strstr_first hfin (j := s.length) (by simp)
    rw [← hy, sendJson]
    simp [terminator]

/-- The stream of a list of texts. -/
def wire (texts : List Bytes) : Bytes := texts.flatMap sendJson

theorem frames_wire {texts : List Bytes} (hin : ∀ t ∈ texts, ¬ terminator <:+: t) :
    (frames nextFrame (wire texts)).1 = texts ↔
      ∀ t ∈ texts, 0 ∉ t ∧ ¬ [13, 10] <:+ t := by
  induction texts with
  | nil => simp [wire, frames_none nextFrame_nil]
  | cons t texts ih =>
      have hlater := ih fun w hw => hin w (List.mem_cons_of_mem t hw)
      have hwire : wire (t :: texts) = sendJson t ++ wire texts := List.flatMap_cons
      have hdrop : (sendJson t ++ wire texts).drop (t.length + 4) = wire texts :=
        List.drop_left' (by simp [sendJson, terminator])
      rw [hwire, List.forall_mem_cons, ← hlater]
      constructor
      · intro h
        cases hnext : nextFrame (sendJson t ++ wire texts) with
        | none =>
            rw [frames_none hnext] at h
            cases h
        | some fk =>
            obtain ⟨f, k⟩ := fk
            have hk := nextFrame_size hnext
            rw [frames_some nextFrame_stable hnext, List.cons.injEq] at h
            obtain ⟨rfl, hrest⟩ := h
            rw [hk, hdrop] at hrest
            exact ⟨nextFrame_reads hnext, hrest⟩
      · rintro ⟨⟨hnull, hend⟩, hrest⟩
        have hnext := nextFrame_sendJson hnull hend (hin t List.mem_cons_self) (wire texts)
        rw [frames_some nextFrame_stable hnext, hdrop, hrest]

end

section
variable {J : Type} {parseObject : Bytes → Option J} {cmd : J → Bytes} {s : JcpProtocol J}
  {data : Bytes}

theorem handles_handleFrame (frame : Bytes) :
    (handleFrame parseObject cmd frame).handles = true := by
  unfold handleFrame
  cases parseObject frame with
  | none => rfl
  | some json => rfl

theorem inputLoop_eq (fuel : ℕ) (s : JcpProtocol J) :
    (inputLoop parseObject cmd fuel s).mInbox.bytes = (drain nextFrame fuel s.mInbox.bytes).2 ∧
      (inputLoop parseObject cmd fuel s).events = s.events ++
        (drain nextFrame fuel s.mInbox.bytes).1.map (handleFrame parseObject cmd) := by
  induction fuel generalizing s with
  | zero => simp [inputLoop, drain]
  | succ fuel ih =>
      by_cases hempty : s.mInbox.length = 0
      · have hnil : s.mInbox.bytes = [] := List.length_eq_zero_iff.mp hempty
        rw [inputLoop, if_pos hempty, hnil]
        simp [drain, nextFrame_nil]
      · rw [inputLoop, if_neg hempty]
        cases hfin : strstr (cstr s.mInbox.bytes) terminator with
        | none => simp [drain, nextFrame, hfin]
        | some fin =>
            have hnext : nextFrame s.mInbox.bytes = some (s.mInbox.bytes.take fin, fin + 4) := by
              rw [nextFrame, hfin, Option.map_some]
            obtain ⟨hbytes, hevents⟩ := ih
              { mInbox := s.mInbox.eat (fin + 4)
                events := s.events ++ [handleFrame parseObject cmd (s.mInbox.bytes.take fin)] }
            rw [ByteQueue.eat_bytes] at hbytes hevents
            simp only [drain, hnext]
            refine ⟨hbytes, hevents.trans ?_⟩
            simp

/-- The signals about frames. -/
def handled (s : JcpProtocol J) : List (Event J) := s.events.filter Event.handles

/-- What fits is cut into frames. -/
theorem inputData_fits (h : data.length ≤ s.mInbox.room) :
    (inputData parseObject cmd s data).mInbox.bytes =
        (frames nextFrame (s.mInbox.bytes ++ data)).2 ∧
      handled (inputData parseObject cmd s data) = handled s ++
        (frames nextFrame (s.mInbox.bytes ++ data)).1.map (handleFrame parseObject cmd) := by
  have hwrite : (s.mInbox.write data).bytes = s.mInbox.bytes ++ data := by
    apply ByteQueue.write_bytes
    have := s.mInbox.fits
    rw [ByteQueue.room, ByteQueue.length_eq] at h
    omega
  obtain ⟨hbytes, hevents⟩ := @inputLoop_eq _ parseObject cmd
    (s.mInbox.write data).length { s with mInbox := s.mInbox.write data }
  rw [ByteQueue.length_eq, hwrite] at hbytes hevents
  have hall : ∀ frames : List Bytes,
      (frames.map (handleFrame parseObject cmd)).filter Event.handles =
        frames.map (handleFrame parseObject cmd) := by
    intro frames
    rw [List.filter_eq_self]
    intro e he
    obtain ⟨frame, -, rfl⟩ := List.mem_map.mp he
    exact handles_handleFrame frame
  unfold inputData handled
  rw [Nat.min_eq_left h]
  simp only [ne_eq, not_true_eq_false, if_false, ByteQueue.length_eq, hwrite]
  split_ifs with hlong
  · refine ⟨hbytes, ?_⟩
    rw [List.filter_append, hevents, List.filter_append, hall]
    have hskip : [Event.SignalJcpError (J := J) (ascii "invalid frame?")].filter Event.handles =
        [] := rfl
    rw [hskip, List.append_nil]
    rfl
  · refine ⟨hbytes, ?_⟩
    rw [hevents, List.filter_append, hall]
    rfl

/-- What does not fit is lost, and nothing is handled. -/
theorem inputData_overflow (h : ¬ data.length ≤ s.mInbox.room) :
    (inputData parseObject cmd s data).mInbox.bytes = s.mInbox.bytes ++ data.take s.mInbox.room ∧
      handled (inputData parseObject cmd s data) = handled s := by
  unfold inputData handled
  rw [Nat.min_eq_right (by omega), if_pos (by omega)]
  refine ⟨rfl, ?_⟩
  rw [List.filter_append]
  exact List.append_nil _

variable {chunks texts : List Bytes}

theorem room_iff : data.length ≤ s.mInbox.room ↔
    s.mInbox.bytes.length + data.length < ByteBuffer.defaultMaxSize + 1 := by
  have := s.mInbox.fits
  rw [ByteQueue.room, ByteQueue.length_eq]
  omega

theorem inputs_fits (hs : nextFrame s.mInbox.bytes = none)
    (h : Fits nextFrame (ByteBuffer.defaultMaxSize + 1) s.mInbox.bytes chunks) :
    handled (chunks.foldl (inputData parseObject cmd) s) = handled s ++
      (frames nextFrame (s.mInbox.bytes ++ chunks.flatten)).1.map
        (handleFrame parseObject cmd) := by
  induction chunks generalizing s with
  | nil => simp [frames_none hs]
  | cons data chunks ih =>
      obtain ⟨hfit, hrest⟩ := h
      obtain ⟨hbytes, hhandled⟩ := @inputData_fits _ parseObject cmd _ _
        (room_iff.mpr hfit)
      have hlater := ih (s := inputData parseObject cmd s data)
        (by rw [hbytes]; exact frames_rest nextFrame_stable _) (by rw [hbytes]; exact hrest)
      rw [List.foldl_cons, hlater, hhandled, hbytes, List.flatten_cons, ← List.append_assoc,
        frames_append nextFrame_stable (s.mInbox.bytes ++ data)]
      simp

/-- What a signal used up, for the parser that hands the text on. -/
def cost : Event Bytes → ℕ
  | .SignalJcpCommand _ text => text.length + 4
  | .SignalJcpError _ => 0

/-- The bytes that were taken in. -/
def taken (s : JcpProtocol Bytes) : ℕ := ((handled s).map cost).sum + s.mInbox.bytes.length

theorem taken_inputData (s : JcpProtocol Bytes) (data : Bytes) :
    taken (inputData some id s data) = taken s + min data.length s.mInbox.room := by
  by_cases hfit : data.length ≤ s.mInbox.room
  · obtain ⟨hbytes, hhandled⟩ := @inputData_fits _ some id _ _ hfit
    have hsize := @frames_size _ _ nextFrame nextFrame_stable (fun f => f.length + 4)
      nextFrame_size (s.mInbox.bytes ++ data)
    have hcost : (List.map (handleFrame some id)
        (frames nextFrame (s.mInbox.bytes ++ data)).1).map cost =
        (frames nextFrame (s.mInbox.bytes ++ data)).1.map fun f => f.length + 4 := by
      rw [List.map_map]
      rfl
    rw [List.length_append] at hsize
    rw [taken, taken, hbytes, hhandled, List.map_append, List.sum_append, hcost,
      Nat.min_eq_left hfit]
    omega
  · obtain ⟨hbytes, hhandled⟩ := @inputData_overflow _ some id _ _ hfit
    rw [taken, taken, hbytes, hhandled, List.length_append, List.length_take]
    omega

theorem taken_le (s : JcpProtocol Bytes) (chunks : List Bytes) :
    taken (chunks.foldl (inputData some id) s) ≤ taken s + chunks.flatten.length := by
  induction chunks generalizing s with
  | nil => simp
  | cons data chunks ih =>
      have hstep := taken_inputData s data
      have hrest := ih (inputData some id s data)
      rw [List.foldl_cons, List.flatten_cons, List.length_append]
      omega

/-- Everything is taken in only if every piece fits. -/
theorem fits_of_taken {s : JcpProtocol Bytes}
    (h : taken s + chunks.flatten.length ≤ taken (chunks.foldl (inputData some id) s)) :
    Fits nextFrame (ByteBuffer.defaultMaxSize + 1) s.mInbox.bytes chunks := by
  induction chunks generalizing s with
  | nil => trivial
  | cons data chunks ih =>
      have hstep := taken_inputData s data
      have hrest := taken_le (inputData some id s data) chunks
      rw [List.foldl_cons, List.flatten_cons, List.length_append] at h
      have hfit : data.length ≤ s.mInbox.room := by omega
      have hlater := ih (s := inputData some id s data) (by omega)
      rw [(inputData_fits hfit).1] at hlater
      exact ⟨room_iff.mp hfit, hlater⟩

theorem handled_map (texts : List Bytes) :
    (texts.map (handleFrame some id)).map cost = texts.map fun t => t.length + 4 := by
  rw [List.map_map]
  rfl

theorem wire_length (texts : List Bytes) :
    (wire texts).length = (texts.map fun t => t.length + 4).sum := by
  rw [wire, List.length_flatMap]
  congr 1
  refine List.map_congr_left fun t _ => ?_
  simp [sendJson, terminator]

/-- Texts without the terminator come through if and only if they have no null, do not end in a
line end, and never overfill the inbox. -/
theorem handles_iff (hin : ∀ t ∈ texts, ¬ terminator <:+: t)
    (hcut : chunks.flatten = wire texts) : Handles texts chunks ↔ Deliverable texts chunks := by
  have hinit : nextFrame ({} : JcpProtocol Bytes).mInbox.bytes = none := nextFrame_nil
  constructor
  · intro h
    have hmine : handled (chunks.foldl (inputData some id) {}) =
        texts.map (handleFrame some id) := h Bytes some id
    have hfits : Fits nextFrame (ByteBuffer.defaultMaxSize + 1) [] chunks := by
      apply fits_of_taken (s := {})
      rw [taken, taken, hmine, handled_map, ← wire_length, hcut]
      simp [handled]
    have hrun := @inputs_fits _ some id _ _ hinit hfits
    rw [hmine, hcut] at hrun
    have hinj : Function.Injective (handleFrame some id) := by
      intro t t' heq
      simpa [handleFrame] using heq
    have htexts : (frames nextFrame (wire texts)).1 = texts := by
      apply hinj.list_map
      simpa [handled] using hrun.symm
    have hgood := (frames_wire hin).mp htexts
    exact ⟨fun t ht => (hgood t ht).1, fun t ht => (hgood t ht).2, hfits⟩
  · intro h J parseObject cmd
    have htexts := (frames_wire hin).mpr fun t ht => ⟨h.noNull t ht, h.noLineEnd t ht⟩
    have hrun := @inputs_fits _ parseObject cmd {} _ nextFrame_nil h.fits
    rw [hcut] at hrun
    simp only [handled, ByteQueue.clear_bytes, List.nil_append, List.filter_nil] at hrun
    rw [htexts] at hrun
    exact hrun

end

/-- Two texts, with a cut inside the first terminator. -/
theorem handles_iff_cut :
    Handles [ascii "{}", ascii "[]"]
        [ascii "{}" ++ [13, 10, 13], [10] ++ ascii "[]" ++ [13, 10, 13, 10]] ↔
      Deliverable [ascii "{}", ascii "[]"]
        [ascii "{}" ++ [13, 10, 13], [10] ++ ascii "[]" ++ [13, 10, 13, 10]] :=
  handles_iff (by decide) (by decide)

/-- A text with a null is never handled, nor is the one behind it. -/
theorem null_blocks :
    (inputs (J := Bytes) some id [wire [[0], ascii "{}"]]).events = [] ∧
      ¬ Handles [[0], ascii "{}"] [wire [[0], ascii "{}"]] := by
  have hnone : (inputs (J := Bytes) some id [wire [[0], ascii "{}"]]).events = [] := by
    decide
  refine ⟨hnone, fun h => ?_⟩
  have hmine := h Bytes some id
  rw [hnone] at hmine
  cases hmine

end CoreLooper.Jcp
