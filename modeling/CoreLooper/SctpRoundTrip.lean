import CoreLooper.SctpFrames

/-!
# What arrives of a sequence of frames

The fields of a frame are read back from its text. A sequence of frames, each of which fits the
inbox, is told to the program as a whole exactly when the pieces that arrive fit behind the
unfinished frames before them; otherwise whole frames are lost with the inbox.
-/
namespace CoreLooper.Sctp
open CStrings Framing

section
variable {l x y : Bytes} {f : KeyValue} {fs : List KeyValue} {verbose : Bool} {r : TagSCTP}

/-- A line end that follows a text does not begin inside it. -/
theorem no_crlf (hl : strstr l CRLF = none) (y : Bytes) {j : ℕ} (hj : j < l.length) :
    ¬ CRLF <+: (l ++ 13 :: y).drop j := by
  intro hp
  rw [List.drop_append_of_le_length (Nat.le_of_lt hj)] at hp
  by_cases hin : j + 2 ≤ l.length
  · have hocc : CRLF <+: l.drop j := by
      refine List.prefix_of_prefix_length_le hp (List.prefix_append _ _) ?_
      rw [List.length_drop]
      show 2 ≤ l.length - j
      omega
    have hsome := strstr_isSome hocc
    rw [hl] at hsome
    cases hsome
  · -- the last byte of the text is followed by a return
    have hlast : l.drop j = [l[j]] := by
      rw [List.drop_eq_getElem_cons hj, List.drop_eq_nil_of_le (by omega)]
    rw [hlast, List.singleton_append, CRLF, List.cons_prefix_cons, List.cons_prefix_cons] at hp
    exact absurd hp.2.1 (by decide)

theorem strstr_line (hl : strstr l CRLF = none) (y : Bytes) :
    strstr (l ++ CRLF ++ y) CRLF = some l.length := by
  have hpass : ∀ j < l.length, ¬ CRLF <+: (l ++ (CRLF ++ y)).drop j := fun j hj =>
    no_crlf hl (10 :: y) hj
  rw [List.append_assoc, strstr_pass hpass, strstr_here (List.prefix_append _ _),
    Option.map_some, Nat.add_zero]

theorem frame_cons (f : KeyValue) (fs : List KeyValue) (x : Bytes) :
    frame (f :: fs) ++ x = f.name ++ 61 :: f.value ++ 13 :: 10 :: (frame fs ++ x) := by
  simp [frame, lines, line, CRLF]

theorem frame_length (fs : List KeyValue) : (frame fs).length = (lines fs).length + 2 :=
  List.length_append

theorem line_length (f : KeyValue) : (line f).length = f.name.length + f.value.length + 3 := by
  simp only [line, CRLF, List.length_append, List.length_cons, List.length_nil]
  omega

theorem length_le_lines (fs : List KeyValue) : 3 * fs.length ≤ (lines fs).length := by
  induction fs with
  | nil => simp
  | cons f fs ih =>
      have hline := line_length f
      rw [lines, List.flatMap_cons, List.length_append, ← lines, List.length_cons]
      omega

/-- The first empty line of a frame is at its end. -/
theorem strstr_frame (hfs : fs ≠ []) (hone : ∀ f ∈ fs, OneLine f) (x : Bytes) :
    strstr (frame fs ++ x) tail = some ((lines fs).length - 2) := by
  have hfirst : CRLF <+: tail := ⟨CRLF, rfl⟩
  induction fs with
  | nil => exact absurd rfl hfs
  | cons f fs ih =>
      have hl := (hone f List.mem_cons_self).line
      have hline := line_length f
      rw [frame_cons]
      cases fs with
      | nil =>
          have hhere : tail <+: 13 :: 10 :: (frame [] ++ x) := ⟨x, rfl⟩
          rw [strstr_pass fun j hj hp => no_crlf hl _ hj (hfirst.trans hp), strstr_here hhere,
            Option.map_some]
          simp only [lines, List.flatMap_cons, List.flatMap_nil, List.append_nil, hline,
            List.length_append, List.length_cons]
          congr 1
      | cons g gs =>
          have hg := (hone g (by simp)).line
          have hlater := ih (by simp) fun h hh => hone h (List.mem_cons_of_mem f hh)
          have hsplit : f.name ++ 61 :: f.value ++ 13 :: 10 :: (frame (g :: gs) ++ x) =
              line f ++ (frame (g :: gs) ++ x) := by simp [line, CRLF]
          have hpass : ∀ j < (line f).length,
              ¬ tail <+: (line f ++ (frame (g :: gs) ++ x)).drop j := by
            intro j hj hp
            rw [← hsplit] at hp
            have hlen : (f.name ++ 61 :: f.value).length + 2 = (line f).length := by
              rw [hline, List.length_append, List.length_cons]
              omega
            by_cases hin : j < (f.name ++ 61 :: f.value).length
            · exact no_crlf hl _ hin (hfirst.trans hp)
            · rw [List.drop_append, List.drop_eq_nil_of_le (Nat.not_lt.mp hin),
                List.nil_append] at hp
              obtain hat | hat : j - (f.name ++ 61 :: f.value).length = 0 ∨
                  j - (f.name ++ 61 :: f.value).length = 1 := by omega
              · -- an empty line after this one
                rw [hat, List.drop_zero, frame_cons] at hp
                refine no_crlf hg (10 :: (frame gs ++ x)) (j := 0) (by simp) ?_
                simpa [tail, CRLF] using hp
              · rw [hat, List.drop_one, List.tail_cons, tail, List.cons_prefix_cons] at hp
                exact absurd hp.1 (by decide)
          rw [hsplit, strstr_pass hpass, hlater, Option.map_some]
          have hmore := length_le_lines (g :: gs)
          have hcons : (lines (f :: g :: gs)).length =
              (line f).length + (lines (g :: gs)).length := by
            rw [lines, List.flatMap_cons, List.length_append, ← lines]
          rw [List.length_cons] at hmore
          congr 1
          omega

theorem nextFrame_frame (hfs : fs ≠ []) (hone : ∀ f ∈ fs, OneLine f) (x : Bytes) :
    nextFrame (frame fs ++ x) = some (lines fs, (frame fs).length) := by
  have hlen := length_le_lines fs
  have hpos := List.length_pos_iff.mpr hfs
  have htwo : (lines fs).length - 2 + 2 = (lines fs).length := by omega
  rw [nextFrame, strstr_frame hfs hone, Option.map_some, htwo, frame, List.append_assoc,
    List.take_left, List.length_append]
  show some (lines fs, (lines fs).length - 2 + 4) = some (lines fs, (lines fs).length + 2)
  congr 2
  omega

theorem skipNoise_starts (hs : Starts verbose x) (n : ℕ) : skipNoise verbose n x = x := by
  obtain ⟨⟨c, hc, halpha⟩, hcmd⟩ := hs
  cases n with
  | zero => rfl
  | succ n =>
      cases x with
      | nil => rfl
      | cons d x =>
          obtain rfl : d = c := by simpa using hc
          have hstop : (!isalpha d || (verbose && !(ascii "cmd=").isPrefixOf (d :: x)))
            = false := by
            rw [halpha]
            cases verbose with
            | false => rfl
            | true =>
                have hp := List.isPrefixOf_iff_prefix.mpr (hcmd rfl)
                rw [hp]
                rfl
          rw [skipNoise, hstop]
          rfl

theorem push_take (b : TagBundle) (f : KeyValue) (fs : List KeyValue) :
    ((b.push f.name f.value).2.mItems ++
        fs.take ((b.push f.name f.value).2.mTotalCount.toNat -
          (b.push f.name f.value).2.mItems.length)) =
      b.mItems ++ (f :: fs).take (b.mTotalCount.toNat - b.mItems.length) := by
  unfold TagBundle.push
  split_ifs with hfull
  · rw [Nat.sub_eq_zero_of_le hfull]
    rfl
  · obtain ⟨n, hn⟩ := Nat.exists_eq_add_of_lt (Nat.not_le.mp hfull)
    have h1 : b.mTotalCount.toNat - b.mItems.length = n + 1 := by omega
    have h2 : b.mTotalCount.toNat - (b.mItems.length + 1) = n := by omega
    simp only [List.length_append, List.length_singleton, h1, h2, List.take_succ_cons,
      List.append_assoc, List.singleton_append]

theorem pushFields_lines (hone : ∀ f ∈ fs, OneLine f) (fuel : ℕ) (hfuel : fs.length ≤ fuel)
    (b : TagBundle) : (pushFields fuel (lines fs) b).mItems =
      b.mItems ++ fs.take (b.mTotalCount.toNat - b.mItems.length) := by
  induction fuel generalizing fs b with
  | zero =>
      rw [List.length_eq_zero_iff.mp (Nat.le_zero.mp hfuel)]
      simp [pushFields]
  | succ fuel ih =>
      cases fs with
      | nil => simp [pushFields, lines]
      | cons f fs =>
          obtain ⟨hsign, hl, -, -⟩ := hone f List.mem_cons_self
          have hcons : lines (f :: fs) = f.name ++ 61 :: f.value ++ CRLF ++ lines fs := by
            rw [lines, List.flatMap_cons, ← lines, line]
          have hne : lines (f :: fs) ≠ [] := by simp [hcons]
          have hend : strstr (lines (f :: fs)) CRLF = some (f.name ++ 61 :: f.value).length := by
            rw [hcons]
            exact strstr_line hl _
          have htake : (lines (f :: fs)).take (f.name ++ 61 :: f.value).length =
              f.name ++ 61 :: f.value := by
            rw [hcons, List.append_assoc, List.take_left]
          have hdrop : (lines (f :: fs)).drop ((f.name ++ 61 :: f.value).length + 2) =
              lines fs := by
            rw [hcons, ← List.drop_drop, List.append_assoc, List.drop_left]
            rfl
          have hequal : strstr (f.name ++ 61 :: f.value) (ascii "=") = some f.name.length := by
            have hhere : strstr (61 :: f.value) [61] = some 0 := strstr_here ⟨f.value, rfl⟩
            show strstr (f.name ++ 61 :: f.value) [61] = some f.name.length
            rw [strstr_skip hsign, hhere, Option.map_some, Nat.add_zero]
          have hname : (f.name ++ 61 :: f.value).take f.name.length = f.name := List.take_left
          have hvalue : (f.name ++ 61 :: f.value).drop (f.name.length + 1) = f.value := by
            rw [← List.drop_drop, List.drop_left]
            rfl
          rw [pushFields, if_neg hne]
          simp only [hend, htake, hdrop, hequal, hname, hvalue]
          rw [ih (fun g hg => hone g (List.mem_cons_of_mem f hg))
            (by simpa using hfuel), push_take]

theorem Starts.ne_nil (h : Starts verbose (lines fs)) : fs ≠ [] := by
  rintro rfl
  obtain ⟨c, hc, -⟩ := h.1
  cases hc

theorem WellFormed.ne_nil (h : WellFormed verbose fs) : fs ≠ [] := h.starts.ne_nil

/-- The items of a frame are its fields, as many as the table takes. -/
theorem readItems_lines (hone : ∀ f ∈ fs, OneLine f) (hstarts : Starts r.m485Verbose (lines fs)) :
    r.readItems (lines fs) = fs.take r.mInboxBundle.mTotalCount.toNat := by
  have hlen := length_le_lines fs
  rw [TagSCTP.readItems]
  rw [skipNoise_starts hstarts, pushFields_lines hone _ (by omega)]
  rfl

theorem report_wellFormed (h : WellFormed r.m485Verbose fs)
    (hroom : fs.length ≤ r.mInboxBundle.mTotalCount.toNat) :
    TagSCTP.report (r.readItems (lines fs)) = .onRecvCommand (getString fs (ascii "cmd")) fs := by
  rw [readItems_lines h.fields h.starts, List.take_of_length_le hroom, TagSCTP.report, if_pos h.crc]

end

section
variable {fss : List (List KeyValue)} {verbose : Bool} {r : TagSCTP} {chunks : List Bytes}

/-- How much of an unfinished frame there is after so many bytes of frames of these lengths. -/
def begun : List ℕ → ℕ → ℕ
  | [], n => n
  | l :: ls, n => if n < l then n else begun ls (n - l)

/-- The lengths of some frames. -/
def sizes (fss : List (List KeyValue)) : List ℕ := fss.map fun fs => (frame fs).length

theorem frames_stream (hwf : ∀ fs ∈ fss, WellFormed verbose fs) :
    frames nextFrame (fss.flatMap frame) = (fss.map lines, []) := by
  induction fss with
  | nil => rfl
  | cons fs fss ih =>
      have hfs := hwf fs List.mem_cons_self
      rw [List.flatMap_cons, frames_some nextFrame_stable
        (nextFrame_frame hfs.ne_nil hfs.fields _), List.drop_left,
        ih fun gs hgs => hwf gs (List.mem_cons_of_mem fs hgs), List.map_cons]

theorem rest_begun (hwf : ∀ fs ∈ fss, WellFormed verbose fs) {u v : Bytes}
    (hcut : u ++ v = fss.flatMap frame) :
    (frames nextFrame u).2.length = begun (sizes fss) u.length := by
  induction fss generalizing u with
  | nil =>
      obtain rfl : u = [] := (List.append_eq_nil_iff.mp hcut).1
      rfl
  | cons fs fss ih =>
      have hfs := hwf fs List.mem_cons_self
      rw [List.flatMap_cons] at hcut
      rw [sizes, List.map_cons, begun]
      split_ifs with hlt
      · -- a frame that is not there as a whole is not found
        have hnone : nextFrame u = none := by
          cases hu : nextFrame u with
          | none => rfl
          | some fk =>
              obtain ⟨f, k⟩ := fk
              have hle := nextFrame_stable.le hu
              have hmore := nextFrame_stable.append v hu
              rw [hcut, nextFrame_frame hfs.ne_nil hfs.fields] at hmore
              obtain ⟨-, rfl⟩ := Prod.mk.inj (Option.some.inj hmore)
              omega
        rw [frames_none hnone]
      · have hfront : frame fs <+: u ++ v := by
          rw [hcut]
          exact List.prefix_append _ _
        obtain ⟨w, rfl⟩ := List.prefix_of_prefix_length_le hfront (List.prefix_append u v)
          (Nat.not_lt.mp hlt)
        rw [List.append_assoc, List.append_cancel_left_eq] at hcut
        rw [frames_some nextFrame_stable (nextFrame_frame hfs.ne_nil hfs.fields _), List.drop_left,
          ih (fun gs hgs => hwf gs (List.mem_cons_of_mem fs hgs)) hcut, List.length_append,
          Nat.add_sub_cancel_left, sizes]

theorem stream_short {cap : ℕ} (hwf : ∀ fs ∈ fss, WellFormed verbose fs)
    (hsize : ∀ fs ∈ fss, (frame fs).length < cap) :
    Short nextFrame cap (fss.flatMap frame) := by
  intro t f k hahead hk
  have hsuffix : ∃ gs, gs <:+ fss ∧ t = gs.flatMap frame := by
    clear hk
    induction hahead with
    | refl => exact ⟨fss, List.suffix_refl _, rfl⟩
    | @frame u f k _ hu ih =>
        obtain ⟨gs, hgs, rfl⟩ := ih
        cases gs with
        | nil => cases hu
        | cons g gs =>
            have hg := hwf g (hgs.mem List.mem_cons_self)
            rw [List.flatMap_cons, nextFrame_frame hg.ne_nil hg.fields] at hu
            cases hu
            refine ⟨gs, (List.suffix_cons g gs).trans hgs, ?_⟩
            rw [List.flatMap_cons, List.drop_left]
  obtain ⟨gs, hgs, rfl⟩ := hsuffix
  cases gs with
  | nil => cases hk
  | cons g gs =>
      have hmem := hgs.mem List.mem_cons_self
      have hg := hwf g hmem
      rw [List.flatMap_cons, nextFrame_frame hg.ne_nil hg.fields] at hk
      cases hk
      exact hsize g hmem

/-- The command a frame stands for. -/
def command (fs : List KeyValue) : Bytes × List KeyValue := (getString fs (ascii "cmd"), fs)

theorem commands_length_le (events : List Event) : (commands events).length ≤ events.length :=
  List.length_filterMap_le _ _

theorem commands_reports (hwf : ∀ fs ∈ fss, WellFormed r.m485Verbose fs)
    (htable : ∀ fs ∈ fss, fs.length ≤ r.mInboxBundle.mTotalCount.toNat) :
    commands (reports r (fss.map lines)) = fss.map command := by
  induction fss with
  | nil => rfl
  | cons fs fss ih =>
      have hlater := ih (fun gs hgs => hwf gs (List.mem_cons_of_mem fs hgs))
        fun gs hgs => htable gs (List.mem_cons_of_mem fs hgs)
      have hone := report_wellFormed (hwf fs List.mem_cons_self) (htable fs List.mem_cons_self)
      rw [reports] at hlater ⊢
      rw [List.map_cons, List.map_cons, List.map_cons, ← hlater, commands, List.filterMap_cons,
        hone]
      rfl

/-- A table that is too small for a frame loses its checksum or other fields. -/
theorem table_of_commands (hwf : ∀ fs ∈ fss, WellFormed r.m485Verbose fs)
    (h : commands (reports r (fss.map lines)) = fss.map command) :
    ∀ fs ∈ fss, fs.length ≤ r.mInboxBundle.mTotalCount.toNat := by
  induction fss with
  | nil => simp
  | cons fs fss ih =>
      have hfs := hwf fs List.mem_cons_self
      have hitems := readItems_lines hfs.fields hfs.starts
      rw [reports, List.map_cons, List.map_cons, List.map_cons, commands, List.filterMap_cons,
        hitems, TagSCTP.report] at h
      split_ifs at h with hcrc
      · have hhead : command (fs.take r.mInboxBundle.mTotalCount.toNat) = command fs :=
          (List.cons.inj h).1
        have hall : fs.take r.mInboxBundle.mTotalCount.toNat = fs := congrArg Prod.snd hhead
        have hlater := ih (fun gs hgs => hwf gs (List.mem_cons_of_mem fs hgs)) (List.cons.inj h).2
        intro gs hgs
        rcases List.mem_cons.mp hgs with rfl | hgs
        · have hlen := congrArg List.length hall
          rw [List.length_take] at hlen
          omega
        · exact hlater gs hgs
      · -- one report less than there are frames
        have hfewer := commands_length_le (reports r (fss.map lines))
        have hlen := congrArg List.length h
        rw [← reports] at hlen
        rw [reports, List.length_map, List.length_map, ← reports] at hfewer
        change (commands (reports r (fss.map lines))).length = _ at hlen
        rw [List.length_cons, List.length_map] at hlen
        omega

/-- The frames of the stream as pieces that arrive. -/
theorem fits_stream (hwf : ∀ fs ∈ fss, WellFormed r.m485Verbose fs) {ps : List Bytes}
    (hcut : ps.flatten = fss.flatMap frame) {cap : ℕ} :
    Fits nextFrame cap [] ps ↔ ∀ qs p rest, ps = qs ++ p :: rest →
      begun (sizes fss) qs.flatten.length + p.length < cap := by
  rw [fits_iff nextFrame_stable [] nextFrame_nil]
  refine forall_congr' fun qs => forall_congr' fun p => forall_congr' fun rest => ?_
  refine imp_congr_right fun heq => ?_
  rw [List.nil_append, rest_begun hwf (v := (p :: rest).flatten)]
  rw [← hcut, heq, List.flatten_append]

theorem withoutNull_eq {text : Bytes} (h : 0 ∉ text) : TagSCTP.withoutNull text = text := by
  refine (List.map_congr_left fun c hc => ?_).trans (List.map_id text)
  have hc0 : c ≠ 0 := by
    rintro rfl
    exact h hc
  exact if_neg hc0

theorem frame_no_null {fs : List KeyValue} (hone : ∀ f ∈ fs, OneLine f) : 0 ∉ frame fs := by
  intro hmem
  rw [frame, List.mem_append, lines, List.mem_flatMap] at hmem
  rcases hmem with ⟨f, hf, hmem⟩ | hmem
  · obtain ⟨-, -, hname, hvalue⟩ := hone f hf
    simp [line, CRLF, hname, hvalue] at hmem
  · simp [CRLF] at hmem

theorem map_withoutNull {ps : List Bytes} (h : 0 ∉ ps.flatten) :
    ps.map TagSCTP.withoutNull = ps := by
  refine (List.map_congr_left fun p hp => ?_).trans (List.map_id ps)
  exact withoutNull_eq fun h0 => h (List.mem_flatten.mpr ⟨p, hp, h0⟩)

/-- Frames below the capacity all arrive if and only if the table has room for each of them, and
every piece, together with what is there of a frame, is below the capacity too. -/
theorem delivers_iff (hempty : r.mInbox.data = []) (hwf : ∀ fs ∈ fss, WellFormed r.m485Verbose fs)
    (hsize : ∀ fs ∈ fss, (frame fs).length < r.capacity)
    (hcut : chunks.flatten = fss.flatMap frame) :
    commands (chunks.foldl TagSCTP.inputData r).events =
        commands r.events ++ fss.map command ↔
      (∀ fs ∈ fss, fs.length ≤ r.mInboxBundle.mTotalCount.toNat) ∧
        ∀ qs p rest, allPieces chunks = qs ++ p :: rest →
          begun (sizes fss) qs.flatten.length + p.length < r.capacity := by
  have hflat : (allPieces chunks).flatten = fss.flatMap frame :=
    (allPieces_flatten chunks).trans hcut
  have hnull : 0 ∉ (allPieces chunks).flatten := by
    rw [hflat, List.mem_flatMap]
    rintro ⟨fs, hfs, hmem⟩
    exact frame_no_null (hwf fs hfs).fields hmem
  have hmap := map_withoutNull hnull
  have hframes := frames_stream hwf
  rw [inputData_fold, ← fits_stream hwf hflat]
  constructor
  · intro h
    rw [inputs_commands _ fun p hp => allPieces_ne_nil p hp, hmap, hempty,
      List.append_cancel_left_eq] at h
    -- as many frames were found as there are, so every piece did fit
    have hcount : count nextFrame ([] ++ (allPieces chunks).flatten) = fss.length := by
      rw [List.nil_append, hflat, count, hframes, List.length_map]
    have hle := @offer_count_le _ _ nextFrame r.capacity nextFrame_stable nextFrame_late [] []
      (allPieces chunks)
    have hge := commands_length_le (reports r
      ((allPieces chunks).foldl (offer nextFrame r.capacity) ([], [])).1)
    rw [h, List.length_map, reports, List.length_map] at hge
    have hfits := (offer_count_iff nextFrame_stable nextFrame_late [] [] (allPieces chunks)
      nextFrame_nil (fun p hp => allPieces_ne_nil p hp)
      (by rw [List.nil_append, hflat]; exact stream_short hwf hsize)
      (by rw [List.nil_append, hflat, hframes])).mp
      (Nat.le_antisymm hle (by rw [hcount]; simpa using hge))
    rw [offer_of_fits nextFrame_stable nextFrame_nil _ hfits, List.nil_append, List.nil_append,
      hflat, hframes] at h
    exact ⟨table_of_commands hwf h, hfits⟩
  · rintro ⟨htable, hfits⟩
    rw [← hmap, ← hempty] at hfits
    obtain ⟨hevents, -⟩ := inputs_of_fits (allPieces chunks)
      (by rw [hempty]; exact nextFrame_nil) hfits
    rw [hevents, commands_append, hempty, List.nil_append, withoutNull_eq hnull, hflat, hframes,
      commands_reports hwf htable]

end

/-- A side with nothing in it. -/
def fresh (totalCount : UInt8) (totalBytes : UInt16) : TagSCTP where
  mInbox := ⟨[], totalBytes⟩
  mOutbox := ⟨[], totalBytes⟩
  mInboxBundle := ⟨[], totalCount⟩
  mOutboxBundle := ⟨[], totalCount⟩
  mSeq := 0
  mDisableSeq := false
  m485Verbose := false
  events := []

/-- A frame of 20 bytes. -/
def goFields : List KeyValue := [⟨ascii "cmd", ascii "go"⟩, ⟨ascii "crc", ascii "67D7"⟩]

/-- Cut into calls of 25 and 15 bytes, two of them arrive in an inbox of 32 bytes. -/
theorem delivers_cut :
    commands ([(frame goFields ++ frame goFields).take 25,
        (frame goFields ++ frame goFields).drop 25].foldl TagSCTP.inputData (fresh 16 32)).events =
          commands (fresh 16 32).events ++ [goFields, goFields].map command ↔
      (∀ fs ∈ [goFields, goFields], fs.length ≤ (fresh 16 32).mInboxBundle.mTotalCount.toNat) ∧
        ∀ qs p rest, allPieces [(frame goFields ++ frame goFields).take 25,
            (frame goFields ++ frame goFields).drop 25] = qs ++ p :: rest →
          begun (sizes [goFields, goFields]) qs.flatten.length + p.length <
            (fresh 16 32).capacity :=
  delivers_iff rfl (by decide +kernel) (by decide +kernel) (by decide +kernel)

/-- Two of them that arrive together are lost, although each is below the capacity. -/
theorem delivers_together :
    (∀ fs ∈ [goFields, goFields], WellFormed false fs ∧ fs.length ≤ 16 ∧
      (frame fs).length < (fresh 16 32).capacity) ∧
    ((fresh 16 32).inputData ([goFields, goFields].flatMap frame)).events =
      [.onError (ascii "data/protocol error")] := by
  decide +kernel

end CoreLooper.Sctp
