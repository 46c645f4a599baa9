import CoreLooper.SctpRoundTrip

/-!
# SCTP on a shared line

In verbose mode the bytes in front of `cmd=` are dropped when a frame is read, so that what other
senders leave on the line does no harm.
-/
namespace CoreLooper.Sctp
open CStrings Framing

section
variable {noise x y : Bytes} {fs : List KeyValue} {r : TagSCTP} {chunks : List Bytes}

/-- A text without nulls has no new occurrence when nulls are replaced by a byte it does not
have. -/
theorem infix_withoutNull (hx : ∀ c ∈ x, c ≠ 36) (h : x <:+: TagSCTP.withoutNull noise) :
    x <:+: noise := by
  obtain ⟨s, t, hst⟩ := h
  rw [TagSCTP.withoutNull, List.append_assoc, eq_comm, List.map_eq_append_iff] at hst
  obtain ⟨s', rest, rfl, -, hrest⟩ := hst
  rw [List.map_eq_append_iff] at hrest
  obtain ⟨x', t', rfl, hx', -⟩ := hrest
  have hsame : x' = x := by
    rw [← hx']
    refine ((List.map_congr_left fun c hc => ?_).trans (List.map_id x')).symm
    rw [id_eq, ite_eq_right_iff]
    rintro rfl
    have hdollar := hx 36 (by rw [← hx']; exact List.mem_map.mpr ⟨0, hc, rfl⟩)
    exact absurd rfl hdollar
  rw [hsame]
  exact ⟨s', t', List.append_assoc _ _ _⟩

/-- The search runs up to the marker. -/
theorem skipNoise_passes {n : ℕ} (hn : noise.length ≤ n)
    (hfirst : ∀ j < noise.length, ¬ ascii "cmd=" <+: (noise ++ x).drop j) :
    skipNoise true n (noise ++ x) = skipNoise true (n - noise.length) x := by
  induction noise generalizing n with
  | nil => rfl
  | cons c noise ih =>
      obtain ⟨n, rfl⟩ : ∃ m, n = m + 1 := ⟨n - 1, by simp only [List.length_cons] at hn; omega⟩
      have hhere : (ascii "cmd=").isPrefixOf (c :: (noise ++ x)) = false := by
        rw [Bool.eq_false_iff, ne_eq, List.isPrefixOf_iff_prefix]
        exact hfirst 0 (by simp)
      have hlater := ih (n := n) (by simpa using hn) fun j hj => hfirst (j + 1) (by simpa using hj)
      rw [List.cons_append, skipNoise, hhere, if_pos (by simp), hlater, List.length_cons,
        Nat.add_sub_add_right]

theorem marker_found (hnoise : ¬ ascii "cmd=" <:+: noise) (hx : ascii "cmd=" <+: x) :
    strstr (noise ++ x) (ascii "cmd=") = some noise.length := by
  obtain ⟨rest, rfl⟩ := hx
  exact strstr_after hnoise (by decide) rest

/-- What is read behind the noise is what would be read without it. -/
theorem readItems_noise (hverbose : r.m485Verbose = true) (hnoise : ¬ ascii "cmd=" <:+: noise)
    (hone : ∀ f ∈ fs, OneLine f) (hstarts : Starts true (lines fs)) :
    r.readItems (noise ++ lines fs) = fs.take r.mInboxBundle.mTotalCount.toNat := by
  have hmarker := hstarts.2 rfl
  have hlong : 4 ≤ (lines fs).length := hmarker.length_le
  have hskip := skipNoise_passes (x := lines fs) (n := (noise ++ lines fs).length - 2)
    (by rw [List.length_append]; omega)
    fun j hj => strstr_first (marker_found hnoise hmarker) hj
  have hlen := length_le_lines fs
  rw [TagSCTP.readItems, hverbose]
  simp only [hskip, skipNoise_starts hstarts]
  rw [pushFields_lines hone _ (by omega)]
  rfl

/-- The frame ends where it ends without the noise. -/
theorem nextFrame_noise (hnoise : ¬ tail <:+: noise) (hone : ∀ f ∈ fs, OneLine f)
    (hmarker : ascii "cmd=" <+: lines fs) :
    nextFrame (noise ++ frame fs) = some (noise ++ lines fs, (noise ++ frame fs).length) := by
  have hne : fs ≠ [] := by
    rintro rfl
    have hle := hmarker.length_le
    revert hle
    decide
  have hframe := nextFrame_frame hne hone []
  rw [List.append_nil] at hframe
  obtain ⟨i, hi, heq⟩ := Option.map_eq_some_iff.mp hframe
  obtain ⟨rest, hrest⟩ := hmarker
  have hpass : strstr (noise ++ frame fs) tail =
    (strstr (frame fs) tail).map (noise.length + ·) := by
    apply strstr_front hnoise
    intro j hj hlt hp
    rw [frame, ← hrest] at hp
    have hcases : j = 1 ∨ j = 2 ∨ j = 3 := by
      have : tail.length = 4 := rfl
      omega
    rcases hcases with rfl | rfl | rfl
    · simp [tail, ascii] at hp
    · simp [tail, ascii] at hp
    · simp [tail, ascii] at hp
  rw [Prod.mk.injEq] at heq
  obtain ⟨htext, hlen⟩ := heq
  rw [nextFrame, hpass, hi, Option.map_some, Option.map_some, Option.some.injEq, Prod.mk.injEq]
  constructor
  · rw [Nat.add_assoc, List.take_append, List.take_of_length_le (by omega), ← htext]
    congr 2
    omega
  · rw [List.length_append]
    omega

theorem report_take (h : checkCrc fs = true) (n : ℕ) :
    commands [TagSCTP.report (fs.take n)] = [command fs] ↔ fs.length ≤ n := by
  constructor
  · intro hreport
    rw [TagSCTP.report] at hreport
    split_ifs at hreport with hcrc
    · have hall : fs.take n = fs := congrArg Prod.snd (List.cons.inj hreport).1
      have hlen := congrArg List.length hall
      rw [List.length_take] at hlen
      omega
    · cases hreport
  · intro hle
    rw [List.take_of_length_le hle, TagSCTP.report, if_pos h]
    rfl

/-- Noise in front of a frame does no harm: with room for its fields in the table it is delivered
once, however the bytes are cut. -/
theorem noise_dropped (hverbose : r.m485Verbose = true) (hempty : r.mInbox.data = [])
    (hmarker : ¬ ascii "cmd=" <:+: noise) (hend : ¬ tail <:+: noise)
    (hwf : WellFormed true fs) (hsize : noise.length + (frame fs).length < r.capacity)
    (hcut : chunks.flatten = noise ++ frame fs) :
    commands (chunks.foldl TagSCTP.inputData r).events = commands r.events ++ [command fs] ↔
      fs.length ≤ r.mInboxBundle.mTotalCount.toNat := by
  have hflat : (allPieces chunks).flatten = noise ++ frame fs :=
    (allPieces_flatten chunks).trans hcut
  have hfits : Fits nextFrame r.capacity r.mInbox.data
      ((allPieces chunks).map TagSCTP.withoutNull) := by
    apply fits_of_length nextFrame_stable
    have hmap : ((allPieces chunks).map TagSCTP.withoutNull).flatten =
        TagSCTP.withoutNull (allPieces chunks).flatten := List.map_flatten.symm
    rw [hmap, withoutNull_length, hflat, hempty, List.length_append, List.length_nil]
    omega
  obtain ⟨hevents, -⟩ := inputs_of_fits (allPieces chunks)
    (by rw [hempty]; exact nextFrame_nil) hfits
  have hclean : TagSCTP.withoutNull (noise ++ frame fs) =
      TagSCTP.withoutNull noise ++ frame fs := by
    have hframe := withoutNull_eq (frame_no_null hwf.fields)
    rw [TagSCTP.withoutNull] at hframe ⊢
    rw [List.map_append, hframe]
    rfl
  have hmarker' : ¬ ascii "cmd=" <:+: TagSCTP.withoutNull noise := fun h =>
    hmarker (infix_withoutNull (by simp [ascii]) h)
  have hend' : ¬ tail <:+: TagSCTP.withoutNull noise := fun h =>
    hend (infix_withoutNull (by simp [tail]) h)
  have hnext := nextFrame_noise hend' hwf.fields (hwf.starts.2 rfl)
  have hframes : (frames nextFrame (TagSCTP.withoutNull noise ++ frame fs)).1 =
      [TagSCTP.withoutNull noise ++ lines fs] := by
    rw [frames_some nextFrame_stable hnext, List.drop_length, frames_none nextFrame_nil]
  have hitems := readItems_noise hverbose hmarker' hwf.fields hwf.starts
  rw [inputData_fold, hevents, commands_append, List.append_cancel_left_eq, hempty,
    List.nil_append, hflat, hclean, hframes, reports, List.map_singleton, hitems]
  exact report_take hwf.crc _

end

/-- The beginning of a marker, a null and line ends. -/
def strayBytes : Bytes := [99, 109, 0, 13, 10, 99, 109, 100]

/-- In front of a frame, with a cut in the stray bytes and one in the frame. -/
theorem noise_dropped_cut :
    commands ([strayBytes.take 2, strayBytes.drop 2 ++ (frame goFields).take 3,
        (frame goFields).drop 3].foldl TagSCTP.inputData
          { fresh 16 64 with m485Verbose := true }).events =
        commands (fresh 16 64).events ++ [command goFields] ↔
      goFields.length ≤ (fresh 16 64).mInboxBundle.mTotalCount.toNat := by
  have hstray : ¬ ascii "cmd=" <:+: strayBytes ∧ ¬ tail <:+: strayBytes ∧
      WellFormed true goFields ∧ strayBytes.length + (frame goFields).length < 64 := by
    decide +kernel
  obtain ⟨hmarker, hend, hwf, hsize⟩ := hstray
  exact noise_dropped (r := { fresh 16 64 with m485Verbose := true }) rfl rfl hmarker hend hwf
    hsize (by decide)

/-- A table of one item has no room for the checksum. -/
theorem table_full :
    WellFormed true goFields ∧
      ([frame goFields].foldl TagSCTP.inputData
        { fresh 1 64 with m485Verbose := true }).events =
        [.onError (ascii "crc error,crcLocalCalc=0x67D7")] := by
  decide +kernel

end CoreLooper.Sctp
