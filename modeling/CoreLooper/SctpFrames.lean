import CoreLooper.Framing
import CoreLooper.Sctp

/-!
# Frames of SCTP

The text of a frame is read back as the fields it was made of, however it is cut into pieces.
-/
namespace CoreLooper.Sctp
open CStrings Framing

/-- The line of a field. -/
def line (f : KeyValue) : Bytes := f.name ++ 61 :: f.value ++ CRLF

def lines (fs : List KeyValue) : Bytes := fs.flatMap line

def frame (fs : List KeyValue) : Bytes := lines fs ++ CRLF

/-- A field that is read back from its line. -/
structure OneLine (f : KeyValue) : Prop where
  sign : 61 ∉ f.name
  line : strstr (f.name ++ 61 :: f.value) CRLF = none
  name : 0 ∉ f.name
  value : 0 ∉ f.value

/-- A field without any byte that has a meaning. -/
structure Plain (f : KeyValue) : Prop where
  name_ne : f.name ≠ []
  name : ∀ c ∈ f.name, c ≠ 13 ∧ c ≠ 10 ∧ c ≠ 0 ∧ c ≠ 61
  value : ∀ c ∈ f.value, c ≠ 13 ∧ c ≠ 10 ∧ c ≠ 0

/-- Where the search for the start of the command stops. -/
def Starts (verbose : Bool) (body : Bytes) : Prop :=
  (∃ c ∈ body.head?, isalpha c = true) ∧ (verbose = true → ascii "cmd=" <+: body)

/-- The fields of a frame. -/
structure WellFormed (verbose : Bool) (fs : List KeyValue) : Prop where
  fields : ∀ f ∈ fs, OneLine f
  starts : Starts verbose (lines fs)
  crc : checkCrc fs = true

instance (f : KeyValue) : Decidable (OneLine f) :=
  decidable_of_iff (61 ∉ f.name ∧ strstr (f.name ++ 61 :: f.value) CRLF = none ∧ 0 ∉ f.name ∧
    0 ∉ f.value)
    ⟨fun h => ⟨h.1, h.2.1, h.2.2.1, h.2.2.2⟩, fun h => ⟨h.sign, h.line, h.name, h.value⟩⟩

instance (f : KeyValue) : Decidable (Plain f) :=
  decidable_of_iff (f.name ≠ [] ∧ (∀ c ∈ f.name, c ≠ 13 ∧ c ≠ 10 ∧ c ≠ 0 ∧ c ≠ 61) ∧
    ∀ c ∈ f.value, c ≠ 13 ∧ c ≠ 10 ∧ c ≠ 0)
    ⟨fun h => ⟨h.1, h.2.1, h.2.2⟩, fun h => ⟨h.name_ne, h.name, h.value⟩⟩

instance (verbose : Bool) (body : Bytes) : Decidable (Starts verbose body) :=
  inferInstanceAs (Decidable (_ ∧ _))

instance (verbose : Bool) (fs : List KeyValue) : Decidable (WellFormed verbose fs) :=
  decidable_of_iff ((∀ f ∈ fs, OneLine f) ∧ Starts verbose (lines fs) ∧ checkCrc fs = true)
    ⟨fun h => ⟨h.1, h.2.1, h.2.2⟩, fun h => ⟨h.fields, h.starts, h.crc⟩⟩

/-- The first frame of a text, without its last line end, and its length. -/
def nextFrame (u : Bytes) : Option (Bytes × ℕ) :=
  (strstr u tail).map fun i => (u.take (i + 2), i + 4)

theorem nextFrame_stable : Stable nextFrame where
  pos := by
    intro u f k h
    obtain ⟨i, -, hi⟩ := Option.map_eq_some_iff.mp h
    cases hi
    omega
  le := by
    intro u f k h
    obtain ⟨i, hi, heq⟩ := Option.map_eq_some_iff.mp h
    cases heq
    exact strstr_add_length_le hi
  append := by
    intro u f k v h
    obtain ⟨i, hi, heq⟩ := Option.map_eq_some_iff.mp h
    cases heq
    have hle : i + 4 ≤ u.length := strstr_add_length_le hi
    rw [nextFrame, strstr_append hi v, Option.map_some, List.take_append_of_le_length (by omega)]

/-- What decides how text is read. -/
structure SameReader (r r' : TagSCTP) : Prop where
  verbose : r'.m485Verbose = r.m485Verbose
  table : r'.mInboxBundle.mTotalCount = r.mInboxBundle.mTotalCount
  inbox : r'.mInbox.mTotalBytes = r.mInbox.mTotalBytes

section
variable {r r' r'' : TagSCTP} {f : KeyValue} {fs : List KeyValue} {text : Bytes}

theorem SameReader.refl : SameReader r r := ⟨rfl, rfl, rfl⟩

theorem SameReader.trans (h : SameReader r r') (h' : SameReader r' r'') : SameReader r r'' :=
  ⟨h'.verbose.trans h.verbose, h'.table.trans h.table, h'.inbox.trans h.inbox⟩

theorem SameReader.readItems (h : SameReader r r') (text : Bytes) :
    r'.readItems text = r.readItems text := by
  have hclear : r'.mInboxBundle.clear = r.mInboxBundle.clear := by
    simp only [TagBundle.clear, h.table]
  simp only [TagSCTP.readItems, h.verbose, hclear]

/-- The callbacks for the texts of some frames. -/
def reports (r : TagSCTP) (texts : List Bytes) : List Event :=
  texts.map fun text => TagSCTP.report (r.readItems text)

theorem SameReader.reports (h : SameReader r r') (texts : List Bytes) :
    reports r' texts = reports r texts := by
  simp only [Sctp.reports, h.readItems]

theorem nextFrame_nil : nextFrame [] = none := by decide

theorem parseLoop_spec (fuel : ℕ) (r : TagSCTP) :
    (TagSCTP.parseLoop fuel r).events =
        r.events ++ reports r (drain nextFrame fuel r.mInbox.data).1 ∧
      (TagSCTP.parseLoop fuel r).mInbox.data = (drain nextFrame fuel r.mInbox.data).2 ∧
      SameReader r (TagSCTP.parseLoop fuel r) := by
  induction fuel generalizing r with
  | zero => exact ⟨by simp [TagSCTP.parseLoop, drain, reports], rfl, .refl⟩
  | succ fuel ih =>
      rw [TagSCTP.parseLoop]
      split_ifs with hempty
      · rw [hempty]
        simp [drain, nextFrame_nil, reports, SameReader.refl]
      · cases hi : strstr r.mInbox.data tail with
        | none =>
            have hnone : nextFrame r.mInbox.data = none := by rw [nextFrame, hi, Option.map_none]
            simp [drain, hnone, reports, SameReader.refl]
        | some i =>
            have hsome : nextFrame r.mInbox.data = some (r.mInbox.data.take (i + 2), i + 4) := by
              rw [nextFrame, hi, Option.map_some]
            have hle : ¬ r.mInbox.data.length < i + 4 :=
              Nat.not_lt.mpr (strstr_add_length_le hi)
            have hsame : SameReader r
                { r.emit (TagSCTP.report (r.readItems (r.mInbox.data.take (i + 2)))) with
                  mInbox := r.mInbox.eat (i + 4), mInboxBundle := r.mInboxBundle.clear } := by
              refine ⟨rfl, rfl, ?_⟩
              simp only [TagByteBuffer.eat, if_neg hle]
            obtain ⟨hevents, hdata, hreader⟩ := ih
              { r.emit (TagSCTP.report (r.readItems (r.mInbox.data.take (i + 2)))) with
                mInbox := r.mInbox.eat (i + 4), mInboxBundle := r.mInboxBundle.clear }
            have heat : (r.mInbox.eat (i + 4)).data = r.mInbox.data.drop (i + 4) := by
              simp only [TagByteBuffer.eat, if_neg hle]
            rw [hsame.reports] at hevents
            simp only [heat, TagSCTP.emit] at hevents hdata
            refine ⟨?_, ?_, hsame.trans hreader⟩
            · simp only [drain, hsome]
              refine hevents.trans ?_
              simp only [reports, List.map_cons, List.append_assoc, List.singleton_append]
            · simp only [drain, hsome]
              exact hdata

/-- The capacity of the inbox; one byte of it is kept for the null. -/
def TagSCTP.capacity (r : TagSCTP) : ℕ := r.mInbox.mTotalBytes.toNat

theorem SameReader.capacity (h : SameReader r r') : r'.capacity = r.capacity := by
  simp only [TagSCTP.capacity, h.inbox]

theorem withoutNull_length (text : Bytes) : (TagSCTP.withoutNull text).length = text.length :=
  List.length_map _

theorem inputDataImpl_fits (hfit : r.mInbox.data.length + text.length < r.capacity) :
    (r.inputDataImpl text).events = r.events ++
        reports r (frames nextFrame (r.mInbox.data ++ TagSCTP.withoutNull text)).1 ∧
      (r.inputDataImpl text).mInbox.data =
        (frames nextFrame (r.mInbox.data ++ TagSCTP.withoutNull text)).2 ∧
      SameReader r (r.inputDataImpl text) := by
  have hlen := withoutNull_length text
  have hinput : r.mInbox.input (TagSCTP.withoutNull text) =
      (text.length, { r.mInbox with data := r.mInbox.data ++ TagSCTP.withoutNull text }) := by
    unfold TagSCTP.capacity at hfit
    unfold TagByteBuffer.input TagByteBuffer.getFreeBytes
    dsimp only
    split_ifs with hfull hfree
    · have hnil : text = [] := List.length_eq_zero_iff.mp (by omega)
      subst hnil
      simp [TagSCTP.withoutNull]
    · omega
    · have hnil : text = [] := List.length_eq_zero_iff.mp (by omega)
      subst hnil
      simp [TagSCTP.withoutNull]
    · rw [hlen, Nat.min_eq_left (by omega), List.take_of_length_le (by omega)]
  unfold TagSCTP.inputDataImpl
  simp only [hinput, ne_eq, not_true_eq_false, if_false]
  obtain ⟨hevents, hdata, hsame⟩ := parseLoop_spec
    (r.mInbox.data ++ TagSCTP.withoutNull text).length
    { r with mInbox := { r.mInbox with data := r.mInbox.data ++ TagSCTP.withoutNull text } }
  have hreader : SameReader r { r with
      mInbox := { r.mInbox with data := r.mInbox.data ++ TagSCTP.withoutNull text } } :=
    ⟨rfl, rfl, rfl⟩
  rw [hreader.reports] at hevents
  exact ⟨hevents, hdata, hreader.trans hsame⟩

theorem inputDataImpl_lost (hne : text ≠ [])
    (hfit : ¬ r.mInbox.data.length + text.length < r.capacity) :
    (r.inputDataImpl text).events = r.events ++ [.onError (ascii "data/protocol error")] ∧
      (r.inputDataImpl text).mInbox.data = [] ∧ SameReader r (r.inputDataImpl text) := by
  have hpos := List.length_pos_iff.mpr hne
  have hinput : (r.mInbox.input (TagSCTP.withoutNull text)).1 ≠ text.length := by
    have hlen := withoutNull_length text
    unfold TagSCTP.capacity at hfit
    unfold TagByteBuffer.input TagByteBuffer.getFreeBytes
    dsimp only
    split_ifs <;> simp only [hlen] <;> omega
  have hsize : (r.mInbox.input (TagSCTP.withoutNull text)).2.mTotalBytes =
    r.mInbox.mTotalBytes := by
    unfold TagByteBuffer.input
    dsimp only
    split_ifs <;> rfl
  unfold TagSCTP.inputDataImpl
  dsimp only
  rw [if_pos hinput]
  exact ⟨rfl, rfl, rfl, rfl, hsize⟩

/-- The pieces of all calls. -/
def allPieces (chunks : List Bytes) : List Bytes :=
  chunks.flatMap fun text => TagSCTP.pieces text.length text

theorem allPieces_cons (text : Bytes) (chunks : List Bytes) :
    allPieces (text :: chunks) = TagSCTP.pieces text.length text ++ allPieces chunks := rfl

theorem pieces_flatten (fuel : ℕ) (text : Bytes) (hfuel : text.length ≤ fuel) :
    (TagSCTP.pieces fuel text).flatten = text := by
  induction fuel generalizing text with
  | zero => rw [List.length_eq_zero_iff.mp (Nat.le_zero.mp hfuel)]; rfl
  | succ fuel ih =>
      rw [TagSCTP.pieces]
      split_ifs with hempty
      · rw [hempty]
        rfl
      · have hpos := List.length_pos_iff.mpr hempty
        rw [List.flatten_cons, ih _ (by rw [List.length_drop]; omega), List.take_append_drop]

theorem pieces_ne_nil (fuel : ℕ) (text : Bytes) : ∀ p ∈ TagSCTP.pieces fuel text, p ≠ [] := by
  induction fuel generalizing text with
  | zero => simp [TagSCTP.pieces]
  | succ fuel ih =>
      rw [TagSCTP.pieces]
      split_ifs with hempty
      · simp
      · intro p hp
        rcases List.mem_cons.mp hp with rfl | hp
        · simp [hempty]
        · exact ih _ p hp

theorem allPieces_flatten (chunks : List Bytes) : (allPieces chunks).flatten = chunks.flatten := by
  induction chunks with
  | nil => rfl
  | cons text chunks ih =>
      rw [allPieces_cons, List.flatten_append, pieces_flatten _ _ (Nat.le_refl _),
        List.flatten_cons, ih]

theorem allPieces_ne_nil {chunks : List Bytes} : ∀ p ∈ allPieces chunks, p ≠ [] := by
  intro p hp
  obtain ⟨text, -, hmem⟩ := List.mem_flatMap.mp hp
  exact pieces_ne_nil _ _ p hmem

theorem inputData_fold (r : TagSCTP) (chunks : List Bytes) :
    chunks.foldl TagSCTP.inputData r = (allPieces chunks).foldl TagSCTP.inputDataImpl r := by
  induction chunks generalizing r with
  | nil => rfl
  | cons text chunks ih =>
      rw [List.foldl_cons, ih, allPieces_cons, List.foldl_append]
      rfl

theorem inputs_of_fits (ps : List Bytes) (hrest : nextFrame r.mInbox.data = none)
    (hfits : Fits nextFrame r.capacity r.mInbox.data (ps.map TagSCTP.withoutNull)) :
    (ps.foldl TagSCTP.inputDataImpl r).events = r.events ++
        reports r (frames nextFrame (r.mInbox.data ++ TagSCTP.withoutNull ps.flatten)).1 ∧
      (ps.foldl TagSCTP.inputDataImpl r).mInbox.data =
        (frames nextFrame (r.mInbox.data ++ TagSCTP.withoutNull ps.flatten)).2 := by
  induction ps generalizing r with
  | nil => simp [TagSCTP.withoutNull, frames_none hrest, reports]
  | cons p ps ih =>
      rw [List.map_cons] at hfits
      obtain ⟨hfit, hfits⟩ := hfits
      rw [withoutNull_length] at hfit
      obtain ⟨hevents, hdata, hsame⟩ := inputDataImpl_fits hfit
      rw [← hsame.capacity, ← hdata] at hfits
      have hnone : nextFrame (r.inputDataImpl p).mInbox.data = none := by
        rw [hdata]
        exact frames_rest nextFrame_stable _
      have happend : r.mInbox.data ++ TagSCTP.withoutNull (p :: ps).flatten =
          r.mInbox.data ++ TagSCTP.withoutNull p ++ TagSCTP.withoutNull ps.flatten := by
        simp only [TagSCTP.withoutNull, List.flatten_cons, List.map_append, List.append_assoc]
      obtain ⟨hevents', hdata'⟩ := ih hnone hfits
      rw [hsame.reports, hevents, hdata] at hevents'
      rw [hdata] at hdata'
      rw [List.foldl_cons, happend, frames_append nextFrame_stable]
      refine ⟨hevents'.trans ?_, hdata'⟩
      simp only [reports, List.map_append, List.append_assoc]

/-- The commands the program was told of. -/
def commands (events : List Event) : List (Bytes × List KeyValue) :=
  events.filterMap fun e =>
    match e with
    | .onRecvCommand cmd items => some (cmd, items)
    | .onError _ => none

theorem commands_append (es es' : List Event) :
    commands (es ++ es') = commands es ++ commands es' := List.filterMap_append

theorem inputs_commands (ps : List Bytes) (hne : ∀ p ∈ ps, p ≠ []) :
    commands (ps.foldl TagSCTP.inputDataImpl r).events = commands r.events ++
      commands (reports r ((ps.map TagSCTP.withoutNull).foldl (offer nextFrame r.capacity)
        ([], r.mInbox.data)).1) := by
  induction ps generalizing r with
  | nil => simp [reports, commands]
  | cons p ps ih =>
      have hlater := ih (r := r.inputDataImpl p) fun q hq => hne q (List.mem_cons_of_mem p hq)
      have hlen := withoutNull_length p
      rw [List.foldl_cons, List.map_cons, List.foldl_cons, hlater]
      by_cases hfit : r.mInbox.data.length + p.length < r.capacity
      · obtain ⟨hevents, hdata, hsame⟩ := inputDataImpl_fits hfit
        rw [offer_fit (by rwa [hlen]), List.nil_append, offer_fold_frames (frames _ _).1, hevents,
          hdata, hsame.capacity, hsame.reports]
        simp only [reports, List.map_append, commands_append, List.append_assoc]
      · obtain ⟨hevents, hdata, hsame⟩ := inputDataImpl_lost (hne p List.mem_cons_self) hfit
        rw [offer_lost (by rwa [hlen]), hevents, hdata, hsame.capacity, hsame.reports,
          commands_append]
        simp [commands]

/-- The first end of a frame comes no later than any other one. -/
theorem nextFrame_late : Late nextFrame := by
  intro v f k u h
  obtain ⟨i, hi, heq⟩ := Option.map_eq_some_iff.mp h
  cases heq
  have hocc : tail <+: (u ++ v).drop (u.length + i) := by
    rw [← List.drop_drop, List.drop_left]
    exact strstr_found hi
  obtain ⟨j, hj⟩ := Option.isSome_iff_exists.mp (strstr_isSome hocc)
  have hle : j ≤ u.length + i := by
    by_contra hlt
    exact strstr_first hj (Nat.not_le.mp hlt) hocc
  refine ⟨_, _, by rw [nextFrame, hj, Option.map_some], ?_⟩
  omega

end
end CoreLooper.Sctp
