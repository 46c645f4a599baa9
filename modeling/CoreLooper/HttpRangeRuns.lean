import CoreLooper.HttpFileHandler

/-!
# Range requests

A request with a `Range` header should be answered with the bytes it asks for, cut at the end of the
file. Whether it is depends on the numbers `sscanf` finds at the first `bytes=` of the request and
on the size of the file: an open range, an end behind the file and a range from 0 are not what the
handler is made for.
-/
namespace CoreLooper.Http
open CStrings

namespace FileHandler
variable {data : Bytes} {x l n free : ℕ} {h : FileHandler}

/-- After the header with the length `n` the file was sent from `x` to where the handler stands. -/
structure Standing (data : Bytes) (x l n : ℕ) (h : FileHandler) : Prop where
  file_eq : h.m_hFile = some data
  position_eq : h.position = h.m_fileOffset
  range_eq : h.fileRange = l
  ge : x ≤ h.m_fileOffset
  le : h.m_fileOffset ≤ max x (min l data.length)
  sent_eq : h.sent = (data.drop x).take (h.m_fileOffset - x)
  busy : h.m_status ≠ .Idle
  header : ∃ (header : HttpAckHeader) (pieces : List Bytes),
    h.m_outbox = .ack header :: pieces.map .data ∧
      header.m_fields (ascii "Content-Length") = some (decimal n)

theorem sendPiece_standing (hs : Standing data x l n h) (hl : h.m_fileOffset < l)
    {maxRead : ℕ} (hmax : maxRead ≤ l - h.m_fileOffset) :
    Standing data x l n (h.sendPiece maxRead) ∧
      (h.sendPiece maxRead).m_fileOffset =
        h.m_fileOffset + min maxRead (data.length - h.m_fileOffset) := by
  have hdata : ((h.m_hFile.getD []).drop h.position).take maxRead =
      (data.drop h.m_fileOffset).take maxRead := by
    rw [hs.file_eq, hs.position_eq, Option.getD_some]
  have hlength : ((data.drop h.m_fileOffset).take maxRead).length =
      min maxRead (data.length - h.m_fileOffset) := by
    rw [List.length_take, List.length_drop]
  unfold sendPiece
  dsimp only
  rw [hdata]
  split_ifs with hnil
  · rw [hnil, List.length_nil] at hlength
    exact ⟨hs, by omega⟩
  · obtain ⟨header, pieces, hout, hcontent⟩ := hs.header
    have hge := hs.ge
    have hle := hs.le
    refine ⟨⟨hs.file_eq, ?_, hs.range_eq, ?_, ?_, ?_, hs.busy, header,
      pieces ++ [(data.drop h.m_fileOffset).take maxRead], ?_, hcontent⟩, ?_⟩
    · exact congrArg (· + _) hs.position_eq
    · show x ≤ h.m_fileOffset + _
      omega
    · show h.m_fileOffset + _ ≤ _
      omega
    · have hsplit : h.m_fileOffset + min maxRead (data.length - h.m_fileOffset) - x =
          (h.m_fileOffset - x) + min maxRead (data.length - h.m_fileOffset) := by omega
      have hfrom : x + (h.m_fileOffset - x) = h.m_fileOffset := by omega
      show (h.m_outbox ++ [_]).flatMap Output.bytes = (data.drop x).take
        (h.m_fileOffset + ((data.drop h.m_fileOffset).take maxRead).length - x)
      rw [List.flatMap_append, List.flatMap_singleton, hlength, hsplit, List.take_add,
        List.drop_drop, hfrom, ← hs.sent_eq]
      rw [← List.length_drop, ← List.take_eq_take_min]
      rfl
    · show h.m_outbox ++ [_] = _
      rw [hout, List.map_append, List.map_singleton, List.cons_append]
    · show h.m_fileOffset + _ = _
      rw [hlength]

theorem process_standing (hs : Standing data x l n h) (hbusy : h.m_status = .Processing)
    (free : ℕ) :
    Standing data x l n (h.process free) ∧
      ((h.process free).m_status = .Done ↔ l ≤ (h.process free).m_fileOffset) ∧
      h.m_fileOffset ≤ (h.process free).m_fileOffset ∧
      (4096 ≤ free → h.m_fileOffset < min l data.length →
        h.m_fileOffset < (h.process free).m_fileOffset) := by
  have hpiece : ∃ h', (if h.m_fileOffset < h.fileRange ∧
        min 4096 (h.fileRange - h.m_fileOffset) ≤ free then
      h.sendPiece (min 4096 (h.fileRange - h.m_fileOffset)) else h) = h' ∧
      Standing data x l n h' ∧ h'.m_status = .Processing ∧ h.m_fileOffset ≤ h'.m_fileOffset ∧
      (4096 ≤ free → h.m_fileOffset < min l data.length → h.m_fileOffset < h'.m_fileOffset) := by
    rw [hs.range_eq]
    split_ifs with hsend
    · obtain ⟨hstand, hoffset⟩ := sendPiece_standing hs hsend.1 (Nat.min_le_right 4096 _)
      refine ⟨_, rfl, hstand, ?_, by omega, fun _ hmin => by omega⟩
      unfold sendPiece
      dsimp only
      split_ifs
      · exact hbusy
      · exact hbusy
    · refine ⟨h, rfl, hs, hbusy, Nat.le_refl _, fun hfree hmin => absurd ⟨?_, ?_⟩ hsend⟩
      · omega
      · omega
  obtain ⟨h', heq, hstand, hbusy', hge, hmore⟩ := hpiece
  unfold process
  dsimp only
  rw [heq, hs.range_eq]
  split_ifs with hdone
  · refine ⟨⟨hstand.file_eq, hstand.position_eq, hstand.range_eq, hstand.ge, hstand.le,
      hstand.sent_eq, HandlerStatus.noConfusion, hstand.header⟩, ?_, hge, hmore⟩
    exact iff_of_true rfl hdone
  · refine ⟨hstand, iff_of_false ?_ hdone, hge, hmore⟩
    rw [hbusy']
    exact HandlerStatus.noConfusion

/-- All that is said of a handler between two calls. -/
structure Serving (data : Bytes) (x l n : ℕ) (h : FileHandler) : Prop extends
    Standing data x l n h where
  done_iff : h.m_status = .Done ↔ l ≤ h.m_fileOffset

theorem Serving.round (hs : Serving data x l n h) (free : ℕ) :
    Serving data x l n (h.round free) ∧ h.m_fileOffset ≤ (h.round free).m_fileOffset ∧
      (4096 ≤ free → h.m_fileOffset < min l data.length →
        h.m_fileOffset < (h.round free).m_fileOffset) := by
  unfold FileHandler.round
  split_ifs with hbusy
  · obtain ⟨hstand, hdone, hge, hmore⟩ := process_standing hs.toStanding hbusy free
    exact ⟨⟨hstand, hdone⟩, hge, hmore⟩
  · refine ⟨hs, Nat.le_refl _, fun _ hmin => ?_⟩
    have hdone : h.m_status = .Done := by
      cases hstatus : h.m_status with
      | Idle => exact absurd hstatus hs.busy
      | Processing => exact absurd hstatus hbusy
      | Done => rfl
    have := hs.done_iff.mp hdone
    omega

/-- Every call with enough room sends at least one byte more, as long as there are any. -/
theorem Serving.rounds (hs : Serving data x l n h) (frees : List ℕ) :
    Serving data x l n (frees.foldl FileHandler.round h) ∧
      min (min l data.length) (h.m_fileOffset + frees.countP (4096 ≤ ·)) ≤
        (frees.foldl FileHandler.round h).m_fileOffset := by
  induction frees generalizing h with
  | nil => exact ⟨hs, by simp⟩
  | cons free frees ih =>
      obtain ⟨hround, hge, hmore⟩ := hs.round free
      obtain ⟨hlast, hcount⟩ := ih hround
      refine ⟨hlast, le_trans ?_ hcount⟩
      rw [List.countP_cons]
      split_ifs with hfree
      · have := hmore (of_decide_eq_true hfree)
        omega
      · omega

/-- The offset at which the handler is done, and the length it announces. -/
def limit (info : RangeInfo) (size : ℕ) : ℕ :=
  if 0 < info.m_rangeEnd then info.m_rangeEnd + 1 else size

def announced (info : RangeInfo) (size : ℕ) : ℕ :=
  if info.m_range = 0 then size else info.m_rangeEnd - info.m_range + 1

variable {info : RangeInfo} {file : WebFile}

theorem wholeFile_standing (info : RangeInfo) (file : WebFile) :
    Standing file.data 0 (limit info file.data.length) file.data.length
      ((opened info file).wholeFile file) := by
  refine ⟨rfl, rfl, rfl, Nat.zero_le _, Nat.zero_le _, rfl, HandlerStatus.noConfusion, _,
    [], rfl, ?_⟩
  rw [HttpAckHeader.setField_other _ (by decide),
    HttpAckHeader.setField_other _ (by decide), HttpAckHeader.setContentLength_same]
  rfl

theorem partialContent_standing (info : RangeInfo) (file : WebFile) :
    Standing file.data info.m_range (limit info file.data.length)
      (info.m_rangeEnd - info.m_range + 1) ((opened info file).partialContent file) := by
  refine ⟨rfl, rfl, rfl, Nat.le_refl _, Nat.le_max_left _ _, ?_, HandlerStatus.noConfusion, _, [],
    rfl, ?_⟩
  · show [] = (file.data.drop info.m_range).take (info.m_range - info.m_range)
    rw [Nat.sub_self, List.take_zero]
  · rw [HttpAckHeader.setField_other _ (by decide),
      HttpAckHeader.setField_other _ (by decide), HttpAckHeader.setContentLength_same]
    rfl

theorem start_serving (hcache : file.canUseCache = false) (hend : info.m_range ≤ info.m_rangeEnd)
    (free : ℕ) : Serving file.data info.m_range (limit info file.data.length)
      (announced info file.data.length) (start info file free) := by
  unfold start
  dsimp only
  rw [hcache, if_neg Bool.false_ne_true]
  by_cases hrange : info.m_range = 0
  · have hwhole : (opened info file).isPartialContent = false := by
      simp [isPartialContent, opened, hrange]
    obtain ⟨hstand, hdone, -⟩ := process_standing (wholeFile_standing info file) rfl free
    rw [hwhole, if_neg Bool.false_ne_true, announced, if_pos hrange, hrange]
    exact ⟨hstand, hdone⟩
  · have hpart : (opened info file).isPartialContent = true := by
      simp [isPartialContent, opened, hrange]
    have hchosen : (opened info file).chooseEnd = opened info file := by
      unfold chooseEnd
      have hne : info.m_rangeEnd ≠ 0 := by omega
      exact if_neg hne
    obtain ⟨hstand, hdone, -⟩ := process_standing (partialContent_standing info file) rfl free
    rw [if_pos hpart, hchosen, announced, if_neg hrange]
    have hle : (opened info file).m_headerInfo.m_range ≤
        (opened info file).m_headerInfo.m_rangeEnd := hend
    rw [if_pos hle]
    exact ⟨hstand, hdone⟩

/-- The handler after any calls, and how far it has come. -/
theorem serve_serving (hcache : file.canUseCache = false) (hend : info.m_range ≤ info.m_rangeEnd)
    (free : ℕ) (frees : List ℕ) :
    Serving file.data info.m_range (limit info file.data.length) (announced info file.data.length)
      (serve info file free frees) ∧
      min (min (limit info file.data.length) file.data.length)
        (info.m_range + frees.countP (4096 ≤ ·)) ≤ (serve info file free frees).m_fileOffset := by
  have hstart := start_serving hcache hend free
  obtain ⟨hserving, hcount⟩ := hstart.rounds frees
  have hge := hstart.ge
  refine ⟨hserving, le_trans ?_ hcount⟩
  omega

/-- The length in the header. -/
def Announces (info : RangeInfo) (file : WebFile) (n : ℕ) : Prop := ∀ free frees,
  ∃ (header : HttpAckHeader) (pieces : List Bytes),
    (serve info file free frees).m_outbox = .ack header :: pieces.map .data ∧
      header.m_fields (ascii "Content-Length") = some (decimal n)

/-- The bytes are sent in their order, and the handler is done when all of them are and the outbox
had room often enough. -/
structure Delivers (info : RangeInfo) (file : WebFile) (wanted : Bytes) : Prop where
  starts : ∀ free frees, (serve info file free frees).sent <+: wanted
  all : ∀ free frees, (serve info file free frees).m_status = .Done →
    (serve info file free frees).sent = wanted
  finishes : ∃ n, ∀ free frees, n ≤ frees.countP (4096 ≤ ·) →
    (serve info file free frees).m_status = .Done

theorem announces_iff (hcache : file.canUseCache = false) (hend : info.m_range ≤ info.m_rangeEnd)
    (n : ℕ) : Announces info file n ↔ announced info file.data.length = n := by
  constructor
  · intro h
    obtain ⟨header, pieces, hout, hcontent⟩ := h 0 []
    obtain ⟨header', pieces', hout', hcontent'⟩ := (serve_serving hcache hend 0 []).1.header
    rw [hout, List.cons.injEq, Output.ack.injEq] at hout'
    rw [← hout'.1, hcontent, Option.some.injEq] at hcontent'
    exact (decimal_inj hcontent').symm
  · rintro rfl free frees
    exact (serve_serving hcache hend free frees).1.header

/-- The handler is done if and only if the file is long enough. -/
theorem deliversFile_iff (hcache : file.canUseCache = false) (hend : info.m_range ≤ info.m_rangeEnd)
    (wanted : Bytes) : Delivers info file wanted ↔
      limit info file.data.length ≤ file.data.length ∧
        wanted = (file.data.drop info.m_range).take
          (limit info file.data.length - info.m_range) := by
  have hstart : info.m_range < limit info file.data.length ∨ info.m_range = 0 := by
    unfold limit
    split_ifs <;> omega
  generalize hlimit : limit info file.data.length = l at hstart ⊢
  have hserve := serve_serving hcache hend
  rw [hlimit] at hserve
  constructor
  · rintro ⟨-, hall, n, hfinish⟩
    have hdone : (serve info file 0 (List.replicate n 4096)).m_status = .Done := by
      apply hfinish
      rw [List.countP_replicate]
      simp
    obtain ⟨hserving, -⟩ := hserve 0 (List.replicate n 4096)
    have hge := hserving.done_iff.mp hdone
    have hle := hserving.le
    refine ⟨by omega, ?_⟩
    have hoffset : (serve info file 0 (List.replicate n 4096)).m_fileOffset = l := by omega
    rw [← hall _ _ hdone, hserving.sent_eq, hoffset]
  · rintro ⟨hlong, rfl⟩
    refine ⟨fun free frees => ?_, fun free frees hdone => ?_, l, fun free frees hcount => ?_⟩
    · obtain ⟨hserving, -⟩ := hserve free frees
      have hle := hserving.le
      rw [hserving.sent_eq]
      exact List.take_prefix_take_left (by omega)
    · obtain ⟨hserving, -⟩ := hserve free frees
      have hge := hserving.done_iff.mp hdone
      have hle := hserving.le
      have hoffset : (serve info file free frees).m_fileOffset = l := by omega
      rw [hserving.sent_eq, hoffset]
    · obtain ⟨hserving, hprogress⟩ := hserve free frees
      apply hserving.done_iff.mpr
      omega

end FileHandler

/-- A request with a range from the first number on, up to the second if there is one. -/
structure RangeRequest where
  before : Bytes
  blank : Bytes
  first : Bytes
  last : Bytes
  rest : Bytes
  before_ne : 0 ∉ before
  blank_eq : ∀ c ∈ blank, c = 32 ∨ c = 9
  first_ne : first ≠ []
  first_digits : ∀ c ∈ first, isdigit c = true
  last_digits : ∀ c ∈ last, isdigit c = true
  ordered : last ≠ [] → digitsValue first ≤ digitsValue last

namespace RangeRequest
variable (r : RangeRequest)

def text : Bytes := r.before ++ ascii "\r\nRange:" ++ r.blank ++ ascii "bytes=" ++
  (r.first ++ 45 :: r.last ++ ascii "\r\n" ++ r.rest)

/-- The first and the last byte that is asked for, in a file of `s` bytes. -/
def start : ℕ := digitsValue r.first

def stop (s : ℕ) : ℕ := if r.last = [] then s - 1 else min (digitsValue r.last) (s - 1)

/-- What `ParseHeader` reads from the request. -/
def info : RangeInfo := parseRange (cstr r.text) ⟨0, 0⟩

/-- Every file of `s` bytes is sent as it should be, unless the client has a good copy. -/
def Honoured (s : ℕ) : Prop := ∀ file : WebFile, file.data.length = s → file.canUseCache = false →
  if r.start < s then
    FileHandler.Announces r.info file (r.stop s - r.start + 1) ∧
      FileHandler.Delivers r.info file ((file.data.drop r.start).take (r.stop s - r.start + 1))
  else FileHandler.Delivers r.info file []

/-- The two numbers at the first `bytes=` of the request, 0 where there is none. -/
def numbers : ℕ × ℕ :=
  scanRange ((cstr r.text).drop ((strstr (cstr r.text) (ascii "bytes=")).getD 0 + 6))

/-- When all goes well: a range that does not start at 0 has an end in the file, one that starts
at 0 is the whole file. -/
def Fits (s : ℕ) : Prop :=
  if r.start < s then
    (r.numbers.1 = r.start ∧ r.start ≠ 0 ∧ max r.numbers.1 r.numbers.2 = r.stop s) ∨
      (r.numbers.1 = 0 ∧ r.start = 0 ∧ r.stop s = s - 1 ∧ (r.numbers.2 = 0 ∨ r.numbers.2 = s - 1))
  else s = 0 ∧ r.numbers = (0, 0)

theorem text_clean : 0 ∉ r.before ++ ascii "\r\nRange:" ++ r.blank ++ ascii "bytes=" := by
  have hrange : (0 : UInt8) ∉ ascii "\r\nRange:" := by decide
  have hbytes : (0 : UInt8) ∉ ascii "bytes=" := by decide
  have hblank : 0 ∉ r.blank := by
    intro hmem
    rcases r.blank_eq 0 hmem with habs | habs <;> exact absurd habs (by decide)
  simp only [List.mem_append, not_or]
  exact ⟨⟨⟨r.before_ne, hrange⟩, hblank⟩, hbytes⟩

theorem cstr_text : ∃ tail, cstr r.text =
    r.before ++ (ascii "\r\nRange:" ++ (r.blank ++ (ascii "bytes=" ++ tail))) := by
  refine ⟨cstr (r.first ++ 45 :: r.last ++ ascii "\r\n" ++ r.rest), ?_⟩
  rw [text, cstr_append r.text_clean]
  simp only [List.append_assoc]

/-- `ParseHeader` raises the end to the start of the range. -/
theorem info_eq : r.info = ⟨r.numbers.1, max r.numbers.1 r.numbers.2⟩ := by
  obtain ⟨tail, htext⟩ := r.cstr_text
  have hrange : (strstr (cstr r.text) (ascii "\r\nRange:")).isSome := by
    apply strstr_isSome
    rw [htext, List.drop_left]
    exact List.prefix_append _ _
  have hbytes : (strstr (cstr r.text) (ascii "bytes=")).isSome := by
    apply strstr_isSome
    rw [htext, ← List.append_assoc, ← List.append_assoc, List.drop_left]
    exact List.prefix_append _ _
  obtain ⟨p, hp⟩ := Option.isSome_iff_exists.mp hbytes
  have hlength : (ascii "bytes=").length = 6 := by decide
  rw [info, parseRange, if_pos hrange, numbers, hp]
  simp only [hlength, Option.getD_some, RangeInfo.mk.injEq, true_and]
  split_ifs <;> omega

/-- A file that is zero but for one byte shows which part of it was sent. -/
def marked (s k : ℕ) : WebFile := ⟨(List.replicate s 0).set k 1, [], [], [], false⟩

theorem marked_length (s k : ℕ) : (marked s k).data.length = s := by simp [marked]

theorem marked_start {s k x m n : ℕ} (hk : k < s) (hm : 0 < m) (hn : 0 < n)
    (h : ((marked s k).data.drop k).take m = ((marked s k).data.drop x).take n) : x = k := by
  have hhead := congrArg (·[0]?) h
  simp only [List.getElem?_take_of_lt hm, List.getElem?_take_of_lt hn, List.getElem?_drop,
    Nat.add_zero, marked] at hhead
  rw [List.getElem?_set_self (by rw [List.length_replicate]; exact hk)] at hhead
  by_contra hne
  rw [List.getElem?_set_ne (Ne.symm hne)] at hhead
  have hzero : (1 : UInt8) ∈ List.replicate s (0 : UInt8) := List.mem_of_getElem? hhead.symm
  rw [List.mem_replicate] at hzero
  exact absurd hzero.2 (by decide)

theorem info_ordered : r.info.m_range ≤ r.info.m_rangeEnd := by
  rw [info_eq]
  exact Nat.le_max_left _ _

theorem announced_eq (s : ℕ) : FileHandler.announced r.info s =
    if r.numbers.1 = 0 then s else max r.numbers.1 r.numbers.2 - r.numbers.1 + 1 := by
  rw [info_eq]
  rfl

theorem limit_eq (s : ℕ) : FileHandler.limit r.info s =
    if 0 < max r.numbers.1 r.numbers.2 then max r.numbers.1 r.numbers.2 + 1 else s := by
  rw [info_eq]
  rfl

theorem stop_bounds {s : ℕ} (hs : r.start < s) : r.start ≤ r.stop s ∧ r.stop s ≤ s - 1 := by
  unfold stop
  split_ifs with hopen
  · omega
  · have := r.ordered hopen
    unfold start at *
    omega

/-- A range that starts inside of the file. -/
theorem honoured_inside {s : ℕ} (hs : r.start < s) : r.Honoured s ↔
    FileHandler.announced r.info s = r.stop s - r.start + 1 ∧ FileHandler.limit r.info s ≤ s ∧
      ∀ file : WebFile, file.data.length = s → file.canUseCache = false →
        (file.data.drop r.start).take (r.stop s - r.start + 1) =
          (file.data.drop r.info.m_range).take (FileHandler.limit r.info s - r.info.m_range) := by
  constructor
  · intro h
    have hfile : ∀ file : WebFile, file.data.length = s → file.canUseCache = false →
        FileHandler.announced r.info s = r.stop s - r.start + 1 ∧ FileHandler.limit r.info s ≤ s ∧
          (file.data.drop r.start).take (r.stop s - r.start + 1) =
            (file.data.drop r.info.m_range).take (FileHandler.limit r.info s - r.info.m_range) := by
      intro file hlength hcache
      have := h file hlength hcache
      rw [if_pos hs, FileHandler.announces_iff hcache r.info_ordered,
        FileHandler.deliversFile_iff hcache r.info_ordered, hlength] at this
      exact ⟨this.1, this.2.1, this.2.2⟩
    obtain ⟨hannounced, hlimit, -⟩ := hfile (marked s 0) (marked_length s 0) rfl
    exact ⟨hannounced, hlimit, fun file hlength hcache => (hfile file hlength hcache).2.2⟩
  · rintro ⟨hannounced, hlimit, hall⟩ file hlength hcache
    rw [if_pos hs, FileHandler.announces_iff hcache r.info_ordered,
      FileHandler.deliversFile_iff hcache r.info_ordered, hlength]
    exact ⟨hannounced, hlimit, hall file hlength hcache⟩

theorem honoured_inside_iff {s : ℕ} (hs : r.start < s) : r.Honoured s ↔
    (r.numbers.1 = r.start ∧ r.start ≠ 0 ∧ max r.numbers.1 r.numbers.2 = r.stop s) ∨
      (r.numbers.1 = 0 ∧ r.start = 0 ∧ r.stop s = s - 1 ∧
        (r.numbers.2 = 0 ∨ r.numbers.2 = s - 1)) := by
  obtain ⟨hstop, hlast⟩ := r.stop_bounds hs
  have hinfo : r.info.m_range = r.numbers.1 := by rw [info_eq]
  rw [r.honoured_inside hs, announced_eq, limit_eq, hinfo]
  by_cases hzero : r.numbers.1 = 0
  · -- the whole file is announced
    rw [if_pos hzero, hzero, Nat.zero_max]
    constructor
    · rintro ⟨hannounced, hlimit, hall⟩
      refine Or.inr ⟨rfl, by omega, by omega, ?_⟩
      have hsent := congrArg List.length (hall (marked s 0) (marked_length s 0) rfl)
      rw [List.length_take, List.length_drop, List.length_take, List.length_drop,
        marked_length] at hsent
      split_ifs at hsent hlimit <;> omega
    · rintro (⟨hstart, hne, -⟩ | ⟨-, hstart, hwhole, hend⟩)
      · exact absurd hstart.symm hne
      · refine ⟨by omega, by split_ifs <;> omega, fun file hlength _ => ?_⟩
        rw [hstart]
        congr 1
        split_ifs <;> omega
  · have hpos : 0 < max r.numbers.1 r.numbers.2 := by omega
    rw [if_neg hzero, if_pos hpos]
    constructor
    · rintro ⟨hannounced, hlimit, hall⟩
      have hstart : r.numbers.1 = r.start := by
        apply marked_start hs _ _ (hall (marked s r.start) (marked_length s _) rfl)
        · omega
        · omega
      exact Or.inl ⟨hstart, by omega, by omega⟩
    · rintro (⟨hstart, -, hend⟩ | ⟨habs, -⟩)
      · refine ⟨by omega, by omega, fun file hlength _ => ?_⟩
        rw [hstart]
        congr 1
        omega
      · exact absurd habs hzero

/-- Behind the end of the file only an empty file is answered well. -/
theorem honoured_outside_iff {s : ℕ} (hs : s ≤ r.start) :
    r.Honoured s ↔ s = 0 ∧ r.numbers = (0, 0) := by
  have hinfo : r.info.m_range = r.numbers.1 := by rw [info_eq]
  have hlimit := r.limit_eq s
  have hno : ¬ r.start < s := by omega
  constructor
  · intro h
    have hfile := h (marked s 0) (marked_length s 0) rfl
    rw [if_neg hno, FileHandler.deliversFile_iff rfl r.info_ordered, marked_length, hlimit,
      hinfo] at hfile
    obtain ⟨hle, hnone⟩ := hfile
    have hlength := congrArg List.length hnone
    rw [List.length_nil, List.length_take, List.length_drop, marked_length] at hlength
    have hzero : r.numbers.1 = 0 ∧ r.numbers.2 = 0 ∧ s = 0 := by
      split_ifs at hlength hle <;> omega
    exact ⟨hzero.2.2, Prod.ext hzero.1 hzero.2.1⟩
  · rintro ⟨rfl, hnumbers⟩ file hlength hcache
    rw [if_neg hno, FileHandler.deliversFile_iff hcache r.info_ordered, hlength, hlimit, hinfo,
      hnumbers]
    exact ⟨Nat.le_refl 0, rfl⟩

/-- A request is honoured if it reads as it is meant and stays clear of both ends. -/
theorem honoured_iff (s : ℕ) : r.Honoured s ↔ r.Fits s := by
  unfold Fits
  split_ifs with hs
  · exact r.honoured_inside_iff hs
  · exact r.honoured_outside_iff (Nat.le_of_not_lt hs)

/-- Only the header of the range has the word, the numbers fit, and an open range is not followed by
a line that begins like a number. -/
structure Plain : Prop where
  alone : ¬ ascii "bytes=" <:+: r.before ++ ascii "\r\nRange:" ++ r.blank
  first_lt : digitsValue r.first < 2 ^ 32
  last_lt : digitsValue r.last < 2 ^ 32
  ends : r.last = [] → scanUnsigned (cstr (ascii "\r\n" ++ r.rest)) = none

theorem scanUnsigned_digits {d : Bytes} {x : Bytes} (hne : d ≠ []) (hd : ∀ c ∈ d, isdigit c = true)
    (hx : ∀ c, x.head? = some c → isdigit c = false) (hlt : digitsValue d < 2 ^ 32) :
    scanUnsigned (d ++ x) = some (digitsValue d, x) := by
  obtain ⟨c, d', rfl⟩ := List.exists_cons_of_ne_nil hne
  have hc := hd c List.mem_cons_self
  have hspace := isspace_of_isdigit hc
  have h45 : c ≠ 45 := by rintro rfl; revert hc; decide
  have h43 : c ≠ 43 := by rintro rfl; revert hc; decide
  have htake : (c :: d' ++ x).takeWhile isdigit = c :: d' := by
    rw [List.takeWhile_append_of_pos hd]
    cases x with
    | nil => simp
    | cons b x => simp [hx b rfl]
  have hdrop : (c :: d' ++ x).dropWhile isdigit = x := by
    rw [List.dropWhile_append_of_pos hd]
    cases x with
    | nil => rfl
    | cons b x => simp [hx b rfl]
  have hvalue : digitsValue (c :: d' ++ x) = digitsValue (c :: d') := by
    unfold digitsValue
    rw [htake, List.takeWhile_eq_self_iff.mpr hd]
  have hstart : (c :: d' ++ x).dropWhile isspace = c :: d' ++ x := by simp [hspace]
  have hsign : ¬ ((c :: d' ++ x).head? = some 45 ∨ (c :: d' ++ x).head? = some 43) := by
    simp [h45, h43]
  have hminus : decide ((c :: d' ++ x).head? = some 45) = false := by simp [h45]
  have hdigits : (c :: d' ++ x).takeWhile isdigit ≠ [] := by
    rw [htake]
    exact hne
  simp only [scanUnsigned, hstart, if_neg hsign, if_neg hdigits, hminus, hvalue, hdrop, strtoul,
    Bool.false_eq_true, if_false]
  rw [if_neg (by omega), Nat.mod_eq_of_lt hlt]

theorem numbers_plain (h : r.Plain) :
    r.numbers = (r.start, if r.last = [] then 0 else digitsValue r.last) := by
  have hword : ascii "bytes=" = 98 :: ascii "ytes=" := by decide
  have hother : (98 : UInt8) ∉ ascii "ytes=" := by decide
  have hlength : (ascii "bytes=").length = 6 := by decide
  have hcrlf : ascii "\r\n" = [13, 10] := by decide
  have hdigit : ∀ c, isdigit c = true → c ≠ 0 := by
    rintro c hc rfl
    revert hc
    decide
  have hclean : 0 ∉ r.first ++ 45 :: r.last := by
    rw [List.mem_append, List.mem_cons, not_or, not_or]
    exact ⟨fun hmem => hdigit 0 (r.first_digits 0 hmem) rfl, by decide,
      fun hmem => hdigit 0 (r.last_digits 0 hmem) rfl⟩
  have htail : cstr (r.first ++ 45 :: r.last ++ ascii "\r\n" ++ r.rest) =
      r.first ++ 45 :: (r.last ++ cstr (ascii "\r\n" ++ r.rest)) := by
    rw [List.append_assoc (r.first ++ 45 :: r.last), cstr_append hclean]
    simp
  have halone := h.alone
  have hfind := strstr_after (hword ▸ halone) hother
    (r.first ++ 45 :: (r.last ++ cstr (ascii "\r\n" ++ r.rest)))
  have htext : cstr r.text = r.before ++ ascii "\r\nRange:" ++ r.blank ++ (ascii "bytes=" ++
      (r.first ++ 45 :: (r.last ++ cstr (ascii "\r\n" ++ r.rest)))) := by
    rw [text, cstr_append r.text_clean, htail, List.append_assoc]
  rw [← hword, ← htext] at hfind
  have hstop : ∀ c, (cstr (ascii "\r\n" ++ r.rest)).head? = some c → isdigit c = false := by
    intro c hc
    rw [hcrlf] at hc
    obtain rfl : (13 : UInt8) = c := Option.some.inj hc
    decide
  have hdash : ∀ c, (45 :: (r.last ++ cstr (ascii "\r\n" ++ r.rest))).head? = some c →
      isdigit c = false := by
    intro c hc
    obtain rfl : (45 : UInt8) = c := Option.some.inj hc
    decide
  rw [numbers, hfind, Option.getD_some, htext, ← hlength, ← List.append_assoc,
    ← List.length_append, List.drop_left,
    scanRange_dash (scanUnsigned_digits r.first_ne r.first_digits hdash h.first_lt)]
  split_ifs with hopen
  · rw [hopen, List.nil_append, h.ends hopen]
    rfl
  · rw [scanUnsigned_digits hopen r.last_digits hstop h.last_lt]
    rfl

/-- A range from 0 is honoured if it is the whole file, another if it ends in the file; an open one
from another byte than 0 is read as that byte alone. -/
theorem honoured_plain_iff (h : r.Plain) {s : ℕ} (hs : r.start < s) : r.Honoured s ↔
    if r.last = [] then r.start = 0 ∨ r.start = s - 1
    else if r.start = 0 then digitsValue r.last = s - 1 ∨ s = 1 ∧ digitsValue r.last = 0
    else digitsValue r.last < s := by
  have hnumbers := r.numbers_plain h
  rw [r.honoured_inside_iff hs, hnumbers, stop]
  split_ifs with hopen hzero
  · dsimp only
    omega
  · have := r.ordered hopen
    unfold start at *
    dsimp only
    omega
  · have := r.ordered hopen
    unfold start at *
    dsimp only
    omega

theorem resume_before : 0 ∉ ascii "GET /a HTTP/1.1" := by decide
theorem resume_digits : ∀ c ∈ ascii "2", isdigit c = true := by decide +kernel
theorem resume_ne : ascii "2" ≠ [] := by decide

/-- `GET /a HTTP/1.1` with `Range: bytes=2-`. -/
def resume : RangeRequest where
  before := ascii "GET /a HTTP/1.1"
  blank := [32]
  first := ascii "2"
  last := []
  rest := ascii "\r\n"
  before_ne := resume_before
  blank_eq := fun _ hc => Or.inl (List.mem_singleton.mp hc)
  first_ne := resume_ne
  first_digits := resume_digits
  last_digits := fun _ hc => absurd hc List.not_mem_nil
  ordered := fun habs => absurd rfl habs

/-- One byte of the eight is announced. -/
theorem resume_stops : ¬ ∀ (r : RangeRequest) (s : ℕ), r.Honoured s := by
  intro h
  have hstart : resume.start = 2 := by decide
  have hfile := h resume 10 (marked 10 0) (marked_length 10 0) rfl
  rw [hstart, if_pos (by decide), FileHandler.announces_iff rfl resume.info_ordered] at hfile
  have hlength : FileHandler.announced resume.info (marked 10 0).data.length = 1 := by
    decide
  have hasked : resume.stop 10 - 2 + 1 = 8 := by decide
  have := hfile.1
  rw [hlength, hasked] at this
  exact absurd this (by decide)

end RangeRequest
end CoreLooper.Http
