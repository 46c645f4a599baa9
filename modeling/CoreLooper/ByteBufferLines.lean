import CoreLooper.ByteBufferQueue
import CoreLooper.TextSeparator

/-!
# Reading a buffer by lines

`ReadLine` of the two copies of the class. Both look for a line feed in the data as a C string,
which they end with a null first. Without a line feed the one takes all that is left for a line;
the other looks again, for ever.
-/
namespace CoreLooper.ByteBuffer

open CStrings MemoryBlocks

/-- `strstr` in memory: there is no result when it gets to the end of the block. -/
def strstrBlock (m needle : Bytes) : Option (Option ℕ) :=
  match strstr (cstr m) needle with
  | some i => some (some i)
  | none => if 0 ∈ m then some none else none

/-- Where the next line feed is found. -/
def findLine (s : ByteBuffer) : Option (Option ℕ) :=
  strstrBlock (s.block.drop s.m_nDataOff.toNat) [10]

/-- The first `len` bytes, and the buffer behind them and their line feed. -/
def takeLine (len : ℕ) (s : ByteBuffer) : Option (ℤ × Bytes × ByteBuffer) := do
  let line ← load s.block s.m_nDataOff len
  let (_, s) ← s.eat (len + 1)
  return (0, line, s)

/-- All that is left. -/
def takeRest (s : ByteBuffer) : Option (ℤ × Bytes × ByteBuffer) := do
  let line ← load s.block s.m_nDataOff s.m_nData
  let (_, s) ← s.eat s.m_nData
  return (0, line, s)

/-- `ReadLine` of `src/core`: each branch of its loop leaves it. -/
def readLine (junk : ℕ → UInt8) (s : ByteBuffer) : Option (ℤ × Bytes × ByteBuffer) :=
  (s.makeSureEndWithNull junk).bind fun r =>
    if r.2.m_nData = 0 then some (-1, [], r.2)
    else r.2.findLine.bind fun pEnd =>
      match pEnd with
      | some len => r.2.takeLine len
      | none => if r.2.m_nData > 0 then r.2.takeRest else some (-1, [], r.2)

/-- The loop of `ReadLine` of `projects/liblooper`: one branch does not leave it. -/
def readLineLoop : ℕ → ByteBuffer → Option (ℤ × Bytes × ByteBuffer)
  | 0, _ => none
  | fuel + 1, s =>
      if s.m_nData = 0 then some (-1, [], s)
      else s.findLine.bind fun pEnd =>
        match pEnd with
        | some len => s.takeLine len
        | none => readLineLoop fuel s

def readLineLib (fuel : ℕ) (junk : ℕ → UInt8) (s : ByteBuffer) :
    Option (ℤ × Bytes × ByteBuffer) :=
  (s.makeSureEndWithNull junk).bind fun r => readLineLoop fuel r.2

/-- The results of a call. -/
abbrev Reader := (ℕ → UInt8) → ByteBuffer → ℤ × Bytes × ByteBuffer → Prop

def coreReader : Reader := fun junk s r => s.readLine junk = some r

/-- A call that ends does so in some number of rounds. -/
def libReader : Reader := fun junk s r => ∃ fuel, s.readLineLib fuel junk = some r

/-- The lines of successful calls, up to one that fails. `junk` tells what new blocks hold. -/
inductive Reads (R : Reader) : (ℕ → ℕ → UInt8) → ByteBuffer → List Bytes → ByteBuffer → Prop
  | fail {junk : ℕ → ℕ → UInt8} {s s' : ByteBuffer} {ret : ℤ} {l : Bytes} :
      R (junk 0) s (ret, l, s') → ret ≠ 0 → Reads R junk s [] s'
  | line {junk : ℕ → ℕ → UInt8} {s s' s'' : ByteBuffer} {l : Bytes} {ls : List Bytes} :
      R (junk 0) s (0, l, s') → Reads R (fun n => junk (n + 1)) s' ls s'' →
      Reads R junk s (l :: ls) s''

/-- A content split at its line feeds; what stands behind the last one is a line unless it is
empty. -/
def splitLF : Bytes → List Bytes
  | [] => []
  | c :: cs =>
      if c = 10 then [] :: splitLF cs
      else
        match splitLF cs with
        | [] => [[c]]
        | l :: ls => (c :: l) :: ls

/-- The calls yield the lines of the content and leave nothing. -/
def ReadsContent (R : Reader) (junk : ℕ → ℕ → UInt8) (s : ByteBuffer) (data : Bytes) : Prop :=
  ∃ s', Reads R junk s (splitLF data) s' ∧ s'.content = some []

theorem splitLF_line {l : Bytes} (hl : 10 ∉ l) (r : Bytes) :
    splitLF (l ++ 10 :: r) = l :: splitLF r := by
  induction l with
  | nil => simp [splitLF]
  | cons c l ih =>
      rw [List.mem_cons, not_or] at hl
      rw [List.cons_append, splitLF, if_neg (Ne.symm hl.1), ih hl.2]

theorem splitLF_last {l : Bytes} (hl : 10 ∉ l) (hne : l ≠ []) : splitLF l = [l] := by
  induction l with
  | nil => exact absurd rfl hne
  | cons c l ih =>
      rw [List.mem_cons, not_or] at hl
      rw [splitLF, if_neg (Ne.symm hl.1)]
      by_cases h : l = []
      · rw [h]
        rfl
      · rw [ih hl.2 h]

/-- A content begins with a line as a C string has it, or has no line feed as a C string. -/
theorem line_cases (data : Bytes) :
    (∃ l r, data = l ++ 10 :: r ∧ 10 ∉ l ∧ 0 ∉ l) ∨ 10 ∉ cstr data := by
  induction data with
  | nil => exact Or.inr (by simp [cstr])
  | cons c data ih =>
      by_cases hc : c = 10
      · exact Or.inl ⟨[], data, by rw [hc]; rfl, List.not_mem_nil, List.not_mem_nil⟩
      · by_cases hzero : c = 0
        · right
          rw [hzero, cstr, List.takeWhile_cons_of_neg (by simp)]
          exact List.not_mem_nil
        · rcases ih with ⟨l, r, rfl, hl, hnull⟩ | h
          · refine Or.inl ⟨c :: l, r, rfl, ?_, ?_⟩
            · rw [List.mem_cons, not_or]
              exact ⟨Ne.symm hc, hl⟩
            · rw [List.mem_cons, not_or]
              exact ⟨Ne.symm hzero, hnull⟩
          · right
            rw [cstr, List.takeWhile_cons_of_pos (by simpa using hzero), List.mem_cons, not_or]
            exact ⟨Ne.symm hc, h⟩

section
variable {data tail l r : Bytes}

theorem strstrBlock_line (hl : 10 ∉ l) (hnull : 0 ∉ l) (x : Bytes) :
    strstrBlock (l ++ 10 :: x) [10] = some (some l.length) := by
  have hcut : cstr (l ++ 10 :: x) = l ++ (10 :: cstr x) := by
    rw [cstr_append hnull, cstr, List.takeWhile_cons_of_pos (by decide)]
    rfl
  have hhere : strstr (10 :: cstr x) [10] = some 0 := strstr_here ⟨cstr x, rfl⟩
  rw [strstrBlock, hcut, strstr_skip hl, hhere]
  rfl

theorem cstr_append_of_mem (h : 0 ∈ data) (x : Bytes) : cstr (data ++ x) = cstr data := by
  induction data with
  | nil => cases h
  | cons c data ih =>
      by_cases hc : c = 0
      · simp [cstr, hc]
      · have hmem := (List.mem_cons.mp h).resolve_left (Ne.symm hc)
        have := ih hmem
        unfold cstr at this ⊢
        rw [List.cons_append, List.takeWhile_cons_of_pos (by simpa using hc),
          List.takeWhile_cons_of_pos (by simpa using hc), this]

/-- With a null in or behind the data, none is found. -/
theorem strstrBlock_none (h : 10 ∉ cstr data) (hnull : 0 ∈ data ∨ tail.head? = some 0) :
    strstrBlock (data ++ tail) [10] = some none := by
  have hcut : cstr (data ++ tail) = cstr data := by
    by_cases hmem : 0 ∈ data
    · exact cstr_append_of_mem hmem tail
    · obtain ⟨x, rfl⟩ : ∃ x, tail = 0 :: x := by
        cases tail with
        | nil => exact absurd (hnull.resolve_left hmem) (by simp)
        | cons c x =>
            have := hnull.resolve_left hmem
            rw [List.head?_cons] at this
            exact ⟨x, by rw [Option.some.inj this]⟩
      rw [cstr_append hmem, cstr_eq_self hmem]
      simp [cstr]
  have hmem : 0 ∈ data ++ tail := by
    rw [List.mem_append]
    exact hnull.imp_right List.mem_of_mem_head?
  rw [strstrBlock, hcut, strstr_absent h]
  exact if_pos hmem

/-- At the end of the block there is no answer. -/
theorem strstrBlock_leaves (h : 10 ∉ data) (hnull : 0 ∉ data) : strstrBlock data [10] = none := by
  rw [strstrBlock, cstr_eq_self hnull, strstr_absent h]
  exact if_neg hnull

end

section
variable {limit : ℕ} {s s' : ByteBuffer} {data front tail l r : Bytes} {junk : ℕ → UInt8}

/-- A null can be put behind the data, as far as sizes go, or is there. -/
def NullOk (limit : ℕ) (s : ByteBuffer) (data : Bytes) : Prop :=
  data.getLast? = some 0 ∨ Rounds limit s 1

theorem eat_cap {n ret : ℤ} (h : s.eat n = some (ret, s')) : s'.m_cbBuf = s.m_cbBuf := by
  unfold eat at h
  split_ifs at h with hmore
  · cases h
    rfl
  · dsimp only at h
    split_ifs at h with hall
    · rw [Option.bind_eq_bind, Option.bind_eq_some_iff] at h
      obtain ⟨pBuf, -, h⟩ := h
      cases h
      rfl
    · cases h
      rfl

theorem load_one {block : Bytes} {off : ℤ} {b : UInt8} (h : load block off 1 = some [b]) :
    (block.drop off.toNat).head? = some b := by
  unfold load at h
  split_ifs at h
  · rw [Option.some.injEq] at h
    cases hdrop : block.drop off.toNat with
    | nil =>
        rw [hdrop] at h
        simp at h
    | cons c x =>
        rw [hdrop] at h
        simp only [Int.toNat_one, List.take_succ_cons, List.take_zero] at h
        rw [List.head?_cons, (List.cons.inj h).1]

theorem null_of_endsWithNull (hdata : data ≠ [])
    (h : (layout limit front data tail).EndsWithNull) : 0 ∈ data ∨ tail.head? = some 0 := by
  rcases h with h | h
  · left
    have hlast := load_one h
    have hpos := List.length_pos_of_ne_nil hdata
    have hoff : ((layout limit front data tail).m_nDataOff +
        (layout limit front data tail).m_nData - 1).toNat = front.length + (data.length - 1) := by
      simp only [layout]
      omega
    rw [hoff, layout_block, ← List.drop_drop, List.drop_left,
      List.drop_append_of_le_length (by omega), List.drop_eq_getElem_cons (by omega),
      List.cons_append, List.head?_cons, Option.some.injEq] at hlast
    rw [← hlast]
    exact List.getElem_mem _
  · right
    have hnext := load_one h
    have hoff : ((layout limit front data tail).m_nDataOff +
        (layout limit front data tail).m_nData).toNat = front.length + data.length := by
      simp only [layout]
      omega
    rwa [hoff, layout_block, ← List.drop_drop, List.drop_left, List.drop_left] at hnext

/-- Data that ends with a null stays as it is. -/
theorem makeSureEndWithNull_null (h : Holds limit s data) (hlast : data.getLast? = some 0) :
    s.makeSureEndWithNull junk = some (0, s) := by
  obtain ⟨init, rfl⟩ := List.getLast?_eq_some_iff.mp hlast
  generalize hfull : init ++ [(0 : UInt8)] = full at h
  cases h with
  | unallocated => simp at hfull
  | allocated front _ tail hfits hfront =>
      subst hfull
      rw [makeSureEndWithNull, if_neg (by simp [layout]), lastByte_append, Option.bind_eq_bind,
        Option.bind_some, if_pos rfl]

variable (junk) in
/-- The data is followed by a null, has one, or fills the buffer up to its limit. -/
theorem makeSureEndWithNull_ready (h : Holds limit s data) (hlimit : limit < 2 ^ 31)
    (hok : NullOk limit s data) : ∃ ret s', s.makeSureEndWithNull junk = some (ret, s') ∧
      Holds limit s' data ∧
      (data ≠ [] → 0 ∈ data ∨ s'.EndsWithNull ∨ data.length = limit) := by
  rcases hok with hlast | hrounds
  · refine ⟨0, s, makeSureEndWithNull_null h hlast, h, fun _ => Or.inl ?_⟩
    exact List.mem_of_mem_getLast? hlast
  · have hint : s.m_nData + 1 < 2 ^ 31 := by
      have hle := h.length_le
      have hlength := h.length
      rcases hrounds with hroom | hround
      · cases h with
        | unallocated => decide
        | allocated front _ tail hfits _ =>
            simp only [layout] at hroom ⊢
            omega
      · omega
    obtain ⟨ret, s', hcall, hholds, hret, hnull⟩ :=
      makeSureEndWithNull_holds junk hlimit h hint hrounds
    refine ⟨ret, s', hcall, hholds, fun hdata => ?_⟩
    rcases hret with hret | ⟨-, hfull⟩
    · exact Or.inr (Or.inl (hnull hret hdata))
    · exact Or.inr (Or.inr (Nat.le_antisymm h.length_le hfull))

/-- A byte more than a full block takes, where the size of the next block would wrap. -/
theorem write_wraps (hlimit : limit < 2 ^ 31)
    (hfits : ([] : Bytes).length + data.length + ([] : Bytes).length ≤ limit)
    (hround : 2 ^ 31 ≤ min ((data.length : ℤ) + 1) limit + 8191) {b : UInt8} :
    (layout limit [] data []).write junk (some [b]) 1 = none := by
  simp only [List.length_nil, Nat.zero_add, Nat.add_zero] at hfits
  have hensure : (layout limit [] data []).ensureBuf junk = some (layout limit [] data []) :=
    if_neg (by simp [layout])
  have hcap : (layout limit [] data []).m_cbBuf = data.length := by simp [layout]
  have hdata : (layout limit [] data []).m_nData = data.length := rfl
  have hmax : (layout limit [] data []).m_cbMaxBuf = limit := rfl
  simp only [write]
  rw [if_neg (by decide), hensure, Option.bind_eq_bind, Option.bind_some]
  by_cases hint : (data.length : ℤ) + 1 < 2 ^ 31
  · have hgrow : (layout limit [] data []).grow junk 1 = none := by
      unfold grow
      rw [hdata, hcap, hmax, i32_eq (by omega) hint, if_pos (by omega)]
      generalize hk : (if (data.length : ℤ) + 1 > limit then i32 (limit - data.length) else 1) = k
      have hk' : data.length + k = min ((data.length : ℤ) + 1) limit := by
        rw [← hk, i32_eq (by omega) (by omega)]
        split_ifs <;> omega
      have hneg := newsize_wraps (s := layout limit [] data []) (k := data.length + k) (by omega)
        (by omega) (by rw [hmax]; omega)
      have hnone : alloc junk ((layout limit [] data []).newsize (data.length + k)) = none :=
        if_neg (by omega)
      dsimp only
      rw [reallocate, hnone]
      rfl
    rw [hgrow]
    rfl
  · have hsum : i32 ((data.length : ℤ) + 1) = -2 ^ 31 := by
      have : (data.length : ℤ) + 1 = 2 ^ 31 := by omega
      rw [this]
      decide
    have hgrow : (layout limit [] data []).grow junk 1 = some (1, layout limit [] data []) := by
      rw [grow, hdata, hcap, hsum, if_neg (by omega)]
    rw [hgrow, Option.bind_eq_bind, Option.bind_some]
    have hleft : (layout limit [] data []).m_cbBuf - ((layout limit [] data []).m_nDataOff +
        (layout limit [] data []).m_nData) < 1 := by simp [layout]
    have hmove : (layout limit [] data []).moveData = some (layout limit [] data []) := by
      rw [moveData_holds]
      simp
    have hload : load [b] 0 1 = some [b] := load_front [] [b] [] rfl rfl
    have hstore : store (layout limit [] data []).block ((layout limit [] data []).m_nDataOff +
        (layout limit [] data []).m_nData) [b] = none := by
      rw [store, if_neg]
      rw [layout_block]
      simp [layout]
    dsimp only
    rw [append, if_pos hleft, hmove, Option.bind_some, place, hload, Option.bind_eq_bind,
      Option.bind_some, hstore]
    rfl

/-- Otherwise the size of a larger block wraps, or the null goes behind the block. -/
theorem makeSureEndWithNull_wraps (h : Holds limit s data) (hlimit : limit < 2 ^ 31)
    (hbad : ¬ NullOk limit s data) : s.makeSureEndWithNull junk = none := by
  unfold NullOk Rounds at hbad
  rw [not_or, not_or] at hbad
  obtain ⟨hlast, hcap, hround⟩ := hbad
  have hmin := min_le_right (s.m_nData + 1) (limit : ℤ)
  cases h with
  | unallocated hdefault =>
      rw [hdefault] at hround hmin
      have : (defaultMaxSize : ℤ) = 16777216 := rfl
      omega
  | allocated front _ tail hfits hfront =>
      simp only [layout] at hcap hround hmin
      obtain rfl : front = [] := List.eq_nil_of_length_eq_zero (by omega)
      obtain rfl : tail = [] := List.eq_nil_of_length_eq_zero (by omega)
      rcases List.eq_nil_or_concat data with rfl | ⟨init, x, hconcat⟩
      · simp only [List.length_nil] at hround
        omega
      · rw [List.concat_eq_append] at hconcat
        subst hconcat
        have hx : x ≠ 0 := by
          rintro rfl
          exact hlast List.getLast?_concat
        rw [makeSureEndWithNull, if_neg (by simp [layout]), lastByte_append, Option.bind_eq_bind,
          Option.bind_some, if_neg (by simpa using hx)]
        have hnone : (layout limit [] (init ++ [x]) []).write junk (some [0]) 1 = none :=
          write_wraps hlimit hfits (by simpa using hround)
        have hbyte : (layout limit [] (init ++ [x]) []).writeByte junk 0 = none := by
          have hensure : (layout limit [] (init ++ [x]) []).ensureBuf junk =
              some (layout limit [] (init ++ [x]) []) := if_neg (by simp [layout])
          rw [writeByte, hensure, Option.bind_eq_bind, Option.bind_some, if_neg]
          · exact hnone
          · simp [layout]
        rw [hbyte]
        rfl

/-- The buffer behind a line has room for a null. -/
theorem takeLine_holds (h : Holds limit s (l ++ 10 :: r)) : ∃ s',
    s.takeLine l.length = some (0, l, s') ∧ Holds limit s' r ∧ Rounds limit s' 1 := by
  obtain ⟨s', heat, hholds⟩ := eat_holds h (m := l.length + 1) (by simp) (by omega)
  have hrest : (l ++ 10 :: r).drop (l.length + 1) = r := by
    rw [← List.drop_drop, List.drop_left]
    rfl
  rw [hrest] at hholds
  refine ⟨s', ?_, hholds, Or.inl ?_⟩
  · have hload : load s.block s.m_nDataOff l.length = some l := by
      generalize hfull : l ++ 10 :: r = full at h
      cases h with
      | unallocated => simp at hfull
      | allocated front _ tail hfits hfront =>
          subst hfull
          rw [layout_block, List.append_assoc]
          exact load_front front l _ rfl rfl
    rw [takeLine, hload, Option.bind_eq_bind, Option.bind_some]
    push_cast at heat
    rw [heat]
    rfl
  · have hcap := eat_cap heat
    have hwithin := h.refines.within
    have hoffset := h.refines.offset
    have hlength := h.length
    rw [hcap, hholds.length]
    simp only [List.length_append, List.length_cons, Nat.cast_add, Nat.cast_one] at hlength
    omega

theorem takeRest_holds (h : Holds limit s data) (hdata : data ≠ []) : ∃ s',
    s.takeRest = some (0, data, s') ∧ Holds limit s' [] ∧ Rounds limit s' 1 := by
  have hpos := List.length_pos_of_ne_nil hdata
  obtain ⟨s', heat, hholds⟩ := eat_holds h (m := data.length) (Nat.le_refl _) (by omega)
  rw [List.drop_length] at hholds
  refine ⟨s', ?_, hholds, Or.inl ?_⟩
  · have hload : load s.block s.m_nDataOff s.m_nData = some data := h.refines.content
    rw [takeRest, hload, Option.bind_eq_bind, Option.bind_some, h.length, heat]
    rfl
  · have hcap := eat_cap heat
    have hwithin := h.refines.within
    have hoffset := h.refines.offset
    have hlength := h.length
    rw [hcap, hholds.length, List.length_nil]
    omega

/-- What a search sees. -/
theorem Holds.memory (h : Holds limit s data) (hdata : data ≠ []) : ∃ tail,
    s.block.drop s.m_nDataOff.toNat = data ++ tail ∧
    (s.EndsWithNull → 0 ∈ data ∨ tail.head? = some 0) ∧ (data.length = limit → tail = []) := by
  cases h with
  | unallocated => exact absurd rfl hdata
  | allocated front _ tail hfits hfront =>
      refine ⟨tail, ?_, null_of_endsWithNull hdata, fun hfull => ?_⟩
      · rw [layout_block]
        show (front ++ (data ++ tail)).drop (front.length : ℤ).toNat = data ++ tail
        rw [Int.toNat_natCast, List.drop_left]
      · exact List.eq_nil_of_length_eq_zero (by omega)

theorem Holds.data_ne (h : Holds limit s data) (hdata : data ≠ []) : s.m_nData ≠ 0 := by
  rw [h.length]
  have := List.length_pos_of_ne_nil hdata
  omega

theorem rounds_nil (h : Holds limit s []) : Rounds limit s 1 := by
  right
  have := min_le_left (s.m_nData + 1) (limit : ℤ)
  rw [h.length, List.length_nil] at this ⊢
  omega

theorem findLine_line (h : Holds limit s (l ++ 10 :: r)) (hl : 10 ∉ l) (hnull : 0 ∉ l) :
    s.findLine = some (some l.length) := by
  obtain ⟨tail, hmemory, -⟩ := h.memory (by simp)
  rw [findLine, hmemory, List.append_assoc]
  exact strstrBlock_line hl hnull (r ++ tail)

theorem findLine_none (h : Holds limit s data) (hdata : data ≠ []) (hlf : 10 ∉ cstr data)
    (hnull : 0 ∈ data ∨ s.EndsWithNull) : s.findLine = some none := by
  obtain ⟨tail, hmemory, hends, -⟩ := h.memory hdata
  rw [findLine, hmemory]
  exact strstrBlock_none hlf (hnull.elim Or.inl hends)

theorem findLine_leaves (h : Holds limit s data) (hdata : data ≠ []) (hlf : 10 ∉ data)
    (hnull : 0 ∉ data) (hfull : data.length = limit) : s.findLine = none := by
  obtain ⟨tail, hmemory, -, htail⟩ := h.memory hdata
  rw [findLine, hmemory, htail hfull, List.append_nil]
  exact strstrBlock_leaves hlf hnull

variable (hlimit : limit < 2 ^ 31)
include hlimit

variable (junk) in
theorem readLine_empty (h : Holds limit s []) :
    ∃ s', s.readLine junk = some (-1, [], s') ∧ Holds limit s' [] := by
  obtain ⟨ret, s', hcall, hholds, -⟩ :=
    makeSureEndWithNull_ready junk h hlimit (Or.inr (rounds_nil h))
  refine ⟨s', ?_, hholds⟩
  rw [readLine, hcall, Option.bind_some, if_pos hholds.nil.2]

variable (junk) in
theorem readLine_line (h : Holds limit s (l ++ 10 :: r)) (hok : NullOk limit s (l ++ 10 :: r))
    (hl : 10 ∉ l) (hnull : 0 ∉ l) : ∃ s', s.readLine junk = some (0, l, s') ∧
      Holds limit s' r ∧ Rounds limit s' 1 := by
  obtain ⟨ret, s₁, hcall, hholds, -⟩ := makeSureEndWithNull_ready junk h hlimit hok
  obtain ⟨s', htake, hrest, hrounds⟩ := takeLine_holds hholds
  refine ⟨s', ?_, hrest, hrounds⟩
  rw [readLine, hcall, Option.bind_some, if_neg (hholds.data_ne (by simp)),
    findLine_line hholds hl hnull, Option.bind_some]
  exact htake

variable (junk) in
theorem readLine_rest (h : Holds limit s data) (hok : NullOk limit s data) (hdata : data ≠ [])
    (hlf : 10 ∉ cstr data) (hroom : 0 ∈ data ∨ data.length ≠ limit) :
    ∃ s', s.readLine junk = some (0, data, s') ∧ Holds limit s' [] := by
  obtain ⟨ret, s₁, hcall, hholds, hready⟩ := makeSureEndWithNull_ready junk h hlimit hok
  have hnull : 0 ∈ data ∨ s₁.EndsWithNull := by
    rcases hready hdata with hmem | hends | hfull
    · exact Or.inl hmem
    · exact Or.inr hends
    · exact Or.inl (hroom.resolve_right fun hne => hne hfull)
  obtain ⟨s', htake, hrest, -⟩ := takeRest_holds hholds hdata
  refine ⟨s', ?_, hrest⟩
  have hpos : s₁.m_nData > 0 := by
    have := List.length_pos_of_ne_nil hdata
    rw [hholds.length]
    omega
  rw [readLine, hcall, Option.bind_some, if_neg (hholds.data_ne hdata),
    findLine_none hholds hdata hlf hnull, Option.bind_some]
  dsimp only
  rw [if_pos hpos]
  exact htake

variable (junk) in
theorem readLine_leaves (h : Holds limit s data) (hdata : data ≠ [])
    (hbad : ¬ NullOk limit s data ∨ 10 ∉ data ∧ 0 ∉ data ∧ data.length = limit) :
    s.readLine junk = none := by
  by_cases hok : NullOk limit s data
  · obtain ⟨hlf, hnull, hfull⟩ := hbad.resolve_left fun hnot => hnot hok
    obtain ⟨ret, s₁, hcall, hholds, -⟩ := makeSureEndWithNull_ready junk h hlimit hok
    rw [readLine, hcall, Option.bind_some, if_neg (hholds.data_ne hdata),
      findLine_leaves hholds hdata hlf hnull hfull, Option.bind_none]
  · rw [readLine, makeSureEndWithNull_wraps h hlimit hok, Option.bind_none]

variable (junk) in
theorem readLineLib_empty (h : Holds limit s []) :
    ∃ s', s.readLineLib 1 junk = some (-1, [], s') ∧ Holds limit s' [] := by
  obtain ⟨ret, s', hcall, hholds, -⟩ :=
    makeSureEndWithNull_ready junk h hlimit (Or.inr (rounds_nil h))
  refine ⟨s', ?_, hholds⟩
  rw [readLineLib, hcall, Option.bind_some, readLineLoop, if_pos hholds.nil.2]

variable (junk) in
theorem readLineLib_line (h : Holds limit s (l ++ 10 :: r))
    (hok : NullOk limit s (l ++ 10 :: r)) (hl : 10 ∉ l) (hnull : 0 ∉ l) : ∃ s',
      (∀ fuel, s.readLineLib (fuel + 1) junk = some (0, l, s')) ∧
      Holds limit s' r ∧ Rounds limit s' 1 := by
  obtain ⟨ret, s₁, hcall, hholds, -⟩ := makeSureEndWithNull_ready junk h hlimit hok
  obtain ⟨s', htake, hrest, hrounds⟩ := takeLine_holds hholds
  refine ⟨s', fun fuel => ?_, hrest, hrounds⟩
  rw [readLineLib, hcall, Option.bind_some, readLineLoop, if_neg (hholds.data_ne (by simp)),
    findLine_line hholds hl hnull, Option.bind_some]
  exact htake

variable (junk) in
/-- Without a line feed, no number of rounds is enough. -/
theorem readLineLib_hangs (h : Holds limit s data) (hdata : data ≠ [])
    (hbad : ¬ NullOk limit s data ∨ 10 ∉ cstr data) (fuel : ℕ) :
    s.readLineLib fuel junk = none := by
  by_cases hok : NullOk limit s data
  · have hlf := hbad.resolve_left fun hnot => hnot hok
    obtain ⟨ret, s₁, hcall, hholds, hready⟩ :=
      makeSureEndWithNull_ready junk h hlimit hok
    have hfind : s₁.findLine = some none ∨ s₁.findLine = none := by
      by_cases hnull : 0 ∈ data
      · exact Or.inl (findLine_none hholds hdata hlf (Or.inl hnull))
      · rcases (hready hdata).resolve_left hnull with hends | hfull
        · exact Or.inl (findLine_none hholds hdata hlf (Or.inr hends))
        · rw [cstr_eq_self hnull] at hlf
          exact Or.inr (findLine_leaves hholds hdata hlf hnull hfull)
    rw [readLineLib, hcall, Option.bind_some]
    induction fuel with
    | zero => rfl
    | succ fuel ih =>
        rw [readLineLoop, if_neg (hholds.data_ne hdata)]
        rcases hfind with hfind | hfind
        · rw [hfind, Option.bind_some]
          exact ih
        · rw [hfind, Option.bind_none]
  · rw [readLineLib, makeSureEndWithNull_wraps h hlimit hok, Option.bind_none]

end

theorem splitLF_no_lf (data : Bytes) : ∀ l ∈ splitLF data, 10 ∉ l := by
  induction data with
  | nil => simp [splitLF]
  | cons c data ih =>
      rw [splitLF]
      by_cases hc : c = 10
      · rw [if_pos hc, List.forall_mem_cons]
        exact ⟨List.not_mem_nil, ih⟩
      · rw [if_neg hc]
        cases h : splitLF data with
        | nil => simpa using Ne.symm hc
        | cons l ls =>
            rw [h, List.forall_mem_cons] at ih
            rw [List.forall_mem_cons, List.mem_cons, not_or]
            exact ⟨⟨Ne.symm hc, ih.1⟩, ih.2⟩

theorem splitLF_ne_nil {data : Bytes} (h : data ≠ []) : splitLF data ≠ [] := by
  cases data with
  | nil => exact absurd rfl h
  | cons c data =>
      rw [splitLF]
      split_ifs
      · exact List.cons_ne_nil _ _
      · cases splitLF data with
        | nil => exact List.cons_ne_nil _ _
        | cons l ls => exact List.cons_ne_nil _ _

section
variable {limit : ℕ} {s s' : ByteBuffer} {data l r : Bytes} {R : Reader}
  {junk : ℕ → ℕ → UInt8}

theorem readsContent_empty (h : R (junk 0) s (-1, [], s')) (hholds : Holds limit s' []) :
    ReadsContent R junk s [] :=
  ⟨s', .fail h (by decide), hholds.refines.content⟩

/-- A content that is not empty is read by a first call and the others. -/
theorem readsContent_line (hfirst : ∀ r, R (junk 0) s r ↔ r = (0, l, s')) (hl : 10 ∉ l) :
    ReadsContent R junk s (l ++ 10 :: r) ↔ ReadsContent R (fun n => junk (n + 1)) s' r := by
  unfold ReadsContent
  rw [splitLF_line hl]
  constructor
  · rintro ⟨t, hreads, hempty⟩
    cases hreads with
    | line hcall hrest =>
        cases (hfirst _).mp hcall
        exact ⟨t, hrest, hempty⟩
  · rintro ⟨t, hreads, hempty⟩
    exact ⟨t, .line ((hfirst _).mpr rfl) hreads, hempty⟩

theorem not_readsContent (hnone : ∀ r, ¬ R (junk 0) s r) : ¬ ReadsContent R junk s data := by
  rintro ⟨t, hreads, -⟩
  generalize splitLF data = ls at hreads
  cases hreads with
  | fail hcall _ => exact hnone _ hcall
  | line hcall _ => exact hnone _ hcall

theorem exists_append_iff (hl : 10 ∉ l) (hnull : 0 ∉ l) :
    (∀ a b, l ++ 10 :: r = a ++ 10 :: b → 0 ∉ a) ↔ ∀ a b, r = a ++ 10 :: b → 0 ∉ a := by
  constructor
  · rintro h a b rfl hmem
    refine h (l ++ 10 :: a) b (by simp) ?_
    exact List.mem_append_right _ (List.mem_cons_of_mem 10 hmem)
  · intro h a b heq hmem
    rcases List.append_eq_append_iff.mp heq with ⟨x, rfl, hx⟩ | ⟨x, rfl, hx⟩
    · cases x with
      | nil => exact hnull (by simpa using hmem)
      | cons c x =>
          rw [List.cons_append, List.cons.injEq] at hx
          obtain ⟨rfl, rfl⟩ := hx
          rcases List.mem_append.mp hmem with hmem | hmem
          · exact hnull hmem
          · exact h x b rfl ((List.mem_cons.mp hmem).resolve_left (by decide))
    · exact hnull (List.mem_append_left x hmem)

/-- The core reads the lines if no null stands before a line feed, and there is a place for the
null that a content without line feeds and nulls needs. -/
theorem readsContent_core_iff (junk : ℕ → ℕ → UInt8) (hlimit : limit < 2 ^ 31)
    (h : Holds limit s data) : ReadsContent coreReader junk s data ↔
      NullOk limit s data ∧ (∀ a b, data = a ++ 10 :: b → 0 ∉ a) ∧
        (data.length = limit → data = [] ∨ 10 ∈ data ∨ 0 ∈ data) := by
  induction hn : data.length using Nat.strong_induction_on generalizing s data junk with
  | _ n ih =>
      by_cases hdata : data = []
      · subst hdata
        obtain ⟨s', hcall, hholds⟩ := readLine_empty (junk 0) hlimit h
        exact iff_of_true (readsContent_empty hcall hholds)
          ⟨Or.inr (rounds_nil h), by simp, fun _ => Or.inl rfl⟩
      · by_cases hok : NullOk limit s data
        · rcases line_cases data with ⟨l, r, rfl, hl, hnull⟩ | hlf
          · obtain ⟨s', hcall, hholds, hrounds⟩ :=
              readLine_line (junk 0) hlimit h hok hl hnull
            have hfirst : ∀ x, coreReader (junk 0) s x ↔ x = (0, l, s') := by
              intro x
              rw [coreReader, hcall, Option.some.injEq, eq_comm]
            have hlt : r.length < n := by
              rw [← hn, List.length_append, List.length_cons]
              omega
            have hle := h.length_le
            rw [readsContent_line hfirst hl, ih r.length hlt _ hholds rfl,
              exists_append_iff hl hnull]
            constructor
            · rintro ⟨-, hrest, -⟩
              exact ⟨hok, hrest, fun _ => Or.inr (Or.inl (by simp))⟩
            · rintro ⟨-, hrest, -⟩
              exact ⟨Or.inr hrounds, hrest, fun hfull => absurd hfull (by omega)⟩
          · by_cases hroom : 0 ∈ data ∨ data.length ≠ limit
            · obtain ⟨s', hcall, hholds⟩ :=
                readLine_rest (junk 0) hlimit h hok hdata hlf hroom
              have hclear : 10 ∉ data ↔ ∀ a b, data = a ++ 10 :: b → 0 ∉ a := by
                constructor
                · rintro h a b rfl
                  simp at h
                · intro h hmem
                  obtain ⟨a, b, rfl⟩ := List.append_of_mem hmem
                  rw [cstr_append (h a b rfl)] at hlf
                  simp [cstr] at hlf
              constructor
              · rintro ⟨t, hreads, -⟩
                refine ⟨hok, hclear.mp ?_, fun hfull => Or.inr (Or.inr ?_)⟩
                · obtain ⟨l, ls, hsplit⟩ := List.exists_cons_of_ne_nil (splitLF_ne_nil hdata)
                  have hno := splitLF_no_lf data l (hsplit ▸ List.mem_cons_self)
                  rw [hsplit] at hreads
                  cases hreads with
                  | line hfirst _ =>
                      rw [coreReader, hcall] at hfirst
                      cases hfirst
                      exact hno
                · exact hroom.resolve_right fun hne => hne (hn.trans hfull)
              · rintro ⟨-, hfeed, -⟩
                obtain ⟨s'', hlast, hempty⟩ := readLine_empty (junk 1) hlimit hholds
                refine ⟨s'', ?_, hempty.refines.content⟩
                rw [splitLF_last (hclear.mpr hfeed) hdata]
                exact .line hcall (.fail hlast (by decide))
            · rw [not_or, not_not] at hroom
              rw [cstr_eq_self hroom.1] at hlf
              have hnone := readLine_leaves (junk 0) hlimit h hdata
                (Or.inr ⟨hlf, hroom.1, hroom.2⟩)
              refine iff_of_false (not_readsContent fun x hx => ?_) fun hall => ?_
              · rw [coreReader, hnone] at hx
                cases hx
              · rcases hall.2.2 (hn.symm.trans hroom.2) with hnil | hmem | hmem
                · exact hdata hnil
                · exact hlf hmem
                · exact hroom.1 hmem
        · have hnone := readLine_leaves (junk 0) hlimit h hdata (Or.inl hok)
          refine iff_of_false (not_readsContent fun x hx => ?_) fun hall => hok hall.1
          rw [coreReader, hnone] at hx
          cases hx

/-- The other copy reads the lines if each has its line feed and none has a null. -/
theorem readsContent_lib_iff (junk : ℕ → ℕ → UInt8) (hlimit : limit < 2 ^ 31)
    (h : Holds limit s data) : ReadsContent libReader junk s data ↔
      data = [] ∨ data.getLast? = some 10 ∧ 0 ∉ data ∧ Rounds limit s 1 := by
  induction hn : data.length using Nat.strong_induction_on generalizing s data junk with
  | _ n ih =>
      by_cases hdata : data = []
      · subst hdata
        obtain ⟨s', hcall, hholds⟩ := readLineLib_empty (junk 0) hlimit h
        exact iff_of_true (readsContent_empty ⟨1, hcall⟩ hholds) (Or.inl rfl)
      · by_cases hends : NullOk limit s data ∧ 10 ∈ cstr data
        · obtain ⟨hok, hmem⟩ := hends
          obtain ⟨l, r, rfl, hl, hnull⟩ := (line_cases data).resolve_right fun hlf => hlf hmem
          obtain ⟨s', hcall, hholds, hrounds⟩ :=
            readLineLib_line (junk 0) hlimit h hok hl hnull
          have hfirst : ∀ x, libReader (junk 0) s x ↔ x = (0, l, s') := by
            intro x
            constructor
            · rintro ⟨fuel, hx⟩
              cases fuel with
              | zero =>
                  obtain ⟨_, _, hx⟩ := Option.bind_eq_some_iff.mp hx
                  cases hx
              | succ fuel =>
                  rw [hcall fuel] at hx
                  exact (Option.some.inj hx).symm
            · rintro rfl
              exact ⟨1, hcall 0⟩
          have hlt : r.length < n := by
            rw [← hn, List.length_append, List.length_cons]
            omega
          rw [readsContent_line hfirst hl, ih r.length hlt _ hholds rfl, or_iff_right hdata]
          have hlast : (l ++ 10 :: r).getLast? = some 10 ↔ r = [] ∨ r.getLast? = some 10 := by
            cases r with
            | nil => simp
            | cons c r =>
                rw [List.getLast?_append_of_ne_nil _ (List.cons_ne_nil _ _),
                  List.getLast?_cons_cons]
                simp
          have hclear : 0 ∉ l ++ 10 :: r ↔ 0 ∉ r := by
            simp [hnull]
          rw [hlast, hclear]
          constructor
          · rintro (rfl | ⟨hfeed, hrest, -⟩)
            · refine ⟨Or.inl rfl, List.not_mem_nil, hok.resolve_left ?_⟩
              simp
            · refine ⟨Or.inr hfeed, hrest, hok.resolve_left ?_⟩
              rw [hlast.mpr (Or.inr hfeed)]
              decide
          · rintro ⟨hfeed, hrest, -⟩
            rcases hfeed with hnil | hfeed
            · exact Or.inl hnil
            · exact Or.inr ⟨hfeed, hrest, hrounds⟩
        · have hbad : ¬ NullOk limit s data ∨ 10 ∉ cstr data := by
            rwa [not_and_or] at hends
          have hnone := readLineLib_hangs (junk 0) hlimit h hdata hbad
          refine iff_of_false (not_readsContent ?_) ?_
          · rintro x ⟨fuel, hx⟩
            rw [hnone fuel] at hx
            cases hx
          · rintro (hnil | ⟨hfeed, hnull, hrounds⟩)
            · exact hdata hnil
            · apply hends
              refine ⟨Or.inr hrounds, ?_⟩
              rw [cstr_eq_self hnull]
              exact List.mem_of_mem_getLast? hfeed

/-- Both copies, from any state with the content. -/
theorem readsContent_iff (junk : ℕ → ℕ → UInt8) (hlimit : limit < 2 ^ 31)
    (h : Holds limit s data) :
    (ReadsContent coreReader junk s data ↔
      NullOk limit s data ∧ (∀ a b, data = a ++ 10 :: b → 0 ∉ a) ∧
        (data.length = limit → data = [] ∨ 10 ∈ data ∨ 0 ∈ data)) ∧
    (ReadsContent libReader junk s data ↔
      data = [] ∨ data.getLast? = some 10 ∧ 0 ∉ data ∧ Rounds limit s 1) :=
  ⟨readsContent_core_iff junk hlimit h, readsContent_lib_iff junk hlimit h⟩

/-- Both copies read `a` and `b` from `"a\nb\n"`. -/
theorem readsContent_two : ∃ (junk : ℕ → ℕ → UInt8) (s : ByteBuffer),
    Holds 16 s [97, 10, 98, 10] ∧ splitLF [97, 10, 98, 10] = [[97], [98]] ∧
    ReadsContent coreReader junk s [97, 10, 98, 10] ∧
    ReadsContent libReader junk s [97, 10, 98, 10] := by
  have h : Holds 16 (layout 16 [] [97, 10, 98, 10] [7, 7]) [97, 10, 98, 10] :=
    .allocated [] _ _ (by decide) (by decide)
  have hrounds : Rounds 16 (layout 16 [] [97, 10, 98, 10] [7, 7]) 1 := Or.inl (by decide)
  obtain ⟨hcore, hlib⟩ := readsContent_iff (fun _ _ => 0) (by decide) h
  refine ⟨_, _, h, by decide, hcore.mpr ⟨Or.inr hrounds, ?_, by decide⟩,
    hlib.mpr (Or.inr ⟨by decide, by decide, hrounds⟩)⟩
  intro a b heq hmem
  have hzero : (0 : UInt8) ∈ ([97, 10, 98, 10] : Bytes) := heq ▸ List.mem_append_left _ hmem
  exact absurd hzero (by decide)

/-- Without a line feed the one copy never returns; the other reads `"a\0b\nc"` as one line. -/
theorem readLine_null : ∃ (junk : ℕ → ℕ → UInt8) (s t : ByteBuffer),
    Holds 16 s [97] ∧ (∀ fuel, s.readLineLib fuel (junk 0) = none) ∧
    ¬ ReadsContent libReader junk s [97] ∧
    Holds 16 t [97, 0, 98, 10, 99] ∧
    (t.readLine (junk 0)).map (fun r => (r.1, r.2.1)) = some (0, [97, 0, 98, 10, 99]) ∧
    splitLF [97, 0, 98, 10, 99] = [[97, 0, 98], [99]] ∧
    ¬ ReadsContent coreReader junk t [97, 0, 98, 10, 99] := by
  have hs : Holds 16 (layout 16 [] [97] [7, 7]) [97] := .allocated [] _ _ (by decide) (by decide)
  have ht : Holds 16 (layout 16 [] [97, 0, 98, 10, 99] [7, 7]) [97, 0, 98, 10, 99] :=
    .allocated [] _ _ (by decide) (by decide)
  have hhangs := readLineLib_hangs (fun _ => 0) (by decide) hs (by decide)
    (Or.inr (by decide))
  refine ⟨fun _ _ => 0, _, _, hs, hhangs, ?_, ht, by decide, by decide, ?_⟩
  · apply not_readsContent
    rintro x ⟨fuel, hx⟩
    rw [hhangs fuel] at hx
    cases hx
  · rw [readsContent_core_iff _ (by decide) ht]
    rintro ⟨-, hclear, -⟩
    exact hclear [97, 0, 98] [99] rfl (by decide)

end

end CoreLooper.ByteBuffer
