import CoreLooper.ByteBuffer
import CoreLooper.ByteQueue
import CoreLooper.Transitions

/-!
# A ByteBuffer is a bounded queue

The block of a buffer falls into the cells before its data, the data, and the cells behind.
Each part of a call is a change of these three lists.
-/
namespace CoreLooper.ByteBuffer
open CStrings MemoryBlocks Transitions

/-- The buffer whose block is made of the three lists. -/
def layout (limit : ℕ) (front data tail : Bytes) : ByteBuffer where
  m_pBuf := some (front ++ (data ++ tail))
  m_cbBuf := front.length + data.length + tail.length
  m_cbMaxBuf := limit
  m_nDataOff := front.length
  m_nData := data.length

/-- The buffer keeps to its limit and has the data. Where there is no data it starts at the front
of the block. -/
inductive Holds (limit : ℕ) : ByteBuffer → Bytes → Prop where
  | unallocated (hlimit : limit = defaultMaxSize) : Holds limit {} []
  | allocated (front data tail : Bytes)
      (hfits : front.length + data.length + tail.length ≤ limit) (hfront : data = [] → front = []) :
      Holds limit (layout limit front data tail) data

section
variable {limit : ℕ} {s : ByteBuffer} {front data tail pData : Bytes} {junk : ℕ → UInt8} {n : ℤ}

@[simp] theorem layout_block : (layout limit front data tail).block = front ++ (data ++ tail) := rfl

theorem layout_eq (hbuf : s.m_pBuf = some (front ++ (data ++ tail)))
    (hcap : s.m_cbBuf = front.length + data.length + tail.length) (hmax : s.m_cbMaxBuf = limit)
    (hoff : s.m_nDataOff = front.length) (hdata : s.m_nData = data.length) :
    s = layout limit front data tail := by
  cases s
  simp only at hbuf hcap hmax hoff hdata
  rw [layout, hbuf, hcap, hmax, hoff, hdata]

theorem result_eq {ret : ℤ} (hbuf : s.m_pBuf = some (front ++ (data ++ tail)))
    (hcap : s.m_cbBuf = front.length + data.length + tail.length) (hmax : s.m_cbMaxBuf = limit)
    (hoff : s.m_nDataOff = front.length) (hdata : s.m_nData = data.length) :
    some (ret, s) = some (ret, layout limit front data tail) := by
  rw [layout_eq hbuf hcap hmax hoff hdata]

/-- A new block has no data. -/
theorem setBufferSize_holds (junk : ℕ → UInt8) (nInitSize nMaxSize : ℕ)
    (hinit : nInitSize < 2 ^ 31) (hmax : nMaxSize < 2 ^ 31) :
    ∃ tail : Bytes, tail.length = nInitSize ∧
      ({} : ByteBuffer).setBufferSize junk nInitSize nMaxSize =
        some (0, layout (max nInitSize nMaxSize) [] [] tail) := by
  obtain ⟨pBuf, halloc, hlength⟩ := alloc_nonneg junk (n := nInitSize) (by omega)
  refine ⟨pBuf, by omega, ?_⟩
  have hlimit : (if nInitSize > nMaxSize then nInitSize else nMaxSize) =
      max nInitSize nMaxSize := by
    split <;> omega
  rw [setBufferSize, if_neg (by simp), hlimit, halloc]
  dsimp only
  rw [i32_eq (by omega) (by omega), i32_eq (by omega) (by omega)]
  refine congrArg (fun s => some (0, s)) ?_
  exact layout_eq rfl (by simpa using hlength.symm) rfl rfl rfl

/-- The rounding up of a size, when it is an `int`. -/
theorem newsize_bounds {k : ℤ} (hk : 0 ≤ k) (hfits : k + 8191 < 2 ^ 31)
    (hlimit : k ≤ s.m_cbMaxBuf) : k ≤ s.newsize k ∧ s.newsize k ≤ s.m_cbMaxBuf := by
  unfold newsize
  dsimp only
  rw [i32_eq (x := k + 1024 * 8 - 1) (by omega) (by omega), Int.tdiv_eq_ediv_of_nonneg (by omega),
    i32_eq (by omega) (by omega)]
  split_ifs <;> omega

theorem reallocate_holds (junk : ℕ → UInt8) (limit : ℕ) (front data tail : Bytes)
    (hn : data.length ≤ n) :
    ∃ tail', (layout limit front data tail).reallocate junk n =
        some (layout limit [] data tail') ∧ data.length + tail'.length = n := by
  obtain ⟨pBuf, halloc, hlength⟩ := alloc_nonneg junk (n := n) (by omega)
  have hload : load (layout limit front data tail).block (layout limit front data tail).m_nDataOff
      (layout limit front data tail).m_nData = some data := load_front front data tail rfl rfl
  have hstore : store pBuf 0 data = some (data ++ pBuf.drop data.length) :=
    store_front [] data rfl (by omega)
  have hcap : data.length + (pBuf.drop data.length).length = n := by
    rw [List.length_drop]
    omega
  refine ⟨pBuf.drop data.length, ?_, hcap⟩
  simp only [reallocate, halloc, hload, hstore, Option.bind_eq_bind, Option.bind_some,
    Option.pure_def]
  exact congrArg some (layout_eq rfl (by simpa using hcap.symm) rfl rfl rfl)

/-- The call neither needs a larger block nor, where it does, rounds its size past `int`. -/
def Rounds (limit : ℕ) (s : ByteBuffer) (n : ℤ) : Prop :=
  s.m_nData + n ≤ s.m_cbBuf ∨ min (s.m_nData + n) limit + 8191 < 2 ^ 31

theorem grow_holds (junk : ℕ → UInt8) (hlimit : limit < 2 ^ 31) (hn : 0 ≤ n)
    (hint : data.length + n < 2 ^ 31)
    (hrounds : Rounds limit (layout limit front data tail) n)
    (hfits : front.length + data.length + tail.length ≤ limit) (hfront : data = [] → front = []) :
    ∃ front' tail', (layout limit front data tail).grow junk n =
        some (min n (limit - data.length : ℕ), layout limit front' data tail') ∧
      min n (limit - data.length : ℕ) ≤ front'.length + tail'.length ∧
      front'.length + data.length + tail'.length ≤ limit ∧ (data = [] → front' = []) := by
  have hsum : i32 ((layout limit front data tail).m_nData + n) = data.length + n :=
    i32_eq (by simp only [layout]; omega) hint
  unfold grow
  rw [hsum]
  by_cases hcap : data.length + n ≤ (layout limit front data tail).m_cbBuf
  · refine ⟨front, tail, ?_, ?_, hfits, hfront⟩
    all_goals
      simp only [layout] at hcap
      have hmin : min n (limit - data.length : ℕ) = n := by omega
    · rw [if_neg (by simp only [layout]; omega), hmin]
    · omega
  · generalize hk : min n (limit - data.length : ℕ) = k
    have hcount : (if data.length + n > (layout limit front data tail).m_cbMaxBuf then
        i32 ((layout limit front data tail).m_cbMaxBuf - (layout limit front data tail).m_nData)
        else n) = k := by
      simp only [layout]
      rw [i32_eq (by omega) (by omega)]
      split_ifs <;> omega
    have hround : data.length + k + 8191 < 2 ^ 31 := by
      have := hrounds.resolve_left hcap
      simp only [layout] at this
      omega
    have hmax : data.length + k ≤ (layout limit front data tail).m_cbMaxBuf := by
      simp only [layout]
      omega
    obtain ⟨hlow, hhigh⟩ := newsize_bounds (by omega) hround hmax
    obtain ⟨tail', hnew, hlength⟩ := reallocate_holds junk limit front data tail
      (le_trans (by omega) hlow)
    have hhigh' : (data.length : ℤ) + tail'.length ≤ limit := hlength.trans_le hhigh
    rw [if_pos (by omega), hcount]
    refine ⟨[], tail', ?_, ?_, ?_, fun _ => rfl⟩
    · exact congrArg (Option.map (k, ·)) hnew
    · rw [List.length_nil]
      omega
    · rw [List.length_nil]
      omega

theorem moveData_holds :
    (layout limit front data tail).moveData = some (layout limit [] data
      ((front ++ (data ++ tail)).drop data.length)) := by
  have hload : load (layout limit front data tail).block (layout limit front data tail).m_nDataOff
      (layout limit front data tail).m_nData = some data := load_front front data tail rfl rfl
  have hstore : store (layout limit front data tail).block 0 data =
      some (data ++ (front ++ (data ++ tail)).drop data.length) :=
    store_front [] data rfl (by simp; omega)
  simp only [moveData, hload, hstore, Option.bind_eq_bind, Option.bind_some, Option.pure_def]
  refine congrArg some (layout_eq rfl ?_ rfl rfl rfl)
  simp only [layout, List.length_append, List.length_drop, List.length_nil]
  omega

theorem store_tail (h : pData.length ≤ tail.length) :
    store (layout limit front data tail).block ((layout limit front data tail).m_nDataOff +
      (layout limit front data tail).m_nData) pData =
      some (front ++ ((data ++ pData) ++ tail.drop pData.length)) := by
  have hstore := store_front (front ++ data) pData rfl h
  rw [List.append_assoc, List.append_assoc, ← List.append_assoc data] at hstore
  rw [← hstore, List.length_append, Nat.cast_add]
  rfl

/-- The cells that a write leaves behind. -/
theorem layout_append (h : pData.length ≤ tail.length) {s : ByteBuffer}
    (hbuf : s.m_pBuf = some (front ++ ((data ++ pData) ++ tail.drop pData.length)))
    (hcap : s.m_cbBuf = front.length + data.length + tail.length) (hmax : s.m_cbMaxBuf = limit)
    (hoff : s.m_nDataOff = front.length) (hdata : s.m_nData = data.length + pData.length) :
    s = layout limit front (data ++ pData) (tail.drop pData.length) := by
  refine layout_eq hbuf (hcap.trans ?_) hmax hoff (by simpa using hdata)
  simp only [List.length_append, List.length_drop]
  omega

theorem holds_append (h : pData.length ≤ tail.length) (hfront : data = [] → front = [])
    (hfits : front.length + data.length + tail.length ≤ limit) :
    Holds limit (layout limit front (data ++ pData) (tail.drop pData.length)) (data ++ pData) := by
  refine .allocated front _ _ ?_ fun hnil => hfront (List.append_eq_nil_iff.mp hnil).1
  simp only [List.length_append, List.length_drop]
  omega

theorem place_holds {k : ℕ} (hk : k ≤ pData.length) (hroom : k ≤ tail.length)
    (hfits : front.length + data.length + tail.length ≤ limit) (hfront : data = [] → front = []) :
    ∃ s', (layout limit front data tail).place pData k = some ((k : ℤ), s') ∧
      Holds limit s' (data ++ pData.take k) := by
  have hlength : (pData.take k).length = k := List.length_take_of_le hk
  have hload : load pData 0 k = some (pData.take k) := by
    have := load_front [] (pData.take k) (pData.drop k) rfl (congrArg Nat.cast hlength.symm)
    rwa [List.nil_append, List.take_append_drop] at this
  have hstore := @store_tail limit front data tail (pData.take k) (by omega)
  refine ⟨_, ?_, holds_append (by omega) hfront hfits⟩
  simp only [place, hload, hstore, Option.bind_eq_bind, Option.bind_some, Option.pure_def]
  refine congrArg (fun s => some ((k : ℤ), s)) (layout_append (by omega) rfl rfl rfl rfl ?_)
  rw [hlength]
  rfl

theorem append_holds {k : ℕ} (hk : k ≤ pData.length) (hroom : k ≤ front.length + tail.length)
    (hfits : front.length + data.length + tail.length ≤ limit) (hfront : data = [] → front = []) :
    ∃ s', (layout limit front data tail).append pData k = some ((k : ℤ), s') ∧
      Holds limit s' (data ++ pData.take k) := by
  unfold append
  dsimp only
  split_ifs with hleft
  · rw [moveData_holds, Option.bind_some]
    apply place_holds hk
    · simp only [List.length_drop, List.length_append]
      omega
    · simp only [List.length_drop, List.length_append, List.length_nil]
      omega
    · exact fun _ => rfl
  · simp only [layout] at hleft
    exact place_holds hk (by omega) hfits hfront

theorem Holds.length (h : Holds limit s data) : s.m_nData = data.length := by
  cases h <;> rfl

theorem Holds.length_le (h : Holds limit s data) : data.length ≤ limit := by
  cases h with
  | unallocated => exact Nat.zero_le _
  | allocated front _ tail hfits => omega

/-- A write to a buffer without a block is one to its first block. -/
theorem ensureBuf_rounds (junk : ℕ → UInt8) (h : Holds limit s data) (hrounds : Rounds limit s n) :
    ∃ front tail, s.ensureBuf junk = some (layout limit front data tail) ∧
      Rounds limit (layout limit front data tail) n ∧
      front.length + data.length + tail.length ≤ limit ∧ (data = [] → front = []) := by
  cases h with
  | unallocated hlimit =>
      obtain ⟨tail, hlength, hset⟩ := setBufferSize_holds junk 32 defaultMaxSize
        (by decide) (by decide)
      have hmax : max 32 defaultMaxSize = limit := hlimit.symm
      rw [hmax] at hset
      refine ⟨[], tail, ?_, Or.inr ?_, ?_, fun _ => rfl⟩
      · rw [ensureBuf, if_pos rfl, hset]
        rfl
      · rw [hlimit]
        have := min_le_right ((layout defaultMaxSize [] [] tail).m_nData + n) (defaultMaxSize : ℤ)
        have hdefault : (defaultMaxSize : ℤ) = 16777216 := rfl
        omega
      · rw [← hmax, List.length_nil, hlength]
        decide
  | allocated front _ tail hfits hfront =>
      refine ⟨front, tail, ?_, hrounds, hfits, hfront⟩
      rw [ensureBuf, if_neg (by simp [layout])]

theorem write_holds (junk : ℕ → UInt8) {m : ℕ} (hlimit : limit < 2 ^ 31)
    (h : Holds limit s data) (hm : 0 < m)
    (hbytes : m ≤ pData.length) (hint : s.m_nData + m < 2 ^ 31) (hrounds : Rounds limit s m) :
    ∃ s', s.write junk (some pData) m = some (((min m (limit - data.length) : ℕ) : ℤ), s') ∧
      Holds limit s' (data ++ pData.take (min m (limit - data.length))) := by
  rw [h.length] at hint
  obtain ⟨front, tail, hensure, hrounds', hfits, hfront⟩ := ensureBuf_rounds junk h hrounds
  obtain ⟨front', tail', hgrow, hroom, hfits', hfront'⟩ :=
    grow_holds junk hlimit (Int.natCast_nonneg m) hint hrounds' hfits hfront
  rw [← Nat.cast_min] at hgrow hroom
  have hcount : min m (limit - data.length) ≤ pData.length := by omega
  obtain ⟨s', happend, hholds⟩ := append_holds hcount (by omega) hfits' hfront'
  refine ⟨s', ?_, hholds⟩
  have hpos : ¬ (m : ℤ) ≤ 0 := by omega
  simp only [write]
  rw [if_neg hpos, hensure, Option.bind_eq_bind, Option.bind_some, hgrow, Option.bind_eq_bind,
    Option.bind_some]
  exact happend

theorem writeByte_holds (junk : ℕ → UInt8) (b : UInt8) (hlimit : limit < 2 ^ 31)
    (h : Holds limit s data)
    (hint : s.m_nData + 1 < 2 ^ 31) (hrounds : Rounds limit s 1) :
    ∃ s', s.writeByte junk b = some (((min 1 (limit - data.length) : ℕ) : ℤ), s') ∧
      Holds limit s' (data ++ [b].take (min 1 (limit - data.length))) := by
  rw [h.length] at hint
  obtain ⟨front, tail, hensure, hrounds', hfits, hfront⟩ := ensureBuf_rounds junk h hrounds
  unfold writeByte
  simp only [hensure, Option.bind_eq_bind, Option.bind_some]
  split_ifs with hroom
  · simp only [layout] at hroom
    have hone : min 1 (limit - data.length) = 1 := by omega
    have htail : [b].length ≤ tail.length := by
      rw [List.length_singleton]
      omega
    rw [hone, store_tail htail]
    refine ⟨_, ?_, holds_append htail hfront hfits⟩
    refine congrArg (fun s => some ((1 : ℤ), s)) (layout_append htail rfl rfl rfl rfl ?_)
    rfl
  · exact write_holds junk hlimit (.allocated front data tail hfits hfront) one_pos
      (by rw [List.length_singleton]) hint hrounds'

theorem eat_holds {m : ℕ} (h : Holds limit s data) (hm : m ≤ data.length)
    (hstored : m = 0 → s.m_nData = 0 → 0 < s.m_cbBuf) :
    ∃ s', s.eat m = some (0, s') ∧ Holds limit s' (data.drop m) := by
  have hle : ¬ (m : ℤ) > s.m_nData := by
    rw [h.length]
    omega
  rw [eat, if_neg hle]
  cases h with
  | unallocated =>
      have hzero : m = 0 := by simpa using hm
      exact absurd (hstored hzero rfl) (by decide)
  | allocated front _ tail hfits hfront =>
      dsimp only
      by_cases hall : (layout limit front data tail).m_nData - m = 0
      · -- the data is eaten up, and the first cell of the block is cleared
        have hall' : (data.length : ℤ) - m = 0 := hall
        have hblock : [(0 : UInt8)].length ≤ (front ++ (data ++ tail)).length := by
          have hcap : m = 0 → (data.length : ℤ) = 0 →
            (0 : ℤ) < front.length + data.length + tail.length := hstored
          simp only [List.length_append, List.length_singleton]
          omega
        have hstore : store (front ++ (data ++ tail)) 0 [0] =
            some (0 :: (front ++ (data ++ tail)).drop 1) := store_front [] [(0 : UInt8)] rfl hblock
        rw [if_pos hall, List.drop_eq_nil_of_le (by omega)]
        refine ⟨layout limit [] [] (0 :: (front ++ (data ++ tail)).drop 1), ?_,
          .allocated _ _ _ ?_ fun _ => rfl⟩
        · simp only [block, layout, Option.getD_some, hstore, Option.bind_eq_bind, Option.bind_some,
            Option.pure_def]
          apply result_eq
          · rfl
          · simp only [List.length_cons, List.length_drop, List.length_append, List.length_nil] at *
            omega
          · rfl
          · rfl
          · exact hall
        · simp only [List.length_cons, List.length_drop, List.length_append, List.length_nil] at *
          omega
      · have hall' : ¬ (data.length : ℤ) - m = 0 := hall
        rw [if_neg hall]
        refine ⟨layout limit (front ++ data.take m) (data.drop m) tail, ?_, .allocated _ _ _ ?_ ?_⟩
        · apply result_eq
          · rw [List.append_assoc, ← List.append_assoc (data.take m), List.take_append_drop]
            rfl
          · simp only [layout, List.length_append, List.length_take, List.length_drop]
            omega
          · rfl
          · simp only [layout, List.length_append, List.length_take]
            omega
          · simp only [layout, List.length_drop]
            omega
        · simp only [List.length_append, List.length_take, List.length_drop]
          omega
        · intro hnil
          have := List.drop_eq_nil_iff.mp hnil
          omega

theorem reverseEat_holds {m : ℕ} (h : Holds limit s data) (hm : m ≤ data.length) :
    (s.reverseEat m).1 = 0 ∧ Holds limit (s.reverseEat m).2 (data.take (data.length - m)) := by
  have hge : s.m_nData ≥ m := by
    rw [h.length]
    omega
  rw [reverseEat, if_neg (by omega), if_pos hge]
  refine ⟨rfl, ?_⟩
  cases h with
  | unallocated hlimit =>
      have hzero : m = 0 := by simpa using hm
      subst hzero
      exact .unallocated hlimit
  | allocated front _ tail hfits hfront =>
      dsimp only
      by_cases hall : (layout limit front data tail).m_nData - m = 0
      · have hall' : (data.length : ℤ) - m = 0 := hall
        have hdata : data.take (data.length - m) = [] := by
          rw [List.take_eq_nil_iff]
          omega
        rw [if_pos hall, hdata]
        have heq : { layout limit front data tail with
            m_nDataOff := 0, m_nData := (layout limit front data tail).m_nData - m } =
            layout limit [] [] (front ++ (data ++ tail)) := by
          refine layout_eq rfl ?_ rfl rfl hall
          simp only [layout, List.length_append, List.length_nil]
          omega
        rw [heq]
        refine .allocated _ _ _ ?_ fun _ => rfl
        simp only [List.length_append, List.length_nil]
        omega
      · have hall' : ¬ (data.length : ℤ) - m = 0 := hall
        have heq : { layout limit front data tail with
            m_nData := (layout limit front data tail).m_nData - m } =
            layout limit front (data.take (data.length - m))
              (data.drop (data.length - m) ++ tail) := by
          apply layout_eq
          · rw [← List.append_assoc (data.take (data.length - m)), List.take_append_drop]
            rfl
          · simp only [layout, List.length_append, List.length_take, List.length_drop]
            omega
          · rfl
          · rfl
          · simp only [layout, List.length_take]
            omega
        rw [if_neg hall, heq]
        refine .allocated _ _ _ ?_ ?_
        · simp only [List.length_append, List.length_take, List.length_drop]
          omega
        · intro hnil
          rw [List.take_eq_nil_iff] at hnil
          exact hfront (hnil.resolve_left (by omega))

theorem moveToHead_holds (h : Holds limit s data) :
    ∃ s', s.moveToHead = some s' ∧ Holds limit s' data := by
  cases h with
  | unallocated hlimit => exact ⟨_, rfl, .unallocated hlimit⟩
  | allocated front _ tail hfits hfront =>
      unfold moveToHead
      split_ifs with hmove hdata
      · refine ⟨_, moveData_holds, .allocated _ _ _ ?_ fun _ => rfl⟩
        simp only [List.length_append, List.length_drop, List.length_nil]
        omega
      · simp only [layout] at hmove hdata
        have hnil : data = [] := List.length_eq_zero_iff.mp (by omega)
        rw [hfront hnil] at hmove
        exact absurd hmove.2 (by simp)
      · exact ⟨_, rfl, .allocated front data tail hfits hfront⟩

theorem clear_holds (h : Holds limit s data) : Holds limit s.clear [] := by
  cases h with
  | unallocated hlimit => exact .unallocated hlimit
  | allocated front _ tail hfits hfront =>
      have heq : (layout limit front data tail).clear =
          layout limit [] [] (front ++ (data ++ tail)) := by
        refine layout_eq rfl ?_ rfl rfl rfl
        simp only [layout, clear, List.length_append, List.length_nil]
        omega
      rw [heq]
      refine .allocated _ _ _ ?_ fun _ => rfl
      simp only [List.length_append, List.length_nil]
      omega

theorem Holds.cap (h : Holds limit s data) : s.m_cbBuf = s.block.length := by
  cases h with
  | unallocated => rfl
  | allocated front _ tail _ _ =>
      simp only [layout_block, List.length_append]
      simp only [layout]
      omega

/-- Without data the whole block is free. -/
theorem Holds.nil (h : Holds limit s []) : s.m_nDataOff = 0 ∧ s.m_nData = 0 := by
  cases h with
  | unallocated => exact ⟨rfl, rfl⟩
  | allocated front _ tail _ hfront => simp [layout, hfront rfl]

theorem fillZero_holds {m : ℕ} (h : Holds limit s []) (hm : 0 < m) (hsize : m ≤ s.m_cbBuf) :
    ∃ s', s.fillZero m = some s' ∧ Holds limit s' [] := by
  cases h with
  | unallocated => exact absurd hsize (by simpa using hm.ne')
  | allocated front _ tail hfits hfront =>
      have hnil := hfront rfl
      subst hnil
      simp only [layout, List.length_nil] at hsize hfits
      have hle : (List.replicate m (0 : UInt8)).length ≤ tail.length := by
        rw [List.length_replicate]
        omega
      have hstore : store tail 0 (List.replicate m (0 : UInt8)) = some (List.replicate m 0 ++
        tail.drop (List.replicate m (0 : UInt8)).length) := store_front [] _ rfl hle
      rw [List.length_replicate] at hstore
      refine ⟨layout limit [] [] (List.replicate m 0 ++ tail.drop m), ?_,
        .allocated _ _ _ ?_ fun _ => rfl⟩
      · refine (congrArg (Option.map _) hstore).trans (congrArg some (layout_eq rfl ?_ rfl rfl rfl))
        simp only [layout, List.length_append, List.length_replicate, List.length_drop,
          List.length_nil]
        omega
      · simp only [List.length_append, List.length_replicate, List.length_drop, List.length_nil]
        omega

theorem makeRoom_holds (junk : ℕ → UInt8) {minSize : UInt32} (h : Holds limit s [])
    (hint : minSize.toNat < 2 ^ 31) :
    ∃ s', s.makeRoom junk minSize = some (0, s') ∧ minSize.toNat ≤ s'.m_cbBuf ∧
      Holds (if minSize.toNat ≤ s.m_cbBuf then limit else max minSize.toNat defaultMaxSize)
        s' [] := by
  have hfree : s.getFreeSize = s.m_cbBuf := by
    rw [getFreeSize, h.nil.2, if_pos (by rw [h.cap]; omega), Int.sub_zero]
  rw [makeRoom, hfree, i32_eq (by omega) (by omega)]
  by_cases hsmall : s.m_cbBuf < minSize.toNat
  · obtain ⟨tail, hlength, hset⟩ := setBufferSize_holds junk minSize.toNat defaultMaxSize hint
      (by decide)
    rw [if_pos hsmall, if_neg (by omega)]
    refine ⟨_, hset, ?_, .allocated [] [] tail ?_ fun _ => rfl⟩
    · simp only [layout, List.length_nil]
      omega
    · simp only [List.length_nil]
      omega
  · rw [if_neg hsmall, if_pos (by omega)]
    exact ⟨s, rfl, by omega, h⟩

/-- A block that is too small is given up, and the limit with it. -/
theorem prepareBuf_holds (junk : ℕ → UInt8) {minSize : UInt32} {zero : Bool}
    (h : Holds limit s data) (hint : minSize.toNat < 2 ^ 31) :
    ∃ s', s.prepareBuf junk minSize zero = some (0, s') ∧
      Holds (if minSize.toNat ≤ s.m_cbBuf then limit else max minSize.toNat defaultMaxSize)
        s' [] := by
  obtain ⟨s', hroom, hsize, hholds⟩ := makeRoom_holds junk (clear_holds h) hint
  simp only [prepareBuf]
  rw [hroom, Option.bind_eq_bind, Option.bind_some]
  dsimp only
  by_cases hzero : (0 : ℤ) = 0 ∧ minSize > 0 ∧ zero = true
  · rw [if_pos hzero]
    obtain ⟨s'', hfill, hholds'⟩ :=
      fillZero_holds hholds (UInt32.lt_iff_toNat_lt.mp hzero.2.1) hsize
    exact ⟨s'', congrArg (Option.map (0, ·)) hfill, hholds'⟩
  · rw [if_neg hzero]
    exact ⟨s', rfl, hholds⟩

theorem layout_tailFreeSize : (layout limit front data tail).getTailFreeSize = tail.length := by
  have hle : (layout limit front data tail).m_cbBuf ≥
      (layout limit front data tail).m_nDataOff + (layout limit front data tail).m_nData := by
    simp only [layout]
    omega
  rw [getTailFreeSize, if_pos hle]
  simp only [layout]
  omega

theorem fillTail_holds : (layout limit front data tail).fillTail pData =
    some (layout limit front data
      (pData.take tail.length ++ tail.drop (pData.take tail.length).length)) := by
  have hlength : (pData.take tail.length).length ≤ tail.length := by
    rw [List.length_take]
    omega
  rw [fillTail, if_neg (by simp [layout]), layout_tailFreeSize, Int.toNat_natCast,
    store_tail hlength]
  refine congrArg some (layout_eq ?_ ?_ rfl rfl rfl)
  · rw [List.append_assoc data]
  · simp only [layout, List.length_append, List.length_drop]
    omega

theorem writeDirect_fits {m : ℕ} (hint : front.length + data.length + tail.length < 2 ^ 31)
    (hm : m ≤ tail.length) : (layout limit front data tail).writeDirect m =
      (0, layout limit front (data ++ tail.take m) (tail.drop m)) := by
  have hsum : i32 ((layout limit front data tail).m_nDataOff +
      (layout limit front data tail).m_nData + m) = front.length + data.length + m :=
    i32_eq (by simp only [layout]; omega) (by simp only [layout]; omega)
  have hcap : (front.length : ℤ) + data.length + m ≤ (layout limit front data tail).m_cbBuf := by
    simp only [layout]
    omega
  have hdata : i32 ((layout limit front data tail).m_nData + m) = data.length + m :=
    i32_eq (by simp only [layout]; omega) (by simp only [layout]; omega)
  rw [writeDirect, hsum, if_pos hcap, hdata]
  refine congrArg (Prod.mk 0) (layout_eq ?_ ?_ rfl rfl ?_)
  · rw [List.append_assoc data, List.take_append_drop]
    rfl
  · simp only [layout, List.length_append, List.length_take, List.length_drop]
    omega
  · simp only [List.length_append, List.length_take]
    omega

theorem writeDirect_exceeds {m : ℕ} (hint : (front.length : ℤ) + data.length + m < 2 ^ 31)
    (hm : tail.length < m) : (layout limit front data tail).writeDirect m =
      (-1, layout limit front data tail) := by
  have hsum : i32 ((layout limit front data tail).m_nDataOff +
      (layout limit front data tail).m_nData + m) = front.length + data.length + m :=
    i32_eq (by simp only [layout]; omega) hint
  have hcap : ¬ (front.length : ℤ) + data.length + m ≤ (layout limit front data tail).m_cbBuf := by
    simp only [layout]
    omega
  rw [writeDirect, hsum, if_neg hcap]

theorem writeDirect_holds {m : ℕ} (h : Holds limit s data) (hlimit : limit < 2 ^ 31)
    (hsum : s.m_nDataOff + s.m_nData + m < 2 ^ 31)
    (hput : m ≤ s.getTailFreeSize → m ≤ pData.length) :
    ∃ s', s.fillTail pData = some s' ∧ Holds limit s' data ∧
      (m ≤ s.getTailFreeSize → (s'.writeDirect m).1 = 0 ∧
          Holds limit (s'.writeDirect m).2 (data ++ pData.take m) ∧ data.length + m ≤ limit) ∧
      (¬ m ≤ s.getTailFreeSize → s'.writeDirect m = (-1, s')) := by
  cases h with
  | unallocated hdefault =>
      have hwrite : i32 (({} : ByteBuffer).m_nDataOff + ({} : ByteBuffer).m_nData + m) = m :=
        (i32_eq (by simp only; omega) hsum).trans (by simp)
      have hfree : ({} : ByteBuffer).getTailFreeSize = 0 := rfl
      refine ⟨{}, rfl, .unallocated hdefault, fun hm => ?_, fun hm => ?_⟩
      · have hzero : m = 0 := by omega
        subst hzero
        exact ⟨rfl, .unallocated hdefault, Nat.zero_le _⟩
      · have hcap : ¬ (m : ℤ) ≤ ({} : ByteBuffer).m_cbBuf := by
          rwa [hfree] at hm
        rw [writeDirect, hwrite, if_neg hcap]
  | allocated front _ tail hfits hfront =>
      have htail : (pData.take tail.length ++ tail.drop (pData.take tail.length).length).length =
          tail.length := by
        simp only [List.length_append, List.length_take, List.length_drop]
        omega
      rw [layout_tailFreeSize] at hput ⊢
      refine ⟨_, fillTail_holds, .allocated _ _ _ (by omega) hfront, fun hm => ?_, fun hm => ?_⟩
      · have hm' : m ≤ tail.length := by omega
        rw [writeDirect_fits (by omega) (by omega)]
        have hbytes : (pData.take tail.length ++ tail.drop (pData.take tail.length).length).take m =
            pData.take m := by
          have := hput hm
          rw [List.take_append_of_le_length (by rw [List.length_take]; omega), List.take_take,
            min_eq_left hm']
        rw [hbytes]
        refine ⟨rfl, .allocated _ _ _ ?_ fun hnil => hfront (List.append_eq_nil_iff.mp hnil).1,
          by omega⟩
        have := hput hm
        simp only [List.length_append, List.length_take, List.length_drop] at htail ⊢
        omega
      · exact writeDirect_exceeds hsum (by omega)

theorem lastByte_nil : (layout limit front [] tail).lastByte = some [] := rfl

theorem lastByte_append {x : UInt8} :
    (layout limit front (data ++ [x]) tail).lastByte = some [x] := by
  rw [lastByte, if_pos (by simp [layout])]
  have hoff : (layout limit front (data ++ [x]) tail).m_nDataOff +
      (layout limit front (data ++ [x]) tail).m_nData - 1 = (front ++ data).length := by
    simp only [layout, List.length_append, List.length_singleton]
    omega
  rw [← load_front (front ++ data) [x] tail hoff rfl]
  simp

/-- A NUL that was appended and taken back is still there. -/
theorem reverseEat_endsWithNull (h : Holds limit s (data ++ [0])) (hdata : data ≠ []) :
    (s.reverseEat 1).2.EndsWithNull := by
  generalize hfull : data ++ [0] = full at h
  cases h with
  | unallocated => simp at hfull
  | allocated front _ tail hfits hfront =>
      subst hfull
      have hpos : 0 < data.length := List.length_pos_iff.mpr hdata
      have hsize : (layout limit front (data ++ [0]) tail).m_nData = data.length + 1 := by
        simp [layout]
      right
      rw [reverseEat, if_neg (by omega), if_pos (by omega)]
      dsimp only
      rw [if_neg (by omega)]
      have hoff : (layout limit front (data ++ [0]) tail).m_nDataOff +
          ((layout limit front (data ++ [0]) tail).m_nData - 1) = (front ++ data).length := by
        simp only [layout, List.length_append, List.length_singleton]
        omega
      rw [← load_front (front ++ data) [(0 : UInt8)] tail hoff rfl]
      simp [block, layout]

theorem endsWithNull_of_lastByte (h : s.lastByte = some [0]) : s.EndsWithNull := by
  unfold lastByte at h
  split_ifs at h
  · exact Or.inl h
  · simp at h

theorem lastByte_holds (h : Holds limit s data) : ∃ last, s.lastByte = some last := by
  cases h with
  | unallocated => exact ⟨[], rfl⟩
  | allocated front _ tail _ _ =>
      rcases List.eq_nil_or_concat data with hnil | ⟨init, x, hconcat⟩
      · subst hnil
        exact ⟨[], lastByte_nil⟩
      · rw [List.concat_eq_append] at hconcat
        subst hconcat
        exact ⟨[x], lastByte_append⟩

theorem makeSureEndWithNull_holds (junk : ℕ → UInt8) (hlimit : limit < 2 ^ 31)
    (h : Holds limit s data)
    (hint : s.m_nData + 1 < 2 ^ 31) (hrounds : Rounds limit s 1) :
    ∃ ret s', s.makeSureEndWithNull junk = some (ret, s') ∧ Holds limit s' data ∧
      (ret = 0 ∨ ret = -1 ∧ limit ≤ data.length) ∧
      (ret = 0 → data ≠ [] → s'.EndsWithNull) := by
  unfold makeSureEndWithNull
  split_ifs with hbuf
  · refine ⟨0, s, rfl, h, Or.inl rfl, fun _ hdata => ?_⟩
    cases h with
    | unallocated => exact absurd rfl hdata
    | allocated => cases hbuf
  · obtain ⟨last, hlast⟩ := lastByte_holds h
    rw [hlast, Option.bind_eq_bind, Option.bind_some]
    split_ifs with hzero
    · subst hzero
      exact ⟨0, s, rfl, h, Or.inl rfl, fun _ _ => endsWithNull_of_lastByte hlast⟩
    · obtain ⟨s', hwrite, hholds⟩ := writeByte_holds junk 0 hlimit h hint hrounds
      rw [hwrite, Option.bind_eq_bind, Option.bind_some]
      dsimp only
      by_cases hroom : limit - data.length = 0
      · -- a full buffer takes nothing
        rw [hroom] at hholds ⊢
        refine ⟨-1, s', ?_, by simpa using hholds, Or.inr ⟨rfl, by omega⟩,
          fun hret => absurd hret (by decide)⟩
        rw [if_pos (by simp)]
      · have hone : min 1 (limit - data.length) = 1 := by omega
        rw [hone] at hholds ⊢
        obtain ⟨-, hback⟩ := reverseEat_holds hholds (m := 1) (by simp)
        refine ⟨0, _, ?_, by simpa using hback, Or.inl rfl, fun _ hdata => ?_⟩
        · rw [if_neg (by simp)]
        · exact reverseEat_endsWithNull hholds hdata

end

/-- The buffer has the bytes of the queue, inside its block and its limit. -/
structure Refines {limit : ℕ} (s : ByteBuffer) (q : ByteQueue limit) : Prop where
  content : s.content = some q.bytes
  length : s.m_nData = q.length
  offset : 0 ≤ s.m_nDataOff
  within : s.m_nDataOff + s.m_nData ≤ s.m_cbBuf
  block : s.m_cbBuf = s.block.length
  cap : s.m_cbBuf ≤ s.m_cbMaxBuf
  limit : s.m_pBuf ≠ none → s.m_cbMaxBuf = limit

/-- What a call means on the queue, and its result. -/
def Answers {limit : ℕ} (s : ByteBuffer) (c : Call) (ret : ℤ) (s' : ByteBuffer)
    (q q' : ByteQueue limit) : Prop :=
  match c with
  | .write pData dataLen =>
      let data := (pData.getD []).take dataLen.toNat
      q' = q.write data ∧ ret = (min data.length q.room : ℕ)
  | .writeByte b => q' = q.write [b] ∧ ret = (min 1 q.room : ℕ)
  | .eat cbEat =>
      if cbEat ≤ q.length then q' = q.eat cbEat.toNat ∧ ret = 0
      else q' = q ∧ s' = s ∧ ret = -1
  | .reverseEat cbEat =>
      if 0 ≤ cbEat ∧ cbEat ≤ q.length then q' = q.eatBack cbEat.toNat ∧ ret = 0
      else q' = q ∧ s' = s ∧ ret = -1
  | .moveToHead => q' = q
  | .makeSureEndWithNull =>
      q' = q ∧ (ret = 0 ∨ ret = -1) ∧ (ret = 0 → q.bytes ≠ [] → s'.EndsWithNull)
  | .prepareBuf _ _ => q' = .clear ∧ ret = 0
  | .clear => q' = .clear
  | .writeDirect data nInc =>
      if nInc ≤ s.getTailFreeSize then
        q' = q.write (data.take nInc.toNat) ∧ (data.take nInc.toNat).length = nInc ∧
          q'.length = q.length + nInc ∧ ret = 0
      else q' = q ∧ s.fillTail data = some s' ∧ ret = -1

/-- The calls under which the buffer stays a queue with its limit. A caller passes as many bytes as
it says, and sizes are those of an `int`; the other conditions are: no size is rounded past `int`,
no sum in `writeDirect` exceeds it, a buffer without cells is not asked to eat nothing, and
`prepareBuf` does not give up the block, except for one with the same limit. -/
def Fits (limit : ℕ) (s : ByteBuffer) (call : (ℕ → UInt8) × Call) : Prop :=
  match call.2 with
  | .write pData dataLen =>
      (∀ b, pData = some b → dataLen ≤ b.length) ∧ s.m_nData + dataLen < 2 ^ 31 ∧
        Rounds limit s dataLen
  | .writeByte _ | .makeSureEndWithNull => s.m_nData + 1 < 2 ^ 31 ∧ Rounds limit s 1
  | .eat cbEat => 0 ≤ cbEat ∧ (cbEat = 0 → s.m_nData = 0 → 0 < s.m_cbBuf)
  | .prepareBuf minSize _ =>
      minSize.toNat < 2 ^ 31 ∧
        (minSize.toNat ≤ s.m_cbBuf ∨ max minSize.toNat defaultMaxSize = limit)
  | .writeDirect data nInc =>
      0 ≤ nInc ∧ (nInc ≤ s.getTailFreeSize → nInc ≤ data.length) ∧
        s.m_nDataOff + s.m_nData + nInc < 2 ^ 31
  | .reverseEat _ | .moveToHead | .clear => True

/-- The buffer as its owner gets it: new, or with sizes set. -/
def start (junk : ℕ → UInt8) : Option (ℕ × ℕ) → Option ByteBuffer
  | none => some {}
  | some (nInitSize, nMaxSize) =>
      (({} : ByteBuffer).setBufferSize junk nInitSize nMaxSize).map Prod.snd

/-- The limit of the sizes. -/
def limitOf : Option (ℕ × ℕ) → ℕ
  | none => defaultMaxSize
  | some (nInitSize, nMaxSize) => max nInitSize nMaxSize

/-- A step is a call, together with what new blocks hold. -/
def step (s : ByteBuffer) (call : (ℕ → UInt8) × Call) : Option ByteBuffer :=
  (s.perform call.1 call.2).map Prod.snd

section
variable {limit : ℕ} {s s' : ByteBuffer} {data : Bytes} {c : Call}

theorem Holds.refines (h : Holds limit s data) :
    Refines s (⟨data, h.length_le⟩ : ByteQueue limit) := by
  cases h with
  | unallocated hlimit =>
      exact ⟨rfl, rfl, le_refl _, le_refl _, rfl, le_refl _, fun hne => absurd rfl hne⟩
  | allocated front _ tail hfits hfront =>
      refine ⟨load_front front data tail rfl rfl, rfl, ?_, ?_,
        (Holds.allocated _ _ _ hfits hfront).cap, ?_, fun _ => rfl⟩
      all_goals
        simp only [layout]
        omega

theorem start_holds {junk : ℕ → UInt8} {size : Option (ℕ × ℕ)} (hlimit : limitOf size < 2 ^ 31)
    (h : start junk size = some s) : Holds (limitOf size) s [] := by
  cases size with
  | none =>
      cases h
      exact .unallocated rfl
  | some sizes =>
      obtain ⟨nInitSize, nMaxSize⟩ := sizes
      simp only [limitOf] at hlimit
      obtain ⟨tail, hlength, hset⟩ := setBufferSize_holds junk nInitSize nMaxSize
        (by omega) (by omega)
      simp only [start, hset, Option.map_some, Option.some.injEq] at h
      subst h
      refine .allocated [] [] tail ?_ fun _ => rfl
      simp only [List.length_nil, limitOf]
      omega

/-- A queue with the same bytes. -/
theorem Holds.queue {q : ByteQueue limit} (h : Holds limit s data) (hq : q.bytes = data) :
    Holds limit s q.bytes := hq ▸ h

theorem write_refines (junk : ℕ → UInt8) {pData : Option Bytes} {n : ℤ} {q : ByteQueue limit}
    (hlimit : limit < 2 ^ 31) (h : Holds limit s q.bytes)
    (hfits : Fits limit s (junk, .write pData n)) :
    ∃ ret s' q', s.write junk pData n = some (ret, s') ∧ Holds limit s' q'.bytes ∧
      Answers s (.write pData n) ret s' q q' := by
  obtain ⟨hbytes, hint, hrounds⟩ := hfits
  -- a call without bytes does nothing
  have hnone : (pData.getD []).take n.toNat = [] → s.write junk pData n = some (0, s) →
      ∃ ret s' q', s.write junk pData n = some (ret, s') ∧ Holds limit s' q'.bytes ∧
        Answers s (.write pData n) ret s' q q' := by
    intro hnil hwrite
    refine ⟨0, s, q, hwrite, h, ?_⟩
    simp only [Answers, hnil]
    exact ⟨ByteQueue.ext (by simp [ByteQueue.write]), by simp⟩
  cases pData with
  | none => exact hnone (by simp) rfl
  | some b =>
      by_cases hn : n ≤ 0
      · apply hnone
        · rw [Int.toNat_of_nonpos hn, List.take_zero]
        · simp only [write]
          rw [if_pos hn]
      · obtain ⟨m, rfl⟩ := Int.eq_ofNat_of_zero_le (by omega : 0 ≤ n)
        have hle : m ≤ b.length := by exact_mod_cast hbytes b rfl
        obtain ⟨s', hwrite, hholds⟩ := write_holds junk hlimit h (by omega) hle hint hrounds
        refine ⟨_, s', q.write (b.take m), hwrite, hholds.queue ?_, rfl, ?_⟩
        · show q.bytes ++ (b.take m).take (limit - q.bytes.length) = _
          rw [List.take_take, min_comm]
        · rw [Option.getD_some, Int.toNat_natCast, List.length_take_of_le hle]
          rfl

theorem eat_refines {n : ℤ} {q : ByteQueue limit} (h : Holds limit s q.bytes) (hn : 0 ≤ n)
    (hstored : n = 0 → s.m_nData = 0 → 0 < s.m_cbBuf) :
    ∃ ret s' q', s.eat n = some (ret, s') ∧ Holds limit s' q'.bytes ∧
      Answers s (.eat n) ret s' q q' := by
  obtain ⟨m, rfl⟩ := Int.eq_ofNat_of_zero_le hn
  by_cases hm : m ≤ q.bytes.length
  · obtain ⟨s', heat, hholds⟩ := eat_holds h hm fun hzero => hstored (by rw [hzero]; rfl)
    refine ⟨0, s', q.eat m, heat, hholds, ?_⟩
    rw [Answers, if_pos (by exact_mod_cast hm)]
    exact ⟨rfl, rfl⟩
  · refine ⟨-1, s, q, ?_, h, ?_⟩
    · rw [eat, if_pos (by rw [h.length]; omega)]
    · rw [Answers, if_neg (by exact_mod_cast hm)]
      exact ⟨rfl, rfl, rfl⟩

theorem reverseEat_refines {n : ℤ} {q : ByteQueue limit} (h : Holds limit s q.bytes) :
    ∃ q' : ByteQueue limit, Holds limit (s.reverseEat n).2 q'.bytes ∧
      Answers s (.reverseEat n) (s.reverseEat n).1 (s.reverseEat n).2 q q' := by
  by_cases hn : 0 ≤ n ∧ n ≤ q.length
  · obtain ⟨m, rfl⟩ := Int.eq_ofNat_of_zero_le hn.1
    obtain ⟨hret, hholds⟩ := reverseEat_holds h (m := m) (by exact_mod_cast hn.2)
    refine ⟨q.eatBack m, hholds, ?_⟩
    rw [Answers, if_pos hn]
    exact ⟨rfl, hret⟩
  · have hsame : s.reverseEat n = (-1, s) := by
      unfold reverseEat
      by_cases hneg : n < 0
      · rw [if_pos hneg]
      · have hlength := h.length
        rw [ByteQueue.length_eq] at hn
        rw [if_neg hneg, if_neg (by omega)]
    rw [hsame]
    refine ⟨q, h, ?_⟩
    rw [Answers, if_neg hn]
    exact ⟨rfl, rfl, rfl⟩

theorem writeDirect_refines {n : ℤ} {q : ByteQueue limit} (hlimit : limit < 2 ^ 31)
    (h : Holds limit s q.bytes) (hn : 0 ≤ n) (hput : n ≤ s.getTailFreeSize → n ≤ data.length)
    (hsum : s.m_nDataOff + s.m_nData + n < 2 ^ 31) :
    ∃ ret s' q', (s.fillTail data).map (writeDirect n) = some (ret, s') ∧
      Holds limit s' q'.bytes ∧ Answers s (.writeDirect data n) ret s' q q' := by
  obtain ⟨m, rfl⟩ := Int.eq_ofNat_of_zero_le hn
  obtain ⟨s', hfill, hholds, hfits, hexceeds⟩ := writeDirect_holds h hlimit hsum
    fun hm => by exact_mod_cast hput hm
  rw [hfill, Option.map_some]
  by_cases hm : (m : ℤ) ≤ s.getTailFreeSize
  · obtain ⟨hret, hdata, hroom⟩ := hfits hm
    have hlength : (data.take m).length = m := List.length_take_of_le (by exact_mod_cast hput hm)
    have hbytes : (q.write (data.take m)).bytes = q.bytes ++ data.take m :=
      ByteQueue.write_bytes (by omega)
    refine ⟨0, _, q.write (data.take m), congrArg some (Prod.ext hret rfl), hdata.queue hbytes, ?_⟩
    rw [Answers, if_pos hm, Int.toNat_natCast]
    refine ⟨rfl, by rw [hlength], ?_, rfl⟩
    rw [ByteQueue.length_eq, hbytes, List.length_append, hlength, ByteQueue.length_eq, Nat.cast_add]
  · refine ⟨-1, s', q, congrArg some (hexceeds hm), hholds, ?_⟩
    rw [Answers, if_neg hm]
    exact ⟨rfl, hfill, rfl⟩

theorem perform_refines (junk : ℕ → UInt8) {q : ByteQueue limit} (hlimit : limit < 2 ^ 31)
    (h : Holds limit s q.bytes) (hfits : Fits limit s (junk, c)) :
    ∃ ret s' q', s.perform junk c = some (ret, s') ∧ Holds limit s' q'.bytes ∧
      Answers s c ret s' q q' := by
  cases c with
  | write pData dataLen => exact write_refines junk hlimit h hfits
  | writeByte b =>
      obtain ⟨s', hwrite, hholds⟩ := writeByte_holds junk b hlimit h hfits.1 hfits.2
      refine ⟨_, s', q.write [b], hwrite, hholds.queue ?_, rfl, rfl⟩
      show q.bytes ++ [b].take (limit - q.bytes.length) = _
      rw [min_comm, ← List.take_take, List.take_of_length_le (i := 1) (by simp)]
  | eat n => exact eat_refines h hfits.1 hfits.2
  | reverseEat n =>
      obtain ⟨q', hholds, hanswers⟩ := reverseEat_refines (n := n) h
      exact ⟨_, _, q', rfl, hholds, hanswers⟩
  | moveToHead =>
      obtain ⟨s', hmove, hholds⟩ := moveToHead_holds h
      exact ⟨0, s', q, congrArg (Option.map (0, ·)) hmove, hholds, rfl⟩
  | makeSureEndWithNull =>
      obtain ⟨ret, s', hcall, hholds, hret, hend⟩ :=
        makeSureEndWithNull_holds junk hlimit h hfits.1 hfits.2
      exact ⟨ret, s', q, hcall, hholds, rfl, hret.imp_right And.left, hend⟩
  | prepareBuf minSize zero =>
      obtain ⟨s', hcall, hholds⟩ := prepareBuf_holds junk h hfits.1
      have hkeeps : (if minSize.toNat ≤ s.m_cbBuf then limit
          else max minSize.toNat defaultMaxSize) = limit := by
        split_ifs with hsize
        · rfl
        · exact hfits.2.resolve_left hsize
      rw [hkeeps] at hholds
      exact ⟨0, s', .clear, hcall, hholds, rfl, rfl⟩
  | clear => exact ⟨0, s.clear, .clear, rfl, clear_holds h, rfl⟩
  | writeDirect data n => exact writeDirect_refines hlimit h hfits.1 hfits.2.1 hfits.2.2

/-- Every buffer that is reached holds a queue, and every further call acts on the queue as it
should. -/
theorem run_refines (size : Option (ℕ × ℕ)) (junk₀ : ℕ → UInt8) {s₀ : ByteBuffer}
    (hlimit : limitOf size < 2 ^ 31) (hstart : start junk₀ size = some s₀)
    (h : Reachable step (Fits (limitOf size)) s₀ s) :
    ∃ q : ByteQueue (limitOf size), Refines s q ∧ (s = s₀ → q = .clear) ∧
      ∀ junk c, Fits (limitOf size) s (junk, c) → ∃ ret s', ∃ q' : ByteQueue (limitOf size),
        s.perform junk c = some (ret, s') ∧ Refines s' q' ∧ Answers s c ret s' q q' := by
  have hholds : ∃ q : ByteQueue (limitOf size), Holds (limitOf size) s q.bytes := by
    refine h.invariant (I := fun s => ∃ q : ByteQueue (limitOf size), Holds _ s q.bytes)
      ⟨.clear, start_holds hlimit hstart⟩ ?_
    rintro s ⟨junk, c⟩ s' ⟨q, hq⟩ hfits hstep
    obtain ⟨ret, t, q', hcall, hq', -⟩ := perform_refines junk hlimit hq hfits
    simp only [step, hcall, Option.map_some, Option.some.injEq] at hstep
    exact ⟨q', hstep ▸ hq'⟩
  obtain ⟨q, hq⟩ := hholds
  refine ⟨q, hq.refines, ?_, ?_⟩
  · rintro rfl
    have hnil := (start_holds hlimit hstart).refines
    have := hq.refines.content.symm.trans hnil.content
    exact ByteQueue.ext (Option.some.inj this)
  · intro junk c hfits
    obtain ⟨ret, s', q', hcall, hq', hanswers⟩ := perform_refines junk hlimit hq hfits
    exact ⟨ret, s', q', hcall, hq'.refines, hanswers⟩

/-- A buffer of 4 cells with the limit 8 has taken three bytes, and given up the first. -/
theorem run_refines_three :
    ∃ q : ByteQueue 8, Refines (layout 8 [7] [8, 9] [0]) q ∧
      (layout 8 [7] [8, 9] [0] = layout 8 [] [] [0, 0, 0, 0] → q = .clear) ∧
      ∀ junk c, Fits 8 (layout 8 [7] [8, 9] [0]) (junk, c) → ∃ ret s', ∃ q' : ByteQueue 8,
        (layout 8 [7] [8, 9] [0]).perform junk c = some (ret, s') ∧ Refines s' q' ∧
          Answers (layout 8 [7] [8, 9] [0]) c ret s' q q' := by
  have hwritten : Reachable step (Fits 8) (layout 8 [] [] [0, 0, 0, 0])
      (layout 8 [] [7, 8, 9] [0]) := by
    refine Reachable.next (a := (fun _ => 0, .write (some [7, 8, 9]) 3)) Reachable.start ?_
      (by decide)
    exact ⟨by rintro b ⟨⟩; decide, by decide, Or.inl (by decide)⟩
  have heaten : Reachable step (Fits 8) (layout 8 [] [] [0, 0, 0, 0])
      (layout 8 [7] [8, 9] [0]) :=
    Reachable.next (a := (fun _ => 0, .eat 1)) hwritten ⟨by decide, by decide⟩ (by decide)
  exact run_refines (some (4, 8)) (fun _ => 0) (by decide) (by decide) heaten

/-- The limit 16 is lost to a `prepareBuf` of 12 bytes: 20 bytes are taken. -/
theorem run_refines_prepareBuf : ∃ s₀ s : ByteBuffer,
    start (fun _ => 0) (some (4, 16)) = some s₀ ∧
      run step s₀ [(fun _ => 0, .prepareBuf 12 false),
        (fun _ => 0, .write (some (List.replicate 12 1)) 12)] = some s ∧
      (s.perform (fun _ => 0) (.write (some (List.replicate 8 2)) 8)).map Prod.fst = some 8 ∧
      ∀ (s' : ByteBuffer) (q q' : ByteQueue 16), Refines s q →
        ¬ Answers s (.write (some (List.replicate 8 2)) 8) 8 s' q q' := by
  refine ⟨layout 16 [] [] [0, 0, 0, 0], layout defaultMaxSize [] (List.replicate 12 1) [],
    by decide, by decide, by decide +kernel, ?_⟩
  rintro s' q q' hq ⟨-, hret⟩
  have hlength : ((12 : ℕ) : ℤ) = q.length := hq.length
  rw [ByteQueue.room, ← Nat.cast_inj.mp hlength] at hret
  exact absurd hret (by decide)

/-- The size of the new block is negative. -/
theorem newsize_wraps {k : ℤ} (hk : k < 2 ^ 31) (hround : 2 ^ 31 ≤ k + 8191)
    (hmax : 0 ≤ s.m_cbMaxBuf) : s.newsize k < 0 := by
  have hsum : i32 (k + 1024 * 8 - 1) = -(2 ^ 32 - (k + 8191)) := by
    rw [i32, ← Int.sub_bmod_right _ (2 ^ 32), Int.neg_sub]
    have hsame : k + 1024 * 8 - 1 - ((2 ^ 32 : ℕ) : ℤ) = k + 8191 - 2 ^ 32 := by
      push_cast
      ring
    rw [hsame]
    exact Int.bmod_eq_of_le (by omega) (by omega)
  have hsize : i32 ((i32 (k + 1024 * 8 - 1)).tdiv (1024 * 8) * (1024 * 8)) < 0 := by
    rw [hsum, Int.neg_tdiv, Int.tdiv_eq_ediv_of_nonneg (by omega), i32_eq (by omega) (by omega)]
    omega
  unfold newsize
  dsimp only
  rw [if_neg (by omega)]
  exact hsize

/-- The data ends past the block. -/
theorem writeDirect_wraps {n : ℤ} (h : Holds limit s data) (hlimit : limit < 2 ^ 31)
    (hint : s.m_nData + n < 2 ^ 31) (hsum : 2 ^ 31 ≤ s.m_nDataOff + s.m_nData + n) :
    (s.writeDirect n).1 = 0 ∧ (s.writeDirect n).2.m_cbBuf <
      (s.writeDirect n).2.m_nDataOff + (s.writeDirect n).2.m_nData := by
  have hrefines := h.refines
  have hoffset := hrefines.offset
  have hwithin := hrefines.within
  have hlength := h.length
  have hcap : s.m_cbBuf ≤ limit := by
    cases h with
    | unallocated => exact Int.natCast_nonneg _
    | allocated front _ tail hfits _ =>
        simp only [layout]
        omega
  have hwrap : i32 (s.m_nDataOff + s.m_nData + n) = s.m_nDataOff + s.m_nData + n - 2 ^ 32 := by
    rw [i32, ← Int.sub_bmod_right _ (2 ^ 32)]
    exact Int.bmod_eq_of_le (by simp; omega) (by simp; omega)
  rw [writeDirect, hwrap, if_pos (by omega), i32_eq (by omega) hint]
  refine ⟨rfl, ?_⟩
  show s.m_cbBuf < s.m_nDataOff + (s.m_nData + n)
  omega

end
end CoreLooper.ByteBuffer
