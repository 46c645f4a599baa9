import CoreLooper.HttpFormBody

/-!
# Runs of the form handler

What the handler does with an inbox does not depend on how the inbox was filled: a run over a
part of the data, which has stopped for more, goes on as the run over all of it.
-/
namespace CoreLooper.Http
open CStrings

namespace HttpFormField

variable {f f' : HttpFormField} {inbox inbox' x : Bytes} {r : EResult}

/-- The field takes the bytes in front, if they fit. -/
def taking (r : EResult) (i : ℕ) (inbox : Bytes) (f : HttpFormField) :
    EResult × Bytes × HttpFormField :=
  if (inbox.take i).length ≤ f.mDataBox.room then
    (r, inbox.drop i, { f with mDataBox := f.mDataBox.write (inbox.take i) })
  else (.Error, inbox, { f with mDataBox := f.mDataBox.write (inbox.take i) })

theorem write_nil {limit : ℕ} (q : ByteQueue limit) : q.write [] = q := by
  apply ByteQueue.ext
  rw [ByteQueue.write_bytes q.fits, List.append_nil]

theorem write_append {limit : ℕ} {q : ByteQueue limit} {a : Bytes} (ha : a.length ≤ q.room)
    (b : Bytes) : q.write (a ++ b) = (q.write a).write b := by
  have hroom : q.bytes.length + a.length ≤ limit := by
    have hfits := q.fits
    rw [ByteQueue.room, ByteQueue.length_eq] at ha
    omega
  have hbytes := ByteQueue.write_bytes hroom
  apply ByteQueue.ext
  show q.bytes ++ (a ++ b).take (limit - q.bytes.length) =
    (q.write a).bytes ++ b.take (limit - (q.write a).bytes.length)
  rw [hbytes, List.take_append, List.take_of_length_le (by omega), List.length_append,
    List.append_assoc, Nat.sub_sub]

theorem taking_zero (r : EResult) (inbox : Bytes) (f : HttpFormField) :
    f.taking r 0 inbox = (r, inbox, f) := by
  have hfits : ([] : Bytes).length ≤ f.mDataBox.room := Nat.zero_le _
  rw [taking, List.take_zero, if_pos hfits, write_nil]
  rfl

/-- What has been taken without an error fitted. -/
theorem taking_eq {r : EResult} {i : ℕ} (hr : r ≠ .Error)
    (h : f.taking r i inbox = (r, inbox', f')) :
    (inbox.take i).length ≤ f.mDataBox.room ∧ inbox' = inbox.drop i ∧
      f' = { f with mDataBox := f.mDataBox.write (inbox.take i) } := by
  rw [taking] at h
  by_cases hfits : (inbox.take i).length ≤ f.mDataBox.room
  · rw [if_pos hfits, Prod.mk.injEq, Prod.mk.injEq] at h
    exact ⟨hfits, h.2.1.symm, h.2.2.symm⟩
  · rw [if_neg hfits, Prod.mk.injEq] at h
    exact absurd h.1.symm hr

theorem taking_append {r : EResult} {i : ℕ} (hr : r ≠ .Error) (hi : i ≤ inbox.length)
    (h : f.taking r i inbox = (r, inbox', f')) (x : Bytes) :
    f.taking r i (inbox ++ x) = (r, inbox' ++ x, f') := by
  obtain ⟨hfits, rfl, rfl⟩ := taking_eq hr h
  rw [taking, List.take_append_of_le_length hi, if_pos hfits, List.drop_append_of_le_length hi]

/-- Bytes may be taken in two steps. -/
theorem taking_add {r q : EResult} {i j : ℕ} (hr : r ≠ .Error) (hi : i ≤ inbox.length)
    (h : f.taking r i inbox = (r, inbox', f'))
    (hq : (f.taking q (i + j) (inbox ++ x)).1 ≠ .Error) :
    f'.taking q j (inbox' ++ x) = f.taking q (i + j) (inbox ++ x) := by
  obtain ⟨hfits, rfl, rfl⟩ := taking_eq hr h
  have htake : (inbox ++ x).take (i + j) = inbox.take i ++ (inbox.drop i ++ x).take j := by
    rw [List.take_add, List.take_append_of_le_length hi, List.drop_append_of_le_length hi]
  have hdrop : (inbox ++ x).drop (i + j) = (inbox.drop i ++ x).drop j := by
    rw [← List.drop_drop, List.drop_append_of_le_length hi]
  have hall : (inbox.take i ++ (inbox.drop i ++ x).take j).length ≤ f.mDataBox.room := by
    by_contra hover
    apply hq
    rw [taking, htake, if_neg hover]
  have hrest : ((inbox.drop i ++ x).take j).length ≤
      (f.mDataBox.write (inbox.take i)).room := by
    have hbytes : (f.mDataBox.write (inbox.take i)).bytes = f.mDataBox.bytes ++ inbox.take i := by
      apply ByteQueue.write_bytes
      have hbox := f.mDataBox.fits
      rw [ByteQueue.room, ByteQueue.length_eq] at hfits
      omega
    rw [List.length_append] at hall
    rw [ByteQueue.room, ByteQueue.length_eq] at hall ⊢
    rw [hbytes, List.length_append]
    omega
  rw [taking, taking, htake, hdrop, if_pos hall, if_pos hrest, write_append hfits]

/-- Where the search ends, the field takes what is in front. -/
theorem input_eq (inbox : Bytes) (f : HttpFormField) : f.input inbox =
    if inbox.length < (delimiter f.mBoundary).length then (.NeedMoreData, inbox, f)
    else
      match (List.range (inbox.length - (delimiter f.mBoundary).length)).find?
          (isDelimiter f.mBoundary inbox) with
      | some i => f.taking .Finish i inbox
      | none => f.taking .NeedMoreData (inbox.length - (delimiter f.mBoundary).length) inbox := by
  have htake : ∀ (r : EResult) (i : ℕ), (if i > 0 then
      if (f.inputData (inbox.take i)).1 ≠ 0 then (.Error, inbox, (f.inputData (inbox.take i)).2)
      else (r, inbox.drop i, (f.inputData (inbox.take i)).2)
      else (r, inbox, f)) = f.taking r i inbox := by
    intro r i
    by_cases hi : i > 0
    · rw [if_pos hi, taking, inputData]
      by_cases hfits : (inbox.take i).length ≤ f.mDataBox.room
      · rw [if_pos hfits, if_pos hfits]
        rfl
      · rw [if_neg hfits, if_neg hfits]
        rfl
    · obtain rfl : i = 0 := by omega
      rw [if_neg hi, taking_zero]
  rw [delimiter_length]
  by_cases hfew : inbox.length < 4 + f.mBoundary.length
  · simp only [input, if_pos hfew]
  · cases hfind : (List.range (inbox.length - (4 + f.mBoundary.length))).find?
        (isDelimiter f.mBoundary inbox) with
    | none => simp only [input, if_neg hfew, Nat.sub_sub, hfind, ← htake]
    | some i => simp only [input, if_neg hfew, Nat.sub_sub, hfind, ← htake]

/-- Where a delimiter stands does not depend on what is behind it. -/
theorem isDelimiter_append {b : Bytes} {i : ℕ} (hi : i + (delimiter b).length ≤ inbox.length)
    (x : Bytes) : isDelimiter b (inbox ++ x) i = isDelimiter b inbox i := by
  rw [Bool.eq_iff_iff, isDelimiter_iff, isDelimiter_iff,
    List.drop_append_of_le_length (by omega)]
  constructor
  · intro h
    apply List.prefix_of_prefix_length_le h (List.prefix_append _ _)
    rw [List.length_drop]
    omega
  · exact fun h => h.trans (List.prefix_append _ _)

theorem isDelimiter_drop (b : Bytes) (m i : ℕ) :
    isDelimiter b (inbox.drop m) i = isDelimiter b inbox (m + i) := by
  rw [Bool.eq_iff_iff, isDelimiter_iff, isDelimiter_iff, List.drop_drop]

/-- With more data behind the inbox the search begins as before. -/
theorem find_append {b : Bytes} (h : (delimiter b).length ≤ inbox.length) (x : Bytes) :
    (List.range ((inbox ++ x).length - (delimiter b).length)).find?
        (isDelimiter b (inbox ++ x)) =
      ((List.range (inbox.length - (delimiter b).length)).find? (isDelimiter b inbox)).or
        (((List.range x.length).find?
            (isDelimiter b (inbox.drop (inbox.length - (delimiter b).length) ++ x))).map
          (inbox.length - (delimiter b).length + ·)) := by
  have hlen : (inbox ++ x).length - (delimiter b).length =
      inbox.length - (delimiter b).length + x.length := by
    rw [List.length_append]
    omega
  have hfront : ∀ i ∈ List.range (inbox.length - (delimiter b).length),
      isDelimiter b (inbox ++ x) i = isDelimiter b inbox i := by
    intro i hi
    rw [List.mem_range] at hi
    exact isDelimiter_append (by omega) x
  have hback : isDelimiter b (inbox.drop (inbox.length - (delimiter b).length) ++ x) =
      isDelimiter b (inbox ++ x) ∘ (inbox.length - (delimiter b).length + ·) := by
    funext i
    rw [← List.drop_append_of_le_length (Nat.sub_le _ _), isDelimiter_drop]
    rfl
  rw [hlen, List.range_add, List.find?_append, List.find?_map, hback, List.find?_congr hfront]

/-- A field that has finished finishes in the same way with more data behind. -/
theorem input_finish (h : f.input inbox = (.Finish, inbox', f')) (x : Bytes) :
    f.input (inbox ++ x) = (.Finish, inbox' ++ x, f') := by
  rw [input_eq] at h ⊢
  by_cases hfew : inbox.length < (delimiter f.mBoundary).length
  · rw [if_pos hfew] at h
    cases h
  · have hmany : ¬ (inbox ++ x).length < (delimiter f.mBoundary).length := by
      rw [List.length_append]
      omega
    rw [if_neg hfew] at h
    rw [if_neg hmany, find_append (by omega)]
    cases hfind : (List.range (inbox.length - (delimiter f.mBoundary).length)).find?
        (isDelimiter f.mBoundary inbox) with
    | none =>
        rw [hfind] at h
        have hneed : f.taking .NeedMoreData (inbox.length - (delimiter f.mBoundary).length) inbox =
            (.Finish, inbox', f') := h
        rw [taking] at hneed
        split_ifs at hneed <;> cases hneed
    | some i =>
        rw [hfind] at h
        have hi := List.mem_range.mp (List.mem_of_find?_eq_some hfind)
        exact taking_append (by decide) (by omega) h x

/-- A field that has stopped for more goes on as if all the data had been there. -/
theorem input_resume (h : f.input inbox = (.NeedMoreData, inbox', f'))
    (herror : (f.input (inbox ++ x)).1 ≠ .Error) :
    f'.input (inbox' ++ x) = f.input (inbox ++ x) := by
  rw [input_eq] at h
  by_cases hfew : inbox.length < (delimiter f.mBoundary).length
  · rw [if_pos hfew, Prod.mk.injEq, Prod.mk.injEq] at h
    rw [← h.2.1, ← h.2.2]
  · have hmany : ¬ (inbox ++ x).length < (delimiter f.mBoundary).length := by
      rw [List.length_append]
      omega
    rw [if_neg hfew] at h
    rw [input_eq (inbox ++ x), if_neg hmany, find_append (by omega)] at herror ⊢
    cases hfind : (List.range (inbox.length - (delimiter f.mBoundary).length)).find?
        (isDelimiter f.mBoundary inbox) with
    | some i =>
        rw [hfind] at h
        have hfinish : f.taking .Finish i inbox = (.NeedMoreData, inbox', f') := h
        rw [taking] at hfinish
        split_ifs at hfinish <;> cases hfinish
    | none =>
        rw [hfind] at h herror
        have hneed : f.taking .NeedMoreData (inbox.length - (delimiter f.mBoundary).length) inbox =
            (.NeedMoreData, inbox', f') := h
        obtain ⟨-, hinbox', hf'⟩ := taking_eq (by decide) hneed
        have hboundary : f'.mBoundary = f.mBoundary := by rw [hf']
        have hkept : inbox'.length = (delimiter f.mBoundary).length := by
          rw [hinbox', List.length_drop]
          omega
        have hrange : (inbox' ++ x).length - (delimiter f.mBoundary).length = x.length := by
          rw [List.length_append]
          omega
        have hmany' : ¬ (inbox' ++ x).length < (delimiter f.mBoundary).length := by
          rw [List.length_append]
          omega
        rw [input_eq, hboundary, if_neg hmany', hrange, Option.none_or, ← hinbox']
        rw [Option.none_or, ← hinbox'] at herror
        cases hlater : (List.range x.length).find? (isDelimiter f.mBoundary (inbox' ++ x)) with
        | some j =>
            rw [hlater] at herror
            exact taking_add (by decide) (Nat.sub_le _ _) hneed herror
        | none =>
            rw [hlater] at herror
            have hsum : (inbox ++ x).length - (delimiter f.mBoundary).length =
                inbox.length - (delimiter f.mBoundary).length + x.length := by
              rw [List.length_append]
              omega
            rw [hsum] at herror ⊢
            exact taking_add (by decide) (Nat.sub_le _ _) hneed herror

theorem input_length (h : f.input inbox = (r, inbox', f')) : inbox'.length ≤ inbox.length := by
  have htake : ∀ (q : EResult) (i : ℕ), f.taking q i inbox = (r, inbox', f') →
      inbox'.length ≤ inbox.length := by
    intro q i htaken
    rw [taking] at htaken
    split_ifs at htaken
    · rw [Prod.mk.injEq, Prod.mk.injEq] at htaken
      rw [← htaken.2.1, List.length_drop]
      exact Nat.sub_le _ _
    · rw [Prod.mk.injEq, Prod.mk.injEq] at htaken
      rw [htaken.2.1]
  rw [input_eq] at h
  by_cases hfew : inbox.length < (delimiter f.mBoundary).length
  · rw [if_pos hfew, Prod.mk.injEq, Prod.mk.injEq] at h
    rw [h.2.1]
  · rw [if_neg hfew] at h
    cases hfind : (List.range (inbox.length - (delimiter f.mBoundary).length)).find?
        (isDelimiter f.mBoundary inbox) with
    | none =>
        rw [hfind] at h
        exact htake _ _ h
    | some i =>
        rw [hfind] at h
        exact htake _ _ h

/-- A field that waits holds bytes back. -/
theorem input_kept (h : f.input inbox = (.NeedMoreData, inbox', f')) (hinbox : inbox ≠ []) :
    inbox' ≠ [] := by
  rw [input_eq] at h
  by_cases hfew : inbox.length < (delimiter f.mBoundary).length
  · rw [if_pos hfew, Prod.mk.injEq, Prod.mk.injEq] at h
    rw [← h.2.1]
    exact hinbox
  · rw [if_neg hfew] at h
    cases hfind : (List.range (inbox.length - (delimiter f.mBoundary).length)).find?
        (isDelimiter f.mBoundary inbox) with
    | none =>
        rw [hfind] at h
        obtain ⟨-, hkept, -⟩ := taking_eq (by decide) h
        apply List.ne_nil_of_length_pos
        rw [hkept, List.length_drop]
        have hlen := delimiter_length f.mBoundary
        omega
    | some i =>
        rw [hfind] at h
        have hfinish : f.taking .Finish i inbox = (.NeedMoreData, inbox', f') := h
        rw [taking] at hfinish
        split_ifs at hfinish <;> cases hfinish

end HttpFormField

namespace HttpPostHandler

variable {h h' h'' : HttpPostHandler} {inbox inbox' inbox'' x : Bytes} {v : ℤ}

/-- The rounds of the loop up to what it returns. -/
inductive Runs : Bytes → HttpPostHandler → ℤ → Bytes → HttpPostHandler → Prop
  | ret {inbox inbox' : Bytes} {h h' : HttpPostHandler} {v : ℤ} :
      h.round inbox = .ret v inbox' h' → Runs inbox h v inbox' h'
  | next {inbox inbox' inbox'' : Bytes} {h h' h'' : HttpPostHandler} {v : ℤ} :
      h.round inbox = .next inbox' h' → Runs inbox' h' v inbox'' h'' → Runs inbox h v inbox'' h''

/-- Twice the bytes of the inbox, and one more in front of a round that may take none. -/
def weight (inbox : Bytes) (h : HttpPostHandler) : ℕ :=
  2 * inbox.length + if h.mState = .WaitFormDataBody then 1 else 0

theorem header_round (h : HttpPostHandler) (inbox : Bytes) (hinbox : inbox ≠ [])
    (hstate : h.mState = .WaitFormDataHeader) : h.round inbox = h.waitFormDataHeader inbox := by
  rw [round, if_neg hinbox, hstate]

theorem body_round (h : HttpPostHandler) (inbox : Bytes) (hinbox : inbox ≠ [])
    (hstate : h.mState = .WaitFormDataBody) : h.round inbox = h.waitFormDataBody inbox := by
  rw [round, if_neg hinbox, hstate]

/-- A header that has been found stays with more data behind. -/
theorem waitFormDataHeader_next (hnext : h.waitFormDataHeader inbox = .next inbox' h')
    (x : Bytes) : h.waitFormDataHeader (inbox ++ x) = .next (inbox' ++ x) h' ∧
      inbox'.length + 4 ≤ inbox.length ∧ h'.mState = .WaitFormDataBody := by
  rw [waitFormDataHeader] at hnext ⊢
  cases hfind : strstr (cstr inbox) CRLF2 with
  | none =>
      simp only [hfind] at hnext
      split_ifs at hnext
  | some headerEnd =>
      simp only [hfind, Round.next.injEq] at hnext
      obtain ⟨y, hy⟩ := cstr_append_starts inbox x
      have hend := strstr_add_length_le hfind
      have hcrlf : CRLF2.length = 4 := rfl
      have hstarts := (cstr_starts inbox).length_le
      have hhead : (cstr inbox ++ y).take headerEnd = (cstr inbox).take headerEnd :=
        List.take_append_of_le_length (by omega)
      have hdrop : (inbox ++ x).drop (headerEnd + 4) = inbox.drop (headerEnd + 4) ++ x :=
        List.drop_append_of_le_length (by omega)
      rw [hy, strstr_append hfind]
      simp only [hhead, hdrop, ← hnext.1, ← hnext.2, List.length_drop]
      refine ⟨trivial, by omega, trivial⟩

/-- A field ends in the same way with more data behind. -/
theorem waitFormDataBody_next (hnext : h.waitFormDataBody inbox = .next inbox' h')
    (x : Bytes) : h.waitFormDataBody (inbox ++ x) = .next (inbox' ++ x) h' ∧
      inbox'.length ≤ inbox.length ∧ h'.mState = .WaitFormDataHeader := by
  rw [waitFormDataBody] at hnext ⊢
  cases hfield : h.mCurrentField with
  | none => simp [hfield] at hnext
  | some f =>
      obtain ⟨r, kept, f', hinput⟩ : ∃ r kept f', f.input inbox = (r, kept, f') :=
        ⟨_, _, _, rfl⟩
      cases r with
      | NeedMoreData => simp [hfield, hinput] at hnext
      | Error => simp [hfield, hinput] at hnext
      | Finish =>
          simp only [hfield, hinput, Round.next.injEq] at hnext
          simp only [HttpFormField.input_finish hinput x]
          rw [← hnext.1, ← hnext.2]
          exact ⟨rfl, HttpFormField.input_length hinput, rfl⟩

theorem round_next (hnext : h.round inbox = .next inbox' h') (x : Bytes) :
    h.round (inbox ++ x) = .next (inbox' ++ x) h' ∧ weight inbox' h' < weight inbox h := by
  have hinbox : inbox ≠ [] := by
    rintro rfl
    rw [round, if_pos rfl] at hnext
    cases hnext
  have hmore : inbox ++ x ≠ [] := by simp [hinbox]
  cases hstate : h.mState with
  | Done =>
      rw [round, if_neg hinbox, hstate] at hnext
      cases hnext
  | WaitFormDataHeader =>
      rw [header_round h inbox hinbox hstate] at hnext
      obtain ⟨happend, hlen, hstate'⟩ := waitFormDataHeader_next hnext x
      rw [header_round h _ hmore hstate]
      refine ⟨happend, ?_⟩
      rw [weight, weight, hstate, hstate', if_pos rfl]
      omega
  | WaitFormDataBody =>
      rw [body_round h inbox hinbox hstate] at hnext
      obtain ⟨happend, hlen, hstate'⟩ := waitFormDataBody_next hnext x
      rw [body_round h _ hmore hstate]
      refine ⟨happend, ?_⟩
      rw [weight, weight, hstate, hstate', if_pos rfl, if_neg (by decide)]
      omega

/-- The loop makes the rounds of a run. -/
theorem Runs.loop_eq (hrun : Runs inbox h v inbox' h') {fuel : ℕ} (hfuel : weight inbox h < fuel) :
    loop fuel inbox h = some (v, inbox', h') := by
  induction hrun generalizing fuel with
  | ret hround =>
      match fuel, hfuel with
      | fuel + 1, _ => rw [loop, hround]
  | next hround _ ih =>
      match fuel, hfuel with
      | fuel + 1, hfuel =>
          have hless := (round_next hround []).2
          rw [loop, hround]
          exact ih (by omega)

theorem Runs.input_eq (hrun : Runs inbox h v inbox' h') (hstate : h.mState ≠ .Done) :
    h.input inbox = some (v, inbox', h') := by
  rw [input, if_neg hstate]
  apply hrun.loop_eq
  rw [weight]
  split_ifs <;> omega

theorem Runs.congr {g : HttpPostHandler} {box : Bytes} (heq : g.round box = h.round inbox)
    (hrun : Runs inbox h v inbox' h') : Runs box g v inbox' h' := by
  cases hrun with
  | ret hround => exact .ret (heq.trans hround)
  | next hround hrest => exact .next (heq.trans hround) hrest

/-- A round that asks for more is made again with more data, and does what it would have done. -/
theorem round_resume (hret : h.round inbox = .ret 0 inbox' h') (hstate : h'.mState ≠ .Done)
    (hall : Runs (inbox ++ x) h 0 inbox'' h'') : Runs (inbox' ++ x) h' 0 inbox'' h'' := by
  have hsame : inbox = inbox' → h = h' → Runs (inbox' ++ x) h' 0 inbox'' h'' := by
    rintro rfl rfl
    exact hall
  by_cases hinbox : inbox = []
  · rw [round, if_pos hinbox, Round.ret.injEq] at hret
    exact hsame hret.2.1 hret.2.2
  · have hmore : inbox ++ x ≠ [] := by simp [hinbox]
    cases hphase : h.mState with
    | Done =>
        rw [round, if_neg hinbox, hphase] at hret
        simp at hret
    | WaitFormDataHeader =>
        rw [header_round h inbox hinbox hphase, waitFormDataHeader] at hret
        cases hfind : strstr (cstr inbox) CRLF2 with
        | some headerEnd => simp [hfind] at hret
        | none =>
            simp only [hfind] at hret
            split_ifs at hret
            · rw [Round.ret.injEq] at hret
              exact absurd (by rw [← hret.2.2]) hstate
            · rw [Round.ret.injEq] at hret
              exact hsame hret.2.1 hret.2.2
    | WaitFormDataBody =>
        rw [body_round h inbox hinbox hphase, waitFormDataBody] at hret
        cases hfield : h.mCurrentField with
        | none =>
            simp only [hfield, Round.ret.injEq] at hret
            exact hsame hret.2.1 hret.2.2
        | some f =>
            obtain ⟨r, kept, f', hinput⟩ : ∃ r kept f', f.input inbox = (r, kept, f') :=
              ⟨_, _, _, rfl⟩
            cases r with
            | Finish => simp [hfield, hinput] at hret
            | Error => simp [hfield, hinput] at hret
            | NeedMoreData =>
                simp only [hfield, hinput, Round.ret.injEq, true_and] at hret
                obtain ⟨rfl, rfl⟩ := hret
                have hkept : kept ++ x ≠ [] := by
                  simp [HttpFormField.input_kept hinput hinbox]
                have herror : (f.input (inbox ++ x)).1 ≠ .Error := by
                  intro herr
                  have hround : h.round (inbox ++ x) = .ret 400 (f.input (inbox ++ x)).2.1
                      { h with mCurrentField := some (f.input (inbox ++ x)).2.2 } := by
                    rw [body_round h _ hmore hphase, waitFormDataBody, hfield]
                    simp only [herr]
                  cases hall with
                  | ret hother => simp [hround] at hother
                  | next hother _ => simp [hround] at hother
                apply hall.congr
                rw [body_round h _ hmore hphase,
                  body_round { h with mCurrentField := some f' } _ hkept hphase,
                  waitFormDataBody, waitFormDataBody, hfield]
                simp only [HttpFormField.input_resume hinput herror]

/-- A run that has stopped for more goes on as the run over all the data. -/
theorem Runs.resume (hrun : Runs inbox h 0 inbox' h') (hstate : h'.mState ≠ .Done)
    (hall : Runs (inbox ++ x) h 0 inbox'' h'') : Runs (inbox' ++ x) h' 0 inbox'' h'' := by
  generalize hv : (0 : ℤ) = v at hrun
  induction hrun with
  | ret hround =>
      subst hv
      exact round_resume hround hstate hall
  | next hround _ ih =>
      have happend := (round_next hround x).1
      cases hall with
      | ret hother =>
          rw [happend] at hother
          cases hother
      | next hother hrest =>
          rw [happend, Round.next.injEq] at hother
          obtain ⟨rfl, rfl⟩ := hother
          exact ih hstate hrest hv

end HttpPostHandler
end CoreLooper.Http
