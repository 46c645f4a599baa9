import CoreLooper.HttpPostHandler

/-!
# The body of a part

However a form arrives, a field gets the bytes in front of the first delimiter. As many bytes as a
delimiter has stay in the inbox until one more has come.
-/
namespace CoreLooper.Http
open CStrings

/-- What ends a part. -/
def delimiter (mBoundary : Bytes) : Bytes := [13, 10, 45, 45] ++ mBoundary

section
variable {b data : Bytes} {i k : ℕ}

theorem delimiter_length (b : Bytes) : (delimiter b).length = 4 + b.length := by
  rw [delimiter, List.length_append]
  rfl

theorem isDelimiter_iff :
    HttpFormField.isDelimiter b data i = true ↔ delimiter b <+: data.drop i := by
  have hget : ∀ j, data[i + j]? = (data.drop i)[j]? := fun j => by rw [List.getElem?_drop]
  have hzero : data[i]? = (data.drop i)[0]? := hget 0
  have hrest : data.drop (i + 4) = (data.drop i).drop 4 := by rw [List.drop_drop]
  have htake : ∀ y : Bytes, b <+: y ↔ y.take b.length = b := fun y => by
    rw [List.prefix_iff_eq_take]
    exact eq_comm
  simp only [HttpFormField.isDelimiter, hzero, hget, hrest, delimiter, decide_eq_true_eq]
  match data.drop i with
  | [] => simp
  | [x] => simp
  | [x, y] => simp
  | [x, y, z] => simp
  | x :: y :: z :: w :: rest => simp [htake, eq_comm]

/-- Behind a body without a delimiter, the first delimiter is the one that ends it: one without
another `\r` in it cannot begin in the body. -/
theorem first_delimiter {body : Bytes} (hb : 13 ∉ b) (hbody : ¬ delimiter b <:+: body)
    (rest : Bytes) : strstr (body ++ delimiter b ++ rest) (delimiter b) = some body.length := by
  rw [List.append_assoc]
  exact strstr_after hbody (by simp [hb]) rest

/-- The search stops short of the last places at which a delimiter could stand. -/
theorem find_delimiter {s : Bytes} {m n : ℕ} (hfirst : strstr s (delimiter b) = some k)
    (hmk : m ≤ k) (hn : n ≤ s.length) (hmn : m + (delimiter b).length ≤ n) :
    (List.range (n - m - (delimiter b).length)).find?
        (HttpFormField.isDelimiter b ((s.take n).drop m)) =
      if k + (delimiter b).length < n then some (k - m) else none := by
  have hplace : ∀ i, i + m + (delimiter b).length ≤ n →
      (delimiter b <+: ((s.take n).drop m).drop i ↔ delimiter b <+: s.drop (i + m)) := by
    intro i hi
    have hcut : ((s.take n).drop m).drop i = (s.drop (i + m)).take (n - (i + m)) := by
      rw [List.drop_drop, Nat.add_comm m i, List.drop_take]
    rw [hcut]
    constructor
    · exact fun h => h.trans (List.take_prefix _ _)
    · intro h
      apply List.prefix_of_prefix_length_le h (List.take_prefix _ _)
      rw [List.length_take, List.length_drop]
      omega
  split_ifs with hlt
  · rw [List.find?_range_eq_some]
    refine ⟨?_, ?_, ?_⟩
    · rw [isDelimiter_iff, hplace _ (by omega), Nat.sub_add_cancel hmk]
      exact strstr_found hfirst
    · rw [List.mem_range]
      omega
    · intro j hj
      rw [Bool.not_eq_true', ← Bool.not_eq_true, isDelimiter_iff, hplace j (by omega)]
      exact strstr_first hfirst (by omega)
  · rw [List.find?_eq_none]
    intro j hj
    rw [List.mem_range] at hj
    rw [isDelimiter_iff, hplace j (by omega)]
    exact strstr_first hfirst (by omega)

end
namespace HttpFormField

/-- The field with some data. -/
def filled (f : HttpFormField) (data : Bytes) : HttpFormField :=
  { f with mDataBox := ByteQueue.clear.write data }

section
variable {f : HttpFormField} {s : Bytes} {k : ℕ}

theorem filled_bytes {data : Bytes} (h : data.length ≤ ByteBuffer.defaultMaxSize) :
    (f.filled data).mDataBox.bytes = data :=
  ByteQueue.write_bytes (by simpa using h)

theorem inputData_filled {a data : Bytes} (h : a.length + data.length ≤ ByteBuffer.defaultMaxSize) :
    (f.filled a).inputData data = (0, f.filled (a ++ data)) := by
  have ha : (f.filled a).mDataBox.bytes = a := filled_bytes (by omega)
  have hroom : data.length ≤ (f.filled a).mDataBox.room := by
    rw [ByteQueue.room, ByteQueue.length_eq, ha]
    omega
  have hbox : (f.filled a).mDataBox.write data = (f.filled (a ++ data)).mDataBox := by
    apply ByteQueue.ext
    rw [ByteQueue.write_bytes (by rw [ha]; exact h), ha,
      filled_bytes (by rw [List.length_append]; exact h)]
  rw [inputData, if_pos hroom, hbox]
  rfl

/-- `n` bytes had arrived, and now `n'` have: what is in front of the bytes held back is taken, or
all of the body. -/
theorem input_step (hfirst : strstr s (delimiter f.mBoundary) = some k)
    (hk : k ≤ ByteBuffer.defaultMaxSize) {n n' : ℕ} (hnn : n ≤ n') (hn' : n' ≤ s.length)
    (hnk : n ≤ k + (delimiter f.mBoundary).length) :
    (f.filled (s.take (n - (delimiter f.mBoundary).length))).input
        ((s.take n').drop (n - (delimiter f.mBoundary).length)) =
      if k + (delimiter f.mBoundary).length < n' then
        (.Finish, (s.take n').drop k, f.filled (s.take k))
      else
        (.NeedMoreData, (s.take n').drop (n' - (delimiter f.mBoundary).length),
          f.filled (s.take (n' - (delimiter f.mBoundary).length))) := by
  have hlen := delimiter_length f.mBoundary
  have hboundary : ∀ data, (f.filled data).mBoundary = f.mBoundary := fun _ => rfl
  obtain ⟨d, hd⟩ : ∃ d, (delimiter f.mBoundary).length = d := ⟨_, rfl⟩
  obtain ⟨m, hm⟩ : ∃ m, n - d = m := ⟨_, rfl⟩
  have hinbox : ((s.take n').drop m).length = n' - m := by
    rw [List.length_drop, List.length_take, Nat.min_eq_left hn']
  -- what is taken goes behind what the field has already
  have htake : ∀ j, m ≤ j → j ≤ k → j ≤ n' →
      (f.filled (s.take m)).inputData (((s.take n').drop m).take (j - m)) =
        (0, f.filled (s.take j)) := by
    intro j hmj hjk hjn
    have hpiece : ((s.take n').drop m).take (j - m) = (s.take j).drop m := by
      rw [← List.drop_take, List.take_take, Nat.min_eq_left hjn]
    have hjoin : s.take m ++ (s.take j).drop m = s.take j := by
      conv_rhs => rw [← List.take_append_drop m (s.take j), List.take_take, Nat.min_eq_left hmj]
    have hfit : (s.take m).length + ((s.take j).drop m).length ≤ ByteBuffer.defaultMaxSize := by
      rw [← List.length_append, hjoin, List.length_take]
      omega
    rw [hpiece, inputData_filled hfit, hjoin]
  rw [hd, hm]
  rw [hd] at hlen hnk
  by_cases hfew : n' - m < 4 + f.mBoundary.length
  · have hzero : n' - d = m := by omega
    have hmore : ¬ k + d < n' := by omega
    rw [if_neg hmore, hzero, input, hinbox, hboundary, if_pos hfew]
  · have hnc : n' - m - 4 - f.mBoundary.length = n' - m - (delimiter f.mBoundary).length := by
      rw [hd]
      omega
    have hfind := find_delimiter (b := f.mBoundary) hfirst (by omega : m ≤ k) hn' (by omega)
    rw [hd] at hnc hfind
    simp only [input, hinbox, hboundary, if_neg hfew, hnc, hfind]
    by_cases hmore : k + d < n'
    · rw [if_pos hmore, if_pos hmore]
      by_cases hpos : k - m > 0
      · simp only [if_pos hpos, htake k (by omega) (Nat.le_refl k) (by omega)]
        simp only [ne_eq, not_true_eq_false, if_false, List.drop_drop]
        rw [Nat.add_sub_cancel' (by omega)]
      · obtain rfl : m = k := by omega
        simp only [if_neg hpos]
    · rw [if_neg hmore, if_neg hmore]
      by_cases hpos : n' - m - d > 0
      · have hj : n' - m - d = n' - d - m := by omega
        simp only [if_pos hpos]
        rw [hj, htake (n' - d) (by omega) (by omega) (by omega)]
        simp only [ne_eq, not_true_eq_false, if_false, List.drop_drop]
        rw [Nat.add_sub_cancel' (by omega)]
      · have hsame : n' - d = m := by omega
        simp only [if_neg hpos, hsame]

end

end HttpFormField

namespace HttpPostHandler

variable {h : HttpPostHandler} {f : HttpFormField} {s : Bytes} {k : ℕ}

/-- The handler with a field that is being received. -/
def receiving (h : HttpPostHandler) (f : HttpFormField) : HttpPostHandler :=
  { h with mState := .WaitFormDataBody, mCurrentField := some f }

/-- The handler with a field that has been received. -/
def received (h : HttpPostHandler) (f : HttpFormField) : HttpPostHandler :=
  { h with mState := .WaitFormDataHeader, mCurrentField := none,
           mFields := h.mFields ++ [{ f with mDataReady := true }] }

theorem round_receiving {inbox : Bytes} (hinbox : inbox ≠ []) :
    (h.receiving f).round inbox = (h.receiving f).waitFormDataBody inbox := by
  rw [round, if_neg hinbox]
  rfl

/-- As long as no byte has come after the delimiter, the field takes what is in front of the bytes
held back. -/
theorem round_waiting (hfirst : strstr s (delimiter f.mBoundary) = some k)
    (hk : k ≤ ByteBuffer.defaultMaxSize) {n n' : ℕ} (hnn : n ≤ n') (hn' : n' ≤ s.length)
    (hnk : n' ≤ k + (delimiter f.mBoundary).length) :
    (h.receiving (f.filled (s.take (n - (delimiter f.mBoundary).length)))).round
        ((s.take n').drop (n - (delimiter f.mBoundary).length)) =
      .ret 0 ((s.take n').drop (n' - (delimiter f.mBoundary).length))
        (h.receiving (f.filled (s.take (n' - (delimiter f.mBoundary).length)))) := by
  by_cases hempty : (s.take n').drop (n - (delimiter f.mBoundary).length) = []
  · have hlen := congrArg List.length hempty
    rw [List.length_drop, List.length_take, Nat.min_eq_left hn', List.length_nil] at hlen
    have hpos : 0 < (delimiter f.mBoundary).length := by
      rw [delimiter_length]
      omega
    have hzero : n' = 0 := by omega
    have hn : n = 0 := by omega
    rw [hempty, round, if_pos rfl, hzero, hn, Nat.zero_sub, List.take_zero, List.drop_nil]
  · have hstep := HttpFormField.input_step hfirst hk hnn hn' (by omega)
    rw [if_neg (by omega)] at hstep
    rw [round_receiving hempty]
    simp only [waitFormDataBody, receiving, hstep]

theorem input_waiting (hfirst : strstr s (delimiter f.mBoundary) = some k)
    (hk : k ≤ ByteBuffer.defaultMaxSize) {n n' : ℕ} (hnn : n ≤ n') (hn' : n' ≤ s.length)
    (hnk : n' ≤ k + (delimiter f.mBoundary).length) :
    (h.receiving (f.filled (s.take (n - (delimiter f.mBoundary).length)))).input
        ((s.take n').drop (n - (delimiter f.mBoundary).length)) =
      some (0, (s.take n').drop (n' - (delimiter f.mBoundary).length),
        h.receiving (f.filled (s.take (n' - (delimiter f.mBoundary).length)))) := by
  rw [input, if_neg (by simp [receiving]), loop, round_waiting hfirst hk hnn hn' hnk]

/-- When a byte has come after the delimiter, the handler has the field. -/
theorem round_received (hfirst : strstr s (delimiter f.mBoundary) = some k)
    (hk : k ≤ ByteBuffer.defaultMaxSize) {n n' : ℕ} (hnn : n ≤ n') (hn' : n' ≤ s.length)
    (hnk : n ≤ k + (delimiter f.mBoundary).length)
    (hmore : k + (delimiter f.mBoundary).length < n') :
    (h.receiving (f.filled (s.take (n - (delimiter f.mBoundary).length)))).round
        ((s.take n').drop (n - (delimiter f.mBoundary).length)) =
      .next ((s.take n').drop k) (h.received (f.filled (s.take k))) := by
  have hstep := HttpFormField.input_step hfirst hk hnn hn' hnk
  rw [if_pos hmore] at hstep
  have hinbox : (s.take n').drop (n - (delimiter f.mBoundary).length) ≠ [] := by
    intro hempty
    have hlen := congrArg List.length hempty
    have hpos : 0 < (delimiter f.mBoundary).length := by
      rw [delimiter_length]
      omega
    rw [List.length_drop, List.length_take, Nat.min_eq_left hn', List.length_nil] at hlen
    omega
  rw [round_receiving hinbox]
  simp only [waitFormDataBody, receiving, hstep, endField, received]

theorem inputs_waiting (hfirst : strstr s (delimiter f.mBoundary) = some k)
    (hk : k ≤ ByteBuffer.defaultMaxSize) (chunks : List Bytes) {n : ℕ} (hn : n ≤ s.length)
    (hchunks : chunks.flatten <+: s.drop n)
    (hnk : n + chunks.flatten.length ≤ k + (delimiter f.mBoundary).length) :
    inputs chunks ((s.take n).drop (n - (delimiter f.mBoundary).length))
        (h.receiving (f.filled (s.take (n - (delimiter f.mBoundary).length)))) =
      some (List.replicate chunks.length 0,
        (s.take (n + chunks.flatten.length)).drop
          (n + chunks.flatten.length - (delimiter f.mBoundary).length),
        h.receiving (f.filled
          (s.take (n + chunks.flatten.length - (delimiter f.mBoundary).length)))) := by
  induction chunks generalizing n with
  | nil => rfl
  | cons c chunks ih =>
      rw [List.flatten_cons] at hchunks hnk ⊢
      rw [List.length_append] at hnk ⊢
      obtain ⟨y, hy⟩ := hchunks
      have hc : c <+: s.drop n := ⟨chunks.flatten ++ y, by rw [← hy, List.append_assoc]⟩
      have hle : n + c.length ≤ s.length := by
        have hlen := hc.length_le
        rw [List.length_drop] at hlen
        omega
      have hjoin : (s.take n).drop (n - (delimiter f.mBoundary).length) ++ c =
          (s.take (n + c.length)).drop (n - (delimiter f.mBoundary).length) := by
        rw [List.prefix_iff_eq_take.mp hc, List.length_take, List.length_drop,
          Nat.min_eq_left (by omega), List.take_add,
          List.drop_append_of_le_length (by rw [List.length_take]; omega)]
      have hrest : chunks.flatten <+: s.drop (n + c.length) := by
        rw [← List.drop_drop, ← hy, List.append_assoc, List.drop_left]
        exact List.prefix_append _ _
      have hone := input_waiting (h := h) hfirst hk (by omega : n ≤ n + c.length) hle (by omega)
      rw [inputs, hjoin, hone]
      dsimp only
      rw [ih hle hrest (by omega), Option.map_some, ← Nat.add_assoc]
      rfl

/-- Among the chunks is one that takes what has arrived over a place. -/
theorem exists_crossing (chunks : List Bytes) {n : ℕ} (hn : n < chunks.flatten.length) :
    ∃ before c after, chunks = before ++ c :: after ∧ before.flatten.length ≤ n ∧
      n < (before ++ [c]).flatten.length := by
  induction chunks generalizing n with
  | nil => simp at hn
  | cons d chunks ih =>
      by_cases hd : n < d.length
      · exact ⟨[], d, chunks, rfl, Nat.zero_le n, by simpa using hd⟩
      · rw [List.flatten_cons, List.length_append] at hn
        obtain ⟨before, c, after, hsplit, hbefore, hafter⟩ := ih (by omega : n - d.length < _)
        refine ⟨d :: before, c, after, by rw [hsplit, List.cons_append], ?_, ?_⟩
        · rw [List.flatten_cons, List.length_append]
          omega
        · rw [List.cons_append, List.flatten_cons, List.length_append]
          omega

/-- Until a byte has come after the delimiter, a field holds back as many bytes as the delimiter
has and takes the others. With that byte it finishes: the handler has the body, and the
delimiter is at the head of the inbox. -/
theorem delivers_body {boundary body rest : Bytes}
    (hfirst : strstr (body ++ delimiter boundary ++ rest) (delimiter boundary) = some body.length)
    (hsize : body.length ≤ ByteBuffer.defaultMaxSize) (fieldName : Bytes) (rangeStart : ℤ)
    (h : HttpPostHandler) (chunks : List Bytes)
    (hchunks : chunks.flatten <+: body ++ delimiter boundary ++ rest) :
    let f := HttpFormField.initField boundary fieldName rangeStart
    (f.filled body).mDataBox.bytes = body ∧
    (chunks.flatten.length ≤ (body ++ delimiter boundary).length →
      ∃ taken kept, taken ++ kept = chunks.flatten ∧
        kept.length = min chunks.flatten.length (delimiter boundary).length ∧
        inputs chunks [] (h.receiving f) =
          some (List.replicate chunks.length 0, kept, h.receiving (f.filled taken))) ∧
    ((body ++ delimiter boundary).length < chunks.flatten.length →
      ∃ before c after taken kept excess, chunks = before ++ c :: after ∧
        before.flatten.length ≤ (body ++ delimiter boundary).length ∧
        taken ++ kept = before.flatten ∧
        inputs before [] (h.receiving f) =
          some (List.replicate before.length 0, kept, h.receiving (f.filled taken)) ∧
        before.flatten ++ c = body ++ delimiter boundary ++ excess ∧ excess ≠ [] ∧
        (f.filled taken).input (kept ++ c) =
          (.Finish, delimiter boundary ++ excess, f.filled body) ∧
        (h.receiving (f.filled taken)).round (kept ++ c) =
          .next (delimiter boundary ++ excess) (h.received (f.filled body))) := by
  intro f
  have hboundary : f.mBoundary = boundary := rfl
  obtain ⟨s, hs⟩ : ∃ s, s = body ++ delimiter boundary ++ rest := ⟨_, rfl⟩
  rw [← hs] at hfirst hchunks
  rw [List.length_append]
  have hbody : s.take body.length = body := by
    rw [hs, List.append_assoc, List.take_left]
  have hwaiting : ∀ before : List Bytes, before.flatten <+: s →
      before.flatten.length ≤ body.length + (delimiter boundary).length →
      ∃ taken kept, taken ++ kept = before.flatten ∧
        taken = s.take (before.flatten.length - (delimiter boundary).length) ∧
        kept = (s.take before.flatten.length).drop
          (before.flatten.length - (delimiter boundary).length) ∧
        inputs before [] (h.receiving f) =
          some (List.replicate before.length 0, kept, h.receiving (f.filled taken)) := by
    intro before hstart hshort
    refine ⟨_, _, ?_, rfl, rfl, ?_⟩
    · conv_rhs => rw [List.prefix_iff_eq_take.mp hstart,
        ← List.take_append_drop (before.flatten.length - (delimiter boundary).length)
          (s.take before.flatten.length), List.take_take, Nat.min_eq_left (Nat.sub_le _ _)]
    · have hrun := inputs_waiting (h := h) (f := f) hfirst hsize before (Nat.zero_le s.length)
        hstart (by rw [Nat.zero_add]; exact hshort)
      rw [Nat.zero_add, Nat.zero_sub, List.take_zero, List.drop_nil, hboundary] at hrun
      exact hrun
  refine ⟨HttpFormField.filled_bytes hsize, fun hshort => ?_, fun hlong => ?_⟩
  · obtain ⟨taken, kept, hjoin, -, hkept, hrun⟩ := hwaiting chunks hchunks hshort
    refine ⟨taken, kept, hjoin, ?_, hrun⟩
    have hle := hchunks.length_le
    rw [hkept, List.length_drop, List.length_take]
    omega
  · obtain ⟨before, c, after, hsplit, hbefore, hafter⟩ := exists_crossing chunks hlong
    have hstart : (before ++ [c]).flatten <+: s := by
      apply List.IsPrefix.trans _ hchunks
      rw [hsplit, List.append_cons before c after]
      exact ⟨after.flatten, List.flatten_append.symm⟩
    rw [List.flatten_append, List.flatten_singleton] at hstart hafter
    have hstart' : before.flatten <+: s := (List.prefix_append _ _).trans hstart
    obtain ⟨taken, kept, hjoin, htaken, hkept, hrun⟩ := hwaiting before hstart' hbefore
    have hinbox : kept ++ c = (s.take (before.flatten ++ c).length).drop
        (before.flatten.length - (delimiter boundary).length) := by
      rw [← List.prefix_iff_eq_take.mp hstart, List.drop_append_of_le_length (Nat.sub_le _ _),
        hkept, ← List.prefix_iff_eq_take.mp hstart']
    have hle : before.flatten.length ≤ (before.flatten ++ c).length := by
      rw [List.length_append]
      omega
    -- what has arrived begins with the body and the delimiter
    obtain ⟨excess, hexcess⟩ : body ++ delimiter boundary <+: before.flatten ++ c := by
      refine @List.prefix_of_prefix_length_le _ _ _ s ?_ hstart ?_
      · rw [hs]
        exact List.prefix_append _ _
      · rw [List.length_append]
        exact Nat.le_of_lt hafter
    have hhead : (s.take (before.flatten ++ c).length).drop body.length =
        delimiter boundary ++ excess := by
      rw [← List.prefix_iff_eq_take.mp hstart, ← hexcess, List.append_assoc, List.drop_left]
    refine ⟨before, c, after, taken, kept, excess, hsplit, hbefore, hjoin, hrun, hexcess.symm,
      ?_, ?_, ?_⟩
    · rintro rfl
      rw [List.append_nil] at hexcess
      rw [← hexcess, List.length_append] at hafter
      omega
    · have hstep := HttpFormField.input_step (f := f) hfirst hsize hle hstart.length_le hbefore
      rw [hboundary, if_pos hafter, hhead, hbody] at hstep
      rw [hinbox, htaken]
      exact hstep
    · have hstep := round_received (h := h) (f := f) hfirst hsize hle hstart.length_le hbefore
        hafter
      rw [hboundary, hhead, hbody] at hstep
      rw [hinbox, htaken]
      exact hstep

/-- The body ends like the start of a delimiter, and the delimiter arrives in pieces. -/
theorem delivers_body_near :
    let f := HttpFormField.initField (ascii "b") (ascii "n") 0
    (f.filled (ascii "x\r\n--")).mDataBox.bytes = ascii "x\r\n--" ∧
    ∃ before c after taken kept excess,
      [ascii "x\r\n--\r\n", ascii "--", ascii "b\r", ascii "\n"] = before ++ c :: after ∧
        before.flatten.length ≤ (ascii "x\r\n--" ++ delimiter (ascii "b")).length ∧
        taken ++ kept = before.flatten ∧
        inputs before [] (receiving {} f) =
          some (List.replicate before.length 0, kept, receiving {} (f.filled taken)) ∧
        before.flatten ++ c = ascii "x\r\n--" ++ delimiter (ascii "b") ++ excess ∧ excess ≠ [] ∧
        (f.filled taken).input (kept ++ c) =
          (.Finish, delimiter (ascii "b") ++ excess, f.filled (ascii "x\r\n--")) ∧
        (receiving {} (f.filled taken)).round (kept ++ c) =
          .next (delimiter (ascii "b") ++ excess) (received {} (f.filled (ascii "x\r\n--"))) :=
  have hfirst := @first_delimiter (ascii "b") (ascii "x\r\n--") (by decide +kernel)
    (by decide +kernel) (ascii "\r\n")
  have hmain := delivers_body hfirst (by decide +kernel) (ascii "n") 0 {}
    [ascii "x\r\n--\r\n", ascii "--", ascii "b\r", ascii "\n"] (by decide +kernel)
  ⟨hmain.1, hmain.2.2 (by decide +kernel)⟩

/-- A boundary with `\r` at its end can begin in a body that has no delimiter in it. -/
theorem delivers_body_overlap :
    ¬ delimiter [13] <:+: [13, 10, 45, 45] ∧
      (HttpFormField.initField [13] (ascii "n") 0).input
        ([13, 10, 45, 45] ++ delimiter [13] ++ [10])
        = (.Finish, [13, 10, 45, 45] ++ delimiter [13] ++ [10],
            .initField [13] (ascii "n") 0) := by
  decide +kernel

end HttpPostHandler
end CoreLooper.Http
