import CoreLooper.HttpDownload
import CoreLooper.Transitions

/-!
# Answers of downloads

A download answers once, when it is destroyed, and nothing changes it later. An answer without an
error to a download to a file means that the file got its name, if it could. The loop over the inbox
ends with every piece, although it compares the inbox with what there was at first.
-/
namespace CoreLooper.Http.HttpGet
open CStrings Transitions

section
variable (s : HttpGet)

/-- With the header: the body by its length, the body as it is, the end of the chunks seen, or the
wait for the first size. -/
theorem onHeader_cases (ps : Bytes) (pEnd key : ℕ) : ∃ code length,
    let t : HttpGet := { s with mHttpAckCode := code, mContentLength := length }
    let u := { t with mChunked := true }.eat (pEnd + key)
    s.onHeader ps pEnd key = ((t.switchStatus .receivingBody).eatHeader (pEnd + key), true) ∨
    s.onHeader ps pEnd key = ((t.noLength ps pEnd (pEnd + key)).eatHeader (pEnd + key), true) ∨
    s.onHeader ps pEnd key = ((u.writeBody u.mInbox).switchStatus .done, false) ∨
    s.onHeader ps pEnd key = (u.switchStatus .receivingChunkedLength, false) := by
  refine ⟨ackCode (ps.take pEnd), lengthOf (ackHeaders (ps.take (pEnd + key))), ?_⟩
  unfold onHeader
  dsimp only
  by_cases hlength : lengthOf (ackHeaders (ps.take (pEnd + key))) > 0
  · rw [if_pos hlength]
    exact Or.inl rfl
  · rw [if_neg hlength]
    refine Or.inr ?_
    by_cases hfound : findChunked ps = true
    · rw [if_pos hfound, if_pos rfl]
      refine Or.inr ?_
      split_ifs
      · exact Or.inl rfl
      · exact Or.inr rfl
    · rw [if_neg hfound]
      by_cases hchunked : s.mChunked = true
      · rw [if_pos hchunked, ← hchunked]
        refine Or.inr ?_
        split_ifs
        · exact Or.inl rfl
        · exact Or.inr rfl
      · rw [if_neg hchunked]
        exact Or.inl rfl

theorem strtolHex_bounds (text : Bytes) :
    -2 ^ 63 ≤ (strtolHex text).1 ∧ (strtolHex text).1 < 2 ^ 63 := by
  unfold strtolHex
  dsimp only
  split_ifs
  · exact ⟨by norm_num, by norm_num⟩
  · exact ⟨le_max_right _ _, by omega⟩
  · exact ⟨by omega, by omega⟩

/-- With the line of a size: nothing, the end, or a chunk, of which an end may be seen. -/
theorem sizeLine_cases : s.sizeLine = (s, false) ∨
    s.sizeLine = ({ s with mInbox := [] }.switchStatus .done, false) ∨
    ∃ pos bytes, pos + 2 ≤ s.mInbox.length ∧ 0 < bytes ∧ bytes < 2 ^ 64 ∧
      let t : HttpGet := { s with
        mInbox := s.mInbox.drop (pos + 2)
        mChunkedBytes := bytes
        mChunkedReceivedBytes := 0 }
      (s.sizeLine = ((t.writeBody t.mInbox).switchStatus .done, false) ∨
        s.sizeLine = (t.switchStatus .receivingChunkedBody, true)) := by
  unfold sizeLine
  dsimp only
  cases hfound : strstr (cstr s.mInbox) [13, 10] with
  | none => exact Or.inl rfl
  | some pos =>
      dsimp only
      have hpos : pos + 2 ≤ s.mInbox.length :=
        (strstr_add_length_le hfound).trans (cstr_starts s.mInbox).length_le
      by_cases hthree : s.mInbox.length < 3
      · rw [if_pos hthree]
        exact Or.inl rfl
      · rw [if_neg hthree]
        refine Or.inr ?_
        by_cases hzero : (strtolHex (cstr s.mInbox)).1 = 0
        · rw [if_pos hzero]
          exact Or.inl rfl
        · obtain ⟨hlow, hhigh⟩ := strtolHex_bounds (cstr s.mInbox)
          rw [if_neg hzero, eat, if_neg (Nat.not_lt_of_le hpos)]
          refine Or.inr ⟨pos, ((strtolHex (cstr s.mInbox)).1 % 2 ^ 64).toNat, hpos, by omega,
            by omega, ?_⟩
          split_ifs
          · exact Or.inl rfl
          · exact Or.inr rfl

/-- A line is read, with the line end in front of it or without, or waited for. -/
theorem chunkedLength_cases : s.chunkedLength = (s, false) ∨ ∃ inbox double,
    inbox.length ≤ s.mInbox.length ∧
      s.chunkedLength = { s with mInbox := inbox, mChunkedDoubleCRLF := double }.sizeLine := by
  unfold chunkedLength
  by_cases hdouble : s.mChunkedDoubleCRLF = true
  · rw [if_pos hdouble]
    by_cases hshort : s.mInbox.length < 5 ∨ strstr (cstr (s.mInbox.drop 2)) [13, 10] = none
    · rw [if_pos hshort]
      exact Or.inl rfl
    · rw [if_neg hshort, eat, if_neg (by omega)]
      exact Or.inr ⟨s.mInbox.drop 2, false, by simp, rfl⟩
  · rw [if_neg hdouble]
    exact Or.inr ⟨s.mInbox, s.mChunkedDoubleCRLF, Nat.le_refl _, rfl⟩

/-- Of a chunk something is written, if something has come and is missing. -/
theorem chunkedBody_cases : ∃ t : HttpGet,
    (t = s ∧ (s.mInbox = [] ∨
        (s.mChunkedBytes + 2 ^ 64 - s.mChunkedReceivedBytes) % 2 ^ 64 = 0) ∨
      ∃ bytes, 0 < bytes ∧ bytes ≤ s.mInbox.length ∧
        t = (s.onRecvHttpAckBody (s.mInbox.take bytes)).eat bytes) ∧
    s.chunkedBody = if t.mChunkedReceivedBytes = t.mChunkedBytes then
      { t with
        mChunkedBytes := 0
        mChunkedReceivedBytes := 0
        mChunkedDoubleCRLF := true }.switchStatus .receivingChunkedLength
      else t := by
  unfold chunkedBody
  dsimp only
  by_cases heat : min s.mInbox.length
      ((s.mChunkedBytes + 2 ^ 64 - s.mChunkedReceivedBytes) % 2 ^ 64) > 0
  · rw [if_pos heat]
    exact ⟨_, Or.inr ⟨_, heat, Nat.min_le_left _ _, rfl⟩, rfl⟩
  · rw [if_neg heat]
    refine ⟨s, Or.inl ⟨rfl, ?_⟩, rfl⟩
    by_cases hempty : s.mInbox = []
    · exact Or.inl hempty
    · have hpos := List.length_pos_iff.mpr hempty
      exact Or.inr (by omega)

theorem destroy_eq : ∃ destroyed signaled acks, s.destroy =
    { s with isDestroyed := destroyed, mSignaled := signaled, acks := acks } := by
  unfold destroy signal
  split_ifs
  · exact ⟨_, _, _, rfl⟩
  · exact ⟨_, _, _, rfl⟩
  · exact ⟨_, _, _, rfl⟩

theorem switchStatus_cases (status : HttpAckStatus) :
    ∃ file saved body destroyed signaled acks, s.switchStatus status = { s with
      mHttpAckStatus := status
      mFile := file
      saved := saved
      mAckBody := body
      isDestroyed := destroyed
      mSignaled := signaled
      acks := acks } := by
  by_cases hdone : status = .done
  · unfold switchStatus
    rw [if_pos hdone]
    dsimp only
    obtain ⟨destroyed, signaled, acks, heq⟩ := destroy_eq (signal 0 (if s.mFile.isSome = true then
      { s with
        mHttpAckStatus := status
        mFile := none
        saved := if s.renames then s.mFile else none
        mAckBody := s.mSaveAsFilePath }
      else { s with mHttpAckStatus := status }))
    rw [heq]
    unfold signal
    split_ifs <;> exact ⟨_, _, _, _, _, _, rfl⟩
  · rw [switchStatus_eq hdone]
    exact ⟨_, _, _, _, _, _, rfl⟩

/-- What is written changes the status only if no chunks were announced. -/
theorem onRecv_cases (data : Bytes) : ∃ status file saved body destroyed signaled acks,
    (status = s.mHttpAckStatus ∨ s.mChunked = false ∧ status = .done) ∧
    s.onRecvHttpAckBody data = { s with
      mChunkedReceivedBytes := (s.mChunkedReceivedBytes + data.length) % 2 ^ 64
      mHttpAckStatus := status
      mFile := file
      saved := saved
      mAckBody := body
      isDestroyed := destroyed
      mSignaled := signaled
      acks := acks } := by
  unfold onRecvHttpAckBody
  dsimp only
  split
  · split_ifs with hcode hwritten hdone
    · obtain ⟨_, _, _, heq⟩ := destroy_eq _
      rw [heq]
      exact ⟨_, _, _, _, _, _, _, Or.inl rfl, rfl⟩
    · obtain ⟨_, _, _, heq⟩ := destroy_eq _
      rw [heq]
      exact ⟨_, _, _, _, _, _, _, Or.inl rfl, rfl⟩
    · obtain ⟨_, _, _, _, _, _, heq⟩ := switchStatus_cases _ .done
      rw [heq]
      exact ⟨_, _, _, _, _, _, _, Or.inr ⟨hdone.1, rfl⟩, rfl⟩
    · exact ⟨_, _, _, _, _, _, _, Or.inl rfl, rfl⟩
  · split_ifs with hdone
    · obtain ⟨_, _, _, _, _, _, heq⟩ := switchStatus_cases _ .done
      rw [heq]
      exact ⟨_, _, _, _, _, _, _, Or.inr ⟨hdone.1, rfl⟩, rfl⟩
    · exact ⟨_, _, _, _, _, _, _, Or.inl rfl, rfl⟩

end

/-- One answer was given. One without an error comes with the file, if it could get its name. -/
def Answered (path : Bytes) (s : HttpGet) : Prop :=
  ∃ error body, s.acks = [(error, body)] ∧
    (error = -1 ∨ error = 0 ∧ (path ≠ [] → body = path ∧ (s.renames = true → s.saved.isSome)))

/-- The connection is there, and the file if one is written, until the answer is given. -/
structure Answers (path : Bytes) (s : HttpGet) : Prop where
  path_eq : s.mSaveAsFilePath = path
  connected : s.isDestroyed = false → s.mWaitFirstEvent = false
  file : s.isDestroyed = false → path ≠ [] → s.mFile.isSome
  signaled : s.mSignaled = s.isDestroyed
  early : s.isDestroyed = false → s.acks = []
  late : s.isDestroyed = true → Answered path s

section
variable {path : Bytes} {s : HttpGet}

/-- Reading changes nothing of it. -/
theorem Answers.update (h : Answers path s) (inbox : Bytes) (status : HttpAckStatus) (code : ℤ)
    (length : ℕ) (body : Bytes) (chunked double : Bool) (bytes receivedBytes : ℕ)
    (received : Bytes) :
    Answers path { s with
      mInbox := inbox
      mHttpAckStatus := status
      mHttpAckCode := code
      mContentLength := length
      mAckBody := body
      mChunked := chunked
      mChunkedDoubleCRLF := double
      mChunkedBytes := bytes
      mChunkedReceivedBytes := receivedBytes
      received := received } :=
  ⟨h.path_eq, h.connected, h.file, h.signaled, h.early, h.late⟩

theorem Answers.write (h : Answers path s) (file : Bytes) :
    Answers path { s with mFile := some file } :=
  ⟨h.path_eq, h.connected, fun _ _ => rfl, h.signaled, h.early, h.late⟩

theorem Answered.answers (h : Answered path s) (hpath : s.mSaveAsFilePath = path)
    (hdestroyed : s.isDestroyed = true) (hsignaled : s.mSignaled = true) : Answers path s := by
  have hnot : s.isDestroyed ≠ false := by simp [hdestroyed]
  exact ⟨hpath, fun halive => absurd halive hnot, fun halive => absurd halive hnot,
    hsignaled.trans hdestroyed.symm, fun halive => absurd halive hnot, fun _ => h⟩

/-- A download without an answer is destroyed. -/
theorem answers_destroy (hpath : s.mSaveAsFilePath = path) (halive : s.isDestroyed = false)
    (hsignaled : s.mSignaled = false) (hacks : s.acks = []) : Answers path s.destroy := by
  rw [HttpGet.destroy, if_neg (by simp [halive]), signal, if_neg (by simp [hsignaled])]
  refine Answered.answers ⟨-1, s.mAckBody, ?_, Or.inl rfl⟩ hpath rfl rfl
  rw [hacks]
  rfl

theorem Answers.destroy (h : Answers path s) : Answers path s.destroy := by
  cases halive : s.isDestroyed with
  | true =>
      rw [HttpGet.destroy, if_pos halive]
      exact h
  | false => exact answers_destroy h.path_eq halive (h.signaled.trans halive) (h.early halive)

/-- The file that was written gets its name, if it can. -/
theorem isSome_named (hfile : s.mFile.isSome) (hrenames : s.renames = true) :
    (if s.renames then s.mFile else none).isSome := by
  rw [if_pos hrenames]
  exact hfile

theorem Answers.named (h : Answers path s) (hdestroyed : s.isDestroyed = true) (file : Option Bytes)
    (body : Bytes) (hfile : s.mFile.isSome) :
    Answers path { s with
      mFile := file
      saved := if s.renames then s.mFile else none
      mAckBody := body } := by
  obtain ⟨error, answer, hacks, hkind⟩ := h.late hdestroyed
  refine ⟨h.path_eq, h.connected, fun halive => ?_, h.signaled, h.early,
    fun _ => ⟨error, answer, hacks, hkind.imp_right fun hok => ⟨hok.1, fun hpath =>
      ⟨(hok.2 hpath).1, isSome_named hfile⟩⟩⟩⟩
  rw [hdestroyed] at halive
  cases halive

theorem Answers.done (h : Answers path s) : Answers path (s.switchStatus .done) := by
  unfold HttpGet.switchStatus
  rw [if_pos rfl]
  dsimp only
  by_cases hdestroyed : s.isDestroyed = true
  · have hsignaled : s.mSignaled = true := h.signaled.trans hdestroyed
    by_cases hfile : s.mFile.isSome = true
    · rw [if_pos hfile, signal, if_pos hsignaled, HttpGet.destroy, if_pos hdestroyed]
      exact (h.named hdestroyed none s.mSaveAsFilePath hfile).update _ _ _ _ _ _ _ _ _ _
    · rw [if_neg hfile, signal, if_pos hsignaled, HttpGet.destroy, if_pos hdestroyed]
      exact h.update _ _ _ _ _ _ _ _ _ _
  · have halive : s.isDestroyed = false := by simpa using hdestroyed
    have hsignaled : ¬ s.mSignaled = true := by rwa [h.signaled]
    by_cases hfile : s.mFile.isSome = true
    · rw [if_pos hfile, signal, if_neg hsignaled, HttpGet.destroy, if_neg hdestroyed, signal,
        if_pos rfl]
      refine Answered.answers ⟨0, s.mSaveAsFilePath, ?_,
        Or.inr ⟨rfl, fun _ => ⟨h.path_eq, isSome_named hfile⟩⟩⟩ h.path_eq rfl rfl
      rw [h.early halive]
      rfl
    · have hpath : path = [] := by
        by_contra hne
        exact hfile (h.file halive hne)
      rw [if_neg hfile, signal, if_neg hsignaled, HttpGet.destroy, if_neg hdestroyed, signal,
        if_pos rfl]
      refine Answered.answers ⟨0, s.mAckBody, ?_, Or.inr ⟨rfl, fun hne => absurd hpath hne⟩⟩
        h.path_eq rfl rfl
      rw [h.early halive]
      rfl

theorem Answers.switchStatus (h : Answers path s) (status : HttpAckStatus) :
    Answers path (s.switchStatus status) := by
  by_cases hdone : status = .done
  · rw [hdone]
    exact h.done
  · rw [switchStatus_eq hdone]
    exact h.update _ _ _ _ _ _ _ _ _ _

theorem Answers.onRecv (h : Answers path s) (data : Bytes) :
    Answers path (s.onRecvHttpAckBody data) := by
  have hread := h.update s.mInbox s.mHttpAckStatus s.mHttpAckCode s.mContentLength s.mAckBody
    s.mChunked s.mChunkedDoubleCRLF s.mChunkedBytes
    ((s.mChunkedReceivedBytes + data.length) % 2 ^ 64) s.received
  unfold onRecvHttpAckBody
  dsimp only
  split
  · split_ifs
    · exact hread.destroy
    · exact (hread.write _).destroy
    · exact (hread.write _).done
    · exact hread.write _
  · split_ifs
    · exact (hread.update _ _ _ _ _ _ _ _ _ _).done
    · exact hread.update _ _ _ _ _ _ _ _ _ _

theorem Answers.eat (h : Answers path s) (bytes : ℕ) : Answers path (s.eat bytes) := by
  unfold HttpGet.eat
  split_ifs
  · exact h
  · exact h.update _ _ _ _ _ _ _ _ _ _

theorem Answers.eatHeader (h : Answers path s) (bytes : ℕ) :
    Answers path (s.eatHeader bytes) := by
  unfold HttpGet.eatHeader
  dsimp only
  split_ifs
  · exact h.eat bytes
  · exact ((h.eat bytes).onRecv _).update _ _ _ _ _ _ _ _ _ _

theorem Answers.noLength (h : Answers path s) (ps : Bytes) (pEnd eat : ℕ) :
    Answers path (s.noLength ps pEnd eat) := by
  unfold HttpGet.noLength
  dsimp only
  split_ifs
  · exact (h.update _ _ _ _ _ _ _ _ _ _).switchStatus _
  · exact (h.update _ _ _ _ _ _ _ _ _ _).switchStatus _
  · exact h.switchStatus _

theorem Answers.waitHeader (h : Answers path s) : Answers path s.waitHeader.1 := by
  have hheader : ∀ ps pEnd key, Answers path (s.onHeader ps pEnd key).1 := by
    intro ps pEnd key
    obtain ⟨code, length, hcases⟩ := s.onHeader_cases ps pEnd key
    have hread := h.update s.mInbox s.mHttpAckStatus code length s.mAckBody s.mChunked
      s.mChunkedDoubleCRLF s.mChunkedBytes s.mChunkedReceivedBytes s.received
    have hchunked := (hread.update s.mInbox s.mHttpAckStatus code length s.mAckBody true
      s.mChunkedDoubleCRLF s.mChunkedBytes s.mChunkedReceivedBytes s.received).eat (pEnd + key)
    rcases hcases with heq | heq | heq | heq
    · rw [heq]
      exact (hread.switchStatus _).eatHeader _
    · rw [heq]
      exact (hread.noLength _ _ _).eatHeader _
    · rw [heq]
      dsimp only
      exact (hchunked.update _ _ _ _ _ _ _ _ _ _).switchStatus _
    · rw [heq]
      dsimp only
      exact hchunked.switchStatus _
  unfold HttpGet.waitHeader
  dsimp only
  split
  · exact hheader _ _ _
  · split
    · exact hheader _ _ _
    · exact h

theorem Answers.sizeLine (h : Answers path s) : Answers path s.sizeLine.1 := by
  rcases s.sizeLine_cases with heq | heq | ⟨pos, bytes, -, -, -, heq | heq⟩
  · rw [heq]
    exact h
  · rw [heq]
    dsimp only
    exact (h.update _ _ _ _ _ _ _ _ _ _).switchStatus _
  · rw [heq]
    dsimp only
    exact (h.update _ _ _ _ _ _ _ _ _ _).switchStatus _
  · rw [heq]
    dsimp only
    exact (h.update _ _ _ _ _ _ _ _ _ _).switchStatus _

theorem Answers.chunkedLength (h : Answers path s) : Answers path s.chunkedLength.1 := by
  rcases s.chunkedLength_cases with heq | ⟨inbox, double, -, heq⟩
  · rw [heq]
    exact h
  · rw [heq]
    exact (h.update _ _ _ _ _ _ _ _ _ _).sizeLine

theorem Answers.chunkedBody (h : Answers path s) : Answers path s.chunkedBody := by
  obtain ⟨t, ht, heq⟩ := s.chunkedBody_cases
  have hall : Answers path t := by
    rcases ht with ⟨rfl, -⟩ | ⟨bytes, -, -, rfl⟩
    · exact h
    · exact (h.onRecv _).eat _
  rw [heq]
  split_ifs
  · exact (hall.update _ _ _ _ _ _ _ _ _ _).switchStatus _
  · exact hall

theorem Answers.turn (h : Answers path s) : Answers path s.turn.1 := by
  unfold HttpGet.turn
  split
  · exact h.waitHeader
  · exact h.chunkedLength
  · exact h.chunkedBody
  · exact (h.onRecv _).update _ _ _ _ _ _ _ _ _ _
  · exact h

end

/-- The parser is in the chunks. -/
def InChunks (s : HttpGet) : Prop :=
  s.mHttpAckStatus = .receivingChunkedLength ∨ s.mHttpAckStatus = .receivingChunkedBody

theorem length_ne_body : HttpAckStatus.receivingChunkedLength ≠ .receivingChunkedBody := by decide

/-- In the chunks, chunks were announced, and in a chunk something of it is missing. -/
structure Reads (s : HttpGet) : Prop where
  chunked : InChunks s → s.mChunked = true
  missing : s.mHttpAckStatus = .receivingChunkedBody → s.mChunkedReceivedBytes ≠ s.mChunkedBytes
  bytes_lt : s.mChunkedBytes < 2 ^ 64
  received_lt : s.mChunkedReceivedBytes < 2 ^ 64

/-- A turn of the loop after which it ends, or that read something in the chunks. -/
structure Turned (s : HttpGet) (r : HttpGet × Bool) : Prop where
  reads : Reads r.1
  shorter : r.2 = true → r.1.mInbox ≠ [] →
    r.1 = s ∧ ¬ InChunks s ∨ InChunks r.1 ∧ r.1.mInbox.length < s.mInbox.length

section
variable {s s' : HttpGet}

theorem Turned.stop (h : Reads s') : Turned s (s', false) := ⟨h, fun ht => by cases ht⟩

theorem Turned.emptied (h : Reads s') (hempty : s'.mInbox = []) (goesOn : Bool) :
    Turned s (s', goesOn) :=
  ⟨h, fun _ hne => absurd hempty hne⟩

/-- With a status outside the chunks. -/
theorem Reads.outside (h : Reads s) (hnot : ¬ InChunks s')
    (hbytes : s'.mChunkedBytes = s.mChunkedBytes)
    (hreceived : s'.mChunkedReceivedBytes < 2 ^ 64) : Reads s' := by
  refine ⟨fun hin => absurd hin hnot, fun hbody => absurd (Or.inr hbody) hnot, ?_, hreceived⟩
  rw [hbytes]
  exact h.bytes_lt

theorem eat_eq (s : HttpGet) (bytes : ℕ) : ∃ inbox, s.eat bytes = { s with mInbox := inbox } := by
  unfold eat
  split_ifs
  · exact ⟨_, rfl⟩
  · exact ⟨_, rfl⟩

theorem Reads.eatHeader (h : Reads s) (hnot : ¬ InChunks s) (bytes : ℕ) :
    Reads (s.eatHeader bytes) ∧ (s.eatHeader bytes).mInbox = [] := by
  obtain ⟨inbox, heat⟩ := s.eat_eq bytes
  unfold HttpGet.eatHeader
  rw [heat]
  dsimp only
  split_ifs with hempty
  · exact ⟨⟨h.chunked, h.missing, h.bytes_lt, h.received_lt⟩, hempty⟩
  · obtain ⟨status, file, saved, body, destroyed, signaled, acks, hstatus, heq⟩ :=
      onRecv_cases { s with mInbox := inbox } inbox
    rw [heq]
    refine ⟨h.outside ?_ rfl (Nat.mod_lt _ (by norm_num)), rfl⟩
    rcases hstatus with hsame | ⟨-, hdone⟩
    · rw [InChunks, hsame]
      exact hnot
    · rw [InChunks, hdone]
      simp

theorem not_inChunks_switch {status : HttpAckStatus} (hlength : status ≠ .receivingChunkedLength)
    (hbody : status ≠ .receivingChunkedBody) : ¬ InChunks (s.switchStatus status) := by
  obtain ⟨_, _, _, _, _, _, heq⟩ := s.switchStatus_cases status
  rw [heq]
  exact not_or.mpr ⟨hlength, hbody⟩

theorem reads_switch {status : HttpAckStatus} (hlength : status ≠ .receivingChunkedLength)
    (hbody : status ≠ .receivingChunkedBody) (hbytes : s.mChunkedBytes < 2 ^ 64)
    (hreceived : s.mChunkedReceivedBytes < 2 ^ 64) : Reads (s.switchStatus status) := by
  have hnot := not_or.mpr ⟨hlength, hbody⟩
  obtain ⟨_, _, _, _, _, _, heq⟩ := s.switchStatus_cases status
  rw [heq]
  exact ⟨fun hin => absurd hin hnot, fun hin => absurd hin hbody, hbytes, hreceived⟩

theorem Reads.noLength (h : Reads s) (ps : Bytes) (pEnd eat : ℕ) :
    Reads (s.noLength ps pEnd eat) ∧ ¬ InChunks (s.noLength ps pEnd eat) := by
  unfold HttpGet.noLength
  dsimp only
  split_ifs
  · exact ⟨reads_switch (by simp) (by simp) h.bytes_lt h.received_lt,
      not_inChunks_switch (by simp) (by simp)⟩
  · exact ⟨reads_switch (by simp) (by simp) h.bytes_lt h.received_lt,
      not_inChunks_switch (by simp) (by simp)⟩
  · exact ⟨reads_switch (by simp) (by simp) h.bytes_lt h.received_lt,
      not_inChunks_switch (by simp) (by simp)⟩

theorem Reads.onHeader (h : Reads s) (ps : Bytes) (pEnd key : ℕ) :
    Turned s (s.onHeader ps pEnd key) := by
  obtain ⟨code, length, hcases⟩ := s.onHeader_cases ps pEnd key
  have hread : Reads { s with mHttpAckCode := code, mContentLength := length } :=
    ⟨h.chunked, h.missing, h.bytes_lt, h.received_lt⟩
  obtain ⟨inbox, heat⟩ := eat_eq { s with
    mHttpAckCode := code, mContentLength := length, mChunked := true } (pEnd + key)
  rcases hcases with heq | heq | heq | heq
  · have hstatus : Reads ({ s with
        mHttpAckCode := code, mContentLength := length }.switchStatus .receivingBody) :=
      reads_switch (by simp) (by simp) h.bytes_lt h.received_lt
    obtain ⟨hall, hempty⟩ :=
      hstatus.eatHeader (not_inChunks_switch (by simp) (by simp)) (pEnd + key)
    rw [heq]
    exact .emptied hall hempty true
  · obtain ⟨hlater, hnot⟩ := hread.noLength ps pEnd (pEnd + key)
    obtain ⟨hall, hempty⟩ := hlater.eatHeader hnot (pEnd + key)
    rw [heq]
    exact .emptied hall hempty true
  · rw [heq, heat]
    exact .stop (reads_switch (by simp) (by simp) h.bytes_lt h.received_lt)
  · rw [heq, heat, switchStatus_eq (by simp)]
    exact .stop ⟨fun _ => rfl, fun hbody => absurd hbody length_ne_body, h.bytes_lt,
      h.received_lt⟩

theorem Reads.waitHeader (h : Reads s) (hstatus : s.mHttpAckStatus = .waitHeader) :
    Turned s s.waitHeader := by
  unfold HttpGet.waitHeader
  dsimp only
  split
  · exact h.onHeader _ _ _
  · split
    · exact h.onHeader _ _ _
    · refine ⟨h, fun _ _ => Or.inl ⟨rfl, ?_⟩⟩
      rw [InChunks, hstatus]
      simp

theorem Reads.sizeLine (h : Reads s) (hstatus : s.mHttpAckStatus = .receivingChunkedLength) :
    Turned s s.sizeLine := by
  have hchunked := h.chunked (Or.inl hstatus)
  have hzero : 0 < 2 ^ 64 := by norm_num
  rcases s.sizeLine_cases with heq | heq | ⟨pos, bytes, hpos, hbytes, hlong, heq | heq⟩
  · rw [heq]
    exact .stop h
  · rw [heq]
    exact .stop (reads_switch (by simp) (by simp) h.bytes_lt h.received_lt)
  · rw [heq]
    exact .stop (reads_switch (by simp) (by simp) hlong hzero)
  · rw [heq, switchStatus_eq (by simp)]
    refine ⟨⟨fun _ => hchunked, fun _ => Nat.ne_of_lt hbytes, hlong, hzero⟩, fun _ _ =>
      Or.inr ⟨Or.inr rfl, ?_⟩⟩
    rw [List.length_drop]
    omega

theorem Reads.chunkedLength (h : Reads s) (hstatus : s.mHttpAckStatus = .receivingChunkedLength) :
    Turned s s.chunkedLength := by
  rcases s.chunkedLength_cases with heq | ⟨inbox, double, hinbox, heq⟩
  · rw [heq]
    exact .stop h
  · have hturned := Reads.sizeLine (s := { s with mInbox := inbox, mChunkedDoubleCRLF := double })
      ⟨h.chunked, h.missing, h.bytes_lt, h.received_lt⟩ hstatus
    rw [heq]
    refine ⟨hturned.reads, fun hgoes hne => Or.inr ?_⟩
    rcases hturned.shorter hgoes hne with ⟨-, hnot⟩ | ⟨hin, hshort⟩
    · exact absurd (Or.inl hstatus) hnot
    · exact ⟨hin, lt_of_lt_of_le hshort hinbox⟩

theorem Reads.chunkedBody (h : Reads s) (hstatus : s.mHttpAckStatus = .receivingChunkedBody)
    (hne : s.mInbox ≠ []) : Turned s (s.chunkedBody, true) := by
  have hchunked := h.chunked (Or.inr hstatus)
  have hmissing := h.missing hstatus
  have hlt := h.bytes_lt
  have hlt' := h.received_lt
  obtain ⟨t, ht, hcases⟩ := s.chunkedBody_cases
  rcases ht with ⟨-, hnone⟩ | ⟨bytes, hpos, hlen, rfl⟩
  · exact absurd hnone (not_or.mpr ⟨hne, by omega⟩)
  · obtain ⟨status, file, saved, body, destroyed, signaled, acks, hsame, heq⟩ :=
      s.onRecv_cases (s.mInbox.take bytes)
    have hbody : status = .receivingChunkedBody := by
      rcases hsame with hsame | ⟨hfalse, -⟩
      · rw [hsame, hstatus]
      · rw [hchunked] at hfalse
        cases hfalse
    have hshort : (s.mInbox.drop bytes).length < s.mInbox.length := by
      rw [List.length_drop]
      omega
    rw [heq, eat, if_neg (Nat.not_lt_of_le hlen)] at hcases
    rw [hcases]
    split_ifs with hall
    · rw [switchStatus_eq (by simp)]
      exact ⟨⟨fun _ => hchunked, fun hnext => absurd hnext length_ne_body, by norm_num,
        by norm_num⟩,
        fun _ _ => Or.inr ⟨Or.inl rfl, hshort⟩⟩
    · exact ⟨⟨fun _ => hchunked, fun _ => hall, hlt, Nat.mod_lt _ (by norm_num)⟩,
        fun _ _ => Or.inr ⟨Or.inr hbody, hshort⟩⟩

theorem Reads.turn (h : Reads s) (hne : s.mInbox ≠ []) : Turned s s.turn := by
  unfold HttpGet.turn
  split
  next hstatus => exact h.waitHeader hstatus
  next hstatus => exact h.chunkedLength hstatus
  next hstatus => exact h.chunkedBody hstatus hne
  next hstatus =>
    obtain ⟨status, file, saved, body, destroyed, signaled, acks, hsame, heq⟩ :=
      s.onRecv_cases s.mInbox
    rw [heq]
    apply Turned.emptied
    · apply h.outside
      · rcases hsame with hsame | ⟨-, hdone⟩
        · rw [InChunks, hsame, hstatus]
          simp
        · rw [InChunks, hdone]
          simp
      · rfl
      · exact Nat.mod_lt _ (by norm_num)
    · rfl
  next hstatus =>
    refine ⟨h, fun _ _ => Or.inl ⟨rfl, ?_⟩⟩
    rw [InChunks, hstatus]
    simp

/-- By induction on what is left in the inbox: in the chunks every turn reads something. -/
theorem Reads.parseLoop (h : Reads s) (hin : InChunks s) (hne : s.mInbox ≠ []) (leftBytes : ℕ)
    {fuel : ℕ} (hfuel : s.mInbox.length < fuel) :
    ∃ s', s.parseLoop leftBytes fuel = some s' ∧ Reads s' := by
  induction fuel generalizing s with
  | zero => exact absurd hfuel (Nat.not_lt_zero _)
  | succ fuel ih =>
      have hturned := h.turn hne
      rw [HttpGet.parseLoop]
      by_cases hstop : s.turn.2 = false ∨ s.turn.1.mInbox.length = leftBytes ∨ s.turn.1.mInbox = []
      · exact ⟨_, if_pos hstop, hturned.reads⟩
      · obtain ⟨hgoes, hlen⟩ := not_or.mp hstop
        have hleft := (not_or.mp hlen).2
        rcases hturned.shorter (by simpa using hgoes) hleft with ⟨-, hnot⟩ | ⟨hin', hshort⟩
        · exact absurd hin hnot
        · obtain ⟨s', hs', hreads⟩ := ih hturned.reads hin' hleft (by omega)
          exact ⟨s', (if_neg hstop).trans hs', hreads⟩

theorem Reads.parseInbox (h : Reads s) (hne : s.mInbox ≠ []) :
    ∃ s', s.parseInbox = some s' ∧ Reads s' := by
  have hturned := h.turn hne
  rw [HttpGet.parseInbox, HttpGet.parseLoop]
  by_cases hstop : s.turn.2 = false ∨ s.turn.1.mInbox.length = s.mInbox.length ∨
      s.turn.1.mInbox = []
  · exact ⟨_, if_pos hstop, hturned.reads⟩
  · obtain ⟨hgoes, hlen⟩ := not_or.mp hstop
    obtain ⟨hlong, hleft⟩ := not_or.mp hlen
    rcases hturned.shorter (by simpa using hgoes) hleft with ⟨hsame, -⟩ | ⟨hin, hshort⟩
    · rw [hsame] at hlong
      exact absurd rfl hlong
    · obtain ⟨s', hs', hreads⟩ := hturned.reads.parseLoop hin hleft s.mInbox.length hshort
      exact ⟨s', (if_neg hstop).trans hs', hreads⟩

theorem Reads.onReceive (h : Reads s) (buf : Bytes) :
    ∃ s', s.onReceive buf = some s' ∧ Reads s' := by
  unfold HttpGet.onReceive
  dsimp only
  split_ifs with hstay hfull
  · exact ⟨s, rfl, h⟩
  · obtain ⟨_, _, _, heq⟩ := destroy_eq { s with
      mInbox := s.mInbox ++ buf.take (min buf.length (maxSize - s.mInbox.length))
      received := s.received ++ buf }
    rw [heq]
    exact ⟨_, rfl, ⟨h.chunked, h.missing, h.bytes_lt, h.received_lt⟩⟩
  · refine Reads.parseInbox ⟨h.chunked, h.missing, h.bytes_lt, h.received_lt⟩ ?_
    have hfits : min buf.length (maxSize - s.mInbox.length) = buf.length := not_not.mp hfull
    rw [hfits, List.take_length]
    exact fun hnil => (not_or.mp hstay).2 (List.append_eq_nil_iff.mp hnil).2

end

section
variable {path : Bytes} {room : ℕ} {renames : Bool} {s s' : HttpGet}

theorem Answers.parseLoop (h : Answers path s) {leftBytes fuel : ℕ}
    (hs : s.parseLoop leftBytes fuel = some s') : Answers path s' := by
  induction fuel generalizing s with
  | zero => cases hs
  | succ fuel ih =>
      rw [HttpGet.parseLoop] at hs
      dsimp only at hs
      split_ifs at hs
      · rw [← Option.some_inj.mp hs]
        exact h.turn
      · exact ih h.turn hs

theorem Answers.onReceive (h : Answers path s) {buf : Bytes} (hs : s.onReceive buf = some s') :
    Answers path s' := by
  unfold HttpGet.onReceive at hs
  dsimp only at hs
  split_ifs at hs
  · rw [← Option.some_inj.mp hs]
    exact h
  · rw [← Option.some_inj.mp hs]
    exact (h.update _ _ _ _ _ _ _ _ _ _).destroy
  · exact (h.update _ _ _ _ _ _ _ _ _ _).parseLoop hs

/-- Not connected yet, or under way. -/
def Inv (path : Bytes) (room : ℕ) (renames : Bool) (s : HttpGet) : Prop :=
  (s = executed path room renames ∨ Answers path s) ∧ Reads s

theorem answers_connect (path : Bytes) (room : ℕ) (renames error opened sent : Bool) :
    Answers path ((executed path room renames).onConnect error opened sent) := by
  unfold onConnect
  dsimp only
  split_ifs with herror hclosed hsent hpath hpath
  · exact answers_destroy rfl rfl rfl rfl
  · exact answers_destroy rfl rfl rfl rfl
  · exact ⟨rfl, fun _ => rfl, fun _ _ => rfl, rfl, fun _ => rfl,
      fun ht => absurd ht Bool.false_ne_true⟩
  · exact ⟨rfl, fun _ => rfl, fun _ hne => absurd hne hpath, rfl, fun _ => rfl,
      fun ht => absurd ht Bool.false_ne_true⟩
  · exact Answered.answers ⟨-1, [], rfl, Or.inl rfl⟩ rfl rfl rfl
  · exact Answered.answers ⟨-1, [], rfl, Or.inl rfl⟩ rfl rfl rfl

theorem Reads.destroy (h : Reads s) : Reads s.destroy := by
  obtain ⟨_, _, _, heq⟩ := s.destroy_eq
  rw [heq]
  exact ⟨h.chunked, h.missing, h.bytes_lt, h.received_lt⟩

theorem Reads.onConnect (h : Reads s) (error opened sent : Bool) :
    Reads (s.onConnect error opened sent) := by
  unfold HttpGet.onConnect
  dsimp only
  split_ifs
  · exact Reads.destroy ⟨h.chunked, h.missing, h.bytes_lt, h.received_lt⟩
  · exact Reads.destroy ⟨h.chunked, h.missing, h.bytes_lt, h.received_lt⟩
  · exact ⟨h.chunked, h.missing, h.bytes_lt, h.received_lt⟩
  · exact ⟨h.chunked, h.missing, h.bytes_lt, h.received_lt⟩
  · exact Reads.destroy ⟨h.chunked, h.missing, h.bytes_lt, h.received_lt⟩
  · exact Reads.destroy ⟨h.chunked, h.missing, h.bytes_lt, h.received_lt⟩

theorem Inv.step (h : Inv path room renames s) {a : Act} (hs : s.step a = some s') :
    Inv path room renames s' := by
  obtain ⟨hanswers, hreads⟩ := h
  cases a with
  | connect error opened sent =>
      rw [HttpGet.step] at hs
      split_ifs at hs with hwaits
      rw [← Option.some_inj.mp hs]
      refine ⟨Or.inr ?_, hreads.onConnect _ _ _⟩
      rcases hanswers with rfl | hanswers
      · exact answers_connect _ _ _ _ _ _
      · have hfirst := hanswers.connected hwaits.2
        rw [hfirst] at hwaits
        exact absurd hwaits.1 Bool.false_ne_true
  | receive buf =>
      rw [HttpGet.step] at hs
      split_ifs at hs with hconnected
      obtain ⟨t, ht, hread⟩ := hreads.onReceive buf
      rw [hs, Option.some_inj] at ht
      subst ht
      refine ⟨Or.inr ?_, hread⟩
      rcases hanswers with rfl | hanswers
      · cases hconnected.1
      · exact hanswers.onReceive hs
  | close =>
      rw [HttpGet.step, Option.some_inj] at hs
      subst hs
      refine ⟨Or.inr ?_, hreads.destroy⟩
      rcases hanswers with rfl | hanswers
      · exact answers_destroy rfl rfl rfl rfl
      · exact hanswers.destroy

theorem Inv.start (path : Bytes) (room : ℕ) (renames : Bool) :
    Inv path room renames (executed path room renames) := by
  have hzero : 0 < 2 ^ 64 := by norm_num
  refine ⟨Or.inl rfl, ⟨fun hin => ?_, fun hbody => ?_, hzero, hzero⟩⟩
  · rcases hin with hstatus | hstatus
    · cases hstatus
    · cases hstatus
  · cases hbody

/-- An answer is the end. -/
theorem step_destroyed (h : s.isDestroyed = true) {a : Act} (hs : s.step a = some s') : s' = s := by
  cases a with
  | connect error opened sent =>
      rw [step, if_neg (by simp [h])] at hs
      cases hs
  | receive buf =>
      rw [step] at hs
      split_ifs at hs
      rw [onReceive, if_pos (Or.inl h), Option.some_inj] at hs
      exact hs.symm
  | close =>
      rw [step, destroy, if_pos h, Option.some_inj] at hs
      exact hs.symm

/-- After any events a download has not answered, or has answered once and for good, and it gets
through every piece that comes. -/
theorem answers_once (h : Reachable step (fun _ _ => True) (executed path room renames) s) :
    (s.isDestroyed = false ∧ s.acks = [] ∨
      s.isDestroyed = true ∧ Answered path s ∧ ∀ a s', s.step a = some s' → s' = s) ∧
    ∀ buf, s.mWaitFirstEvent = false → buf.length < 4096 →
      ∃ s', s.step (.receive buf) = some s' := by
  obtain ⟨hanswers, hreads⟩ := h.invariant (Inv.start path room renames)
    fun _ _ _ hinv _ hs => hinv.step hs
  constructor
  · rcases hanswers with rfl | hanswers
    · exact Or.inl ⟨rfl, rfl⟩
    · cases hdestroyed : s.isDestroyed with
      | false => exact Or.inl ⟨rfl, hanswers.early hdestroyed⟩
      | true =>
          exact Or.inr ⟨rfl, hanswers.late hdestroyed, fun _ _ hs => step_destroyed hdestroyed hs⟩
  · intro buf hconnected hsize
    obtain ⟨t, ht, -⟩ := hreads.onReceive buf
    exact ⟨t, (if_pos ⟨hconnected, hsize⟩).trans ht⟩

/-- A file of one byte, whose download answers with its path. -/
theorem answers_once_file : ∃ s, run step (executed (ascii "/f") 5 true)
    [.connect false true true, .receive (ascii "HTTP/1.1 200 OK\r\nContent-Length: 1\r\n\r\na")] =
      some s ∧ s.saved = some (ascii "a") ∧ s.acks = [(0, ascii "/f")] ∧
      Answered (ascii "/f") s := by
  obtain ⟨acts, hacts⟩ : ∃ acts : List Act, acts = [.connect false true true,
    .receive (ascii "HTTP/1.1 200 OK\r\nContent-Length: 1\r\n\r\na")] := ⟨_, rfl⟩
  have hend : (run step (executed (ascii "/f") 5 true) acts).map
      (fun s => (s.saved, s.acks, s.isDestroyed)) =
        some (some (ascii "a"), [(0, ascii "/f")], true) := by
    rw [hacts]
    decide +kernel
  obtain ⟨s, hs, heq⟩ := Option.map_eq_some_iff.mp hend
  rw [Prod.mk.injEq, Prod.mk.injEq] at heq
  rcases (answers_once (Reachable.start.of_run hs)).1 with ⟨halive, -⟩ | ⟨-, hanswered, -⟩
  · rw [halive] at heq
    cases heq.2.2
  · exact ⟨s, hacts ▸ hs, heq.1, heq.2.1, hanswered⟩

end

end CoreLooper.Http.HttpGet
