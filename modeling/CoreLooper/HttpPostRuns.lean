import CoreLooper.HttpPost

/-!
# What a post sends

What has gone out and what is still to be sent are the same text in every stage. However much the
channel takes at a time, the bytes behind the header are as many as the header says.
-/
namespace CoreLooper.Http
open CStrings

namespace Outbox

variable {o : Outbox} {data : Bytes}

theorem write_bytes (h : o.bytes.length + data.length ≤ ByteBuffer.defaultMaxSize) :
    (o.write data).bytes = o.bytes ++ data := ByteQueue.write_bytes h

/-- A block is not empty, and within the limit. -/
def Sized (cbBuf : ℕ) : Prop := 0 < cbBuf ∧ cbBuf ≤ ByteBuffer.defaultMaxSize

theorem grown_sized (hsize : Sized o.cbBuf) (needed : ℕ) : Sized (o.grown needed) := by
  rw [grown]
  split_ifs with hover
  · have hround : 0 < (needed + (1024 * 8 - 1)) / (1024 * 8) * (1024 * 8) := by omega
    exact ⟨Nat.lt_min.mpr ⟨hround, by decide⟩, Nat.min_le_right _ _⟩
  · exact hsize

theorem write_sized (hsize : Sized o.cbBuf) (data : Bytes) : Sized (o.write data).cbBuf :=
  grown_sized hsize _

theorem append_bytes (h : o.bytes.length + data.length ≤ ByteBuffer.defaultMaxSize) :
    (o.append data).bytes = o.bytes ++ data := by
  rw [append, makeSureEndWithNull]
  split_ifs
  · exact write_bytes h
  · exact write_bytes h

theorem append_sized (hsize : Sized o.cbBuf) (data : Bytes) : Sized (o.append data).cbBuf := by
  rw [append, makeSureEndWithNull]
  split_ifs
  · exact write_sized hsize data
  · exact grown_sized (write_sized hsize data) _

@[simp] theorem eat_bytes (n : ℕ) : (o.eat n).bytes = o.bytes.drop n := rfl

end Outbox

namespace HttpPost

section
variable (files : Bytes → Option Bytes) (p : HttpPost)

/-- A file with its header and the end of its line. -/
def fileText (item : TagItem) : Bytes :=
  fileDesc p.mBoundary item ++ (files (cstr item.value)).getD [] ++ ascii "\r\n"

/-- The files from an index on, and the closing line. -/
def filesFrom (i : ℕ) : Bytes := (p.mFiles.drop i).flatMap (p.fileText files) ++ tail p.mBoundary

/-- What comes behind the header of the request. -/
def formBody : Bytes := p.mFields.flatMap (fieldText p.mBoundary) ++ p.filesFrom files 0

/-- What is to be sent when the outbox has drained. -/
def afterOutbox : Bytes :=
  match p.mStage with
  | .SendHeader => p.filesFrom files 0
  | .SendFileDesc => p.mFile.getD [] ++ ascii "\r\n" ++ p.filesFrom files (p.mFileIndex + 1).toNat
  | .SendFileBody => p.mFile.getD [] ++ ascii "\r\n" ++ p.filesFrom files (p.mFileIndex + 1).toNat
  | .SendFileCRLF => p.filesFrom files (p.mFileIndex + 1).toNat
  | _ => []

def toSend : Bytes := p.mOutbox.bytes ++ p.afterOutbox files

/-- The state in which a stage is left to the channel. -/
structure Sending : Prop where
  alive : p.mDestroyed = false
  block : Outbox.Sized p.mOutbox.cbBuf
  parts : p.isPostFileFields = true
  header_fits : ∀ item ∈ p.mFiles, (fileDesc p.mBoundary item).length ≤ ByteBuffer.defaultMaxSize
  tail_fits : (tail p.mBoundary).length ≤ ByteBuffer.defaultMaxSize
  on_disk : ∀ item ∈ p.mFiles, ∃ data, files (cstr item.value) = some data ∧
    item.mBytes = data.length
  stage : p.mStage = .SendHeader ∧ p.mFileIndex = -1 ∨
    (p.mStage = .SendFileDesc ∨ p.mStage = .SendFileBody) ∧ 0 ≤ p.mFileIndex ∧
      p.mFileIndex < p.mFiles.length ∧ p.mFile.isSome = true ∨
    p.mStage = .SendFileCRLF ∧ 0 ≤ p.mFileIndex ∧ p.mFileIndex < p.mFiles.length ∨
    p.mStage = .SendTail ∨ p.mStage = .SendFinish

end

variable {files : Bytes → Option Bytes} {p p' : HttpPost}

theorem filesFrom_file {i : ℕ} {item : TagItem} (hitem : p.mFiles[i]? = some item) :
    p.filesFrom files i = p.fileText files item ++ p.filesFrom files (i + 1) := by
  obtain ⟨hi, hget⟩ := List.getElem?_eq_some_iff.mp hitem
  rw [filesFrom, filesFrom, List.drop_eq_getElem_cons hi, List.flatMap_cons, hget,
    List.append_assoc]

theorem filesFrom_end {i : ℕ} (hi : p.mFiles.length ≤ i) :
    p.filesFrom files i = tail p.mBoundary := by
  rw [filesFrom, List.drop_of_length_le hi, List.flatMap_nil, List.nil_append]

/-- The outbox has been filled with what is next to be sent, or there is nothing more. -/
def Refilled (files : Bytes → Option Bytes) (p : HttpPost) (r : HttpPost × Bool) : Prop :=
  r.1.Sending files ∧ r.1.toSend files = p.toSend files ∧
    (r.2 = true ∧ r.1.mOutbox.bytes ≠ [] ∧ r.1.mStage ≠ .SendFinish ∨
      r.2 = false ∧ r.1.mOutbox.bytes = [] ∧ r.1.mStage = .SendFinish)

theorem write_empty {o : Outbox} {data : Bytes} (hempty : o.bytes = [])
    (hfits : data.length ≤ ByteBuffer.defaultMaxSize) : (o.write data).bytes = data := by
  rw [Outbox.write_bytes (by rw [hempty]; simpa using hfits), hempty, List.nil_append]

theorem tail_ne (b : Bytes) : tail b ≠ [] := by
  have hdashes : ascii "--" ≠ [] := by decide +kernel
  simp [tail, hdashes]

theorem refilled_tail (hp : p.Sending files) (hempty : p.mOutbox.bytes = [])
    (hstage : p.mStage ≠ .SendTail) (hafter : p.afterOutbox files = tail p.mBoundary) :
    Refilled files p (p.switchStage files .SendTail) := by
  have hswitch : p.switchStage files .SendTail =
      ({ p with mStage := .SendTail, mOutbox := p.mOutbox.write (tail p.mBoundary) }, true) := by
    rw [switchStage, switchTo, if_neg (by simp [hstage]), if_neg (by decide)]
    rfl
  have hbytes := write_empty hempty hp.tail_fits
  rw [hswitch]
  refine ⟨{ hp with block := ?_, stage := ?_ }, ?_, .inl ⟨rfl, ?_, ?_⟩⟩
  · exact Outbox.write_sized hp.block _
  · exact .inr (.inr (.inr (.inl rfl)))
  · rw [toSend, toSend, hafter, hempty]
    simp only [hbytes, afterOutbox, List.append_nil, List.nil_append]
  · simp only [hbytes]
    exact tail_ne _
  · exact fun hfinish => by cases hfinish

theorem refilled_desc (hp : p.Sending files) (hempty : p.mOutbox.bytes = [])
    (hstage : p.mStage ≠ .SendFileDesc) (hindex : -1 ≤ p.mFileIndex)
    (hmore : p.mFileIndex + 1 < p.mFiles.length)
    (hafter : p.afterOutbox files = p.filesFrom files (p.mFileIndex + 1).toNat) :
    Refilled files p (p.switchStage files .SendFileDesc) := by
  have hlt : (p.mFileIndex + 1).toNat < p.mFiles.length := by omega
  obtain ⟨item, hitem⟩ : ∃ item, p.mFiles[(p.mFileIndex + 1).toNat]? = some item :=
    ⟨_, List.getElem?_eq_getElem hlt⟩
  have hmem : item ∈ p.mFiles := List.mem_of_getElem? hitem
  obtain ⟨data, hdata, hbytes⟩ := hp.on_disk item hmem
  have hlen : getFileLength files item.value = data.length := by
    rw [getFileLength, hdata, Option.getD_some]
  have hswitch : p.switchStage files .SendFileDesc =
      ({ p with mStage := .SendFileDesc, mFileIndex := p.mFileIndex + 1, mFile := some data,
                mOutbox := p.mOutbox.write (fileDesc p.mBoundary item) }, true) := by
    rw [switchStage, switchTo, if_neg (by simp [hstage]), if_neg (by decide), preStage,
      preSendFileDesc]
    simp only [hitem, hdata, hbytes, hlen, ne_eq, not_true_eq_false, if_false]
  have hdesc := write_empty hempty (hp.header_fits item hmem)
  have hnext : (p.mFileIndex + 1 + 1).toNat = (p.mFileIndex + 1).toNat + 1 := by omega
  rw [hswitch]
  refine ⟨{ hp with block := ?_, stage := ?_ }, ?_, .inl ⟨rfl, ?_, ?_⟩⟩
  · exact Outbox.write_sized hp.block _
  · refine .inr (.inl ⟨.inl rfl, ?_, hmore, rfl⟩)
    show 0 ≤ p.mFileIndex + 1
    omega
  · rw [toSend, toSend, hafter, hempty, filesFrom_file hitem, fileText, hdata]
    simp only [hdesc, afterOutbox, hnext, Option.getD_some, List.nil_append, List.append_assoc]
    rfl
  · simp only [hdesc]
    have hdashes : ascii "--" ≠ [] := by decide +kernel
    simp [fileDesc, hdashes]
  · exact fun hfinish => by cases hfinish

/-- The next piece of the file is read, or the end of the line behind it is written. -/
theorem refilled_body (hp : p.Sending files) (hempty : p.mOutbox.bytes = [])
    (hstage : p.mStage = .SendFileBody) : Refilled files p p.preSendFileBody := by
  have hfile : 0 ≤ p.mFileIndex ∧ p.mFileIndex < p.mFiles.length ∧ p.mFile.isSome = true := by
    rcases hp.stage with h | h | h | h | h
    · simp [hstage] at h
    · exact h.2
    · simp [hstage] at h
    · simp [hstage] at h
    · simp [hstage] at h
  obtain ⟨data, hdata⟩ := Option.isSome_iff_exists.mp hfile.2.2
  have hfree : p.mOutbox.getTailFreeSize = p.mOutbox.cbBuf := by
    rw [Outbox.getTailFreeSize, hempty]
    rfl
  have hblock := hp.block
  by_cases hrest : data = []
  · have hcrlf := @write_empty _ (ascii "\r\n") hempty (by decide +kernel)
    have hpre : p.preSendFileBody =
        ({ p with mStage := .SendFileCRLF, mFile := none,
                  mOutbox := p.mOutbox.write (ascii "\r\n") }, true) := by
      simp [preSendFileBody, hfree, hblock.1, hdata, hrest, switchTo, hstage, preSendFileCRLF]
    rw [hpre]
    refine ⟨{ hp with block := ?_, stage := ?_ }, ?_, .inl ⟨rfl, ?_, ?_⟩⟩
    · exact Outbox.write_sized hblock _
    · exact .inr (.inr (.inl ⟨rfl, hfile.1, hfile.2.1⟩))
    · rw [toSend, toSend, hempty]
      simp only [hcrlf, afterOutbox, hstage, hdata, hrest, Option.getD_some, List.nil_append]
      rfl
    · simp only [hcrlf]
      decide +kernel
    · exact fun hfinish => by cases hfinish
  · have hpiece : 0 < (data.take p.mOutbox.cbBuf).length := by
      have hpos := List.length_pos_of_ne_nil hrest
      rw [List.length_take]
      exact Nat.lt_min.mpr ⟨hblock.1, hpos⟩
    have hread := @write_empty _ (data.take p.mOutbox.cbBuf) hempty
      ((List.length_take_le _ _).trans hblock.2)
    have hpre : p.preSendFileBody =
        ({ p with mFile := some (data.drop p.mOutbox.cbBuf),
                  mOutbox := p.mOutbox.write (data.take p.mOutbox.cbBuf) }, true) := by
      simp only [preSendFileBody, hfree, hblock.1, hdata, Option.getD_some, hpiece, if_true]
    rw [hpre]
    refine ⟨{ hp with block := ?_, stage := ?_ }, ?_, .inl ⟨rfl, ?_, ?_⟩⟩
    · exact Outbox.write_sized hblock _
    · exact .inr (.inl ⟨.inr hstage, hfile.1, hfile.2.1, rfl⟩)
    · rw [toSend, toSend, hempty]
      simp only [hread, afterOutbox, hstage, hdata, Option.getD_some, List.nil_append]
      rw [← List.append_assoc, ← List.append_assoc, List.take_append_drop]
      rfl
    · simp only [hread]
      exact List.ne_nil_of_length_pos hpiece
    · rw [hstage]
      decide

theorem refilled_finish (hp : p.Sending files) (hempty : p.mOutbox.bytes = [])
    (hstage : p.mStage = .SendTail) : Refilled files p (p.switchStage files .SendFinish) := by
  have hswitch : p.switchStage files .SendFinish = ({ p with mStage := .SendFinish }, false) := by
    rw [switchStage, switchTo, if_neg (by simp [hstage]), if_pos rfl]
  rw [hswitch]
  refine ⟨{ hp with stage := ?_ }, ?_, .inr ⟨rfl, hempty, rfl⟩⟩
  · exact .inr (.inr (.inr (.inr rfl)))
  · simp only [toSend, afterOutbox, hstage]

/-- When the outbox has drained, it is filled again unless everything has been sent. -/
theorem refilled (hp : p.Sending files) (hempty : p.mOutbox.bytes = []) :
    Refilled files p (p.onOutboxWritable files) := by
  rcases hp.stage with ⟨hstage, hindex⟩ | ⟨hstage, hlow, hhigh, hfile⟩ | ⟨hstage, hlow, hhigh⟩ |
    hstage | hstage
  · rw [onOutboxWritable, if_pos (by simp [hstage]), hstage, postStage, if_pos hp.parts]
    have hafter : p.afterOutbox files = p.filesFrom files 0 := by rw [afterOutbox, hstage]
    by_cases hfiles : p.mFiles.length > 0
    · rw [if_pos hfiles]
      apply refilled_desc hp hempty (by simp [hstage])
      · omega
      · omega
      · rw [hafter, hindex]
        rfl
    · rw [if_neg hfiles]
      apply refilled_tail hp hempty (by simp [hstage])
      rw [hafter, filesFrom_end (by omega)]
  · rcases hstage with hstage | hstage
    · -- the header of a file has gone out, and the file is read for the first time
      have hbody : Sending files { p with mStage := .SendFileBody } :=
        { hp with stage := .inr (.inl ⟨.inr rfl, hlow, hhigh, hfile⟩) }
      have hrefilled := refilled_body hbody hempty rfl
      have hpost : p.onOutboxWritable files =
          preSendFileBody { p with mStage := .SendFileBody } := by
        rw [onOutboxWritable, if_pos (by simp [hstage]), hstage, postStage, switchStage, switchTo,
          if_neg (by simp [hstage]), if_neg (by decide)]
        rfl
      have hsame : toSend files { p with mStage := .SendFileBody } = p.toSend files := by
        simp only [toSend, afterOutbox, hstage]
        rfl
      rw [hpost, Refilled, ← hsame]
      exact hrefilled
    · rw [onOutboxWritable, if_pos (by simp [hstage]), hstage, postStage]
      exact refilled_body hp hempty hstage
  · rw [onOutboxWritable, if_pos (by simp [hstage]), hstage, postStage]
    have hafter : p.afterOutbox files = p.filesFrom files (p.mFileIndex + 1).toNat := by
      rw [afterOutbox, hstage]
    by_cases hmore : p.mFileIndex < (p.mFiles.length : ℤ) - 1
    · rw [if_pos hmore]
      exact refilled_desc hp hempty (by simp [hstage]) (by omega) (by omega) hafter
    · rw [if_neg hmore]
      apply refilled_tail hp hempty (by simp [hstage])
      rw [hafter, filesFrom_end (by omega)]
  · rw [onOutboxWritable, if_pos (by simp [hstage]), hstage, postStage]
    exact refilled_finish hp hempty hstage
  · rw [onOutboxWritable, if_neg (by simp [hstage])]
    exact ⟨hp, rfl, .inr ⟨rfl, hempty, hstage⟩⟩

/-- There is something in the outbox until all has been sent. -/
def Pending (p : HttpPost) : Prop := p.mOutbox.bytes = [] ↔ p.mStage = .SendFinish

/-- A state between two events, and what has gone out since another one. -/
def Sent (files : Bytes → Option Bytes) (p : HttpPost) (sent : Bytes) (p' : HttpPost) : Prop :=
  p'.Sending files ∧ p'.Pending ∧ sent ++ p'.toSend files = p.toSend files

theorem sending_eat (hp : p.Sending files) (n : ℕ) :
    Sending files { p with mOutbox := p.mOutbox.eat n } := { hp with }

/-- With nothing in the outbox the next stage comes first. -/
theorem checkSend_drained (halive : p.mDestroyed = false) (hempty : p.mOutbox.bytes = [])
    (fuel : ℕ) (rets : List ℕ) : p.checkSend files (fuel + 1) rets =
      if (p.onOutboxWritable files).2 then
        (p.onOutboxWritable files).1.checkSend files fuel rets
      else some ([], (p.onOutboxWritable files).1) := by
  conv_lhs => rw [checkSend.eq_def]
  simp only [halive, hempty, if_true, Bool.false_eq_true, if_false]
  match p.onOutboxWritable files with
  | (q, true) => rfl
  | (q, false) => rfl

/-- After the last stage there is nothing to do. -/
theorem checkSend_idle (hp : p.Sending files) (hpending : p.Pending)
    (hempty : p.mOutbox.bytes = []) (fuel : ℕ) (rets : List ℕ) :
    p.checkSend files (fuel + 1) rets = some ([], p) := by
  have hwritable : p.onOutboxWritable files = (p, false) := by
    rw [onOutboxWritable, if_neg (by simp [hpending.mp hempty])]
  rw [checkSend_drained hp.alive hempty, hwritable]
  rfl

theorem checkSend_sent (hp : p.Sending files) (hpending : p.Pending) (rets : List ℕ) {fuel : ℕ}
    (hfuel : 2 * rets.length < fuel) :
    ∃ sent p', p.checkSend files fuel rets = some (sent, p') ∧ Sent files p sent p' ∧
      (p.toSend files ≠ [] → (∃ ret ∈ rets.head?, ret > 0) → sent ≠ []) := by
  induction rets generalizing fuel p with
  | nil =>
      obtain ⟨fuel, rfl⟩ := Nat.exists_eq_add_one_of_ne_zero (Nat.ne_zero_of_lt hfuel)
      by_cases hempty : p.mOutbox.bytes = []
      · exact ⟨[], p, checkSend_idle hp hpending hempty fuel [], ⟨hp, hpending, rfl⟩, by simp⟩
      · refine ⟨[], p, ?_, ⟨hp, hpending, rfl⟩, by simp⟩
        rw [checkSend, if_neg (by simp [hp.alive]), if_neg hempty]
  | cons ret rets ih =>
      obtain ⟨fuel, rfl⟩ := Nat.exists_eq_add_one_of_ne_zero (Nat.ne_zero_of_lt hfuel)
      rw [List.length_cons] at hfuel
      by_cases hempty : p.mOutbox.bytes = []
      · refine ⟨[], p, checkSend_idle hp hpending hempty fuel _, ⟨hp, hpending, rfl⟩, ?_⟩
        intro hsome
        rw [toSend, hempty, afterOutbox, hpending.mp hempty] at hsome
        exact absurd rfl hsome
      · by_cases hret : ret > 0
        · have hpiece : p.mOutbox.bytes.take ret ≠ [] := by
            simp only [ne_eq, List.take_eq_nil_iff, hempty, or_false]
            omega
          by_cases hpart : ret < p.mOutbox.bytes.length
          · -- the channel has taken a part, and the rest waits for the next event
            refine ⟨_, _, ?_, ⟨sending_eat hp ret, ?_, ?_⟩, fun _ _ => hpiece⟩
            · rw [checkSend, if_neg (by simp [hp.alive]), if_neg hempty]
              simp only [if_pos hret, if_pos hpart]
            · constructor
              · intro hdrop
                simp only [Outbox.eat_bytes, List.drop_eq_nil_iff] at hdrop
                omega
              · exact fun hfinish => absurd (hpending.mpr hfinish) hempty
            · rw [toSend, toSend, ← List.append_assoc, Outbox.eat_bytes, List.take_append_drop]
              rfl
          · -- the channel has taken all, and the outbox is filled again
            have hlen : p.mOutbox.bytes.length ≤ ret := Nat.le_of_not_lt hpart
            obtain ⟨q, hq⟩ : ∃ q : HttpPost, q = { p with mOutbox := p.mOutbox.eat ret } := ⟨_, rfl⟩
            have hqempty : q.mOutbox.bytes = [] := by
              rw [hq]
              exact List.drop_of_length_le hlen
            have hqsending : q.Sending files := by
              rw [hq]
              exact sending_eat hp ret
            have hsplit : p.mOutbox.bytes ++ q.toSend files = p.toSend files := by
              rw [toSend, toSend, hqempty, List.nil_append, hq]
              rfl
            obtain ⟨hsending, htosend, hgo⟩ := refilled hqsending hqempty
            obtain ⟨fuel, rfl⟩ : ∃ n, fuel = n + 1 := ⟨fuel - 1, by omega⟩
            have hcheck : p.checkSend files (fuel + 1 + 1) (ret :: rets) =
                (q.checkSend files (fuel + 1) rets).map
                  fun r => (p.mOutbox.bytes ++ r.1, r.2) := by
              rw [checkSend, if_neg (by simp [hp.alive]), if_neg hempty, hq]
              simp only [if_pos hret, if_neg hpart, List.take_of_length_le hlen]
            rw [checkSend_drained hqsending.alive hqempty] at hcheck
            rcases hgo with ⟨hgo, hfull, hmore⟩ | ⟨hgo, hnone, hfinish⟩
            · obtain ⟨sent, p', hrun, ⟨hsending', hpending', hsent⟩, -⟩ :=
                ih hsending (iff_of_false hfull hmore) (by omega : 2 * rets.length < fuel)
              refine ⟨p.mOutbox.bytes ++ sent, p', ?_, ⟨hsending', hpending', ?_⟩, ?_⟩
              · rw [hcheck, if_pos hgo, hrun, Option.map_some]
              · rw [List.append_assoc, hsent, htosend, hsplit]
              · simp [hempty]
            · refine ⟨p.mOutbox.bytes, _, ?_, ⟨hsending, iff_of_true hnone hfinish, ?_⟩, ?_⟩
              · rw [hcheck, if_neg (by simp [hgo]), Option.map_some, List.append_nil]
              · rw [htosend, hsplit]
              · simp [hempty]
        · refine ⟨[], p, ?_, ⟨hp, hpending, rfl⟩, by simp [hret]⟩
          rw [checkSend, if_neg (by simp [hp.alive]), if_neg hempty]
          simp only [if_neg hret]

/-- After any events what has gone out is the beginning of what was to be sent. When each event
takes something, there is an end to it. -/
theorem sends_sent (hp : p.Sending files) (hpending : p.Pending) (events : List (List ℕ)) :
    ∃ sent p', sends files events p = some (sent, p') ∧ Sent files p sent p' ∧
      ((∀ rets ∈ events, ∃ ret ∈ rets.head?, ret > 0) →
        (p.toSend files).length ≤ events.length → p'.toSend files = []) := by
  induction events generalizing p with
  | nil => exact ⟨[], p, rfl, ⟨hp, hpending, rfl⟩, fun _ hlen => by simpa using hlen⟩
  | cons rets events ih =>
      obtain ⟨sent, p₁, hrun, ⟨hsending, hpending₁, hsent⟩, hprogress⟩ :=
        checkSend_sent hp hpending rets (Nat.lt_add_of_pos_right (by decide : 0 < 2))
      obtain ⟨later, p₂, hruns, ⟨hsending₂, hpending₂, hlater⟩, hend⟩ := ih hsending hpending₁
      refine ⟨sent ++ later, p₂, ?_, ⟨hsending₂, hpending₂, ?_⟩, fun htakes hlen => ?_⟩
      · rw [sends, onSend, hrun]
        simp [hruns]
      · rw [List.append_assoc, hlater, hsent]
      · apply hend fun r hr => htakes r (List.mem_cons_of_mem _ hr)
        have hcount := congrArg List.length hsent
        rw [List.length_append] at hcount
        rw [List.length_cons] at hlen
        by_cases hnone : p.toSend files = []
        · rw [hnone, List.length_nil] at hcount
          omega
        · have hpos := List.length_pos_of_ne_nil (hprogress hnone (htakes rets List.mem_cons_self))
          omega

end HttpPost
end CoreLooper.Http
