import CoreLooper.ByteBuffer
import CoreLooper.ByteQueue
import CoreLooper.Framing

/-!
# JpDemux

Json texts over a serial line, each from `{` to the end of its line. What stands between the
texts is passed over. More than 8 KB that is no complete text are given up after a call. What a
text is turned into is a function of the text alone and left out. The inbox is searched as a C
string; the memory behind a full inbox is taken to begin with a null.
-/
namespace CoreLooper.Jp
open CStrings Framing

/-- The texts are those `onRecvJsonText` was called with. -/
structure JpDemux where
  mInbox : ByteQueue ByteBuffer.defaultMaxSize := .clear
  texts : List Bytes := []
  deriving DecidableEq

/-- The loop of `inputData`. -/
def inputLoop : ℕ → JpDemux → JpDemux
  | 0, s => s
  | fuel + 1, s =>
      match s.mInbox.bytes with
      | [] => s
      | ch :: _ =>
          if ch ≠ 123 then inputLoop fuel { s with mInbox := s.mInbox.eat 1 }
          else
            match strstr (cstr s.mInbox.bytes) [10] with
            | none => s
            | some jsonBytes =>
                inputLoop fuel
                  { mInbox := s.mInbox.eat (jsonBytes + 1)
                    texts := s.texts ++ [s.mInbox.bytes.take jsonBytes] }

def sizeLimit : ℕ := 8 * 1024

/-- What does not fit the inbox is not taken in. -/
def inputData (s : JpDemux) (data : Bytes) : JpDemux :=
  let s := { s with mInbox := s.mInbox.write data }
  let s := inputLoop s.mInbox.length s
  if s.mInbox.length > sizeLimit then { s with mInbox := .clear } else s

def inputs (chunks : List Bytes) : JpDemux := chunks.foldl inputData {}

/-- The first item of the inbox and its length: a byte that is passed over, or a text. -/
def nextItem : Bytes → Option (Option Bytes × ℕ)
  | [] => none
  | ch :: rest =>
      if ch ≠ 123 then some (none, 1)
      else (strstr (cstr (ch :: rest)) [10]).map fun jsonBytes =>
        (some ((ch :: rest).take jsonBytes), jsonBytes + 1)

/-- What is left of the data when the complete items are taken off. -/
def unfinished (data : Bytes) : Bytes := (frames nextItem data).2

/-- No call overfills the inbox, and none leaves an unfinished text above the limit in it. -/
def Calm : Bytes → List Bytes → Prop
  | _, [] => True
  | inbox, data :: chunks =>
      inbox.length + data.length ≤ ByteBuffer.defaultMaxSize ∧
        (unfinished (inbox ++ data)).length ≤ sizeLimit ∧
          Calm (unfinished (inbox ++ data)) chunks

section
variable {u data : Bytes} {item : Option Bytes} {k : ℕ} {s : JpDemux} {chunks : List Bytes}

/-- A text in front is complete or waits for the end of its line. -/
theorem nextItem_text (rest : Bytes) : nextItem (123 :: rest) =
    (strstr (cstr (123 :: rest)) [10]).map fun jsonBytes =>
      (some ((123 :: rest).take jsonBytes), jsonBytes + 1) := by
  rw [nextItem, if_neg (by simp)]

theorem nextItem_skip {ch : UInt8} (h : ch ≠ 123) (rest : Bytes) :
    nextItem (ch :: rest) = some (none, 1) := by
  rw [nextItem, if_pos h]

/-- The line end of a text lies in the inbox. -/
theorem lineEnd_lt (h : strstr (cstr u) [10] = some k) : k < u.length := by
  have hin : k + 1 ≤ (cstr u).length := strstr_add_length_le h
  have hstr := (cstr_starts u).length_le
  omega

theorem nextItem_stable : Stable nextItem where
  pos {u item k} h := by
    cases u with
    | nil => cases h
    | cons ch rest =>
        rw [nextItem] at h
        split_ifs at h with hch
        · cases h
          exact Nat.one_pos
        · obtain ⟨n, -, heq⟩ := Option.map_eq_some_iff.mp h
          cases heq
          omega
  le {u item k} h := by
    cases u with
    | nil => cases h
    | cons ch rest =>
        rw [nextItem] at h
        split_ifs at h with hch
        · cases h
          simp
        · obtain ⟨n, hn, heq⟩ := Option.map_eq_some_iff.mp h
          cases heq
          exact lineEnd_lt hn
  append {u item k} v h := by
    cases u with
    | nil => cases h
    | cons ch rest =>
        rw [nextItem] at h
        rw [List.cons_append, nextItem]
        split_ifs at h ⊢ with hch
        · exact h
        · obtain ⟨n, hn, heq⟩ := Option.map_eq_some_iff.mp h
          cases heq
          have hlt := lineEnd_lt hn
          obtain ⟨y, hy⟩ := cstr_append_starts (ch :: rest) v
          rw [List.cons_append] at hy
          rw [hy, strstr_append hn, Option.map_some, ← List.cons_append,
            List.take_append_of_le_length (Nat.le_of_lt hlt)]

theorem nextItem_unfinished (data : Bytes) : nextItem (unfinished data) = none :=
  frames_rest nextItem_stable data

/-- The texts among the items. -/
def textsIn (data : Bytes) : List Bytes := (frames nextItem data).1.filterMap id

theorem textsIn_append (u data : Bytes) :
    textsIn (u ++ data) = textsIn u ++ textsIn (unfinished u ++ data) := by
  rw [textsIn, frames_append nextItem_stable, List.filterMap_append]
  rfl

theorem unfinished_append (u data : Bytes) :
    unfinished (u ++ data) = unfinished (unfinished u ++ data) := by
  rw [unfinished, frames_append nextItem_stable]
  rfl

theorem inputLoop_eq (fuel : ℕ) (s : JpDemux) :
    (inputLoop fuel s).mInbox.bytes = (drain nextItem fuel s.mInbox.bytes).2 ∧
      (inputLoop fuel s).texts =
        s.texts ++ (drain nextItem fuel s.mInbox.bytes).1.filterMap id := by
  induction fuel generalizing s with
  | zero => simp [inputLoop, drain]
  | succ fuel ih =>
      rw [inputLoop]
      cases hbytes : s.mInbox.bytes with
      | nil => simp [hbytes, drain, nextItem]
      | cons ch rest =>
          dsimp only
          by_cases hch : ch ≠ 123
          · obtain ⟨hrest, htexts⟩ := ih { s with mInbox := s.mInbox.eat 1 }
            rw [ByteQueue.eat_bytes, hbytes] at hrest htexts
            rw [if_pos hch]
            simp only [drain, nextItem_skip hch]
            exact ⟨hrest, htexts⟩
          · rw [if_neg hch]
            rw [not_not] at hch
            subst hch
            cases hend : strstr (cstr (123 :: rest)) [10] with
            | none => simp [hbytes, drain, nextItem_text, hend]
            | some jsonBytes =>
                obtain ⟨hrest, htexts⟩ := ih
                  { mInbox := s.mInbox.eat (jsonBytes + 1)
                    texts := s.texts ++ [(123 :: rest).take jsonBytes] }
                rw [ByteQueue.eat_bytes, hbytes] at hrest htexts
                simp only [drain, nextItem_text, hend, Option.map_some]
                refine ⟨hrest, htexts.trans ?_⟩
                simp

/-- One call, when the data fits. -/
theorem inputData_fits (h : s.mInbox.bytes.length + data.length ≤ ByteBuffer.defaultMaxSize) :
    (inputData s data).texts = s.texts ++ textsIn (s.mInbox.bytes ++ data) ∧
      (inputData s data).mInbox.bytes =
        if (unfinished (s.mInbox.bytes ++ data)).length > sizeLimit then []
        else unfinished (s.mInbox.bytes ++ data) := by
  have hwrite := ByteQueue.write_bytes h
  obtain ⟨hrest, htexts⟩ := inputLoop_eq (s.mInbox.write data).length
    { s with mInbox := s.mInbox.write data }
  rw [ByteQueue.length_eq, hwrite] at hrest htexts
  have hunfinished : unfinished (s.mInbox.bytes ++ data) =
      (drain nextItem (s.mInbox.bytes ++ data).length (s.mInbox.bytes ++ data)).2 := rfl
  rw [hunfinished]
  unfold inputData
  simp only [ByteQueue.length_eq, hwrite, hrest]
  split_ifs with hlong
  · exact ⟨htexts, rfl⟩
  · exact ⟨htexts, hrest⟩

/-- As long as the inbox is not cleared, the calls together read what they bring together. -/
theorem foldl_calm (hs : nextItem s.mInbox.bytes = none) (h : Calm s.mInbox.bytes chunks) :
    (chunks.foldl inputData s).texts =
        s.texts ++ textsIn (s.mInbox.bytes ++ chunks.flatten) ∧
      (chunks.foldl inputData s).mInbox.bytes =
        unfinished (s.mInbox.bytes ++ chunks.flatten) := by
  induction chunks generalizing s with
  | nil => simp [textsIn, unfinished, frames_none hs]
  | cons data chunks ih =>
      obtain ⟨hfit, hshort, hrest⟩ := h
      obtain ⟨htexts, hbytes⟩ := inputData_fits hfit
      rw [if_neg (Nat.not_lt.mpr hshort)] at hbytes
      obtain ⟨hlater, hlast⟩ := ih (s := inputData s data)
        (by rw [hbytes]; exact nextItem_unfinished _) (by rw [hbytes]; exact hrest)
      rw [List.foldl_cons, hlater, hlast, htexts, hbytes, List.flatten_cons, ← List.append_assoc,
        textsIn_append (s.mInbox.bytes ++ data), unfinished_append (s.mInbox.bytes ++ data)]
      exact ⟨List.append_assoc _ _ _, rfl⟩

end

/-- However a stream is cut, as long as the inbox is not cleared the same texts are delivered and
the same bytes wait. -/
theorem inputs_eq {chunks chunks' : List Bytes} (hcut : chunks.flatten = chunks'.flatten)
    (h : Calm [] chunks) (h' : Calm [] chunks') : inputs chunks = inputs chunks' := by
  obtain ⟨htexts, hbytes⟩ := foldl_calm (s := {}) rfl h
  obtain ⟨htexts', hbytes'⟩ := foldl_calm (s := {}) rfl h'
  rw [hcut] at htexts hbytes
  have hqueue : (inputs chunks).mInbox = (inputs chunks').mInbox :=
    ByteQueue.ext (hbytes.trans hbytes'.symm)
  have hlist : (inputs chunks).texts = (inputs chunks').texts := htexts.trans htexts'.symm
  cases hs : inputs chunks
  cases hs' : inputs chunks'
  rw [hs, hs'] at hqueue hlist
  cases hqueue
  cases hlist
  rfl

/-- A cut inside a text. -/
theorem inputs_eq_cut :
    inputs [[120, 123, 49], [125, 10, 123, 50, 125], [10]] =
      inputs [[120, 123, 49, 125, 10], [123, 50, 125, 10]] :=
  inputs_eq (by decide)
    ⟨by decide, by decide, by decide, by decide, by decide, by decide, trivial⟩
    ⟨by decide, by decide, by decide, by decide, trivial⟩

/-- A text with a null in it is never complete. -/
theorem unfinished_null (rest : Bytes) :
    textsIn (123 :: 0 :: rest) = [] ∧ unfinished (123 :: 0 :: rest) = 123 :: 0 :: rest := by
  have hnone : nextItem (123 :: 0 :: rest) = none := by
    simp [nextItem_text, cstr, strstr]
  rw [textsIn, unfinished, frames_none hnone]
  exact ⟨rfl, rfl⟩

/-- A text that can never be complete, above the limit. -/
def stalled : Bytes := 123 :: 0 :: List.replicate 8200 120

/-- The text behind it comes through if the inbox was cleared before, and does not when it comes in
the same call. -/
theorem cut_matters :
    (inputs [stalled, ascii "{}" ++ [10]]).texts = [ascii "{}"] ∧
      (inputs [stalled ++ (ascii "{}" ++ [10])]).texts = [] ∧
      ¬ ∀ chunks chunks' : List Bytes, chunks.flatten = chunks'.flatten →
        (inputs chunks).texts = (inputs chunks').texts := by
  have hsmall : ∀ more : Bytes, more.length ≤ 3 →
      (({} : JpDemux).mInbox.bytes).length + (stalled ++ more).length ≤
        ByteBuffer.defaultMaxSize := by
    intro more hmore
    simp only [stalled, List.length_append, List.length_cons, List.length_replicate,
      ByteQueue.clear_bytes, List.length_nil, ByteBuffer.defaultMaxSize]
    omega
  have hcleared : ∀ more : Bytes, more.length ≤ 3 →
      inputData {} (stalled ++ more) = {} := by
    intro more hmore
    obtain ⟨htexts, hbytes⟩ := inputData_fits (hsmall more hmore)
    obtain ⟨hnone, hall⟩ := unfinished_null (List.replicate 8200 120 ++ more)
    have hstalled : ({} : JpDemux).mInbox.bytes ++ (stalled ++ more) =
        123 :: 0 :: (List.replicate 8200 120 ++ more) := rfl
    rw [hstalled, hnone] at htexts
    have hlong : (123 :: 0 :: (List.replicate 8200 120 ++ more)).length > sizeLimit := by
      simp only [List.length_cons, List.length_append, List.length_replicate, sizeLimit]
      omega
    rw [hstalled, hall, if_pos hlong] at hbytes
    cases hs : inputData {} (stalled ++ more)
    rw [hs] at htexts hbytes
    have hqueue := @ByteQueue.ext _ _ .clear hbytes
    cases hqueue
    cases htexts
    rfl
  have hcut : (inputs [stalled, ascii "{}" ++ [10]]).texts = [ascii "{}"] := by
    have hfirst := hcleared [] (by simp)
    rw [List.append_nil] at hfirst
    rw [inputs, List.foldl_cons, hfirst]
    decide
  have hwhole : (inputs [stalled ++ (ascii "{}" ++ [10])]).texts = [] := by
    rw [inputs, List.foldl_cons, hcleared _ (by decide)]
    rfl
  refine ⟨hcut, hwhole, ?_⟩
  intro hall
  have heq := hall [stalled, ascii "{}" ++ [10]] [stalled ++ (ascii "{}" ++ [10])] (by simp)
  rw [hcut, hwhole] at heq
  cases heq

end CoreLooper.Jp
