import CoreLooper.HttpFormParts

/-!
# The answer to an HttpPost

What the peer sends is collected in the inbox, and after each piece `HttpPost::ParseInbox` decides
whether that is the whole answer. The inbox is read as one string: the memory behind a full inbox
is taken to begin with a null.
-/
namespace CoreLooper.Http
open CStrings

def lengthKey : Bytes := ascii "Content-Length: "

/-- The end of the last chunk. -/
def chunksEnd : Bytes := [13, 10, 48, 13, 10, 13, 10]

/-- What stands behind the first `Content-Length: `. -/
def lengthText (ack : Bytes) : Option Bytes :=
  (strstr ack lengthKey).map fun p => ack.drop (p + lengthKey.length)

def contentLength (ack : Bytes) : ℤ := ((lengthText ack).map atoi).getD 0

def isChunked (ack : Bytes) : Bool :=
  (strstr ack (ascii "Transfer-Encoding: chunked\r\n")).isSome ||
    (strstr ack (ascii "transfer-encoding: chunked\r\n")).isSome

/-- `recvFinish` of `ParseInbox`. -/
def recvFinish (inbox : Bytes) : Bool :=
  let ack := cstr inbox
  match strstr ack CRLF2 with
  | none => false
  | some headerTail =>
      let receivedBodyBytes := i32 (inbox.length - (headerTail + CRLF2.length : ℕ))
      if contentLength ack = 0 then
        if isChunked ack then (strstr ack chunksEnd).isSome else true
      else contentLength ack ≤ receivedBodyBytes

/-- The inbox has the usual size. Every answer that was declared complete is kept in `acks`. -/
structure AckReceiver where
  mInbox : ByteQueue ByteBuffer.defaultMaxSize := .clear
  mRecvAckDone : Bool := false
  destroyed : Bool := false
  acks : List Bytes := []
  deriving DecidableEq

namespace AckReceiver

def parseInbox (s : AckReceiver) : AckReceiver :=
  if s.mRecvAckDone then s
  else if recvFinish s.mInbox.bytes then
    { s with mRecvAckDone := true, destroyed := true, acks := s.acks ++ [cstr s.mInbox.bytes] }
  else s

/-- `OnReceive` with one piece; nothing is read once the object is destroyed. -/
def onReceive (s : AckReceiver) (buf : Bytes) : AckReceiver :=
  if s.destroyed then s
  else if s.mInbox.room < buf.length then { s with mInbox := s.mInbox.write buf, destroyed := true }
  else parseInbox { s with mInbox := s.mInbox.write buf }

def received (pieces : List Bytes) : AckReceiver := pieces.foldl onReceive {}

/-- The pieces `Receive` can give, with the text they make. -/
structure Pieces (text : Bytes) (pieces : List Bytes) : Prop where
  sizes : ∀ p ∈ pieces, p ≠ [] ∧ p.length ≤ 4095
  flatten_eq : pieces.flatten = text

/-- The answer is declared complete with its last piece, whatever the pieces are, and only once. -/
def Declares (text : Bytes) : Prop := ∀ pieces, Pieces text pieces →
  (∀ got rest, pieces = got ++ rest → rest ≠ [] → (received got).acks.length = 0) ∧
    ∀ later, (received (pieces ++ later)).acks.length = 1

theorem onReceive_destroyed {s : AckReceiver} (h : s.destroyed = true) (buf : Bytes) :
    s.onReceive buf = s := by
  rw [onReceive, if_pos h]

theorem foldl_destroyed {s : AckReceiver} (h : s.destroyed = true) (pieces : List Bytes) :
    pieces.foldl onReceive s = s := by
  induction pieces with
  | nil => rfl
  | cons p pieces ih => rw [List.foldl_cons, onReceive_destroyed h, ih]

/-- Nothing was declared yet, and all data was taken in. -/
structure Waiting (data : Bytes) (s : AckReceiver) : Prop where
  inbox_eq : s.mInbox.bytes = data
  not_done : s.mRecvAckDone = false
  alive : s.destroyed = false
  acks_eq : s.acks = []

section
variable {data p : Bytes} {s : AckReceiver}

theorem Waiting.room_iff (h : Waiting data s) (p : Bytes) :
    ¬ s.mInbox.room < p.length ↔ data.length + p.length ≤ ByteBuffer.defaultMaxSize := by
  have hfits := s.mInbox.fits
  rw [h.inbox_eq] at hfits
  rw [ByteQueue.room, ByteQueue.length_eq, h.inbox_eq]
  omega

theorem Waiting.write_bytes (h : Waiting data s)
    (hroom : data.length + p.length ≤ ByteBuffer.defaultMaxSize) :
    (s.mInbox.write p).bytes = data ++ p := by
  rw [ByteQueue.write_bytes (by rw [h.inbox_eq]; exact hroom), h.inbox_eq]

theorem Waiting.wait (h : Waiting data s)
    (hroom : data.length + p.length ≤ ByteBuffer.defaultMaxSize)
    (hnot : recvFinish (data ++ p) = false) : Waiting (data ++ p) (s.onReceive p) := by
  rw [onReceive, h.alive, if_neg Bool.false_ne_true, if_neg ((h.room_iff p).mpr hroom), parseInbox]
  simp only [h.not_done, h.write_bytes hroom, hnot, Bool.false_eq_true, if_false]
  exact ⟨h.write_bytes hroom, rfl, rfl, h.acks_eq⟩

theorem Waiting.finish (h : Waiting data s)
    (hroom : data.length + p.length ≤ ByteBuffer.defaultMaxSize)
    (hfinish : recvFinish (data ++ p) = true) :
    (s.onReceive p).destroyed = true ∧ (s.onReceive p).acks.length = 1 := by
  rw [onReceive, h.alive, if_neg Bool.false_ne_true, if_neg ((h.room_iff p).mpr hroom), parseInbox]
  simp only [h.not_done, h.write_bytes hroom, hfinish, Bool.false_eq_true, if_false, if_true,
    h.acks_eq]
  exact ⟨trivial, rfl⟩

theorem Waiting.overflow (h : Waiting data s)
    (hroom : ¬ data.length + p.length ≤ ByteBuffer.defaultMaxSize) :
    (s.onReceive p).destroyed = true ∧ (s.onReceive p).acks.length = 0 := by
  have hfull : s.mInbox.room < p.length := by
    by_contra hnot
    exact hroom ((h.room_iff p).mp hnot)
  rw [onReceive, h.alive, if_neg Bool.false_ne_true, if_pos hfull]
  refine ⟨rfl, ?_⟩
  show s.acks.length = 0
  rw [h.acks_eq]
  rfl

end

theorem received_append (pieces later : List Bytes) :
    received (pieces ++ later) = later.foldl onReceive (received pieces) :=
  List.foldl_append

theorem received_concat (pieces : List Bytes) (p : Bytes) :
    received (pieces ++ [p]) = (received pieces).onReceive p := by
  rw [received_append]
  rfl

theorem flatten_concat (pieces : List Bytes) (p : Bytes) :
    (pieces ++ [p]).flatten = pieces.flatten ++ p := by simp

/-- As long as no beginning of the text looks complete, the inbox has all that was received. -/
theorem received_waiting (text : Bytes) {pieces : List Bytes} (hne : ∀ p ∈ pieces, p ≠ [])
    (hstart : pieces.flatten <+: text)
    (hroom : pieces.flatten.length ≤ ByteBuffer.defaultMaxSize)
    (hwait : ∀ k ≤ pieces.flatten.length, 0 < k → recvFinish (text.take k) = false) :
    Waiting pieces.flatten (received pieces) := by
  induction pieces using List.reverseRecOn with
  | nil => exact ⟨rfl, rfl, rfl, rfl⟩
  | append_singleton pieces p ih =>
      have heq := List.prefix_iff_eq_take.mp hstart
      rw [flatten_concat] at hwait hstart hroom heq ⊢
      rw [List.length_append] at hwait hroom
      have hbefore := ih (fun q hq => hne q (List.mem_append_left _ hq))
        ((List.prefix_append _ _).trans hstart) (by omega) (fun k hk => hwait k (by omega))
      have hp : 0 < p.length :=
        List.length_pos_iff.mpr (hne p (List.mem_append_right _ List.mem_cons_self))
      rw [received_concat]
      apply hbefore.wait hroom
      rw [heq, List.length_append]
      exact hwait _ (Nat.le_refl _) (by omega)

theorem recvFinish_nil : recvFinish [] = false := by decide +kernel

/-- Byte by byte: every beginning of the text is looked at. -/
def bytewise (text : Bytes) : List Bytes := text.map fun c => [c]

theorem bytewise_flatten (text : Bytes) : (bytewise text).flatten = text := by
  induction text with
  | nil => rfl
  | cons c text ih => rw [bytewise, List.map_cons, List.flatten_cons, ← bytewise, ih]; rfl

theorem bytewise_pieces (text : Bytes) : Pieces text (bytewise text) := by
  refine ⟨fun p hp => ?_, bytewise_flatten text⟩
  obtain ⟨c, -, rfl⟩ := List.mem_map.mp hp
  exact ⟨List.cons_ne_nil c [], by simp⟩

theorem bytewise_take (text : Bytes) {k : ℕ} (hk : k < text.length) :
    ∃ c, bytewise (text.take (k + 1)) = bytewise (text.take k) ++ [[c]] ∧
      text.take (k + 1) = text.take k ++ [c] := by
  refine ⟨text[k], ?_, ?_⟩
  · rw [← List.take_concat_get' text k hk, bytewise, List.map_append]
    rfl
  · exact (List.take_concat_get' text k hk).symm

theorem bytewise_waiting (text : Bytes) {k : ℕ} (hk : k ≤ text.length)
    (hroom : k ≤ ByteBuffer.defaultMaxSize)
    (hwait : ∀ j ≤ k, recvFinish (text.take j) = false) :
    Waiting (text.take k) (received (bytewise (text.take k))) := by
  have hflat := bytewise_flatten (text.take k)
  have hlength : (text.take k).length = k := by rw [List.length_take]; omega
  have h : Waiting (bytewise (text.take k)).flatten _ := received_waiting text
    (fun p hp => ((bytewise_pieces _).sizes p hp).1)
    (by rw [hflat]; exact List.take_prefix k text) (by rw [hflat, hlength]; exact hroom)
    (by rw [hflat, hlength]; exact fun j hj _ => hwait j hj)
  rwa [hflat] at h

/-- The answer is declared in time if it fits the inbox and looks complete, and no beginning of it
does. -/
theorem declares_iff {text : Bytes} (hne : text ≠ []) : Declares text ↔
    text.length ≤ ByteBuffer.defaultMaxSize ∧ recvFinish text = true ∧
      ∀ k < text.length, recvFinish (text.take k) = false := by
  constructor
  · intro h
    obtain ⟨hearly, honce⟩ := h _ (bytewise_pieces text)
    -- no byte before the last may bring anything about
    have hwait : ∀ k ≤ text.length, k ≤ ByteBuffer.defaultMaxSize + 1 →
        ∀ j < k, recvFinish (text.take j) = false := by
      intro k
      induction k with
      | zero => exact fun _ _ j hj => absurd hj (Nat.not_lt_zero j)
      | succ k ih =>
          intro hk hmax j hj
          have hbefore := ih (by omega) (by omega)
          rcases Nat.lt_succ_iff_lt_or_eq.mp hj with hlt | rfl
          · exact hbefore j hlt
          · cases j with
            | zero => exact recvFinish_nil
            | succ i =>
                obtain ⟨c, hpieces, htext⟩ := bytewise_take text (k := i) (by omega)
                have hwaiting := bytewise_waiting text (k := i) (by omega) (by omega)
                  (fun j hj => hbefore j (by omega))
                by_contra hfinish
                rw [Bool.not_eq_false, htext] at hfinish
                have hlength : (text.take i).length = i := by rw [List.length_take]; omega
                have hdone := hwaiting.finish (p := [c])
                  (by rw [hlength, List.length_singleton]; omega) hfinish
                rw [← received_concat, ← hpieces] at hdone
                have hzero := hearly (bytewise (text.take (i + 1)))
                  (bytewise (text.drop (i + 1)))
                  (by rw [bytewise, bytewise, bytewise, ← List.map_append, List.take_append_drop])
                  (by
                    intro hnil
                    have := congrArg List.length hnil
                    rw [bytewise, List.length_map, List.length_drop, List.length_nil] at this
                    omega)
                omega
    have hall := honce []
    rw [List.append_nil] at hall
    have hfits : text.length ≤ ByteBuffer.defaultMaxSize := by
      by_contra hlong
      obtain ⟨c, hpieces, -⟩ := bytewise_take text (k := ByteBuffer.defaultMaxSize) (by omega)
      have hwaiting := bytewise_waiting text (k := ByteBuffer.defaultMaxSize) (by omega)
        (Nat.le_refl _) (fun j hj => hwait _ (by omega) (Nat.le_refl _) j (by omega))
      have hlength : (text.take ByteBuffer.defaultMaxSize).length = ByteBuffer.defaultMaxSize := by
        rw [List.length_take]
        omega
      have hover := hwaiting.overflow (p := [c]) (by rw [hlength, List.length_singleton]; omega)
      rw [← received_concat, ← hpieces] at hover
      have hsplit : bytewise text = bytewise (text.take (ByteBuffer.defaultMaxSize + 1)) ++
          bytewise (text.drop (ByteBuffer.defaultMaxSize + 1)) := by
        rw [bytewise, bytewise, bytewise, ← List.map_append, List.take_append_drop]
      rw [hsplit, received_append, foldl_destroyed hover.1] at hall
      omega
    have hbefore := hwait text.length (Nat.le_refl _) (by omega)
    refine ⟨hfits, ?_, hbefore⟩
    by_contra hnot
    rw [Bool.not_eq_true] at hnot
    have hwaiting := bytewise_waiting text (k := text.length) (Nat.le_refl _) hfits
      (fun j hj => by
        rcases Nat.lt_or_eq_of_le hj with hlt | rfl
        · exact hbefore j hlt
        · rw [List.take_length]
          exact hnot)
    rw [List.take_length] at hwaiting
    rw [hwaiting.acks_eq] at hall
    exact absurd hall (by decide)
  · rintro ⟨hfits, hfinish, hbefore⟩ pieces hpieces
    have hwaiting : ∀ got rest, pieces = got ++ rest → rest ≠ [] →
        Waiting got.flatten (received got) := by
      intro got rest hsplit hrest
      have hflat : got.flatten ++ rest.flatten = text := by
        rw [← List.flatten_append, ← hsplit, hpieces.flatten_eq]
      have hmore : 0 < rest.flatten.length := by
        obtain ⟨p, rest', rfl⟩ := List.exists_cons_of_ne_nil hrest
        have hp := (hpieces.sizes p (by rw [hsplit]; simp)).1
        rw [List.flatten_cons, List.length_append]
        have := List.length_pos_iff.mpr hp
        omega
      have hlength : got.flatten.length + rest.flatten.length = text.length := by
        rw [← List.length_append, hflat]
      apply received_waiting text
      · exact fun p hp => (hpieces.sizes p (by rw [hsplit]; exact List.mem_append_left _ hp)).1
      · exact ⟨_, hflat⟩
      · omega
      · exact fun k hk _ => hbefore k (by omega)
    refine ⟨fun got rest hsplit hrest => ?_, fun later => ?_⟩
    · rw [(hwaiting got rest hsplit hrest).acks_eq]
      rfl
    · have hpne : pieces ≠ [] := by
        rintro rfl
        exact hne hpieces.flatten_eq.symm
      obtain ⟨init, p, rfl⟩ : ∃ init p, pieces = init ++ [p] :=
        ⟨pieces.dropLast, pieces.getLast hpne, (List.dropLast_append_getLast hpne).symm⟩
      have htext : init.flatten ++ p = text := by rw [← flatten_concat, hpieces.flatten_eq]
      have hdone := (hwaiting init [p] rfl (List.cons_ne_nil p [])).finish (p := p)
        (by rw [← List.length_append, htext]; exact hfits) (by rw [htext]; exact hfinish)
      rw [← received_concat] at hdone
      rw [received_append, foldl_destroyed hdone.1, hdone.2]

end AckReceiver
end CoreLooper.Http
