import CoreLooper.OrderedMap
import CoreLooper.Transitions

/-!
# The garbage collector of destroyed handlers

A looper keeps its destroyed handlers until nothing else refers to them. `gc` walks over them
once; it runs on the messages of `PostDispose` and on a timer of its own, and the time to the
next pass grows with the number of passes since the map was last empty.

The shared pointers are not part of the state. What a pass finds of each handler (whether others
hold it, and which handlers its destructor destroys) is part of the step.
-/
namespace CoreLooper.LooperGc
open OrderedMap Transitions

abbrev HandlerId := ℕ

/-- The part of `tagLooperInternalData` that collection uses. `mTimerGC` holds the interval of
the periodic timer, or nothing where the timer id is 0. -/
structure LooperInternalData where
  mDestroyedHandlers : OrderedMap HandlerId HandlerId (· < ·)
  mTimerGC : Option UInt32
  mSeqGC : Int32
  deriving DecidableEq

/-- What a pass finds at one handler. -/
inductive Visit where
  | inUse
  /-- Another thread has locked the handler while the map let it go. -/
  | locked
  /-- The handler is freed, and its destructor destroys others. -/
  | freed (destroys : List HandlerId)
  deriving DecidableEq, Repr

/-- The messages of a looper that concern collection. `BM_POST_DISPOSE` first drops an object,
whose destructor may destroy handlers. A pass visits the handlers in the order of the map; those
past the end of the list are in use. -/
inductive Msg where
  | handlerDestroy (handler : HandlerId)
  | postDispose (destroys : List HandlerId) (visits : List Visit)
  | timerGC (visits : List Visit)
  deriving DecidableEq, Repr

namespace LooperInternalData

def start : LooperInternalData := ⟨OrderedMap.empty, none, 0⟩

/-- The looper's `SetTimer` kills the timer with the old id. A manager takes 0 as 1. -/
def setTimer (interval : UInt32) (s : LooperInternalData) : LooperInternalData :=
  { s with mTimerGC := some (if interval = 0 then 1 else interval) }

def killTimer (s : LooperInternalData) : LooperInternalData := { s with mTimerGC := none }

/-- `BM_HANDLER_DESTROY`. -/
def handlerDestroy (s : LooperInternalData) (handler : HandlerId) : LooperInternalData :=
  let s := { s with mDestroyedHandlers := s.mDestroyedHandlers.insert handler handler }
  if s.mTimerGC = none then s.setTimer 1 else s

/-- The body of the loop at the handler `key`. -/
def visit (key : HandlerId) (v : Visit) (s : LooperInternalData) : LooperInternalData :=
  match v with
  | .inUse => s
  | .locked => { s with mDestroyedHandlers := s.mDestroyedHandlers.insert key key }
  | .freed destroys =>
      let s := destroys.foldl handlerDestroy s
      { s with mDestroyedHandlers := s.mDestroyedHandlers.erase key }

/-- The iterator that follows `key`. -/
def next (s : LooperInternalData) (key : HandlerId) : Option HandlerId :=
  (s.mDestroyedHandlers.items.find? (key < ·.1)).map Prod.fst

/-- The loop from the iterator `iter` on. The iterator moves before the handler is touched. -/
def gcLoop : Option HandlerId → List Visit → LooperInternalData → LooperInternalData
  | none, _, s => s
  | some _, [], s => s
  | some key, v :: visits, s => gcLoop (s.next key) visits (s.visit key v)

def gc (visits : List Visit) (s : LooperInternalData) : LooperInternalData :=
  let s := { s with mSeqGC := s.mSeqGC + 1 }
  let s := gcLoop (s.mDestroyedHandlers.items.head?.map Prod.fst) visits s
  if s.mDestroyedHandlers.size = 0 then { s.killTimer with mSeqGC := 0 } else s

/-- The macro `MIN`. -/
def MIN (a b : Int32) : Int32 := if a < b then a else b

/-- The time to the next pass after the pass number `n`, as `SetTimer` receives it. -/
def interval (n : Int32) : UInt32 := (MIN 1000 ((n + 1) * n / 2)).toUInt32

def onTimer (visits : List Visit) (s : LooperInternalData) : LooperInternalData :=
  let s := s.gc visits
  if 0 < s.mSeqGC then s.setTimer (interval s.mSeqGC) else s

/-- One message of the looper's thread. The timer fires only while it is armed. -/
def step (s : LooperInternalData) : Msg → Option LooperInternalData
  | .handlerDestroy handler => some (s.handlerDestroy handler)
  | .postDispose destroys visits => some ((destroys.foldl handlerDestroy s).gc visits)
  | .timerGC visits => if s.mTimerGC = none then none else some (s.onTimer visits)

/-- The timer is armed, with at most a second. -/
def Running (s : LooperInternalData) : Prop := ∃ ms, s.mTimerGC = some ms ∧ 1 ≤ ms ∧ ms ≤ 1000

/-- While handlers wait to be freed, the timer runs. -/
def Collects (s : LooperInternalData) : Prop := s.mDestroyedHandlers.size ≠ 0 → s.Running

/-- The pass that a timer starts leaves no handler behind, or it has a number whose product with
its successor is an `int`. -/
def PassFits (s : LooperInternalData) : Msg → Prop
  | .timerGC visits => s.mSeqGC < 46340 ∨ (s.gc visits).mDestroyedHandlers.size = 0
  | _ => True

instance (s : LooperInternalData) : DecidablePred s.PassFits := fun m => by
  cases m <;> unfold PassFits <;> infer_instance

/-- Nothing waits to be freed and there is no timer. -/
def Idle (s : LooperInternalData) : Prop := s.mTimerGC = none ∧ s.mDestroyedHandlers.size = 0

variable {s s' : LooperInternalData} {handler key : HandlerId} {destroys : List HandlerId}
  {visits : List Visit}

theorem setTimer_running {ms : UInt32} (h : 1 ≤ ms) (h' : ms ≤ 1000) :
    (s.setTimer ms).Running := by
  refine ⟨ms, ?_, h, h'⟩
  unfold setTimer
  rw [if_neg]
  rintro rfl
  exact absurd h (by decide)

theorem handlerDestroy_running (h : s.Idle ∨ s.Running) : (s.handlerDestroy handler).Running := by
  unfold handlerDestroy
  dsimp only
  split
  case isTrue => exact setTimer_running (by decide) (by decide)
  case isFalse hne =>
    rcases h with h | h
    · exact absurd h.1 hne
    · exact h

theorem destroys_running (h : s.Running) : (destroys.foldl handlerDestroy s).Running := by
  induction destroys generalizing s with
  | nil => exact h
  | cons a destroys ih => exact ih (handlerDestroy_running (Or.inr h))

theorem destroys_inv (h : s.Idle ∨ s.Running) :
    (destroys.foldl handlerDestroy s).Idle ∨ (destroys.foldl handlerDestroy s).Running := by
  cases destroys with
  | nil => exact h
  | cons a destroys =>
      exact Or.inr (destroys_running (s := s.handlerDestroy a) (handlerDestroy_running h))

theorem handlerDestroy_mSeqGC : (s.handlerDestroy handler).mSeqGC = s.mSeqGC := by
  unfold handlerDestroy
  dsimp only
  split <;> rfl

theorem destroys_mSeqGC : (destroys.foldl handlerDestroy s).mSeqGC = s.mSeqGC := by
  induction destroys generalizing s with
  | nil => rfl
  | cons a destroys ih => rw [List.foldl_cons, ih, handlerDestroy_mSeqGC]

theorem visit_running {v : Visit} (h : s.Running) : (s.visit key v).Running := by
  cases v with
  | inUse => exact h
  | locked => exact h
  | freed destroys => exact destroys_running h

theorem visit_mSeqGC {v : Visit} : (s.visit key v).mSeqGC = s.mSeqGC := by
  cases v with
  | inUse => rfl
  | locked => rfl
  | freed destroys => exact destroys_mSeqGC

theorem gcLoop_running {iter : Option HandlerId} (h : s.Running) :
    (gcLoop iter visits s).Running := by
  induction visits generalizing iter s with
  | nil => cases iter <;> exact h
  | cons v visits ih =>
      cases iter with
      | none => exact h
      | some key => exact ih (visit_running h)

theorem gcLoop_mSeqGC {iter : Option HandlerId} : (gcLoop iter visits s).mSeqGC = s.mSeqGC := by
  induction visits generalizing iter s with
  | nil => cases iter <;> rfl
  | cons v visits ih =>
      cases iter with
      | none => rfl
      | some key => exact ih.trans visit_mSeqGC

theorem gc_inv (h : s.Idle ∨ s.Running) : (s.gc visits).Idle ∨ (s.gc visits).Running := by
  unfold gc
  dsimp only
  split
  case isTrue hsize => exact Or.inl ⟨rfl, hsize⟩
  case isFalse hsize =>
    rcases h with h | h
    · -- the walk over an empty map ends at once
      have hnil : s.mDestroyedHandlers.items = [] := List.length_eq_zero_iff.mp h.2
      refine absurd ?_ hsize
      simp only [hnil, List.head?_nil, Option.map_none]
      cases visits <;> exact h.2
    · exact Or.inr (gcLoop_running h)

/-- The count of passes goes up, or the map is empty and it starts anew. -/
theorem gc_mSeqGC : (s.gc visits).mSeqGC = 0 ∧ (s.gc visits).mDestroyedHandlers.size = 0 ∨
    (s.gc visits).mSeqGC = s.mSeqGC + 1 := by
  unfold gc
  dsimp only
  split
  case isTrue hsize => exact Or.inl ⟨rfl, hsize⟩
  case isFalse => exact Or.inr gcLoop_mSeqGC

/-- A pass that leaves nothing behind starts the count anew. -/
theorem gc_empty (h : (s.gc visits).mDestroyedHandlers.size = 0) : (s.gc visits).mSeqGC = 0 := by
  unfold gc at h ⊢
  dsimp only at h ⊢
  split
  case isTrue => rfl
  case isFalse hsize =>
    rw [if_neg hsize] at h
    exact absurd h hsize

theorem toInt_succ {n : Int32} (h : n < 2147483647) : (n + 1).toInt = n.toInt + 1 := by
  have hlt : n.toInt < 2147483647 := Int32.lt_iff_toInt_lt.mp h
  have hle := n.le_toInt
  rw [Int32.toInt_add]
  apply Int.bmod_eq_of_le <;> simp <;> omega

/-- What the back-off computes in `int` is the triangular number while the product fits. -/
theorem toInt_triangle {n : Int32} (h : 0 < n) (h' : n ≤ 46340) :
    ((n + 1) * n / 2).toInt = (n.toInt + 1) * n.toInt / 2 := by
  have hpos : 0 < n.toInt := Int32.lt_iff_toInt_lt.mp h
  have hle : n.toInt ≤ 46340 := Int32.le_iff_toInt_le.mp h'
  have hprod : (n.toInt + 1) * n.toInt ≤ 46341 * 46340 :=
    mul_le_mul (by omega) hle hpos.le (by omega)
  have hnonneg : 0 ≤ (n.toInt + 1) * n.toInt := by positivity
  have hmul : ((n + 1) * n).toInt = (n.toInt + 1) * n.toInt := by
    rw [Int32.toInt_mul, toInt_succ (Int32.lt_of_le_of_lt h' (by decide))]
    apply Int.bmod_eq_of_le <;> simp <;> omega
  rw [Int32.toInt_div, hmul, show (2 : Int32).toInt = 2 from rfl,
    Int.tdiv_eq_ediv_of_nonneg hnonneg]
  apply Int.bmod_eq_of_le <;> simp <;> omega

theorem interval_bounds {n : Int32} (h : 0 < n) (h' : n ≤ 46340) :
    1 ≤ interval n ∧ interval n ≤ 1000 := by
  have hpos : 0 < n.toInt := Int32.lt_iff_toInt_lt.mp h
  have hfit := toInt_triangle h h'
  have hone : 1 ≤ (n + 1) * n / 2 := by
    rw [Int32.le_iff_toInt_le, hfit]
    show 1 ≤ (n.toInt + 1) * n.toInt / 2
    have : 2 * 1 ≤ (n.toInt + 1) * n.toInt := mul_le_mul (by omega) hpos (by omega) (by omega)
    omega
  have hmin : 1 ≤ MIN 1000 ((n + 1) * n / 2) ∧ MIN 1000 ((n + 1) * n / 2) ≤ 1000 := by
    unfold MIN
    split
    case isTrue => exact ⟨by decide, by decide⟩
    case isFalse hlt => exact ⟨hone, Int32.not_lt.mp hlt⟩
  constructor
  · exact Int32.toUInt32_le (a := 1) (by decide) hmin.1
  · exact Int32.toUInt32_le (b := 1000) (Int32.le_trans (by decide) hmin.1) hmin.2

theorem toNat_of_neg {x : Int32} (h : x.toInt < 0) : 2 ^ 31 ≤ x.toUInt32.toNat := by
  have hbmod : x.toInt = (x.toUInt32.toNat : ℤ).bmod (2 ^ 32) := BitVec.toInt_eq_toNat_bmod _
  by_contra hlt
  rw [Int.bmod_eq_of_le (by omega) (by omega)] at hbmod
  omega

/-- From the pass number 46341 on the product wraps below zero, and the interval is more than
twenty-four days. -/
theorem interval_overflow {n : Int32} (h : 46340 < n) (h' : n < 65536) :
    2 ^ 31 ≤ (interval n).toNat := by
  have hlt : 46340 < n.toInt := Int32.lt_iff_toInt_lt.mp h
  have hlt' : n.toInt < 65536 := Int32.lt_iff_toInt_lt.mp h'
  have hlow : 46342 * 46341 ≤ (n.toInt + 1) * n.toInt :=
    mul_le_mul (by omega) (by omega) (by omega) (by omega)
  have hhigh : (n.toInt + 1) * n.toInt ≤ 65536 * 65535 :=
    mul_le_mul (by omega) (by omega) (by omega) (by omega)
  have hmul : ((n + 1) * n).toInt = -(2 ^ 32 - (n.toInt + 1) * n.toInt) := by
    rw [Int32.toInt_mul, toInt_succ (Int32.lt_trans h' (by decide)), Int.neg_sub,
      ← Int.sub_bmod_right _ (2 ^ 32)]
    apply Int.bmod_eq_of_le <;> simp <;> omega
  have hneg : ((n + 1) * n / 2).toInt < 0 := by
    rw [Int32.toInt_div, hmul, show (2 : Int32).toInt = 2 from rfl, Int.neg_tdiv,
      Int.tdiv_eq_ediv_of_nonneg (by omega), Int.bmod_eq_of_le (by simp; omega) (by simp; omega)]
    omega
  unfold interval MIN
  rw [if_neg]
  · exact toNat_of_neg hneg
  · rw [Int32.not_lt, Int32.le_iff_toInt_le]
    exact hneg.le.trans (by decide)

theorem onTimer_inv (h : s.Idle ∨ s.Running) (hfits : s.PassFits (.timerGC visits)) :
    (s.onTimer visits).Idle ∨ (s.onTimer visits).Running := by
  unfold onTimer
  dsimp only
  split
  case isFalse => exact gc_inv h
  case isTrue hpos =>
    have hle : (s.gc visits).mSeqGC ≤ 46340 := by
      rcases @gc_mSeqGC s visits with ⟨hzero, -⟩ | hsucc
      · rw [hzero]
        decide
      · rcases hfits with hlt | hempty
        · rw [hsucc, Int32.le_iff_toInt_le, toInt_succ (Int32.lt_trans hlt (by decide))]
          exact Int32.lt_iff_toInt_lt.mp hlt
        · rw [gc_empty hempty]
          decide
    obtain ⟨hone, hmax⟩ := interval_bounds hpos hle
    exact Or.inr (setTimer_running hone hmax)

theorem step_inv {m : Msg} (h : s.Idle ∨ s.Running) (hfits : s.PassFits m)
    (hs : s.step m = some s') : s'.Idle ∨ s'.Running := by
  cases m with
  | handlerDestroy handler =>
      cases hs
      exact Or.inr (handlerDestroy_running h)
  | postDispose destroys visits =>
      cases hs
      exact gc_inv (destroys_inv h)
  | timerGC visits =>
      rw [step, Option.ite_none_left_eq_some] at hs
      cases hs.2
      exact onTimer_inv h hfits

/-- Collection never stops while each pass of the timer has a number at most 46340 or leaves no
handler behind. -/
theorem run_collects (h : Reachable step PassFits start s) : s.Collects := by
  have hinv : s.Idle ∨ s.Running :=
    h.invariant (Or.inl ⟨rfl, rfl⟩) fun _ _ _ hi hok hs => step_inv hi hok hs
  intro hsize
  rcases hinv with hidle | hrunning
  · exact absurd hidle.2 hsize
  · exact hrunning

theorem run_collects_inUse : ((start.handlerDestroy 7).onTimer [.inUse]).Collects :=
  run_collects (Reachable.next (a := .timerGC [.inUse])
    (Reachable.next (a := .handlerDestroy 7) Reachable.start trivial rfl) (by decide) rfl)

theorem gc_inUse (hsize : s.mDestroyedHandlers.size ≠ 0) :
    s.gc [] = { s with mSeqGC := s.mSeqGC + 1 } := by
  unfold gc
  have hloop : ∀ (iter : Option HandlerId) (s : LooperInternalData), gcLoop iter [] s = s := by
    intro iter s
    cases iter <;> rfl
  dsimp only
  rw [hloop, if_neg hsize]

theorem onTimer_inUse (hsize : s.mDestroyedHandlers.size ≠ 0) (harmed : s.mTimerGC ≠ none) :
    (s.onTimer []).mDestroyedHandlers = s.mDestroyedHandlers ∧
      (s.onTimer []).mTimerGC ≠ none ∧ (s.onTimer []).mSeqGC = s.mSeqGC + 1 := by
  unfold onTimer
  rw [gc_inUse hsize]
  dsimp only
  split
  · exact ⟨rfl, Option.some_ne_none _, rfl⟩
  · exact ⟨rfl, harmed, rfl⟩

/-- The timer passes follow each other while a handler stays in use, and the map stays as it is. -/
theorem run_inUse (k : ℕ) (hsize : s.mDestroyedHandlers.size ≠ 0) (harmed : s.mTimerGC ≠ none) :
    ∃ s', run step s (List.replicate k (.timerGC [])) = some s' ∧
      s'.mDestroyedHandlers = s.mDestroyedHandlers ∧ s'.mTimerGC ≠ none ∧
      s'.mSeqGC = s.mSeqGC + Int32.ofNat k := by
  induction k generalizing s with
  | zero => exact ⟨s, rfl, rfl, harmed, (Int32.add_zero _).symm⟩
  | succ k ih =>
      obtain ⟨hitems, harmed', hseq⟩ := onTimer_inUse hsize harmed
      obtain ⟨s', hrun, hs', ha', hn'⟩ := ih (s := s.onTimer []) (by rwa [hitems]) harmed'
      refine ⟨s', ?_, hs'.trans hitems, ha', ?_⟩
      · rw [List.replicate_succ, run, List.foldlM_cons, step, if_neg harmed]
        exact hrun
      · rw [hn', hseq, Int32.ofNat_add, Int32.add_assoc, Int32.add_comm 1]
        rfl

theorem run_inUse_succ (k : ℕ) (hsize : s.mDestroyedHandlers.size ≠ 0)
    (harmed : s.mTimerGC ≠ none) :
    ∃ s' : LooperInternalData,
      run step s (List.replicate (k + 1) (.timerGC [])) = some (s'.onTimer []) ∧
      s'.mDestroyedHandlers.size ≠ 0 ∧ s'.mSeqGC = s.mSeqGC + Int32.ofNat k := by
  obtain ⟨s', hrun, hitems, harmed', hseq⟩ := run_inUse k hsize harmed
  refine ⟨s', ?_, by rwa [hitems], hseq⟩
  rw [List.replicate_succ', run, List.foldlM_append, ← run, hrun]
  show (step s' (.timerGC [])).bind some = _
  rw [step, if_neg harmed']
  rfl

theorem onTimer_items :
    (s.onTimer visits).mDestroyedHandlers = (s.gc visits).mDestroyedHandlers := by
  unfold onTimer
  dsimp only
  split <;> rfl

/-- A pass whose number is too large and that leaves a handler behind stops collection. -/
theorem onTimer_overflow (h : 46340 ≤ s.mSeqGC) (h' : s.mSeqGC < 65535)
    (hsize : (s.onTimer visits).mDestroyedHandlers.size ≠ 0) : ¬ (s.onTimer visits).Collects := by
  have hseq : (s.gc visits).mSeqGC = s.mSeqGC + 1 := by
    rcases @gc_mSeqGC s visits with ⟨-, hzero⟩ | hseq
    · rw [onTimer_items] at hsize
      exact absurd hzero hsize
    · exact hseq
  have hsucc := toInt_succ (Int32.lt_trans h' (by decide))
  have hlow : 46340 < s.mSeqGC + 1 := by
    rw [Int32.lt_iff_toInt_lt, hsucc]
    exact Int.lt_add_one_of_le (Int32.le_iff_toInt_le.mp h)
  have hhigh : s.mSeqGC + 1 < 65536 := by
    rw [Int32.lt_iff_toInt_lt, hsucc]
    exact Int.add_lt_add_right (Int32.lt_iff_toInt_lt.mp h') 1
  have hlong := interval_overflow hlow hhigh
  have hset : (s.onTimer visits).mTimerGC = some (interval (s.mSeqGC + 1)) := by
    unfold onTimer
    dsimp only
    rw [hseq, if_pos (Int32.lt_trans (by decide) hlow), setTimer, if_neg]
    intro hzero
    rw [hzero] at hlong
    exact absurd hlong (by decide)
  intro hcollects
  obtain ⟨ms, hms, -, hle⟩ := hcollects hsize
  rw [hset, Option.some.injEq] at hms
  rw [← hms] at hle
  exact absurd (hlong.trans (UInt32.le_iff_toNat_le.mp hle)) (by decide)

/-- The pass number 46341 comes after about half a day, and the next one is due thirty-seven days
later. -/
theorem run_collects_overflow :
    ∃ s, run step start (.handlerDestroy 7 :: List.replicate 46341 (.timerGC [])) = some s ∧
      s.mTimerGC = some 3221250959 ∧ ¬ s.Collects := by
  have hcons : ∀ ms : List Msg, run step start (.handlerDestroy 7 :: ms) =
      run step (start.handlerDestroy 7) ms := fun _ => rfl
  obtain ⟨s, hrun, hsize, hseq⟩ :=
    run_inUse_succ (s := start.handlerDestroy 7) 46340 (by decide) (by decide)
  have hseq' : s.mSeqGC = 46340 := hseq.trans (by decide)
  refine ⟨s.onTimer [], ?_, ?_, ?_⟩
  · rw [hcons]
    exact hrun
  · unfold onTimer
    rw [gc_inUse hsize, hseq']
    dsimp only
    rw [if_pos (by decide)]
    show some (if interval (46340 + 1) = 0 then 1 else interval (46340 + 1)) = _
    decide
  · apply onTimer_overflow
    · rw [hseq']
      decide
    · rw [hseq']
      decide
    · rw [onTimer_items, gc_inUse hsize]
      exact hsize

end LooperInternalData
end CoreLooper.LooperGc
