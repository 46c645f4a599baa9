import CoreLooper.TimerNumbers

/-!
# The ids a handler gives its timers

`NextTimerId` counts through the values of a `long`, may give an id again while it is free, and
searches the map once the counter has passed zero. Its histories here are those of one program:
calls of `NextTimerId` alone, of `SetTimerEx`, which takes its id from there, of `SetTimer` with any
id, and of `KillTimer`, on any handlers. In such a history the id is valid, that is neither zero nor
live, in every state but the blocked ones.
-/
namespace CoreLooper.TimerManager

/-- A call of `NextTimerId` for its id alone. -/
def takeTimerId (handler : HandlerId) (s : State) : State :=
  let (_, next, rewind) := nextTimerId s handler
  { s with
    mNextTimerId := Function.update s.mNextTimerId handler next
    mTimerIdRewind := Function.update s.mTimerIdRewind handler rewind }

theorem takeTimerId_next (handler h : HandlerId) (s : State) :
    (takeTimerId handler s).mNextTimerId h =
      if h = handler then (nextTimerId s handler).2.1 else s.mNextTimerId h :=
  Function.update_apply s.mNextTimerId handler _ h

theorem takeTimerId_rewind (handler h : HandlerId) (s : State) :
    (takeTimerId handler s).mTimerIdRewind h =
      if h = handler then (nextTimerId s handler).2.2 else s.mTimerIdRewind h :=
  Function.update_apply s.mTimerIdRewind handler _ h

/-- The calls that give, use or free ids. -/
inductive IdCall where
  | nextTimerId (handler : HandlerId)
  | setTimer (handler : HandlerId) (timerId : Int64) (interval : UInt32)
      (extraInfo : Option TimerExtraInfo)
  | setTimerEx (handler : HandlerId) (interval : UInt32) (extraInfo : Option TimerExtraInfo)
  | killTimer (handler : HandlerId) (timerId : Int64)
  deriving DecidableEq

def idCall (env : Env) (s : State) : IdCall → State
  | .nextTimerId handler => takeTimerId handler s
  | .setTimer handler timerId interval extra =>
      setTimer env handler timerId.toInt interval.toNat extra s
  | .setTimerEx handler interval extra => setTimerEx env handler interval.toNat extra s
  | .killTimer handler timerId => killTimer handler timerId.toInt s

def history (env : Env) (calls : List IdCall) : State := calls.foldl (idCall env) (init env)

/-- Every entry of a map is a node under its own key. -/
def State.Keyed (s : State) : Prop := ∀ h id n, s.mTimerMap h id = some n →
  n < s.nextNode ∧ (s.heap n).mHandler = h ∧ (s.heap n).mTimerId = id

/-- In such a state `NextTimerId` gives an id that is zero or live: its counter stands at an id
that cannot be given again, and either the counter has not passed zero and the next id is live, or
it has, all ids up to the next zero are live, and zero is not. -/
structure State.Blocked (s : State) (handler : HandlerId) : Prop where
  used : s.mNextTimerId handler = 0 ∨ s.mTimerMap handler (s.mNextTimerId handler) ≠ none
  notLast : toLong (s.mNextTimerId handler + 1) ≠ 0
  taken : if s.mTimerIdRewind handler then
      s.mTimerMap handler 0 = none ∧
        ∀ k : ℕ, (∀ i ≤ k, toLong (s.mNextTimerId handler + 1 + i) ≠ 0) →
          s.mTimerMap handler (toLong (s.mNextTimerId handler + 1 + k)) ≠ none
    else s.mTimerMap handler (toLong (s.mNextTimerId handler + 1)) ≠ none

theorem toLong_toLong_succ (x : ℤ) : toLong (toLong x + 1) = toLong (x + 1) :=
  Int.bmod_add_bmod

/-- Fewer than `2 ^ 64` ids in a row are distinct. -/
theorem toLong_inj {x y : ℤ} (h : toLong x = toLong y) (hlt : |x - y| < 2 ^ 64) : x = y := by
  have hmod : x % ((2 ^ 64 : ℕ) : ℤ) = y % ((2 ^ 64 : ℕ) : ℤ) := by
    rw [← Int.bmod_emod (x := x), ← Int.bmod_emod (x := y)]
    exact congrArg (· % ((2 ^ 64 : ℕ) : ℤ)) h
  have hdvd : ((2 ^ 64 : ℕ) : ℤ) ∣ x - y := Int.ModEq.dvd hmod.symm
  have hzero : x - y = 0 := Int.eq_zero_of_abs_lt_dvd hdvd (by simpa using hlt)
  omega

namespace State.Keyed
variable {s : State}

/-- The size of a map is the number of its live ids. -/
theorem timerCount_eq (h : s.Keyed) {handler : HandlerId} {live : Finset TimerId}
    (hlive : ∀ id, s.mTimerMap handler id ≠ none ↔ id ∈ live) :
    timerCount s handler = live.card := by
  have hcard : timerCount s handler = ((Finset.range s.nextNode).filter fun node =>
      (s.heap node).mHandler = handler ∧
        s.mTimerMap handler (s.heap node).mTimerId = some node).card := by
    rw [timerCount, List.countP_eq_length_filter, Finset.card_def, Finset.filter_val,
      Finset.range_val, Multiset.range, Multiset.filter_coe, Multiset.coe_card]
  rw [hcard]
  refine Finset.card_bij (fun node _ => (s.heap node).mTimerId) ?_ ?_ ?_
  · intro node hnode
    have hmap := (Finset.mem_filter.mp hnode).2.2
    exact (hlive _).mp (by rw [hmap]; exact Option.some_ne_none node)
  · intro m hm n hn heq
    have hm' := (Finset.mem_filter.mp hm).2.2
    have hn' := (Finset.mem_filter.mp hn).2.2
    rw [heq, hn'] at hm'
    exact (Option.some.inj hm').symm
  · intro id hid
    obtain ⟨node, hnode⟩ := Option.ne_none_iff_exists'.mp ((hlive id).mpr hid)
    obtain ⟨hlt, hh, hid'⟩ := h handler id node hnode
    refine ⟨node, Finset.mem_filter.mpr ⟨Finset.mem_range.mpr hlt, hh, ?_⟩, hid'⟩
    rw [hid', hnode]

/-- The live ids of a handler are finitely many. -/
theorem exists_live (h : s.Keyed) (handler : HandlerId) :
    ∃ live : Finset TimerId, ∀ id, s.mTimerMap handler id ≠ none ↔ id ∈ live := by
  refine ⟨((Finset.range s.nextNode).image fun n => (s.heap n).mTimerId).filter
    fun id => s.mTimerMap handler id ≠ none, fun id => ?_⟩
  rw [Finset.mem_filter]
  refine (and_iff_right_of_imp fun hid => ?_).symm
  obtain ⟨node, hnode⟩ := Option.ne_none_iff_exists'.mp hid
  obtain ⟨hlt, -, hid'⟩ := h handler id node hnode
  exact Finset.mem_image.mpr ⟨node, Finset.mem_range.mpr hlt, hid'⟩

/-- So many live ids in a row, and no more, can a map hold as it has entries. -/
theorem le_timerCount (h : s.Keyed) {handler : HandlerId} {x : ℤ} {k : ℕ} (hk : k ≤ 2 ^ 64)
    (hrow : ∀ i < k, s.mTimerMap handler (toLong (x + i)) ≠ none) : k ≤ timerCount s handler := by
  obtain ⟨live, hlive⟩ := h.exists_live handler
  rw [h.timerCount_eq hlive]
  have hsub : (Finset.range k).image (fun i : ℕ => toLong (x + i)) ⊆ live := by
    intro id hid
    obtain ⟨i, hi, rfl⟩ := Finset.mem_image.mp hid
    exact (hlive _).mp (hrow i (Finset.mem_range.mp hi))
  have hinj : Set.InjOn (fun i : ℕ => toLong (x + i)) (Finset.range k) := by
    intro i hi j hj heq
    have hi' : i < k := Finset.mem_range.mp hi
    have hj' : j < k := Finset.mem_range.mp hj
    have := toLong_inj heq (abs_lt.mpr ⟨by omega, by omega⟩)
    omega
  calc k = ((Finset.range k).image fun i : ℕ => toLong (x + i)).card := by
        rw [Finset.card_image_of_injOn hinj, Finset.card_range]
    _ ≤ live.card := Finset.card_le_card hsub

/-- The search stops at the first free id. -/
theorem firstFree_spec (handler : HandlerId) (fuel : ℕ) (x : ℤ) :
    ∃ k ≤ fuel, firstFree s handler fuel (toLong x) = toLong (x + k) ∧
      (∀ i < k, s.mTimerMap handler (toLong (x + i)) ≠ none) ∧
      (k = fuel ∨ s.mTimerMap handler (toLong (x + k)) = none) := by
  induction fuel generalizing x with
  | zero => exact ⟨0, le_rfl, by simp [firstFree], fun i hi => by omega, Or.inl rfl⟩
  | succ fuel ih =>
      cases hmap : s.mTimerMap handler (toLong x) with
      | none =>
          refine ⟨0, Nat.zero_le _, ?_, fun i hi => by omega, Or.inr ?_⟩
          · simp [firstFree, hmap]
          · simpa using hmap
      | some node =>
          obtain ⟨k, hk, heq, hlive, hstop⟩ := ih (x + 1)
          have hshift : ∀ i : ℕ, x + 1 + (i : ℤ) = x + ((i + 1 : ℕ) : ℤ) := by
            intro i
            push_cast
            ring
          refine ⟨k + 1, by omega, ?_, fun i hi => ?_, ?_⟩
          · simp only [firstFree, hmap]
            rw [toLong_toLong_succ, heq, hshift]
          · cases i with
            | zero => simp [hmap]
            | succ i =>
                rw [← hshift]
                exact hlive i (by omega)
          · rw [← hshift]
            exact hstop.imp (congrArg (· + 1)) id

/-- Fewer live ids than there are values of a `long`: the search finds a free one. -/
theorem firstFree_free (h : s.Keyed) (handler : HandlerId)
    (hspace : timerCount s handler < 2 ^ 64) (x : ℤ) :
    ∃ k : ℕ, firstFree s handler (timerCount s handler) (toLong x) = toLong (x + k) ∧
      (∀ i < k, s.mTimerMap handler (toLong (x + i)) ≠ none) ∧
      s.mTimerMap handler (toLong (x + k)) = none := by
  obtain ⟨k, hk, heq, hlive, hstop⟩ := firstFree_spec (s := s) handler (timerCount s handler) x
  refine ⟨k, heq, hlive, ?_⟩
  by_contra hsome
  have hfull : k = timerCount s handler := hstop.resolve_right hsome
  have hrow : ∀ i < k + 1, s.mTimerMap handler (toLong (x + i)) ≠ none := by
    intro i hi
    rcases Nat.lt_succ_iff_lt_or_eq.mp hi with hi | rfl
    · exact hlive i hi
    · exact hsome
  have hle := h.le_timerCount (by omega) hrow
  omega

theorem map_of_timerCount (h : s.Keyed) {handler : HandlerId} (hzero : timerCount s handler = 0)
    (id : TimerId) : s.mTimerMap handler id = none := by
  obtain ⟨live, hlive⟩ := h.exists_live handler
  rw [h.timerCount_eq hlive, Finset.card_eq_zero] at hzero
  by_contra hne
  have hid := (hlive id).mp hne
  rw [hzero] at hid
  cases hid

theorem timerCount_pos (h : s.Keyed) {handler : HandlerId} {id : TimerId}
    (hid : s.mTimerMap handler id ≠ none) : timerCount s handler ≠ 0 :=
  fun hzero => hid (h.map_of_timerCount hzero id)

/-- What `NextTimerId` does when the id of its counter cannot be given again. -/
theorem nextTimerId_advance {handler : HandlerId} (hcount : timerCount s handler ≠ 0)
    (hused : s.mNextTimerId handler = 0 ∨ s.mTimerMap handler (s.mNextTimerId handler) ≠ none) :
    TimerManager.nextTimerId s handler =
      if toLong (s.mNextTimerId handler + 1) = 0 then
        (firstFree s handler (timerCount s handler) (toLong 1),
          firstFree s handler (timerCount s handler) (toLong 1), true)
      else if s.mTimerIdRewind handler then
        (firstFree s handler (timerCount s handler) (toLong (s.mNextTimerId handler + 1)),
          firstFree s handler (timerCount s handler) (toLong (s.mNextTimerId handler + 1)), true)
      else (toLong (s.mNextTimerId handler + 1), toLong (s.mNextTimerId handler + 1), false) := by
  have hreuse : ¬ (s.mNextTimerId handler ≠ 0 ∧
      s.mTimerMap handler (s.mNextTimerId handler) = none) := by
    rintro ⟨hne, hnone⟩
    exact hused.elim hne fun hlive => hlive hnone
  unfold TimerManager.nextTimerId
  dsimp only
  rw [if_neg hcount, if_neg hreuse]
  by_cases hlast : toLong (s.mNextTimerId handler + 1) = 0
  · rw [hlast]
    simp
  · cases hrewind : s.mTimerIdRewind handler <;> simp [hlast]

/-- The id is valid unless the handler is blocked. -/
theorem nextTimerId_iff (h : s.Keyed) (handler : HandlerId)
    (hspace : timerCount s handler < 2 ^ 64 - 1) :
    ((TimerManager.nextTimerId s handler).1 ≠ 0 ∧
      s.mTimerMap handler (TimerManager.nextTimerId s handler).1 = none) ↔
        ¬ s.Blocked handler := by
  by_cases hzero : timerCount s handler = 0
  · have hnone := h.map_of_timerCount hzero
    have hid : (TimerManager.nextTimerId s handler).1 = 1 := by
      simp [TimerManager.nextTimerId, hzero]
    rw [hid]
    refine iff_of_true ⟨one_ne_zero, hnone 1⟩ fun hb => ?_
    have htaken := hb.taken
    split_ifs at htaken
    · exact htaken.2 0 (fun i hi => by simpa [Nat.le_zero.mp hi] using hb.notLast) (hnone _)
    · exact htaken (hnone _)
  by_cases hused : s.mNextTimerId handler = 0 ∨
      s.mTimerMap handler (s.mNextTimerId handler) ≠ none
  swap
  · push Not at hused
    have hid : (TimerManager.nextTimerId s handler).1 = s.mNextTimerId handler := by
      simp [TimerManager.nextTimerId, hzero, hused]
    rw [hid]
    exact iff_of_true hused fun hb => hb.used.elim hused.1 fun hlive => hlive hused.2
  rw [nextTimerId_advance hzero hused]
  by_cases hlast : toLong (s.mNextTimerId handler + 1) = 0
  · -- the counter passes zero: a search from 1 meets it only after all other ids
    rw [if_pos hlast]
    obtain ⟨k, heq, hlive, hfree⟩ := h.firstFree_free handler (by omega) 1
    dsimp only
    rw [heq]
    refine iff_of_true ⟨fun hz => ?_, hfree⟩ fun hb => hb.notLast hlast
    have hk := h.le_timerCount (k := min k (2 ^ 64)) (Nat.min_le_right _ _)
      fun i hi => hlive i (Nat.lt_of_lt_of_le hi (Nat.min_le_left _ _))
    have hinj := toLong_inj (x := 1 + k) (y := 0) (hz.trans (by decide))
      (abs_lt.mpr ⟨by omega, by omega⟩)
    omega
  rw [if_neg hlast]
  cases hrewind : s.mTimerIdRewind handler with
  | false =>
      simp only [Bool.false_eq_true, if_false]
      constructor
      · rintro ⟨-, hfree⟩ hb
        have htaken := hb.taken
        rw [hrewind] at htaken
        exact htaken hfree
      · intro hb
        refine ⟨hlast, ?_⟩
        by_contra hlive
        exact hb ⟨hused, hlast, by rw [hrewind]; exact hlive⟩
  | true =>
      simp only [if_true]
      obtain ⟨k, heq, hlive, hfree⟩ := h.firstFree_free handler (by omega)
        (s.mNextTimerId handler + 1)
      rw [heq]
      constructor
      · rintro ⟨hne, -⟩ hb
        have htaken := hb.taken
        rw [hrewind, if_pos rfl] at htaken
        refine htaken.2 k (fun i hi hz => ?_) hfree
        rcases Nat.lt_or_eq_of_le hi with hi | rfl
        · exact hlive i hi (hz ▸ htaken.1)
        · exact hne hz
      · intro hb
        refine ⟨fun hz => hb ⟨hused, hlast, ?_⟩, hfree⟩
        rw [hrewind, if_pos rfl]
        refine ⟨hz ▸ hfree, fun k' hk' => ?_⟩
        by_cases hlt : k' < k
        · exact hlive k' hlt
        · exact absurd hz (hk' k (by omega))

end State.Keyed

section
variable {env : Env} {s : State}

theorem setTimer_keyed (h : s.Keyed) (handler : HandlerId) (timerId : TimerId) (interval : ℕ)
    (extra : Option TimerExtraInfo) : (setTimer env handler timerId interval extra s).Keyed := by
  have hmap := setTimer_map env s handler timerId interval extra
  have hheap : ∀ n, (setTimer env handler timerId interval extra s).heap n =
      if n = s.nextNode then ⟨handler, timerId, env.tick s.reads + (if interval = 0 then 1 else
        interval), if interval = 0 then 1 else interval, extra⟩ else s.heap n :=
    fun n => State.setNode_heap s s.nextNode _ n
  have hnext : (setTimer env handler timerId interval extra s).nextNode = s.nextNode + 1 := rfl
  generalize setTimer env handler timerId interval extra s = s' at *
  intro h' id' n hn
  rw [hmap, State.setMap_map] at hn
  rw [hnext, hheap]
  split_ifs at hn with hkey
  · rw [Option.some.injEq] at hn
    rw [if_pos hn.symm, hkey.1, hkey.2, ← hn]
    exact ⟨Nat.lt_succ_self _, rfl, rfl⟩
  · obtain ⟨hlt, hown⟩ := h h' id' n hn
    rw [if_neg (Nat.ne_of_lt hlt)]
    exact ⟨Nat.lt_succ_of_lt hlt, hown⟩

theorem idCall_keyed (h : s.Keyed) (c : IdCall) : (idCall env s c).Keyed := by
  cases c with
  | nextTimerId handler => exact h
  | setTimer handler timerId interval extra => exact setTimer_keyed h handler _ _ extra
  | setTimerEx handler interval extra =>
      exact setTimer_keyed (s := takeTimerId handler s) h handler _ _ extra
  | killTimer handler timerId =>
      obtain ⟨hheap, hnext, -⟩ := killTimer_frame (s := s) handler timerId.toInt
      intro h' id' n hn
      have hn' : (killTimer handler timerId.toInt s).mTimerMap h' id' = some n := hn
      rw [killTimer_map, State.setMap_map] at hn'
      split_ifs at hn'
      show n < (killTimer handler timerId.toInt s).nextNode ∧ _
      rw [hnext]
      show n < s.nextNode ∧ ((killTimer handler timerId.toInt s).heap n).mHandler = h' ∧
        ((killTimer handler timerId.toInt s).heap n).mTimerId = id'
      rw [hheap]
      exact h h' id' n hn'

theorem foldl_idCall_keyed (calls : List IdCall) (h : s.Keyed) :
    (calls.foldl (idCall env) s).Keyed := by
  induction calls generalizing s with
  | nil => exact h
  | cons c calls ih => exact ih (idCall_keyed h c)

theorem history_keyed (env : Env) (calls : List IdCall) : (history env calls).Keyed :=
  foldl_idCall_keyed calls fun _ _ _ hm => by cases hm

end

/-- In every history the id `NextTimerId` gives is neither zero nor live, unless the handler is
blocked. -/
theorem nextTimerId_valid_iff (env : Env) (calls : List IdCall) (handler : HandlerId)
    (hspace : timerCount (history env calls) handler < 2 ^ 64 - 1) :
    ((nextTimerId (history env calls) handler).1 ≠ 0 ∧
      (history env calls).mTimerMap handler (nextTimerId (history env calls) handler).1 = none) ↔
        ¬ (history env calls).Blocked handler :=
  (history_keyed env calls).nextTimerId_iff handler hspace

theorem nextTimerId_valid_iff_two :
    ((nextTimerId (history (jumpEnv 0 0) [.setTimerEx 1 5 none, .nextTimerId 1]) 1).1 ≠ 0 ∧
      (history (jumpEnv 0 0) [.setTimerEx 1 5 none, .nextTimerId 1]).mTimerMap 1
        (nextTimerId (history (jumpEnv 0 0) [.setTimerEx 1 5 none, .nextTimerId 1]) 1).1 = none ↔
      ¬ (history (jumpEnv 0 0) [.setTimerEx 1 5 none, .nextTimerId 1]).Blocked 1) ∧
    (nextTimerId (history (jumpEnv 0 0) [.setTimerEx 1 5 none, .nextTimerId 1]) 1).1 = 2 := by
  have hone : timerCount (history (jumpEnv 0 0) [.setTimerEx 1 5 none, .nextTimerId 1]) 1 = 1 := by
    decide
  exact ⟨nextTimerId_valid_iff (jumpEnv 0 0) _ 1 (by rw [hone]; norm_num), by decide⟩

/-- `SetTimer` takes its ids from `NextTimerId`, as in every call of a looper. -/
def IdCall.OfLooper : IdCall → Prop
  | .setTimer .. => False
  | _ => True

/-- As long as the counter of a handler has not passed zero, its ids are counted from 1. -/
def State.Counted (s : State) : Prop := ∀ h, s.mTimerIdRewind h = false →
  ∃ c : ℕ, c < 2 ^ 64 ∧ s.mNextTimerId h = toLong c ∧
    ∀ id, s.mTimerMap h id ≠ none → ∃ i : ℕ, 1 ≤ i ∧ i ≤ c ∧ id = toLong i

namespace State.Counted
variable {env : Env} {s : State}

/-- The id `NextTimerId` gives is counted with the others. -/
theorem nextTimerId (h : s.Counted) (hkeyed : s.Keyed) (handler : HandlerId)
    (hrewind : (TimerManager.nextTimerId s handler).2.2 = false) :
    ∃ c : ℕ, 1 ≤ c ∧ c < 2 ^ 64 ∧ (TimerManager.nextTimerId s handler).1 = toLong c ∧
      (TimerManager.nextTimerId s handler).2.1 = toLong c ∧
        ∀ id, s.mTimerMap handler id ≠ none → ∃ i : ℕ, 1 ≤ i ∧ i ≤ c ∧ id = toLong i := by
  by_cases hzero : timerCount s handler = 0
  · have hid : TimerManager.nextTimerId s handler = (1, 1, false) := by
      simp [TimerManager.nextTimerId, hzero]
    rw [hid]
    exact ⟨1, le_rfl, by norm_num, by decide, by decide,
      fun id hlive => absurd (hkeyed.map_of_timerCount hzero id) hlive⟩
  by_cases hused : s.mNextTimerId handler = 0 ∨
      s.mTimerMap handler (s.mNextTimerId handler) ≠ none
  swap
  · push Not at hused
    have hid : TimerManager.nextTimerId s handler =
        (s.mNextTimerId handler, s.mNextTimerId handler, s.mTimerIdRewind handler) := by
      simp [TimerManager.nextTimerId, hzero, hused]
    rw [hid] at hrewind ⊢
    obtain ⟨c, hc, hnext, hlive⟩ := h handler hrewind
    refine ⟨c, ?_, hc, hnext, hnext, hlive⟩
    rcases Nat.eq_zero_or_pos c with rfl | hpos
    · exact absurd hnext hused.1
    · exact hpos
  rw [Keyed.nextTimerId_advance hzero hused] at hrewind ⊢
  split_ifs at hrewind ⊢ with hlast hpassed
  obtain ⟨c, hc, hnext, hlive⟩ := h handler (by simpa using hpassed)
  have hcast : ((c + 1 : ℕ) : ℤ) = c + 1 := by push_cast; rfl
  have hsucc : toLong (s.mNextTimerId handler + 1) = toLong ((c + 1 : ℕ) : ℤ) := by
    rw [hnext, toLong_toLong_succ, hcast]
  refine ⟨c + 1, Nat.le_add_left 1 c, ?_, hsucc, hsucc, fun id hid => ?_⟩
  · by_contra hge
    have hfull : c + 1 = 2 ^ 64 := by omega
    rw [hsucc, hfull] at hlast
    exact hlast (by decide)
  · obtain ⟨i, h1, hi, heq⟩ := hlive id hid
    exact ⟨i, h1, by omega, heq⟩

theorem takeTimerId (h : s.Counted) (hkeyed : s.Keyed) (handler : HandlerId) :
    (TimerManager.takeTimerId handler s).Counted := by
  intro h' hrewind
  rw [takeTimerId_rewind] at hrewind
  rw [takeTimerId_next]
  split_ifs at hrewind ⊢ with hh
  · subst hh
    obtain ⟨c, -, hc, -, hnext, hlive⟩ := h.nextTimerId hkeyed h' hrewind
    exact ⟨c, hc, hnext, hlive⟩
  · exact h h' hrewind

theorem setTimerEx (h : s.Counted) (hkeyed : s.Keyed) (handler : HandlerId) (interval : ℕ)
    (extra : Option TimerExtraInfo) :
    (TimerManager.setTimerEx env handler interval extra s).Counted := by
  intro h' hrewind
  have htake : (TimerManager.takeTimerId handler s).mTimerIdRewind h' = false := hrewind
  obtain ⟨c, hc, hnext, hlive⟩ := h.takeTimerId hkeyed handler h' htake
  refine ⟨c, hc, hnext, fun id hid => ?_⟩
  have hid' : (s.setMap handler (TimerManager.nextTimerId s handler).1
    (some s.nextNode)).mTimerMap h' id ≠ none := hid
  rw [State.setMap_map] at hid'
  split_ifs at hid' with hkey
  · obtain ⟨rfl, rfl⟩ := hkey
    rw [takeTimerId_rewind, if_pos rfl] at htake
    rw [takeTimerId_next, if_pos rfl] at hnext
    obtain ⟨c', h1, hc', hid, hnext', -⟩ := h.nextTimerId hkeyed h' htake
    have := toLong_inj (hnext'.symm.trans hnext) (abs_lt.mpr ⟨by omega, by omega⟩)
    exact ⟨c', h1, by omega, hid⟩
  · exact hlive id hid'

/-- It speaks of the ids only. -/
theorem congr {s' : State} (h : s.Counted) (hids : s'.mNextTimerId = s.mNextTimerId)
    (hrewind : s'.mTimerIdRewind = s.mTimerIdRewind)
    (hmap : ∀ h id, s'.mTimerMap h id ≠ none → s.mTimerMap h id ≠ none) : s'.Counted := by
  intro handler hfalse
  rw [hrewind] at hfalse
  obtain ⟨c, hc, hnext, hlive⟩ := h handler hfalse
  exact ⟨c, hc, by rw [hids, hnext], fun id hid => hlive id (hmap handler id hid)⟩

theorem killTimer (h : s.Counted) (handler : HandlerId) (timerId : TimerId) :
    (TimerManager.killTimer handler timerId s).Counted := by
  have hids : (TimerManager.killTimer handler timerId s).mNextTimerId = s.mNextTimerId ∧
      (TimerManager.killTimer handler timerId s).mTimerIdRewind = s.mTimerIdRewind := by
    unfold TimerManager.killTimer
    split <;> exact ⟨rfl, rfl⟩
  refine h.congr hids.1 hids.2 fun h' id hid => ?_
  rw [killTimer_map, State.setMap_map] at hid
  split_ifs at hid with hkey
  · exact absurd rfl hid
  · exact hid

theorem idCall (h : s.Counted) (hkeyed : s.Keyed) {c : IdCall} (hc : c.OfLooper) :
    (TimerManager.idCall env s c).Counted := by
  cases c with
  | nextTimerId handler => exact h.takeTimerId hkeyed handler
  | setTimer handler timerId interval extra => exact hc.elim
  | setTimerEx handler interval extra => exact h.setTimerEx hkeyed handler _ extra
  | killTimer handler timerId => exact h.killTimer handler timerId.toInt

/-- Where the ids come from `NextTimerId`, a handler is blocked only after its counter has passed
zero. -/
theorem rewound (h : s.Counted) {handler : HandlerId} (hb : s.Blocked handler) :
    s.mTimerIdRewind handler = true := by
  by_contra hrewind
  have hfalse : s.mTimerIdRewind handler = false := by simpa using hrewind
  have htaken := hb.taken
  rw [hfalse] at htaken
  obtain ⟨c, hc, hnext, hlive⟩ := h handler hfalse
  obtain ⟨i, h1, hi, heq⟩ := hlive _ htaken
  rw [hnext, toLong_toLong_succ] at heq
  have := toLong_inj heq (abs_lt.mpr ⟨by omega, by omega⟩)
  omega

/-- The id is then never that of a live timer, which a new timer would replace: only zero may be
given in vain. -/
theorem nextTimerId_free (h : s.Counted) (hkeyed : s.Keyed) (handler : HandlerId)
    (hspace : timerCount s handler < 2 ^ 64 - 1) :
    s.mTimerMap handler (TimerManager.nextTimerId s handler).1 = none := by
  by_cases hb : s.Blocked handler
  · have hrewind := h.rewound hb
    have hcount : timerCount s handler ≠ 0 := by
      have htaken := hb.taken
      rw [hrewind, if_pos rfl] at htaken
      exact hkeyed.timerCount_pos
        (htaken.2 0 fun i hi => by simpa [Nat.le_zero.mp hi] using hb.notLast)
    rw [Keyed.nextTimerId_advance hcount hb.used, if_neg hb.notLast, hrewind, if_pos rfl]
    obtain ⟨k, heq, -, hfree⟩ := hkeyed.firstFree_free handler (by omega)
      (s.mNextTimerId handler + 1)
    dsimp only
    rw [heq]
    exact hfree
  · exact ((hkeyed.nextTimerId_iff handler hspace).mpr hb).2

theorem init (env : Env) : (TimerManager.init env).Counted :=
  fun _ _ => ⟨0, by norm_num, show (0 : ℤ) = toLong 0 by decide, fun _ hid => absurd rfl hid⟩

end State.Counted

theorem history_counted (env : Env) {calls : List IdCall} (hcalls : ∀ c ∈ calls, c.OfLooper) :
    (history env calls).Counted := by
  have hfold : ∀ (calls : List IdCall) (s : State), (∀ c ∈ calls, c.OfLooper) → s.Keyed →
      s.Counted → (calls.foldl (idCall env) s).Counted := by
    intro calls
    induction calls with
    | nil => exact fun _ _ _ h => h
    | cons c calls ih =>
        intro s hcalls hkeyed h
        exact ih _ (fun c' hc' => hcalls c' (List.mem_cons_of_mem _ hc')) (idCall_keyed hkeyed c)
          (h.idCall hkeyed (hcalls c List.mem_cons_self))
  exact hfold calls (init env) hcalls (fun _ _ _ hm => (by cases hm)) (.init env)

/-- No call of a looper replaces a live timer. -/
theorem nextTimerId_not_live (env : Env) {calls : List IdCall} (hcalls : ∀ c ∈ calls, c.OfLooper)
    (handler : HandlerId) (hspace : timerCount (history env calls) handler < 2 ^ 64 - 1) :
    (history env calls).mTimerMap handler (nextTimerId (history env calls) handler).1 = none :=
  (history_counted env hcalls).nextTimerId_free (history_keyed env calls) handler hspace

/-- A timer is set, and the one before it, of id `i`, is killed. -/
def replaceTimer (i : ℕ) : List IdCall :=
  [.setTimerEx 0 1 none, .killTimer 0 (Int64.ofInt i)]

/-- Handler 0 keeps one timer, replaced again and again, until its counter stands at -1. It keeps
the timer of that id and goes on with a second one until the counter stands at -2. -/
def replaceTimers (m : ℕ) : List IdCall := (List.range m).flatMap fun i => replaceTimer (i + 1)

def rounds (m n : ℕ) : List IdCall :=
  (.setTimerEx 0 1 none :: replaceTimers m) ++ (.setTimerEx 0 1 none :: replaceTimers n)

def blockedCalls : List IdCall := rounds (2 ^ 64 - 2) (2 ^ 64 - 3)

/-- Where the ids of handler 0 stand. -/
structure State.Stands (s : State) (next : ℤ) (rewind : Bool) (live : Finset TimerId) : Prop where
  keyed : s.Keyed
  next_eq : s.mNextTimerId 0 = next
  rewind_eq : s.mTimerIdRewind 0 = rewind
  live_iff : ∀ id, s.mTimerMap 0 id ≠ none ↔ id ∈ live

namespace State.Stands
variable (env : Env) {s : State} {next : ℤ} {rewind : Bool} {live : Finset TimerId}

theorem setTimerEx (h : s.Stands next rewind live) {id : TimerId} {rewind' : Bool}
    (hid : TimerManager.nextTimerId s 0 = (id, id, rewind')) :
    (idCall env s (.setTimerEx 0 1 none)).Stands id rewind' (insert id live) where
  keyed := idCall_keyed h.keyed _
  next_eq := (takeTimerId_next 0 0 s).trans (by rw [if_pos rfl, hid])
  rewind_eq := (takeTimerId_rewind 0 0 s).trans (by rw [if_pos rfl, hid])
  live_iff := by
    intro id'
    show (s.setMap 0 (TimerManager.nextTimerId s 0).1 (some s.nextNode)).mTimerMap 0 id' ≠ none ↔ _
    rw [State.setMap_map, hid, Finset.mem_insert, ← h.live_iff]
    split_ifs with hkey
    · simp [hkey.2]
    · simp only [true_and] at hkey
      simp [hkey]

theorem killTimer (h : s.Stands next rewind live) (id : Int64) :
    (idCall env s (.killTimer 0 id)).Stands next rewind (live.erase id.toInt) where
  keyed := idCall_keyed h.keyed _
  next_eq := by
    show (TimerManager.killTimer 0 id.toInt s).mNextTimerId 0 = next
    unfold TimerManager.killTimer
    split <;> exact h.next_eq
  rewind_eq := by
    show (TimerManager.killTimer 0 id.toInt s).mTimerIdRewind 0 = rewind
    unfold TimerManager.killTimer
    split <;> exact h.rewind_eq
  live_iff := by
    intro id'
    show (TimerManager.killTimer 0 id.toInt s).mTimerMap 0 id' ≠ none ↔ _
    rw [killTimer_map, State.setMap_map, Finset.mem_erase, ← h.live_iff]
    split_ifs with hkey
    · simp [hkey.2]
    · simp only [true_and] at hkey
      simp [hkey]

/-- The next id is free: it is given, and becomes the counter. -/
theorem nextTimerId_next (h : s.Stands next rewind live) (hnext : next ∈ live)
    (hlast : toLong (next + 1) ≠ 0) (hfree : toLong (next + 1) ∉ live) :
    TimerManager.nextTimerId s 0 = (toLong (next + 1), toLong (next + 1), rewind) := by
  have hused : s.mTimerMap 0 next ≠ none := (h.live_iff next).mpr hnext
  have hnone : s.mTimerMap 0 (toLong (next + 1)) = none :=
    not_not.mp fun hlive => hfree ((h.live_iff _).mp hlive)
  have hfirst : ∀ fuel, firstFree s 0 fuel (toLong (next + 1)) = toLong (next + 1) := by
    intro fuel
    cases fuel with
    | zero => rfl
    | succ fuel => simp [firstFree, hnone]
  rw [Keyed.nextTimerId_advance (h.keyed.timerCount_pos hused) (Or.inr (h.next_eq ▸ hused)),
    h.next_eq, h.rewind_eq, if_neg hlast, hfirst]
  cases rewind <;> rfl

/-- Past -1 the counter goes on at 1. -/
theorem nextTimerId_wrap (h : s.Stands (-1) rewind live) (hnext : -1 ∈ live) (hfree : 1 ∉ live) :
    TimerManager.nextTimerId s 0 = (1, 1, true) := by
  have hused : s.mTimerMap 0 (-1) ≠ none := (h.live_iff (-1)).mpr hnext
  have hnone : s.mTimerMap 0 1 = none := not_not.mp fun hlive => hfree ((h.live_iff 1).mp hlive)
  have hone : toLong 1 = 1 := by decide
  have hfirst : ∀ fuel, firstFree s 0 fuel 1 = 1 := by
    intro fuel
    cases fuel with
    | zero => rfl
    | succ fuel => simp [firstFree, hnone]
  rw [Keyed.nextTimerId_advance (h.keyed.timerCount_pos hused) (Or.inr (h.next_eq ▸ hused)),
    h.next_eq, if_pos (by decide), hone, hfirst]

/-- One timer replaces another; further timers of `other` stay. -/
theorem replace (i : ℕ) {other : Finset TimerId}
    (h : s.Stands (toLong i) rewind (insert (toLong i) other)) (hi : toLong i ∉ other)
    (hlast : toLong (i + 1) ≠ 0) (hfree : toLong (i + 1) ∉ other) :
    ((replaceTimer i).foldl (idCall env) s).Stands (toLong (i + 1)) rewind
      (insert (toLong (i + 1)) other) := by
  have hne : toLong (i + 1) ≠ toLong i := by
    intro heq
    have := toLong_inj heq (abs_lt.mpr ⟨by omega, by omega⟩)
    omega
  have hset := h.setTimerEx env (h.nextTimerId_next (Finset.mem_insert_self _ _)
    (by rw [toLong_toLong_succ]; exact hlast) (by
      rw [toLong_toLong_succ, Finset.mem_insert]
      exact not_or.mpr ⟨hne, hfree⟩))
  rw [toLong_toLong_succ] at hset
  have hkill := hset.killTimer env (Int64.ofInt i)
  have hlive : (insert (toLong (i + 1)) (insert (toLong i) other)).erase (Int64.ofInt i).toInt =
      insert (toLong (i + 1)) other := by
    have hint : (Int64.ofInt i).toInt = toLong i := Int64.toInt_ofInt
    rw [hint, Finset.insert_comm, Finset.erase_insert]
    rw [Finset.mem_insert]
    exact not_or.mpr ⟨hne.symm, hi⟩
  rwa [hlive] at hkill

theorem replaces {other : Finset TimerId} (m : ℕ)
    (h : s.Stands (toLong 1) rewind (insert (toLong 1) other))
    (hother : ∀ i : ℕ, 1 ≤ i → i ≤ m + 1 → toLong i ≠ 0 ∧ toLong i ∉ other) :
    ((replaceTimers m).foldl (idCall env) s).Stands (toLong (m + 1)) rewind
      (insert (toLong (m + 1)) other) := by
  induction m with
  | zero => exact h
  | succ m ih =>
      have h1 := hother (m + 1) (by omega) (by omega)
      have h2 := hother (m + 2) (by omega) le_rfl
      have hcast : ((m + 1 : ℕ) : ℤ) = m + 1 := by push_cast; rfl
      have hcast2 : ((m + 2 : ℕ) : ℤ) = m + 1 + 1 := by push_cast; ring
      rw [hcast] at h1
      rw [hcast2] at h2
      have hold := ih fun i hi hm => hother i hi (by omega)
      have hold' : ((replaceTimers m).foldl (idCall env) s).Stands (toLong (m + 1 : ℕ)) rewind
          (insert (toLong (m + 1 : ℕ)) other) := by
        rw [hcast]
        exact hold
      have hnew := State.Stands.replace env (m + 1) hold' (by rw [hcast]; exact h1.2)
        (by rw [hcast]; exact h2.1) (by rw [hcast]; exact h2.2)
      rw [hcast] at hnew
      rw [replaceTimers, List.range_succ, List.flatMap_append, List.foldl_append,
        List.flatMap_singleton, hcast]
      exact hnew

end State.Stands

theorem toLong_eq_zero {i : ℕ} (h : toLong i = 0) (hi : i < 2 ^ 64) : i = 0 := by
  have := toLong_inj (x := i) (y := 0) (h.trans (by decide)) (abs_lt.mpr ⟨by omega, by omega⟩)
  omega

theorem toLong_eq_neg_one {i : ℕ} (h : toLong i = -1) (hi : i < 2 ^ 64) : i = 2 ^ 64 - 1 := by
  have hlast : toLong ((2 ^ 64 - 1 : ℕ) : ℤ) = -1 := by decide
  have := toLong_inj (h.trans hlast.symm) (abs_lt.mpr ⟨by omega, by omega⟩)
  omega

theorem init_stands (env : Env) : (init env).Stands 0 false ∅ :=
  ⟨fun _ _ _ hm => (by cases hm), rfl, rfl, fun id =>
    iff_of_false (fun h => h rfl) (Finset.notMem_empty id)⟩

theorem rounds_stands (env : Env) {m n : ℕ} (hm : m + 2 = 2 ^ 64) (hn : n + 3 = 2 ^ 64) :
    (history env (rounds m n)).Stands (toLong (n + 1)) true {toLong (n + 1), -1} := by
  have hone : toLong 1 = 1 := by decide
  have hfirst := (init_stands env).setTimerEx env (show _ = (1, 1, false) by
    simp [nextTimerId, timerCount, init, getCurrentMillisec])
  rw [← hone] at hfirst
  have hround := hfirst.replaces env m fun i hi hm =>
    ⟨fun hz => absurd (toLong_eq_zero hz (by omega)) (by omega), Finset.notMem_empty _⟩
  have hlast : toLong (m + 1) = -1 := by
    have hcast : (m : ℤ) + 1 = 2 ^ 64 - 1 := by omega
    rw [hcast]
    decide
  rw [hlast] at hround
  have hwrap := hround.setTimerEx env
    (hround.nextTimerId_wrap (Finset.mem_insert_self _ _) (by decide))
  rw [← hone] at hwrap
  have hagain := hwrap.replaces env n fun i hi hm =>
    ⟨fun hz => absurd (toLong_eq_zero hz (by omega)) (by omega), fun hmem => by
      rcases Finset.mem_insert.mp hmem with hneg | hmem
      · exact absurd (toLong_eq_neg_one hneg (by omega)) (by omega)
      · cases hmem⟩
  rw [history, rounds, List.foldl_append, List.foldl_cons, List.foldl_cons]
  exact hagain

theorem blocked_stands (env : Env) : (history env blockedCalls).Stands (-2) true {-2, -1} := by
  have hsecond : toLong ((2 ^ 64 - 3 : ℕ) + 1) = -2 := by decide
  rw [← hsecond, blockedCalls]
  exact rounds_stands env (by norm_num) (by norm_num)

/-- Its counter stands at -2, of the ids up to zero the only one, -1, is live, and zero is free. -/
theorem nextTimerId_zero : ¬ ∀ (env : Env) (calls : List IdCall) (handler : HandlerId),
    timerCount (history env calls) handler < 2 ^ 64 - 1 →
      (nextTimerId (history env calls) handler).1 ≠ 0 ∧
        (history env calls).mTimerMap handler
          (nextTimerId (history env calls) handler).1 = none := by
  intro hall
  have h := blocked_stands (jumpEnv 0 0)
  have hcount : timerCount (history (jumpEnv 0 0) blockedCalls) 0 = 2 := by
    rw [h.keyed.timerCount_eq h.live_iff]
    decide
  have hspace : timerCount (history (jumpEnv 0 0) blockedCalls) 0 < 2 ^ 64 - 1 := by
    rw [hcount]
    norm_num
  refine (h.keyed.nextTimerId_iff 0 hspace).mp (hall _ _ 0 hspace) ⟨Or.inr ?_, ?_, ?_⟩
  · rw [h.next_eq]
    exact (h.live_iff _).mpr (by decide)
  · rw [h.next_eq]
    decide
  · rw [h.rewind_eq, if_pos rfl, h.next_eq]
    refine ⟨not_not.mp fun hlive => absurd ((h.live_iff 0).mp hlive) (by decide), fun k hk => ?_⟩
    cases k with
    | zero => exact (h.live_iff _).mpr (by decide)
    | succ k => exact absurd (by decide) (hk 1 (Nat.le_add_left 1 k))

end CoreLooper.TimerManager
