import CoreLooper.TimerCallbacks
import CoreLooper.TimerIds

/-!
# Removing all timers of a handler

`RemoveAllTimer` walks the timer map of a handler and unlinks its nodes, but passes over the
entries whose id, taken as an `int`, is negative. When `gc` has collected a handler, its data is
destructed, which walks the map once more and frees it together with the nodes still in it.
-/
namespace CoreLooper.TimerManager

/-- The conversion of a `long` to an `int` of 32 bits. -/
def toInt (x : TimerId) : ℤ := x.bmod (2 ^ 32)

/-- The nodes of a handler's map. The order of an `unordered_map` is unspecified; nothing below
depends on it. -/
def timerNodes (s : State) (handler : HandlerId) : List NodeId :=
  (List.range s.nextNode).filter fun node =>
    (s.heap node).mHandler = handler ∧ s.mTimerMap handler (s.heap node).mTimerId = some node

/-- One turn of the loop of `RemoveAllTimer`. -/
def removeEntry (handler : HandlerId) (s : State) (node : NodeId) : State :=
  let id := toInt (s.heap node).mTimerId
  if id ≥ 0 then (removeTimer node s).setMap handler (s.heap node).mTimerId none else s

def removeAllTimer (handler : HandlerId) (s : State) : State :=
  (timerNodes s handler).foldl (removeEntry handler) s

/-- `gc` calls `RemoveAllTimer` for a handler without owners, and so does the destructor of its
data, which then frees the map. -/
def collectHandler (handler : HandlerId) (s : State) : State :=
  let s := removeAllTimer handler s
  let s := removeAllTimer handler s
  { s with mTimerMap := Function.update s.mTimerMap handler fun _ => none }

/-- The timers of the other handlers are as they were, on every list in their order. -/
structure OthersKept (handler : HandlerId) (s s' : State) : Prop where
  heap_eq : s'.heap = s.heap
  map_eq : ∀ h, h ≠ handler → s'.mTimerMap h = s.mTimerMap h
  spoke_eq : ∀ k j, (s'.spoke k j).filter (fun n => (s.heap n).mHandler ≠ handler) =
    (s.spoke k j).filter fun n => (s.heap n).mHandler ≠ handler
  ready_eq : s'.mReadyNodes.filter (fun n => (s.heap n).mHandler ≠ handler) =
    s.mReadyNodes.filter fun n => (s.heap n).mHandler ≠ handler

/-- No timer of the handler is left. -/
structure Removed (handler : HandlerId) (s s' : State) : Prop extends OthersKept handler s s' where
  spokes : ∀ k j, ∀ n ∈ s'.spoke k j, (s'.heap n).mHandler ≠ handler
  ready : ∀ n ∈ s'.mReadyNodes, (s'.heap n).mHandler ≠ handler
  map : ∀ id, s'.mTimerMap handler id = none

section
variable {handler : HandlerId} {s : State}

theorem mem_timerNodes {node : NodeId} : node ∈ timerNodes s handler ↔ node < s.nextNode ∧
    (s.heap node).mHandler = handler ∧
      s.mTimerMap handler (s.heap node).mTimerId = some node := by
  simp [timerNodes]

/-- What the loop does with the nodes of `l`: those with a non-negative id leave every list, and
their ids leave the map. -/
structure Unlinked (handler : HandlerId) (l : List NodeId) (s s' : State) : Prop where
  heap_eq : s'.heap = s.heap
  spoke_eq : ∀ k j, s'.spoke k j =
    (s.spoke k j).filter fun n => ¬ (n ∈ l ∧ toInt (s.heap n).mTimerId ≥ 0)
  ready_eq : s'.mReadyNodes =
    s.mReadyNodes.filter fun n => ¬ (n ∈ l ∧ toInt (s.heap n).mTimerId ≥ 0)
  map_other : ∀ h, h ≠ handler → s'.mTimerMap h = s.mTimerMap h
  map_kept : ∀ id, (∀ n ∈ l, (s.heap n).mTimerId = id → toInt id < 0) →
    s'.mTimerMap handler id = s.mTimerMap handler id
  map_gone : ∀ n ∈ l, toInt (s.heap n).mTimerId ≥ 0 →
    s'.mTimerMap handler (s.heap n).mTimerId = none

namespace Unlinked
variable {l l' : List NodeId} {s' s'' : State}

theorem refl (handler : HandlerId) (s : State) : Unlinked handler [] s s :=
  ⟨rfl, fun k j => by simp, by simp, fun _ _ => rfl, fun _ _ => rfl, fun _ hn => by cases hn⟩

/-- A node leaves the lists at the first or at the second time. -/
theorem filter_eq (heq : s'.heap = s.heap) (nodes : List NodeId) :
    (nodes.filter fun n => ¬ (n ∈ l ∧ toInt (s.heap n).mTimerId ≥ 0)).filter
        (fun n => ¬ (n ∈ l' ∧ toInt (s'.heap n).mTimerId ≥ 0)) =
      nodes.filter fun n => ¬ (n ∈ l ++ l' ∧ toInt (s.heap n).mTimerId ≥ 0) := by
  rw [List.filter_filter, heq]
  refine List.filter_congr fun n _ => ?_
  by_cases hid : toInt (s.heap n).mTimerId ≥ 0
  · simp [hid, Bool.and_comm]
  · simp [hid]

theorem trans (h : Unlinked handler l s s') (h' : Unlinked handler l' s' s'') :
    Unlinked handler (l ++ l') s s'' where
  heap_eq := h'.heap_eq.trans h.heap_eq
  spoke_eq := fun k j => by rw [h'.spoke_eq, h.spoke_eq, filter_eq h.heap_eq]
  ready_eq := by rw [h'.ready_eq, h.ready_eq, filter_eq h.heap_eq]
  map_other := fun hd hne => (h'.map_other hd hne).trans (h.map_other hd hne)
  map_kept := fun id hid => by
    rw [h'.map_kept id fun n hn => h.heap_eq ▸ hid n (List.mem_append_right _ hn),
      h.map_kept id fun n hn => hid n (List.mem_append_left _ hn)]
  map_gone := fun n hn hid => by
    by_cases hn' : ∃ m ∈ l', (s'.heap m).mTimerId = (s.heap n).mTimerId
    · obtain ⟨m, hm, heq⟩ := hn'
      rw [← heq]
      exact h'.map_gone m hm (heq ▸ hid)
    · have hl : n ∈ l := by
        refine (List.mem_append.mp hn).resolve_right fun hl' => hn' ⟨n, hl', ?_⟩
        rw [h.heap_eq]
      rw [h'.map_kept _ fun m hm heq => absurd ⟨m, hm, heq⟩ hn']
      exact h.map_gone n hl hid

theorem entry (handler : HandlerId) (s : State) (node : NodeId) :
    Unlinked handler [node] s (removeEntry handler s node) := by
  by_cases hid : toInt (s.heap node).mTimerId ≥ 0
  · have hentry : removeEntry handler s node =
        (removeTimer node s).setMap handler (s.heap node).mTimerId none := if_pos hid
    have hmap : ∀ h' id', (removeEntry handler s node).mTimerMap h' id' =
        if h' = handler ∧ id' = (s.heap node).mTimerId then none else s.mTimerMap h' id' :=
      fun h' id' => hentry ▸ State.setMap_map (removeTimer node s) handler h' _ id' none
    have hfilter : ∀ nodes : List NodeId, nodes.filter (· ≠ node) =
        nodes.filter fun n => ¬ (n ∈ [node] ∧ toInt (s.heap n).mTimerId ≥ 0) := by
      refine fun nodes => List.filter_congr fun n _ => ?_
      by_cases hn : n = node
      · simp [hn, hid]
      · simp [hn]
    refine ⟨by rw [hentry]; rfl, fun k j => ?_, ?_, fun hd hne => ?_, fun id hid' => ?_,
      fun n hn _ => ?_⟩
    · rw [← hfilter, hentry]
      rfl
    · rw [← hfilter, hentry]
      rfl
    · funext id
      rw [hmap, if_neg fun hkey => hne hkey.1]
    · rw [hmap, if_neg]
      rintro ⟨-, rfl⟩
      exact absurd hid (not_le.mpr (hid' node (List.mem_singleton_self node) rfl))
    · rw [List.mem_singleton.mp hn, hmap, if_pos ⟨rfl, rfl⟩]
  · have hentry : removeEntry handler s node = s := if_neg hid
    have hfilter : ∀ nodes : List NodeId, nodes =
        nodes.filter fun n => ¬ (n ∈ [node] ∧ toInt (s.heap n).mTimerId ≥ 0) := by
      refine fun nodes => (List.filter_eq_self.mpr fun n _ => ?_).symm
      by_cases hn : n = node
      · simpa [hn] using hid
      · simp [hn]
    rw [hentry]
    refine ⟨rfl, fun k j => hfilter _, hfilter _, fun _ _ => rfl, fun _ _ => rfl,
      fun n hn hn' => ?_⟩
    rw [List.mem_singleton.mp hn] at hn'
    exact absurd hn' hid

theorem foldl (handler : HandlerId) (l : List NodeId) (s : State) :
    Unlinked handler l s (l.foldl (removeEntry handler) s) := by
  induction l generalizing s with
  | nil => exact refl handler s
  | cons node l ih => exact (entry handler s node).trans (ih (removeEntry handler s node))

/-- Where only nodes of the handler are unlinked, the other handlers keep theirs. -/
theorem othersKept (h : Unlinked handler l s s') (hl : ∀ n ∈ l, (s.heap n).mHandler = handler) :
    OthersKept handler s s' := by
  have hfilter : ∀ nodes : List NodeId,
      (nodes.filter fun n => ¬ (n ∈ l ∧ toInt (s.heap n).mTimerId ≥ 0)).filter
        (fun n => (s.heap n).mHandler ≠ handler) =
      nodes.filter fun n => (s.heap n).mHandler ≠ handler := by
    intro nodes
    rw [List.filter_filter]
    refine List.filter_congr fun n _ => ?_
    by_cases hn : n ∈ l
    · simp [hl n hn]
    · simp [hn]
  exact ⟨h.heap_eq, h.map_other, fun k j => by rw [h.spoke_eq, hfilter],
    by rw [h.ready_eq, hfilter]⟩

end Unlinked

theorem removeAllTimer_unlinked (handler : HandlerId) (s : State) :
    Unlinked handler (timerNodes s handler) s (removeAllTimer handler s) :=
  .foldl handler _ s

/-- The walk leaves the timers of the other handlers alone, whatever the ids are. -/
theorem removeAllTimer_othersKept (handler : HandlerId) (s : State) :
    OthersKept handler s (removeAllTimer handler s) :=
  (removeAllTimer_unlinked handler s).othersKept fun _ hn => (mem_timerNodes.mp hn).2.1

/-- The destructor's walk and the end of the map do so too. -/
theorem collectHandler_unlinked (handler : HandlerId) (s : State) : ∃ l,
    (∀ n ∈ timerNodes s handler, n ∈ l) ∧ (∀ n ∈ l, (s.heap n).mHandler = handler) ∧
      ∃ s', Unlinked handler l s s' ∧ collectHandler handler s =
        { s' with mTimerMap := Function.update s'.mTimerMap handler fun _ => none } := by
  have h := removeAllTimer_unlinked handler s
  have h' := removeAllTimer_unlinked handler (removeAllTimer handler s)
  refine ⟨_, fun n hn => List.mem_append_left _ hn, fun n hn => ?_, _, h.trans h', rfl⟩
  rcases List.mem_append.mp hn with hn | hn
  · exact (mem_timerNodes.mp hn).2.1
  · rw [← h.heap_eq]
    exact (mem_timerNodes.mp hn).2.1

/-- A node that is linked and belongs to the handler is in its map. -/
theorem Inv.mem_timerNodes_of_linked {b : ℕ} {c : ℕ → ℕ} (h : Inv b [] c s) (hF : s.Fresh)
    {n : NodeId} (hn : n ∈ s.mReadyNodes ∨ ∃ k j, n ∈ s.spoke k j)
    (hh : (s.heap n).mHandler = handler) : n ∈ timerNodes s handler := by
  have hpos : 0 < s.linkCount n := by
    rcases hn with hn | ⟨k, j, hn⟩
    · have := List.count_pos_iff.mpr hn
      unfold State.linkCount
      omega
    · obtain ⟨hk, q, -, rfl, -⟩ := h.slot k j n hn
      exact Nat.lt_of_lt_of_le (List.count_pos_iff.mpr hn)
        (s.count_le_linkCount k _ n hk (Nat.mod_lt q (wheelSize_pos k)))
  have hle := h.links n
  rw [List.count_nil, Nat.add_zero] at hle
  have hone : s.linkCount n + ([] : List NodeId).count n = 1 := by
    rw [List.count_nil]
    split_ifs at hle <;> omega
  have hmap := (h.live hF n).mp hone
  rw [hh] at hmap
  refine mem_timerNodes.mpr ⟨?_, hh, hmap⟩
  exact (h.owner handler _ n hmap).1

/-- With no negative id, unlinking the nodes of the map unlinks all nodes of the handler. -/
theorem Unlinked.clears {b : ℕ} {c : ℕ → ℕ} {l : List NodeId} {s' : State}
    (h : Unlinked handler l s s') (hinv : Inv b [] c s) (hF : s.Fresh)
    (hl : ∀ n ∈ timerNodes s handler, n ∈ l)
    (hids : ∀ id, s.mTimerMap handler id ≠ none → toInt id ≥ 0) :
    (∀ k j, ∀ n ∈ s'.spoke k j, (s'.heap n).mHandler ≠ handler) ∧
      ∀ n ∈ s'.mReadyNodes, (s'.heap n).mHandler ≠ handler := by
  have hgone : ∀ n, (n ∈ s.mReadyNodes ∨ ∃ k j, n ∈ s.spoke k j) →
      ¬ (n ∈ l ∧ toInt (s.heap n).mTimerId ≥ 0) → (s'.heap n).mHandler ≠ handler := by
    intro n hn hkept hh
    rw [h.heap_eq] at hh
    have hmem := hinv.mem_timerNodes_of_linked hF hn hh
    refine hkept ⟨hl n hmem, hids _ ?_⟩
    rw [(mem_timerNodes.mp hmem).2.2]
    exact Option.some_ne_none n
  constructor
  · intro k j n hn
    rw [h.spoke_eq] at hn
    have hn' := List.mem_filter.mp hn
    exact hgone n (Or.inr ⟨k, j, hn'.1⟩) (of_decide_eq_true hn'.2)
  · intro n hn
    rw [h.ready_eq] at hn
    have hn' := List.mem_filter.mp hn
    exact hgone n (Or.inl hn'.1) (of_decide_eq_true hn'.2)

/-- A node with a negative id stays linked. -/
theorem Unlinked.leaves {l : List NodeId} {s' : State} (h : Unlinked handler l s s') {n : NodeId}
    (hn : n ∈ s.mReadyNodes ∨ ∃ k j, n ∈ s.spoke k j) (hid : toInt (s.heap n).mTimerId < 0) :
    n ∈ s'.mReadyNodes ∨ ∃ k j, n ∈ s'.spoke k j := by
  have hkept : ∀ nodes : List NodeId, n ∈ nodes →
      n ∈ nodes.filter fun n => ¬ (n ∈ l ∧ toInt (s.heap n).mTimerId ≥ 0) := by
    intro nodes hn
    refine List.mem_filter.mpr ⟨hn, ?_⟩
    simp [hid]
  rcases hn with hn | ⟨k, j, hn⟩
  · exact Or.inl (h.ready_eq ▸ hkept _ hn)
  · exact Or.inr ⟨k, j, h.spoke_eq k j ▸ hkept _ hn⟩

variable {b : ℕ} {c : ℕ → ℕ}

theorem removeAllTimer_removed (hinv : Inv b [] c s) (hF : s.Fresh) :
    Removed handler s (removeAllTimer handler s) ↔
      ∀ id, s.mTimerMap handler id ≠ none → toInt id ≥ 0 := by
  have h := removeAllTimer_unlinked handler s
  constructor
  · intro hremoved id hid
    by_contra hneg
    refine hid ((h.map_kept id fun n _ _ => not_le.mp hneg).symm.trans (hremoved.map id))
  · intro hids
    obtain ⟨hspokes, hready⟩ := h.clears hinv hF (fun _ hn => hn) hids
    refine ⟨removeAllTimer_othersKept handler s, hspokes, hready, fun id => ?_⟩
    cases hmap : s.mTimerMap handler id with
    | none =>
        rw [h.map_kept id fun n hn heq => ?_, hmap]
        rw [← heq, (mem_timerNodes.mp hn).2.2] at hmap
        cases hmap
    | some n =>
        obtain ⟨hlt, hh, heq⟩ := hinv.owner handler id n hmap
        have hmem : n ∈ timerNodes s handler := mem_timerNodes.mpr ⟨hlt, hh, heq ▸ hmap⟩
        have hpos : toInt id ≥ 0 := hids id (by rw [hmap]; exact Option.some_ne_none n)
        exact heq ▸ h.map_gone n hmem (heq.symm ▸ hpos)

theorem collectHandler_removed (hinv : Inv b [] c s) (hF : s.Fresh) :
    Removed handler s (collectHandler handler s) ↔
      ∀ id, s.mTimerMap handler id ≠ none → toInt id ≥ 0 := by
  obtain ⟨l, hl, hown, s', h, heq⟩ := collectHandler_unlinked handler s
  rw [heq]
  constructor
  · intro hremoved id hid
    by_contra hneg
    obtain ⟨n, hn⟩ := Option.ne_none_iff_exists'.mp hid
    obtain ⟨-, hh, heq'⟩ := hinv.owner handler id n hn
    have hlinked := s.linked_cases n (by rw [hinv.linked_of_map hF hn]; exact Nat.one_pos)
    have hheap : (s'.heap n).mHandler = handler := by rw [h.heap_eq, hh]
    rcases h.leaves hlinked (heq'.symm ▸ not_le.mp hneg) with hready | ⟨k, j, hspoke⟩
    · exact hremoved.ready n hready hheap
    · exact hremoved.spokes k j n hspoke hheap
  · intro hids
    obtain ⟨hspokes, hready⟩ := h.clears hinv hF hl hids
    have hothers := h.othersKept hown
    refine ⟨⟨hothers.heap_eq, fun hd hne => ?_, hothers.spoke_eq, hothers.ready_eq⟩, hspokes,
      hready, fun id => ?_⟩
    · exact (Function.update_of_ne hne _ _).trans (hothers.map_eq hd hne)
    · exact congrFun (Function.update_self handler (fun _ => none) s'.mTimerMap) id

/-- `RemoveAllTimer`, and the collection of the handler, leave nothing of its timers exactly if no
id of them is negative as an `int`. -/
theorem removeAllTimer_complete_iff (env : Env) (hmono : Monotone env.tick) {s : State}
    (hs : Reached env s) (hF : s.Fresh) (handler : HandlerId) :
    Removed handler s (removeAllTimer handler s) ∧ Removed handler s (collectHandler handler s) ↔
      ∀ id, s.mTimerMap handler id ≠ none → toInt id ≥ 0 := by
  obtain ⟨p, hrest⟩ := hs.rest hmono
  rw [removeAllTimer_removed hrest.inv hF, collectHandler_removed hrest.inv hF, and_self]

/-- Handler 1 loses its timer; that of handler 2 stays. -/
theorem removeAllTimer_complete_iff_seven :
    (Removed 1 (run (jumpEnv 2 6) [.setTimer 1 7 5 none, .setTimer 2 9 5 none])
        (removeAllTimer 1 (run (jumpEnv 2 6) [.setTimer 1 7 5 none, .setTimer 2 9 5 none])) ∧
      Removed 1 (run (jumpEnv 2 6) [.setTimer 1 7 5 none, .setTimer 2 9 5 none])
        (collectHandler 1 (run (jumpEnv 2 6) [.setTimer 1 7 5 none, .setTimer 2 9 5 none])) ↔
      ∀ id, (run (jumpEnv 2 6) [.setTimer 1 7 5 none, .setTimer 2 9 5 none]).mTimerMap 1 id ≠ none →
        toInt id ≥ 0) ∧
    timerNodes (removeAllTimer 1
      (run (jumpEnv 2 6) [.setTimer 1 7 5 none, .setTimer 2 9 5 none])) 1 = [] ∧
    timerNodes (removeAllTimer 1
      (run (jumpEnv 2 6) [.setTimer 1 7 5 none, .setTimer 2 9 5 none])) 2 = [1] := by
  refine ⟨removeAllTimer_complete_iff (jumpEnv 2 6) (jumpEnv_monotone 2 6) (.between _) ?_ 1,
    by decide, by decide⟩
  have hlog : (run (jumpEnv 2 6) [.setTimer 1 7 5 none, .setTimer 2 9 5 none]).log =
      [.set 0 1 7 none, .armed 0 5 0 0, .set 1 2 9 none, .armed 1 5 6 0] := by decide
  rw [State.Fresh, hlog]
  decide

/-- Handler 0 keeps one timer, replaced until its id is `2 ^ 31`. -/
def armCalls (m : ℕ) : List Call :=
  .setTimerEx 0 1 none :: (List.range m).flatMap fun i =>
    [.setTimerEx 0 1 none, .killTimer 0 (Int64.ofInt ((i + 1 : ℕ) : ℤ)).toInt]

theorem armCalls_ofLooper (m : ℕ) : ∀ c ∈ armCalls m, c.OfLooper := by
  intro c hc
  rcases List.mem_cons.mp hc with rfl | hc
  · trivial
  · obtain ⟨i, -, hi⟩ := List.mem_flatMap.mp hc
    rcases List.mem_pair.mp hi with rfl | rfl <;> trivial

/-- The ids after a call are those after the call of the history. -/
theorem State.Stands.killCall (env : Env) {next : ℤ} {rewind : Bool} {live : Finset TimerId}
    {id : Int64} (h : (idCall env s (.killTimer 0 id)).Stands next rewind live) :
    (call env s (.killTimer 0 id.toInt)).Stands next rewind live := by
  cases hmap : s.mTimerMap 0 id.toInt with
  | none =>
      simp only [call, callInside, hmap]
      exact h
  | some node =>
      simp only [call, callInside, hmap, killTimer_emit]
      exact ⟨h.keyed, h.next_eq, h.rewind_eq, h.live_iff⟩

theorem armCalls_stands (env : Env) {m : ℕ} (hm : m + 1 < 2 ^ 63) :
    (run env (armCalls m)).Stands (toLong (m + 1)) false {toLong (m + 1)} := by
  induction m with
  | zero =>
      have hone : toLong ((0 : ℕ) + 1) = 1 := by decide
      rw [hone]
      exact (init_stands env).setTimerEx env (show _ = (1, 1, false) by
        simp [nextTimerId, timerCount, init, getCurrentMillisec])
  | succ m ih =>
      have hnext : toLong ((m + 1 : ℕ) + 1) ≠ 0 := by
        intro hz
        have hcast : ((m + 1 : ℕ) : ℤ) + 1 = ((m + 2 : ℕ) : ℤ) := by push_cast; ring
        rw [hcast] at hz
        exact absurd (toLong_eq_zero hz (by omega)) (by omega)
      have hold : (run env (armCalls m)).Stands (toLong (m + 1 : ℕ)) false
          (insert (toLong (m + 1 : ℕ)) ∅) := by
        have hcast : ((m + 1 : ℕ) : ℤ) = (m : ℤ) + 1 := by push_cast; rfl
        rw [hcast]
        exact ih (by omega)
      have hstep := State.Stands.killCall env
        (hold.replace env (m + 1) (Finset.notMem_empty _) hnext (Finset.notMem_empty _))
      rw [run, armCalls, List.range_succ, List.flatMap_append, ← List.cons_append,
        List.foldl_append, List.flatMap_singleton]
      exact hstep

/-- Only `SetTimerEx` and `KillTimer` were called, yet the timer of id `2 ^ 31` is left. -/
theorem removeAllTimer_leaves : ¬ ∀ env : Env, Monotone env.tick → ∀ calls : List Call,
    (∀ c ∈ calls, c.OfLooper) → ∀ handler : HandlerId,
      Removed handler (run env calls) (removeAllTimer handler (run env calls)) := by
  intro hall
  obtain ⟨m, hm⟩ : ∃ m : ℕ, m + 1 = 2 ^ 31 := ⟨2 ^ 31 - 1, by norm_num⟩
  have hstands := armCalls_stands (jumpEnv 0 0) (m := m) (by omega)
  have hid : toLong (m + 1) = 2 ^ 31 := by
    have hcast : (m : ℤ) + 1 = 2 ^ 31 := by omega
    rw [hcast]
    decide
  rw [hid] at hstands
  have hlive := (hstands.live_iff (2 ^ 31)).mpr (Finset.mem_singleton_self _)
  have hkept := (removeAllTimer_unlinked 0 (run (jumpEnv 0 0) (armCalls m))).map_kept (2 ^ 31)
    fun _ _ _ => by decide
  have hremoved := hall (jumpEnv 0 0) (jumpEnv_monotone 0 0) _ (armCalls_ofLooper m) 0
  exact hlive (hkept.symm.trans (hremoved.map (2 ^ 31)))

end
end CoreLooper.TimerManager
