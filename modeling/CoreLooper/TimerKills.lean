import CoreLooper.TimerRuns

/-!
# Killed timers

The log of a run shows the kills, the calls of `OnTimer` and `Run`, and the nodes that were
made ready, in their order. `Obeys` relates it to the state: the timer in the map under a key
was set after the last kill under that key, and a node that was made ready is still on the
ready list, was handed out since, or was itself killed.
-/
namespace CoreLooper.TimerManager

def Event.HandsOut (n : NodeId) : Event → Prop
  | .onTimer _ _ m => m = n
  | .run _ m => m = n
  | _ => False

def TimerNode.key (v : TimerNode) : HandlerId × TimerId := (v.mHandler, v.mTimerId)

def TimerNode.IsSet (v : TimerNode) (n : NodeId) (log : List Event) : Prop :=
  ∃ previous, .set n v.mHandler v.mTimerId previous ∈ log

structure State.Obeys (s : State) : Prop where
  /-- what is killed or handed out was set -/
  known : ∀ e ∈ s.log, ∀ n, e = .killed n ∨ e.HandsOut n → n < s.nextNode
  since : ∀ h id m, s.mTimerMap h id = some m → ∃ pre previous post,
    s.log = pre ++ .set m h id previous :: post ∧
      ∀ n, .killed n ∈ post → (s.heap n).key ≠ (h, id)
  late : s.Fresh → ∀ pre n mid e m post, s.log = pre ++ .killed n :: mid ++ e :: post →
    e.HandsOut m → (s.heap m).key = (s.heap n).key → (s.heap m).IsSet m mid
  answered : s.Fresh → ∀ pre n deadTime tick post, s.log = pre ++ .ready n deadTime tick :: post →
    n ∈ s.mReadyNodes ∨ ∃ e ∈ post, e.HandsOut n ∨ e = .killed n

/-- An entry of a log with one more event at the end is that event or an old entry. -/
theorem snoc_eq_append_cons {α : Type*} {l pre post : List α} {x e : α}
    (h : l ++ [e] = pre ++ x :: post) :
    (∃ post', post = post' ++ [e] ∧ l = pre ++ x :: post') ∨ post = [] ∧ x = e ∧ l = pre := by
  rcases List.eq_nil_or_concat post with rfl | ⟨post', y, rfl⟩
  · obtain ⟨h1, h2⟩ := List.append_inj' h rfl
    exact Or.inr ⟨rfl, (List.cons.inj h2).1.symm, h1⟩
  · rw [List.concat_eq_append, ← List.cons_append, ← List.append_assoc] at h
    obtain ⟨h1, h2⟩ := List.append_inj' h rfl
    rw [List.concat_eq_append, ← (List.cons.inj h2).1]
    exact Or.inl ⟨post', rfl, h1⟩

/-- Of two entries of a log, the one that does not stand behind the other stands before it. -/
theorem mem_of_not_behind {α : Type*} {pre mid a b : List α} {x y : α}
    (h : pre ++ x :: mid = a ++ y :: b) (hne : x ≠ y) (hx : x ∉ b) : y ∈ mid := by
  rcases List.append_eq_append_iff.mp h with ⟨c, rfl, hc⟩ | ⟨c, rfl, hc⟩
  · cases c with
    | nil => exact absurd (List.cons.inj hc).1 hne
    | cons z c =>
        rw [(List.cons.inj hc).2]
        exact List.mem_append_right _ List.mem_cons_self
  · cases c with
    | nil => exact absurd (List.cons.inj hc).1.symm hne
    | cons z c =>
        refine absurd ?_ hx
        rw [(List.cons.inj hc).2]
        exact List.mem_append_right _ List.mem_cons_self

/-- One more event. A timer that is handed out is the one in the map, and a node leaves the ready
list only when it is handed out or killed. -/
theorem State.Obeys.append {s s' : State} {e : Event} (h : s.Obeys) (hlog : s'.log = s.log ++ [e])
    (hnext : s.nextNode ≤ s'.nextNode)
    (hkeys : ∀ n < s.nextNode, (s'.heap n).key = (s.heap n).key)
    (hmap : ∀ h id m, s'.mTimerMap h id = some m →
      s.mTimerMap h id = some m ∨ ∃ previous, e = .set m h id previous)
    (hkill : ∀ n, e = .killed n → n < s.nextNode ∧
      s'.mTimerMap (s.heap n).mHandler (s.heap n).mTimerId = none)
    (hout : ∀ m, e.HandsOut m → m < s.nextNode ∧ (s.Fresh →
      s.mTimerMap (s.heap m).mHandler (s.heap m).mTimerId = some m))
    (hready : s.Fresh → ∀ n ∈ s.mReadyNodes,
      n ∈ s'.mReadyNodes ∨ e.HandsOut n ∨ e = .killed n)
    (hnew : ∀ n deadTime tick, e = .ready n deadTime tick → n ∈ s'.mReadyNodes) : s'.Obeys := by
  have hfresh : s'.Fresh → s.Fresh := fun hF e' he' =>
    hF e' (hlog ▸ List.mem_append_left _ he')
  have hold : ∀ n, .killed n ∈ s.log → (s'.heap n).key = (s.heap n).key :=
    fun n hn => hkeys n (h.known _ hn n (Or.inl rfl))
  refine ⟨fun e' he' n hn => ?_, fun hd id m hm => ?_, fun hF pre n mid e' m post hs hm hkey => ?_,
    fun hF pre n dead tick post hs => ?_⟩
  · rw [hlog] at he'
    refine Nat.lt_of_lt_of_le ?_ hnext
    rcases List.mem_append.mp he' with he' | he'
    · exact h.known e' he' n hn
    · rw [List.mem_singleton.mp he'] at hn
      exact hn.elim (fun hk => (hkill n hk).1) (fun ho => (hout n ho).1)
  · rcases hmap hd id m hm with hm' | ⟨previous, rfl⟩
    · obtain ⟨pre, previous, post, hs, hpost⟩ := h.since hd id m hm'
      refine ⟨pre, previous, post ++ [e], by rw [hlog, hs]; simp, fun n hn => ?_⟩
      rcases List.mem_append.mp hn with hn | hn
      · rw [hold n (by rw [hs]; exact List.mem_append_right _ (List.mem_cons_of_mem _ hn))]
        exact hpost n hn
      · obtain ⟨hlt, hnone⟩ := hkill n (List.mem_singleton.mp hn).symm
        rw [hkeys n hlt]
        intro heq
        obtain ⟨h1, h2⟩ := Prod.mk.inj heq
        rw [h1, h2, hm] at hnone
        cases hnone
    · exact ⟨s.log, previous, [], hlog, fun n hn => (by cases hn)⟩
  · rw [hlog] at hs
    rcases snoc_eq_append_cons hs with ⟨post', -, hs'⟩ | ⟨-, rfl, hs'⟩
    · have hn : .killed n ∈ s.log := by rw [hs']; simp
      have hm' : m < s.nextNode := h.known e' (by rw [hs']; simp) m (Or.inr hm)
      rw [hold n hn, hkeys m hm'] at hkey
      have := h.late (hfresh hF) pre n mid e' m post' hs' hm hkey
      obtain ⟨h1, h2⟩ := Prod.mk.inj (hkeys m hm')
      unfold TimerNode.IsSet at this ⊢
      rwa [h1, h2]
    · obtain ⟨hlt, hin⟩ := hout m hm
      obtain ⟨a, previous, b, hs'', hb⟩ := h.since _ _ m (hin (hfresh hF))
      have hn : .killed n ∈ s.log := by rw [hs']; simp
      rw [hold n hn, hkeys m hlt] at hkey
      obtain ⟨h1, h2⟩ := Prod.mk.inj (hkeys m hlt)
      refine ⟨previous, ?_⟩
      rw [h1, h2]
      refine mem_of_not_behind (hs'.symm.trans hs'') (by simp) fun hmem => ?_
      exact hb n hmem hkey.symm
  · rw [hlog] at hs
    rcases snoc_eq_append_cons hs with ⟨post', rfl, hs'⟩ | ⟨-, hready', -⟩
    · rcases h.answered (hfresh hF) pre n dead tick post' hs' with hmem | ⟨e', he', ho⟩
      · rcases hready (hfresh hF) n hmem with hmem | ho
        · exact Or.inl hmem
        · exact Or.inr ⟨e, by simp, ho⟩
      · exact Or.inr ⟨e', by simp [he'], ho⟩
    · exact Or.inl (hnew n dead tick hready'.symm)

/-- The nodes a part of the log made ready. -/
def readied (log : List Event) : List NodeId :=
  log.filterMap fun
    | .ready n _ _ => some n
    | _ => none

/-- The wheels were worked on, and exactly the nodes made ready were added to the ready list. -/
structure Gathered (s s' : State) : Prop extends Swept s s' where
  nextNode_eq : s'.nextNode = s.nextNode
  ids_eq : s'.mNextTimerId = s.mNextTimerId
  rewind_eq : s'.mTimerIdRewind = s.mTimerIdRewind
  ready_new : ∃ new, s'.log = s.log ++ new ∧ s'.mReadyNodes = s.mReadyNodes ++ readied new

theorem Gathered.refl (s : State) : Gathered s s :=
  ⟨.refl s, rfl, rfl, rfl, [], (List.append_nil _).symm, (List.append_nil _).symm⟩

theorem getCurrentMillisec_gathered (env : Env) (s : State) :
    Gathered s (getCurrentMillisec env s) :=
  ⟨getCurrentMillisec_swept env s, rfl, rfl, rfl, [], (List.append_nil _).symm,
    (List.append_nil _).symm⟩

theorem Gathered.trans {s₁ s₂ s₃ : State} (h : Gathered s₁ s₂) (h' : Gathered s₂ s₃) :
    Gathered s₁ s₃ := by
  obtain ⟨hsw, hnext, hids, hrewind, new, hlog, hready⟩ := h
  obtain ⟨hsw', hnext', hids', hrewind', new', hlog', hready'⟩ := h'
  refine ⟨hsw.trans hsw', hnext'.trans hnext, hids'.trans hids, hrewind'.trans hrewind,
    new ++ new', ?_, ?_⟩
  · rw [hlog', hlog, List.append_assoc]
  · rw [hready', hready, List.append_assoc]
    unfold readied
    rw [List.filterMap_append]

theorem Gathered.setSpoke {s s' : State} (h : Gathered s s') (k j : ℕ) (l : List NodeId) :
    Gathered s (s'.setSpoke k j l) :=
  ⟨⟨h.heap_eq, h.map_eq, h.log_new⟩, h.nextNode_eq, h.ids_eq, h.rewind_eq, h.ready_new⟩

theorem Gathered.setIndex {s s' : State} (h : Gathered s s') (k i : ℕ) :
    Gathered s (s'.setIndex k i) :=
  ⟨⟨h.heap_eq, h.map_eq, h.log_new⟩, h.nextNode_eq, h.ids_eq, h.rewind_eq, h.ready_new⟩

theorem addToReady_gathered (n : NodeId) (s : State) : Gathered s (addToReady n s) :=
  ⟨(addToReady_relinked n s).toSwept, rfl, rfl, rfl, [_], rfl, rfl⟩

theorem cascadeNode_gathered (s : State) (n : NodeId) : Gathered s (cascadeNode s n) := by
  have hsw := (cascadeNode_relinked s n).toSwept
  unfold cascadeNode at hsw ⊢
  split
  · exact addToReady_gathered n s
  · rename_i hdead
    rw [if_neg hdead] at hsw
    exact ⟨hsw, rfl, rfl, rfl, [_], rfl, (List.append_nil _).symm⟩

theorem foldl_gathered {f : State → NodeId → State} (hf : ∀ s n, Gathered s (f s n))
    (l : List NodeId) (s : State) : Gathered s (l.foldl f s) := by
  induction l generalizing s with
  | nil => exact .refl s
  | cons n l ih => exact (hf s n).trans (ih (f s n))

theorem cascadeFrom_gathered (env : Env) (rest : ℕ) (s : State) :
    Gathered s (cascadeFrom env rest s) := by
  induction rest generalizing s with
  | zero => exact .refl s
  | succ rest ih =>
      have hnodes : ∀ (l : List NodeId) (s' : State), Gathered s s' →
          Gathered s (l.foldl cascadeNode s') := fun l s' h =>
        h.trans (foldl_gathered cascadeNode_gathered l s')
      have hturn := fun k => ((getCurrentMillisec_gathered env s).setIndex k
        ((getCurrentMillisec env s).index k + 1)).setSpoke k ((getCurrentMillisec env s).index k) []
      simp only [cascadeFrom]
      split
      · exact ((hnodes _ _ (hturn _)).setIndex _ 0).trans (ih _)
      · exact hnodes _ _ (hturn _)

theorem detectStep_gathered (env : Env) (s : State) : Gathered s (detectStep env s) := by
  have hnodes := (foldl_gathered (f := fun s node => addToReady node s)
    (fun s n => addToReady_gathered n s) (s.spoke 0 (s.index 0)) s).setSpoke 0 (s.index 0) []
      |>.setIndex 0 (s.index 0 + 1)
  simp only [detectStep]
  generalize (((s.spoke 0 (s.index 0)).foldl (fun s node => addToReady node s) s).setSpoke 0
    (s.index 0) []).setIndex 0 (s.index 0 + 1) = s₁ at *
  split
  · have hall := (hnodes.setIndex 0 0).trans (cascadeFrom_gathered env (wheelNum - 1) _)
    exact ⟨⟨hall.heap_eq, hall.map_eq, hall.log_new⟩, hall.nextNode_eq, hall.ids_eq,
      hall.rewind_eq, hall.ready_new⟩
  · exact ⟨⟨hnodes.heap_eq, hnodes.map_eq, hnodes.log_new⟩, hnodes.nextNode_eq, hnodes.ids_eq,
      hnodes.rewind_eq, hnodes.ready_new⟩

theorem detectLoop_gathered (env : Env) (loopnum : ℕ) (s : State) :
    Gathered s (detectLoop env loopnum s) := by
  induction loopnum generalizing s with
  | zero => exact .refl s
  | succ loopnum ih => exact (detectStep_gathered env s).trans (ih _)

namespace State.Obeys
variable {env : Env} {b p t : ℕ} {s s' : State} {node : NodeId}

/-- An event that concerns no timer in particular. -/
theorem append_armed (h : s.Obeys) {n ms tick position : ℕ}
    (hlog : s'.log = s.log ++ [.armed n ms tick position])
    (hnext : s'.nextNode = s.nextNode) (hkeys : ∀ n, (s'.heap n).key = (s.heap n).key)
    (hmap : s'.mTimerMap = s.mTimerMap) (hready : s'.mReadyNodes = s.mReadyNodes) : s'.Obeys :=
  h.append hlog hnext.ge (fun n _ => hkeys n) (fun _ _ _ hm => Or.inl (hmap ▸ hm))
    (fun _ h => (by cases h))
    (fun _ h => (by cases h)) (fun _ _ hn => Or.inl (hready ▸ hn)) (fun _ _ _ h => (by cases h))

/-- Work on the wheels. -/
theorem gather (h : s.Obeys) (hga : Gathered s s') : s'.Obeys := by
  obtain ⟨new, hlog, hnew⟩ := hga.log_new
  obtain ⟨new', hlog', hready⟩ := hga.ready_new
  obtain rfl := List.append_cancel_left (hlog.symm.trans hlog')
  -- the events one by one; the state in between has the ready nodes of the end
  have hsteps : ∀ (done rest : List Event), new = done ++ rest →
      State.Obeys { s' with log := s.log ++ done } := by
    intro done
    induction done using List.reverseRecOn with
    | nil =>
        intro rest _
        refine ⟨fun e he n hn => ?_, fun hd id m hm => ?_, fun hF => ?_, fun hF => ?_⟩
        all_goals simp only [List.append_nil] at *
        · exact hga.nextNode_eq ▸ h.known e he n hn
        · rw [hga.heap_eq]
          exact h.since hd id m (hga.map_eq ▸ hm)
        · rw [hga.heap_eq]
          exact h.late hF
        · intro pre n dead tick post hs
          refine (h.answered hF pre n dead tick post hs).imp_left fun hmem => ?_
          rw [hready]
          exact List.mem_append_left _ hmem
    | append_singleton done e ih =>
        intro rest hsplit
        rw [List.append_assoc] at hsplit
        have hwheel : e.OfWheel := hnew e (by rw [hsplit]; simp)
        refine (ih _ hsplit).append (e := e) (by simp) (Nat.le_refl _) (fun _ _ => rfl)
          (fun _ _ _ hm => Or.inl hm) (fun n hn => ?_) (fun m hm => ?_) (fun _ _ hn => Or.inl hn)
          (fun n dead tick hn => ?_)
        · rw [hn] at hwheel
          exact hwheel.elim
        · cases e <;> first | exact hwheel.elim | exact hm.elim
        · show n ∈ s'.mReadyNodes
          rw [hready, hsplit]
          exact List.mem_append_right _ (List.mem_filterMap.mpr ⟨e, by simp, by rw [hn]⟩)
  have hall := hsteps new [] (List.append_nil _).symm
  rwa [← hlog] at hall

/-- Only the log, the map, the keys of the nodes and the ready list matter. -/
theorem congr (h : s.Obeys) (hlog : s'.log = s.log) (hnext : s'.nextNode = s.nextNode)
    (hheap : s'.heap = s.heap) (hmap : s'.mTimerMap = s.mTimerMap)
    (hready : s'.mReadyNodes = s.mReadyNodes) : s'.Obeys := by
  have hfresh : s'.Fresh → s.Fresh := fun hF e he => hF e (hlog ▸ he)
  refine ⟨?_, ?_, fun hF => ?_, fun hF => ?_⟩
  · rw [hlog, hnext]
    exact h.known
  · rw [hlog, hheap, hmap]
    exact h.since
  · rw [hlog, hheap]
    exact h.late (hfresh hF)
  · rw [hlog, hready]
    exact h.answered (hfresh hF)

variable (env) in
theorem setTimer (h : s.Obeys) (handler : HandlerId) (timerId : TimerId) (interval : ℕ)
    (extra : Option TimerExtraInfo) :
    (TimerManager.setTimer env handler timerId interval extra s).Obeys := by
  obtain ⟨ms, tick, position, hlog⟩ :=
    setTimer_log env s handler timerId interval extra
  have hmap := setTimer_map env s handler timerId interval extra
  have hframe : (TimerManager.setTimer env handler timerId interval extra s).nextNode =
      s.nextNode + 1 ∧ (TimerManager.setTimer env handler timerId interval extra s).mReadyNodes =
      s.mReadyNodes ∧ ∀ n, n ≠ s.nextNode →
        (TimerManager.setTimer env handler timerId interval extra s).heap n = s.heap n :=
    ⟨rfl, rfl, fun n hn => (State.setNode_heap s s.nextNode _ n).trans (if_neg hn)⟩
  generalize TimerManager.setTimer env handler timerId interval extra s = s' at *
  obtain ⟨hnext, hready, hheap⟩ := hframe
  have hset : State.Obeys { s' with
      log := s.log ++ [.set s.nextNode handler timerId (s.mTimerMap handler timerId)] } := by
    refine h.append rfl (hnext ▸ Nat.le_succ _) (fun n hn => ?_) (fun hd id m hm => ?_)
      (fun _ h => (by cases h)) (fun _ h => (by cases h)) (fun _ n hn => Or.inl (hready.symm ▸ hn))
      (fun _ _ _ h => (by cases h))
    · exact congrArg TimerNode.key (hheap n (Nat.ne_of_lt hn))
    · have hm' : s'.mTimerMap hd id = some m := hm
      rw [hmap, State.setMap_map] at hm'
      split_ifs at hm' with hkey
      · rw [hkey.1, hkey.2, ← Option.some.inj hm']
        exact Or.inr ⟨_, rfl⟩
      · exact Or.inl hm'
  exact hset.append_armed (hlog.trans (List.append_assoc s.log [_] [_]).symm) rfl (fun _ => rfl)
    rfl rfl

theorem setTimerEx (h : s.Obeys) (handler : HandlerId) (interval : ℕ)
    (extra : Option TimerExtraInfo) :
    (TimerManager.setTimerEx env handler interval extra s).Obeys := by
  have hids : ∀ ids rewinds,
      State.Obeys { s with mNextTimerId := ids, mTimerIdRewind := rewinds } :=
    fun ids rewinds => h.congr rfl rfl rfl rfl rfl
  have hset := (hids (Function.update s.mNextTimerId handler (nextTimerId s handler).2.1)
    (Function.update s.mTimerIdRewind handler (nextTimerId s handler).2.2)).setTimer env
      handler (nextTimerId s handler).1 interval extra
  exact hset

theorem callInside (h : s.Obeys) (hrest : Rest env b p s) (c : Call) :
    (TimerManager.callInside env s c).Obeys := by
  cases c with
  | setTimer handler timerId interval extra => exact h.setTimer env handler timerId _ extra
  | setTimerEx handler interval extra => exact h.setTimerEx handler _ extra
  | processTimer io => exact h
  | killTimer handler timerId =>
      cases hmap : s.mTimerMap handler timerId with
      | none =>
          simp only [TimerManager.callInside, killTimer, hmap]
          exact h
      | some node =>
          obtain ⟨hheap, hnext, hlog, -⟩ := killTimer_frame (s := s) handler timerId
          obtain ⟨-, hkept⟩ := killTimer_ready (s := s) handler timerId
          obtain ⟨hlt, hh, hid⟩ := hrest.inv.owner handler timerId node hmap
          simp only [TimerManager.callInside, hmap, killTimer_emit]
          refine h.append (e := .killed node) ?_ hnext.ge (fun n _ => ?_) (fun hd id m hm => ?_)
            (fun n hn => ?_) (fun _ h => (by cases h)) (fun _ n hn => ?_)
              (fun _ _ _ h => (by cases h))
          · rw [State.emit_log, hlog]
          · rw [State.emit_heap, hheap]
          · have hm' : (killTimer handler timerId s).mTimerMap hd id = some m := hm
            rw [killTimer_map, State.setMap_map] at hm'
            split_ifs at hm'
            exact Or.inl hm'
          · obtain rfl := Event.killed.inj hn
            refine ⟨hlt, ?_⟩
            show (killTimer handler timerId s).mTimerMap _ _ = none
            rw [killTimer_map, State.setMap_map, if_pos ⟨hh, hid⟩]
          · by_cases hne : n = node
            · exact Or.inr (Or.inr (by rw [hne]))
            · refine Or.inl (hkept n hn fun heq => hne ?_)
              rw [hmap, Option.some.injEq] at heq
              exact heq.symm

theorem callback (h : s.Obeys) (hmono : Monotone env.tick) (hrest : Rest env b p s) :
    (TimerManager.callback env s).Obeys := by
  have hfold : ∀ (calls : List Call) (s : State), s.Obeys → Rest env b p s →
      (calls.foldl (TimerManager.callInside env) s).Obeys := by
    intro calls
    induction calls with
    | nil => exact fun s h _ => h
    | cons c calls ih =>
        exact fun s h hrest => ih _ (h.callInside hrest c) (callInside_keeps hmono hrest c).1
  refine hfold _ { s with callbacks := s.callbacks + 1 } (h.congr rfl rfl rfl rfl rfl) ?_
  exact ⟨⟨⟨hrest.inv.size_eq, hrest.inv.index_mod, hrest.inv.slot, hrest.inv.links,
    hrest.inv.live, hrest.inv.owner, hrest.inv.interval_lt, hrest.inv.notEarly⟩, hrest.start,
    hrest.reached, hrest.clock, hrest.index_lt⟩, hrest.recorded⟩

/-- The node taken off the ready list is handed out. -/
theorem timeOutNode (h : s.Obeys) (hmono : Monotone env.tick) (hrest : Rest env b p s)
    (ht : b + p ≤ t ∧ t ≤ s.now) {rest : List NodeId} (hr : s.mReadyNodes = node :: rest) :
    (TimerManager.timeOutNode env t node { s with mReadyNodes := rest }).Obeys := by
  have hmem : node ∈ s.mReadyNodes := hr ▸ List.mem_cons_self
  have hlt := (hrest.inv.of_ready hmem).1
  have hlive : s.Fresh →
      s.mTimerMap (s.heap node).mHandler (s.heap node).mTimerId = some node :=
    fun hF => hrest.inv.ready_live hF hmem
  have htaken : Taken env b p t node { s with mReadyNodes := rest } :=
    ⟨hrest.inv.popReady hr, hrest.start, ht.1, ht.2, hrest.clock, hrest.index_lt, hrest.recorded⟩
  unfold TimerManager.timeOutNode
  dsimp only
  split
  · rename_i info hinfo
    obtain ⟨hrest', -⟩ := htaken.killTimer hinfo
    have hrun : (((killTimer (s.heap node).mHandler (s.heap node).mTimerId
        { s with mReadyNodes := rest }).emit (.run info.mRunnable node)) : State).Obeys := by
      obtain ⟨hheap, hnext, hlog, -⟩ := killTimer_frame (s := { s with mReadyNodes := rest })
        (s.heap node).mHandler (s.heap node).mTimerId
      obtain ⟨-, hkept⟩ := killTimer_ready (s := { s with mReadyNodes := rest })
        (s.heap node).mHandler (s.heap node).mTimerId
      refine h.append (e := .run info.mRunnable node) ?_ hnext.ge (fun n _ => ?_)
        (fun hd id m hm => ?_) (fun _ h => (by cases h)) (fun m hm => ?_) (fun hF n hn => ?_)
        (fun _ _ _ h => (by cases h))
      · rw [State.emit_log, hlog]
      · rw [State.emit_heap, hheap]
      · have hm' : (killTimer (s.heap node).mHandler (s.heap node).mTimerId
            { s with mReadyNodes := rest }).mTimerMap hd id = some m := hm
        rw [killTimer_map, State.setMap_map] at hm'
        split_ifs at hm'
        exact Or.inl hm'
      · obtain rfl : node = m := hm
        exact ⟨hlt, hlive⟩
      · rw [hr] at hn
        rcases List.mem_cons.mp hn with rfl | hn
        · exact Or.inr (Or.inl rfl)
        · by_cases hne : n = node
          · exact Or.inr (Or.inl hne.symm)
          · refine Or.inl (hkept n hn fun heq => hne ?_)
            rw [show State.mTimerMap { s with mReadyNodes := rest } = s.mTimerMap from rfl,
              hlive hF, Option.some.injEq] at heq
            exact heq.symm
    split
    · exact hrun.callback hmono hrest'
    · exact hrun
  · rename_i hinfo
    obtain ⟨hrest', -⟩ := htaken.rearm hinfo
    refine callback ?_ hmono hrest'
    have hkeys : ∀ n, ((s.setNode node { s.heap node with
        mDeadTime := t + (s.heap node).mInterval }).heap n).key = (s.heap n).key := by
      intro n
      rw [State.setNode_heap]
      split_ifs with hn
      · rw [hn]
        rfl
      · rfl
    have harmed : State.Obeys { s.setNode node { s.heap node with
        mDeadTime := t + (s.heap node).mInterval } with
        log := s.log ++ [.armed node (s.heap node).mInterval t s.mStartTick] } :=
      h.append_armed rfl rfl hkeys rfl rfl
    refine harmed.append (e := .onTimer (s.heap node).mHandler (s.heap node).mTimerId node) rfl
      (Nat.le_refl _) (fun _ _ => rfl) (fun _ _ _ hm => Or.inl hm) (fun _ h => (by cases h))
      (fun m hm => ?_) (fun _ n hn => ?_) (fun _ _ _ h => (by cases h))
    · obtain rfl : node = m := hm
      refine ⟨hlt, fun hF => ?_⟩
      obtain ⟨h1, h2⟩ := Prod.mk.inj (hkeys node)
      have hF' : s.Fresh := fun e he => hF e (List.mem_append_left _ he)
      show s.mTimerMap _ _ = some node
      rw [h1, h2]
      exact hlive hF'
    · have hn' : n ∈ node :: rest := hr ▸ hn
      rcases List.mem_cons.mp hn' with rfl | hn'
      · exact Or.inr (Or.inl rfl)
      · exact Or.inl hn'

theorem timeOutLoop (h : s.Obeys) (hmono : Monotone env.tick) (fuel : ℕ) (hrest : Rest env b p s)
    (ht : b + p ≤ t ∧ t ≤ s.now) : (TimerManager.timeOutLoop env t fuel s).Obeys := by
  induction fuel generalizing s with
  | zero => exact h
  | succ fuel ih =>
      cases hready : s.mReadyNodes with
      | nil =>
          simp only [TimerManager.timeOutLoop, hready]
          exact h
      | cons node rest =>
          simp only [TimerManager.timeOutLoop, hready]
          have htaken : Taken env b p t node { s with mReadyNodes := rest } :=
            ⟨hrest.inv.popReady hready, hrest.start, ht.1, ht.2, hrest.clock, hrest.index_lt,
              hrest.recorded⟩
          obtain ⟨hrest', hout⟩ := timeOutNode_keeps hmono htaken
          exact ih (h.timeOutNode hmono hrest ht hready) hrest'
            ⟨ht.1, Nat.le_trans ht.2 hout.now_le⟩

theorem detectList (h : s.Obeys) (hmono : Monotone env.tick) (hrest : Rest env b p s) :
    (TimerManager.detectList env s).Obeys := by
  obtain ⟨p', hrest', -⟩ := detect_keeps hmono hrest
  have hga : Gathered s (detectLoop env (if env.tick s.reads > s.mStartTick then
      (env.tick s.reads - s.mStartTick) / granularity else 0) (getCurrentMillisec env s)) :=
    (getCurrentMillisec_gathered env s).trans (detectLoop_gathered env _ _)
  have hlist : TimerManager.detectList env s = processTimeOut env (detectLoop env
      (if env.tick s.reads > s.mStartTick then (env.tick s.reads - s.mStartTick) / granularity
        else 0) (getCurrentMillisec env s)) := rfl
  rw [hlist]
  generalize detectLoop env (if env.tick s.reads > s.mStartTick then
    (env.tick s.reads - s.mStartTick) / granularity else 0) (getCurrentMillisec env s) = s' at *
  have hread : State.Obeys (getCurrentMillisec env s') := (h.gather hga).congr rfl rfl rfl rfl rfl
  rw [processTimeOut_eq hmono hrest']
  exact hread.timeOutLoop hmono _ (hrest'.tick hmono)
    ⟨Nat.le_trans hrest'.reached hrest'.clock, Nat.le_refl _⟩

theorem call (h : s.Obeys) (hmono : Monotone env.tick) (hrest : Rest env b p s)
    (hidle : s.mBusying = false) (c : Call) : (TimerManager.call env s c).Obeys := by
  cases c with
  | setTimer handler timerId interval extra =>
      exact h.callInside hrest (.setTimer handler timerId interval extra)
  | setTimerEx handler interval extra =>
      exact h.callInside hrest (.setTimerEx handler interval extra)
  | killTimer handler timerId => exact h.callInside hrest (.killTimer handler timerId)
  | processTimer io =>
      have hbusy : State.Obeys { s with mBusying := true } := h.congr rfl rfl rfl rfl rfl
      have hlist := hbusy.detectList hmono (hrest.setBusying true)
      simp only [TimerManager.call, processTimer, hidle, Bool.false_eq_true, if_false]
      exact hlist.congr rfl rfl rfl rfl rfl

end State.Obeys

section
variable {env : Env} {b p : ℕ} {s : State}

theorem init_obeys (env : Env) : (init env).Obeys := by
  have hlog : (init env).log = [] := rfl
  refine ⟨fun e he => ?_, fun h id m hm => ?_, fun _ pre n mid e m post hs => ?_,
    fun _ pre n deadTime tick post hs => ?_⟩
  · rw [hlog] at he
    cases he
  · cases hm
  all_goals
    rw [hlog] at hs
    simp at hs

/-- Between two calls from outside no node is ready. -/
theorem call_ready (hmono : Monotone env.tick) (h : Rest env b p s) (hidle : s.mBusying = false)
    (hnil : s.mReadyNodes = []) (c : Call) : (call env s c).mReadyNodes = [] := by
  have hinside : ∀ c, (callInside env s c).mReadyNodes = [] := fun c => by
    have hsub := (callInside_keeps hmono h c).2.ready
    rw [hnil] at hsub
    exact List.sublist_nil.mp hsub
  cases c with
  | setTimer handler timerId interval extra =>
      exact hinside (.setTimer handler timerId interval extra)
  | setTimerEx handler interval extra => exact hinside (.setTimerEx handler interval extra)
  | killTimer handler timerId => exact hinside (.killTimer handler timerId)
  | processTimer io =>
      obtain ⟨-, -, hlist, -⟩ := detectList_keeps hmono (h.setBusying true)
      simp only [call, processTimer, hidle, Bool.false_eq_true, if_false]
      exact hlist

theorem run_obeys (hmono : Monotone env.tick) (calls : List Call) :
    (run env calls).Obeys ∧ (run env calls).mReadyNodes = [] := by
  have hfold : ∀ (calls : List Call) (s : State) (p : ℕ), Rest env (env.tick 0) p s →
      s.mBusying = false → s.Obeys → s.mReadyNodes = [] →
        (calls.foldl (call env) s).Obeys ∧ (calls.foldl (call env) s).mReadyNodes = [] := by
    intro calls
    induction calls with
    | nil => exact fun _ _ _ _ h hnil => ⟨h, hnil⟩
    | cons c calls ih =>
        intro s p hrest hidle h hnil
        obtain ⟨⟨p', hrest'⟩, hidle'⟩ := call_keeps hmono hrest hidle c
        exact ih _ p' hrest' hidle' (h.call hmono hrest hidle c)
          (call_ready hmono hrest hidle hnil c)
  exact hfold calls (init env) 0 (init_keeps hmono) rfl (init_obeys env) rfl

/-- What the log of a run says about kills. -/
structure State.KillsHold (s : State) : Prop where
  /-- a killed timer is not handed out again before a timer is set under its key -/
  silent : ∀ pre n mid e m post, s.log = pre ++ .killed n :: mid ++ e :: post → e.HandsOut m →
    (s.heap m).key = (s.heap n).key → (s.heap m).IsSet m mid
  /-- a node that was made ready is handed out, unless it is itself killed -/
  answered : ∀ pre n deadTime tick post, s.log = pre ++ .ready n deadTime tick :: post →
    ∃ e ∈ post, e.HandsOut n ∨ e = .killed n
  /-- a timer that was neither killed nor run is linked, whichever others were killed -/
  kept : ∀ h id n, Live s.log h id n → s.mTimerMap h id = some n ∧ s.linkCount n = 1

theorem run_killsHold (env : Env) (hmono : Monotone env.tick) (calls : List Call)
    (hfresh : (run env calls).Fresh) : (run env calls).KillsHold := by
  obtain ⟨⟨p, hrest⟩, -⟩ := run_keeps hmono calls
  obtain ⟨hobeys, hnil⟩ := run_obeys hmono calls
  refine ⟨hobeys.late hfresh, fun pre n deadTime tick post hs => ?_, fun h id n hlive => ?_⟩
  · have hready := hobeys.answered hfresh pre n deadTime tick post hs
    rw [hnil] at hready
    exact hready.resolve_left List.not_mem_nil
  · obtain ⟨⟨previous, hset⟩, hkilled, hrun⟩ := hlive
    have hmap : (run env calls).mTimerMap h id = some n := by
      rcases hrest.recorded hfresh n h id previous hset with hk | ⟨r, hr⟩ | hm
      · exact absurd hk hkilled
      · exact absurd hr (hrun r)
      · exact hm
    exact ⟨hmap, hrest.inv.linked_of_map hfresh hmap⟩

/-- A clock that is ten ticks further at each reading. The first callback kills timer 8 of
handler 1, which is ready too, and sets it anew. -/
def rekillEnv : Env :=
  ⟨fun i => 10 * i, fun i => if i = 0 then [.killTimer 1 8, .setTimer 1 8 5 none] else []⟩

/-- Node 1 is killed while it is ready; timer 8 is handed out again as node 2. -/
theorem run_killsHold_rekilled :
    (run rekillEnv [.setTimer 1 7 5 none, .setTimer 1 8 5 none, .processTimer 0,
      .processTimer 0]).KillsHold ∧
    (run rekillEnv [.setTimer 1 7 5 none, .setTimer 1 8 5 none, .processTimer 0,
      .processTimer 0]).log =
      [.set 0 1 7 none, .armed 0 5 10 0, .set 1 1 8 none, .armed 1 5 20 0, .ready 0 15 30,
        .ready 1 25 30, .armed 0 5 40 30, .onTimer 1 7 0, .killed 1, .set 2 1 8 none,
        .armed 2 5 50 30, .ready 0 45 60, .ready 2 55 60, .armed 0 5 70 60, .onTimer 1 7 0,
        .armed 2 5 70 60, .onTimer 1 8 2] := by
  have hlog : (run rekillEnv [.setTimer 1 7 5 none, .setTimer 1 8 5 none, .processTimer 0,
      .processTimer 0]).log = [.set 0 1 7 none, .armed 0 5 10 0, .set 1 1 8 none,
        .armed 1 5 20 0, .ready 0 15 30, .ready 1 25 30, .armed 0 5 40 30, .onTimer 1 7 0,
        .killed 1, .set 2 1 8 none, .armed 2 5 50 30, .ready 0 45 60, .ready 2 55 60,
        .armed 0 5 70 60, .onTimer 1 7 0, .armed 2 5 70 60, .onTimer 1 8 2] := by
    decide +kernel
  refine ⟨run_killsHold rekillEnv (fun i j hij => Nat.mul_le_mul_left 10 hij) _ ?_, hlog⟩
  rw [State.Fresh, hlog]
  decide

end
end CoreLooper.TimerManager
