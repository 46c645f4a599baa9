import CoreLooper.TimerServed

/-!
# The catch-up loop keeps the timer wheels in step

`DetectList` advances the wheels one tick at a time and cascades a spoke of an upper
wheel whenever the wheel below has made a full turn. One tick takes the position from `p`
to `p + 1`; the loop takes it to the tick read on entry.
-/
namespace CoreLooper.TimerManager
open WheelSlots

/-- Events of nodes that only move between the spokes and the ready list. -/
def Event.OfWheel : Event → Prop
  | .armed _ _ _ _ => True
  | .ready _ _ _ => True
  | _ => False

/-- The wheels were worked on: no timer was set, killed or handed out. -/
structure Swept (s s' : State) : Prop where
  heap_eq : s'.heap = s.heap
  map_eq : s'.mTimerMap = s.mTimerMap
  log_new : ∃ new, s'.log = s.log ++ new ∧ ∀ e ∈ new, e.OfWheel

/-- Nodes were linked, with the clock and the wheel positions as they were. -/
structure Relinked (s s' : State) : Prop extends Swept s s' where
  now_eq : s'.now = s.now
  reads_eq : s'.reads = s.reads
  start_eq : s'.mStartTick = s.mStartTick
  index_eq : ∀ k, s'.index k = s.index k

theorem Swept.refl (s : State) : Swept s s := ⟨rfl, rfl, [], by simp, by simp⟩

theorem Swept.trans {s₁ s₂ s₃ : State} (h : Swept s₁ s₂) (h' : Swept s₂ s₃) : Swept s₁ s₃ := by
  obtain ⟨new, hlog, hnew⟩ := h.log_new
  obtain ⟨new', hlog', hnew'⟩ := h'.log_new
  refine ⟨h'.heap_eq.trans h.heap_eq, h'.map_eq.trans h.map_eq, new ++ new', ?_, ?_⟩
  · rw [hlog', hlog, List.append_assoc]
  · intro e he
    rcases List.mem_append.mp he with he | he
    · exact hnew e he
    · exact hnew' e he

theorem Swept.timely {s s' : State} (h : Swept s s') (hT : s'.Timely) : s.Timely := by
  obtain ⟨new, hlog, -⟩ := h.log_new
  intro e he
  exact hT e (hlog ▸ List.mem_append_left _ he)

theorem Swept.emit {s : State} {e : Event} (he : e.OfWheel) : Swept s (s.emit e) :=
  ⟨rfl, rfl, [e], rfl, by simpa using he⟩

theorem Relinked.refl (s : State) : Relinked s s := ⟨.refl s, rfl, rfl, rfl, fun _ => rfl⟩

theorem Relinked.trans {s₁ s₂ s₃ : State} (h : Relinked s₁ s₂) (h' : Relinked s₂ s₃) :
    Relinked s₁ s₃ :=
  ⟨h.toSwept.trans h'.toSwept, h'.now_eq.trans h.now_eq, h'.reads_eq.trans h.reads_eq,
    h'.start_eq.trans h.start_eq, fun k => (h'.index_eq k).trans (h.index_eq k)⟩

theorem addToReady_relinked (n : NodeId) (s : State) : Relinked s (addToReady n s) :=
  ⟨⟨rfl, rfl, [_], rfl, by simp [Event.OfWheel]⟩, rfl, rfl, rfl, fun _ => rfl⟩

theorem addTimer_relinked (ms : ℕ) (n : NodeId) (s : State) : Relinked s (addTimer ms n s) :=
  ⟨⟨rfl, rfl, [], by simp [addTimer, State.setSpoke], by simp⟩, rfl, rfl, rfl,
    fun k => State.setSpoke_index s _ k _ _⟩

theorem cascadeNode_relinked (s : State) (n : NodeId) : Relinked s (cascadeNode s n) := by
  unfold cascadeNode
  split
  · exact addToReady_relinked n s
  · refine Relinked.trans ⟨Swept.emit ?_, rfl, rfl, rfl, fun _ => rfl⟩ (addTimer_relinked _ n _)
    trivial

namespace Inv
variable {b : ℕ} {D : List NodeId} {c : ℕ → ℕ} {s : State}

/-- Detached nodes are linked one after another. `P` is what the step asks of a node. -/
theorem foldl_relink {f : State → NodeId → State} {P : State → NodeId → Prop}
    (hstep : ∀ s n D, Inv b (n :: D) c s → P s n → Inv b D c (f s n) ∧ Relinked s (f s n) ∧
      (ServedInTime b c s → ServedInTime b c (f s n)))
    (hP : ∀ s s' n, Relinked s s' → P s n → P s' n) (l : List NodeId)
    (h : Inv b (l ++ D) c s) (hl : ∀ n ∈ l, P s n) :
    Inv b D c (l.foldl f s) ∧ Relinked s (l.foldl f s) ∧
      (ServedInTime b c s → ServedInTime b c (l.foldl f s)) := by
  induction l generalizing s with
  | nil => exact ⟨h, .refl s, id⟩
  | cons n l ih =>
      obtain ⟨h', hre, hserved⟩ := hstep s n (l ++ D) h (hl n List.mem_cons_self)
      obtain ⟨h'', hre', hserved'⟩ :=
        ih h' fun m hm => hP s _ m hre (hl m (List.mem_cons_of_mem n hm))
      exact ⟨h'', hre.trans hre', fun hs => hserved' (hserved hs)⟩

/-- `AddTimer` with a delay that fits the wheels below `m`, which stand at position `p`. The dead
time is `ms` after a tick `t` that the wheels have reached. -/
theorem addTimer {n : NodeId} {m p ms t : ℕ} (h : Inv b (n :: D) c s) (hm0 : 0 < m)
    (hm : m ≤ wheelNum) (hturns : ∀ k < m, c k = p / wheelSpan k) (hms : ms < wheelSpan m)
    (hdead : (s.heap n).mDeadTime = t + ms) (ht : b + p ≤ t) (hnow : t ≤ s.now)
    (htimely : s.Timely → ms < wheelSize1 → t ≤ b + p + 1) :
    Inv b D c (TimerManager.addTimer ms n s) := by
  obtain ⟨k, q, hk, hchoose, hopen, hserved, hspan, hexact, -⟩ := chooseSpoke_spec (s := s) hm0 hm
    (fun k hk => h.index_mod k (Nat.lt_of_lt_of_le hk hm)) hturns hms
  have hdue : s.Due b k q (s.heap n) := by
    refine ⟨by omega, by omega, fun hT hk0 => ?_⟩
    have hq := hexact hk0
    have := htimely hT (by subst hk0; exact hspan)
    omega
  unfold TimerManager.addTimer
  rw [hchoose]
  exact h.link (Nat.lt_of_lt_of_le hk hm) hopen hdue

theorem setIndex (h : Inv b D c s) {k i : ℕ} (hi : i % wheelSize k = c k % wheelSize k) :
    Inv b D c (s.setIndex k i) := by
  refine ⟨fun k' hk' => ?_, fun k' hk' => ?_, fun k' j n hn => ?_, fun n => ?_, fun hF n => ?_,
    h.owner, h.interval_lt, h.notEarly⟩
  · rw [State.setIndex_size]
    exact h.size_eq k' hk'
  · rw [State.setIndex_index]
    split_ifs with hkk
    · rw [hkk, hi]
    · exact h.index_mod k' hk'
  · rw [State.setIndex_spoke] at hn
    exact h.slot k' j n hn
  · rw [State.setIndex_linkCount]
    exact h.links n
  · rw [State.setIndex_linkCount]
    exact h.live hF n

end Inv

/-- The turns of the wheels while the wheels below `k` already stand at `p + 1`. -/
def turns (p k i : ℕ) : ℕ := if i < k then (p + 1) / wheelSpan i else p / wheelSpan i

theorem turns_zero (p i : ℕ) : turns p 0 i = p / wheelSpan i := if_neg (Nat.not_lt_zero i)

theorem turns_self (p k : ℕ) : turns p k k = p / wheelSpan k := if_neg (Nat.lt_irrefl k)

theorem update_turns {p k : ℕ} (h : wheelSpan k ∣ p + 1) :
    Function.update (turns p k) k (turns p k k + 1) = turns p (k + 1) := by
  funext i
  rw [Function.update_apply, turns_self, ← turns_succ_of_dvd h]
  unfold turns
  split_ifs with h1 h2 h3 h4 h5
  · rw [h1]
  · omega
  · rfl
  · omega
  · omega
  · rfl

theorem wheelSpan_dvd_of_le {i k : ℕ} (h : i ≤ k) : wheelSpan i ∣ wheelSpan k := by
  induction k, h using Nat.le_induction with
  | base => exact Nat.dvd_refl _
  | succ k _ ih => exact Nat.dvd_trans ih (wheelSpan_dvd_succ k)

/-- A wheel that has not made a full turn leaves the wheels above where they are. -/
theorem turns_of_not_dvd {p k i : ℕ} (h : ¬ wheelSpan k ∣ p + 1) :
    turns p k i = (p + 1) / wheelSpan i := by
  unfold turns
  split_ifs with hi
  · rfl
  · have hnot : ¬ wheelSpan i ∣ p + 1 :=
      fun hd => h (Nat.dvd_trans (wheelSpan_dvd_of_le (Nat.le_of_not_lt hi)) hd)
    exact (turns_succ_of_not_dvd hnot).symm

theorem turns_done {p k i : ℕ} (hnot : wheelNum ≤ k ∨ ¬ wheelSpan k ∣ p + 1) (hi : i < wheelNum) :
    turns p k i = (p + 1) / wheelSpan i := by
  rcases hnot with hk | hnot
  · exact if_pos (Nat.lt_of_lt_of_le hi hk)
  · exact turns_of_not_dvd hnot

/-- The index of a wheel runs off its end exactly when the wheel above has to turn. -/
theorem wraps_iff {p k i : ℕ} (hk : wheelSpan k ∣ p + 1) (hi : i < wheelSize k)
    (him : i % wheelSize k = p / wheelSpan k % wheelSize k) :
    wheelSize k ≤ i + 1 ↔ wheelSpan (k + 1) ∣ p + 1 := by
  rw [wheelSpan_succ, ← Nat.dvd_div_iff_mul_dvd hk, turns_succ_of_dvd hk]
  have hmod : (i + 1) % wheelSize k = (p / wheelSpan k + 1) % wheelSize k := by
    rw [Nat.add_mod, him, ← Nat.add_mod]
  rw [Nat.dvd_iff_mod_eq_zero, ← hmod, ← Nat.dvd_iff_mod_eq_zero]
  constructor
  · intro hle
    have heq : i + 1 = wheelSize k := Nat.le_antisymm hi hle
    rw [heq]
  · exact Nat.le_of_dvd (Nat.succ_pos i)

/-- Wheels below `k` stand at position `p + 1`, the others still at `p`; `mStartTick` is `p`
ticks past `b`, and the clock has passed that. -/
structure Mid (env : Env) (b p k : ℕ) (s : State) : Prop where
  inv : Inv b [] (turns p k) s
  start : s.mStartTick = b + p
  passed : b + p + 1 ≤ s.now
  clock : s.now ≤ env.tick s.reads
  index_lt : ∀ i < wheelNum, s.index i < wheelSize i

namespace Mid
variable {env : Env} {b p k : ℕ} {s : State}

/-- The spoke served next is the one under the index. -/
theorem index_eq (h : Mid env b p k s) (hk : k < wheelNum) :
    s.index k = p / wheelSpan k % wheelSize k := by
  rw [← Nat.mod_eq_of_lt (h.index_lt k hk), h.inv.index_mod k hk, turns_self]

/-- A wheel whose span divides the next position is turned: its nodes are detached. -/
theorem turn (h : Mid env b p k s) (hk : k < wheelNum) (hdvd : wheelSpan k ∣ p + 1) :
    Inv b (s.spoke k (s.index k) ++ []) (turns p (k + 1))
      ((s.setIndex k (s.index k + 1)).setSpoke k (s.index k) []) ∧
    ∀ n ∈ s.spoke k (s.index k), b + p ≤ (s.heap n).mDeadTime ∧
      (s.heap n).mDeadTime < s.now + wheelSpan (k + 1) ∧
      (s.Timely → k = 0 → (s.heap n).mDeadTime ≤ b + p + 1) := by
  have hi := h.index_eq hk
  obtain ⟨hinv, hdue⟩ := h.inv.turn (i := s.index k + 1) hk (by
    rw [Nat.add_mod, h.inv.index_mod k hk, ← Nat.add_mod])
  rw [update_turns hdvd] at hinv
  rw [turns_self, ← hi] at hinv hdue
  refine ⟨hinv, fun n hn => ?_⟩
  obtain ⟨h1, h2, h3⟩ := hdue n hn
  rw [served_position hdvd] at h1
  refine ⟨by omega, h2, fun hT hk0 => ?_⟩
  have hserved := h3 hT hk0
  rw [hk0] at hserved
  have hone : p / wheelSpan 0 = p := Nat.div_one p
  omega

theorem served (h : Mid env b p k s) (hk : k < wheelNum) (hdvd : wheelSpan k ∣ p + 1)
    (hserved : ServedInTime b (turns p k) s) : ServedInTime b (turns p (k + 1))
      ((s.setIndex k (s.index k + 1)).setSpoke k (s.index k) []) := by
  have hturn := hserved.turn k (s.index k + 1)
  rw [update_turns hdvd, turns_self, ← h.index_eq hk] at hturn
  exact hturn

/-- After wheel `k` was served it is rewound if it ran off its end; the wheels below `k + 1` have
then turned. -/
theorem rewind (h : Mid env b p k s) (hk : k < wheelNum) (hdvd : wheelSpan k ∣ p + 1) {s' : State}
    (hinv : Inv b [] (turns p (k + 1)) s') (hstart : s'.mStartTick = s.mStartTick)
    (hnow : s.now ≤ s'.now) (hclock : s'.now ≤ env.tick s'.reads)
    (hindex : ∀ i, s'.index i = if i = k then s.index k + 1 else s.index i) :
    if s'.index k ≥ s'.size k then
      wheelSpan (k + 1) ∣ p + 1 ∧ Mid env b p (k + 1) (s'.setIndex k 0)
    else ¬ wheelSpan (k + 1) ∣ p + 1 ∧ Mid env b p (k + 1) s' := by
  have hi : s'.index k = s.index k + 1 := by rw [hindex, if_pos rfl]
  have hsize := hinv.size_eq k hk
  have hlt := h.index_lt k hk
  have hother : ∀ i < wheelNum, i ≠ k → s'.index i < wheelSize i := by
    intro i hin hne
    rw [hindex, if_neg hne]
    exact h.index_lt i hin
  have hwrap := wraps_iff hdvd hlt (by rw [h.inv.index_mod k hk, turns_self])
  have hpassed : b + p + 1 ≤ s'.now := Nat.le_trans h.passed hnow
  rw [hi, hsize]
  split_ifs with hge
  · refine ⟨hwrap.mp hge, ?_, hstart.trans h.start, hpassed, hclock, fun i hin => ?_⟩
    · refine hinv.setIndex ?_
      rw [← hinv.index_mod k hk, hi, (Nat.le_antisymm hlt hge : s.index k + 1 = _), Nat.mod_self,
        Nat.zero_mod]
    · rw [State.setIndex_index]
      split_ifs with hik
      · exact wheelSize_pos i
      · exact hother i hin hik
  · refine ⟨fun hd => hge (hwrap.mpr hd), hinv, hstart.trans h.start, hpassed, hclock,
      fun i hin => ?_⟩
    by_cases hik : i = k
    · rw [hik, hi]
      exact Nat.lt_of_not_le hge
    · exact hother i hin hik

/-- All wheels stand at `p + 1` once the next wheel does not have to turn. -/
theorem done (h : Mid env b p k s) (hnot : wheelNum ≤ k ∨ ¬ wheelSpan k ∣ p + 1) :
    Inv b [] (fun i => (p + 1) / wheelSpan i) s :=
  h.inv.congr_turns fun _ hi => turns_done hnot hi

end Mid

/-- A node of the cascaded spoke of wheel `k` goes to a wheel not above `k`, or becomes ready. -/
theorem cascadeNode_keeps {b p k : ℕ} {s : State} {n : NodeId} {D : List NodeId}
    (hk : k < wheelNum) (h : Inv b (n :: D) (turns p (k + 1)) s)
    (hs : s.mStartTick = b + p ∧ b + p + 1 ≤ s.now ∧
      (s.heap n).mDeadTime < s.now + wheelSpan (k + 1)) :
    Inv b D (turns p (k + 1)) (cascadeNode s n) ∧ Relinked s (cascadeNode s n) ∧
      (ServedInTime b (turns p (k + 1)) s →
        ServedInTime b (turns p (k + 1)) (cascadeNode s n)) := by
  obtain ⟨hstart, hpassed, hdead⟩ := hs
  refine ⟨?_, cascadeNode_relinked s n, fun hserved => ?_⟩
  all_goals
    unfold cascadeNode
    split_ifs with hle
  · exact h.makeReady fun _ => hle
  · have hms : (s.heap n).mDeadTime - s.now < wheelSpan (k + 1) := by omega
    have h32 : wheelSpan (k + 1) ≤ 2 ^ 32 := wheelSpan_mono (show k + 1 ≤ wheelNum from hk)
    have hu : u32 ((s.heap n).mDeadTime - s.now) = (s.heap n).mDeadTime - s.now :=
      Nat.mod_eq_of_lt (Nat.lt_of_lt_of_le hms h32)
    simp only [hu]
    refine (h.emit (.armed _ _ _ _) fun _ => trivial).addTimer (t := s.now) (p := p + 1)
      (Nat.succ_pos k) hk
      (fun i hi => if_pos hi) hms ?_ ?_ (Nat.le_refl _) ?_
    · show (s.heap n).mDeadTime = _
      omega
    · omega
    · intro hT hlt
      have := hT.of_emit.2 hlt
      rw [hstart] at this
      exact this
  · exact hserved.congr (fun _ _ => rfl) rfl
  · have hms : (s.heap n).mDeadTime - s.now < wheelSpan (k + 1) := by omega
    have h32 : wheelSpan (k + 1) ≤ 2 ^ 32 := wheelSpan_mono (show k + 1 ≤ wheelNum from hk)
    have hu : u32 ((s.heap n).mDeadTime - s.now) = (s.heap n).mDeadTime - s.now :=
      Nat.mod_eq_of_lt (Nat.lt_of_lt_of_le hms h32)
    simp only [hu]
    refine (hserved.congr (fun _ _ => rfl) rfl).addTimer (t := s.now) (p := p + 1)
      h.index_mod (Nat.succ_pos k) hk (fun i hi => if_pos hi) hms ?_ (by omega)
    show (s.heap n).mDeadTime = _
    omega

theorem getCurrentMillisec_swept (env : Env) (s : State) : Swept s (getCurrentMillisec env s) :=
  ⟨rfl, rfl, [], by simp [getCurrentMillisec], by simp⟩

/-- Cascading wheel `k` takes it and all wheels above to position `p + 1`. -/
theorem cascadeFrom_keeps {env : Env} (hmono : Monotone env.tick) {b p : ℕ} (rest : ℕ) {s : State}
    (hrest : rest ≤ wheelNum) (h : Mid env b p (wheelNum - rest) s)
    (hdvd : wheelSpan (wheelNum - rest) ∣ p + 1) :
    ∃ k, Mid env b p k (cascadeFrom env rest s) ∧ (wheelNum ≤ k ∨ ¬ wheelSpan k ∣ p + 1) ∧
      Swept s (cascadeFrom env rest s) ∧ s.now ≤ (cascadeFrom env rest s).now ∧
      (ServedInTime b (turns p (wheelNum - rest)) s →
        ServedInTime b (turns p k) (cascadeFrom env rest s)) := by
  induction rest generalizing s with
  | zero => exact ⟨wheelNum, h, Or.inl (Nat.le_refl _), .refl s, Nat.le_refl _, id⟩
  | succ rest ih =>
      have hk : wheelNum - (rest + 1) < wheelNum := by omega
      have hnext : wheelNum - (rest + 1) + 1 = wheelNum - rest := by omega
      simp only [cascadeFrom]
      generalize hs₁ : getCurrentMillisec env s = s₁
      generalize wheelNum - (rest + 1) = k at *
      have h₁ : Mid env b p k s₁ := by
        subst hs₁
        exact ⟨h.inv.tick h.clock, h.start, Nat.le_trans h.passed h.clock,
          hmono (Nat.le_succ _), h.index_lt⟩
      have hserved₁ : ServedInTime b (turns p k) s → ServedInTime b (turns p k) s₁ :=
        fun hserved => hs₁ ▸ hserved.congr (fun _ _ => rfl) rfl
      have hsw₁ : Swept s s₁ := hs₁ ▸ getCurrentMillisec_swept env s
      have hnow₁ : s.now ≤ s₁.now := hs₁ ▸ h.clock
      obtain ⟨hturn, hnodes⟩ := h₁.turn hk hdvd
      have hserved₂ := fun hserved => h₁.served hk hdvd (hserved₁ hserved)
      generalize hs₂ : (s₁.setIndex k (s₁.index k + 1)).setSpoke k (s₁.index k) [] = s₂ at *
      have hindex₂ : ∀ i, s₂.index i = if i = k then s₁.index k + 1 else s₁.index i := by
        intro i
        rw [← hs₂, State.setSpoke_index, State.setIndex_index]
      have hsw₂ : Swept s₁ s₂ := by
        subst hs₂
        exact ⟨rfl, rfl, [], (List.append_nil _).symm, by simp⟩
      have hframe : s₂.mStartTick = s₁.mStartTick ∧ s₂.now = s₁.now ∧ s₂.reads = s₁.reads ∧
          s₂.heap = s₁.heap := by
        subst hs₂
        exact ⟨rfl, rfl, rfl, rfl⟩
      obtain ⟨hstart₂, hnow₂, hreads₂, hheap₂⟩ := hframe
      obtain ⟨hinv, hre, hserved₃⟩ := Inv.foldl_relink (D := [])
        (fun s n D => cascadeNode_keeps (b := b) (p := p) (D := D) hk)
        (fun s s' n hre hp => by rwa [hre.start_eq, hre.now_eq, hre.heap_eq])
        (s₁.spoke k (s₁.index k)) hturn (fun n hn => by
          rw [hstart₂, hnow₂, hheap₂]
          exact ⟨h₁.start, h₁.passed, (hnodes n hn).2.1⟩)
      generalize (s₁.spoke k (s₁.index k)).foldl cascadeNode s₂ = s₃ at *
      have hmid := h₁.rewind hk hdvd hinv (hre.start_eq.trans hstart₂)
        (by rw [hre.now_eq, hnow₂])
          (by rw [hre.now_eq, hre.reads_eq, hnow₂, hreads₂]; exact h₁.clock)
        (fun i => by rw [hre.index_eq, hindex₂])
      have hsw₃ : Swept s s₃ := hsw₁.trans (hsw₂.trans hre.toSwept)
      have hnow₃ : s.now ≤ s₃.now := by
        rw [hre.now_eq, hnow₂]
        exact hnow₁
      rw [hnext] at hmid
      split_ifs at hmid ⊢
      · obtain ⟨k', hmid', hnot, hsw, hnow, hserved⟩ := ih (by omega) hmid.2 hmid.1
        refine ⟨k', hmid', hnot, (hsw₃.trans ?_).trans hsw, Nat.le_trans hnow₃ hnow, fun hs => ?_⟩
        · exact ⟨rfl, rfl, [], (List.append_nil _).symm, by simp⟩
        · have hrewound := hserved₃ (hserved₂ hs)
          rw [hnext] at hrewound
          exact hserved (hrewound.congr (fun _ _ => State.setIndex_spoke _ _ _ _ _) rfl)
      · rw [← hnext] at hmid
        exact ⟨_, hmid.2, Or.inr hmid.1, hsw₃, hnow₃, fun hs => hserved₃ (hserved₂ hs)⟩

/-- All wheels stand at position `p`, which the clock has reached. -/
structure At (env : Env) (b p : ℕ) (s : State) : Prop where
  inv : Inv b [] (fun k => p / wheelSpan k) s
  start : s.mStartTick = b + p
  reached : b + p ≤ s.now
  clock : s.now ≤ env.tick s.reads
  index_lt : ∀ k < wheelNum, s.index k < wheelSize k

/-- Making nodes ready does not look at the wheels. -/
theorem foldl_addToReady_setSpoke (l : List NodeId) (s : State) (k j i : ℕ) :
    ((l.foldl (fun s node => addToReady node s) s).setSpoke k j []).setIndex k i =
      l.foldl (fun s node => addToReady node s) ((s.setSpoke k j []).setIndex k i) := by
  induction l generalizing s with
  | nil => rfl
  | cons n l ih => exact ih (addToReady n s)

theorem setSpoke_setIndex_comm (s : State) (k j i : ℕ) (l : List NodeId) :
    (s.setSpoke k j l).setIndex k i = (s.setIndex k i).setSpoke k j l := by
  simp only [State.setSpoke, State.setIndex, Function.update_self, Function.update_idem]

/-- One turn of the catch-up loop. -/
theorem detectStep_keeps {env : Env} (hmono : Monotone env.tick) {b p : ℕ} {s : State}
    (h : At env b p s) (hpassed : b + p + 1 ≤ s.now) :
    At env b (p + 1) (detectStep env s) ∧ Swept s (detectStep env s) ∧
      s.now ≤ (detectStep env s).now ∧ (ServedInTime b (fun k => p / wheelSpan k) s →
        ServedInTime b (fun k => (p + 1) / wheelSpan k) (detectStep env s)) := by
  have h0 : (0 : ℕ) < wheelNum := by decide
  have hdvd : wheelSpan 0 ∣ p + 1 := Nat.one_dvd _
  have hmid : Mid env b p 0 s :=
    ⟨h.inv.congr_turns fun k _ => (turns_zero p k).symm, h.start, hpassed, h.clock, h.index_lt⟩
  simp only [detectStep]
  rw [foldl_addToReady_setSpoke, setSpoke_setIndex_comm]
  obtain ⟨hturn, hnodes⟩ := hmid.turn h0 hdvd
  have hserved₁ := fun hserved => hmid.served h0 hdvd
    (ServedInTime.congr_turns hserved fun k _ _ => (turns_zero p k).symm)
  generalize hs₁ : (s.setIndex 0 (s.index 0 + 1)).setSpoke 0 (s.index 0) [] = s₁ at *
  have hindex₁ : ∀ i, s₁.index i = if i = 0 then s.index 0 + 1 else s.index i := by
    intro i
    rw [← hs₁, State.setSpoke_index, State.setIndex_index]
  have hframe : s₁.mStartTick = s.mStartTick ∧ s₁.now = s.now ∧ s₁.reads = s.reads ∧
      s₁.heap = s.heap ∧ s₁.log = s.log ∧ Swept s s₁ := by
    subst hs₁
    exact ⟨rfl, rfl, rfl, rfl, rfl, rfl, rfl, [], (List.append_nil _).symm, by simp⟩
  obtain ⟨hstart₁, hnow₁, hreads₁, hheap₁, hlog₁, hsw₁⟩ := hframe
  obtain ⟨hinv, hre, hserved₂⟩ := Inv.foldl_relink (D := []) (f := fun s node => addToReady node s)
    (P := fun s n => s.Timely → (s.heap n).mDeadTime ≤ s.now)
    (fun s n D h hp => ⟨h.makeReady hp, addToReady_relinked n s,
      fun hs => hs.congr (fun _ _ => rfl) rfl⟩)
    (fun s s' n hre hp hT => by
      rw [hre.heap_eq, hre.now_eq]
      exact hp (hre.timely hT))
    (s.spoke 0 (s.index 0)) hturn (fun n hn hT => by
      rw [hheap₁, hnow₁]
      have := (hnodes n hn).2.2 (hsw₁.timely hT) rfl
      omega)
  generalize (s.spoke 0 (s.index 0)).foldl (fun s node => addToReady node s) s₁ = s₂ at *
  have hmid₂ := hmid.rewind h0 hdvd hinv (hre.start_eq.trans hstart₁)
    (by rw [hre.now_eq, hnow₁]) (by rw [hre.now_eq, hre.reads_eq, hnow₁, hreads₁]; exact h.clock)
    (fun i => by rw [hre.index_eq, hindex₁])
  have hsw₂ : Swept s s₂ := hsw₁.trans hre.toSwept
  have hnow₂ : s.now ≤ s₂.now := by rw [hre.now_eq, hnow₁]
  -- the last assignment moves `mStartTick` to the position the wheels have reached
  have hfinish : ∀ {k s'}, Mid env b p k s' → (wheelNum ≤ k ∨ ¬ wheelSpan k ∣ p + 1) →
      Swept s s' → s.now ≤ s'.now → (ServedInTime b (fun k => p / wheelSpan k) s →
        ServedInTime b (turns p k) s') →
      At env b (p + 1) { s' with mStartTick := s'.mStartTick + granularity } ∧
        Swept s { s' with mStartTick := s'.mStartTick + granularity } ∧ s.now ≤ s'.now ∧
        (ServedInTime b (fun k => p / wheelSpan k) s → ServedInTime b
          (fun k => (p + 1) / wheelSpan k)
          { s' with mStartTick := s'.mStartTick + granularity }) := by
    intro k s' hm hnot hsw hnow hserved
    have hinv' := hm.done hnot
    refine ⟨⟨⟨hinv'.size_eq, hinv'.index_mod, hinv'.slot, hinv'.links, hinv'.live, hinv'.owner,
      hinv'.interval_lt, hinv'.notEarly⟩, ?_, ?_, hm.clock, hm.index_lt⟩,
      ⟨hsw.heap_eq, hsw.map_eq, hsw.log_new⟩, hnow, fun hs => ?_⟩
    · show s'.mStartTick + 1 = b + (p + 1)
      rw [hm.start, Nat.add_assoc]
    · show b + (p + 1) ≤ s'.now
      rw [← Nat.add_assoc]
      exact hm.passed
    · exact ((hserved hs).congr_turns fun i _ hi => turns_done hnot hi).congr
        (fun _ _ => rfl) rfl
  split_ifs at hmid₂ ⊢
  · obtain ⟨k, hmid', hnot, hsw, hnow, hserved⟩ :=
      cascadeFrom_keeps hmono (wheelNum - 1) (by decide) hmid₂.2 hmid₂.1
    have hcascade : cascade env 1 (s₂.setIndex 0 0) =
        cascadeFrom env (wheelNum - 1) (s₂.setIndex 0 0) := by
      rw [cascade, if_neg (by decide)]
    rw [hcascade]
    refine hfinish hmid' hnot ((hsw₂.trans ?_).trans hsw) (Nat.le_trans hnow₂ hnow) fun hs => ?_
    · exact ⟨rfl, rfl, [], (List.append_nil _).symm, by simp⟩
    · exact hserved ((hserved₂ (hserved₁ hs)).congr (fun _ _ => State.setIndex_spoke _ _ _ _ _) rfl)
  · exact hfinish hmid₂.2 (Or.inr hmid₂.1) hsw₂ hnow₂ fun hs => hserved₂ (hserved₁ hs)

/-- The catch-up loop takes the wheels `loopnum` ticks on. -/
theorem detectLoop_keeps {env : Env} (hmono : Monotone env.tick) {b : ℕ} (loopnum : ℕ) {p : ℕ}
    {s : State} (h : At env b p s) (hpassed : b + (p + loopnum) ≤ s.now) :
    At env b (p + loopnum) (detectLoop env loopnum s) ∧ Swept s (detectLoop env loopnum s) ∧
      (ServedInTime b (fun k => p / wheelSpan k) s →
        ServedInTime b (fun k => (p + loopnum) / wheelSpan k) (detectLoop env loopnum s)) := by
  induction loopnum generalizing p s with
  | zero => exact ⟨h, .refl s, id⟩
  | succ loopnum ih =>
      obtain ⟨h₁, hsw₁, hnow₁, hserved₁⟩ := detectStep_keeps hmono h (by omega)
      obtain ⟨h₂, hsw₂, hserved₂⟩ := ih h₁ (by omega)
      have hp : p + (loopnum + 1) = p + 1 + loopnum := by omega
      rw [hp]
      exact ⟨h₂, hsw₁.trans hsw₂, fun hs => hserved₂ (hserved₁ hs)⟩

end CoreLooper.TimerManager
