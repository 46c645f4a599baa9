import CoreLooper.TimerCallbacks

/-!
# How long a looper may sleep

`GetMinIdleTime` looks for the first spoke in use on the three lowest wheels, each scanned from its
current spoke once around. A sleep of `n` ticks is safe if no timer is due before `n` ticks from now
and no spoke in use has to be cascaded before. The function does not look at the spokes that are
cascaded together with the wrap of a wheel while it scans on behind that wrap, so its answer is safe
in exactly the states in which those spokes are empty or the scan stops at the wrap.
-/
namespace CoreLooper.TimerManager
open WheelSlots

section
variable {env : Env} {b p t : ℕ} {s : State} {node : NodeId}

theorem Inv.lt_of_spoke {D : List NodeId} {c : ℕ → ℕ} (h : Inv b D c s) {k j : ℕ} {n : NodeId}
    (hn : n ∈ s.spoke k j) : n < s.nextNode := by
  obtain ⟨hk, q, -, rfl, -⟩ := h.slot k j n hn
  have hcount := s.count_le_linkCount k _ n hk (Nat.mod_lt q (wheelSize_pos k))
  have hpos := List.count_pos_iff.mpr hn
  have hle := h.links n
  split_ifs at hle with hlt
  · exact hlt
  · omega

theorem setTimer_served (h : Rest env b p s)
    (hs : ServedInTime b (fun k => p / wheelSpan k) s) (handler : HandlerId) (timerId : TimerId)
    {interval : ℕ} (hlt : interval < 2 ^ 32) (extra : Option TimerExtraInfo) :
    ServedInTime b (fun k => p / wheelSpan k)
      (setTimer env handler timerId interval extra s) := by
  unfold setTimer
  generalize hi : (if interval = 0 then 1 else interval) = i
  have hi32 : i < 2 ^ 32 := by
    subst hi
    split_ifs
    · decide
    · exact hlt
  have hnew : ServedInTime b (fun k => p / wheelSpan k) (s.setNode s.nextNode
      ⟨handler, timerId, env.tick s.reads + i, i, extra⟩) := by
    refine hs.mono fun k j n hn => ⟨hn, ?_⟩
    rw [State.setNode_heap, if_neg (Nat.ne_of_lt (h.inv.lt_of_spoke hn))]
  refine ServedInTime.addTimer (t := env.tick s.reads) (p := p) (m := wheelNum)
    (hnew.congr (fun _ _ => rfl) rfl) h.inv.index_mod (by decide) (Nat.le_refl wheelNum)
    (fun _ _ => rfl) (wheelSpan_five ▸ hi32) ?_ (Nat.le_trans h.reached h.clock)
  exact congrArg TimerNode.mDeadTime (State.setNode_heap s s.nextNode _ s.nextNode |>.trans
    (if_pos rfl))

theorem killTimer_served {c : ℕ → ℕ} (hs : ServedInTime b c s) (handler : HandlerId)
    (timerId : TimerId) : ServedInTime b c (killTimer handler timerId s) := by
  unfold killTimer
  split
  · exact hs
  · exact hs.mono fun k j n hn => ⟨List.mem_of_mem_filter hn, rfl⟩

theorem callInside_served (h : Rest env b p s)
    (hs : ServedInTime b (fun k => p / wheelSpan k) s) (c : Call) :
    ServedInTime b (fun k => p / wheelSpan k) (callInside env s c) := by
  cases c with
  | setTimer handler timerId interval extra =>
      exact setTimer_served h hs handler timerId interval.toNat_lt extra
  | setTimerEx handler interval extra =>
      have hrest : ∀ ids rewinds, Rest env b p
          { s with mNextTimerId := ids, mTimerIdRewind := rewinds } := fun ids rewinds =>
        ⟨⟨⟨h.inv.size_eq, h.inv.index_mod, h.inv.slot, h.inv.links, h.inv.live, h.inv.owner,
          h.inv.interval_lt, h.inv.notEarly⟩, h.start, h.reached, h.clock, h.index_lt⟩, h.recorded⟩
      exact setTimer_served (hrest _ _) (hs.congr (fun _ _ => rfl) rfl) handler
        (nextTimerId s handler).1 interval.toNat_lt extra
  | processTimer io => exact hs
  | killTimer handler timerId =>
      simp only [callInside]
      split
      · exact killTimer_served hs handler timerId
      · rename_i n _
        exact killTimer_served (s := s.emit (.killed n)) (hs.congr (fun _ _ => rfl) rfl) handler
          timerId

theorem callback_served (hmono : Monotone env.tick) (h : Rest env b p s)
    (hs : ServedInTime b (fun k => p / wheelSpan k) s) :
    ServedInTime b (fun k => p / wheelSpan k) (callback env s) := by
  have hfold : ∀ (calls : List Call) (s : State), Rest env b p s →
      ServedInTime b (fun k => p / wheelSpan k) s →
        ServedInTime b (fun k => p / wheelSpan k) (calls.foldl (callInside env) s) := by
    intro calls
    induction calls with
    | nil => exact fun _ _ hs => hs
    | cons c calls ih =>
        exact fun s h hs => ih _ (callInside_keeps hmono h c).1 (callInside_served h hs c)
  exact hfold _ _ (h.setCallbacks (s.callbacks + 1)) (hs.congr (fun _ _ => rfl) rfl)

theorem timeOutNode_served (hmono : Monotone env.tick) (h : Taken env b p t node s)
    (hs : ServedInTime b (fun k => p / wheelSpan k) s) :
    ServedInTime b (fun k => p / wheelSpan k) (timeOutNode env t node s) := by
  have hbefore : ServedInTime b (fun k => p / wheelSpan k) (beforeCallback t node s) := by
    unfold beforeCallback
    dsimp only
    split
    · exact (killTimer_served hs _ _).congr (fun _ _ => rfl) rfl
    · have hnew : ServedInTime b (fun k => p / wheelSpan k) (s.setNode node
          { s.heap node with mDeadTime := t + (s.heap node).mInterval }) := by
        refine hs.mono fun k j n hn => ⟨hn, ?_⟩
        rw [State.setNode_heap, if_neg]
        rintro rfl
        exact h.inv.not_mem_spoke (List.mem_singleton_self _) k j hn
      refine ServedInTime.congr (ServedInTime.addTimer (n := node) (t := t) (p := p)
        (m := wheelNum) (hnew.congr (fun _ _ => rfl) rfl) h.inv.index_mod (by decide)
        (Nat.le_refl wheelNum) (fun _ _ => rfl)
        (wheelSpan_five ▸ h.inv.interval_lt node) ?_ h.reached) (fun _ _ => rfl) rfl
      exact congrArg TimerNode.mDeadTime ((State.setNode_heap s node _ node).trans (if_pos rfl))
  rw [timeOutNode_eq]
  split_ifs
  · exact callback_served hmono (beforeCallback_keeps h).1 hbefore
  · exact hbefore

theorem timeOutLoop_served (hmono : Monotone env.tick) (fuel : ℕ) (h : Rest env b p s)
    (ht : b + p ≤ t ∧ t ≤ s.now) (hs : ServedInTime b (fun k => p / wheelSpan k) s) :
    ServedInTime b (fun k => p / wheelSpan k) (timeOutLoop env t fuel s) := by
  induction fuel generalizing s with
  | zero => exact hs
  | succ fuel ih =>
      cases hready : s.mReadyNodes with
      | nil =>
          simp only [timeOutLoop, hready]
          exact hs
      | cons node rest =>
          simp only [timeOutLoop, hready]
          have htaken : Taken env b p t node { s with mReadyNodes := rest } :=
            ⟨h.inv.popReady hready, h.start, ht.1, ht.2, h.clock, h.index_lt, h.recorded⟩
          obtain ⟨hrest, hout⟩ := timeOutNode_keeps hmono htaken
          exact ih hrest ⟨ht.1, Nat.le_trans ht.2 hout.now_le⟩
            (timeOutNode_served hmono htaken (hs.congr (fun _ _ => rfl) rfl))

/-- The wheels stand at `p`, and all their nodes are served in time. -/
theorem call_served (hmono : Monotone env.tick) (h : Rest env b p s) (hidle : s.mBusying = false)
    (hs : ServedInTime b (fun k => p / wheelSpan k) s) (c : Call) :
    ∃ p', Rest env b p' (call env s c) ∧
      ServedInTime b (fun k => p' / wheelSpan k) (call env s c) := by
  have hinside : ∀ c, ∃ p', Rest env b p' (callInside env s c) ∧
      ServedInTime b (fun k => p' / wheelSpan k) (callInside env s c) :=
    fun c => ⟨p, (callInside_keeps hmono h c).1, callInside_served h hs c⟩
  cases c with
  | setTimer handler timerId interval extra => exact hinside (.setTimer ..)
  | setTimerEx handler interval extra => exact hinside (.setTimerEx ..)
  | killTimer handler timerId => exact hinside (.killTimer ..)
  | processTimer io =>
      obtain ⟨p', hrest, -, -, hserved⟩ := caughtUp_keeps hmono (h.setBusying true)
      have hloop := hserved (hs.congr (fun _ _ => rfl) rfl)
      obtain ⟨hrest', hnil, -⟩ := processTimeOut_keeps hmono hrest
      have hout : ServedInTime b (fun k => p' / wheelSpan k)
          (processTimeOut env (caughtUp env { s with mBusying := true })) := by
        rw [processTimeOut_eq hmono hrest]
        exact timeOutLoop_served hmono _ (hrest.tick hmono)
          ⟨Nat.le_trans hrest.reached hrest.clock, Nat.le_refl _⟩
          (hloop.congr (fun _ _ => rfl) rfl)
      simp only [call, processTimer, hidle, Bool.false_eq_true, if_false, detectList_eq]
      exact ⟨p', hrest'.setBusying false, hout.congr (fun _ _ => rfl) rfl⟩

theorem run_served (hmono : Monotone env.tick) (calls : List Call) :
    ∃ p, Rest env (env.tick 0) p (run env calls) ∧
      ServedInTime (env.tick 0) (fun k => p / wheelSpan k) (run env calls) := by
  have hfold : ∀ (calls : List Call) (s : State) (p : ℕ), Rest env (env.tick 0) p s →
      s.mBusying = false → ServedInTime (env.tick 0) (fun k => p / wheelSpan k) s →
        ∃ p, Rest env (env.tick 0) p (calls.foldl (call env) s) ∧
          ServedInTime (env.tick 0) (fun k => p / wheelSpan k) (calls.foldl (call env) s) := by
    intro calls
    induction calls with
    | nil => exact fun s p h _ hs => ⟨p, h, hs⟩
    | cons c calls ih =>
        intro s p h hidle hs
        obtain ⟨p', h', hs'⟩ := call_served hmono h hidle hs c
        exact ih _ p' h' (call_keeps hmono h hidle c).2 hs'
  exact hfold calls (init env) 0 (init_keeps hmono) rfl fun _ _ _ _ _ hn => by cases hn

end

namespace State
variable (s : State)

/-- The spokes from the current one on that are not in use, up to the first one that is. -/
def gap (k : ℕ) : ℕ :=
  (List.range (s.size k)).findIdx fun i => s.spoke k ((i + s.index k) % s.size k) ≠ []

/-- The current spoke, which the next turn of the wheel serves, is in use. -/
def Used (k : ℕ) : Prop := s.spoke k (s.index k) ≠ []

instance (k : ℕ) : Decidable (s.Used k) := inferInstanceAs (Decidable (_ ≠ []))

/-- The next turn of the wheel also turns the wheel above. -/
def AtEnd (k : ℕ) : Prop := s.index k + 1 = s.size k

/-- Of the upper `rest` wheels, those that the next turn of the lowest one turns have nothing to
cascade. -/
def ClearAbove : ℕ → Prop
  | 0 => True
  | rest + 1 => ¬ s.Used (wheelNum - (rest + 1)) ∧
      (s.AtEnd (wheelNum - (rest + 1)) → ClearAbove rest)

/-- The ticks until wheel `k` turns next. -/
def turnIn : ℕ → ℕ
  | 0 => 1
  | k + 1 => turnIn k + wheelSpan k * (wheelSize k - 1 - s.index k)

/-- No spoke in use is cascaded before the time `GetMinIdleTime` returns. Behind the wrap of wheel
0 or wheel 1 this needs the upper wheels that turn with the wrap to be empty, unless the wrap itself
is where the scan stops. -/
def Covered : Prop :=
  if s.gap 0 < s.size 0 ∧ s.index 0 + s.gap 0 ≤ s.size 0 ∨ s.Used 1 then True
  else if s.gap 0 < s.size 0 then s.AtEnd 1 → s.ClearAbove 3
  else if s.index 1 + s.gap 1 < s.size 1 then True
  else if s.Used 2 then s.index 0 = 0
  else if s.gap 1 < s.size 1 then
    s.index 1 + s.gap 1 = s.size 1 ∧ s.index 0 = 0 ∨ (s.AtEnd 2 → s.ClearAbove 2)
  else if s.index 2 + s.gap 2 < s.size 2 then True
  else s.index 2 + s.gap 2 = s.size 2 ∧ s.index 1 = 0 ∧ s.index 0 = 0 ∨ s.ClearAbove 2

theorem gap_le (k : ℕ) : s.gap k ≤ s.size k := by
  have h : s.gap k ≤ (List.range (s.size k)).length := List.findIdx_le_length
  rwa [List.length_range] at h

theorem unused_of_lt_gap {k i : ℕ} (hi : i < s.gap k) :
    s.spoke k ((i + s.index k) % s.size k) = [] := by
  have h := List.not_of_lt_findIdx hi
  simpa using h

theorem used_of_gap_lt {k : ℕ} (hg : s.gap k < s.size k) :
    s.spoke k ((s.gap k + s.index k) % s.size k) ≠ [] := by
  have hlt : s.gap k < (List.range (s.size k)).length := by rwa [List.length_range]
  have h := List.findIdx_getElem (w := hlt)
  simpa [gap] using h

end State

/-- The loop over one wheel counts the unused spokes and marks the wrap when it passes it. -/
theorem scanWheel_eq {s : State} {k n g : ℕ} (step : ℕ) (hsize : s.size k = n)
    (hindex : s.index k < n) (hg : g ≤ n) (hunused : ∀ i < g, s.spoke k ((i + s.index k) % n) = [])
    (hused : g < n → s.spoke k ((g + s.index k) % n) ≠ []) (left i : ℕ) (hi : i + left = n)
    (hig : i ≤ g) :
    scanWheel s k step left i (step * i)
        (if n ≤ s.index k + i then some (step * (n - s.index k)) else none) =
      (step * g, if n ≤ s.index k + g then some (step * (n - s.index k)) else none,
        decide (g < n)) := by
  induction left generalizing i with
  | zero =>
      have hgn : g = n := by omega
      have hin : i = n := by omega
      simp [scanWheel, hgn, hin]
  | succ left ih =>
      simp only [scanWheel, hsize]
      by_cases hend : i = g
      · subst hend
        have hlt : i < n := by omega
        rw [if_pos (hused hlt)]
        simp [hlt]
      · have hempty := hunused i (by omega)
        rw [if_neg (by simp [hempty])]
        have hwrap : (i + s.index k) % n = n - 1 ↔ i + s.index k = n - 1 := by
          rcases Nat.lt_or_ge (i + s.index k) n with hlt | hge
          · rw [Nat.mod_eq_of_lt hlt]
          · rw [Nat.mod_eq_sub_mod hge, Nat.mod_eq_of_lt (by omega)]
            omega
        have hnext := ih (i + 1) (by omega) (by omega)
        have hrewind : (if (i + s.index k) % n = n - 1 then some (step * i + step)
            else if n ≤ s.index k + i then some (step * (n - s.index k)) else none) =
            if n ≤ s.index k + (i + 1) then some (step * (n - s.index k)) else none := by
          by_cases hlast : i + s.index k = n - 1
          · have hdist : n - s.index k = i + 1 := by omega
            rw [if_pos (hwrap.mpr hlast), if_pos (by omega), hdist, Nat.mul_succ]
          · rw [if_neg (fun h => hlast (hwrap.mp h))]
            by_cases hpast : n ≤ s.index k + i
            · rw [if_pos hpast, if_pos (by omega)]
            · rw [if_neg hpast, if_neg (by omega)]
        rw [hrewind, ← Nat.mul_succ]
        exact hnext

theorem scanWheel_gap {s : State} {k : ℕ} (hindex : s.index k < s.size k) (step : ℕ) :
    scanWheel s k step (s.size k) 0 0 none =
      (step * s.gap k,
        if s.size k ≤ s.index k + s.gap k then some (step * (s.size k - s.index k)) else none,
        decide (s.gap k < s.size k)) := by
  have h := scanWheel_eq step rfl hindex (s.gap_le k) (fun _ hi => s.unused_of_lt_gap hi)
    s.used_of_gap_lt (s.size k) 0 (Nat.zero_add _) (Nat.zero_le _)
  rwa [if_neg (by omega)] at h

/-- The answer in terms of the first spokes in use. -/
theorem getMinIdleTime_eq {s : State} (h0 : s.index 0 < s.size 0) (h1 : s.index 1 < s.size 1)
    (h2 : s.index 2 < s.size 2) :
    getMinIdleTime s =
      if s.index 0 + s.gap 0 < s.size 0 then s.gap 0
      else if s.Used 1 then s.size 0 - s.index 0
      else if s.gap 0 < s.size 0 then s.gap 0
      else if s.index 1 + s.gap 1 < s.size 1 then 256 * s.gap 1
      else if s.Used 2 then 256 * (s.size 1 - s.index 1)
      else if s.gap 1 < s.size 1 then 256 * s.gap 1
      else 256 * 64 * s.gap 2 := by
  unfold getMinIdleTime
  rw [scanWheel_gap h0, scanWheel_gap h1, scanWheel_gap h2]
  simp only [granularity, one_mul]
  by_cases hwrap0 : s.index 0 + s.gap 0 < s.size 0
  · rw [if_pos hwrap0, if_neg (by omega)]
  rw [if_neg hwrap0, if_pos (by omega)]
  dsimp only
  by_cases hused1 : s.spoke 1 (s.index 1) ≠ []
  · rw [if_pos hused1, if_pos (show s.Used 1 from hused1)]
  rw [if_neg hused1, if_neg (show ¬ s.Used 1 from hused1)]
  by_cases hgap0 : s.gap 0 < s.size 0
  · rw [if_pos hgap0, if_pos (by simpa using hgap0)]
  rw [if_neg hgap0, if_neg (by simpa using hgap0)]
  by_cases hwrap1 : s.index 1 + s.gap 1 < s.size 1
  · rw [if_pos hwrap1, if_neg (by omega)]
  rw [if_neg hwrap1, if_pos (by omega)]
  dsimp only
  by_cases hused2 : s.spoke 2 (s.index 2) ≠ []
  · rw [if_pos hused2, if_pos (show s.Used 2 from hused2)]
  rw [if_neg hused2, if_neg (show ¬ s.Used 2 from hused2)]
  by_cases hgap1 : s.gap 1 < s.size 1
  · rw [if_pos hgap1, if_pos (by simpa using hgap1)]
  rw [if_neg hgap1, if_neg (by simpa using hgap1)]

/-- Sleeping `n` ticks misses nothing: no timer is due before, and before then no spoke in use has
to be cascaded. -/
structure SafeSleep (s : State) (n : ℕ) : Prop where
  due : ∀ node, (node ∈ s.mReadyNodes ∨ ∃ k j, node ∈ s.spoke k j) →
    s.now + n ≤ (s.heap node).mDeadTime
  cascade : ∀ k, 1 ≤ k → k < wheelNum → ∀ i < s.size k,
    s.spoke k ((i + s.index k) % s.size k) ≠ [] → n ≤ s.turnIn k + i * wheelSpan k

section
variable {env : Env} {b p : ℕ} {s : State}

/-- `turnIn` is the distance to the next multiple of the span. -/
theorem At.turnIn_eq (h : At env b p s) {k : ℕ} (hk : k < wheelNum) :
    p + s.turnIn k = (p / wheelSpan k + 1) * wheelSpan k := by
  induction k with
  | zero =>
      show p + 1 = (p / 1 + 1) * 1
      rw [Nat.div_one, Nat.mul_one]
  | succ k ih =>
      have hindex : s.index k = p / wheelSpan k % wheelSize k := by
        rw [← Nat.mod_eq_of_lt (h.index_lt k (by omega)), h.inv.index_mod k (by omega)]
      have hdiv : p / wheelSpan (k + 1) = p / wheelSpan k / wheelSize k := by
        rw [wheelSpan_succ, Nat.div_div_eq_div_mul]
      have hmod := Nat.div_add_mod (p / wheelSpan k) (wheelSize k)
      have hlt := Nat.mod_lt (p / wheelSpan k) (wheelSize_pos k)
      have hsum : p / wheelSpan k + 1 + (wheelSize k - 1 - p / wheelSpan k % wheelSize k) =
          (p / wheelSpan k / wheelSize k + 1) * wheelSize k := by
        rw [Nat.add_mul, Nat.one_mul, Nat.mul_comm _ (wheelSize k)]
        omega
      rw [State.turnIn, ← Nat.add_assoc, ih (by omega), hindex, hdiv, wheelSpan_succ,
        Nat.mul_comm (wheelSpan k) (wheelSize k), ← Nat.mul_assoc, ← hsum,
          Nat.mul_comm (wheelSpan k),
        ← Nat.add_mul]

/-- A linked node lies some spokes ahead of the current one of its wheel, and is due no earlier
than its spoke is served. -/
theorem Rest.ahead (h : Rest env b p s) (hs : ServedInTime b (fun k => p / wheelSpan k) s)
    {k j : ℕ} {node : NodeId} (hn : node ∈ s.spoke k j) : k < wheelNum ∧
      ∃ i < s.size k, node ∈ s.spoke k ((i + s.index k) % s.size k) ∧
        (k = 0 → b + p + i ≤ (s.heap node).mDeadTime) ∧
        (1 ≤ k → b + p + (s.turnIn k + i * wheelSpan k) ≤ (s.heap node).mDeadTime) := by
  obtain ⟨hk, q, hq, rfl, hdue, -⟩ := h.inv.slot k j node hn
  obtain ⟨i, rfl⟩ := Nat.exists_eq_add_of_le hq.1
  have hi : i < wheelSize k := by
    have := hq.2
    omega
  have hsize := h.inv.size_eq k hk
  have hslot : (p / wheelSpan k + i) % wheelSize k = (i + s.index k) % s.size k := by
    rw [hsize, Nat.add_mod i, h.inv.index_mod k hk, ← Nat.add_mod, Nat.add_comm]
  refine ⟨hk, i, hsize ▸ hi, hslot ▸ hn, fun hk0 => ?_, fun hk1 => ?_⟩
  · subst hk0
    have hdue' : b + (p / 1 + i + 1) * 1 ≤ (s.heap node).mDeadTime + 1 := hdue
    rw [Nat.div_one, Nat.mul_one] at hdue'
    omega
  · have hserved := hs k hk1 hk _ node hn _ hq rfl
    have hturn := h.turnIn_eq hk
    have hsum : (p / wheelSpan k + i + 1) * wheelSpan k =
        (p / wheelSpan k + 1) * wheelSpan k + i * wheelSpan k := by ring
    rw [hsum, ← hturn] at hserved
    omega

/-- The two parts of a safe sleep come down to the used spokes ahead. -/
theorem Rest.safeSleep (h : Rest env b p s) (hs : ServedInTime b (fun k => p / wheelSpan k) s)
    (hnow : s.now = s.mStartTick) (hready : s.mReadyNodes = []) {n : ℕ}
    (hfirst : s.gap 0 < s.size 0 → n ≤ s.gap 0)
    (hcascade : ∀ k, 1 ≤ k → k < wheelNum → ∀ i < s.size k,
      s.spoke k ((i + s.index k) % s.size k) ≠ [] → n ≤ s.turnIn k + i * wheelSpan k) :
    SafeSleep s n := by
  refine ⟨fun node hn => ?_, hcascade⟩
  rw [hready] at hn
  obtain ⟨k, j, hn⟩ := hn.resolve_left List.not_mem_nil
  obtain ⟨hk, i, hi, hmem, hzero, hupper⟩ := h.ahead hs hn
  rw [hnow, h.start]
  rcases Nat.eq_zero_or_pos k with rfl | hpos
  · have hgap : s.gap 0 ≤ i := by
      by_contra hlt
      rw [s.unused_of_lt_gap (not_le.mp hlt)] at hmem
      cases hmem
    have := hfirst (Nat.lt_of_le_of_lt hgap hi)
    have := hzero rfl
    omega
  · have := hcascade k hpos hk i hi (List.ne_nil_of_mem hmem)
    have := hupper hpos
    omega

/-- The sizes of the wheels, their indices, and the ticks to their next turns. -/
structure State.Sized (s : State) : Prop where
  size0 : s.size 0 = 256
  size : ∀ k, 1 ≤ k → k < wheelNum → s.size k = 64
  index : ∀ k < wheelNum, s.index k < s.size k
  turn1 : s.turnIn 1 = 256 - s.index 0
  turn2 : s.turnIn 2 = s.turnIn 1 + 256 * (63 - s.index 1)
  turn3 : s.turnIn 3 = s.turnIn 2 + 16384 * (63 - s.index 2)
  turn4 : s.turnIn 4 = s.turnIn 3 + 1048576 * (63 - s.index 3)

theorem At.sized (h : At env b p s) : s.Sized := by
  have hindex : ∀ k < wheelNum, s.index k < s.size k := fun k hk =>
    h.inv.size_eq k hk ▸ h.index_lt k hk
  have hsize0 : s.size 0 = 256 := h.inv.size_eq 0 (by decide)
  refine ⟨hsize0, fun k hk hk5 => ?_, hindex, ?_, rfl, rfl, rfl⟩
  · rw [h.inv.size_eq k hk5, wheelSize, if_neg (by omega)]
    rfl
  · have hlt := hindex 0 (by decide)
    show 1 + 1 * (256 - 1 - s.index 0) = 256 - s.index 0
    omega

theorem State.clearAbove_two (s : State) :
    s.ClearAbove 2 ↔ ¬ s.Used 3 ∧ (s.index 3 + 1 = s.size 3 → ¬ s.Used 4) := by
  show (¬ s.Used 3 ∧ (s.AtEnd 3 → ¬ s.Used 4 ∧ (s.AtEnd 4 → True))) ↔ _
  simp only [implies_true, and_true, State.AtEnd]

theorem State.clearAbove_three (s : State) :
    s.ClearAbove 3 ↔ ¬ s.Used 2 ∧ (s.index 2 + 1 = s.size 2 → s.ClearAbove 2) := Iff.rfl

namespace State.Sized

/-- The answer of `GetMinIdleTime`, with the sizes put in. -/
theorem getMinIdleTime (hs : s.Sized) : TimerManager.getMinIdleTime s =
    if s.index 0 + s.gap 0 < 256 then s.gap 0
    else if s.Used 1 then 256 - s.index 0
    else if s.gap 0 < 256 then s.gap 0
    else if s.index 1 + s.gap 1 < 64 then 256 * s.gap 1
    else if s.Used 2 then 256 * (64 - s.index 1)
    else if s.gap 1 < 64 then 256 * s.gap 1
    else 16384 * s.gap 2 := by
  rw [getMinIdleTime_eq (hs.index 0 (by decide)) (hs.index 1 (by decide)) (hs.index 2 (by decide)),
    hs.size0, hs.size 1 (by decide) (by decide)]

theorem bounds (hs : s.Sized) : s.index 0 < 256 ∧ s.index 1 < 64 ∧ s.index 2 < 64 ∧
    s.index 3 < 64 ∧ s.gap 0 ≤ 256 ∧ s.gap 1 ≤ 64 ∧ s.gap 2 ≤ 64 := by
  have hsize := hs.size
  have hindex := hs.index
  have h0 := hindex 0 (by decide)
  have h1 := hindex 1 (by decide)
  have h2 := hindex 2 (by decide)
  have h3 := hindex 3 (by decide)
  have hg0 := s.gap_le 0
  have hg1 := s.gap_le 1
  have hg2 := s.gap_le 2
  rw [hs.size0] at h0 hg0
  rw [hsize 1 (by decide) (by decide)] at h1 hg1
  rw [hsize 2 (by decide) (by decide)] at h2 hg2
  rw [hsize 3 (by decide) (by decide)] at h3
  exact ⟨h0, h1, h2, h3, hg0, hg1, hg2⟩

/-- What is covered, with the sizes put in. -/
theorem covered_iff (hs : s.Sized) : s.Covered ↔
    if s.gap 0 < 256 ∧ s.index 0 + s.gap 0 ≤ 256 ∨ s.Used 1 then True
    else if s.gap 0 < 256 then s.index 1 = 63 → ¬ s.Used 2 ∧ (s.index 2 = 63 →
      ¬ s.Used 3 ∧ (s.index 3 = 63 → ¬ s.Used 4))
    else if s.index 1 + s.gap 1 < 64 then True
    else if s.Used 2 then s.index 0 = 0
    else if s.gap 1 < 64 then s.index 1 + s.gap 1 = 64 ∧ s.index 0 = 0 ∨
      (s.index 2 = 63 → ¬ s.Used 3 ∧ (s.index 3 = 63 → ¬ s.Used 4))
    else if s.index 2 + s.gap 2 < 64 then True
    else s.index 2 + s.gap 2 = 64 ∧ s.index 1 = 0 ∧ s.index 0 = 0 ∨
      (¬ s.Used 3 ∧ (s.index 3 = 63 → ¬ s.Used 4)) := by
  unfold Covered AtEnd
  rw [clearAbove_three, clearAbove_two, hs.size0, hs.size 1 (by decide) (by decide),
    hs.size 2 (by decide) (by decide), hs.size 3 (by decide) (by decide)]
  simp only [Nat.reduceEqDiff]

/-- If no spoke in use is cascaded too early, the upper wheels are covered. -/
theorem covered (hs : s.Sized) (h : ∀ k, 2 ≤ k → k < wheelNum → s.Used k →
    TimerManager.getMinIdleTime s ≤ s.turnIn k) : s.Covered := by
  obtain ⟨hi0, hi1, hi2, hi3, hg0, hg1, hg2⟩ := hs.bounds
  have h2 := h 2 (by decide) (by decide)
  have h3 := h 3 (by decide) (by decide)
  have h4 := h 4 (by decide) (by decide)
  rw [hs.getMinIdleTime] at h2 h3 h4
  rw [hs.turn2, hs.turn1] at h2
  rw [hs.turn3, hs.turn2, hs.turn1] at h3
  rw [hs.turn4, hs.turn3, hs.turn2, hs.turn1] at h4
  rw [hs.covered_iff]
  split_ifs with c1 c2 c3 c4 c5 c6
  · -- a timer of wheel 0 behind its wrap
    have hwrap : ¬ s.index 0 + s.gap 0 < 256 := by omega
    have hu1 : ¬ s.Used 1 := fun hu => c1 (Or.inr hu)
    rw [if_neg hwrap, if_neg hu1, if_pos c2] at h2 h3 h4
    have hgt : 256 < s.index 0 + s.gap 0 := by omega
    refine fun e1 => ⟨fun hu => ?_, fun e2 => ⟨fun hu => ?_, fun e3 hu => ?_⟩⟩
    · have := h2 hu
      omega
    · have := h3 hu
      omega
    · have := h4 hu
      omega
  · have hwrap : ¬ s.index 0 + s.gap 0 < 256 := by omega
    have hu1 : ¬ s.Used 1 := fun hu => c1 (Or.inr hu)
    rw [if_neg hwrap, if_neg hu1, if_neg c2, if_neg c3, if_pos c4] at h2
    have := h2 c4
    omega
  · -- a timer of wheel 1 behind its wrap
    have hwrap : ¬ s.index 0 + s.gap 0 < 256 := by omega
    have hu1 : ¬ s.Used 1 := fun hu => c1 (Or.inr hu)
    rw [if_neg hwrap, if_neg hu1, if_neg c2, if_neg c3, if_neg c4, if_pos c5] at h3 h4
    by_cases hfirst : s.index 1 + s.gap 1 = 64 ∧ s.index 0 = 0
    · exact Or.inl hfirst
    · refine Or.inr fun e2 => ⟨fun hu => ?_, fun e3 hu => ?_⟩
      · have := h3 hu
        omega
      · have := h4 hu
        omega
  · -- wheel 2 is scanned behind its wrap, or to its end
    have hwrap : ¬ s.index 0 + s.gap 0 < 256 := by omega
    have hu1 : ¬ s.Used 1 := fun hu => c1 (Or.inr hu)
    rw [if_neg hwrap, if_neg hu1, if_neg c2, if_neg c3, if_neg c4, if_neg c5] at h3 h4
    by_cases hfirst : s.index 2 + s.gap 2 = 64 ∧ s.index 1 = 0 ∧ s.index 0 = 0
    · exact Or.inl hfirst
    · refine Or.inr ⟨fun hu => ?_, fun e3 hu => ?_⟩
      · have := h3 hu
        omega
      · have := h4 hu
        omega

/-- In covered wheels the answer comes no later than the turn of a wheel whose current spoke is in
use. -/
theorem le_turnIn (hs : s.Sized) (h : s.Covered) {k : ℕ} (hk : 2 ≤ k) (hk5 : k < wheelNum)
    (hu : s.Used k) : TimerManager.getMinIdleTime s ≤ s.turnIn k := by
  obtain ⟨hi0, hi1, hi2, hi3, hg0, hg1, hg2⟩ := hs.bounds
  have h2 := hs.turn2
  have h3 := hs.turn3
  have h4 := hs.turn4
  rw [hs.turn1] at h2
  have hcases : k = 2 ∨ k = 3 ∨ k = 4 := by
    simp only [wheelNum] at hk5
    omega
  rw [hs.covered_iff] at h
  rw [hs.getMinIdleTime]
  by_cases hwrap : s.index 0 + s.gap 0 < 256
  · rw [if_pos hwrap]
    rcases hcases with rfl | rfl | rfl <;> omega
  rw [if_neg hwrap]
  by_cases hu1 : s.Used 1
  · rw [if_pos hu1]
    rcases hcases with rfl | rfl | rfl <;> omega
  rw [if_neg hu1]
  by_cases c2 : s.gap 0 < 256
  · rw [if_pos c2] at h ⊢
    by_cases hfirst : s.index 0 + s.gap 0 ≤ 256
    · -- the wrap itself comes to the first timer of wheel 0
      rcases hcases with rfl | rfl | rfl <;> omega
    · rw [if_neg (fun hc => hc.elim (fun hc => hfirst hc.2) hu1)] at h
      rcases hcases with rfl | rfl | rfl
      · have hend : s.index 1 ≠ 63 := fun e1 => (h e1).1 hu
        omega
      · have hend : ¬ (s.index 1 = 63 ∧ s.index 2 = 63) := fun e => ((h e.1).2 e.2).1 hu
        omega
      · have hend : ¬ (s.index 1 = 63 ∧ s.index 2 = 63 ∧ s.index 3 = 63) :=
          fun e => ((h e.1).2 e.2.1).2 e.2.2 hu
        omega
  rw [if_neg (fun hc => hc.elim (fun hc => c2 hc.1) hu1), if_neg c2] at h
  rw [if_neg c2]
  by_cases c3 : s.index 1 + s.gap 1 < 64
  · rw [if_pos c3]
    rcases hcases with rfl | rfl | rfl <;> omega
  rw [if_neg c3] at h ⊢
  by_cases c4 : s.Used 2
  · rw [if_pos c4] at h ⊢
    rcases hcases with rfl | rfl | rfl <;> omega
  rw [if_neg c4] at h ⊢
  have hk2 : k ≠ 2 := fun heq => c4 (heq ▸ hu)
  by_cases c5 : s.gap 1 < 64
  · rw [if_pos c5] at h ⊢
    rcases h with hfirst | hclear
    · rcases hcases with rfl | rfl | rfl <;> omega
    · rcases hcases with rfl | rfl | rfl
      · exact absurd rfl hk2
      · have hend : s.index 2 ≠ 63 := fun e2 => (hclear e2).1 hu
        omega
      · have hend : ¬ (s.index 2 = 63 ∧ s.index 3 = 63) := fun e => (hclear e.1).2 e.2 hu
        omega
  rw [if_neg c5] at h ⊢
  by_cases c6 : s.index 2 + s.gap 2 < 64
  · rcases hcases with rfl | rfl | rfl <;> omega
  rw [if_neg c6] at h
  rcases h with hfirst | hclear
  · rcases hcases with rfl | rfl | rfl <;> omega
  · rcases hcases with rfl | rfl | rfl
    · exact absurd rfl hk2
    · exact absurd hu hclear.1
    · have hend : s.index 3 ≠ 63 := fun e3 => hclear.2 e3 hu
      omega

/-- Nor does it come after a later spoke in use is cascaded. -/
theorem le_cascade (hs : s.Sized) (h : s.Covered) {k : ℕ} (hk : 1 ≤ k) (hk5 : k < wheelNum) {i : ℕ}
    (hi : i < s.size k) (hu : s.spoke k ((i + s.index k) % s.size k) ≠ []) :
    TimerManager.getMinIdleTime s ≤ s.turnIn k + i * wheelSpan k := by
  obtain ⟨hi0, hi1, hi2, hi3, hg0, hg1, hg2⟩ := hs.bounds
  have hgap : s.gap k ≤ i := by
    by_contra hlt
    exact hu (s.unused_of_lt_gap (not_le.mp hlt))
  have hcurrent : i = 0 → s.Used k := by
    rintro rfl
    rwa [Nat.zero_add, Nat.mod_eq_of_lt (hs.index k hk5)] at hu
  have hcases : k = 1 ∨ k = 2 ∨ k = 3 ∨ k = 4 := by
    simp only [wheelNum] at hk5
    omega
  rcases Nat.eq_zero_or_pos i with rfl | hpos
  · rw [Nat.zero_mul, Nat.add_zero]
    by_cases hk2 : 2 ≤ k
    · exact hs.le_turnIn h hk2 hk5 (hcurrent rfl)
    · obtain rfl : k = 1 := by omega
      rw [hs.getMinIdleTime, if_pos (hcurrent rfl), hs.turn1]
      split_ifs <;> omega
  · rw [hs.getMinIdleTime]
    rcases hcases with rfl | rfl | rfl | rfl
    · have hspan : wheelSpan 1 = 256 := rfl
      have hturn := hs.turn1
      rw [hs.size 1 (by decide) (by decide)] at hi
      rw [hspan]
      split_ifs <;> omega
    · have hspan : wheelSpan 2 = 16384 := rfl
      rw [hspan]
      split_ifs <;> omega
    · have hspan : wheelSpan 3 = 1048576 := rfl
      rw [hspan]
      split_ifs <;> omega
    · have hspan : wheelSpan 4 = 67108864 := rfl
      rw [hspan]
      split_ifs <;> omega

/-- The answer is no greater than the distance to the first timer of wheel 0. -/
theorem le_gap (hs : s.Sized) (hg : s.gap 0 < 256) :
    TimerManager.getMinIdleTime s ≤ s.gap 0 := by
  rw [hs.getMinIdleTime]
  split_ifs <;> omega

end State.Sized

end

/-- In every state whose wheels have caught up with the clock, it is safe to sleep for the time
`GetMinIdleTime` returns exactly if the wheels are covered. -/
theorem getMinIdleTime_safe_iff (env : Env) (hmono : Monotone env.tick) (calls : List Call)
    (hnow : (run env calls).now = (run env calls).mStartTick) :
    SafeSleep (run env calls) (getMinIdleTime (run env calls)) ↔ (run env calls).Covered := by
  obtain ⟨p, hrest, hserved⟩ := run_served hmono calls
  have hsized := hrest.toAt.sized
  constructor
  · intro hsafe
    refine hsized.covered fun k hk hk5 hu => ?_
    have hindex := hsized.index k hk5
    have hcascade := hsafe.cascade k (by omega) hk5 0 (by omega) (by
      rwa [Nat.zero_add, Nat.mod_eq_of_lt hindex])
    rwa [Nat.zero_mul, Nat.add_zero] at hcascade
  · intro hcovered
    exact hrest.safeSleep hserved hnow (run_obeys hmono calls).2
      (fun hg => hsized.le_gap (hsized.size0 ▸ hg))
      fun k hk hk5 i hi hu => hsized.le_cascade hcovered hk hk5 hi hu

/-- A timer of 5 ms is set at tick 0: nothing happens for five ticks. -/
theorem getMinIdleTime_safe_iff_five :
    (SafeSleep (run (jumpEnv 2 0) [.setTimer 1 7 5 none])
        (getMinIdleTime (run (jumpEnv 2 0) [.setTimer 1 7 5 none])) ↔
      (run (jumpEnv 2 0) [.setTimer 1 7 5 none]).Covered) ∧
    getMinIdleTime (run (jumpEnv 2 0) [.setTimer 1 7 5 none]) = 5 :=
  ⟨getMinIdleTime_safe_iff (jumpEnv 2 0) (jumpEnv_monotone 2 0) _ rfl, by decide +kernel⟩

/-- A timer of 16384 ms, set at tick 0, lies in the current spoke of wheel 2. Ten ticks later the
looper is told to sleep 16384 ticks more: it wakes ten ticks late. -/
theorem getMinIdleTime_oversleeps : ¬ ∀ env : Env, Monotone env.tick → ∀ calls : List Call,
    (run env calls).now = (run env calls).mStartTick →
      ∀ handler timerId node, (run env calls).mTimerMap handler timerId = some node →
        (run env calls).now + getMinIdleTime (run env calls) ≤
          ((run env calls).heap node).mDeadTime + 1 := by
  intro hall
  have h := hall (jumpEnv 2 10) (jumpEnv_monotone 2 10)
    [.setTimer 1 7 16384 none, .processTimer 0] (by decide +kernel) 1 7 0 (by decide +kernel)
  have hnow : (run (jumpEnv 2 10) [.setTimer 1 7 16384 none, .processTimer 0]).now = 10 := by
    decide +kernel
  have hidle : getMinIdleTime
      (run (jumpEnv 2 10) [.setTimer 1 7 16384 none, .processTimer 0]) = 16384 := by
    decide +kernel
  have hdead : ((run (jumpEnv 2 10)
      [.setTimer 1 7 16384 none, .processTimer 0]).heap 0).mDeadTime = 16384 := by
    decide +kernel
  rw [hnow, hidle, hdead] at h
  omega

end CoreLooper.TimerManager
