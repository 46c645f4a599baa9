import CoreLooper.LooperQueue

/-!
# Senders that wait for an answer

A thread in the loop of `sendMessageHelper` leaves it once its flag is set. The flag is set at
the end of the dispatch of its message, so the message must be queued, or under dispatch, until
then. Every step keeps this except a cancellation that erases a message with a flag:
`CancelRunnableInQueue` does not tell the message of `sendRunnable` from that of `postRunnable`.
-/
namespace CoreLooper.LooperImpl
open Transitions

/-- The flag a frame of `dispatchMessage` will set. -/
def Frame.dispatchFlag : Frame → Option DoneFlag
  | .onMessage _ m => m.mDone
  | .finish _ m _ => m.mDone
  | _ => none

/-- The message sent with flag `f` to looper `l` is answered, queued or under dispatch. -/
def Served (s : State) (l : ThreadId) (f : DoneFlag) : Prop :=
  s.done f = true ∨ (∃ m ∈ (s.looper l).mMessageList, m.mDone = some f) ∨
    ∃ frame ∈ s.stack l, frame.dispatchFlag = some f

/-- No waiting thread is orphaned. -/
def NeverOrphaned (s : State) : Prop :=
  ∀ t l f, .waiting l f ∈ s.stack t → Served s l f

/-- The step is no cancellation that erases a message with a flag. -/
def CancelsNoSender (s : State) : Act → Prop
  | .advance t _ => ∀ h r rest, s.stack t = .cancelRunnableInQueue h r :: rest →
      ∀ m ∈ (s.looper t).mMessageList, isCancelled h r m = true → m.mDone = none
  | _ => True

section
variable {s s' : State} {t l : ThreadId} {f : DoneFlag}

theorem dispatchMessage_flag (m : Message) (hm : m.mDone = some f) :
    ∃ frame ∈ dispatchMessage t m, frame.dispatchFlag = some f := by
  unfold dispatchMessage
  dsimp only
  split
  · exact ⟨.finish (dispatchTarget t m) m 0, by simp, hm⟩
  · split
    · exact ⟨.finish (dispatchTarget t m) m 0, by simp, hm⟩
    · exact ⟨.onMessage (dispatchTarget t m) m, by simp, hm⟩
  · exact ⟨.onMessage (dispatchTarget t m) m, by simp, hm⟩

theorem dispatchMessage_not_waiting (m : Message) : .waiting l f ∉ dispatchMessage t m := by
  unfold dispatchMessage
  dsimp only
  split
  · simp
  · split <;> simp
  · simp

theorem postMessage_not_waiting (m : Message) : .waiting l f ∉ postMessage s t m := by
  unfold postMessage
  split_ifs <;> simp

theorem sendMessage_not_waiting (u : ThreadId) (m : Message) :
    .waiting l f ∉ sendMessage s t u m := by
  unfold sendMessage
  split_ifs
  · simp
  · exact dispatchMessage_not_waiting m
  · simp

/-- The frames `fs` put in the place of `frame`, which may set its flag. -/
theorem Served.replace (h : Served s l f) {frame : Frame} {rest : List Frame}
    (fs : List Frame) (hstack : s.stack t = frame :: rest)
    (hs' : s'.stack = Function.update s.stack t (fs ++ rest))
    (hdone : s.done f = true → s'.done f = true)
    (hframe : frame.dispatchFlag = some f →
      s'.done f = true ∨ ∃ g ∈ fs, g.dispatchFlag = some f)
    (hqueue : ∀ m ∈ (s.looper l).mMessageList, m.mDone = some f →
      m ∈ (s'.looper l).mMessageList ∨ l = t ∧ ∃ g ∈ fs, g.dispatchFlag = some f) :
    Served s' l f := by
  have hpush : (∃ g ∈ fs, g.dispatchFlag = some f) → l = t → Served s' l f := by
    rintro ⟨g, hg, hgf⟩ rfl
    refine Or.inr (Or.inr ⟨g, ?_, hgf⟩)
    rw [hs', Function.update_self]
    exact List.mem_append_left _ hg
  rcases h with hd | ⟨m, hm, hmf⟩ | ⟨g, hg, hgf⟩
  · exact Or.inl (hdone hd)
  · rcases hqueue m hm hmf with hm' | ⟨hl, hfs⟩
    · exact Or.inr (Or.inl ⟨m, hm', hmf⟩)
    · exact hpush hfs hl
  · by_cases hl : l = t
    · subst hl
      rw [hstack] at hg
      rcases List.mem_cons.mp hg with rfl | hg
      · rcases hframe hgf with hd | hfs
        · exact Or.inl hd
        · exact hpush hfs rfl
      · refine Or.inr (Or.inr ⟨g, ?_, hgf⟩)
        rw [hs', Function.update_self]
        exact List.mem_append_right _ hg
    · refine Or.inr (Or.inr ⟨g, ?_, hgf⟩)
      rwa [hs', Function.update_of_ne hl]

/-- Replacing the top frame orphans nobody if it serves as before and new waiting frames are
served. -/
theorem NeverOrphaned.replace (h : NeverOrphaned s) {frame : Frame} {rest : List Frame}
    (fs : List Frame) (hstack : s.stack t = frame :: rest)
    (hs' : s'.stack = Function.update s.stack t (fs ++ rest))
    (hserved : ∀ l f, Served s l f → Served s' l f)
    (hnew : ∀ l f, .waiting l f ∈ fs → Served s' l f ∨ frame = .waiting l f) :
    NeverOrphaned s' := by
  intro u l f hw
  rw [hs', Function.update_apply] at hw
  split_ifs at hw with hu
  · rcases List.mem_append.mp hw with hw | hw
    · rcases hnew l f hw with hsv | hfr
      · exact hsv
      · refine hserved l f (h t l f ?_)
        rw [hstack, hfr]
        exact List.mem_cons_self
    · refine hserved l f (h t l f ?_)
      rw [hstack]
      exact List.mem_cons_of_mem _ hw
  · exact hserved l f (h u l f hw)

theorem finish_spec (m : Message) (ret : ℤ) (rest : List Frame) :
    (∃ fs, (finish s t m ret rest).stack = Function.update s.stack t (fs ++ rest) ∧
      ∀ l f, .waiting l f ∉ fs) ∧
    (∀ f, s.done f = true → (finish s t m ret rest).done f = true) ∧
    ∀ f, m.mDone = some f → (finish s t m ret rest).done f = true := by
  unfold finish
  split
  · rename_i hnone
    exact ⟨⟨[], rfl, by simp⟩, fun _ h => h, fun f hf => by simp [hnone] at hf⟩
  · rename_i g hg
    have hdone : ∀ f, s.done f = true → Function.update s.done g true f = true := by
      intro f hf
      rw [Function.update_apply]
      split_ifs
      · rfl
      · exact hf
    have hself : ∀ f, m.mDone = some f → Function.update s.done g true f = true := by
      intro f hf
      rw [hg, Option.some.injEq] at hf
      rw [hf, Function.update_self]
    dsimp only
    split
    · exact ⟨⟨_, rfl, fun l f => postMessage_not_waiting _⟩, hdone, hself⟩
    · exact ⟨⟨[], rfl, by simp⟩, hdone, hself⟩

/-- A looper's new data in which no flagged message is missing. -/
theorem mem_setLooper {v : Looper} {m : Message}
    (hv : ∀ m ∈ (s.looper t).mMessageList, m.mDone = some f → m ∈ v.mMessageList)
    (hm : m ∈ (s.looper l).mMessageList) (hmf : m.mDone = some f) :
    m ∈ ((s.setLooper t v).looper l).mMessageList := by
  simp only [State.setLooper, Function.update_apply]
  split_ifs with hl
  · subst hl
    exact hv m hm hmf
  · exact hm

theorem mem_accept {m m' : Message} (hm : m ∈ (s.looper l).mMessageList)
    (hmf : m.mDone = some f) : m ∈ ((s.accept t m').looper l).mMessageList :=
  mem_setLooper (fun _ hm _ => List.mem_append_left _ hm) hm hmf

/-- A step that sets no flag, ends no dispatch and takes no flagged message off a queue. -/
theorem NeverOrphaned.keep (h : NeverOrphaned s) {frame : Frame} {rest : List Frame}
    (fs : List Frame) (hstack : s.stack t = frame :: rest)
    (hs' : s'.stack = Function.update s.stack t (fs ++ rest))
    (hdone : s'.done = s.done) (hplain : frame.dispatchFlag = none)
    (hqueue : ∀ l f, ∀ m ∈ (s.looper l).mMessageList, m.mDone = some f →
      m ∈ (s'.looper l).mMessageList)
    (hnew : ∀ l f, .waiting l f ∈ fs → Served s' l f ∨ frame = .waiting l f) :
    NeverOrphaned s' :=
  h.replace _ hstack hs'
    (fun l f hsv => hsv.replace _ hstack hs' (fun hd => hdone ▸ hd)
      (fun hf => by simp [hplain] at hf)
      fun m hm hmf => Or.inl (hqueue l f m hm hmf)) hnew

theorem advance_neverOrphaned (h : NeverOrphaned s) {canQuit : Bool} {frame : Frame}
    {rest : List Frame} (hstack : s.stack t = frame :: rest)
    (hok : CancelsNoSender s (.advance t canQuit))
    (hs : advance s t canQuit frame rest = some s') : NeverOrphaned s' := by
  cases frame with
  | run =>
      cases hs
      exact h.keep [.getMessage, .runCheck] hstack rfl rfl rfl (fun _ _ _ hm _ => hm)
        (by simp)
  | runCheck =>
      simp only [advance] at hs
      split_ifs at hs <;> cases hs
      · exact h.keep [] hstack rfl rfl rfl
          (fun _ _ _ hm hmf => mem_setLooper (fun _ hm _ => hm) hm hmf) (by simp)
      · exact h.keep [.run] hstack rfl rfl rfl (fun _ _ _ hm _ => hm) (by simp)
  | getMessage =>
      simp only [advance] at hs
      split at hs
      · rename_i m ms hlist
        cases hs
        refine h.replace _ hstack rfl
          (fun l f hsv => hsv.replace _ hstack rfl id (fun hf => (by cases hf)) ?_)
          fun l f hw => absurd hw (dispatchMessage_not_waiting m)
        -- the message taken off the queue is now under dispatch
        intro m' hm' hmf
        by_cases hl : l = t
        · subst hl
          rw [hlist] at hm'
          rcases List.mem_cons.mp hm' with rfl | hm'
          · exact Or.inr ⟨rfl, dispatchMessage_flag m' hmf⟩
          · exact Or.inl (by simpa [State.setLooper, State.setStack] using hm')
        · exact Or.inl (by simpa [State.setLooper, State.setStack, hl] using hm')
      · split_ifs at hs <;> cases hs
        · exact h.keep [] hstack rfl rfl rfl (fun _ _ _ hm _ => hm) (by simp)
        · exact h.keep [] hstack rfl rfl rfl (fun _ _ _ hm _ => hm) (by simp)
        · exact h.keep [.code, .getMessage] hstack rfl rfl rfl (fun _ _ _ hm _ => hm)
            (by simp)
  | code => cases hs
  | onMessage handler m => cases hs
  | finish handler m ret =>
      cases hs
      obtain ⟨⟨fs, hfs, hnot⟩, hdone, hself⟩ := finish_spec (s := s) (t := t) m ret rest
      exact h.replace _ hstack hfs
        (fun l f hsv => hsv.replace _ hstack hfs (hdone f) (fun hf => Or.inl (hself f hf))
          fun _ hm _ => Or.inl (by rwa [finish_looper]))
        fun l f hw => absurd hw (hnot l f)
  | quit =>
      simp only [advance] at hs
      split_ifs at hs <;> cases hs
      · exact h.keep [] hstack rfl rfl rfl (fun _ _ _ hm _ => hm) (by simp)
      · refine h.keep (postMessage s t (ownMessage t .BM_DESTROY) ++ [.onBMQuit]) hstack
          (by simp [State.setStack]) rfl rfl (fun _ _ _ hm _ => hm) fun l f hw => ?_
        rcases List.mem_append.mp hw with hw | hw
        · exact absurd hw (postMessage_not_waiting _)
        · simp at hw
  | onBMQuit =>
      cases hs
      exact h.keep _ hstack rfl rfl rfl
        (fun _ _ _ hm hmf => mem_setLooper (fun _ hm _ => hm) hm hmf)
        fun l f hw => absurd hw (postMessage_not_waiting _)
  | cancelRunnableInQueue handler r =>
      cases hs
      -- the erased messages carry no flag
      have hkept : ∀ f, ∀ m ∈ (s.looper t).mMessageList, m.mDone = some f →
          m ∈ (cancelRunnableInQueue (s.looper t) handler r).mMessageList := by
        intro f m hm hmf
        refine List.mem_filter.mpr ⟨hm, ?_⟩
        cases hc : isCancelled handler r m with
        | false => rfl
        | true =>
            have hnone := hok handler r rest hstack m hm hc
            rw [hmf] at hnone
            cases hnone
      exact h.keep [] hstack rfl rfl rfl
        (fun _ f _ hm hmf => mem_setLooper (hkept f) hm hmf) (by simp)
  | posting target m =>
      simp only [advance] at hs
      split_ifs at hs <;> cases hs
      · exact h.keep [] hstack rfl rfl rfl (fun _ _ _ hm hmf => mem_accept hm hmf)
          (by simp)
      · exact h.keep [] hstack rfl rfl rfl (fun _ _ _ hm _ => hm) (by simp)
  | sending target m =>
      simp only [advance] at hs
      split at hs
      · cases hs
      · rename_i g hg
        split_ifs at hs <;> cases hs
        · refine h.keep [.waiting target g] hstack rfl rfl rfl
            (fun _ _ _ hm hmf => mem_accept hm hmf) ?_
          intro l f hw
          obtain ⟨rfl, rfl⟩ : l = target ∧ f = g := by simpa using hw
          -- the message just accepted carries the flag the sender now waits for
          refine Or.inl (Or.inr (Or.inl
            ⟨{ m with ticket := (s.looper l).accepted.length }, ?_, hg⟩))
          simp [State.accept, State.setLooper, State.setStack]
        · exact h.keep [] hstack rfl rfl rfl (fun _ _ _ hm _ => hm) (by simp)
  | waiting target g =>
      simp only [advance] at hs
      split_ifs at hs <;> cases hs
      · exact h.keep [] hstack rfl rfl rfl (fun _ _ _ hm _ => hm) (by simp)
      · refine h.keep [.getMessage, .waiting target g] hstack rfl rfl rfl
          (fun _ _ _ hm _ => hm) ?_
        intro l f hw
        obtain ⟨rfl, rfl⟩ : l = target ∧ f = g := by simpa using hw
        exact Or.inr rfl

/-- Frames pushed on top, none of them waiting. -/
theorem NeverOrphaned.push (h : NeverOrphaned s) (fs : List Frame)
    (hs' : s'.stack = Function.update s.stack t (fs ++ s.stack t)) (hdone : s'.done = s.done)
    (hlist : ∀ l, (s'.looper l).mMessageList = (s.looper l).mMessageList)
    (hnew : ∀ l f, .waiting l f ∉ fs) : NeverOrphaned s' := by
  have hmem : ∀ u g, g ∈ s.stack u → g ∈ s'.stack u := by
    intro u g hg
    rw [hs', Function.update_apply]
    split_ifs with hu
    · subst hu
      exact List.mem_append_right _ hg
    · exact hg
  have hserved : ∀ l f, Served s l f → Served s' l f := by
    rintro l f (hd | ⟨m, hm, hmf⟩ | ⟨g, hg, hgf⟩)
    · exact Or.inl (hdone ▸ hd)
    · exact Or.inr (Or.inl ⟨m, (hlist l).symm ▸ hm, hmf⟩)
    · exact Or.inr (Or.inr ⟨g, hmem l g hg, hgf⟩)
  intro u l f hw
  rw [hs', Function.update_apply] at hw
  split_ifs at hw with hu
  · rcases List.mem_append.mp hw with hw | hw
    · exact absurd hw (hnew l f)
    · exact hserved l f (h t l f hw)
  · exact hserved l f (h u l f hw)

theorem step_neverOrphaned (h : NeverOrphaned s) {a : Act} (hok : CancelsNoSender s a)
    (hs : step s a = some s') : NeverOrphaned s' := by
  cases a with
  | start l' =>
      simp only [step] at hs
      split_ifs at hs
      cases hs
      refine h.push [.code, .run] rfl rfl (fun l => ?_) (by simp)
      simp only [State.setStack, State.setLooper, Function.update_apply]
      split_ifs with hl
      · rw [hl]
      · rfl
  | post t l' handler msg wp =>
      simp only [step] at hs
      split at hs <;> cases hs <;>
        exact h.push _ rfl rfl (fun _ => rfl) fun _ _ => postMessage_not_waiting _
  | send t l' handler msg wp =>
      simp only [step] at hs
      split at hs <;> cases hs <;>
        exact h.push _ rfl rfl (fun _ => rfl) fun _ _ => sendMessage_not_waiting _ _
  | ret t result =>
      simp only [step] at hs
      split at hs
      · rename_i handler m rest hstack
        cases hs
        refine h.replace [.finish handler m result] hstack rfl
          (fun l f hsv => hsv.replace [.finish handler m result] hstack rfl id
            (fun hf => Or.inr ⟨.finish handler m result, by simp, hf⟩) fun _ hm _ => Or.inl hm)
          (by simp)
      · rename_i rest hstack
        cases hs
        exact h.keep [] hstack rfl rfl rfl (fun _ _ _ hm _ => hm) (by simp)
      · cases hs
  | advance t canQuit =>
      simp only [step] at hs
      split at hs
      · rename_i frame rest hstack
        exact advance_neverOrphaned h hstack hok hs
      · cases hs

end

/-- No sender is orphaned in a run whose cancellations erase no message that carries a flag. -/
theorem senders_neverOrphaned (external : ThreadId → Bool) {s : State}
    (h : Reachable step CancelsNoSender (init external) s) : NeverOrphaned s := by
  refine h.invariant ?_ fun s a s' hI hok hs => step_neverOrphaned hI hok hs
  intro t l f hw
  simp only [init] at hw
  split at hw <;> simp at hw

/-- While thread 1 waits for its runnable, the handler posts another one and cancels it. -/
theorem senders_neverOrphaned_one : ∃ s, run step (init (· == 1))
    [.start 0, sendRunnable 1 0 (.handler 5) 7, .advance 1 false, postRunnable 0 0 (.handler 5) 8,
      .advance 0 false, cancelRunnable 0 0 (.handler 5) 8, .advance 0 false] = some s ∧
    s.stack 1 = [.waiting 0 0, .code] ∧ (s.looper 0).cancelled.length = 1 ∧ NeverOrphaned s := by
  refine ⟨_, rfl, by decide, by decide, senders_neverOrphaned (· == 1) ?_⟩
  refine Reachable.next (a := .advance 0 false) (Reachable.next
    (a := cancelRunnable 0 0 (.handler 5) 8) (Reachable.next (a := .advance 0 false)
      (Reachable.next (a := postRunnable 0 0 (.handler 5) 8) (Reachable.next (a := .advance 1 false)
        (Reachable.next (a := sendRunnable 1 0 (.handler 5) 7)
          (Reachable.next (a := .start 0) Reachable.start trivial rfl) trivial rfl) ?_ rfl)
        trivial rfl) ?_ rfl) trivial rfl) ?_ rfl
  · intro h r rest hstack
    cases hstack
  · intro h r rest hstack
    cases hstack
  · -- the message that is erased was posted
    intro h r rest hstack
    cases hstack
    decide

/-- Thread 1 sends a runnable to a handler of looper 0, whose own code then cancels it. -/
def orphanRun : List Act :=
  [.start 0, sendRunnable 1 0 (.handler 5) 7, .advance 1 false,
    cancelRunnable 0 0 (.handler 5) 7, .advance 0 false]

theorem orphaned_sender : ¬ ∀ external s,
    Reachable step (fun _ _ => True) (init external) s → NeverOrphaned s := by
  intro hall
  have hsome : (run step (init (· == 1)) orphanRun).isSome = true := by decide
  obtain ⟨s, hs⟩ := Option.isSome_iff_exists.mp hsome
  have hwait : (run step (init (· == 1)) orphanRun).map (fun s => s.stack 1) =
      some [.waiting 0 0, .code] := by decide
  have hleft : (run step (init (· == 1)) orphanRun).map
      (fun s => (s.done 0, (s.looper 0).mMessageList, (s.stack 0).map Frame.dispatchFlag)) =
      some (false, [], [some 1, none, none]) := by decide
  rw [hs, Option.map_some, Option.some.injEq] at hwait hleft
  simp only [Prod.mk.injEq] at hleft
  obtain ⟨hdone, hlist, hflags⟩ := hleft
  have hserved := hall (· == 1) s
    (Reachable.start.of_run hs) 1 0 0 (by simp [hwait])
  rcases hserved with hd | ⟨m, hm, -⟩ | ⟨frame, hframe, hflag⟩
  · simp [hdone] at hd
  · simp [hlist] at hm
  · have hmem := List.mem_map_of_mem (f := Frame.dispatchFlag) hframe
    rw [hflags, hflag] at hmem
    simp at hmem

end CoreLooper.LooperImpl
