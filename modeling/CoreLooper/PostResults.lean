import CoreLooper.LooperImpl

/-!
# What a post tells its caller

The calls that post, with their return values and the reference to itself that a wrapper
keeps while its message is on the way. `postMessage` of a looper looks at the looper twice, and
other threads may run in between: a call has the system at its first look and at its second.
-/
namespace CoreLooper.LooperImpl

/-- What posting reads of a handler. -/
structure HandlerData where
  self : Handler
  mCreated : Bool
  mLooper : Option ThreadId
  deriving DecidableEq, Repr

/-- The looper's `postMessage` before the lock: a return, or nothing where it goes on. -/
def postUnlocked (s : State) (l : ThreadId) : Option ℤ :=
  if (s.looper l).mLooperRunning = false ∧ (s.looper l).mAttachThread = false then some 0
  else if (s.looper l).mAttachThread then some 0
  else none

/-- The looper's `postMessage` under the lock. -/
def postLocked (s : State) (l : ThreadId) (m : Message) : ℤ × State :=
  if (s.looper l).mLooperRunning then (0, s.accept l m) else (-1, s)

/-- The looper's `postMessage`, with the systems at the two looks. -/
def postMessageToLooper (s s' : State) (l : ThreadId) (m : Message) : ℤ × State :=
  match postUnlocked s l with
  | some ret => (ret, s')
  | none => postLocked s' l m

/-- `Handler::postMessage(UINT, WPARAM, LPARAM)`. -/
def HandlerData.postMessage (h : HandlerData) (msg : Msg) (wp : WParam) (s s' : State) :
    ℤ × State :=
  if h.mCreated = false then (0, s')
  else
    match h.mLooper with
    | none => (0, s')
    | some l => postMessageToLooper s s' l { mHandler := some h.self, mMsg := msg, mWP := wp }

/-- The outcome of a call. `mSelfRef` says that a wrapper was made and still refers to itself. -/
structure Posted where
  ret : ℤ
  state : State
  mSelfRef : Bool

/-- The functions that post a wrapper are this one. `refusal` is what they return on a handler
that is not created. -/
def HandlerData.postWrapper (h : HandlerData) (refusal : ℤ) (msg : Msg) (wp : WParam)
    (s s' : State) : Posted :=
  if h.mCreated = false then ⟨refusal, s', false⟩
  else
    let posted := h.postMessage msg wp s s'
    ⟨posted.1, posted.2, posted.1 = 0⟩

/-- The messages whose numbers the loopers' own code does not look at. -/
def BM_POST_MESSAGE : Msg := .other 0

/-- `Handler::postMessage(shared_ptr<Message>)`; the wrapper is a `tagSelfRef`. -/
def HandlerData.postObject (h : HandlerData) (info : ℕ) : State → State → Posted :=
  h.postWrapper 0 BM_POST_MESSAGE (.other info)

def HandlerData.postRunnable (h : HandlerData) (obj : RunnableId) : State → State → Posted :=
  h.postWrapper (-1) .BM_POST_RUNNABLE (.tagDelayedRunnable h.self obj 0)

def HandlerData.postDelayedRunnable (h : HandlerData) (obj : RunnableId) (ms : ℕ) :
    State → State → Posted :=
  h.postWrapper (-1) .BM_POST_RUNNABLE (.tagDelayedRunnable h.self obj ms)

/-- The calls that post to a handler. -/
inductive PostCall where
  | postMessage (msg : Msg) (wp : WParam)
  | postObject (info : ℕ)
  | postRunnable (obj : RunnableId)
  | postDelayedRunnable (obj : RunnableId) (ms : ℕ)
  deriving DecidableEq, Repr

namespace PostCall

def post (h : HandlerData) : PostCall → State → State → Posted
  | .postMessage msg wp, s, s' =>
      let posted := h.postMessage msg wp s s'
      ⟨posted.1, posted.2, false⟩
  | .postObject info, s, s' => h.postObject info s s'
  | .postRunnable obj, s, s' => h.postRunnable obj s s'
  | .postDelayedRunnable obj ms, s, s' => h.postDelayedRunnable obj ms s s'

/-- The message that a call means to queue. -/
def message (h : HandlerData) : PostCall → Message
  | .postMessage msg wp => { mHandler := some h.self, mMsg := msg, mWP := wp }
  | .postObject info =>
      { mHandler := some h.self, mMsg := BM_POST_MESSAGE, mWP := .other info }
  | .postRunnable obj =>
      { mHandler := some h.self, mMsg := .BM_POST_RUNNABLE
        mWP := .tagDelayedRunnable h.self obj 0 }
  | .postDelayedRunnable obj ms =>
      { mHandler := some h.self, mMsg := .BM_POST_RUNNABLE
        mWP := .tagDelayedRunnable h.self obj ms }

/-- The posts of runnables report a handler that is not created. -/
def Refuses : PostCall → Prop
  | .postMessage _ _ | .postObject _ => False
  | .postRunnable _ | .postDelayedRunnable _ _ => True

instance : DecidablePred Refuses := fun c => by
  cases c <;> unfold Refuses <;> infer_instance

end PostCall

/-- The handler's looper has taken the message. -/
def Queued (h : HandlerData) (m : Message) (s t : State) : Prop :=
  ∃ l ticket, h.mLooper = some l ∧
    (t.looper l).mMessageList = (s.looper l).mMessageList ++ [{ m with ticket }]

/-- A call returns 0 exactly when its message is queued, and a wrapper whose message is not queued
keeps no reference to itself. -/
def TellsTruth (h : HandlerData) (c : PostCall) (s s' : State) : Prop :=
  ((c.post h s s').ret = 0 ↔ Queued h (c.message h) s' (c.post h s s').state) ∧
    (¬ Queued h (c.message h) s' (c.post h s s').state → (c.post h s s').mSelfRef = false)

/-- At its first look the call finds a looper that runs. -/
def FindsRunning (h : HandlerData) (s : State) : Prop :=
  h.mCreated = true ∧ ∃ l, h.mLooper = some l ∧ (s.looper l).mLooperRunning = true ∧
    (s.looper l).mAttachThread = false

variable {h : HandlerData} {c : PostCall} {s s' t : State} {l : ThreadId} {m : Message}

theorem not_queued_self : ¬ Queued h m s s := by
  rintro ⟨l, ticket, -, hlist⟩
  simp at hlist

theorem postUnlocked_eq_none :
    postUnlocked s l = none ↔
      (s.looper l).mLooperRunning = true ∧ (s.looper l).mAttachThread = false := by
  unfold postUnlocked
  cases (s.looper l).mLooperRunning <;> cases (s.looper l).mAttachThread <;> simp

theorem postUnlocked_eq_some {ret : ℤ} (hret : postUnlocked s l = some ret) : ret = 0 := by
  unfold postUnlocked at hret
  split_ifs at hret <;> simpa using hret.symm

/-- The first look is the step in which a thread calls `postMessage`: where it returns there, no
frame is left. -/
theorem step_post {u : ThreadId} {target : Option Handler} {msg : Msg} {wp : WParam}
    (hs : step s (.post u l target msg wp) = some t) :
    t = s.setStack u ((if postUnlocked s l = none then
      [.posting l { mHandler := target, mMsg := msg, mWP := wp }] else []) ++ s.stack u) := by
  have hframes (m : Message) :
      postMessage s l m = if postUnlocked s l = none then [.posting l m] else [] := by
    unfold postMessage postUnlocked
    split_ifs <;> first | rfl | contradiction
  rw [← hframes]
  simp only [step] at hs
  split at hs
  · exact (Option.some.inj hs).symm
  · exact (Option.some.inj hs).symm
  · cases hs

/-- The second look is the next step of that thread. -/
theorem step_posting {u : ThreadId} {canQuit : Bool} {rest : List Frame}
    (hstack : s.stack u = .posting l m :: rest) :
    step s (.advance u canQuit) = some ((postLocked s l m).2.setStack u rest) := by
  simp only [step, hstack, advance, postLocked]
  split_ifs <;> rfl

theorem accept_queued (hl : h.mLooper = some l) : Queued h m s (s.accept l m) := by
  refine ⟨l, (s.looper l).accepted.length, hl, ?_⟩
  simp [State.accept, State.setLooper]

theorem postMessage_finds {msg : Msg} {wp : WParam} (hfinds : FindsRunning h s) :
    (h.postMessage msg wp s s').1 = 0 ∧
        Queued h { mHandler := some h.self, mMsg := msg, mWP := wp } s'
          (h.postMessage msg wp s s').2 ∨
      (h.postMessage msg wp s s') = (-1, s') := by
  obtain ⟨hcreated, l, hl, hrun⟩ := hfinds
  unfold HandlerData.postMessage
  rw [if_neg (by simp [hcreated]), hl]
  simp only [postMessageToLooper, postUnlocked_eq_none.mpr hrun, postLocked]
  split_ifs
  · exact Or.inl ⟨rfl, accept_queued hl⟩
  · exact Or.inr rfl

/-- Without a running looper nothing is queued, and the result says that all is well. -/
theorem postMessage_misses {msg : Msg} {wp : WParam} (hmiss : ¬ FindsRunning h s) :
    h.postMessage msg wp s s' = (0, s') := by
  unfold HandlerData.postMessage
  split
  case isTrue => rfl
  case isFalse hcreated =>
    cases hl : h.mLooper with
    | none => rfl
    | some l =>
        simp only [postMessageToLooper]
        cases hret : postUnlocked s l with
        | none =>
            exact absurd ⟨by simpa using hcreated, l, hl, postUnlocked_eq_none.mp hret⟩ hmiss
        | some ret => rw [postUnlocked_eq_some hret]

/-- On a handler that is created every call comes down to a post to its looper, and clears its
wrapper by the result. -/
theorem post_created (hc : h.mCreated = true) :
    (c.post h s s').ret = (h.postMessage (c.message h).mMsg (c.message h).mWP s s').1 ∧
      (c.post h s s').state = (h.postMessage (c.message h).mMsg (c.message h).mWP s s').2 ∧
      ((c.post h s s').ret ≠ 0 → (c.post h s s').mSelfRef = false) := by
  cases c <;> simp [PostCall.post, PostCall.message, HandlerData.postObject,
    HandlerData.postRunnable, HandlerData.postDelayedRunnable, HandlerData.postWrapper, hc]

theorem message_eq : c.message h =
    { mHandler := some h.self, mMsg := (c.message h).mMsg, mWP := (c.message h).mWP } := by
  cases c <;> rfl

/-- Before the handler is created only the posts of runnables say so. -/
theorem post_not_created (hc : h.mCreated = false) :
    (c.post h s s').ret = (if c.Refuses then -1 else 0) ∧ (c.post h s s').state = s' ∧
      (c.post h s s').mSelfRef = false := by
  cases c <;> simp [PostCall.post, PostCall.Refuses, HandlerData.postObject,
    HandlerData.postRunnable, HandlerData.postDelayedRunnable, HandlerData.postWrapper,
    HandlerData.postMessage, hc]

theorem tellsTruth_of_refused (hret : (c.post h s s').ret ≠ 0)
    (hstate : (c.post h s s').state = s') (href : (c.post h s s').mSelfRef = false) :
    TellsTruth h c s s' := by
  refine ⟨⟨fun hzero => absurd hzero hret, fun hq => ?_⟩, fun _ => href⟩
  rw [hstate] at hq
  exact absurd hq not_queued_self

theorem not_tellsTruth (hret : (c.post h s s').ret = 0) (hstate : (c.post h s s').state = s') :
    ¬ TellsTruth h c s s' := by
  intro htruth
  have hq := htruth.1.mp hret
  rw [hstate] at hq
  exact not_queued_self hq

/-- A post tells the truth exactly where its first look finds the looper running, or where it is
the post of a runnable to a handler that is not created. -/
theorem post_tellsTruth_iff :
    TellsTruth h c s s' ↔ FindsRunning h s ∨ c.Refuses ∧ h.mCreated = false := by
  by_cases hfinds : FindsRunning h s
  · refine iff_of_true ?_ (Or.inl hfinds)
    obtain ⟨hret, hstate, href⟩ := @post_created h c s s' hfinds.1
    rcases @postMessage_finds h s s' (c.message h).mMsg (c.message h).mWP hfinds
      with ⟨hzero, hq⟩ | hfailed
    · rw [← message_eq, ← hstate] at hq
      exact ⟨iff_of_true (hret.trans hzero) hq, fun hnot => absurd hq hnot⟩
    · rw [hfailed] at hret hstate
      have hne : (c.post h s s').ret ≠ 0 := by
        rw [hret]
        norm_num
      exact tellsTruth_of_refused hne hstate (href hne)
  · by_cases hc : h.mCreated = true
    · refine iff_of_false ?_ ?_
      · obtain ⟨hret, hstate, -⟩ := @post_created h c s s' hc
        rw [postMessage_misses hfinds] at hret hstate
        exact not_tellsTruth hret hstate
      · simp [hfinds, hc]
    · have hc' : h.mCreated = false := by simpa using hc
      obtain ⟨hret, hstate, href⟩ := @post_not_created h c s s' hc'
      by_cases hrefuses : c.Refuses
      · rw [if_pos hrefuses] at hret
        refine iff_of_true ?_ (Or.inr ⟨hrefuses, hc'⟩)
        apply tellsTruth_of_refused _ hstate href
        rw [hret]
        norm_num
      · rw [if_neg hrefuses] at hret
        refine iff_of_false (not_tellsTruth hret hstate) ?_
        simp [hfinds, hrefuses]

/-- A runnable posted to a created handler of a looper that has not been started. -/
theorem post_tellsTruth_not_started :
    ¬ TellsTruth ⟨.handler 7, true, some 1⟩ (.postRunnable 3) (init fun _ => false)
        (init fun _ => false) ∧
      ((PostCall.postRunnable 3).post ⟨.handler 7, true, some 1⟩ (init fun _ => false)
        (init fun _ => false)).mSelfRef = true := by
  constructor
  · exact not_tellsTruth rfl rfl
  · decide

end CoreLooper.LooperImpl
