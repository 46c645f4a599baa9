import CoreLooper.HandlerCycles

/-!
# The life of a handler

One looper runs on its thread. `AddChild` creates the child, `Destroy` tells a handler
`BM_DESTROY`, and `Handler::OnDestroy` passes that on to the children. In between the overrides
of `OnCreate` and `OnDestroy` run, which may themselves construct, add and destroy handlers; an
override of `OnDestroy` calls the base method once. What is under way is the stack of frames.
A program may dispatch further messages from inside any of its code.

The tree changes by the steps of `HandlerTree` only. The items of a map that is being walked
keep their places: an insertion that rehashes such a map is undefined and has no step. `log`
records the calls of `OnCreate` and `OnDestroy`.
-/
namespace CoreLooper.HandlerLifecycle

open CStrings HandlerTree ParentForest Transitions

inductive Event where
  | OnCreate (h : HandlerId)
  | OnDestroy (h : HandlerId)
  deriving DecidableEq, Repr

inductive Frame where
  /-- program code: a message, a timer, an I/O callback -/
  | code
  | onCreate (h : HandlerId)
  /-- the rest of `AddChildHelper` behind `BM_CREATE` -/
  | added (child : HandlerId) (callDestroy : Bool)
  /-- the override of `OnDestroy`, before and after it called the base method -/
  | onDestroy (h : HandlerId) (mOnDestroyCalled : Bool)
  /-- the loop of `Handler::OnDestroy` over the children from the iterator on -/
  | children (h : HandlerId) (iter : List (ℕ × HandlerId))
  deriving DecidableEq, Repr

/-- `mSelfRef` keeps an object alive from `AddChild` to the end of `Handler::OnDestroy`. -/
structure State where
  heap : Heap
  mDestroyMarkCalled : HandlerId → Bool
  mSelfRef : HandlerId → Bool
  stack : List Frame
  log : List Event

inductive Act where
  | construct (this : ℕ) (name : Bytes)
  | addChild (h child : HandlerId) (name : Bytes) (order iter : List (ℕ × HandlerId))
  | destroy (h : HandlerId)
  | postDispose (h obj : HandlerId)
  /-- an override calls `Handler::OnDestroy` -/
  | onDestroy
  /-- program code returns -/
  | ret
  /-- the next step of framework code -/
  | advance
  /-- the looper calls program code -/
  | dispatch
  /-- nobody holds the object any more -/
  | dtor (h : HandlerId)

def Frame.isCode : Frame → Bool
  | .code | .onCreate _ | .onDestroy _ _ => true
  | _ => false

/-- Whether a call on the stack holds the object. -/
def Frame.holds (h : HandlerId) : Frame → Bool
  | .code => false
  | .onCreate k | .added k _ | .onDestroy k _ | .children k _ => k = h

/-- The map of the children of `h` got another item while it was walked. -/
def Frame.resume (h : HandlerId) (iter : List (ℕ × HandlerId)) : Frame → Frame
  | .children k items => .children k (if k = h then iter else items)
  | f => f

/-- The looper is the first object. -/
def looper : HandlerId := 0

namespace State

def inCode (s : State) : Bool := (s.stack.head?.map Frame.isCode).getD false

def isHandler (s : State) (h : HandlerId) : Bool :=
  ((s.heap.handlers h).map fun d => !d.mIsLooper).getD false

def isCreated (s : State) (h : HandlerId) : Bool :=
  ((s.heap.handlers h).map (·.mCreated)).getD false

def isDestroyed (s : State) (h : HandlerId) : Bool :=
  ((s.heap.handlers h).map (·.mDestroy)).getD false

/-- A step that changes the tree only. -/
def tree (s : State) (a : HandlerTree.Act) : Option State :=
  (HandlerTree.step s.heap a).map fun heap => { s with heap := heap }

/-- `h->sendMessage(BM_DESTROY)`. -/
def sendDestroy (s : State) (h : HandlerId) : State :=
  if delivered s.heap h ∧ ¬ s.mDestroyMarkCalled h then
    { s with
      mDestroyMarkCalled := Function.update s.mDestroyMarkCalled h true
      stack := .onDestroy h false :: s.stack
      log := s.log ++ [.OnDestroy h] }
  else s

/-- `MarkDestroyed` and `BM_DESTROY`. -/
def markAndSend (s : State) (h : HandlerId) : Option State :=
  (s.tree (.markDestroyed h)).map (sendDestroy · h)

def destroy (s : State) (h : HandlerId) : Option State :=
  if s.isCreated h ∧ ¬ s.isDestroyed h then s.markAndSend h else some s

/-- `h->PostDispose(obj)`: the reference that is given up shows in `dtor` only. -/
def postDispose (s : State) (h obj : HandlerId) : Option State :=
  if s.isCreated h ∧ ¬ s.isDestroyed obj then s.markAndSend obj else some s

/-- What a walk over the children of `h` has still to visit once `child` is among them. -/
def iterOk (s : State) (h child : HandlerId) (iter : List (ℕ × HandlerId)) : Bool :=
  s.stack.all fun f => match f with
    | .children k items =>
        k ≠ h || (match s.heap.handlers child with
          | none => true
          | some c => iter.isPerm (eraseItem items c.mHandler) ||
              iter.isPerm (insertItem items c.mHandler child))
    | _ => true

/-- `AddChild` on the looper's thread. Where it hangs the child below the parent it goes on to
`BM_CREATE`. -/
def addChild (tid : ℕ) (s : State) (h child : HandlerId) (name : Bytes)
    (order iter : List (ℕ × HandlerId)) : Option State :=
  match s.tree (.addChild h child name tid (some looper) order) with
  | none => none
  | some s' =>
      if s'.heap.parentOf child = s.heap.parentOf child then some s'
      else
        (s'.tree (.create child)).map fun s'' =>
          { s'' with
            mSelfRef := Function.update s.mSelfRef child true
            stack := .onCreate child :: .added child (s.isDestroyed h) ::
              s.stack.map (Frame.resume h iter)
            log := s.log ++ [.OnCreate child] }

/-- The next step of framework code, `rest` being the frames below. -/
def advance (s : State) (rest : List Frame) : Frame → Option State
  | .added child callDestroy =>
      if callDestroy then destroy { s with stack := rest } child
      else some { s with stack := rest }
  | .children h [] =>
      some { s with mSelfRef := Function.update s.mSelfRef h false, stack := rest }
  | .children h (item :: iter) =>
      let s := { s with stack := .children h iter :: rest }
      match s.heap.handlers item.2 with
      | some _ => some (s.sendDestroy item.2)
      | none => s.tree (.eraseExpired h item.1)
  | _ => none

end State

def step (tid : ℕ) (s : State) : Act → Option State
  | .construct this name => if s.inCode then s.tree (.construct this false name) else none
  | .addChild h child name order iter =>
      if s.inCode ∧ s.isHandler child ∧ s.iterOk h child iter then
        s.addChild tid h child name order iter
      else none
  | .destroy h => if s.inCode ∧ s.isHandler h then s.destroy h else none
  | .postDispose h obj => if s.inCode ∧ s.isHandler obj then s.postDispose h obj else none
  | .onDestroy =>
      match s.stack with
      | .onDestroy h false :: rest =>
          match s.heap.handlers h with
          | some d =>
              State.tree { s with stack := .children h d.mChildren :: .onDestroy h true :: rest }
                (.markDestroyed h)
          | none => none
      | _ => none
  | .ret =>
      match s.stack with
      | .code :: rest | .onCreate _ :: rest | .onDestroy _ true :: rest =>
          some { s with stack := rest }
      | _ => none
  | .advance =>
      match s.stack with
      | f :: rest => s.advance rest f
      | [] => none
  | .dispatch =>
      if s.stack = [] ∨ s.inCode then some { s with stack := .code :: s.stack } else none
  | .dtor h =>
      if s.isHandler h ∧ ¬ s.mSelfRef h ∧ s.stack.all (fun f => !f.holds h) then s.tree (.dtor h)
      else none

/-- The looper runs on the thread `tid`. -/
def init (tid this : ℕ) (name : Bytes) : State where
  heap :=
    { handlers := Function.update (fun _ => none) looper (some
        { mHandler := this, mObjectName := name, mThreadId := tid, mCreated := true,
          mIsLooper := true, mLooperRunning := true })
      next := looper + 1 }
  mDestroyMarkCalled _ := false
  mSelfRef _ := false
  stack := []
  log := []

variable {s s' : State} {h c k : HandlerId}

section Observed
variable {heap : Heap} {f : TagHandlerInternalData → TagHandlerInternalData}

theorem map_modify {α : Type*} {field : TagHandlerInternalData → α}
    (hf : ∀ d, field (f d) = field d) (k : HandlerId) :
    ((heap.modify h f).handlers k).map field = (heap.handlers k).map field := by
  by_cases hkh : k = h
  · subst hkh
    rw [Heap.modify_self, Option.map_map]
    exact congrArg (Option.map · (heap.handlers k)) (funext hf)
  · rw [Heap.modify_of_ne hkh]

theorem isSome_modify (k : HandlerId) :
    ((heap.modify h f).handlers k).isSome = (heap.handlers k).isSome := by
  have hunit := @map_modify h heap f Unit (fun _ => ()) (fun _ => rfl) k
  simpa using congrArg Option.isSome hunit

end Observed

theorem isHandler_iff : s.isHandler h = true ↔
    ∃ d, s.heap.handlers h = some d ∧ d.mIsLooper = false := by
  unfold State.isHandler
  cases s.heap.handlers h <;> simp

theorem isCreated_iff : s.isCreated h = true ↔
    ∃ d, s.heap.handlers h = some d ∧ d.mCreated = true := by
  unfold State.isCreated
  cases s.heap.handlers h <;> simp

theorem isDestroyed_iff : s.isDestroyed h = true ↔
    ∃ d, s.heap.handlers h = some d ∧ d.mDestroy = true := by
  unfold State.isDestroyed
  cases s.heap.handlers h <;> simp

/-- A frame on the stack will still tell the child of `h` that it is destroyed. -/
def Awaited (stack : List Frame) (h c : HandlerId) : Prop :=
  (∃ iter key, Frame.children h iter ∈ stack ∧ (key, c) ∈ iter) ∨ Frame.added c true ∈ stack

/-- What holds of the tree alone. -/
structure Grown (s : State) : Prop where
  ok : s.heap.Ok
  looper_root : s.heap.parentOf looper = none
  looper_runs : (s.heap.handlers looper).map (·.mLooperRunning) = some true
  handler_iff : ∀ h, s.isHandler h = true ↔ (s.heap.handlers h).isSome ∧ h ≠ looper
  created_iff : ∀ h, s.isHandler h = true → (s.isCreated h = true ↔ (s.heap.parentOf h).isSome)
  bound : ∀ h, s.isHandler h = true → s.isCreated h = true →
    (s.heap.handlers h).map (·.mLooper) = some (some looper)

/-- The calls made so far. -/
structure Logged (s : State) : Prop where
  old : ∀ h, .OnCreate h ∈ s.log → h < s.heap.next ∧ (s.isHandler h = true → s.isCreated h = true)
  created : ∀ h, s.isHandler h = true → s.isCreated h = true → .OnCreate h ∈ s.log
  created_once : ∀ h, s.log.count (.OnCreate h) ≤ 1
  marked_iff : ∀ h, s.mDestroyMarkCalled h = true ↔ .OnDestroy h ∈ s.log
  destroyed_once : ∀ h, s.log.count (.OnDestroy h) ≤ 1
  created_first : ∀ h pre post, s.log = pre ++ .OnDestroy h :: post → .OnCreate h ∈ pre

/-- What is under way. -/
structure Staged (s : State) : Prop where
  begun : ∀ h, s.mDestroyMarkCalled h = true → (s.heap.handlers h).isSome →
    s.isDestroyed h = true ∨ .onDestroy h false ∈ s.stack
  swept : ∀ h c, s.mDestroyMarkCalled h = true → .onDestroy h false ∉ s.stack →
    s.heap.parentOf c = some h → s.mDestroyMarkCalled c = true ∨ Awaited s.stack h c
  marked : ∀ h b, .onDestroy h b ∈ s.stack → s.mDestroyMarkCalled h = true
  iter_old : ∀ h iter item, .children h iter ∈ s.stack → item ∈ iter → item.2 < s.heap.next
  iter_children : ∀ h iter item d, .children h iter ∈ s.stack → item ∈ iter →
    s.heap.handlers item.2 = some d → d.mParent = some h ∧ item.1 = d.mHandler
  added_created : ∀ c b, .added c b ∈ s.stack → s.isHandler c = true ∧ s.isCreated c = true

/-- A handler that is marked as destroyed has been told so. -/
def Told (s : State) : Prop := ∀ h, s.isHandler h = true → s.isCreated h = true →
  s.isDestroyed h = true → s.mDestroyMarkCalled h = true

structure Inv (s : State) : Prop where
  grown : Grown s
  logged : Logged s
  staged : Staged s

theorem handlers_isSome_of_parentOf {heap : Heap} (h : heap.parentOf c = some k) :
    (heap.handlers c).isSome := by
  obtain ⟨d, hd, -⟩ := Option.bind_eq_some_iff.mp h
  rw [hd]
  rfl

namespace Grown

/-- A child is a handler and created. -/
theorem child (hs : Grown s) (hparent : s.heap.parentOf c = some h) :
    s.isHandler c = true ∧ s.isCreated c = true := by
  have hne : c ≠ looper := by
    rintro rfl
    rw [hs.looper_root] at hparent
    cases hparent
  have hhandler := (hs.handler_iff c).mpr ⟨handlers_isSome_of_parentOf hparent, hne⟩
  refine ⟨hhandler, (hs.created_iff c hhandler).mpr ?_⟩
  rw [hparent]
  rfl

theorem delivered (hs : Grown s) (hhandler : s.isHandler h = true)
    (hcreated : s.isCreated h = true) : HandlerTree.delivered s.heap h = true := by
  obtain ⟨d, hd, hlooper⟩ := isHandler_iff.mp hhandler
  have hbound := hs.bound h hhandler hcreated
  rw [State.isCreated, hd] at hcreated
  rw [hd, Option.map_some, Option.some_inj] at hbound
  rw [HandlerTree.delivered, hd]
  dsimp only
  rw [hlooper, hbound, if_neg Bool.false_ne_true, Option.bind_some, hs.looper_runs,
    Bool.and_eq_true]
  exact ⟨hcreated, rfl⟩

theorem created_of_delivered (hhandler : s.isHandler h = true)
    (hdelivered : HandlerTree.delivered s.heap h = true) : s.isCreated h = true := by
  obtain ⟨d, hd, hlooper⟩ := isHandler_iff.mp hhandler
  rw [HandlerTree.delivered, hd] at hdelivered
  dsimp only at hdelivered
  rw [hlooper, if_neg Bool.false_ne_true, Bool.and_eq_true] at hdelivered
  exact isCreated_iff.mpr ⟨d, hd, hdelivered.1⟩

end Grown

/-- The stack, the marks and the log are not part of the tree. -/
theorem Grown.congr (hs : Grown s) (hheap : s'.heap = s.heap) : Grown s' := by
  have hhandler : s'.isHandler = s.isHandler := by
    funext k
    rw [State.isHandler, hheap, State.isHandler]
  have hcreated : s'.isCreated = s.isCreated := by
    funext k
    rw [State.isCreated, hheap, State.isCreated]
  constructor
  case ok => rw [hheap]; exact hs.ok
  case looper_root => rw [hheap]; exact hs.looper_root
  case looper_runs => rw [hheap]; exact hs.looper_runs
  case handler_iff => rw [hheap, hhandler]; exact hs.handler_iff
  case created_iff => rw [hheap, hhandler, hcreated]; exact hs.created_iff
  case bound => rw [hheap, hhandler, hcreated]; exact hs.bound

end CoreLooper.HandlerLifecycle
