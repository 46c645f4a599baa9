import CoreLooper.TimerRemoval
import CoreLooper.Transitions

/-!
# Posted runnables on the thread of a looper

A runnable posted to a handler waits in the message queue of its looper and, if it was delayed,
then in the timer map of its handler until a pass of `ProcessTimer` runs it. Program code runs
inside a message, a timer or a runnable. It may post, cancel, set and kill timers, and while it
waits for another looper its thread takes further steps of the loop. A pass of `ProcessTimer` is
cut into its turns here, so that all of this may happen between two of them.

The handlers are created, not destroyed, and the looper runs. Other threads post at any time. A
cancel from another looper arrives as a message. The callbacks of `Env` are not used.
-/
namespace CoreLooper.Runnables
open TimerManager (Env HandlerId RunnableId NodeId TimerId TimerExtraInfo)

abbrev InfoId := ℕ

/-- `postRunnable` leaves `mDelayedMS` at zero. -/
structure DelayedRunnable where
  mHandler : HandlerId
  mRunnable : RunnableId
  mDelayedMS : UInt32
  deriving DecidableEq

/-- The messages of the queue. `wp` of `BM_POST_RUNNABLE` is the address of the info; a cancel
carries the number of infos made before it was sent, which no step reads. -/
inductive Message where
  | BM_NULL
  | BM_POST_RUNNABLE (mHandler : HandlerId) (info : InfoId)
  | BM_CANCEL_RUNNABLE (mHandler : HandlerId) (mRunnable : RunnableId) (sentAt : InfoId)
  | other (n : ℕ)
  deriving DecidableEq, Repr

/-- `since` is the reading of the clock at which the pass began; no step reads it. -/
inductive Frame where
  | code
  | processTimeOut (since tickNow : ℕ)
  deriving DecidableEq, Repr

/-- `setFor n` is the info for which the timer of node `n` was set. The last three fields tell what
became of the infos; no step reads them. -/
structure State where
  timers : TimerManager.State
  mMessageList : List Message
  stack : List Frame
  info : InfoId → DelayedRunnable
  nextInfo : InfoId
  setFor : NodeId → InfoId
  ran : List InfoId
  cancelled : List InfoId
  killed : List InfoId

inductive Act where
  | postDelayedRunnable (handler : HandlerId) (runnable : RunnableId) (ms : UInt32)
  | postMessage (n : ℕ)
  /-- `cancelRunnable` called on the thread of another looper -/
  | sendCancelRunnable (handler : HandlerId) (runnable : RunnableId)
  | cancelRunnable (handler : HandlerId) (runnable : RunnableId)
  | setTimer (handler : HandlerId) (interval : UInt32)
  | killTimer (handler : HandlerId) (timerId : TimerId)
  /-- the loop calls program code for any other reason, and that code returns -/
  | call
  | ret
  | dispatchMessage
  | processTimer
  /-- one turn of the loop of `ProcessTimeOut` -/
  | timeOut
  deriving DecidableEq

def init (env : Env) : State :=
  ⟨TimerManager.init env, [], [], fun _ => ⟨0, 0, 0⟩, 0, fun _ => 0, [], [], []⟩

/-- The info a message carries. -/
def Message.info? : Message → Option InfoId
  | .BM_POST_RUNNABLE _ i => some i
  | _ => none

/-- The timers that carry a runnable, from all timer maps. -/
def runnableTimers (t : TimerManager.State) : List NodeId :=
  (List.range t.nextNode).filter fun n =>
    t.mTimerMap (t.heap n).mHandler (t.heap n).mTimerId = some n ∧ (t.heap n).mExtraInfo.isSome

namespace State

/-- The infos in the queue, and those in the timer maps. -/
def queued (s : State) : List InfoId := s.mMessageList.filterMap Message.info?

def waiting (s : State) : List InfoId := (runnableTimers s.timers).map s.setFor

end State

/-- `mSelfRef` keeps the info until its message is dispatched or cancelled. -/
def postDelayedRunnable (handler : HandlerId) (runnable : RunnableId) (ms : UInt32) (s : State) :
    State :=
  { s with
    info := Function.update s.info s.nextInfo ⟨handler, runnable, ms⟩
    nextInfo := s.nextInfo + 1
    mMessageList := s.mMessageList ++ [.BM_POST_RUNNABLE handler s.nextInfo] }

/-- `LooperImpl::SetTimerEx`. A map of `2 ^ 64 - 1` nodes leaves no address for another one. -/
def setTimerEx (env : Env) (handler : HandlerId) (interval : UInt32)
    (extraInfo : Option TimerExtraInfo) (s : State) : Option State :=
  if TimerManager.timerCount s.timers handler < 2 ^ 64 - 1 then
    some { s with
      timers := TimerManager.callInside env s.timers (.setTimerEx handler interval extraInfo)
      mMessageList := s.mMessageList ++ [.BM_NULL] }
  else none

def killTimer (env : Env) (handler : HandlerId) (timerId : TimerId) (s : State) : State :=
  { s with
    timers := TimerManager.callInside env s.timers (.killTimer handler timerId)
    killed := s.killed ++ ((runnableTimers s.timers).filter fun n =>
      s.timers.mTimerMap handler timerId = some n).map s.setFor }

/-- What `CancelRunnableInQueue` looks for. -/
def isPosted (s : State) (handler : HandlerId) (runnable : RunnableId) : Message → Bool
  | .BM_POST_RUNNABLE mHandler i => mHandler = handler ∧ (s.info i).mRunnable = runnable
  | _ => false

/-- The timers of the handler whose `mExtraInfo` holds the runnable. -/
def timersOf (t : TimerManager.State) (handler : HandlerId) (runnable : RunnableId) :
    List NodeId :=
  (TimerManager.timerNodes t handler).filter fun n =>
    (t.heap n).mExtraInfo = some ⟨some runnable⟩

/-- `OnMessage(BM_CANCEL_RUNNABLE)`: the queue first, then the timers, whose ids are collected
before the first of them is killed. -/
def cancelRunnable (env : Env) (handler : HandlerId) (runnable : RunnableId) (s : State) :
    State :=
  let nodes := timersOf s.timers handler runnable
  let timerIds := nodes.map fun n => (s.timers.heap n).mTimerId
  { s with
    mMessageList := s.mMessageList.filter fun m => ¬ isPosted s handler runnable m
    timers := (timerIds.map (.killTimer handler)).foldl (TimerManager.callInside env) s.timers
    cancelled := s.cancelled ++
      (s.mMessageList.filter fun m => isPosted s handler runnable m).filterMap Message.info? ++
      (nodes.map s.setFor) }

/-- `OnMessage` of a message taken off the queue. -/
def onMessage (env : Env) (s : State) : Message → Option State
  | .BM_NULL => some s
  | .BM_POST_RUNNABLE handler i =>
      let info := s.info i
      if info.mDelayedMS = 0 then
        some { s with ran := s.ran ++ [i], stack := .code :: s.stack }
      else
        setTimerEx env handler info.mDelayedMS (some ⟨some info.mRunnable⟩)
          { s with setFor := Function.update s.setFor s.timers.nextNode i }
  | .BM_CANCEL_RUNNABLE handler runnable _ => some (cancelRunnable env handler runnable s)
  | .other _ => some { s with stack := .code :: s.stack }

/-- `DetectList` up to the call of `ProcessTimeOut`. In the midst of a pass `ProcessTimer` returns
at once. -/
def processTimer (env : Env) (s : State) : State :=
  if s.timers.mBusying then s
  else
    let since := (TimerManager.getCurrentMillisec env s.timers).now
    let t := TimerManager.caughtUp env { s.timers with mBusying := true }
    let t := TimerManager.getCurrentMillisec env t
    { s with timers := t, stack := .processTimeOut since t.now :: s.stack }

/-- A turn of the loop of `ProcessTimeOut` up to the callback, or the end of the loop and of the
pass. -/
def timeOut (tickNow : ℕ) (rest : List Frame) (s : State) : State :=
  match s.timers.mReadyNodes with
  | [] => { s with timers := { s.timers with mBusying := false, mReadyNodes := [] }, stack := rest }
  | node :: ready =>
      let t := TimerManager.beforeCallback tickNow node { s.timers with mReadyNodes := ready }
      let v := s.timers.heap node
      { s with
        timers := t
        stack := if v.hasCallback then .code :: s.stack else s.stack
        ran := if v.mExtraInfo.isSome then s.ran ++ [s.setFor node] else s.ran }

/-- Whether the thread is in program code. Otherwise it is in its own loop or in a pass. -/
def inCode (s : State) : Bool := s.stack.head? = some .code

/-- Whether the thread may take a step of its loop: also in program code, which may be waiting. -/
def inLoop (s : State) : Bool :=
  match s.stack with
  | .processTimeOut .. :: _ => false
  | _ => true

def step (env : Env) (s : State) : Act → Option State
  | .postDelayedRunnable handler runnable ms => some (postDelayedRunnable handler runnable ms s)
  | .postMessage n => some { s with mMessageList := s.mMessageList ++ [.other n] }
  | .sendCancelRunnable handler runnable => some { s with
      mMessageList := s.mMessageList ++ [.BM_CANCEL_RUNNABLE handler runnable s.nextInfo] }
  | .cancelRunnable handler runnable =>
      if inCode s then some (cancelRunnable env handler runnable s) else none
  | .setTimer handler interval => if inCode s then setTimerEx env handler interval none s else none
  | .killTimer handler timerId => if inCode s then some (killTimer env handler timerId s) else none
  | .call => if inLoop s then some { s with stack := .code :: s.stack } else none
  | .ret =>
      match s.stack with
      | .code :: rest => some { s with stack := rest }
      | _ => none
  | .dispatchMessage =>
      if inLoop s then
        match s.mMessageList with
        | [] => none
        | m :: ms => onMessage env { s with mMessageList := ms } m
      else none
  | .processTimer => if inLoop s then some (processTimer env s) else none
  | .timeOut =>
      match s.stack with
      | .processTimeOut _ tickNow :: rest => some (timeOut tickNow rest s)
      | _ => none

/-- The states a looper's thread can get to. -/
def Reached (env : Env) (s : State) : Prop :=
  Transitions.Reachable (step env) (fun _ _ => True) (init env) s

end CoreLooper.Runnables
