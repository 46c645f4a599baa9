import CoreLooper.Transitions

/-!
# Loopers, their queues, and the threads that use them

A looper is named by its thread. A thread that runs no looper has one too: the stack looper
it uses while it waits for an answer (`mAttachThread`), which never runs and takes no
messages. What a thread has still to do is its stack of frames; every step takes the frame
on top. A critical section is one step, and a check made without the lock is a step of its
own. Handlers' own code may post and send at any time while it runs. The answers of
`CanQuitLooperNow` and the results of handlers are inputs of the steps.

Each looper also keeps what it accepted and cancelled so far; no step reads it.
-/
namespace CoreLooper.LooperImpl

abbrev ThreadId := ℕ
abbrev RunnableId := ℕ
abbrev DoneFlag := ℕ

/-- A looper is a handler of its own. -/
inductive Handler where
  | looper (thread : ThreadId)
  | handler (n : ℕ)
  deriving DecidableEq, Repr

/-- The messages the framework gives a meaning to, and all others. -/
inductive Msg where
  | BM_NULL
  | BM_DESTROY
  | BM_QUIT
  | BM_POST_RUNNABLE
  | BM_CANCEL_RUNNABLE
  | other (n : ℕ)
  deriving DecidableEq, Repr

/-- What `wp` points to. -/
inductive WParam where
  | null
  | tagDelayedRunnable (mHandler : Handler) (mRunnable : RunnableId) (mDelayedMS : ℕ)
  | tagCancelRunnable (mHandler : Handler) (mRunnable : RunnableId)
  | other (n : ℕ)
  deriving DecidableEq, Repr

/-- `mDone` points to a local of the sender, here a flag; `mAck` goes with it. `ticket` is the
place of the message in the order of acceptance. -/
structure Message where
  mHandler : Option Handler
  mMsg : Msg
  mWP : WParam
  mDone : Option DoneFlag := none
  mWaitAck : Bool := false
  mSendLooper : Option ThreadId := none
  ticket : ℕ := 0
  deriving DecidableEq, Repr

inductive Frame where
  /-- `Run` before and after its `SingleStep` -/
  | run
  | runCheck
  /-- the loop of `getMessage` before it takes the lock -/
  | getMessage
  /-- program code: a thread's own, `OnCreate`, a timer or an I/O callback -/
  | code
  /-- program code under `OnMessage` of a handler -/
  | onMessage (handler : Handler) (m : Message)
  /-- `dispatchMessage` behind the call of `OnMessage` -/
  | finish (handler : Handler) (m : Message) (ret : ℤ)
  /-- `OnMessage(BM_QUIT)`, and `OnBMQuit` after the post in it -/
  | quit
  | onBMQuit
  | cancelRunnableInQueue (handler : Handler) (runnable : RunnableId)
  /-- past the unlocked check of `postMessage` and of `sendMessage` -/
  | posting (target : ThreadId) (m : Message)
  | sending (target : ThreadId) (m : Message)
  /-- the loop at the end of `sendMessageHelper` -/
  | waiting (target : ThreadId) (done : DoneFlag)
  deriving DecidableEq, Repr

structure Looper where
  mLooperRunning : Bool
  mAttachThread : Bool
  mBMQuit : Bool
  mMessageList : List Message
  /-- `mLooperHandle` was set by `StartHelper` -/
  started : Bool
  accepted : List Message
  cancelled : List Message
  deriving DecidableEq, Repr

structure State where
  looper : ThreadId → Looper
  stack : ThreadId → List Frame
  done : DoneFlag → Bool
  ack : DoneFlag → ℤ
  nextFlag : DoneFlag

/-- `start l` is `StartHelper` of looper `l`, whose thread goes on to `OnCreate` and `Run`. `post`
and `send` are calls made by program code on
thread `t`; `ret` is the return of that code, and `advance` the next step of framework code. -/
inductive Act where
  | start (l : ThreadId)
  | post (t l : ThreadId) (handler : Option Handler) (msg : Msg) (wp : WParam)
  | send (t l : ThreadId) (handler : Option Handler) (msg : Msg) (wp : WParam)
  | ret (t : ThreadId) (result : ℤ)
  | advance (t : ThreadId) (canQuitLooperNow : Bool)
  deriving DecidableEq, Repr

namespace State

def setLooper (s : State) (l : ThreadId) (v : Looper) : State :=
  { s with looper := Function.update s.looper l v }

def setStack (s : State) (t : ThreadId) (fs : List Frame) : State :=
  { s with stack := Function.update s.stack t fs }

/-- The critical section of `postMessage` and `sendMessageHelper` on a running looper. -/
def accept (s : State) (l : ThreadId) (m : Message) : State :=
  let v := s.looper l
  let m := { m with ticket := v.accepted.length }
  s.setLooper l
    { v with mMessageList := v.mMessageList ++ [m], accepted := v.accepted ++ [m] }

end State

/-- Threads for which `external` holds run code of their own; all others wait to be started as
loopers. -/
def init (external : ThreadId → Bool) : State where
  looper t := ⟨false, external t, false, [], false, [], []⟩
  stack t := if external t then [.code] else []
  done _ := false
  ack _ := 0
  nextFlag := 0

/-- The handler `dispatchMessage` hands a message to: without one it is the looper itself. -/
def dispatchTarget (l : ThreadId) (m : Message) : Handler := m.mHandler.getD (.looper l)

/-- The frames of `dispatchMessage` on the thread of looper `l`. `OnMessage` of a handler answers
`BM_CANCEL_RUNNABLE`, that of a looper also `BM_QUIT`; any other message runs program code. -/
def dispatchMessage (l : ThreadId) (m : Message) : List Frame :=
  let handler := dispatchTarget l m
  match m.mMsg, m.mWP with
  | .BM_CANCEL_RUNNABLE, .tagCancelRunnable h r =>
      [.cancelRunnableInQueue h r, .finish handler m 0]
  | .BM_QUIT, _ =>
      if handler = .looper l then [.quit, .finish handler m 0] else [.onMessage handler m]
  | _, _ => [.onMessage handler m]

/-- `postMessage` up to the lock: the frames it leaves on the stack. A stack looper is only woken
up. -/
def postMessage (s : State) (l : ThreadId) (m : Message) : List Frame :=
  if (s.looper l).mLooperRunning = false ∧ (s.looper l).mAttachThread = false then []
  else if (s.looper l).mAttachThread then []
  else [.posting l m]

/-- A message a looper posts to itself. -/
def ownMessage (l : ThreadId) (msg : Msg) : Message :=
  { mHandler := some (.looper l), mMsg := msg, mWP := .null }

/-- `sendMessage` up to the lock. On the looper's own thread the message is dispatched at once. -/
def sendMessage (s : State) (t l : ThreadId) (m : Message) : List Frame :=
  if (s.looper l).mLooperRunning = false then []
  else if t = l then dispatchMessage l m
  else [.sending l { m with mWaitAck := true, mSendLooper := some t }]

/-- The messages `CancelRunnableInQueue` erases. -/
def isCancelled (handler : Handler) (runnable : RunnableId) (m : Message) : Bool :=
  match m.mMsg, m.mWP with
  | .BM_POST_RUNNABLE, .tagDelayedRunnable _ r _ => m.mHandler = some handler ∧ r = runnable
  | _, _ => false

def cancelRunnableInQueue (v : Looper) (handler : Handler) (runnable : RunnableId) : Looper :=
  { v with
    mMessageList := v.mMessageList.filter (fun m => !isCancelled handler runnable m)
    cancelled := v.cancelled ++ v.mMessageList.filter (isCancelled handler runnable) }

/-- The end of `dispatchMessage`: a waiting sender gets its answer and is woken up. -/
def finish (s : State) (t : ThreadId) (m : Message) (ret : ℤ) (rest : List Frame) : State :=
  match m.mDone with
  | none => s.setStack t rest
  | some f =>
      let s := { s with ack := Function.update s.ack f ret, done := Function.update s.done f true }
      match m.mWaitAck, m.mSendLooper with
      | true, some sender =>
          s.setStack t (postMessage s sender (ownMessage sender .BM_NULL) ++ rest)
      | _, _ => s.setStack t rest

/-- The next step of thread `t`, which has `frame` on top of `rest`. -/
def advance (s : State) (t : ThreadId) (canQuitLooperNow : Bool) (frame : Frame)
    (rest : List Frame) : Option State :=
  let v := s.looper t
  match frame with
  | .run => some (s.setStack t (.getMessage :: .runCheck :: rest))
  | .runCheck =>
      if v.mBMQuit ∧ canQuitLooperNow ∧ v.mMessageList = [] then
        some ((s.setLooper t { v with mLooperRunning := false }).setStack t rest)
      else some (s.setStack t (.run :: rest))
  | .getMessage =>
      match v.mMessageList with
      | m :: ms =>
          some ((s.setLooper t { v with mMessageList := ms }).setStack t
            (dispatchMessage t m ++ rest))
      | [] =>
          if v.mBMQuit ∧ canQuitLooperNow then some (s.setStack t rest)
          -- the timer and I/O callbacks; a stack looper has none, and gives up after one wait
          else if v.mAttachThread then some (s.setStack t rest)
          else some (s.setStack t (.code :: .getMessage :: rest))
  | .finish _ m ret => some (finish s t m ret rest)
  | .quit =>
      if v.mBMQuit then some (s.setStack t rest)
      else some (s.setStack t (postMessage s t (ownMessage t .BM_DESTROY) ++ .onBMQuit :: rest))
  | .onBMQuit =>
      -- the timer that checks for the end of the looper is announced by a message
      some ((s.setLooper t { v with mBMQuit := true }).setStack t
        (postMessage s t (ownMessage t .BM_NULL) ++ rest))
  | .cancelRunnableInQueue h r =>
      some ((s.setLooper t (cancelRunnableInQueue v h r)).setStack t rest)
  | .posting l m =>
      if (s.looper l).mLooperRunning then some ((s.accept l m).setStack t rest)
      else some (s.setStack t rest)
  | .sending l m =>
      match m.mDone with
      | none => none
      | some f =>
          if (s.looper l).mLooperRunning then
            some ((s.accept l m).setStack t (.waiting l f :: rest))
          else some (s.setStack t rest)
  | .waiting l f =>
      if s.done f then some (s.setStack t rest)
      else some (s.setStack t (.getMessage :: .waiting l f :: rest))
  | .code => none
  | .onMessage _ _ => none

def step (s : State) : Act → Option State
  | .start l =>
      if (s.looper l).started ∨ (s.looper l).mAttachThread then none
      else
        let v := s.looper l
        let v := { v with mLooperRunning := true, mBMQuit := false, started := true }
        some ((s.setLooper l v).setStack l (.code :: .run :: s.stack l))
  | .post t l handler msg wp =>
      match s.stack t with
      | .code :: _ | .onMessage _ _ :: _ =>
          let m : Message := { mHandler := handler, mMsg := msg, mWP := wp }
          some (s.setStack t (postMessage s l m ++ s.stack t))
      | _ => none
  | .send t l handler msg wp =>
      match s.stack t with
      | .code :: _ | .onMessage _ _ :: _ =>
          let m : Message :=
            { mHandler := handler, mMsg := msg, mWP := wp, mDone := some s.nextFlag }
          some { s.setStack t (sendMessage s t l m ++ s.stack t) with nextFlag := s.nextFlag + 1 }
      | _ => none
  | .ret t result =>
      match s.stack t with
      | .onMessage handler m :: rest => some (s.setStack t (.finish handler m result :: rest))
      | .code :: rest => some (s.setStack t rest)
      | _ => none
  | .advance t canQuitLooperNow =>
      match s.stack t with
      | frame :: rest => advance s t canQuitLooperNow frame rest
      | [] => none

/-- `Handler::postRunnable`, `sendRunnable` and `cancelRunnable` of a handler of looper `l`, called
on thread `t`. (`sendRunnable` on the looper's own thread runs the runnable without a message.) -/
def postRunnable (t l : ThreadId) (handler : Handler) (obj : RunnableId) : Act :=
  .post t l (some handler) .BM_POST_RUNNABLE (.tagDelayedRunnable handler obj 0)

def sendRunnable (t l : ThreadId) (handler : Handler) (obj : RunnableId) : Act :=
  .send t l (some handler) .BM_POST_RUNNABLE (.tagDelayedRunnable handler obj 0)

def cancelRunnable (t l : ThreadId) (handler : Handler) (obj : RunnableId) : Act :=
  .send t l (some handler) .BM_CANCEL_RUNNABLE (.tagCancelRunnable handler obj)

end CoreLooper.LooperImpl
