import Mathlib

/-!
# The hierarchical timer wheel of a looper

`TimerManager` keeps the timers of one looper thread in five wheels of spokes and
a list of ready nodes. Spokes and the ready list are the circular lists of
`tagNodeLink`; here each is the list of the nodes it links, in link order, and a
node is named by its address. Nodes are never moved or reused, so the heap is a
function of addresses.

Two inputs are not computed by the manager: the values of `GetTickCount64`, one for
each reading, and what the callbacks `OnTimer` and `Run` call on the manager while
they run. Both belong to `Env`. The state carries a log of what was armed, made
ready, handed out, set and killed; no function reads it back.
-/
namespace CoreLooper.TimerManager

abbrev NodeId := ℕ
abbrev HandlerId := ℕ
abbrev RunnableId := ℕ
abbrev TimerId := ℤ

def granularity : ℕ := 1
def wheelBits1 : ℕ := 8
def wheelBits2 : ℕ := 6
def wheelSize1 : ℕ := 1 <<< wheelBits1
def wheelSize2 : ℕ := 1 <<< wheelBits2
def wheelMask1 : ℕ := wheelSize1 - 1
def wheelMask2 : ℕ := wheelSize2 - 1
def wheelNum : ℕ := 5

/-- Arithmetic of `uint32_t` wraps modulo `2 ^ 32`. -/
def u32 (x : ℕ) : ℕ := x % 2 ^ 32

structure TimerExtraInfo where
  mRunnable : Option RunnableId
  deriving DecidableEq, Repr

structure TimerNode where
  mHandler : HandlerId
  mTimerId : TimerId
  mDeadTime : ℕ
  mInterval : ℕ
  mExtraInfo : Option TimerExtraInfo
  deriving DecidableEq, Repr

structure Wheel where
  spokes : ℕ → List NodeId
  size : ℕ
  spokeIndex : ℕ

/-- What happened, in order. `armed` records a call of `AddTimer`: the delay was
computed from `tick` while the next spoke of wheel 0 stood for tick `position`. -/
inductive Event where
  | armed (node : NodeId) (milliseconds tick position : ℕ)
  | ready (node : NodeId) (deadTime tick : ℕ)
  | onTimer (handler : HandlerId) (timerId : TimerId) (node : NodeId)
  | run (runnable : Option RunnableId) (node : NodeId)
  | set (node : NodeId) (handler : HandlerId) (timerId : TimerId) (previous : Option NodeId)
  | killed (node : NodeId)
  deriving DecidableEq, Repr

/-- The calls a program makes on a manager. `interval` is a `UINT`. `setTimerEx` is the call of
`LooperImpl`, once its checks of the handler have passed: it takes the id from `NextTimerId`. -/
inductive Call where
  | setTimer (handler : HandlerId) (timerId : TimerId) (interval : UInt32)
      (extraInfo : Option TimerExtraInfo)
  | setTimerEx (handler : HandlerId) (interval : UInt32) (extraInfo : Option TimerExtraInfo)
  | killTimer (handler : HandlerId) (timerId : TimerId)
  | processTimer (ioIdleTick : ℕ)
  deriving DecidableEq

/-- `tick i` is the value of the `i`-th reading of the clock, `callback i` the calls
made by the `i`-th invocation of a callback. -/
structure Env where
  tick : ℕ → ℕ
  callback : ℕ → List Call

structure State where
  mWheels : ℕ → Wheel
  mStartTick : ℕ
  mReadyNodes : List NodeId
  mBusying : Bool
  heap : NodeId → TimerNode
  nextNode : NodeId
  mTimerMap : HandlerId → TimerId → Option NodeId
  mNextTimerId : HandlerId → TimerId
  mTimerIdRewind : HandlerId → Bool
  /-- the last value read from the clock, and the number of readings so far -/
  now : ℕ
  reads : ℕ
  callbacks : ℕ
  log : List Event

namespace State

def emit (e : Event) (s : State) : State := { s with log := s.log ++ [e] }

def setSpoke (s : State) (k j : ℕ) (l : List NodeId) : State :=
  let w := s.mWheels k
  let w := { w with spokes := Function.update w.spokes j l }
  { s with mWheels := Function.update s.mWheels k w }

def setIndex (s : State) (k i : ℕ) : State :=
  { s with mWheels := Function.update s.mWheels k { s.mWheels k with spokeIndex := i } }

def setNode (s : State) (n : NodeId) (v : TimerNode) : State :=
  { s with heap := Function.update s.heap n v }

def setMap (s : State) (h : HandlerId) (id : TimerId) (v : Option NodeId) : State :=
  { s with mTimerMap := Function.update s.mTimerMap h (Function.update (s.mTimerMap h) id v) }

def spoke (s : State) (k j : ℕ) : List NodeId := (s.mWheels k).spokes j

def index (s : State) (k : ℕ) : ℕ := (s.mWheels k).spokeIndex

def size (s : State) (k : ℕ) : ℕ := (s.mWheels k).size

end State

/-- A reading of the clock; afterwards `now` is the value read. -/
def getCurrentMillisec (env : Env) (s : State) : State :=
  { s with now := env.tick s.reads, reads := s.reads + 1 }

def init (env : Env) : State :=
  let s : State :=
    { mWheels := fun k => ⟨fun _ => [], if k = 0 then wheelSize1 else wheelSize2, 0⟩
      mStartTick := 0, mReadyNodes := [], mBusying := false
      heap := fun _ => ⟨0, 0, 0, 0, none⟩, nextNode := 0, mTimerMap := fun _ _ => none
      mNextTimerId := fun _ => 0, mTimerIdRewind := fun _ => false
      now := 0, reads := 0, callbacks := 0, log := [] }
  let s := getCurrentMillisec env s
  { s with mStartTick := s.now }

def addToReady (node : NodeId) (s : State) : State :=
  { s with mReadyNodes := s.mReadyNodes ++ [node] }.emit
    (.ready node (s.heap node).mDeadTime s.now)

/-- The wheel and the spoke `AddTimer` chooses. All operands are `uint32_t`. -/
def chooseSpoke (s : State) (milliseconds : ℕ) : ℕ × ℕ :=
  let interval := milliseconds / granularity
  let threshold1 := wheelSize1
  let threshold2 := 1 <<< (wheelBits1 + 1 * wheelBits2)
  let threshold3 := 1 <<< (wheelBits1 + 2 * wheelBits2)
  let threshold4 := 1 <<< (wheelBits1 + 3 * wheelBits2)
  if interval < threshold1 then
    (0, u32 (interval + s.index 0) &&& wheelMask1)
  else if interval < threshold2 then
    (1, (u32 (interval - threshold1 + s.index 1 * threshold1) >>> wheelBits1) &&& wheelMask2)
  else if interval < threshold3 then
    (2, (u32 (interval - threshold2 + s.index 2 * threshold2)
      >>> (wheelBits1 + wheelBits2)) &&& wheelMask2)
  else if interval < threshold4 then
    (3, (u32 (interval - threshold3 + s.index 3 * threshold3)
      >>> (wheelBits1 + 2 * wheelBits2)) &&& wheelMask2)
  else
    (4, (u32 (interval - threshold4 + s.index 4 * threshold4)
      >>> (wheelBits1 + 3 * wheelBits2)) &&& wheelMask2)

def addTimer (milliseconds : ℕ) (node : NodeId) (s : State) : State :=
  let (k, j) := chooseSpoke s milliseconds
  s.setSpoke k j (s.spoke k j ++ [node])

/-- One node of a cascaded spoke. The wheel indices already stand one tick past
`mStartTick`, which `DetectList` increments only afterwards. -/
def cascadeNode (s : State) (node : NodeId) : State :=
  if (s.heap node).mDeadTime ≤ s.now then
    addToReady node s
  else
    let milliseconds := (s.heap node).mDeadTime - s.now
    addTimer (u32 milliseconds) node
      (s.emit (.armed node (u32 milliseconds) s.now (s.mStartTick + granularity)))

/-- `Cascade (wheelNum - rest)`; the recursion ends past the last wheel. -/
def cascadeFrom (env : Env) : ℕ → State → State
  | 0, s => s
  | rest + 1, s =>
      let k := wheelNum - (rest + 1)
      let s := getCurrentMillisec env s
      let i := s.index k
      let links := s.spoke k i
      let s := (s.setIndex k (i + 1)).setSpoke k i []
      let s := links.foldl cascadeNode s
      if s.index k ≥ s.size k then cascadeFrom env rest (s.setIndex k 0) else s

def cascade (env : Env) (wheelindex : ℕ) (s : State) : State :=
  if wheelindex < 1 ∨ wheelindex ≥ wheelNum then s else cascadeFrom env (wheelNum - wheelindex) s

/-- One turn of the loop of `DetectList`: the current spoke of wheel 0 becomes ready,
the wheel advances, and a full turn cascades wheel 1. -/
def detectStep (env : Env) (s : State) : State :=
  let i := s.index 0
  let s := (s.spoke 0 i).foldl (fun s node => addToReady node s) s
  let s := s.setSpoke 0 i []
  let s := s.setIndex 0 (i + 1)
  let s := if s.index 0 ≥ s.size 0 then cascade env 1 (s.setIndex 0 0) else s
  { s with mStartTick := s.mStartTick + granularity }

def detectLoop (env : Env) : ℕ → State → State
  | 0, s => s
  | loopnum + 1, s => detectLoop env loopnum (detectStep env s)

/-- The node is unlinked from the list it is in. Its neighbours are joined, so a node
already taken off its list changes nothing. -/
def removeTimer (node : NodeId) (s : State) : State :=
  { s with
    mWheels := fun k =>
      { s.mWheels k with spokes := fun j => ((s.mWheels k).spokes j).filter (· ≠ node) }
    mReadyNodes := s.mReadyNodes.filter (· ≠ node) }

def killTimer (handler : HandlerId) (timerId : TimerId) (s : State) : State :=
  match s.mTimerMap handler timerId with
  | none => s
  | some node => removeTimer node (s.setMap handler timerId none)

/-- The previous node under the same id, if any, is not looked up: the local `node` of
the source is always null, so a new node is made and the map entry overwritten. -/
def setTimer (env : Env) (handler : HandlerId) (timerId : TimerId) (interval : ℕ)
    (extraInfo : Option TimerExtraInfo) (s : State) : State :=
  let interval := if interval = 0 then 1 else interval
  let s := getCurrentMillisec env s
  let node := s.nextNode
  let s := { s with nextNode := node + 1 }.emit
    (.set node handler timerId (s.mTimerMap handler timerId))
  let s := (s.setNode node ⟨handler, timerId, s.now + interval, interval, extraInfo⟩).setMap
    handler timerId (some node)
  addTimer interval node (s.emit (.armed node interval s.now s.mStartTick))

/-- `long` has 64 bits. -/
def toLong (x : ℤ) : TimerId := x.bmod (2 ^ 64)

/-- The size of a handler's timer map: every entry is a node under its own id. -/
def timerCount (s : State) (handler : HandlerId) : ℕ :=
  (List.range s.nextNode).countP fun node =>
    (s.heap node).mHandler = handler ∧ s.mTimerMap handler (s.heap node).mTimerId = some node

/-- The last loop of `NextTimerId`. A free id is among `fuel + 1` ids if the map has `fuel`. -/
def firstFree (s : State) (handler : HandlerId) : ℕ → TimerId → TimerId
  | 0, id => id
  | fuel + 1, id =>
      match s.mTimerMap handler id with
      | none => id
      | some _ => firstFree s handler fuel (toLong (id + 1))

/-- The id `NextTimerId` returns, and the values it leaves in `mNextTimerId` and
`mTimerIdRewind`. -/
def nextTimerId (s : State) (handler : HandlerId) : TimerId × TimerId × Bool :=
  let next := s.mNextTimerId handler
  if timerCount s handler = 0 then (1, 1, false)
  else if next ≠ 0 ∧ s.mTimerMap handler next = none then (next, next, s.mTimerIdRewind handler)
  else
    let id := toLong (next + 1)
    let rewind := s.mTimerIdRewind handler || id = 0
    let next := if id = 0 then toLong (id + 1) else id
    if ¬ rewind then (id, next, rewind)
    else
      let next := firstFree s handler (timerCount s handler) next
      (next, next, rewind)

def setTimerEx (env : Env) (handler : HandlerId) (interval : ℕ)
    (extraInfo : Option TimerExtraInfo) (s : State) : State :=
  let (id, next, rewind) := nextTimerId s handler
  setTimer env handler id interval extraInfo
    { s with
      mNextTimerId := Function.update s.mNextTimerId handler next
      mTimerIdRewind := Function.update s.mTimerIdRewind handler rewind }

/-- A call made from inside a callback. `mBusying` is set there, so a nested
`ProcessTimer` returns at once (`processTimer_of_busy`). -/
def callInside (env : Env) (s : State) : Call → State
  | .setTimer h id interval extra => setTimer env h id interval.toNat extra s
  | .setTimerEx h interval extra => setTimerEx env h interval.toNat extra s
  | .killTimer h id =>
      match s.mTimerMap h id with
      | none => killTimer h id s
      | some node => killTimer h id (s.emit (.killed node))
  | .processTimer _ => s

def callback (env : Env) (s : State) : State :=
  (env.callback s.callbacks).foldl (callInside env) { s with callbacks := s.callbacks + 1 }

/-- The body of the loop of `ProcessTimeOut` for the node taken off the ready list. -/
def timeOutNode (env : Env) (tickNow : ℕ) (node : NodeId) (s : State) : State :=
  let v := s.heap node
  match v.mExtraInfo with
  | some info =>
      let s := (killTimer v.mHandler v.mTimerId s).emit (.run info.mRunnable node)
      match info.mRunnable with
      | some _ => callback env s
      | none => s
  | none =>
      let s := s.setNode node { v with mDeadTime := tickNow + v.mInterval }
      let s := addTimer v.mInterval node
        (s.emit (.armed node v.mInterval tickNow s.mStartTick))
      callback env (s.emit (.onTimer v.mHandler v.mTimerId node))

/-- The loop of `ProcessTimeOut`. Callbacks never lengthen the ready list, so its length
is fuel enough (`timeOutLoop_keeps`). -/
def timeOutLoop (env : Env) (tickNow : ℕ) : ℕ → State → State
  | 0, s => s
  | fuel + 1, s =>
      match s.mReadyNodes with
      | [] => s
      | node :: rest =>
          timeOutLoop env tickNow fuel
            (timeOutNode env tickNow node { s with mReadyNodes := rest })

def processTimeOut (env : Env) (s : State) : State :=
  let s := getCurrentMillisec env s
  let s := timeOutLoop env s.now s.mReadyNodes.length s
  { s with mReadyNodes := [] }

def detectList (env : Env) (s : State) : State :=
  let s := getCurrentMillisec env s
  let loopnum := if s.now > s.mStartTick then (s.now - s.mStartTick) / granularity else 0
  processTimeOut env (detectLoop env loopnum s)

/-- The loop over one wheel in `GetMinIdleTime`: the time to the first spoke in use, the
time to the wrap of the index (`none` for `-1`), and whether a spoke in use was found. -/
def scanWheel (s : State) (k step : ℕ) : ℕ → ℕ → ℕ → Option ℕ → ℕ × Option ℕ × Bool
  | 0, _, ms, rewind => (ms, rewind, false)
  | left + 1, i, ms, rewind =>
      let idx := (i + s.index k) % s.size k
      if s.spoke k idx ≠ [] then (ms, rewind, true)
      else
        let ms := ms + step
        scanWheel s k step left (i + 1) ms (if idx = s.size k - 1 then some ms else rewind)

def getMinIdleTime (s : State) : ℕ :=
  let (ms0, rewindTime0, hasTimer0) := scanWheel s 0 granularity (s.size 0) 0 0 none
  match rewindTime0 with
  | none => ms0
  | some rewindTime0 =>
    if s.spoke 1 (s.index 1) ≠ [] then rewindTime0
    else if hasTimer0 then ms0
    else
      let (ms1, rewindTime1, hasTimer1) := scanWheel s 1 256 (s.size 1) 0 0 none
      match rewindTime1 with
      | none => ms1
      | some rewindTime1 =>
        if s.spoke 2 (s.index 2) ≠ [] then rewindTime1
        else if hasTimer1 then ms1
        else (scanWheel s 2 (256 * 64) (s.size 2) 0 0 none).1

/-- The wait time returned through `cmsDelayNext`, and the new state. -/
def processTimer (env : Env) (ioIdleTick : ℕ) (s : State) : ℕ × State :=
  if s.mBusying then (1, s)
  else
    let s := detectList env { s with mBusying := true }
    let s := { s with mBusying := false }
    (if ioIdleTick < 1000 then 1 else getMinIdleTime s, s)

theorem processTimer_of_busy (env : Env) (ioIdleTick : ℕ) {s : State} (h : s.mBusying = true) :
    processTimer env ioIdleTick s = (1, s) := by
  simp only [processTimer, h, if_true]

/-- A call made from outside the manager's own callbacks. -/
def call (env : Env) (s : State) : Call → State
  | .processTimer ioIdleTick => (processTimer env ioIdleTick s).2
  | c => callInside env s c

/-- The state after a sequence of calls on a new manager. -/
def run (env : Env) (calls : List Call) : State := calls.foldl (call env) (init env)

end CoreLooper.TimerManager
