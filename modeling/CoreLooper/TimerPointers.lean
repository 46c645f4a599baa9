import CoreLooper.TimerManager
import CoreLooper.LinkedRings

/-!
# The timer manager on its own links

The same manager, with the spokes and the ready list as the circular lists of `tagNodeLink`
that the code splices: all loops follow the `next` pointers. The lists of `State` go along as
ghosts; no function of this module decides anything by them, and `TimerOwnership` shows that they
are the lists the pointers form. `seen` records the state wherever no splice is under way:
between two calls, between two rounds of a loop, and around every call made by a callback.
-/
namespace CoreLooper.TimerManager.Pointers
open LinkedRings

inductive Head where
  | spoke (k j : ℕ)
  | ready
  deriving DecidableEq

abbrev TimerLinks := Links Head NodeId

structure PState where
  s : State
  links : TimerLinks
  seen : List (State × TimerLinks)

namespace PState

def observe (p : PState) : PState := { p with seen := p.seen ++ [(p.s, p.links)] }

def crash (p : PState) : PState := { p with links := p.links.crash }

/-- Steps that leave the links alone. -/
def update (f : State → State) (p : PState) : PState := { p with s := f p.s }

end PState

/-- `tagNodeLink` is made with both links to itself. -/
def init (env : Env) : PState :=
  ⟨TimerManager.init env, ⟨fun x => some x, fun x => some x, false⟩, []⟩

def addToReady (node : NodeId) (p : PState) : PState :=
  { p with s := TimerManager.addToReady node p.s, links := p.links.linkTail .ready node }

def addTimer (milliseconds : ℕ) (node : NodeId) (p : PState) : PState :=
  let (k, j) := chooseSpoke p.s milliseconds
  { p with
    s := TimerManager.addTimer milliseconds node p.s
    links := p.links.linkTail (.spoke k j) node }

def cascadeNode (node : NodeId) (p : PState) : PState :=
  if (p.s.heap node).mDeadTime ≤ p.s.now then
    addToReady node p
  else
    let milliseconds := (p.s.heap node).mDeadTime - p.s.now
    addTimer (u32 milliseconds) node
      (p.update (.emit (.armed node (u32 milliseconds) p.s.now (p.s.mStartTick + granularity))))

/-- `while (link != spoke)`: `link` moves on before the node is moved. -/
def walk (spoke : Head) (move : NodeId → PState → PState) :
    ℕ → Option (Addr Head NodeId) → PState → PState
  | 0, _, p => p.crash
  | fuel + 1, link, p =>
      match link with
      | some (.item node) => walk spoke move fuel (p.links.next (.item node)) (move node p)
      | some (.head h) => if h = spoke then p else p.crash
      | none => p.crash

/-- A list has at most as many nodes as were made. -/
def walkFuel (p : PState) : ℕ := p.s.nextNode + 1

/-- `spoke->next = spoke->prev = spoke` -/
def emptySpoke (k j : ℕ) (p : PState) : PState :=
  { p with s := p.s.setSpoke k j [], links := p.links.circle (.head (.spoke k j)) }

def cascadeFrom (env : Env) : ℕ → PState → PState
  | 0, p => p
  | rest + 1, p =>
      let k := wheelNum - (rest + 1)
      let p := p.update (getCurrentMillisec env)
      let i := p.s.index k
      let link := p.links.next (.head (.spoke k i))
      let p := emptySpoke k i (p.update fun s => s.setIndex k (i + 1))
      let p := (walk (.spoke k i) cascadeNode (walkFuel p) link p).observe
      if p.s.index k ≥ p.s.size k then cascadeFrom env rest (p.update fun s => s.setIndex k 0)
      else p

def cascade (env : Env) (wheelindex : ℕ) (p : PState) : PState :=
  if wheelindex < 1 ∨ wheelindex ≥ wheelNum then p else cascadeFrom env (wheelNum - wheelindex) p

def detectStep (env : Env) (p : PState) : PState :=
  let i := p.s.index 0
  let p := walk (.spoke 0 i) addToReady (walkFuel p) (p.links.next (.head (.spoke 0 i))) p
  let p := (emptySpoke 0 i p).observe
  let p := p.update fun s => s.setIndex 0 (i + 1)
  let p := if p.s.index 0 ≥ p.s.size 0 then cascade env 1 (p.update fun s => s.setIndex 0 0) else p
  (p.update fun s => { s with mStartTick := s.mStartTick + granularity }).observe

def detectLoop (env : Env) : ℕ → PState → PState
  | 0, p => p
  | loopnum + 1, p => detectLoop env loopnum (detectStep env p)

def killTimer (handler : HandlerId) (timerId : TimerId) (p : PState) : PState :=
  match p.s.mTimerMap handler timerId with
  | none => p
  | some node =>
    { p with
      s := removeTimer node (p.s.setMap handler timerId none)
      links := p.links.unlink node }

def setTimer (env : Env) (handler : HandlerId) (timerId : TimerId) (interval : ℕ)
    (extraInfo : Option TimerExtraInfo) (p : PState) : PState :=
  let interval := if interval = 0 then 1 else interval
  let p := p.update (getCurrentMillisec env)
  let node := p.s.nextNode
  let s := { p.s with nextNode := node + 1 }.emit
    (.set node handler timerId (p.s.mTimerMap handler timerId))
  let s := (s.setNode node ⟨handler, timerId, s.now + interval, interval, extraInfo⟩).setMap
    handler timerId (some node)
  addTimer interval node
    { p with
      s := s.emit (.armed node interval s.now s.mStartTick)
      links := p.links.circle (.item node) }

def setTimerEx (env : Env) (handler : HandlerId) (interval : ℕ)
    (extraInfo : Option TimerExtraInfo) (p : PState) : PState :=
  let (id, next, rewind) := nextTimerId p.s handler
  setTimer env handler id interval extraInfo
    (p.update fun s => { s with
      mNextTimerId := Function.update s.mNextTimerId handler next
      mTimerIdRewind := Function.update s.mTimerIdRewind handler rewind })

def callInside (env : Env) (p : PState) : Call → PState
  | .setTimer h id interval extra => setTimer env h id interval.toNat extra p
  | .setTimerEx h interval extra => setTimerEx env h interval.toNat extra p
  | .killTimer h id =>
      match p.s.mTimerMap h id with
      | none => killTimer h id p
      | some node => killTimer h id (p.update (.emit (.killed node)))
  | .processTimer _ => p

def callback (env : Env) (p : PState) : PState :=
  (env.callback p.s.callbacks).foldl (fun p c => (callInside env p c).observe)
    (p.update fun s => { s with callbacks := s.callbacks + 1 }).observe

def timeOutNode (env : Env) (tickNow : ℕ) (node : NodeId) (p : PState) : PState :=
  let v := p.s.heap node
  match v.mExtraInfo with
  | some info =>
      let p := (killTimer v.mHandler v.mTimerId p).update (.emit (.run info.mRunnable node))
      match info.mRunnable with
      | some _ => callback env p
      | none => p
  | none =>
      let p := p.update fun s => s.setNode node { v with mDeadTime := tickNow + v.mInterval }
      let p := addTimer v.mInterval node
        (p.update (.emit (.armed node v.mInterval tickNow p.s.mStartTick)))
      callback env (p.update (.emit (.onTimer v.mHandler v.mTimerId node)))

def timeOutLoop (env : Env) (tickNow : ℕ) : ℕ → PState → PState
  | 0, p => p.crash
  | fuel + 1, p =>
      match p.links.next (.head .ready) with
      | some (.item node) =>
          let p := { p with
            s := { p.s with mReadyNodes := p.s.mReadyNodes.tail }
            links := p.links.detach node }
          timeOutLoop env tickNow fuel (timeOutNode env tickNow node p).observe
      | some (.head h) => if h = .ready then p else p.crash
      | none => p.crash

def processTimeOut (env : Env) (p : PState) : PState :=
  let p := p.update (getCurrentMillisec env)
  let p := timeOutLoop env p.s.now (walkFuel p) p
  { p with s := { p.s with mReadyNodes := [] }, links := p.links.circle (.head .ready) }

def detectList (env : Env) (p : PState) : PState :=
  let p := p.update (getCurrentMillisec env)
  let loopnum := if p.s.now > p.s.mStartTick then (p.s.now - p.s.mStartTick) / granularity else 0
  processTimeOut env (detectLoop env loopnum p)

def processTimer (env : Env) (p : PState) : PState :=
  if p.s.mBusying then p
  else
    let p := detectList env (p.update fun s => { s with mBusying := true })
    p.update fun s => { s with mBusying := false }

def call (env : Env) (p : PState) : Call → PState
  | .processTimer _ => processTimer env p
  | c => callInside env p c

/-- The state after a sequence of calls on a new manager. -/
def run (env : Env) (calls : List Call) : PState :=
  calls.foldl (fun p c => (call env p c).observe) (init env).observe

end CoreLooper.TimerManager.Pointers
