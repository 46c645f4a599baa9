import CoreLooper.CStrings
import CoreLooper.Transitions

/-!
# DnsLooper

Requests wait in a list. A worker resolves the name of the first one, which was copied to a buffer
of 128 bytes, and clears `mThreadRunning` when it is done; a timer of the looper looks for that.
The owner of a request is told through `sendMessage`, and until that returns the looper takes other
messages and timers. The static members outlive a looper: a new one may find the worker of the one
before it still running.
-/
namespace CoreLooper

open CStrings

/-- `request` is the number of the call of `AddRequest`; it is no member of the source. -/
structure TagItemInfo where
  mDns : Bytes
  mHandler : ℕ
  mMsg : ℕ
  mCancel : Bool := false
  request : ℕ
  deriving DecidableEq

/-- What the owner of a request is told. -/
structure DnsNotice where
  mHandler : ℕ
  mMsg : ℕ
  dns : Bytes
  ip : Bytes
  request : ℕ
  deriving DecidableEq

/-- `mDns` and `mIP` are the C strings in the buffers, `mTimerCheck` tells whether the timer is
set. -/
structure DnsLooper where
  mItems : List TagItemInfo
  mTimerCheck : Bool
  mThreadRunning : Bool
  mDns : Bytes
  mIP : Bytes

namespace DnsLooper

/-- `mItems` is not empty where it is called. -/
def startDnsThread (l : DnsLooper) : DnsLooper :=
  if l.mThreadRunning then l
  else
    match l.mItems with
    | [] => l
    | item :: _ =>
        { l with
          mThreadRunning := true
          mDns := (cstr item.mDns).take 127
          mIP := []
          mTimerCheck := true }

/-- `BM_ADD_REQUEST` -/
def addRequest (l : DnsLooper) (info : TagItemInfo) : DnsLooper :=
  let l := { l with mItems := l.mItems ++ [info] }
  if l.mThreadRunning = false then l.startDnsThread else l

/-- `BM_CANCEL_REQUEST`, with the answer to the message. `alive` tells which handlers can be
locked. -/
def cancelRequest (l : DnsLooper) (alive : ℕ → Bool) (handler : ℕ) : ℤ × DnsLooper :=
  if alive handler then
    (0, { l with
      mItems := l.mItems.filter fun i => !(alive i.mHandler && i.mHandler == handler) })
  else (-1, l)

/-- `_DnsThreadCB`. The first address of the answer of `getaddrinfo`, if there is one, comes as
text. -/
def dnsThreadCB (l : DnsLooper) (answer : Option Bytes) : DnsLooper :=
  let mIP :=
    if l.mDns = ascii "localhost" then ascii "127.0.0.1"
    else
      let mIP := ((answer.map cstr).getD []).take 23
      if mIP = [] ∧ l.mDns = ascii "iot.jjyip.com" then ascii "47.106.193.63" else mIP
  { l with mIP := mIP, mThreadRunning := false }

/-- `OnDnsParseDone`, up to the message to the owner. -/
def onDnsParseDone (l : DnsLooper) (alive : ℕ → Bool) (dns ip : Bytes) :
    DnsLooper × Option DnsNotice :=
  match l.mItems with
  | [] => (l, none)
  | item :: rest =>
      if item.mDns = dns then
        ({ l with mItems := rest },
          if item.mCancel then none
          else if alive item.mHandler then
            some ⟨item.mHandler, item.mMsg, cstr item.mDns, cstr ip, item.request⟩
          else none)
      else (l, none)

/-- `OnTimer` up to the message to the owner, where the worker does not run. -/
def onTimerDone (l : DnsLooper) (alive : ℕ → Bool) : DnsLooper × Option DnsNotice :=
  let l := { l with mTimerCheck := false }
  l.onDnsParseDone alive l.mDns l.mIP

/-- `OnTimer` behind the message to the owner. -/
def onTimerNext (l : DnsLooper) : DnsLooper :=
  if l.mItems ≠ [] then l.startDnsThread else l

/-- The numbers of the requests that wait. -/
def requests (l : DnsLooper) : List ℕ := l.mItems.map TagItemInfo.request

end DnsLooper

inductive DnsEvent where
  | addRequest (dns : Bytes) (handler msg : ℕ)
  | cancelRequest (handler : ℕ)
  | threadDone (answer : Option Bytes)
  | timer
  | ownerReturns
  | expire (handler : ℕ)

/-- The looper and the handlers that are alive. `inside` counts the calls of `OnTimer` whose message
to the owner has not returned. The rest is history: the names by number of request, the request
whose name the worker was given last, those resolved so far and those resolved when the timer last
came, how often it found the worker done, what the worker has answered, and what owners were
told. -/
structure DnsSystem where
  looper : DnsLooper
  alive : ℕ → Bool
  inside : ℕ := 0
  names : List Bytes := []
  target : Option ℕ := none
  resolved : List ℕ := []
  checked : List ℕ := []
  rounds : ℕ := 0
  answers : List (Bytes × Bytes) := []
  notices : List DnsNotice := []

namespace DnsSystem

/-- A new looper. The worker may still run for an earlier one. -/
def initial (mThreadRunning : Bool) (mDns mIP : Bytes) (alive : ℕ → Bool) : DnsSystem where
  looper := ⟨[], false, mThreadRunning, mDns, mIP⟩
  alive := alive

/-- The request the worker is given by `StartDnsThread`. -/
def targetAfter (l : DnsLooper) (target : Option ℕ) : Option ℕ :=
  if l.mThreadRunning then target else l.requests.head?.or target

def add (s : DnsSystem) (dns : Bytes) (handler msg : ℕ) : DnsSystem :=
  let info : TagItemInfo :=
    { mDns := dns, mHandler := handler, mMsg := msg, request := s.names.length }
  { s with
    looper := s.looper.addRequest info
    names := s.names ++ [dns]
    target := targetAfter { s.looper with mItems := s.looper.mItems ++ [info] } s.target }

def done (s : DnsSystem) (answer : Option Bytes) : DnsSystem :=
  let l := s.looper.dnsThreadCB answer
  { s with
    looper := l
    resolved := s.resolved ++ s.target.toList
    answers := s.answers ++ [(l.mDns, l.mIP)] }

def next (s : DnsSystem) : DnsSystem :=
  { s with looper := s.looper.onTimerNext, target := targetAfter s.looper s.target }

/-- The timer finds the worker done. -/
def round (s : DnsSystem) : DnsSystem :=
  let r := s.looper.onTimerDone s.alive
  let s := { s with
    looper := r.1
    checked := s.resolved
    rounds := s.rounds + 1
    notices := s.notices ++ r.2.toList }
  if r.2.isSome then { s with inside := s.inside + 1 } else s.next

def step (s : DnsSystem) : DnsEvent → Option DnsSystem
  | .addRequest dns handler msg => some (s.add dns handler msg)
  | .cancelRequest handler =>
      some { s with looper := (s.looper.cancelRequest s.alive handler).2 }
  | .threadDone answer => if s.looper.mThreadRunning then some (s.done answer) else none
  | .timer =>
      if s.looper.mTimerCheck then
        some (if s.looper.mThreadRunning then { s with checked := s.resolved } else s.round)
      else none
  | .ownerReturns =>
      if 0 < s.inside then some { s with inside := s.inside - 1 }.next else none
  | .expire handler => some { s with alive := Function.update s.alive handler false }

/-- The request that comes next. -/
def front (s : DnsSystem) : Option ℕ := s.looper.requests.head?

/-- The name of the first request has been resolved, and the timer has not seen it yet. -/
def Pending (s : DnsSystem) : Prop :=
  s.looper.mThreadRunning = false ∧ s.looper.mTimerCheck = true ∧ s.front ≠ none ∧
    s.front = s.target

instance (s : DnsSystem) : Decidable s.Pending := inferInstanceAs (Decidable (_ ∧ _))

/-- A name that the buffer of the worker can hold. -/
def Fits (dns : Bytes) : Prop := 0 ∉ dns ∧ dns.length ≤ 127

instance : DecidablePred Fits := fun _ => inferInstanceAs (Decidable (_ ∧ _))

/-- No request is added, and no owner returns, between the end of the worker and the timer; none
is added while the worker of an earlier looper runs; and the name that was resolved fits. -/
def Orderly (s : DnsSystem) : DnsEvent → Prop
  | .addRequest _ _ _ =>
      ¬ s.Pending ∧ (s.looper.mThreadRunning = true → s.looper.mTimerCheck = true)
  | .timer => s.Pending → ∀ item ∈ s.looper.mItems.head?, Fits item.mDns
  | .ownerReturns => ¬ s.Pending
  | _ => True

instance (s : DnsSystem) (e : DnsEvent) : Decidable (s.Orderly e) :=
  match e with
  | .addRequest _ _ _ => inferInstanceAs (Decidable (¬ _ ∧ (_ → _)))
  | .cancelRequest _ => .isTrue trivial
  | .threadDone _ => .isTrue trivial
  | .timer => inferInstanceAs (Decidable (_ → ∀ item ∈ s.looper.mItems.head?, Fits item.mDns))
  | .ownerReturns => inferInstanceAs (Decidable (¬ _))
  | .expire _ => .isTrue trivial

/-- Requests that wait are seen to. -/
def Served (s : DnsSystem) : Prop :=
  s.looper.mItems ≠ [] → s.looper.mTimerCheck = true ∨ 0 < s.inside

/-- What holds at every moment. -/
structure Fair (s : DnsSystem) : Prop where
  served : s.Served
  /-- The timer removes what has been resolved. -/
  removed : ∀ r ∈ s.checked, r ∉ s.looper.requests
  once : (s.notices.map DnsNotice.request).Nodup
  /-- The owner is told an answer to the name it has asked for. -/
  named : ∀ n ∈ s.notices, s.names[n.request]? = some n.dns ∧ (n.dns, n.ip) ∈ s.answers

end DnsSystem

end CoreLooper
