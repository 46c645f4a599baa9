import CoreLooper.ParentForest
import CoreLooper.TextSeparator
import CoreLooper.Transitions

/-!
# The tree of handlers

A handler holds its parent by a `shared_ptr` and its children by weak pointers in an
`unordered_map` under their addresses. Addresses are used again; a weak pointer, here the
number of the object, never finds another object than its own. The order of the map's items
is an input of the steps.

`Destroy` and the callbacks around it touch the tree only in small steps of their own: an
object is marked, an expired item is erased, a handler is told `BM_CREATE`. These may come
in any order here, so that every run of the callbacks is among the runs.
-/
namespace CoreLooper.HandlerTree

open CStrings TextSeparator

/-- An object with its control block. -/
abbrev HandlerId := ℕ

section UnorderedMap
variable {κ ν : Type*} [DecidableEq κ]

/-- `items[key] = value`. -/
def insertItem (items : List (κ × ν)) (key : κ) (value : ν) : List (κ × ν) :=
  (key, value) :: items.filter (·.1 ≠ key)

def findItem (items : List (κ × ν)) (key : κ) : Option ν :=
  (items.find? (·.1 = key)).map (·.2)

def eraseItem (items : List (κ × ν)) (key : κ) : List (κ × ν) := items.filter (·.1 ≠ key)

theorem mem_insertItem {items : List (κ × ν)} {key : κ} {value : ν} {item : κ × ν} :
    item ∈ insertItem items key value ↔
      item = (key, value) ∨ item ∈ items ∧ item.1 ≠ key := by
  simp [insertItem]

theorem mem_eraseItem {items : List (κ × ν)} {key : κ} {item : κ × ν} :
    item ∈ eraseItem items key ↔ item ∈ items ∧ item.1 ≠ key := by
  simp [eraseItem]

theorem mem_of_findItem {items : List (κ × ν)} {key : κ} {value : ν}
    (h : findItem items key = some value) : (key, value) ∈ items := by
  obtain ⟨item, hfind, rfl⟩ := Option.map_eq_some_iff.mp h
  have hkey := List.find?_some hfind
  rw [decide_eq_true_iff] at hkey
  rw [← hkey]
  exact List.mem_of_find?_eq_some hfind

end UnorderedMap

/-- `mHandler` is the object's address. An empty `mCacheChilds` is the null pointer too. -/
structure TagHandlerInternalData where
  mHandler : ℕ
  mObjectName : Bytes := []
  mThreadId : ℕ := 0
  mLooper : Option HandlerId := none
  mParent : Option HandlerId := none
  mChildren : List (ℕ × HandlerId) := []
  mCacheChilds : List (Bytes × HandlerId) := []
  mCreated : Bool := false
  mDestroy : Bool := false
  mIsLooper : Bool := false
  mLooperRunning : Bool := false

/-- The objects that live, and the number of the next one. -/
structure Heap where
  handlers : HandlerId → Option TagHandlerInternalData
  next : HandlerId

namespace Heap

def empty : Heap := ⟨fun _ => none, 0⟩

def modify (s : Heap) (h : HandlerId) (f : TagHandlerInternalData → TagHandlerInternalData) :
    Heap :=
  { s with handlers := Function.update s.handlers h ((s.handlers h).map f) }

def parentOf (s : Heap) (h : HandlerId) : Option HandlerId :=
  (s.handlers h).bind (·.mParent)

variable {s : Heap} {h k : HandlerId} {f : TagHandlerInternalData → TagHandlerInternalData}

@[simp] theorem modify_next : (s.modify h f).next = s.next := rfl

theorem modify_self : (s.modify h f).handlers h = (s.handlers h).map f :=
  Function.update_self ..

theorem modify_of_ne (hne : k ≠ h) : (s.modify h f).handlers k = s.handlers k :=
  Function.update_of_ne hne ..

/-- A handler after the change is a handler from before, changed if it is the one. -/
theorem modify_eq_some {d' : TagHandlerInternalData}
    (hlive : (s.modify h f).handlers k = some d') :
    ∃ d, s.handlers k = some d ∧ d' = if k = h then f d else d := by
  by_cases hkh : k = h
  · subst hkh
    rw [modify_self] at hlive
    obtain ⟨d, hd, rfl⟩ := Option.map_eq_some_iff.mp hlive
    exact ⟨d, hd, by rw [if_pos rfl]⟩
  · rw [modify_of_ne hkh] at hlive
    exact ⟨d', hlive, by rw [if_neg hkh]⟩

end Heap

/-- Whether `sendMessage` to a handler arrives: a looper has to run, another handler has to
be created and to have a running looper. -/
def delivered (s : Heap) (h : HandlerId) : Bool :=
  match s.handlers h with
  | none => false
  | some d =>
      if d.mIsLooper then d.mLooperRunning
      else d.mCreated && ((d.mLooper.bind s.handlers).map (·.mLooperRunning)).getD false

/-- What `AddChildHelper` writes to the child. -/
def adopt (mHandler : HandlerId) (mThreadId : ℕ) (name : Bytes) (current : Option HandlerId)
    (child : TagHandlerInternalData) : TagHandlerInternalData :=
  { child with
    mObjectName := if name = [] then child.mObjectName else name
    mThreadId := if child.mIsLooper then child.mThreadId else mThreadId
    mLooper := if child.mIsLooper then child.mLooper else current
    mParent := some mHandler }

/-- `current` is the looper of the thread; `BM_CREATE` and `Destroy` of the child come after
this as steps of their own, so that only their result 0 shows here. -/
def addChildHelper (s : Heap) (mHandler wpChild : HandlerId) (name : Bytes)
    (current : Option HandlerId) (order : List (ℕ × HandlerId)) : ℤ × Heap :=
  match s.handlers mHandler, s.handlers wpChild with
  | some data, some child =>
      if child.mParent.isSome ∨ ¬ child.mIsLooper ∧ child.mCreated then (-1, s)
      else
        (if child.mIsLooper then -1 else 0,
          (s.modify wpChild (adopt mHandler data.mThreadId name current)).modify mHandler
            fun data => { data with mChildren := order })
  | _, _ => (-1, s)

/-- `Handler::AddChild` on the thread `tid`. -/
def addChild (s : Heap) (mHandler child : HandlerId) (name : Bytes) (tid : ℕ)
    (current : Option HandlerId) (order : List (ℕ × HandlerId)) : ℤ × Heap :=
  if (s.handlers mHandler).map (·.mThreadId) = some tid ∨ delivered s mHandler then
    addChildHelper s mHandler child name current order
  else (0, s)

/-- The items after `mChildren[child] = wpChild`, in some order. -/
def orderOk (s : Heap) (mHandler child : HandlerId) (order : List (ℕ × HandlerId)) : Bool :=
  match s.handlers mHandler, s.handlers child with
  | some data, some c => order.isPerm (insertItem data.mChildren c.mHandler child)
  | _, _ => true

/-- Whether the item's child lives and has the name. -/
def isNamed (s : Heap) (name : Bytes) (item : ℕ × HandlerId) : Bool :=
  match s.handlers item.2 with
  | none => false
  | some child => child.mObjectName = name

def getChild (s : Heap) (h : HandlerId) (name : Bytes) (afterHandler : Option HandlerId) :
    Option HandlerId :=
  match s.handlers h with
  | none => none
  | some d =>
      if ¬ d.mCreated then none
      else
        (d.mChildren.find? fun item =>
          (afterHandler = none ∨ afterHandler = some item.2) ∧ isNamed s name item).map (·.2)

/-- The name and the token of `name[token]`. -/
def bracket (item : Bytes) : Option (Bytes × Bytes) :=
  match strstr item (ascii "[") with
  | none => none
  | some pos1 =>
      match strstr (item.drop pos1) (ascii "]") with
      | none => none
      | some pos2 => some (item.take pos1, (item.drop (pos1 + 1)).take (pos2 - 1))

/-- One item of a url, looked up below `obj`. `mapChild` is the virtual function of handlers. -/
def walkItem (s : Heap) (mapChild : HandlerId → Bytes → Option HandlerId) (obj : HandlerId)
    (item : Bytes) : Option HandlerId :=
  match bracket item with
  | some (name, token) =>
      match getChild s obj name none with
      | none => none
      | some root => mapChild root token
  | none => getChild s obj item none

/-- The loop of `FindObject_Impl` over the items of the url. -/
def walk (s : Heap) (mapChild : HandlerId → Bytes → Option HandlerId) (mHandler : HandlerId) :
    Option HandlerId → List Bytes → Option HandlerId
  | obj, [] => obj
  | obj, item :: rest =>
      match walkItem s mapChild (obj.getD mHandler) item with
      | none => none
      | some child => walk s mapChild mHandler (some child) rest

def directChild (url : Bytes) : Bool := 47 ∉ url

/-- The cached child, if it lives and still has the name. -/
def cachedChild (s : Heap) (d : TagHandlerInternalData) (url : Bytes) : Option HandlerId :=
  match findItem d.mCacheChilds url with
  | none => none
  | some obj =>
      match s.handlers obj with
      | none => none
      | some data => if data.mObjectName = url then some obj else none

def findObject_Impl (s : Heap) (h : HandlerId) (url : Bytes)
    (mapChild : HandlerId → Bytes → Option HandlerId) : Option HandlerId × Heap :=
  match (if directChild url then (s.handlers h).bind (cachedChild s · url) else none) with
  | some obj => (some obj, s)
  | none =>
      match walk s mapChild h none (items (cstr url) (ascii "/")) with
      | none => (none, s)
      | some obj =>
          (some obj,
            if directChild url then
              s.modify h fun d => { d with mCacheChilds := insertItem d.mCacheChilds url obj }
            else s)

/-- `Handler::FindObject`, on the handler's thread. -/
def findObject (s : Heap) (h : HandlerId) (url : Bytes)
    (mapChild : HandlerId → Bytes → Option HandlerId) : Option HandlerId × Heap :=
  match s.handlers h with
  | none => (none, s)
  | some d => if ¬ d.mCreated then (none, s) else findObject_Impl s h url mapChild

inductive Act where
  | construct (this : ℕ) (mIsLooper : Bool) (name : Bytes)
  | setObjectName (h : HandlerId) (name : Bytes)
  | addChild (h child : HandlerId) (name : Bytes) (tid : ℕ) (current : Option HandlerId)
      (order : List (ℕ × HandlerId))
  /-- `BM_CREATE` arrives. -/
  | create (h : HandlerId)
  /-- A looper starts on a thread, or has left its `Run`. -/
  | start (h : HandlerId) (tid : ℕ)
  | stop (h : HandlerId)
  | markDestroyed (h : HandlerId)
  /-- A loop over the children finds an expired item. -/
  | eraseExpired (h : HandlerId) (key : ℕ)
  | findObject (h : HandlerId) (url : Bytes) (mapChild : HandlerId → Bytes → Option HandlerId)
  /-- Nobody holds the object any more. -/
  | dtor (h : HandlerId)

/-- `BM_CHILD_DTOR`, if it arrives, and the end of the object. -/
def dtor (s : Heap) (h : HandlerId) (d : TagHandlerInternalData) : Heap :=
  let s' := match d.mParent with
    | none => s
    | some p =>
        if delivered s p then
          s.modify p fun data => { data with mChildren := eraseItem data.mChildren d.mHandler }
        else s
  { s' with handlers := Function.update s'.handlers h none }

/-- A step that the state does not allow has no result. -/
def step (s : Heap) : Act → Option Heap
  | .construct this mIsLooper name =>
      if (List.range s.next).all fun h => (s.handlers h).map (·.mHandler) ≠ some this then
        some ⟨Function.update s.handlers s.next
          (some { mHandler := this, mObjectName := name, mIsLooper := mIsLooper }), s.next + 1⟩
      else none
  | .setObjectName h name =>
      if (s.handlers h).isSome then some (s.modify h fun d => { d with mObjectName := name })
      else none
  | .addChild h child name tid current order =>
      if (s.handlers h).isSome ∧ tid ≠ 0 ∧ orderOk s h child order then
        some (addChild s h child name tid current order).2
      else none
  | .create h =>
      match s.handlers h with
      | none => none
      | some d =>
          if d.mIsLooper ∨ d.mLooper.isSome then some (s.modify h ({ · with mCreated := true }))
          else none
  | .start h tid =>
      match s.handlers h with
      | none => none
      | some d =>
          if d.mIsLooper then
            some (s.modify h
              ({ · with mThreadId := tid, mCreated := true, mLooperRunning := true }))
          else none
  | .stop h =>
      if (s.handlers h).isSome then some (s.modify h ({ · with mLooperRunning := false }))
      else none
  | .markDestroyed h =>
      if (s.handlers h).isSome then some (s.modify h ({ · with mDestroy := true })) else none
  | .eraseExpired h key =>
      match s.handlers h with
      | none => none
      | some d =>
          if d.mChildren.all fun item => item.1 ≠ key ∨ (s.handlers item.2).isNone then
            some (s.modify h fun d => { d with mChildren := eraseItem d.mChildren key })
          else none
  | .findObject h url mapChild =>
      if (s.handlers h).isSome then some (findObject s h url mapChild).2 else none
  | .dtor h =>
      match s.handlers h with
      | none => none
      | some d =>
          if (List.range s.next).all fun k => s.parentOf k ≠ some h then some (dtor s h d)
          else none

end CoreLooper.HandlerTree
