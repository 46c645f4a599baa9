import CoreLooper.HandlerLifecycle

/-!
# What destruction keeps

`BM_DESTROY` reaches a handler once. A change of the tree in place, the end of an object and a new
object leave alone what the stack is about.
-/
namespace CoreLooper.HandlerLifecycle

open CStrings HandlerTree ParentForest Transitions

variable {s s' : State} {h c k : HandlerId}

theorem sendDestroy_mark (hk : s.mDestroyMarkCalled k = true) :
    (s.sendDestroy h).mDestroyMarkCalled k = true := by
  unfold State.sendDestroy
  split_ifs with hsend
  · by_cases hkh : k = h
    · subst hkh
      exact Function.update_self ..
    · exact (Function.update_of_ne hkh ..).trans hk
  · exact hk

theorem sendDestroy_told (hdelivered : delivered s.heap h = true) :
    (s.sendDestroy h).mDestroyMarkCalled h = true := by
  unfold State.sendDestroy
  by_cases hmark : s.mDestroyMarkCalled h = true
  · rw [if_neg (by simp [hmark])]
    exact hmark
  · rw [if_pos ⟨hdelivered, hmark⟩]
    exact Function.update_self ..

theorem sendDestroy_heap : (s.sendDestroy h).heap = s.heap := by
  unfold State.sendDestroy
  split_ifs <;> rfl

theorem Awaited.cons {stack : List Frame} {f : Frame} (h : Awaited stack k c) :
    Awaited (f :: stack) k c := by
  rcases h with ⟨iter, key, hframe, hitem⟩ | hframe
  · exact .inl ⟨iter, key, List.mem_cons_of_mem f hframe, hitem⟩
  · exact .inr (List.mem_cons_of_mem f hframe)

/-- `BM_DESTROY` reaches a handler once, and only after it was created. -/
theorem Logged.sendDestroy (hs : Logged s) (hhandler : s.isHandler h = true) :
    Logged (s.sendDestroy h) := by
  unfold State.sendDestroy
  split_ifs with hsend
  · obtain ⟨hdelivered, hmark⟩ := hsend
    have hcreated := hs.created h hhandler (Grown.created_of_delivered hhandler hdelivered)
    have hnew : Event.OnDestroy h ∉ s.log := fun hmem => hmark ((hs.marked_iff h).mpr hmem)
    constructor
    case old =>
      intro k hk
      have hk' : Event.OnCreate k ∈ s.log := by simpa using hk
      exact hs.old k hk'
    case created =>
      intro k hk hkc
      exact List.mem_append_left _ (hs.created k hk hkc)
    case created_once =>
      intro k
      have hcount : [Event.OnDestroy h].count (.OnCreate k) = 0 := List.count_eq_zero.mpr (by simp)
      rw [List.count_append, hcount]
      exact hs.created_once k
    case marked_iff =>
      intro k
      by_cases hkh : k = h
      · subst hkh
        simp
      · have hne : Event.OnDestroy k ∈ s.log ++ [.OnDestroy h] ↔ Event.OnDestroy k ∈ s.log := by
          simp [hkh]
        rw [hne, ← hs.marked_iff k]
        simp only [Function.update_of_ne hkh]
    case destroyed_once =>
      intro k
      rw [List.count_append]
      by_cases hkh : k = h
      · subst hkh
        rw [List.count_eq_zero.mpr hnew]
        simp
      · have hcount : [Event.OnDestroy h].count (.OnDestroy k) = 0 :=
          List.count_eq_zero.mpr (by simp [hkh])
        rw [hcount]
        exact hs.destroyed_once k
    case created_first =>
      intro k pre post heq
      rcases List.eq_nil_or_concat post with rfl | ⟨post', e, rfl⟩
      · -- the call is the last one of the log
        obtain ⟨rfl, hlast⟩ := List.append_inj' heq rfl
        rw [List.cons.injEq, Event.OnDestroy.injEq] at hlast
        rw [← hlast.1]
        exact hcreated
      · have hsplit : s.log ++ [Event.OnDestroy h] = (pre ++ .OnDestroy k :: post') ++ [e] := by
          refine heq.trans ?_
          rw [List.concat_eq_append, List.append_assoc, List.cons_append]
        exact hs.created_first k pre post' (List.append_inj' hsplit rfl).1
  · exact hs

theorem Staged.sendDestroy (hs : Staged s) : Staged (s.sendDestroy h) := by
  unfold State.sendDestroy
  split_ifs with hsend
  · constructor
    case begun =>
      intro k hk hlive
      by_cases hkh : k = h
      · subst hkh
        exact .inr List.mem_cons_self
      · have hmark : s.mDestroyMarkCalled k = true :=
          (Function.update_of_ne hkh true s.mDestroyMarkCalled).symm.trans hk
        exact (hs.begun k hmark hlive).imp id (List.mem_cons_of_mem _)
    case swept =>
      intro k c hk hframe hparent
      have hkh : k ≠ h := by
        rintro rfl
        exact hframe List.mem_cons_self
      have hmark : s.mDestroyMarkCalled k = true :=
        (Function.update_of_ne hkh true s.mDestroyMarkCalled).symm.trans hk
      refine (hs.swept k c hmark (fun hmem => hframe (List.mem_cons_of_mem _ hmem)) hparent).imp
        (fun hc => ?_) Awaited.cons
      by_cases hch : c = h
      · subst hch
        exact Function.update_self ..
      · exact (Function.update_of_ne hch ..).trans hc
    case marked =>
      intro k b hframe
      by_cases hkh : k = h
      · subst hkh
        exact Function.update_self ..
      · have hframe' : Frame.onDestroy k b ∈ s.stack := by simpa [hkh] using hframe
        exact (Function.update_of_ne hkh ..).trans (hs.marked k b hframe')
    case iter_old =>
      intro k iter item hframe hitem
      have hframe' : Frame.children k iter ∈ s.stack := by simpa using hframe
      exact hs.iter_old k iter item hframe' hitem
    case iter_children =>
      intro k iter item d hframe hitem hd
      have hframe' : Frame.children k iter ∈ s.stack := by simpa using hframe
      exact hs.iter_children k iter item d hframe' hitem hd
    case added_created =>
      intro k b hframe
      have hframe' : Frame.added k b ∈ s.stack := by simpa using hframe
      exact hs.added_created k b hframe'
  · exact hs

theorem Inv.sendDestroy (hs : Inv s) (hhandler : s.isHandler h = true) : Inv (s.sendDestroy h) :=
  ⟨hs.grown.congr sendDestroy_heap, hs.logged.sendDestroy hhandler, hs.staged.sendDestroy⟩

/-- A change of the stack that takes away no frame that is still waited for. -/
theorem Staged.restack (hs : Staged s) {stack : List Frame}
    (hbase : ∀ k, .onDestroy k false ∈ s.stack ↔ .onDestroy k false ∈ stack)
    (hawaited : ∀ k c, Awaited s.stack k c → s.heap.parentOf c = some k →
      s.mDestroyMarkCalled c = true ∨ Awaited stack k c)
    (hmarked : ∀ k b, .onDestroy k b ∈ stack → .onDestroy k b ∈ s.stack)
    (hiter : ∀ k iter item, .children k iter ∈ stack → item ∈ iter →
      ∃ iter', .children k iter' ∈ s.stack ∧ item ∈ iter')
    (hadded : ∀ c b, .added c b ∈ stack → .added c b ∈ s.stack) :
    Staged { s with stack := stack } where
  begun k hk hlive := (hs.begun k hk hlive).imp id (hbase k).mp
  swept k c hk hframe hparent := by
    rcases hs.swept k c hk (fun hmem => hframe ((hbase k).mp hmem)) hparent with hc | hc
    · exact .inl hc
    · exact hawaited k c hc hparent
  marked k b hframe := hs.marked k b (hmarked k b hframe)
  iter_old k iter item hframe hitem := by
    obtain ⟨iter', hframe', hitem'⟩ := hiter k iter item hframe hitem
    exact hs.iter_old k iter' item hframe' hitem'
  iter_children k iter item d hframe hitem hd := by
    obtain ⟨iter', hframe', hitem'⟩ := hiter k iter item hframe hitem
    exact hs.iter_children k iter' item d hframe' hitem' hd
  added_created c b hframe := hs.added_created c b (hadded c b hframe)

section Views
variable (hk : s'.heap.handlers k = s.heap.handlers k)
include hk

theorem isHandler_congr : s'.isHandler k = s.isHandler k := by
  rw [State.isHandler, hk, State.isHandler]

theorem isCreated_congr : s'.isCreated k = s.isCreated k := by
  rw [State.isCreated, hk, State.isCreated]

theorem isDestroyed_congr : s'.isDestroyed k = s.isDestroyed k := by
  rw [State.isDestroyed, hk, State.isDestroyed]

end Views

/-- A change of one object that keeps what the invariant is about. -/
theorem Inv.inPlace (hs : Inv s) {f : TagHandlerInternalData → TagHandlerInternalData}
    (hok : (s.heap.modify h f).Ok) (hlooper : ∀ d, (f d).mIsLooper = d.mIsLooper)
    (hrun : ∀ d, (f d).mLooperRunning = d.mLooperRunning)
    (hcreated : ∀ d, (f d).mCreated = d.mCreated) (hbound : ∀ d, (f d).mLooper = d.mLooper)
    (hparent : ∀ d, (f d).mParent = d.mParent) (haddress : ∀ d, (f d).mHandler = d.mHandler)
    (hdestroy : ∀ d, d.mDestroy = true → (f d).mDestroy = true) :
    Inv { s with heap := s.heap.modify h f } := by
  have hhandlers : State.isHandler { s with heap := s.heap.modify h f } = s.isHandler := by
    funext k
    exact congrArg (Option.getD · false) (map_modify (fun d => by rw [hlooper]) k)
  have hcreateds : State.isCreated { s with heap := s.heap.modify h f } = s.isCreated := by
    funext k
    exact congrArg (Option.getD · false) (map_modify hcreated k)
  have hparents : (s.heap.modify h f).parentOf = s.heap.parentOf := parentOf_modify hparent
  constructor
  case grown =>
    constructor
    case ok => exact hok
    case looper_root => rw [hparents]; exact hs.grown.looper_root
    case looper_runs => exact (map_modify hrun _).trans hs.grown.looper_runs
    case handler_iff =>
      intro k
      rw [hhandlers, isSome_modify]
      exact hs.grown.handler_iff k
    case created_iff =>
      rw [hhandlers, hcreateds, hparents]
      exact hs.grown.created_iff
    case bound =>
      intro k hk hkc
      rw [hhandlers] at hk
      rw [hcreateds] at hkc
      exact (map_modify hbound k).trans (hs.grown.bound k hk hkc)
  case logged =>
    constructor
    case old => rw [hhandlers, hcreateds]; exact hs.logged.old
    case created => rw [hhandlers, hcreateds]; exact hs.logged.created
    case created_once => exact hs.logged.created_once
    case marked_iff => exact hs.logged.marked_iff
    case destroyed_once => exact hs.logged.destroyed_once
    case created_first => exact hs.logged.created_first
  case staged =>
    constructor
    case begun =>
      intro k hk hlive
      rw [isSome_modify] at hlive
      refine (hs.staged.begun k hk hlive).imp (fun hd => ?_) id
      obtain ⟨d, hd, hdestroyed⟩ := isDestroyed_iff.mp hd
      by_cases hkh : k = h
      · subst hkh
        refine isDestroyed_iff.mpr ⟨f d, ?_, hdestroy d hdestroyed⟩
        rw [Heap.modify_self, hd]
        rfl
      · exact isDestroyed_iff.mpr ⟨d, (Heap.modify_of_ne hkh).trans hd, hdestroyed⟩
    case swept =>
      rw [hparents]
      exact hs.staged.swept
    case marked => exact hs.staged.marked
    case iter_old => exact hs.staged.iter_old
    case iter_children =>
      intro k iter item d' hframe hitem hd'
      obtain ⟨d, hd, rfl⟩ := Heap.modify_eq_some hd'
      have hplace := hs.staged.iter_children k iter item d hframe hitem hd
      split_ifs
      · rwa [hparent, haddress]
      · exact hplace
    case added_created =>
      rw [hhandlers, hcreateds]
      exact hs.staged.added_created

/-- An object ends, or a new one begins. -/
theorem Inv.replace (hs : Inv s) {heap : Heap} {v : Option TagHandlerInternalData}
    (hok : heap.Ok) (hheap : heap.handlers = Function.update s.heap.handlers h v)
    (hnext : s.heap.next ≤ heap.next) (hroot : h ≠ looper)
    (hframe : ∀ b, .added h b ∉ s.stack)
    (hnew : ∀ d, v = some d → d.mIsLooper = false ∧ d.mCreated = false ∧ d.mParent = none ∧
      s.heap.next ≤ h) : Inv { s with heap := heap } := by
  have hself : heap.handlers h = v := by rw [hheap, Function.update_self]
  have hrest : ∀ {k}, k ≠ h → heap.handlers k = s.heap.handlers k :=
    fun hne => by rw [hheap, Function.update_of_ne hne]
  have hhandler : ∀ {k}, k ≠ h → State.isHandler { s with heap := heap } k = s.isHandler k :=
    fun hne => isHandler_congr (hrest hne)
  have hcreated : ∀ {k}, k ≠ h → State.isCreated { s with heap := heap } k = s.isCreated k :=
    fun hne => isCreated_congr (hrest hne)
  have hparent : ∀ {k}, k ≠ h → heap.parentOf k = s.heap.parentOf k := fun hne => by
    rw [Heap.parentOf, hrest hne, Heap.parentOf]
  -- the object is not created and has no parent
  have huncreated : State.isCreated { s with heap := heap } h = false := by
    rw [State.isCreated, hself]
    cases hv : v with
    | none => rfl
    | some d => exact (hnew d hv).2.1
  have horphan : heap.parentOf h = none := by
    rw [Heap.parentOf, hself]
    cases hv : v with
    | none => rfl
    | some d => exact (hnew d hv).2.2.1
  have hborn : (heap.handlers h).isSome → s.heap.next ≤ h := by
    intro hlive
    rw [hself] at hlive
    obtain ⟨d, hd⟩ := Option.isSome_iff_exists.mp hlive
    exact (hnew d hd).2.2.2
  constructor
  case grown =>
    constructor
    case ok => exact hok
    case looper_root => exact (hparent hroot.symm).trans hs.grown.looper_root
    case looper_runs =>
      exact (congrArg (Option.map _) (hrest hroot.symm)).trans hs.grown.looper_runs
    case handler_iff =>
      intro k
      by_cases hkh : k = h
      · subst hkh
        rw [State.isHandler, hself]
        cases hv : v with
        | none => simp
        | some d => simp [(hnew d hv).1, hroot]
      · rw [hhandler hkh, hs.grown.handler_iff, ← hrest hkh]
    case created_iff =>
      intro k hk
      by_cases hkh : k = h
      · subst hkh
        rw [huncreated, horphan]
        simp
      · rw [hhandler hkh] at hk
        rw [hcreated hkh, hparent hkh]
        exact hs.grown.created_iff k hk
    case bound =>
      intro k hk hkc
      by_cases hkh : k = h
      · subst hkh
        rw [huncreated] at hkc
        cases hkc
      · rw [hhandler hkh] at hk
        rw [hcreated hkh] at hkc
        rw [hrest hkh]
        exact hs.grown.bound k hk hkc
  case logged =>
    constructor
    case old =>
      intro k hmem
      obtain ⟨hlt, hkc⟩ := hs.logged.old k hmem
      refine ⟨Nat.lt_of_lt_of_le hlt hnext, fun hk => ?_⟩
      by_cases hkh : k = h
      · subst hkh
        obtain ⟨d, hd, -⟩ := isHandler_iff.mp hk
        have hle := hborn (by rw [hd]; rfl)
        exact absurd hlt (Nat.not_lt.mpr hle)
      · rw [hhandler hkh] at hk
        rw [hcreated hkh]
        exact hkc hk
    case created =>
      intro k hk hkc
      by_cases hkh : k = h
      · subst hkh
        rw [huncreated] at hkc
        cases hkc
      · rw [hhandler hkh] at hk
        rw [hcreated hkh] at hkc
        exact hs.logged.created k hk hkc
    case created_once => exact hs.logged.created_once
    case marked_iff => exact hs.logged.marked_iff
    case destroyed_once => exact hs.logged.destroyed_once
    case created_first => exact hs.logged.created_first
  case staged =>
    constructor
    case begun =>
      intro k hk hlive
      by_cases hkh : k = h
      · subst hkh
        obtain ⟨pre, post, hsplit⟩ := List.append_of_mem ((hs.logged.marked_iff k).mp hk)
        have hcreate := hs.logged.created_first k pre post hsplit
        have hlt := (hs.logged.old k (by rw [hsplit]; exact List.mem_append_left _ hcreate)).1
        exact absurd hlt (Nat.not_lt.mpr (hborn hlive))
      · rw [hrest hkh] at hlive
        exact (hs.staged.begun k hk hlive).imp
          (fun hd => (isDestroyed_congr (hrest hkh)).trans hd) id
    case swept =>
      intro k c hk hbase hc
      by_cases hch : c = h
      · subst hch
        rw [horphan] at hc
        cases hc
      · rw [hparent hch] at hc
        exact hs.staged.swept k c hk hbase hc
    case marked => exact hs.staged.marked
    case iter_old =>
      intro k iter item hmem hitem
      exact Nat.lt_of_lt_of_le (hs.staged.iter_old k iter item hmem hitem) hnext
    case iter_children =>
      intro k iter item d hmem hitem hd
      by_cases hch : item.2 = h
      · have hlt := hs.staged.iter_old k iter item hmem hitem
        rw [hch] at hd hlt
        exact absurd hlt (Nat.not_lt.mpr (hborn (by rw [hd]; rfl)))
      · rw [hrest hch] at hd
        exact hs.staged.iter_children k iter item d hmem hitem hd
    case added_created =>
      intro c b hmem
      have hch : c ≠ h := by
        rintro rfl
        exact hframe b hmem
      rw [hhandler hch, hcreated hch]
      exact hs.staged.added_created c b hmem

end CoreLooper.HandlerLifecycle
