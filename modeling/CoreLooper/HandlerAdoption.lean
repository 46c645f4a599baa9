import CoreLooper.HandlerMarks

/-!
# A child is hung below a handler

`AddChild` creates the child at once. Where the handler is already marked as destroyed the child
is destroyed behind that, and a walk over the children that is under way may or may not come to
it.
-/
namespace CoreLooper.HandlerLifecycle

open CStrings HandlerTree ParentForest Transitions

variable {s s' : State} {h c k : HandlerId}

section Hang
variable {data child : TagHandlerInternalData} {name : Bytes} {tid : ℕ}
  {order iter : List (ℕ × HandlerId)}

/-- The heap behind `BM_CREATE` of a child that was hung below `h`. -/
def hung (heap : Heap) (h c : HandlerId) (name : Bytes) (tid : ℕ)
    (order : List (ℕ × HandlerId)) : Heap :=
  (heap.attach h c name tid (some looper) order).modify c ({ · with mCreated := true })

theorem map_hung {α : Type*} {field : TagHandlerInternalData → α} {heap : Heap}
    (hadopt : ∀ d, field (adopt h tid name (some looper) d) = field d)
    (horder : ∀ d, field { d with mChildren := order } = field d)
    (hcreate : ∀ d, field { d with mCreated := true } = field d) (k : HandlerId) :
    ((hung heap h c name tid order).handlers k).map field = (heap.handlers k).map field :=
  (map_modify hcreate k).trans ((map_modify horder k).trans (map_modify hadopt k))

theorem map_hung_of_ne {α : Type*} {field : TagHandlerInternalData → α} {heap : Heap}
    (horder : ∀ d, field { d with mChildren := order } = field d) (hkc : k ≠ c) :
    ((hung heap h c name tid order).handlers k).map field = (heap.handlers k).map field := by
  rw [hung, Heap.modify_of_ne hkc, Heap.attach, map_modify horder, Heap.modify_of_ne hkc]

theorem parentOf_hung {heap : Heap} (hc : (heap.handlers c).isSome) :
    (hung heap h c name tid order).parentOf = Function.update heap.parentOf c (some h) := by
  have hcreate := @parentOf_modify (heap.attach h c name tid (some looper) order) c
    ({ · with mCreated := true }) fun _ => rfl
  exact hcreate.trans (Heap.parentOf_attach hc)

/-- The child itself: its looper is set, and it is created. -/
theorem hung_self {heap : Heap} (hc : heap.handlers c = some child)
    (hlooper : child.mIsLooper = false) :
    ∃ d, (hung heap h c name tid order).handlers c = some d ∧ d.mCreated = true ∧
      d.mLooper = some looper := by
  have hadopted : (heap.modify c (adopt h tid name (some looper))).handlers c =
      some (adopt h tid name (some looper) child) := by
    rw [Heap.modify_self, hc, Option.map_some]
  have hbound : (adopt h tid name (some looper) child).mLooper = some looper := by
    rw [adopt, hlooper]
    rfl
  obtain ⟨d, hd⟩ : ∃ d, (heap.attach h c name tid (some looper) order).handlers c = some d ∧
      d.mLooper = some looper := by
    rw [Heap.attach]
    by_cases hch : c = h
    · subst hch
      rw [Heap.modify_self, hadopted]
      exact ⟨_, rfl, hbound⟩
    · rw [Heap.modify_of_ne hch, hadopted]
      exact ⟨_, rfl, hbound⟩
  refine ⟨{ d with mCreated := true }, ?_, rfl, hd.2⟩
  rw [hung, Heap.modify_self, hd.1]
  rfl

theorem mem_resume {stack : List Frame} {f : Frame} (hf : ∀ items, f ≠ .children h items) :
    f ∈ stack.map (Frame.resume h iter) ↔ f ∈ stack := by
  rw [List.mem_map]
  constructor
  · rintro ⟨g, hg, rfl⟩
    cases g with
    | children k items =>
        by_cases hkh : k = h
        · subst hkh
          exact absurd rfl (hf (if k = k then iter else items))
        · rwa [Frame.resume, if_neg hkh]
    | _ => exact hg
  · intro hmem
    refine ⟨f, hmem, ?_⟩
    cases f with
    | children k items =>
        have hkh : k ≠ h := by
          rintro rfl
          exact hf items rfl
        rw [Frame.resume, if_neg hkh]
    | _ => rfl

/-- A walk over the children of `h` goes on with the items it is given. -/
theorem children_resume {stack : List Frame} {items : List (ℕ × HandlerId)} :
    Frame.children h items ∈ stack.map (Frame.resume h iter) ↔
      items = iter ∧ ∃ items', Frame.children h items' ∈ stack := by
  rw [List.mem_map]
  constructor
  · rintro ⟨g, hg, heq⟩
    cases g with
    | children k items' =>
        rw [Frame.resume, Frame.children.injEq] at heq
        obtain ⟨rfl, hitems⟩ := heq
        rw [if_pos rfl] at hitems
        exact ⟨hitems.symm, items', hg⟩
    | _ => cases heq
  · rintro ⟨rfl, items', hmem⟩
    exact ⟨_, hmem, by rw [Frame.resume, if_pos rfl]⟩

/-- The walk has to visit what it had to visit before, and perhaps the new child. -/
theorem iterOk_mem (hok : s.iterOk h c iter = true) (hc : s.heap.handlers c = some child)
    {items : List (ℕ × HandlerId)} (hmem : .children h items ∈ s.stack) :
    (∀ item ∈ items, item.1 ≠ child.mHandler → item ∈ iter) ∧
      ∀ item ∈ iter, item = (child.mHandler, c) ∨ item ∈ items := by
  have hframe := List.all_eq_true.mp hok _ hmem
  simp only [hc, ne_eq, not_true_eq_false, decide_false, Bool.false_or, Bool.or_eq_true,
    List.isPerm_iff] at hframe
  rcases hframe with hperm | hperm
  · constructor
    · exact fun item hitem hne => hperm.mem_iff.mpr (mem_eraseItem.mpr ⟨hitem, hne⟩)
    · exact fun item hitem => .inr (mem_eraseItem.mp (hperm.mem_iff.mp hitem)).1
  · constructor
    · exact fun item hitem hne => hperm.mem_iff.mpr (mem_insertItem.mpr (.inr ⟨hitem, hne⟩))
    · exact fun item hitem => (mem_insertItem.mp (hperm.mem_iff.mp hitem)).imp id (·.1)

/-- What `AddChild` does where it hangs the child `c` below `h`. -/
structure Hung (s s' : State) (h c : HandlerId) (iter : List (ℕ × HandlerId)) : Prop where
  isHandler : s'.isHandler = s.isHandler
  isDestroyed : s'.isDestroyed = s.isDestroyed
  isCreated_self : s'.isCreated c = true
  isCreated_of_ne : ∀ {k}, k ≠ c → s'.isCreated k = s.isCreated k
  parentOf : s'.heap.parentOf = Function.update s.heap.parentOf c (some h)
  isSome : ∀ k, (s'.heap.handlers k).isSome = (s.heap.handlers k).isSome
  runs : (s'.heap.handlers looper).map (·.mLooperRunning) =
    (s.heap.handlers looper).map (·.mLooperRunning)
  bound_self : (s'.heap.handlers c).map (·.mLooper) = some (some looper)
  bound_of_ne : ∀ {k}, k ≠ c → (s'.heap.handlers k).map (·.mLooper) =
    (s.heap.handlers k).map (·.mLooper)
  next : s'.heap.next = s.heap.next
  address : ∀ k, (s'.heap.handlers k).map (·.mHandler) = (s.heap.handlers k).map (·.mHandler)
  mark : s'.mDestroyMarkCalled = s.mDestroyMarkCalled
  stack : s'.stack =
    .onCreate c :: .added c (s.isDestroyed h) :: s.stack.map (Frame.resume h iter)
  log : s'.log = s.log ++ [.OnCreate c]

theorem hung_spec (hc : s.heap.handlers c = some child) (hlooper : child.mIsLooper = false) :
    Hung s
      { s with
        heap := hung s.heap h c name tid order
        mSelfRef := Function.update s.mSelfRef c true
        stack := .onCreate c :: .added c (s.isDestroyed h) :: s.stack.map (Frame.resume h iter)
        log := s.log ++ [.OnCreate c] } h c iter := by
  obtain ⟨d, hd, hcreated, hbound⟩ := @hung_self h c child name tid order s.heap hc hlooper
  constructor
  case isHandler =>
    funext k
    exact congrArg (Option.getD · false)
      (map_hung (fun _ => rfl) (fun _ => rfl) (fun _ => rfl) k)
  case isDestroyed =>
    funext k
    exact congrArg (Option.getD · false)
      (map_hung (fun _ => rfl) (fun _ => rfl) (fun _ => rfl) k)
  case isCreated_self => exact isCreated_iff.mpr ⟨d, hd, hcreated⟩
  case isCreated_of_ne =>
    intro k hkc
    exact congrArg (Option.getD · false) (map_hung_of_ne (fun _ => rfl) hkc)
  case parentOf => exact parentOf_hung (by rw [hc]; rfl)
  case isSome =>
    intro k
    have hmap := @map_hung h c name tid order Unit (fun _ => ()) s.heap
      (fun _ => rfl) (fun _ => rfl) (fun _ => rfl) k
    simpa using congrArg Option.isSome hmap
  case runs => exact map_hung (fun _ => rfl) (fun _ => rfl) (fun _ => rfl) _
  case bound_self => exact (congrArg (Option.map _) hd).trans (congrArg some hbound)
  case bound_of_ne => exact fun hkc => map_hung_of_ne (fun _ => rfl) hkc
  case next => rfl
  case address => exact fun k => map_hung (fun _ => rfl) (fun _ => rfl) (fun _ => rfl) k
  case mark => rfl
  case stack => rfl
  case log => rfl

/-- A handler without a parent is new to the log. -/
theorem Inv.not_mem_log (hs : Inv s) (hhandler : s.isHandler c = true)
    (horphan : s.heap.parentOf c = none) : Event.OnCreate c ∉ s.log := by
  intro hmem
  have hcreated := (hs.grown.created_iff c hhandler).mp ((hs.logged.old c hmem).2 hhandler)
  rw [horphan] at hcreated
  cases hcreated

variable (hh : Hung s s' h c iter) (hhandler : s.isHandler c = true)
  (horphan : s.heap.parentOf c = none)
include hh hhandler

theorem Grown.hang (hs : Grown s) (hok : s'.heap.Ok) : Grown s' where
  ok := hok
  looper_root := by
    have hne := ((hs.handler_iff c).mp hhandler).2
    rw [hh.parentOf, Function.update_of_ne hne.symm]
    exact hs.looper_root
  looper_runs := hh.runs.trans hs.looper_runs
  handler_iff k := by
    rw [hh.isHandler, hh.isSome]
    exact hs.handler_iff k
  created_iff k hk := by
    rw [hh.isHandler] at hk
    by_cases hkc : k = c
    · subst hkc
      rw [hh.isCreated_self, hh.parentOf, Function.update_self]
      simp
    · rw [hh.isCreated_of_ne hkc, hh.parentOf, Function.update_of_ne hkc]
      exact hs.created_iff k hk
  bound k hk hcreated := by
    rw [hh.isHandler] at hk
    by_cases hkc : k = c
    · subst hkc
      exact hh.bound_self
    · rw [hh.isCreated_of_ne hkc] at hcreated
      exact (hh.bound_of_ne hkc).trans (hs.bound k hk hcreated)

include horphan in
theorem Logged.hang (hs : Inv s) : Logged s' := by
  have hnew := hs.not_mem_log hhandler horphan
  obtain ⟨hgrown, hlogged, -⟩ := hs
  have hold : ∀ {e : Event}, e ≠ .OnCreate c → (e ∈ s'.log ↔ e ∈ s.log) := by
    intro e he
    rw [hh.log]
    simp [he]
  constructor
  case old =>
    intro k hk
    rw [hh.next, hh.isHandler]
    by_cases hkc : k = c
    · subst hkc
      obtain ⟨d, hd, -⟩ := isHandler_iff.mp hhandler
      exact ⟨hgrown.ok.fresh hd, fun _ => hh.isCreated_self⟩
    · rw [hh.isCreated_of_ne hkc]
      exact hlogged.old k ((hold (by simpa using hkc)).mp hk)
  case created =>
    intro k hk hcreated
    by_cases hkc : k = c
    · subst hkc
      rw [hh.log]
      exact List.mem_append_right _ List.mem_cons_self
    · rw [hh.isHandler] at hk
      rw [hh.isCreated_of_ne hkc] at hcreated
      exact (hold (by simpa using hkc)).mpr (hlogged.created k hk hcreated)
  case created_once =>
    intro k
    rw [hh.log, List.count_append]
    by_cases hkc : k = c
    · subst hkc
      rw [List.count_eq_zero.mpr hnew]
      simp
    · have hcount : [Event.OnCreate c].count (.OnCreate k) = 0 :=
        List.count_eq_zero.mpr (by simp [hkc])
      rw [hcount]
      exact hlogged.created_once k
  case marked_iff =>
    intro k
    rw [hh.mark, hold (by simp)]
    exact hlogged.marked_iff k
  case destroyed_once =>
    intro k
    have hcount : [Event.OnCreate c].count (.OnDestroy k) = 0 := List.count_eq_zero.mpr (by simp)
    rw [hh.log, List.count_append, hcount]
    exact hlogged.destroyed_once k
  case created_first =>
    intro k pre post heq
    rw [hh.log] at heq
    rcases List.eq_nil_or_concat post with rfl | ⟨post', e, rfl⟩
    · have hlast := (List.append_inj' heq rfl).2
      cases hlast
    · have hsplit : s.log ++ [Event.OnCreate c] = (pre ++ .OnDestroy k :: post') ++ [e] := by
        refine heq.trans ?_
        rw [List.concat_eq_append, List.append_assoc, List.cons_append]
      exact hlogged.created_first k pre post' (List.append_inj' hsplit rfl).1

include horphan in
theorem Staged.hang (hs : Inv s) (hiter : s.iterOk h c iter = true)
    (hlive : (s.heap.handlers h).isSome) : Staged s' := by
  obtain ⟨child, hc, -⟩ := isHandler_iff.mp hhandler
  obtain ⟨hgrown, -, hstaged⟩ := hs
  have hframe : ∀ {f : Frame}, (∀ items, f ≠ .children h items) →
      (f ∈ s'.stack ↔ f = .onCreate c ∨ f = .added c (s.isDestroyed h) ∨ f ∈ s.stack) := by
    intro f hf
    rw [hh.stack, List.mem_cons, List.mem_cons, mem_resume hf]
  have hbase : ∀ {k}, .onDestroy k false ∈ s'.stack ↔ .onDestroy k false ∈ s.stack := by
    intro k
    rw [hframe (by simp)]
    simp
  have hitems : ∀ {k items item}, .children k items ∈ s'.stack → item ∈ items →
      (k = h ∧ item = (child.mHandler, c)) ∨
        ∃ items', .children k items' ∈ s.stack ∧ item ∈ items' := by
    intro k items item hmem hitem
    by_cases hkh : k = h
    · subst hkh
      rw [hh.stack, List.mem_cons, List.mem_cons] at hmem
      obtain ⟨rfl, items', hmem⟩ := children_resume.mp (by simpa using hmem)
      exact ((iterOk_mem hiter hc hmem).2 item hitem).imp (⟨rfl, ·⟩) (⟨items', hmem, ·⟩)
    · have hmem' := (hframe (by simp [hkh])).mp hmem
      exact .inr ⟨items, by simpa using hmem', hitem⟩
  constructor
  case begun =>
    intro k hk hklive
    rw [hh.mark] at hk
    rw [hh.isSome] at hklive
    rw [hh.isDestroyed, hbase]
    exact hstaged.begun k hk hklive
  case swept =>
    intro k x hk hkbase hx
    rw [hh.mark] at hk ⊢
    rw [hbase] at hkbase
    rw [hh.parentOf] at hx
    by_cases hxc : x = c
    · -- a parent that has destroyed its children destroys this one behind `BM_CREATE`
      subst hxc
      rw [Function.update_self, Option.some_inj] at hx
      subst hx
      have hdestroyed := (hstaged.begun h hk hlive).resolve_right hkbase
      refine .inr (.inr ?_)
      rw [hh.stack, hdestroyed]
      exact List.mem_cons_of_mem _ List.mem_cons_self
    · rw [Function.update_of_ne hxc] at hx
      refine (hstaged.swept k x hk hkbase hx).imp id ?_
      rintro (⟨items, key, hmem, hitem⟩ | hmem)
      · obtain ⟨d, hd⟩ := Option.isSome_iff_exists.mp (handlers_isSome_of_parentOf hx)
        have hkey := (hstaged.iter_children k items (key, x) d hmem hitem hd).2
        by_cases hkh : k = h
        · subst hkh
          have hne : key ≠ child.mHandler := by
            intro heq
            exact hxc (hgrown.ok.address_inj hd hc (hkey ▸ heq))
          refine .inl ⟨iter, key, ?_, (iterOk_mem hiter hc hmem).1 _ hitem hne⟩
          rw [hh.stack]
          exact List.mem_cons_of_mem _ (List.mem_cons_of_mem _
            (children_resume.mpr ⟨rfl, items, hmem⟩))
        · exact .inl ⟨items, key, (hframe (by simp [hkh])).mpr (.inr (.inr hmem)), hitem⟩
      · exact .inr ((hframe (by simp)).mpr (.inr (.inr hmem)))
  case marked =>
    intro k b hmem
    rw [hh.mark]
    have hmem' := (hframe (by simp)).mp hmem
    exact hstaged.marked k b (by simpa using hmem')
  case iter_old =>
    intro k items item hmem hitem
    rw [hh.next]
    rcases hitems hmem hitem with ⟨-, rfl⟩ | ⟨items', hmem', hitem'⟩
    · exact hgrown.ok.fresh hc
    · exact hstaged.iter_old k items' item hmem' hitem'
  case iter_children =>
    intro k items item d' hmem hitem hd'
    have haddress := hh.address item.2
    rw [hd', Option.map_some, eq_comm, Option.map_eq_some_iff] at haddress
    obtain ⟨d, hd, haddress⟩ := haddress
    have hparent : d'.mParent = s'.heap.parentOf item.2 := by
      rw [Heap.parentOf, hd', Option.bind_some]
    rw [hparent, hh.parentOf, ← haddress]
    rcases hitems hmem hitem with ⟨rfl, rfl⟩ | ⟨items', hmem', hitem'⟩
    · rw [hc, Option.some_inj] at hd
      rw [Function.update_self, hd]
      exact ⟨rfl, rfl⟩
    · have hplace := hstaged.iter_children k items' item d hmem' hitem' hd
      have hold : s.heap.parentOf item.2 = some k := by
        rw [Heap.parentOf, hd, Option.bind_some, hplace.1]
      have hxc : item.2 ≠ c := by
        intro heq
        rw [heq, horphan] at hold
        cases hold
      rw [Function.update_of_ne hxc]
      exact ⟨hold, hplace.2⟩
  case added_created =>
    intro x b hmem
    rw [hh.isHandler]
    by_cases hxc : x = c
    · subst hxc
      exact ⟨hhandler, hh.isCreated_self⟩
    · rw [hh.isCreated_of_ne hxc]
      have hmem' := (hframe (by simp)).mp hmem
      exact hstaged.added_created x b (by simpa [hxc] using hmem')

end Hang

/-- `AddChild` changes nothing, or hangs the child below the handler. -/
theorem addChild_cases {tid : ℕ} {name : Bytes} {order iter : List (ℕ × HandlerId)} (hs : Inv s)
    (hhandler : s.isHandler c = true) (hadd : s.addChild tid h c name order iter = some s') :
    s' = s ∨ Hung s s' h c iter ∧ s'.heap.Ok ∧ s.heap.parentOf c = none ∧
      (s.heap.handlers h).isSome := by
  obtain ⟨child, hc, hlooper⟩ := isHandler_iff.mp hhandler
  rw [State.addChild] at hadd
  cases htree : s.tree (.addChild h c name tid (some looper) order) with
  | none =>
      rw [htree] at hadd
      cases hadd
  | some t =>
      rw [htree] at hadd
      dsimp only at hadd
      obtain ⟨heap, hstep, rfl⟩ := Option.map_eq_some_iff.mp htree
      have hok := hs.grown.ok.step hstep
      simp only [HandlerTree.step, Option.ite_none_right_eq_some, Option.some_inj] at hstep
      obtain ⟨⟨hlive, -, -⟩, rfl⟩ := hstep
      rcases HandlerTree.addChild_cases with hsame | ⟨data, child', -, hc', hroot, -, -, heq⟩
      · rw [hsame, if_pos rfl, Option.some_inj] at hadd
        exact .inl hadd.symm
      · rw [hc, Option.some_inj] at hc'
        subst hc'
        have horphan : s.heap.parentOf c = none := by
          rw [Heap.parentOf, hc, Option.bind_some, hroot]
        rw [heq] at hadd hok
        have hparents := @Heap.parentOf_attach s.heap h c name data.mThreadId (some looper) order
          (by rw [hc]; rfl)
        rw [hparents, Function.update_self, horphan, if_neg (by simp)] at hadd
        obtain ⟨t, ht, rfl⟩ := Option.map_eq_some_iff.mp hadd
        obtain ⟨heap, hcreate, rfl⟩ := Option.map_eq_some_iff.mp ht
        have hok' := hok.step hcreate
        simp only [HandlerTree.step] at hcreate
        split at hcreate
        · cases hcreate
        · rw [Option.ite_none_right_eq_some, Option.some_inj] at hcreate
          obtain ⟨-, rfl⟩ := hcreate
          exact .inr ⟨hung_spec hc hlooper, hok', horphan, hlive⟩

theorem Inv.addChild {tid : ℕ} {name : Bytes} {order iter : List (ℕ × HandlerId)} (hs : Inv s)
    (hhandler : s.isHandler c = true) (hiter : s.iterOk h c iter = true)
    (hadd : s.addChild tid h c name order iter = some s') : Inv s' := by
  rcases addChild_cases hs hhandler hadd with rfl | ⟨hh, hok, horphan, hlive⟩
  · exact hs
  · exact ⟨hs.grown.hang hh hhandler hok, .hang hh hhandler horphan hs,
      .hang hh hhandler horphan hs hiter hlive⟩

end CoreLooper.HandlerLifecycle
