import CoreLooper.HandlerAdoption

/-!
# Every handler lives once

In every run each handler is created once and destroyed at most once, in this order, and when the
looper is back at rest the handlers below a destroyed one are destroyed.
-/
namespace CoreLooper.HandlerLifecycle

open CStrings HandlerTree ParentForest Transitions

variable {s s' : State} {h c k : HandlerId}

theorem tree_markDestroyed (h : s.tree (.markDestroyed k) = some s') :
    s' = { s with heap := s.heap.modify k ({ · with mDestroy := true }) } := by
  obtain ⟨heap, hstep, rfl⟩ := Option.map_eq_some_iff.mp h
  simp only [HandlerTree.step, Option.ite_none_right_eq_some, Option.some_inj] at hstep
  rw [← hstep.2]

theorem Inv.markDestroyed (hs : Inv s) (h : s.tree (.markDestroyed k) = some s') : Inv s' := by
  obtain ⟨heap, hstep, -⟩ := Option.map_eq_some_iff.mp h
  have hok := hs.grown.ok.step hstep
  simp only [HandlerTree.step, Option.ite_none_right_eq_some, Option.some_inj] at hstep
  obtain ⟨-, rfl⟩ := hstep
  rw [tree_markDestroyed h]
  exact hs.inPlace hok (fun _ => rfl) (fun _ => rfl) (fun _ => rfl) (fun _ => rfl) (fun _ => rfl)
    (fun _ => rfl) fun _ _ => rfl

theorem isHandler_markDestroyed (h : s.tree (.markDestroyed k) = some s') :
    s'.isHandler = s.isHandler := by
  rw [tree_markDestroyed h]
  funext l
  have hmap := @map_modify k s.heap ({ · with mDestroy := true }) _ (fun d => !d.mIsLooper)
    (fun _ => rfl) l
  exact congrArg (Option.getD · false) hmap

theorem isCreated_markDestroyed (h : s.tree (.markDestroyed k) = some s') :
    s'.isCreated = s.isCreated := by
  rw [tree_markDestroyed h]
  funext l
  have hmap := @map_modify k s.heap ({ · with mDestroy := true }) _ (·.mCreated)
    (fun _ => rfl) l
  exact congrArg (Option.getD · false) hmap

theorem Inv.markAndSend (hs : Inv s) (hhandler : s.isHandler k = true)
    (h : s.markAndSend k = some s') : Inv s' := by
  obtain ⟨t, ht, rfl⟩ := Option.map_eq_some_iff.mp h
  apply (hs.markDestroyed ht).sendDestroy
  rw [isHandler_markDestroyed ht]
  exact hhandler

/-- Who is marked is told so at once. -/
theorem Told.markAndSend (hs : Inv s) (htold : Told s) (h : s.markAndSend k = some s') :
    Told s' := by
  obtain ⟨t, ht, rfl⟩ := Option.map_eq_some_iff.mp h
  have hgrown := (hs.markDestroyed ht).grown
  intro l hl hcreated hdestroyed
  have hheap : ∀ {l}, (t.sendDestroy k).heap.handlers l = t.heap.handlers l := by
    intro l
    rw [sendDestroy_heap]
  rw [isHandler_congr hheap] at hl
  rw [isCreated_congr hheap] at hcreated
  rw [isDestroyed_congr hheap] at hdestroyed
  by_cases hlk : l = k
  · subst hlk
    exact sendDestroy_told (hgrown.delivered hl hcreated)
  · apply sendDestroy_mark
    rw [isHandler_markDestroyed ht] at hl
    rw [isCreated_markDestroyed ht] at hcreated
    rw [tree_markDestroyed ht] at hdestroyed ⊢
    exact htold l hl hcreated (by rwa [isDestroyed_congr (Heap.modify_of_ne hlk)] at hdestroyed)

theorem Inv.destroy (hs : Inv s) (hhandler : s.isHandler k = true)
    (h : s.destroy k = some s') : Inv s' := by
  unfold State.destroy at h
  split_ifs at h
  · exact hs.markAndSend hhandler h
  · rwa [← Option.some_inj.mp h]

theorem Told.destroy (hs : Inv s) (htold : Told s) (h : s.destroy k = some s') : Told s' := by
  unfold State.destroy at h
  split_ifs at h
  · exact htold.markAndSend hs h
  · rwa [← Option.some_inj.mp h]

/-- A created handler is marked once `Destroy` has been called. -/
theorem destroy_marks (hs : Inv s) (htold : Told s) (hhandler : s.isHandler k = true)
    (hcreated : s.isCreated k = true) (h : s.destroy k = some s') :
    s'.mDestroyMarkCalled k = true := by
  unfold State.destroy at h
  split_ifs at h with hfirst
  · obtain ⟨t, ht, rfl⟩ := Option.map_eq_some_iff.mp h
    apply sendDestroy_told
    apply (hs.markDestroyed ht).grown.delivered
    · rw [isHandler_markDestroyed ht]
      exact hhandler
    · rw [isCreated_markDestroyed ht]
      exact hcreated
  · rw [← Option.some_inj.mp h]
    exact htold k hhandler hcreated (by simpa [hcreated] using hfirst)

theorem Inv.setStack (hs : Inv s) {stack : List Frame}
    (hstaged : Staged { s with stack := stack }) : Inv { s with stack := stack } :=
  ⟨hs.grown.congr rfl, ⟨hs.logged.old, hs.logged.created, hs.logged.created_once,
    hs.logged.marked_iff, hs.logged.destroyed_once, hs.logged.created_first⟩, hstaged⟩

/-- A frame is taken out that nobody waits for. -/
theorem Inv.pop (hs : Inv s) {front rest : List Frame} {f : Frame}
    (hstack : s.stack = front ++ f :: rest) (hbase : ∀ k, f ≠ .onDestroy k false)
    (hchildren : ∀ k iter, f = .children k iter → iter = [])
    (hadded : ∀ c, f = .added c true → s.mDestroyMarkCalled c = true) :
    Inv { s with stack := front ++ rest } := by
  apply hs.setStack
  have hmem : ∀ {g}, g ∈ s.stack ↔ g = f ∨ g ∈ front ++ rest := by
    intro g
    rw [hstack, List.mem_append, List.mem_cons, List.mem_append, or_left_comm]
  apply hs.staged.restack
  · intro k
    rw [hmem]
    exact or_iff_right (hbase k).symm
  · rintro k c (⟨iter, key, hframe, hitem⟩ | hframe) -
    · rcases hmem.mp hframe with rfl | hframe
      · rw [hchildren k iter rfl] at hitem
        cases hitem
      · exact .inr (.inl ⟨iter, key, hframe, hitem⟩)
    · rcases hmem.mp hframe with rfl | hframe
      · exact .inl (hadded c rfl)
      · exact .inr (.inr hframe)
  · exact fun k b hframe => hmem.mpr (.inr hframe)
  · exact fun k iter item hframe hitem => ⟨iter, hmem.mpr (.inr hframe), hitem⟩
  · exact fun c b hframe => hmem.mpr (.inr hframe)

/-- Program code is called. -/
theorem Inv.dispatch (hs : Inv s) : Inv { s with stack := .code :: s.stack } := by
  apply hs.setStack
  apply hs.staged.restack
  · simp
  · exact fun k c hawaited _ => .inr hawaited.cons
  · intro k b hmem
    simpa using hmem
  · intro k iter item hmem hitem
    exact ⟨iter, by simpa using hmem, hitem⟩
  · intro c b hmem
    simpa using hmem

/-- The base method goes over all the children. -/
theorem Inv.onDestroy (hs : Inv s) {rest : List Frame} {d : TagHandlerInternalData}
    (hstack : s.stack = .onDestroy h false :: rest) (hd : s.heap.handlers h = some d)
    (hdestroyed : s.isDestroyed h = true) :
    Inv { s with stack := .children h d.mChildren :: .onDestroy h true :: rest } := by
  apply hs.setStack
  obtain ⟨hgrown, -, hstaged⟩ := hs
  -- the other frames are those from before
  have hold : ∀ {f : Frame}, f ≠ .children h d.mChildren → f ≠ .onDestroy h true →
      f ≠ .onDestroy h false →
      (f ∈ Frame.children h d.mChildren :: .onDestroy h true :: rest ↔ f ∈ s.stack) := by
    intro f h₁ h₂ h₃
    simp [hstack, h₁, h₂, h₃]
  constructor
  case begun =>
    intro k hk hlive
    by_cases hkh : k = h
    · subst hkh
      exact .inl hdestroyed
    · refine (hstaged.begun k hk hlive).imp id fun hmem => ?_
      exact (hold (by simp) (by simp) (by simp [hkh])).mpr hmem
  case swept =>
    intro k c hk hbase hparent
    by_cases hkh : k = h
    · subst hkh
      obtain ⟨e, he, hup⟩ := Option.bind_eq_some_iff.mp hparent
      have hitem := hgrown.ok.item_of_parent he hup hd
      exact .inr (.inl ⟨d.mChildren, e.mHandler, List.mem_cons_self, hitem⟩)
    · have hbase' : .onDestroy k false ∉ s.stack := fun hmem =>
        hbase ((hold (by simp) (by simp) (by simp [hkh])).mpr hmem)
      refine (hstaged.swept k c hk hbase' hparent).imp id ?_
      rintro (⟨iter, key, hmem, hitem⟩ | hmem)
      · exact .inl ⟨iter, key, (hold (by simp [hkh]) (by simp) (by simp)).mpr hmem, hitem⟩
      · exact .inr ((hold (by simp) (by simp) (by simp)).mpr hmem)
  case marked =>
    intro k b hmem
    by_cases hkh : k = h
    · subst hkh
      exact hstaged.marked k false (by rw [hstack]; exact List.mem_cons_self)
    · exact hstaged.marked k b ((hold (by simp) (by simp [hkh]) (by simp [hkh])).mp hmem)
  case iter_old =>
    intro k iter item hmem hitem
    by_cases heq : Frame.children k iter = .children h d.mChildren
    · rw [Frame.children.injEq] at heq
      rw [heq.2] at hitem
      exact hgrown.ok.item_old hd hitem
    · exact hstaged.iter_old k iter item ((hold heq (by simp) (by simp)).mp hmem) hitem
  case iter_children =>
    intro k iter item e hmem hitem he
    by_cases heq : Frame.children k iter = .children h d.mChildren
    · rw [Frame.children.injEq] at heq
      rw [heq.2] at hitem
      rw [heq.1]
      exact hgrown.ok.parent_of_item hd hitem he
    · exact hstaged.iter_children k iter item e ((hold heq (by simp) (by simp)).mp hmem) hitem he
  case added_created =>
    intro c b hmem
    exact hstaged.added_created c b ((hold (by simp) (by simp) (by simp)).mp hmem)

/-- The walk over the children comes to its next item. -/
theorem Inv.next (hs : Inv s) {front rest : List Frame} {item : ℕ × HandlerId}
    {iter : List (ℕ × HandlerId)} (hstack : s.stack = front ++ .children h (item :: iter) :: rest)
    (hmark : s.heap.parentOf item.2 = some h → s.mDestroyMarkCalled item.2 = true) :
    Inv { s with stack := front ++ .children h iter :: rest } := by
  apply hs.setStack
  have hmem : ∀ {g}, g ∈ s.stack ↔ g = .children h (item :: iter) ∨ g ∈ front ++ rest := by
    intro g
    rw [hstack, List.mem_append, List.mem_cons, List.mem_append, or_left_comm]
  have hmem' : ∀ {g}, g ∈ front ++ .children h iter :: rest ↔
      g = .children h iter ∨ g ∈ front ++ rest := by
    intro g
    rw [List.mem_append, List.mem_cons, List.mem_append, or_left_comm]
  apply hs.staged.restack
  · intro k
    rw [hmem, hmem']
    simp
  · rintro k c (⟨items, key, hframe, hitem⟩ | hframe) hparent
    · rcases hmem.mp hframe with heq | hframe
      · rw [Frame.children.injEq] at heq
        obtain ⟨rfl, rfl⟩ := heq
        rcases List.mem_cons.mp hitem with rfl | hitem
        · exact .inl (hmark hparent)
        · exact .inr (.inl ⟨iter, key, hmem'.mpr (.inl rfl), hitem⟩)
      · exact .inr (.inl ⟨items, key, hmem'.mpr (.inr hframe), hitem⟩)
    · exact .inr (.inr (hmem'.mpr (.inr (by simpa using hmem.mp hframe))))
  · intro k b hframe
    exact hmem.mpr (.inr (by simpa using hmem'.mp hframe))
  · intro k items item' hframe hitem
    rcases hmem'.mp hframe with heq | hframe
    · rw [Frame.children.injEq] at heq
      obtain ⟨rfl, rfl⟩ := heq
      exact ⟨item :: items, hmem.mpr (.inl rfl), List.mem_cons_of_mem _ hitem⟩
    · exact ⟨items, hmem.mpr (.inr hframe), hitem⟩
  · intro c b hframe
    exact hmem.mpr (.inr (by simpa using hmem'.mp hframe))

/-- What a message adds to the stack does not depend on the stack. -/
theorem sendDestroy_front (s : State) (h : HandlerId) (rest : List Frame) : ∃ front,
    (s.sendDestroy h).stack = front ++ s.stack ∧
      State.sendDestroy { s with stack := rest } h =
        { s.sendDestroy h with stack := front ++ rest } := by
  unfold State.sendDestroy
  by_cases hsend : delivered s.heap h = true ∧ ¬ s.mDestroyMarkCalled h = true
  · refine ⟨[.onDestroy h false], ?_, ?_⟩
    · rw [if_pos hsend]
      rfl
    · rw [if_pos hsend, if_pos hsend]
      rfl
  · refine ⟨[], ?_, ?_⟩
    · rw [if_neg hsend]
      rfl
    · rw [if_neg hsend, if_neg hsend]
      rfl

theorem destroy_front {rest : List Frame}
    (h : State.destroy { s with stack := rest } k = some s') : ∃ t front, s.destroy k = some t ∧
      t.stack = front ++ s.stack ∧ s' = { t with stack := front ++ rest } := by
  unfold State.destroy at h ⊢
  by_cases hfirst : s.isCreated k = true ∧ ¬ s.isDestroyed k = true
  · have hfirst' : State.isCreated { s with stack := rest } k = true ∧
        ¬ State.isDestroyed { s with stack := rest } k = true := hfirst
    rw [if_pos hfirst'] at h
    rw [if_pos hfirst]
    obtain ⟨t', ht', rfl⟩ := Option.map_eq_some_iff.mp h
    obtain ⟨heap, hheap, rfl⟩ := Option.map_eq_some_iff.mp ht'
    obtain ⟨front, hstack, heq⟩ := sendDestroy_front { s with heap := heap } k rest
    refine ⟨_, front, ?_, hstack, heq⟩
    rw [State.markAndSend, State.tree, hheap]
    rfl
  · have hfirst' : ¬ (State.isCreated { s with stack := rest } k = true ∧
        ¬ State.isDestroyed { s with stack := rest } k = true) := hfirst
    rw [if_neg hfirst', Option.some_inj] at h
    rw [if_neg hfirst]
    exact ⟨s, [], rfl, rfl, h.symm⟩

/-- Who is kept alive by a reference to itself plays no part. -/
theorem Inv.congr (hs : Inv s) (hheap : s'.heap = s.heap)
    (hmark : s'.mDestroyMarkCalled = s.mDestroyMarkCalled) (hstack : s'.stack = s.stack)
    (hlog : s'.log = s.log) : Inv s' := by
  obtain ⟨heap, mark, self, stack, log⟩ := s
  obtain ⟨heap', mark', self', stack', log'⟩ := s'
  obtain rfl : heap' = heap := hheap
  obtain rfl : mark' = mark := hmark
  obtain rfl : stack' = stack := hstack
  obtain rfl : log' = log := hlog
  obtain ⟨hgrown, hlogged, hstaged⟩ := hs
  refine ⟨hgrown.congr rfl, ?_, ?_⟩
  · exact ⟨hlogged.old, hlogged.created, hlogged.created_once, hlogged.marked_iff,
      hlogged.destroyed_once, hlogged.created_first⟩
  · exact ⟨hstaged.begun, hstaged.swept, hstaged.marked, hstaged.iter_old, hstaged.iter_children,
      hstaged.added_created⟩

/-- No other handler is created and marked as destroyed than before. -/
theorem Told.mono (htold : Told s)
    (hmark : ∀ k, s.mDestroyMarkCalled k = true → s'.mDestroyMarkCalled k = true)
    (hsame : ∀ k, s'.isHandler k = true → s'.isCreated k = true → s'.isDestroyed k = true →
      s'.mDestroyMarkCalled k = true ∨
        s.isHandler k = true ∧ s.isCreated k = true ∧ s.isDestroyed k = true) : Told s' := by
  intro k hk hcreated hdestroyed
  rcases hsame k hk hcreated hdestroyed with hmarked | ⟨hk', hcreated', hdestroyed'⟩
  · exact hmarked
  · exact hmark k (htold k hk' hcreated' hdestroyed')

theorem Told.congr (htold : Told s) (hheap : s'.heap = s.heap)
    (hmark : ∀ k, s.mDestroyMarkCalled k = true → s'.mDestroyMarkCalled k = true) : Told s' := by
  apply htold.mono hmark
  intro k hk hcreated hdestroyed
  have hsame : s'.heap.handlers k = s.heap.handlers k := by rw [hheap]
  rw [isHandler_congr hsame] at hk
  rw [isCreated_congr hsame] at hcreated
  rw [isDestroyed_congr hsame] at hdestroyed
  exact .inr ⟨hk, hcreated, hdestroyed⟩

theorem Inv.eraseExpired (hs : Inv s) {key : ℕ}
    (h : s.tree (.eraseExpired k key) = some s') : Inv s' := by
  obtain ⟨heap, hstep, rfl⟩ := Option.map_eq_some_iff.mp h
  have hok := hs.grown.ok.step hstep
  simp only [HandlerTree.step] at hstep
  split at hstep
  · cases hstep
  · rw [Option.ite_none_right_eq_some, Option.some_inj] at hstep
    obtain ⟨-, rfl⟩ := hstep
    exact hs.inPlace hok (fun _ => rfl) (fun _ => rfl) (fun _ => rfl) (fun _ => rfl)
      (fun _ => rfl) (fun _ => rfl) fun _ hd => hd

/-- The end of an object that nobody holds. -/
theorem Inv.dtor (hs : Inv s) (hhandler : s.isHandler h = true)
    (hframes : s.stack.all (fun f => !f.holds h) = true) (hstep : s.tree (.dtor h) = some s') :
    Inv s' := by
  obtain ⟨heap, htree, rfl⟩ := Option.map_eq_some_iff.mp hstep
  simp only [HandlerTree.step] at htree
  cases hd : s.heap.handlers h with
  | none =>
      rw [hd] at htree
      cases htree
  | some d =>
      rw [hd] at htree
      dsimp only at htree
      rw [Option.ite_none_right_eq_some, Option.some_inj] at htree
      obtain ⟨hall, rfl⟩ := htree
      have hleaf : ∀ l, s.heap.parentOf l ≠ some h := by
        intro l hl
        obtain ⟨e, he, -⟩ := Option.bind_eq_some_iff.mp hl
        have hnot := List.all_eq_true.mp hall l (List.mem_range.mpr (hs.grown.ok.fresh he))
        rw [decide_eq_true_iff] at hnot
        exact hnot hl
      have hself : d.mParent ≠ some h := by
        have hup := hleaf h
        rwa [Heap.parentOf, hd, Option.bind_some] at hup
      have hnew : ∀ e, (none : Option TagHandlerInternalData) = some e →
          e.mIsLooper = false ∧ e.mCreated = false ∧ e.mParent = none ∧ s.heap.next ≤ h :=
        fun e he => by cases he
      have hframe : ∀ b, .added h b ∉ s.stack := by
        intro b hmem
        have hholds := List.all_eq_true.mp hframes _ hmem
        simp [Frame.holds] at hholds
      have hremoved : Inv { s with heap := s.heap.remove h } :=
        hs.replace (hs.grown.ok.remove hleaf) rfl (Nat.le_refl _)
          ((hs.grown.handler_iff h).mp hhandler).2 hframe hnew
      have hok := hs.grown.ok.dtor hd hleaf
      rw [dtor_eq hself] at hok ⊢
      cases hp : d.mParent with
      | none => exact hremoved
      | some p =>
          rw [hp] at hok
          dsimp only at hok ⊢
          split_ifs at hok ⊢
          · exact hremoved.inPlace hok (fun _ => rfl) (fun _ => rfl) (fun _ => rfl) (fun _ => rfl)
              (fun _ => rfl) (fun _ => rfl) fun _ he => he
          · exact hremoved

theorem Inv.advance (hs : Inv s) (htold : Told s) {f : Frame} {rest : List Frame}
    (hstack : s.stack = f :: rest) (h : s.advance rest f = some s') : Inv s' := by
  cases f with
  | code => cases h
  | onCreate k => cases h
  | onDestroy k b => cases h
  | added c b =>
      cases b with
      | false =>
          rw [State.advance, if_neg Bool.false_ne_true, Option.some_inj] at h
          rw [← h]
          exact @Inv.pop s hs [] rest _ hstack (by simp) (by simp) (by simp)
      | true =>
          rw [State.advance, if_pos rfl] at h
          obtain ⟨hhandler, hcreated⟩ :=
            hs.staged.added_created c true (by rw [hstack]; exact List.mem_cons_self)
          obtain ⟨t, front, hdestroy, hfront, rfl⟩ := destroy_front h
          rw [hstack] at hfront
          apply (hs.destroy hhandler hdestroy).pop hfront (by simp) (by simp)
          intro k hk
          rw [Frame.added.injEq] at hk
          rw [← hk.1]
          exact destroy_marks hs htold hhandler hcreated hdestroy
  | children k items =>
      cases items with
      | nil =>
          rw [State.advance, Option.some_inj] at h
          rw [← h]
          have hempty : ∀ l iter, Frame.children k [] = .children l iter → iter = [] := by
            intro l iter heq
            rw [Frame.children.injEq] at heq
            exact heq.2.symm
          have hpopped := @Inv.pop s hs [] rest _ hstack (by simp) hempty (by simp)
          exact hpopped.congr rfl rfl rfl rfl
      | cons item iter =>
          rw [State.advance] at h
          cases hlive : s.heap.handlers item.2 with
          | none =>
              rw [hlive] at h
              have hdead : s.heap.parentOf item.2 = some k →
                  s.mDestroyMarkCalled item.2 = true := by
                intro hparent
                have hsome := handlers_isSome_of_parentOf hparent
                rw [hlive] at hsome
                cases hsome
              exact (@Inv.next s k hs [] rest item iter hstack hdead).eraseExpired h
          | some d =>
              rw [hlive] at h
              dsimp only at h
              rw [Option.some_inj] at h
              have hplace := hs.staged.iter_children k (item :: iter) item d
                (by rw [hstack]; exact List.mem_cons_self) List.mem_cons_self hlive
              have hparent : s.heap.parentOf item.2 = some k := by
                rw [Heap.parentOf, hlive, Option.bind_some, hplace.1]
              obtain ⟨hhandler, hcreated⟩ := hs.grown.child hparent
              obtain ⟨front, hfront, heq⟩ :=
                sendDestroy_front s item.2 (.children k iter :: rest)
              rw [heq] at h
              rw [← h]
              rw [hstack] at hfront
              exact (hs.sendDestroy hhandler).next hfront
                fun _ => sendDestroy_told (hs.grown.delivered hhandler hcreated)

theorem Told.eraseExpired (htold : Told s) {key : ℕ}
    (h : s.tree (.eraseExpired k key) = some s') : Told s' := by
  obtain ⟨heap, hstep, rfl⟩ := Option.map_eq_some_iff.mp h
  simp only [HandlerTree.step] at hstep
  split at hstep
  · cases hstep
  · rw [Option.ite_none_right_eq_some, Option.some_inj] at hstep
    obtain ⟨-, rfl⟩ := hstep
    apply htold.mono (by exact fun _ hk => hk)
    intro l hl hcreated hdestroyed
    have hfields := fun (field : TagHandlerInternalData → Bool) hfield =>
      congrArg (Option.getD · false) (@map_modify k s.heap
        (fun d => { d with mChildren := eraseItem d.mChildren key }) _ field hfield l)
    refine .inr ⟨?_, ?_, ?_⟩
    · exact (hfields (fun d => !d.mIsLooper) fun _ => rfl).symm.trans hl
    · exact (hfields (·.mCreated) fun _ => rfl).symm.trans hcreated
    · exact (hfields (·.mDestroy) fun _ => rfl).symm.trans hdestroyed

theorem Told.markDestroyed (htold : Told s) (hmark : s.mDestroyMarkCalled k = true)
    (h : s.tree (.markDestroyed k) = some s') : Told s' := by
  have hhandler := isHandler_markDestroyed h
  have hcreated := isCreated_markDestroyed h
  rw [tree_markDestroyed h] at hhandler hcreated ⊢
  apply htold.mono (by exact fun _ hl => hl)
  intro l hl hlc hld
  rw [hhandler] at hl
  rw [hcreated] at hlc
  by_cases hlk : l = k
  · exact .inl (hlk ▸ hmark)
  · rw [isDestroyed_congr (Heap.modify_of_ne hlk)] at hld
    exact .inr ⟨hl, hlc, hld⟩

/-- Who is left behind the end of an object was there before. -/
theorem dtor_fields {d : TagHandlerInternalData} {α : Type*} {field : TagHandlerInternalData → α}
    (hfield : ∀ e children, field { e with mChildren := children } = field e) {value : α}
    (h : ((HandlerTree.dtor s.heap k d).handlers c).map field = some value) :
    (s.heap.handlers c).map field = some value := by
  rw [HandlerTree.dtor] at h
  dsimp only at h
  have hck : c ≠ k := by
    rintro rfl
    rw [Function.update_self] at h
    cases h
  rw [Function.update_of_ne hck] at h
  cases hp : d.mParent with
  | none =>
      rw [hp] at h
      exact h
  | some p =>
      rw [hp] at h
      dsimp only at h
      split_ifs at h
      · rwa [map_modify fun e => hfield e _] at h
      · exact h

theorem Told.dtor (htold : Told s) (h : s.tree (.dtor k) = some s') : Told s' := by
  obtain ⟨heap, hstep, rfl⟩ := Option.map_eq_some_iff.mp h
  simp only [HandlerTree.step] at hstep
  split at hstep
  · cases hstep
  · rename_i d hd
    rw [Option.ite_none_right_eq_some, Option.some_inj] at hstep
    obtain ⟨-, rfl⟩ := hstep
    apply htold.mono (by exact fun _ hl => hl)
    have hbefore : ∀ {l} {field : TagHandlerInternalData → Bool},
        (∀ e children, field { e with mChildren := children } = field e) →
        (((HandlerTree.dtor s.heap k d).handlers l).map field).getD false = true →
        ((s.heap.handlers l).map field).getD false = true := by
      intro l field hfield hl
      have hvalue : ((HandlerTree.dtor s.heap k d).handlers l).map field = some true := by
        cases hmap : ((HandlerTree.dtor s.heap k d).handlers l).map field with
        | none =>
            rw [hmap] at hl
            cases hl
        | some b =>
            rw [hmap] at hl
            exact congrArg some hl
      rw [dtor_fields hfield hvalue]
      rfl
    intro l hl hlc hld
    exact .inr ⟨hbefore (fun _ _ => rfl) hl, hbefore (fun _ _ => rfl) hlc,
      hbefore (fun _ _ => rfl) hld⟩

theorem Told.advance (hs : Inv s) (htold : Told s) {f : Frame} {rest : List Frame}
    (h : s.advance rest f = some s') : Told s' := by
  cases f with
  | code => cases h
  | onCreate k => cases h
  | onDestroy k b => cases h
  | added c b =>
      cases b with
      | false =>
          rw [State.advance, if_neg Bool.false_ne_true, Option.some_inj] at h
          rw [← h]
          exact htold.congr rfl fun _ hk => hk
      | true =>
          rw [State.advance, if_pos rfl] at h
          obtain ⟨t, front, hdestroy, -, rfl⟩ := destroy_front h
          exact (htold.destroy hs hdestroy).congr rfl fun _ hk => hk
  | children k items =>
      cases items with
      | nil =>
          rw [State.advance, Option.some_inj] at h
          rw [← h]
          exact htold.congr rfl fun _ hk => hk
      | cons item iter =>
          rw [State.advance] at h
          have hrest : Told { s with stack := .children k iter :: rest } :=
            htold.congr rfl fun _ hk => hk
          cases hlive : s.heap.handlers item.2 with
          | none =>
              rw [hlive] at h
              exact hrest.eraseExpired h
          | some d =>
              rw [hlive] at h
              dsimp only at h
              rw [← Option.some_inj.mp h]
              exact hrest.congr sendDestroy_heap fun _ => sendDestroy_mark

/-- The one thing a program must not do: add a child that it gave up before it was created. -/
def Undisposed (s : State) : Act → Prop
  | .addChild _ child _ _ _ => s.isDestroyed child = true → s.isCreated child = true
  | _ => True

instance (s : State) (a : Act) : Decidable (Undisposed s a) :=
  match a with
  | .addChild _ child _ _ _ =>
      inferInstanceAs (Decidable (s.isDestroyed child = true → s.isCreated child = true))
  | .construct .. | .destroy _ | .postDispose .. | .onDestroy | .ret | .advance | .dispatch
  | .dtor _ => inferInstanceAs (Decidable True)

theorem Told.hang {iter : List (ℕ × HandlerId)} (hs : Inv s) (htold : Told s)
    (hh : Hung s s' h c iter) (hhandler : s.isHandler c = true)
    (horphan : s.heap.parentOf c = none)
    (hok : s.isDestroyed c = true → s.isCreated c = true) : Told s' := by
  apply htold.mono fun k hk => by rwa [hh.mark]
  intro k hk hcreated hdestroyed
  rw [hh.isHandler] at hk
  rw [hh.isDestroyed] at hdestroyed
  by_cases hkc : k = c
  · subst hkc
    have hparent := (hs.grown.created_iff k hhandler).mp (hok hdestroyed)
    rw [horphan] at hparent
    cases hparent
  · rw [hh.isCreated_of_ne hkc] at hcreated
    exact .inr ⟨hk, hcreated, hdestroyed⟩

theorem step_inv {tid : ℕ} {a : Act} (hs : Inv s ∧ Told s) (hok : Undisposed s a)
    (h : step tid s a = some s') : Inv s' ∧ Told s' := by
  obtain ⟨hs, htold⟩ := hs
  cases a with
  | construct this name =>
      rw [step, Option.ite_none_right_eq_some] at h
      obtain ⟨heap, hstep, rfl⟩ := Option.map_eq_some_iff.mp h.2
      have hheap := hs.grown.ok.step hstep
      simp only [HandlerTree.step, Option.ite_none_right_eq_some, Option.some_inj] at hstep
      obtain ⟨-, rfl⟩ := hstep
      have hfresh : s.heap.handlers s.heap.next = none := by
        cases hd : s.heap.handlers s.heap.next with
        | none => rfl
        | some d => exact absurd (hs.grown.ok.fresh hd) (Nat.lt_irrefl _)
      have hroot : s.heap.next ≠ looper := by
        intro heq
        have hruns := hs.grown.looper_runs
        rw [← heq, hfresh] at hruns
        cases hruns
      have hframe : ∀ b, .added s.heap.next b ∉ s.stack := by
        intro b hmem
        obtain ⟨d, hd, -⟩ := isHandler_iff.mp (hs.staged.added_created _ b hmem).1
        rw [hfresh] at hd
        cases hd
      constructor
      · apply hs.replace hheap rfl (Nat.le_succ _) hroot hframe
        intro d hd
        rw [← Option.some_inj.mp hd]
        exact ⟨rfl, rfl, rfl, Nat.le_refl _⟩
      · apply htold.mono (by exact fun _ hk => hk)
        intro k hk hcreated hdestroyed
        by_cases hkn : k = s.heap.next
        · subst hkn
          obtain ⟨d, hd, hnew⟩ := isCreated_iff.mp hcreated
          have hself := (Function.update_self ..).symm.trans hd
          rw [← Option.some_inj.mp hself] at hnew
          cases hnew
        · have hsame : Function.update s.heap.handlers s.heap.next
              (some { mHandler := this, mObjectName := name }) k = s.heap.handlers k :=
            Function.update_of_ne hkn ..
          rw [isHandler_congr hsame] at hk
          rw [isCreated_congr hsame] at hcreated
          rw [isDestroyed_congr hsame] at hdestroyed
          exact .inr ⟨hk, hcreated, hdestroyed⟩
  | addChild k child name order iter =>
      rw [step, Option.ite_none_right_eq_some] at h
      obtain ⟨⟨-, hhandler, hiter⟩, hadd⟩ := h
      refine ⟨hs.addChild hhandler hiter hadd, ?_⟩
      rcases addChild_cases hs hhandler hadd with rfl | ⟨hh, -, horphan, -⟩
      · exact htold
      · exact htold.hang hs hh hhandler horphan hok
  | destroy k =>
      rw [step, Option.ite_none_right_eq_some] at h
      exact ⟨hs.destroy h.1.2 h.2, htold.destroy hs h.2⟩
  | postDispose k obj =>
      rw [step, Option.ite_none_right_eq_some, State.postDispose] at h
      obtain ⟨⟨-, hhandler⟩, h⟩ := h
      split_ifs at h
      · exact ⟨hs.markAndSend hhandler h, htold.markAndSend hs h⟩
      · rw [← Option.some_inj.mp h]
        exact ⟨hs, htold⟩
  | onDestroy =>
      rw [step] at h
      split at h
      · rename_i k rest hstack
        cases hd : s.heap.handlers k with
        | none =>
            rw [hd] at h
            cases h
        | some d =>
            rw [hd] at h
            dsimp only at h
            obtain ⟨heap, hstep, rfl⟩ := Option.map_eq_some_iff.mp h
            have ht : s.tree (.markDestroyed k) = some { s with heap := heap } := by
              rw [State.tree, hstep]
              rfl
            have hheap : heap = s.heap.modify k ({ · with mDestroy := true }) :=
              congrArg State.heap (tree_markDestroyed ht)
            have hdata : heap.handlers k = some { d with mDestroy := true } := by
              rw [hheap, Heap.modify_self, hd]
              rfl
            have hmarked := hs.markDestroyed ht
            constructor
            · exact hmarked.onDestroy (d := { d with mDestroy := true }) hstack hdata
                (isDestroyed_iff.mpr ⟨_, hdata, rfl⟩)
            · have hmark := hs.staged.marked k false (by rw [hstack]; exact List.mem_cons_self)
              exact (htold.markDestroyed hmark ht).congr rfl (by exact fun _ hl => hl)
      · cases h
  | ret =>
      rw [step] at h
      split at h
      · rename_i rest hstack
        rw [← Option.some_inj.mp h]
        refine ⟨@Inv.pop s hs [] rest _ hstack (by simp) (by simp) (by simp), ?_⟩
        exact htold.congr rfl (by exact fun _ hk => hk)
      · rename_i k rest hstack
        rw [← Option.some_inj.mp h]
        refine ⟨@Inv.pop s hs [] rest _ hstack (by simp) (by simp) (by simp), ?_⟩
        exact htold.congr rfl (by exact fun _ hk => hk)
      · rename_i k rest hstack
        rw [← Option.some_inj.mp h]
        refine ⟨@Inv.pop s hs [] rest _ hstack (by simp) (by simp) (by simp), ?_⟩
        exact htold.congr rfl (by exact fun _ hk => hk)
      · cases h
  | advance =>
      rw [step] at h
      split at h
      · rename_i f rest hstack
        exact ⟨hs.advance htold hstack h, htold.advance hs h⟩
      · cases h
  | dispatch =>
      rw [step, Option.ite_none_right_eq_some, Option.some_inj] at h
      rw [← h.2]
      exact ⟨hs.dispatch, htold.congr rfl fun _ hk => hk⟩
  | dtor k =>
      rw [step, Option.ite_none_right_eq_some] at h
      obtain ⟨⟨hhandler, -, hframes⟩, hstep⟩ := h
      exact ⟨hs.dtor hhandler hframes hstep, htold.dtor hstep⟩

/-- The looper is constructed and started. -/
theorem init_ok (tid this : ℕ) (name : Bytes) : (init tid this name).heap.Ok := by
  have hnew : HandlerTree.step Heap.empty (.construct this true name) =
      some (Heap.empty.add { mHandler := this, mObjectName := name, mIsLooper := true }) := rfl
  have hstart : HandlerTree.step
      (Heap.empty.add { mHandler := this, mObjectName := name, mIsLooper := true })
      (.start looper tid) = some (init tid this name).heap := by
    have hself : (Heap.empty.add
        { mHandler := this, mObjectName := name, mIsLooper := true }).handlers looper =
        some { mHandler := this, mObjectName := name, mIsLooper := true } := rfl
    rw [HandlerTree.step, hself]
    dsimp only
    rw [if_pos rfl, Heap.modify, hself, Option.map_some]
    simp only [Heap.add, Heap.empty, init, looper, Function.update_idem]
  exact (Heap.Ok.empty.step hnew).step hstart

theorem init_inv (tid this : ℕ) (name : Bytes) :
    Inv (init tid this name) ∧ Told (init tid this name) := by
  have hself : (init tid this name).heap.handlers looper = some
      { mHandler := this, mObjectName := name, mThreadId := tid, mCreated := true,
        mIsLooper := true, mLooperRunning := true } := rfl
  have hdead : ∀ {h}, h ≠ looper → (init tid this name).heap.handlers h = none :=
    fun hne => by simp [init, Function.update_of_ne hne]
  have hnone : ∀ h, (init tid this name).isHandler h = false := by
    intro h
    by_cases hh : h = looper
    · subst hh
      rfl
    · rw [State.isHandler, hdead hh]
      rfl
  have horphan : ∀ h, (init tid this name).heap.parentOf h = none := by
    intro h
    by_cases hh : h = looper
    · subst hh
      rfl
    · rw [Heap.parentOf, hdead hh]
      rfl
  refine ⟨⟨?_, ?_, ?_⟩, ?_⟩
  · constructor
    case ok => exact init_ok tid this name
    case looper_root => rfl
    case looper_runs => rfl
    case handler_iff =>
      intro h
      rw [hnone]
      simp only [Bool.false_eq_true, false_iff, not_and, not_not]
      intro hlive
      by_contra hh
      rw [hdead hh] at hlive
      cases hlive
    case created_iff =>
      intro h hh
      rw [hnone] at hh
      cases hh
    case bound =>
      intro h hh
      rw [hnone] at hh
      cases hh
  · constructor
    case old => exact fun h hmem => absurd hmem List.not_mem_nil
    case created =>
      intro h hh
      rw [hnone] at hh
      cases hh
    case created_once => exact fun _ => Nat.zero_le _
    case marked_iff => exact fun h => by simp [init]
    case destroyed_once => exact fun _ => Nat.zero_le _
    case created_first =>
      intro h pre post heq
      have hlen := congrArg List.length heq
      simp [init] at hlen
  · constructor
    case begun => exact fun h hh => by simp [init] at hh
    case swept => exact fun h c hh => by simp [init] at hh
    case marked => exact fun h b hmem => absurd hmem List.not_mem_nil
    case iter_old => exact fun h iter item hmem => absurd hmem List.not_mem_nil
    case iter_children => exact fun h iter item d hmem => absurd hmem List.not_mem_nil
    case added_created => exact fun c b hmem => absurd hmem List.not_mem_nil
  · intro h hh
    rw [hnone] at hh
    cases hh

/-- What a program can rely on. -/
structure Lifecycle (s : State) : Prop where
  created_once : ∀ h, s.log.count (.OnCreate h) ≤ 1
  destroyed_once : ∀ h, s.log.count (.OnDestroy h) ≤ 1
  created_first : ∀ h pre post, s.log = pre ++ .OnDestroy h :: post → .OnCreate h ∈ pre
  child_created : ∀ h c, s.heap.parentOf c = some h → .OnCreate c ∈ s.log
  subtree_destroyed : s.stack = [] → ∀ h c, .OnDestroy h ∈ s.log → Below s.heap.parentOf c h →
    .OnDestroy c ∈ s.log

theorem Inv.followed (hs : Inv s) : Lifecycle s := by
  constructor
  case created_once => exact hs.logged.created_once
  case destroyed_once => exact hs.logged.destroyed_once
  case created_first => exact hs.logged.created_first
  case child_created =>
    intro h c hparent
    obtain ⟨hhandler, hcreated⟩ := hs.grown.child hparent
    exact hs.logged.created c hhandler hcreated
  case subtree_destroyed =>
    intro hstack h c hh hbelow
    -- a destroyed handler with no frame left has destroyed each of its children
    have hchild : ∀ {p x}, s.mDestroyMarkCalled p = true → s.heap.parentOf x = some p →
        s.mDestroyMarkCalled x = true := by
      intro p x hp hx
      rcases hs.staged.swept p x hp (by rw [hstack]; exact List.not_mem_nil) hx with hmark | hwait
      · exact hmark
      · rw [hstack] at hwait
        rcases hwait with ⟨iter, key, hmem, -⟩ | hmem
        · exact absurd hmem List.not_mem_nil
        · exact absurd hmem List.not_mem_nil
    rw [← hs.logged.marked_iff] at hh ⊢
    induction hbelow using Relation.ReflTransGen.head_induction_on with
    | refl => exact hh
    | head hup _ ih => exact hchild ih hup

/-- In every run of a program that adds no child it gave up before it was created, and that inserts
nothing into a map being walked so that it rehashes. -/
theorem lifecycle {tid this : ℕ} {name : Bytes}
    (h : Reachable (step tid) Undisposed (init tid this name) s) : Lifecycle s :=
  (h.invariant (I := fun s => Inv s ∧ Told s) (init_inv tid this name)
    fun _ _ _ hs hok hstep => step_inv hs hok hstep).1.followed

/-- The override of `OnDestroy` of handler 1 adds a child before it calls the base method. -/
def addingActs : List Act :=
  [.dispatch, .construct 11 [], .addChild 0 1 [] [(11, 1)] [], .ret, .advance, .destroy 1,
    .construct 12 [], .addChild 1 2 [] [(12, 2)] [], .ret, .advance, .onDestroy, .advance, .ret,
    .onDestroy, .advance, .advance, .ret, .ret]

theorem lifecycle_adding : ∃ s, run (step 1) (init 1 10 []) addingActs = some s ∧
    s.stack = [] ∧ s.log = [.OnCreate 1, .OnDestroy 1, .OnCreate 2, .OnDestroy 2] ∧
    Lifecycle s := by
  have hrun : (run (step 1) (init 1 10 []) addingActs).map (fun s => (s.stack, s.log)) =
      some ([], [.OnCreate 1, .OnDestroy 1, .OnCreate 2, .OnDestroy 2]) := by decide
  obtain ⟨s, hs, heq⟩ := Option.map_eq_some_iff.mp hrun
  rw [Prod.mk.injEq] at heq
  refine ⟨s, hs, heq.1, heq.2, lifecycle (Reachable.of_run_ok ?_ hs)⟩
  have hundisposed : ∀ n < addingActs.length,
      ∀ t ∈ run (step 1) (init 1 10 []) (addingActs.take n), ∀ a ∈ addingActs[n]?,
        Undisposed t a := by decide
  intro n t a ht ha
  exact hundisposed n (List.getElem?_eq_some_iff.mp ha).1 t ht a ha

end CoreLooper.HandlerLifecycle
