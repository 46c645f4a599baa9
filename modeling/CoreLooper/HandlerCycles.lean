import CoreLooper.HandlerForest

/-!
# Which calls of `AddChild` close a cycle
-/
namespace CoreLooper.HandlerTree

open CStrings ParentForest Transitions

/-- The parent pointers have no cycle, and they agree with the children. -/
structure Forest (s : Heap) : Prop where
  acyclic : Acyclic s.parentOf
  parent_alive : ∀ h p, s.parentOf h = some p → (s.handlers p).isSome
  one_parent : ∀ h c p q d e key key', s.handlers h = some c → s.handlers p = some d →
    s.handlers q = some e → (key, h) ∈ d.mChildren → (key', h) ∈ e.mChildren → p = q
  child_iff : ∀ h c p d, s.handlers h = some c → s.handlers p = some d →
    ((∃ key, (key, h) ∈ d.mChildren) ↔ c.mParent = some p)

/-- The step is an `AddChild` that reaches a handler below the looper it is called with, the
looper itself included, and the looper has no parent. -/
def ClosesCycle (s : Heap) : Act → Prop
  | .addChild p c _ tid _ _ => Below s.parentOf p c ∧ ∃ data child, s.handlers p = some data ∧
      s.handlers c = some child ∧ child.mIsLooper = true ∧ child.mParent = none ∧
      (data.mThreadId = tid ∨ delivered s p = true)
  | _ => False

variable {s s' : Heap} {h p c : HandlerId} {name : Bytes} {tid : ℕ} {current : Option HandlerId}
  {order : List (ℕ × HandlerId)}

theorem Heap.Ok.forest (hs : s.Ok) (hacyclic : Acyclic s.parentOf) : Forest s := by
  constructor
  case acyclic => exact hacyclic
  case parent_alive =>
    intro h p hp
    obtain ⟨d, hd, hparent⟩ := Option.bind_eq_some_iff.mp hp
    exact hs.parent_alive hd hparent
  case one_parent =>
    intro h c p q d e key key' hc hd he hkey hkey'
    have hp := (hs.parent_of_item hd hkey hc).1
    rw [(hs.parent_of_item he hkey' hc).1, Option.some_inj] at hp
    exact hp.symm
  case child_iff =>
    intro h c p d hc hd
    constructor
    · rintro ⟨key, hkey⟩
      exact (hs.parent_of_item hd hkey hc).1
    · intro hparent
      exact ⟨c.mHandler, hs.item_of_parent hc hparent hd⟩

theorem parentOf_modify {f : TagHandlerInternalData → TagHandlerInternalData}
    (hf : ∀ d, (f d).mParent = d.mParent) : (s.modify h f).parentOf = s.parentOf := by
  funext k
  by_cases hkh : k = h
  · subst hkh
    rw [Heap.parentOf, Heap.modify_self, Heap.parentOf]
    cases s.handlers k with
    | none => rfl
    | some d => exact hf d
  · rw [Heap.parentOf, Heap.modify_of_ne hkh, Heap.parentOf]

/-- Only an `AddChild` sets a parent pointer. -/
theorem Change.parentOf {a : Act} (h : Change s a s') :
    (∀ x y, s'.parentOf x = some y → s.parentOf x = some y) ∨
      ∃ p c name tid current order data child, a = .addChild p c name tid current order ∧
        s.handlers p = some data ∧ s.handlers c = some child ∧ child.mParent = none ∧
        (child.mIsLooper = true ∨ child.mCreated = false) ∧
        (data.mThreadId = tid ∨ delivered s p = true) ∧
        (data.mIsLooper = false → data.mParent.isSome) ∧
        s'.parentOf = Function.update s.parentOf c (some p) := by
  cases h with
  | same => exact .inl fun _ _ hxy => hxy
  | add d₀ hparent =>
      refine .inl fun x y hxy => ?_
      obtain ⟨d, hd, hup⟩ := Option.bind_eq_some_iff.mp hxy
      cases Heap.add_eq_some hd with
      | inl hnew =>
          rw [hnew.2, hparent] at hup
          exact absurd hup (by simp)
      | inr hold => rw [Heap.parentOf, hold.2, Option.bind_some, hup]
  | inPlace h f hplace =>
      left
      rw [parentOf_modify fun d => (hplace d).2.1]
      exact fun _ _ hxy => hxy
  | attach p c name tid current order data child hp hc hroot hnew hreach hattached horder =>
      refine .inr ⟨p, c, name, tid, current, order, data, child, rfl, hp, hc, hroot, hnew, hreach,
        hattached, Heap.parentOf_attach (by rw [hc]; rfl)⟩
  | dtor h d hd hleaf =>
      refine .inl fun x y hxy => ?_
      have hself : d.mParent ≠ some h := by
        have := hleaf h
        rwa [Heap.parentOf, hd, Option.bind_some] at this
      have hremoved : (s.remove h).parentOf x = some y := by
        rw [dtor_eq hself] at hxy
        split at hxy
        · exact hxy
        · split_ifs at hxy
          · rw [parentOf_modify] at hxy
            · exact hxy
            · exact fun _ => rfl
          · exact hxy
      obtain ⟨e, he, hup⟩ := Option.bind_eq_some_iff.mp hremoved
      rw [Heap.parentOf, (Heap.remove_eq_some he).2, Option.bind_some, hup]

/-- A handler that is no looper has no children before it has a parent. -/
theorem Heap.Ok.not_below (hs : s.Ok) {data child : TagHandlerInternalData}
    (hp : s.handlers p = some data) (hc : s.handlers c = some child)
    (hroot : child.mParent = none) (hlooper : child.mIsLooper = false)
    (hattached : data.mIsLooper = false → data.mParent.isSome) : ¬ Below s.parentOf p c := by
  intro hbelow
  cases Relation.ReflTransGen.cases_tail hbelow with
  | inl heq =>
      rw [heq, hp, Option.some_inj] at hc
      have hsome := hattached (hc ▸ hlooper)
      rw [hc, hroot] at hsome
      exact absurd hsome (by simp)
  | inr hlast =>
      obtain ⟨x, -, hx⟩ := hlast
      obtain ⟨d, hd, hup⟩ := Option.bind_eq_some_iff.mp hx
      have hsome := hs.parent_attached hd hup hc hlooper
      rw [hroot] at hsome
      exact absurd hsome (by simp)

/-- A step that closes no cycle leaves the parent pointers without one. -/
theorem acyclic_step (hs : s.Ok) {a : Act} (hacyclic : Acyclic s.parentOf)
    (hok : ¬ ClosesCycle s a) (h : step s a = some s') : Acyclic s'.parentOf := by
  cases (hs.change_of_step h).parentOf with
  | inl hsub => exact hacyclic.mono hsub
  | inr hadd =>
      obtain ⟨p, c, name, tid, current, order, data, child, rfl, hp, hc, hroot, -, hreach,
        hattached, heq⟩ := hadd
      rw [heq]
      apply hacyclic.attach
      intro hbelow
      cases hlooper : child.mIsLooper with
      | true => exact hok ⟨hbelow, data, child, hp, hc, hlooper, hroot, hreach⟩
      | false => exact hs.not_below hp hc hroot hlooper hattached hbelow

/-- An `AddChild` that reaches the parent hangs a looper without a parent there. -/
theorem addChild_looper {data child : TagHandlerInternalData} (hp : s.handlers p = some data)
    (hc : s.handlers c = some child) (hlooper : child.mIsLooper = true)
    (hroot : child.mParent = none) (hreach : data.mThreadId = tid ∨ delivered s p = true) :
    (addChild s p c name tid current order).2 =
      s.attach p c name data.mThreadId current order := by
  have hgate : (s.handlers p).map (·.mThreadId) = some tid ∨ delivered s p = true := by
    rwa [hp, Option.map_some, Option.some_inj]
  have haccept : ¬ (child.mParent.isSome ∨ ¬ child.mIsLooper ∧ child.mCreated) := by
    simp [hroot, hlooper]
  rw [addChild, if_pos hgate, addChildHelper, hp, hc]
  dsimp only
  rw [if_neg haccept]
  rfl

/-- An `AddChild` that would make a handler its own ancestor changes nothing, unless it closes
a cycle. -/
theorem addChild_rejected (hs : s.Ok) (htid : tid ≠ 0) (hbelow : Below s.parentOf p c)
    (hok : ¬ ClosesCycle s (.addChild p c name tid current order)) :
    (addChild s p c name tid current order).2 = s := by
  cases @addChild_cases s p c name tid current order with
  | inl hsame => exact hsame
  | inr hnew =>
      obtain ⟨data, child, hp, hc, hroot, -, hreach, -⟩ := hnew
      cases hlooper : child.mIsLooper with
      | true => exact absurd ⟨hbelow, data, child, hp, hc, hlooper, hroot, hreach⟩ hok
      | false =>
          exact absurd hbelow
            (hs.not_below hp hc hroot hlooper (hs.reached hp htid hreach))

/-- In a run, the handlers are a forest in every state and an `AddChild` that would make a
handler its own ancestor changes nothing, exactly when no `AddChild` of the run hangs a looper
below itself. -/
theorem forest_run_iff {as : List Act} (hrun : (run step Heap.empty as).isSome) :
    (∀ n t, run step Heap.empty (as.take n) = some t → Forest t ∧
      ∀ p c name tid current order, as[n]? = some (.addChild p c name tid current order) →
        Below t.parentOf p c → (addChild t p c name tid current order).2 = t) ↔
    ∀ n t a, run step Heap.empty (as.take n) = some t → as[n]? = some a → ¬ ClosesCycle t a := by
  constructor
  · intro hforest n t a ht ha hcloses
    cases a with
    | addChild p c name tid current order =>
        obtain ⟨hbelow, data, child, hp, hc, hlooper, hroot, hreach⟩ := hcloses
        have hsame := (hforest n t ht).2 p c name tid current order ha hbelow
        rw [addChild_looper hp hc hlooper hroot hreach] at hsame
        have hhung : (t.attach p c name data.mThreadId current order).parentOf c = some p := by
          rw [Heap.parentOf_attach (by rw [hc]; rfl), Function.update_self]
        rw [hsame, Heap.parentOf, hc, Option.bind_some, hroot] at hhung
        exact absurd hhung (by simp)
    | _ => exact hcloses
  · intro hok n t ht
    have hreachable : Reachable step (fun s a => ¬ ClosesCycle s a) Heap.empty t := by
      apply Reachable.of_run_ok _ ht
      intro m u a hu ha
      obtain ⟨hm, ha⟩ := List.getElem?_eq_some_iff.mp ha
      have hmn : m < n := by
        rw [List.length_take] at hm
        omega
      apply hok m u a
      · rwa [List.take_take, Nat.min_eq_left hmn.le] at hu
      · rw [← ha, List.getElem_take]
        exact List.getElem?_eq_getElem _
    have hboth : t.Ok ∧ Acyclic t.parentOf :=
      hreachable.invariant (I := fun s => s.Ok ∧ Acyclic s.parentOf) ⟨.empty, acyclic_none⟩
        fun _ _ _ hs hnot hstep => ⟨hs.1.step hstep, acyclic_step hs.1 hs.2 hnot hstep⟩
    constructor
    · exact hboth.1.forest hboth.2
    · intro p c name tid current order ha hbelow
      have hnot := hok n t _ ht ha
      have htid : tid ≠ 0 := by
        obtain ⟨u, hu⟩ := Option.isSome_iff_exists.mp (step_isSome_of_run hrun ht ha)
        simp only [step, Option.ite_none_right_eq_some] at hu
        exact hu.1.2.1
      exact addChild_rejected hboth.1 htid hbelow hnot

/-- The main looper and a second one, hung below it. -/
def twoLoopers : List Act :=
  [.construct 1 true (ascii "main"), .start 0 1, .construct 2 true (ascii "second"), .start 1 2,
    .addChild 0 1 [] 1 (some 0) [(2, 1)]]

theorem forest_run_iff_twoLoopers :
    ∃ s, run step Heap.empty twoLoopers = some s ∧ s.parentOf 1 = some 0 ∧ Forest s := by
  have hvalues : (run step Heap.empty twoLoopers).map (·.parentOf 1) = some (some 0) := by
    decide
  obtain ⟨s, hrun, hs⟩ := Option.map_eq_some_iff.mp hvalues
  refine ⟨s, hrun, hs, ((@forest_run_iff twoLoopers (by decide)).mpr ?_ 5 s hrun).1⟩
  intro n t a ht ha hcloses
  rcases n with _ | _ | _ | _ | _ | n
  case succ.succ.succ.succ.zero =>
    cases ha
    have hroot : (run step Heap.empty (twoLoopers.take 4)).map (·.parentOf 0) = some none := by
      decide
    rw [ht, Option.map_some, Option.some_inj] at hroot
    exact absurd (eq_of_below_of_root hroot hcloses.1) (by decide)
  all_goals
    cases ha
    try exact hcloses

/-- The main looper takes itself as a child, and it takes its own parent as one. -/
theorem looper_below_itself :
    (∃ s, run step Heap.empty [.construct 1 true (ascii "main"), .start 0 1,
        .addChild 0 0 [] 1 (some 0) [(1, 0)]] = some s ∧ s.parentOf 0 = some 0 ∧ ¬ Forest s) ∧
      ∃ s, run step Heap.empty (twoLoopers ++ [.addChild 1 0 [] 2 (some 1) [(1, 0)]]) = some s ∧
        s.parentOf 0 = some 1 ∧ s.parentOf 1 = some 0 ∧ ¬ Forest s := by
  constructor
  · have hvalues : (run step Heap.empty [.construct 1 true (ascii "main"), .start 0 1,
        .addChild 0 0 [] 1 (some 0) [(1, 0)]]).map (·.parentOf 0) = some (some 0) := by
      decide
    obtain ⟨s, hrun, hs⟩ := Option.map_eq_some_iff.mp hvalues
    exact ⟨s, hrun, hs, fun hforest => hforest.acyclic 0 (.single hs)⟩
  · have hvalues : (run step Heap.empty (twoLoopers ++
        [.addChild 1 0 [] 2 (some 1) [(1, 0)]])).map (fun s => (s.parentOf 0, s.parentOf 1)) =
        some (some 1, some 0) := by
      decide
    obtain ⟨s, hrun, hs⟩ := Option.map_eq_some_iff.mp hvalues
    rw [Prod.mk.injEq] at hs
    exact ⟨s, hrun, hs.1, hs.2,
      fun hforest => hforest.acyclic 0 (.tail (.single hs.1) hs.2)⟩

end CoreLooper.HandlerTree
