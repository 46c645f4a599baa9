import CoreLooper.HandlerForest

/-!
# The lookup of a child with and without the cache

A child in the cache stays a child of the handler for as long as it lives, whatever is
renamed, added or destroyed meanwhile, so that its name is all that has to be checked.
-/
namespace CoreLooper.HandlerTree

open CStrings TextSeparator Transitions

/-- The children that live have different names. -/
def DistinctNames (s : Heap) (h : HandlerId) : Prop :=
  ∀ d item item' c c', s.handlers h = some d → item ∈ d.mChildren → item' ∈ d.mChildren →
    s.handlers item.2 = some c → s.handlers item'.2 = some c' →
    c.mObjectName = c'.mObjectName → item.2 = item'.2

variable {s : Heap} {h w : HandlerId} {url name : Bytes}

theorem reachable_ok (hs : Reachable step (fun _ _ => True) Heap.empty s) : s.Ok :=
  hs.invariant .empty fun _ _ _ hok _ hstep => hok.step hstep

/-- With different names `GetChild` finds the child that has the name. -/
theorem getChild_eq (hnames : DistinctNames s h) {d c : TagHandlerInternalData} {key : ℕ}
    (hd : s.handlers h = some d) (hcreated : d.mCreated = true) (hitem : (key, w) ∈ d.mChildren)
    (hw : s.handlers w = some c) : getChild s h c.mObjectName none = some w := by
  have hnamed : isNamed s c.mObjectName (key, w) = true := by
    rw [isNamed, hw]
    exact decide_eq_true rfl
  have hfound : (getChild s h c.mObjectName none).isSome := by
    rw [getChild, hd]
    dsimp only
    rw [if_neg (not_not.mpr hcreated), Option.isSome_map, List.find?_isSome]
    exact ⟨(key, w), hitem, decide_eq_true ⟨.inl rfl, hnamed⟩⟩
  obtain ⟨w', hw'⟩ := Option.isSome_iff_exists.mp hfound
  obtain ⟨d', key', c', hd', -, hitem', hc', hname⟩ := getChild_child hw'
  rw [hd, Option.some_inj] at hd'
  subst hd'
  rw [hw', Option.some_inj]
  exact hnames d (key', w') (key, w) c' c hd hitem' hitem hc' hw hname

/-- A cached child is the one `GetChild` finds. -/
theorem Heap.Ok.cachedChild_eq (hs : s.Ok) (hnames : DistinctNames s h) (hurl : Plain url)
    {d : TagHandlerInternalData} (hd : s.handlers h = some d) (hcreated : d.mCreated = true)
    (hcached : cachedChild s d url = some w) : getChild s h url none = some w := by
  unfold cachedChild at hcached
  cases hfind : findItem d.mCacheChilds url with
  | none =>
      rw [hfind] at hcached
      exact absurd hcached (by simp)
  | some obj =>
      rw [hfind] at hcached
      dsimp only at hcached
      cases hc : s.handlers obj with
      | none =>
          rw [hc] at hcached
          exact absurd hcached (by simp)
      | some c =>
          rw [hc] at hcached
          dsimp only at hcached
          split_ifs at hcached with hname
          rw [Option.some_inj] at hcached
          subst hcached
          have hparent := hs.cached_child hd (mem_of_findItem hfind) hurl hc
          have hfound := getChild_eq hnames hd hcreated (hs.item_of_parent hc hparent hd) hc
          rwa [hname] at hfound

/-- Only a text without the delimiter, or with it at the end, has one item. -/
theorem url_of_items (hitems : items url (ascii "/") = [name])
    (hslash : 47 ∉ url) : url = name := by
  have hne : url ≠ [] := by
    intro heq
    rw [heq] at hitems
    exact absurd hitems.symm (List.cons_ne_nil _ _)
  have hone : items url (ascii "/") = [url] := itemsLoop_last hne hslash _
  rw [hone, List.singleton_inj] at hitems
  exact hitems

/-- In every state, the lookup of a child by a url of one item without brackets gives what
`GetChild` gives. -/
theorem findObject_eq_getChild (hs : Reachable step (fun _ _ => True) Heap.empty s)
    (hnames : DistinctNames s h) (hitems : items url (ascii "/") = [name]) (hnull : 0 ∉ url)
    (hbracket : bracket name = none) (mapChild : HandlerId → Bytes → Option HandlerId) :
    (findObject s h url mapChild).1 = getChild s h name none := by
  have hok := reachable_ok hs
  have hwalk : walk s mapChild h none (items (cstr url) (ascii "/")) =
      getChild s h name none := by
    rw [cstr_eq_self hnull, hitems, walk, walkItem, hbracket]
    dsimp only [Option.getD_none]
    cases getChild s h name none with
    | none => rfl
    | some w => rfl
  unfold findObject
  cases hd : s.handlers h with
  | none => rw [getChild, hd]
  | some d =>
      dsimp only
      by_cases hcreated : d.mCreated = true
      · rw [if_neg (not_not.mpr hcreated)]
        unfold findObject_Impl
        cases hcached : (if directChild url then
            (s.handlers h).bind (cachedChild s · url) else none) with
        | some w =>
            split_ifs at hcached with hdirect
            have hslash : 47 ∉ url := of_decide_eq_true hdirect
            have hname := url_of_items hitems hslash
            subst hname
            rw [hd, Option.bind_some] at hcached
            exact (hok.cachedChild_eq hnames ⟨hslash, hnull, hbracket⟩ hd hcreated hcached).symm
        | none =>
            dsimp only
            rw [hwalk]
            cases getChild s h name none with
            | none => rfl
            | some w => rfl
      · rw [if_pos hcreated, getChild, hd]
        dsimp only
        rw [if_pos hcreated]

/-- A looper with one child under the given name. -/
def oneChild (name : Bytes) : List Act :=
  [.construct 1 true (ascii "main"), .start 0 1, .construct 2 false [],
    .addChild 0 1 name 1 (some 0) [(2, 1)], .create 1]

theorem distinctNames_of_singleton {item : ℕ × HandlerId}
    (hone : (s.handlers h).map (·.mChildren) = some [item]) : DistinctNames s h := by
  intro d i i' c c' hd hi hi' _ _ _
  rw [hd, Option.map_some, Option.some_inj] at hone
  rw [hone, List.mem_singleton] at hi hi'
  rw [hi, hi']

/-- The second lookup of the child is answered by the cache. -/
theorem findObject_eq_getChild_again :
    ∃ s, run step Heap.empty
        (oneChild (ascii "a") ++ [.findObject 0 (ascii "a") fun _ _ => none]) = some s ∧
      (s.handlers 0).bind (cachedChild s · (ascii "a")) = some 1 ∧
      (findObject s 0 (ascii "a") fun _ _ => none).1 = getChild s 0 (ascii "a") none := by
  have hvalues : (run step Heap.empty (oneChild (ascii "a") ++
        [.findObject 0 (ascii "a") fun _ _ => none])).map (fun s =>
      ((s.handlers 0).bind (cachedChild s · (ascii "a")), (s.handlers 0).map (·.mChildren))) =
      some (some 1, some [(2, 1)]) := by
    decide
  obtain ⟨s, hrun, hs⟩ := Option.map_eq_some_iff.mp hvalues
  rw [Prod.mk.injEq] at hs
  exact ⟨s, hrun, hs.1, findObject_eq_getChild (Reachable.start.of_run hrun)
    (distinctNames_of_singleton hs.2) (by decide) (by decide) (by decide) _⟩

/-- A child whose name has brackets is found by `GetChild` only: the url `a[b]` asks the child
`a` for its `b`. -/
theorem findObject_bracket :
    ¬ ∀ (s : Heap) (h : HandlerId) (url : Bytes) (mapChild : HandlerId → Bytes → Option HandlerId),
      Reachable step (fun _ _ => True) Heap.empty s → DistinctNames s h →
      items url (ascii "/") = [url] → 0 ∉ url →
        (findObject s h url mapChild).1 = getChild s h url none := by
  intro hclaim
  have hvalues : (run step Heap.empty (oneChild (ascii "a[b]"))).map (fun s =>
      ((s.handlers 0).map (·.mChildren), (findObject s 0 (ascii "a[b]") fun _ _ => none).1,
        getChild s 0 (ascii "a[b]") none)) = some (some [(2, 1)], none, some 1) := by
    decide
  obtain ⟨s, hrun, hs⟩ := Option.map_eq_some_iff.mp hvalues
  rw [Prod.mk.injEq, Prod.mk.injEq] at hs
  have hsame := hclaim s 0 (ascii "a[b]") (fun _ _ => none) (Reachable.start.of_run hrun)
    (distinctNames_of_singleton hs.1) (by decide) (by decide)
  rw [hs.2.1, hs.2.2] at hsame
  exact absurd hsame (by decide)

end CoreLooper.HandlerTree
