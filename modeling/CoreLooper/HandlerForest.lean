import CoreLooper.HandlerTree

/-!
# The handlers stay a forest

Parent pointers and children agree in every state. A parent pointer is set once and stays
until the object ends, so that a cycle never goes away. Only a looper can close one:
`AddChildHelper` asks another handler that it has no parent and is not created, and such a
handler has no children.
-/
namespace CoreLooper.HandlerTree

open CStrings TextSeparator ParentForest

/-- A url that names a direct child by its name. -/
structure Plain (url : Bytes) : Prop where
  no_slash : 47 ∉ url
  no_null : 0 ∉ url
  no_bracket : bracket url = none

/-- What holds of the objects in every state. -/
structure Heap.Ok (s : Heap) : Prop where
  fresh : ∀ {h d}, s.handlers h = some d → h < s.next
  item_old : ∀ {p d item}, s.handlers p = some d → item ∈ d.mChildren → item.2 < s.next
  parent_alive : ∀ {h d p}, s.handlers h = some d → d.mParent = some p → (s.handlers p).isSome
  parent_of_item : ∀ {p d item c}, s.handlers p = some d → item ∈ d.mChildren →
    s.handlers item.2 = some c → c.mParent = some p ∧ item.1 = c.mHandler
  item_of_parent : ∀ {h c p d}, s.handlers h = some c → c.mParent = some p →
    s.handlers p = some d → (c.mHandler, h) ∈ d.mChildren
  address_inj : ∀ {h k d e}, s.handlers h = some d → s.handlers k = some e →
    d.mHandler = e.mHandler → h = k
  attached : ∀ {h d}, s.handlers h = some d → d.mIsLooper = false →
    d.mCreated ∨ d.mThreadId ≠ 0 ∨ d.mLooper.isSome → d.mParent.isSome
  parent_attached : ∀ {h d p e}, s.handlers h = some d → d.mParent = some p →
    s.handlers p = some e → e.mIsLooper = false → e.mParent.isSome
  cached_old : ∀ {h d url w}, s.handlers h = some d → (url, w) ∈ d.mCacheChilds → Plain url →
    w < s.next
  cached_child : ∀ {h d url w c}, s.handlers h = some d → (url, w) ∈ d.mCacheChilds →
    Plain url → s.handlers w = some c → c.mParent = some h

variable {s s' : Heap} {h p c : HandlerId}

theorem Heap.Ok.empty : Heap.empty.Ok := by
  constructor <;> intros <;> exact absurd ‹Heap.empty.handlers _ = some _› (by simp [Heap.empty])

/-- A change of one handler that keeps its place in the tree. -/
theorem Heap.Ok.modify {f : TagHandlerInternalData → TagHandlerInternalData} (hs : s.Ok)
    (hplace : ∀ d, s.handlers h = some d → (f d).mHandler = d.mHandler ∧
      (f d).mParent = d.mParent ∧ (f d).mIsLooper = d.mIsLooper)
    (hitem : ∀ d, s.handlers h = some d → ∀ item ∈ (f d).mChildren, item ∈ d.mChildren)
    (hlive : ∀ d, s.handlers h = some d → ∀ item ∈ d.mChildren, (s.handlers item.2).isSome →
      item ∈ (f d).mChildren)
    (hattached : ∀ d, s.handlers h = some d → d.mIsLooper = false →
      (f d).mCreated ∨ (f d).mThreadId ≠ 0 ∨ (f d).mLooper.isSome → d.mParent.isSome)
    (hcached : ∀ d, s.handlers h = some d → ∀ url w, (url, w) ∈ (f d).mCacheChilds →
      Plain url → (url, w) ∈ d.mCacheChilds ∨ w < s.next ∧ ∀ c, s.handlers w = some c →
        c.mParent = some h) :
    (s.modify h f).Ok := by
  -- every handler after the change is one from before in the same place
  have hold : ∀ {k d'}, (s.modify h f).handlers k = some d' → ∃ d, s.handlers k = some d ∧
      d'.mHandler = d.mHandler ∧ d'.mParent = d.mParent ∧ d'.mIsLooper = d.mIsLooper := by
    intro k d' hk
    obtain ⟨d, hd, rfl⟩ := Heap.modify_eq_some hk
    refine ⟨d, hd, ?_⟩
    split_ifs with hkh
    · exact hplace d (hkh ▸ hd)
    · exact ⟨rfl, rfl, rfl⟩
  have hitems : ∀ {k d'}, (s.modify h f).handlers k = some d' → ∃ d, s.handlers k = some d ∧
      (∀ item ∈ d'.mChildren, item ∈ d.mChildren) ∧
      ∀ item ∈ d.mChildren, (s.handlers item.2).isSome → item ∈ d'.mChildren := by
    intro k d' hk
    obtain ⟨d, hd, rfl⟩ := Heap.modify_eq_some hk
    refine ⟨d, hd, ?_⟩
    split_ifs with hkh
    · exact ⟨hitem d (hkh ▸ hd), hlive d (hkh ▸ hd)⟩
    · exact ⟨fun _ hi => hi, fun _ hi _ => hi⟩
  have hcaches : ∀ {k d' url w}, (s.modify h f).handlers k = some d' →
      (url, w) ∈ d'.mCacheChilds → Plain url →
      w < s.next ∧ ∀ c, s.handlers w = some c → c.mParent = some k := by
    intro k d' url w hk hmem hurl
    obtain ⟨d, hd, rfl⟩ := Heap.modify_eq_some hk
    split_ifs at hmem with hkh
    · subst hkh
      cases hcached d hd url w hmem hurl with
      | inl hmem => exact ⟨hs.cached_old hd hmem hurl, fun _ => hs.cached_child hd hmem hurl⟩
      | inr hnew => exact hnew
    · exact ⟨hs.cached_old hd hmem hurl, fun _ => hs.cached_child hd hmem hurl⟩
  have hstill : ∀ {k d}, s.handlers k = some d → ((s.modify h f).handlers k).isSome := by
    intro k d hd
    by_cases hkh : k = h
    · subst hkh
      rw [Heap.modify_self, hd]
      rfl
    · rw [Heap.modify_of_ne hkh, hd]
      rfl
  constructor
  case fresh =>
    intro k d' hk
    obtain ⟨d, hd, -⟩ := hold hk
    exact hs.fresh hd
  case item_old =>
    intro k d' item hk hi
    obtain ⟨d, hd, hsub, -⟩ := hitems hk
    exact hs.item_old hd (hsub item hi)
  case parent_alive =>
    intro k d' q hk hq
    obtain ⟨d, hd, -, hparent, -⟩ := hold hk
    obtain ⟨e, he⟩ := Option.isSome_iff_exists.mp (hs.parent_alive hd (hparent ▸ hq))
    exact hstill he
  case parent_of_item =>
    intro q d' item c' hq hi hc
    obtain ⟨d, hd, hsub, -⟩ := hitems hq
    obtain ⟨c, hc, haddress, hparent, -⟩ := hold hc
    rw [haddress, hparent]
    exact hs.parent_of_item hd (hsub item hi) hc
  case item_of_parent =>
    intro k c' q d' hk hparent hq
    obtain ⟨c, hc, haddress, hkept, -⟩ := hold hk
    obtain ⟨d, hd, -, hsub⟩ := hitems hq
    rw [haddress]
    apply hsub _ (hs.item_of_parent hc (hkept ▸ hparent) hd)
    rw [hc]
    rfl
  case address_inj =>
    intro k l d' e' hk hl heq
    obtain ⟨d, hd, haddress, -⟩ := hold hk
    obtain ⟨e, he, haddress', -⟩ := hold hl
    exact hs.address_inj hd he (by rw [← haddress, ← haddress', heq])
  case attached =>
    intro k d' hk hlooper hatt
    obtain ⟨d, hd, rfl⟩ := Heap.modify_eq_some hk
    split_ifs at hlooper hatt ⊢ with hkh
    · subst hkh
      rw [(hplace d hd).2.1]
      exact hattached d hd ((hplace d hd).2.2 ▸ hlooper) hatt
    · exact hs.attached hd hlooper hatt
  case parent_attached =>
    intro k d' q e' hk hparent hq hlooper
    obtain ⟨d, hd, -, hparent', -⟩ := hold hk
    obtain ⟨e, he, -, hup, hlooper'⟩ := hold hq
    rw [hup]
    exact hs.parent_attached hd (hparent' ▸ hparent) he (hlooper' ▸ hlooper)
  case cached_old =>
    intro k d' url w hk hmem hurl
    exact (hcaches hk hmem hurl).1
  case cached_child =>
    intro k d' url w c' hk hmem hurl hw
    obtain ⟨c, hc, -, hparent, -⟩ := hold hw
    rw [hparent]
    exact (hcaches hk hmem hurl).2 c hc

section Construct
variable {d₀ : TagHandlerInternalData}

/-- A new object, at an address nobody has. -/
def Heap.add (s : Heap) (d₀ : TagHandlerInternalData) : Heap :=
  ⟨Function.update s.handlers s.next (some d₀), s.next + 1⟩

theorem Heap.add_self : (s.add d₀).handlers s.next = some d₀ := Function.update_self ..

theorem Heap.add_of_ne {k : HandlerId} (hne : k ≠ s.next) :
    (s.add d₀).handlers k = s.handlers k :=
  Function.update_of_ne hne ..

theorem Heap.add_eq_some {k : HandlerId} {d : TagHandlerInternalData}
    (hk : (s.add d₀).handlers k = some d) :
    k = s.next ∧ d = d₀ ∨ k ≠ s.next ∧ s.handlers k = some d := by
  by_cases hnew : k = s.next
  · subst hnew
    rw [Heap.add_self, Option.some_inj] at hk
    exact .inl ⟨rfl, hk.symm⟩
  · rw [Heap.add_of_ne hnew] at hk
    exact .inr ⟨hnew, hk⟩

theorem Heap.Ok.add (hs : s.Ok) (hparent : d₀.mParent = none) (hchildren : d₀.mChildren = [])
    (hcache : d₀.mCacheChilds = []) (hfree : d₀.mCreated = false ∧ d₀.mThreadId = 0 ∧
      d₀.mLooper = none)
    (haddress : ∀ k d, s.handlers k = some d → d.mHandler ≠ d₀.mHandler) : (s.add d₀).Ok := by
  have hlives : ∀ {k}, (s.handlers k).isSome → ((s.add d₀).handlers k).isSome := by
    intro k hk
    by_cases hnew : k = s.next
    · rw [hnew, Heap.add_self]
      rfl
    · rwa [Heap.add_of_ne hnew]
  constructor
  case fresh =>
    intro k d hk
    cases Heap.add_eq_some hk with
    | inl hk => exact hk.1 ▸ Nat.lt_succ_self _
    | inr hk => exact Nat.lt_succ_of_lt (hs.fresh hk.2)
  case item_old =>
    intro q d item hq hi
    cases Heap.add_eq_some hq with
    | inl hq =>
        rw [hq.2, hchildren] at hi
        exact absurd hi List.not_mem_nil
    | inr hq => exact Nat.lt_succ_of_lt (hs.item_old hq.2 hi)
  case parent_alive =>
    intro k d q hk hq
    cases Heap.add_eq_some hk with
    | inl hk =>
        rw [hk.2, hparent] at hq
        exact absurd hq (by simp)
    | inr hk => exact hlives (hs.parent_alive hk.2 hq)
  case parent_of_item =>
    intro q d item e hq hi he
    cases Heap.add_eq_some hq with
    | inl hq =>
        rw [hq.2, hchildren] at hi
        exact absurd hi List.not_mem_nil
    | inr hq =>
        cases Heap.add_eq_some he with
        | inl he => exact absurd (he.1 ▸ hs.item_old hq.2 hi) (Nat.lt_irrefl _)
        | inr he => exact hs.parent_of_item hq.2 hi he.2
  case item_of_parent =>
    intro k e q d hk hup hq
    cases Heap.add_eq_some hk with
    | inl hk =>
        rw [hk.2, hparent] at hup
        exact absurd hup (by simp)
    | inr hk =>
        cases Heap.add_eq_some hq with
        | inl hq =>
            obtain ⟨x, hx⟩ := Option.isSome_iff_exists.mp (hs.parent_alive hk.2 hup)
            exact absurd (hq.1 ▸ hs.fresh hx) (Nat.lt_irrefl _)
        | inr hq => exact hs.item_of_parent hk.2 hup hq.2
  case address_inj =>
    intro k l d e hk hl heq
    cases Heap.add_eq_some hk with
    | inl hk =>
        cases Heap.add_eq_some hl with
        | inl hl => rw [hk.1, hl.1]
        | inr hl =>
            rw [hk.2] at heq
            exact absurd heq.symm (haddress l e hl.2)
    | inr hk =>
        cases Heap.add_eq_some hl with
        | inl hl =>
            rw [hl.2] at heq
            exact absurd heq (haddress k d hk.2)
        | inr hl => exact hs.address_inj hk.2 hl.2 heq
  case attached =>
    intro k d hk hlooper hatt
    cases Heap.add_eq_some hk with
    | inl hk => simp [hk.2, hfree] at hatt
    | inr hk => exact hs.attached hk.2 hlooper hatt
  case parent_attached =>
    intro k d q e hk hup hq hlooper
    cases Heap.add_eq_some hk with
    | inl hk =>
        rw [hk.2, hparent] at hup
        exact absurd hup (by simp)
    | inr hk =>
        cases Heap.add_eq_some hq with
        | inl hq =>
            obtain ⟨x, hx⟩ := Option.isSome_iff_exists.mp (hs.parent_alive hk.2 hup)
            exact absurd (hq.1 ▸ hs.fresh hx) (Nat.lt_irrefl _)
        | inr hq => exact hs.parent_attached hk.2 hup hq.2 hlooper
  case cached_old =>
    intro k d url w hk hmem hurl
    cases Heap.add_eq_some hk with
    | inl hk =>
        rw [hk.2, hcache] at hmem
        exact absurd hmem List.not_mem_nil
    | inr hk => exact Nat.lt_succ_of_lt (hs.cached_old hk.2 hmem hurl)
  case cached_child =>
    intro k d url w e hk hmem hurl hw
    cases Heap.add_eq_some hk with
    | inl hk =>
        rw [hk.2, hcache] at hmem
        exact absurd hmem List.not_mem_nil
    | inr hk =>
        cases Heap.add_eq_some hw with
        | inl hw => exact absurd (hw.1 ▸ hs.cached_old hk.2 hmem hurl) (Nat.lt_irrefl _)
        | inr hw => exact hs.cached_child hk.2 hmem hurl hw.2

end Construct

section Dtor

def Heap.remove (s : Heap) (h : HandlerId) : Heap :=
  { s with handlers := Function.update s.handlers h none }

theorem Heap.remove_self : (s.remove h).handlers h = none := Function.update_self ..

theorem Heap.remove_of_ne {k : HandlerId} (hne : k ≠ h) :
    (s.remove h).handlers k = s.handlers k :=
  Function.update_of_ne hne ..

theorem Heap.remove_eq_some {k : HandlerId} {d : TagHandlerInternalData}
    (hk : (s.remove h).handlers k = some d) : k ≠ h ∧ s.handlers k = some d := by
  by_cases hkh : k = h
  · subst hkh
    rw [Heap.remove_self] at hk
    exact absurd hk (by simp)
  · rw [Heap.remove_of_ne hkh] at hk
    exact ⟨hkh, hk⟩

theorem Heap.Ok.remove (hs : s.Ok) (hleaf : ∀ k, s.parentOf k ≠ some h) : (s.remove h).Ok := by
  constructor
  case fresh => exact fun hk => hs.fresh (Heap.remove_eq_some hk).2
  case item_old => exact fun hq hi => hs.item_old (Heap.remove_eq_some hq).2 hi
  case parent_alive =>
    intro k d q hk hq
    obtain ⟨-, hk⟩ := Heap.remove_eq_some hk
    have hne : q ≠ h := by
      intro heq
      apply hleaf k
      rw [Heap.parentOf, hk, Option.bind_some, hq, heq]
    rw [Heap.remove_of_ne hne]
    exact hs.parent_alive hk hq
  case parent_of_item =>
    exact fun hq hi he => hs.parent_of_item (Heap.remove_eq_some hq).2 hi (Heap.remove_eq_some he).2
  case item_of_parent =>
    exact fun hk hup hq => hs.item_of_parent (Heap.remove_eq_some hk).2 hup
      (Heap.remove_eq_some hq).2
  case address_inj =>
    exact fun hk hl => hs.address_inj (Heap.remove_eq_some hk).2 (Heap.remove_eq_some hl).2
  case attached => exact fun hk => hs.attached (Heap.remove_eq_some hk).2
  case parent_attached =>
    exact fun hk hup hq =>
      hs.parent_attached (Heap.remove_eq_some hk).2 hup (Heap.remove_eq_some hq).2
  case cached_old => exact fun hk => hs.cached_old (Heap.remove_eq_some hk).2
  case cached_child =>
    exact fun hk hmem hurl hw =>
      hs.cached_child (Heap.remove_eq_some hk).2 hmem hurl (Heap.remove_eq_some hw).2

/-- The item goes after the object as well as before. -/
theorem dtor_eq {d : TagHandlerInternalData} (hne : d.mParent ≠ some h) :
    dtor s h d = match d.mParent with
      | none => s.remove h
      | some p =>
          if delivered s p then
            (s.remove h).modify p fun data =>
              { data with mChildren := eraseItem data.mChildren d.mHandler }
          else s.remove h := by
  cases hparent : d.mParent with
  | none => simp only [dtor, hparent, Heap.remove]
  | some p =>
      have hph : p ≠ h := by
        intro heq
        exact hne (heq ▸ hparent)
      simp only [dtor, hparent]
      by_cases hd : delivered s p
      · simp only [hd, if_true, Heap.modify, Heap.remove, Function.update_of_ne hph]
        rw [Function.update_comm hph]
      · simp only [hd, Bool.false_eq_true, if_false, Heap.remove]

theorem Heap.Ok.dtor {d : TagHandlerInternalData} (hs : s.Ok) (hd : s.handlers h = some d)
    (hleaf : ∀ k, s.parentOf k ≠ some h) : (dtor s h d).Ok := by
  have hself : d.mParent ≠ some h := by
    have := hleaf h
    rwa [Heap.parentOf, hd, Option.bind_some] at this
  rw [dtor_eq hself]
  have hrest := hs.remove hleaf
  cases hparent : d.mParent with
  | none => exact hrest
  | some p =>
      dsimp only
      split_ifs
      · apply hrest.modify
        · exact fun _ _ => ⟨rfl, rfl, rfl⟩
        · exact fun _ _ item hi => (mem_eraseItem.mp hi).1
        · intro e he item hi hlive
          obtain ⟨c, hc⟩ := Option.isSome_iff_exists.mp hlive
          obtain ⟨-, he⟩ := Heap.remove_eq_some he
          obtain ⟨hne, hc⟩ := Heap.remove_eq_some hc
          apply mem_eraseItem.mpr
          constructor
          · exact hi
          · intro hkey
            rw [(hs.parent_of_item he hi hc).2] at hkey
            exact hne (hs.address_inj hc hd hkey)
        · exact fun e he hlooper hatt => hrest.attached he hlooper hatt
        · exact fun _ _ url w hmem _ => .inl hmem
      · exact hrest

end Dtor

section AddChild
variable {name : Bytes} {tid : ℕ} {current : Option HandlerId} {order : List (ℕ × HandlerId)}

/-- The heap behind an `AddChildHelper` that hangs the child below the parent. -/
def Heap.attach (s : Heap) (p c : HandlerId) (name : Bytes) (tid : ℕ)
    (current : Option HandlerId) (order : List (ℕ × HandlerId)) : Heap :=
  (s.modify c (adopt p tid name current)).modify p fun data => { data with mChildren := order }

theorem Heap.attach_eq_some {k : HandlerId} {d' : TagHandlerInternalData}
    (hk : (s.attach p c name tid current order).handlers k = some d') :
    ∃ d, s.handlers k = some d ∧ d'.mHandler = d.mHandler ∧ d'.mIsLooper = d.mIsLooper ∧
      d'.mCreated = d.mCreated ∧ d'.mCacheChilds = d.mCacheChilds ∧
      (d'.mParent = if k = c then some p else d.mParent) ∧
      (d'.mChildren = if k = p then order else d.mChildren) ∧
      (k ≠ c → d'.mThreadId = d.mThreadId ∧ d'.mLooper = d.mLooper) := by
  obtain ⟨d₁, hd₁, rfl⟩ := Heap.modify_eq_some hk
  obtain ⟨d, hd, rfl⟩ := Heap.modify_eq_some hd₁
  refine ⟨d, hd, ?_⟩
  by_cases hkc : k = c <;> by_cases hkp : k = p <;> simp [hkc, hkp, adopt] <;> grind

theorem Heap.attach_isSome {k : HandlerId} (hk : (s.handlers k).isSome) :
    ((s.attach p c name tid current order).handlers k).isSome := by
  have hmodify : ∀ {t : Heap} {h f}, (t.handlers k).isSome →
    ((t.modify h f).handlers k).isSome := by
    intro t h f hk
    by_cases hkh : k = h
    · subst hkh
      rwa [Heap.modify_self, Option.isSome_map]
    · rwa [Heap.modify_of_ne hkh]
  exact hmodify (hmodify hk)

theorem Heap.parentOf_attach (hc : (s.handlers c).isSome) :
    (s.attach p c name tid current order).parentOf =
      Function.update s.parentOf c (some p) := by
  funext k
  by_cases hk : (s.handlers k).isSome
  · obtain ⟨d', hd'⟩ := Option.isSome_iff_exists.mp
      (@Heap.attach_isSome s p c name tid current order k hk)
    obtain ⟨d, hd, -, -, -, -, hparent, -⟩ := Heap.attach_eq_some hd'
    rw [Heap.parentOf, hd', Option.bind_some, hparent]
    split_ifs with hkc
    · rw [hkc, Function.update_self]
    · rw [Function.update_of_ne hkc, Heap.parentOf, hd, Option.bind_some]
  · have hkc : k ≠ c := by
      intro heq
      exact hk (heq ▸ hc)
    have hdead : (s.attach p c name tid current order).handlers k = none := by
      by_contra hlive
      obtain ⟨d', hd'⟩ := Option.ne_none_iff_exists'.mp hlive
      obtain ⟨d, hd, -⟩ := Heap.attach_eq_some hd'
      rw [hd] at hk
      exact hk rfl
    rw [Function.update_of_ne hkc, Heap.parentOf, Heap.parentOf, hdead,
      Option.not_isSome_iff_eq_none.mp hk]

theorem Heap.Ok.attach {data child : TagHandlerInternalData} (hs : s.Ok)
    (hp : s.handlers p = some data) (hc : s.handlers c = some child)
    (hroot : child.mParent = none) (hattached : data.mIsLooper = false → data.mParent.isSome)
    (horder : order.Perm (insertItem data.mChildren child.mHandler c)) :
    (s.attach p c name tid current order).Ok := by
  constructor
  case fresh =>
    intro k d' hk
    obtain ⟨d, hd, -⟩ := Heap.attach_eq_some hk
    exact hs.fresh hd
  case item_old =>
    intro k d' item hk hi
    obtain ⟨d, hd, -, -, -, -, -, hchildren, -⟩ := Heap.attach_eq_some hk
    rw [hchildren] at hi
    split_ifs at hi with hkp
    · cases mem_insertItem.mp (horder.mem_iff.mp hi) with
      | inl heq => exact heq ▸ hs.fresh hc
      | inr hold => exact hs.item_old hp hold.1
    · exact hs.item_old hd hi
  case parent_alive =>
    intro k d' q hk hq
    obtain ⟨d, hd, -, -, -, -, hparent, -⟩ := Heap.attach_eq_some hk
    apply Heap.attach_isSome
    rw [hparent] at hq
    split_ifs at hq with hkc
    · rw [← Option.some_inj.mp hq, hp]
      rfl
    · exact hs.parent_alive hd hq
  case parent_of_item =>
    intro k d' item e' hk hi he'
    obtain ⟨d, hd, -, -, -, -, -, hchildren, -⟩ := Heap.attach_eq_some hk
    obtain ⟨e, he, haddress, -, -, -, hparent, -⟩ := Heap.attach_eq_some he'
    rw [hchildren] at hi
    rw [haddress, hparent]
    split_ifs at hi with hkp
    · subst hkp
      cases mem_insertItem.mp (horder.mem_iff.mp hi) with
      | inl heq =>
          subst heq
          rw [hc, Option.some_inj] at he
          exact ⟨if_pos rfl, by rw [he]⟩
      | inr hold =>
          obtain ⟨hup, hkey⟩ := hs.parent_of_item hp hold.1 he
          have hne : item.2 ≠ c := by
            intro heq
            rw [heq, hc, Option.some_inj] at he
            exact hold.2 (he ▸ hkey)
          exact ⟨by rw [if_neg hne, hup], hkey⟩
    · obtain ⟨hup, hkey⟩ := hs.parent_of_item hd hi he
      have hne : item.2 ≠ c := by
        intro heq
        rw [heq, hc, Option.some_inj] at he
        rw [← he, hroot] at hup
        exact absurd hup (by simp)
      exact ⟨by rw [if_neg hne, hup], hkey⟩
  case item_of_parent =>
    intro k e' q d' hk hup hq
    obtain ⟨e, he, haddress, -, -, -, hparent, -⟩ := Heap.attach_eq_some hk
    obtain ⟨d, hd, -, -, -, -, -, hchildren, -⟩ := Heap.attach_eq_some hq
    rw [hparent] at hup
    rw [haddress, hchildren]
    split_ifs at hup with hkc
    · subst hkc
      rw [Option.some_inj] at hup
      rw [if_pos hup.symm]
      rw [hc, Option.some_inj] at he
      rw [← he]
      exact horder.mem_iff.mpr (mem_insertItem.mpr (.inl rfl))
    · have hitem := hs.item_of_parent he hup hd
      split_ifs with hqp
      · subst hqp
        rw [hp, Option.some_inj] at hd
        apply horder.mem_iff.mpr
        apply mem_insertItem.mpr
        refine .inr ⟨hd ▸ hitem, fun hkey => ?_⟩
        exact hkc (hs.address_inj he hc hkey)
      · exact hitem
  case address_inj =>
    intro k l d' e' hk hl heq
    obtain ⟨d, hd, haddress, -⟩ := Heap.attach_eq_some hk
    obtain ⟨e, he, haddress', -⟩ := Heap.attach_eq_some hl
    exact hs.address_inj hd he (by rw [← haddress, ← haddress', heq])
  case attached =>
    intro k d' hk hlooper hatt
    obtain ⟨d, hd, -, hlooper', hcreated, -, hparent, -, hrest⟩ := Heap.attach_eq_some hk
    rw [hparent]
    split_ifs with hkc
    · rfl
    · rw [hcreated, (hrest hkc).1, (hrest hkc).2] at hatt
      exact hs.attached hd (hlooper' ▸ hlooper) hatt
  case parent_attached =>
    intro k d' q e' hk hup hq hlooper
    obtain ⟨d, hd, -, -, -, -, hparent, -⟩ := Heap.attach_eq_some hk
    obtain ⟨e, he, -, hlooper', -, -, hparent', -⟩ := Heap.attach_eq_some hq
    rw [hparent']
    rw [hparent] at hup
    rw [hlooper'] at hlooper
    split_ifs with hqc
    · rfl
    · split_ifs at hup with hkc
      · rw [← Option.some_inj.mp hup, hp, Option.some_inj] at he
        rw [← he]
        exact hattached (he ▸ hlooper)
      · exact hs.parent_attached hd hup he hlooper
  case cached_old =>
    intro k d' url w hk hmem hurl
    obtain ⟨d, hd, -, -, -, hcache, -⟩ := Heap.attach_eq_some hk
    exact hs.cached_old hd (hcache ▸ hmem) hurl
  case cached_child =>
    intro k d' url w e' hk hmem hurl hw
    obtain ⟨d, hd, -, -, -, hcache, -⟩ := Heap.attach_eq_some hk
    obtain ⟨e, he, -, -, -, -, hparent, -⟩ := Heap.attach_eq_some hw
    have hup := hs.cached_child hd (hcache ▸ hmem) hurl he
    have hne : w ≠ c := by
      intro heq
      rw [heq, hc, Option.some_inj] at he
      rw [← he, hroot] at hup
      exact absurd hup (by simp)
    rw [hparent, if_neg hne, hup]

/-- What `AddChild` does to the heap: nothing, or it hangs a child without a parent below. -/
theorem addChild_cases : (addChild s p c name tid current order).2 = s ∨
    ∃ data child, s.handlers p = some data ∧ s.handlers c = some child ∧
      child.mParent = none ∧ (child.mIsLooper = true ∨ child.mCreated = false) ∧
      (data.mThreadId = tid ∨ delivered s p = true) ∧
      (addChild s p c name tid current order).2 =
        s.attach p c name data.mThreadId current order := by
  unfold addChild
  split_ifs with hreach
  · unfold addChildHelper
    cases hp : s.handlers p with
    | none => exact .inl rfl
    | some data =>
        cases hc : s.handlers c with
        | none => exact .inl rfl
        | some child =>
            dsimp only
            split_ifs with hreject hlooper
            · exact .inl rfl
            · rw [not_or] at hreject
              refine .inr ⟨data, child, rfl, rfl, ?_, .inl hlooper, ?_, rfl⟩
              · simpa using hreject.1
              · rwa [hp, Option.map_some, Option.some_inj] at hreach
            · rw [not_or] at hreject
              refine .inr ⟨data, child, rfl, rfl, ?_, .inr ?_, ?_, rfl⟩
              · simpa using hreject.1
              · simpa [hlooper] using hreject.2
              · rwa [hp, Option.map_some, Option.some_inj] at hreach
  · exact .inl rfl

/-- A parent that `AddChild` reaches is a looper or has a parent. -/
theorem Heap.Ok.reached (hs : s.Ok) {data : TagHandlerInternalData}
    (hp : s.handlers p = some data) (htid : tid ≠ 0)
    (hreach : data.mThreadId = tid ∨ delivered s p = true) (hlooper : data.mIsLooper = false) :
    data.mParent.isSome := by
  apply hs.attached hp hlooper
  cases hreach with
  | inl heq => exact .inr (.inl (heq ▸ htid))
  | inr hsend =>
      rw [delivered, hp] at hsend
      dsimp only at hsend
      rw [hlooper, if_neg Bool.false_ne_true, Bool.and_eq_true] at hsend
      exact .inl hsend.1

end AddChild

section Lookup
variable {name url : Bytes} {w : HandlerId}

/-- What `GetChild` finds is a child with the name. -/
theorem getChild_child {afterHandler : Option HandlerId}
    (hw : getChild s h name afterHandler = some w) :
    ∃ d key c, s.handlers h = some d ∧ d.mCreated = true ∧ (key, w) ∈ d.mChildren ∧
      s.handlers w = some c ∧ c.mObjectName = name := by
  unfold getChild at hw
  cases hd : s.handlers h with
  | none =>
      rw [hd] at hw
      exact absurd hw (by simp)
  | some d =>
      rw [hd] at hw
      dsimp only at hw
      split_ifs at hw with hcreated
      obtain ⟨item, hfind, rfl⟩ := Option.map_eq_some_iff.mp hw
      have hnamed := List.find?_some hfind
      rw [decide_eq_true_iff, isNamed] at hnamed
      cases hc : s.handlers item.2 with
      | none =>
          rw [hc] at hnamed
          exact absurd hnamed.2 (by simp)
      | some c =>
          rw [hc] at hnamed
          exact ⟨d, item.1, c, rfl, by simpa using hcreated, List.mem_of_find?_eq_some hfind, rfl,
            of_decide_eq_true hnamed.2⟩

theorem items_plain (hurl : Plain url) (hne : url ≠ []) :
    items (cstr url) (ascii "/") = [url] := by
  rw [cstr_eq_self hurl.no_null]
  exact itemsLoop_last hne hurl.no_slash _

/-- For the name of a direct child the walk is `GetChild`. -/
theorem walk_plain (hurl : Plain url) (mapChild : HandlerId → Bytes → Option HandlerId) :
    walk s mapChild h none (items (cstr url) (ascii "/")) =
      if url = [] then none else getChild s h url none := by
  split_ifs with hempty
  · subst hempty
    rfl
  · rw [items_plain hurl hempty, walk, walkItem, hurl.no_bracket]
    dsimp only [Option.getD_none]
    cases getChild s h url none with
    | none => rfl
    | some w => rfl

end Lookup

/-- What a step can do: add an object, change one in its place, hang a child below a parent,
or end an object that is nobody's parent. -/
inductive Change (s : Heap) : Act → Heap → Prop where
  | same {a : Act} : Change s a s
  | add {a : Act} (d₀ : TagHandlerInternalData) (hparent : d₀.mParent = none)
      (hchildren : d₀.mChildren = []) (hcache : d₀.mCacheChilds = [])
      (hfree : d₀.mCreated = false ∧ d₀.mThreadId = 0 ∧ d₀.mLooper = none)
      (haddress : ∀ k d, s.handlers k = some d → d.mHandler ≠ d₀.mHandler) :
      Change s a (s.add d₀)
  | inPlace {a : Act} (h : HandlerId) (f : TagHandlerInternalData → TagHandlerInternalData)
      (hplace : ∀ d, (f d).mHandler = d.mHandler ∧ (f d).mParent = d.mParent ∧
        (f d).mIsLooper = d.mIsLooper)
      (hitem : ∀ d, s.handlers h = some d → ∀ item ∈ (f d).mChildren, item ∈ d.mChildren)
      (hlive : ∀ d, s.handlers h = some d → ∀ item ∈ d.mChildren,
        (s.handlers item.2).isSome → item ∈ (f d).mChildren)
      (hattached : ∀ d, s.handlers h = some d → d.mIsLooper = false →
        (f d).mCreated ∨ (f d).mThreadId ≠ 0 ∨ (f d).mLooper.isSome → d.mParent.isSome)
      (hcached : ∀ d, s.handlers h = some d → ∀ url w, (url, w) ∈ (f d).mCacheChilds →
        Plain url → (url, w) ∈ d.mCacheChilds ∨ w < s.next ∧ ∀ c, s.handlers w = some c →
          c.mParent = some h) :
      Change s a (s.modify h f)
  | attach (p c : HandlerId) (name : Bytes) (tid : ℕ) (current : Option HandlerId)
      (order : List (ℕ × HandlerId)) (data child : TagHandlerInternalData)
      (hp : s.handlers p = some data) (hc : s.handlers c = some child)
      (hroot : child.mParent = none) (hnew : child.mIsLooper = true ∨ child.mCreated = false)
      (hreach : data.mThreadId = tid ∨ delivered s p = true)
      (hattached : data.mIsLooper = false → data.mParent.isSome)
      (horder : order.Perm (insertItem data.mChildren child.mHandler c)) :
      Change s (.addChild p c name tid current order)
        (s.attach p c name data.mThreadId current order)
  | dtor {a : Act} (h : HandlerId) (d : TagHandlerInternalData) (hd : s.handlers h = some d)
      (hleaf : ∀ k, s.parentOf k ≠ some h) : Change s a (dtor s h d)

/-- A change of fields that the tree does not use. -/
theorem Change.rest {a : Act} {f : TagHandlerInternalData → TagHandlerInternalData}
    (hf : ∀ d, (f d).mHandler = d.mHandler ∧ (f d).mParent = d.mParent ∧
      (f d).mIsLooper = d.mIsLooper ∧ (f d).mChildren = d.mChildren ∧
      (f d).mCacheChilds = d.mCacheChilds)
    (hattached : ∀ d, s.handlers h = some d → d.mIsLooper = false →
      (f d).mCreated ∨ (f d).mThreadId ≠ 0 ∨ (f d).mLooper.isSome → d.mParent.isSome) :
    Change s a (s.modify h f) := by
  apply Change.inPlace h f _ _ _ hattached
  · intro d _ url w hmem _
    rw [(hf d).2.2.2.2] at hmem
    exact .inl hmem
  · exact fun d => ⟨(hf d).1, (hf d).2.1, (hf d).2.2.1⟩
  · intro d _ item hi
    rwa [(hf d).2.2.2.1] at hi
  · intro d _ item hi _
    rwa [(hf d).2.2.2.1]

theorem Heap.Ok.change (hs : s.Ok) {a : Act} (h : Change s a s') : s'.Ok := by
  cases h with
  | same => exact hs
  | add d₀ hparent hchildren hcache hfree haddress =>
      exact hs.add hparent hchildren hcache hfree haddress
  | inPlace h f hplace hitem hlive hattached hcached =>
      exact hs.modify (fun d _ => hplace d) hitem hlive hattached hcached
  | attach p c name tid current order data child hp hc hroot hnew hreach hattached horder =>
      exact hs.attach hp hc hroot hattached horder
  | dtor h d hd hleaf => exact hs.dtor hd hleaf

theorem Heap.Ok.findObject_change (hs : s.Ok) {url : Bytes} {a : Act}
    (mapChild : HandlerId → Bytes → Option HandlerId) :
    Change s a (findObject s h url mapChild).2 := by
  unfold HandlerTree.findObject
  cases hd : s.handlers h with
  | none => exact .same
  | some d =>
      dsimp only
      by_cases hcreated : d.mCreated = true
      · rw [if_neg (not_not.mpr hcreated)]
        unfold findObject_Impl
        cases hcached : (if directChild url then
            (s.handlers h).bind (cachedChild s · url) else none) with
        | some w => exact .same
        | none =>
            dsimp only
            cases hwalk : walk s mapChild h none (items (cstr url) (ascii "/")) with
            | none => exact .same
            | some w =>
                dsimp only
                split_ifs
                · apply Change.inPlace
                  · exact fun _ => ⟨rfl, rfl, rfl⟩
                  · exact fun _ _ item hi => hi
                  · exact fun _ _ item hi _ => hi
                  · exact fun e he hlooper hatt => hs.attached he hlooper hatt
                  · intro e he url' w' hmem hurl
                    cases mem_insertItem.mp hmem with
                    | inr hold => exact .inl hold.1
                    | inl hnew =>
                        -- the walk to a direct child ends at a child
                        rw [Prod.mk.injEq] at hnew
                        rw [hnew.1] at hurl
                        rw [walk_plain hurl] at hwalk
                        split_ifs at hwalk
                        obtain ⟨d', key, c, hd', -, hitem, hc, -⟩ := getChild_child hwalk
                        rw [hnew.2]
                        refine .inr ⟨hs.fresh hc, fun c' hc' => ?_⟩
                        exact (hs.parent_of_item hd' hitem hc').1
                · exact .same
      · rw [if_pos hcreated]
        exact .same

theorem Heap.Ok.change_of_step (hs : s.Ok) {a : Act} (h : step s a = some s') :
    Change s a s' := by
  cases a with
  | construct this mIsLooper name =>
      simp only [HandlerTree.step, Option.ite_none_right_eq_some, Option.some_inj] at h
      obtain ⟨hfree, rfl⟩ := h
      refine .add { mHandler := this, mObjectName := name, mIsLooper := mIsLooper } rfl rfl rfl
        ⟨rfl, rfl, rfl⟩ fun k d hd => ?_
      have hk := List.all_eq_true.mp hfree k (List.mem_range.mpr (hs.fresh hd))
      simpa [hd] using hk
  | setObjectName k name =>
      simp only [HandlerTree.step, Option.ite_none_right_eq_some, Option.some_inj] at h
      obtain ⟨-, rfl⟩ := h
      exact .rest (fun _ => ⟨rfl, rfl, rfl, rfl, rfl⟩) fun d hd => hs.attached hd
  | addChild p c name tid current order =>
      simp only [HandlerTree.step, Option.ite_none_right_eq_some, Option.some_inj] at h
      obtain ⟨⟨-, htid, horder⟩, rfl⟩ := h
      cases @addChild_cases s p c name tid current order with
      | inl hsame =>
          rw [hsame]
          exact .same
      | inr hnew =>
          obtain ⟨data, child, hp, hc, hroot, hnew, hreach, heq⟩ := hnew
          rw [heq]
          rw [orderOk, hp, hc] at horder
          exact .attach p c name tid current order data child hp hc hroot hnew hreach
            (hs.reached hp htid hreach) (List.isPerm_iff.mp horder)
  | create k =>
      simp only [HandlerTree.step] at h
      cases hd : s.handlers k with
      | none => simp [hd] at h
      | some d =>
          simp only [hd, Option.ite_none_right_eq_some, Option.some_inj] at h
          obtain ⟨hlooper, rfl⟩ := h
          apply Change.rest
          · exact fun _ => ⟨rfl, rfl, rfl, rfl, rfl⟩
          intro d' hd' hnot _
          rw [hd, Option.some_inj] at hd'
          subst hd'
          rw [hnot] at hlooper
          exact hs.attached hd hnot (.inr (.inr (by simpa using hlooper)))
  | start k tid =>
      simp only [HandlerTree.step] at h
      cases hd : s.handlers k with
      | none => simp [hd] at h
      | some d =>
          simp only [hd, Option.ite_none_right_eq_some, Option.some_inj] at h
          obtain ⟨hlooper, rfl⟩ := h
          apply Change.rest
          · exact fun _ => ⟨rfl, rfl, rfl, rfl, rfl⟩
          intro d' hd' hnot _
          rw [hd, Option.some_inj] at hd'
          rw [← hd', hlooper] at hnot
          exact absurd hnot (by simp)
  | stop k =>
      simp only [HandlerTree.step, Option.ite_none_right_eq_some, Option.some_inj] at h
      obtain ⟨-, rfl⟩ := h
      exact .rest (fun _ => ⟨rfl, rfl, rfl, rfl, rfl⟩) fun d hd => hs.attached hd
  | markDestroyed k =>
      simp only [HandlerTree.step, Option.ite_none_right_eq_some, Option.some_inj] at h
      obtain ⟨-, rfl⟩ := h
      exact .rest (fun _ => ⟨rfl, rfl, rfl, rfl, rfl⟩) fun d hd => hs.attached hd
  | eraseExpired k key =>
      simp only [HandlerTree.step] at h
      cases hd : s.handlers k with
      | none => simp [hd] at h
      | some d =>
          simp only [hd, Option.ite_none_right_eq_some, Option.some_inj] at h
          obtain ⟨hexpired, rfl⟩ := h
          apply Change.inPlace
          · exact fun _ => ⟨rfl, rfl, rfl⟩
          · exact fun _ _ item hi => (mem_eraseItem.mp hi).1
          · intro e he item hi hlive
            rw [hd, Option.some_inj] at he
            subst he
            apply mem_eraseItem.mpr ⟨hi, ?_⟩
            intro hkey
            have := List.all_eq_true.mp hexpired item hi
            rw [decide_eq_true_iff] at this
            cases this with
            | inl hne => exact hne hkey
            | inr hdead =>
                rw [Option.isNone_iff_eq_none.mp hdead] at hlive
                exact absurd hlive (by simp)
          · exact fun e he => hs.attached he
          · exact fun _ _ url w hmem _ => .inl hmem
  | findObject k url mapChild =>
      simp only [HandlerTree.step, Option.ite_none_right_eq_some, Option.some_inj] at h
      obtain ⟨-, rfl⟩ := h
      exact hs.findObject_change mapChild
  | dtor k =>
      simp only [HandlerTree.step] at h
      cases hd : s.handlers k with
      | none => simp [hd] at h
      | some d =>
          simp only [hd, Option.ite_none_right_eq_some, Option.some_inj] at h
          obtain ⟨hleaf, rfl⟩ := h
          refine .dtor k d hd fun l hl => ?_
          obtain ⟨e, he, hup⟩ := Option.bind_eq_some_iff.mp hl
          have := List.all_eq_true.mp hleaf l (List.mem_range.mpr (hs.fresh he))
          rw [decide_eq_true_iff] at this
          exact this hl

/-- Every step keeps parents and children together. -/
theorem Heap.Ok.step (hs : s.Ok) {a : Act} (h : step s a = some s') : s'.Ok :=
  hs.change (hs.change_of_step h)

end CoreLooper.HandlerTree
