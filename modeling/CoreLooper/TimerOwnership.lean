import CoreLooper.TimerPointers
import CoreLooper.TimerNumbers

/-!
# Who owns a timer

The manager on its links does what the manager on lists does, and the links form its lists.
Wherever no splice is under way, the linked nodes are exactly the timers of the maps, and every
one is linked in exactly one ring. While nodes are being moved, the list `D` of `Owned` holds
those linked nowhere.
-/
namespace CoreLooper.TimerManager.Pointers
open LinkedRings

def lists (s : State) : Head → List NodeId
  | .spoke k j => s.spoke k j
  | .ready => s.mReadyNodes

/-- The spokes of the five wheels, and the ready list. -/
def Head.Exists (s : State) : Head → Prop
  | .spoke k j => k < wheelNum ∧ j < s.size k
  | .ready => True

structure Owned (D : List NodeId) (s : State) (L : TimerLinks) : Prop where
  rings : Rings L (lists s)
  detached : ∀ n ∈ D, ∀ H, n ∉ lists s H
  nodup : D.Nodup
  tied : ∀ n, (n ∈ D ∨ ∃ H, n ∈ lists s H) ↔
    s.mTimerMap (s.heap n).mHandler (s.heap n).mTimerId = some n
  owner : ∀ h id n, s.mTimerMap h id = some n → n < s.nextNode ∧ (s.heap n).key = (h, id)
  inWheels : ∀ H n, n ∈ lists s H → H.Exists s
  size_eq : ∀ k < wheelNum, s.size k = wheelSize k

section
variable {s s' : State}

theorem Head.Exists.congr {H : Head} (h : H.Exists s) (hsize : ∀ k, s'.size k = s.size k) :
    H.Exists s' := by
  cases H with
  | ready => trivial
  | spoke k j => exact ⟨h.1, (hsize k).symm ▸ h.2⟩

theorem lists_setSpoke (k j : ℕ) (l : List NodeId) :
    lists (s.setSpoke k j l) = Function.update (lists s) (.spoke k j) l := by
  funext H
  cases H with
  | ready => rw [Function.update_of_ne (by simp)]; rfl
  | spoke k' j' =>
      rw [Function.update_apply]
      show (s.setSpoke k j l).spoke k' j' = _
      rw [State.setSpoke_spoke]
      simp only [Head.spoke.injEq]
      rfl

theorem lists_setReady (l : List NodeId) :
    lists { s with mReadyNodes := l } = Function.update (lists s) .ready l := by
  funext H
  cases H with
  | ready => rw [Function.update_self]; rfl
  | spoke k j => rw [Function.update_of_ne (by simp)]; rfl

theorem chooseSpoke_lt (ms : ℕ) :
    (chooseSpoke s ms).1 < wheelNum ∧ (chooseSpoke s ms).2 < wheelSize (chooseSpoke s ms).1 := by
  unfold chooseSpoke
  dsimp only
  split_ifs
  · exact ⟨Nat.zero_lt_succ 4, (and_wheelMask1 _).trans_lt (Nat.mod_lt _ (by decide))⟩
  all_goals
    refine ⟨?_, (and_wheelMask2 _).trans_lt (Nat.mod_lt _ (by decide))⟩
    norm_num [wheelNum]

end

namespace Owned
variable {D : List NodeId} {s s' : State} {L : TimerLinks} {n : NodeId} {H : Head}

/-- Lists, map and keys stay. -/
theorem congr (h : Owned D s L) (hlists : ∀ H, lists s' H = lists s H)
    (hmap : s'.mTimerMap = s.mTimerMap) (hkeys : ∀ n, (s'.heap n).key = (s.heap n).key)
    (hnext : s.nextNode ≤ s'.nextNode) (hsize : ∀ k, s'.size k = s.size k) : Owned D s' L := by
  have hl : lists s' = lists s := funext hlists
  refine ⟨hl ▸ h.rings, hl ▸ h.detached, h.nodup, fun n => ?_, fun hd id n hm => ?_,
    fun H n hn => ?_, fun k hk => (hsize k).trans (h.size_eq k hk)⟩
  · obtain ⟨h1, h2⟩ := Prod.mk.inj (hkeys n)
    rw [hl, hmap, h1, h2]
    exact h.tied n
  · obtain ⟨hlt, hkey⟩ := h.owner hd id n (hmap ▸ hm)
    exact ⟨Nat.lt_of_lt_of_le hlt hnext, (hkeys n).trans hkey⟩
  · rw [hl] at hn
    exact (h.inWheels H n hn).congr hsize

/-- A linked or detached node was made before. -/
theorem lt_nextNode (h : Owned D s L) (hn : n ∈ D ∨ ∃ H, n ∈ lists s H) : n < s.nextNode :=
  (h.owner _ _ n ((h.tied n).mp hn)).1

theorem length_le (h : Owned D s L) : D.length ≤ s.nextNode := by
  have hsub : D ⊆ List.range s.nextNode := fun n hn =>
    List.mem_range.mpr (h.lt_nextNode (Or.inl hn))
  have := (List.subperm_of_subset h.nodup hsub).length_le
  rwa [List.length_range] at this

/-- A detached node is linked at the tail of a ring. -/
theorem link (h : Owned (n :: D) s L) (hH : H.Exists s)
    (hlists : lists s' = Function.update (lists s) H (lists s H ++ [n]))
    (hmap : s'.mTimerMap = s.mTimerMap) (hheap : s'.heap = s.heap)
    (hnext : s'.nextNode = s.nextNode) (hsize : ∀ k, s'.size k = s.size k) :
    Owned D s' (L.linkTail H n) := by
  have hnd := List.nodup_cons.mp h.nodup
  have hmem : ∀ H' m, m ∈ lists s' H' ↔ m ∈ lists s H' ∨ (H' = H ∧ m = n) := fun H' m => by
    rw [hlists, Function.update_apply]
    split_ifs with hHH
    · rw [hHH, List.mem_append, List.mem_singleton]
      simp
    · simp [hHH]
  refine ⟨hlists ▸ h.rings.linkTail H n (h.detached n List.mem_cons_self), fun m hm H' hm' => ?_,
    hnd.2, fun m => ?_, fun hd id m hm => ?_, fun H' m hm => ?_,
    fun k hk => (hsize k).trans (h.size_eq k hk)⟩
  · rcases (hmem H' m).mp hm' with hm' | ⟨-, rfl⟩
    · exact h.detached m (List.mem_cons_of_mem _ hm) H' hm'
    · exact hnd.1 hm
  · rw [hmap, hheap, ← h.tied m, List.mem_cons]
    simp only [hmem]
    constructor
    · rintro (hm | ⟨H', hm | ⟨-, rfl⟩⟩)
      · exact Or.inl (Or.inr hm)
      · exact Or.inr ⟨H', hm⟩
      · exact Or.inl (Or.inl rfl)
    · rintro ((rfl | hm) | ⟨H', hm⟩)
      · exact Or.inr ⟨H, Or.inr ⟨rfl, rfl⟩⟩
      · exact Or.inl hm
      · exact Or.inr ⟨H', Or.inl hm⟩
  · rw [hmap] at hm
    rw [hheap, hnext]
    exact h.owner hd id m hm
  · rcases (hmem H' m).mp hm with hm | ⟨rfl, -⟩
    · exact (h.inWheels H' m hm).congr hsize
    · exact hH.congr hsize

/-- All nodes of a ring are detached at once. -/
theorem take (h : Owned [] s L) (H : Head)
    (hlists : lists s' = Function.update (lists s) H [])
    (hmap : s'.mTimerMap = s.mTimerMap) (hheap : s'.heap = s.heap)
    (hnext : s'.nextNode = s.nextNode) (hsize : ∀ k, s'.size k = s.size k) :
    Owned (lists s H) s' (L.circle (.head H)) := by
  have hmem : ∀ H' m, m ∈ lists s' H' ↔ H' ≠ H ∧ m ∈ lists s H' := fun H' m => by
    rw [hlists, Function.update_apply]
    split_ifs with hHH <;> simp [hHH]
  refine ⟨hlists ▸ h.rings.take H, fun m hm H' hm' => ?_, h.rings.nodup H, fun m => ?_,
    fun hd id m hm => ?_, fun H' m hm => ?_, fun k hk => (hsize k).trans (h.size_eq k hk)⟩
  · obtain ⟨hne, hm'⟩ := (hmem H' m).mp hm'
    exact hne (h.rings.disjoint H' H m hm' hm)
  · rw [hmap, hheap, ← h.tied m]
    simp only [hmem, List.not_mem_nil, false_or]
    constructor
    · rintro (hm | ⟨H', -, hm⟩)
      · exact ⟨H, hm⟩
      · exact ⟨H', hm⟩
    · rintro ⟨H', hm⟩
      by_cases hne : H' = H
      · exact Or.inl (hne ▸ hm)
      · exact Or.inr ⟨H', hne, hm⟩
  · rw [hmap] at hm
    rw [hheap, hnext]
    exact h.owner hd id m hm
  · exact (h.inWheels H' m ((hmem H' m).mp hm).2).congr hsize

/-- The first ready node is taken off its list. -/
theorem pop (h : Owned [] s L) {rest : List NodeId} (hready : s.mReadyNodes = n :: rest) :
    Owned [n] { s with mReadyNodes := rest } (L.detach n) := by
  have hlists := lists_setReady (s := s) rest
  have hnd := h.rings.nodup .ready
  change s.mReadyNodes.Nodup at hnd
  rw [hready, List.nodup_cons] at hnd
  have hin : n ∈ lists s .ready := by
    show n ∈ s.mReadyNodes
    rw [hready]
    exact List.mem_cons_self
  have hmem : ∀ H' m, m ∈ lists { s with mReadyNodes := rest } H' ↔ m ∈ lists s H' ∧ m ≠ n := by
    intro H' m
    rw [hlists, Function.update_apply]
    split_ifs with hH
    · rw [hH]
      show m ∈ rest ↔ m ∈ s.mReadyNodes ∧ m ≠ n
      rw [hready, List.mem_cons]
      constructor
      · exact fun hm => ⟨Or.inr hm, fun heq => hnd.1 (heq ▸ hm)⟩
      · exact fun hm => hm.1.resolve_left hm.2
    · refine ⟨fun hm => ⟨hm, ?_⟩, And.left⟩
      rintro rfl
      exact hH (h.rings.disjoint H' .ready _ hm hin)
  refine ⟨hlists ▸ h.rings.detach hready, fun m hm H' hm' => ?_, List.nodup_singleton n,
    fun m => ?_, h.owner, fun H' m hm => ?_, h.size_eq⟩
  · exact ((hmem H' m).mp hm').2 (List.mem_singleton.mp hm)
  · refine Iff.trans ?_ (h.tied m)
    simp only [hmem, List.not_mem_nil, false_or, List.mem_singleton]
    constructor
    · rintro (rfl | ⟨H', hm, -⟩)
      · exact ⟨.ready, hin⟩
      · exact ⟨H', hm⟩
    · rintro ⟨H', hm⟩
      by_cases hne : m = n
      · exact Or.inl hne
      · exact Or.inr ⟨H', hm, hne⟩
  · exact h.inWheels H' m ((hmem H' m).mp hm).1

/-- The timer of a key is killed. -/
theorem kill (h : Owned [] s L) {handler : HandlerId} {timerId : TimerId}
    (hmap : s.mTimerMap handler timerId = some n) :
    Owned [] (TimerManager.killTimer handler timerId s) (L.unlink n) := by
  obtain ⟨hlt, hkey⟩ := h.owner handler timerId n hmap
  obtain ⟨hh, hid⟩ := Prod.mk.inj hkey
  have hin : ∃ H, n ∈ lists s H :=
    ((h.tied n).mpr (by rw [hh, hid, hmap])).resolve_left List.not_mem_nil
  obtain ⟨H, hH⟩ := hin
  obtain ⟨hheap, hnext, -⟩ := killTimer_frame (s := s) handler timerId
  have hmap' := killTimer_map (s := s) handler timerId
  have hlists : lists (TimerManager.killTimer handler timerId s) =
      fun H => (lists s H).filter (· ≠ n) := by
    unfold TimerManager.killTimer
    rw [hmap]
    funext H
    cases H <;> rfl
  have hsize : ∀ k, (TimerManager.killTimer handler timerId s).size k = s.size k := fun k => by
    unfold TimerManager.killTimer
    rw [hmap]
    rfl
  have hmem : ∀ H' m, m ∈ lists (TimerManager.killTimer handler timerId s) H' ↔
      m ∈ lists s H' ∧ m ≠ n := fun H' m => by
    rw [hlists]
    simp
  refine ⟨hlists ▸ h.rings.unlink hH, fun _ hm => (by cases hm), List.nodup_nil, fun m => ?_,
    fun hd id m hm => ?_, fun H' m hm => ?_, fun k hk => (hsize k).trans (h.size_eq k hk)⟩
  · simp only [hmem, List.not_mem_nil, false_or]
    rw [hmap', hheap, State.setMap_map]
    have htied := h.tied m
    simp only [List.not_mem_nil, false_or] at htied
    split_ifs with hk
    · refine iff_of_false ?_ fun hm => by cases hm
      rintro ⟨H', hm, hne⟩
      have := htied.mp ⟨H', hm⟩
      rw [hk.1, hk.2, hmap, Option.some.injEq] at this
      exact hne this.symm
    · rw [← htied]
      constructor
      · rintro ⟨H', hm, -⟩
        exact ⟨H', hm⟩
      · rintro ⟨H', hm⟩
        refine ⟨H', hm, ?_⟩
        rintro rfl
        exact hk ⟨hh, hid⟩
  · rw [hmap', State.setMap_map] at hm
    rw [hheap, hnext]
    split_ifs at hm
    exact h.owner hd id m hm
  · exact (h.inWheels H' m ((hmem H' m).mp hm).1).congr hsize

/-- A new node gets a key no timer has. -/
theorem create (h : Owned [] s L) (handler : HandlerId) (timerId : TimerId) {v : TimerNode}
    (hkey : v.key = (handler, timerId)) (hfree : s.mTimerMap handler timerId = none)
    (hlists : ∀ H, lists s' H = lists s H)
    (hmap : s'.mTimerMap = (s.setMap handler timerId (some s.nextNode)).mTimerMap)
    (hheap : ∀ m, s'.heap m = if m = s.nextNode then v else s.heap m)
    (hnext : s'.nextNode = s.nextNode + 1) (hsize : ∀ k, s'.size k = s.size k) :
    Owned [s.nextNode] s' (L.circle (.item s.nextNode)) := by
  have hl : lists s' = lists s := funext hlists
  have hnew : ∀ H, s.nextNode ∉ lists s H := fun H hm =>
    Nat.lt_irrefl _ (h.lt_nextNode (Or.inr ⟨H, hm⟩))
  obtain ⟨hh, hid⟩ := Prod.mk.inj hkey
  refine ⟨hl ▸ h.rings.circle hnew, fun m hm => ?_, List.nodup_singleton _, fun m => ?_,
    fun hd id m hm => ?_, fun H m hm => ?_, fun k hk => (hsize k).trans (h.size_eq k hk)⟩
  · rw [List.mem_singleton.mp hm, hl]
    exact hnew
  · rw [hl, hheap, hmap, State.setMap_map, List.mem_singleton]
    by_cases hmn : m = s.nextNode
    · rw [if_pos hmn, hh, hid, if_pos ⟨rfl, rfl⟩, hmn]
      simp
    · rw [if_neg hmn]
      have htied := h.tied m
      simp only [List.not_mem_nil, false_or] at htied
      simp only [hmn, false_or]
      split_ifs with hk
      · rw [htied, hk.1, hk.2, hfree]
        simp only [Option.some.injEq, reduceCtorEq, false_iff]
        exact fun heq => hmn heq.symm
      · exact htied
  · rw [hmap, State.setMap_map] at hm
    rw [hheap, hnext]
    split_ifs at hm with hk
    · obtain rfl := Option.some.inj hm
      rw [if_pos rfl, hk.1, hk.2]
      exact ⟨Nat.lt_succ_self _, hkey⟩
    · obtain ⟨hlt, hkey'⟩ := h.owner hd id m hm
      rw [if_neg (Nat.ne_of_lt hlt)]
      exact ⟨Nat.lt_succ_of_lt hlt, hkey'⟩
  · rw [hl] at hm
    exact (h.inWheels H m hm).congr hsize

end Owned

/-- A walk moves the nodes of the ring one by one. `I` is what holds while `rest` is still to be
moved. -/
theorem walk_spec {spoke : Head} (move : NodeId → PState → PState)
    (step : State → NodeId → State) (I : List NodeId → PState → Prop)
    (hmove : ∀ n rest p, I (n :: rest) p → I rest (move n p) ∧ (move n p).s = step p.s n ∧
      ∀ m ∈ rest, (move n p).links.next (.item m) = p.links.next (.item m))
    {rest : List NodeId} {fuel : ℕ} {link : Option (Addr Head NodeId)} {p : PState}
    (h : I rest p) (hlead : p.links.Leads link rest (.head spoke)) (hfuel : rest.length < fuel) :
    I [] (walk spoke move fuel link p) ∧
      (walk spoke move fuel link p).s = rest.foldl step p.s := by
  induction rest generalizing fuel link p with
  | nil =>
      obtain ⟨fuel, rfl⟩ := Nat.exists_eq_succ_of_ne_zero (Nat.ne_of_gt hfuel)
      obtain rfl : link = some (.head spoke) := hlead
      simp only [walk, if_true]
      exact ⟨h, rfl⟩
  | cons n rest ih =>
      obtain ⟨fuel, rfl⟩ := Nat.exists_eq_succ_of_ne_zero (Nat.ne_of_gt (Nat.lt_of_le_of_lt
        (Nat.zero_le _) hfuel))
      obtain ⟨rfl, hlead⟩ := hlead
      obtain ⟨hI, hs, hnext⟩ := hmove n rest p h
      simp only [walk]
      have hall := ih hI (hlead.frame hnext) (Nat.lt_of_succ_lt_succ hfuel)
      rw [hs] at hall
      exact hall

section
variable {D : List NodeId} {p : PState} {s : State} {n : NodeId} (env : Env)

theorem addToReady_owned (h : Owned (n :: D) p.s p.links) :
    Owned D (addToReady n p).s (addToReady n p).links :=
  h.link (H := .ready) trivial (lists_setReady (s := p.s.emit _) _) rfl rfl rfl fun _ => rfl

theorem addTimer_owned (h : Owned (n :: D) p.s p.links) (ms : ℕ) :
    Owned D (addTimer ms n p).s (addTimer ms n p).links := by
  obtain ⟨hk, hj⟩ := chooseSpoke_lt (s := p.s) ms
  refine h.link (H := .spoke (chooseSpoke p.s ms).1 (chooseSpoke p.s ms).2)
    ⟨hk, (h.size_eq _ hk).symm ▸ hj⟩ ?_ rfl rfl rfl fun k => ?_
  · exact lists_setSpoke _ _ _
  · exact State.setSpoke_size _ _ _ _ _

/-- A node of a cascaded spoke goes to another list; the links of the others stay. -/
theorem cascadeNode_owned (h : Owned (n :: D) p.s p.links) :
    Owned D (cascadeNode n p).s (cascadeNode n p).links ∧
      (cascadeNode n p).s = TimerManager.cascadeNode p.s n ∧ (cascadeNode n p).seen = p.seen ∧
      ∀ m ∈ D, (cascadeNode n p).links.next (.item m) = p.links.next (.item m) := by
  have hnd := List.nodup_cons.mp h.nodup
  have hnext : ∀ H, ∀ m ∈ D, (p.links.linkTail H n).next (.item m) = p.links.next (.item m) :=
    fun H m hm => h.rings.linkTail_next H (h.detached m (List.mem_cons_of_mem _ hm))
      fun heq => hnd.1 (heq ▸ hm)
  unfold cascadeNode TimerManager.cascadeNode
  split_ifs
  · exact ⟨addToReady_owned h, rfl, rfl, hnext _⟩
  · have hemit : Owned (n :: D) (p.update (.emit (.armed n
        (u32 ((p.s.heap n).mDeadTime - p.s.now)) p.s.now (p.s.mStartTick + granularity)))).s
        p.links :=
      h.congr (fun H => by cases H <;> rfl) rfl (fun _ => rfl) (Nat.le_refl _) fun _ => rfl
    exact ⟨addTimer_owned (p := p.update _) hemit _, rfl, rfl, hnext _⟩

/-- At rest: the manager on its links is the one on lists, and nothing is detached. -/
structure Refines (p : PState) (s : State) : Prop where
  state : p.s = s
  owned : Owned [] p.s p.links
  seen : ∀ x ∈ p.seen, Owned [] x.1 x.2

theorem Refines.observe (h : Refines p s) : Refines p.observe s := by
  refine ⟨h.state, h.owned, fun x hx => ?_⟩
  rcases List.mem_append.mp hx with hx | hx
  · exact h.seen x hx
  · rw [List.mem_singleton.mp hx]
    exact h.owned

theorem Refines.update (h : Refines p s) {f : State → State}
    (hlists : ∀ H, lists (f p.s) H = lists p.s H) (hmap : (f p.s).mTimerMap = p.s.mTimerMap)
    (hkeys : ∀ n, ((f p.s).heap n).key = (p.s.heap n).key)
    (hnext : p.s.nextNode ≤ (f p.s).nextNode) (hsize : ∀ k, (f p.s).size k = p.s.size k) :
    Refines (p.update f) (f s) :=
  ⟨congrArg f h.state, h.owned.congr hlists hmap hkeys hnext hsize, h.seen⟩

/-- Both take the same branch. -/
theorem Refines.ite (h : Refines p s) {c : State → Prop} [DecidablePred c] {p₁ p₂ : PState}
    {s₁ s₂ : State} (h₁ : Refines p₁ s₁) (h₂ : Refines p₂ s₂) :
    Refines (if c p.s then p₁ else p₂) (if c s then s₁ else s₂) := by
  rw [h.state]
  split_ifs
  · exact h₁
  · exact h₂

theorem Refines.setIndex (h : Refines p s) (k i : ℕ) :
    Refines (p.update fun s => s.setIndex k i) (s.setIndex k i) :=
  h.update (fun H => by cases H; exacts [State.setIndex_spoke _ _ _ _ _, rfl]) rfl (fun _ => rfl)
    (Nat.le_refl _) fun _ => State.setIndex_size _ _ _ _

theorem Refines.tick (h : Refines p s) (env : Env) :
    Refines (p.update (getCurrentMillisec env)) (getCurrentMillisec env s) :=
  h.update (fun H => by cases H <;> rfl) rfl (fun _ => rfl) (Nat.le_refl _) fun _ => rfl

/-- Emptying a spoke detaches its nodes, and the old link of its head leads through them. -/
theorem Refines.emptySpoke (h : Refines p s) (k j : ℕ) :
    Owned (s.spoke k j) (emptySpoke k j p).s (emptySpoke k j p).links ∧
      (emptySpoke k j p).links.Leads (p.links.next (.head (.spoke k j))) (s.spoke k j)
        (.head (.spoke k j)) := by
  obtain ⟨rfl, howned, -⟩ := h
  refine ⟨howned.take (.spoke k j) (lists_setSpoke k j []) rfl rfl rfl
    fun _ => State.setSpoke_size _ _ _ _ _, ?_⟩
  refine (howned.rings.ring (.spoke k j)).leads.frame fun m _ => ?_
  exact Links.circle_head_next _ _ _

/-- All nodes of a cascaded spoke are moved. -/
theorem Refines.cascadeSpoke (h : Refines p s) (k i : ℕ) :
    Refines (walk (.spoke k i) cascadeNode (walkFuel (Pointers.emptySpoke k i p))
        (p.links.next (.head (.spoke k i))) (Pointers.emptySpoke k i p))
      ((s.spoke k i).foldl TimerManager.cascadeNode (s.setSpoke k i [])) := by
  obtain ⟨howned, hlead⟩ := h.emptySpoke k i
  obtain ⟨⟨hI, hseen⟩, hs⟩ := walk_spec cascadeNode TimerManager.cascadeNode
    (fun rest q => Owned rest q.s q.links ∧ q.seen = p.seen)
    (fun n rest q hq => by
      obtain ⟨h1, h2, h3, h4⟩ := cascadeNode_owned hq.1
      exact ⟨⟨h1, h3.trans hq.2⟩, h2, h4⟩)
    ⟨howned, rfl⟩ hlead (Nat.lt_succ_of_le howned.length_le)
  refine ⟨hs.trans ?_, hI, hseen ▸ h.seen⟩
  rw [← h.state]
  rfl

theorem cascadeFrom_refines (rest : ℕ) (h : Refines p s) :
    Refines (cascadeFrom env rest p) (TimerManager.cascadeFrom env rest s) := by
  induction rest generalizing p s with
  | zero => exact h
  | succ rest ih =>
      have htick := h.tick env
      have hstate := htick.state
      have hlevel := ((htick.setIndex (wheelNum - (rest + 1))
        ((getCurrentMillisec env s).index (wheelNum - (rest + 1)) + 1)).cascadeSpoke
          (wheelNum - (rest + 1))
            ((getCurrentMillisec env s).index (wheelNum - (rest + 1)))).observe
      rw [State.setIndex_spoke] at hlevel
      simp only [cascadeFrom, TimerManager.cascadeFrom]
      rw [hstate]
      exact hlevel.ite (c := fun s => s.index (wheelNum - (rest + 1)) ≥
        s.size (wheelNum - (rest + 1))) (ih (hlevel.setIndex _ 0)) hlevel

/-- Every ready node of the current spoke of wheel 0 is moved, and then the spoke is emptied. -/
theorem Refines.readySpoke (h : Refines p s) (i : ℕ) :
    Refines (Pointers.emptySpoke 0 i (walk (.spoke 0 i) addToReady (walkFuel p)
        (p.links.next (.head (.spoke 0 i))) p))
      (((s.spoke 0 i).foldl (fun s node => TimerManager.addToReady node s) s).setSpoke 0 i []) := by
  obtain ⟨howned, hlead⟩ := h.emptySpoke 0 i
  obtain ⟨hstate, hrest, hseen⟩ := h
  have hlead' : p.links.Leads (p.links.next (.head (.spoke 0 i))) (s.spoke 0 i)
      (.head (.spoke 0 i)) := hlead.frame fun m _ =>
    (Links.circle_head_next p.links (.spoke 0 i) m).symm
  have hlen : (s.spoke 0 i).length < walkFuel p := Nat.lt_succ_of_le howned.length_le
  -- the spoke is emptied only afterwards, which the moves do not notice
  obtain ⟨⟨hI, hseen'⟩, hs⟩ := walk_spec addToReady
    (fun s node => TimerManager.addToReady node s)
    (fun rest q => Owned rest (Pointers.emptySpoke 0 i q).s (Pointers.emptySpoke 0 i q).links ∧
      q.seen = p.seen)
    (fun n rest q hq => by
      have hcomm := hq.1.rings.circle_linkTail (j := .ready) (by simp) n
      have hnd := List.nodup_cons.mp hq.1.nodup
      have hready := addToReady_owned (p := Pointers.emptySpoke 0 i q) hq.1
      refine ⟨⟨?_, hq.2⟩, rfl, fun m hm => ?_⟩
      · show Owned rest _ ((q.links.linkTail .ready n).circle (.head (.spoke 0 i)))
        rw [hcomm]
        exact hready
      · have hnext : ((q.links.linkTail .ready n).circle (.head (.spoke 0 i))).next (.item m) =
            (q.links.circle (.head (.spoke 0 i))).next (.item m) := by
          rw [hcomm]
          exact hq.1.rings.linkTail_next .ready (hq.1.detached m (List.mem_cons_of_mem _ hm))
            fun heq => hnd.1 (heq ▸ hm)
        rwa [Links.circle_head_next, Links.circle_head_next] at hnext)
    ⟨howned, rfl⟩ hlead' hlen
  refine ⟨?_, hI, hseen' ▸ hseen⟩
  rw [← hstate] at hs ⊢
  exact congrArg (fun t : State => t.setSpoke 0 i []) hs

theorem detectStep_refines (h : Refines p s) :
    Refines (detectStep env p) (TimerManager.detectStep env s) := by
  have hstate := h.state
  have hmoved := (h.readySpoke (s.index 0)).observe.setIndex 0 (s.index 0 + 1)
  have hturn := hmoved.ite (c := fun s => s.index 0 ≥ s.size 0)
    (cascadeFrom_refines env (wheelNum - 1) (hmoved.setIndex 0 0)) hmoved
  have hstep := (hturn.update (f := fun s => { s with mStartTick := s.mStartTick + granularity })
    (fun H => by cases H <;> rfl) rfl (fun _ => rfl) (Nat.le_refl _) fun _ => rfl).observe
  simp only [detectStep, TimerManager.detectStep]
  rw [hstate]
  exact hstep

theorem detectLoop_refines (loopnum : ℕ) (h : Refines p s) :
    Refines (detectLoop env loopnum p) (TimerManager.detectLoop env loopnum s) := by
  induction loopnum generalizing p s with
  | zero => exact h
  | succ loopnum ih => exact ih (detectStep_refines env h)

theorem Refines.emit (h : Refines p s) (e : Event) : Refines (p.update (.emit e)) (s.emit e) :=
  h.update (fun H => by cases H <;> rfl) rfl (fun _ => rfl) (Nat.le_refl _) fun _ => rfl

theorem killTimer_refines (h : Refines p s) (handler : HandlerId) (timerId : TimerId) :
    Refines (killTimer handler timerId p) (TimerManager.killTimer handler timerId s) := by
  obtain ⟨rfl, howned, hseen⟩ := h
  cases hmap : p.s.mTimerMap handler timerId with
  | none =>
      simp only [killTimer, TimerManager.killTimer, hmap]
      exact ⟨rfl, howned, hseen⟩
  | some node =>
      have hkill := howned.kill hmap
      simp only [killTimer, TimerManager.killTimer, hmap] at hkill ⊢
      exact ⟨rfl, hkill, hseen⟩

theorem setTimer_refines (h : Refines p s) {handler : HandlerId} {timerId : TimerId}
    (interval : ℕ) (extra : Option TimerExtraInfo) (hfree : s.mTimerMap handler timerId = none) :
    Refines (setTimer env handler timerId interval extra p)
      (TimerManager.setTimer env handler timerId interval extra s) := by
  obtain ⟨rfl, howned, hseen⟩ := h
  unfold setTimer TimerManager.setTimer
  generalize (if interval = 0 then 1 else interval) = interval
  dsimp only
  refine ⟨rfl, addTimer_owned (p := { p with s := _, links := _ }) ?_ _, hseen⟩
  exact howned.create handler timerId rfl hfree
    (fun H => by cases H <;> rfl) rfl (fun m => State.setNode_heap _ _ _ m) rfl fun _ => rfl

theorem callInside_refines (h : Refines p s) (c : Call)
    (hF : (TimerManager.callInside env s c).Fresh) :
    Refines (callInside env p c) (TimerManager.callInside env s c) := by
  have hset : ∀ (s : State) (handler : HandlerId) (timerId : TimerId) (interval : ℕ)
      (extra : Option TimerExtraInfo),
      (TimerManager.setTimer env handler timerId interval extra s).Fresh →
        s.mTimerMap handler timerId = none := fun s handler timerId interval extra hF => by
    obtain ⟨ms, tick, position, hlog⟩ :=
      setTimer_log env s handler timerId interval extra
    rw [State.Fresh, hlog] at hF
    exact hF (.set s.nextNode handler timerId (s.mTimerMap handler timerId)) (by simp)
  cases c with
  | setTimer handler timerId interval extra =>
      exact setTimer_refines env h _ extra (hset s handler timerId _ extra hF)
  | setTimerEx handler interval extra =>
      have hids := h.update (f := fun t => { t with
        mNextTimerId := Function.update t.mNextTimerId handler (nextTimerId s handler).2.1
        mTimerIdRewind := Function.update t.mTimerIdRewind handler (nextTimerId s handler).2.2 })
        (fun H => by cases H <;> rfl) rfl (fun _ => rfl) (Nat.le_refl _) fun _ => rfl
      have hresult := setTimer_refines env hids interval.toNat extra
        (hset _ handler _ interval.toNat extra hF)
      simp only [callInside, setTimerEx, h.state]
      exact hresult
  | processTimer io => exact h
  | killTimer handler timerId =>
      simp only [callInside, TimerManager.callInside, h.state]
      cases hmap : s.mTimerMap handler timerId with
      | none => exact killTimer_refines h handler timerId
      | some node => exact killTimer_refines (h.emit (.killed node)) handler timerId

theorem callback_refines (h : Refines p s) (hF : (TimerManager.callback env s).Fresh) :
    Refines (callback env p) (TimerManager.callback env s) := by
  have hfold : ∀ (calls : List Call) (p : PState) (s : State), Refines p s →
      (calls.foldl (TimerManager.callInside env) s).Fresh →
        Refines (calls.foldl (fun p c => (callInside env p c).observe) p)
          (calls.foldl (TimerManager.callInside env) s) := by
    intro calls
    induction calls with
    | nil => exact fun p s h _ => h
    | cons c calls ih =>
        intro p s h hF
        exact ih _ _ (callInside_refines env h c
          ((foldl_callInside_grows env calls _).fresh hF)).observe hF
  have hcount := (h.update (f := fun s => { s with callbacks := s.callbacks + 1 })
    (fun H => by cases H <;> rfl) rfl (fun _ => rfl) (Nat.le_refl _) fun _ => rfl).observe
  rw [callback, h.state]
  exact hfold _ _ _ hcount hF

/-- The first ready node, taken off its list. -/
def PState.popReady (p : PState) (node : NodeId) : PState :=
  { p with
    s := { p.s with mReadyNodes := p.s.mReadyNodes.tail }
    links := p.links.detach node }

/-- Killing the node that was just taken off the ready list joins its old neighbours once more. -/
theorem killTimer_popReady (h : Refines p s) {node : NodeId} {rest : List NodeId}
    (hready : s.mReadyNodes = node :: rest) {handler : HandlerId} {timerId : TimerId}
    (hmap : s.mTimerMap handler timerId = some node) :
    killTimer handler timerId (p.popReady node) = killTimer handler timerId p ∧
      TimerManager.killTimer handler timerId { s with mReadyNodes := rest } =
        TimerManager.killTimer handler timerId s := by
  obtain ⟨rfl, howned, -⟩ := h
  have hmem : node ∈ lists p.s .ready := by
    show node ∈ p.s.mReadyNodes
    rw [hready]
    exact List.mem_cons_self
  have hfilter : rest.filter (· ≠ node) = p.s.mReadyNodes.filter (· ≠ node) := by
    rw [hready, List.filter_cons_of_neg (by simp)]
  have hs : removeTimer node (State.setMap { p.s with mReadyNodes := rest } handler timerId none) =
      removeTimer node (p.s.setMap handler timerId none) := by
    simp only [removeTimer, State.setMap, hfilter]
  constructor
  · simp only [killTimer, PState.popReady, hmap, hready, List.tail_cons,
      howned.rings.unlink_detach hmem]
    rw [hs]
  · simp only [TimerManager.killTimer, hmap]
    exact hs

theorem timeOutNode_refines (h : Refines p s) {node : NodeId} {rest : List NodeId}
    (hready : s.mReadyNodes = node :: rest) {t : ℕ}
    (hF : (TimerManager.timeOutNode env t node { s with mReadyNodes := rest }).Fresh) :
    Refines (timeOutNode env t node (p.popReady node))
      (TimerManager.timeOutNode env t node { s with mReadyNodes := rest }) := by
  have hfinal := h
  obtain ⟨rfl, howned, hseen⟩ := h
  have hpop := howned.pop hready
  have htail : p.s.mReadyNodes.tail = rest := by rw [hready, List.tail_cons]
  have hlive : p.s.mTimerMap (p.s.heap node).mHandler (p.s.heap node).mTimerId = some node := by
    refine (howned.tied node).mp (Or.inr ⟨.ready, ?_⟩)
    show node ∈ p.s.mReadyNodes
    rw [hready]
    exact List.mem_cons_self
  -- with its new dead time the node has the key it had
  have harmed : Owned [node] ((State.setNode { p.s with mReadyNodes := rest } node
      { p.s.heap node with mDeadTime := t + (p.s.heap node).mInterval }).emit
        (.armed node (p.s.heap node).mInterval t p.s.mStartTick)) (p.links.detach node) := by
    refine hpop.congr (fun H => by cases H <;> rfl) rfl (fun n => ?_) (Nat.le_refl _) fun _ => rfl
    refine (congrArg TimerNode.key (State.setNode_heap p.s node _ n)).trans ?_
    split_ifs with hn
    · rw [hn]
      rfl
    · rfl
  have hheap : (p.popReady node).s.heap = p.s.heap := rfl
  revert hF harmed hlive
  unfold timeOutNode TimerManager.timeOutNode
  rw [hheap]
  dsimp only
  generalize p.s.heap node = v
  obtain ⟨handler, timerId, deadTime, interval, extra⟩ := v
  intro hF hlive harmed
  revert hF
  cases extra with
  | some info =>
      obtain ⟨hp, hs⟩ := killTimer_popReady hfinal hready hlive
      have hrun := (killTimer_refines hfinal handler timerId).emit (.run info.mRunnable node)
      dsimp only
      rw [hp, hs]
      obtain ⟨runnable⟩ := info
      cases runnable with
      | some r => exact fun hF => callback_refines env hrun hF
      | none => exact fun _ => hrun
  | none =>
      have hlinked := addTimer_owned (p := ⟨_, p.links.detach node, p.seen⟩) harmed interval
      have hcalled := (Refines.mk rfl hlinked hseen).emit (.onTimer handler timerId node)
      intro hF
      have hresult := callback_refines env hcalled hF
      simp only [PState.popReady, htail]
      exact hresult

/-- Calls from a callback take nodes off the ready list and add none. -/
theorem callback_ready (s : State) :
    (TimerManager.callback env s).mReadyNodes.Sublist s.mReadyNodes := by
  have hcall : ∀ (s : State) (c : Call),
      (TimerManager.callInside env s c).mReadyNodes.Sublist s.mReadyNodes := fun s c => by
    cases c with
    | setTimer handler timerId interval extra => exact List.Sublist.refl _
    | setTimerEx handler interval extra => exact List.Sublist.refl _
    | processTimer io => exact List.Sublist.refl _
    | killTimer handler timerId =>
        simp only [TimerManager.callInside]
        split
        · exact (killTimer_ready handler timerId).1
        · rename_i node _
          exact (killTimer_ready (s := s.emit (.killed node)) handler timerId).1
  have hfold : ∀ (calls : List Call) (s : State),
      (calls.foldl (TimerManager.callInside env) s).mReadyNodes.Sublist s.mReadyNodes := by
    intro calls
    induction calls with
    | nil => exact fun s => List.Sublist.refl _
    | cons c calls ih => exact fun s => (ih _).trans (hcall s c)
  exact hfold _ { s with callbacks := s.callbacks + 1 }

theorem timeOutNode_ready (t : ℕ) (node : NodeId) (s : State) :
    (TimerManager.timeOutNode env t node s).mReadyNodes.Sublist s.mReadyNodes := by
  unfold TimerManager.timeOutNode
  dsimp only
  split
  · have hkill := (killTimer_ready (s := s) (s.heap node).mHandler (s.heap node).mTimerId).1
    split
    · exact (callback_ready env _).trans hkill
    · exact hkill
  · exact callback_ready env _

/-- Both loops run until the ready list is empty; a longer fuel changes nothing. -/
theorem timeOutLoop_refines {t : ℕ} (fuel fuel' : ℕ) (h : Refines p s)
    (hfuel : s.mReadyNodes.length < fuel) (hfuel' : s.mReadyNodes.length ≤ fuel')
    (hF : (TimerManager.timeOutLoop env t fuel' s).Fresh) :
    Refines (timeOutLoop env t fuel p) (TimerManager.timeOutLoop env t fuel' s) ∧
      (TimerManager.timeOutLoop env t fuel' s).mReadyNodes = [] := by
  have hnext : p.links.Leads (p.links.next (.head .ready)) s.mReadyNodes (.head .ready) := by
    have hring := (h.owned.rings.ring .ready).leads
    rw [h.state] at hring
    exact hring
  induction fuel generalizing p s fuel' with
  | zero => exact absurd hfuel (Nat.not_lt_zero _)
  | succ fuel ih =>
      cases hready : s.mReadyNodes with
      | nil =>
          rw [hready] at hnext
          have hp : timeOutLoop env t (fuel + 1) p = p := by
            unfold timeOutLoop
            rw [show p.links.next (.head .ready) = some (.head .ready) from hnext]
            exact if_pos rfl
          have hs : TimerManager.timeOutLoop env t fuel' s = s := by
            cases fuel' with
            | zero => rfl
            | succ fuel' => simp only [TimerManager.timeOutLoop, hready]
          rw [hp, hs]
          exact ⟨h, hready⟩
      | cons node rest =>
          rw [hready] at hnext hfuel hfuel'
          obtain ⟨fuel', rfl⟩ := Nat.exists_eq_succ_of_ne_zero
            (Nat.ne_of_gt (Nat.lt_of_lt_of_le (Nat.succ_pos _) hfuel'))
          have hp : timeOutLoop env t (fuel + 1) p = timeOutLoop env t fuel
              (timeOutNode env t node (p.popReady node)).observe := by
            conv_lhs => unfold timeOutLoop
            rw [show p.links.next (.head .ready) = some (.item node) from hnext.1]
            rfl
          have hs : TimerManager.timeOutLoop env t (fuel' + 1) s = TimerManager.timeOutLoop env t
              fuel' (TimerManager.timeOutNode env t node { s with mReadyNodes := rest }) := by
            simp only [TimerManager.timeOutLoop, hready]
          rw [hs] at hF ⊢
          rw [hp]
          have hstep := (timeOutNode_refines env h hready
            ((timeOutLoop_grows env t fuel' _).fresh hF)).observe
          have hlen : (TimerManager.timeOutNode env t node
              { s with mReadyNodes := rest }).mReadyNodes.length ≤ rest.length :=
            (timeOutNode_ready env t node { s with mReadyNodes := rest }).length_le
          refine ih fuel' hstep (Nat.lt_of_le_of_lt hlen (Nat.lt_of_succ_lt_succ hfuel))
            (Nat.le_trans hlen (Nat.le_of_succ_le_succ hfuel')) hF ?_
          have hring := (hstep.owned.rings.ring .ready).leads
          rw [hstep.state] at hring
          exact hring

theorem processTimeOut_refines (h : Refines p s) (hF : (TimerManager.processTimeOut env s).Fresh) :
    Refines (processTimeOut env p) (TimerManager.processTimeOut env s) := by
  have hreset : ∀ q : PState, Owned [] q.s q.links →
      Owned q.s.mReadyNodes { q.s with mReadyNodes := [] } (q.links.circle (.head .ready)) :=
    fun q hq => hq.take .ready (lists_setReady []) rfl rfl rfl fun _ => rfl
  have htick := h.tick env
  have hlen : (getCurrentMillisec env s).mReadyNodes.length <
      walkFuel (p.update (getCurrentMillisec env)) := by
    rw [← htick.state]
    exact Nat.lt_succ_of_le (hreset _ htick.owned).length_le
  obtain ⟨hloop, hnil⟩ :=
    timeOutLoop_refines env (t := (getCurrentMillisec env s).now) _ _ htick hlen
    (Nat.le_refl _) hF
  have howned := hreset _ hloop.owned
  rw [hloop.state, hnil] at howned
  rw [processTimeOut, TimerManager.processTimeOut, htick.state]
  exact ⟨by rw [hloop.state], by rw [hloop.state]; exact howned, hloop.seen⟩

theorem processTimer_refines (h : Refines p s) (ioIdleTick : ℕ)
    (hF : (TimerManager.processTimer env ioIdleTick s).2.Fresh) :
    Refines (processTimer env p) (TimerManager.processTimer env ioIdleTick s).2 := by
  have hbusy : ∀ {p s} (b : Bool), Refines p s →
      Refines (p.update fun s => { s with mBusying := b }) { s with mBusying := b } :=
    fun b h => h.update (fun H => by cases H <;> rfl) rfl (fun _ => rfl) (Nat.le_refl _)
      fun _ => rfl
  revert hF
  simp only [processTimer, TimerManager.processTimer, h.state]
  split
  · exact fun _ => h
  · intro hF
    have htick := (hbusy true h).tick env
    have hloop := detectLoop_refines env (if env.tick s.reads > s.mStartTick then
      (env.tick s.reads - s.mStartTick) / granularity else 0) htick
    have hout := hbusy false (processTimeOut_refines env hloop hF)
    simp only [detectList, htick.state]
    exact hout

theorem call_refines (h : Refines p s) (c : Call) (hF : (TimerManager.call env s c).Fresh) :
    Refines (call env p c) (TimerManager.call env s c) := by
  cases c with
  | processTimer io => exact processTimer_refines env h io hF
  | setTimer handler timerId interval extra => exact callInside_refines env h (.setTimer ..) hF
  | setTimerEx handler interval extra => exact callInside_refines env h (.setTimerEx ..) hF
  | killTimer handler timerId => exact callInside_refines env h (.killTimer ..) hF

theorem init_refines : Refines (init env) (TimerManager.init env) := by
  have hnil : ∀ H, lists (TimerManager.init env) H = [] := fun H => by cases H <;> rfl
  refine ⟨rfl, ⟨⟨fun H => ?_, fun H => ?_, fun H _ n hn => ?_, rfl⟩, fun _ hn => (by cases hn),
    List.nodup_nil, fun n => iff_of_false ?_ fun hm => (by cases hm), fun _ _ _ hm => (by cases hm),
    fun H n hn => ?_, fun k _ => rfl⟩, fun _ hx => (by cases hx)⟩
  · show Links.Seg _ _ (lists (TimerManager.init env) H) _
    rw [hnil]
    exact ⟨rfl, rfl⟩
  · show (lists (TimerManager.init env) H).Nodup
    rw [hnil]
    exact List.nodup_nil
  · change n ∈ lists (TimerManager.init env) H at hn
    rw [hnil] at hn
    cases hn
  · rintro (hn | ⟨H, hn⟩)
    · cases hn
    · change n ∈ lists (TimerManager.init env) H at hn
      rw [hnil] at hn
      cases hn
  · change n ∈ lists (TimerManager.init env) H at hn
    rw [hnil] at hn
    cases hn

end

/-- Under fresh ids the manager on its links refines the manager on lists, over every run. -/
theorem fresh_refines (env : Env) (calls : List Call) (hF : (TimerManager.run env calls).Fresh) :
    Refines (run env calls) (TimerManager.run env calls) := by
  have hgrows : ∀ (calls : List Call) (s : State),
      s.Grows (calls.foldl (TimerManager.call env) s) := by
    intro calls
    induction calls with
    | nil => exact fun _ => List.prefix_rfl
    | cons c calls ih => exact fun s => (call_grows env s c).trans (ih _)
  have hfold : ∀ (calls : List Call) (p : PState) (s : State), Refines p s →
      (calls.foldl (TimerManager.call env) s).Fresh →
        Refines (calls.foldl (fun p c => (call env p c).observe) p)
          (calls.foldl (TimerManager.call env) s) := by
    intro calls
    induction calls with
    | nil => exact fun _ _ h _ => h
    | cons c calls ih =>
        exact fun p s h hF => ih _ _ (call_refines env h c ((hgrows calls _).fresh hF)).observe hF
  exact hfold calls _ _ (init_refines env).observe hF

/-- The timers of the maps are the linked nodes, as the pointers tell. -/
structure TimersOwned (s : State) (L : TimerLinks) : Prop where
  /-- no null pointer was followed, and every walk came back to its head -/
  sound : L.fault = false
  ring : ∀ H, ∃ l, L.Ring H l ∧ l.Nodup
  linked : ∀ h id n, s.mTimerMap h id = some n → ∃! H, ∃ l, L.Ring H l ∧ n ∈ l
  owned : ∀ H l n, L.Ring H l → n ∈ l → H.Exists s ∧
    s.mTimerMap (s.heap n).mHandler (s.heap n).mTimerId = some n

theorem Owned.timersOwned {s : State} {L : TimerLinks} (h : Owned [] s L) : TimersOwned s L := by
  have hunique : ∀ {H l}, L.Ring H l → l = lists s H := fun {H l} hl =>
    (Links.Seg.leads hl).unique (h.rings.ring H).leads
  have htied : ∀ n, (∃ H, n ∈ lists s H) ↔
      s.mTimerMap (s.heap n).mHandler (s.heap n).mTimerId = some n := fun n => by
    have := h.tied n
    simpa using this
  refine ⟨h.rings.sound, fun H => ⟨_, h.rings.ring H, h.rings.nodup H⟩, fun hd id n hm => ?_,
    fun H l n hl hn => ?_⟩
  · obtain ⟨-, hkey⟩ := h.owner hd id n hm
    obtain ⟨hh, hid⟩ := Prod.mk.inj hkey
    obtain ⟨H, hH⟩ := (htied n).mpr (by rw [hh, hid, hm])
    refine ⟨H, ⟨_, h.rings.ring H, hH⟩, fun H' hH' => ?_⟩
    obtain ⟨l, hl, hn⟩ := hH'
    exact h.rings.disjoint H' H n (hunique hl ▸ hn) hH
  · have hin := hunique hl ▸ hn
    exact ⟨h.inWheels H n hin, (htied n).mp ⟨H, hin⟩⟩

/-- In every run of a looper's calls whose ids do not wrap, wherever no splice is under way, the
timers of the maps and the linked nodes are the same, and each is linked in one ring. -/
theorem run_timersOwned (env : Env) (henv : ∀ i, ∀ c ∈ env.callback i, c.OfLooper)
    (calls : List Call) (hcalls : ∀ c ∈ calls, c.OfLooper)
    (hU : (TimerManager.run env calls).Unwrapped) :
    ∀ x ∈ (run env calls).seen, TimersOwned x.1 x.2 := fun x hx =>
  ((fresh_refines env calls (run_fresh env henv calls hcalls hU)).seen x hx).timersOwned

/-- A clock that is ten ticks further at each reading. The first callback kills timer 2 of
handler 1, which is ready too, and sets a new timer. -/
def rekillExEnv : Env :=
  ⟨fun i => 10 * i, fun i => if i = 0 then [.killTimer 1 2, .setTimerEx 1 5 none] else []⟩

theorem run_timersOwned_rekilled :
    (∀ x ∈ (run rekillExEnv [.setTimerEx 1 5 none, .setTimerEx 1 5 none, .processTimer 0]).seen,
      TimersOwned x.1 x.2) ∧
    (run rekillExEnv [.setTimerEx 1 5 none, .setTimerEx 1 5 none, .processTimer 0]).s.log =
      [.set 0 1 1 none, .armed 0 5 10 0, .set 1 1 2 none, .armed 1 5 20 0, .ready 0 15 30,
        .ready 1 25 30, .armed 0 5 40 30, .onTimer 1 1 0, .killed 1, .set 2 1 2 none,
        .armed 2 5 50 30] := by
  have hlog : (TimerManager.run rekillExEnv
      [.setTimerEx 1 5 none, .setTimerEx 1 5 none, .processTimer 0]).log =
      [.set 0 1 1 none, .armed 0 5 10 0, .set 1 1 2 none, .armed 1 5 20 0, .ready 0 15 30,
        .ready 1 25 30, .armed 0 5 40 30, .onTimer 1 1 0, .killed 1, .set 2 1 2 none,
        .armed 2 5 50 30] := by
    decide +kernel
  refine ⟨run_timersOwned rekillExEnv (fun i c hc => ?_) _ (fun c hc => ?_) ?_, ?_⟩
  · simp only [rekillExEnv] at hc
    split_ifs at hc
    · rcases List.mem_pair.mp hc with rfl | rfl <;> trivial
    · cases hc
  · simp only [List.mem_cons, List.not_mem_nil, or_false] at hc
    rcases hc with rfl | rfl | rfl <;> trivial
  · rw [State.Unwrapped, hlog]
    decide
  · decide +kernel

end CoreLooper.TimerManager.Pointers
