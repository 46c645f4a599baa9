import Mathlib

/-!
# Circular doubly linked lists with heads

A family of rings over one memory: every ring has a head, the items carry their links, and an
item is in at most one ring. `Rings` relates the two pointers of each address to the lists they
stand for. Linking at the tail, unlinking and taking all items of a ring keep that relation.
A pointer may be null; following a null pointer sets `fault`.
-/
namespace CoreLooper.LinkedRings

inductive Addr (ι α : Type*) where
  | head (i : ι)
  | item (a : α)
  deriving DecidableEq

structure Links (ι α : Type*) where
  next : Addr ι α → Option (Addr ι α)
  prev : Addr ι α → Option (Addr ι α)
  fault : Bool

namespace Links
variable {ι α : Type*}

def crash (L : Links ι α) : Links ι α := { L with fault := true }

/-- From `x` through the items of `l` to `y`, with links both ways. -/
def Seg (L : Links ι α) : Addr ι α → List α → Addr ι α → Prop
  | x, [], y => L.next x = some y ∧ L.prev y = some x
  | x, a :: l, y => (L.next x = some (.item a) ∧ L.prev (.item a) = some x) ∧ L.Seg (.item a) l y

def Ring (L : Links ι α) (i : ι) (l : List α) : Prop := L.Seg (.head i) l (.head i)

/-- The links lead from `link` through the items of `l` to `y`. -/
def Leads (L : Links ι α) : Option (Addr ι α) → List α → Addr ι α → Prop
  | link, [], y => link = some y
  | link, a :: l, y => link = some (.item a) ∧ L.Leads (L.next (.item a)) l y

section
variable {L L' : Links ι α} {x y z : Addr ι α} {l m : List α} {a : α} {i : ι}

/-- A segment depends on the links of its own addresses only. -/
theorem Seg.frame (h : L.Seg x l y) (hn : ∀ z, z = x ∨ z ∈ l.map .item → L'.next z = L.next z)
    (hp : ∀ z, z = y ∨ z ∈ l.map .item → L'.prev z = L.prev z) : L'.Seg x l y := by
  induction l generalizing x with
  | nil => exact ⟨(hn x (Or.inl rfl)).trans h.1, (hp y (Or.inl rfl)).trans h.2⟩
  | cons a l ih =>
      obtain ⟨⟨h1, h2⟩, h3⟩ := h
      exact ⟨⟨(hn x (Or.inl rfl)).trans h1, (hp (.item a) (Or.inr List.mem_cons_self)).trans h2⟩,
        ih h3 (fun z hz => hn z (Or.inr (List.mem_cons.mpr hz)))
          (fun z hz => hp z (hz.imp_right (List.mem_cons_of_mem _)))⟩

theorem seg_append : L.Seg x (l ++ a :: m) y ↔ L.Seg x l (.item a) ∧ L.Seg (.item a) m y := by
  induction l generalizing x with
  | nil => exact Iff.rfl
  | cons b l ih =>
      show (_ ∧ L.Seg (.item b) (l ++ a :: m) y) ↔ (_ ∧ L.Seg (.item b) l (.item a)) ∧ _
      rw [ih]
      exact and_assoc.symm

theorem Seg.prev_end (h : L.Seg x l y) : ∃ t, L.prev y = some t ∧ (t = x ∨ t ∈ l.map .item) := by
  induction l generalizing x with
  | nil => exact ⟨x, h.2, Or.inl rfl⟩
  | cons a l ih =>
      obtain ⟨t, ht, hmem⟩ := ih h.2
      exact ⟨t, ht, Or.inr (List.mem_cons.mpr hmem)⟩

theorem Seg.next_start (h : L.Seg x l y) :
    ∃ n, L.next x = some n ∧ (n = y ∨ n ∈ l.map .item) := by
  cases l with
  | nil => exact ⟨y, h.1, Or.inl rfl⟩
  | cons a l => exact ⟨.item a, h.1.1, Or.inr List.mem_cons_self⟩

theorem Seg.leads (h : L.Seg x l y) : L.Leads (L.next x) l y := by
  induction l generalizing x with
  | nil => exact h.1
  | cons a l ih => exact ⟨h.1.1, ih h.2⟩

theorem Leads.frame {link : Option (Addr ι α)} (h : L.Leads link l y)
    (hn : ∀ a ∈ l, L'.next (.item a) = L.next (.item a)) : L'.Leads link l y := by
  induction l generalizing link with
  | nil => exact h
  | cons a l ih =>
      refine ⟨h.1, ?_⟩
      rw [hn a List.mem_cons_self]
      exact ih h.2 fun b hb => hn b (List.mem_cons_of_mem _ hb)

/-- The links of a ring determine its items. -/
theorem Leads.unique {link : Option (Addr ι α)} (h : L.Leads link l (.head i))
    (h' : L.Leads link m (.head i)) : l = m := by
  induction l generalizing link m with
  | nil =>
      cases m with
      | nil => rfl
      | cons b m => exact absurd (h.symm.trans h'.1) (by simp)
  | cons a l ih =>
      cases m with
      | nil => exact absurd (h.1.symm.trans h') (by simp)
      | cons b m =>
          obtain rfl : a = b := Addr.item.inj (Option.some.inj (h.1.symm.trans h'.1))
          rw [ih h.2 h'.2]

/-- A segment whose last address `t` is linked to another end. -/
theorem Seg.retarget {t : Addr ι α} (h : L.Seg x l y) (ht : L.prev y = some t) (hnd : l.Nodup)
    (hx : x ∉ l.map .item) (hnext : L'.next t = some z) (hprev : L'.prev z = some t)
    (hn : ∀ w, w = x ∨ w ∈ l.map .item → w ≠ t → L'.next w = L.next w)
    (hp : ∀ w ∈ l.map .item, L'.prev w = L.prev w) : L'.Seg x l z := by
  induction l generalizing x with
  | nil =>
      obtain rfl : x = t := Option.some.inj (h.2.symm.trans ht)
      exact ⟨hnext, hprev⟩
  | cons a l ih =>
      obtain ⟨⟨h1, h2⟩, h3⟩ := h
      obtain ⟨t', ht', hmem⟩ := h3.prev_end
      obtain rfl : t' = t := Option.some.inj (ht'.symm.trans ht)
      have hxt : x ≠ t' := fun heq => hx (heq ▸ List.mem_cons.mpr hmem)
      have ha : Addr.item a ∉ l.map (Addr.item (ι := ι)) := by
        simpa using (List.nodup_cons.mp hnd).1
      exact ⟨⟨(hn x (Or.inl rfl) hxt).trans h1, (hp _ List.mem_cons_self).trans h2⟩,
        ih h3 hnd.of_cons ha (fun w hw => hn w (Or.inr (List.mem_cons.mpr hw)))
          fun w hw => hp w (List.mem_cons_of_mem _ hw)⟩

/-- The segments on both sides of `a`, joined: the address before `a` and the one behind it are
linked to each other. -/
theorem Seg.join {q n : Addr ι α} (h : L.Seg x (l ++ a :: m) y) (hnd : (l ++ a :: m).Nodup)
    (hx : ∀ b, x ≠ .item b) (hy : ∀ b, y ≠ .item b)
    (hq : L.prev (.item a) = some q) (hn : L.next (.item a) = some n)
    (hnextq : L'.next q = some n) (hprevn : L'.prev n = some q)
    (hnext : ∀ w, w ≠ .item a → w ≠ q → L'.next w = L.next w)
    (hprev : ∀ w, w ≠ .item a → w ≠ n → L'.prev w = L.prev w) : L'.Seg x (l ++ m) y := by
  obtain ⟨h1, h2⟩ := seg_append.mp h
  obtain ⟨q', hq', hqmem⟩ := h1.prev_end
  obtain rfl : q' = q := Option.some.inj (hq'.symm.trans hq)
  obtain ⟨hl, ham, hlm⟩ := List.nodup_append.mp hnd
  rw [List.nodup_cons] at ham
  have hxl : x ∉ l.map .item := by simpa using fun b _ heq => hx b heq.symm
  have hla : ∀ w, w = x ∨ w ∈ l.map .item → w ≠ .item a := by
    rintro w (rfl | hw) rfl
    · exact hx a rfl
    · exact hlm a (by simpa using hw) a List.mem_cons_self rfl
  cases m with
  | nil =>
      obtain rfl : y = n := Option.some.inj (h2.1.symm.trans hn)
      rw [List.append_nil]
      refine h1.retarget hq' hl hxl hnextq hprevn (fun w hw => hnext w (hla w hw))
        fun w hw => hprev w (hla w (Or.inr hw)) ?_
      rintro rfl
      obtain ⟨b, -, hb⟩ := List.mem_map.mp hw
      exact hy b hb.symm
  | cons b m =>
      obtain rfl : .item b = n := Option.some.inj (h2.1.1.symm.trans hn)
      have hbm := List.nodup_cons.mp ham.2
      rw [seg_append]
      constructor
      · refine h1.retarget hq' hl hxl hnextq hprevn (fun w hw => hnext w (hla w hw))
          fun w hw => hprev w (hla w (Or.inr hw)) ?_
        rintro rfl
        exact hlm b (by simpa using hw) b (by simp) rfl
      · refine h2.2.frame (fun w hw => ?_) fun w hw => ?_
        · have hw' : ∃ c ∈ b :: m, w = .item c := by
            rcases hw with rfl | hw
            · exact ⟨b, List.mem_cons_self, rfl⟩
            · obtain ⟨c, hc, rfl⟩ := List.mem_map.mp hw
              exact ⟨c, List.mem_cons_of_mem _ hc, rfl⟩
          obtain ⟨c, hc, rfl⟩ := hw'
          refine hnext _ (fun heq => ham.1 (Addr.item.inj heq ▸ hc)) ?_
          rintro rfl
          rcases hqmem with heq | hmem
          · exact hx c heq.symm
          · exact hlm c (by simpa using hmem) c (List.mem_cons_of_mem _ hc) rfl
        · rcases hw with rfl | hw
          · exact hprev _ (hy a) (hy b)
          · obtain ⟨c, hc, rfl⟩ := List.mem_map.mp hw
            refine hprev _ (fun heq => ham.1 ?_) fun heq => hbm.1 (Addr.item.inj heq ▸ hc)
            exact List.mem_cons_of_mem _ (Addr.item.inj heq ▸ hc)

end

variable [DecidableEq ι] [DecidableEq α]

def setNext (L : Links ι α) (x : Addr ι α) (y : Option (Addr ι α)) : Links ι α :=
  { L with next := Function.update L.next x y }

def setPrev (L : Links ι α) (x : Addr ι α) (y : Option (Addr ι α)) : Links ι α :=
  { L with prev := Function.update L.prev x y }

/-- Both links of `x` point to itself. -/
def circle (L : Links ι α) (x : Addr ι α) : Links ι α := (L.setNext x (some x)).setPrev x (some x)

/-- Item `a` is linked in front of the head of ring `i`. -/
def linkTail (L : Links ι α) (i : ι) (a : α) : Links ι α :=
  match L.prev (.head i) with
  | none => L.crash
  | some t =>
    (((L.setPrev (.item a) (some t)).setNext t (some (.item a))).setNext (.item a)
      (some (.head i))).setPrev (.head i) (some (.item a))

/-- The neighbours of `a` are joined; the links of `a` itself stay. -/
def detach (L : Links ι α) (a : α) : Links ι α :=
  match L.next (.item a), L.prev (.item a) with
  | some n, some q => (L.setPrev n (some q)).setNext q (some n)
  | _, _ => L.crash

/-- The neighbours of `a` are joined, if there are any, and the links of `a` become null. -/
def unlink (L : Links ι α) (a : α) : Links ι α :=
  let L := match L.prev (.item a) with
    | some q => L.setNext q (L.next (.item a))
    | none => L
  let L := match L.next (.item a) with
    | some n => L.setPrev n (L.prev (.item a))
    | none => L
  (L.setPrev (.item a) none).setNext (.item a) none

@[simp] theorem circle_head_next (L : Links ι α) (i : ι) (a : α) :
    (L.circle (.head i)).next (.item a) = L.next (.item a) := by
  simp [circle, setNext, setPrev]

theorem linkTail_eq {L : Links ι α} {i : ι} {a : α} {t : Addr ι α}
    (ht : L.prev (.head i) = some t) : L.linkTail i a =
      ⟨Function.update (Function.update L.next t (some (.item a))) (.item a) (some (.head i)),
        Function.update (Function.update L.prev (.item a) (some t)) (.head i) (some (.item a)),
        L.fault⟩ := by
  simp only [linkTail, ht, setNext, setPrev]

theorem detach_eq {L : Links ι α} {a : α} {q n : Addr ι α} (hq : L.prev (.item a) = some q)
    (hn : L.next (.item a) = some n) : L.detach a =
      ⟨Function.update L.next q (some n), Function.update L.prev n (some q), L.fault⟩ := by
  simp only [detach, hq, hn, setNext, setPrev]

theorem unlink_eq {L : Links ι α} {a : α} {q n : Addr ι α} (hq : L.prev (.item a) = some q)
    (hn : L.next (.item a) = some n) (hqa : q ≠ .item a) : L.unlink a =
      ⟨Function.update (Function.update L.next q (some n)) (.item a) none,
        Function.update (Function.update L.prev n (some q)) (.item a) none, L.fault⟩ := by
  simp only [unlink, hq, hn, setNext, setPrev, Function.update_of_ne hqa.symm]

end Links

open Links

/-- The links stand for these lists, and no item is linked twice. -/
structure Rings {ι α : Type*} (L : Links ι α) (lists : ι → List α) : Prop where
  ring : ∀ i, L.Ring i (lists i)
  nodup : ∀ i, (lists i).Nodup
  disjoint : ∀ i j a, a ∈ lists i → a ∈ lists j → i = j
  sound : L.fault = false

namespace Rings
variable {ι α : Type*} {L L' : Links ι α} {lists : ι → List α} {i : ι} {a : α}

/-- The address in front of the head. -/
theorem prev_head (h : Rings L lists) (i : ι) :
    ∃ t, L.prev (.head i) = some t ∧ (t = .head i ∨ t ∈ (lists i).map .item) :=
  (h.ring i).prev_end

/-- An address of ring `i` is in no other ring. -/
theorem ne_of_ne (h : Rings L lists) {i j : ι} (hij : j ≠ i) {z w : Addr ι α}
    (hz : z = .head i ∨ z ∈ (lists i).map .item) (hw : w = .head j ∨ w ∈ (lists j).map .item) :
    w ≠ z := by
  rintro rfl
  rcases hz with rfl | hz <;> rcases hw with hw | hw
  · exact hij (Addr.head.inj hw).symm
  · simp at hw
  · simp [hw] at hz
  · obtain ⟨b, hb, rfl⟩ := List.mem_map.mp hz
    obtain ⟨c, hc, heq⟩ := List.mem_map.mp hw
    obtain rfl := Addr.item.inj heq
    exact hij (h.disjoint j i _ hc hb)

/-- A linked address is not a detached item. -/
theorem ne_item {lists : ι → List α} (ha : ∀ j, a ∉ lists j) {j : ι} {w : Addr ι α}
    (hw : w = .head j ∨ w ∈ (lists j).map .item) : w ≠ .item a := by
  rintro rfl
  rcases hw with hw | hw
  · cases hw
  · exact ha j (by simpa using hw)

/-- The links of detached items do not matter. -/
theorem frame (h : Rings L lists) (hsound : L'.fault = false)
    (hn : ∀ i, ∀ w : Addr ι α, w = .head i ∨ w ∈ (lists i).map .item → L'.next w = L.next w)
    (hp : ∀ i, ∀ w : Addr ι α, w = .head i ∨ w ∈ (lists i).map .item → L'.prev w = L.prev w) :
    Rings L' lists :=
  ⟨fun i => (h.ring i).frame (hn i) (hp i), h.nodup, h.disjoint, hsound⟩

/-- The addresses before and behind an item; they belong to the same ring. -/
theorem neighbours (h : Rings L lists) (ha : a ∈ lists i) : ∃ q n : Addr ι α,
    L.prev (.item a) = some q ∧ L.next (.item a) = some n ∧ q ≠ .item a ∧ n ≠ .item a ∧
      ∀ w, w = q ∨ w = n → w = .head i ∨ w ∈ (lists i).map .item := by
  obtain ⟨l, m, hlm⟩ := List.append_of_mem ha
  have hring : L.Seg (.head i) (lists i) (.head i) := h.ring i
  have hnd := h.nodup i
  rw [hlm] at hring hnd ⊢
  obtain ⟨h1, h2⟩ := seg_append.mp hring
  obtain ⟨q, hq, hqmem⟩ := h1.prev_end
  obtain ⟨n, hn, hnmem⟩ := h2.next_start
  rw [List.nodup_append, List.nodup_cons] at hnd
  refine ⟨q, n, hq, hn, ?_, ?_, ?_⟩
  · rintro rfl
    simp only [reduceCtorEq, false_or] at hqmem
    exact hnd.2.2 a (by simpa using hqmem) a List.mem_cons_self rfl
  · rintro rfl
    simp only [reduceCtorEq, false_or] at hnmem
    exact hnd.2.1.1 (by simpa using hnmem)
  · rw [List.map_append, List.map_cons]
    rintro w (rfl | rfl)
    · exact hqmem.imp_right (List.mem_append_left _)
    · exact hnmem.imp_right fun hm => List.mem_append_right _ (List.mem_cons_of_mem _ hm)

/-- Unlinking, whatever becomes of the links of the item itself. -/
theorem remove (h : Rings L lists) (ha : a ∈ lists i) {q n : Addr ι α}
    (hq : L.prev (.item a) = some q) (hn : L.next (.item a) = some n)
    (hnextq : L'.next q = some n) (hprevn : L'.prev n = some q)
    (hnext : ∀ w, w ≠ .item a → w ≠ q → L'.next w = L.next w)
    (hprev : ∀ w, w ≠ .item a → w ≠ n → L'.prev w = L.prev w) (hsound : L'.fault = false)
    {lists' : ι → List α} (hi : ∀ l m, lists i = l ++ a :: m → lists' i = l ++ m)
    (hj : ∀ j ≠ i, lists' j = lists j) : Rings L' lists' := by
  obtain ⟨l, m, hlm⟩ := List.append_of_mem ha
  have hring : L.Seg (.head i) (lists i) (.head i) := h.ring i
  have hnd := h.nodup i
  obtain ⟨q', n', hq', hn', -, -, hnear⟩ := h.neighbours ha
  obtain rfl : q' = q := Option.some.inj (hq'.symm.trans hq)
  obtain rfl : n' = n := Option.some.inj (hn'.symm.trans hn)
  have hsub : ∀ j b, b ∈ lists' j → b ∈ lists j := fun j b hb => by
    by_cases hji : j = i
    · subst hji
      rw [hi l m hlm] at hb
      rw [hlm]
      exact List.mem_append.mpr ((List.mem_append.mp hb).imp_right (List.mem_cons_of_mem _))
    · exact hj j hji ▸ hb
  have hout : ∀ j ≠ i, ∀ w : Addr ι α, w = .head j ∨ w ∈ (lists j).map .item →
      w ≠ .item a ∧ w ≠ q' ∧ w ≠ n' := fun j hji w hw =>
    ⟨h.ne_of_ne hji (Or.inr (by simpa using ha)) hw, h.ne_of_ne hji (hnear q' (Or.inl rfl)) hw,
      h.ne_of_ne hji (hnear n' (Or.inr rfl)) hw⟩
  rw [hlm] at hnd
  refine ⟨fun j => ?_, fun j => ?_, fun j k b hb hb' => h.disjoint j k b (hsub j b hb)
    (hsub k b hb'), hsound⟩
  · by_cases hji : j = i
    · subst hji
      show L'.Seg _ (lists' j) _
      rw [hi l m hlm]
      rw [hlm] at hring
      exact hring.join hnd (by simp) (by simp) hq hn hnextq hprevn hnext hprev
    · rw [hj j hji]
      refine (h.ring j).frame (fun w hw => ?_) fun w hw => ?_
      · obtain ⟨h1, h2, -⟩ := hout j hji w hw
        exact hnext w h1 h2
      · obtain ⟨h1, -, h2⟩ := hout j hji w hw
        exact hprev w h1 h2
  · by_cases hji : j = i
    · subst hji
      rw [hi l m hlm]
      exact hnd.sublist (List.Sublist.append_left (List.sublist_cons_self a m) l)
    · rw [hj j hji]
      exact h.nodup j

variable [DecidableEq ι] [DecidableEq α]

theorem linkTail (h : Rings L lists) (i : ι) (a : α) (ha : ∀ j, a ∉ lists j) :
    Rings (L.linkTail i a) (Function.update lists i (lists i ++ [a])) := by
  obtain ⟨t, ht, hmem⟩ := h.prev_head i
  have hnext : ∀ w, (L.linkTail i a).next w =
      if w = .item a then some (.head i) else if w = t then some (.item a) else L.next w := by
    intro w
    simp only [linkTail_eq ht, Function.update_apply]
  have hprev : ∀ w, (L.linkTail i a).prev w =
      if w = .head i then some (.item a) else if w = .item a then some t else L.prev w := by
    intro w
    simp only [linkTail_eq ht, Function.update_apply]
  refine ⟨fun j => ?_, fun j => ?_, fun j k b hb hb' => ?_, ?_⟩
  · by_cases hji : j = i
    · subst hji
      rw [Function.update_self]
      refine seg_append.mpr ⟨(h.ring j).retarget ht (h.nodup j) (by simp) ?_ ?_ ?_ ?_, ?_, ?_⟩
      · rw [hnext, if_neg (ne_item ha hmem), if_pos rfl]
      · rw [hprev, if_neg (by simp), if_pos rfl]
      · intro w hw hwt
        rw [hnext, if_neg (ne_item ha hw), if_neg hwt]
      · intro w hw
        have hhead : w ≠ .head j := by
          rintro rfl
          simp at hw
        rw [hprev, if_neg hhead, if_neg (ne_item ha (Or.inr hw))]
      · rw [hnext, if_pos rfl]
      · rw [hprev, if_pos rfl]
    · rw [Function.update_of_ne hji]
      refine (h.ring j).frame (fun w hw => ?_) fun w hw => ?_
      · rw [hnext, if_neg (ne_item ha hw), if_neg (h.ne_of_ne hji hmem hw)]
      · rw [hprev, if_neg (h.ne_of_ne hji (Or.inl rfl) hw), if_neg (ne_item ha hw)]
  · by_cases hji : j = i
    · subst hji
      rw [Function.update_self, List.nodup_append]
      refine ⟨h.nodup j, List.nodup_singleton a, fun b hb c hc heq => ha j ?_⟩
      rw [List.mem_singleton] at hc
      rwa [← hc, ← heq]
    · rw [Function.update_of_ne hji]
      exact h.nodup j
  · have hcase : ∀ {j}, b ∈ Function.update lists i (lists i ++ [a]) j →
        b ∈ lists j ∨ j = i ∧ b = a := fun {j} hb => by
      by_cases hji : j = i
      · subst hji
        rw [Function.update_self, List.mem_append, List.mem_singleton] at hb
        exact hb.imp_right fun hba => ⟨rfl, hba⟩
      · rw [Function.update_of_ne hji] at hb
        exact Or.inl hb
    rcases hcase hb with h1 | ⟨hji, hba⟩ <;> rcases hcase hb' with h2 | ⟨hki, hba'⟩
    · exact h.disjoint j k b h1 h2
    · exact absurd (hba' ▸ h1) (ha j)
    · exact absurd (hba ▸ h2) (ha k)
    · exact hji.trans hki.symm
  · rw [linkTail_eq ht]
    exact h.sound

/-- Linking an item changes the links of no other detached item. -/
theorem linkTail_next (h : Rings L lists) (i : ι) {b : α} (hb : ∀ j, b ∉ lists j) (hab : b ≠ a) :
    (L.linkTail i a).next (.item b) = L.next (.item b) := by
  obtain ⟨t, ht, hmem⟩ := h.prev_head i
  rw [linkTail_eq ht]
  have hba : (Addr.item b : Addr ι α) ≠ .item a := fun heq => hab (Addr.item.inj heq)
  exact (Function.update_of_ne hba _ _).trans (Function.update_of_ne (ne_item hb hmem).symm _ _)

/-- Taking the first item off its ring. -/
theorem detach (h : Rings L lists) {rest : List α} (ha : lists i = a :: rest) :
    Rings (L.detach a) (Function.update lists i rest) := by
  have hmem : a ∈ lists i := ha ▸ List.mem_cons_self
  obtain ⟨q, n, hq, hn, -⟩ := h.neighbours hmem
  rw [detach_eq hq hn]
  refine h.remove hmem hq hn (Function.update_self _ _ _) (Function.update_self _ _ _)
    (fun w _ hw => Function.update_of_ne hw _ _) (fun w _ hw => Function.update_of_ne hw _ _)
    ?_ (fun l m hlm => ?_) fun j hj => ?_
  · exact h.sound
  · have hnd := h.nodup i
    rw [Function.update_self]
    cases l with
    | nil => exact (List.cons.inj (ha.symm.trans hlm)).2
    | cons b l =>
        obtain rfl : a = b := (List.cons.inj (ha.symm.trans hlm)).1
        rw [hlm] at hnd
        exact absurd (List.mem_append_right l List.mem_cons_self) (List.nodup_cons.mp hnd).1
  · exact Function.update_of_ne hj _ _

/-- Unlinking any item. -/
theorem unlink (h : Rings L lists) (ha : a ∈ lists i) :
    Rings (L.unlink a) (fun j => (lists j).filter (· ≠ a)) := by
  obtain ⟨q, n, hq, hn, hqa, hna, -⟩ := h.neighbours ha
  rw [unlink_eq hq hn hqa]
  refine h.remove ha hq hn ?_ ?_ (fun w hw hwq => ?_) (fun w hw hwn => ?_) ?_
    (fun l m hlm => ?_) fun j hj => ?_
  · exact (Function.update_of_ne hqa _ _).trans (Function.update_self _ _ _)
  · exact (Function.update_of_ne hna _ _).trans (Function.update_self _ _ _)
  · exact (Function.update_of_ne hw _ _).trans (Function.update_of_ne hwq _ _)
  · exact (Function.update_of_ne hw _ _).trans (Function.update_of_ne hwn _ _)
  · exact h.sound
  · have hnd := h.nodup i
    rw [hlm, List.nodup_append, List.nodup_cons] at hnd
    obtain ⟨-, ⟨ham, -⟩, hl⟩ := hnd
    have hla : a ∉ l := fun hmem => hl a hmem a List.mem_cons_self rfl
    have hne : ∀ k : List α, a ∉ k → k.filter (· ≠ a) = k := fun k hk =>
      List.filter_eq_self.mpr fun b hb => by simpa using fun heq : b = a => hk (heq ▸ hb)
    rw [hlm, List.filter_append, List.filter_cons_of_neg (by simp), hne l hla, hne m ham]
  · refine List.filter_eq_self.mpr fun b hb => ?_
    have hba : b ≠ a := fun heq => hj (h.disjoint j i a (heq ▸ hb) ha)
    simpa using hba

/-- Unlinking after detaching: the item's own links still name its old neighbours. -/
theorem unlink_detach (h : Rings L lists) (ha : a ∈ lists i) :
    (L.detach a).unlink a = L.unlink a := by
  obtain ⟨q, n, hq, hn, hqa, hna, -⟩ := h.neighbours ha
  rw [unlink_eq hq hn hqa, detach_eq hq hn]
  rw [unlink_eq (q := q) (n := n) ((Function.update_of_ne hna.symm _ _).trans hq)
    ((Function.update_of_ne hqa.symm _ _).trans hn) hqa]
  simp only [Function.update_idem]

/-- All items of a ring are taken at once. -/
theorem take (h : Rings L lists) (i : ι) :
    Rings (L.circle (.head i)) (Function.update lists i []) := by
  have hsub : ∀ {j b}, b ∈ Function.update lists i [] j → b ∈ lists j := fun {j b} hb => by
    by_cases hji : j = i
    · rw [hji, Function.update_self] at hb
      cases hb
    · rwa [Function.update_of_ne hji] at hb
  refine ⟨fun j => ?_, fun j => ?_, fun j k b hb hb' => h.disjoint j k b (hsub hb) (hsub hb'),
    h.sound⟩
  · by_cases hji : j = i
    · rw [hji, Function.update_self]
      exact ⟨Function.update_self _ _ _, Function.update_self _ _ _⟩
    · rw [Function.update_of_ne hji]
      have hne := fun w hw => h.ne_of_ne hji (z := .head i) (w := w) (Or.inl rfl) hw
      exact (h.ring j).frame (fun w hw => Function.update_of_ne (hne w hw) _ _)
        fun w hw => Function.update_of_ne (hne w hw) _ _
  · by_cases hji : j = i
    · rw [hji, Function.update_self]
      exact List.nodup_nil
    · rw [Function.update_of_ne hji]
      exact h.nodup j

/-- A new item is linked to itself. -/
theorem circle (h : Rings L lists) (ha : ∀ j, a ∉ lists j) : Rings (L.circle (.item a)) lists :=
  h.frame h.sound
    (fun _ _ hw => Function.update_of_ne (ne_item ha hw) _ _)
    (fun _ _ hw => Function.update_of_ne (ne_item ha hw) _ _)

/-- Linking at the tail of one ring does not depend on the links of the head of another. -/
theorem circle_linkTail (h : Rings (L.circle (.head i)) lists) {j : ι} (hj : j ≠ i) (a : α) :
    (L.linkTail j a).circle (.head i) = (L.circle (.head i)).linkTail j a := by
  obtain ⟨t, ht, hmem⟩ := h.prev_head j
  have hhead : (Addr.head j : Addr ι α) ≠ .head i := fun heq => hj (Addr.head.inj heq)
  have hti : t ≠ .head i := by
    rintro rfl
    rcases hmem with heq | hmem
    · exact hhead heq.symm
    · simp at hmem
  have ht' : L.prev (.head j) = some t := (Function.update_of_ne hhead _ _).symm.trans ht
  rw [linkTail_eq ht, linkTail_eq ht']
  simp only [Links.circle, setNext, setPrev, Links.mk.injEq, and_true]
  have hitem : (Addr.item a : Addr ι α) ≠ .head i := by simp
  constructor
  · rw [Function.update_comm hitem, Function.update_comm hti]
  · rw [Function.update_comm hhead, Function.update_comm hitem]

end Rings
end CoreLooper.LinkedRings
