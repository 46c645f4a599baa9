import CoreLooper.DnsLooper

/-!
# The invariant of DnsLooper

One invariant covers the list, the worker and the history. `StartDnsThread` keeps it unless a
result for the first request still waits for the timer.
-/
namespace CoreLooper

open CStrings Transitions

namespace DnsLooper

variable {l : DnsLooper} {alive : ℕ → Bool}

theorem startDnsThread_running (h : l.mThreadRunning = true) : l.startDnsThread = l := by
  rw [startDnsThread, if_pos h]

theorem startDnsThread_empty (h : l.mItems = []) : l.startDnsThread = l := by
  rw [startDnsThread]
  split_ifs
  · rfl
  · rw [h]

theorem startDnsThread_item {item : TagItemInfo} {rest : List TagItemInfo}
    (h : l.mThreadRunning = false) (hitems : l.mItems = item :: rest) :
    l.startDnsThread = { l with
      mThreadRunning := true
      mDns := (cstr item.mDns).take 127
      mIP := []
      mTimerCheck := true } := by
  rw [startDnsThread, h, hitems]
  rfl

@[simp] theorem startDnsThread_mItems : l.startDnsThread.mItems = l.mItems := by
  unfold startDnsThread
  split_ifs
  · rfl
  · split <;> rfl

@[simp] theorem startDnsThread_requests : l.startDnsThread.requests = l.requests := by
  rw [requests, startDnsThread_mItems, requests]

theorem addRequest_eq (info : TagItemInfo) :
    l.addRequest info = { l with mItems := l.mItems ++ [info] }.startDnsThread := by
  unfold addRequest
  dsimp only
  split_ifs with h
  · rfl
  · rw [startDnsThread_running]
    simpa using h

theorem onTimerNext_eq : l.onTimerNext = l.startDnsThread := by
  unfold onTimerNext
  split_ifs with h
  · rfl
  · rw [startDnsThread_empty (not_not.mp h)]

theorem cancelRequest_keeps (l : DnsLooper) (alive : ℕ → Bool) (handler : ℕ) : ∃ p,
    (l.cancelRequest alive handler).2 = { l with mItems := l.mItems.filter p } := by
  unfold cancelRequest
  split_ifs
  · exact ⟨_, rfl⟩
  · use fun _ => true
    rw [List.filter_true]

theorem requests_filter (l : DnsLooper) (p : TagItemInfo → Bool) :
    { l with mItems := l.mItems.filter p }.requests.Sublist l.requests :=
  List.filter_sublist.map _

/-- The first request is removed if its name is the one that was resolved. -/
theorem onTimerDone_removes {item : TagItemInfo} {rest : List TagItemInfo}
    (hitems : l.mItems = item :: rest) (hname : item.mDns = l.mDns) :
    (l.onTimerDone alive).1 = { l with mItems := rest, mTimerCheck := false } ∧
      ∀ n ∈ (l.onTimerDone alive).2,
        n.request = item.request ∧ n.dns = cstr item.mDns ∧ n.ip = cstr l.mIP := by
  unfold onTimerDone onDnsParseDone
  simp only [hitems, if_pos hname, true_and]
  intro n hn
  split_ifs at hn
  · cases hn
  · obtain rfl := Option.some.inj hn
    exact ⟨rfl, rfl, rfl⟩
  · cases hn

theorem onTimerDone_leaves (h : ∀ item ∈ l.mItems.head?, item.mDns ≠ l.mDns) :
    l.onTimerDone alive = ({ l with mTimerCheck := false }, none) := by
  unfold onTimerDone onDnsParseDone
  cases hitems : l.mItems with
  | nil => rfl
  | cons item rest =>
      rw [hitems] at h
      simp only [if_neg (h item rfl)]

theorem dnsThreadCB_mIP (answer : Option Bytes) : 0 ∉ (l.dnsThreadCB answer).mIP := by
  unfold dnsThreadCB
  dsimp only
  have hanswer : 0 ∉ ((answer.map cstr).getD []).take 23 := by
    intro hzero
    have hmem := List.mem_of_mem_take hzero
    cases answer with
    | none => exact List.not_mem_nil hmem
    | some ip => exact cstr_not_mem ip hmem
  split_ifs
  · decide
  · decide
  · exact hanswer

end DnsLooper

namespace DnsSystem

open DnsLooper

variable {s s' : DnsSystem} {r : ℕ}

/-- `StartDnsThread` with the history of its target. -/
def begin (s : DnsSystem) : DnsSystem :=
  { s with looper := s.looper.startDnsThread, target := targetAfter s.looper s.target }

theorem next_eq (s : DnsSystem) : s.next = s.begin := by
  rw [next, onTimerNext_eq, begin]

/-- A request more, whose number is the next. -/
def push (s : DnsSystem) (dns : Bytes) (handler msg : ℕ) : DnsSystem :=
  { s with
    looper := { s.looper with
      mItems := s.looper.mItems ++
        [{ mDns := dns, mHandler := handler, mMsg := msg, request := s.names.length }] }
    names := s.names ++ [dns] }

theorem add_eq (s : DnsSystem) (dns : Bytes) (handler msg : ℕ) :
    s.add dns handler msg = (s.push dns handler msg).begin := by
  rw [add, begin, push, addRequest_eq]

/-- Some requests are cancelled. -/
def cancelled (s : DnsSystem) (p : TagItemInfo → Bool) : DnsSystem :=
  { s with looper := { s.looper with mItems := s.looper.mItems.filter p } }

/-- Everything but that requests are seen to. -/
structure Inv (s : DnsSystem) : Prop where
  nodup : s.looper.requests.Nodup
  asked : ∀ item ∈ s.looper.mItems, s.names[item.request]? = some item.mDns
  target_old : ∀ t ∈ s.target, t < s.names.length
  target_front : ∀ t ∈ s.target, t ∈ s.looper.requests → s.front = some t
  /-- The worker was given the name of its target, as far as the buffer holds it. -/
  given : s.looper.mTimerCheck = true → ∀ item ∈ s.looper.mItems.head?,
    s.target = some item.request → s.looper.mDns = (cstr item.mDns).take 127
  resolved_old : ∀ r ∈ s.resolved, r < s.names.length
  resolved_waits : ∀ r ∈ s.resolved, r ∈ s.looper.requests → s.Pending ∧ s.target = some r
  checked_resolved : ∀ r ∈ s.checked, r ∈ s.resolved
  removed : ∀ r ∈ s.checked, r ∉ s.looper.requests
  watched : s.looper.mThreadRunning = true → s.looper.mItems ≠ [] → s.looper.mTimerCheck = true
  clean : s.looper.mTimerCheck = true → 0 ∉ s.looper.mDns
  answered : s.looper.mTimerCheck = true → s.looper.mThreadRunning = false →
    0 ∉ s.looper.mIP ∧ (s.looper.mDns, s.looper.mIP) ∈ s.answers
  told : ∀ n ∈ s.notices, n.request < s.names.length ∧ n.request ∉ s.looper.requests
  once : (s.notices.map DnsNotice.request).Nodup
  named : ∀ n ∈ s.notices, s.names[n.request]? = some n.dns ∧ (n.dns, n.ip) ∈ s.answers

namespace Inv

theorem old (h : s.Inv) (hr : r ∈ s.looper.requests) : r < s.names.length := by
  obtain ⟨item, hitem, rfl⟩ := List.mem_map.mp hr
  exact (List.getElem?_eq_some_iff.mp (h.asked item hitem)).1

theorem initial (running : Bool) (mDns mIP : Bytes) (alive : ℕ → Bool) :
    (DnsSystem.initial running mDns mIP alive).Inv where
  nodup := List.nodup_nil
  asked := by simp [DnsSystem.initial]
  target_old := by simp [DnsSystem.initial]
  target_front := by simp [DnsSystem.initial]
  given := by simp [DnsSystem.initial]
  resolved_old := by simp [DnsSystem.initial]
  resolved_waits := by simp [DnsSystem.initial]
  checked_resolved := by simp [DnsSystem.initial]
  removed := by simp [DnsSystem.initial]
  watched := by simp [DnsSystem.initial]
  clean := by simp [DnsSystem.initial]
  answered := by simp [DnsSystem.initial]
  told := by simp [DnsSystem.initial]
  once := List.nodup_nil
  named := by simp [DnsSystem.initial]

/-- No request that is resolved waits, if no result does. -/
theorem not_resolved (h : s.Inv) (hpending : ¬ s.Pending) : ∀ r ∈ s.resolved,
    r ∉ s.looper.requests :=
  fun r hr hmem => hpending (h.resolved_waits r hr hmem).1

/-- `StartDnsThread` -/
theorem begin (h : s.Inv) (hpending : ¬ s.Pending) : s.begin.Inv := by
  cases hrun : s.looper.mThreadRunning with
  | true =>
      have hsame : s.begin = s := by
        rw [DnsSystem.begin, startDnsThread_running hrun, targetAfter, if_pos hrun]
      rwa [hsame]
  | false =>
      cases hitems : s.looper.mItems with
      | nil =>
          have htarget : targetAfter s.looper s.target = s.target := by
            rw [targetAfter, hrun, requests, hitems]
            simp
          have hsame : s.begin = s := by
            rw [DnsSystem.begin, startDnsThread_empty hitems, htarget]
          rwa [hsame]
      | cons item rest =>
          have htarget : targetAfter s.looper s.target = some item.request := by
            rw [targetAfter, hrun, requests, hitems]
            simp
          have hbegin : s.begin = { s with
              looper := { s.looper with
                mThreadRunning := true
                mDns := (cstr item.mDns).take 127
                mIP := []
                mTimerCheck := true }
              target := some item.request } := by
            rw [DnsSystem.begin, startDnsThread_item hrun hitems, htarget]
          have hmem : item.request ∈ s.looper.requests := by
            rw [requests, hitems]
            exact List.mem_cons_self
          have hfront : s.front = some item.request := by
            rw [front, requests, hitems]
            rfl
          rw [hbegin]
          exact {
            nodup := h.nodup
            asked := h.asked
            target_old := by
              rintro t ht
              rw [← Option.some.inj ht]
              exact h.old hmem
            target_front := by
              rintro t ht -
              rw [← ht]
              exact hfront
            given := by
              intro _ item' hitem' _
              have hhead : item = item' := by
                rw [hitems] at hitem'
                exact Option.some.inj hitem'
              rw [hhead]
            resolved_old := h.resolved_old
            resolved_waits := fun r hr hwait => absurd hwait (h.not_resolved hpending r hr)
            checked_resolved := h.checked_resolved
            removed := h.removed
            watched := fun _ _ => rfl
            clean := fun _ hzero => cstr_not_mem _ (List.mem_of_mem_take hzero)
            answered := fun _ hfalse => absurd hfalse (by simp)
            told := h.told
            once := h.once
            named := h.named }

/-- A new request waits behind the others. -/
theorem push (h : s.Inv) (hwatched : s.looper.mThreadRunning = true → s.looper.mTimerCheck = true)
    (hpending : ¬ s.Pending) (dns : Bytes) (handler msg : ℕ) :
    (s.push dns handler msg).Inv ∧ ¬ (s.push dns handler msg).Pending := by
  have hrequests : (s.push dns handler msg).looper.requests =
      s.looper.requests ++ [s.names.length] := by
    simp [DnsSystem.push, requests]
  have hnew : s.names.length ∉ s.looper.requests := fun hmem => Nat.lt_irrefl _ (h.old hmem)
  have hnames : (s.push dns handler msg).names = s.names ++ [dns] := rfl
  have hlength : (s.push dns handler msg).names.length = s.names.length + 1 := by
    rw [hnames, List.length_append, List.length_singleton]
  -- an old number that waits has waited before
  have hwait : ∀ r < s.names.length, r ∈ (s.push dns handler msg).looper.requests →
      r ∈ s.looper.requests := by
    intro r hr hmem
    rw [hrequests] at hmem
    rcases List.mem_append.mp hmem with hmem | hmem
    · exact hmem
    · rw [List.mem_singleton] at hmem
      omega
  have hfront : ∀ t < s.names.length, (s.push dns handler msg).front = some t ↔
      s.front = some t := by
    intro t ht
    rw [front, front, hrequests]
    cases s.looper.requests with
    | nil =>
        simp only [List.nil_append, List.head?_cons, List.head?_nil, Option.some.injEq]
        constructor
        · omega
        · intro hnone
          cases hnone
    | cons x xs => rfl
  have hname : ∀ r, r < s.names.length → (s.names ++ [dns])[r]? = s.names[r]? :=
    fun r hr => List.getElem?_append_left hr
  have hnot : ¬ (s.push dns handler msg).Pending := by
    rintro ⟨hrun, htimer, hsome, heq⟩
    obtain ⟨t, ht⟩ := Option.ne_none_iff_exists'.mp hsome
    have htarget : s.target = some t := heq.symm.trans ht
    have hold := h.target_old t htarget
    have hs : s.front = some t := (hfront t hold).mp ht
    exact hpending ⟨hrun, htimer, by rw [hs]; simp, hs.trans htarget.symm⟩
  refine ⟨?_, hnot⟩
  exact {
    nodup := by
      rw [hrequests]
      exact List.nodup_append.mpr ⟨h.nodup, List.nodup_singleton _, fun x hx y hy heq =>
        hnew (by rw [← List.mem_singleton.mp hy, ← heq]; exact hx)⟩
    asked := by
      intro item hitem
      rcases List.mem_append.mp hitem with hitem | hitem
      · have hr := h.old (List.mem_map_of_mem hitem)
        rw [hnames, hname _ hr]
        exact h.asked item hitem
      · rw [List.mem_singleton.mp hitem, hnames]
        exact List.getElem?_concat_length
    target_old := by
      intro t ht
      have := h.target_old t ht
      omega
    target_front := by
      intro t ht hmem
      have hold := h.target_old t ht
      exact (hfront t hold).mpr (h.target_front t ht (hwait t hold hmem))
    given := by
      intro htimer item hitem htarget
      have hold := h.target_old item.request htarget
      cases hitems : s.looper.mItems with
      | nil =>
          have heq : (s.push dns handler msg).looper.mItems.head? = some ⟨dns, handler, msg,
              false, s.names.length⟩ := by
            simp [DnsSystem.push, hitems]
          rw [heq] at hitem
          rw [← Option.some.inj hitem] at hold
          exact absurd hold (Nat.lt_irrefl _)
      | cons item' rest =>
          have heq : (s.push dns handler msg).looper.mItems.head? = some item' := by
            simp [DnsSystem.push, hitems]
          rw [heq] at hitem
          exact h.given htimer item (by rw [hitems]; exact hitem) htarget
    resolved_old := by
      intro r hr
      have := h.resolved_old r hr
      omega
    resolved_waits := by
      intro r hr hmem
      have hwaits := hwait r (h.resolved_old r hr) hmem
      exact absurd hwaits (h.not_resolved hpending r hr)
    checked_resolved := h.checked_resolved
    removed := by
      intro r hr hmem
      exact h.removed r hr (hwait r (h.resolved_old r (h.checked_resolved r hr)) hmem)
    watched := fun hrun _ => hwatched hrun
    clean := h.clean
    answered := h.answered
    told := by
      intro n hn
      obtain ⟨hold, hnot⟩ := h.told n hn
      exact ⟨by omega, fun hmem => hnot (hwait _ hold hmem)⟩
    once := h.once
    named := by
      intro n hn
      obtain ⟨hasked, hanswer⟩ := h.named n hn
      rw [hnames, hname _ (h.told n hn).1]
      exact ⟨hasked, hanswer⟩ }

/-- The first request stays the first, if it is not cancelled. -/
theorem front_filter (h : s.Inv) (p : TagItemInfo → Bool) {item : TagItemInfo}
    (hitem : item ∈ s.looper.mItems.filter p) (hfront : s.front = some item.request) :
    s.looper.mItems.head? = some item ∧ (s.looper.mItems.filter p).head? = some item := by
  cases hitems : s.looper.mItems with
  | nil =>
      rw [hitems] at hitem
      cases hitem
  | cons first rest =>
      have hnodup := h.nodup
      rw [requests, hitems] at hnodup
      have hfirst : first.request = item.request := by
        rw [front, requests, hitems] at hfront
        exact Option.some.inj hfront
      have heq : first = item := by
        have hmem := List.mem_of_mem_filter hitem
        rw [hitems] at hmem
        exact List.inj_on_of_nodup_map hnodup List.mem_cons_self hmem hfirst
      have hp : p item = true := (List.mem_filter.mp hitem).2
      rw [heq, List.filter_cons_of_pos hp]
      exact ⟨rfl, rfl⟩

theorem cancelled (h : s.Inv) (p : TagItemInfo → Bool) : (s.cancelled p).Inv := by
  have hsub : (s.cancelled p).looper.requests ⊆ s.looper.requests :=
    (requests_filter s.looper p).subset
  have hkept : ∀ r ∈ (s.cancelled p).looper.requests, s.front = some r →
      (s.cancelled p).front = some r := by
    intro r hr hfront
    obtain ⟨item, hitem, rfl⟩ := List.mem_map.mp hr
    have hhead := (h.front_filter p hitem hfront).2
    rw [front, requests, List.head?_map]
    exact congrArg (Option.map TagItemInfo.request) hhead
  exact {
    nodup := (requests_filter s.looper p).nodup h.nodup
    asked := fun item hitem => h.asked item (List.mem_of_mem_filter hitem)
    target_old := h.target_old
    target_front := fun t ht hmem => hkept t hmem (h.target_front t ht (hsub hmem))
    given := by
      intro htimer item hitem htarget
      have hmem : item ∈ s.looper.mItems.filter p := List.mem_of_mem_head? hitem
      have hwaits := List.mem_map_of_mem (f := TagItemInfo.request) (List.mem_of_mem_filter hmem)
      have hfront := h.target_front item.request htarget hwaits
      exact h.given htimer item (h.front_filter p hmem hfront).1 htarget
    resolved_old := h.resolved_old
    resolved_waits := by
      intro r hr hmem
      obtain ⟨⟨hrun, htimer, hsome, heq⟩, htarget⟩ := h.resolved_waits r hr (hsub hmem)
      have hfront := hkept r hmem (heq.trans htarget)
      exact ⟨⟨hrun, htimer, by rw [hfront]; simp, hfront.trans htarget.symm⟩, htarget⟩
    checked_resolved := h.checked_resolved
    removed := fun r hr hmem => h.removed r hr (hsub hmem)
    watched := by
      intro hrun hne
      apply h.watched hrun
      intro hnil
      exact hne (by rw [DnsSystem.cancelled, hnil]; rfl)
    clean := h.clean
    answered := h.answered
    told := fun n hn => ⟨(h.told n hn).1, fun hmem => (h.told n hn).2 (hsub hmem)⟩
    once := h.once
    named := h.named }

/-- The worker ends. -/
theorem done (h : s.Inv) (hrun : s.looper.mThreadRunning = true) (answer : Option Bytes) :
    (s.done answer).Inv where
  nodup := h.nodup
  asked := h.asked
  target_old := h.target_old
  target_front := h.target_front
  given := h.given
  resolved_old := by
    intro r hr
    rcases List.mem_append.mp hr with hr | hr
    · exact h.resolved_old r hr
    · exact h.target_old r (Option.mem_toList.mp hr)
  resolved_waits := by
    intro r hr hmem
    rcases List.mem_append.mp hr with hr | hr
    · have hstopped := (h.resolved_waits r hr hmem).1.1
      rw [hrun] at hstopped
      cases hstopped
    · have htarget : s.target = some r := Option.mem_toList.mp hr
      have hfront := h.target_front r htarget hmem
      have htimer : s.looper.mTimerCheck = true := by
        apply h.watched hrun
        intro hnil
        have hempty : s.looper.requests = [] := by rw [requests, hnil, List.map_nil]
        have hmem' : r ∈ s.looper.requests := hmem
        rw [hempty] at hmem'
        cases hmem'
      have hsome : (s.done answer).front ≠ none := by
        have heq : (s.done answer).front = some r := hfront
        rw [heq]
        simp
      exact ⟨⟨rfl, htimer, hsome, hfront.trans htarget.symm⟩, htarget⟩
  checked_resolved := fun r hr => List.mem_append_left _ (h.checked_resolved r hr)
  removed := h.removed
  watched := fun hfalse => absurd hfalse (by simp [DnsSystem.done, dnsThreadCB])
  clean := h.clean
  answered := fun _ _ =>
    ⟨dnsThreadCB_mIP answer, List.mem_append_right _ (List.mem_singleton.mpr rfl)⟩
  told := h.told
  once := h.once
  named := fun n hn => ⟨(h.named n hn).1, List.mem_append_left _ (h.named n hn).2⟩

/-- The timer finds the worker running. -/
theorem tick (h : s.Inv) (hrun : s.looper.mThreadRunning = true) :
    { s with checked := s.resolved }.Inv :=
  { h with
    checked_resolved := fun _ hr => hr
    removed := by
      intro r hr hmem
      have hstopped := (h.resolved_waits r hr hmem).1.1
      rw [hrun] at hstopped
      cases hstopped }

end Inv

/-- The worker is given a name as it is just if it fits. -/
theorem copied_iff {dns : Bytes} : (cstr dns).take 127 = dns ↔ Fits dns := by
  constructor
  · intro h
    constructor
    · intro hzero
      rw [← h] at hzero
      exact cstr_not_mem dns (List.mem_of_mem_take hzero)
    · rw [← h]
      exact List.length_take_le 127 _
  · rintro ⟨hzero, hlength⟩
    rw [cstr_eq_self hzero, List.take_of_length_le hlength]

/-- What the timer does before the owner is told, or the next request is begun. -/
def timed (s : DnsSystem) : DnsSystem :=
  { s with
    looper := (s.looper.onTimerDone s.alive).1
    checked := s.resolved
    rounds := s.rounds + 1
    notices := s.notices ++ (s.looper.onTimerDone s.alive).2.toList }

theorem round_eq (s : DnsSystem) : s.round =
    if (s.looper.onTimerDone s.alive).2.isSome then { s.timed with inside := s.inside + 1 }
    else s.timed.begin := by
  rw [← next_eq]
  rfl

/-- The first request is removed, or had another name than the one resolved. -/
theorem timed_cases (s : DnsSystem) :
    (∃ item rest, s.looper.mItems = item :: rest ∧ item.mDns = s.looper.mDns ∧
      s.timed.looper = { s.looper with mItems := rest, mTimerCheck := false }) ∨
    ((∀ item ∈ s.looper.mItems.head?, item.mDns ≠ s.looper.mDns) ∧
      s.timed.looper = { s.looper with mTimerCheck := false }) := by
  by_cases hname : ∃ item ∈ s.looper.mItems.head?, item.mDns = s.looper.mDns
  · left
    obtain ⟨item, hitem, hname⟩ := hname
    obtain ⟨rest, hitems⟩ : ∃ rest, s.looper.mItems = item :: rest := by
      cases hitems : s.looper.mItems with
      | nil =>
          rw [hitems] at hitem
          cases hitem
      | cons first rest =>
          rw [hitems] at hitem
          exact ⟨rest, by rw [Option.some.inj hitem]⟩
    refine ⟨item, rest, hitems, hname, ?_⟩
    rw [timed, (onTimerDone_removes hitems hname).1]
  · right
    have hother : ∀ item ∈ s.looper.mItems.head?, item.mDns ≠ s.looper.mDns :=
      fun item hitem heq => hname ⟨item, hitem, heq⟩
    refine ⟨hother, ?_⟩
    rw [timed, onTimerDone_leaves hother]

theorem timed_notices (s : DnsSystem) {n : DnsNotice}
    (hn : n ∈ (s.looper.onTimerDone s.alive).2) : ∃ item rest, s.looper.mItems = item :: rest ∧
      item.mDns = s.looper.mDns ∧ s.timed.looper = { s.looper with
        mItems := rest
        mTimerCheck := false } ∧
      n.request = item.request ∧ n.dns = cstr item.mDns ∧ n.ip = cstr s.looper.mIP := by
  rcases s.timed_cases with ⟨item, rest, hitems, hname, hlooper⟩ | ⟨hother, -⟩
  · exact ⟨item, rest, hitems, hname, hlooper, (onTimerDone_removes hitems hname).2 n hn⟩
  · rw [onTimerDone_leaves hother] at hn
    cases hn

namespace Inv

/-- The timer leaves no request that has been resolved, if the name of the first one fits. -/
theorem timed_resolved (h : s.Inv)
    (hfits : s.Pending → ∀ item ∈ s.looper.mItems.head?, Fits item.mDns) :
    ∀ r ∈ s.resolved, r ∉ s.timed.looper.requests := by
  intro r hr hmem
  rcases s.timed_cases with ⟨item, rest, hitems, hname, hlooper⟩ | ⟨hother, hlooper⟩
  · rw [hlooper] at hmem
    have hwaits : r ∈ s.looper.requests := by
      rw [requests, hitems]
      exact List.mem_cons_of_mem _ hmem
    have hfront := h.target_front r (h.resolved_waits r hr hwaits).2 hwaits
    have hnodup := h.nodup
    rw [requests, hitems] at hnodup
    rw [front, requests, hitems] at hfront
    have hitem : item.request = r := Option.some.inj hfront
    rw [← hitem] at hmem
    exact (List.nodup_cons.mp hnodup).1 hmem
  · rw [hlooper] at hmem
    have hwaits : r ∈ s.looper.requests := hmem
    obtain ⟨hpending, htarget⟩ := h.resolved_waits r hr hwaits
    have hfront := h.target_front r htarget hwaits
    rw [front, requests, List.head?_map] at hfront
    obtain ⟨item, hitem, hrequest⟩ := Option.map_eq_some_iff.mp hfront
    have hgiven := h.given hpending.2.1 item hitem (by rw [hrequest, htarget])
    rw [copied_iff.mpr (hfits hpending item hitem)] at hgiven
    exact hother item hitem hgiven.symm

/-- The timer finds the worker done. -/
theorem timed (h : s.Inv) (hrun : s.looper.mThreadRunning = false)
    (htimer : s.looper.mTimerCheck = true)
    (hfits : s.Pending → ∀ item ∈ s.looper.mItems.head?, Fits item.mDns) :
    s.timed.Inv ∧ s.timed.looper.mTimerCheck = false ∧
      s.timed.looper.mThreadRunning = false := by
  have hstate : s.timed.looper.mTimerCheck = false ∧
      s.timed.looper.mThreadRunning = false := by
    rcases s.timed_cases with ⟨item, rest, -, -, hlooper⟩ | ⟨-, hlooper⟩
    · rw [hlooper]
      exact ⟨rfl, hrun⟩
    · rw [hlooper]
      exact ⟨rfl, hrun⟩
  have hitems : s.timed.looper.mItems.Sublist s.looper.mItems := by
    rcases s.timed_cases with ⟨item, rest, hitems, -, hlooper⟩ | ⟨-, hlooper⟩
    · rw [hlooper, hitems]
      exact List.sublist_cons_self item rest
    · rw [hlooper]
  have hsub : s.timed.looper.requests.Sublist s.looper.requests := hitems.map _
  have hresolved := h.timed_resolved hfits
  obtain ⟨hoff, hstopped⟩ := hstate
  have hnever : ¬ s.timed.looper.mTimerCheck = true := by
    rw [hoff]
    simp
  refine ⟨?_, hoff, hstopped⟩
  exact {
    nodup := hsub.nodup h.nodup
    asked := fun item hitem => h.asked item (hitems.subset hitem)
    target_old := h.target_old
    target_front := by
      intro t ht hmem
      have hfront := h.target_front t ht (hsub.subset hmem)
      rcases s.timed_cases with ⟨item, rest, hcons, -, hlooper⟩ | ⟨-, hlooper⟩
      · rw [hlooper] at hmem
        have hnodup := h.nodup
        rw [requests, hcons] at hnodup
        rw [front, requests, hcons] at hfront
        have hitem : item.request = t := Option.some.inj hfront
        rw [← hitem] at hmem
        exact absurd hmem (List.nodup_cons.mp hnodup).1
      · rw [front, hlooper]
        exact hfront
    given := fun hon => absurd hon hnever
    resolved_old := h.resolved_old
    resolved_waits := fun r hr hmem => absurd hmem (hresolved r hr)
    checked_resolved := fun _ hr => hr
    removed := hresolved
    watched := by
      intro hon
      rw [hstopped] at hon
      cases hon
    clean := fun hon => absurd hon hnever
    answered := fun hon => absurd hon hnever
    told := by
      intro n hn
      rcases List.mem_append.mp hn with hn | hn
      · exact ⟨(h.told n hn).1, fun hmem => (h.told n hn).2 (hsub.subset hmem)⟩
      · obtain ⟨item, rest, hcons, -, hlooper, hrequest, -⟩ :=
          s.timed_notices (Option.mem_toList.mp hn)
        have hnodup := h.nodup
        rw [requests, hcons] at hnodup
        rw [hrequest, hlooper]
        refine ⟨h.old ?_, (List.nodup_cons.mp hnodup).1⟩
        rw [requests, hcons]
        exact List.mem_cons_self
    once := by
      have hnew : ∀ n ∈ (s.looper.onTimerDone s.alive).2, n.request ∈ s.looper.requests := by
        intro n hn
        obtain ⟨item, rest, hcons, -, -, hrequest, -⟩ := s.timed_notices hn
        rw [hrequest, requests, hcons]
        exact List.mem_cons_self
      have hnotices : s.timed.notices =
          s.notices ++ (s.looper.onTimerDone s.alive).2.toList := rfl
      rw [hnotices, List.map_append]
      refine List.nodup_append.mpr ⟨h.once, ?_, ?_⟩
      · cases (s.looper.onTimerDone s.alive).2 with
        | none => exact List.nodup_nil
        | some n => exact List.nodup_singleton _
      · rintro x hx y hy rfl
        obtain ⟨n, hn, rfl⟩ := List.mem_map.mp hx
        obtain ⟨n', hn', heq⟩ := List.mem_map.mp hy
        have hmem := hnew n' (Option.mem_toList.mp hn')
        rw [heq] at hmem
        exact (h.told n hn).2 hmem
    named := by
      intro n hn
      rcases List.mem_append.mp hn with hn | hn
      · exact h.named n hn
      · obtain ⟨item, rest, hcons, hname, -, hrequest, hdns, hip⟩ :=
          s.timed_notices (Option.mem_toList.mp hn)
        obtain ⟨hclean, hanswer⟩ := h.answered htimer hrun
        have hnull := h.clean htimer
        rw [hrequest, hdns, hip, hname, cstr_eq_self hnull, cstr_eq_self hclean]
        refine ⟨?_, hanswer⟩
        have hasked := h.asked item (by rw [hcons]; exact List.mem_cons_self)
        rw [hname] at hasked
        exact hasked }

end Inv

theorem begin_served
    (h : s.looper.mThreadRunning = true → s.looper.mItems ≠ [] → s.looper.mTimerCheck = true) :
    s.begin.Served := by
  intro hne
  left
  have hitems : s.looper.mItems ≠ [] := by
    have heq : s.begin.looper.mItems = s.looper.mItems := startDnsThread_mItems
    rwa [heq] at hne
  cases hrun : s.looper.mThreadRunning with
  | true =>
      rw [begin, startDnsThread_running hrun]
      exact h hrun hitems
  | false =>
      obtain ⟨item, rest, hcons⟩ := List.exists_cons_of_ne_nil hitems
      rw [begin, startDnsThread_item hrun hcons]

/-- What one step can do, besides what only concerns the owners. -/
theorem step_inv {e : DnsEvent} (h : s.Inv) (hserved : s.Served) (hok : s.Orderly e)
    (hs : s.step e = some s') : s'.Inv ∧ s'.Served := by
  cases e with
  | addRequest dns handler msg =>
      obtain rfl := Option.some.inj hs
      obtain ⟨hpending, hwatched⟩ := hok
      obtain ⟨hpush, hnot⟩ := h.push hwatched hpending dns handler msg
      rw [add_eq]
      exact ⟨hpush.begin hnot, begin_served hpush.watched⟩
  | cancelRequest handler =>
      obtain rfl := Option.some.inj hs
      obtain ⟨p, hp⟩ := cancelRequest_keeps s.looper s.alive handler
      rw [hp]
      refine ⟨h.cancelled p, ?_⟩
      intro hne
      apply hserved
      intro hnil
      exact hne (by rw [hnil]; rfl)
  | threadDone answer =>
      rw [step] at hs
      split_ifs at hs with hrun
      obtain rfl := Option.some.inj hs
      exact ⟨h.done hrun answer, hserved⟩
  | timer =>
      rw [step] at hs
      split_ifs at hs with htimer hrun
      · obtain rfl := Option.some.inj hs
        exact ⟨h.tick hrun, hserved⟩
      · obtain rfl := Option.some.inj hs
        have hrun' : s.looper.mThreadRunning = false := by simpa using hrun
        obtain ⟨htimed, hoff, -⟩ := h.timed hrun' htimer hok
        have hnot : ¬ s.timed.Pending := by
          rintro ⟨-, hon, -⟩
          rw [hoff] at hon
          cases hon
        rw [round_eq]
        split_ifs
        · exact ⟨{ htimed with }, fun _ => .inr (Nat.succ_pos _)⟩
        · exact ⟨htimed.begin hnot, begin_served htimed.watched⟩
  | ownerReturns =>
      rw [step] at hs
      split_ifs at hs with hinside
      obtain rfl := Option.some.inj hs
      have hless : { s with inside := s.inside - 1 }.Inv := { h with }
      rw [next_eq]
      exact ⟨hless.begin hok, begin_served hless.watched⟩
  | expire handler =>
      obtain rfl := Option.some.inj hs
      exact ⟨{ h with }, hserved⟩

end DnsSystem

end CoreLooper
