import CoreLooper.DnsInvariant

/-!
# Progress of DnsLooper

A request that waits comes closer to the front of the list with each round of the timer, and no
step takes it farther away. What is not orderly can keep it waiting for ever.
-/
namespace CoreLooper

open CStrings Transitions

namespace DnsSystem

open DnsLooper

variable {s s' : DnsSystem} {r : ℕ}

/-- A result that waits for the timer, or is awaited, is not for the first request. -/
def stale (s : DnsSystem) : ℕ :=
  if s.looper.mTimerCheck = true ∧ s.front ≠ s.target then 1 else 0

/-- After so many rounds a request that waits has its turn. -/
def waits (s : DnsSystem) (r : ℕ) : ℕ := s.looper.requests.idxOf r + 1 + s.stale

theorem begin_requests (s : DnsSystem) : s.begin.looper.requests = s.looper.requests :=
  startDnsThread_requests

theorem waits_begin (hr : r ∈ s.looper.requests) : s.begin.waits r ≤ s.waits r := by
  cases hrun : s.looper.mThreadRunning with
  | true =>
      rw [begin, startDnsThread_running hrun, targetAfter, if_pos hrun]
  | false =>
      obtain ⟨t, ht⟩ : ∃ t, s.looper.requests.head? = some t := by
        cases hcons : s.looper.requests with
        | nil =>
            rw [hcons] at hr
            cases hr
        | cons t rest => exact ⟨t, rfl⟩
      have htarget : s.begin.target = some t := by
        have heq : s.begin.target = targetAfter s.looper s.target := rfl
        rw [heq, targetAfter, hrun, ht]
        rfl
      have hfront : s.begin.front = some t := by
        rw [front, begin_requests, ht]
      have hstale : s.begin.stale = 0 := by
        rw [stale, if_neg]
        rintro ⟨-, hne⟩
        exact hne (hfront.trans htarget.symm)
      rw [waits, waits, hstale, begin_requests]
      omega

theorem waits_push (hr : r ∈ s.looper.requests) (dns : Bytes) (handler msg : ℕ) :
    (s.push dns handler msg).waits r = s.waits r := by
  have hrequests : (s.push dns handler msg).looper.requests =
      s.looper.requests ++ [s.names.length] := by
    simp [push, requests]
  have hfront : (s.push dns handler msg).front = s.front := by
    rw [front, front, hrequests]
    cases hcons : s.looper.requests with
    | nil =>
        rw [hcons] at hr
        cases hr
    | cons x xs => rfl
  rw [waits, waits, stale, stale, hfront, hrequests, List.idxOf_append_of_mem hr]
  rfl

theorem idxOf_filter_le {items : List TagItemInfo} {p : TagItemInfo → Bool}
    (hnodup : (items.map TagItemInfo.request).Nodup)
    (hr : r ∈ (items.filter p).map TagItemInfo.request) :
    ((items.filter p).map TagItemInfo.request).idxOf r ≤
      (items.map TagItemInfo.request).idxOf r := by
  induction items with
  | nil => cases hr
  | cons item rest ih =>
      obtain ⟨hnot, hnodup⟩ := List.nodup_cons.mp hnodup
      by_cases hp : p item = true
      · rw [List.filter_cons_of_pos hp, List.map_cons, List.map_cons] at *
        by_cases heq : item.request = r
        · rw [heq, List.idxOf_cons_self]
          exact Nat.zero_le _
        · rw [List.idxOf_cons_ne _ heq, List.idxOf_cons_ne _ heq]
          have hr' := (List.mem_cons.mp hr).resolve_left (Ne.symm heq)
          exact Nat.succ_le_succ (ih hnodup hr')
      · rw [List.filter_cons_of_neg hp] at hr ⊢
        have heq : item.request ≠ r := by
          rintro rfl
          exact hnot ((List.filter_sublist.map _).subset hr)
        rw [List.map_cons, List.idxOf_cons_ne _ heq]
        exact (ih hnodup hr).trans (Nat.le_succ _)

theorem stale_le (s : DnsSystem) : s.stale ≤ 1 := by
  rw [stale]
  split_ifs <;> omega

/-- A request that is cancelled makes room for those behind it. -/
theorem waits_cancelled (h : s.Inv) {p : TagItemInfo → Bool}
    (hr : r ∈ (s.cancelled p).looper.requests) : (s.cancelled p).waits r ≤ s.waits r := by
  have hnodup := h.nodup
  have hrequests : (s.cancelled p).looper.requests =
      (s.looper.mItems.filter p).map TagItemInfo.request := rfl
  have hone := (s.cancelled p).stale_le
  rw [waits, waits, hrequests]
  rw [hrequests] at hr
  rw [requests] at hnodup ⊢
  have hle := idxOf_filter_le hnodup hr
  cases hitems : s.looper.mItems with
  | nil =>
      rw [hitems] at hr
      cases hr
  | cons item rest =>
      rw [hitems] at hr hle hnodup
      by_cases hp : p item = true
      · have hfront : (s.cancelled p).front = s.front := by
          rw [front, front, hrequests, requests, hitems, List.filter_cons_of_pos hp]
          rfl
        have hsame : (s.cancelled p).stale = s.stale := by
          rw [stale, stale, hfront]
          rfl
        omega
      · obtain ⟨hnot, hnodup⟩ := List.nodup_cons.mp hnodup
        rw [List.filter_cons_of_neg hp] at hr ⊢
        have heq : item.request ≠ r := by
          rintro rfl
          exact hnot ((List.filter_sublist.map _).subset hr)
        have hless := idxOf_filter_le hnodup hr
        rw [List.map_cons, List.idxOf_cons_ne _ heq]
        omega

/-- A round brings every request that stays one place closer to its turn. -/
theorem waits_timed (h : s.Inv) (hrun : s.looper.mThreadRunning = false)
    (htimer : s.looper.mTimerCheck = true)
    (hfits : s.Pending → ∀ item ∈ s.looper.mItems.head?, Fits item.mDns)
    (hr : r ∈ s.timed.looper.requests) : s.timed.waits r + 1 ≤ s.waits r := by
  have hstale : s.timed.stale = 0 := by
    rw [stale, if_neg]
    rintro ⟨hon, -⟩
    rw [(h.timed hrun htimer hfits).2.1] at hon
    cases hon
  rw [waits, waits, hstale]
  rcases s.timed_cases with ⟨item, rest, hitems, -, hlooper⟩ | ⟨hother, hlooper⟩
  · have hnodup := h.nodup
    rw [hlooper] at hr ⊢
    rw [requests, hitems] at hnodup
    have heq : item.request ≠ r := by
      rintro rfl
      exact (List.nodup_cons.mp hnodup).1 hr
    rw [requests, requests, hitems, List.map_cons, List.idxOf_cons_ne _ heq]
    dsimp only
    omega
  · have hone : s.stale = 1 := by
      rw [stale, if_pos]
      refine ⟨htimer, fun hfront => ?_⟩
      cases hitems : s.looper.mItems with
      | nil =>
          rw [hlooper, requests, hitems] at hr
          cases hr
      | cons item rest =>
          have hhead : s.looper.mItems.head? = some item := by rw [hitems]; rfl
          have hsome : s.front = some item.request := by
            rw [front, requests, hitems]
            rfl
          have hpending : s.Pending := ⟨hrun, htimer, by rw [hsome]; simp, hfront⟩
          have hgiven := h.given htimer item hhead (hfront.symm.trans hsome)
          rw [copied_iff.mpr (hfits hpending item hhead)] at hgiven
          exact hother item hhead hgiven.symm
    rw [hone, hlooper, requests, requests]

/-- No step delays a request that stays, and each round brings it closer. -/
theorem step_waits {e : DnsEvent} (h : s.Inv) (hok : s.Orderly e) (hs : s.step e = some s')
    (hr : r ∈ s.looper.requests) (hr' : r ∈ s'.looper.requests) :
    s'.rounds + s'.waits r ≤ s.rounds + s.waits r := by
  cases e with
  | addRequest dns handler msg =>
      obtain rfl := Option.some.inj hs
      have hpush : r ∈ (s.push dns handler msg).looper.requests := by
        simp only [push, requests, List.map_append]
        exact List.mem_append_left _ hr
      have hle := waits_begin hpush
      rw [waits_push hr] at hle
      rw [add_eq]
      exact Nat.add_le_add_left hle s.rounds
  | cancelRequest handler =>
      obtain rfl := Option.some.inj hs
      obtain ⟨p, hp⟩ := cancelRequest_keeps s.looper s.alive handler
      rw [hp] at hr' ⊢
      exact Nat.add_le_add_left (waits_cancelled h hr') s.rounds
  | threadDone answer =>
      rw [step] at hs
      split_ifs at hs with hrun
      obtain rfl := Option.some.inj hs
      exact Nat.le_refl _
  | timer =>
      rw [step] at hs
      split_ifs at hs with htimer hrun
      · obtain rfl := Option.some.inj hs
        exact Nat.le_refl _
      · obtain rfl := Option.some.inj hs
        have hrun' : s.looper.mThreadRunning = false := by simpa using hrun
        rw [round_eq] at hr' ⊢
        split_ifs at hr' ⊢ with hnotice
        · have hle := waits_timed h hrun' htimer hok hr'
          have hrounds : s.timed.rounds = s.rounds + 1 := rfl
          have hsame : { s.timed with inside := s.inside + 1 }.waits r = s.timed.waits r := rfl
          rw [hsame]
          dsimp only
          omega
        · rw [begin_requests] at hr'
          have hle := waits_timed h hrun' htimer hok hr'
          have hbegin := waits_begin hr'
          have hrounds : s.timed.begin.rounds = s.rounds + 1 := rfl
          omega
  | ownerReturns =>
      rw [step] at hs
      split_ifs at hs with hinside
      obtain rfl := Option.some.inj hs
      rw [next_eq]
      have hle := waits_begin (s := { s with inside := s.inside - 1 }) hr
      exact Nat.add_le_add_left hle s.rounds
  | expire handler =>
      obtain rfl := Option.some.inj hs
      exact Nat.le_refl _

/-- Only a call of `AddRequest` makes a request wait, and it has a new number. -/
theorem step_requests {e : DnsEvent} (hs : s.step e = some s') :
    s.names.length ≤ s'.names.length ∧
      ∀ r < s.names.length, r ∈ s'.looper.requests → r ∈ s.looper.requests := by
  cases e with
  | addRequest dns handler msg =>
      obtain rfl := Option.some.inj hs
      rw [add_eq]
      constructor
      · have hnames : (s.push dns handler msg).begin.names = s.names ++ [dns] := rfl
        rw [hnames, List.length_append]
        exact Nat.le_add_right _ _
      · intro r hr hmem
        rw [begin_requests] at hmem
        simp only [push, requests, List.map_append, List.map_cons, List.map_nil] at hmem
        rcases List.mem_append.mp hmem with hmem | hmem
        · exact hmem
        · rw [List.mem_singleton] at hmem
          omega
  | cancelRequest handler =>
      obtain rfl := Option.some.inj hs
      obtain ⟨p, hp⟩ := cancelRequest_keeps s.looper s.alive handler
      refine ⟨Nat.le_refl _, fun r _ hmem => ?_⟩
      rw [hp] at hmem
      exact (requests_filter s.looper p).subset hmem
  | threadDone answer =>
      rw [step] at hs
      split_ifs at hs
      obtain rfl := Option.some.inj hs
      exact ⟨Nat.le_refl _, fun r _ hmem => hmem⟩
  | timer =>
      rw [step] at hs
      split_ifs at hs with htimer hrun
      · obtain rfl := Option.some.inj hs
        exact ⟨Nat.le_refl _, fun r _ hmem => hmem⟩
      · obtain rfl := Option.some.inj hs
        have hsub : s.timed.looper.requests ⊆ s.looper.requests := by
          rcases s.timed_cases with ⟨item, rest, hitems, -, hlooper⟩ | ⟨-, hlooper⟩
          · rw [hlooper, requests, requests, hitems]
            exact List.subset_cons_self _ _
          · rw [hlooper]
            exact List.Subset.refl _
        rw [round_eq]
        split_ifs
        · exact ⟨Nat.le_refl _, fun r _ hmem => hsub hmem⟩
        · refine ⟨Nat.le_refl _, fun r _ hmem => ?_⟩
          rw [begin_requests] at hmem
          exact hsub hmem
  | ownerReturns =>
      rw [step] at hs
      split_ifs at hs
      obtain rfl := Option.some.inj hs
      rw [next_eq]
      refine ⟨Nat.le_refl _, fun r _ hmem => ?_⟩
      rwa [begin_requests] at hmem
  | expire handler =>
      obtain rfl := Option.some.inj hs
      exact ⟨Nat.le_refl _, fun r _ hmem => hmem⟩

theorem reachable_inv (h : s.Inv) (hserved : s.Served) (hrun : Reachable step Orderly s s') :
    s'.Inv ∧ s'.Served :=
  hrun.invariant (I := fun t => t.Inv ∧ t.Served) ⟨h, hserved⟩
    fun _ _ _ ht hok hs => step_inv ht.1 ht.2 hok hs

theorem reachable_waits (h : s.Inv) (hserved : s.Served) (hrun : Reachable step Orderly s s')
    (hr : r ∈ s.looper.requests) : s.names.length ≤ s'.names.length ∧
      (r ∈ s'.looper.requests → s'.rounds + s'.waits r ≤ s.rounds + s.waits r) := by
  induction hrun with
  | start => exact ⟨Nat.le_refl _, fun _ => Nat.le_refl _⟩
  | next hbefore hok hs ih =>
      obtain ⟨hnames, hle⟩ := ih
      obtain ⟨hmore, hold⟩ := step_requests hs
      refine ⟨hnames.trans hmore, fun hr' => ?_⟩
      have hmem := hold r (lt_of_lt_of_le (h.old hr) hnames) hr'
      have hinv := (reachable_inv h hserved hbefore).1
      exact (step_waits hinv hok hs hmem hr').trans (hle hmem)

theorem Inv.fair (h : s.Inv) (hserved : s.Served) : s.Fair :=
  ⟨hserved, h.removed, h.once, h.named⟩

/-- In a run of orderly steps resolved requests are removed, each owner is told once at most and
of its own name, and a request has left the list after two rounds more than stand before it. -/
theorem requests_progress (mThreadRunning : Bool) (mDns mIP : Bytes) (alive : ℕ → Bool)
    (hrun : Reachable step Orderly (initial mThreadRunning mDns mIP alive) s) :
    s.Fair ∧ ∀ s', Reachable step Orderly s s' → ∀ k r, s.looper.requests[k]? = some r →
      s.rounds + k + 2 ≤ s'.rounds → r ∉ s'.looper.requests := by
  have hserved : (initial mThreadRunning mDns mIP alive).Served := fun hne => absurd rfl hne
  obtain ⟨h, hserved⟩ := reachable_inv (Inv.initial mThreadRunning mDns mIP alive) hserved hrun
  refine ⟨h.fair hserved, ?_⟩
  intro s' hrun' k r hk hrounds hr'
  obtain ⟨hlt, hget⟩ := List.getElem?_eq_some_iff.mp hk
  have hr : r ∈ s.looper.requests := by
    rw [← hget]
    exact List.getElem_mem hlt
  have hindex : s.looper.requests.idxOf r = k := by
    rw [← hget]
    exact h.nodup.idxOf_getElem k hlt
  have hle := (reachable_waits h hserved hrun' hr).2 hr'
  have hone := s.stale_le
  rw [waits, waits, hindex] at hle
  omega

/-- Two requests, of which the second gets no answer. -/
theorem requests_progress_two :
    ∃ s, Reachable step Orderly (initial false [] [] fun _ => true) s ∧
      s.notices.map (fun n => (n.mHandler, n.dns, n.ip)) = [(0, [97], [49]), (1, [98], [])] ∧
      s.Fair := by
  have hstart : Reachable step Orderly (initial false [] [] fun _ => true) _ := .start
  have hfirst := hstart.next (a := .addRequest [97] 0 5) (by decide) rfl
  have hsecond := hfirst.next (a := .addRequest [98] 1 6) (by decide) rfl
  have hdone := hsecond.next (a := .threadDone (some [49])) (by decide) rfl
  have htold := hdone.next (a := .timer) (by decide) rfl
  have hreturned := htold.next (a := .ownerReturns) (by decide) rfl
  have hfailed := hreturned.next (a := .threadDone none) (by decide) rfl
  have hrun := hfailed.next (a := .timer) (by decide) rfl
  exact ⟨_, hrun, rfl, (requests_progress false [] [] (fun _ => true) hrun).1⟩

/-- The worker runs for the first of the requests. -/
structure RunsFor (s : DnsSystem) (item : TagItemInfo) (rest : List TagItemInfo) : Prop where
  items : s.looper.mItems = item :: rest
  running : s.looper.mThreadRunning = true
  timer : s.looper.mTimerCheck = true
  given : s.looper.mDns = (cstr item.mDns).take 127
  target : s.target = some item.request

/-- A name that does not fit is resolved in vain, and then once more. -/
theorem RunsFor.again {item : TagItemInfo} {rest : List TagItemInfo} (h : s.RunsFor item rest)
    (hname : ¬ Fits item.mDns) : ∃ s', run step s [.threadDone none, .timer] = some s' ∧
      s'.RunsFor item rest ∧ s'.rounds = s.rounds + 1 ∧ item.request ∈ s'.checked := by
  set t := s.done none with ht
  have hitems : t.looper.mItems = item :: rest := h.items
  have hother : ∀ i ∈ t.looper.mItems.head?, i.mDns ≠ t.looper.mDns := by
    intro i hi heq
    rw [hitems] at hi
    have hdns : t.looper.mDns = (cstr item.mDns).take 127 := h.given
    rw [← Option.some.inj hi, hdns] at heq
    exact hname (copied_iff.mp heq.symm)
  have hnone : (t.looper.onTimerDone t.alive).2 = none := by rw [onTimerDone_leaves hother]
  have htimed : t.timed.looper = { t.looper with mTimerCheck := false } := by
    rw [timed, onTimerDone_leaves hother]
  have hround : t.round = t.timed.begin := by
    rw [round_eq, hnone]
    rfl
  have hdone : s.step (.threadDone none) = some t := by
    rw [step, if_pos h.running]
  have htimer : t.step .timer = some t.round := by
    have hon : t.looper.mTimerCheck = true := h.timer
    have hoff : t.looper.mThreadRunning = false := rfl
    rw [step, if_pos hon, hoff]
    rfl
  have hstopped : t.timed.looper.mThreadRunning = false := by
    rw [htimed]
    rfl
  have hcons : t.timed.looper.mItems = item :: rest := by
    rw [htimed]
    exact hitems
  refine ⟨t.round, ?_, ?_, ?_, ?_⟩
  · rw [run, List.foldlM_cons, hdone]
    exact (bind_pure _).trans htimer
  · have hbegin := startDnsThread_item hstopped hcons
    rw [hround]
    exact {
      items := (startDnsThread_mItems (l := t.timed.looper)).trans hcons
      running := by rw [begin, hbegin]
      timer := by rw [begin, hbegin]
      given := by rw [begin, hbegin]
      target := by
        rw [begin, targetAfter, hstopped, requests, hcons]
        rfl }
  · rw [hround]
    rfl
  · rw [hround]
    have hchecked : t.timed.begin.checked = s.resolved ++ s.target.toList := rfl
    rw [hchecked, h.target]
    exact List.mem_append_right _ List.mem_cons_self

/-- Behind such a name nothing moves, however often the timer comes. -/
theorem RunsFor.for_ever {item : TagItemInfo} {rest : List TagItemInfo} (h : s.RunsFor item rest)
    (hname : ¬ Fits item.mDns) (n : ℕ) : ∃ s', Reachable step (fun _ _ => True) s s' ∧
      s'.RunsFor item rest ∧ s'.rounds = s.rounds + n := by
  induction n with
  | zero => exact ⟨s, .start, h, rfl⟩
  | succ n ih =>
      obtain ⟨t, hreach, ht, hrounds⟩ := ih
      obtain ⟨s', hrun, hs', hmore, -⟩ := ht.again hname
      exact ⟨s', hreach.of_run hrun, hs', by omega⟩

theorem RunsFor.unfair {item : TagItemInfo} {rest : List TagItemInfo} (h : s.RunsFor item rest)
    (hname : ¬ Fits item.mDns) : ∃ s', Reachable step (fun _ _ => True) s s' ∧ ¬ s'.Fair := by
  obtain ⟨s', hrun, hs', -, hchecked⟩ := h.again hname
  refine ⟨s', Reachable.start.of_run hrun, fun hfair => ?_⟩
  apply hfair.removed item.request hchecked
  rw [requests, hs'.items]
  exact List.mem_cons_self

/-- A name of 128 bytes keeps the one behind it waiting. -/
theorem long_name_blocks :
    ∃ s, Reachable step (fun _ _ => True) (initial false [] [] fun _ => true) s ∧
      s.looper.requests = [0, 1] ∧
      (∀ n, ∃ s', Reachable step (fun _ _ => True) s s' ∧ s'.looper.requests = [0, 1] ∧
        s'.rounds = s.rounds + n) ∧
      ∃ s', Reachable step (fun _ _ => True) s s' ∧ ¬ s'.Fair := by
  set name : Bytes := List.replicate 128 97 with hdef
  have hname : ¬ Fits name := by
    intro hfits
    have hlength := hfits.2
    rw [hdef, List.length_replicate] at hlength
    omega
  set s := ((initial false [] [] fun _ => true).add name 0 0).add [98] 1 0 with hs
  have hruns : s.RunsFor ⟨name, 0, 0, false, 0⟩ [⟨[98], 1, 0, false, 1⟩] :=
    ⟨rfl, rfl, rfl, rfl, rfl⟩
  have hadds : run step (initial false [] [] fun _ => true)
      [.addRequest name 0 0, .addRequest [98] 1 0] = some s := rfl
  refine ⟨s, Reachable.start.of_run hadds, rfl, ?_, hruns.unfair hname⟩
  intro n
  obtain ⟨s', hreach', hs', hrounds⟩ := hruns.for_ever hname n
  refine ⟨s', hreach', ?_, hrounds⟩
  rw [requests, hs'.items]
  rfl

/-- A request that is added between the end of the worker and the timer makes the looper resolve
the first name once more. -/
theorem early_request_unfair : ∃ s,
    run step (initial false [] [] fun _ => true)
      [.addRequest [97] 0 0, .threadDone none, .addRequest [98] 1 0, .timer] = some s ∧
      ¬ s.Fair := by
  refine ⟨_, rfl, fun hfair => ?_⟩
  exact hfair.removed 0 (by decide) (by decide)

/-- Where the worker of an earlier looper still runs, no timer is set. -/
theorem earlier_worker_unfair : ∃ s,
    run step (initial true [] [] fun _ => true) [.addRequest [97] 0 0, .threadDone none] = some s ∧
      ¬ s.Fair := by
  refine ⟨_, rfl, fun hfair => ?_⟩
  exact absurd (hfair.served (by decide)) (by decide)

end DnsSystem

end CoreLooper
