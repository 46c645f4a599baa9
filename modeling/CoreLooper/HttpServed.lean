import CoreLooper.HttpFraming

/-!
# Which requests are served

A step looks at what is in the inbox, and there only at the request that comes next. So the runs
that go wrong, when answers are out as soon as they are done, are those in which another length is
found for a request than its own, and a read can bring in anything behind the header that makes the
code find one.
-/
namespace CoreLooper.Http
open CStrings Transitions

/-- What the requests are on the wire. -/
def wire (rs : List WebRequest) : Bytes := rs.flatMap WebRequest.text

namespace HttpHandler

/-- A request is being answered. -/
def Busy (h : HttpHandler) : Prop := ∃ q, h.mHttpRequest = some q ∧ q.m_handler = true

/-- The first requests were handed out, each once, in order and with its own text, and what came
behind them is in the inbox. -/
structure Exact (rs : List WebRequest) (h : HttpHandler) : Prop where
  given : h.given = (rs.take h.given.length).map WebRequest.text
  received : h.received = h.given.flatten ++ h.mInbox
  passedOn : h.passedOn = false

/-- No request waits as a whole, unless one is being answered. -/
def CaughtUp (rs : List WebRequest) (h : HttpHandler) : Prop :=
  h.Busy ∨ ∀ r, rs[h.given.length]? = some r → ¬ r.text <+: h.mInbox

/-- No answer that is done is left in `m_outboxPending`. -/
def Act.Prompt : Act → Prop
  | .receive _ answers => ∀ n, answers n ≠ .pending
  | .send answer => answer ≠ .pending

/-- Whatever the reads, and whenever the answers are done. Bytes that come while a request is being
answered are looked at with the first read after that. -/
def Served (junk : Bytes → UInt8) (rs : List WebRequest) : Prop :=
  ∀ h, Reachable (step junk) (fun _ a => a.Prompt) {} h → h.received <+: wire rs →
    Exact rs h ∧ ∀ buf answers h', ¬ h.Busy → (∀ n, answers n ≠ .pending) →
      step junk h (.receive buf answers) = some h' → h'.received <+: wire rs → CaughtUp rs h'

/-- The length that is found for a request is its own, whatever has come behind its header. With
the first request a single read brings that in, with a later one all that fits the inbox. -/
def Framed (rs : List WebRequest) : Prop :=
  ∀ k r, rs[k]? = some r → ∀ w, w <+: r.body ++ wire (rs.drop (k + 1)) →
    r.header.length + w.length < maxSize → (k = 0 → w.length < 4095) →
    HttpTool.getInt (cstr (r.header ++ w)) (ascii "Content-Length") 0 = r.body.length

section
variable {junk : Bytes → UInt8} {answers : ℕ → Answer} {rs : List WebRequest} {h h' : HttpHandler}
  {q : HttpRequest} {r : WebRequest} {fuel : ℕ}

theorem wire_drop {k : ℕ} (hr : rs[k]? = some r) :
    wire (rs.drop k) = r.header ++ (r.body ++ wire (rs.drop (k + 1))) := by
  obtain ⟨hk, rfl⟩ := List.getElem?_eq_some_iff.mp hr
  rw [wire, List.drop_eq_getElem_cons hk, List.flatMap_cons, WebRequest.text, List.append_assoc]
  rfl

theorem text_ne : r.text ≠ [] := by
  intro hnil
  have hfour := r.four_lt
  have hlen := congrArg List.length hnil
  rw [WebRequest.text, List.length_append, List.length_nil] at hlen
  omega

theorem Exact.flatten (h : Exact rs h') : h'.given.flatten = wire (rs.take h'.given.length) := by
  conv_lhs => rw [h.given]
  rw [wire, List.flatMap_def]

theorem Exact.inbox (h : Exact rs h') (hwire : h'.received <+: wire rs) :
    h'.mInbox <+: wire (rs.drop h'.given.length) := by
  have hsplit : wire rs = wire (rs.take h'.given.length) ++ wire (rs.drop h'.given.length) := by
    rw [wire, wire, wire, ← List.flatMap_append, List.take_append_drop]
  rw [h.received, h.flatten, hsplit] at hwire
  exact (List.prefix_append_right_inj _).mp hwire

theorem parseInbox_waits (hne : h.mInbox ≠ [])
    (hfed : HttpRequest.input junk h.mInbox (h.mHttpRequest.getD {}) = ⟨h.mInbox, q, [], false⟩)
    (hfree : q.m_handler = false) (hundone : q.done = false) :
    parseInbox junk answers (fuel + 1) h =
      { h with mHttpRequest := some q, passedOn := false } := by
  rw [parseInbox, if_neg hne, hfed]
  simp [checkSend, hfree, hundone]

theorem parseInbox_text {z text : Bytes} (hne : h.mInbox ≠ [])
    (hfed : HttpRequest.input junk h.mInbox (h.mHttpRequest.getD {}) =
      ⟨z, { q with m_handler := true }, [text], false⟩)
    (hlen : z.length < h.mInbox.length) :
    parseInbox junk answers (fuel + 1) h = parseInbox junk answers fuel { h with
      mInbox := z
      mHttpRequest := checkSend (answers (h.given.length + 1)) { q with m_handler := true }
      given := h.given ++ [text]
      passedOn := false } := by
  rw [parseInbox, if_neg hne, hfed]
  have hshort : z.length ≠ h.mInbox.length := Nat.ne_of_lt hlen
  simp [hshort]

variable (junk answers) in
/-- The answer may be out now, but nothing else happens. -/
theorem parseInbox_busy (hq : h.mHttpRequest = some q) (hbusy : q.m_handler = true)
    (hpassed : h.passedOn = false) (hprompt : ∀ n, answers n ≠ .pending) (fuel : ℕ) :
    parseInbox junk answers fuel h = h ∨ answers h.given.length = .out ∧
      parseInbox junk answers fuel h = { h with mHttpRequest := none } := by
  cases fuel with
  | zero => exact Or.inl rfl
  | succ fuel =>
      by_cases hne : h.mInbox = []
      · exact Or.inl (by rw [parseInbox, if_pos hne])
      · have hfed : HttpRequest.input junk h.mInbox (h.mHttpRequest.getD {}) =
            ⟨h.mInbox, q, [], false⟩ := by
          rw [hq, Option.getD_some, HttpRequest.input, if_pos hbusy]
        rw [parseInbox, if_neg hne, hfed]
        cases hanswer : answers h.given.length with
        | processing =>
            left
            cases h
            simp only at hq hpassed hanswer
            simp [checkSend, hbusy, hanswer, hq, hpassed]
        | pending => exact absurd hanswer (hprompt _)
        | out =>
            right
            simp [checkSend, hbusy, hanswer, hpassed]

/-- The request the handler has. -/
inductive Pending (rs : List WebRequest) (h : HttpHandler) : Prop
  | idle (hnone : h.mHttpRequest = none) (hfirst : h.given = [] → h.mInbox = [])
  | busy {q : HttpRequest} (hq : h.mHttpRequest = some q) (hbusy : q.m_handler = true)
      (hgiven : h.given ≠ [])
  | header (hnew : h.mHttpRequest = some {})
      (hopen : ∀ r, rs[h.given.length]? = some r → h.mInbox.length < r.header.length)
  | body {q : HttpRequest} {r : WebRequest} (hq : h.mHttpRequest = some q)
      (hr : rs[h.given.length]? = some r) (hparsed : r.Parsed r.body.length q)
      (hheader : r.header <+: h.mInbox) (hopen : h.mInbox.length < r.text.length)

/-- The same in the loop, where more is in the inbox. -/
inductive Begun (rs : List WebRequest) (h : HttpHandler) : Prop
  | new (hnew : h.mHttpRequest = none ∨ h.mHttpRequest = some {})
      (hfirst : ∀ r, h.given = [] → rs[0]? = some r → h.mInbox.length < r.header.length + 4095)
  | busy {q : HttpRequest} (hq : h.mHttpRequest = some q) (hbusy : q.m_handler = true)
      (hgiven : h.given ≠ [])
  | body {q : HttpRequest} {r : WebRequest} (hq : h.mHttpRequest = some q)
      (hr : rs[h.given.length]? = some r) (hparsed : r.Parsed r.body.length q)
      (hheader : r.header <+: h.mInbox)

/-- What the loop comes to. -/
structure Looped (rs : List WebRequest) (h h' : HttpHandler) : Prop where
  exact : Exact rs h'
  pending : Pending rs h'
  received : h'.received = h.received
  caughtUp : ¬ h.Busy → CaughtUp rs h'

/-- A request that is not there as a whole. -/
theorem caughtUp_of_lt (hr : rs[h'.given.length]? = some r)
    (hlen : h'.mInbox.length < r.text.length) : CaughtUp rs h' := by
  refine Or.inr fun r' hr' hin => ?_
  rw [hr, Option.some.injEq] at hr'
  rw [← hr'] at hin
  exact absurd hin.length_le (by omega)

theorem getD_new (hnew : h.mHttpRequest = none ∨ h.mHttpRequest = some {}) :
    h.mHttpRequest.getD {} = {} := by
  rcases hnew with hnew | hnew <;> rw [hnew] <;> rfl

theorem not_busy_new (hnew : h.mHttpRequest = none ∨ h.mHttpRequest = some {}) : ¬ h.Busy := by
  rintro ⟨q, hq, hbusy⟩
  rcases hnew with hnew | hnew
  · rw [hnew] at hq
    cases hq
  · rw [hnew, Option.some.injEq] at hq
    rw [← hq] at hbusy
    cases hbusy

/-- With the header read, the text goes out when it is there. -/
theorem looped_handOut (hprompt : ∀ n, answers n ≠ .pending)
    (ih : ∀ h, Exact rs h → h.received <+: wire rs → h.mInbox.length < maxSize → Begun rs h →
      h.mInbox.length < fuel → Looped rs h (parseInbox junk answers fuel h))
    (hexact : Exact rs h) (hwire : h.received <+: wire rs) (hroom : h.mInbox.length < maxSize)
    (hfuel : h.mInbox.length < fuel + 1) (hne : h.mInbox ≠ [])
    (hr : rs[h.given.length]? = some r) (hfits : r.text.length < 2 ^ 31)
    (hparsed : r.Parsed r.body.length q) (hheader : r.header <+: h.mInbox)
    (hfed : HttpRequest.input junk h.mInbox (h.mHttpRequest.getD {}) =
      HttpRequest.handOut h.mInbox q) :
    Looped rs h (parseInbox junk answers (fuel + 1) h) := by
  have hin := hexact.inbox hwire
  rw [wire_drop hr, ← List.append_assoc] at hin
  by_cases hlen : h.mInbox.length < r.text.length
  · rw [WebRequest.handOut_waits hparsed hfits hlen] at hfed
    rw [parseInbox_waits hne hfed hparsed.free hparsed.undone]
    exact ⟨⟨hexact.given, hexact.received, rfl⟩, .body rfl hr hparsed hheader hlen, rfl,
      fun _ => caughtUp_of_lt hr hlen⟩
  · obtain ⟨z, hz⟩ : r.text <+: h.mInbox :=
      List.prefix_of_prefix_length_le (List.prefix_append _ _) hin (by
        have htext : r.text.length = (r.header ++ r.body).length := rfl
        omega)
    have hfour := r.four_lt
    have htext : r.text.length = r.header.length + r.body.length := List.length_append
    have hzlen : h.mInbox.length = r.text.length + z.length := by rw [← hz, List.length_append]
    rw [← hz, WebRequest.handOut_text hparsed hfits z, hz] at hfed
    rw [parseInbox_text hne hfed (by omega)]
    have hgiven : (rs.take (h.given.length + 1)).map WebRequest.text = h.given ++ [r.text] := by
      rw [List.take_add_one, List.map_append, ← hexact.given, hr]
      rfl
    generalize hmid : ({ h with
      mInbox := z
      mHttpRequest := checkSend (answers (h.given.length + 1)) { q with m_handler := true }
      given := h.given ++ [r.text]
      passedOn := false } : HttpHandler) = mid
    have hlength : mid.given.length = h.given.length + 1 := by
      rw [← hmid]
      simp
    have hmexact : Exact rs mid := by
      refine ⟨?_, ?_, ?_⟩
      · rw [hlength, hgiven, ← hmid]
      · rw [← hmid]
        simp only [List.flatten_append, List.flatten_singleton, List.append_assoc, hz]
        exact hexact.received
      · rw [← hmid]
    have hmne : mid.given ≠ [] := by
      intro hnil
      rw [hnil] at hlength
      simp at hlength
    have hmrec : mid.received = h.received := by rw [← hmid]
    have hmbox : mid.mInbox = z := by rw [← hmid]
    cases hanswer : answers (h.given.length + 1) with
    | processing =>
        have hsome : mid.mHttpRequest = some { q with m_handler := true } := by
          rw [← hmid]
          simp [checkSend, hanswer]
        have hstays : parseInbox junk answers fuel mid = mid := by
          refine (parseInbox_busy junk answers hsome rfl hmexact.passedOn hprompt
            fuel).resolve_right ?_
          rintro ⟨habs, -⟩
          rw [hlength, hanswer] at habs
          cases habs
        rw [hstays]
        exact ⟨hmexact, .busy hsome rfl hmne, hmrec, fun _ => Or.inl ⟨_, hsome, rfl⟩⟩
    | pending => exact absurd hanswer (hprompt _)
    | out =>
        have hnone : mid.mHttpRequest = none := by
          rw [← hmid]
          simp [checkSend, hanswer]
        have hlater := ih mid hmexact (hmrec ▸ hwire) (by rw [hmbox]; omega)
          (.new (Or.inl hnone) fun _ hnil => absurd hnil hmne) (by rw [hmbox]; omega)
        exact ⟨hlater.exact, hlater.pending, hlater.received.trans hmrec,
          fun _ => hlater.caughtUp (not_busy_new (Or.inl hnone))⟩

theorem parseInbox_looped (hframed : Framed rs) (hfits : ∀ r ∈ rs, r.text.length < 2 ^ 31)
    (hprompt : ∀ n, answers n ≠ .pending) (fuel : ℕ) (h : HttpHandler) (hexact : Exact rs h)
    (hwire : h.received <+: wire rs)
    (hroom : h.mInbox.length < maxSize) (hbegun : Begun rs h) (hfuel : h.mInbox.length < fuel) :
    Looped rs h (parseInbox junk answers fuel h) := by
  induction fuel generalizing h with
  | zero => exact absurd hfuel (Nat.not_lt_zero _)
  | succ fuel ih =>
      by_cases hne : h.mInbox = []
      · -- nothing is left
        have hsame : parseInbox junk answers (fuel + 1) h = h := by
          rw [parseInbox, if_pos hne]
        rw [hsame]
        refine ⟨hexact, ?_, rfl, fun _ => Or.inr fun r hr hin => ?_⟩
        · cases hbegun with
          | new hnew hfirst =>
              rcases hnew with hnew | hnew
              · exact .idle hnew fun _ => hne
              · refine .header hnew fun r hr => ?_
                have := r.four_lt
                rw [hne, List.length_nil]
                omega
          | busy hq hbusy hgiven => exact .busy hq hbusy hgiven
          | body hq hr hparsed hheader =>
              rename_i q r
              have := r.four_lt
              have := hheader.length_le
              rw [hne, List.length_nil] at this
              omega
        · rw [hne] at hin
          exact text_ne (List.prefix_nil.mp hin)
      · have hin := hexact.inbox hwire
        cases hbegun with
        | new hnew hfirst =>
            cases hr : rs[h.given.length]? with
            | none =>
                -- no request is left, and so nothing of one
                rw [List.drop_eq_nil_of_le (List.getElem?_eq_none_iff.mp hr)] at hin
                exact absurd (List.prefix_nil.mp hin) hne
            | some r =>
                have hget := getD_new hnew
                rw [wire_drop hr] at hin
                by_cases hlen : h.mInbox.length < r.header.length
                · have hfed : HttpRequest.input junk h.mInbox (h.mHttpRequest.getD {}) =
                      ⟨h.mInbox, {}, [], false⟩ := by
                    rw [hget]
                    exact WebRequest.input_open
                      (List.prefix_of_prefix_length_le hin (List.prefix_append _ _) hlen.le) hlen
                  have htext : r.text.length = r.header.length + r.body.length :=
                    List.length_append
                  rw [parseInbox_waits hne hfed rfl rfl]
                  have hshort : h.mInbox.length < r.text.length := by omega
                  refine ⟨⟨hexact.given, hexact.received, rfl⟩, .header rfl fun r' hr' => ?_, rfl,
                    fun _ => caughtUp_of_lt hr hshort⟩
                  rw [hr, Option.some.injEq] at hr'
                  rw [← hr']
                  exact hlen
                · -- the header is there, with whatever has come behind it
                  obtain ⟨w, hw⟩ : r.header <+: h.mInbox :=
                    List.prefix_of_prefix_length_le (List.prefix_append _ _) hin (by omega)
                  have hwlen : h.mInbox.length = r.header.length + w.length := by
                    rw [← hw, List.length_append]
                  rw [← hw] at hin
                  have hlength := hframed h.given.length r hr w
                    ((List.prefix_append_right_inj _).mp hin) (by omega) fun hzero => by
                      have := hfirst r (List.length_eq_zero_iff.mp hzero) (hzero ▸ hr)
                      omega
                  obtain ⟨q, hq, hfed⟩ := WebRequest.input_header junk (r := r) w
                  rw [hlength] at hq
                  rw [hw] at hfed
                  exact looped_handOut hprompt ih hexact hwire hroom hfuel hne hr
                    (hfits r (List.mem_of_getElem? hr)) hq ⟨w, hw⟩ (by rw [hget, hfed])
        | busy hq hbusy hgiven =>
            rename_i q
            have hisbusy : h.Busy := ⟨q, hq, hbusy⟩
            rcases parseInbox_busy junk answers hq hbusy hexact.passedOn hprompt
              (fuel + 1) with hsame | ⟨-, hdone⟩
            · rw [hsame]
              exact ⟨hexact, .busy hq hbusy hgiven, rfl, fun hnot => absurd hisbusy hnot⟩
            · rw [hdone]
              exact ⟨⟨hexact.given, hexact.received, hexact.passedOn⟩,
                .idle rfl fun hnil => absurd hnil hgiven, rfl, fun hnot => absurd hisbusy hnot⟩
        | body hq hr hparsed hheader =>
            refine looped_handOut hprompt ih hexact hwire hroom hfuel hne hr
              (hfits _ (List.mem_of_getElem? hr)) hparsed hheader ?_
            rw [hq, Option.getD_some]
            exact WebRequest.input_parsed hparsed hheader

variable (junk answers) in
theorem receive_eq {buf : Bytes} (hpassed : h.passedOn = false) (hne : buf ≠ [])
    (hread : buf.length ≤ 4095) (hroom : h.mInbox.length + buf.length < maxSize) :
    step junk h (.receive buf answers) =
      some (parseInbox junk answers ((h.mInbox ++ buf).length + 1)
        { h with mInbox := h.mInbox ++ buf, received := h.received ++ buf }) := by
  have hpos := List.length_pos_iff.mpr hne
  rw [step]
  exact if_pos ⟨hpassed, by omega, hpos, by omega⟩

/-- What a read that is taken looks like. -/
theorem receive_some {buf : Bytes} (hs : step junk h (.receive buf answers) = some h') :
    h.passedOn = false ∧ buf ≠ [] ∧ buf.length ≤ 4095 ∧ h.mInbox.length + buf.length < maxSize ∧
      h' = parseInbox junk answers ((h.mInbox ++ buf).length + 1)
        { h with mInbox := h.mInbox ++ buf, received := h.received ++ buf } := by
  rw [step] at hs
  split_ifs at hs with hok
  obtain ⟨hpassed, hfree, hpos, hlen⟩ := hok
  refine ⟨hpassed, List.length_pos_iff.mp hpos, by omega, by omega, ?_⟩
  exact (Option.some.inj hs).symm

theorem parseInbox_received (fuel : ℕ) (h : HttpHandler) :
    (parseInbox junk answers fuel h).received = h.received ∧
      h.given <+: (parseInbox junk answers fuel h).given := by
  induction fuel generalizing h with
  | zero => exact ⟨rfl, List.prefix_refl _⟩
  | succ fuel ih =>
      rw [parseInbox]
      dsimp only
      split_ifs
      · exact ⟨rfl, List.prefix_refl _⟩
      · exact ⟨rfl, List.prefix_append _ _⟩
      · obtain ⟨hreceived, hgiven⟩ := ih _
        exact ⟨hreceived, (List.prefix_append _ _).trans hgiven⟩

theorem step_received {a : Act} (hs : step junk h a = some h') : h.received <+: h'.received := by
  cases a with
  | receive buf answers =>
      obtain ⟨-, -, -, -, rfl⟩ := receive_some hs
      rw [(parseInbox_received _ _).1]
      exact List.prefix_append _ _
  | send answer =>
      rw [step] at hs
      split at hs
      · split_ifs at hs
        cases hs
        exact List.prefix_refl _
      · cases hs

theorem Pending.begun (hpending : Pending rs h) {buf : Bytes} (hread : buf.length ≤ 4095) :
    Begun rs { h with mInbox := h.mInbox ++ buf, received := h.received ++ buf } := by
  cases hpending with
  | idle hnone hfirst =>
      refine .new (Or.inl hnone) fun r hgiven _ => ?_
      have := r.four_lt
      show (h.mInbox ++ buf).length < _
      rw [hfirst hgiven, List.nil_append]
      omega
  | busy hq hbusy hgiven => exact .busy hq hbusy hgiven
  | header hnew hopen =>
      refine .new (Or.inr hnew) fun r hgiven hr => ?_
      have hgiven' : h.given = [] := hgiven
      show (h.mInbox ++ buf).length < _
      have := hopen r (by rw [hgiven']; exact hr)
      rw [List.length_append]
      omega
  | body hq hr hparsed hheader hopen =>
      exact .body hq hr hparsed (hheader.trans (List.prefix_append _ _))

theorem receive_looped (hframed : Framed rs) (hfits : ∀ r ∈ rs, r.text.length < 2 ^ 31)
    (hexact : Exact rs h) (hpending : Pending rs h) {buf : Bytes}
    (hprompt : ∀ n, answers n ≠ .pending)
    (hs : step junk h (.receive buf answers) = some h') (hwire : h'.received <+: wire rs) :
    Looped rs { h with mInbox := h.mInbox ++ buf, received := h.received ++ buf } h' := by
  obtain ⟨hpassed, hne, hread, hroom, rfl⟩ := receive_some hs
  rw [(parseInbox_received _ _).1] at hwire
  refine parseInbox_looped hframed hfits hprompt _ _ ⟨hexact.given, ?_, hexact.passedOn⟩ hwire ?_
    (hpending.begun hread) (Nat.lt_succ_self _)
  · rw [hexact.received, List.append_assoc]
  · rw [List.length_append]
    exact hroom

theorem step_keeps (hframed : Framed rs) (hfits : ∀ r ∈ rs, r.text.length < 2 ^ 31)
    (hexact : Exact rs h) (hpending : Pending rs h) {a : Act} (hprompt : a.Prompt)
    (hs : step junk h a = some h') (hwire : h'.received <+: wire rs) :
    Exact rs h' ∧ Pending rs h' := by
  cases a with
  | receive buf answers =>
      have hlooped := receive_looped hframed hfits hexact hpending hprompt hs hwire
      exact ⟨hlooped.exact, hlooped.pending⟩
  | send answer =>
      rw [step] at hs
      split at hs
      · rename_i q hq
        split_ifs at hs with hsent
        cases hs
        cases hpending with
        | idle hnone hfirst =>
            rw [hnone] at hq
            cases hq
        | busy hq' hbusy hgiven =>
            rename_i q'
            obtain rfl : q = q' := Option.some.inj (hq.symm.trans hq')
            cases answer with
            | processing =>
                refine ⟨⟨hexact.given, hexact.received, hexact.passedOn⟩, .busy ?_ hbusy hgiven⟩
                simp [checkSend]
            | pending => exact absurd rfl hprompt
            | out =>
                refine ⟨⟨hexact.given, hexact.received, hexact.passedOn⟩,
                  .idle ?_ fun hnil => absurd hnil hgiven⟩
                simp [checkSend, hbusy]
        | header hnew hopen =>
            rw [hq, Option.some.injEq] at hnew
            rw [hnew] at hsent
            exact absurd hsent (by decide)
        | body hq' hr hparsed hheader hopen =>
            rw [hq, Option.some.injEq] at hq'
            rw [hq', hparsed.free, hparsed.undone] at hsent
            exact absurd hsent (by decide)
      · cases hs

theorem reachable_keeps (hframed : Framed rs) (hfits : ∀ r ∈ rs, r.text.length < 2 ^ 31)
    (hreach : Reachable (step junk) (fun _ a => a.Prompt) {} h) (hwire : h.received <+: wire rs) :
    Exact rs h ∧ Pending rs h := by
  induction hreach with
  | start => exact ⟨⟨rfl, rfl, rfl⟩, .idle rfl fun _ => rfl⟩
  | next _ hprompt hs ih =>
      obtain ⟨hexact, hpending⟩ := ih ((step_received hs).trans hwire)
      exact step_keeps hframed hfits hexact hpending hprompt hs hwire

theorem served_of_framed (hframed : Framed rs) (hfits : ∀ r ∈ rs, r.text.length < 2 ^ 31) :
    Served junk rs := by
  intro h hreach hwire
  obtain ⟨hexact, hpending⟩ := reachable_keeps hframed hfits hreach hwire
  refine ⟨hexact, fun buf answers h' hfree hprompt hs hwire' => ?_⟩
  exact (receive_looped hframed hfits hexact hpending hprompt hs hwire').caughtUp hfree

theorem getInt_bounds (request name : Bytes) :
    -2 ^ 31 ≤ HttpTool.getInt request name 0 ∧ HttpTool.getInt request name 0 < 2 ^ 31 := by
  rw [HttpTool.getInt]
  split_ifs
  · decide
  · exact i32_bounds _

variable (answers fuel) in
/-- Once a length was found, the text goes out that has it, or nothing does. -/
theorem parseInbox_found {c : ℤ} (hq : r.Parsed c q) (hne : h.mInbox ≠ [])
    (hfed : HttpRequest.input junk h.mInbox (h.mHttpRequest.getD {}) =
      HttpRequest.handOut h.mInbox q) :
    parseInbox junk answers (fuel + 1) h = { h with mHttpRequest := some q, passedOn := false } ∨
      0 < i32 (r.header.length + c) ∧ i32 (r.header.length + c) ≤ h.mInbox.length ∧
        h.given ++ [h.mInbox.take (i32 (r.header.length + c)).toNat] <+:
          (parseInbox junk answers (fuel + 1) h).given := by
  rw [HttpRequest.handOut, hq.headerLength, hq.contentLength] at hfed
  dsimp only at hfed
  generalize i32 (r.header.length + c) = len at *
  by_cases hlen : 0 < len ∧ len ≤ h.mInbox.length
  · right
    refine ⟨hlen.1, hlen.2, ?_⟩
    rw [if_pos hlen] at hfed
    have hpos := List.length_pos_iff.mpr hne
    have hshort : ¬ (false = true ∨ (h.mInbox.drop len.toNat).length = h.mInbox.length) := by
      rw [List.length_drop]
      rintro (habs | habs)
      · cases habs
      · omega
    rw [parseInbox, if_neg hne, hfed]
    dsimp only
    rw [if_neg hshort]
    refine List.IsPrefix.trans ?_ (parseInbox_received fuel _).2
    exact List.prefix_refl _
  · left
    rw [if_neg hlen] at hfed
    exact parseInbox_waits hne hfed hq.free hq.undone

theorem text_of_exact {given : List Bytes} {t : Bytes} (hexact : Exact rs h')
    (ht : given ++ [t] <+: h'.given) (hr : rs[given.length]? = some r) : t = r.text := by
  obtain ⟨x, hx⟩ := ht
  have hat : h'.given[given.length]? = some t := by
    rw [← hx, List.append_assoc, List.getElem?_append_right (Nat.le_refl _), Nat.sub_self]
    rfl
  rw [hexact.given, List.getElem?_map, List.getElem?_take, Option.map_eq_some_iff] at hat
  obtain ⟨r', hr', rfl⟩ := hat
  split_ifs at hr' with hlt
  rw [hr, Option.some.injEq] at hr'
  rw [hr']

/-- What was handed out had its own length, then. -/
theorem length_of_text {c : ℤ} {u : Bytes} (hc : -2 ^ 31 ≤ c ∧ c < 2 ^ 31)
    (hfits : r.text.length < 2 ^ 31) (hpos : 0 < i32 (r.header.length + c))
    (hle : i32 (r.header.length + c) ≤ u.length)
    (ht : u.take (i32 (r.header.length + c)).toNat = r.text) : c = r.body.length := by
  have htext : r.text.length = r.header.length + r.body.length := List.length_append
  have hlen := congrArg List.length ht
  rw [List.length_take] at hlen
  have hvalue : i32 (r.header.length + c) = r.header.length + r.body.length := by omega
  have hsmall : (r.header.length : ℤ) + c < 2 ^ 31 := by
    by_contra hbig
    have hwrap : i32 (r.header.length + c) = r.header.length + c - 2 ^ 32 := by
      rw [i32, ← Int.sub_bmod_right ((r.header.length : ℤ) + c) (2 ^ 32)]
      exact Int.bmod_eq_of_le (by omega) (by omega)
    omega
  rw [i32_eq (by omega) hsmall] at hvalue
  omega

/-- Every answer takes its time. -/
def awaited : ℕ → Answer := fun _ => .processing

theorem awaited_prompt (n : ℕ) : awaited n ≠ .pending := by simp [awaited]

theorem not_busy_parsed {c : ℤ} (hq : h.mHttpRequest = some q) (hparsed : r.Parsed c q) :
    ¬ h.Busy := by
  rintro ⟨q', hq', hbusy⟩
  rw [hq, Option.some.injEq] at hq'
  rw [← hq', hparsed.free] at hbusy
  cases hbusy

/-- A read after which a length is found for the next request. Either it is the request's own, or
the request waits and is not there as a whole. -/
theorem read_found (hserved : Served junk rs) (hfits : r.text.length < maxSize) {c : ℤ}
    (hc : -2 ^ 31 ≤ c ∧ c < 2 ^ 31) {buf : Bytes}
    (hreach : Reachable (step junk) (fun _ a => a.Prompt) {} h) (hpassed : h.passedOn = false)
    (hne : buf ≠ []) (hread : buf.length ≤ 4095) (hroom : h.mInbox.length + buf.length < maxSize)
    (hfree : ¬ h.Busy) (hwire : h.received ++ buf <+: wire rs)
    (hr : rs[h.given.length]? = some r) (hparsed : r.Parsed c q)
    (hfed : HttpRequest.input junk (h.mInbox ++ buf) (h.mHttpRequest.getD {}) =
      HttpRequest.handOut (h.mInbox ++ buf) q) :
    c = r.body.length ∨ ¬ r.text <+: h.mInbox ++ buf ∧
      Reachable (step junk) (fun _ a => a.Prompt) {} { h with
        mInbox := h.mInbox ++ buf
        received := h.received ++ buf
        mHttpRequest := some q
        passedOn := false } := by
  have hmax : maxSize = 8192 := rfl
  have hs := receive_eq junk awaited hpassed hne hread hroom
  generalize hnext : parseInbox junk awaited ((h.mInbox ++ buf).length + 1)
    { h with mInbox := h.mInbox ++ buf, received := h.received ++ buf } = h₁ at hs
  have hprompt : (Act.receive buf awaited).Prompt := awaited_prompt
  have hreach₁ := hreach.next hprompt hs
  have hwire₁ : h₁.received <+: wire rs := by
    rw [← hnext, (parseInbox_received _ _).1]
    exact hwire
  obtain ⟨hexact, -⟩ := hserved _ hreach₁ hwire₁
  obtain ⟨-, hcaught⟩ := hserved _ hreach ((List.prefix_append _ _).trans hwire)
  have hcaught₁ := hcaught _ _ _ hfree awaited_prompt hs hwire₁
  have hbox : h.mInbox ++ buf ≠ [] := by simp [hne]
  rcases parseInbox_found awaited (h.mInbox ++ buf).length
    (h := { h with mInbox := h.mInbox ++ buf, received := h.received ++ buf })
    hparsed hbox hfed with hwaits | ⟨hpos, hle, hout⟩
  · rw [hnext] at hwaits
    refine Or.inr ⟨?_, hwaits ▸ hreach₁⟩
    rw [hwaits] at hcaught₁
    exact hcaught₁.resolve_left (not_busy_parsed rfl hparsed) r hr
  · rw [hnext] at hout
    exact Or.inl (length_of_text hc (by omega) hpos hle (text_of_exact hexact hout hr))

/-- A request whose rest comes byte by byte is handed out in the end, and so with that length. -/
theorem length_found (hserved : Served junk rs) (hfits : r.text.length < maxSize) {c : ℤ}
    (hc : -2 ^ 31 ≤ c ∧ c < 2 ^ 31) {v : Bytes} (hv : v ≠ [])
    (hreach : Reachable (step junk) (fun _ a => a.Prompt) {} h)
    (hwire : h.received ++ v <+: wire rs) (hr : rs[h.given.length]? = some r)
    (hq : h.mHttpRequest = some q) (hparsed : r.Parsed c q) (hheader : r.header <+: h.mInbox)
    (htext : h.mInbox ++ v = r.text) (hpassed : h.passedOn = false) : c = r.body.length := by
  have hmax : maxSize = 8192 := rfl
  induction v generalizing h with
  | nil => exact absurd rfl hv
  | cons b v ih =>
      have hlen := congrArg List.length htext
      rw [List.length_append, List.length_cons] at hlen
      have hrest : h.received ++ [b] ++ v = h.received ++ b :: v := List.append_assoc _ _ _
      have hbox : h.mInbox ++ [b] ++ v = r.text := by
        rw [← htext]
        exact List.append_assoc _ _ _
      have hheader₁ := hheader.trans (List.prefix_append h.mInbox [b])
      have hfed : HttpRequest.input junk (h.mInbox ++ [b]) (h.mHttpRequest.getD {}) =
          HttpRequest.handOut (h.mInbox ++ [b]) q := by
        rw [hq, Option.getD_some]
        exact WebRequest.input_parsed hparsed hheader₁
      rcases read_found hserved hfits hc hreach hpassed (List.cons_ne_nil b [])
        (by rw [List.length_singleton]; omega) (by rw [List.length_singleton]; omega)
        (not_busy_parsed hq hparsed) ((List.prefix_append _ v).trans (hrest ▸ hwire)) hr hparsed
        hfed with hown | ⟨hpart, hreach₁⟩
      · exact hown
      · cases v with
        | nil =>
            rw [List.append_nil] at hbox
            exact absurd ⟨[], by rw [List.append_nil, hbox]⟩ hpart
        | cons b' v =>
            exact ih (List.cons_ne_nil b' v) hreach₁ (hrest ▸ hwire) hr rfl hheader₁ hbox rfl

/-- Reads of single bytes, while no answer comes out. -/
def byBytes (v : Bytes) : List Act := v.map fun b => .receive [b] awaited

/-- The states such reads lead to. -/
theorem reachable_byBytes {v : Bytes}
    (hreach : Reachable (step junk) (fun _ a => a.Prompt) {} h)
    (hrun : run (step junk) h (byBytes v) = some h') :
    Reachable (step junk) (fun _ a => a.Prompt) {} h' := by
  refine hreach.of_run_all (fun a ha _ => ?_) hrun
  obtain ⟨b, -, rfl⟩ := List.mem_map.mp ha
  exact awaited_prompt

theorem run_byte {b : UInt8} {v : Bytes} (hpassed : h.passedOn = false)
    (hroom : h.mInbox.length + 1 < maxSize) : run (step junk) h (byBytes (b :: v)) =
      run (step junk) (parseInbox junk awaited ((h.mInbox ++ [b]).length + 1)
        { h with mInbox := h.mInbox ++ [b], received := h.received ++ [b] }) (byBytes v) := by
  have hs := receive_eq junk awaited hpassed
    (List.cons_ne_nil b []) (by rw [List.length_singleton]; omega)
    (by rw [List.length_singleton]; omega)
  rw [byBytes, List.map_cons, run, List.foldlM_cons, hs]
  rfl

variable (junk) in
/-- While a request is being answered, the bytes gather. -/
theorem run_busy {v : Bytes} (hq : h.mHttpRequest = some q) (hbusy : q.m_handler = true)
    (hpassed : h.passedOn = false)
    (hroom : h.mInbox.length + v.length < maxSize) : run (step junk) h (byBytes v) =
      some { h with mInbox := h.mInbox ++ v, received := h.received ++ v } := by
  induction v generalizing h with
  | nil => simp [byBytes, run]
  | cons b v ih =>
      rw [List.length_cons] at hroom
      rw [run_byte hpassed (by omega)]
      generalize hnext : ({ h with
        mInbox := h.mInbox ++ [b], received := h.received ++ [b] } : HttpHandler) = h₁
      have hq₁ : h₁.mHttpRequest = some q := by rw [← hnext]; exact hq
      have hpassed₁ : h₁.passedOn = false := by rw [← hnext]; exact hpassed
      have hsame : parseInbox junk awaited ((h.mInbox ++ [b]).length + 1) h₁ = h₁ :=
        (parseInbox_busy junk _ hq₁ hbusy hpassed₁ awaited_prompt _).resolve_right fun habs =>
          absurd habs.1 (by simp [awaited])
      have hroom₁ : h₁.mInbox.length + v.length < maxSize := by
        rw [← hnext]
        simp only [List.length_append, List.length_singleton]
        omega
      rw [hsame, ih hq₁ hpassed₁ hroom₁, ← hnext]
      simp only [List.append_assoc, List.singleton_append]

variable (junk) in
/-- A part of a header waits for more. -/
theorem run_open {v : Bytes} (hnew : h.mHttpRequest = none ∨ h.mHttpRequest = some {})
    (hpassed : h.passedOn = false) (hu : h.mInbox ++ v <+: r.header)
    (hlen : (h.mInbox ++ v).length < r.header.length) (hroom : r.header.length < maxSize) :
    ∃ h', run (step junk) h (byBytes v) = some h' ∧
      (h'.mHttpRequest = none ∨ h'.mHttpRequest = some {}) ∧ h'.mInbox = h.mInbox ++ v ∧
      h'.received = h.received ++ v ∧ h'.given = h.given ∧ h'.passedOn = false := by
  induction v generalizing h with
  | nil => exact ⟨h, by simp [byBytes, run], hnew, by simp, by simp, rfl, hpassed⟩
  | cons b v ih =>
      have hjoin : h.mInbox ++ b :: v = h.mInbox ++ [b] ++ v := by simp
      rw [hjoin] at hu hlen
      have hshort := hlen
      rw [List.length_append, List.length_append, List.length_singleton] at hshort
      have hfed : HttpRequest.input junk (h.mInbox ++ [b]) (h.mHttpRequest.getD {}) =
          ⟨h.mInbox ++ [b], {}, [], false⟩ := by
        rw [getD_new hnew]
        refine WebRequest.input_open ((List.prefix_append _ _).trans hu) ?_
        rw [List.length_append, List.length_singleton]
        omega
      rw [run_byte hpassed (by omega), parseInbox_waits
        (h := { h with mInbox := h.mInbox ++ [b], received := h.received ++ [b] })
        (by simp) hfed rfl rfl]
      obtain ⟨h', hrun, hnew', hbox, hreceived, hgiven, hpassed'⟩ :=
        @ih { h with
          mInbox := h.mInbox ++ [b]
          mHttpRequest := some {}
          received := h.received ++ [b]
          passedOn := false } (Or.inr rfl) rfl hu hlen
      exact ⟨h', hrun, hnew', by rw [hbox, hjoin], by rw [hreceived]; simp, hgiven, hpassed'⟩

variable (junk) in
/-- The rest of a request that finds its own length is handed out, and its answer awaited. -/
theorem run_text {v : Bytes} (hv : v ≠ [])
    (hown : HttpTool.getInt (cstr r.header) (ascii "Content-Length") 0 = r.body.length)
    (hfits : r.text.length < maxSize) (hpassed : h.passedOn = false)
    (hstate : (h.mHttpRequest = none ∨ h.mHttpRequest = some {}) ∧
        h.mInbox.length < r.header.length ∨
      ∃ q, h.mHttpRequest = some q ∧ r.Parsed r.body.length q ∧ r.header <+: h.mInbox)
    (htext : h.mInbox ++ v = r.text) : ∃ h' q, run (step junk) h (byBytes v) = some h' ∧
      h'.mHttpRequest = some q ∧ q.m_handler = true ∧ h'.mInbox = [] ∧
      h'.received = h.received ++ v ∧ h'.given = h.given ++ [r.text] ∧ h'.passedOn = false := by
  have hmax : maxSize = 8192 := rfl
  induction v generalizing h with
  | nil => exact absurd rfl hv
  | cons b v ih =>
      have hjoin : h.mInbox ++ [b] ++ v = r.text := by rw [← htext]; simp
      have hlen := congrArg List.length hjoin
      rw [List.length_append, List.length_append, List.length_singleton] at hlen
      have hheader : r.header <+: r.text := List.prefix_append _ _
      have hin : h.mInbox ++ [b] <+: r.text := ⟨v, hjoin⟩
      have hne : h.mInbox ++ [b] ≠ [] := by simp
      rw [run_byte hpassed (by omega)]
      by_cases hopen : (h.mInbox ++ [b]).length < r.header.length
      · -- still in the header
        have hnew : h.mHttpRequest = none ∨ h.mHttpRequest = some {} := by
          rcases hstate with ⟨hnew, -⟩ | ⟨q, -, -, hread⟩
          · exact hnew
          · have := hread.length_le
            rw [List.length_append] at hopen
            omega
        have hfed : HttpRequest.input junk (h.mInbox ++ [b]) (h.mHttpRequest.getD {}) =
            ⟨h.mInbox ++ [b], {}, [], false⟩ := by
          rw [getD_new hnew]
          exact WebRequest.input_open (List.prefix_of_prefix_length_le hin hheader hopen.le) hopen
        rw [parseInbox_waits
          (h := { h with mInbox := h.mInbox ++ [b], received := h.received ++ [b] })
          hne hfed rfl rfl]
        have hvne : v ≠ [] := by
          rintro rfl
          have := hheader.length_le
          rw [List.length_append, List.length_singleton] at hopen
          simp only [List.length_nil] at hlen
          omega
        obtain ⟨h', q, hrun, hq, hbusy, hbox, hreceived, hgiven, hpassed'⟩ :=
          @ih { h with
            mInbox := h.mInbox ++ [b]
            mHttpRequest := some {}
            received := h.received ++ [b]
            passedOn := false } hvne rfl (Or.inl ⟨Or.inr rfl, hopen⟩) hjoin
        exact ⟨h', q, hrun, hq, hbusy, hbox, by rw [hreceived]; simp, hgiven, hpassed'⟩
      · -- the header is there
        have hread : r.header <+: h.mInbox ++ [b] :=
          List.prefix_of_prefix_length_le hheader hin (by omega)
        obtain ⟨q, hparsed, hfed⟩ : ∃ q, r.Parsed r.body.length q ∧
            HttpRequest.input junk (h.mInbox ++ [b]) (h.mHttpRequest.getD {}) =
              HttpRequest.handOut (h.mInbox ++ [b]) q := by
          rcases hstate with ⟨hnew, hshort⟩ | ⟨q, hq, hparsed, hold⟩
          · have heq : r.header = h.mInbox ++ [b] := by
              refine hread.eq_of_length_le ?_
              rw [List.length_append, List.length_singleton]
              omega
            obtain ⟨q, hparsed, hfed⟩ := WebRequest.input_header junk (r := r) []
            rw [List.append_nil, hown] at hparsed
            rw [List.append_nil, heq] at hfed
            exact ⟨q, hparsed, by rw [getD_new hnew, hfed]⟩
          · refine ⟨q, hparsed, ?_⟩
            rw [hq, Option.getD_some]
            exact WebRequest.input_parsed hparsed hread
        cases v with
        | nil =>
            rw [List.append_nil] at hjoin
            have hall := WebRequest.handOut_text hparsed (by omega) []
            rw [List.append_nil, ← hjoin] at hall
            have hpos := List.length_pos_iff.mpr hne
            rw [parseInbox_text
              (h := { h with mInbox := h.mInbox ++ [b], received := h.received ++ [b] })
              hne (hfed.trans hall) hpos]
            obtain ⟨n, hn⟩ := Nat.exists_eq_add_of_lt hpos
            rw [Nat.zero_add] at hn
            rw [hn, parseInbox, if_pos rfl]
            refine ⟨_, { q with m_handler := true }, rfl, ?_, rfl, rfl, rfl, ?_, rfl⟩
            · simp [checkSend, awaited]
            · rw [hjoin]
        | cons b' v =>
            have hwait := WebRequest.handOut_waits hparsed (by omega) (u := h.mInbox ++ [b]) (by
              rw [List.length_append, List.length_singleton]
              simp only [List.length_cons] at hlen
              omega)
            rw [parseInbox_waits
              (h := { h with mInbox := h.mInbox ++ [b], received := h.received ++ [b] })
              hne (hfed.trans hwait) hparsed.free hparsed.undone]
            obtain ⟨h', q', hrun, hq, hbusy, hbox, hreceived, hgiven, hpassed'⟩ :=
              @ih { h with
                mInbox := h.mInbox ++ [b]
                mHttpRequest := some q
                received := h.received ++ [b]
                passedOn := false } (List.cons_ne_nil b' v) rfl
                (Or.inr ⟨q, rfl, hparsed, hread⟩) hjoin
            exact ⟨h', q', hrun, hq, hbusy, hbox, by rw [hreceived]; simp, hgiven, hpassed'⟩

theorem wire_split (k : ℕ) : wire rs = wire (rs.take k) ++ wire (rs.drop k) := by
  rw [wire, wire, wire, ← List.flatMap_append, List.take_append_drop]

/-- The state with the first requests handed out, and the answer of the last one to be awaited. -/
structure After (rs : List WebRequest) (k : ℕ) (h : HttpHandler) : Prop where
  given : h.given = (rs.take k).map WebRequest.text
  inbox : h.mInbox = []
  received : h.received = wire (rs.take k)
  passedOn : h.passedOn = false
  busy : k ≠ 0 → ∃ q, h.mHttpRequest = some q ∧ q.m_handler = true
  first : k = 0 → h.mHttpRequest = none

theorem step_out (hq : h.mHttpRequest = some q) (hbusy : q.m_handler = true) :
    step junk h (.send .out) = some { h with mHttpRequest := none } := by
  rw [step, hq]
  simp [checkSend, hbusy]

/-- With the answer out the request is given up. -/
theorem reachable_out (hreach : Reachable (step junk) (fun _ a => a.Prompt) {} h)
    (hq : h.mHttpRequest = some q) (hbusy : q.m_handler = true) :
    Reachable (step junk) (fun _ a => a.Prompt) {} { h with mHttpRequest := none } :=
  hreach.next (a := .send .out) (fun habs => by cases habs) (step_out hq hbusy)

variable (junk) in
/-- The first requests, one behind the other, each when the one before it has its answer. -/
theorem run_after {k : ℕ} (hk : k ≤ rs.length) (hfits : ∀ r ∈ rs, r.text.length < maxSize)
    (hown : ∀ j < k, ∀ r, rs[j]? = some r →
      HttpTool.getInt (cstr r.header) (ascii "Content-Length") 0 = r.body.length) :
    ∃ h, Reachable (step junk) (fun _ a => a.Prompt) {} h ∧ After rs k h := by
  induction k with
  | zero =>
      exact ⟨{}, .start, rfl, rfl, rfl, rfl, fun habs => absurd rfl habs, fun _ => rfl⟩
  | succ k ih =>
      obtain ⟨h, hreach, hafter⟩ := ih (by omega) fun j hj => hown j (by omega)
      obtain ⟨h', hreach', hidle, hbox, hgiven, hreceived, hpassed⟩ : ∃ h',
          Reachable (step junk) (fun _ a => a.Prompt) {} h' ∧ h'.mHttpRequest = none ∧
            h'.mInbox = [] ∧ h'.given = h.given ∧ h'.received = h.received ∧
            h'.passedOn = false := by
        by_cases hzero : k = 0
        · exact ⟨h, hreach, hafter.first hzero, hafter.inbox, rfl, rfl, hafter.passedOn⟩
        · obtain ⟨q, hq, hbusy⟩ := hafter.busy hzero
          exact ⟨_, reachable_out hreach hq hbusy, rfl, hafter.inbox, rfl, rfl, hafter.passedOn⟩
      obtain ⟨r, hr⟩ : ∃ r, rs[k]? = some r := ⟨rs[k], List.getElem?_eq_getElem (by omega)⟩
      have hfour := r.four_lt
      obtain ⟨h'', q, hrun'', hq, hbusy, hbox'', hreceived'', hgiven'', hpassed''⟩ :=
        run_text junk (h := h') text_ne (hown k (Nat.lt_succ_self k) r hr)
          (hfits r (List.mem_of_getElem? hr)) hpassed
          (Or.inl ⟨Or.inl hidle, by rw [hbox, List.length_nil]; omega⟩)
          (by rw [hbox, List.nil_append])
      have htake : rs.take (k + 1) = rs.take k ++ [r] := by rw [List.take_add_one, hr]; rfl
      refine ⟨h'', reachable_byBytes hreach' hrun'', ?_, hbox'', ?_, hpassed'', ?_, ?_⟩
      · rw [hgiven'', hgiven, hafter.given, htake, List.map_append]
        rfl
      · rw [hreceived'', hreceived, hafter.received, htake, wire, wire, List.flatMap_append]
        simp
      · exact fun _ => ⟨q, hq, hbusy⟩
      · exact fun habs => absurd habs (Nat.succ_ne_zero k)

variable (junk) in
/-- A header may be read with anything behind it that fits. -/
theorem run_header {k : ℕ} (hr : rs[k]? = some r) (hfits : ∀ r ∈ rs, r.text.length < maxSize)
    (hown : ∀ j < k, ∀ r, rs[j]? = some r →
      HttpTool.getInt (cstr r.header) (ascii "Content-Length") 0 = r.body.length)
    {w : Bytes} (hroom : r.header.length + w.length < maxSize) (hfirst : k = 0 → w.length < 4095) :
    ∃ h buf, Reachable (step junk) (fun _ a => a.Prompt) {} h ∧
      (h.mHttpRequest = none ∨ h.mHttpRequest = some {}) ∧ h.passedOn = false ∧
      h.given = (rs.take k).map WebRequest.text ∧ buf ≠ [] ∧ buf.length ≤ 4095 ∧
      h.mInbox ++ buf = r.header ++ w ∧
      h.received ++ buf = wire (rs.take k) ++ (r.header ++ w) := by
  have hk : k ≤ rs.length := (List.getElem?_eq_some_iff.mp hr).1.le
  obtain ⟨h, hreach, hafter⟩ := run_after junk hk hfits hown
  have hfour := r.four_lt
  have hne : r.header ≠ [] := by
    intro hnil
    rw [hnil] at hfour
    simp at hfour
  by_cases hzero : k = 0
  · -- all but the last byte of the header, and that with what is behind it
    obtain ⟨u, b, hub⟩ := List.eq_nil_or_concat r.header |>.resolve_left hne
    rw [List.concat_eq_append] at hub
    have hlen := congrArg List.length hub
    rw [List.length_append, List.length_singleton] at hlen
    have hprefix : h.mInbox ++ u <+: r.header := by
      rw [hafter.inbox, List.nil_append, hub]
      exact List.prefix_append _ _
    obtain ⟨h', hrun', hnew, hbox, hreceived, hgiven, hpassed⟩ :=
      run_open junk (Or.inl (hafter.first hzero)) hafter.passedOn hprefix
        (by rw [hafter.inbox, List.nil_append]; omega) (by omega)
    refine ⟨h', b :: w, reachable_byBytes hreach hrun', hnew, hpassed, by rw [hgiven, hafter.given],
      List.cons_ne_nil b w, ?_, ?_, ?_⟩
    · have := hfirst hzero
      rw [List.length_cons]
      omega
    · rw [hbox, hafter.inbox, hub]
      simp
    · rw [hreceived, hafter.received, hub]
      simp
  · -- all but the last byte while the request before is answered
    obtain ⟨q, hq, hbusy⟩ := hafter.busy hzero
    obtain ⟨u, b, hub⟩ :=
      List.eq_nil_or_concat (r.header ++ w) |>.resolve_left (by simp [hne])
    rw [List.concat_eq_append] at hub
    have hlen := congrArg List.length hub
    rw [List.length_append, List.length_append, List.length_singleton] at hlen
    have hgather := run_busy junk (v := u) hq hbusy hafter.passedOn
      (by rw [hafter.inbox, List.length_nil]; omega)
    refine ⟨_, [b], reachable_out (reachable_byBytes hreach hgather) hq hbusy, Or.inl rfl,
      hafter.passedOn, hafter.given, List.cons_ne_nil b [], ?_, ?_, ?_⟩
    · rw [List.length_singleton]
      omega
    · rw [hub]
      show h.mInbox ++ u ++ [b] = u ++ [b]
      rw [hafter.inbox, List.nil_append]
    · rw [hub]
      show h.received ++ u ++ [b] = _
      rw [hafter.received, List.append_assoc]

theorem framed_of_served (hserved : Served junk rs) (hfits : ∀ r ∈ rs, r.text.length < maxSize) :
    Framed rs := by
  have hmax : maxSize = 8192 := rfl
  intro k
  induction k using Nat.strong_induction_on with
  | _ k ih =>
      intro r hr w hw hroom hfirst
      have hrfits := hfits r (List.mem_of_getElem? hr)
      have hown : ∀ j < k, ∀ r, rs[j]? = some r →
          HttpTool.getInt (cstr r.header) (ascii "Content-Length") 0 = r.body.length := by
        intro j hj r' hr'
        have hlen := hfits r' (List.mem_of_getElem? hr')
        rw [WebRequest.text, List.length_append] at hlen
        have hbare := ih j hj r' hr' [] List.nil_prefix (by rw [List.length_nil]; omega)
          fun _ => by decide
        rwa [List.append_nil] at hbare
      obtain ⟨h, buf, hreach, hnew, hpassed, hgiven, hne, hread, hbox, hreceived⟩ :=
        run_header junk hr hfits hown hroom hfirst
      have hlen := congrArg List.length hbox
      rw [List.length_append, List.length_append] at hlen
      have hk : k < rs.length := (List.getElem?_eq_some_iff.mp hr).1
      have hcount : h.given.length = k := by
        rw [hgiven, List.length_map, List.length_take]
        omega
      have hall : wire (rs.take k) ++ (r.header ++ (r.body ++ wire (rs.drop (k + 1)))) =
          wire rs := by rw [← wire_drop hr, ← wire_split k]
      have hwire : h.received ++ buf <+: wire rs := by
        rw [hreceived, ← hall, List.prefix_append_right_inj, List.prefix_append_right_inj]
        exact hw
      obtain ⟨q, hparsed, hfed⟩ := WebRequest.input_header junk (r := r) w
      have hc := getInt_bounds (cstr (r.header ++ w)) (ascii "Content-Length")
      generalize HttpTool.getInt (cstr (r.header ++ w)) (ascii "Content-Length") 0 = c at *
      have hr' : rs[h.given.length]? = some r := by rw [hcount, hr]
      rcases read_found hserved hrfits hc hreach hpassed hne hread (by omega) (not_busy_new hnew)
        hwire hr' hparsed (by rw [getD_new hnew, hbox, hfed]) with hown | ⟨hpart, hreach₁⟩
      · exact hown
      · -- the rest of the body comes byte by byte
        rw [hbox] at hpart
        have hshort : r.header ++ w <+: r.text := by
          have hboth : r.header ++ w <+: r.text ++ wire (rs.drop (k + 1)) := by
            rw [WebRequest.text, List.append_assoc, List.prefix_append_right_inj]
            exact hw
          rcases List.prefix_or_prefix_of_prefix hboth (List.prefix_append _ _) with hin | hin
          · exact hin
          · exact absurd hin hpart
        obtain ⟨v, hv⟩ := hshort
        have hvne : v ≠ [] := by
          rintro rfl
          rw [List.append_nil] at hv
          exact hpart ⟨[], by rw [List.append_nil, hv]⟩
        refine length_found hserved hrfits hc hvne hreach₁ ?_ hr' rfl hparsed ?_ ?_ rfl
        · show h.received ++ buf ++ v <+: wire rs
          rw [hreceived, List.append_assoc, hv, ← hall, List.prefix_append_right_inj,
            WebRequest.text, ← List.append_assoc]
          exact List.prefix_append _ _
        · show r.header <+: h.mInbox ++ buf
          rw [hbox]
          exact List.prefix_append _ _
        · show h.mInbox ++ buf ++ v = r.text
          rw [hbox, hv]

/-- Requests that fit the inbox are handed out as they are, once and in order, however they are cut
and whenever the answers are out, if for each its own length is found. -/
theorem framed_iff (junk : Bytes → UInt8) (hfits : ∀ r ∈ rs, r.text.length < maxSize) :
    Served junk rs ↔ Framed rs := by
  have hmax : maxSize = 8192 := rfl
  refine ⟨fun h => framed_of_served h hfits, fun h => served_of_framed h fun r hr => ?_⟩
  have := hfits r hr
  omega

/-- The text the code looks for, at the start of a line. -/
def lengthKey : Bytes := ascii "Content-Length: "

theorem strstr_field {first line d y : Bytes} {before : List Bytes} (hfirst : 13 ∉ first)
    (hbefore : ∀ l ∈ before, 13 ∉ l ∧ ¬ lengthKey <+: l) (hline : line = lengthKey ++ d) :
    strstr (first ++ before.flatMap nextLine ++ nextLine line ++ y) (13 :: 10 :: lengthKey) =
      some (first ++ before.flatMap nextLine).length := by
  induction before generalizing first with
  | nil =>
      rw [List.flatMap_nil, List.append_nil, List.append_assoc, strstr_skip hfirst,
        strstr_here ⟨d ++ y, by rw [hline, nextLine]; simp⟩]
      rfl
  | cons l before ih =>
      obtain ⟨hl, hkey⟩ := hbefore l List.mem_cons_self
      have hnl : 13 ∉ 10 :: l := by
        rw [List.mem_cons, not_or]
        exact ⟨by decide, hl⟩
      have hnext := ih hnl fun m hm => hbefore m (List.mem_cons_of_mem l hm)
      generalize hz : before.flatMap nextLine ++ nextLine line ++ y = z at *
      have hjoin : first ++ (l :: before).flatMap nextLine ++ nextLine line ++ y =
          first ++ 13 :: (10 :: l ++ z) := by
        rw [← hz, List.flatMap_cons]
        simp [nextLine]
      -- the line is not the one, and the next one starts with a line break
      have hhere : ¬ 13 :: 10 :: lengthKey <+: 13 :: (10 :: l ++ z) := by
        intro hin
        have hin' : lengthKey <+: l ++ z := by simpa using hin
        rcases List.prefix_or_prefix_of_prefix hin' (List.prefix_append l z) with hp | hp
        · exact hkey hp
        · obtain ⟨t, ht⟩ := hp
          rw [← ht, List.prefix_append_right_inj] at hin'
          have hstart : z.head? = some 13 := by
            rw [← hz]
            cases before with
            | nil => rfl
            | cons m before => rfl
          cases t with
          | nil => exact hkey ⟨[], by rw [List.append_nil, ← ht, List.append_nil]⟩
          | cons c t =>
              obtain ⟨x, hx⟩ := hin'
              have hc : c = 13 := by
                rw [← hx] at hstart
                exact Option.some.inj hstart
              have hno : (13 : UInt8) ∉ lengthKey := by decide
              exact hno (by rw [← ht, hc]; simp)
      rw [List.append_assoc, List.append_assoc, ← List.append_assoc (before.flatMap nextLine), hz]
        at hnext
      rw [hjoin, strstr_skip hfirst, strstr_next hhere, hnext]
      simp only [Option.map_some, List.length_append, List.flatMap_cons, nextLine,
        List.length_cons, List.length_nil]
      congr 1
      omega

end
end HttpHandler

/-- The first field with that text states the length of the body. -/
def WebRequest.Stated (r : WebRequest) : Prop := ∃ before f after d,
  r.fields = before ++ f :: after ∧ f.line = HttpHandler.lengthKey ++ d ∧ d ≠ [] ∧
    atoi d = r.body.length ∧ ∀ g ∈ before, ¬ HttpHandler.lengthKey <+: g.line

namespace HttpHandler
variable {rs : List WebRequest} {r : WebRequest}

theorem getInt_stated (h : r.Stated) (w : Bytes) :
    HttpTool.getInt (cstr (r.header ++ w)) (ascii "Content-Length") 0 = r.body.length := by
  obtain ⟨before, f, after, d, hfields, hline, hd, hatoi, hbefore⟩ := h
  have hkey : [13, 10] ++ ascii "Content-Length" ++ [58, 32] = 13 :: 10 :: lengthKey := by decide
  have hclean : ∀ g ∈ r.fields, 13 ∉ g.line := fun g _ => g.line_clean.2.2
  have hdclean : 13 ∉ d := by
    intro hmem
    refine hclean f (by rw [hfields]; simp) ?_
    rw [hline]
    exact List.mem_append_right _ hmem
  obtain ⟨y, hy⟩ : ∃ y, (after.map HttpField.line).flatMap nextLine ++ CRLF2 ++ cstr w =
      [13, 10] ++ y := by
    cases after with
    | nil => exact ⟨[13, 10] ++ cstr w, rfl⟩
    | cons g after =>
        exact ⟨g.line ++ (after.map HttpField.line).flatMap nextLine ++ CRLF2 ++ cstr w,
          by simp [nextLine]⟩
  have htext : cstr (r.header ++ w) = r.requestLine ++
      (before.map HttpField.line).flatMap nextLine ++ nextLine f.line ++ ([13, 10] ++ y) := by
    rw [cstr_append r.header_no_null, WebRequest.header, WebRequest.lines, hfields, ← hy]
    simp only [List.map_append, List.map_cons, List.flatMap_append, List.flatMap_cons,
      List.append_assoc]
  have hfound := @strstr_field r.requestLine f.line d ([13, 10] ++ y)
    (before.map HttpField.line) r.requestLine_clean.2 (by
      intro l hl
      obtain ⟨g, hg, rfl⟩ := List.mem_map.mp hl
      exact ⟨hclean g (by rw [hfields]; exact List.mem_append_left _ hg), hbefore g hg⟩) hline
  have hdrop : ∀ a : Bytes, (a ++ nextLine f.line ++ ([13, 10] ++ y)).drop
      (a.length + (13 :: 10 :: lengthKey).length) = d ++ ([13, 10] ++ y) := by
    intro a
    rw [← List.length_append, nextLine, hline]
    have hjoin : a ++ ([13, 10] ++ (lengthKey ++ d)) ++ ([13, 10] ++ y) =
        a ++ 13 :: 10 :: lengthKey ++ (d ++ ([13, 10] ++ y)) := by simp
    rw [hjoin, List.drop_left]
  have hend : strstr (d ++ ([13, 10] ++ y)) [13, 10] = some d.length := by
    rw [strstr_skip hdclean, strstr_here (List.prefix_append _ _)]
    rfl
  have hvalue : HttpTool.getString (cstr (r.header ++ w)) (ascii "Content-Length") [] = d := by
    rw [HttpTool.getString, hkey]
    dsimp only
    rw [htext, hfound]
    dsimp only
    rw [hdrop, hend]
    dsimp only
    rw [List.take_left]
  rw [HttpTool.getInt, hvalue, if_neg hd, hatoi]

/-- With lengths stated so, no request has to do with another. -/
theorem served_of_stated (junk : Bytes → UInt8) (hfits : ∀ r ∈ rs, r.text.length < 2 ^ 31)
    (hstated : ∀ r ∈ rs, r.Stated) : Served junk rs :=
  served_of_framed (fun _ _ hr w _ _ _ => getInt_stated (hstated _ (List.mem_of_getElem? hr)) w)
    hfits

theorem pair_url : ∀ c ∈ ascii "/a", c ≠ 0 ∧ c ≠ 13 := by simp [ascii]

theorem pair_version : ∀ c ∈ ascii "HTTP/1.1", c ≠ 0 ∧ c ≠ 13 := by simp [ascii]

theorem pair_name : ascii "Content-Length" ≠ [] ∧
    ∀ c ∈ ascii "Content-Length", c ≠ 0 ∧ c ≠ 10 ∧ c ≠ 13 ∧ c ≠ 58 := by simp [ascii]

theorem pair_value : ∀ c ∈ ascii " 2", c ≠ 0 ∧ c ≠ 10 ∧ c ≠ 13 := by simp [ascii]

def twoField : HttpField where
  name := ascii "Content-Length"
  value := ascii " 2"
  name_ne := pair_name.1
  name_clean := pair_name.2
  value_clean := pair_value

theorem pair_plain : ∀ f ∈ [twoField],
    f.name ≠ ascii "Sec-WebSocket-Key" ∧ f.name ≠ ascii "sec-websocket-key" := by
  intro f hf
  rw [List.mem_singleton.mp hf]
  decide

theorem pair_none : ∀ f ∈ ([] : List HttpField),
    f.name ≠ ascii "Sec-WebSocket-Key" ∧ f.name ≠ ascii "sec-websocket-key" := by simp

def bareGet : WebRequest where
  url := ascii "/a"
  version := ascii "HTTP/1.1"
  fields := []
  body := []
  url_clean := pair_url
  version_clean := pair_version
  plain := pair_none

def bodyGet : WebRequest where
  url := ascii "/a"
  version := ascii "HTTP/1.1"
  fields := [twoField]
  body := ascii "hi"
  url_clean := pair_url
  version_clean := pair_version
  plain := pair_plain

/-- Behind the request with a body the other one is served. In front of it, it may get the body's
length. -/
theorem framed_iff_pair : Served (fun _ => 0) [bodyGet, bareGet] ∧
    ¬ Served (fun _ => 0) [bareGet, bodyGet] := by
  have hsizes : bareGet.text.length < maxSize ∧ bodyGet.text.length < maxSize := by decide
  constructor
  · refine (framed_iff _ fun r hr => ?_).mpr fun k r hr w hw _ _ => ?_
    · rcases List.mem_pair.mp hr with rfl | rfl
      · exact hsizes.2
      · exact hsizes.1
    · match k with
      | 0 =>
          cases hr
          exact getInt_stated ⟨[], twoField, [], ascii "2", rfl, rfl, by decide, by decide,
            fun g hg => absurd hg List.not_mem_nil⟩ w
      | 1 =>
          cases hr
          rw [List.prefix_nil.mp hw]
          decide
      | k + 2 => cases hr
  · intro hserved
    have hframed := (framed_iff _ fun r hr => by
      rcases List.mem_pair.mp hr with rfl | rfl
      · exact hsizes.1
      · exact hsizes.2).mp hserved
    have hother := hframed 0 bareGet rfl bodyGet.text ⟨[], by decide⟩ (by decide) fun _ => by decide
    revert hother
    decide

end HttpHandler
end CoreLooper.Http
