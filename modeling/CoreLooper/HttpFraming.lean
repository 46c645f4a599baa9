import CoreLooper.HttpConnection
import CoreLooper.HttpResponse

/-!
# Requests one behind the other

The requests that are answered in the order of their numbers, whatever the reads and whenever the
answers are out, are those whose lengths are found where they are: the code looks for a length not
in the header but in all that has come by then.
-/
namespace CoreLooper.Http
open CStrings Transitions

/-- A `GET` with its header and the body that belongs to it, and nothing of a web socket. -/
structure WebRequest where
  url : Bytes
  version : Bytes
  fields : List HttpField
  body : Bytes
  url_clean : ∀ c ∈ url, c ≠ 0 ∧ c ≠ 13
  version_clean : ∀ c ∈ version, c ≠ 0 ∧ c ≠ 13
  plain : ∀ f ∈ fields, f.name ≠ ascii "Sec-WebSocket-Key" ∧ f.name ≠ ascii "sec-websocket-key"

namespace WebRequest
variable (r : WebRequest)

def requestLine : Bytes := ascii "GET" ++ 32 :: (r.url ++ 32 :: r.version)

/-- The request line and the fields. -/
def lines : Bytes := r.requestLine ++ (r.fields.map HttpField.line).flatMap nextLine

def header : Bytes := r.lines ++ CRLF2

def text : Bytes := r.header ++ r.body

theorem requestLine_clean : 0 ∉ r.requestLine ∧ 13 ∉ r.requestLine := by
  have hurl : ∀ c ∈ r.url ++ 32 :: r.version, c ≠ 0 ∧ c ≠ 13 := by
    intro c hc
    rcases List.mem_append.mp hc with hc | hc
    · exact r.url_clean c hc
    · rcases List.mem_cons.mp hc with rfl | hc
      · decide
      · exact r.version_clean c hc
  have hget : ∀ c ∈ ascii "GET", c ≠ 0 ∧ c ≠ 13 := by simp [ascii]
  have hall : ∀ c ∈ r.requestLine, c ≠ 0 ∧ c ≠ 13 := by
    intro c hc
    rcases List.mem_append.mp hc with hc | hc
    · exact hget c hc
    · rcases List.mem_cons.mp hc with rfl | hc
      · decide
      · exact hurl c hc
  exact ⟨fun hc => (hall 0 hc).1 rfl, fun hc => (hall 13 hc).2 rfl⟩

theorem fields_clean : ∀ line ∈ r.fields.map HttpField.line, line ≠ [] ∧ 0 ∉ line ∧ 13 ∉ line := by
  intro line hline
  obtain ⟨f, -, rfl⟩ := List.mem_map.mp hline
  exact f.line_clean

theorem header_no_null : 0 ∉ r.header := by
  rw [header, lines, List.mem_append, List.mem_append, not_or, not_or]
  refine ⟨⟨r.requestLine_clean.1, fun hmem => ?_⟩, by decide⟩
  obtain ⟨line, hline, hin⟩ := List.mem_flatMap.mp hmem
  rcases List.mem_append.mp hin with habs | hin
  · revert habs
    decide
  · exact (r.fields_clean line hline).2.1 hin

theorem header_end (x : Bytes) : strstr (r.header ++ x) CRLF2 = some r.lines.length := by
  rw [header, lines]
  exact strstr_lines r.requestLine_clean.2
    (fun line hline => ⟨(r.fields_clean line hline).1, (r.fields_clean line hline).2.2⟩) x

theorem header_length : r.header.length = r.lines.length + 4 := List.length_append

theorem header_starts : ascii "GET" <+: r.header :=
  ⟨32 :: (r.url ++ 32 :: r.version) ++ (r.fields.map HttpField.line).flatMap nextLine ++ CRLF2, by
    simp only [header, lines, requestLine, List.append_assoc]⟩

theorem four_lt : 4 < r.header.length := by
  have hstarts := r.header_starts.length_le
  have hlines : 4 ≤ r.lines.length := by
    rw [lines, requestLine, List.length_append, List.length_append, List.length_cons]
    have hget : (ascii "GET").length = 3 := by decide
    omega
  rw [header_length]
  omega

/-- Until the header is there as a whole, no end of one is found. -/
theorem header_open {u : Bytes} (hu : u <+: r.header) (hlen : u.length < r.header.length) :
    strstr (cstr u) CRLF2 = none := by
  have hclean : 0 ∉ u := fun hmem => r.header_no_null (hu.subset hmem)
  rw [cstr_eq_self hclean]
  obtain ⟨x, hx⟩ := hu
  cases hend : strstr u CRLF2 with
  | none => rfl
  | some p =>
      have hwhole := strstr_append hend x
      have hlast := r.header_end []
      rw [List.append_nil, ← hx, hwhole, Option.some.injEq] at hlast
      have hfits := strstr_add_length_le hend
      have hsize : CRLF2.length = 4 := rfl
      have := r.header_length
      omega

theorem parseHeader_get (junk : Bytes → UInt8) (x : Bytes) :
    ∃ info, parseHeader junk (r.header ++ x) = some info ∧ info.m_httpMethod = ascii "GET" := by
  have hget : (32 : UInt8) ∉ ascii "GET" := by decide
  have hcrlf : ascii "\r\n" = [13, 10] := by decide
  have htext : ∃ y, r.header ++ x = r.requestLine ++ ([13, 10] ++ y) := by
    rw [header, lines]
    cases r.fields.map HttpField.line with
    | nil => exact ⟨[13, 10] ++ x, by simp [CRLF2]⟩
    | cons l ls => exact ⟨l ++ ls.flatMap nextLine ++ CRLF2 ++ x, by simp [nextLine]⟩
  obtain ⟨y, hy⟩ := htext
  have hend : strstr (r.requestLine ++ ([13, 10] ++ y)) (ascii "\r\n") =
      some r.requestLine.length := by
    rw [hcrlf, strstr_skip r.requestLine_clean.2, strstr_here (List.prefix_append _ _)]
    rfl
  have hcut : cutAt 32 (r.requestLine ++ ([13, 10] ++ y)) =
      (ascii "GET", some (r.url ++ 32 :: r.version ++ ([13, 10] ++ y))) := by
    rw [requestLine, List.append_assoc]
    exact cutAt_found hget _
  have hsupport : isSupportHttpMethod (ascii "GET") = true := by decide
  rw [hy, parseHeader, hend]
  dsimp only
  rw [hcut]
  dsimp only
  rw [if_pos hsupport]
  exact ⟨_, rfl, rfl⟩

theorem header_lines : r.header =
    (r.requestLine :: (r.fields.map HttpField.line ++ [[]])).flatMap (· ++ [13, 10]) := by
  have hshift : ∀ (l : Bytes) (ls : List Bytes),
      l ++ ls.flatMap nextLine ++ [13, 10] = (l :: ls).flatMap (· ++ [13, 10]) := by
    intro l ls
    induction ls generalizing l with
    | nil => simp
    | cons m ls ih =>
        rw [List.flatMap_cons, List.flatMap_cons, ← ih m, nextLine]
        simp only [List.append_assoc]
  rw [header, lines, CRLF2, ← List.cons_append, List.flatMap_append, ← hshift]
  simp

theorem addBundleLine_other {mBundle : NameValue} {f : HttpField} {key : Bytes}
    (hname : f.name ≠ key) (hkey : key.getLast? ≠ some 50) :
    addBundleLine mBundle f.line key = mBundle key := by
  have hcut : cutAt 58 f.line = (f.name, some f.value) :=
    cutAt_found (fun hmem => (f.name_clean 58 hmem).2.2.2 rfl) f.value
  rw [addBundleLine, hcut]
  dsimp only
  rw [Function.update_of_ne]
  split_ifs
  · rintro rfl
    exact hkey (by simp)
  · exact hname.symm

theorem checkWebSocket_header : HttpRequest.checkWebSocket r.header = false := by
  have hend := r.header_end []
  rw [List.append_nil] at hend
  have hcount : ∀ ls : List Bytes, ls.length ≤ (ls.flatMap (· ++ [13, 10])).length := by
    intro ls
    induction ls with
    | nil => exact Nat.le_refl _
    | cons l ls ih =>
        rw [List.flatMap_cons, List.length_append, List.length_append, List.length_cons]
        simp only [List.length_cons, List.length_nil]
        omega
  have hitems : TextSeparator.items r.header [13, 10] =
      r.requestLine :: (r.fields.map HttpField.line ++ [[]]) := by
    rw [TextSeparator.items]
    nth_rewrite 2 [r.header_lines]
    refine TextSeparator.itemsLoop_terminated ?_ ?_
    · intro l hl
      rcases List.mem_cons.mp hl with rfl | hl
      · exact r.requestLine_clean.2
      · rcases List.mem_append.mp hl with hl | hl
        · exact (r.fields_clean l hl).2.2
        · rw [List.mem_singleton.mp hl]
          exact List.not_mem_nil
    · have hle := hcount (r.requestLine :: (r.fields.map HttpField.line ++ [[]]))
      rw [← r.header_lines] at hle
      omega
  have hfold : ∀ (fs : List HttpField) (mBundle : NameValue) (key : Bytes),
      (∀ f ∈ fs, f.name ≠ key) → key.getLast? ≠ some 50 →
      (fs.map HttpField.line).foldl addBundleLine mBundle key = mBundle key := by
    intro fs
    induction fs with
    | nil => exact fun _ _ _ _ => rfl
    | cons f fs ih =>
        intro mBundle key hnames hkey
        rw [List.map_cons, List.foldl_cons, ih _ key
          (fun g hg => hnames g (List.mem_cons_of_mem f hg)) hkey,
          addBundleLine_other (hnames f List.mem_cons_self) hkey]
  have hbundle : ∀ key : Bytes, (∀ f ∈ r.fields, f.name ≠ key) → key.getLast? ≠ some 50 →
      parseBundle r.header key = none := by
    intro key hnames hkey
    rw [parseBundle, hend]
    dsimp only
    rw [if_pos r.header_length.symm, cstr_eq_self r.header_no_null, hitems, List.tail_cons,
      List.foldl_append]
    exact hfold r.fields .empty key hnames hkey
  have hupper := hbundle (ascii "Sec-WebSocket-Key") (fun f hf => (r.plain f hf).1) (by decide)
  have hlower := hbundle (ascii "sec-websocket-key") (fun f hf => (r.plain f hf).2) (by decide)
  simp [HttpRequest.checkWebSocket, hupper, hlower]

/-- The header has been read, and that length found. -/
structure Parsed (c : ℤ) (q : HttpRequest) : Prop where
  headerLength : q.m_headerLength = r.header.length
  contentLength : q.m_contentLength = c
  method : q.m_httpMethod = ascii "GET"
  plain : q.mIsWebSocket = false
  free : q.m_handler = false
  undone : q.done = false

variable {r} {junk : Bytes → UInt8} {q : HttpRequest} {c : ℤ} {u : Bytes}

theorem Parsed.not_post (h : r.Parsed c q) : ¬ q.IsPost := by
  have hmethod : ascii "GET" ≠ ascii "POST" := by decide
  intro hpost
  exact hmethod (h.method.symm.trans hpost.1)

theorem input_enough (hfree : q.m_handler = false) (hu : ascii "GET" <+: u) (hlen : 4 < u.length) :
    HttpRequest.input junk u q = HttpRequest.parse junk u q := by
  have hno : ¬ [13, 10] <+: u := by
    rintro ⟨x, rfl⟩
    obtain ⟨y, hy⟩ := hu
    exact absurd (List.cons.inj hy).1 (by decide)
  rw [HttpRequest.input, hfree, if_neg (by decide), if_neg (by omega)]
  simp only [if_neg hno]
  rw [if_neg (by omega)]

theorem input_open (hu : u <+: r.header) (hlen : u.length < r.header.length) :
    HttpRequest.input junk u {} = ⟨u, {}, [], false⟩ := by
  by_cases hfour : u.length ≤ 4
  · rw [HttpRequest.input, if_neg (by decide), if_pos hfour]
  · have hget : ascii "GET" <+: u := by
      have hsize : (ascii "GET").length = 3 := by decide
      exact List.prefix_of_prefix_length_le r.header_starts hu (by omega)
    rw [input_enough rfl hget (by omega), HttpRequest.parse]
    dsimp only
    rw [if_neg (by decide), r.header_open hu hlen]

variable (junk) in
theorem input_header (x : Bytes) :
    ∃ q, r.Parsed (HttpTool.getInt (cstr (r.header ++ x)) (ascii "Content-Length") 0) q ∧
      HttpRequest.input junk (r.header ++ x) {} = HttpRequest.handOut (r.header ++ x) q := by
  have hcstr : cstr (r.header ++ x) = r.header ++ cstr x := cstr_append r.header_no_null x
  have hfour := r.four_lt
  obtain ⟨info, hinfo, hmethod⟩ := r.parseHeader_get junk (cstr x)
  generalize hc : HttpTool.getInt (cstr (r.header ++ x)) (ascii "Content-Length") 0 = c
  have hq : r.Parsed c
      { m_headerLength := r.header.length
        m_contentLength := c
        m_httpMethod := info.m_httpMethod
        m_uri := info.m_uri } := ⟨rfl, rfl, hmethod, rfl, rfl, rfl⟩
  refine ⟨_, hq, ?_⟩
  have hlength : ((r.lines.length : ℕ) : ℤ) + 4 = r.header.length := by
    rw [r.header_length]
    omega
  rw [input_enough rfl (r.header_starts.trans (List.prefix_append _ _))
    (by rw [List.length_append]; omega), HttpRequest.parse]
  dsimp only
  rw [if_neg (by decide), hc, hcstr, r.header_end]
  dsimp only
  rw [hlength, HttpRequest.onHeaderReady, hinfo]
  dsimp only
  rw [Int.toNat_natCast, List.take_left, r.checkWebSocket_header]
  rw [if_neg (not_or.mpr ⟨by decide, hq.not_post⟩)]

theorem input_parsed (hq : r.Parsed c q) (hu : r.header <+: u) :
    HttpRequest.input junk u q = HttpRequest.handOut u q := by
  have hlen := hu.length_le
  have hfour := r.four_lt
  rw [input_enough hq.free (r.header_starts.trans hu) (by omega), HttpRequest.parse]
  dsimp only
  rw [if_pos (by rw [hq.headerLength]; omega), if_neg hq.not_post]

/-- With the request's own length its own text is handed out. -/
theorem handOut_text (hq : r.Parsed r.body.length q) (hfits : r.text.length < 2 ^ 31) (z : Bytes) :
    HttpRequest.handOut (r.text ++ z) q = ⟨z, { q with m_handler := true }, [r.text], false⟩ := by
  have htext : r.text.length = r.header.length + r.body.length := List.length_append
  have hlen : i32 (q.m_headerLength + q.m_contentLength) = r.text.length := by
    rw [hq.headerLength, hq.contentLength, i32_eq (by omega) (by omega), htext, Nat.cast_add]
  have hfour := r.four_lt
  have hstarts : ∀ n : Bytes, n.head? = some 111 ∨ n.head? = some 100 →
      strstr ((cstr r.text).map toLower) n ≠ some 0 := by
    intro n hn habs
    have hfound := strstr_found habs
    have hhead : ((cstr r.text).map toLower).head? = some 103 := by
      obtain ⟨y, hy⟩ := r.header_starts
      rw [text, cstr_append r.header_no_null, ← hy]
      rfl
    rw [List.drop_zero] at hfound
    obtain ⟨y, hy⟩ := hfound
    cases n with
    | nil => simp at hn
    | cons a n =>
        rw [← hy, List.cons_append, List.head?_cons] at hhead
        rw [List.head?_cons, hhead] at hn
        revert hn
        decide
  have hno : ¬ (strcasestr (cstr r.text) (ascii "OPTIONS") = some 0 ∨
      strcasestr (cstr r.text) (ascii "DESCRIBE") = some 0) :=
    not_or.mpr ⟨hstarts _ (Or.inl (by decide)), hstarts _ (Or.inr (by decide))⟩
  have hsupport : isSupportHttpMethod q.m_httpMethod = true := by
    rw [hq.method]
    decide
  rw [HttpRequest.handOut, hlen]
  dsimp only
  rw [if_pos ⟨by omega, by rw [List.length_append]; omega⟩, Int.toNat_natCast, List.take_left,
    List.drop_left, HttpRequest.onHeaderContentReady, if_neg hno, if_pos hsupport]

theorem handOut_waits (hq : r.Parsed r.body.length q) (hfits : r.text.length < 2 ^ 31)
    (hlen : u.length < r.text.length) : HttpRequest.handOut u q = ⟨u, q, [], false⟩ := by
  have htext : r.text.length = r.header.length + r.body.length := List.length_append
  rw [HttpRequest.handOut, hq.headerLength, hq.contentLength, i32_eq (by omega) (by omega)]
  exact if_neg (by omega)

end WebRequest
end CoreLooper.Http
