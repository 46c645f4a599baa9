import CoreLooper.HttpParams

/-!
# A request line with parameters

The line is `method path?name=value&name=value version`. `HttpHeader::Parse` reads the parameters
as they were. `HttpRequest::ParseHeader` does if no value has a `&` or a `%`, and only then.
-/
namespace CoreLooper.Http
open CStrings

namespace Param

/-- The parameters with `&` between them. -/
def query (ps : List Param) : Bytes := List.intercalate [38] (ps.map Param.line)

/-- The same without `%xx`. -/
def plainQuery (ps : List Param) : Bytes := List.intercalate [38] (ps.map Param.plainLine)

theorem plainLine_ne (p : Param) : p.plainLine ≠ [] := by simp [plainLine]

theorem line_clean (p : Param) : ∀ c ∈ p.line, c ≠ 0 ∧ c ≠ 13 ∧ c ≠ 32 ∧ c ≠ 38 := by
  intro c hc
  rw [line, List.mem_append, List.mem_cons] at hc
  rcases hc with hname | rfl | htext
  · obtain ⟨h0, h13, h32, -, h38, -⟩ := p.name_clean c hname
    exact ⟨h0, h13, h32, h38⟩
  · decide
  · exact p.encoded.clean (Or.inl rfl) c htext

theorem query_cons (p q : Param) (ps : List Param) :
    query (p :: q :: ps) = p.line ++ 38 :: query (q :: ps) := by
  simp [query, List.intercalate]

theorem plainQuery_cons (p q : Param) (ps : List Param) :
    plainQuery (p :: q :: ps) = p.plainLine ++ 38 :: plainQuery (q :: ps) := by
  simp [plainQuery, List.intercalate]

theorem query_one (p : Param) : query [p] = p.line := by simp [query, List.intercalate]

theorem plainQuery_one (p : Param) : plainQuery [p] = p.plainLine := by
  simp [plainQuery, List.intercalate]

theorem query_clean (ps : List Param) : ∀ c ∈ query ps, c ≠ 0 ∧ c ≠ 13 ∧ c ≠ 32 := by
  induction ps with
  | nil => simp [query]
  | cons p ps ih =>
      have hline : ∀ c ∈ p.line, c ≠ 0 ∧ c ≠ 13 ∧ c ≠ 32 := by
        intro c hc
        obtain ⟨h0, h13, h32, -⟩ := p.line_clean c hc
        exact ⟨h0, h13, h32⟩
      cases ps with
      | nil =>
          rw [query_one]
          exact hline
      | cons q ps =>
          intro c hc
          rw [query_cons, List.mem_append, List.mem_cons] at hc
          rcases hc with hp | rfl | hlater
          · exact hline c hp
          · decide
          · exact ih c hlater

theorem plainQuery_no_null (ps : List Param) : 0 ∉ plainQuery ps := by
  induction ps with
  | nil => simp [plainQuery]
  | cons p ps ih =>
      have hline : 0 ∉ p.plainLine := by
        have := p.name_not_mem (c := 0) (by decide)
        simp [plainLine, this, p.value_ne]
      cases ps with
      | nil =>
          rw [plainQuery_one]
          exact hline
      | cons q ps =>
          rw [plainQuery_cons]
          simp [hline, ih]

theorem unescape_line (junk : Bytes → UInt8) (p : Param) (text : Bytes) :
    unescape junk (p.line ++ text) = p.plainLine ++ unescape junk text := by
  rw [line, plainLine, List.append_assoc, List.append_assoc,
    unescape_plain (p.name_not_mem (by decide)), List.cons_append, List.cons_append,
    unescape_cons (by decide), unescape_encoded p.encoded]

/-- The whole query is undone parameter by parameter. -/
theorem unescape_query (junk : Bytes → UInt8) (ps : List Param) :
    unescape junk (query ps) = plainQuery ps := by
  induction ps with
  | nil => rfl
  | cons p ps ih =>
      cases ps with
      | nil =>
          have := unescape_line junk p []
          rw [List.append_nil] at this
          rw [query_one, plainQuery_one, this]
          simp [unescape]
      | cons q ps =>
          rw [query_cons, plainQuery_cons, unescape_line, unescape_cons (by decide), ih]

theorem length_query {ps : List Param} {p : Param} (hp : p ∈ ps) :
    p.text.length ≤ (query ps).length := by
  induction ps with
  | nil => cases hp
  | cons q ps ih =>
      have hline : q.text.length ≤ q.line.length := by
        rw [line, List.length_append, List.length_cons]
        omega
      cases ps with
      | nil =>
          rw [List.mem_singleton.mp hp, query_one]
          exact hline
      | cons r ps =>
          rw [query_cons, List.length_append, List.length_cons]
          rcases List.mem_cons.mp hp with rfl | hlater
          · omega
          · have := ih hlater
            omega

/-- How long the query is without the `&` between the parameters, and how many `&` it has. -/
theorem plainQuery_size (ps : List Param) : (plainQuery ps).length =
    (ps.map fun p => p.name.length + 1 + p.value.length).sum + (ps.length - 1) ∧
      (plainQuery ps).count 38 = (ps.map fun p => p.value.count 38).sum + (ps.length - 1) := by
  have hcount : ∀ p : Param, p.plainLine.count 38 = p.value.count 38 := by
    intro p
    have hname : p.name.count 38 = 0 := List.count_eq_zero.mpr (p.name_not_mem (by decide))
    rw [plainLine, List.count_append, hname, List.count_cons_of_ne (by decide), Nat.zero_add]
  have hlength : ∀ p : Param, p.plainLine.length = p.name.length + 1 + p.value.length := by
    intro p
    rw [plainLine, List.length_append, List.length_cons]
    omega
  induction ps with
  | nil => simp [plainQuery]
  | cons p ps ih =>
      cases ps with
      | nil =>
          rw [plainQuery_one]
          simp [hcount, hlength]
      | cons q ps =>
          obtain ⟨ihlength, ihcount⟩ := ih
          rw [plainQuery_cons, List.length_append, List.count_append, List.length_cons,
            List.count_cons_self, ihlength, ihcount, hlength, hcount]
          simp only [List.map_cons, List.sum_cons, List.length_cons]
          omega

/-- Lines that hold the values are taken apart. -/
theorem joined_values {junk : Bytes → UInt8} {ps : List Param} (hnames : (ps.map name).Nodup)
    (raw : Param → Bytes) (hsep : ∀ p ∈ ps, 38 ∉ raw p)
    (hraw : ∀ p ∈ ps, escapeUrlString junk ((raw p).take 4095) = p.value) :
    (extractSubString 38 [] (List.intercalate [38]
      (ps.map fun p => p.name ++ 61 :: raw p))).foldl (setParam junk) .empty = values ps := by
  have hlines : extractSubString 38 [] (List.intercalate [38]
      (ps.map fun p => p.name ++ 61 :: raw p)) = ps.map fun p => p.name ++ 61 :: raw p := by
    apply extractSubString_join
    · intro l hl
      obtain ⟨p, -, rfl⟩ := List.mem_map.mp hl
      simp
    · intro l hl
      obtain ⟨p, hp, rfl⟩ := List.mem_map.mp hl
      have := p.name_not_mem (c := 38) (by decide)
      simp [this, hsep p hp]
  rw [hlines, foldl_values hnames raw hraw]

/-- What is read where `%xx` was undone before. -/
def plainValues (junk : Bytes → UInt8) (ps : List Param) : NameValue :=
  (extractSubString 38 [] (plainQuery ps)).foldl (setParam junk) .empty

section
variable {ps : List Param} (hnames : (ps.map name).Nodup)
include hnames

/-- The lengths of the lines leave no room for a `&` in a value. -/
theorem value_no_separator {junk : Bytes → UInt8} (h : plainValues junk ps = values ps) :
    ∀ p ∈ ps, 38 ∉ p.value := by
  have hline : ∀ p ∈ ps, ∃ l ∈ extractSubString 38 [] (plainQuery ps), (cutAt 61 l).1 = p.name ∧
      p.name.length + 1 + p.value.length ≤ l.length := by
    intro p hp
    have hread : plainValues junk ps p.name = some p.value := by rw [h, values_name hnames hp]
    exact line_long hread
  have hfit := sum_le_of_lines hnames (fun l => (cutAt 61 l).1)
    (fun p => p.name.length + 1 + p.value.length) hline
  have hall := extractSubString_length 38 [] (plainQuery ps)
  obtain ⟨hlength, hcount⟩ := plainQuery_size ps
  rw [List.length_nil] at hall
  have hzero : (ps.map fun p => p.value.count 38).sum = 0 := by omega
  intro p hp
  rw [List.sum_eq_zero_iff] at hzero
  exact List.count_eq_zero.mp (hzero _ (List.mem_map_of_mem hp))

theorem plainValues_iff (hlength : ∀ p ∈ ps, p.value.length ≤ 4095) :
    (∀ junk, plainValues junk ps = values ps) ↔ ∀ p ∈ ps, 38 ∉ p.value ∧ 37 ∉ p.value := by
  constructor
  · intro h p hp
    have hsep := value_no_separator hnames (h fun _ => 0)
    refine ⟨hsep p hp, ?_⟩
    have hlines : plainValues (fun _ => 0) ps =
        (ps.map fun p => p.name ++ 61 :: p.value).foldl (setParam fun _ => 0) .empty := by
      rw [plainValues, plainQuery, extractSubString_join]
      · rfl
      · intro l hl
        obtain ⟨q, -, rfl⟩ := List.mem_map.mp hl
        exact q.plainLine_ne
      · intro l hl
        obtain ⟨q, hq, rfl⟩ := List.mem_map.mp hl
        have := q.name_not_mem (c := 38) (by decide)
        simp [plainLine, this, hsep q hq]
    have hvalue := values_name hnames hp
    rw [← h fun _ => 0, hlines, foldl_setParam hnames, find_name hnames hp, Option.map_some,
      Option.some_or, Option.some.injEq, List.take_of_length_le (hlength p hp)] at hvalue
    exact escapeUrlString_same hvalue
  · intro h junk
    apply joined_values hnames value
    · intro p hp
      exact (h p hp).1
    · intro p hp
      have hplain : unescape junk (p.value ++ []) = p.value ++ unescape junk [] :=
        unescape_plain (h p hp).2 []
      rw [List.append_nil] at hplain
      rw [List.take_of_length_le (hlength p hp), escapeUrlString, hplain]
      simp only [unescape, List.append_nil]
      exact cstr_eq_self p.value_ne

/-- The text of the values is undone once, after it is taken apart. -/
theorem query_values (junk : Bytes → UInt8) (hlength : ∀ p ∈ ps, p.text.length ≤ 4095) :
    (extractSubString 38 [] (query ps)).foldl (setParam junk) .empty = values ps := by
  apply joined_values hnames text
  · intro p hp hmem
    exact (p.encoded.clean (Or.inl rfl) 38 hmem).2.2.2 rfl
  · intro p hp
    have hvalue : unescape junk (p.text ++ []) = p.value ++ unescape junk [] :=
      unescape_encoded p.encoded []
    rw [List.append_nil] at hvalue
    rw [List.take_of_length_le (hlength p hp), escapeUrlString, hvalue]
    simp only [unescape, List.append_nil]
    exact cstr_eq_self p.value_ne

end

end Param

/-- A request with parameters, and what follows its first line. -/
structure Request where
  method : Bytes
  path : Bytes
  pathText : Bytes
  params : List Param
  version : Bytes
  rest : Bytes
  supported : isSupportHttpMethod method = true
  path_clean : 0 ∉ path ∧ 63 ∉ path
  path_encoded : Encoded 63 path pathText
  names : (params.map Param.name).Nodup
  version_clean : 0 ∉ version ∧ 13 ∉ version ∧ 32 ∉ version

namespace Request

variable (r : Request) (junk : Bytes → UInt8)

def url : Bytes := r.pathText ++ 63 :: Param.query r.params

def line : Bytes := r.method ++ 32 :: (r.url ++ 32 :: r.version)

def text : Bytes := r.line ++ 13 :: 10 :: r.rest

/-- Both readers of the text yield the parameters. -/
def ReadBack : Prop := ∀ junk,
  (∃ info, parseHeader junk r.text = some info ∧ info.m_urlParam = Param.values r.params) ∧
    (parseHttpHeader junk r.text).mUrlParams = Param.values r.params

theorem method_clean : 13 ∉ r.method ∧ 32 ∉ r.method := by
  have hmethod : r.method = ascii "GET" ∨ r.method = ascii "POST" := of_decide_eq_true r.supported
  rcases hmethod with heq | heq <;> rw [heq] <;> decide

theorem url_clean : 13 ∉ r.url := by
  have hpath := r.path_encoded.clean (Or.inr rfl)
  have hquery := Param.query_clean r.params
  intro hmem
  rw [url, List.mem_append, List.mem_cons] at hmem
  rcases hmem with hp | habs | hq
  · exact (hpath 13 hp).2.1 rfl
  · exact absurd habs (by decide)
  · exact (hquery 13 hq).2.1 rfl

theorem line_clean : 13 ∉ r.line := by
  have hversion := r.version_clean.2.1
  simp [line, r.method_clean.1, r.url_clean, hversion]

theorem cutAt_line (tail : Bytes) : cutAt 32 (r.line ++ tail) =
    (r.method, some (r.url ++ 32 :: r.version ++ tail)) := by
  rw [line, List.append_assoc, List.cons_append, cutAt_found r.method_clean.2]

theorem beforeLast_line : beforeLast 32 (r.url ++ 32 :: r.version) = some r.url :=
  beforeLast_found r.version_clean.2.2 r.url

theorem length_text {p : Param} (hp : p ∈ r.params) : p.text.length ≤ r.url.length := by
  have := Param.length_query hp
  rw [url, List.length_append, List.length_cons]
  omega

theorem parseUrlParam_url (hurl : r.url.length ≤ 4095) :
    (parseUrlParam junk r.url .empty).2 = Param.values r.params := by
  have hpath : 63 ∉ r.pathText := fun hmem =>
    (r.path_encoded.clean (Or.inr rfl) 63 hmem).2.2.2 rfl
  simp only [parseUrlParam, url, cutAt_found hpath]
  exact Param.query_values r.names junk fun p hp => (r.length_text hp).trans hurl

/-- The url with `%xx` undone. -/
theorem escapeUrlString_url : escapeUrlString junk r.url =
    r.path ++ 63 :: Param.plainQuery r.params := by
  have hclean : 0 ∉ r.path ++ 63 :: Param.plainQuery r.params := by
    simp [r.path_clean.1, Param.plainQuery_no_null]
  rw [escapeUrlString, url, unescape_encoded r.path_encoded, unescape_cons (by decide),
    Param.unescape_query, cstr_eq_self hclean]

theorem parseHeader_text (hurl : r.url.length ≤ 4095) : ∃ info,
    parseHeader junk r.text = some info ∧ info.m_urlParam = Param.plainValues junk r.params := by
  have hend : strstr r.text (ascii "\r\n") = some r.line.length := by
    have hcrlf : ascii "\r\n" = [13, 10] := by decide
    have hhere : [13, 10] <+: 13 :: 10 :: r.rest := ⟨r.rest, rfl⟩
    rw [hcrlf, text, strstr_skip r.line_clean, strstr_here hhere]
    rfl
  have hlength : r.line.length = r.method.length + 1 + (r.url ++ 32 :: r.version).length := by
    rw [line, List.length_append, List.length_cons]
    omega
  have hline : (r.url ++ 32 :: r.version ++ 13 :: 10 :: r.rest).take
      (r.line.length - (r.method.length + 1)) = r.url ++ 32 :: r.version := by
    rw [hlength, Nat.add_sub_cancel_left, List.take_left]
  have hcut : cutAt 32 r.text = (r.method, some (r.url ++ 32 :: r.version ++ 13 :: 10 :: r.rest)) :=
    r.cutAt_line _
  have hle : r.method.length + 1 ≤ r.line.length := by omega
  simp only [parseHeader, hend, hcut, if_pos hle, hline, r.beforeLast_line, Option.getD_some,
    r.supported, if_true, List.take_of_length_le hurl, r.escapeUrlString_url]
  refine ⟨_, rfl, ?_⟩
  simp only [parseUrlParam, cutAt_found r.path_clean.2]
  rfl

theorem parseHttpHeader_text (hurl : r.url.length ≤ 4095) :
    (parseHttpHeader junk r.text).mUrlParams = Param.values r.params := by
  have hcrlf : ascii "\r\n" = [13, 10] := by decide
  have hitems : ∃ lines, TextSeparator.items r.text (ascii "\r\n") = r.line :: lines := by
    have htext : r.text = r.line ++ [13, 10] ++ r.rest := by simp [text]
    rw [hcrlf, TextSeparator.items, htext, TextSeparator.itemsLoop_cons r.line_clean]
    exact ⟨_, rfl⟩
  obtain ⟨lines, hitems⟩ := hitems
  have hcut := r.cutAt_line []
  rw [List.append_nil, List.append_nil] at hcut
  simp only [parseHttpHeader, hitems, parseStartLine, hcut, r.beforeLast_line]
  exact r.parseUrlParam_url junk hurl

/-- A url is undone once too often before its values are taken apart. -/
theorem readBack_iff (hurl : r.url.length ≤ 4095) :
    r.ReadBack ↔ ∀ p ∈ r.params, 38 ∉ p.value ∧ 37 ∉ p.value := by
  have hlength : ∀ p ∈ r.params, p.value.length ≤ 4095 := by
    intro p hp
    exact p.encoded.length_le.trans ((r.length_text hp).trans hurl)
  rw [← Param.plainValues_iff r.names hlength]
  constructor
  · intro h junk
    obtain ⟨⟨info, hinfo, hparams⟩, -⟩ := h junk
    obtain ⟨info', hinfo', hparams'⟩ := r.parseHeader_text junk hurl
    rw [hinfo, Option.some.injEq] at hinfo'
    rw [← hparams', ← hinfo', hparams]
  · intro h junk
    obtain ⟨info, hinfo, hparams⟩ := r.parseHeader_text junk hurl
    exact ⟨⟨info, hinfo, hparams.trans (h junk)⟩, r.parseHttpHeader_text junk hurl⟩

/-- The parameter `a=%26b`, which stands for `&b`. -/
theorem ampersand_name : ascii "a" ≠ [] := by decide
theorem ampersand_plain : ∀ c ∈ ascii "a", isalnum c = true := by decide +kernel
theorem ampersand_value : 0 ∉ ascii "&b" := by decide

theorem ampersand_encoded : Encoded 38 (ascii "&b") (ascii "%26b") :=
  .escaped 38 50 54 2 6 rfl rfl rfl
    (.plain 98 (by decide) (by decide) (by decide) (by decide) (by decide) .nil)

theorem ampersand_method : isSupportHttpMethod (ascii "GET") = true := by decide
theorem ampersand_path : 0 ∉ ascii "/x" ∧ 63 ∉ ascii "/x" := by decide

theorem ampersand_pathText : Encoded 63 (ascii "/x") (ascii "/x") :=
  .plain 47 (by decide) (by decide) (by decide) (by decide) (by decide)
    (.plain 120 (by decide) (by decide) (by decide) (by decide) (by decide) .nil)

theorem ampersand_version : 0 ∉ ascii "HTTP/1.1" ∧ 13 ∉ ascii "HTTP/1.1" ∧
    32 ∉ ascii "HTTP/1.1" := by decide

def ampersandParam : Param where
  name := ascii "a"
  value := ascii "&b"
  text := ascii "%26b"
  name_ne := ampersand_name
  name_plain := ampersand_plain
  value_ne := ampersand_value
  encoded := ampersand_encoded

theorem ampersand_names : ([ampersandParam].map Param.name).Nodup := by decide

/-- `GET /x?a=%26b HTTP/1.1` for the value `&b`. -/
def ampersand : Request where
  method := ascii "GET"
  path := ascii "/x"
  pathText := ascii "/x"
  params := [ampersandParam]
  version := ascii "HTTP/1.1"
  rest := ascii "\r\n"
  supported := ampersand_method
  path_clean := ampersand_path
  path_encoded := ampersand_pathText
  names := ampersand_names
  version_clean := ampersand_version

theorem readBack_ampersand : ¬ ∀ r : Request, r.url.length ≤ 4095 → r.ReadBack := by
  intro h
  obtain ⟨⟨info, hinfo, hparams⟩, -⟩ := h ampersand (by decide) fun _ => 0
  have hread : (parseHeader (fun _ => 0) ampersand.text).map (fun info =>
      info.m_urlParam (ascii "a")) = some (some []) := by
    decide
  rw [hinfo, Option.map_some, hparams] at hread
  revert hread
  decide

theorem readBack_iff_ampersand :
    ampersand.ReadBack ↔ ∀ p ∈ ampersand.params, 38 ∉ p.value ∧ 37 ∉ p.value :=
  readBack_iff ampersand (by decide)

end Request
end CoreLooper.Http
