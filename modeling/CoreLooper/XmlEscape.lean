import CoreLooper.StringTool

/-!
# `StringTool::xml`

Five passes of `Replace`, the one for `&` first. What they make is compared with the five entities:
`unescape` puts back what each of them stands for.
-/
namespace CoreLooper.StringTool

open CStrings

def xml (fuel : ℕ) (sz : Bytes) : Option Bytes := do
  let sz ← replace fuel sz (ascii "&") (ascii "&amp;")
  let sz ← replace fuel sz (ascii "<") (ascii "&lt;")
  let sz ← replace fuel sz (ascii ">") (ascii "&gt;")
  let sz ← replace fuel sz (ascii "\"") (ascii "&quot;")
  replace fuel sz (ascii "\'") (ascii "&apos;")

/-- The five entities, with what they stand for. -/
def entities : List (UInt8 × Bytes) :=
  [(38, ascii "&amp;"), (60, ascii "&lt;"), (62, ascii "&gt;"), (34, ascii "&quot;"),
    (39, ascii "&apos;")]

def entityAt (text : Bytes) : Option (UInt8 × Bytes) :=
  entities.find? fun e => e.2.isPrefixOf text

/-- The first number of bytes is passed over, in the rest each entity is put back. -/
def unescapeFrom : ℕ → Bytes → Bytes
  | _, [] => []
  | skip + 1, _ :: rest => unescapeFrom skip rest
  | 0, c :: rest =>
      match entityAt (c :: rest) with
      | some e => e.1 :: unescapeFrom (e.2.length - 1) rest
      | none => c :: unescapeFrom 0 rest

def unescape (text : Bytes) : Bytes := unescapeFrom 0 text

/-- Every `&` begins an entity. -/
def AmpsBegin (text : Bytes) : Prop :=
  ∀ a b, text = a ++ 38 :: b → ∃ e ∈ entities, e.2 <+: 38 :: b

/-- The bytes a safe text is free of: angle brackets, quote and apostrophe. -/
def specials : List UInt8 := [60, 62, 34, 39]

/-- A safe text that stands for `s`. -/
structure IsEscapeOf (s text : Bytes) : Prop where
  raw : ∀ c ∈ specials, c ∉ text
  amp : AmpsBegin text
  back : unescape text = s

/-- `xml` returns, with a safe text that stands for `s`. -/
def Escapes (s : Bytes) : Prop := ∃ fuel text, xml fuel s = some text ∧ IsEscapeOf s text

def XmlFits (s : Bytes) : Prop := PassesFit entities s

variable {s t u text : Bytes} {fuel : ℕ} {passes : List (UInt8 × Bytes)} {e : UInt8 × Bytes}
  {x : UInt8} {r w : Bytes} {ms : List ℕ}

theorem xml_eq : xml fuel s = runPasses fuel entities s := by
  simp only [xml, runPasses, entities, List.foldlM_cons, List.foldlM_nil, bind_pure]
  rfl

/-- An entity is `&` and other bytes, none of which is replaced. -/
theorem entity_shape : ∀ e ∈ entities,
    e.2 = 38 :: e.2.tail ∧ ∀ e' ∈ entities, e'.1 ∉ e.2.tail := by decide

theorem unescapeFrom_length : unescapeFrom w.length (w ++ r) = unescape r := by
  induction w with
  | nil => rfl
  | cons x w ih => exact ih

theorem entityAt_entity (he : e ∈ entities) (r : Bytes) : entityAt (e.2 ++ r) = some e := by
  simp only [entities, List.mem_cons, List.not_mem_nil, or_false] at he
  rcases he with rfl | rfl | rfl | rfl | rfl <;> rfl

theorem unescape_entity (he : e ∈ entities) : unescape (e.2 ++ r) = e.1 :: unescape r := by
  have hat := entityAt_entity he r
  have hshape := (entity_shape e he).1
  have hlength : e.2.length - 1 = e.2.tail.length := by rw [List.length_tail]
  rw [hshape, List.cons_append] at hat ⊢
  rw [unescape, unescapeFrom, hat]
  simp only [hlength, unescapeFrom_length]

theorem unescape_other (h : ∀ e ∈ entities, ¬ e.2 <+: x :: r) :
    unescape (x :: r) = x :: unescape r := by
  have hat : entityAt (x :: r) = none := by
    apply List.find?_eq_none.mpr
    intro e he
    rw [List.isPrefixOf_iff_prefix]
    exact h e he
  rw [unescape, unescapeFrom, hat, unescape]

theorem unescape_cons_ne (hx : x ≠ 38) : unescape (x :: r) = x :: unescape r := by
  apply unescape_other
  intro e he hp
  rw [(entity_shape e he).1] at hp
  exact hx (List.cons_prefix_cons.mp hp).1.symm

theorem unescape_append (hw : 38 ∉ w) : unescape (w ++ r) = w ++ unescape r := by
  induction w with
  | nil => rfl
  | cons x w ih =>
      obtain ⟨hx, hw⟩ := List.ne_and_not_mem_of_not_mem_cons hw
      rw [List.cons_append, unescape_cons_ne hx.symm, ih hw, List.cons_append]

/-- Bytes that no entity stands for were there before. -/
theorem append_of_unescape (hw : ∀ e ∈ entities, e.1 ∉ w) (h : unescape u = w ++ s) :
    ∃ u', u = w ++ u' ∧ unescape u' = s := by
  induction w generalizing u with
  | nil => exact ⟨u, rfl, h⟩
  | cons x w ih =>
      cases u with
      | nil => cases h
      | cons y u =>
          by_cases hy : ∃ e ∈ entities, e.2 <+: y :: u
          · obtain ⟨e, he, r, hr⟩ := hy
            rw [← hr, unescape_entity he] at h
            have hx := (List.cons.inj h).1
            have hnot := hw e he
            rw [hx] at hnot
            exact absurd List.mem_cons_self hnot
          · have hother : ∀ e ∈ entities, ¬ e.2 <+: y :: u := fun e he hp => hy ⟨e, he, hp⟩
            rw [unescape_other hother] at h
            obtain ⟨rfl, hrest⟩ := List.cons.inj h
            obtain ⟨u', rfl, hs⟩ := ih
              (fun e he hmem => hw e he (List.mem_cons_of_mem y hmem)) hrest
            exact ⟨u', rfl, hs⟩

/-- All passes over one byte. -/
theorem escapedBy_byte (x : UInt8) :
    (∃ e ∈ entities, x = e.1 ∧ escapedBy entities [x] = e.2) ∨
      (x ∉ entities.map Prod.fst ∧ escapedBy entities [x] = [x]) := by
  by_cases hx : x ∈ entities.map Prod.fst
  · left
    simp only [entities, List.map_cons, List.map_nil, List.mem_cons, List.not_mem_nil,
      or_false] at hx
    rcases hx with rfl | rfl | rfl | rfl | rfl <;> decide +kernel
  · right
    refine ⟨hx, ?_⟩
    simp only [entities, List.map_cons, List.map_nil, List.mem_cons, List.not_mem_nil,
      or_false, not_or] at hx
    obtain ⟨hamp, hlt, hgt, hquot, hapos⟩ := hx
    simp [escapedBy, entities, subst, hamp, hlt, hgt, hquot, hapos]

theorem escapedBy_flatMap (passes : List (UInt8 × Bytes)) (s : Bytes) (f : UInt8 → Bytes) :
    escapedBy passes (s.flatMap f) = s.flatMap fun x => escapedBy passes (f x) := by
  induction passes generalizing f with
  | nil => rfl
  | cons e passes ih =>
      have hsubst := subst_flatMap (c := e.1) (d := e.2) s f
      rw [escapedBy, List.foldl_cons, hsubst]
      exact ih _

theorem escapedBy_eq (s : Bytes) :
    escapedBy entities s = s.flatMap fun x => escapedBy entities [x] := by
  have h := escapedBy_flatMap entities s fun x => [x]
  rwa [List.flatMap_singleton'] at h

theorem escapedBy_cons (x : UInt8) (s : Bytes) :
    escapedBy entities (x :: s) = escapedBy entities [x] ++ escapedBy entities s := by
  rw [escapedBy_eq (x :: s), List.flatMap_cons, ← escapedBy_eq s]

theorem raw_escaped (s : Bytes) : ∀ c ∈ specials, c ∉ escapedBy entities s := by
  intro c hc hmem
  rw [escapedBy_eq] at hmem
  obtain ⟨x, -, hx⟩ := List.mem_flatMap.mp hmem
  rcases escapedBy_byte x with ⟨e, he, -, htext⟩ | ⟨hnot, htext⟩
  · have hfree : ∀ e ∈ entities, ∀ c ∈ specials, c ∉ e.2 := by decide +kernel
    rw [htext] at hx
    exact hfree e he c hc hx
  · have hspecial : ∀ c ∈ specials, c ∈ entities.map Prod.fst := by decide +kernel
    rw [htext, List.mem_singleton] at hx
    rw [← hx] at hnot
    exact hnot (hspecial c hc)

theorem unescape_escaped (s : Bytes) : unescape (escapedBy entities s) = s := by
  induction s with
  | nil => rfl
  | cons x s ih =>
      rw [escapedBy_cons]
      rcases escapedBy_byte x with ⟨e, he, rfl, htext⟩ | ⟨hnot, htext⟩
      · rw [htext, unescape_entity he, ih]
      · have hx : x ≠ 38 := by
          rintro rfl
          exact hnot (by decide)
        rw [htext, List.singleton_append, unescape_cons_ne hx, ih]

theorem ampsBegin_escaped (s : Bytes) : AmpsBegin (escapedBy entities s) := by
  induction s with
  | nil =>
      intro a b h
      exact absurd h (by simp [escapedBy, entities])
  | cons x s ih =>
      intro a b h
      rw [escapedBy_cons] at h
      -- the `&` stands in what `x` has become, or behind it
      rcases escapedBy_byte x with ⟨e, he, rfl, htext⟩ | ⟨hnot, htext⟩
      · obtain ⟨hshape, hfree⟩ := entity_shape e he
        rw [htext, hshape] at h
        cases a with
        | nil =>
            refine ⟨e, he, escapedBy entities s, ?_⟩
            rw [hshape, h, List.nil_append]
        | cons y a =>
            have htail : e.2.tail ++ escapedBy entities s = a ++ 38 :: b := (List.cons.inj h).2
            rcases List.append_eq_append_iff.mp htail with ⟨v, -, hv⟩ | ⟨v, htake, hv⟩
            · exact ih v b hv
            · cases v with
              | nil => exact ih [] b hv.symm
              | cons z v =>
                  have hmem : 38 ∈ e.2.tail := by
                    rw [htake, (List.cons.inj hv).1]
                    exact List.mem_append_right a List.mem_cons_self
                  exact absurd hmem (hfree (38, ascii "&amp;") (by decide))
      · rw [htext, List.singleton_append] at h
        cases a with
        | nil =>
            rw [(List.cons.inj h).1] at hnot
            exact absurd (by decide) hnot
        | cons y a => exact ih a b (List.cons.inj h).2

theorem isEscapeOf_escaped (s : Bytes) : IsEscapeOf s (escapedBy entities s) :=
  ⟨raw_escaped s, ampsBegin_escaped s, unescape_escaped s⟩

/-- A pass makes no entity of what was none. -/
theorem prefix_of_pass {e' : UInt8 × Bytes} (he : e ∈ entities) (he' : e' ∈ entities)
    (h : e'.2 <+: x :: subst e.1 e.2 r) : e'.2 <+: x :: r := by
  obtain ⟨hshape, -⟩ := entity_shape e he
  obtain ⟨hshape', hfree'⟩ := entity_shape e' he'
  rw [hshape'] at h ⊢
  obtain ⟨hx, htail⟩ := List.cons_prefix_cons.mp h
  apply List.cons_prefix_cons.mpr
  constructor
  · exact hx
  · refine prefix_of_subst ?_ (by rw [hshape]; exact List.cons_ne_nil _ _) htail
    intro y hy
    rw [hshape] at hy
    rw [← Option.some.inj hy]
    exact hfree' (38, ascii "&amp;") (by decide)

theorem subst_entity {e' : UInt8 × Bytes} (he : e ∈ entities) (he' : e' ∈ entities)
    (hne : e.1 ≠ 38) : subst e.1 e.2 (e'.2 ++ r) = e'.2 ++ subst e.1 e.2 r := by
  obtain ⟨hshape, hfree⟩ := entity_shape e' he'
  rw [subst_append, subst_of_not_mem]
  rw [hshape]
  intro hmem
  rcases List.mem_cons.mp hmem with hmem | hmem
  · exact hne hmem
  · exact hfree e he hmem

theorem unescape_subst (he : e ∈ entities) (hne : e.1 ≠ 38) (u : Bytes) :
    unescape (subst e.1 e.2 u) = unescape u := by
  induction hn : u.length using Nat.strong_induction_on generalizing u with
  | _ n ih =>
      cases u with
      | nil => rfl
      | cons x u =>
          by_cases hat : ∃ e' ∈ entities, e'.2 <+: x :: u
          · obtain ⟨e', he', r, hr⟩ := hat
            have hlt : r.length < n := by
              rw [← hn, ← hr, (entity_shape e' he').1, List.length_append, List.length_cons]
              omega
            rw [← hr, subst_entity he he' hne, unescape_entity he', unescape_entity he',
              ih r.length hlt r rfl]
          · have hother : ∀ e' ∈ entities, ¬ e'.2 <+: x :: u := fun e' he' hp => hat ⟨e', he', hp⟩
            have hlt : u.length < n := by
              rw [← hn, List.length_cons]
              omega
            by_cases hx : x = e.1
            · rw [hx, subst_cons_self, unescape_entity he, ih u.length hlt u rfl,
                unescape_cons_ne hne]
            · rw [subst_cons_ne hx, unescape_other hother, unescape_other, ih u.length hlt u rfl]
              intro e' he' hp
              exact hother e' he' (prefix_of_pass he he' hp)

theorem AmpsBegin.of_subst (he : e ∈ entities) (hne : e.1 ≠ 38)
    (h : AmpsBegin (subst e.1 e.2 u)) : AmpsBegin u := by
  rintro a b rfl
  rw [subst_append, subst_cons_ne hne.symm] at h
  obtain ⟨e', he', hp⟩ := h _ _ rfl
  exact ⟨e', he', prefix_of_pass he he' hp⟩

/-- The passes behind the first. -/
theorem tail_facts : (∀ e ∈ entities.tail, e ∈ entities ∧ e.1 ≠ 38 ∧ e.1 ∉ e.2) ∧
    (entities.tail.map Prod.fst).Nodup ∧ entities.tail.map Prod.fst = specials := by
  decide +kernel

theorem unescape_escapedBy (hpasses : ∀ e ∈ passes, e ∈ entities ∧ e.1 ≠ 38) (u : Bytes) :
    unescape (escapedBy passes u) = unescape u := by
  induction passes generalizing u with
  | nil => rfl
  | cons e passes ih =>
      obtain ⟨he, hne⟩ := hpasses e List.mem_cons_self
      rw [escapedBy, List.foldl_cons, ← unescape_subst he hne u]
      exact ih (fun e' he' => hpasses e' (List.mem_cons_of_mem e he')) _

theorem AmpsBegin.of_escapedBy (hpasses : ∀ e ∈ passes, e ∈ entities ∧ e.1 ≠ 38)
    (h : AmpsBegin (escapedBy passes u)) : AmpsBegin u := by
  induction passes generalizing u with
  | nil => exact h
  | cons e passes ih =>
      obtain ⟨he, hne⟩ := hpasses e List.mem_cons_self
      refine AmpsBegin.of_subst he hne (ih (fun e' he' => ?_) h)
      exact hpasses e' (List.mem_cons_of_mem e he')

/-- What stands behind the `&` of its entity. -/
def ampTail : Bytes := [97, 109, 112, 59]

theorem amp_eq : ascii "&amp;" = 38 :: ampTail := by decide

theorem ampTail_free : ∀ e ∈ entities, e.1 ∉ ampTail := by decide

theorem amp_not_mem : 38 ∉ ampTail := by decide

theorem unescape_amp : unescape (38 :: ampTail ++ r) = 38 :: unescape r := by
  have h := unescape_entity (e := (38, ascii "&amp;")) (r := r) (by decide)
  rwa [amp_eq] at h

/-- No text is what it stands for with `amp;` before it. -/
theorem ne_repeats_unescape (h : Grown 38 ampTail ms s u) (j : ℕ) :
    s ≠ repeats ampTail (j + 1) ++ unescape u := by
  induction hn : s.length using Nat.strong_induction_on generalizing s u with
  | _ n ih =>
      intro hs
      rw [repeats_succ, List.append_assoc] at hs
      rw [hs] at h
      obtain ⟨u', rfl, hgrown⟩ := h.of_prefix amp_not_mem
      have hrest : repeats ampTail j ++ unescape (ampTail ++ u') =
          repeats ampTail (j + 1) ++ unescape u' := by
        rw [unescape_append amp_not_mem, repeats_succ', List.append_assoc]
      refine ih _ ?_ hgrown rfl hrest
      have hlength : ampTail.length = 4 := rfl
      rw [← hn, hs]
      simp only [List.length_append]
      omega

/-- No text stands for itself with `amp;` before it. -/
theorem unescape_ne_amp (h : Grown 38 ampTail ms s u) : unescape u ≠ ampTail ++ s := by
  induction hn : s.length using Nat.strong_induction_on generalizing s u with
  | _ n ih =>
      intro hu
      obtain ⟨u', rfl, hu'⟩ := append_of_unescape ampTail_free hu
      obtain ⟨s', rfl, hgrown⟩ := h.to_prefix amp_not_mem
      refine ih _ ?_ hgrown rfl hu'
      have hlength : ampTail.length = 4 := rfl
      rw [← hn, List.length_append, hlength]
      omega

/-- A safe text that stands for `s` has every `&` replaced once. -/
theorem grown_once (h : Grown 38 ampTail ms s u) (hamps : AmpsBegin u) (hs : unescape u = s) :
    ∀ m ∈ ms, m = 1 := by
  induction h with
  | nil =>
      intro m hm
      cases hm
  | @other x ms s u hx _ ih =>
      rw [unescape_cons_ne hx] at hs
      refine ih ?_ (List.cons.inj hs).2
      intro a b hab
      exact hamps (x :: a) b (by rw [hab]; rfl)
  | @mark m ms s u hgrown ih =>
      cases m with
      | zero =>
          -- an entity of the text itself is put back
          obtain ⟨e, he, r, hr⟩ := hamps [] (repeats ampTail 0 ++ u) rfl
          rw [← hr, unescape_entity he] at hs
          obtain ⟨hchar, hrest⟩ := List.cons.inj hs
          have hamp : ∀ e ∈ entities, e.1 = 38 → e.2 = 38 :: ampTail := by decide
          rw [hamp e he hchar] at hr
          have hu : u = ampTail ++ r := (List.cons.inj hr).2.symm
          rw [hu] at hgrown
          obtain ⟨s', rfl, hgrown'⟩ := hgrown.to_prefix amp_not_mem
          exact absurd hrest (unescape_ne_amp hgrown')
      | succ m =>
          have htext : 38 :: (repeats ampTail (m + 1) ++ u) =
              38 :: ampTail ++ (repeats ampTail m ++ u) := by
            rw [repeats_succ, List.append_assoc, List.cons_append]
          rw [htext, unescape_amp] at hs
          have hrest := (List.cons.inj hs).2
          cases m with
          | zero =>
              intro n hn
              rcases List.mem_cons.mp hn with rfl | hn
              · rfl
              · refine ih ?_ hrest n hn
                intro a b hab
                refine hamps (38 :: ampTail ++ a) b ?_
                rw [htext, List.append_assoc, ← hab]
                rfl
          | succ m =>
              rw [unescape_append (not_mem_repeats amp_not_mem _)] at hrest
              exact absurd hrest.symm (ne_repeats_unescape hgrown m)

/-- A text in which the passes behind the first left nothing raw. -/
theorem passes_of_xml (h : xml fuel s = some text) (hraw : ∀ c ∈ specials, c ∉ text) :
    ∃ u, replace fuel s [38] (38 :: ampTail) = some u ∧ PassesFit entities.tail u ∧
      text = escapedBy entities.tail u := by
  rw [xml_eq] at h
  obtain ⟨u, hu, hrest⟩ := runPasses_cons.mp h
  obtain ⟨hpasses, hdistinct, hspecials⟩ := tail_facts
  have hfit := passesFit_of_runPasses (fun e he => (hpasses e he).2.2) hdistinct hrest
    (fun e he => hraw e.1 (by rw [← hspecials]; exact List.mem_map_of_mem he))
  rw [amp_eq] at hu
  exact ⟨u, hu, hfit⟩

theorem xmlFits_of_escapes (h : Escapes s) : XmlFits s := by
  obtain ⟨fuel, text, hxml, hraw, hamp, hback⟩ := h
  obtain ⟨u, hu, hfit, rfl⟩ := passes_of_xml hxml hraw
  have hpasses : ∀ e ∈ entities.tail, e ∈ entities ∧ e.1 ≠ 38 :=
    fun e he => ⟨(tail_facts.1 e he).1, (tail_facts.1 e he).2.1⟩
  rw [unescape_escapedBy hpasses] at hback
  rcases grown_of_replace amp_not_mem (by decide) hu with ⟨hfirst, rfl⟩ | ⟨ms, hgrown, m, hm, hne⟩
  · rw [← amp_eq] at hfirst hfit
    exact passesFit_cons.mpr ⟨hfirst, hfit⟩
  · exact absurd (grown_once hgrown (hamp.of_escapedBy hpasses) hback m hm) hne

theorem xml_fits (h : XmlFits s) : ∃ fuel, xml fuel s = some (escapedBy entities s) := by
  obtain ⟨fuel, hrun⟩ := runPasses_fits h
  use fuel
  rw [xml_eq, hrun]

theorem xml_unique {k : ℕ} (h : xml fuel s = some t) (h' : xml k s = some u) : t = u := by
  rw [xml_eq] at h h'
  have ht := runPasses_mono h k
  rw [Nat.add_comm, runPasses_mono h' fuel] at ht
  exact (Option.some.inj ht).symm

theorem escapes_of_xmlFits (h : XmlFits s) : Escapes s := by
  obtain ⟨fuel, hxml⟩ := xml_fits h
  exact ⟨fuel, _, hxml, isEscapeOf_escaped s⟩

/-- Two strings whose offsets fit have different escaped forms. -/
theorem xml_injective {k : ℕ} (hs : XmlFits s) (ht : XmlFits t) (hxml : xml fuel s = some text)
    (hxml' : xml k t = some text) : s = t := by
  obtain ⟨l, hl⟩ := xml_fits hs
  obtain ⟨l', hl'⟩ := xml_fits ht
  have hstext := xml_unique hxml hl
  have httext := xml_unique hxml' hl'
  rw [← unescape_escaped s, ← hstext, httext, unescape_escaped]

/-- `xml` escapes a string safely, and so that it can be put back, exactly where the offsets fit;
no other such string has the same escaped form. -/
theorem xml_escapes_iff (s : Bytes) : (Escapes s ↔ XmlFits s) ∧
    ∀ t fuel k text, XmlFits s → XmlFits t → xml fuel s = some text → xml k t = some text →
      s = t := by
  constructor
  · constructor
    · exact xmlFits_of_escapes
    · exact escapes_of_xmlFits
  · intro t fuel k text hs ht hxml hxml'
    exact xml_injective hs ht hxml hxml'

theorem not_xmlFits {n : ℕ} (hn : i32 (n + 4 : ℕ) < 0) :
    ¬ XmlFits (List.replicate n 97 ++ [60, 60]) := by
  intro h
  have hfit := h [(38, ascii "&amp;")] (60, ascii "&lt;") _ rfl
  have hamp : (38 : UInt8) ∉ List.replicate n 97 ++ [60, 60] := by
    simp [List.mem_replicate]
  have hlt : (60 : UInt8) ∉ List.replicate n 97 := by
    simp [List.mem_replicate]
  have hfirst : escapedBy [(38, ascii "&amp;")] (List.replicate n 97 ++ [60, 60]) =
      List.replicate n 97 ++ 60 :: [60] := subst_of_not_mem hamp
  rw [hfirst] at hfit
  refine (hfit _ _ rfl).1 ?_ List.mem_cons_self
  have hlength : offsetBehind 60 (ascii "&lt;") (List.replicate n 97) = n + 4 := by
    rw [offsetBehind, subst_of_not_mem hlt, List.length_replicate]
    rfl
  rw [hlength]
  exact hn

/-- The second of two `<` stays, if the first one's replacement ends at 2^31. -/
theorem xml_long : ¬ Escapes (List.replicate (2 ^ 31 - 4) 97 ++ [60, 60]) := by
  intro h
  refine not_xmlFits ?_ (xmlFits_of_escapes h)
  decide

end CoreLooper.StringTool
