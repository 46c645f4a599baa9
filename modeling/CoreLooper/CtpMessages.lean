import CoreLooper.Assignments
import CoreLooper.CtpSegments

/-!
# Messages on the wire

A message is a command, the lines behind it, and a body whose length one of the lines states.
Its text is what `AddCommand` writes. The parser finds the end of the header, the length and the
fields of a message wherever it stands in a text, unless the text in front of it gets in the way.
-/
namespace CoreLooper.CTP
open CStrings

/-- A line `name=value`. -/
structure Field where
  name : Bytes
  value : Bytes
  name_ne : name ≠ []
  name_clean : 0 ∉ name ∧ 13 ∉ name ∧ 61 ∉ name
  value_clean : 0 ∉ value ∧ 13 ∉ value

namespace Field

variable (f : Field)

def line : Bytes := f.name ++ 61 :: f.value

/-- `stristr` finds the name of the length in any case. -/
def isLength : Bool := f.name.map toLower = CTP_CMD_BODY_LENGTH

theorem line_no_cr : 13 ∉ f.line := by simp [line, f.name_clean.2.1, f.value_clean.2]

theorem line_no_null : 0 ∉ f.line := by simp [line, f.name_clean.1, f.value_clean.1]

end Field

/-- The lines, each with its end in front. -/
def tailLines (fs : List Field) : Bytes := fs.flatMap fun f => CRLF ++ f.line

/-- The first line of a message. -/
def commandLine (cmd : Bytes) : Bytes := CTP_CMD ++ 61 :: cmd

theorem fieldLines_fields (fs : List Field) :
    CRLF ++ fieldLines (fs.map fun f => (f.name, f.value)) = tailLines fs ++ CRLF := by
  induction fs with
  | nil => rfl
  | cons f fs ih =>
      have heq : ascii "=" = [61] := by decide
      have hline : fieldLines ((f :: fs).map fun f => (f.name, f.value)) =
          f.line ++ (CRLF ++ fieldLines (fs.map fun f => (f.name, f.value))) := by
        simp [fieldLines, Field.line, cstr_eq_self f.name_clean.1, cstr_eq_self f.value_clean.1,
          heq]
      rw [hline, ih]
      simp [tailLines]

/-- What `AddCommand` writes in front of the body, as lines. -/
theorem commandHeader_lines (cmd : Bytes) (seq : ℤ) (bodyBytes : ℕ) (bundle : Bundle)
    {fs : List Field} (hfields : fs.map (fun f => (f.name, f.value)) = (CTP_CMD_SEQ, decimal seq) ::
      (if bodyBytes > 0 then [(CTP_CMD_BODY_LENGTH, decimal bodyBytes)] else []) ++
        bundle.items) :
    commandHeader CTP_CMD CTP_CMD_SEQ CTP_CMD_BODY_LENGTH cmd seq bodyBytes bundle =
      commandLine cmd ++ tailLines fs ++ (CRLF ++ CRLF) := by
  have heq : ascii "=" = [61] := by decide
  have hseq : cstr CTP_CMD_SEQ = CTP_CMD_SEQ := by decide
  have hbytes : cstr CTP_CMD_BODY_LENGTH = CTP_CMD_BODY_LENGTH := by decide
  have hdecimal : ∀ k, cstr (decimal k) = decimal k := by
    intro k
    apply cstr_eq_self
    intro hmem
    rcases mem_decimal hmem with h45 | hdigit
    · cases h45
    · exact absurd hdigit (by decide)
  have hall : fieldLines (fs.map fun f => (f.name, f.value)) =
      CTP_CMD_SEQ ++ ascii "=" ++ decimal seq ++ CRLF ++
      (if bodyBytes > 0 then
        CTP_CMD_BODY_LENGTH ++ ascii "=" ++ decimal bodyBytes ++ CRLF else []) ++
      fieldLines bundle.items := by
    rw [hfields]
    split_ifs <;> simp [fieldLines, hseq, hbytes, hdecimal]
  calc commandHeader CTP_CMD CTP_CMD_SEQ CTP_CMD_BODY_LENGTH cmd seq bodyBytes bundle
      = commandLine cmd ++ (CRLF ++ fieldLines (fs.map fun f => (f.name, f.value))) ++ CRLF := by
        rw [hall]
        simp [commandHeader, commandLine, heq]
    _ = commandLine cmd ++ tailLines fs ++ (CRLF ++ CRLF) := by
        rw [fieldLines_fields]
        simp

structure Message where
  cmd : Bytes
  fields : List Field
  body : Bytes
  cmd_ne : cmd ≠ []
  cmd_clean : 0 ∉ cmd ∧ 13 ∉ cmd
  fields_ne : ∀ f ∈ fields, f.name ≠ CTP_CMD
  length : match fields.find? Field.isLength with
    | none => body = []
    | some f => (∃ b ∈ f.value, isspace b = false) ∧ atoi f.value = body.length

namespace Message

variable (m : Message)

def cmdLine : Bytes := CTP_CMD ++ 61 :: m.cmd

/-- The header without its end. -/
def header : Bytes := m.cmdLine ++ tailLines m.fields

def head : Bytes := m.header ++ (CRLF ++ CRLF)

def text : Bytes := m.head ++ m.body

/-- The fields, of which one is the command. -/
def bundle : Bundle :=
  m.fields.foldl (fun b f => b.insert f.name f.value) (OrderedMap.empty.insert CTP_CMD m.cmd)

end Message

section
variable {l : Bytes} {c : UInt8}

theorem toLower_cr : toLower c = 13 ↔ c = 13 := by
  have hall : ∀ n < 256, toLower (UInt8.ofNat n) = 13 ↔ UInt8.ofNat n = 13 := by decide +kernel
  have := hall c.toNat c.toNat_lt
  rwa [UInt8.ofNat_toNat] at this

theorem toLower_eq_sign : toLower c = 61 ↔ c = 61 := by
  have hall : ∀ n < 256, toLower (UInt8.ofNat n) = 61 ↔ UInt8.ofNat n = 61 := by decide +kernel
  have := hall c.toNat c.toNat_lt
  rwa [UInt8.ofNat_toNat] at this

theorem lower_no_cr (h : 13 ∉ l) : 13 ∉ l.map toLower := by
  intro hmem
  obtain ⟨c, hc, hlow⟩ := List.mem_map.mp hmem
  rw [toLower_cr.mp hlow] at hc
  exact h hc

theorem lower_no_eq_sign (h : 61 ∉ l) : 61 ∉ l.map toLower := by
  intro hmem
  obtain ⟨c, hc, hlow⟩ := List.mem_map.mp hmem
  rw [toLower_eq_sign.mp hlow] at hc
  exact h hc

end

theorem sign_inj {a b x y : Bytes} (ha : 61 ∉ a) (hb : 61 ∉ b) (h : a ++ 61 :: x = b ++ 61 :: y) :
    a = b := by
  have hall : ∀ {a x : Bytes}, 61 ∉ a → (a ++ 61 :: x).takeWhile (· ≠ 61) = a := by
    intro a x ha
    rw [List.takeWhile_append_of_pos]
    · simp
    · intro c hc
      simp only [decide_eq_true_eq]
      rintro rfl
      exact ha hc
  rw [← hall ha, h, hall hb]

section
variable (fs : List Field) (y : Bytes)

/-- Behind the lines and the end of the header. -/
def behind : Bytes := tailLines fs ++ (CRLF ++ CRLF) ++ y

theorem behind_cons (f : Field) : behind (f :: fs) y = 13 :: 10 :: (f.line ++ behind fs y) := by
  simp [behind, tailLines, CRLF]

theorem behind_starts : ∃ z, behind fs y = CRLF ++ z := by
  cases fs with
  | nil => exact ⟨CRLF ++ y, by simp [behind, tailLines]⟩
  | cons f fs => exact ⟨f.line ++ behind fs y, behind_cons fs y f⟩

theorem strstr_behind : strstr (behind fs y) (CRLF ++ CRLF) = some (tailLines fs).length := by
  induction fs with
  | nil => exact strstr_here ⟨y, rfl⟩
  | cons f fs ih =>
      have hnot : ¬ CRLF ++ CRLF <+: 13 :: 10 :: (f.line ++ behind fs y) := by
        obtain ⟨d, name, hname⟩ := List.exists_cons_of_ne_nil f.name_ne
        have hd : d ≠ 13 := by
          rintro rfl
          exact f.name_clean.2.1 (by rw [hname]; exact List.mem_cons_self)
        simp [CRLF, Field.line, hname, Ne.symm hd]
      have hskip : 13 ∉ 10 :: f.line := by simp [f.line_no_cr]
      have hrest : strstr (10 :: (f.line ++ behind fs y)) (CRLF ++ CRLF) =
          some ((10 :: f.line).length + (tailLines fs).length) := by
        rw [← List.cons_append, show CRLF ++ CRLF = 13 :: [10, 13, 10] from rfl, strstr_skip hskip,
          show 13 :: [10, 13, 10] = CRLF ++ CRLF from rfl, ih]
        rfl
      rw [behind_cons, strstr_next hnot, hrest]
      simp only [Option.map_some, tailLines, List.flatMap_cons, List.length_append,
        List.length_cons, CRLF, List.length_nil]
      congr 1
      omega

/-- What stands behind the name of the first length, to the end. -/
def lengthText : List Field → Option Bytes
  | [] => none
  | f :: fs => if f.isLength then some (f.value ++ behind fs y) else lengthText fs

theorem lengthText_find : match fs.find? Field.isLength with
    | none => lengthText y fs = none
    | some f => ∃ z, lengthText y fs = some (f.value ++ (CRLF ++ z)) := by
  induction fs with
  | nil => rfl
  | cons f fs ih =>
      by_cases hf : f.isLength = true
      · obtain ⟨z, hz⟩ := behind_starts fs y
        rw [List.find?_cons_of_pos hf, lengthText, if_pos hf]
        exact ⟨z, by rw [hz]⟩
      · rw [List.find?_cons_of_neg hf, lengthText, if_neg hf]
        exact ih

theorem lengthText_ends {v : Bytes} (hv : lengthText y fs = some v) :
    ∃ value z, v = value ++ (CRLF ++ z) := by
  have hfind := lengthText_find fs y
  cases hf : fs.find? Field.isLength with
  | none =>
      rw [hf] at hfind
      rw [hfind] at hv
      cases hv
  | some f =>
      rw [hf] at hfind
      obtain ⟨z, hz⟩ := hfind
      rw [hz] at hv
      exact ⟨f.value, z, (Option.some.inj hv).symm⟩

/-- The first length of the lines is found, or none in front of the end of the header. -/
theorem strcasestr_behind : match lengthText y fs with
    | none => ∀ p, strcasestr (behind fs y) CommonTextProtocol.pszKey = some p →
        (tailLines fs).length ≤ p
    | some v => ∃ p, strcasestr (behind fs y) CommonTextProtocol.pszKey = some p ∧
        p < (tailLines fs).length ∧
        (behind fs y).drop (p + CommonTextProtocol.pszKey.length) = v := by
  have hkey : CommonTextProtocol.pszKey.map toLower =
    13 :: 10 :: (CTP_CMD_BODY_LENGTH ++ [61]) := by
    decide
  have hlen : CommonTextProtocol.pszKey.length = 9 := by decide
  induction fs with
  | nil => exact fun p _ => Nat.zero_le p
  | cons f fs ih =>
      have hlower : (behind (f :: fs) y).map toLower =
          13 :: 10 :: (f.line.map toLower ++ (behind fs y).map toLower) := by
        rw [behind_cons, List.map_cons, List.map_cons, List.map_append]
        rfl
      have hline : f.line.map toLower = f.name.map toLower ++ 61 :: f.value.map toLower := by
        rw [Field.line, List.map_append, List.map_cons]
        rfl
      have hlength : (tailLines (f :: fs)).length = 2 + f.line.length + (tailLines fs).length := by
        simp only [tailLines, List.flatMap_cons, List.length_append, CRLF, List.length_cons,
          List.length_nil]
      by_cases hf : f.isLength = true
      · rw [lengthText, if_pos hf]
        have hname : f.name.map toLower = CTP_CMD_BODY_LENGTH := of_decide_eq_true hf
        refine ⟨0, ?_, by rw [hlength]; omega, ?_⟩
        · apply strstr_here
          rw [hkey, hlower, hline, hname]
          exact ⟨f.value.map toLower ++ (behind fs y).map toLower, by simp⟩
        · have hsix : f.name.length = 6 := by
            rw [← List.length_map toLower, hname]
            decide
          have hcut : behind (f :: fs) y = (13 :: 10 :: (f.name ++ [61])) ++
            (f.value ++ behind fs y) := by
            rw [behind_cons, Field.line]
            simp
          have hnine : 0 + CommonTextProtocol.pszKey.length =
              (13 :: 10 :: (f.name ++ [61])).length := by
            rw [hlen, List.length_cons, List.length_cons, List.length_append, hsix]
            rfl
          rw [hcut, hnine, List.drop_left]
      · rw [lengthText, if_neg hf]
        have hnot : ¬ CommonTextProtocol.pszKey.map toLower <+: (behind (f :: fs) y).map
          toLower := by
          rw [hkey, hlower, List.cons_prefix_cons, List.cons_prefix_cons]
          rintro ⟨-, -, w, hw⟩
          apply hf
          have hsame : CTP_CMD_BODY_LENGTH ++ 61 :: w = f.name.map toLower ++
              61 :: (f.value.map toLower ++ (behind fs y).map toLower) := by
            rw [hline] at hw
            simpa using hw
          have hfirst : CTP_CMD_BODY_LENGTH = f.name.map toLower :=
            sign_inj (by decide) (lower_no_eq_sign f.name_clean.2.2) hsame
          exact decide_eq_true hfirst.symm
        have hskip : 13 ∉ 10 :: f.line.map toLower := by
          simp [lower_no_cr f.line_no_cr]
        have hstep : strcasestr (behind (f :: fs) y) CommonTextProtocol.pszKey =
            (strcasestr (behind fs y) CommonTextProtocol.pszKey).map (2 + f.line.length + ·) := by
          rw [hlower, hkey] at hnot
          rw [strcasestr, strcasestr, hlower, hkey, strstr_next hnot, ← List.cons_append,
            strstr_skip hskip, Option.map_map]
          congr 1
          funext k
          simp only [Function.comp, List.length_cons, List.length_map]
          omega
        rw [hstep, hlength]
        cases hfind : lengthText y fs with
        | none =>
            rw [hfind] at ih
            intro p hp
            obtain ⟨q, hq, rfl⟩ := Option.map_eq_some_iff.mp hp
            have := ih q hq
            omega
        | some v =>
            rw [hfind] at ih
            obtain ⟨p, hp, hlt, hdrop⟩ := ih
            refine ⟨2 + f.line.length + p, by rw [hp]; rfl, by omega, ?_⟩
            have hsplit : behind (f :: fs) y = (13 :: 10 :: f.line) ++ behind fs y := by
              rw [behind_cons]
              rfl
            have hadd : 2 + f.line.length + p + CommonTextProtocol.pszKey.length =
                (13 :: 10 :: f.line).length + (p + CommonTextProtocol.pszKey.length) := by
              simp only [List.length_cons]
              omega
            rw [hsplit, hadd, ← List.drop_drop, List.drop_left, hdrop]
end

/-- One item of a header. -/
def addItem (bundle : Bundle) (item : Bytes) : Bundle :=
  if item = [] then bundle
  else match strstr item (ascii "=") with
    | none => bundle.insert item []
    | some pos => bundle.insert (item.take pos) (item.drop (pos + 1))

theorem parseHeaderItems_eq (header : Bytes) :
    parseHeaderItems header = (TextSeparator.items header CRLF).foldl addItem .empty := rfl

theorem addItem_line {name : Bytes} (hname : 61 ∉ name) (value : Bytes) (b : Bundle) :
    addItem b (name ++ 61 :: value) = b.insert name value := by
  have hsign : ascii "=" = [61] := by decide
  have hhere : [61] <+: 61 :: value := ⟨value, rfl⟩
  have hfound : strstr (name ++ 61 :: value) (ascii "=") = some name.length := by
    rw [hsign, strstr_skip hname, strstr_here hhere]
    rfl
  have hdrop : (name ++ 61 :: value).drop (name.length + 1) = value := by
    rw [← List.drop_drop, List.drop_left]
    rfl
  rw [addItem, if_neg (by simp)]
  simp only [hfound, hdrop, List.take_left]

section
variable {cmd noise : Bytes} (fs : List Field) (y : Bytes)

theorem commandLine_no_cr (hcmd : 13 ∉ cmd) : 13 ∉ commandLine cmd := by
  have h13 : 13 ∉ CTP_CMD := by decide
  simp [commandLine, h13, hcmd]

theorem commandLine_starts (cmd : Bytes) :
    ∃ z, commandLine cmd = 95 :: 99 :: 109 :: 100 :: 61 :: z := by
  have hcmd : CTP_CMD = [95, 99, 109, 100] := by decide
  exact ⟨cmd, by rw [commandLine, hcmd]; rfl⟩

theorem tailLines_no_null : 0 ∉ tailLines fs := by
  induction fs with
  | nil => simp [tailLines]
  | cons f fs ih =>
      have hcons : tailLines (f :: fs) = CRLF ++ f.line ++ tailLines fs := rfl
      simp [hcons, ih, f.line_no_null, CRLF]

/-- The first end of a header behind noise is that of the lines. -/
theorem strstr_lines (hcmd : 13 ∉ cmd) (hnoise : ¬ CRLF ++ CRLF <:+: noise) :
    strstr (noise ++ (commandLine cmd ++ behind fs y)) (CRLF ++ CRLF) =
      some (noise.length + ((commandLine cmd).length + (tailLines fs).length)) := by
  obtain ⟨z, hz⟩ := commandLine_starts cmd
  have hover : ∀ i, 0 < i → i < (CRLF ++ CRLF).length →
      ¬ (CRLF ++ CRLF).drop i <+: commandLine cmd ++ behind fs y := by
    intro i hpos hlt
    have hfour : (CRLF ++ CRLF).length = 4 := rfl
    rw [hfour] at hlt
    rw [hz]
    interval_cases i <;> simp [CRLF]
  have hskip : strstr (commandLine cmd ++ behind fs y) (CRLF ++ CRLF) =
      (strstr (behind fs y) (CRLF ++ CRLF)).map ((commandLine cmd).length + ·) :=
    strstr_skip (commandLine_no_cr hcmd)
  rw [strstr_front hnoise hover, hskip, strstr_behind]
  rfl

/-- The length in the lines is found behind noise without one. -/
theorem findHeader_lines (hcmd : 13 ∉ cmd) (hnoise : ¬ CRLF ++ CRLF <:+: noise)
    (hkey : ¬ CommonTextProtocol.pszKey <:+: noise.map toLower) :
    findHeader CommonTextProtocol.pszKey (noise ++ (commandLine cmd ++ behind fs y)) =
      some ⟨noise.length + ((commandLine cmd).length + (tailLines fs).length + 4),
        ((lengthText y fs).map atoi).getD 0⟩ := by
  have hlowkey : CommonTextProtocol.pszKey.map toLower = CommonTextProtocol.pszKey := by
    decide
  have hconst : CommonTextProtocol.pszKey = 13 :: [10, 95, 98, 121, 116, 101, 115, 61] := by
    decide
  obtain ⟨z, hz⟩ := commandLine_starts cmd
  have hlower : (commandLine cmd ++ behind fs y).map toLower =
      (commandLine cmd).map toLower ++ (behind fs y).map toLower := List.map_append
  have hover : ∀ i, 0 < i → i < CommonTextProtocol.pszKey.length →
      ¬ CommonTextProtocol.pszKey.drop i <+:
        (commandLine cmd).map toLower ++ (behind fs y).map toLower := by
    intro i hpos hlt
    have hnine : CommonTextProtocol.pszKey.length = 9 := by decide
    rw [hnine] at hlt
    rw [hz, hconst]
    interval_cases i <;> simp [toLower]
  have hsearch : strcasestr (noise ++ (commandLine cmd ++ behind fs y))
      CommonTextProtocol.pszKey = (strcasestr (behind fs y) CommonTextProtocol.pszKey).map
        (noise.length + (commandLine cmd).length + ·) := by
    have hskip : 13 ∉ (commandLine cmd).map toLower := lower_no_cr (commandLine_no_cr hcmd)
    rw [strcasestr, strcasestr, List.map_append, hlowkey, hlower]
    rw [strstr_front hkey hover]
    rw [hconst, strstr_skip hskip, Option.map_map]
    congr 1
    funext k
    simp only [Function.comp, List.length_map]
    omega
  have htail := strstr_lines fs y hcmd hnoise
  have hfields := strcasestr_behind fs y
  simp only [findHeader, htail, hsearch, Nat.add_assoc, Option.some.injEq, Header.mk.injEq,
    true_and]
  cases hfind : lengthText y fs with
  | none =>
      rw [hfind] at hfields
      cases hp : strcasestr (behind fs y) CommonTextProtocol.pszKey with
      | none => simp
      | some p =>
          have hle := hfields p hp
          simp only [Option.map_some]
          rw [if_neg (by omega)]
          rfl
  | some v =>
      rw [hfind] at hfields
      obtain ⟨p, hp, hlt, hdrop⟩ := hfields
      have hvalue : (noise ++ (commandLine cmd ++ behind fs y)).drop
          (noise.length + ((commandLine cmd).length + p) + CommonTextProtocol.pszKey.length) =
          v := by
        have hsplit : noise ++ (commandLine cmd ++ behind fs y) =
            (noise ++ commandLine cmd) ++ behind fs y := (List.append_assoc _ _ _).symm
        rw [hsplit, ← Nat.add_assoc, Nat.add_assoc _ p, ← List.length_append, ← List.drop_drop,
          List.drop_left, hdrop]
      obtain ⟨value, w, hv⟩ := lengthText_ends fs y hfind
      have hcrlf : (strcasestr v CRLF).isSome := by
        rw [hv, strcasestr, List.map_append]
        apply strstr_isSome (i := (value.map toLower).length)
        rw [List.drop_left, List.map_append]
        exact List.prefix_append _ _
      simp only [hp, Option.map_some, Nat.add_assoc] at hvalue ⊢
      rw [hvalue, if_pos ⟨by omega, hcrlf⟩]
      rfl

/-- A text that ends before the header does has no header. -/
theorem strstr_before {w : Bytes} (hcmd : 13 ∉ cmd) (hnoise : ¬ CRLF ++ CRLF <:+: noise)
    (hw : w <+: noise ++ (commandLine cmd ++ behind fs y))
    (hlt : w.length < noise.length + ((commandLine cmd).length + (tailLines fs).length + 4)) :
    strstr w (CRLF ++ CRLF) = none := by
  cases hfound : strstr w (CRLF ++ CRLF) with
  | none => rfl
  | some p =>
      obtain ⟨x, hx⟩ := hw
      have hmore := strstr_append hfound x
      rw [hx, strstr_lines fs y hcmd hnoise] at hmore
      cases hmore
      have hle := strstr_add_length_le hfound
      have hfour : (CRLF ++ CRLF).length = 4 := rfl
      omega

theorem lines_joined (l : Bytes) :
    l ++ tailLines fs = List.intercalate CRLF (l :: fs.map Field.line) := by
  induction fs generalizing l with
  | nil => simp [tailLines, List.intercalate]
  | cons f fs ih =>
      have hjoin : List.intercalate CRLF (l :: f.line :: fs.map Field.line) =
          l ++ (CRLF ++ List.intercalate CRLF (f.line :: fs.map Field.line)) := by
        simp [List.intercalate]
      rw [List.map_cons, hjoin, ← ih]
      simp [tailLines]

theorem lines_items (hcmd : 13 ∉ cmd) : TextSeparator.items (commandLine cmd ++ tailLines fs) CRLF =
    commandLine cmd :: fs.map Field.line := by
  have hcount : ∀ fs : List Field, fs.length ≤ (tailLines fs).length := by
    intro fs
    induction fs with
    | nil => exact Nat.le_refl _
    | cons f fs ih =>
        simp only [tailLines, List.flatMap_cons, List.length_append, List.length_cons, CRLF] at ih ⊢
        omega
  rw [TextSeparator.items, lines_joined]
  apply TextSeparator.itemsLoop_intercalate
  · intro l hl
    rcases List.mem_cons.mp hl with rfl | hl
    · exact commandLine_no_cr hcmd
    · obtain ⟨f, -, rfl⟩ := List.mem_map.mp hl
      exact f.line_no_cr
  · intro l hl
    rcases List.mem_cons.mp hl with rfl | hl
    · simp [commandLine]
    · obtain ⟨f, -, rfl⟩ := List.mem_map.mp hl
      simp [Field.line]
  · have := hcount fs
    rw [← lines_joined]
    simp only [commandLine, List.length_cons, List.length_map, List.length_append]
    omega

theorem parseHeaderItems_lines (hcmd : 13 ∉ cmd) :
    parseHeaderItems (commandLine cmd ++ tailLines fs) =
      (OrderedMap.empty.insert CTP_CMD cmd).insertAll (fs.map fun f => (f.name, f.value)) := by
  have hlines : ∀ (fs : List Field) (b : Bundle),
      (fs.map Field.line).foldl addItem b = b.insertAll (fs.map fun f => (f.name, f.value)) := by
    intro fs
    induction fs with
    | nil => exact fun b => rfl
    | cons f fs ih =>
        intro b
        rw [List.map_cons, List.foldl_cons, ih, Field.line, addItem_line f.name_clean.2.2]
        rfl
  rw [parseHeaderItems_eq, lines_items fs hcmd, List.foldl_cons, hlines, commandLine,
    addItem_line (by decide)]

end

namespace Message

variable (m : Message) (noise y : Bytes)

theorem cmdLine_starts : ∃ z, m.cmdLine = 95 :: 99 :: 109 :: 100 :: 61 :: z :=
  commandLine_starts m.cmd

theorem head_no_null : 0 ∉ m.head := by
  have h0 : 0 ∉ CTP_CMD := by decide
  simp [head, header, cmdLine, tailLines_no_null, h0, m.cmd_clean.1, CRLF]

theorem head_append : m.head ++ y = m.cmdLine ++ behind m.fields y := by
  simp [head, header, behind]

theorem head_length : m.head.length = m.cmdLine.length + (tailLines m.fields).length + 4 := by
  simp [head, header, CRLF, Nat.add_assoc]

theorem header_length : m.header.length + 4 = m.head.length := by
  rw [head, List.length_append]
  rfl

variable {noise} in
/-- The length in a message is found behind noise without one. -/
theorem findHeader_message (hnoise : ¬ CRLF ++ CRLF <:+: noise)
    (hkey : ¬ CommonTextProtocol.pszKey <:+: noise.map toLower) :
    findHeader CommonTextProtocol.pszKey (noise ++ (m.head ++ y)) =
      some ⟨noise.length + m.head.length, m.body.length⟩ := by
  have hfound := findHeader_lines m.fields y m.cmd_clean.2 hnoise hkey
  have htext := lengthText_find m.fields y
  have hlength := m.length
  rw [m.head_append, m.head_length]
  refine hfound.trans ?_
  congr 2
  cases hfind : m.fields.find? Field.isLength with
  | none =>
      rw [hfind] at htext hlength
      simp only [htext, hlength, Option.map_none, Option.getD_none, List.length_nil,
        Nat.cast_zero]
  | some f =>
      rw [hfind] at htext hlength
      obtain ⟨z, hz⟩ := htext
      simp only [hz, ← hlength.2, Option.map_some, Option.getD_some]
      exact atoi_stop (by decide) hlength.1 (10 :: z)

/-- A text that ends before the header does has no header. -/
theorem strstr_early {w : Bytes} (hnoise : ¬ CRLF ++ CRLF <:+: noise)
    (hw : w <+: noise ++ (m.head ++ y)) (hlt : w.length < noise.length + m.head.length) :
    strstr w (CRLF ++ CRLF) = none := by
  rw [m.head_append] at hw
  rw [m.head_length] at hlt
  exact strstr_before m.fields y m.cmd_clean.2 hnoise hw hlt

theorem bundle_eq : m.bundle = (OrderedMap.empty.insert CTP_CMD m.cmd).insertAll
    (m.fields.map fun f => (f.name, f.value)) := by
  rw [OrderedMap.insertAll, List.foldl_map]
  rfl

theorem parseHeaderItems_header : parseHeaderItems m.header = m.bundle := by
  rw [m.bundle_eq]
  exact parseHeaderItems_lines m.fields m.cmd_clean.2

theorem bundle_cmd : m.bundle.getString CTP_CMD = m.cmd := by
  have hlast : lastValue CTP_CMD (m.fields.map fun f => (f.name, f.value)) = none := by
    rw [lastValue_eq_none_iff]
    intro a ha
    obtain ⟨f, hf, rfl⟩ := List.mem_map.mp ha
    exact m.fields_ne f hf
  rw [Bundle.getString, m.bundle_eq, OrderedMap.find_insertAll, hlast, Option.none_or,
    OrderedMap.find_insert, if_pos rfl]
  rfl

end Message
end CoreLooper.CTP
