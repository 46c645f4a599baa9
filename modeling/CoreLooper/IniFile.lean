import CoreLooper.TextSeparator

/-!
# Ini files

Sections of keys in the order in which they were added, found without regard to case, and the
text they are written to and read from.
-/
namespace CoreLooper.Ini
open CStrings

section Upsert
variable {α β : Type*} [DecidableEq β]

/-- The first entry with the label is changed; without one, a new entry is added and changed. -/
def upsert (label : α → β) (x : β) (new : α) (change : α → α) : List α → List α
  | [] => [change new]
  | a :: as => if label a = x then change a :: as else a :: upsert label x new change as

variable {label : α → β} {x : β} {new : α} {change : α → α}

theorem forall_upsert {P : α → Prop} {l : List α} (hl : ∀ a ∈ l, P a) (hnew : P (change new))
    (hchange : ∀ a, P a → P (change a)) : ∀ a ∈ upsert label x new change l, P a := by
  induction l with
  | nil => simpa [upsert] using hnew
  | cons b l ih =>
      have hb := hl b List.mem_cons_self
      have hrest : ∀ a ∈ l, P a := fun a ha => hl a (List.mem_cons_of_mem b ha)
      intro a ha
      rw [upsert] at ha
      split_ifs at ha
      · rcases List.mem_cons.mp ha with rfl | ha
        · exact hchange b hb
        · exact hrest a ha
      · rcases List.mem_cons.mp ha with rfl | ha
        · exact hb
        · exact ih hrest a ha

/-- The labels stay, up to one that is new. -/
theorem labels_upsert (hnew : label new = x) (hchange : ∀ a, label (change a) = label a)
    (l : List α) : (upsert label x new change l).map label
      = if x ∈ l.map label then l.map label else l.map label ++ [x] := by
  induction l with
  | nil => simp [upsert, hchange, hnew]
  | cons b l ih =>
      by_cases hb : label b = x
      · simp [upsert, hb, hchange]
      · rw [upsert, if_neg hb, List.map_cons, ih, List.map_cons]
        have hmem : x ∈ label b :: l.map label ↔ x ∈ l.map label := by
          simp [Ne.symm hb]
        simp only [hmem]
        split <;> simp

theorem nodup_upsert (hnew : label new = x) (hchange : ∀ a, label (change a) = label a)
    {l : List α} (hl : (l.map label).Nodup) :
    ((upsert label x new change l).map label).Nodup := by
  rw [labels_upsert hnew hchange]
  split_ifs with h
  · exact hl
  · rw [List.nodup_append]
    refine ⟨hl, List.nodup_singleton x, ?_⟩
    intro a ha b hb
    rw [List.mem_singleton.mp hb]
    rintro rfl
    exact h ha

theorem upsert_ne (l : List α) : upsert label x new change l ≠ [] := by
  cases l with
  | nil => simp [upsert]
  | cons a l =>
      rw [upsert]
      split <;> simp

/-- An entry is found under its label when no other has it. -/
theorem find_label {l : List α} (hl : (l.map label).Nodup) {a : α} (ha : a ∈ l) :
    l.find? (fun b => label b = label a) = some a := by
  induction l with
  | nil => cases ha
  | cons b l ih =>
      rw [List.map_cons, List.nodup_cons] at hl
      rcases List.mem_cons.mp ha with rfl | ha
      · simp
      · have hne : label b ≠ label a := by
          intro h
          apply hl.1
          rw [h]
          exact List.mem_map_of_mem ha
        rw [List.find?_cons_of_neg (by simpa using hne)]
        exact ih hl.2 ha

end Upsert

inductive KeyType
  | comment
  | value
deriving DecidableEq

/-- `tagIniKey`. -/
structure IniKey where
  m_nKeyType : KeyType
  m_szKeyName : Bytes
  m_szKeyValue : Bytes
deriving DecidableEq

/-- `tagIniSection`; the name has its brackets, and is empty for the unnamed section. -/
structure IniSection where
  mSectionName : Bytes
  mKeys : List IniKey
deriving DecidableEq

structure IniFile where
  mSections : List IniSection
  mAddBOM : Bool
deriving DecidableEq

/-- Two texts are the same to `StringTool::CompareNoCase` where this is the same. -/
def lower (s : Bytes) : Bytes := s.map toLower

def IniKey.label (k : IniKey) : Bytes := lower k.m_szKeyName

def IniSection.label (s : IniSection) : Bytes := lower s.mSectionName

/-- The name `FindSection` looks for. -/
def sectionName (pszSection : Bytes) : Bytes :=
  if pszSection = [] then [] else 91 :: pszSection ++ [93]

namespace IniFile

def findSection (f : IniFile) (pszSection : Bytes) : Option IniSection :=
  f.mSections.find? fun s => s.label = lower (sectionName pszSection)

def findKey (f : IniFile) (pszSection pszKey : Bytes) : Option IniKey := do
  let ps ← f.findSection pszSection
  ps.mKeys.find? fun k => k.label = lower pszKey

def getString (f : IniFile) (pszSection pszKey pszDefault : Bytes) : Bytes :=
  match f.findKey pszSection pszKey with
  | none => pszDefault
  | some pk => pk.m_szKeyValue

def getInt (f : IniFile) (pszSection pszKey : Bytes) (nDefaultValue : ℤ) : ℤ :=
  let value := f.getString pszSection pszKey []
  if value ≠ [] then atoi value else nDefaultValue

end IniFile

/-- A key becomes one with a value when the value changes: a new key that is set to the empty text
stays what it was made as, a comment. -/
def IniKey.assign (pszValue : Bytes) (pk : IniKey) : IniKey :=
  if pk.m_szKeyValue ≠ pszValue then { pk with m_szKeyValue := pszValue, m_nKeyType := .value }
  else pk

def IniSection.set (pszName pszValue : Bytes) (ps : IniSection) : IniSection :=
  { ps with
    mKeys := upsert IniKey.label (lower pszName) ⟨.comment, pszName, []⟩ (IniKey.assign pszValue)
      ps.mKeys }

def IniFile.setString (f : IniFile) (pszSection pszName pszValue : Bytes) : IniFile :=
  { f with
    mSections := upsert IniSection.label (lower (sectionName pszSection))
      ⟨sectionName pszSection, []⟩ (IniSection.set pszName pszValue) f.mSections }

def IniFile.setInt (f : IniFile) (pszSection pszName : Bytes) (value : ℤ) : IniFile :=
  f.setString pszSection pszName (decimal value)

def IniKey.line (k : IniKey) : Bytes :=
  match k.m_nKeyType with
  | .comment => k.m_szKeyName
  | .value => k.m_szKeyName ++ 61 :: k.m_szKeyValue

def bom : Bytes := [0xEF, 0xBB, 0xBF]

def IniSection.text (s : IniSection) : Bytes :=
  (if s.mSectionName ≠ [] then s.mSectionName ++ [10] else []) ++
    s.mKeys.flatMap fun k => k.line ++ [10]

def IniFile.dump (f : IniFile) : Bytes :=
  let content := f.mSections.flatMap IniSection.text
  if content ≠ [] ∧ f.mAddBOM then bom ++ content else content

/-- `StringTool::Trim`: a text of nothing else is left as it is. -/
def trim (s : Bytes) (ch : UInt8) : Bytes :=
  if ∀ c ∈ s, c = ch then s else (s.dropWhile (· = ch)).rdropWhile (· = ch)

def isSectionLine (line : Bytes) : Prop :=
  2 < line.length ∧ line.head? = some 91 ∧ line.getLast? = some 93

instance (line : Bytes) : Decidable (isSectionLine line) := by unfold isSectionLine; infer_instance

/-- A line without `=`, or one that begins with `#` or `;`, is kept as a comment. -/
def readKey (line : Bytes) : IniKey :=
  if 61 ∉ line ∨ line.head? = some 35 ∨ line.head? = some 59 then ⟨.comment, line, []⟩
  else ⟨.value, line.takeWhile (· ≠ 61), (line.dropWhile (· ≠ 61)).tail⟩

/-- The sections that are complete, and the current one. -/
abbrev Loading := List IniSection × Option IniSection

def loadLine (s : Loading) (line : Bytes) : Loading :=
  if isSectionLine line then (s.1 ++ s.2.toList, some ⟨line, []⟩)
  else
    let currentSection := s.2.getD ⟨[], []⟩
    (s.1, some { currentSection with mKeys := currentSection.mKeys ++ [readKey line] })

def IniFile.load (f : IniFile) (box : Bytes) : IniFile :=
  if box = [] then { f with mSections := [] }
  else
    let sz := if bom <+: box then box.drop 3 else box
    let lines := (TextSeparator.items (cstr sz) [10]).map (trim · 13)
    let s := lines.foldl loadLine ([], none)
    { f with mSections := s.1 ++ s.2.toList }

/-- A text without line ends and nulls. -/
def Clean (s : Bytes) : Prop := (10 : UInt8) ∉ s ∧ (13 : UInt8) ∉ s ∧ (0 : UInt8) ∉ s

/-- The calls, with the texts they are meant for. -/
inductive Call
  | setString (section_ key value : Bytes)
  | setInt (section_ key : Bytes) (value : ℤ)

def Call.Ok : Call → Prop
  | setString section_ key value => Clean section_ ∧ Clean key ∧ key ≠ [] ∧ 61 ∉ key ∧ Clean value
  | setInt section_ key _ => Clean section_ ∧ Clean key ∧ key ≠ [] ∧ 61 ∉ key

def IniFile.call (f : IniFile) : Call → IniFile
  | .setString section_ key value => f.setString section_ key value
  | .setInt section_ key value => f.setInt section_ key value

/-- An empty object after the calls. -/
def built (mAddBOM : Bool) (calls : List Call) : IniFile :=
  calls.foldl IniFile.call ⟨[], mAddBOM⟩

structure IniKey.Ok (k : IniKey) : Prop where
  name_ne : k.m_szKeyName ≠ []
  name_clean : Clean k.m_szKeyName
  no_equals : 61 ∉ k.m_szKeyName
  value_clean : Clean k.m_szKeyValue
  comment_empty : k.m_nKeyType = .comment → k.m_szKeyValue = []

structure IniSection.Ok (s : IniSection) : Prop where
  named : ∃ pszSection, Clean pszSection ∧ s.mSectionName = sectionName pszSection
  keys_ne : s.mKeys ≠ []
  keys_ok : ∀ k ∈ s.mKeys, k.Ok
  keys_differ : (s.mKeys.map IniKey.label).Nodup

structure IniFile.Ok (f : IniFile) : Prop where
  sections_ok : ∀ s ∈ f.mSections, s.Ok
  sections_differ : (f.mSections.map IniSection.label).Nodup

theorem IniKey.Ok.assign {k : IniKey} (hk : k.Ok) {v : Bytes} (hv : Clean v) :
    (k.assign v).Ok := by
  unfold IniKey.assign
  split
  · exact ⟨hk.name_ne, hk.name_clean, hk.no_equals, hv, nofun⟩
  · exact hk

theorem label_assign (v : Bytes) (k : IniKey) : (k.assign v).label = k.label := by
  unfold IniKey.assign
  split <;> rfl

theorem clean_decimal (n : ℤ) : Clean (decimal n) := by
  refine ⟨?_, ?_, ?_⟩ <;>
  · intro hc
    rcases mem_decimal hc with h | h
    · revert h
      decide
    · revert h
      decide

theorem IniFile.Ok.setString {f : IniFile} (hf : f.Ok) {section_ key value : Bytes}
    (hsection : Clean section_) (hkey : Clean key) (hne : key ≠ []) (heq : 61 ∉ key)
    (hvalue : Clean value) : (f.setString section_ key value).Ok := by
  have hnew : (IniKey.assign value ⟨.comment, key, []⟩).Ok :=
    IniKey.Ok.assign ⟨hne, hkey, heq, by simp [Clean], fun _ => rfl⟩ hvalue
  have hset (s : IniSection)
      (hnamed : ∃ pszSection, Clean pszSection ∧ s.mSectionName = sectionName pszSection)
      (hkeys : ∀ k ∈ s.mKeys, k.Ok) (hdiffer : (s.mKeys.map IniKey.label).Nodup) :
        (s.set key value).Ok := by
    refine ⟨hnamed, upsert_ne _, ?_, ?_⟩
    · exact forall_upsert hkeys hnew fun k hk => hk.assign hvalue
    · apply nodup_upsert
      · rfl
      · exact label_assign value
      · exact hdiffer
  refine ⟨?_, ?_⟩
  · apply forall_upsert hf.sections_ok
    · exact hset _ ⟨section_, hsection, rfl⟩ (by simp) (by simp)
    · intro s hs
      exact hset s hs.named hs.keys_ok hs.keys_differ
  · apply nodup_upsert
    · rfl
    · intro s
      rfl
    · exact hf.sections_differ

theorem IniFile.Ok.call {f : IniFile} (hf : f.Ok) {c : Call} (hc : c.Ok) : (f.call c).Ok := by
  cases c with
  | setString section_ key value =>
      obtain ⟨hsection, hkey, hne, heq, hvalue⟩ := hc
      exact hf.setString hsection hkey hne heq hvalue
  | setInt section_ key value =>
      obtain ⟨hsection, hkey, hne, heq⟩ := hc
      exact hf.setString hsection hkey hne heq (clean_decimal value)

theorem built_ok (mAddBOM : Bool) {calls : List Call} (h : ∀ c ∈ calls, c.Ok) :
    (built mAddBOM calls).Ok := by
  have hrun : ∀ f : IniFile, f.Ok → (calls.foldl IniFile.call f).Ok := by
    induction calls with
    | nil => exact fun f hf => hf
    | cons c calls ih =>
        intro f hf
        exact ih (fun d hd => h d (List.mem_cons_of_mem c hd)) _ (hf.call (h c List.mem_cons_self))
  exact hrun _ ⟨by simp, by simp⟩

end CoreLooper.Ini
