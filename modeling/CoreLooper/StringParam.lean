import CoreLooper.Assignments
import CoreLooper.CommonTextProtocol
import CoreLooper.TextLines

/-!
# Field strings

`StringParam`: texts of the form `name1=value1,name2=value2,`. They are read into maps, into a
vector, or in place into an array of the caller; they are written from a map, and two of them
are merged into one. The separator and the sign are C strings.
-/
namespace CoreLooper

open CStrings

namespace TextSeparator

variable {delimiter text : Bytes}

theorem strstr_nil (h : delimiter ≠ []) : strstr [] delimiter = none := by
  simp [strstr, List.isPrefixOf_iff_prefix, h]

theorem itemsLoop_some {psz : ℕ} (h : strstr text delimiter = some psz) (fuel : ℕ) :
    itemsLoop (fuel + 1) ⟨some text, delimiter⟩ = text.take psz ::
      itemsLoop fuel ⟨some (text.drop (psz + delimiter.length)), delimiter⟩ := by
  simp only [itemsLoop, getNext, h]

/-- More rounds than bytes do not matter. -/
theorem itemsLoop_fuel (hd : delimiter ≠ []) {fuel fuel' : ℕ} (h : text.length < fuel)
    (h' : text.length < fuel') :
    itemsLoop fuel ⟨some text, delimiter⟩ = itemsLoop fuel' ⟨some text, delimiter⟩ := by
  induction fuel generalizing fuel' text with
  | zero => omega
  | succ fuel ih =>
      obtain ⟨fuel', rfl⟩ := Nat.exists_eq_succ_of_ne_zero (Nat.ne_of_gt (Nat.zero_lt_of_lt h'))
      cases hpos : strstr text delimiter with
      | none =>
          by_cases htext : text = []
          · simp [itemsLoop, getNext, htext, strstr_nil hd]
          · simp [itemsLoop, getNext, hpos, htext, itemsLoop_ended]
      | some psz =>
          have hle := strstr_add_length_le hpos
          have := List.length_pos_of_ne_nil hd
          rw [itemsLoop_some hpos, itemsLoop_some hpos]
          congr 1
          apply ih
          · rw [List.length_drop]
            omega
          · rw [List.length_drop]
            omega

theorem items_nil (hd : delimiter ≠ []) : items [] delimiter = [] := by
  simp [items, itemsLoop, getNext, strstr_nil hd]

/-- Without a delimiter, a text is one item. -/
theorem items_last (ht : text ≠ []) (h : strstr text delimiter = none) :
    items text delimiter = [text] := by
  simp [items, itemsLoop, getNext, h, ht]

/-- The first item, and those behind its delimiter. -/
theorem items_cut (hd : delimiter ≠ []) {psz : ℕ} (h : strstr text delimiter = some psz) :
    items text delimiter =
      text.take psz :: items (text.drop (psz + delimiter.length)) delimiter := by
  have hle := strstr_add_length_le h
  have := List.length_pos_of_ne_nil hd
  rw [items, itemsLoop_some h, items]
  congr 1
  apply itemsLoop_fuel hd
  · rw [List.length_drop]
    omega
  · omega

end TextSeparator

namespace StringParam

open CTP (BytesLt)
open Ini (trim)

/-- A map of names to values; of an `unordered_map`, what it holds. -/
abbrev Fields := OrderedMap Bytes Bytes BytesLt

/-- The value begins one byte behind the start of the sign, whatever the length of the sign. -/
def nameValue (sign nv : Bytes) : Bytes × Bytes :=
  match strstr nv sign with
  | some pos => (nv.take pos, nv.drop (pos + 1))
  | none => (nv, [])

/-- `StringTool::Trim` of both, with its default character. -/
def trimItem (item : Bytes × Bytes) : Bytes × Bytes := (trim item.1 32, trim item.2 32)

/-- The items in the order of the text. -/
def itemList (items itemSeperator sign : Bytes) : List (Bytes × Bytes) :=
  (TextSeparator.items (cstr items) itemSeperator).map (nameValue sign)

def parseItems (items itemSeperator sign : Bytes) (trim : Bool) : Fields :=
  OrderedMap.empty.insertAll
    (if trim then (itemList items itemSeperator sign).map trimItem
      else itemList items itemSeperator sign)

def parseItemsEx (items itemSeperator sign : Bytes) : Fields :=
  OrderedMap.empty.insertAll (itemList items itemSeperator sign)

def toString (items : Fields) (itemSeperator sign : Bytes) : Bytes :=
  items.items.flatMap fun item => item.1 ++ sign ++ item.2 ++ itemSeperator

structure TagNameValue where
  name : Bytes
  value : Bytes
  deriving DecidableEq, Repr

/-- `ParseItems` into a vector, which always trims. -/
def parseItemsVector (items itemSeperator sign : Bytes) : List TagNameValue :=
  (itemList items itemSeperator sign).map fun item => ⟨(trimItem item).1, (trimItem item).2⟩

/-- The two texts are parsed with the default separator and sign, whatever those of the call. -/
def mergeFields (base newFields itemSeperator sign : Bytes) : Bytes :=
  let items1 := parseItems base [44] [61] false
  let items2 := parseItems newFields [44] [61] false
  let items : Fields := OrderedMap.empty.insertAll (items1.items.filter (·.2 ≠ []))
  let items := items.insertAll items2.items
  items.items.flatMap fun item => cstr item.1 ++ sign ++ cstr item.2 ++ itemSeperator

/-- The array keeps one place free. -/
def pushItems (ackItems : List TagNameValue) (itemCount : ℕ) (name value : Bytes) :
    List TagNameValue :=
  if ackItems.length < itemCount - 1 then ackItems ++ [⟨name, value⟩] else ackItems

/-- One round at `s` in the memory, with a null written where the item ends and another in
place of its sign. -/
def inPlaceLoop (itemCount : ℕ) (sepText : Bytes) :
    ℕ → Bytes → ℕ → List TagNameValue → List TagNameValue
  | 0, _, _, ackItems => ackItems
  | fuel + 1, data, s, ackItems =>
      let text := cstr (data.drop s)
      if text = [] then ackItems
      else
        let last := strstr text sepText
        let data := match last with
          | some e => data.set (s + e) 0
          | none => data
        let sep := strstr (cstr (data.drop s)) [61]
        let data := match sep with
          | some p => data.set (s + p) 0
          | none => data
        let ackItems := match sep with
          | some p =>
              pushItems ackItems itemCount (cstr (data.drop s)) (cstr (data.drop (s + p + 1)))
          | none => ackItems
        match last with
        | none => ackItems
        | some e => inPlaceLoop itemCount sepText fuel data (s + e + 1) ackItems

/-- The items that are put into the array of `itemCount` places. -/
def parseItemsInPlace (data : Bytes) (itemCount : ℕ) (sepText : Bytes) : List TagNameValue :=
  if cstr data = [] ∨ itemCount = 0 ∨ sepText = [] then []
  else inPlaceLoop itemCount sepText ((cstr data).length + 1) data 0 []

end StringParam
end CoreLooper
