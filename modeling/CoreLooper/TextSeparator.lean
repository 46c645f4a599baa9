import CoreLooper.CStrings

/-!
# Items of a text between delimiters

`TextSeparator::GetNext` without flags, and the loop that calls it until it fails. An item is
empty where two delimiters touch; the text after the last delimiter is an item unless it is
empty.
-/
namespace CoreLooper

open CStrings

structure TextSeparator where
  mBegin : Option Bytes
  mDelimiter : Bytes
  deriving DecidableEq

namespace TextSeparator

/-- The item, or nothing at the end of the text. -/
def getNext (t : TextSeparator) : Option Bytes × TextSeparator :=
  match t.mBegin with
  | none => (none, t)
  | some text =>
      match strstr text t.mDelimiter with
      | none => (if text = [] then none else some text, { t with mBegin := none })
      | some psz =>
          (some (text.take psz), { t with mBegin := some (text.drop (psz + t.mDelimiter.length)) })

/-- The items in turn, until `getNext` fails. -/
def itemsLoop : ℕ → TextSeparator → List Bytes
  | 0, _ => []
  | fuel + 1, t =>
      match t.getNext with
      | (none, _) => []
      | (some sz, t') => sz :: itemsLoop fuel t'

/-- A delimiter is not empty, so that there are at most as many items as bytes, and one. -/
def items (text delimiter : Bytes) : List Bytes :=
  itemsLoop (text.length + 2) ⟨some text, delimiter⟩

variable {d : UInt8} {ds : Bytes}

theorem itemsLoop_ended (fuel : ℕ) (delimiter : Bytes) : itemsLoop fuel ⟨none, delimiter⟩ = [] := by
  cases fuel <;> rfl

theorem itemsLoop_last {text : Bytes} (hne : text ≠ []) (hd : d ∉ text) (fuel : ℕ) :
    itemsLoop (fuel + 1) ⟨some text, d :: ds⟩ = [text] := by
  have hnone : strstr text (d :: ds) = none := by
    have := strstr_skip (h := []) (n := ds) hd
    rwa [List.append_nil] at this
  simp only [itemsLoop, getNext, hnone, if_neg hne, itemsLoop_ended]

theorem itemsLoop_cons {item : Bytes} (hd : d ∉ item) (text : Bytes) (fuel : ℕ) :
    itemsLoop (fuel + 1) ⟨some (item ++ d :: ds ++ text), d :: ds⟩ =
      item :: itemsLoop fuel ⟨some text, d :: ds⟩ := by
  have hfound : strstr (item ++ d :: ds ++ text) (d :: ds) = some item.length := by
    rw [List.append_assoc, strstr_skip hd, strstr_here (List.prefix_append _ _)]
    rfl
  have hdrop : (item ++ d :: ds ++ text).drop (item.length + (d :: ds).length) = text := by
    rw [← List.length_append, List.drop_left]
  have htake : (item ++ d :: ds ++ text).take item.length = item := by
    rw [List.append_assoc, List.take_left]
  simp only [itemsLoop, getNext, hfound, hdrop, htake]

/-- Lines put together with a delimiter between them are found again. -/
theorem itemsLoop_intercalate {lines : List Bytes} (hd : ∀ l ∈ lines, d ∉ l)
    (hne : ∀ l ∈ lines, l ≠ []) {fuel : ℕ} (hfuel : lines.length < fuel) :
    itemsLoop fuel ⟨some (List.intercalate (d :: ds) lines), d :: ds⟩ = lines := by
  induction lines generalizing fuel with
  | nil =>
      obtain ⟨fuel, rfl⟩ := Nat.exists_eq_succ_of_ne_zero (Nat.ne_of_gt hfuel)
      simp [itemsLoop, getNext, List.intercalate, strstr, List.isPrefixOf]
  | cons l lines ih =>
      obtain ⟨fuel, rfl⟩ := Nat.exists_eq_succ_of_ne_zero
        (Nat.ne_of_gt (Nat.lt_of_le_of_lt (Nat.zero_le _) hfuel))
      have hl := hd l List.mem_cons_self
      cases lines with
      | nil =>
          have : List.intercalate (d :: ds) [l] = l := by simp [List.intercalate]
          rw [this]
          exact itemsLoop_last (hne l List.mem_cons_self) hl fuel
      | cons l' lines =>
          have hjoin : List.intercalate (d :: ds) (l :: l' :: lines) =
              l ++ d :: ds ++ List.intercalate (d :: ds) (l' :: lines) := by
            simp [List.intercalate]
          rw [hjoin, Nat.succ_eq_add_one, itemsLoop_cons hl]
          simp only [List.length_cons] at hfuel ih
          rw [ih (fun m hm => hd m (List.mem_cons_of_mem l hm))
            (fun m hm => hne m (List.mem_cons_of_mem l hm)) (by omega)]

/-- Lines with a delimiter behind each, the last one too. -/
theorem itemsLoop_terminated {lines : List Bytes} (hd : ∀ l ∈ lines, d ∉ l) {fuel : ℕ}
    (hfuel : lines.length < fuel) :
    itemsLoop fuel ⟨some (lines.flatMap (· ++ d :: ds)), d :: ds⟩ = lines := by
  induction lines generalizing fuel with
  | nil =>
      obtain ⟨fuel, rfl⟩ := Nat.exists_eq_succ_of_ne_zero (Nat.ne_of_gt hfuel)
      simp [itemsLoop, getNext, strstr, List.isPrefixOf]
  | cons l lines ih =>
      obtain ⟨fuel, rfl⟩ := Nat.exists_eq_succ_of_ne_zero
        (Nat.ne_of_gt (Nat.lt_of_le_of_lt (Nat.zero_le _) hfuel))
      have hl := hd l List.mem_cons_self
      simp only [List.length_cons] at hfuel
      rw [List.flatMap_cons, Nat.succ_eq_add_one, itemsLoop_cons hl,
        ih (fun m hm => hd m (List.mem_cons_of_mem l hm)) (by omega)]

end TextSeparator
end CoreLooper
