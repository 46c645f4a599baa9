import CoreLooper.CStrings

/-!
# A bounded queue of bytes

Bytes are written at the back and taken off the front. What exceeds the limit is not taken in.
-/
namespace CoreLooper

open CStrings

structure ByteQueue (limit : ℕ) where
  bytes : Bytes
  fits : bytes.length ≤ limit

namespace ByteQueue

variable {limit : ℕ}

@[ext] theorem ext {q q' : ByteQueue limit} (h : q.bytes = q'.bytes) : q = q' := by
  cases q
  cases q'
  simpa using h

instance : DecidableEq (ByteQueue limit) := fun q q' =>
  decidable_of_iff (q.bytes = q'.bytes) ⟨ext, fun h => h ▸ rfl⟩

def clear : ByteQueue limit := ⟨[], Nat.zero_le limit⟩

instance : Inhabited (ByteQueue limit) := ⟨clear⟩

def length (q : ByteQueue limit) : ℕ := q.bytes.length

/-- What fits of the data is taken in. -/
def write (q : ByteQueue limit) (data : Bytes) : ByteQueue limit :=
  ⟨q.bytes ++ data.take (limit - q.length), by
    have := q.fits
    simp only [List.length_append, List.length_take, length]
    omega⟩

def eat (q : ByteQueue limit) (n : ℕ) : ByteQueue limit :=
  ⟨q.bytes.drop n, by
    have := q.fits
    simp only [List.length_drop]
    omega⟩

/-- The bytes come off the end that was written last. -/
def eatBack (q : ByteQueue limit) (n : ℕ) : ByteQueue limit :=
  ⟨q.bytes.take (q.length - n), by
    have := q.fits
    simp only [List.length_take]
    omega⟩

/-- How many more bytes fit. -/
def room (q : ByteQueue limit) : ℕ := limit - q.length

@[simp] theorem clear_bytes : (clear : ByteQueue limit).bytes = [] := rfl
@[simp] theorem length_eq (q : ByteQueue limit) : q.length = q.bytes.length := rfl
@[simp] theorem eat_bytes (q : ByteQueue limit) (n : ℕ) : (q.eat n).bytes = q.bytes.drop n := rfl

theorem write_bytes {q : ByteQueue limit} {data : Bytes}
    (h : q.bytes.length + data.length ≤ limit) :
    (q.write data).bytes = q.bytes ++ data := by
  show q.bytes ++ data.take (limit - q.bytes.length) = q.bytes ++ data
  rw [List.take_of_length_le (by omega)]

end ByteQueue
end CoreLooper
