import CoreLooper.CStrings

/-!
# The log file and its rotation

`LogFile` appends to one file and starts it anew when it is full. File operations succeed: a
write takes all bytes, and a file that is not there has length 0. The model also keeps what the
file held whenever it was switched, and what it held behind every operation on it; no function
reads these back.
-/
namespace CoreLooper

open CStrings

/-- `file` is the log file and `backup` the one beside it; sizes are those of an `int`. -/
structure LogFile where
  gMaxBytes : ℤ
  gAutoBackup : Bool
  file : Bytes := []
  backup : Option Bytes := none
  switched : List Bytes := []
  seen : List Bytes := []
  deriving DecidableEq, Repr

namespace LogFile

def switchFile (s : LogFile) : LogFile :=
  { s with
    backup := if s.gAutoBackup then some s.file else s.backup
    file := []
    switched := s.switched ++ [s.file]
    seen := s.seen ++ [[]] }

/-- `fwrite` to the file opened with `a+b`. -/
def append (s : LogFile) (data : Bytes) : LogFile :=
  { s with file := s.file ++ data, seen := s.seen ++ [s.file ++ data] }

/-- How many bytes were written. -/
def write (s : LogFile) (data : Bytes) (bytes : ℤ) : ℤ × LogFile :=
  let fileBytes := i32 s.file.length
  let full := fileBytes ≥ s.gMaxBytes
  let s := if full then s.switchFile else s
  let fileBytes := if full then 0 else fileBytes
  let maxWriteBytes := s.gMaxBytes - fileBytes
  let eat := min bytes maxWriteBytes
  if eat > 0 then (eat, s.append (data.take eat.toNat)) else (0, s)

def bytesPerWrite : ℕ := 4 * 1024

/-- The loop of `addLog`; without a result it goes on for ever. -/
def addLogLoop : ℕ → Bytes → LogFile → Option LogFile
  | 0, _, _ => none
  | fuel + 1, data, s =>
      let bytes : ℤ := data.length
      if bytes > 0 then
        let perBytes := min bytes bytesPerWrite
        let written := s.write (data.take perBytes.toNat) perBytes
        if written.1 ≤ 0 then some written.2
        else addLogLoop fuel (data.drop written.1.toNat) written.2
      else some s

/-- The loop needs no more rounds than there are bytes. -/
def addLog (s : LogFile) (data : Bytes) : Option LogFile := addLogLoop (data.length + 1) data s

/-- The calls of `addLog` in turn. -/
def addLogs (s : LogFile) (datas : List Bytes) : Option LogFile := datas.foldlM addLog s

/-- All that went through the log file, and the bound it kept to. -/
structure Keeps (max : ℤ) (logged : Bytes) (s : LogFile) : Prop where
  all : s.switched.flatten ++ s.file = logged
  seen : ∀ content ∈ s.seen, (content.length : ℤ) ≤ max
  file : (s.file.length : ℤ) ≤ max
  gMaxBytes : s.gMaxBytes = max

section
variable {max : ℤ} {s : LogFile} {logged data : Bytes}

theorem Keeps.switchFile (hmax : 1 ≤ max) (h : Keeps max logged s) :
    Keeps max logged s.switchFile := by
  have hempty : (([] : Bytes).length : ℤ) ≤ max := by
    rw [List.length_nil]
    omega
  constructor
  case all =>
    rw [LogFile.switchFile, List.append_nil, List.flatten_append, List.flatten_singleton]
    exact h.all
  case seen =>
    intro content hcontent
    cases List.mem_append.mp hcontent with
    | inl hold => exact h.seen content hold
    | inr hnew =>
        rw [List.mem_singleton.mp hnew]
        exact hempty
  case file => exact hempty
  case gMaxBytes => exact h.gMaxBytes

theorem Keeps.append (h : Keeps max logged s)
    (hfits : (s.file.length : ℤ) + data.length ≤ max) :
    Keeps max (logged ++ data) (s.append data) := by
  have hlength : ((s.file ++ data).length : ℤ) ≤ max := by
    rw [List.length_append]
    push_cast
    exact hfits
  constructor
  case all => rw [LogFile.append, ← List.append_assoc, h.all]
  case seen =>
    intro content hcontent
    cases List.mem_append.mp hcontent with
    | inl hold => exact h.seen content hold
    | inr hnew =>
        rw [List.mem_singleton.mp hnew]
        exact hlength
  case file => exact hlength
  case gMaxBytes => exact h.gMaxBytes

/-- A write takes at least one byte, and puts what it takes behind the rest. -/
theorem Keeps.write (hmax : 1 ≤ max) (hint : max < 2 ^ 31) (h : Keeps max logged s) {bytes : ℤ}
    (hbytes : 0 < bytes) (hdata : bytes = data.length) :
    ∃ (n : ℕ) (s' : LogFile), s.write data bytes = ((n : ℤ), s') ∧ 0 < n ∧ n ≤ data.length ∧
      Keeps max (logged ++ data.take n) s' := by
  have hfile := h.file
  have hlength : i32 s.file.length = s.file.length := i32_eq (by omega) (by omega)
  -- behind a switch the file is empty, and else it has room
  have hroom : ∀ {t : LogFile}, Keeps max logged t → (t.file.length : ℤ) < max →
      ∃ n : ℕ, (n : ℤ) = min bytes (max - t.file.length) ∧ 0 < n ∧ n ≤ data.length ∧
        Keeps max (logged ++ data.take n) (t.append (data.take n)) := by
    intro t ht hlt
    refine ⟨(min bytes (max - t.file.length)).toNat, by omega, by omega, by omega, ?_⟩
    apply ht.append
    rw [List.length_take]
    omega
  unfold LogFile.write
  rw [hlength, h.gMaxBytes]
  dsimp only
  by_cases hfull : (s.file.length : ℤ) ≥ max
  · simp only [if_pos hfull]
    obtain ⟨n, hn, hpos, hle, hkeeps⟩ := hroom (h.switchFile hmax)
      (show (0 : ℤ) < max by omega)
    have hmin : min bytes (s.switchFile.gMaxBytes - 0) = (n : ℤ) := by
      rw [(h.switchFile hmax).gMaxBytes, hn]
      rfl
    rw [hmin, if_pos (by omega)]
    exact ⟨n, _, rfl, hpos, hle, hkeeps⟩
  · simp only [if_neg hfull]
    obtain ⟨n, hn, hpos, hle, hkeeps⟩ := hroom h (by omega)
    rw [h.gMaxBytes, ← hn, if_pos (by omega)]
    exact ⟨n, _, rfl, hpos, hle, hkeeps⟩

/-- The loop ends, and then all bytes went to the file. -/
theorem Keeps.addLogLoop (hmax : 1 ≤ max) (hint : max < 2 ^ 31) {fuel : ℕ}
    (h : Keeps max logged s) (hfuel : data.length < fuel) :
    ∃ s', addLogLoop fuel data s = some s' ∧ Keeps max (logged ++ data) s' := by
  induction fuel generalizing s data logged with
  | zero => omega
  | succ fuel ih =>
      rw [LogFile.addLogLoop]
      dsimp only
      by_cases hmore : (data.length : ℤ) > 0
      · rw [if_pos hmore]
        set perBytes := min (data.length : ℤ) bytesPerWrite with hper
        have hstep : bytesPerWrite = 4096 := rfl
        have hpiece : perBytes = (data.take perBytes.toNat).length := by
          rw [List.length_take]
          omega
        obtain ⟨n, s₁, hwrite, hpos, hle, h₁⟩ := h.write hmax hint (by omega) hpiece
        have htake : (data.take perBytes.toNat).take n = data.take n := by
          rw [List.length_take] at hle
          rw [List.take_take, Nat.min_eq_left (by omega)]
        rw [htake] at h₁
        have hfuel' : (data.drop n).length < fuel := by
          rw [List.length_drop]
          omega
        obtain ⟨s', hloop, h'⟩ := ih h₁ hfuel'
        rw [hwrite]
        dsimp only
        rw [if_neg (by omega), Int.toNat_natCast]
        refine ⟨s', hloop, ?_⟩
        rwa [List.append_assoc, List.take_append_drop] at h'
      · rw [if_neg hmore]
        have hnil : data = [] := List.length_eq_zero_iff.mp (by omega)
        rw [hnil, List.append_nil]
        exact ⟨s, rfl, h⟩

end

/-- Every call ends. What the file held at its switches, and what it holds, is all that was
logged, and the file never grew beyond the maximum. -/
theorem addLogs_keeps {gMaxBytes : ℤ} (hmax : 1 ≤ gMaxBytes) (hint : gMaxBytes < 2 ^ 31)
    (gAutoBackup : Bool) (datas : List Bytes) :
    ∃ s, addLogs { gMaxBytes, gAutoBackup } datas = some s ∧
      s.switched.flatten ++ s.file = datas.flatten ∧
      ∀ content ∈ s.seen, (content.length : ℤ) ≤ gMaxBytes := by
  have hrun : ∀ {s : LogFile} {logged : Bytes}, Keeps gMaxBytes logged s →
      ∃ s', addLogs s datas = some s' ∧ Keeps gMaxBytes (logged ++ datas.flatten) s' := by
    induction datas with
    | nil =>
        intro s logged h
        refine ⟨s, rfl, ?_⟩
        rw [List.flatten_nil, List.append_nil]
        exact h
    | cons data datas ih =>
        intro s logged h
        obtain ⟨s₁, hadd, h₁⟩ := h.addLogLoop hmax hint (Nat.lt_succ_self data.length)
        obtain ⟨s', hrest, h'⟩ := ih h₁
        refine ⟨s', ?_, ?_⟩
        · rw [addLogs, List.foldlM_cons, addLog, hadd]
          exact hrest
        · rwa [List.flatten_cons, ← List.append_assoc]
  have hstart : Keeps gMaxBytes [] { gMaxBytes, gAutoBackup } := by
    refine ⟨rfl, fun content hcontent => absurd hcontent List.not_mem_nil, ?_, rfl⟩
    show ((0 : ℕ) : ℤ) ≤ gMaxBytes
    omega
  obtain ⟨s, hadd, h⟩ := hrun hstart
  exact ⟨s, hadd, h.all, h.seen⟩

/-- Seven bytes go through a file of three. -/
theorem addLogs_keeps_three :
    ∃ s, addLogs { gMaxBytes := 3, gAutoBackup := true } [ascii "abcde", ascii "fg"] = some s ∧
      (s.switched.flatten ++ s.file = ascii "abcdefg" ∧
        ∀ content ∈ s.seen, (content.length : ℤ) ≤ 3) ∧
      s.switched = [ascii "abc", ascii "def"] ∧ s.file = ascii "g" := by
  obtain ⟨s, hadd, hall, hseen⟩ := @addLogs_keeps 3 (by decide) (by decide) true
    [ascii "abcde", ascii "fg"]
  have hvalues : (addLogs { gMaxBytes := 3, gAutoBackup := true } [ascii "abcde", ascii "fg"]).map
      (fun s => (s.switched, s.file)) = some ([ascii "abc", ascii "def"], ascii "g") := by
    decide
  rw [hadd, Option.map_some, Option.some_inj, Prod.mk.injEq] at hvalues
  exact ⟨s, hadd, ⟨hall, hseen⟩, hvalues⟩

end LogFile
end CoreLooper
