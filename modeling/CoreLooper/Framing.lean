import Mathlib

/-!
# Cutting a stream into frames

A receiver keeps the bytes that came in and are not used up yet, and takes complete frames off
the front. `next` finds the first frame of the buffer and its length. When what follows a
complete frame has no influence on it, and a frame is never empty, the frames found and the
bytes left over do not depend on how the stream was cut into pieces; this also holds for a
buffer that drops what exceeds its capacity.
-/
namespace CoreLooper.Framing

variable {α β : Type*}

/-- A complete frame is not empty, lies in the buffer, and stays as it is when more arrives. -/
structure Stable (next : List α → Option (β × ℕ)) : Prop where
  pos : ∀ {u f k}, next u = some (f, k) → 0 < k
  le : ∀ {u f k}, next u = some (f, k) → k ≤ u.length
  append : ∀ {u f k} (v : List α), next u = some (f, k) → next (u ++ v) = some (f, k)

/-- All complete frames at the front, in order, and the rest. -/
def drain (next : List α → Option (β × ℕ)) : ℕ → List α → List β × List α
  | 0, u => ([], u)
  | fuel + 1, u =>
      match next u with
      | none => ([], u)
      | some (f, k) => ((f :: (drain next fuel (u.drop k)).1), (drain next fuel (u.drop k)).2)

/-- A new piece arrives: what fits is stored and the buffer drained, as often as it takes. A full
buffer drops the rest. -/
def feed (next : List α → Option (β × ℕ)) (cap : ℕ) : ℕ → List α → List α → List β × List α
  | 0, u, _ => ([], u)
  | fuel + 1, u, v =>
      if v = [] ∨ cap ≤ u.length then ([], u)
      else
        let room := cap - u.length
        let d := drain next (u.length + room) (u ++ v.take room)
        let r := feed next cap fuel d.2 (v.drop room)
        (d.1 ++ r.1, r.2)

section
variable {next : List α → Option (β × ℕ)}

/-- Fuel for every element is enough. -/
theorem drain_fuel (hs : Stable next) {fuel : ℕ} {u : List α} (h : u.length ≤ fuel) :
    drain next fuel u = drain next u.length u := by
  induction hn : u.length using Nat.strong_induction_on generalizing fuel u with
  | _ n ih =>
      cases hu : next u with
      | none =>
          cases fuel <;> cases n <;> simp [drain, hu]
      | some fk =>
          obtain ⟨f, k⟩ := fk
          have hpos := hs.pos hu
          have hle := hs.le hu
          obtain ⟨m, rfl⟩ : ∃ m, n = m + 1 := ⟨n - 1, by omega⟩
          obtain ⟨fuel, rfl⟩ : ∃ g, fuel = g + 1 := ⟨fuel - 1, by omega⟩
          have hlen : (u.drop k).length = m + 1 - k := by rw [List.length_drop, hn]
          have h1 := ih (u.drop k).length (by omega) (show (u.drop k).length ≤ fuel by omega) rfl
          have h2 := ih (u.drop k).length (by omega) (show (u.drop k).length ≤ m by omega) rfl
          simp only [drain, hu, h1, h2]

/-- All complete frames of a buffer. -/
def frames (next : List α → Option (β × ℕ)) (u : List α) : List β × List α :=
  drain next u.length u

theorem frames_none {u : List α} (hu : next u = none) : frames next u = ([], u) := by
  unfold frames
  cases u.length <;> simp [drain, hu]

theorem frames_some (hs : Stable next) {u : List α} {f : β} {k : ℕ} (hu : next u = some (f, k)) :
    frames next u = (f :: (frames next (u.drop k)).1, (frames next (u.drop k)).2) := by
  have hpos := hs.pos hu
  have hle := hs.le hu
  obtain ⟨m, hm⟩ : ∃ m, u.length = m + 1 := ⟨u.length - 1, by omega⟩
  have hfuel : drain next m (u.drop k) = frames next (u.drop k) :=
    drain_fuel hs (by rw [List.length_drop]; omega)
  unfold frames at hfuel ⊢
  rw [hm]
  simp only [drain, hu, hfuel]

/-- The rest holds no complete frame. -/
theorem frames_rest (hs : Stable next) (u : List α) : next (frames next u).2 = none := by
  induction hn : u.length using Nat.strong_induction_on generalizing u with
  | _ n ih =>
      cases hu : next u with
      | none => rwa [frames_none hu]
      | some fk =>
          obtain ⟨f, k⟩ := fk
          have hpos := hs.pos hu
          have hle := hs.le hu
          rw [frames_some hs hu]
          exact ih (u.drop k).length (by rw [List.length_drop]; omega) (u.drop k) rfl

theorem frames_length_le (hs : Stable next) (u : List α) :
    (frames next u).2.length ≤ u.length := by
  induction hn : u.length using Nat.strong_induction_on generalizing u with
  | _ n ih =>
      cases hu : next u with
      | none => rw [frames_none hu, hn]
      | some fk =>
          obtain ⟨f, k⟩ := fk
          have hpos := hs.pos hu
          have hle := hs.le hu
          rw [frames_some hs hu]
          have hlt : (u.drop k).length < n := by rw [List.length_drop]; omega
          have := ih _ hlt (u.drop k) rfl
          exact Nat.le_trans this (Nat.le_of_lt hlt)

/-- No byte is lost when the length of a frame can be told from it. -/
theorem frames_size (hs : Stable next) {size : β → ℕ}
    (hsize : ∀ {u f k}, next u = some (f, k) → k = size f) (u : List α) :
    ((frames next u).1.map size).sum + (frames next u).2.length = u.length := by
  induction hn : u.length using Nat.strong_induction_on generalizing u with
  | _ n ih =>
      cases hu : next u with
      | none => simp [frames_none hu, hn]
      | some fk =>
          obtain ⟨f, k⟩ := fk
          have hpos := hs.pos hu
          have hle := hs.le hu
          have hrest := ih (u.drop k).length (by rw [List.length_drop]; omega) (u.drop k) rfl
          rw [List.length_drop] at hrest
          rw [frames_some hs hu]
          dsimp only
          rw [List.map_cons, List.sum_cons, ← hsize hu]
          omega

/-- What arrives later is looked at together with the rest only. -/
theorem frames_append (hs : Stable next) (u v : List α) : frames next (u ++ v) =
    ((frames next u).1 ++ (frames next ((frames next u).2 ++ v)).1,
      (frames next ((frames next u).2 ++ v)).2) := by
  induction hn : u.length using Nat.strong_induction_on generalizing u with
  | _ n ih =>
      cases hu : next u with
      | none => simp [frames_none hu]
      | some fk =>
          obtain ⟨f, k⟩ := fk
          have hpos := hs.pos hu
          have hle := hs.le hu
          rw [frames_some hs hu, frames_some hs (hs.append v hu),
            List.drop_append_of_le_length hle]
          have := ih (u.drop k).length (by rw [List.length_drop]; omega) (u.drop k) rfl
          simp only [this, List.cons_append]

/-- One element arrives. -/
def feedOne (next : List α → Option (β × ℕ)) (cap : ℕ) (s : List β × List α) (a : α) :
    List β × List α :=
  if cap ≤ s.2.length then s
  else (s.1 ++ (frames next (s.2 ++ [a])).1, (frames next (s.2 ++ [a])).2)

theorem feedOne_eq (cap : ℕ) (fs : List β) (u : List α) (a : α) : feedOne next cap (fs, u) a =
    if cap ≤ u.length then (fs, u)
    else (fs ++ (frames next (u ++ [a])).1, (frames next (u ++ [a])).2) := rfl

theorem feedOne_fold_frames (cap : ℕ) (fs : List β) (u v : List α) :
    v.foldl (feedOne next cap) (fs, u) =
      (fs ++ (v.foldl (feedOne next cap) ([], u)).1, (v.foldl (feedOne next cap) ([], u)).2) := by
  induction v generalizing fs u with
  | nil => simp
  | cons a v ih =>
      rw [List.foldl_cons, List.foldl_cons, feedOne_eq, feedOne_eq]
      split_ifs
      · exact ih fs u
      · rw [ih, ih ([] ++ _)]
        simp

/-- Elements that fit arrive one by one with the same effect as together. -/
theorem feedOne_fold (hs : Stable next) {cap : ℕ} {u : List α} (hu : next u = none) (v : List α)
    (hfit : u.length + v.length ≤ cap) :
    v.foldl (feedOne next cap) ([], u) = frames next (u ++ v) := by
  induction v generalizing u with
  | nil => rw [List.append_nil, frames_none hu]; rfl
  | cons a v ih =>
      have hroom : ¬ cap ≤ u.length := by
        simp only [List.length_cons] at hfit
        omega
      have hone : feedOne next cap ([], u) a = frames next (u ++ [a]) := by
        rw [feedOne_eq, if_neg hroom, List.nil_append]
      have hlen := frames_length_le hs (u ++ [a])
      simp only [List.length_append, List.length_singleton] at hlen
      simp only [List.length_cons] at hfit
      rw [List.foldl_cons, hone, show u ++ a :: v = u ++ [a] ++ v by simp,
        frames_append hs (u ++ [a]) v,
        show frames next (u ++ [a]) = ((frames next (u ++ [a])).1, (frames next (u ++ [a])).2)
          from rfl, feedOne_fold_frames, ih (frames_rest hs _) (by omega)]

/-- A full buffer without a complete frame takes nothing more. -/
theorem feedOne_full {cap : ℕ} {u : List α} (hfull : cap ≤ u.length) (v : List α) :
    v.foldl (feedOne next cap) ([], u) = ([], u) := by
  induction v with
  | nil => rfl
  | cons a v ih => rw [List.foldl_cons, feedOne_eq, if_pos hfull, ih]

/-- A piece has the effect of its elements. -/
theorem feed_eq_fold (cap : ℕ) (hs : Stable next) {fuel : ℕ} {u v : List α} (hu : next u = none)
    (hfuel : v.length ≤ fuel) :
    feed next cap fuel u v = v.foldl (feedOne next cap) ([], u) := by
  induction fuel generalizing u v with
  | zero =>
      rw [List.length_eq_zero_iff.mp (Nat.le_zero.mp hfuel)]
      rfl
  | succ fuel ih =>
      simp only [feed]
      split_ifs with hstop
      · rcases hstop with rfl | hfull
        · rfl
        · rw [feedOne_full hfull]
      · obtain ⟨hne, hroom⟩ := not_or.mp hstop
        have htake : (v.take (cap - u.length)).length ≤ cap - u.length := List.length_take_le _ _
        have hdrain : drain next (u.length + (cap - u.length))
            (u ++ v.take (cap - u.length)) = frames next (u ++ v.take (cap - u.length)) := by
          refine drain_fuel hs ?_
          rw [List.length_append]
          omega
        have hpos := List.length_pos_iff.mpr hne
        have hrest : (v.drop (cap - u.length)).length ≤ fuel := by
          rw [List.length_drop]
          omega
        rw [hdrain, ih (frames_rest hs _) hrest, ← feedOne_fold_frames]
        conv_rhs => rw [← List.take_append_drop (cap - u.length) v, List.foldl_append,
          feedOne_fold hs hu _ (by omega)]

end

/-- The pieces of a stream, one after another. -/
def feedAll (next : List α → Option (β × ℕ)) (cap : ℕ) (s : List β × List α) :
    List (List α) → List β × List α
  | [] => s
  | v :: vs =>
      let r := feed next cap v.length s.2 v
      feedAll next cap (s.1 ++ r.1, r.2) vs

/-- What is left after any number of elements holds no complete frame. -/
theorem feedOne_fold_rest {next : List α → Option (β × ℕ)} (hs : Stable next) (cap : ℕ)
    (v : List α) {s : List β × List α} (h : next s.2 = none) :
    next (v.foldl (feedOne next cap) s).2 = none := by
  induction v generalizing s with
  | nil => exact h
  | cons a v ih =>
      refine ih ?_
      unfold feedOne
      split_ifs
      · exact h
      · exact frames_rest hs _

/-- The rests of a stream after each of its frames. -/
inductive Ahead (next : List α → Option (β × ℕ)) (t : List α) : List α → Prop where
  | refl : Ahead next t t
  | frame {u : List α} {f : β} {k : ℕ} : Ahead next t u → next u = some (f, k) →
      Ahead next t (u.drop k)

theorem Ahead.of_drop {next : List α → Option (β × ℕ)} {t u : List α} {f : β} {k : ℕ}
    (ht : next t = some (f, k)) (h : Ahead next (t.drop k) u) : Ahead next t u := by
  induction h with
  | refl => exact .frame .refl ht
  | frame _ hu ih => exact .frame ih hu

theorem Ahead.trans {next : List α → Option (β × ℕ)} {t u v : List α} (h : Ahead next t u)
    (h' : Ahead next u v) : Ahead next t v := by
  induction h' with
  | refl => exact h
  | frame _ hu ih => exact .frame ih hu

/-- Seen from the front: nothing was taken yet, or the first frame was. -/
theorem Ahead.front {next : List α → Option (β × ℕ)} {t u : List α} (h : Ahead next t u) :
    u = t ∨ ∃ f k, next t = some (f, k) ∧ Ahead next (t.drop k) u := by
  induction h with
  | refl => exact Or.inl rfl
  | @frame u f k _ hu ih =>
      rcases ih with rfl | ⟨f', k', ht, hahead⟩
      · exact Or.inr ⟨f, k, hu, .refl⟩
      · exact Or.inr ⟨f', k', ht, .frame hahead hu⟩

theorem Ahead.of_none {next : List α → Option (β × ℕ)} {t u : List α} (h : Ahead next t u)
    (ht : next t = none) : u = t := by
  rcases h.front with rfl | ⟨f, k, hf, -⟩
  · rfl
  · rw [ht] at hf
    cases hf

theorem Ahead.of_some {next : List α → Option (β × ℕ)} {t u : List α} {f : β} {k : ℕ}
    (h : Ahead next t u) (ht : next t = some (f, k)) : u = t ∨ Ahead next (t.drop k) u := by
  rcases h.front with rfl | ⟨f', k', hf, hahead⟩
  · exact Or.inl rfl
  · rw [ht] at hf
    cases hf
    exact Or.inr hahead

/-- Two ways to find frames agree on whatever can be buffered of the stream `t`. -/
def Agree (next next' : List α → Option (β × ℕ)) (t : List α) : Prop :=
  ∀ u, Ahead next' t u → ∀ w, w <+: u → next w = next' w

section
variable {next next' : List α → Option (β × ℕ)}

theorem drain_congr (hs : Stable next') (fuel : ℕ) {u r : List α}
    (h : Agree next next' (u ++ r)) : drain next fuel u = drain next' fuel u ∧
      Agree next next' ((drain next' fuel u).2 ++ r) := by
  induction fuel generalizing u with
  | zero => exact ⟨rfl, h⟩
  | succ fuel ih =>
      have hsame := h _ .refl u (List.prefix_append u r)
      cases hu : next' u with
      | none =>
          simp only [drain, hsame, hu]
          exact ⟨trivial, h⟩
      | some fk =>
          obtain ⟨f, k⟩ := fk
          have hdrop : Agree next next' (u.drop k ++ r) := by
            rw [← List.drop_append_of_le_length (hs.le hu)]
            exact fun t ht => h t (.of_drop (hs.append r hu) ht)
          obtain ⟨h1, h2⟩ := ih hdrop
          simp only [drain, hsame, hu, h1]
          exact ⟨trivial, h2⟩

theorem drain_ahead (hs : Stable next) (fuel : ℕ) (u r : List α) :
    Ahead next (u ++ r) ((drain next fuel u).2 ++ r) := by
  induction fuel generalizing u with
  | zero => exact .refl
  | succ fuel ih =>
      cases hu : next u with
      | none => simp only [drain, hu]; exact .refl
      | some fk =>
          obtain ⟨f, k⟩ := fk
          simp only [drain, hu]
          refine .of_drop (hs.append r hu) ?_
          rw [List.drop_append_of_le_length (hs.le hu)]
          exact ih (u.drop k)

theorem drain_suffix (next : List α → Option (β × ℕ)) (fuel : ℕ) (u : List α) :
    (drain next fuel u).2 <:+ u := by
  induction fuel generalizing u with
  | zero => exact List.suffix_refl u
  | succ fuel ih =>
      cases hu : next u with
      | none => simp only [drain, hu]; exact List.suffix_refl u
      | some fk =>
          simp only [drain, hu]
          exact (ih _).trans (List.drop_suffix fk.2 u)

end

/-- The number of complete frames. -/
def count (next : List α → Option (β × ℕ)) (u : List α) : ℕ := (frames next u).1.length

/-- A piece that does not fit is lost, and so is what was in the buffer. -/
def offer (next : List α → Option (β × ℕ)) (cap : ℕ) (s : List β × List α) (v : List α) :
    List β × List α :=
  if s.2.length + v.length < cap then
    (s.1 ++ (frames next (s.2 ++ v)).1, (frames next (s.2 ++ v)).2)
  else (s.1, [])

/-- Every piece fits when it arrives. -/
def Fits (next : List α → Option (β × ℕ)) (cap : ℕ) (u : List α) : List (List α) → Prop
  | [] => True
  | v :: vs => u.length + v.length < cap ∧ Fits next cap (frames next (u ++ v)).2 vs

/-- Text in front of a frame does not move its end to the back. -/
def Late (next : List α → Option (β × ℕ)) : Prop :=
  ∀ {v f k} (u : List α), next v = some (f, k) →
    ∃ f' k', next (u ++ v) = some (f', k') ∧ k' ≤ u.length + k

/-- All frames of a text are below the capacity. -/
def Short (next : List α → Option (β × ℕ)) (cap : ℕ) (t : List α) : Prop :=
  ∀ {t' f k}, Ahead next t t' → next t' = some (f, k) → k < cap

section
variable {next : List α → Option (β × ℕ)} {cap : ℕ} {u v : List α} {fs : List β}

theorem count_some (hs : Stable next) {f : β} {k : ℕ} (hu : next u = some (f, k)) :
    count next u = count next (u.drop k) + 1 := by
  rw [count, frames_some hs hu, List.length_cons, count]

theorem count_append (hs : Stable next) (u v : List α) :
    count next (u ++ v) = count next u + count next ((frames next u).2 ++ v) := by
  rw [count, frames_append hs u v, List.length_append, count, count]

/-- Losing the front never makes more frames. -/
theorem count_le_append (hs : Stable next) (hl : Late next) (u v : List α) :
    count next v ≤ count next (u ++ v) := by
  induction hn : u.length + v.length using Nat.strong_induction_on generalizing u v with
  | _ n ih =>
      cases hv : next v with
      | none => simp [count, frames_none hv]
      | some fk =>
          obtain ⟨f, k⟩ := fk
          obtain ⟨f', k', hu, hk⟩ := hl u hv
          have hpos := hs.pos hu
          rw [count_some hs hu]
          by_cases hlt : k' ≤ u.length
          · have hdrop : (u ++ v).drop k' = u.drop k' ++ v := List.drop_append_of_le_length hlt
            have hle := ih ((u.drop k').length + v.length)
              (by rw [List.length_drop]; omega) (u.drop k') v rfl
            rw [hdrop]
            omega
          · -- the frame ends inside the later text, and not behind its first frame
            have hdrop : (u ++ v).drop k' =
                (v.drop (k' - u.length)).take (k - (k' - u.length)) ++ v.drop k := by
              have hcut := List.take_append_drop (k - (k' - u.length)) (v.drop (k' - u.length))
              rw [List.drop_drop, show k' - u.length + (k - (k' - u.length)) = k by omega] at hcut
              rw [hcut, List.drop_append, List.drop_eq_nil_of_le (by omega), List.nil_append]
            have hkv := hs.le hv
            have hle := ih _ (by
              rw [List.length_take, List.length_drop, List.length_drop]
              omega) ((v.drop (k' - u.length)).take (k - (k' - u.length))) (v.drop k) rfl
            have hone := count_some hs hv
            rw [hdrop]
            omega

theorem offer_fit (hfit : u.length + v.length < cap) : offer next cap (fs, u) v =
    (fs ++ (frames next (u ++ v)).1, (frames next (u ++ v)).2) := if_pos hfit

theorem offer_lost (hfit : ¬ u.length + v.length < cap) : offer next cap (fs, u) v = (fs, []) :=
  if_neg hfit

theorem offer_fold_frames (fs : List β) (u : List α) (vs : List (List α)) :
    vs.foldl (offer next cap) (fs, u) =
      (fs ++ (vs.foldl (offer next cap) ([], u)).1, (vs.foldl (offer next cap) ([], u)).2) := by
  induction vs generalizing fs u with
  | nil => simp
  | cons v vs ih =>
      have hone : ∀ fs, offer next cap (fs, u) v =
          (fs ++ (offer next cap ([], u) v).1, (offer next cap ([], u) v).2) := by
        intro fs
        by_cases hfit : u.length + v.length < cap
        · simp [offer_fit hfit]
        · simp [offer_lost hfit]
      rw [List.foldl_cons, List.foldl_cons, hone fs, ih, ih (offer next cap ([], u) v).1]
      simp only [List.append_assoc]

theorem offer_count_le (hs : Stable next) (hl : Late next) (fs : List β) (u : List α)
    (vs : List (List α)) :
    (vs.foldl (offer next cap) (fs, u)).1.length ≤ fs.length + count next (u ++ vs.flatten) := by
  induction vs generalizing fs u with
  | nil => simp
  | cons v vs ih =>
      rw [List.foldl_cons, List.flatten_cons, ← List.append_assoc]
      by_cases hfit : u.length + v.length < cap
      · have hle := ih (fs ++ (frames next (u ++ v)).1) (frames next (u ++ v)).2
        rw [List.length_append] at hle
        rw [offer_fit hfit, count_append hs (u ++ v) vs.flatten, count]
        omega
      · have hle := ih fs []
        have hfront := count_le_append hs hl (u ++ v) vs.flatten
        rw [List.nil_append] at hle
        rw [offer_lost hfit]
        exact Nat.le_trans hle (Nat.add_le_add_left hfront _)

theorem offer_of_fits (hs : Stable next) (hu : next u = none) (vs : List (List α))
    (h : Fits next cap u vs) : vs.foldl (offer next cap) (fs, u) =
      (fs ++ (frames next (u ++ vs.flatten)).1, (frames next (u ++ vs.flatten)).2) := by
  induction vs generalizing fs u with
  | nil => simp [frames_none hu]
  | cons v vs ih =>
      obtain ⟨hfit, hrest⟩ := h
      rw [List.foldl_cons, offer_fit hfit, ih (frames_rest hs _) hrest, List.flatten_cons,
        ← List.append_assoc, frames_append hs (u ++ v), List.append_assoc]

theorem Short.append (hs : Stable next) (h : Short next cap (u ++ v)) :
    Short next cap ((frames next u).2 ++ v) := fun hahead hk =>
  h ((drain_ahead hs u.length u v).trans hahead) hk

/-- When every frame is below the capacity, and all of them complete, it takes that every piece
fits to get them all. -/
theorem offer_count_iff (hs : Stable next) (hl : Late next) (fs : List β) (u : List α)
    (vs : List (List α)) (hu : next u = none) (hne : ∀ v ∈ vs, v ≠ [])
    (hshort : Short next cap (u ++ vs.flatten)) (hwhole : (frames next (u ++ vs.flatten)).2 = []) :
    (vs.foldl (offer next cap) (fs, u)).1.length = fs.length + count next (u ++ vs.flatten) ↔
      Fits next cap u vs := by
  induction vs generalizing fs u with
  | nil => simp [Fits, count, frames_none hu]
  | cons v vs ih =>
      have hv : v ≠ [] := hne v List.mem_cons_self
      rw [List.flatten_cons, ← List.append_assoc] at hshort hwhole ⊢
      by_cases hfit : u.length + v.length < cap
      · have hstep := ih (fs ++ (frames next (u ++ v)).1) (frames next (u ++ v)).2
          (frames_rest hs _) (fun w hw => hne w (List.mem_cons_of_mem v hw)) (hshort.append hs)
          (by rw [frames_append hs (u ++ v)] at hwhole; exact hwhole)
        rw [List.length_append, Nat.add_assoc] at hstep
        rw [List.foldl_cons, offer_fit hfit, count_append hs (u ++ v), count, hstep, Fits]
        exact (and_iff_right hfit).symm
      · have hlost : ¬ (vs.foldl (offer next cap) (fs, [])).1.length =
            fs.length + count next (u ++ v ++ vs.flatten) := by
          cases hnext : next (u ++ v ++ vs.flatten) with
          | none =>
              rw [frames_none hnext] at hwhole
              simp [hv] at hwhole
          | some fk =>
              obtain ⟨f, k⟩ := fk
              have hk := hshort .refl hnext
              -- the first frame lies in what is lost
              have hdrop : (u ++ v ++ vs.flatten).drop k = (u ++ v).drop k ++ vs.flatten :=
                List.drop_append_of_le_length (by rw [List.length_append]; omega)
              have hle : (vs.foldl (offer next cap) (fs, [])).1.length ≤
                  fs.length + count next ([] ++ vs.flatten) := offer_count_le hs hl fs [] vs
              have hfront := count_le_append hs hl ((u ++ v).drop k) vs.flatten
              rw [count_some hs hnext, hdrop]
              rw [List.nil_append] at hle
              omega
        rw [List.foldl_cons, offer_lost hfit, Fits]
        exact iff_of_false hlost fun h => hfit h.1

/-- A text that is below the capacity as a whole fits in every way. -/
theorem fits_of_length (hs : Stable next) (u : List α) (vs : List (List α))
    (h : u.length + vs.flatten.length < cap) : Fits next cap u vs := by
  induction vs generalizing u with
  | nil => trivial
  | cons v vs ih =>
      have hle := frames_length_le hs (u ++ v)
      rw [List.length_append] at hle
      rw [List.flatten_cons, List.length_append] at h
      exact ⟨by omega, ih _ (by omega)⟩

/-- The pieces fit together with what the text before them leaves over. -/
theorem fits_iff (hs : Stable next) (u : List α) (hu : next u = none) (vs : List (List α)) :
    Fits next cap u vs ↔ ∀ ws v rest, vs = ws ++ v :: rest →
      (frames next (u ++ ws.flatten)).2.length + v.length < cap := by
  induction vs generalizing u with
  | nil => simp [Fits]
  | cons v vs ih =>
      rw [Fits, ih _ (frames_rest hs _)]
      constructor
      · rintro ⟨hfit, hrest⟩ ws w rest heq
        cases ws with
        | nil =>
            cases heq
            rw [List.flatten_nil, List.append_nil, frames_none hu]
            exact hfit
        | cons w' ws =>
            cases heq
            rw [List.flatten_cons, ← List.append_assoc, frames_append hs]
            exact hrest ws w rest rfl
      · intro h
        constructor
        · have hfirst := h [] v vs rfl
          rwa [List.flatten_nil, List.append_nil, frames_none hu] at hfirst
        · intro ws w rest heq
          have hlater := h (v :: ws) w rest (by rw [heq]; rfl)
          rwa [List.flatten_cons, ← List.append_assoc, frames_append hs] at hlater

end
end CoreLooper.Framing
