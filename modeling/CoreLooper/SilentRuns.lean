import Mathlib

/-!
# Runs that fall silent

The steps of a run write events. Some events are calls, and a call may stop the run: whether the
calls fall silent there depends on the steps that are still taken.
-/
namespace CoreLooper.SilentRuns

/-- A loud step makes one call and writes other events behind it; a quiet one writes nothing. -/
structure Machine (σ ε φ : Type*) where
  step : σ → φ → σ
  events : σ → List ε
  stopped : σ → Bool
  isCall : ε → Prop
  /-- The last of these events is a call that stops the run. -/
  stops : List ε → Prop
  loud : φ → Prop
  inv : σ → Prop
  inv_step : ∀ s f, inv s → inv (step s f)
  step_quiet : ∀ s f, inv s → ¬ loud f →
    events (step s f) = events s ∧ stopped (step s f) = stopped s
  step_loud : ∀ s f, inv s → loud f → ∃ e others, isCall e ∧ (∀ o ∈ others, ¬ isCall o) ∧
    events (step s f) = events s ++ e :: others ∧
      (stopped (step s f) = true ↔ stopped s = true ∨ stops (events s ++ [e]))

namespace Machine

variable {σ ε φ : Type*} (m : Machine σ ε φ)

/-- Behind a call that stops the run there is no other call. -/
def Silent (old new : List ε) : Prop :=
  ∀ p e q, new = p ++ e :: q → m.isCall e → m.stops (old ++ p ++ [e]) → ∀ o ∈ q, ¬ m.isCall o

/-- One of the new calls stops the run. -/
def Stops (old new : List ε) : Prop :=
  ∃ p e q, new = p ++ e :: q ∧ m.isCall e ∧ m.stops (old ++ p ++ [e])

/-- Behind a step that stops the run there are no loud ones. -/
def Calm : List φ → σ → Prop
  | [], _ => True
  | f :: fs, s =>
      if m.stopped (m.step s f) = true then ∀ g ∈ fs, ¬ m.loud g else Calm fs (m.step s f)

variable {m} {s : σ} {f : φ} {fs : List φ} {old new others : List ε} {e : ε}

theorem silent_nil : m.Silent old [] := by
  intro p e q h
  simp at h

theorem not_stops_nil : ¬ m.Stops old [] := by
  rintro ⟨p, e, q, h, -⟩
  simp at h

/-- Where an element of a list with a known beginning can stand. -/
theorem split_cons {p q : List ε} {c : ε} (h : e :: (others ++ new) = p ++ c :: q) :
    (p = [] ∧ c = e ∧ q = others ++ new) ∨ c ∈ others ∨
      ∃ p', p = e :: (others ++ p') ∧ new = p' ++ c :: q := by
  cases p with
  | nil =>
      rw [List.nil_append, List.cons.injEq] at h
      exact Or.inl ⟨rfl, h.1.symm, h.2.symm⟩
  | cons a p =>
      rw [List.cons_append, List.cons.injEq] at h
      obtain ⟨rfl, h⟩ := h
      right
      rcases List.append_eq_append_iff.mp h with ⟨t, hp, hnew⟩ | ⟨t, hothers, hq⟩
      · exact Or.inr ⟨t, by rw [hp], hnew⟩
      · cases t with
        | nil =>
            right
            refine ⟨[], ?_, by simpa using hq.symm⟩
            rw [hothers, List.append_nil, List.append_nil]
        | cons b t =>
            left
            rw [List.cons_append, List.cons.injEq] at hq
            rw [hothers, hq.1]
            simp

/-- A call that does not stop the run, and events that are no calls, leave it to the rest. -/
theorem silent_cons (hothers : ∀ o ∈ others, ¬ m.isCall o) (hgoes : ¬ m.stops (old ++ [e])) :
    m.Silent old (e :: (others ++ new)) ↔ m.Silent (old ++ e :: others) new := by
  have hassoc (p : List ε) (c : ε) :
      old ++ e :: others ++ p ++ [c] = old ++ e :: (others ++ p) ++ [c] := by simp
  constructor
  · intro h p c q hnew hc hstop
    apply h (e :: (others ++ p)) c q
    · rw [hnew]
      simp
    · exact hc
    · rw [← hassoc]
      exact hstop
  · intro h p c q hall hc hstop
    rcases split_cons hall with ⟨rfl, rfl, -⟩ | hmem | ⟨p', rfl, hnew⟩
    · rw [List.append_nil] at hstop
      exact absurd hstop hgoes
    · exact absurd hc (hothers c hmem)
    · apply h p' c q hnew hc
      rw [hassoc]
      exact hstop

theorem stops_cons (hothers : ∀ o ∈ others, ¬ m.isCall o) (hgoes : ¬ m.stops (old ++ [e])) :
    m.Stops old (e :: (others ++ new)) ↔ m.Stops (old ++ e :: others) new := by
  have hassoc (p : List ε) (c : ε) :
      old ++ e :: others ++ p ++ [c] = old ++ e :: (others ++ p) ++ [c] := by simp
  constructor
  · rintro ⟨p, c, q, hall, hc, hstop⟩
    rcases split_cons hall with ⟨rfl, rfl, -⟩ | hmem | ⟨p', rfl, hnew⟩
    · rw [List.append_nil] at hstop
      exact absurd hstop hgoes
    · exact absurd hc (hothers c hmem)
    · refine ⟨p', c, q, hnew, hc, ?_⟩
      rw [hassoc]
      exact hstop
  · rintro ⟨p, c, q, hnew, hc, hstop⟩
    refine ⟨e :: (others ++ p), c, q, ?_, hc, ?_⟩
    · rw [hnew]
      simp
    · rw [← hassoc]
      exact hstop

/-- Behind a call that stops the run everything has to be silent. -/
theorem silent_stop (he : m.isCall e) (hothers : ∀ o ∈ others, ¬ m.isCall o)
    (hstop : m.stops (old ++ [e])) :
    m.Silent old (e :: (others ++ new)) ↔ ∀ o ∈ new, ¬ m.isCall o := by
  constructor
  · intro h o ho
    apply h [] e (others ++ new) rfl he
    · rw [List.append_nil]
      exact hstop
    · exact List.mem_append_right _ ho
  · intro h p c q hall hc _ o ho
    rcases split_cons hall with ⟨rfl, rfl, rfl⟩ | hmem | ⟨p', rfl, hnew⟩
    · rcases List.mem_append.mp ho with ho | ho
      · exact hothers o ho
      · exact h o ho
    · exact absurd hc (hothers c hmem)
    · exact h o (by rw [hnew]; simp [ho])

theorem inv_foldl (hs : m.inv s) (fs : List φ) : m.inv (fs.foldl m.step s) := by
  induction fs generalizing s with
  | nil => exact hs
  | cons f fs ih => exact ih (m.inv_step s f hs)

/-- A stopped run stays stopped, and calls are made by loud steps. -/
theorem foldl_stopped (hs : m.inv s) (hstopped : m.stopped s = true) (fs : List φ) :
    m.stopped (fs.foldl m.step s) = true ∧
      ∃ new, m.events (fs.foldl m.step s) = m.events s ++ new ∧
        ((∀ o ∈ new, ¬ m.isCall o) ↔ ∀ f ∈ fs, ¬ m.loud f) := by
  induction fs generalizing s with
  | nil => exact ⟨hstopped, [], by simp, by simp⟩
  | cons f fs ih =>
      have hinv := m.inv_step s f hs
      by_cases hloud : m.loud f
      · obtain ⟨e, others, he, hothers, hevents, hflag⟩ := m.step_loud s f hs hloud
        obtain ⟨hstop, new, hnew, -⟩ := ih hinv (hflag.mpr (Or.inl hstopped))
        refine ⟨hstop, e :: (others ++ new), ?_, ?_⟩
        · rw [List.foldl_cons, hnew, hevents]
          simp
        · constructor
          · intro h
            exact absurd he (h e List.mem_cons_self)
          · intro h
            exact absurd hloud (h f List.mem_cons_self)
      · obtain ⟨hevents, hflag⟩ := m.step_quiet s f hs hloud
        obtain ⟨hstop, new, hnew, hiff⟩ := ih hinv (hflag.trans hstopped)
        refine ⟨hstop, new, ?_, ?_⟩
        · rw [List.foldl_cons, hnew, hevents]
        · rw [hiff]
          simp [hloud]

/-- The calls of a run fall silent where it stops if and only if no loud step follows. -/
theorem silent_iff_calm (hs : m.inv s) (hgoes : m.stopped s = false) (fs : List φ) :
    ∃ new, m.events (fs.foldl m.step s) = m.events s ++ new ∧
      (m.Silent (m.events s) new ↔ m.Calm fs s) ∧
      (m.stopped (fs.foldl m.step s) = true ↔ m.Stops (m.events s) new) := by
  induction fs generalizing s with
  | nil =>
      refine ⟨[], by simp, iff_of_true silent_nil trivial, ?_⟩
      rw [List.foldl_nil, hgoes]
      simp [not_stops_nil]
  | cons f fs ih =>
      have hinv := m.inv_step s f hs
      by_cases hloud : m.loud f
      · obtain ⟨e, others, he, hothers, hevents, hflag⟩ := m.step_loud s f hs hloud
        rw [hgoes] at hflag
        by_cases hstop : m.stops (m.events s ++ [e])
        · have hset : m.stopped (m.step s f) = true := hflag.mpr (Or.inr hstop)
          obtain ⟨hend, new, hnew, hiff⟩ := foldl_stopped hinv hset fs
          refine ⟨e :: (others ++ new), ?_, ?_, ?_⟩
          · rw [List.foldl_cons, hnew, hevents]
            simp
          · rw [Calm, if_pos hset, silent_stop he hothers hstop, hiff]
          · refine iff_of_true hend ⟨[], e, others ++ new, rfl, he, ?_⟩
            rw [List.append_nil]
            exact hstop
        · have hset : m.stopped (m.step s f) = false := by
            rw [Bool.eq_false_iff]
            intro h
            rcases hflag.mp h with h | h
            · cases h
            · exact hstop h
          obtain ⟨new, hnew, hsilent, hstops⟩ := ih hinv hset
          rw [hevents] at hsilent hstops
          refine ⟨e :: (others ++ new), ?_, ?_, ?_⟩
          · rw [List.foldl_cons, hnew, hevents]
            simp
          · rw [Calm, hset, if_neg Bool.false_ne_true, silent_cons hothers hstop, hsilent]
          · rw [List.foldl_cons, hstops, stops_cons hothers hstop]
      · obtain ⟨hevents, hflag⟩ := m.step_quiet s f hs hloud
        have hset := hflag.trans hgoes
        obtain ⟨new, hnew, hsilent, hstops⟩ := ih hinv hset
        rw [hevents] at hnew hsilent hstops
        refine ⟨new, hnew, ?_, hstops⟩
        rw [Calm, hset, if_neg Bool.false_ne_true, hsilent]

theorem silent_append {later : List ε} (h : ¬ m.Stops old new) :
    m.Silent old (new ++ later) ↔ m.Silent (old ++ new) later := by
  constructor
  · intro hall p e q hlater he hstop
    apply hall (new ++ p) e q (by rw [hlater, List.append_assoc]) he
    rw [← List.append_assoc]
    exact hstop
  · intro hlater p e q hall he hstop
    rcases List.append_eq_append_iff.mp hall with ⟨t, hp, hsplit⟩ | ⟨t, hnew, hsplit⟩
    · apply hlater t e q hsplit he
      rw [hp, ← List.append_assoc] at hstop
      exact hstop
    · cases t with
      | nil =>
          apply hlater [] e q (by simpa using hsplit.symm) he
          rw [List.append_nil] at hnew
          rw [List.append_nil, hnew]
          exact hstop
      | cons c t =>
          rw [List.cons_append, List.cons.injEq] at hsplit
          obtain ⟨rfl, -⟩ := hsplit
          exact absurd ⟨p, e, t, hnew, he, hstop⟩ h

theorem stops_append {later : List ε} (h : ¬ m.Stops old new) :
    m.Stops old (new ++ later) ↔ m.Stops (old ++ new) later := by
  constructor
  · rintro ⟨p, e, q, hall, he, hstop⟩
    rcases List.append_eq_append_iff.mp hall with ⟨t, hp, hsplit⟩ | ⟨t, hnew, hsplit⟩
    · rw [hp, ← List.append_assoc] at hstop
      exact ⟨t, e, q, hsplit, he, hstop⟩
    · cases t with
      | nil =>
          rw [List.append_nil] at hnew
          refine ⟨[], e, q, by simpa using hsplit.symm, he, ?_⟩
          rw [List.append_nil, hnew]
          exact hstop
      | cons c t =>
          rw [List.cons_append, List.cons.injEq] at hsplit
          obtain ⟨rfl, -⟩ := hsplit
          exact absurd ⟨p, e, t, hnew, he, hstop⟩ h
  · rintro ⟨p, e, q, hlater, he, hstop⟩
    refine ⟨new ++ p, e, q, by rw [hlater, List.append_assoc], he, ?_⟩
    rw [← List.append_assoc]
    exact hstop

/-- What the rounds leave alone between them. -/
def Same (m : Machine σ ε φ) (s t : σ) : Prop :=
  m.events s = m.events t ∧ m.stopped s = m.stopped t

/-- A run in rounds that begin at the given states; none begins when the run is stopped. -/
inductive Rounds (m : Machine σ ε φ) (steps : σ → List φ) : σ → List σ → σ → Prop
  | done {s t : σ} : m.Same s t → Rounds m steps s [] t
  | round {s a b t : σ} {later : List σ} : m.stopped s = false → m.Same s a → m.inv a →
      m.Same ((steps a).foldl m.step a) b → Rounds m steps b later t →
      Rounds m steps s (a :: later) t

theorem rounds_silent {steps : σ → List φ} {t : σ} {starts : List σ}
    (h : m.Rounds steps s starts t) (hgoes : m.stopped s = false) :
    ∃ new, m.events t = m.events s ++ new ∧
      (m.Silent (m.events s) new ↔ ∀ a ∈ starts, m.Calm (steps a) a) ∧
      (m.stopped t = true ↔ m.Stops (m.events s) new) := by
  induction h with
  | done hsame =>
      refine ⟨[], by rw [List.append_nil, hsame.1], iff_of_true silent_nil (by simp), ?_⟩
      rw [← hsame.2, hgoes]
      simp [not_stops_nil]
  | @round s a b t later _ hstart hinv hround hrest ih =>
      obtain ⟨new, hnew, hsilent, hstops⟩ :=
        silent_iff_calm hinv (hstart.2 ▸ hgoes) (steps a)
      rw [hround.1, ← hstart.1] at hnew
      rw [← hstart.1] at hsilent hstops
      rw [hround.2] at hstops
      cases hb : m.stopped b with
      | true =>
          -- no other round begins
          cases hrest with
          | done hsame =>
              refine ⟨new, by rw [← hsame.1, hnew], ?_, by rw [← hsame.2, hstops]⟩
              rw [hsilent]
              simp
          | round hgoes' => rw [hb] at hgoes'; cases hgoes'
      | false =>
          obtain ⟨new', hnew', hsilent', hstops'⟩ := ih hb
          have hno : ¬ m.Stops (m.events s) new := by
            rw [← hstops, hb]
            exact Bool.false_ne_true
          have hfirst : m.Silent (m.events s) new := by
            intro p e q hsplit he hstop
            exact absurd ⟨p, e, q, hsplit, he, hstop⟩ hno
          rw [hnew] at hnew' hsilent' hstops'
          refine ⟨new ++ new', by rw [hnew', List.append_assoc], ?_, ?_⟩
          · rw [silent_append hno, hsilent', List.forall_mem_cons]
            exact (and_iff_right (hsilent.mp hfirst)).symm
          · rw [stops_append hno, hstops']

end Machine
end CoreLooper.SilentRuns
