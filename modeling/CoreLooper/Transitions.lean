import Mathlib

/-!
# Runs of a transition system

A system is a partial step function. `Reachable` collects the states of the runs whose
steps all meet a condition on the state before the step and on the step itself.
-/
namespace CoreLooper.Transitions

variable {σ α : Type*} (step : σ → α → Option σ) (ok : σ → α → Prop) (s₀ : σ)

inductive Reachable : σ → Prop where
  | start : Reachable s₀
  | next {s s' : σ} {a : α} : Reachable s → ok s a → step s a = some s' → Reachable s'

/-- A run of the listed steps. -/
def run (s : σ) (as : List α) : Option σ := as.foldlM step s

/-- Some step leads from one state to the other. -/
def Leads (s s' : σ) : Prop := ∃ a, step s a = some s'

variable {step ok s₀}

/-- What holds at first and is kept by every step holds throughout. -/
theorem Reachable.invariant {I : σ → Prop} {s : σ} (h : Reachable step ok s₀ s) (hinit : I s₀)
    (hstep : ∀ s a s', I s → ok s a → step s a = some s' → I s') : I s := by
  induction h with
  | start => exact hinit
  | next _ hok hs ih => exact hstep _ _ _ ih hok hs

/-- A run of steps that meet the condition in any state. -/
theorem Reachable.of_run_all {as : List α} {s s' : σ} (h : Reachable step ok s₀ s)
    (hok : ∀ a ∈ as, ∀ t, ok t a) (hrun : run step s as = some s') : Reachable step ok s₀ s' := by
  induction as generalizing s with
  | nil =>
      cases hrun
      exact h
  | cons a as ih =>
      obtain ⟨s₁, hs₁, hrest⟩ := Option.bind_eq_some_iff.mp hrun
      exact ih (h.next (hok a List.mem_cons_self s) hs₁)
        (fun b hb => hok b (List.mem_cons_of_mem a hb)) hrest

/-- A run of unconditional steps. -/
theorem Reachable.of_run {as : List α} {s s' : σ}
    (h : Reachable step (fun _ _ => True) s₀ s) (hrun : run step s as = some s') :
    Reachable step (fun _ _ => True) s₀ s' :=
  h.of_run_all (fun _ _ _ => trivial) hrun

/-- A run of steps that meet the condition where they are taken. -/
theorem Reachable.of_run_ok {as : List α} {s : σ}
    (hok : ∀ n t a, run step s₀ (as.take n) = some t → as[n]? = some a → ok t a)
    (hrun : run step s₀ as = some s) : Reachable step ok s₀ s := by
  induction as using List.reverseRecOn generalizing s with
  | nil =>
      cases hrun
      exact .start
  | append_singleton as a ih =>
      rw [run, List.foldlM_append] at hrun
      obtain ⟨t, ht, hlast⟩ := Option.bind_eq_some_iff.mp hrun
      have hstep : step t a = some s := by
        obtain ⟨t', ht', hnil⟩ := Option.bind_eq_some_iff.mp hlast
        rw [ht', Option.some_inj]
        exact Option.some_inj.mp hnil
      have hbefore : Reachable step ok s₀ t := by
        apply ih _ ht
        intro n u b hu hb
        have hn : n < as.length := (List.getElem?_eq_some_iff.mp hb).1
        apply hok n u b
        · rwa [List.take_append_of_le_length hn.le]
        · rwa [List.getElem?_append_left hn]
      apply hbefore.next _ hstep
      apply hok as.length t a
      · rwa [List.take_left]
      · rw [List.getElem?_append_right (Nat.le_refl _), Nat.sub_self]
        rfl

/-- Every step of a run can be taken. -/
theorem step_isSome_of_run {as : List α} {s t : σ} {n : ℕ} {a : α}
    (hrun : (run step s as).isSome) (ht : run step s (as.take n) = some t)
    (ha : as[n]? = some a) : (step t a).isSome := by
  obtain ⟨hn, ha⟩ := List.getElem?_eq_some_iff.mp ha
  have hsplit : as = as.take n ++ a :: as.drop (n + 1) := by
    rw [← ha, List.cons_getElem_drop_succ, List.take_append_drop]
  rw [hsplit, run, List.foldlM_append] at hrun
  obtain ⟨s', hs'⟩ := Option.isSome_iff_exists.mp hrun
  obtain ⟨t', ht', hrest⟩ := Option.bind_eq_some_iff.mp hs'
  rw [run] at ht
  rw [ht, Option.some_inj] at ht'
  subst ht'
  obtain ⟨u, hu, -⟩ := Option.bind_eq_some_iff.mp hrest
  rw [hu]
  rfl

/-- What every step keeps from a state on holds of all later states. -/
theorem Leads.invariant {I : σ → Prop} (hstep : ∀ s a s', I s → step s a = some s' → I s')
    {s s' : σ} (h : Relation.ReflTransGen (Leads step) s s') (hs : I s) : I s' := by
  induction h with
  | refl => exact hs
  | tail _ hlead ih =>
      obtain ⟨a, ha⟩ := hlead
      exact hstep _ a _ ih ha

end CoreLooper.Transitions
