import Mathlib.Tactic.Common

/-!
# Runs of labelled transition systems

`Run step allowed s t` is a finite run from `s` to `t` each of whose steps is
`allowed` in the state it starts from, `Trace step allowed s labels t` one with
the given labels.
-/

namespace AltFs

variable {σ ℓ : Type}

inductive Run (step : σ → ℓ → σ → Prop) (allowed : σ → ℓ → Prop) (s : σ) : σ → Prop
  | refl : Run step allowed s s
  | tail {t u : σ} (label : ℓ) (run : Run step allowed s t) (hallowed : allowed t label)
      (hstep : step t label u) : Run step allowed s u

/-- A partial step function that goes on only where `check` says so. -/
def guarded (f : σ → ℓ → Option σ) (check : σ → ℓ → Bool) (s : σ) (label : ℓ) : Option σ :=
  if check s label then f s label else none

namespace Run

variable {step : σ → ℓ → σ → Prop} {allowed : σ → ℓ → Prop} {s t u : σ}

/-- What holds at the start and is kept by every allowed step holds at the end. -/
theorem invariant {I : σ → Prop} (hrun : Run step allowed s t) (hstart : I s)
    (hkeep : ∀ s label t, I s → allowed s label → step s label t → I t) : I t := by
  induction hrun with
  | refl => exact hstart
  | tail label _ hallowed hstep ih => exact hkeep _ label _ ih hallowed hstep

theorem trans (h : Run step allowed s t) (h' : Run step allowed t u) : Run step allowed s u := by
  induction h' with
  | refl => exact h
  | tail label _ hallowed hstep ih => exact ih.tail label hallowed hstep

theorem mono {allowed' : σ → ℓ → Prop} (h : Run step allowed s t)
    (himp : ∀ s label, allowed s label → allowed' s label) : Run step allowed' s t := by
  induction h with
  | refl => exact refl
  | tail label _ hallowed hstep ih => exact ih.tail label (himp _ _ hallowed) hstep

theorem single (label : ℓ) (hallowed : allowed s label) (hstep : step s label t) :
    Run step allowed s t :=
  refl.tail label hallowed hstep

/-- A run that is computed with a check for each step. -/
theorem of_checked {I : σ → Prop} {f : σ → ℓ → Option σ} {check : σ → ℓ → Bool} (hstart : I s)
    (hstep : ∀ s label t, f s label = some t → step s label t)
    (hkeep : ∀ s label t, I s → allowed s label → step s label t → I t)
    (hcheck : ∀ s label, I s → check s label = true → allowed s label) {labels : List ℓ}
    (hfold : labels.foldlM (guarded f check) s = some t) :
    Run step allowed s t := by
  induction labels generalizing s with
  | nil =>
      obtain rfl : s = t := Option.some.inj hfold
      exact refl
  | cons label labels ih =>
      rw [List.foldlM_cons, Option.bind_eq_bind, Option.bind_eq_some_iff] at hfold
      obtain ⟨u, hfirst, hrest⟩ := hfold
      rw [guarded, Option.ite_none_right_eq_some] at hfirst
      have hallowed := hcheck s label hstart hfirst.1
      have hrun := hstep s label u hfirst.2
      exact (single label hallowed hrun).trans (ih (hkeep s label u hstart hallowed hrun) hrest)

/-- Folding a partial step function over labels is a run. -/
theorem of_foldlM {f : σ → ℓ → Option σ} (hstep : ∀ s label t, f s label = some t → step s label t)
    {labels : List ℓ} (hfold : labels.foldlM f s = some t) :
    Run step (fun _ _ => True) s t := by
  induction labels generalizing s with
  | nil =>
      obtain rfl : s = t := Option.some.inj hfold
      exact refl
  | cons label labels ih =>
      rw [List.foldlM_cons, Option.bind_eq_bind, Option.bind_eq_some_iff] at hfold
      obtain ⟨u, hfirst, hrest⟩ := hfold
      exact (single label trivial (hstep s label u hfirst)).trans (ih hrest)

end Run

inductive Trace (step : σ → ℓ → σ → Prop) (allowed : σ → ℓ → Prop) : σ → List ℓ → σ → Prop
  | nil (s : σ) : Trace step allowed s [] s
  | cons {s t u : σ} {label : ℓ} {labels : List ℓ} (hallowed : allowed s label)
      (hstep : step s label t) (hrest : Trace step allowed t labels u) :
      Trace step allowed s (label :: labels) u

namespace Trace

variable {τ : Type} {step : σ → ℓ → σ → Prop} {step' : τ → ℓ → τ → Prop}
  {allowed : σ → ℓ → Prop} {R : σ → τ → Prop} {s t u : σ} {a : τ} {labels labels' : List ℓ}

/-- What is kept by every step with a label of the trace is kept. -/
theorem invariant {I : σ → Prop} (htrace : Trace step allowed s labels t) (hstart : I s)
    (hkeep : ∀ s label t, label ∈ labels → I s → allowed s label → step s label t → I t) : I t := by
  induction htrace with
  | nil s => exact hstart
  | cons hallowed hstep _ ih =>
      apply ih (hkeep _ _ _ List.mem_cons_self hstart hallowed hstep)
      intro s label t hmem
      exact hkeep s label t (List.mem_cons_of_mem _ hmem)

theorem append (h : Trace step allowed s labels t) (h' : Trace step allowed t labels' u) :
    Trace step allowed s (labels ++ labels') u := by
  induction h with
  | nil s => exact h'
  | cons hallowed hstep _ ih => exact .cons hallowed hstep (ih h')

theorem of_append (h : Trace step allowed s (labels ++ labels') u) :
    ∃ t, Trace step allowed s labels t ∧ Trace step allowed t labels' u := by
  induction labels generalizing s with
  | nil => exact ⟨s, .nil s, h⟩
  | cons label labels ih =>
      cases h with
      | cons hallowed hstep hrest =>
          obtain ⟨t, hfront, hback⟩ := ih hrest
          exact ⟨t, .cons hallowed hstep hfront, hback⟩

/-- What simulates every allowed step simulates a run, label by label. -/
theorem simulation (htrace : Trace step allowed s labels t) (hstart : R s a)
    (hsim : ∀ s label t a, R s a → allowed s label → step s label t →
      ∃ b, step' a label b ∧ R t b) :
    ∃ b, Trace step' (fun _ _ => True) a labels b ∧ R t b := by
  induction htrace generalizing a with
  | nil s => exact ⟨a, .nil a, hstart⟩
  | cons hallowed hstep _ ih =>
      obtain ⟨b, hstep', hmid⟩ := hsim _ _ _ a hstart hallowed hstep
      obtain ⟨c, hrest, hend⟩ := ih hmid
      exact ⟨c, .cons trivial hstep' hrest, hend⟩

end Trace

end AltFs
