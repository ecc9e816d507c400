import Mathlib.Tactic.Common

/-!
# Programs that pass a state along and may get stuck

`Prog σ α` is a computation over a state `σ`.  The result `none` stands for a
run that has no defined outcome: the program dereferences a pointer that does
not point to a live object, or indexes an array outside its bounds.  Ordinary
failures are values of the result type, never `none`.
-/

namespace AltFs

def Prog (σ α : Type) : Type := σ → Option (α × σ)

namespace Prog

variable {σ τ α β : Type}

instance : Monad (Prog σ) where
  pure a := fun s => some (a, s)
  bind x f := fun s =>
    match x s with
    | none => none
    | some (a, t) => f a t

/-- The current state. -/
def get : Prog σ σ := fun s => some (s, s)

def modify (f : σ → σ) : Prog σ Unit := fun s => some ((), f s)

/-- Undefined behaviour: no outcome at all. -/
def stuck : Prog σ α := fun _ => none

/-- Go on only when `p` holds; otherwise the program is stuck. -/
def require (p : Prop) [Decidable p] : Prog σ Unit :=
  fun s => if p then some ((), s) else none

def ofOption : Option α → Prog σ α
  | none => stuck
  | some a => pure a

/-- Run a program on one component of the state. -/
def zoom (read : σ → τ) (write : σ → τ → σ) (x : Prog τ α) : Prog σ α :=
  fun s => (x (read s)).map fun r => (r.1, write s r.2)

@[simp] theorem pure_apply (a : α) (s : σ) :
    (pure a : Prog σ α) s = some (a, s) := rfl

@[simp] theorem get_apply (s : σ) : (get : Prog σ σ) s = some (s, s) := rfl

@[simp] theorem modify_apply (f : σ → σ) (s : σ) :
    modify f s = some ((), f s) := rfl

@[simp] theorem stuck_apply (s : σ) : (stuck : Prog σ α) s = none := rfl

theorem require_apply (p : Prop) [Decidable p] (s : σ) :
    require p s = if p then some ((), s) else none := rfl

@[simp] theorem ofOption_none (s : σ) :
    (ofOption none : Prog σ α) s = none := rfl

@[simp] theorem ofOption_some (a : α) (s : σ) :
    (ofOption (some a) : Prog σ α) s = some (a, s) := rfl

theorem bind_apply (x : Prog σ α) (f : α → Prog σ β) (s : σ) :
    (x >>= f) s =
      match x s with
      | none => none
      | some (a, t) => f a t := rfl

theorem bind_of_eq {x : Prog σ α} {f : α → Prog σ β} {s t : σ} {a : α}
    (hx : x s = some (a, t)) : (x >>= f) s = f a t := by
  rw [bind_apply, hx]

@[simp] theorem pure_bind_apply (a : α) (f : α → Prog σ β) (s : σ) :
    ((pure a : Prog σ α) >>= f) s = f a s := rfl

@[simp] theorem get_bind_apply (f : σ → Prog σ β) (s : σ) :
    ((get : Prog σ σ) >>= f) s = f s s := rfl

@[simp] theorem modify_bind_apply (g : σ → σ) (f : Unit → Prog σ β) (s : σ) :
    (modify g >>= f) s = f () (g s) := rfl

@[simp] theorem stuck_bind_apply (f : α → Prog σ β) (s : σ) :
    ((stuck : Prog σ α) >>= f) s = none := rfl

/-- A run of `x >>= f` is a run of `x` followed by a run of `f`. -/
theorem bind_eq_some_iff {x : Prog σ α} {f : α → Prog σ β} {s : σ}
    {r : β × σ} :
    (x >>= f) s = some r ↔
      ∃ a t, x s = some (a, t) ∧ f a t = some r := by
  rw [bind_apply]
  cases hx : x s with
  | none => simp
  | some p =>
      obtain ⟨a, t⟩ := p
      constructor
      · intro h
        exact ⟨a, t, rfl, h⟩
      · rintro ⟨a', t', heq, h⟩
        simp only [Option.some.injEq, Prod.mk.injEq] at heq
        rw [heq.1, heq.2]
        exact h

theorem zoom_eq_some_iff {read : σ → τ} {write : σ → τ → σ} {x : Prog τ α}
    {s : σ} {r : α × σ} :
    zoom read write x s = some r ↔
      ∃ t, x (read s) = some (r.1, t) ∧ write s t = r.2 := by
  obtain ⟨a, s'⟩ := r
  simp only [zoom, Option.map_eq_some_iff, Prod.exists, Prod.mk.injEq]
  constructor
  · rintro ⟨b, t, hrun, rfl, rfl⟩
    exact ⟨t, hrun, rfl⟩
  · rintro ⟨t, hrun, rfl⟩
    exact ⟨a, t, hrun, rfl, rfl⟩

section Defined

variable {x y : Prog σ α} {f : α → Prog σ β}

/-- Every run has an outcome. -/
def Defined (x : Prog σ α) : Prop := ∀ s, ∃ a t, x s = some (a, t)

theorem Defined.pure (a : α) : Defined (Pure.pure a : Prog σ α) := fun s => ⟨a, s, rfl⟩

theorem Defined.get : Defined (Prog.get : Prog σ σ) := fun s => ⟨s, s, rfl⟩

theorem Defined.modify (g : σ → σ) : Defined (Prog.modify g) := fun s => ⟨(), g s, rfl⟩

theorem Defined.bind (hx : Defined x) (hf : ∀ a, Defined (f a)) : Defined (x >>= f) := by
  intro s
  obtain ⟨a, t, hrun⟩ := hx s
  rw [bind_of_eq hrun]
  exact hf a t

theorem Defined.ite {p : Prop} [Decidable p] (hx : Defined x) (hy : Defined y) :
    Defined (if p then x else y) := by
  split
  · exact hx
  · exact hy

end Defined

end Prog

end AltFs
