import AltFs.Lib.Prog
import Mathlib.Order.Defs.Unbundled

/-!
# Programs whose runs stay within a relation

`Within R x` says that every run of `x` that ends relates its first and its
last state by `R`.  For a preorder the property passes from the parts of a
program to the whole, whatever the values handed on.
-/

namespace AltFs

namespace Prog

variable {σ τ α β : Type} {R : σ → σ → Prop}

def Within (R : σ → σ → Prop) (x : Prog σ α) : Prop :=
  ∀ s a t, x s = some (a, t) → R s t

namespace Within

theorem stuck : Within R (Prog.stuck : Prog σ α) := by
  intro s a t h
  cases h

theorem modify {f : σ → σ} (h : ∀ s, R s (f s)) : Within R (Prog.modify f) := by
  intro s a t hrun
  cases hrun
  exact h s

theorem ite {c : Prop} [Decidable c] {x y : Prog σ α} (hx : Within R x) (hy : Within R y) :
    Within R (if c then x else y) := by
  split
  · exact hx
  · exact hy

theorem zoom {Q : τ → τ → Prop} {read : σ → τ} {write : σ → τ → σ} {x : Prog τ α}
    (hx : Within Q x) (h : ∀ s t, Q (read s) t → R s (write s t)) :
    Within R (Prog.zoom read write x) := by
  intro s a t hrun
  obtain ⟨u, hread, rfl⟩ := zoom_eq_some_iff.mp hrun
  exact h s u (hx _ _ _ hread)

theorem mono {Q : σ → σ → Prop} {x : Prog σ α} (hx : Within R x) (h : ∀ s t, R s t → Q s t) :
    Within Q x :=
  fun s a t hrun => h s t (hx s a t hrun)

variable [IsPreorder σ R]

theorem pure (a : α) : Within R (Pure.pure a : Prog σ α) := by
  intro s b t h
  cases h
  exact refl_of R s

theorem get : Within R (Prog.get : Prog σ σ) := by
  intro s a t h
  cases h
  exact refl_of R s

theorem ofOption (o : Option α) : Within R (Prog.ofOption o : Prog σ α) := by
  cases o with
  | none => exact stuck
  | some a => exact pure a

theorem require (p : Prop) [Decidable p] : Within R (Prog.require p : Prog σ Unit) := by
  intro s a t h
  rw [require_apply] at h
  split at h
  · cases h
    exact refl_of R s
  · cases h

theorem bind {x : Prog σ α} {f : α → Prog σ β} (hx : Within R x) (hf : ∀ a, Within R (f a)) :
    Within R (x >>= f) := by
  intro s b u hrun
  obtain ⟨a, t, hfirst, hrest⟩ := bind_eq_some_iff.mp hrun
  exact trans_of R (hx s a t hfirst) (hf a t b u hrest)

end Within

end Prog

end AltFs
