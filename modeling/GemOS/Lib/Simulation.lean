import GemOS.Lib.Run

/-!
# Simulation of computations

The same program may run over two implementations of an interface. `Simulates P x y` says of a
computation `x` over one of them, and `y` over the other one: whenever `x` returns, `y` returns, and
the results are related. The rules follow the structure of a program. With `Same R`, which asks for
equal results and for states related by `R`, they say that a program cannot tell the
implementations apart when its calls cannot; `Simulates.run` is the rule for runs.
-/

namespace GemOS

universe u v

section Computations

variable {α γ : Type u} {β δ : Type v} {P P' : α → β → Prop} {Q : γ → δ → Prop}

/-- Whenever `x` returns, `y` returns a related result. -/
def Simulates (P : α → β → Prop) (x : Option α) (y : Option β) : Prop :=
  ∀ a, x = some a → ∃ b, y = some b ∧ P a b

namespace Simulates

/-- A computation that does not return is simulated by any. -/
theorem none {y : Option β} : Simulates P none y := fun _ h => absurd h (by simp)

theorem some {a : α} {b : β} (h : P a b) : Simulates P (some a) (some b) := fun _ ha =>
  ⟨b, rfl, Option.some.inj ha ▸ h⟩

/-- Results one after the other. -/
theorem bind {x : Option α} {y : Option β} {f : α → Option γ} {g : β → Option δ}
    (h : Simulates P x y) (hnext : ∀ a b, P a b → Simulates Q (f a) (g b)) :
    Simulates Q (x >>= f) (y >>= g) := by
  intro c hc
  obtain ⟨a, ha, hf⟩ := Option.bind_eq_some_iff.mp hc
  obtain ⟨b, rfl, hab⟩ := h a ha
  exact hnext a b hab c hf

theorem map {x : Option α} {y : Option β} {f : α → γ} {g : β → δ} (h : Simulates P x y)
    (hnext : ∀ a b, P a b → Q (f a) (g b)) : Simulates Q (x.map f) (y.map g) := by
  intro c hc
  obtain ⟨a, ha, rfl⟩ := Option.map_eq_some_iff.mp hc
  obtain ⟨b, rfl, hab⟩ := h a ha
  exact ⟨g b, rfl, hnext a b hab⟩

/-- A loop over a list. -/
theorem foldlM {ι : Type*} {f : α → ι → Option α} {g : β → ι → Option β} {is : List ι} {a : α}
    {b : β} (hstep : ∀ a b i, P a b → Simulates P (f a i) (g b i)) (h : P a b) :
    Simulates P (is.foldlM f a) (is.foldlM g b) := by
  induction is generalizing a b with
  | nil => exact some h
  | cons i is ih =>
    rw [List.foldlM_cons, List.foldlM_cons]
    exact (hstep a b i h).bind fun _ _ => ih

end Simulates

end Computations

section States

variable {α : Type*} {σ τ : Type*} {R : σ → τ → Prop}

/-- Equal results, and related states. -/
def Same (R : σ → τ → Prop) (x : α × σ) (y : α × τ) : Prop := x.1 = y.1 ∧ R x.2 y.2

theorem Same.mk {a : α} {s : σ} {t : τ} (h : R s t) : Same R (a, s) (a, t) := ⟨rfl, h⟩

variable {ι ο : Type*} {step : σ → ι → Option (ο × σ)} {step' : τ → ι → Option (ο × τ)} {s : σ}
  {t : τ} {is : List ι}

/-- The rule of runs: when every step cannot be told apart, a run has the same history, and ends in
related states. -/
theorem Simulates.run (hstep : ∀ s t i, R s t → Simulates (Same R) (step s i) (step' t i))
    (h : R s t) : Simulates (Same R) (Run.run step s is) (Run.run step' t is) := by
  induction is generalizing s t with
  | nil => exact Simulates.some (Same.mk h)
  | cons i is ih =>
    rintro ⟨hist, s'⟩ hr
    obtain ⟨o, s₁, tail, hi, ht, rfl⟩ := Run.run_cons_some hr
    obtain ⟨⟨_, t₁⟩, hi', rfl, h₁⟩ := hstep s t i h _ hi
    obtain ⟨⟨_, t'⟩, ht', rfl, h'⟩ := ih h₁ _ ht
    exact ⟨_, Run.run_cons hi' ht', rfl, h'⟩

end States

end GemOS
