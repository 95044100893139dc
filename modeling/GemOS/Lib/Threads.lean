import GemOS.Lib.Run
import Mathlib.Algebra.BigOperators.Group.Finset.Piecewise
import Mathlib.Algebra.Order.BigOperators.Group.Finset

/-!
# Threads over shared memory

Every thread has a state of its own, and all threads share one. A step is that of one thread, and a
run follows a schedule, which says whose step comes next; a thread that has to wait makes no step.
`of_schedule` is the rule of invariants: what a step of any thread keeps, holds after every
schedule. `Guards.held` is that of locks: when a lock is taken at the entry of a section and given
back at its end, at most one thread is inside. `length_add_le` bounds the schedules of threads that
end.
-/

namespace GemOS.Threads

variable {τ α σ : Type*}

/-- The states of the threads, and the one that they share. -/
@[ext] structure State (τ α σ : Type*) where
  /-- The state of each thread. -/
  own : τ → α
  /-- The state that they share. -/
  shared : σ

/-! ## Definitions -/

/-- A lock guards a section: a thread enters it by taking the lock, which is free then, and gives
the lock back when it leaves. -/
structure Guards (next : τ → α → σ → Option (α × σ)) (inside : α → Prop) (holder : σ → Option τ) :
    Prop where
  /-- The lock is taken. -/
  enter : ∀ t l g l' g', next t l g = some (l', g') → ¬inside l → inside l' →
    holder g = none ∧ holder g' = some t
  /-- The lock is given back. -/
  leave : ∀ t l g l' g', next t l g = some (l', g') → inside l → ¬inside l' → holder g' = none
  /-- The other steps leave the lock. -/
  stay : ∀ t l g l' g', next t l g = some (l', g') → (inside l ↔ inside l') → holder g' = holder g

/-- The thread that has the lock is the one in the section. -/
def Held (inside : α → Prop) (holder : σ → Option τ) (s : State τ α σ) : Prop :=
  ∀ t, inside (s.own t) ↔ holder s.shared = some t

variable {inside : α → Prop} {holder : σ → Option τ}

theorem Held.exclusive {s : State τ α σ} {t u : τ} (h : Held inside holder s)
    (ht : inside (s.own t)) (hu : inside (s.own u)) : t = u :=
  Option.some.inj (((h t).mp ht).symm.trans ((h u).mp hu))

variable [DecidableEq τ]

/-- A step of the thread `t`, `none` when it has ended or has to wait. -/
def step (next : τ → α → σ → Option (α × σ)) (s : State τ α σ) (t : τ) :
    Option (Unit × State τ α σ) :=
  (next t (s.own t) s.shared).map fun (l, g) => ((), ⟨Function.update s.own t l, g⟩)

/-- The schedule leads from one state to another. -/
def Leads (next : τ → α → σ → Option (α × σ)) (s : State τ α σ) (ts : List τ)
    (s' : State τ α σ) : Prop :=
  ∃ h, Run.run (step next) s ts = some (h, s')

variable {next : τ → α → σ → Option (α × σ)} {s s' s'' : State τ α σ} {t u : τ} {ts ts' : List τ}
  {l l' : α} {g g' : σ}

theorem step_eq_some {r : Unit} : step next s t = some (r, s') ↔
    ∃ l g, next t (s.own t) s.shared = some (l, g) ∧ s' = ⟨Function.update s.own t l, g⟩ := by
  simp only [step, Option.map_eq_some_iff, Prod.exists, Prod.mk.injEq, true_and,
    eq_comm (a := s')]

/-! ## Schedules -/

theorem Leads.nil (s : State τ α σ) : Leads next s [] s := ⟨[], rfl⟩

theorem Leads.append (h : Leads next s ts s') (h' : Leads next s' ts' s'') :
    Leads next s (ts ++ ts') s'' := by
  obtain ⟨hist, hr⟩ := h
  obtain ⟨hist', hr'⟩ := h'
  exact ⟨_, Run.run_append hr hr'⟩

/-- A step of one thread. -/
theorem Leads.single (h : next t (s.own t) s.shared = some (l, g)) :
    Leads next s [t] ⟨Function.update s.own t l, g⟩ :=
  ⟨[(t, ())], Run.run_cons (step_eq_some.mpr ⟨l, g, h, rfl⟩) rfl⟩

/-- The rule of invariants. -/
theorem of_schedule (I : State τ α σ → Prop)
    (hstep : ∀ s t l g, I s → next t (s.own t) s.shared = some (l, g) →
      I ⟨Function.update s.own t l, g⟩) (hI : I s) (h : Leads next s ts s') : I s' := by
  obtain ⟨hist, hr⟩ := h
  refine Run.of_run (h := []) (P := fun _ _ => True) (fun s _ => I s)
    (fun s _ t _ s' hs _ heq => ?_) hI (Run.along_of_forall fun _ _ _ => trivial) hr
  obtain ⟨l, g, hnext, rfl⟩ := step_eq_some.mp heq
  exact hstep s t l g hs hnext

/-! ## Locks -/

/-- Every step leaves the lock with the thread in the section. -/
theorem Guards.held (hguards : Guards next inside holder) (h : Held inside holder s)
    (hnext : next t (s.own t) s.shared = some (l, g)) :
    Held inside holder ⟨Function.update s.own t l, g⟩ := by
  intro u
  dsimp only
  by_cases hu : u = t
  · subst hu
    rw [Function.update_self]
    by_cases hl : inside l
    · refine iff_of_true hl ?_
      by_cases hown : inside (s.own u)
      · rw [hguards.stay u _ _ l g hnext (iff_of_true hown hl)]
        exact (h u).mp hown
      · exact (hguards.enter u _ _ l g hnext hown hl).2
    · refine iff_of_false hl fun hheld => ?_
      by_cases hown : inside (s.own u)
      · rw [hguards.leave u _ _ l g hnext hown hl] at hheld
        exact absurd hheld (by simp)
      · rw [hguards.stay u _ _ l g hnext (iff_of_false hown hl)] at hheld
        exact hown ((h u).mpr hheld)
  · rw [Function.update_of_ne hu, h u]
    -- Another thread has the lock after the step exactly when it had it before.
    by_cases hown : inside (s.own t) <;> by_cases hl : inside l
    · rw [hguards.stay t _ _ l g hnext (iff_of_true hown hl)]
    · rw [hguards.leave t _ _ l g hnext hown hl, (h t).mp hown]
      simp [Ne.symm hu]
    · obtain ⟨hfree, htaken⟩ := hguards.enter t _ _ l g hnext hown hl
      rw [hfree, htaken]
      simp [Ne.symm hu]
    · rw [hguards.stay t _ _ l g hnext (iff_of_false hown hl)]

/-! ## Counting -/

section Count

variable [Fintype τ]

/-- A sum over all threads, of which one changes. -/
theorem sum_update (m : α → ℕ) (f : τ → α) (t : τ) (l : α) :
    (∑ u, m (Function.update f t l u)) + m (f t) = (∑ u, m (f u)) + m l := by
  rw [← Finset.add_sum_erase Finset.univ _ (Finset.mem_univ t),
    ← Finset.add_sum_erase Finset.univ (fun u => m (f u)) (Finset.mem_univ t), Function.update_self]
  have hrest : ∑ u ∈ Finset.univ.erase t, m (Function.update f t l u) =
      ∑ u ∈ Finset.univ.erase t, m (f u) :=
    Finset.sum_congr rfl fun u hu => by rw [Function.update_of_ne (Finset.ne_of_mem_erase hu)]
  rw [hrest]
  omega

/-- Two sums over all threads that differ at one thread only. -/
theorem sum_congr_but {m m' : α → ℕ} {f : τ → α} {t : τ} (h : ∀ u, u ≠ t → m (f u) = m' (f u)) :
    (∑ u, m (f u)) + m' (f t) = (∑ u, m' (f u)) + m (f t) := by
  rw [← Finset.add_sum_erase Finset.univ (fun u => m (f u)) (Finset.mem_univ t),
    ← Finset.add_sum_erase Finset.univ (fun u => m' (f u)) (Finset.mem_univ t)]
  have hrest : ∑ u ∈ Finset.univ.erase t, m (f u) = ∑ u ∈ Finset.univ.erase t, m' (f u) :=
    Finset.sum_congr rfl fun u hu => h u (Finset.ne_of_mem_erase hu)
  rw [hrest]
  omega

/-- When every step takes a thread nearer to its end, a schedule is no longer than the way that the
threads have gone. -/
theorem length_add_le (I : State τ α σ → Prop) {m : α → ℕ}
    (hstep : ∀ s t l g, I s → next t (s.own t) s.shared = some (l, g) →
      I ⟨Function.update s.own t l, g⟩ ∧ m l < m (s.own t))
    (hI : I s) (h : Leads next s ts s') : ts.length + ∑ t, m (s'.own t) ≤ ∑ t, m (s.own t) := by
  induction ts generalizing s with
  | nil =>
    obtain ⟨hist, hr⟩ := h
    obtain ⟨-, rfl⟩ := Prod.mk.inj (Option.some.inj hr)
    simp
  | cons t ts ih =>
    obtain ⟨hist, hr⟩ := h
    obtain ⟨r, s₁, hist', hfirst, hr', -⟩ := Run.run_cons_some hr
    obtain ⟨l, g, hnext, rfl⟩ := step_eq_some.mp hfirst
    obtain ⟨hI', hlt⟩ := hstep s t l g hI hnext
    have hrest := ih hI' ⟨hist', hr'⟩
    have hsum := sum_update m s.own t l
    rw [List.length_cons]
    dsimp only at hrest
    omega

end Count

end GemOS.Threads
