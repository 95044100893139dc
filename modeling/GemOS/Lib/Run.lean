import Mathlib.Data.List.Induction

/-!
# Runs of operations

A program that serves one operation after another is a function `step` from a state and an operation
to a result and the next state, `none` when the operation does not return. `run` serves a list of
operations and records the history, each operation with its result. `Along P` says that every step
of the run starts from a state and an operation that meet `P`. The induction over runs is
`run_of_history`: a relation between the state and the history that every step keeps holds at the
end of the run. `run_of_step` is its case for conditions `Along` the run, and `of_run` the rule for
operations that may fail to return; `history_of_step` and `history_of_run` add to them a property of
every result, which holds `Throughout` the history. `forall_prefix_iff` is the rule for the exact
condition under which all states of a run are good. `observe` adds to every result a part of the
state in which the operation was served.
-/

namespace GemOS.Run

variable {σ ι ο : Type*}

/-- The history and the last state of the run of `step` over a list of operations. -/
def run (step : σ → ι → Option (ο × σ)) (s : σ) : List ι → Option (List (ι × ο) × σ)
  | [] => some ([], s)
  | i :: is => (step s i).bind fun (o, s) => (run step s is).map fun (h, s) => ((i, o) :: h, s)

/-- Every step of the run from `s` starts from a state and an operation that meet `P`. -/
def Along (step : σ → ι → Option (ο × σ)) (P : σ → ι → Prop) (s : σ) : List ι → Prop
  | [] => True
  | i :: is => P s i ∧ ∀ o s', step s i = some (o, s') → Along step P s' is

variable {step : σ → ι → Option (ο × σ)} {P Q : σ → ι → Prop} {s s' s'' : σ} {i : ι} {is : List ι}
  {o : ο} {h h' : List (ι × ο)}

/-- The conditions along a run can be checked. -/
instance decidableAlong [∀ s i, Decidable (P s i)] (s : σ) :
    (is : List ι) → Decidable (Along step P s is)
  | [] => isTrue trivial
  | i :: is =>
    match hi : step s i with
    | none => decidable_of_iff (P s i) ⟨fun hP => ⟨hP, fun o s' hs => by simp [hi] at hs⟩, And.left⟩
    | some (o, s') =>
      have := decidableAlong s' is
      decidable_of_iff (P s i ∧ Along step P s' is)
        ⟨fun ha => ⟨ha.1, fun o₁ s₁ hs => by
            obtain ⟨rfl, rfl⟩ : o = o₁ ∧ s' = s₁ := by simpa using hi.symm.trans hs
            exact ha.2⟩,
          fun ha => ⟨ha.1, ha.2 o s' hi⟩⟩

theorem run_cons (hi : step s i = some (o, s')) (hr : run step s' is = some (h, s'')) :
    run step s (i :: is) = some ((i, o) :: h, s'') := by
  simp [run, hi, hr]

/-- A run of a nonempty list is a step followed by a run. -/
theorem run_cons_some (hr : run step s (i :: is) = some (h, s'')) :
    ∃ o s' t, step s i = some (o, s') ∧ run step s' is = some (t, s'') ∧ h = (i, o) :: t := by
  simp only [run, Option.bind_eq_some_iff, Option.map_eq_some_iff, Prod.mk.injEq] at hr
  obtain ⟨⟨o, s'⟩, hi, ⟨t, s₁⟩, ht, rfl, rfl⟩ := hr
  exact ⟨o, s', t, hi, ht, rfl⟩

/-- The history lists the operations of the run. -/
theorem map_fst_of_run (hr : run step s is = some (h, s')) : h.map Prod.fst = is := by
  induction is generalizing s h with
  | nil =>
    simp only [run, Option.some.injEq, Prod.mk.injEq] at hr
    simp [← hr.1]
  | cons i is ih =>
    obtain ⟨o, s₁, t, -, ht, rfl⟩ := run_cons_some hr
    simp [ih ht]

theorem run_append {is' : List ι} (hr : run step s is = some (h, s'))
    (hr' : run step s' is' = some (h', s'')) :
    run step s (is ++ is') = some (h ++ h', s'') := by
  induction is generalizing s h with
  | nil =>
    simp only [run, Option.some.injEq, Prod.mk.injEq] at hr
    rwa [← hr.1, hr.2]
  | cons i is ih =>
    obtain ⟨o, s₁, t, hi, ht, rfl⟩ := run_cons_some hr
    exact run_cons hi (ih ht)

/-- The conditions on the steps after a run. -/
theorem Along.right {is' : List ι} (ha : Along step P s (is ++ is'))
    (hr : run step s is = some (h, s')) : Along step P s' is' := by
  induction is generalizing s h with
  | nil =>
    simp only [run, Option.some.injEq, Prod.mk.injEq] at hr
    rwa [← hr.2]
  | cons j is ih =>
    obtain ⟨o, s₁, t, hj, ht, -⟩ := run_cons_some hr
    exact ih (ha.2 o s₁ hj) ht

/-- The condition on the last step of a run. -/
theorem Along.last (ha : Along step P s (is ++ [i])) (hr : run step s is = some (h, s')) : P s' i :=
  (ha.right hr).1

theorem Along.cons (hP : P s i) (hi : step s i = some (o, s')) (ha : Along step P s' is) :
    Along step P s (i :: is) := by
  refine ⟨hP, fun o₁ s₁ hs => ?_⟩
  obtain ⟨rfl, rfl⟩ : o = o₁ ∧ s' = s₁ := by simpa using hi.symm.trans hs
  exact ha

theorem Along.left {is' : List ι} (ha : Along step P s (is ++ is')) : Along step P s is := by
  induction is generalizing s with
  | nil => trivial
  | cons i is ih => exact ⟨ha.1, fun o s' hi => ih (ha.2 o s' hi)⟩

/-- The induction over runs: what every step keeps, from any state and history, a run keeps. The
condition `Q` of a step may depend on the history before it. -/
theorem run_of_history (R : σ → List (ι × ο) → Prop) {Q : List (ι × ο) → σ → ι → Prop}
    (hstep : ∀ s h i, R s h → Q h s i → ∃ o s', step s i = some (o, s') ∧ R s' (h ++ [(i, o)]))
    (hR : R s h) (hQ : ∀ pre i post h' s', is = pre ++ i :: post →
      run step s pre = some (h', s') → Q (h ++ h') s' i) :
    ∃ h' s', run step s is = some (h', s') ∧ R s' (h ++ h') := by
  -- The induction appends an operation, so that the condition on the last step is about the whole
  -- run.
  induction is using List.reverseRecOn with
  | nil => exact ⟨[], s, rfl, by rwa [List.append_nil]⟩
  | append_singleton is i ih =>
    obtain ⟨h', s₁, hr, hR₁⟩ := ih fun pre j post h' s' heq =>
      hQ pre j (post ++ [i]) h' s' (by rw [heq]; simp)
    obtain ⟨o, s₂, hi, hR₂⟩ := hstep s₁ (h ++ h') i hR₁ (hQ is i [] h' s₁ rfl hr)
    exact ⟨h' ++ [(i, o)], s₂, run_append hr (run_cons hi rfl), by rwa [← List.append_assoc]⟩

/-- The rule of runs for a condition on the state and the operation. -/
theorem run_of_step (R : σ → List (ι × ο) → Prop)
    (hstep : ∀ s h i, R s h → P s i → ∃ o s', step s i = some (o, s') ∧ R s' (h ++ [(i, o)]))
    (hR : R s h) (ha : Along step P s is) :
    ∃ h' s', run step s is = some (h', s') ∧ R s' (h ++ h') :=
  run_of_history R (Q := fun _ => P) hstep hR fun pre i post h' s' heq hr => by
    rw [heq] at ha
    exact (ha.right hr).1

/-- The rule of runs for operations that may fail to return: what every step that returns keeps, a
run keeps. -/
theorem of_run (R : σ → List (ι × ο) → Prop)
    (hstep : ∀ s h i o s', R s h → P s i → step s i = some (o, s') → R s' (h ++ [(i, o)]))
    (hR : R s h) (ha : Along step P s is) (hr : run step s is = some (h', s')) :
    R s' (h ++ h') := by
  induction is generalizing s h h' with
  | nil =>
    simp only [run, Option.some.injEq, Prod.mk.injEq] at hr
    rw [← hr.1, ← hr.2, List.append_nil]
    exact hR
  | cons i is ih =>
    obtain ⟨o, s₁, t, hi, ht, rfl⟩ := run_cons_some hr
    simpa using ih (hstep s h i o s₁ hR ha.1 hi) (ha.2 o s₁ hi) ht

/-- The exact condition of runs. When steps from the states `R` that meet `P` lead to states `R`,
which are good, and the other steps lead to states that are not good, all states of a run are good
if and only if all its steps meet `P`. All this is under an assumption `Q` on the steps. -/
theorem forall_prefix_iff (R G : σ → Prop) (hgood : ∀ s, R s → G s)
    (hstep : ∀ s i, R s → Q s i → P s i → ∃ o s', step s i = some (o, s') ∧ R s')
    (hbad : ∀ s i o s', R s → Q s i → ¬P s i → step s i = some (o, s') → ¬G s') (hR : R s)
    (hQ : Along step Q s is) :
    (∀ pre, pre <+: is → ∃ h s', run step s pre = some (h, s') ∧ G s') ↔ Along step P s is := by
  induction is generalizing s with
  | nil =>
    refine iff_of_true (fun pre hpre => ?_) trivial
    rw [List.prefix_nil.mp hpre]
    exact ⟨[], s, rfl, hgood s hR⟩
  | cons i is ih =>
    obtain ⟨hQi, hQs⟩ := hQ
    constructor
    · intro hall
      -- A bad first step breaks the invariant in the run of this step alone.
      have hP : P s i := by
        by_contra hP
        obtain ⟨h, s', hr, hG⟩ := hall [i] ⟨is, rfl⟩
        obtain ⟨o, s₁, t, hi, ht, -⟩ := run_cons_some hr
        obtain rfl : s₁ = s' := by
          simp only [run, Option.some.injEq, Prod.mk.injEq] at ht
          exact ht.2
        exact hbad s i o s₁ hR hQi hP hi hG
      refine ⟨hP, fun o s' hi => ?_⟩
      obtain ⟨o₁, s₁, hi₁, hR₁⟩ := hstep s i hR hQi hP
      obtain ⟨rfl, rfl⟩ : o = o₁ ∧ s' = s₁ := by simpa using hi.symm.trans hi₁
      -- A prefix of the rest, behind the first step, is a prefix of the whole run.
      refine (ih hR₁ (hQs o s' hi)).mp fun pre hpre => ?_
      obtain ⟨h, s₂, hr, hG⟩ := hall (i :: pre) (List.cons_prefix_cons.mpr ⟨rfl, hpre⟩)
      obtain ⟨o₂, s₃, t, hi₂, ht, -⟩ := run_cons_some hr
      obtain ⟨-, rfl⟩ : o₂ = o ∧ s₃ = s' := by simpa using hi₂.symm.trans hi
      exact ⟨t, s₂, ht, hG⟩
    · intro ha pre hpre
      rcases List.prefix_cons_iff.mp hpre with rfl | ⟨tail, rfl, htail⟩
      · exact ⟨[], s, rfl, hgood s hR⟩
      · obtain ⟨o, s', hi, hR'⟩ := hstep s i hR hQi ha.1
        obtain ⟨h, s'', hr, hG⟩ := (ih hR' (hQs o s' hi)).mpr (ha.2 o s' hi) tail htail
        exact ⟨_, s'', run_cons hi hr, hG⟩

theorem Along.and (hP : Along step P s is) (hQ : Along step Q s is) :
    Along step (fun s i => P s i ∧ Q s i) s is := by
  induction is generalizing s with
  | nil => trivial
  | cons i is ih => exact ⟨⟨hP.1, hQ.1⟩, fun o s' hi => ih (hP.2 o s' hi) (hQ.2 o s' hi)⟩

/-- The rule of runs for a condition on the steps. -/
theorem along_of_step (R : σ → Prop) {C : σ → ι → Prop}
    (hstep : ∀ s i, R s → P s i → C s i ∧ ∀ o s', step s i = some (o, s') → R s') (hR : R s)
    (ha : Along step P s is) : Along step C s is := by
  induction is generalizing s with
  | nil => trivial
  | cons i is ih =>
    obtain ⟨hC, hnext⟩ := hstep s i hR ha.1
    exact ⟨hC, fun o s' hi => ih (hnext o s' hi) (ha.2 o s' hi)⟩

/-- A condition on the operations alone. -/
theorem along_of_forall (hP : ∀ i ∈ is, ∀ s, P s i) : Along step P s is := by
  induction is generalizing s with
  | nil => trivial
  | cons i is ih => exact ⟨hP i (by simp) s, fun o s' _ => ih fun j hj => hP j (by simp [hj])⟩

/-- A condition on the operations alone, when the run returns. -/
theorem forall_of_along {p : ι → Prop} (ha : Along step (fun _ i => p i) s is)
    (hr : run step s is = some (h, s')) : ∀ i ∈ is, p i := by
  induction is generalizing s h with
  | nil => simp
  | cons i is ih =>
    obtain ⟨o, s₁, t, hi, ht, -⟩ := run_cons_some hr
    intro j hj
    rcases List.mem_cons.mp hj with rfl | hj
    · exact ha.1
    · exact ih (ha.2 o s₁ hi) ht j hj

/-! ## Histories -/

/-- Every operation of a history, with its result, meets `C`, which may depend on the history before
it. -/
def Throughout (C : List (ι × ο) → ι → ο → Prop) (h : List (ι × ο)) : Prop :=
  ∀ pre i o post, h = pre ++ (i, o) :: post → C pre i o

theorem throughout_nil (C : List (ι × ο) → ι → ο → Prop) : Throughout C [] :=
  fun pre i o post h => by simp at h

theorem throughout_concat {C : List (ι × ο) → ι → ο → Prop} {i : ι} :
    Throughout C (h ++ [(i, o)]) ↔ Throughout C h ∧ C h i o := by
  constructor
  · refine fun hC => ⟨fun pre j r post heq => hC pre j r (post ++ [(i, o)]) ?_, hC h i o [] rfl⟩
    rw [heq]
    simp
  · rintro ⟨hC, hlast⟩ pre j r post hsplit
    -- The property is about the new result, or about one of the history.
    rcases List.eq_nil_or_concat post with rfl | ⟨post, x, rfl⟩
    · obtain ⟨rfl, hx⟩ := List.append_inj' hsplit rfl
      obtain ⟨rfl, rfl⟩ : i = j ∧ o = r := by simpa using hx
      exact hlast
    · rw [List.concat_eq_append, ← List.cons_append, ← List.append_assoc] at hsplit
      exact hC pre j r post (List.append_inj_left' hsplit rfl)

/-- The rule of runs with a property `C` of every result, which may depend on the history before
it. -/
theorem history_of_step (R : σ → List (ι × ο) → Prop) (C : List (ι × ο) → ι → ο → Prop)
    (hstep : ∀ s h i, R s h → P s i →
      ∃ o s', step s i = some (o, s') ∧ R s' (h ++ [(i, o)]) ∧ C h i o)
    (hR : R s []) (ha : Along step P s is) :
    ∃ h s', run step s is = some (h, s') ∧ R s' h ∧ Throughout C h :=
  run_of_step (h := []) (fun s h => R s h ∧ Throughout C h)
    (fun s h i hs hi => by
      obtain ⟨o, s', heq, hR', hC⟩ := hstep s h i hs.1 hi
      exact ⟨o, s', heq, hR', throughout_concat.mpr ⟨hs.2, hC⟩⟩) ⟨hR, throughout_nil C⟩ ha

/-- The same for operations that may fail to return. -/
theorem history_of_run (R : σ → List (ι × ο) → Prop) (C : List (ι × ο) → ι → ο → Prop)
    (hstep : ∀ s h i o s', R s h → P s i → step s i = some (o, s') → R s' (h ++ [(i, o)]) ∧ C h i o)
    (hR : R s []) (ha : Along step P s is) (hr : run step s is = some (h, s')) :
    R s' h ∧ Throughout C h :=
  of_run (h := []) (fun s h => R s h ∧ Throughout C h)
    (fun s h i o s' hs hi heq => by
      obtain ⟨hR', hC⟩ := hstep s h i o s' hs.1 hi heq
      exact ⟨hR', throughout_concat.mpr ⟨hs.2, hC⟩⟩) ⟨hR, throughout_nil C⟩ ha hr

/-! ## Observing the state -/

section Observe

variable {α : Type*} {f : σ → α} {a : α}

/-- The results of `step`, each with what `f` sees of the state before it. -/
def observe (f : σ → α) (step : σ → ι → Option (ο × σ)) (s : σ) (i : ι) : Option ((α × ο) × σ) :=
  (step s i).map fun (o, s') => ((f s, o), s')

theorem observe_eq_some :
    observe f step s i = some ((a, o), s') ↔ f s = a ∧ step s i = some (o, s') := by
  simp only [observe, Option.map_eq_some_iff, Prod.exists, Prod.mk.injEq]
  constructor
  · rintro ⟨o₁, s₁, hi, ⟨ha, rfl⟩, rfl⟩
    exact ⟨ha, hi⟩
  · rintro ⟨ha, hi⟩
    exact ⟨o, s', hi, ⟨ha, rfl⟩, rfl⟩

/-- The conditions on the steps are those of the run without the observations. -/
theorem along_observe (ha : Along step P s is) : Along (observe f step) P s is := by
  induction is generalizing s with
  | nil => trivial
  | cons i is ih =>
    refine ⟨ha.1, fun o s' hi => ih (ha.2 o.2 s' ?_)⟩
    exact (observe_eq_some.mp hi).2

end Observe

end GemOS.Run
