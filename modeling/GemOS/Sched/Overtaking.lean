import GemOS.Sched.Invariant

/-!
# Bounded overtaking

A context that is ready is picked within `N - 1` decisions, and no context is picked twice before
it. `pick_next_context` takes the closest ready context behind the current one, so a decision does
not go past a context that is ready (`Effect.overtaking`): the picks of a run are moves toward it
(`Cyclic.Toward`).
-/

namespace GemOS.Sched

variable {N p q : ℕ} {k k' : Kernel} {op : Op} {o : Outcome} {hist : List (Op × Outcome)}

/-- The decisions of a history. -/
def picks (hist : List (Op × Outcome)) : List ℕ := hist.filterMap fun e => e.2.picked

theorem picks_concat_none (hist : List (Op × Outcome)) (op : Op) (h : o.picked = none) :
    picks (hist ++ [(op, o)]) = picks hist := by
  simp [picks, h]

theorem picks_concat_some (hist : List (Op × Outcome)) (op : Op) (h : o.picked = some q) :
    picks (hist ++ [(op, o)]) = picks hist ++ [q] := by
  simp [picks, h]

/-- A decision for `q` when `a` is the current context and `p` is ready, and the state after it. -/
structure Decision (N p a q : ℕ) (k' : Kernel) : Prop where
  /-- `q` gets the CPU. -/
  current : k'.current = q
  /-- The choice is one of the list. -/
  lt : q < N
  /-- The swapper is not chosen. -/
  ne_zero : q ≠ 0
  /-- The current context is not chosen. -/
  ne : q ≠ a
  /-- The choice does not go past `p`. -/
  closest : Cyclic.gap N a q ≤ Cyclic.gap N a p
  /-- When another one is chosen, `p` stays ready. -/
  ready : q ≠ p → (k'.ctx p).state = .ready

/-- A switch while `p` is ready. -/
theorem Picked.decision {st : ℕ → State} (hq : Picked N st k.current q) (hp : p < N) (h0 : p ≠ 0)
    (hpc : p ≠ k.current) (hst : st p = .ready) (hready : (k.ctx p).state = .ready)
    (f : ExecContext → ExecContext) : Decision N p k.current q (k.switch f q) := by
  obtain ⟨hq0, hle⟩ := hq.closest p hp h0 hpc hst
  refine ⟨rfl, hq.lt, hq0, hq.ne (Or.inr hq0), hle, fun hqp => ?_⟩
  rw [k.switch_of_ne f hpc (Ne.symm hqp), hready]

/-- While `p` is ready, an entry decides for nobody, or does not go past `p`; every timer tick
decides. -/
theorem Effect.overtaking (heff : Effect N k op o k') (h : Inv N k)
    (hop : Legal N k op) (hp : p < N) (h0 : p ≠ 0) (hready : (k.ctx p).state = .ready) :
    (o.picked = none ∧ (∀ f, op ≠ .tick f) ∧ k'.current = k.current ∧ (k'.ctx p).state = .ready) ∨
      ∃ q, o.picked = some q ∧ Decision N p k.current q k' := by
  have hpc : p ≠ k.current := by
    rintro rfl
    rw [h.current_state] at hready
    exact absurd hready (by simp)
  have hwoken : (k.ctx p).woken.state = .ready := by
    rw [ExecContext.woken_of_ne (by rw [hready]; simp), hready]
  cases heff with
  | stay f userMem hidle => exact absurd hwoken (hidle p hp h0 hpc)
  | preempt f userMem q hq _ =>
    have hticked : ((k.ticked N userMem).ctx p).state = .ready := by
      rw [Kernel.ticked_field ExecContext.state ExecContext.alarmed_state k userMem hp, hwoken]
    exact Or.inr ⟨q, rfl, Picked.decision (k := k.ticked N userMem) hq hp h0 hpc hwoken hticked _⟩
  | sleep ticks s q hq => exact Or.inr ⟨q, rfl, hq.decision hp h0 hpc hready hready _⟩
  | exit s q hq =>
    exact Or.inr ⟨q, rfl, Picked.decision (k := { k with
      freeOsPfn := Function.update k.freeOsPfn k.current (k.ctx k.current).osStackPfn })
      hq hp h0 hpc hready hready _⟩
  | clone slot pfn thFunc userStack s =>
    refine Or.inl ⟨rfl, by simp, rfl, ?_⟩
    obtain ⟨-, -, -, hslot⟩ := hop
    -- The new context was unused, so it is another one.
    have hps : p ≠ slot := by
      rintro rfl
      rw [hready] at hslot
      exact absurd hslot (by simp)
    change (setCtx k.ctx slot (k.childCtx pfn thFunc userStack s) p).state = _
    rw [setCtx_of_ne _ _ hps, hready]
  | signal signo handler ret sighandlers =>
    refine Or.inl ⟨rfl, by simp, rfl, ?_⟩
    rw [Kernel.modify_of_ne _ _ hpc, hready]
  | alarm ticks =>
    refine Or.inl ⟨rfl, by simp, rfl, ?_⟩
    rw [Kernel.modify_of_ne _ _ hpc, hready]

/-- What a context `p` that is ready can count on in the history of a run, and in its last state. -/
structure FairTo (N p : ℕ) (hist : List (Op × Outcome)) (k' : Kernel) : Prop where
  /-- It is ready until it is picked. -/
  ready : p ∉ picks hist → (k'.ctx p).state = .ready
  /-- Until then, every timer tick makes a decision. -/
  decides : ∀ pre f o post, hist = pre ++ (.tick f, o) :: post → p ∉ picks pre → o.picked ≠ none
  /-- Until then, the swapper is not picked. -/
  swapper : ∀ pre op o post, hist = pre ++ (op, o) :: post → p ∉ picks pre → o.picked ≠ some 0
  /-- No context is picked twice before. -/
  nodup : ((picks hist).takeWhile (· ≠ p)).Nodup
  /-- It is picked within `N - 1` decisions. -/
  picked : N - 1 ≤ (picks hist).length → p ∈ (picks hist).take (N - 1)

/-- The relation between the state and the history of a run from a state in which `a` is current and
`p` is ready: the picks are moves toward `p`. -/
structure Waits (N p a : ℕ) (k : Kernel) (hist : List (Op × Outcome)) : Prop where
  /-- The invariant of the scheduler. -/
  inv : Inv N k
  /-- No pick goes past `p`. -/
  toward : Cyclic.Toward N p a (picks hist)
  /-- The current context was picked last. -/
  current : p ∉ picks hist → k.current = (picks hist).getLastD a
  /-- `p` is ready until it is picked. -/
  ready : p ∉ picks hist → (k.ctx p).state = .ready

/-- An entry that decides for nobody. -/
theorem Waits.concat_none {a : ℕ} (h : Waits N p a k hist) (h' : Inv N k') (hnone : o.picked = none)
    (hstay : p ∉ picks hist → k'.current = k.current ∧ (k'.ctx p).state = .ready) :
    Waits N p a k' (hist ++ [(op, o)]) := by
  have hpicks := picks_concat_none hist op hnone
  refine ⟨h', ?_, fun hp => ?_, fun hp => ?_⟩ <;> rw [hpicks] at *
  · exact h.toward
  · rw [(hstay hp).1, h.current hp]
  · exact (hstay hp).2

/-- An entry that decides for `q`. -/
theorem Waits.concat_some {a : ℕ} (h : Waits N p a k hist) (h' : Inv N k')
    (hsome : o.picked = some q)
    (hd : p ∉ picks hist → Decision N p k.current q k') : Waits N p a k' (hist ++ [(op, o)]) := by
  have hpicks := picks_concat_some hist op hsome
  refine ⟨h', ?_, fun hp => ?_, fun hp => ?_⟩ <;> rw [hpicks] at *
  · refine h.toward.concat fun hp => ?_
    rw [← h.current hp]
    exact ⟨(hd hp).lt, (hd hp).ne, (hd hp).closest⟩
  · rw [List.mem_append, not_or] at hp
    rw [(hd hp.1).current, List.getLastD_concat]
  · rw [List.mem_append, not_or, List.mem_singleton] at hp
    exact (hd hp.1).ready (Ne.symm hp.2)

/-- Every entry keeps the relation, and until `p` is picked it is fair to it. -/
theorem Waits.step {a : ℕ} (h : Waits N p a k hist) (hp : p < N) (h0 : p ≠ 0) (hop : Legal N k op) :
    ∃ o k', step N k op = some (o, k') ∧ Waits N p a k' (hist ++ [(op, o)]) ∧
      (p ∉ picks hist → (∀ f, op = .tick f → o.picked ≠ none) ∧ o.picked ≠ some 0) := by
  obtain ⟨o, k', hstep, heff, h'⟩ := h.inv.step hop
  refine ⟨o, k', hstep, ?_⟩
  by_cases hmem : p ∈ picks hist
  · refine ⟨?_, fun hno => absurd hmem hno⟩
    cases hpick : o.picked with
    | none => exact h.concat_none h' hpick fun hno => absurd hmem hno
    | some q => exact h.concat_some h' hpick fun hno => absurd hmem hno
  · rcases heff.overtaking h.inv hop hp h0 (h.ready hmem) with ⟨hnone, htick,
      hstay⟩ | ⟨q, hsome, hd⟩
    · refine ⟨h.concat_none h' hnone fun _ => hstay, fun _ => ⟨fun f hf => absurd hf (htick f), ?_⟩⟩
      rw [hnone]
      simp
    · refine ⟨h.concat_some h' hsome fun _ => hd, fun _ => ⟨fun _ _ => ?_, ?_⟩⟩
      · rw [hsome]
        simp
      · rw [hsome, ne_eq, Option.some.injEq]
        exact hd.ne_zero

/-- Every run from a reachable state is fair to a context that is ready. -/
theorem run_fairTo (N : ℕ) (k : Kernel) (hk : Start N k) (before : List Op)
    (hbefore : Run.Along (step N) (Legal N) k before) (hist₁ : List (Op × Outcome)) (k₁ : Kernel)
    (hrun : Run.run (step N) k before = some (hist₁, k₁)) (p : ℕ) (hp : p < N) (h0 : p ≠ 0)
    (hready : (k₁.ctx p).state = .ready) (ops : List Op)
    (hops : Run.Along (step N) (Legal N) k₁ ops) :
    ∃ hist k₂, Run.run (step N) k₁ ops = some (hist, k₂) ∧ FairTo N p hist k₂ := by
  obtain ⟨hist, k', hrun', hinv⟩ := hk.inv.run hbefore
  obtain rfl : k' = k₁ := by simpa using congrArg (Option.map Prod.snd) (hrun'.symm.trans hrun)
  have hpc : p ≠ k'.current := by
    rintro rfl
    rw [hinv.current_state] at hready
    exact absurd hready (by simp)
  obtain ⟨hist, k₂, hrun₂, hwaits, hfair⟩ := Run.history_of_step (Waits N p k'.current)
    (fun pre op o => p ∉ picks pre → (∀ f, op = .tick f → o.picked ≠ none) ∧ o.picked ≠ some 0)
    (fun k hist op hw hop => hw.step hp h0 hop)
    ⟨hinv, trivial, fun _ => rfl, fun _ => hready⟩ hops
  refine ⟨hist, k₂, hrun₂, hwaits.ready, fun pre f o post heq hno => ?_,
    fun pre op o post heq hno => ?_, hwaits.toward.nodup hinv.current_lt hp hpc, fun hlen => ?_⟩
  · exact (hfair pre _ o post heq hno).1 f rfl
  · exact (hfair pre op o post heq hno).2
  · exact hwaits.toward.mem_take hinv.current_lt hp hpc hlen

/-- Process 1 has started processes 2 and 3, and 3 is picked after 2. -/
theorem run_fairTo_clone :
    ∃ hist₁ k₁, Run.run (step 4) boot [.clone 2 5 0 0 call, .clone 3 6 0 0 call] =
      some (hist₁, k₁) ∧
      ∃ hist k₂, Run.run (step 4) k₁ [.tick interrupt, .tick interrupt] = some (hist, k₂) ∧
        FairTo 4 3 hist k₂ := by
  exact ⟨_, _, rfl, run_fairTo 4 boot (start_boot (by decide))
    [.clone 2 5 0 0 call, .clone 3 6 0 0 call] (by decide) _ _ rfl 3 (by decide) (by decide) rfl
    [.tick interrupt, .tick interrupt] (by decide)⟩

end GemOS.Sched
