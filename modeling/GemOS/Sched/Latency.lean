import GemOS.Sched.Overtaking
import GemOS.Sched.Sleep

/-!
# When a sleeper runs again

A process that calls `do_sleep(n)` with `n > 0` gets the CPU again no earlier than at the `n`-th
tick and no later than at the tick `n + N - 1`, whatever the other processes do (`sleeper_served`).
Until the `n`-th tick it is not ready; from then on every tick brings the current context closer to
it, around the list.
-/

namespace GemOS.Sched

variable {N n p q : ℕ} {k k' : Kernel} {op : Op} {o : Outcome} {hist : List (Op × Outcome)}

theorem Op.isTick_eq_true (h : op.isTick = true) : ∃ f, op = .tick f := by
  cases op <;> simp_all [Op.isTick]

/-- The number of timer ticks in a history. -/
def ticksIn (hist : List (Op × Outcome)) : ℕ := ticksOf (hist.map Prod.fst)

theorem ticksIn_concat (hist : List (Op × Outcome)) (op : Op) (o : Outcome) :
    ticksIn (hist ++ [(op, o)]) = ticksIn hist + if op.isTick then 1 else 0 := by
  simp [ticksIn, ticksOf, List.countP_append, List.countP_cons]

/-- The context that is picked gets the CPU. -/
theorem Effect.picked_current (heff : Effect N k op o k') :
    o.picked = none ∧ k'.current = k.current ∨ o.picked = some k'.current := by
  cases heff with
  | stay f userMem hidle => exact Or.inl ⟨rfl, rfl⟩
  | preempt f userMem q hq h0 => exact Or.inr rfl
  | sleep ticks s q hq => exact Or.inr rfl
  | exit s q hq => exact Or.inr rfl
  | clone slot pfn thFunc userStack s => exact Or.inl ⟨rfl, rfl⟩
  | signal signo handler ret sighandlers => exact Or.inl ⟨rfl, rfl⟩
  | alarm ticks => exact Or.inl ⟨rfl, rfl⟩

/-- What the process `p` can count on in the history since its call of `do_sleep(n)`. -/
structure Served (N p n : ℕ) (k : Kernel) (hist : List (Op × Outcome)) : Prop where
  /-- It sleeps until the last of its ticks. -/
  sleeping : Sleeping N p n k hist
  /-- Before this tick it is not picked. -/
  early : ∀ pre, pre <+: hist → ticksIn pre < n → p ∉ picks pre
  /-- From then on it is ready until it is picked, and every tick brings the CPU closer to it. -/
  late : n ≤ ticksIn hist → p ∈ picks hist ∨ (k.ctx p).state = .ready ∧
    Cyclic.gap N k.current p + (ticksIn hist - n) < N

/-- While the process sleeps it does not get the CPU. -/
theorem Served.step_early (h : Served N p n k hist) (heff : Effect N k op o k')
    (h' : Sleeping N p n k' (hist ++ [(op, o)])) (pre : List (Op × Outcome))
    (hpre : pre <+: hist ++ [(op, o)]) (hlt : ticksIn pre < n) : p ∉ picks pre := by
  rcases List.prefix_concat_iff.mp hpre with rfl | hpre
  · obtain ⟨hwait, -⟩ := h'.waiting hlt
    have hbefore : p ∉ picks hist := h.early hist (List.prefix_refl _) (by
      rw [ticksIn_concat] at hlt
      omega)
    rcases heff.picked_current with ⟨hnone, -⟩ | hsome
    · rwa [picks_concat_none hist op hnone]
    · rw [picks_concat_some hist op hsome, List.mem_append, List.mem_singleton, not_or]
      refine ⟨hbefore, ?_⟩
      rintro rfl
      rw [h'.inv.current_state] at hwait
      exact absurd hwait (by simp)
  · exact h.early pre hpre hlt

/-- A process that is ready is picked, or the CPU comes closer to it. -/
theorem Served.step_late (h : Served N p n k hist) (hp : p < N) (h0 : p ≠ 0) (hop : Legal N k op)
    (heff : Effect N k op o k') (h' : Sleeping N p n k' (hist ++ [(op, o)]))
    (hn : n ≤ ticksIn (hist ++ [(op, o)])) : p ∈ picks (hist ++ [(op, o)]) ∨
      (k'.ctx p).state = .ready ∧
        Cyclic.gap N k'.current p + (ticksIn (hist ++ [(op, o)]) - n) < N := by
  have hticks := ticksIn_concat hist op o
  have hmem : p ∈ picks hist → p ∈ picks (hist ++ [(op, o)]) := fun hin => by
    simp only [picks, List.filterMap_append, List.mem_append] at hin ⊢
    exact Or.inl hin
  rcases Nat.lt_or_ge (ticksIn hist) n with hlt | hge
  · -- The last of its ticks makes it ready, or gives it the CPU at once.
    obtain ⟨hwait, -⟩ := h.sleeping.waiting hlt
    obtain ⟨f, rfl⟩ : ∃ f, op = .tick f := by
      cases htick : op.isTick with
      | false =>
        rw [htick] at hticks
        simp at hticks
        omega
      | true => exact Op.isTick_eq_true htick
    rw [Op.isTick, if_pos rfl] at hticks
    rcases h'.woken hist f o rfl (by rw [← ticksIn]; omega) with hready | hrun
    · have hgap := Cyclic.gap_lt (b := p) h'.inv.current_lt
      exact Or.inr ⟨hready, by omega⟩
    · have hcur := (h'.inv.running p hp).mp hrun
      rcases heff.picked_current with ⟨-, hsame⟩ | hsome
      · rw [hcur, hsame, h.sleeping.inv.current_state] at hwait
        exact absurd hwait (by simp)
      · refine Or.inl ?_
        rw [picks_concat_some hist _ hsome, ← hcur]
        simp
  · rcases h.late hge with hin | ⟨hready, hgap⟩
    · exact Or.inl (hmem hin)
    · rcases heff.overtaking h.sleeping.inv hop hp h0 hready with ⟨-, htick, hcur, hready'⟩ |
        ⟨q, hsome, hd⟩
      · have hno : op.isTick = false := by
          by_contra htrue
          obtain ⟨f, hf⟩ := Op.isTick_eq_true (Bool.eq_true_of_not_eq_false htrue)
          exact htick f hf
        rw [hno] at hticks
        refine Or.inr ⟨hready', ?_⟩
        rw [hcur, hticks]
        simpa using hgap
      · by_cases hqp : q = p
        · refine Or.inl ?_
          rw [picks_concat_some hist op hsome, hqp]
          simp
        · have hlt := h.sleeping.inv.current_lt
          have hadd := Cyclic.gap_add hlt hd.lt hp hd.closest
          have hpos := Cyclic.gap_pos hlt hd.lt hd.ne
          refine Or.inr ⟨hd.ready hqp, ?_⟩
          rw [hd.current, hticks]
          split_ifs <;> omega

/-- Every entry keeps it. -/
theorem Served.step (h : Served N p n k hist) (hp : p < N) (h0 : p ≠ 0) (hop : Legal N k op) :
    ∃ o k', step N k op = some (o, k') ∧ Served N p n k' (hist ++ [(op, o)]) := by
  obtain ⟨o, k', hstep, h'⟩ := h.sleeping.step hp hop
  obtain ⟨o₁, k₁, hstep₁, heff, -⟩ := h.sleeping.inv.step hop
  obtain ⟨rfl, rfl⟩ : o₁ = o ∧ k₁ = k' := by simpa using hstep₁.symm.trans hstep
  exact ⟨o₁, k₁, hstep, h', h.step_early heff h', h.step_late hp h0 hop heff h'⟩

/-- In every run, a process that calls `do_sleep(n)` with `n > 0` is not picked before the `n`-th
tick after its call, and is picked at the tick `n + N - 1` at the latest. -/
theorem sleeper_served (N : ℕ) (k : Kernel) (hk : Start N k) (pre : List Op) (n : ℕ) (hn : n ≠ 0)
    (s : Syscall) (mid : List Op)
    (hops : Run.Along (step N) (Legal N) k (pre ++ .sleep n s :: mid))
    (hist₁ : List (Op × Outcome)) (k₁ : Kernel)
    (hrun : Run.run (step N) k pre = some (hist₁, k₁)) :
    ∃ o hist k₂, Run.run (step N) k₁ (.sleep n s :: mid) = some ((.sleep n s, o) :: hist, k₂) ∧
      (∀ early, early <+: hist → ticksIn early < n → k₁.current ∉ picks early) ∧
      (n + (N - 1) ≤ ticksOf mid → k₁.current ∈ picks hist) := by
  obtain ⟨hist', k', hrun', hinv⟩ := hk.inv.run hops.left
  obtain rfl : k' = k₁ := by simpa using congrArg (Option.map Prod.snd) (hrun'.symm.trans hrun)
  have hsleep := hops.right hrun
  have h0 : k'.current ≠ 0 := hsleep.1
  obtain ⟨o, k₁, hstep, heff, -⟩ := hinv.step hsleep.1
  have hstart : Served N k'.current n k₁ [] := by
    refine ⟨heff.sleeping hinv h0, fun early hpre _ => ?_, fun hle => ?_⟩
    · rw [List.prefix_nil.mp hpre]
      simp [picks]
    · simp only [ticksIn, ticksOf, List.map_nil, List.countP_nil] at hle
      omega
  obtain ⟨hist, k₂, hmid, hserved⟩ := Run.run_of_step (Served N k'.current n)
    (fun k hist op hs hop => hs.step hinv.current_lt h0 hop) hstart (hsleep.2 o k₁ hstep)
  rw [List.nil_append] at hserved
  refine ⟨o, hist, k₂, Run.run_cons hstep hmid, hserved.early, fun hlate => ?_⟩
  have hticks : ticksIn hist = ticksOf mid := by rw [ticksIn, Run.map_fst_of_run hmid]
  refine (hserved.late (by omega)).resolve_right fun hno => ?_
  obtain ⟨hready, hgap⟩ := hno
  -- The process would be the current one, which is not ready.
  have hcur : k'.current = k₂.current := by
    by_contra hne
    have hpos := Cyclic.gap_pos hserved.sleeping.inv.current_lt hinv.current_lt hne
    omega
  rw [hcur, hserved.sleeping.inv.current_state] at hready
  exact absurd hready (by simp)

/-- Process 1 sleeps for one tick while processes 2 and 3 run. -/
theorem sleeper_served_one : ∃ o hist k₂,
    Run.run (step 4) (((Run.run (step 4) boot [.clone 2 5 0 0 call,
      .clone 3 6 0 0 call]).map Prod.snd).getD boot)
        [.sleep 1 call, .tick interrupt, .sleep 5 call, .tick interrupt, .tick interrupt,
          .tick interrupt] = some ((.sleep 1 call, o) :: hist, k₂) ∧
      (∀ early, early <+: hist → ticksIn early < 1 → 1 ∉ picks early) ∧ 1 ∈ picks hist := by
  obtain ⟨o, hist, k₂, hrun, hearly, hlate⟩ := sleeper_served 4 boot (start_boot (by decide))
    [.clone 2 5 0 0 call, .clone 3 6 0 0 call] 1 (by decide) call [.tick interrupt, .sleep 5 call,
      .tick interrupt, .tick interrupt, .tick interrupt] (by decide) _ _ rfl
  exact ⟨o, hist, k₂, hrun, hearly, hlate (by decide)⟩

end GemOS.Sched
