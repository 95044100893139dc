import GemOS.Lib.Rotation
import GemOS.Sched.Overtaking
import GemOS.Sched.Sleep

/-!
# Round robin

As long as no process sleeps, exits, wakes up, or is started (`Quiet`), the processes that are ready
take turns. `run_round_robin`: every tick gives the CPU to the next one in the order of the list,
again and again, so that all get the same share. Each switch brings the next one to the end of the
order (`Effect.turn`), which is the rotation of `Cyclic.rotation_closest`.
-/

namespace GemOS.Sched

variable {N q : ℕ} {k k' : Kernel} {op : Op} {o : Outcome} {ops : List Op}
  {hist : List (Op × Outcome)}

/-- The processes that take turns. -/
def Kernel.takesTurns (k : Kernel) (i : ℕ) : Bool :=
  i ≠ 0 ∧ ((k.ctx i).state = .ready ∨ i = k.current)

/-- They are in the order of the list behind the current one, which is the last. -/
def Kernel.queue (N : ℕ) (k : Kernel) : List ℕ := Cyclic.rotation N k.takesTurns k.current

/-- No process sleeps, exits, or is started by the call. -/
def Op.keeps : Op → Bool
  | .tick _ | .signal _ _ | .alarm _ => true
  | _ => false

/-- The processes that are ready stay the same in the run: none is lost or started, and no sleeper
wakes up. -/
structure Quiet (N : ℕ) (k : Kernel) (ops : List Op) : Prop where
  /-- No process is lost or started. -/
  keeps : ∀ op ∈ ops, op.keeps = true
  /-- Those that sleep do so for longer, or for ever. -/
  asleep : ∀ i < N, (k.ctx i).state = .waiting →
    (k.ctx i).ticksToSleep = 0 ∨ ticksOf ops < (k.ctx i).ticksToSleep

/-- The decisions `l` of `t` ticks are the turns of the processes of the queue. -/
structure RoundRobin (queue : List ℕ) (t : ℕ) (l : List ℕ) : Prop where
  /-- When there are several, the CPU goes around the queue. -/
  order : 2 ≤ queue.length → l = Cyclic.turns queue t
  /-- Each gets the same share, and one turn more when it is among the first. -/
  share : 2 ≤ queue.length → ∀ p ∈ queue,
    l.count p = t / queue.length + if queue.idxOf p < t % queue.length then 1 else 0
  /-- One that is alone keeps the CPU. -/
  alone : queue.length < 2 → l = []

/-! ## One entry -/

theorem ticksOf_cons (op : Op) (ops : List Op) :
    ticksOf (op :: ops) = ticksOf ops + if op.isTick then 1 else 0 := List.countP_cons

/-- The ticks of a quiet run wake nobody up. -/
theorem Quiet.countedBy (h : Quiet N k (op :: ops)) {i : ℕ} (hi : i < N) :
    ((k.ctx i).countedBy op).state = (k.ctx i).state ∧ ((k.ctx i).state = .waiting →
      ((k.ctx i).countedBy op).ticksToSleep = 0 ∨
        ticksOf ops < ((k.ctx i).countedBy op).ticksToSleep) := by
  unfold ExecContext.countedBy
  cases htick : op.isTick with
  | false =>
    rw [if_neg (by simp)]
    refine ⟨rfl, fun hw => (h.asleep i hi hw).imp_right fun hlt => ?_⟩
    rw [ticksOf_cons, htick] at hlt
    simpa using hlt
  | true =>
    rw [if_pos rfl]
    by_cases hw : (k.ctx i).state = .waiting
    · rcases h.asleep i hi hw with h0 | hlt
      · have heq : (k.ctx i).woken = k.ctx i := if_neg fun hc => by omega
        rw [heq]
        exact ⟨rfl, fun _ => Or.inl h0⟩
      · rw [ticksOf_cons, htick, if_pos rfl] at hlt
        obtain ⟨hst, hticks⟩ := ExecContext.woken_many hw (by omega)
        rw [hst, hticks]
        exact ⟨hw.symm, fun _ => Or.inr (by omega)⟩
    · rw [ExecContext.woken_of_ne hw]
      exact ⟨rfl, fun hw' => absurd hw' hw⟩

/-- In a quiet run, a context that is not current stays as it is, or gets the CPU. -/
theorem Effect.quiet_other (heff : Effect N k op o k') (h : Inv N k) (hop : Legal N k op)
    (hq : Quiet N k (op :: ops)) {i : ℕ} (hi : i < N) (hic : i ≠ k.current) :
    k'.ctx i = (k.ctx i).countedBy op ∨ o.picked = some i ∧ (k.ctx i).state = .ready ∧
      (k'.ctx i).state = .running := by
  have hkeep := hq.keeps op List.mem_cons_self
  refine (heff.other h hop hi hic fun pfn thFunc userStack s heq => ?_).imp_right
    fun ⟨hpick, hready, hctx⟩ => ⟨hpick, ?_, by rw [hctx]⟩
  · rw [heq] at hkeep
    exact absurd hkeep (by simp [Op.keeps])
  · rw [← (hq.countedBy hi).1, hready]

/-- The rest of a quiet run is quiet. -/
theorem Effect.quiet (heff : Effect N k op o k') (h : Inv N k) (hop : Legal N k op)
    (hq : Quiet N k (op :: ops)) : Quiet N k' ops := by
  refine ⟨fun op' hmem => hq.keeps op' (List.mem_cons_of_mem op hmem), fun i hi hw => ?_⟩
  by_cases hic : i = k.current
  · obtain ⟨n, s, rfl, -⟩ := heff.current_waiting h hop (by rw [← hic, hw])
    exact absurd (hq.keeps _ List.mem_cons_self) (by simp [Op.keeps])
  · rcases heff.quiet_other h hop hq hi hic with hctx | ⟨-, -, hrun⟩
    · obtain ⟨hst, hasleep⟩ := hq.countedBy hi
      rw [hctx] at hw ⊢
      exact hasleep (hst.symm.trans hw)
    · rw [hrun] at hw
      exact absurd hw (by simp)

/-- When nobody gets the CPU, the queue stays. -/
theorem Effect.queue_stay (heff : Effect N k op o k') (h : Inv N k) (hop : Legal N k op)
    (hq : Quiet N k (op :: ops)) (hnone : o.picked = none) (hcur : k'.current = k.current) :
    k'.queue N = k.queue N := by
  rw [Kernel.queue, Kernel.queue, hcur]
  refine Cyclic.rotation_congr fun i hi => ?_
  unfold Kernel.takesTurns
  rw [hcur]
  by_cases hic : i = k.current
  · simp [hic]
  · rcases heff.quiet_other h hop hq hi hic with hctx | ⟨hpick, -⟩
    · rw [hctx, (hq.countedBy hi).1]
    · rw [hnone] at hpick
      exact absurd hpick (by simp)

/-- When the tick finds no other process ready, the queue is short. -/
theorem Inv.queue_short (h : Inv N k)
    (hidle : ∀ i < N, i ≠ 0 → i ≠ k.current → (k.ctx i).state ≠ .ready) :
    (k.queue N).length < 2 := by
  have honly : ∀ i ∈ k.queue N, i = k.current := fun i hi => by
    obtain ⟨hlt, hturn⟩ := (Cyclic.mem_rotation h.current_lt).mp hi
    obtain ⟨h0, hst⟩ : i ≠ 0 ∧ ((k.ctx i).state = .ready ∨ i = k.current) := by
      simpa [Kernel.takesTurns] using hturn
    by_contra hic
    exact hidle i hlt h0 hic (hst.resolve_right hic)
  have hnodup : (k.queue N).Nodup := Cyclic.rotation_nodup
  have hle := (hnodup.subperm fun i hi => List.mem_singleton.mpr (honly i hi)).length_le
  rw [List.length_singleton] at hle
  omega

/-- A quiet entry leaves the queue as it is, or gives the CPU to the first of it, who goes to its
end. -/
theorem Effect.turn (heff : Effect N k op o k') (h : Inv N k) (hop : Legal N k op)
    (hq : Quiet N k (op :: ops)) :
    (op.isTick = true → (k.queue N).length < 2) ∧ o.picked = none ∧ k'.current = k.current ∧
        k'.queue N = k.queue N ∨
      op.isTick = true ∧ ∃ q l, o.picked = some q ∧ k'.current = q ∧ l ≠ [] ∧
        k.queue N = q :: l ∧ k'.queue N = l ++ [q] := by
  have heff' := heff
  have hkeep := hq.keeps op List.mem_cons_self
  have hwoken : ∀ f, op = .tick f → ∀ i < N, (k.ctx i).woken.state = (k.ctx i).state := by
    rintro f rfl i hi
    exact (hq.countedBy hi).1
  cases heff with
  | stay f userMem hidle =>
    refine Or.inl ⟨fun _ => h.queue_short fun i hi h0 hic => ?_, rfl, rfl,
      heff'.queue_stay h hop hq rfl rfl⟩
    rw [← hwoken f rfl i hi]
    exact hidle i hi h0 hic
  | preempt f userMem q hpicked h0 =>
    have hst : Picked N (fun i => (k.ctx i).state) k.current q :=
      hpicked.congr fun i hi _ => (hwoken f rfl i hi).symm
    obtain ⟨hqc, hready⟩ := hst.ready h0
    -- The swapper is current only when no other one is ready.
    have hc0 : k.current ≠ 0 := fun hc => h.idle hc q hst.lt h0 hready
    obtain ⟨l, hqueue, hnext⟩ := Cyclic.rotation_closest (p := k.takesTurns) h.current_lt hst.lt
      hqc (by simp [Kernel.takesTurns, h0, hready]) fun c hc hcc hturn => by
        obtain ⟨hc0, hcst⟩ : c ≠ 0 ∧ ((k.ctx c).state = .ready ∨ c = k.current) := by
          simpa [Kernel.takesTurns] using hturn
        exact (hst.closest c hc hc0 hcc (hcst.resolve_right hcc)).2
    refine Or.inr ⟨rfl, q, l, rfl, rfl, ?_, hqueue, ?_⟩
    · rintro rfl
      have hmem : k.current ∈ k.queue N := (Cyclic.mem_rotation h.current_lt).mpr
        ⟨h.current_lt, by simp [Kernel.takesTurns, hc0]⟩
      have hq1 : k.queue N = [q] := hqueue
      rw [hq1, List.mem_singleton] at hmem
      exact hqc hmem.symm
    · rw [← hnext]
      refine Cyclic.rotation_congr fun i hi => ?_
      by_cases hiq : i = q
      · simp [Kernel.takesTurns, hiq, hready, Kernel.switch]
      · by_cases hic : i = k.current
        · have hold := (k.ticked N userMem).switch_old (fun c => { c with
            state := .ready
            regs := redirect (k.ctx k.current).delivered f.regs }) hqc
          rw [k.ticked_current] at hold
          simp [Kernel.takesTurns, hic, hold]
        · have hother := heff'.quiet_other h hop hq hi hic
          have hctx := hother.resolve_right fun hr => hiq (Option.some.inj hr.1).symm
          have hsame := (hq.countedBy hi).1
          rw [← hctx] at hsame
          have hcur : ((k.ticked N userMem).switch (fun c => { c with
            state := .ready
            regs := redirect (k.ctx k.current).delivered f.regs }) q).current = q := rfl
          unfold Kernel.takesTurns
          rw [hcur, hsame]
          simp [hiq, hic]
  | sleep ticks s q hst => exact absurd hkeep (by simp [Op.keeps])
  | exit s q hst => exact absurd hkeep (by simp [Op.keeps])
  | clone slot pfn thFunc userStack s => exact absurd hkeep (by simp [Op.keeps])
  | signal signo handler ret sighandlers =>
    exact Or.inl ⟨fun htick => absurd htick (by simp [Op.isTick]), rfl, rfl,
      heff'.queue_stay h hop hq rfl rfl⟩
  | alarm ticks =>
    exact Or.inl ⟨fun htick => absurd htick (by simp [Op.isTick]), rfl, rfl,
      heff'.queue_stay h hop hq rfl rfl⟩

/-! ## Runs -/

theorem picks_cons (e : Op × Outcome) (hist : List (Op × Outcome)) :
    picks (e :: hist) = e.2.picked.toList ++ picks hist := by
  unfold picks
  cases h : e.2.picked <;> simp [h]

/-- The decisions of a quiet run, and who has the CPU in the end. -/
theorem Inv.turns (h : Inv N k) (hops : Run.Along (Sched.step N) (Legal N) k ops)
    (hq : Quiet N k ops) :
    ∃ hist k', Run.run (Sched.step N) k ops = some (hist, k') ∧
      picks hist = (if 2 ≤ (k.queue N).length then Cyclic.turns (k.queue N) (ticksOf ops) else []) ∧
      k'.current = (picks hist).getLastD k.current := by
  induction ops generalizing k with
  | nil => exact ⟨[], k, rfl, by simp [picks, ticksOf, Cyclic.turns], rfl⟩
  | cons op ops ih =>
    obtain ⟨o, k₁, hstep, heff, h₁⟩ := h.step hops.1
    obtain ⟨hist, k', hrun, hpicks, hcur⟩ := ih h₁ (hops.2 o k₁ hstep) (heff.quiet h hops.1 hq)
    refine ⟨(op, o) :: hist, k', Run.run_cons hstep hrun, ?_⟩
    rw [picks_cons]
    rcases heff.turn h hops.1 hq with ⟨hshort, hnone, hsame, hqueue⟩ |
      ⟨htick, q, l, hsome, hnext, hl, hqueue, hqueue'⟩
    · rw [hnone, Option.toList_none, List.nil_append, hpicks, hcur, hsame, hqueue]
      refine ⟨?_, by rw [hpicks, hqueue]⟩
      split_ifs with hlen
      · have hno : op.isTick = false := by
          cases htick : op.isTick with
          | false => rfl
          | true => exact absurd (hshort htick) (by omega)
        rw [ticksOf_cons, hno]
        simp
      · rfl
    · have hpos := List.length_pos_of_ne_nil hl
      have hlen : 2 ≤ (q :: l).length := by
        rw [List.length_cons]
        omega
      have hlen' : 2 ≤ (l ++ [q]).length := by
        rw [List.length_append, List.length_singleton]
        omega
      rw [hqueue', if_pos hlen'] at hpicks
      rw [hsome, Option.toList_some, List.singleton_append, hcur, hnext, List.getLastD_cons,
        hqueue, if_pos hlen, ticksOf_cons, htick, if_pos rfl, Cyclic.turns_succ, hpicks]
      exact ⟨rfl, rfl⟩

/-- In every run in which no process sleeps, exits, wakes up, or is started, the processes that are
ready take turns in the order of the list, one turn for each tick, and get the same share; the one
that was picked last has the CPU. -/
theorem run_round_robin (N : ℕ) (k : Kernel) (hk : Start N k) (before : List Op)
    (hbefore : Run.Along (step N) (Legal N) k before) (hist₁ : List (Op × Outcome)) (k₁ : Kernel)
    (hrun : Run.run (step N) k before = some (hist₁, k₁)) (ops : List Op)
    (hops : Run.Along (step N) (Legal N) k₁ ops) (hquiet : Quiet N k₁ ops) :
    ∃ hist k₂, Run.run (step N) k₁ ops = some (hist, k₂) ∧
      RoundRobin (k₁.queue N) (ticksOf ops) (picks hist) ∧
      k₂.current = (picks hist).getLastD k₁.current := by
  obtain ⟨hist', k', hrun', hinv⟩ := hk.inv.run hbefore
  obtain rfl : k' = k₁ := by simpa using congrArg (Option.map Prod.snd) (hrun'.symm.trans hrun)
  obtain ⟨hist, k₂, hrun₂, hpicks, hcur⟩ := hinv.turns hops hquiet
  refine ⟨hist, k₂, hrun₂, ⟨fun hlen => ?_, fun hlen p hp => ?_, fun hlen => ?_⟩, hcur⟩
  · rw [hpicks, if_pos hlen]
  · rw [hpicks, if_pos hlen]
    exact Cyclic.count_turns Cyclic.rotation_nodup hp _
  · rw [hpicks, if_neg (by omega)]

/-- Process 1 has started processes 2 and 3, and process 2 sleeps while 1 and 3 take turns. -/
theorem run_round_robin_three :
    ∃ hist₁ k₁, Run.run (step 4) boot [.clone 2 5 0 0 call, .clone 3 6 0 0 call, .tick interrupt,
        .sleep 9 call] = some (hist₁, k₁) ∧
      ∃ hist k₂, Run.run (step 4) k₁ [.tick interrupt, .alarm 3, .tick interrupt,
          .tick interrupt] = some (hist, k₂) ∧
        RoundRobin (k₁.queue 4) 3 (picks hist) ∧
        k₂.current = (picks hist).getLastD k₁.current := by
  refine ⟨_, _, rfl, run_round_robin 4 boot (start_boot (by decide)) [.clone 2 5 0 0 call,
    .clone 3 6 0 0 call, .tick interrupt, .sleep 9 call] (by decide) _ _ rfl
    [.tick interrupt, .alarm 3, .tick interrupt, .tick interrupt] (by decide) ⟨?_, ?_⟩⟩
  · simp [Op.keeps]
  · decide

end GemOS.Sched
