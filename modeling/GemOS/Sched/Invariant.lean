import GemOS.Lib.Run
import GemOS.Sched.Steps

/-!
# The invariant of the scheduler

Every legal entry keeps the invariant `Inv`, so that it holds in every state of a run: exactly one
context is running, it is the one that was set last, the swapper is never asleep or gone, and it
runs only when no other context is ready.
-/

namespace GemOS.Sched

variable {N : ℕ} {k k' : Kernel} {op : Op} {o : Outcome} {i q : ℕ} {f : ExecContext → ExecContext}

/-- The state in which a run starts: one process runs, and the swapper is ready. -/
structure Start (N : ℕ) (k : Kernel) : Prop where
  /-- The contexts have their index as their pid. -/
  pid : ∀ i < N, (k.ctx i).pid = i
  /-- The current context is one of the list. -/
  current_lt : k.current < N
  /-- Exactly the current context is running. -/
  running : ∀ i < N, (k.ctx i).state = .running ↔ i = k.current
  /-- The kernel stack is that of the current context. -/
  tss : k.tss = k.current
  /-- The swapper is ready. -/
  swapper : (k.ctx 0).state = .ready

theorem Start.inv (h : Start N k) : Inv N k := by
  refine ⟨h.pid, h.current_lt, h.running, h.tss, Or.inl h.swapper, fun hcur => ?_⟩
  -- The swapper is not the current context.
  have hrun := (h.running 0 (by have := h.current_lt; omega)).mpr hcur.symm
  rw [h.swapper] at hrun
  exact absurd hrun (by simp)

/-! ## Steps -/

/-- A switch to the context that was picked. -/
theorem inv_switch (hpid : ∀ i < N, (k.ctx i).pid = i)
    (hrun : ∀ i < N, i ≠ k.current → (k.ctx i).state ≠ .running)
    (hswapper : k.current ≠ 0 → (k.ctx 0).state = .ready)
    (hf : (f (k.ctx k.current)).pid = (k.ctx k.current).pid)
    (hown : (f (k.ctx k.current)).state ≠ .running)
    (hown0 : k.current = 0 → (f (k.ctx k.current)).state = .ready)
    (hq : Picked N (fun i => (k.ctx i).state) k.current q) (hne : q ≠ k.current)
    (hidle : q = 0 → (f (k.ctx k.current)).state ≠ .ready) : Inv N (k.switch f q) := by
  refine ⟨fun i hi => ?_, hq.lt, fun i hi => ?_, rfl, ?_, fun hq0 i hi h0 => ?_⟩
  · rw [k.switch_field ExecContext.pid hf fun _ => rfl, hpid i hi]
  · change _ ↔ i = q
    by_cases hiq : i = q
    · rw [hiq]
      exact iff_of_true (k.switch_self f q) rfl
    · refine iff_of_false ?_ hiq
      by_cases hic : i = k.current
      · rwa [hic, k.switch_old f hne]
      · rw [k.switch_of_ne f hic hiq]
        exact hrun i hi hic
  · -- The swapper is the one that was picked, the one that leaves, or was ready all along.
    by_cases h0 : q = 0
    · rw [← h0]
      exact Or.inr (k.switch_self f q)
    · by_cases hc0 : k.current = 0
      · rw [← hc0, k.switch_old f hne]
        exact Or.inl (hown0 hc0)
      · rw [k.switch_of_ne f (Ne.symm hc0) (Ne.symm h0)]
        exact Or.inl (hswapper hc0)
  · have hq0 : q = 0 := hq0
    by_cases hic : i = k.current
    · rw [hic, k.switch_old f hne]
      exact hidle hq0
    · rw [k.switch_of_ne f hic (by omega)]
      exact hq.idle hq0 i hi h0 hic

namespace Inv

variable (h : Inv N k)

include h

/-- While another context runs, the swapper is ready. -/
theorem swapper_ready (hcur : k.current ≠ 0) : (k.ctx 0).state = .ready := by
  have hlt := h.current_lt
  refine h.swapper.resolve_right fun hrun => hcur ?_
  exact ((h.running 0 (by omega)).mp hrun).symm

theorem not_running (hi : i < N) (hic : i ≠ k.current) : (k.ctx i).state ≠ .running :=
  fun hrun => hic ((h.running i hi).mp hrun)

/-- A change of the current context, of its alarm and its handlers. -/
theorem modify_current (hpid : (f (k.ctx k.current)).pid = (k.ctx k.current).pid)
    (hstate : (f (k.ctx k.current)).state = (k.ctx k.current).state) :
    Inv N (k.modify k.current f) := by
  have hs : ∀ i, ((k.modify k.current f).ctx i).state = (k.ctx i).state := fun i =>
    setCtx_field ExecContext.state hstate i
  refine ⟨fun i hi => ?_, h.current_lt, fun i hi => ?_, h.tss, ?_, fun h0 i hi hi0 => ?_⟩
  · exact (setCtx_field ExecContext.pid hpid i).trans (h.pid i hi)
  · rw [hs]
    exact h.running i hi
  · rw [hs]
    exact h.swapper
  · rw [hs]
    exact h.idle h0 i hi hi0

/-- An unused context becomes ready. -/
theorem modify_unused {slot : ℕ} (hcur : k.current ≠ 0) (h0 : slot ≠ 0)
    (hslot : (k.ctx slot).state = .unused) (hpid : (f (k.ctx slot)).pid = (k.ctx slot).pid)
    (hstate : (f (k.ctx slot)).state = .ready) (frames : List (Ledger.Event ℕ)) :
    Inv N { k with frames := frames, ctx := setCtx k.ctx slot f } := by
  have hs : ∀ i, i ≠ slot → setCtx k.ctx slot f i = k.ctx i := fun i hi => setCtx_of_ne _ _ hi
  have hsc : slot ≠ k.current := by
    rintro rfl
    rw [h.current_state] at hslot
    exact absurd hslot (by simp)
  refine ⟨fun i hi => ?_, h.current_lt, fun i hi => ?_, h.tss, ?_, fun hc => absurd hc hcur⟩
  · exact (setCtx_field ExecContext.pid hpid i).trans (h.pid i hi)
  · change (setCtx k.ctx slot f i).state = .running ↔ i = k.current
    by_cases his : i = slot
    · rw [his, setCtx_self, hstate]
      exact iff_of_false (by simp) hsc
    · rw [hs i his]
      exact h.running i hi
  · change (setCtx k.ctx slot f 0).state = .ready ∨ (setCtx k.ctx slot f 0).state = .running
    rw [hs 0 h0.symm]
    exact h.swapper

/-- Every entry keeps the invariant. -/
theorem effect (hop : Legal N k op) (heff : Effect N k op o k') : Inv N k' := by
  -- Waking a process up makes it ready and never running, and leaves the swapper alone.
  have hwoken : ∀ i < N, i ≠ k.current → (k.ctx i).woken.state ≠ .running := fun i hi hic => by
    rcases (k.ctx i).woken_state with hst | ⟨-, hst⟩
    · rw [hst]
      exact h.not_running hi hic
    · rw [hst]
      simp
  have hwoken₀ : k.current ≠ 0 → (k.ctx 0).woken.state = .ready := fun hcur => by
    rw [ExecContext.woken_of_ne (by rw [h.swapper_ready hcur]; simp)]
    exact h.swapper_ready hcur
  cases heff with
  | stay f userMem hidle =>
    have hs : ∀ i < N, ((k.ticked N userMem).ctx i).state = (k.ctx i).woken.state := fun i hi =>
      Kernel.ticked_field ExecContext.state ExecContext.alarmed_state k userMem hi
    have h0 : 0 < N := by
      have := h.current_lt
      omega
    refine ⟨fun i hi => ?_, h.current_lt, fun i hi => ?_, h.tss, ?_, fun hcur i hi hi0 => ?_⟩
    · rw [Kernel.ticked_field ExecContext.pid ExecContext.alarmed_pid k userMem hi,
        ExecContext.woken_pid, h.pid i hi]
    · rw [hs i hi, Kernel.ticked_current]
      by_cases hic : i = k.current
      · rw [hic, h.woken_current]
        exact iff_of_true h.current_state rfl
      · exact iff_of_false (hwoken i hi hic) hic
    · rw [hs 0 h0]
      by_cases hcur : k.current = 0
      · rw [← hcur, h.woken_current]
        exact Or.inr h.current_state
      · exact Or.inl (hwoken₀ hcur)
    · have hcur : k.current = 0 := hcur
      rw [hs i hi]
      exact hidle i hi hi0 (by omega)
  | preempt f userMem q hq h0 =>
    have hs : ∀ i < N, ((k.ticked N userMem).ctx i).state = (k.ctx i).woken.state := fun i hi =>
      Kernel.ticked_field ExecContext.state ExecContext.alarmed_state k userMem hi
    have hlt := h.current_lt
    refine inv_switch (fun i hi => ?_) (fun i hi hic => ?_) (fun hcur => ?_) rfl (by simp)
      (fun _ => rfl) (hq.congr fun i hi _ => hs i hi) (hq.ne (Or.inr h0)) fun hq0 => absurd hq0 h0
    · rw [Kernel.ticked_field ExecContext.pid ExecContext.alarmed_pid k userMem hi,
        ExecContext.woken_pid, h.pid i hi]
    · rw [hs i hi]
      exact hwoken i hi hic
    · rw [hs 0 (by omega)]
      exact hwoken₀ hcur
  | sleep ticks s q hq =>
    exact inv_switch h.pid (fun i => h.not_running) h.swapper_ready rfl (by simp)
      (fun h0 => absurd h0 hop) hq (hq.ne (Or.inl hop)) fun _ => by simp
  | exit s q hq =>
    exact inv_switch h.pid (fun i => h.not_running) h.swapper_ready rfl (by simp)
      (fun h0 => absurd h0 hop.1) hq (hq.ne (Or.inl hop.1)) fun _ => by simp
  | clone slot pfn thFunc userStack s =>
    obtain ⟨hcur, h0, -, hslot⟩ := hop
    exact h.modify_unused hcur h0 hslot rfl rfl _
  | signal signo handler ret sighandlers => exact h.modify_current rfl rfl
  | alarm ticks => exact h.modify_current rfl rfl

/-- Every legal entry returns and keeps the invariant. -/
theorem step (hop : Legal N k op) :
    ∃ o k', step N k op = some (o, k') ∧ Effect N k op o k' ∧ Inv N k' := by
  obtain ⟨o, k', hstep, heff⟩ := h.step_effect hop
  exact ⟨o, k', hstep, heff, h.effect hop heff⟩

end Inv

/-! ## The other contexts -/

/-- A timer interrupt. -/
def Op.isTick : Op → Bool
  | .tick _ => true
  | _ => false

/-- A context that is not current when the kernel is entered, after its ticks were counted. -/
def ExecContext.countedBy (op : Op) (c : ExecContext) : ExecContext :=
  if op.isTick then c.woken else c

/-- An entry does nothing to a context that is not current, nor that of a new process, but count its
ticks, and run it when it is ready. -/
theorem Effect.other (heff : Effect N k op o k') (h : Inv N k) (hop : Legal N k op) (hi : i < N)
    (hic : i ≠ k.current) (hslot : ∀ pfn thFunc userStack s, op ≠ .clone i pfn thFunc userStack s) :
    k'.ctx i = (k.ctx i).countedBy op ∨ o.picked = some i ∧
      ((k.ctx i).countedBy op).state = .ready ∧
      k'.ctx i = { (k.ctx i).countedBy op with state := .running } := by
  -- A context that is picked was ready.
  have hswitch : ∀ (k₁ : Kernel) (f : ExecContext → ExecContext) (q : ℕ), k₁.current = k.current →
      Picked N (fun i => (k₁.ctx i).state) k.current q → (k.current ≠ 0 ∨ q ≠ 0) →
      (k.current ≠ 0 → (k₁.ctx 0).state = .ready) → (k₁.switch f q).ctx i = k₁.ctx i ∨
        some q = some i ∧ (k₁.ctx i).state = .ready ∧
          (k₁.switch f q).ctx i = { k₁.ctx i with state := .running } := by
    intro k₁ f q hcur hq hne h0
    by_cases hiq : i = q
    · refine Or.inr ⟨by rw [hiq], ?_, ?_⟩
      · by_cases hq0 : q = 0
        · rw [hiq, hq0]
          exact h0 (hne.resolve_right (not_not.mpr hq0))
        · rw [hiq]
          exact (hq.ready hq0).2
      · rw [Kernel.switch_ctx, hiq, setCtx_self, setCtx_of_ne _ _ (by rw [hcur, ← hiq]; exact hic)]
    · exact Or.inl (k₁.switch_of_ne f (by rw [hcur]; exact hic) hiq)
  have hticked : ∀ um j, j < N → j ≠ k.current → (k.ticked N um).ctx j = (k.ctx j).woken := by
    intro um j hj hjc
    change setCtx (wokenUpTo N k.ctx) k.current ExecContext.alarmed j = _
    rw [setCtx_of_ne _ _ hjc, wokenUpTo, if_pos hj]
  cases heff with
  | stay f userMem _ => exact Or.inl (hticked userMem i hi hic)
  | preempt f userMem q hq h0 =>
    rw [show (k.ctx i).countedBy (.tick f) = (k.ticked N userMem).ctx i from
      (hticked userMem i hi hic).symm]
    refine hswitch (k.ticked N userMem) _ q rfl ?_ (Or.inr h0) fun hc0 => ?_
    · exact hq.congr fun j hj hjc => by rw [hticked userMem j hj hjc]
    · rw [hticked userMem 0 (by omega) hc0.symm,
        ExecContext.woken_of_ne (by rw [h.swapper_ready hc0]; simp), h.swapper_ready hc0]
  | sleep ticks s q hq => exact hswitch k _ q rfl hq (Or.inl hop) h.swapper_ready
  | exit s q hq =>
    exact hswitch { k with
      freeOsPfn := Function.update k.freeOsPfn k.current (k.ctx k.current).osStackPfn } _ q rfl hq
      (Or.inl hop.1) h.swapper_ready
  | clone slot pfn thFunc userStack s =>
    have his : i ≠ slot := by
      rintro rfl
      exact hslot pfn thFunc userStack s rfl
    exact Or.inl (setCtx_of_ne k.ctx _ his)
  | signal signo handler ret sighandlers => exact Or.inl (Kernel.modify_of_ne _ _ hic)
  | alarm ticks => exact Or.inl (Kernel.modify_of_ne _ _ hic)

/-- A context that is used is not that of a new process. -/
theorem Legal.ne_clone (hop : Legal N k op) (hused : (k.ctx i).state ≠ .unused) (pfn : ℕ)
    (thFunc userStack : Word) (s : Syscall) : op ≠ .clone i pfn thFunc userStack s := by
  rintro rfl
  exact hused hop.2.2.2

/-- An unused context stays as it is, or becomes that of a new process. -/
theorem Effect.unused (heff : Effect N k op o k') (h : Inv N k) (hop : Legal N k op) (hi : i < N)
    (hst : (k.ctx i).state = .unused) : k'.ctx i = k.ctx i ∨ ∃ pfn thFunc userStack s,
      op = .clone i pfn thFunc userStack s ∧
      k'.ctx i = k.childCtx pfn thFunc userStack s (k.ctx i) := by
  have hic : i ≠ k.current := by
    rintro rfl
    rw [h.current_state] at hst
    exact absurd hst (by simp)
  by_cases hslot : ∀ pfn thFunc userStack s, op ≠ .clone i pfn thFunc userStack s
  · have hcount : (k.ctx i).countedBy op = k.ctx i := by
      unfold ExecContext.countedBy
      rw [ExecContext.woken_of_ne (by rw [hst]; simp), ite_self]
    rcases heff.other h hop hi hic hslot with hctx | ⟨-, hready, -⟩
    · exact Or.inl (hctx.trans hcount)
    · rw [hcount, hst] at hready
      exact absurd hready (by simp)
  · push Not at hslot
    obtain ⟨pfn, thFunc, userStack, s, rfl⟩ := hslot
    refine Or.inr ⟨pfn, thFunc, userStack, s, rfl, ?_⟩
    cases heff
    exact setCtx_self k.ctx i _

/-- The current context waits only after its own `do_sleep`. -/
theorem Effect.current_waiting (heff : Effect N k op o k') (h : Inv N k) (hop : Legal N k op)
    (hw : (k'.ctx k.current).state = .waiting) :
    ∃ n s, op = .sleep n s ∧ (k'.ctx k.current).ticksToSleep = n := by
  have hrun : ∀ f : ExecContext → ExecContext, (f (k.ctx k.current)).state =
      (k.ctx k.current).state →
      ((k.modify k.current f).ctx k.current).state = .running := fun f hf => by
    rw [Kernel.modify_self, hf, h.current_state]
  cases heff with
  | stay f userMem _ =>
    rw [Kernel.ticked_field ExecContext.state ExecContext.alarmed_state k userMem h.current_lt,
      h.woken_current, h.current_state] at hw
    exact absurd hw (by simp)
  | preempt f userMem q hq h0 =>
    rw [Kernel.switch_ctx, setCtx_of_ne _ _ (hq.ne (Or.inr h0)).symm, Kernel.ticked_current,
      setCtx_self] at hw
    exact absurd hw (by simp)
  | sleep ticks s q hq => exact ⟨ticks, s, rfl, by rw [Kernel.switch_old _ _ (hq.ne (Or.inl hop))]⟩
  | exit s q hq =>
    rw [Kernel.switch_ctx, setCtx_of_ne _ _ (hq.ne (Or.inl hop.1)).symm, setCtx_self] at hw
    exact absurd hw (by simp)
  | clone slot pfn thFunc userStack s =>
    have hne : k.current ≠ slot := fun heq => by
      have := h.current_state
      rw [heq, hop.2.2.2] at this
      exact absurd this (by simp)
    have hstate : (setCtx k.ctx slot (k.childCtx pfn thFunc userStack s) k.current).state =
      .waiting := hw
    rw [setCtx_of_ne _ _ hne, h.current_state] at hstate
    exact absurd hstate (by simp)
  | signal signo handler ret sighandlers => exact absurd (hw.symm.trans (hrun _ rfl)) (by simp)
  | alarm ticks => exact absurd (hw.symm.trans (hrun _ rfl)) (by simp)

/-! ## Runs -/

/-- What should hold in every state. -/
structure Consistent (N : ℕ) (k : Kernel) : Prop where
  /-- Exactly one context is running: the one that was given last to `set_current_ctx` and
  `set_tss_stack_ptr`. -/
  running : ∃ i < N, ((k.ctx i).state = .running ∧ ∀ j < N, (k.ctx j).state = .running → j = i) ∧
    k.current = i ∧ k.tss = i
  /-- The swapper is not asleep. -/
  not_waiting : (k.ctx 0).state ≠ .waiting
  /-- The swapper is not gone. -/
  not_unused : (k.ctx 0).state ≠ .unused
  /-- The swapper is current only when no other context is ready. -/
  idle : k.current = 0 → ∀ i < N, i ≠ 0 → (k.ctx i).state ≠ .ready

theorem Inv.consistent (h : Inv N k) : Consistent N k := by
  refine ⟨⟨k.current, h.current_lt, ⟨h.current_state, fun j hj => (h.running j hj).mp⟩, rfl, h.tss⟩,
    ?_, ?_, h.idle⟩
  · rcases h.swapper with hs | hs <;> simp [hs]
  · rcases h.swapper with hs | hs <;> simp [hs]

/-- Every run of legal entries returns and keeps the invariant. -/
theorem Inv.run (h : Inv N k) {ops : List Op} (hops : Run.Along (Sched.step N) (Legal N) k ops) :
    ∃ hist k', Run.run (Sched.step N) k ops = some (hist, k') ∧ Inv N k' := by
  obtain ⟨hist, k', hrun, h'⟩ :=
    Run.run_of_step (h := []) (fun k (_ : List (Op × Outcome)) => Inv N k)
    (fun k _ op hk hop => by
      obtain ⟨o, k', hstep, -, hk'⟩ := hk.step hop
      exact ⟨o, k', hstep, hk'⟩) h hops
  exact ⟨hist, k', hrun, h'⟩

/-- In every state of a run, exactly one context is running and is the current one, the swapper is
neither asleep nor gone, and it is current only when no other context is ready. -/
theorem run_consistent (N : ℕ) (k : Kernel) (hk : Start N k) (ops : List Op)
    (hops : Run.Along (step N) (Legal N) k ops) :
    ∃ hist k', Run.run (step N) k ops = some (hist, k') ∧ Consistent N k' := by
  obtain ⟨hist, k', hrun, h⟩ := hk.inv.run hops
  exact ⟨hist, k', hrun, h.consistent⟩

/-- Registers that are 0. -/
def zeroRegs : Regs := ⟨0, 0, 0, 0, 0, 0, 0, 0, 0, 0, 0, 0, 0, 0, 0, 0, 0, 0, 0, 0⟩

/-- A kernel in which process 1 runs, on the kernel stack in frame 1, and the swapper is ready. -/
def boot : Kernel where
  ctx i := ⟨i, if i = 0 then .ready else if i = 1 then .running else .unused, zeroRegs,
    if i = 1 then 1 else 0, 0, 0, 0, fun _ => 0⟩
  current := 1
  tss := 1
  freeOsPfn _ := 0
  frames := []
  userMem _ := 0

/-- A system call. -/
def call : Syscall := ⟨zeroRegs, fun _ => 0, 0⟩

/-- A timer interrupt. -/
def interrupt : Interrupt := ⟨zeroRegs, fun _ => 0, 0, 14, le_refl _⟩

theorem start_boot {N : ℕ} (hN : 2 ≤ N) : Start N boot := by
  refine ⟨fun _ _ => rfl, hN, fun i _ => ?_, rfl, rfl⟩
  change (if i = 0 then State.ready else if i = 1 then .running else .unused) = .running ↔ i = 1
  split_ifs <;> simp_all

/-- Process 1 sleeps, and wakes up while the swapper runs. -/
theorem run_consistent_sleep :
    ∃ hist k', Run.run (step 4) boot [.sleep 1 call, .tick interrupt] = some (hist, k') ∧
      Consistent 4 k' := by
  exact run_consistent 4 boot (start_boot (by decide)) [.sleep 1 call, .tick interrupt] (by decide)

end GemOS.Sched
