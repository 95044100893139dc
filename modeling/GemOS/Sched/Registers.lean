import GemOS.Sched.Overtaking

/-!
# The registers of a process

A process that gets the CPU again finds its registers as they were when it lost it. `record` reads
off the history of a run what every process should get back: the registers of its own trap frame,
with the `rax` that was saved before when it slept. The contexts always have these registers
(`Effect.kept`), on whichever path they were saved, and a switch pops those of the context that was
picked. `do_sleep` does not save `rax`, in which its result should be, so that a process finds there
what it kept before the call (`run_sleep_result`).
-/

namespace GemOS.Sched

variable {N p i : ℕ} {k k' : Kernel} {op : Op} {o : Outcome} {hist : List (Op × Outcome)}

/-- How a process lost the CPU. -/
structure Loss where
  /-- The registers that it had, with its handler put in their way when the tick delivered a
  `SIGALRM`. -/
  regs : Regs
  /-- It was preempted by a timer tick, and did not sleep. -/
  byTick : Bool

/-- What the history of a run says about the processes. -/
structure Record where
  /-- The process that has the CPU. -/
  current : ℕ
  /-- The registers that every process has kept, when it does not have the CPU. -/
  saved : ℕ → Regs
  /-- How every process lost the CPU last, if it did. -/
  lost : ℕ → Option Loss

namespace Record

/-- The current process loses the CPU to `q`. -/
def switch (r : Record) (q : ℕ) (regs : Regs) (loss : Option Loss) : Record where
  current := q
  saved := Function.update r.saved r.current regs
  lost := Function.update r.lost r.current loss

/-- The record after one more entry. The registers of a process change when it loses the CPU, and
when it is started. -/
def next (r : Record) : Op × Outcome → Record
  | (.tick f, { picked := some q, handler := handler, .. }) =>
    r.switch q (redirect handler f.regs) (some ⟨redirect handler f.regs, true⟩)
  | (.sleep _ s, { picked := some q, .. }) =>
    r.switch q (s.regs.withRax (r.saved r.current)) (some ⟨s.regs, false⟩)
  | (.exit s, { picked := some q, .. }) => r.switch q (s.regs.withRax (r.saved r.current)) none
  | (.clone slot _ thFunc userStack s, _) => { r with
    saved := Function.update r.saved slot
      (Kernel.childRegs (r.saved r.current) (trapSyscall s (s.rbp + 18)) thFunc userStack)
    lost := Function.update r.lost slot none }
  | _ => r

end Record

/-- The record of the history of a run from `k`. -/
def record (k : Kernel) (hist : List (Op × Outcome)) : Record :=
  hist.foldl Record.next ⟨k.current, fun i => (k.ctx i).regs, fun _ => none⟩

theorem record_concat (k : Kernel) (hist : List (Op × Outcome)) (e : Op × Outcome) :
    record k (hist ++ [e]) = (record k hist).next e := by
  simp [record]

/-- The registers that the process `q` gets. -/
structure Resumed (r : Record) (q : ℕ) (regs : Regs) : Prop where
  /-- They are those that it has kept itself. -/
  own : regs = r.saved q
  /-- All but `rax` are those that it had when it lost the CPU. -/
  frame : ∀ loss, r.lost q = some loss → regs.withRax loss.regs = loss.regs
  /-- `rax` is, too, when it was preempted. -/
  rax : ∀ loss, r.lost q = some loss → loss.byTick → regs = loss.regs

/-! ## The contexts keep the registers -/

/-- What a process has kept agrees with what it had when it lost the CPU. -/
def Record.Agrees (r : Record) : Prop := ∀ q, Resumed r q (r.saved q)

theorem Record.Agrees.switch {r : Record} (h : r.Agrees) (q : ℕ) {regs : Regs} {loss : Option Loss}
    (hloss : ∀ l, loss = some l → regs.withRax l.regs = l.regs ∧ (l.byTick → regs = l.regs)) :
    (r.switch q regs loss).Agrees := by
  intro p
  by_cases hp : p = r.current
  · subst hp
    refine ⟨rfl, fun l hl => ?_, fun l hl => ?_⟩ <;>
      simp only [Record.switch, Function.update_self] at hl ⊢
    · exact (hloss l hl).1
    · exact (hloss l hl).2
  · refine ⟨rfl, fun l hl => ?_, fun l hl => ?_⟩ <;>
      simp only [Record.switch, Function.update_of_ne hp] at hl ⊢
    · exact (h p).frame l hl
    · exact (h p).rax l hl

theorem Record.Agrees.next {r : Record} (h : r.Agrees) (e : Op × Outcome) : (r.next e).Agrees := by
  unfold Record.next
  split
  · exact h.switch _ (by rintro l ⟨⟩; exact ⟨rfl, fun _ => rfl⟩)
  · exact h.switch _ (by rintro l ⟨⟩; exact ⟨rfl, fun hf => absurd hf (by simp)⟩)
  · exact h.switch _ (by rintro l ⟨⟩)
  · rename_i slot _ _ _ _ _
    intro p
    by_cases hp : p = slot
    · subst hp
      refine ⟨rfl, fun l hl => ?_, fun l hl => ?_⟩ <;> simp at hl
    · refine ⟨rfl, fun l hl => ?_, fun l hl => ?_⟩ <;> simp only [Function.update_of_ne hp] at hl ⊢
      · exact (h p).frame l hl
      · exact (h p).rax l hl
  · exact h

/-- What holds after every entry of a run: the contexts have the registers that the record says. -/
structure Kept (N : ℕ) (k : Kernel) (r : Record) : Prop where
  /-- The process that has the CPU. -/
  current : r.current = k.current
  /-- The registers of the contexts. -/
  saved : ∀ i < N, (k.ctx i).regs = r.saved i

theorem Kept.switch {r : Record} (h : Kept N k r) {f : ExecContext → ExecContext} {regs : Regs}
    (hf : (f (k.ctx k.current)).regs = regs) (q : ℕ) (loss : Option Loss) :
    Kept N (k.switch f q) (r.switch q regs loss) := by
  refine ⟨rfl, fun i hi => ?_⟩
  rw [k.switch_update ExecContext.regs f fun _ => rfl, hf]
  change _ = Function.update r.saved r.current regs i
  rw [h.current]
  by_cases hic : i = k.current
  · rw [hic, Function.update_self, Function.update_self]
  · rw [Function.update_of_ne hic, Function.update_of_ne hic, h.saved i hi]

/-- Every entry keeps it. -/
theorem Effect.kept (heff : Effect N k op o k') (h : Inv N k) {r : Record} (hr : Kept N k r) :
    Kept N k' (r.next (op, o)) := by
  -- A tick by itself saves and restores no registers.
  have hticked : ∀ um, Kept N (k.ticked N um) r := fun um => by
    refine ⟨hr.current, fun i hi => ?_⟩
    rw [Kernel.ticked_field ExecContext.regs ExecContext.alarmed_regs k um hi,
      ExecContext.woken_regs, hr.saved i hi]
  have hown : (k.ctx k.current).regs = r.saved r.current := by
    rw [hr.current, hr.saved _ h.current_lt]
  cases heff with
  | stay f userMem _ => exact hticked userMem
  | preempt f userMem q hq h0 => exact (hticked userMem).switch rfl q _
  | sleep ticks s q hq => exact hr.switch (congrArg s.regs.withRax hown) q _
  | exit s q hq =>
    have hfree : Kept N { k with
      freeOsPfn := Function.update k.freeOsPfn k.current (k.ctx k.current).osStackPfn } r :=
        ⟨hr.current, hr.saved⟩
    exact hfree.switch (congrArg s.regs.withRax hown) q _
  | clone slot pfn thFunc userStack s =>
    refine ⟨hr.current, fun i hi => ?_⟩
    change (setCtx k.ctx slot (k.childCtx pfn thFunc userStack s) i).regs =
      Function.update r.saved slot
      (Kernel.childRegs (r.saved r.current) (trapSyscall s (s.rbp + 18)) thFunc userStack) i
    by_cases his : i = slot
    · rw [his, setCtx_self, Function.update_self, ← hown]
      rfl
    · rw [setCtx_of_ne _ _ his, Function.update_of_ne his, hr.saved i hi]
  | signal signo handler ret sighandlers =>
    refine ⟨hr.current, fun i hi => ?_⟩
    exact (setCtx_field ExecContext.regs rfl i).trans (hr.saved i hi)
  | alarm ticks =>
    refine ⟨hr.current, fun i hi => ?_⟩
    exact (setCtx_field ExecContext.regs rfl i).trans (hr.saved i hi)

/-- A switch pops the registers of the context that was picked. -/
theorem Effect.popped (heff : Effect N k op o k') {q : ℕ} (hq : o.picked = some q) :
    q < N ∧ o.popped = some (k.ctx q).regs := by
  cases heff with
  | stay f userMem _ => exact absurd hq (by simp)
  | preempt f userMem _ hpick h0 =>
    obtain rfl := Option.some.inj hq
    exact ⟨hpick.lt, rfl⟩
  | sleep ticks s _ hpick =>
    obtain rfl := Option.some.inj hq
    exact ⟨hpick.lt, rfl⟩
  | exit s _ hpick =>
    obtain rfl := Option.some.inj hq
    exact ⟨hpick.lt, rfl⟩
  | clone slot pfn thFunc userStack s => exact absurd hq (by simp)
  | signal signo handler ret sighandlers => exact absurd hq (by simp)
  | alarm ticks => exact absurd hq (by simp)

/-! ## All runs -/

/-- Whenever a process gets the CPU in a run, it gets the registers that it had when it lost it, but
for `rax` when it slept, and no register of another process. -/
theorem run_resumed (N : ℕ) (k : Kernel) (hk : Start N k) (ops : List Op)
    (hops : Run.Along (step N) (Legal N) k ops) :
    ∃ hist k', Run.run (step N) k ops = some (hist, k') ∧
      ∀ pre op o post q, hist = pre ++ (op, o) :: post → o.picked = some q →
        ∃ regs, o.popped = some regs ∧ Resumed (record k pre) q regs := by
  obtain ⟨hist, k', hrun, -, hall⟩ := Run.history_of_step
    (fun k' hist => Inv N k' ∧ Kept N k' (record k hist) ∧ (record k hist).Agrees)
    (fun pre op o => ∀ q, o.picked = some q → ∃ regs, o.popped = some regs ∧
      Resumed (record k pre) q regs)
    (fun k' hist op ⟨hinv, hkept, hagrees⟩ hop => by
      obtain ⟨o, k'', hstep, heff, hinv'⟩ := hinv.step hop
      refine ⟨o, k'', hstep, ⟨hinv', ?_⟩, fun q hq => ?_⟩
      · rw [record_concat]
        exact ⟨heff.kept hinv hkept, hagrees.next (op, o)⟩
      · obtain ⟨hlt, hpop⟩ := heff.popped hq
        refine ⟨_, hpop, ?_⟩
        rw [hkept.saved q hlt]
        exact hagrees q)
    ⟨hk.inv, ⟨rfl, fun _ _ => rfl⟩, fun q =>
      ⟨rfl, fun l hl => absurd hl (by simp [record]), fun l hl =>
      absurd hl (by simp [record])⟩⟩ hops
  exact ⟨hist, k', hrun, fun pre op o post q heq => hall pre op o post heq q⟩

/-- Process 1 sleeps, and gets its registers back after a tick. -/
theorem run_resumed_sleep :
    ∃ hist k', Run.run (step 4) boot [.sleep 1 call, .tick interrupt] = some (hist, k') ∧
      ∀ pre op o post q, hist = pre ++ (op, o) :: post → o.picked = some q →
        ∃ regs, o.popped = some regs ∧ Resumed (record boot pre) q regs := by
  exact run_resumed 4 boot (start_boot (by decide)) [.sleep 1 call, .tick interrupt] (by decide)

/-! ## The result of `do_sleep` -/

/-- The process `p` does not have the CPU, and has kept the registers `saved`. -/
structure Parked (p : ℕ) (saved : Regs) (k : Kernel) : Prop where
  /-- Another process has the CPU. -/
  ne : p ≠ k.current
  /-- The process has not exited. -/
  used : (k.ctx p).state ≠ .unused
  /-- The registers in its context. -/
  regs : (k.ctx p).regs = saved

/-- A process keeps its registers until it is picked. -/
theorem Effect.parked {saved : Regs} (heff : Effect N k op o k') (h : Inv N k)
    (hop : Legal N k op) (hp : p < N) (hpark : Parked p saved k) (hpick : o.picked ≠ some p) :
    Parked p saved k' := by
  have hctx : k'.ctx p = (k.ctx p).countedBy op :=
    (heff.other h hop hp hpark.ne (hop.ne_clone hpark.used)).resolve_right fun hr => hpick hr.1
  -- Counting a tick changes the state of a sleeper only, which becomes ready.
  have hstate : ((k.ctx p).countedBy op).state = (k.ctx p).state ∨
      ((k.ctx p).countedBy op).state = .ready := by
    unfold ExecContext.countedBy
    split
    · exact (k.ctx p).woken_state.imp_right And.right
    · exact Or.inl rfl
  refine ⟨fun hcur => ?_, ?_, ?_⟩
  · have hrun := (h.effect hop heff).current_state
    rw [← hcur, hctx] at hrun
    rcases hstate with hst | hst <;> rw [hst] at hrun
    · exact h.not_running hp hpark.ne hrun
    · exact absurd hrun (by simp)
  · rw [hctx]
    rcases hstate with hst | hst <;> rw [hst]
    · exact hpark.used
    · simp
  · rw [hctx, ← hpark.regs]
    unfold ExecContext.countedBy
    split <;> simp

/-- `do_sleep` keeps all registers but `rax`. -/
theorem Effect.sleep_parked {n : ℕ} {s : Syscall} (heff : Effect N k (.sleep n s) o k')
    (hcur : k.current ≠ 0) : Parked k.current (s.regs.withRax (k.ctx k.current).regs) k' := by
  cases heff with
  | sleep _ _ q hq =>
    have hne : q ≠ k.current := hq.ne (Or.inl hcur)
    have hold := k.switch_old (fun c => { c with
      ticksToSleep := n
      state := .waiting
      regs := s.regs.withRax c.regs }) hne
    refine ⟨hne.symm, ?_, ?_⟩ <;> rw [hold]
    simp

/-- From the call of `do_sleep` on, the process is parked until it is picked. -/
theorem Inv.run_parked {n : ℕ} {s : Syscall} {mid : List Op} (h : Inv N k)
    (hops : Run.Along (Sched.step N) (Legal N) k (.sleep n s :: mid)) :
    ∃ hist k', Run.run (Sched.step N) k (.sleep n s :: mid) = some (hist, k') ∧ Inv N k' ∧
      (k.current ∉ picks hist →
        Parked k.current (s.regs.withRax (k.ctx k.current).regs) k') := by
  obtain ⟨o, k₁, hstep, heff, h₁⟩ := h.step hops.1
  obtain ⟨hist, k₂, hrun, h₂, hpark⟩ := Run.run_of_step (h := [(.sleep n s, o)])
    (fun k' hist => Inv N k' ∧ (k.current ∉ picks hist →
      Parked k.current (s.regs.withRax (k.ctx k.current).regs) k'))
    (fun k' hist op ⟨hinv, hpark⟩ hop => by
      obtain ⟨o, k'', hstep, heff, hinv'⟩ := hinv.step hop
      refine ⟨o, k'', hstep, hinv', fun hnot => ?_⟩
      rw [picks, List.filterMap_append, List.mem_append, not_or] at hnot
      refine heff.parked hinv hop h.current_lt (hpark hnot.1) fun hpick => hnot.2 ?_
      simp [hpick])
    ⟨h₁, fun _ => heff.sleep_parked hops.1⟩ (hops.2 o k₁ hstep)
  exact ⟨_, k₂, Run.run_cons hstep hrun, h₂, hpark⟩

/-- A process that calls `do_sleep(n)` in a run, and gets the CPU back for the first time after it,
finds `n` in `rax` if and only if its context had `n` there before the call. -/
theorem run_sleep_result (N : ℕ) (k : Kernel) (hk : Start N k) (pre mid : List Op) (n : ℕ)
    (s : Syscall) (op : Op)
    (hops : Run.Along (step N) (Legal N) k (pre ++ (.sleep n s :: mid ++ [op]))) :
    ∃ h₁ k₁ h₂ k₂ o k₃, Run.run (step N) k pre = some (h₁, k₁) ∧
      Run.run (step N) k₁ (.sleep n s :: mid) = some (h₂, k₂) ∧ step N k₂ op = some (o, k₃) ∧
      (k₁.current ∉ picks h₂ → o.picked = some k₁.current →
        ((∃ regs, o.popped = some regs ∧ regs.rax.toNat = n) ↔
          (k₁.ctx k₁.current).regs.rax.toNat = n)) := by
  obtain ⟨h₁, k₁, hrun₁, hinv₁⟩ := hk.inv.run hops.left
  have hrest := hops.right hrun₁
  obtain ⟨h₂, k₂, hrun₂, hinv₂, hpark⟩ := hinv₁.run_parked hrest.left
  obtain ⟨o, k₃, hstep, heff, -⟩ := hinv₂.step (hrest.last hrun₂)
  refine ⟨h₁, k₁, h₂, k₂, o, k₃, hrun₁, hrun₂, hstep, fun hnot hpick => ?_⟩
  -- It gets what it has kept, where `rax` is that from before the call.
  have hpop : o.popped = some (s.regs.withRax (k₁.ctx k₁.current).regs) := by
    rw [(heff.popped hpick).2, (hpark hnot).regs]
  rw [hpop]
  constructor
  · rintro ⟨regs, ⟨⟩, hrax⟩
    exact hrax
  · exact fun hrax => ⟨_, rfl, hrax⟩

/-- Process 1 clones process 2 and is preempted with the given `rax`, and then process 2 is. -/
def preempted (rax : Word) : List Op :=
  [.clone 2 5 7 9 call, .tick { interrupt with regs := { zeroRegs with rax := rax } },
    .tick interrupt]

/-- Process 1 was preempted with 1 in `rax`, and finds the result of `do_sleep(1)`. -/
theorem run_sleep_result_one : ∃ h₁ k₁ h₂ k₂ o k₃,
    Run.run (step 4) boot (preempted 1) = some (h₁, k₁) ∧
      Run.run (step 4) k₁ [.sleep 1 call] = some (h₂, k₂) ∧
      step 4 k₂ (.tick interrupt) = some (o, k₃) ∧ k₁.current ∉ picks h₂ ∧
      o.picked = some k₁.current ∧ ∃ regs, o.popped = some regs ∧ regs.rax.toNat = 1 := by
  obtain ⟨h₁, k₁, h₂, k₂, o, k₃, hrun₁, hrun₂, hstep, hiff⟩ := run_sleep_result 4 boot
    (start_boot (by decide)) (preempted 1) [] 1 call (.tick interrupt) (by decide +kernel)
  have hfound : ((Run.run (step 4) boot (preempted 1)).bind fun r₁ =>
      (Run.run (step 4) r₁.2 [.sleep 1 call]).bind fun r₂ =>
      (step 4 r₂.2 (.tick interrupt)).map fun r₃ => (r₁.2.current, picks r₂.1, r₃.1.picked,
        (r₁.2.ctx 1).regs.rax.toNat)) = some (1, [2], some 1, 1) := by decide +kernel
  rw [hrun₁, Option.bind_some, hrun₂, Option.bind_some, hstep, Option.map_some] at hfound
  obtain ⟨hcur, hpicks, hpick, hrax⟩ : k₁.current = 1 ∧ picks h₂ = [2] ∧ o.picked = some 1 ∧
    (k₁.ctx 1).regs.rax.toNat = 1 := by simpa using hfound
  have hnot : k₁.current ∉ picks h₂ := by simp [hcur, hpicks]
  have hback : o.picked = some k₁.current := by rw [hpick, hcur]
  refine ⟨h₁, k₁, h₂, k₂, o, k₃, hrun₁, hrun₂, hstep, hnot, hback, (hiff hnot hback).mpr ?_⟩
  rw [hcur, hrax]

/-- Process 1 was preempted with 5 in `rax`, and finds this as the result of `do_sleep(1)`. -/
theorem sleep_result_lost : Start 4 boot ∧
    Run.Along (step 4) (Legal 4) boot (preempted 5 ++ [.sleep 1 call, .tick interrupt]) ∧
    ∃ h₁ k₁ h₂ k₂ o k₃, Run.run (step 4) boot (preempted 5) = some (h₁, k₁) ∧
      Run.run (step 4) k₁ [.sleep 1 call] = some (h₂, k₂) ∧
      step 4 k₂ (.tick interrupt) = some (o, k₃) ∧ k₁.current ∉ picks h₂ ∧
      o.picked = some k₁.current ∧ ¬∃ regs, o.popped = some regs ∧ regs.rax.toNat = 1 := by
  refine ⟨start_boot (by decide), by decide +kernel, ?_⟩
  have hfound : ((Run.run (step 4) boot (preempted 5)).bind fun r₁ =>
      (Run.run (step 4) r₁.2 [.sleep 1 call]).bind fun r₂ =>
      (step 4 r₂.2 (.tick interrupt)).map fun r₃ => (r₁.2.current, picks r₂.1, r₃.1.picked,
        r₃.1.popped.map fun regs => regs.rax.toNat)) = some (1, [2], some 1, some 5) := by
    decide +kernel
  simp only [Option.bind_eq_some_iff, Option.map_eq_some_iff, Prod.mk.injEq] at hfound
  obtain ⟨⟨h₁, k₁⟩, hrun₁, ⟨h₂, k₂⟩, hrun₂, ⟨o, k₃⟩, hstep, hcur, hpicks, hpick, regs, hpop,
    hrax⟩ := hfound
  refine ⟨h₁, k₁, h₂, k₂, o, k₃, hrun₁, hrun₂, hstep, ?_, ?_, ?_⟩
  · rw [hcur, hpicks]
    decide
  · rw [hpick, hcur]
  · rintro ⟨regs', hpop', hrax'⟩
    obtain rfl : regs = regs' := Option.some.inj (hpop.symm.trans hpop')
    omega

end GemOS.Sched
