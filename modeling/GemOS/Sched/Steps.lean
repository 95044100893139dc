import GemOS.Lib.Cyclic
import GemOS.Sched.Schedule

/-!
# What an entry of the kernel does

`Effect` is the closed form of every entry: a tick after which the current context stays or is
preempted, `do_sleep` and `do_exit`, which give the CPU away, and the system calls that return. It
holds of every legal entry of a state that meets the invariant `Inv` (`step_effect`). `Picked` says
what `pick_next_context` returns: the closest ready context behind the current one, or the swapper.
-/

namespace GemOS.Sched

/-! ## Waking up -/

/-- A context after the ticks of a timer interrupt were counted. -/
def ExecContext.woken (c : ExecContext) : ExecContext :=
  if c.state = .waiting ∧ c.ticksToSleep > 0 then
    { c with
      ticksToSleep := c.ticksToSleep - 1
      state := if c.ticksToSleep = 1 then .ready else .waiting }
  else c

/-- The contexts after the ticks of a timer interrupt were counted for the first `n`. -/
def wokenUpTo (n : ℕ) (ctx : ℕ → ExecContext) (i : ℕ) : ExecContext :=
  if i < n then (ctx i).woken else ctx i

section Woken

variable (c : ExecContext)

@[simp] theorem ExecContext.woken_pid : c.woken.pid = c.pid := by
  unfold woken
  split <;> rfl

@[simp] theorem ExecContext.woken_regs : c.woken.regs = c.regs := by
  unfold woken
  split <;> rfl

@[simp] theorem ExecContext.woken_osStackPfn : c.woken.osStackPfn = c.osStackPfn := by
  unfold woken
  split <;> rfl

variable {c}

theorem ExecContext.woken_of_ne (h : c.state ≠ .waiting) : c.woken = c := if_neg fun hc => h hc.1

/-- No context becomes unused, or running. -/
theorem ExecContext.woken_state (c : ExecContext) :
    c.woken.state = c.state ∨ c.state = .waiting ∧ c.woken.state = .ready := by
  unfold woken
  by_cases h : c.state = .waiting ∧ c.ticksToSleep > 0
  · rw [if_pos h]
    by_cases h1 : c.ticksToSleep = 1
    · exact Or.inr ⟨h.1, if_pos h1⟩
    · exact Or.inl ((if_neg h1).trans h.1.symm)
  · rw [if_neg h]
    exact Or.inl rfl

end Woken

variable {N : ℕ} {k k' : Kernel} {i q : ℕ}

theorem wokenUpTo_pid (n : ℕ) (ctx : ℕ → ExecContext) (i : ℕ) :
    (wokenUpTo n ctx i).pid = (ctx i).pid := by
  unfold wokenUpTo
  split <;> simp

/-- One round of the loop. -/
theorem wokenUpTo_succ (n : ℕ) (ctx : ℕ → ExecContext) :
    wokenUpTo (n + 1) ctx = setCtx (wokenUpTo n ctx) n ExecContext.woken := by
  funext i
  by_cases hi : i = n
  · rw [hi, setCtx_self, wokenUpTo, wokenUpTo, if_pos (Nat.lt_succ_self n),
      if_neg (Nat.lt_irrefl n)]
  · rw [setCtx_of_ne _ _ hi]
    unfold wokenUpTo
    split_ifs <;> first | rfl | omega

namespace Kernel

@[simp] theorem modify_self (k : Kernel) (i : ℕ) (f : ExecContext → ExecContext) :
    (k.modify i f).ctx i = f (k.ctx i) := setCtx_self _ _ _

@[simp] theorem modify_of_ne (k : Kernel) {i j : ℕ} (f : ExecContext → ExecContext) (h : j ≠ i) :
    (k.modify i f).ctx j = k.ctx j := setCtx_of_ne _ _ h

theorem countTick_eq (k : Kernel) (i : ℕ) : k.countTick i = k.modify i ExecContext.woken := by
  unfold countTick
  by_cases h : (k.ctx i).state = .waiting ∧ (k.ctx i).ticksToSleep > 0
  · rw [if_pos h]
    by_cases h1 : (k.ctx i).ticksToSleep = 1
    · simp [modify, setCtx, ExecContext.woken, h, h1]
    · have h2 : ¬(k.ctx i).ticksToSleep - 1 = 0 := by omega
      simp [modify, setCtx, ExecContext.woken, h, h1, h2]
  · rw [if_neg h]
    simp [modify, setCtx, ExecContext.woken, h]

/-- The loop counts the ticks of every context. -/
theorem wakeUp_eq (N : ℕ) (k : Kernel) : k.wakeUp N =
    (decide (∃ i < N, i ≠ 0 ∧ (k.ctx i).woken.state = .ready ∧ i ≠ (k.ctx k.current).pid),
      { k with ctx := wokenUpTo N k.ctx }) := by
  unfold wakeUp
  induction N with
  | zero =>
    rw [show wokenUpTo 0 k.ctx = k.ctx from funext fun i => if_neg (Nat.not_lt_zero i)]
    simp
  | succ n ih =>
    have hn : wokenUpTo n k.ctx n = k.ctx n := if_neg (Nat.lt_irrefl n)
    rw [List.range_succ, List.foldl_append, ih, List.foldl_cons, List.foldl_nil]
    simp only [countTick_eq, modify, ← wokenUpTo_succ, wokenUpTo_pid]
    have hstate : (wokenUpTo (n + 1) k.ctx n).state = (k.ctx n).woken.state :=
      congrArg ExecContext.state (if_pos (Nat.lt_succ_self n))
    rw [hstate]
    refine Prod.ext ?_ rfl
    dsimp only
    -- The flag is set in this round, or was set before.
    split_ifs with hfound
    · exact (decide_eq_true ⟨n, Nat.lt_succ_self n, hfound⟩).symm
    · refine decide_eq_decide.mpr ⟨?_, ?_⟩
      · rintro ⟨i, hi, h⟩
        exact ⟨i, by omega, h⟩
      · rintro ⟨i, hi, h⟩
        have hin : i ≠ n := by
          rintro rfl
          exact hfound h
        exact ⟨i, by omega, h⟩

end Kernel

/-! ## Picking the next context -/

/-- What `pick_next_context` returns for the current context `a` when the contexts have the states
`st`: the closest ready context, or the swapper. -/
structure Picked (N : ℕ) (st : ℕ → State) (a q : ℕ) : Prop where
  /-- A context of the list. -/
  lt : q < N
  /-- A context that is not the swapper is ready, and not the current one. -/
  ready : q ≠ 0 → q ≠ a ∧ st q = .ready
  /-- The swapper is returned when no other context is ready. -/
  idle : q = 0 → ∀ i < N, i ≠ 0 → i ≠ a → st i ≠ .ready
  /-- No ready context is closer. -/
  closest : ∀ p < N, p ≠ 0 → p ≠ a → st p = .ready → q ≠ 0 ∧ Cyclic.gap N a q ≤ Cyclic.gap N a p

theorem Picked.congr {st st' : ℕ → State} {a q : ℕ} (h : Picked N st a q)
    (hst : ∀ i < N, i ≠ a → st' i = st i) : Picked N st' a q := by
  refine ⟨h.lt, fun hq => ?_, fun hq i hi h0 hia => ?_, fun p hp h0 hpa hready => ?_⟩
  · obtain ⟨hqa, hready⟩ := h.ready hq
    exact ⟨hqa, by rw [hst q h.lt hqa, hready]⟩
  · rw [hst i hi hia]
    exact h.idle hq i hi h0 hia
  · rw [hst p hp hpa] at hready
    exact h.closest p hp h0 hpa hready

/-- It is not the current context, unless this is the idle swapper. -/
theorem Picked.ne {st : ℕ → State} {a q : ℕ} (h : Picked N st a q)
    (ha : a ≠ 0 ∨ q ≠ 0) : q ≠ a := by
  by_cases hq : q = 0
  · rw [hq]
    exact (ha.resolve_right (not_not.mpr hq)).symm
  · exact (h.ready hq).1

/-- `pick_next_context` is a search around the list. -/
theorem Kernel.pickNextContext_spec (hpid : (k.ctx k.current).pid = k.current)
    (hcur : k.current < N) :
    Picked N (fun i => (k.ctx i).state) k.current (k.pickNextContext N) := by
  have heq : k.pickNextContext N =
      (Cyclic.next N (fun i => decide ((k.ctx i).state = .ready ∧ i ≠ 0)) k.current).getD 0 := by
    unfold pickNextContext Cyclic.next
    rw [hpid, List.find?_map]
    simp only [Function.comp_def]
    cases (List.range' (k.current + 1) (N - 1)).find? fun i =>
      decide ((k.ctx (i % N)).state = .ready ∧ i % N ≠ 0) <;> rfl
  rw [heq]
  cases hnext : Cyclic.next N (fun i => decide ((k.ctx i).state = .ready ∧ i ≠ 0)) k.current with
  | none =>
    have hall := (Cyclic.next_eq_none hcur).mp hnext
    simp only [decide_eq_false_iff_not, not_and, not_not] at hall
    refine ⟨by rw [Option.getD_none]; omega, fun h => absurd rfl h, fun _ i hi h0 hia hready => ?_,
      fun p hp h0 hpa hready => ?_⟩
    · exact h0 (hall i hi hia hready)
    · exact absurd (hall p hp hpa hready) h0
  | some q =>
    obtain ⟨hq, hqa, hready, hmin⟩ := Cyclic.next_eq_some hcur hnext
    rw [decide_eq_true_eq] at hready
    refine ⟨hq, fun _ => ⟨hqa, hready.1⟩, fun h => absurd h hready.2, fun p hp h0 hpa hp' => ?_⟩
    exact ⟨hready.2, hmin p hp hpa (decide_eq_true ⟨hp', h0⟩)⟩

/-! ## Alarms -/

/-- The handler that a timer tick calls when it finds the context running. -/
def ExecContext.delivered (c : ExecContext) : Option Word :=
  if c.ticksToAlarm = 1 ∧ c.alarmConfigTime ≠ 0 ∧ c.sighandlers .sigalrm ≠ 0 then
    some (c.sighandlers .sigalrm)
  else none

/-- The context after a timer tick found it running. -/
def ExecContext.alarmed (c : ExecContext) : ExecContext :=
  if c.ticksToAlarm ≠ 0 ∧ c.alarmConfigTime ≠ 0 then
    { c with ticksToAlarm :=
        if c.ticksToAlarm = 1 ∧ c.sighandlers .sigalrm ≠ 0 then c.alarmConfigTime
        else c.ticksToAlarm - 1 }
  else c

/-- The registers after a handler was put in their way. -/
def redirect : Option Word → Regs → Regs
  | none, u => u
  | some handler, u => { u with entryRsp := u.entryRsp - 8, entryRip := handler }

section Alarmed

variable (c : ExecContext)

@[simp] theorem ExecContext.alarmed_pid : c.alarmed.pid = c.pid := by
  unfold alarmed
  split <;> rfl

@[simp] theorem ExecContext.alarmed_state : c.alarmed.state = c.state := by
  unfold alarmed
  split <;> rfl

@[simp] theorem ExecContext.alarmed_regs : c.alarmed.regs = c.regs := by
  unfold alarmed
  split <;> rfl

@[simp] theorem ExecContext.alarmed_osStackPfn : c.alarmed.osStackPfn = c.osStackPfn := by
  unfold alarmed
  split <;> rfl

end Alarmed

/-- The alarm changes the counter of the current context, and redirects the registers in the
frame. -/
theorem Kernel.alarm_eq (k : Kernel) (mem : Mem) {rsp rbp : ℕ} (hbelow : rsp + 14 ≤ rbp) :
    ∃ um mem', k.alarm mem rbp = ((k.ctx k.current).delivered,
        { k with ctx := setCtx k.ctx k.current ExecContext.alarmed, userMem := um }, mem') ∧
      popTimer mem' rsp rbp = redirect (k.ctx k.current).delivered (popTimer mem rsp rbp) := by
  by_cases hon : (k.ctx k.current).ticksToAlarm ≠ 0 ∧ (k.ctx k.current).alarmConfigTime ≠ 0
  · by_cases hlast : (k.ctx k.current).ticksToAlarm = 1 ∧ (k.ctx k.current).sighandlers .sigalrm ≠ 0
    · refine ⟨Function.update k.userMem (mem (rbp + 4) - 8) (mem (rbp + 1)),
        Function.update (Function.update mem (rbp + 4) (mem (rbp + 4) - 8)) (rbp + 1)
          ((k.ctx k.current).sighandlers .sigalrm), ?_, ?_⟩
      · simp [alarm, modify, invokeSyncSignal, setCtx, ExecContext.delivered, ExecContext.alarmed,
          hon, hlast]
      · -- The signal frame is above the saved registers, which come back as they were.
        have hne : ∀ i < 14, rsp + i ≠ rbp + 4 ∧ rsp + i ≠ rbp + 1 := fun i hi => by omega
        have hdel : (k.ctx k.current).delivered = some ((k.ctx k.current).sighandlers .sigalrm) :=
          if_pos ⟨hlast.1, hon.2, hlast.2⟩
        rw [hdel]
        have hsame : ∀ i < 14, Function.update (Function.update mem (rbp + 4) (mem (rbp + 4) - 8))
            (rbp + 1) ((k.ctx k.current).sighandlers .sigalrm) (rsp + i) =
            mem (rsp + i) := fun i hi => by
          rw [Function.update_of_ne (hne i hi).2, Function.update_of_ne (hne i hi).1]
        apply Regs.ext <;> first | exact hsame _ (by decide) | simp [popTimer, redirect]
    · have hdel : (k.ctx k.current).delivered = none := if_neg fun h => hlast ⟨h.1, h.2.2⟩
      refine ⟨k.userMem, mem, ?_, by rw [hdel]; rfl⟩
      have h0 : ¬((k.ctx k.current).ticksToAlarm - 1 = 0 ∧
          (k.ctx k.current).sighandlers .sigalrm ≠ 0) := fun h =>
        hlast ⟨by have := hon.1; omega, h.2⟩
      rw [hdel]
      simp only [alarm, if_pos hon, modify, setCtx, Function.update_self, if_neg h0,
        ExecContext.alarmed, if_neg hlast]
  · have hdel : (k.ctx k.current).delivered = none := if_neg fun h => hon ⟨by omega, h.2.1⟩
    refine ⟨k.userMem, mem, ?_, by rw [hdel]; rfl⟩
    rw [hdel]
    simp only [alarm, if_neg hon, ExecContext.alarmed, setCtx, Function.update_eq_self]

/-! ## The invariant -/

/-- The invariant of the scheduler: exactly the current context is running, and while the swapper
is, no other context is ready. -/
structure Inv (N : ℕ) (k : Kernel) : Prop where
  /-- The contexts have their index as their pid. -/
  pid : ∀ i < N, (k.ctx i).pid = i
  /-- The current context is one of the list. -/
  current_lt : k.current < N
  /-- Exactly the current context is running. -/
  running : ∀ i < N, (k.ctx i).state = .running ↔ i = k.current
  /-- The kernel stack is that of the current context. -/
  tss : k.tss = k.current
  /-- The swapper never sleeps or exits. -/
  swapper : (k.ctx 0).state = .ready ∨ (k.ctx 0).state = .running
  /-- The swapper is idle only when it has to be. -/
  idle : k.current = 0 → ∀ i < N, i ≠ 0 → (k.ctx i).state ≠ .ready

/-- The entries of the kernel that occur: system calls are made by a process that is not the
swapper, `get_new_ctx` returns an unused context, and the last process does not exit. -/
def Legal (N : ℕ) (k : Kernel) : Op → Prop
  | .tick _ => True
  | .sleep _ _ => k.current ≠ 0
  | .exit _ => k.current ≠ 0 ∧ ∃ i < N, i ≠ 0 ∧ i ≠ k.current ∧ (k.ctx i).state ≠ .unused
  | .clone slot _ _ _ _ => k.current ≠ 0 ∧ slot ≠ 0 ∧ slot < N ∧ (k.ctx slot).state = .unused
  | .signal _ _ => k.current ≠ 0
  | .alarm _ => k.current ≠ 0

instance (N : ℕ) (k : Kernel) : (op : Op) → Decidable (Legal N k op)
  | .tick _ => inferInstanceAs (Decidable True)
  | .sleep _ _ => inferInstanceAs (Decidable (_ ≠ _))
  | .exit _ => inferInstanceAs (Decidable (_ ∧ ∃ i < N, _ ∧ _))
  | .clone _ _ _ _ _ => inferInstanceAs (Decidable (_ ∧ _))
  | .signal _ _ => inferInstanceAs (Decidable (_ ≠ _))
  | .alarm _ => inferInstanceAs (Decidable (_ ≠ _))

theorem Inv.current_state (h : Inv N k) : (k.ctx k.current).state = .running :=
  (h.running k.current h.current_lt).mpr rfl

theorem Inv.woken_current (h : Inv N k) : (k.ctx k.current).woken = k.ctx k.current :=
  ExecContext.woken_of_ne (by rw [h.current_state]; simp)

/-! ## The effect of an entry -/

namespace Kernel

theorem freePending_fields (N : ℕ) (k : Kernel) : (k.freePending N).ctx = k.ctx ∧
    (k.freePending N).current = k.current ∧ (k.freePending N).tss = k.tss := by
  unfold freePending
  induction List.range' 1 (N - 1) generalizing k with
  | nil => exact ⟨rfl, rfl, rfl⟩
  | cons i l ih =>
    rw [List.foldl_cons]
    obtain ⟨h₁, h₂, h₃⟩ := ih (if k.freeOsPfn i ≠ 0 then
      { k with
        frames := .free (k.freeOsPfn i) :: k.frames
        freeOsPfn := Function.update k.freeOsPfn i 0 }
      else k)
    refine ⟨h₁.trans ?_, h₂.trans ?_, h₃.trans ?_⟩ <;> split <;> rfl

/-- The state after the frames were freed and the ticks of the sleepers were counted. -/
def counted (N : ℕ) (k : Kernel) : Kernel :=
  { k.freePending N with ctx := wokenUpTo N k.ctx, current := k.current, tss := k.tss }

/-- The state after the ticks of a timer interrupt were counted. -/
def ticked (N : ℕ) (k : Kernel) (userMem : Word → Word) : Kernel :=
  { k.counted N with
    ctx := setCtx (k.counted N).ctx (k.counted N).current ExecContext.alarmed
    userMem := userMem }

theorem wakeUp_freePending (N : ℕ) (k : Kernel) : (k.freePending N).wakeUp N =
    (decide (∃ i < N, i ≠ 0 ∧ (k.ctx i).woken.state = .ready ∧ i ≠ (k.ctx k.current).pid),
      k.counted N) := by
  obtain ⟨hctx, hcur, htss⟩ := k.freePending_fields N
  rw [wakeUp_eq, hctx, hcur, counted, ← hcur, ← htss]

/-- The CPU goes from the current context, which `f` changes, to `q`. -/
def switch (k : Kernel) (f : ExecContext → ExecContext) (q : ℕ) : Kernel :=
  { k with
    ctx := setCtx (setCtx k.ctx k.current f) q fun c => { c with state := .running }
    current := q
    tss := q }

theorem switch_ctx (k : Kernel) (f : ExecContext → ExecContext) (q : ℕ) : (k.switch f q).ctx =
    setCtx (setCtx k.ctx k.current f) q fun c => { c with state := .running } := rfl

theorem switch_self (k : Kernel) (f : ExecContext → ExecContext) (q : ℕ) :
    ((k.switch f q).ctx q).state = .running := by
  rw [switch_ctx, setCtx_self]

theorem switch_old (k : Kernel) (f : ExecContext → ExecContext) {q : ℕ} (hq : q ≠ k.current) :
    (k.switch f q).ctx k.current = f (k.ctx k.current) := by
  rw [switch_ctx, setCtx_of_ne _ _ hq.symm, setCtx_self]

theorem switch_of_ne (k : Kernel) (f : ExecContext → ExecContext) {i q : ℕ} (hi : i ≠ k.current)
    (hq : i ≠ q) : (k.switch f q).ctx i = k.ctx i := by
  rw [switch_ctx, setCtx_of_ne _ _ hq, setCtx_of_ne _ _ hi]

/-- The fields that a switch leaves alone. -/
theorem switch_field {β : Type*} (g : ExecContext → β) (k : Kernel) {f : ExecContext → ExecContext}
    (hf : g (f (k.ctx k.current)) = g (k.ctx k.current))
    (hrun : ∀ c : ExecContext, g { c with state := .running } = g c) (q i : ℕ) :
    g ((k.switch f q).ctx i) = g (k.ctx i) := by
  rw [switch_ctx, setCtx_field g (hrun _), setCtx_field g hf]

/-- A switch changes what a context keeps while it runs only in the current one. -/
theorem switch_update {β : Type*} (g : ExecContext → β) (k : Kernel) (f : ExecContext → ExecContext)
    (hrun : ∀ c : ExecContext, g { c with state := .running } = g c) (q i : ℕ) :
    g ((k.switch f q).ctx i) =
      Function.update (fun i => g (k.ctx i)) k.current (g (f (k.ctx k.current))) i := by
  rw [switch_ctx, setCtx_field g (hrun _)]
  by_cases hi : i = k.current
  · rw [hi, setCtx_self, Function.update_self]
  · rw [setCtx_of_ne _ _ hi, Function.update_of_ne hi]

theorem ticked_current (N : ℕ) (k : Kernel) (userMem : Word → Word) :
    (k.ticked N userMem).current = k.current := rfl

/-- What the alarm leaves alone. -/
theorem ticked_field {β : Type*} (g : ExecContext → β)
    (halarm : ∀ c, g (ExecContext.alarmed c) = g c)
    (k : Kernel) (userMem : Word → Word) {i : ℕ} (hi : i < N) :
    g ((k.ticked N userMem).ctx i) = g (k.ctx i).woken := by
  change g (setCtx (wokenUpTo N k.ctx) k.current ExecContext.alarmed i) = _
  rw [setCtx_field g (halarm _), wokenUpTo, if_pos hi]

/-- The context that `do_clone` sets up for a child. -/
def childCtx (k : Kernel) (pfn : ℕ) (thFunc userStack : Word) (s : Syscall) (c : ExecContext) :
    ExecContext :=
  { c with
    osStackPfn := pfn
    state := .ready
    ticksToSleep := 0
    ticksToAlarm := 0
    alarmConfigTime := 0
    sighandlers := (k.ctx k.current).sighandlers
    regs := childRegs (k.ctx k.current).regs (trapSyscall s (s.rbp + 18)) thFunc userStack }

end Kernel

/-- What an entry leads to. -/
inductive Effect (N : ℕ) (k : Kernel) : Op → Outcome → Kernel → Prop where
  /-- No other process is ready at a timer tick. -/
  | stay (f : Interrupt) (userMem : Word → Word)
      (hidle : ∀ i < N, i ≠ 0 → i ≠ k.current → (k.ctx i).woken.state ≠ .ready) :
    Effect N k (.tick f)
      { handler := (k.ctx k.current).delivered
        popped := some (redirect (k.ctx k.current).delivered f.regs) } (k.ticked N userMem)
  /-- A timer tick takes the CPU from the current context. -/
  | preempt (f : Interrupt) (userMem : Word → Word) (q : ℕ)
      (hq : Picked N (fun i => (k.ctx i).woken.state) k.current q) (h0 : q ≠ 0) :
    Effect N k (.tick f)
      { picked := some q
        handler := (k.ctx k.current).delivered
        popped := some (k.ctx q).regs }
      ((k.ticked N userMem).switch (fun c => { c with
        state := .ready
        regs := redirect (k.ctx k.current).delivered f.regs }) q)
  /-- The current context goes to sleep. -/
  | sleep (ticks : ℕ) (s : Syscall) (q : ℕ) (hq : Picked N (fun i => (k.ctx i).state) k.current q) :
    Effect N k (.sleep ticks s) { picked := some q, popped := some (k.ctx q).regs }
      (k.switch (fun c => { c with
        ticksToSleep := ticks
        state := .waiting
        regs := s.regs.withRax c.regs }) q)
  /-- The current context exits. -/
  | exit (s : Syscall) (q : ℕ) (hq : Picked N (fun i => (k.ctx i).state) k.current q) :
    Effect N k (.exit s) { picked := some q, popped := some (k.ctx q).regs }
      ({ k with
        freeOsPfn := Function.update k.freeOsPfn k.current (k.ctx k.current).osStackPfn }.switch
        (fun c => { c with state := .unused, regs := s.regs.withRax c.regs }) q)
  /-- A new context is ready. -/
  | clone (slot pfn : ℕ) (thFunc userStack : Word) (s : Syscall) :
    Effect N k (.clone slot pfn thFunc userStack s) { ret := some slot }
      { k with
        frames := .alloc pfn :: k.frames
        ctx := setCtx k.ctx slot (k.childCtx pfn thFunc userStack s) }
  /-- The current context changes its handlers. -/
  | signal (signo : Option Signal) (handler : Word) (ret : ℤ) (sighandlers : Signal → Word) :
    Effect N k (.signal signo handler) { ret := some ret }
      (k.modify k.current fun c => { c with sighandlers := sighandlers })
  /-- The current context sets its alarm. -/
  | alarm (ticks : ℕ) :
    Effect N k (.alarm ticks) { ret := some (k.ctx k.current).ticksToAlarm }
      (k.modify k.current fun c => { c with alarmConfigTime := ticks, ticksToAlarm := ticks })

/-- A store to a context that changes nothing. -/
theorem setCtx_id (ctx : ℕ → ExecContext) (i : ℕ) {f : ExecContext → ExecContext}
    (h : f (ctx i) = ctx i) : setCtx ctx i f = ctx := by
  rw [setCtx, h, Function.update_eq_self]

theorem setCtx_setCtx (ctx : ℕ → ExecContext) (i : ℕ) (f g : ExecContext → ExecContext) :
    setCtx (setCtx ctx i f) i g = setCtx ctx i fun c => g (f c) := by
  simp [setCtx]

theorem setCtx_comm (ctx : ℕ → ExecContext) {i j : ℕ} (hij : i ≠ j)
    (f g : ExecContext → ExecContext) :
    setCtx (setCtx ctx i f) j g = setCtx (setCtx ctx j g) i f := by
  unfold setCtx
  rw [Function.update_of_ne hij, Function.update_of_ne hij.symm, Function.update_comm hij]

namespace Kernel

/-- The end of `do_sleep` and `do_exit`. -/
theorem switchAway_eq (s : Syscall) (hne : k.pickNextContext N ≠ k.current) : k.switchAway N s =
    ({ picked := some (k.pickNextContext N), popped := some (k.ctx (k.pickNextContext N)).regs },
      k.switch (fun c => { c with regs := s.regs.withRax c.regs }) (k.pickNextContext N)) := by
  obtain ⟨hctx, hpop⟩ := switchContextSleep_eq k.ctx s hne
  unfold switchAway
  dsimp only
  rw [hpop, hctx]
  rfl

end Kernel

namespace Inv

variable (h : Inv N k)

include h

/-- A timer tick. -/
theorem tick_effect (f : Interrupt) :
    ∃ o k', k.handleTimerTick N f = (o, k') ∧ Effect N k (.tick f) o k' := by
  -- The loop over the sleepers passes over the current context, which is running.
  have hself : (k.counted N).ctx (k.counted N).current = k.ctx k.current := by
    change wokenUpTo N k.ctx k.current = _
    rw [wokenUpTo, if_pos h.current_lt, h.woken_current]
  obtain ⟨um, mem, halarm, hpop⟩ := (k.counted N).alarm_eq (trapTimer f) f.below
  rw [hself] at halarm hpop
  rw [popTimer_trapTimer] at hpop
  set k₁ := k.ticked N um with hk₁
  have hcur : k₁.current = k.current := rfl
  have hctx : ∀ i < N, i ≠ k.current → k₁.ctx i = (k.ctx i).woken := fun i hi hic => by
    change setCtx (wokenUpTo N k.ctx) k.current ExecContext.alarmed i = _
    rw [setCtx_of_ne _ _ hic, wokenUpTo, if_pos hi]
  -- The handler after the loop and the alarm: it switches when another process is ready.
  have htick : k.handleTimerTick N f =
      if ∃ i < N, i ≠ 0 ∧ (k.ctx i).woken.state = .ready ∧ i ≠ k.current then
        let q := k₁.pickNextContext N
        let r := switchContextTimer
          ((k₁.modify q fun c => { c with state := .running }).modify k.current
            fun c => { c with state := .ready }).ctx k.current q mem f.rsp f.rbp
        ({ picked := some q, handler := (k.ctx k.current).delivered,
           popped := some (popTimer r.2 f.rsp f.rbp) },
         { k₁ with ctx := r.1, tss := q, current := q })
      else
        ({ handler := (k.ctx k.current).delivered, popped := some (popTimer mem f.rsp f.rbp) },
         k₁) := by
    unfold Kernel.handleTimerTick
    dsimp only
    rw [Kernel.wakeUp_freePending, h.pid _ h.current_lt]
    dsimp only
    rw [halarm]
    simp only [decide_eq_true_eq]
    rfl
  rw [htick]
  by_cases hfound : ∃ i < N, i ≠ 0 ∧ (k.ctx i).woken.state = .ready ∧ i ≠ k.current
  · rw [if_pos hfound]
    have hpid : (k₁.ctx k₁.current).pid = k₁.current := by
      change (setCtx (wokenUpTo N k.ctx) k.current ExecContext.alarmed k.current).pid = k.current
      rw [setCtx_self, ExecContext.alarmed_pid, wokenUpTo_pid, h.pid _ h.current_lt]
    have hspec := Kernel.pickNextContext_spec (N := N) hpid h.current_lt
    generalize k₁.pickNextContext N = q at hspec
    -- The alarm changes the current context only, so the choice is made among the woken ones.
    have hq : Picked N (fun i => (k.ctx i).woken.state) k.current q :=
      hspec.congr fun i hi hic => by rw [hctx i hi hic]
    obtain ⟨p, hp, hp0, hready, hpc⟩ := hfound
    obtain ⟨h0, -⟩ := hq.closest p hp hp0 hpc hready
    have hne := hq.ne (Or.inr h0)
    obtain ⟨hsave, hpop'⟩ := switchContextTimer_eq
      ((k₁.modify q fun c => { c with state := .running }).modify k.current
        fun c => { c with state := .ready }).ctx mem f.below hne
    have hregs : (((k₁.modify q fun c => { c with state := .running }).modify k.current
        fun c => { c with state := .ready }).ctx q).regs = (k.ctx q).regs := by
      simp only [Kernel.modify]
      rw [setCtx_of_ne _ _ hne, setCtx_self, hctx q hq.lt hne, ExecContext.woken_regs]
    -- The code sets both states before the save of the registers; the effect sets each context
    -- once.
    have hswitch : setCtx (((k₁.modify q fun c => { c with state := .running }).modify k.current
        fun c => { c with state := .ready }).ctx) k.current
          (fun c => { c with regs := redirect (k.ctx k.current).delivered f.regs }) =
        setCtx (setCtx k₁.ctx k.current fun c => { c with
          state := .ready
          regs := redirect (k.ctx k.current).delivered f.regs }) q
            fun c => { c with state := .running } := by
      simp only [Kernel.modify]
      rw [setCtx_setCtx, setCtx_comm _ hne]
    refine ⟨_, _, rfl, ?_⟩
    rw [hpop', hregs, hsave, hpop, hswitch]
    exact Effect.preempt f um q hq h0
  · rw [if_neg hfound, hpop]
    exact ⟨_, _, rfl, Effect.stay f um fun i hi h0 hic hready => hfound ⟨i, hi, h0, hready, hic⟩⟩

/-- The end of `do_sleep` and `do_exit`, after the current context was changed. -/
theorem switchAway_modify (hcur : k.current ≠ 0) (s : Syscall) (freeOsPfn : ℕ → ℕ)
    {f : ExecContext → ExecContext} (hf : ∀ c, (f c).pid = c.pid) :
    ∃ q, Picked N (fun i => (k.ctx i).state) k.current q ∧
      (({ k with freeOsPfn := freeOsPfn } : Kernel).modify k.current f).switchAway N s =
        ({ picked := some q, popped := some (k.ctx q).regs },
          ({ k with freeOsPfn := freeOsPfn } : Kernel).switch
            (fun c => { f c with regs := s.regs.withRax (f c).regs }) q) := by
  set k₁ := ({ k with freeOsPfn := freeOsPfn } : Kernel).modify k.current f with hk₁
  have hother : ∀ i, i ≠ k.current → k₁.ctx i = k.ctx i := fun i hi => Kernel.modify_of_ne _ _ hi
  have hpid : (k₁.ctx k₁.current).pid = k₁.current := by
    change (setCtx k.ctx k.current f k.current).pid = k.current
    rw [setCtx_self, hf, h.pid _ h.current_lt]
  have hq : Picked N (fun i => (k.ctx i).state) k.current (k₁.pickNextContext N) :=
    (Kernel.pickNextContext_spec (N := N) hpid h.current_lt).congr fun i _ hic => by
      rw [hother i hic]
  have hne := hq.ne (Or.inl hcur)
  refine ⟨_, hq, (Kernel.switchAway_eq s hne).trans ?_⟩
  rw [hother _ hne]
  simp only [Kernel.switch, hk₁, Kernel.modify, setCtx_setCtx]

/-- `do_sleep`. -/
theorem sleep_effect (hcur : k.current ≠ 0) (ticks : ℕ) (s : Syscall) :
    ∃ o k', k.doSleep N ticks s = (o, k') ∧ Effect N k (.sleep ticks s) o k' := by
  obtain ⟨q, hq, hswitch⟩ := h.switchAway_modify hcur s k.freeOsPfn
    (f := fun c => { c with ticksToSleep := ticks, state := .waiting }) fun _ => rfl
  refine ⟨_, _, ?_, Effect.sleep ticks s q hq⟩
  rw [← hswitch]
  simp only [Kernel.doSleep, Kernel.modify, setCtx_setCtx]

/-- `do_exit`, when another process is alive. -/
theorem exit_effect (hcur : k.current ≠ 0)
    (halive : ∃ i < N, i ≠ 0 ∧ i ≠ k.current ∧ (k.ctx i).state ≠ .unused) (s : Syscall) :
    ∃ o k', k.doExit N s = some (o, k') ∧ Effect N k (.exit s) o k' := by
  obtain ⟨q, hq, hswitch⟩ := h.switchAway_modify hcur s
    (Function.update k.freeOsPfn k.current (k.ctx k.current).osStackPfn)
    (f := fun c => { c with state := .unused }) fun _ => rfl
  refine ⟨_, _, ?_, Effect.exit s q hq⟩
  rw [← hswitch]
  have havail : ((List.range' 1 (N - 1)).any fun i =>
      ((k.modify k.current fun c => { c with state := .unused }).ctx i).pid ≠ 0 ∧
        ((k.modify k.current fun c => { c with state := .unused }).ctx i).state ≠ .unused) =
          true := by
    obtain ⟨i, hi, h0, hic, hlive⟩ := halive
    rw [List.any_eq_true]
    refine ⟨i, List.mem_range'_1.mpr (by omega), ?_⟩
    rw [Kernel.modify_of_ne _ _ hic, h.pid i hi]
    exact decide_eq_true ⟨h0, hlive⟩
  unfold Kernel.doExit
  dsimp only
  rw [havail, if_neg (by simp), Kernel.modify_self, h.pid _ h.current_lt]
  rfl

/-- What an entry does. -/
theorem step_effect {op : Op} (hop : Legal N k op) :
    ∃ o k', step N k op = some (o, k') ∧ Effect N k op o k' := by
  cases op with
  | tick f =>
    obtain ⟨o, k', htick, heff⟩ := h.tick_effect f
    exact ⟨o, k', congrArg some htick, heff⟩
  | sleep ticks s =>
    obtain ⟨o, k', hsleep, heff⟩ := h.sleep_effect hop ticks s
    exact ⟨o, k', congrArg some hsleep, heff⟩
  | exit s => exact h.exit_effect hop.1 hop.2 s
  | clone slot pfn thFunc userStack s =>
    obtain ⟨-, -, hslot, -⟩ := hop
    have hret : (k.doClone slot pfn thFunc userStack s).1 = { ret := some slot } := by
      unfold Kernel.doClone
      dsimp only
      rw [Kernel.modify_self, h.pid slot hslot]
    refine ⟨{ ret := some slot }, _, ?_, Effect.clone slot pfn thFunc userStack s⟩
    rw [← hret]
    rfl
  | signal signo handler =>
    -- A call that fails leaves the handlers, which the effect states as a store of what is there.
    have hsame : k.modify k.current (fun c => { c with
        sighandlers := (k.ctx k.current).sighandlers }) = k := by
      rw [Kernel.modify, setCtx_id _ _ rfl]
    cases signo with
    | none =>
      refine ⟨_, _, rfl, ?_⟩
      have heff := Effect.signal (N := N) (k := k) none handler (-1) (k.ctx k.current).sighandlers
      rwa [hsame] at heff
    | some signo =>
      by_cases hnull : handler = 0
      · refine ⟨_, _, congrArg some (if_pos hnull), ?_⟩
        have heff := Effect.signal (N := N) (k := k) (some signo) handler (-1)
          (k.ctx k.current).sighandlers
        rwa [hsame] at heff
      · refine ⟨_, _, congrArg some (if_neg hnull), ?_⟩
        have heff := Effect.signal (N := N) (k := k) (some signo) handler
          ((k.ctx k.current).sighandlers signo).toInt64.toInt
          (Function.update (k.ctx k.current).sighandlers signo handler)
        have hmod : k.modify k.current (fun c => { c with
              sighandlers := Function.update (k.ctx k.current).sighandlers signo handler }) =
            k.modify k.current (fun c => { c with
              sighandlers := Function.update c.sighandlers signo handler }) := rfl
        rwa [hmod] at heff
  | alarm ticks => exact ⟨_, _, rfl, Effect.alarm ticks⟩

end Inv

end GemOS.Sched
