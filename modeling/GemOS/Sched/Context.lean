import Mathlib.Data.Nat.Basic
import Mathlib.Logic.Function.Basic

/-!
# Execution contexts and trap frames

The contexts of `src/Assn3/schedule.c`, and the kernel stack on which the user's registers lie
during an interrupt or a system call. A stack is a memory of 64-bit words, and addresses count
words. In a timer interrupt the registers are put there by the processor, by the prologue of
`handle_timer_tick`, and by its pushes (`trapTimer`). During a system call they lie above the `rbp`
of `do_syscall` (`trapSyscall`), at the words where `switch_context_sleep` reads them.
-/

namespace GemOS.Sched

/-- A `u64`. -/
abbrev Word := UInt64

/-- A memory of words. -/
abbrev Mem := ℕ → Word

/-- The states of a context that the source names. -/
inductive State where
  | unused
  | ready
  | running
  | waiting
  deriving DecidableEq

/-- The signals that the source names. -/
inductive Signal where
  | sigsegv
  | sigfpe
  | sigalrm
  deriving DecidableEq

/-- `struct user_regs`. -/
@[ext] structure Regs where
  r15 : Word
  r14 : Word
  r13 : Word
  r12 : Word
  r11 : Word
  r10 : Word
  r9 : Word
  r8 : Word
  rbp : Word
  rdi : Word
  rsi : Word
  rdx : Word
  rcx : Word
  rbx : Word
  rax : Word
  entryRip : Word
  entryCs : Word
  entryRflags : Word
  entryRsp : Word
  entrySs : Word

/-- `struct exec_context`, as far as the scheduler reads it. -/
structure ExecContext where
  /-- The number of the context. -/
  pid : ℕ
  /-- The state. -/
  state : State
  /-- The registers of the user, saved when the context lost the CPU. -/
  regs : Regs
  /-- The frame of the kernel stack. -/
  osStackPfn : ℕ
  /-- The ticks until the context wakes up. -/
  ticksToSleep : ℕ
  /-- The ticks until the next alarm. -/
  ticksToAlarm : ℕ
  /-- The period of the alarm. -/
  alarmConfigTime : ℕ
  /-- The handlers of the signals, 0 for none. -/
  sighandlers : Signal → Word

/-! ## Stacks -/

/-- A sequence of stores. -/
def store (mem : Mem) (l : List (ℕ × Word)) : Mem :=
  l.foldl (fun mem p => Function.update mem p.1 p.2) mem

/-- A timer interrupt. -/
structure Interrupt where
  /-- The registers of the user. -/
  regs : Regs
  /-- The stack before the interrupt. -/
  stack : Mem
  /-- `rsp` after the pushes. -/
  rsp : ℕ
  /-- `rbp` after the prologue. -/
  rbp : ℕ
  /-- The 14 pushed registers are below the words at `rbp`. -/
  below : rsp + 14 ≤ rbp

/-- A system call. -/
structure Syscall where
  /-- The registers of the user. -/
  regs : Regs
  /-- The stack before the call. -/
  stack : Mem
  /-- `rbp` in `do_syscall`. -/
  rbp : ℕ

/-- The stack in `handle_timer_tick`: the registers that the processor, the prologue, and the pushes
put there. -/
def trapTimer (f : Interrupt) : Mem :=
  let u := f.regs
  store f.stack [(f.rbp + 5, u.entrySs), (f.rbp + 4, u.entryRsp), (f.rbp + 3, u.entryRflags),
    (f.rbp + 2, u.entryCs), (f.rbp + 1, u.entryRip), (f.rbp + 0, u.rbp),
    (f.rsp + 13, u.r8), (f.rsp + 12, u.r9), (f.rsp + 11, u.r10), (f.rsp + 10, u.r11),
    (f.rsp + 9, u.r12), (f.rsp + 8, u.r13), (f.rsp + 7, u.r14), (f.rsp + 6, u.r15),
    (f.rsp + 5, u.rax), (f.rsp + 4, u.rbx), (f.rsp + 3, u.rcx), (f.rsp + 2, u.rdx),
    (f.rsp + 1, u.rsi), (f.rsp + 0, u.rdi)]

/-- The pops from `rsp` on at the end of `handle_timer_tick`, then `rbp` and `iretq` from `rbp`
on. -/
def popTimer (mem : Mem) (rsp rbp : ℕ) : Regs where
  rdi := mem (rsp + 0)
  rsi := mem (rsp + 1)
  rdx := mem (rsp + 2)
  rcx := mem (rsp + 3)
  rbx := mem (rsp + 4)
  rax := mem (rsp + 5)
  r15 := mem (rsp + 6)
  r14 := mem (rsp + 7)
  r13 := mem (rsp + 8)
  r12 := mem (rsp + 9)
  r11 := mem (rsp + 10)
  r10 := mem (rsp + 11)
  r9 := mem (rsp + 12)
  r8 := mem (rsp + 13)
  rbp := mem (rbp + 0)
  entryRip := mem (rbp + 1)
  entryCs := mem (rbp + 2)
  entryRflags := mem (rbp + 3)
  entryRsp := mem (rbp + 4)
  entrySs := mem (rbp + 5)

/-- The stack in `do_syscall`: the registers that the entry stub and the processor put there. -/
def trapSyscall (c : Syscall) : Mem :=
  let u := c.regs
  let rbp := c.rbp
  store c.stack [(rbp + 20, u.entrySs), (rbp + 19, u.entryRsp), (rbp + 18, u.entryRflags),
    (rbp + 17, u.entryCs), (rbp + 16, u.entryRip),
    (rbp + 15, u.rbx), (rbp + 14, u.rcx), (rbp + 13, u.rdx), (rbp + 12, u.rsi), (rbp + 11, u.rdi),
    (rbp + 10, u.rbp), (rbp + 9, u.r8), (rbp + 8, u.r9), (rbp + 7, u.r10), (rbp + 6, u.r11),
    (rbp + 5, u.r12), (rbp + 4, u.r13), (rbp + 3, u.r14), (rbp + 2, u.r15)]

/-- The pops at the end of `do_sleep` and `do_exit`, from `rsp` on, and `iretq`. -/
def popSyscall (mem : Mem) (rsp : ℕ) : Regs where
  r15 := mem (rsp + 0)
  r14 := mem (rsp + 1)
  r13 := mem (rsp + 2)
  r12 := mem (rsp + 3)
  r11 := mem (rsp + 4)
  r10 := mem (rsp + 5)
  r9 := mem (rsp + 6)
  r8 := mem (rsp + 7)
  rbp := mem (rsp + 8)
  rdi := mem (rsp + 9)
  rsi := mem (rsp + 10)
  rdx := mem (rsp + 11)
  rcx := mem (rsp + 12)
  rbx := mem (rsp + 13)
  rax := mem (rsp + 14)
  entryRip := mem (rsp + 15)
  entryCs := mem (rsp + 16)
  entryRflags := mem (rsp + 17)
  entryRsp := mem (rsp + 18)
  entrySs := mem (rsp + 19)

/-! ## Switching between contexts -/

/-- A store to a context. -/
def setCtx (ctx : ℕ → ExecContext) (i : ℕ) (f : ExecContext → ExecContext) : ℕ → ExecContext :=
  Function.update ctx i (f (ctx i))

/-- `switch_context_timer`. -/
def switchContextTimer (ctx : ℕ → ExecContext) (current next : ℕ) (mem : Mem) (rrsp rrbp : ℕ) :
    (ℕ → ExecContext) × Mem :=
  let ctx := setCtx ctx current fun c => { c with regs := {
    rdi := mem (rrsp + 0)
    rsi := mem (rrsp + 1)
    rdx := mem (rrsp + 2)
    rcx := mem (rrsp + 3)
    rbx := mem (rrsp + 4)
    rax := mem (rrsp + 5)
    r15 := mem (rrsp + 6)
    r14 := mem (rrsp + 7)
    r13 := mem (rrsp + 8)
    r12 := mem (rrsp + 9)
    r11 := mem (rrsp + 10)
    r10 := mem (rrsp + 11)
    r9 := mem (rrsp + 12)
    r8 := mem (rrsp + 13)
    rbp := mem (rrbp + 0)
    entryRip := mem (rrbp + 1)
    entryCs := mem (rrbp + 2)
    entryRflags := mem (rrbp + 3)
    entryRsp := mem (rrbp + 4)
    entrySs := mem (rrbp + 5) } }
  let regs := (ctx next).regs
  (ctx, store mem [(rrsp + 0, regs.rdi), (rrsp + 1, regs.rsi), (rrsp + 2, regs.rdx),
    (rrsp + 3, regs.rcx), (rrsp + 4, regs.rbx), (rrsp + 5, regs.rax),
    (rrsp + 6, regs.r15), (rrsp + 7, regs.r14), (rrsp + 8, regs.r13), (rrsp + 9, regs.r12),
    (rrsp + 10, regs.r11), (rrsp + 11, regs.r10), (rrsp + 12, regs.r9), (rrsp + 13, regs.r8),
    (rrbp + 0, regs.rbp), (rrbp + 1, regs.entryRip), (rrbp + 2, regs.entryCs),
    (rrbp + 3, regs.entryRflags), (rrbp + 4, regs.entryRsp), (rrbp + 5, regs.entrySs)])

/-- `switch_context_sleep`. The registers of the current context are read one word above the place
where those of the next one are written, and `rax` is not saved. -/
def switchContextSleep (ctx : ℕ → ExecContext) (current next : ℕ) (mem : Mem) (rrbp : ℕ) :
    (ℕ → ExecContext) × Mem :=
  let ctx := setCtx ctx current fun c => { c with regs := { c.regs with
    rbp := mem (rrbp + 10)
    rdi := mem (rrbp + 11)
    rsi := mem (rrbp + 12)
    rdx := mem (rrbp + 13)
    rcx := mem (rrbp + 14)
    rbx := mem (rrbp + 15)
    r15 := mem (rrbp + 2)
    r14 := mem (rrbp + 3)
    r13 := mem (rrbp + 4)
    r12 := mem (rrbp + 5)
    r11 := mem (rrbp + 6)
    r10 := mem (rrbp + 7)
    r9 := mem (rrbp + 8)
    r8 := mem (rrbp + 9)
    entryRip := mem (rrbp + 16)
    entryCs := mem (rrbp + 17)
    entryRflags := mem (rrbp + 18)
    entryRsp := mem (rrbp + 19)
    entrySs := mem (rrbp + 20) } }
  let regs := (ctx next).regs
  (ctx, store mem [(rrbp + 9, regs.rbp), (rrbp + 10, regs.rdi), (rrbp + 11, regs.rsi),
    (rrbp + 12, regs.rdx), (rrbp + 13, regs.rcx), (rrbp + 14, regs.rbx), (rrbp + 15, regs.rax),
    (rrbp + 1, regs.r15), (rrbp + 2, regs.r14), (rrbp + 3, regs.r13), (rrbp + 4, regs.r12),
    (rrbp + 5, regs.r11), (rrbp + 6, regs.r10), (rrbp + 7, regs.r9), (rrbp + 8, regs.r8),
    (rrbp + 16, regs.entryRip), (rrbp + 17, regs.entryCs), (rrbp + 18, regs.entryRflags),
    (rrbp + 19, regs.entryRsp), (rrbp + 20, regs.entrySs)])

/-! ## What the frames carry -/

variable {ctx : ℕ → ExecContext} {current next : ℕ} {mem : Mem}

@[simp] theorem setCtx_self (ctx : ℕ → ExecContext) (i : ℕ) (f : ExecContext → ExecContext) :
    setCtx ctx i f i = f (ctx i) := Function.update_self _ _ _

@[simp] theorem setCtx_of_ne (ctx : ℕ → ExecContext) {i j : ℕ} (f : ExecContext → ExecContext)
    (h : j ≠ i) : setCtx ctx i f j = ctx j := Function.update_of_ne h _ _

/-- A field that a store leaves alone. -/
theorem setCtx_field {β : Type*} (g : ExecContext → β) {i : ℕ} {f : ExecContext → ExecContext}
    (h : g (f (ctx i)) = g (ctx i)) (j : ℕ) : g (setCtx ctx i f j) = g (ctx j) := by
  by_cases hj : j = i
  · rw [hj, setCtx_self, h]
  · rw [setCtx_of_ne _ _ hj]

/-- The registers `u` without `rax`, which is that of `v`. -/
def Regs.withRax (u v : Regs) : Regs := { u with rax := v.rax }

theorem store_of_not_mem {l : List (ℕ × Word)} {a : ℕ} (h : a ∉ l.map Prod.fst) :
    store mem l a = mem a := by
  induction l generalizing mem with
  | nil => rfl
  | cons p l ih =>
    rw [List.map_cons, List.mem_cons, not_or] at h
    rw [store, List.foldl_cons, ← store, ih h.2, Function.update_of_ne h.1]

/-- Stores to different addresses. -/
theorem store_of_mem {l : List (ℕ × Word)} {a : ℕ} {w : Word} (hnd : (l.map Prod.fst).Nodup)
    (h : (a, w) ∈ l) : store mem l a = w := by
  induction l generalizing mem with
  | nil => exact absurd h (by simp)
  | cons p l ih =>
    rw [List.map_cons, List.nodup_cons] at hnd
    rw [store, List.foldl_cons, ← store]
    rcases List.mem_cons.mp h with rfl | h
    · rw [store_of_not_mem hnd.1, Function.update_self]
    · exact ih hnd.2 h

/-- The words of a timer frame are at different addresses. -/
theorem nodup_timer {rsp rbp : ℕ} (hbelow : rsp + 14 ≤ rbp) :
    [rbp + 5, rbp + 4, rbp + 3, rbp + 2, rbp + 1, rbp + 0, rsp + 13, rsp + 12, rsp + 11, rsp + 10,
      rsp + 9, rsp + 8, rsp + 7, rsp + 6, rsp + 5, rsp + 4, rsp + 3, rsp + 2, rsp + 1,
      rsp + 0].Nodup := by
  simp
  omega

/-- After a timer interrupt, the pops give back the registers. -/
theorem popTimer_trapTimer (f : Interrupt) : popTimer (trapTimer f) f.rsp f.rbp = f.regs := by
  have hnd := nodup_timer f.below
  apply Regs.ext <;>
  · refine store_of_mem hnd ?_
    repeat first | exact List.mem_cons_self | apply List.mem_cons_of_mem

/-- After `switch_context_timer`, the current context has the registers of the frame, and the pops
give those of the next one. -/
theorem switchContextTimer_eq (ctx : ℕ → ExecContext) (mem : Mem) {rsp rbp : ℕ}
    (hbelow : rsp + 14 ≤ rbp) (hne : next ≠ current) :
    (switchContextTimer ctx current next mem rsp rbp).1 =
        setCtx ctx current (fun c => { c with regs := popTimer mem rsp rbp }) ∧
      popTimer (switchContextTimer ctx current next mem rsp rbp).2 rsp rbp = (ctx next).regs := by
  refine ⟨rfl, ?_⟩
  have hnd : [rsp + 0, rsp + 1, rsp + 2, rsp + 3, rsp + 4, rsp + 5, rsp + 6, rsp + 7,
      rsp + 8, rsp + 9, rsp + 10, rsp + 11, rsp + 12, rsp + 13, rbp + 0, rbp + 1, rbp + 2,
      rbp + 3, rbp + 4, rbp + 5].Nodup := by
    simp
    omega
  unfold switchContextTimer
  dsimp only
  rw [setCtx_of_ne _ _ hne]
  apply Regs.ext <;>
  · refine store_of_mem hnd ?_
    repeat first | exact List.mem_cons_self | apply List.mem_cons_of_mem

/-- The words of a system call are at different addresses. -/
theorem nodup_syscall (rbp : ℕ) :
    [rbp + 20, rbp + 19, rbp + 18, rbp + 17, rbp + 16, rbp + 15, rbp + 14,
    rbp + 13, rbp + 12, rbp + 11, rbp + 10, rbp + 9, rbp + 8, rbp + 7, rbp + 6, rbp + 5, rbp + 4,
    rbp + 3, rbp + 2].Nodup := by
  simp

/-- After `switch_context_sleep`, the current context has the registers of the system call, and the
pops give those of the next one. -/
theorem switchContextSleep_eq (ctx : ℕ → ExecContext) (s : Syscall) (hne : next ≠ current) :
    (switchContextSleep ctx current next (trapSyscall s) s.rbp).1 =
        setCtx ctx current (fun c => { c with regs := s.regs.withRax c.regs }) ∧
      popSyscall (switchContextSleep ctx current next (trapSyscall s) s.rbp).2 (s.rbp + 1) =
        (ctx next).regs := by
  constructor
  · have hnd := nodup_syscall s.rbp
    unfold switchContextSleep setCtx
    refine congrArg (Function.update ctx current)
      (congrArg (fun r => { ctx current with regs := r }) ?_)
    apply Regs.ext
    case rax => rfl
    all_goals
      refine store_of_mem hnd ?_
      repeat first | exact List.mem_cons_self | apply List.mem_cons_of_mem
  · have hnd : [s.rbp + 9, s.rbp + 10, s.rbp + 11, s.rbp + 12, s.rbp + 13, s.rbp + 14, s.rbp + 15,
        s.rbp + 1, s.rbp + 2, s.rbp + 3, s.rbp + 4, s.rbp + 5, s.rbp + 6, s.rbp + 7, s.rbp + 8,
        s.rbp + 16, s.rbp + 17, s.rbp + 18, s.rbp + 19, s.rbp + 20].Nodup := by
      simp
    unfold switchContextSleep
    dsimp only
    rw [setCtx_of_ne _ _ hne]
    apply Regs.ext <;>
    · refine store_of_mem hnd ?_
      repeat first | exact List.mem_cons_self | apply List.mem_cons_of_mem

end GemOS.Sched
