import GemOS.Lib.Ledger
import GemOS.Sched.Context

/-!
# The scheduler

A transcription of the scheduler of `src/Assn3/schedule.c` for `N` contexts (`MAX_PROCESSES`). The
kernel is entered by a timer tick or by a system call of the current process. `get_new_ctx` and
`os_pfn_alloc` are outside the repository; what they return is part of the call of `do_clone`. The
user's memory is apart from the kernel's, so that the store of `invoke_sync_signal` to the user's
stack changes neither the contexts nor the kernel stack.
-/

namespace GemOS.Sched

open Ledger

/-- The state of the kernel. -/
structure Kernel where
  /-- The list of contexts. -/
  ctx : ℕ → ExecContext
  /-- The context that was given last to `set_current_ctx`. -/
  current : ℕ
  /-- The context that was given last to `set_tss_stack_ptr`. -/
  tss : ℕ
  /-- `free_os_pfn`. -/
  freeOsPfn : ℕ → ℕ
  /-- The calls of `os_pfn_alloc` and `os_pfn_free` for `OS_PT_REG`, the newest first. -/
  frames : List (Event ℕ)
  /-- The memory of the user. -/
  userMem : Word → Word

/-- What an entry of the kernel leads to. -/
structure Outcome where
  /-- The result of a system call that returns to its caller. -/
  ret : Option ℤ := none
  /-- What `pick_next_context` returned. -/
  picked : Option ℕ := none
  /-- The handler of a `SIGALRM` that was delivered to the current process. -/
  handler : Option Word := none
  /-- The registers that are popped when the entry ends with `iretq`. -/
  popped : Option Regs := none

namespace Kernel

/-- A store to the context `i`. -/
def modify (k : Kernel) (i : ℕ) (f : ExecContext → ExecContext) : Kernel :=
  { k with ctx := setCtx k.ctx i f }

/-- `pick_next_context`: the swapper when no other context is ready. -/
def pickNextContext (N : ℕ) (k : Kernel) : ℕ :=
  let curpid := (k.ctx k.current).pid
  match (List.range' (curpid + 1) (N - 1)).find? fun i =>
      (k.ctx (i % N)).state = .ready ∧ i % N ≠ 0 with
  | some i => i % N
  | none => 0

/-! ## Timer ticks -/

/-- The frames of exited contexts are freed. -/
def freePending (N : ℕ) (k : Kernel) : Kernel :=
  (List.range' 1 (N - 1)).foldl (fun k i =>
    if k.freeOsPfn i ≠ 0 then
      { k with
        frames := .free (k.freeOsPfn i) :: k.frames
        freeOsPfn := Function.update k.freeOsPfn i 0 }
    else k) k

/-- One context in the loop of `handle_timer_tick`: a sleeper wakes up after its last tick. -/
def countTick (k : Kernel) (i : ℕ) : Kernel :=
  if (k.ctx i).state = .waiting ∧ (k.ctx i).ticksToSleep > 0 then
    let k := k.modify i fun c => { c with ticksToSleep := c.ticksToSleep - 1 }
    if (k.ctx i).ticksToSleep = 0 then k.modify i fun c => { c with state := .ready } else k
  else k

/-- The loop of `handle_timer_tick` over the contexts. `process_found` says whether another one than
the current one and the swapper is ready. -/
def wakeUp (N : ℕ) (k : Kernel) : Bool × Kernel :=
  (List.range N).foldl (fun (processFound, k) i =>
    let k := k.countTick i
    (if i ≠ 0 ∧ (k.ctx i).state = .ready ∧ i ≠ (k.ctx k.current).pid then true
      else processFound, k))
    (false, k)

/-- `invoke_sync_signal`, of `SIGALRM` or a signal with a handler. -/
def invokeSyncSignal (k : Kernel) (signo : Signal) (mem : Mem) (ustackp urip : ℕ) : Kernel × Mem :=
  let handler := (k.ctx k.current).sighandlers signo
  if handler ≠ 0 then
    let mem := Function.update mem ustackp (mem ustackp - 8)
    let k := { k with userMem := Function.update k.userMem (mem ustackp) (mem urip) }
    (k, Function.update mem urip handler)
  else (k, mem)

/-- The alarm of the current process in `handle_timer_tick`, and the handler that is called. -/
def alarm (k : Kernel) (mem : Mem) (baseptr : ℕ) : Option Word × Kernel × Mem :=
  let current := k.current
  if (k.ctx current).ticksToAlarm ≠ 0 ∧ (k.ctx current).alarmConfigTime ≠ 0 then
    let k := k.modify current fun c => { c with ticksToAlarm := c.ticksToAlarm - 1 }
    if (k.ctx current).ticksToAlarm = 0 ∧ (k.ctx current).sighandlers .sigalrm ≠ 0 then
      let k := k.modify current fun c => { c with ticksToAlarm := c.alarmConfigTime }
      (some ((k.ctx current).sighandlers .sigalrm),
        k.invokeSyncSignal .sigalrm mem (baseptr + 4) (baseptr + 1))
    else (none, k, mem)
  else (none, k, mem)

/-- `handle_timer_tick`. -/
def handleTimerTick (N : ℕ) (k : Kernel) (f : Interrupt) : Outcome × Kernel :=
  let k := k.freePending N
  let (processFound, k) := k.wakeUp N
  let (handler, k, mem) := k.alarm (trapTimer f) f.rbp
  if processFound then
    let current := k.current
    let next := k.pickNextContext N
    let k := k.modify next fun c => { c with state := .running }
    let k := k.modify current fun c => { c with state := .ready }
    let (ctx, mem) := switchContextTimer k.ctx current next mem f.rsp f.rbp
    ({ picked := some next, handler := handler, popped := some (popTimer mem f.rsp f.rbp) },
      { k with ctx := ctx, tss := next, current := next })
  else ({ handler := handler, popped := some (popTimer mem f.rsp f.rbp) }, k)

/-! ## System calls -/

/-- The end of `do_sleep` and `do_exit`: another context gets the CPU. -/
def switchAway (N : ℕ) (k : Kernel) (s : Syscall) : Outcome × Kernel :=
  let next := k.pickNextContext N
  let (ctx, mem) := switchContextSleep k.ctx k.current next (trapSyscall s) s.rbp
  let k := { k with ctx := ctx, tss := next, current := next }
  ({ picked := some next, popped := some (popSyscall mem (s.rbp + 1)) },
    k.modify next fun c => { c with state := .running })

/-- `do_exit`. When no other process is alive, `do_cleanup` shuts the machine down. -/
def doExit (N : ℕ) (k : Kernel) (s : Syscall) : Option (Outcome × Kernel) :=
  let current := k.current
  let k := k.modify current fun c => { c with state := .unused }
  let available := (List.range' 1 (N - 1)).any fun i => (k.ctx i).pid ≠ 0 ∧
    (k.ctx i).state ≠ .unused
  let k := { k with
    freeOsPfn := Function.update k.freeOsPfn (k.ctx current).pid (k.ctx current).osStackPfn }
  if available = false then none else some (k.switchAway N s)

/-- `do_sleep`. A `u32` is never negative. -/
def doSleep (N : ℕ) (k : Kernel) (ticks : ℕ) (s : Syscall) : Outcome × Kernel :=
  let k := k.modify k.current fun c => { c with ticksToSleep := ticks }
  let k := k.modify k.current fun c => { c with state := .waiting }
  k.switchAway N s

/-- The registers that `do_clone` gives to the child: those saved for the parent, with a stack and a
function of its own. -/
def childRegs (parent : Regs) (rflags thFunc userStack : Word) : Regs :=
  { parent with
    entryCs := 0x23
    entrySs := 0x2b
    entryRflags := rflags
    entryRip := thFunc
    entryRsp := userStack
    rbp := userStack }

/-- `do_clone`, when `get_new_ctx` returns the context `slot` and `os_pfn_alloc` the frame `pfn`. -/
def doClone (k : Kernel) (slot pfn : ℕ) (thFunc userStack : Word) (s : Syscall) :
    Outcome × Kernel :=
  let current := k.ctx k.current
  let k := { k with frames := .alloc pfn :: k.frames }
  let k := k.modify slot fun child => { child with
    osStackPfn := pfn
    state := .ready
    ticksToSleep := 0
    ticksToAlarm := 0
    alarmConfigTime := 0
    sighandlers := current.sighandlers
    regs := childRegs current.regs (trapSyscall s (s.rbp + 18)) thFunc userStack }
  ({ ret := some (k.ctx slot).pid }, k)

/-- `do_signal`; no signal stands for a negative number. -/
def doSignal (k : Kernel) (signo : Option Signal) (handler : Word) : Outcome × Kernel :=
  match signo with
  | none => ({ ret := some (-1) }, k)
  | some signo =>
    if handler = 0 then ({ ret := some (-1) }, k)
    else
      let rethandler := (k.ctx k.current).sighandlers signo
      ({ ret := some rethandler.toInt64.toInt }, k.modify k.current fun c =>
        { c with sighandlers := Function.update c.sighandlers signo handler })

/-- `do_alarm`. -/
def doAlarm (k : Kernel) (ticks : ℕ) : Outcome × Kernel :=
  let retval := (k.ctx k.current).ticksToAlarm
  ({ ret := some retval }, k.modify k.current fun c =>
    { c with alarmConfigTime := ticks, ticksToAlarm := ticks })

end Kernel

/-- An entry of the kernel. -/
inductive Op where
  /-- A timer interrupt. -/
  | tick (f : Interrupt)
  /-- `do_sleep(ticks)`. -/
  | sleep (ticks : ℕ) (s : Syscall)
  /-- `do_exit()`. -/
  | exit (s : Syscall)
  /-- `do_clone(th_func, user_stack)`, with the new context and its frame. -/
  | clone (slot pfn : ℕ) (thFunc userStack : Word) (s : Syscall)
  /-- `do_signal(signo, handler)`. -/
  | signal (signo : Option Signal) (handler : Word)
  /-- `do_alarm(ticks)`. -/
  | alarm (ticks : ℕ)

/-- An entry of the kernel with `N` contexts. -/
def step (N : ℕ) (k : Kernel) : Op → Option (Outcome × Kernel)
  | .tick f => some (k.handleTimerTick N f)
  | .sleep ticks s => some (k.doSleep N ticks s)
  | .exit s => k.doExit N s
  | .clone slot pfn thFunc userStack s => some (k.doClone slot pfn thFunc userStack s)
  | .signal signo handler => some (k.doSignal signo handler)
  | .alarm ticks => some (k.doAlarm ticks)

end GemOS.Sched
