import GemOS.Sched.Invariant

/-!
# Alarms

An alarm counts the timer ticks that find its process running. `do_alarm(n)` starts the count, and a
tick that completes `n` of them delivers `SIGALRM` and starts it anew (`alarmed_counts`). What other
processes do leaves the count alone (`Effect.alarm_other`), so that `d` ticks of its own lead to
`d / n` signals and leave `n - d % n` ticks (`alarm_periodic`). When the last tick finds no handler
the alarm is off, which is why the handler has to be registered in time.
-/

namespace GemOS.Sched

variable {N n d p i : ℕ} {k k' : Kernel} {op : Op} {o : Outcome} {handler : Word}
  {hist : List (Op × ℕ × Outcome)}

/-- The entries of the kernel, with the process that was current before. -/
abbrev entries (N : ℕ) : Kernel → Op → Option ((ℕ × Outcome) × Kernel) :=
  Run.observe Kernel.current (step N)

/-- The number of timer ticks that found process `p` as the current one. -/
def ticksFound (p : ℕ) (hist : List (Op × ℕ × Outcome)) : ℕ :=
  hist.countP fun e => e.1.isTick ∧ e.2.1 = p

/-- The number of times that `SIGALRM` was delivered to process `p`. -/
def deliveries (p : ℕ) (hist : List (Op × ℕ × Outcome)) : ℕ :=
  hist.countP fun e => e.2.1 = p ∧ e.2.2.handler ≠ none

/-- Process `p` does not set its alarm, and its context is not given to a new process. -/
def KeepsAlarm (p : ℕ) (k : Kernel) : Op → Prop
  | .alarm _ => k.current ≠ p
  | .clone slot _ _ _ _ => slot ≠ p
  | _ => True

instance (p : ℕ) (k : Kernel) : (op : Op) → Decidable (KeepsAlarm p k op)
  | .tick _ => inferInstanceAs (Decidable True)
  | .sleep _ _ => inferInstanceAs (Decidable True)
  | .exit _ => inferInstanceAs (Decidable True)
  | .clone _ _ _ _ _ => inferInstanceAs (Decidable (_ ≠ _))
  | .signal _ _ => inferInstanceAs (Decidable True)
  | .alarm _ => inferInstanceAs (Decidable (_ ≠ _))

/-- Process `p`, which has `handler` for `SIGALRM` when it sets its alarm, has one before the alarm
expires first: this one, or one that it registers before the `n`-th tick that finds it. -/
def Registered (p n : ℕ) (handler : Word) (hist : List (Op × ℕ × Outcome)) : Prop :=
  handler ≠ 0 ∨ ∃ before new o after,
    hist = before ++ (.signal (some .sigalrm) new, p, o) :: after ∧ new ≠ 0 ∧
      ticksFound p before < n

/-! ## One entry -/

/-- The count of the alarm and its period. -/
def ExecContext.alarmFields (c : ExecContext) : ℕ × ℕ := (c.ticksToAlarm, c.alarmConfigTime)

@[simp] theorem ExecContext.woken_alarmFields (c : ExecContext) :
    c.woken.alarmFields = c.alarmFields := by
  unfold woken
  split <;> rfl

@[simp] theorem ExecContext.woken_sighandlers (c : ExecContext) :
    c.woken.sighandlers = c.sighandlers := by
  unfold woken
  split <;> rfl

@[simp] theorem ExecContext.alarmed_sighandlers (c : ExecContext) :
    c.alarmed.sighandlers = c.sighandlers := by
  unfold alarmed
  split <;> rfl

@[simp] theorem ExecContext.alarmed_alarmConfigTime (c : ExecContext) :
    c.alarmed.alarmConfigTime = c.alarmConfigTime := by
  unfold alarmed
  split <;> rfl

/-- The count of an alarm that is on. -/
theorem ExecContext.alarmed_ticksToAlarm {c : ExecContext} (hon : c.ticksToAlarm ≠ 0)
    (hconfig : c.alarmConfigTime ≠ 0) : c.alarmed.ticksToAlarm =
      if c.ticksToAlarm = 1 ∧ c.sighandlers .sigalrm ≠ 0 then c.alarmConfigTime
      else c.ticksToAlarm - 1 := by
  unfold alarmed
  rw [if_pos ⟨hon, hconfig⟩]

/-- A tick continues the count: `d` ticks after `do_alarm(n)`, when a handler is there for the last
one. -/
theorem ExecContext.alarmed_counts {c : ExecContext} (hconfig : c.alarmConfigTime = n)
    (hleft : c.ticksToAlarm = n - d % n)
    (hready : d + 1 < n ∨ c.sighandlers .sigalrm ≠ 0 ∨ n = 0) :
    c.alarmed.ticksToAlarm = n - (d + 1) % n ∧
      (d + 1) / n = d / n + if c.delivered = none then 0 else 1 := by
  rcases Nat.eq_zero_or_pos n with rfl | hn
  · -- The alarm is off.
    have hoff : c.alarmed = c := if_neg fun h => h.2 hconfig
    have hnone : c.delivered = none := if_neg fun h => h.2.1 hconfig
    rw [hoff, hnone, hleft]
    simp
  · have hlt := Nat.mod_lt d hn
    rw [ExecContext.alarmed_ticksToAlarm (by omega) (by omega)]
    by_cases hlast : d % n + 1 = n
    · -- The last tick of a period calls the handler and starts the next one.
      have hdvd : n ∣ d + 1 := by
        rw [Nat.dvd_iff_mod_eq_zero, ← Nat.mod_add_mod, hlast, Nat.mod_self]
      have hhandler : c.sighandlers .sigalrm ≠ 0 := by
        refine (hready.resolve_left fun hmore => ?_).resolve_right (by omega)
        exact absurd (Nat.le_of_dvd (Nat.succ_pos d) hdvd) (by omega)
      have hone : c.ticksToAlarm = 1 := by omega
      have hdel : c.delivered = some (c.sighandlers .sigalrm) :=
        if_pos ⟨hone, by omega, hhandler⟩
      rw [if_pos ⟨hone, hhandler⟩, hdel, if_neg (by simp), Nat.succ_div_of_dvd hdvd,
        Nat.dvd_iff_mod_eq_zero.mp hdvd]
      exact ⟨hconfig, rfl⟩
    · have hmod : (d + 1) % n = d % n + 1 := by
        rw [← Nat.mod_add_mod, Nat.mod_eq_of_lt (by omega)]
      have hdvd : ¬n ∣ d + 1 := by
        rw [Nat.dvd_iff_mod_eq_zero, hmod]
        omega
      have hmany : c.ticksToAlarm ≠ 1 := by omega
      have hnone : c.delivered = none := if_neg fun h => hmany h.1
      rw [if_neg fun h => hmany h.1, hnone, if_pos rfl, Nat.succ_div_of_not_dvd hdvd, hmod]
      exact ⟨by omega, rfl⟩

/-- What other processes do leaves the alarm of `p` and its handlers alone. -/
theorem Effect.alarm_other {β : Type*} (g : ExecContext → β) (heff : Effect N k op o k')
    (h : Inv N k) (hop : Legal N k op) (hkeep : KeepsAlarm p k op) (hp : p < N)
    (hpc : p ≠ k.current) (hwoken : ∀ c : ExecContext, g c.woken = g c)
    (hrun : ∀ c : ExecContext, g { c with state := .running } = g c) :
    g (k'.ctx p) = g (k.ctx p) := by
  have hslot : ∀ pfn thFunc userStack s, op ≠ .clone p pfn thFunc userStack s := by
    rintro pfn thFunc userStack s rfl
    exact hkeep rfl
  have hcount : g ((k.ctx p).countedBy op) = g (k.ctx p) := by
    unfold ExecContext.countedBy
    split
    · exact hwoken _
    · rfl
  rcases heff.other h hop hp hpc hslot with hctx | ⟨-, -, hctx⟩
  · rw [hctx, hcount]
  · rw [hctx, hrun, hcount]

theorem Op.isTick_iff : op.isTick = true ↔ ∃ f, op = .tick f := by
  cases op <;> simp [isTick]

/-- Between its ticks, a process leaves its alarm alone, and its handlers but for `do_signal`, and
nothing is delivered. -/
theorem Effect.alarm_own (heff : Effect N k op o k') (hkeep : KeepsAlarm k.current k op)
    (htick : op.isTick = false) :
    (k'.ctx k.current).alarmFields = (k.ctx k.current).alarmFields ∧ o.handler = none ∧
      ((∀ signo new, op ≠ .signal signo new) →
        (k'.ctx k.current).sighandlers = (k.ctx k.current).sighandlers) := by
  cases heff with
  | stay f userMem hidle => exact absurd htick (by simp [Op.isTick])
  | preempt f userMem q hq h0 => exact absurd htick (by simp [Op.isTick])
  | sleep ticks s q hq =>
    exact ⟨k.switch_field ExecContext.alarmFields rfl (fun _ => rfl) q k.current, rfl,
      fun _ => k.switch_field ExecContext.sighandlers rfl (fun _ => rfl) q k.current⟩
  | exit s q hq =>
    exact ⟨Kernel.switch_field ExecContext.alarmFields _ rfl (fun _ => rfl) q k.current, rfl,
      fun _ => Kernel.switch_field ExecContext.sighandlers _ rfl (fun _ => rfl) q k.current⟩
  | clone slot pfn thFunc userStack s =>
    have hctx := setCtx_of_ne k.ctx (k.childCtx pfn thFunc userStack s) (Ne.symm hkeep)
    exact ⟨congrArg ExecContext.alarmFields hctx, rfl,
      fun _ => congrArg ExecContext.sighandlers hctx⟩
  | signal signo handler ret sighandlers =>
    exact ⟨by rw [Kernel.modify_self]; rfl, rfl, fun hne => absurd rfl (hne signo handler)⟩
  | alarm ticks => exact absurd rfl hkeep

/-- A tick counts for the process that it finds, and calls its handler. -/
theorem Effect.alarm_tick {f : Interrupt} (heff : Effect N k (.tick f) o k') (h : Inv N k) :
    (k'.ctx k.current).alarmFields = (k.ctx k.current).alarmed.alarmFields ∧
      (k'.ctx k.current).sighandlers = (k.ctx k.current).sighandlers ∧
      o.handler = (k.ctx k.current).delivered := by
  have hticked : ∀ um, (k.ticked N um).ctx k.current = (k.ctx k.current).alarmed := fun um => by
    change setCtx (wokenUpTo N k.ctx) k.current ExecContext.alarmed k.current = _
    rw [setCtx_self, wokenUpTo, if_pos h.current_lt, h.woken_current]
  cases heff with
  | stay _ userMem hidle => exact ⟨by rw [hticked], by rw [hticked]; simp, rfl⟩
  | preempt _ userMem q hq h0 =>
    have hfield : ∀ {β : Type} (g : ExecContext → β),
        (∀ c : ExecContext, g { c with state := .running } = g c) →
        (∀ (c : ExecContext) u, g { c with state := .ready, regs := u } = g c) →
        g (((k.ticked N userMem).switch (fun c => { c with
          state := .ready
          regs := redirect (k.ctx k.current).delivered f.regs }) q).ctx k.current) =
          g (k.ctx k.current).alarmed := fun g hrun hready => by
      rw [Kernel.switch_field g _ (hready _ _) hrun, hticked]
    exact ⟨hfield _ (fun _ => rfl) fun _ _ => rfl,
      (hfield _ (fun _ => rfl) fun _ _ => rfl).trans (ExecContext.alarmed_sighandlers _), rfl⟩

/-- `do_signal` registers a handler, and never takes one away. -/
theorem Kernel.doSignal_handler (k : Kernel) (signo : Option Signal) (handler : Word) :
    ((k.doSignal signo handler).2.ctx k.current).sighandlers .sigalrm =
      if signo = some .sigalrm ∧ handler ≠ 0 then handler
      else (k.ctx k.current).sighandlers .sigalrm := by
  cases signo with
  | none => simp [doSignal]
  | some signo =>
    by_cases hnull : handler = 0
    · simp [doSignal, hnull]
    · by_cases hsig : signo = .sigalrm
      · simp [doSignal, hnull, hsig]
      · simp [doSignal, hnull, hsig, Function.update_of_ne (Ne.symm hsig)]

/-- A handler of `SIGALRM` that is there, or that `do_signal` registers, is there afterwards. -/
theorem Effect.registered (heff : Effect N k op o k') (hstep : step N k op = some (o, k'))
    (h : Inv N k) (hop : Legal N k op) (hkeep : KeepsAlarm p k op) (hp : p < N)
    (hreg : (k.ctx p).sighandlers .sigalrm ≠ 0 ∨
      ∃ new, op = .signal (some .sigalrm) new ∧ k.current = p ∧ new ≠ 0) :
    (k'.ctx p).sighandlers .sigalrm ≠ 0 := by
  by_cases hpc : p = k.current
  · subst hpc
    by_cases hsignal : ∃ signo new, op = .signal signo new
    · obtain ⟨signo, new, rfl⟩ := hsignal
      have hk' : (k.doSignal signo new).2 = k' := congrArg Prod.snd (Option.some.inj hstep)
      rw [← hk', Kernel.doSignal_handler]
      split_ifs with hnew
      · exact hnew.2
      · refine hreg.resolve_right ?_
        rintro ⟨_, heq, -, hne⟩
        obtain ⟨rfl, rfl⟩ := Op.signal.inj heq
        exact hnew ⟨rfl, hne⟩
    · have hhandler := hreg.resolve_right fun ⟨new, heq, _⟩ => hsignal ⟨_, new, heq⟩
      have hsame : (k'.ctx k.current).sighandlers = (k.ctx k.current).sighandlers := by
        cases htick : op.isTick with
        | false => exact (heff.alarm_own hkeep htick).2.2 fun s new heq => hsignal ⟨s, new, heq⟩
        | true =>
          obtain ⟨f, rfl⟩ := Op.isTick_iff.mp htick
          exact (heff.alarm_tick h).2.1
      rwa [hsame]
  · have hhandler := hreg.resolve_right fun ⟨_, _, hcur, _⟩ => hpc hcur.symm
    rwa [heff.alarm_other ExecContext.sighandlers h hop hkeep hp hpc (fun c => c.woken_sighandlers)
      fun _ => rfl]

/-! ## All runs -/

theorem ticksFound_concat (p q : ℕ) (hist : List (Op × ℕ × Outcome)) (op : Op) (o : Outcome) :
    ticksFound p (hist ++ [(op, q, o)]) =
      ticksFound p hist + if op.isTick = true ∧ q = p then 1 else 0 := by
  simp [ticksFound, List.countP_append, List.countP_cons]

theorem deliveries_concat (p q : ℕ) (hist : List (Op × ℕ × Outcome)) (op : Op) (o : Outcome) :
    deliveries p (hist ++ [(op, q, o)]) =
      deliveries p hist + if q = p ∧ o.handler ≠ none then 1 else 0 := by
  simp [deliveries, List.countP_append, List.countP_cons]

/-- A handler was registered before the last entry, or by it. -/
theorem Registered.concat {q : ℕ} (h : Registered p n handler (hist ++ [(op, q, o)])) :
    Registered p n handler hist ∨
      (∃ new, op = .signal (some .sigalrm) new ∧ q = p ∧ new ≠ 0) ∧ ticksFound p hist < n := by
  rcases h with hhandler | ⟨before, new, o', after, heq, hne, hlt⟩
  · exact Or.inl (Or.inl hhandler)
  · rcases List.eq_nil_or_concat after with rfl | ⟨after, e, rfl⟩
    · obtain ⟨rfl, hlast⟩ := List.append_inj' heq rfl
      obtain ⟨rfl, rfl, rfl⟩ : op = .signal (some .sigalrm) new ∧ q = p ∧ o = o' := by
        simpa using hlast
      exact Or.inr ⟨⟨new, rfl, rfl, hne⟩, hlt⟩
    · rw [List.concat_eq_append, ← List.cons_append, ← List.append_assoc] at heq
      exact Or.inl (Or.inr ⟨before, new, o', after, List.append_inj_left' heq rfl, hne, hlt⟩)

/-- The relation between the state and the history since process `p`, which had `handler` for
`SIGALRM`, called `do_alarm(n)`. -/
structure Counting (N p n : ℕ) (handler : Word) (k : Kernel) (hist : List (Op × ℕ × Outcome)) :
    Prop where
  /-- The invariant of the scheduler. -/
  inv : Inv N k
  /-- The period. -/
  config : (k.ctx p).alarmConfigTime = n
  /-- The handler is there from when it was registered. -/
  registered : Registered p n handler hist → (k.ctx p).sighandlers .sigalrm ≠ 0
  /-- Until the first period is over, and with a handler also afterwards, every period delivers a
  signal, and the count is what is left of the last one. -/
  counts : ticksFound p hist < n ∨ Registered p n handler hist ∨ n = 0 →
    (k.ctx p).ticksToAlarm = n - ticksFound p hist % n ∧
      deliveries p hist = ticksFound p hist / n

/-- Every entry keeps the relation. -/
theorem Counting.step (h : Counting N p n handler k hist) (hp : p < N)
    (hop : Legal N k op) (hkeep : KeepsAlarm p k op) :
    ∃ e k', entries N k op = some (e, k') ∧ Counting N p n handler k' (hist ++ [(op, e)]) := by
  obtain ⟨o, k', hstep, heff, h'⟩ := h.inv.step hop
  refine ⟨(k.current, o), k', Run.observe_eq_some.mpr ⟨rfl, hstep⟩, ?_⟩
  have hreg : Registered p n handler (hist ++ [(op, k.current, o)]) →
      (k'.ctx p).sighandlers .sigalrm ≠ 0 := fun hr =>
    heff.registered hstep h.inv hop hkeep hp (hr.concat.imp h.registered And.left)
  by_cases hown : op.isTick = true ∧ k.current = p
  · -- A tick that finds the process.
    obtain ⟨htick, rfl⟩ := hown
    obtain ⟨f, rfl⟩ := Op.isTick_iff.mp htick
    obtain ⟨hfields, -, hdel⟩ := heff.alarm_tick h.inv
    obtain ⟨hleft, hconfig⟩ := Prod.mk.inj hfields
    rw [ExecContext.alarmed_alarmConfigTime, h.config] at hconfig
    refine ⟨h', hconfig, hreg, fun hc => ?_⟩
    rw [ticksFound_concat, if_pos ⟨htick, rfl⟩] at hc ⊢
    rw [deliveries_concat, hleft, hdel]
    have hr : Registered k.current n handler (hist ++ [(.tick f, k.current, o)]) →
        Registered k.current n handler hist := fun hr =>
      hr.concat.resolve_right fun ⟨⟨_, heq, _⟩, _⟩ => absurd heq (by simp)
    obtain ⟨hcount, hsum⟩ := h.counts
      (hc.imp (fun hlt => by omega) fun hc => hc.imp_left hr)
    obtain ⟨hnext, hdiv⟩ := ExecContext.alarmed_counts h.config hcount
      (hc.imp id fun hc => hc.imp_left fun hr' => h.registered (hr hr'))
    refine ⟨hnext, ?_⟩
    rw [hdiv, hsum]
    congr 1
    simp
  · -- Everything else leaves the count alone.
    have hsame : (k'.ctx p).alarmFields = (k.ctx p).alarmFields ∧
        ¬(k.current = p ∧ o.handler ≠ none) := by
      by_cases hpc : p = k.current
      · subst hpc
        obtain ⟨hfields, hnone, -⟩ :=
          heff.alarm_own hkeep (Bool.eq_false_iff.mpr fun htick => hown ⟨htick, rfl⟩)
        exact ⟨hfields, fun hdel => hdel.2 hnone⟩
      · exact ⟨heff.alarm_other ExecContext.alarmFields h.inv hop hkeep hp hpc
          (fun c => c.woken_alarmFields) fun _ => rfl, fun hdel => hpc hdel.1.symm⟩
    obtain ⟨hfields, hdel⟩ := hsame
    obtain ⟨hleft, hconfig⟩ := Prod.mk.inj hfields
    refine ⟨h', hconfig.trans h.config, hreg, fun hc => ?_⟩
    rw [ticksFound_concat, if_neg hown, Nat.add_zero] at hc ⊢
    rw [deliveries_concat, if_neg hdel, Nat.add_zero, hleft]
    -- A handler that is registered now comes before the first period is over.
    refine h.counts (hc.elim Or.inl fun hc => hc.elim (fun hr => ?_) fun hn => Or.inr (Or.inr hn))
    exact hr.concat.elim (fun hr => Or.inr (Or.inl hr)) fun hnew => Or.inl hnew.2

/-- `do_alarm` returns what is left of the alarm, and starts the count. -/
theorem Inv.counting (h : Inv N k) (hop : Legal N k (.alarm n)) :
    Counting N k.current n ((k.ctx k.current).sighandlers .sigalrm) (k.doAlarm n).2 [] := by
  have hctx : (k.doAlarm n).2.ctx k.current =
      { k.ctx k.current with alarmConfigTime := n, ticksToAlarm := n } := k.modify_self _ _
  refine ⟨h.effect hop (Effect.alarm n), by rw [hctx], fun hr => ?_, fun _ => ?_⟩
  · rw [hctx]
    refine hr.resolve_right ?_
    rintro ⟨before, new, o, after, heq, -⟩
    exact absurd heq (by simp)
  · rw [hctx]
    simp [ticksFound, deliveries]

/-- Alarms are periodic. In every run after `do_alarm(n)` of a process in which it does not call
`do_alarm` again, `d` ticks that found it have delivered `d / n` signals, provided that it has a
handler in time, and `do_alarm` then returns `n - d % n`. Nothing is delivered when `n` is 0. -/
theorem alarm_periodic (N : ℕ) (k : Kernel) (hk : Start N k) (pre mid : List Op) (n : ℕ)
    (hops : Run.Along (step N) (Legal N) k (pre ++ .alarm n :: mid))
    (h₁ : List (Op × Outcome)) (k₁ : Kernel) (hrun : Run.run (step N) k pre = some (h₁, k₁))
    (hkeep : Run.Along (step N) (KeepsAlarm k₁.current) (k₁.doAlarm n).2 mid) :
    ∃ hist k₂, Run.run (entries N) (k₁.doAlarm n).2 mid = some (hist, k₂) ∧
      (0 < n → ticksFound k₁.current hist < n ∨
          Registered k₁.current n ((k₁.ctx k₁.current).sighandlers .sigalrm) hist →
        deliveries k₁.current hist = ticksFound k₁.current hist / n ∧
          (k₂.current = k₁.current → ∀ m, (k₂.doAlarm m).1.ret =
            some ((n - ticksFound k₁.current hist % n : ℕ) : ℤ))) ∧
      (n = 0 → deliveries k₁.current hist = 0) := by
  obtain ⟨h₁', k₁', hrun', hinv⟩ := hk.inv.run hops.left
  obtain rfl : k₁' = k₁ := by simpa using congrArg (Option.map Prod.snd) (hrun'.symm.trans hrun)
  obtain ⟨hop, hmid⟩ := hops.right hrun
  obtain ⟨hist, k₂, hrun₂, hcounting⟩ := Run.run_of_step (h := [])
    (Counting N k₁'.current n ((k₁'.ctx k₁'.current).sighandlers .sigalrm))
    (fun k hist op hc hop => hc.step hinv.current_lt hop.1 hop.2) (hinv.counting hop)
    (Run.along_observe ((hmid _ _ rfl).and hkeep))
  rw [List.nil_append] at hcounting
  refine ⟨hist, k₂, hrun₂, fun _ hc => ?_, fun hn => ?_⟩
  · obtain ⟨hleft, hsum⟩ := hcounting.counts (hc.imp_right Or.inl)
    refine ⟨hsum, fun hcur m => ?_⟩
    change some ((k₂.ctx k₂.current).ticksToAlarm : ℤ) = _
    rw [hcur, hleft]
  · rw [(hcounting.counts (Or.inr (Or.inr hn))).2, hn, Nat.div_zero]

/-- Process 1 has a handler. -/
def handled : Kernel := (boot.doSignal (some .sigalrm) 7).2

/-- A tick, a nap during which the swapper is found by the next one, and a third tick. -/
def napping : List Op := [.tick interrupt, .sleep 1 call, .tick interrupt, .tick interrupt]

/-- Two of three ticks find process 1, which gets one signal after `do_alarm(2)`. -/
theorem alarm_periodic_two : ∃ hist k₂,
    Run.run (entries 4) (handled.doAlarm 2).2 napping = some (hist, k₂) ∧
      ticksFound 1 hist = 2 ∧ deliveries 1 hist = 1 ∧ (k₂.doAlarm 5).1.ret = some 2 := by
  obtain ⟨hist, k₂, hrun, hperiodic, -⟩ := alarm_periodic 4 boot (start_boot (by decide))
    [.signal (some .sigalrm) 7] napping 2 (by decide) _ handled rfl (by decide)
  have hfound : (Run.run (entries 4) (handled.doAlarm 2).2 napping).map
      (fun r => (ticksFound 1 r.1, r.2.current)) = some (2, 1) := by decide
  rw [hrun] at hfound
  obtain ⟨hticks, hcur⟩ : ticksFound 1 hist = 2 ∧ k₂.current = 1 := by simpa using hfound
  obtain ⟨hsum, hret⟩ := hperiodic (by decide) (Or.inr (Or.inl (by decide)))
  have hself : handled.current = 1 := rfl
  rw [hself, hticks] at hsum hret
  exact ⟨hist, k₂, hrun, hticks, hsum, hret hcur 5⟩

end GemOS.Sched
