import GemOS.Sched.Invariant

/-!
# Sleepers

A process that calls `do_sleep(n)` waits for `n` timer ticks. The tick loop counts only sleepers
whose counter is positive, so that one which calls `do_sleep(0)` is never woken up.
`sleepers_wake_iff` says that this is the only way to oversleep: a sleeper that counts (`Sleeping`)
is waiting until its last tick, and ready or running right after it.
-/

namespace GemOS.Sched

variable {N n p i : ℕ} {k k' : Kernel} {op : Op} {o : Outcome} {ops : List Op}
  {hist : List (Op × Outcome)}

/-- The number of timer ticks. -/
def ticksOf (ops : List Op) : ℕ := ops.countP Op.isTick

/-- No context waits forever. -/
def Awaited (N : ℕ) (k : Kernel) : Prop := ∀ i < N, (k.ctx i).state = .waiting →
    0 < (k.ctx i).ticksToSleep

/-- Every process that calls `do_sleep(n)` in the run is waiting while less than `n` ticks have
followed, and ready or running right after the `n`-th one, or right after the first one when `n` is
0. -/
def OnTime (N : ℕ) (k : Kernel) (ops : List Op) : Prop :=
  ∀ pre n s mid post h₁ k₁ h₂ k₂, ops = pre ++ .sleep n s :: mid ++ post →
    Run.run (step N) k pre = some (h₁, k₁) →
      Run.run (step N) k₁ (.sleep n s :: mid) = some (h₂, k₂) →
      (ticksOf mid < n → (k₂.ctx k₁.current).state = .waiting) ∧
      ∀ mid' f, mid = mid' ++ [.tick f] → ticksOf mid = max n 1 →
        (k₂.ctx k₁.current).state = .ready ∨ (k₂.ctx k₁.current).state = .running

/-! ## What a tick does to a sleeper -/

/-- A sleeper with several ticks left. -/
theorem ExecContext.woken_many {c : ExecContext} (hw : c.state = .waiting)
    (ht : 1 < c.ticksToSleep) :
    c.woken.state = .waiting ∧ c.woken.ticksToSleep = c.ticksToSleep - 1 := by
  unfold woken
  rw [if_pos ⟨hw, by omega⟩]
  exact ⟨if_neg (by omega), rfl⟩

/-- A sleeper with one tick left. -/
theorem ExecContext.woken_last {c : ExecContext} (hw : c.state = .waiting)
    (ht : c.ticksToSleep = 1) :
    c.woken.state = .ready := by
  unfold woken
  rw [if_pos ⟨hw, by omega⟩]
  exact if_pos ht

/-- A sleeper that counts still counts after a tick. -/
theorem ExecContext.countedBy_awaited {c : ExecContext}
    (h : c.state = .waiting → 0 < c.ticksToSleep)
    (op : Op) (hw : (c.countedBy op).state = .waiting) : 0 < (c.countedBy op).ticksToSleep := by
  cases htick : op.isTick with
  | false =>
    have heq : c.countedBy op = c := if_neg (by simp [htick])
    rw [heq] at hw ⊢
    exact h hw
  | true =>
    have heq : c.countedBy op = c.woken := if_pos htick
    rw [heq] at hw ⊢
    -- Only a sleeper is waiting after a tick.
    have hwait : c.state = .waiting := by
      rcases c.woken_state with hst | ⟨-, hst⟩
      · rw [← hst, hw]
      · rw [hst] at hw
        exact absurd hw (by simp)
    have hpos := h hwait
    rcases Nat.lt_or_ge 1 c.ticksToSleep with hlt | hge
    · rw [(woken_many hwait hlt).2]
      omega
    · rw [woken_last hwait (by omega)] at hw
      exact absurd hw (by simp)

/-! ## Nobody waits forever -/

/-- Every entry but `do_sleep(0)` keeps that all sleepers count. -/
theorem Effect.awaited (heff : Effect N k op o k') (h : Inv N k) (hop : Legal N k op)
    (hk : Awaited N k) (hpos : ∀ n s, op = .sleep n s → n ≠ 0) : Awaited N k' := by
  intro i hi hwait
  by_cases hic : i = k.current
  · obtain ⟨n, s, hsleep, hticks⟩ := heff.current_waiting h hop (by rw [← hic, hwait])
    rw [hic, hticks]
    exact Nat.pos_of_ne_zero (hpos n s hsleep)
  · by_cases hused : (k.ctx i).state = .unused
    · rcases heff.unused h hop hi hused with hctx | ⟨pfn, thFunc, userStack, s, -, hctx⟩ <;>
        rw [hctx] at hwait
      · rw [hused] at hwait
        exact absurd hwait (by simp)
      · exact absurd hwait (by simp [Kernel.childCtx])
    · rcases heff.other h hop hi hic (hop.ne_clone hused) with hctx | ⟨-, -, hctx⟩ <;>
        rw [hctx] at hwait ⊢
      · exact ExecContext.countedBy_awaited (hk i hi) op hwait
      · exact absurd hwait (by simp)

/-- After `do_sleep(0)`, the process waits forever. -/
theorem Effect.not_awaited {s : Syscall} (heff : Effect N k (.sleep 0 s) o k') (h : Inv N k)
    (hcur : k.current ≠ 0) : ¬Awaited N k' := by
  intro hk
  cases heff with
  | sleep _ _ q hq =>
    have hold := k.switch_old (fun c => { c with
      ticksToSleep := 0
      state := .waiting
      regs := s.regs.withRax c.regs }) (hq.ne (Or.inl hcur))
    have := hk k.current h.current_lt (by rw [hold])
    rw [hold] at this
    exact absurd this (Nat.lt_irrefl 0)

/-! ## The last tick -/

/-- The relation between the state and the history since process `p` called `do_sleep(n)`. -/
structure Sleeping (N p n : ℕ) (k : Kernel) (hist : List (Op × Outcome)) : Prop where
  /-- The invariant of the scheduler. -/
  inv : Inv N k
  /-- Until the last tick, the sleeper counts. -/
  waiting : ticksOf (hist.map Prod.fst) < n →
    (k.ctx p).state = .waiting ∧ (k.ctx p).ticksToSleep + ticksOf (hist.map Prod.fst) = n
  /-- The last tick wakes it up. -/
  woken : ∀ before f o, hist = before ++ [(.tick f, o)] → ticksOf (hist.map Prod.fst) = n →
    (k.ctx p).state = .ready ∨ (k.ctx p).state = .running

/-- The call of `do_sleep`. -/
theorem Effect.sleeping {s : Syscall} (heff : Effect N k (.sleep n s) o k') (h : Inv N k)
    (hcur : k.current ≠ 0) : Sleeping N k.current n k' [] := by
  have hop : Legal N k (.sleep n s) := hcur
  refine ⟨h.effect hop heff, fun _ => ?_, fun before f o hnil => absurd hnil (by simp)⟩
  cases heff with
  | sleep _ _ q hq =>
    rw [k.switch_old _ (hq.ne (Or.inl hcur))]
    exact ⟨rfl, rfl⟩

/-- Every entry keeps the relation. -/
theorem Sleeping.step (h : Sleeping N p n k hist) (hp : p < N) (hop : Legal N k op) :
    ∃ o k', step N k op = some (o, k') ∧ Sleeping N p n k' (hist ++ [(op, o)]) := by
  obtain ⟨o, k', hstep, heff, h'⟩ := h.inv.step hop
  refine ⟨o, k', hstep, ?_⟩
  have hticks : ticksOf ((hist ++ [(op, o)]).map Prod.fst) =
      ticksOf (hist.map Prod.fst) + if op.isTick then 1 else 0 := by
    simp [ticksOf, List.countP_append, List.countP_cons]
  -- While fewer than `n` ticks have come the process waits, and only a tick changes its count.
  rcases Nat.lt_or_ge (ticksOf (hist.map Prod.fst)) n with hlt | hge
  · obtain ⟨hwait, hcount⟩ := h.waiting hlt
    have hpc : p ≠ k.current := by
      rintro rfl
      rw [h.inv.current_state] at hwait
      exact absurd hwait (by simp)
    have hother := heff.other h.inv hop hp hpc (hop.ne_clone (by rw [hwait]; simp))
    cases htick : op.isTick with
    | false =>
      rw [htick] at hticks
      have heq : (k.ctx p).countedBy op = k.ctx p := if_neg (by simp [htick])
      rw [heq, hwait] at hother
      obtain hctx := hother.resolve_right fun hr => absurd hr.2.1 (by simp)
      refine ⟨h', fun _ => by rw [hctx, hticks]; exact ⟨hwait, hcount⟩,
        fun before f o' hlast _ => ?_⟩
      obtain ⟨-, hop'⟩ := List.append_inj' hlast rfl
      obtain ⟨rfl, -⟩ : op = .tick f ∧ o = o' := by simpa using hop'
      exact absurd htick (by simp [Op.isTick])
    | true =>
      rw [htick, if_pos rfl] at hticks
      have heq : (k.ctx p).countedBy op = (k.ctx p).woken := if_pos htick
      rw [heq] at hother
      rcases Nat.lt_or_ge 1 (k.ctx p).ticksToSleep with hmany | hlast
      · -- More ticks have to come.
        obtain ⟨hw, ht⟩ := ExecContext.woken_many hwait hmany
        obtain hctx := hother.resolve_right fun hr => by
          rw [hw] at hr
          exact absurd hr.2.1 (by simp)
        refine ⟨h', fun _ => ?_, fun before f o' _ hn => ?_⟩
        · rw [hctx, hw, ht, hticks]
          exact ⟨rfl, by omega⟩
        · omega
      · -- This is the last one.
        have hw := ExecContext.woken_last hwait (by omega)
        refine ⟨h', fun hlt' => by omega, fun before f o' _ _ => ?_⟩
        rcases hother with hctx | ⟨-, -, hctx⟩
        · exact Or.inl (by rw [hctx, hw])
        · exact Or.inr (by rw [hctx])
  · refine ⟨h', fun hlt => by omega, fun before f o' hlast hn => ?_⟩
    obtain ⟨-, hop'⟩ := List.append_inj' hlast rfl
    obtain ⟨rfl, -⟩ : op = .tick f ∧ o = o' := by simpa using hop'
    rw [hticks, Op.isTick, if_pos rfl] at hn
    omega

/-- Every process that sleeps in a run wakes up on time, when it did not call `do_sleep(0)`. -/
theorem Inv.onTime (h : Inv N k) (hops : Run.Along (Sched.step N) (Legal N) k ops)
    (hpos : ∀ n s, .sleep n s ∈ ops → n ≠ 0) : OnTime N k ops := by
  intro pre n s mid post h₁ k₁ h₂ k₂ heq hrun₁ hrun₂
  have hn : n ≠ 0 := hpos n s (by rw [heq]; simp)
  rw [heq, List.append_assoc] at hops
  obtain ⟨h₁', k₁', hrun₁', hinv₁⟩ := h.run hops.left
  obtain rfl : k₁' = k₁ := by simpa using congrArg (Option.map Prod.snd) (hrun₁'.symm.trans hrun₁)
  have hsleep : Run.Along (Sched.step N) (Legal N) k₁' (.sleep n s :: mid) :=
    (hops.right hrun₁).left
  obtain ⟨o, k', t, hstep, hmid, rfl⟩ := Run.run_cons_some hrun₂
  obtain ⟨o', k'', hstep', heff, -⟩ := hinv₁.step hsleep.1
  obtain ⟨rfl, rfl⟩ : o' = o ∧ k'' = k' := by simpa using hstep'.symm.trans hstep
  obtain ⟨t', k₃, hmid', hsleeping⟩ := Run.run_of_step (Sleeping N k₁'.current n)
    (fun k hist op hk hop => hk.step hinv₁.current_lt hop) (heff.sleeping hinv₁ hsleep.1)
    (hsleep.2 o' k'' hstep)
  obtain ⟨rfl, rfl⟩ : t' = t ∧ k₃ = k₂ := by simpa using hmid'.symm.trans hmid
  rw [List.nil_append] at hsleeping
  have hmap := Run.map_fst_of_run hmid
  refine ⟨fun hlt => (hsleeping.waiting (by rw [hmap]; exact hlt)).1, fun mid' f hlast htick => ?_⟩
  -- The last tick is the last entry of the history.
  obtain ⟨before, last, rfl, -, hlast'⟩ := List.map_eq_append_iff.mp (hmap.trans hlast)
  obtain ⟨⟨op, o⟩, rfl, hop⟩ := List.map_eq_singleton_iff.mp hlast'
  obtain rfl : op = .tick f := hop
  refine hsleeping.woken before f o rfl ?_
  rw [hmap, htick]
  omega

/-! ## All runs -/

/-- All processes of a run wake up on time and nobody waits forever if and only if no process calls
`do_sleep(0)`. -/
theorem sleepers_wake_iff (N : ℕ) (k : Kernel) (hk : Start N k) (hwait : Awaited N k)
    (ops : List Op) (hops : Run.Along (step N) (Legal N) k ops) :
    ((∀ pre, pre <+: ops → ∃ hist k', Run.run (step N) k pre = some (hist, k') ∧ Awaited N k') ∧
      OnTime N k ops) ↔ ∀ n s, .sleep n s ∈ ops → n ≠ 0 := by
  have hiff : (∀ pre, pre <+: ops → ∃ hist k', Run.run (step N) k pre = some (hist, k') ∧
      Awaited N k') ↔ Run.Along (step N) (fun _ op => ∀ n s, op = .sleep n s → n ≠ 0) k ops :=
    Run.forall_prefix_iff (fun k => Inv N k ∧ Awaited N k) (Awaited N) (fun k hk => hk.2)
    (fun k op hk hop hpos => by
      obtain ⟨o, k', hstep, heff, h'⟩ := hk.1.step hop
      exact ⟨o, k', hstep, h', heff.awaited hk.1 hop hk.2 hpos⟩)
    (fun k op o k' hk hop hnot hstep => by
      push Not at hnot
      obtain ⟨n, s, rfl, rfl⟩ := hnot
      obtain ⟨o', k'', hstep', heff⟩ := hk.1.step_effect hop
      obtain ⟨rfl, rfl⟩ : o' = o ∧ k'' = k' := by simpa using hstep'.symm.trans hstep
      exact heff.not_awaited hk.1 hop)
    ⟨hk.inv, hwait⟩ hops
  obtain ⟨hist, k', hrun, -⟩ := hk.inv.run hops
  constructor
  · rintro ⟨hall, -⟩ n s hmem
    exact Run.forall_of_along (hiff.mp hall) hrun _ hmem n s rfl
  · intro hpos
    refine ⟨hiff.mpr (Run.along_of_forall fun op hop _ n s heq => hpos n s (heq ▸ hop)), ?_⟩
    exact hk.inv.onTime hops hpos

theorem awaited_boot (N : ℕ) : Awaited N boot := by
  intro i _ hwait
  have hstate : (if i = 0 then State.ready else if i = 1 then .running else .unused) =
    .waiting := hwait
  split_ifs at hstate

/-- Process 1 sleeps for `n` ticks, and the next tick comes. -/
def nap (n : ℕ) : List Op := [.sleep n call, .tick interrupt]

/-- A process that sleeps for one tick wakes up. -/
theorem sleepers_wake_iff_one :
    (∀ pre, pre <+: nap 1 → ∃ hist k', Run.run (step 4) boot pre = some (hist, k') ∧ Awaited 4 k') ∧
      OnTime 4 boot (nap 1) := by
  refine (sleepers_wake_iff 4 boot (start_boot (by decide)) (awaited_boot 4) (nap 1)
    (by decide)).mpr ?_
  intro n s hmem
  simp only [nap, List.mem_cons, Op.sleep.injEq, reduceCtorEq, List.not_mem_nil, or_false] at hmem
  omega

/-- A process that calls `do_sleep(0)` is still waiting after the next tick, and has no ticks
left. -/
theorem sleepers_not_wake :
    ¬((∀ pre, pre <+: nap 0 → ∃ hist k', Run.run (step 4) boot pre = some (hist, k') ∧
      Awaited 4 k') ∧ OnTime 4 boot (nap 0)) := by
  rintro ⟨-, htime⟩
  -- After `do_sleep(0)` and one tick, process 1 should be ready.
  obtain ⟨-, hwoken⟩ := htime [] 0 call [.tick interrupt] [] [] boot _ _ rfl rfl rfl
  rcases hwoken [] interrupt rfl rfl with hready | hrunning
  · exact absurd hready (by decide)
  · exact absurd hrunning (by decide)

end GemOS.Sched
