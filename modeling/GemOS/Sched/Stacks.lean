import GemOS.Sched.Invariant

/-!
# The frames of the kernel stacks

`do_clone` allocates the frame of a kernel stack, `do_exit` puts it into `free_os_pfn`, and the next
timer tick frees it. The holders of frames are the contexts that are not unused, and the entries of
the table; the ledger of `os_pfn_alloc` and `os_pfn_free` is kept with them (`Ledger.Accounts`). The
table has one entry for each pid, and a pid is used again: when a second process of the pid exits
before the tick, the first frame is lost. `stacks_kept_iff` says that this is the only way to lose a
frame.
-/

namespace GemOS.Sched

open Ledger

variable {N i : ℕ} {A : Finset ℕ} {k k' : Kernel} {op : Op} {o : Outcome} {ops : List Op}

/-- What can have the frame of a kernel stack. -/
inductive Holder where
  /-- A context that is not unused. -/
  | live (i : ℕ)
  /-- An entry of `free_os_pfn`. -/
  | pending (i : ℕ)
  deriving DecidableEq

/-- The frame of the kernel stack of a context. -/
def ExecContext.stack (c : ExecContext) : Option ℕ :=
  if c.state ≠ .unused ∧ c.osStackPfn ≠ 0 then some c.osStackPfn else none

/-- The frame that an entry of `free_os_pfn` has, 0 for none. -/
def pendingFrame (pfn : ℕ) : Option ℕ := if pfn ≠ 0 then some pfn else none

/-- The frames and their holders. -/
def holds (N : ℕ) (k : Kernel) : Holder → Option ℕ
  | .live i => if i < N then (k.ctx i).stack else none
  | .pending i => if 1 ≤ i ∧ i < N then pendingFrame (k.freeOsPfn i) else none

/-- The entries that occur, when `os_pfn_alloc` returns frames that are not allocated, where `A`
were allocated at the start. -/
def LegalFrame (N : ℕ) (A : Finset ℕ) (k : Kernel) (op : Op) : Prop :=
  Legal N k op ∧ match op with
    | .clone _ pfn _ _ _ => pfn ≠ 0 ∧ pfn ∉ inUse A k.frames
    | _ => True

/-- No frame that `do_clone` allocated is lost when a process exits: the entry of `free_os_pfn` has
none. -/
def ExitSafe (k : Kernel) : Op → Prop
  | .exit _ => k.freeOsPfn k.current = 0 ∨ .alloc (k.freeOsPfn k.current) ∉ k.frames
  | _ => True

instance (N : ℕ) (A : Finset ℕ) (k : Kernel) : (op : Op) → Decidable (LegalFrame N A k op)
  | .clone _ _ _ _ _ => inferInstanceAs (Decidable (_ ∧ _ ∧ _))
  | .tick _ | .sleep _ _ | .exit _ | .signal _ _ | .alarm _ =>
      inferInstanceAs (Decidable (_ ∧ True))

instance (k : Kernel) : (op : Op) → Decidable (ExitSafe k op)
  | .exit _ => inferInstanceAs (Decidable (_ ∨ _))
  | .tick _ | .sleep _ _ | .clone _ _ _ _ _ | .signal _ _ | .alarm _ =>
      inferInstanceAs (Decidable True)

/-- The state in which a run starts: the frames of the kernel stacks are different, and
allocated. -/
structure StartFrames (N : ℕ) (A : Finset ℕ) (k : Kernel) : Prop where
  /-- One process runs. -/
  start : Start N k
  /-- Nothing was allocated or freed in the run. -/
  frames : k.frames = []
  /-- No frame has two holders. -/
  inj : ∀ x y a, holds N k x = some a → holds N k y = some a → x = y
  /-- The frames are allocated. -/
  allocated : ∀ x a, holds N k x = some a → a ∈ A

/-- The frame is that of a context that is not unused. -/
def IsLive (N : ℕ) (k : Kernel) (a : ℕ) : Prop :=
  ∃ i < N, (k.ctx i).state ≠ .unused ∧ (k.ctx i).osStackPfn = a

/-- The frame is in exactly one entry of `free_os_pfn`. -/
def IsPending (N : ℕ) (k : Kernel) (a : ℕ) : Prop := ∃! i, (1 ≤ i ∧ i < N) ∧ k.freeOsPfn i = a

/-- The frame was freed exactly once since its allocation. -/
def IsFreed (k : Kernel) (a : ℕ) : Prop := frees a k.frames = 1

instance (N : ℕ) (k : Kernel) (a : ℕ) : Decidable (IsLive N k a) :=
  inferInstanceAs (Decidable (∃ i < N, _ ∧ _))

instance (k : Kernel) (a : ℕ) : Decidable (IsFreed k a) := inferInstanceAs (Decidable (_ = _))

/-- The frame is in exactly one of the three situations. -/
def Placed (N : ℕ) (k : Kernel) (a : ℕ) : Prop :=
  IsLive N k a ∧ ¬IsPending N k a ∧ ¬IsFreed k a ∨ ¬IsLive N k a ∧ IsPending N k a ∧ ¬IsFreed k a ∨
    ¬IsLive N k a ∧ ¬IsPending N k a ∧ IsFreed k a

/-- Every frame that `do_clone` allocated is in exactly one situation since its last allocation, and
was freed exactly once between two allocations. -/
def StacksKept (N : ℕ) (k : Kernel) : Prop := (∀ a, .alloc a ∈ k.frames → Placed N k a) ∧
    Sound k.frames

/-! ## Holders -/

theorem holds_live (N : ℕ) (k : Kernel) (i : ℕ) :
    holds N k (.live i) = if i < N then (k.ctx i).stack else none := rfl

theorem holds_pending (N : ℕ) (k : Kernel) (i : ℕ) :
    holds N k (.pending i) = if 1 ≤ i ∧ i < N then pendingFrame (k.freeOsPfn i) else none := rfl

theorem stack_eq_some {c : ExecContext} {a : ℕ} (ha : a ≠ 0) :
    c.stack = some a ↔ c.state ≠ .unused ∧ c.osStackPfn = a := by
  unfold ExecContext.stack
  constructor
  · intro h
    split_ifs at h with hc
    exact ⟨hc.1, Option.some.inj h⟩
  · rintro ⟨hst, rfl⟩
    rw [if_pos ⟨hst, ha⟩]

theorem isLive_iff {a : ℕ} (ha : a ≠ 0) : IsLive N k a ↔ ∃ i, holds N k (.live i) = some a := by
  constructor
  · rintro ⟨i, hi, h⟩
    exact ⟨i, (if_pos hi).trans ((stack_eq_some ha).mpr h)⟩
  · rintro ⟨i, h⟩
    rw [holds_live] at h
    split_ifs at h with hi
    exact ⟨i, hi, (stack_eq_some ha).mp h⟩

theorem holds_pending_iff {a : ℕ} (ha : a ≠ 0) :
    holds N k (.pending i) = some a ↔ (1 ≤ i ∧ i < N) ∧ k.freeOsPfn i = a := by
  rw [holds_pending, pendingFrame]
  constructor
  · intro h
    split_ifs at h with hi hf
    exact ⟨hi, Option.some.inj h⟩
  · rintro ⟨hi, rfl⟩
    rw [if_pos hi, if_pos ha]

/-- When the accounts are kept, every frame is in exactly one situation. -/
theorem placed_of_accounts {a : ℕ} (h : Accounts A k.frames (holds N k)) (ha : a ≠ 0)
    (halloc : .alloc a ∈ k.frames) : Placed N k a := by
  have hpend : IsPending N k a ↔ ∃ i, holds N k (.pending i) = some a := by
    constructor
    · rintro ⟨i, hi, -⟩
      exact ⟨i, (holds_pending_iff ha).mpr hi⟩
    · rintro ⟨i, hi⟩
      refine ⟨i, (holds_pending_iff ha).mp hi, fun j hj => ?_⟩
      exact Holder.pending.inj (h.inj _ _ a ((holds_pending_iff ha).mpr hj) hi)
  have hfreed : IsFreed k a ↔ ∀ x, holds N k x ≠ some a := h.frees_eq_one_iff halloc
  unfold Placed
  rw [isLive_iff ha, hpend, hfreed]
  by_cases hlive : ∃ i, holds N k (.live i) = some a
  · obtain ⟨i, hi⟩ := hlive
    refine Or.inl ⟨⟨i, hi⟩, ?_, fun hno => hno _ hi⟩
    rintro ⟨j, hj⟩
    exact absurd (h.inj _ _ a hi hj) (by simp)
  · by_cases hp : ∃ i, holds N k (.pending i) = some a
    · obtain ⟨i, hi⟩ := hp
      exact Or.inr (Or.inl ⟨hlive, ⟨i, hi⟩, fun hno => hno _ hi⟩)
    · refine Or.inr (Or.inr ⟨hlive, hp, fun x hx => ?_⟩)
      cases x with
      | live i => exact hlive ⟨i, hx⟩
      | pending i => exact hp ⟨i, hx⟩

/-! ## Contexts -/

/-- The accounts depend on the stacks of the contexts, and on the table and the ledger. -/
theorem holds_congr (hstack : ∀ i < N, (k'.ctx i).stack = (k.ctx i).stack)
    (hfree : k'.freeOsPfn = k.freeOsPfn) : holds N k' = holds N k := by
  funext x
  cases x with
  | live i =>
    rw [holds_live, holds_live]
    split_ifs with hi
    · exact hstack i hi
    · rfl
  | pending i => rw [holds_pending, holds_pending, hfree]

theorem stack_congr {c c' : ExecContext} (hst : c'.state = .unused ↔ c.state = .unused)
    (hpfn : c'.osStackPfn = c.osStackPfn) : c'.stack = c.stack := by
  simp only [ExecContext.stack, ne_eq, hst, hpfn]

theorem stack_countedBy (op : Op) (c : ExecContext) : (c.countedBy op).stack = c.stack := by
  unfold ExecContext.countedBy
  split_ifs with htick
  · refine stack_congr ?_ c.woken_osStackPfn
    rcases c.woken_state with hst | ⟨hst, hst'⟩
    · rw [hst]
    · rw [hst, hst']
      simp
  · rfl

theorem stack_alarmed (c : ExecContext) : c.alarmed.stack = c.stack :=
  stack_congr (by rw [c.alarmed_state]) c.alarmed_osStackPfn

/-- An entry leaves the stacks of the other contexts alone. -/
theorem Effect.stack_other (heff : Effect N k op o k') (h : Inv N k)
    (hop : Legal N k op) (hi : i < N)
    (hic : i ≠ k.current) (hslot : ∀ pfn thFunc userStack s, op ≠ .clone i pfn thFunc userStack s) :
    (k'.ctx i).stack = (k.ctx i).stack := by
  rcases heff.other h hop hi hic hslot with hctx | ⟨-, hready, hctx⟩
  · rw [hctx, stack_countedBy]
  · rw [hctx, ← stack_countedBy op (k.ctx i)]
    refine stack_congr ?_ rfl
    rw [hready]
    simp

/-- The current context keeps its stack, until it exits. -/
theorem Effect.stack_current (heff : Effect N k op o k') (h : Inv N k) (hop : Legal N k op)
    (hexit : ∀ s, op ≠ .exit s) : (k'.ctx k.current).stack = (k.ctx k.current).stack := by
  have hrun := h.current_state
  have hkeep : ∀ c : ExecContext, c.state ≠ .unused → c.osStackPfn = (k.ctx k.current).osStackPfn →
      c.stack = (k.ctx k.current).stack := fun c hst hpfn =>
    stack_congr (iff_of_false hst (by rw [hrun]; simp)) hpfn
  have hticked : ∀ um, ((k.ticked N um).ctx k.current).osStackPfn =
      (k.ctx k.current).osStackPfn := by
    intro um
    rw [Kernel.ticked_field ExecContext.osStackPfn ExecContext.alarmed_osStackPfn k um h.current_lt,
      h.woken_current]
  cases heff with
  | stay f userMem _ =>
    rw [Kernel.ticked_field ExecContext.stack stack_alarmed k userMem h.current_lt, h.woken_current]
  | preempt f userMem q hq h0 =>
    rw [Kernel.switch_ctx, setCtx_of_ne _ _ (hq.ne (Or.inr h0)).symm,
      Kernel.ticked_current, setCtx_self]
    exact hkeep _ (by simp) (hticked userMem)
  | sleep ticks s q hq =>
    rw [Kernel.switch_ctx, setCtx_of_ne _ _ (hq.ne (Or.inl hop)).symm, setCtx_self]
    exact hkeep _ (by simp) rfl
  | exit s q hq => exact absurd rfl (hexit s)
  | clone slot pfn thFunc userStack s =>
    have hne : k.current ≠ slot := fun heq => by
      rw [heq, hop.2.2.2] at hrun
      exact absurd hrun (by simp)
    exact congrArg ExecContext.stack (setCtx_of_ne k.ctx (k.childCtx pfn thFunc userStack s) hne)
  | signal signo handler ret sighandlers => exact setCtx_field ExecContext.stack rfl _
  | alarm ticks => exact setCtx_field ExecContext.stack rfl _

/-! ## Accounts -/

/-- The invariant of the frames. -/
structure StackInv (N : ℕ) (A : Finset ℕ) (k : Kernel) : Prop where
  /-- The accounts are kept. -/
  accounts : Accounts A k.frames (holds N k)
  /-- Frame 0 is not allocated. -/
  ne_zero : ∀ a, .alloc a ∈ k.frames → a ≠ 0

namespace StackInv

theorem stacksKept (h : StackInv N A k) : StacksKept N k :=
  ⟨fun a ha => placed_of_accounts h.accounts (h.ne_zero a ha) ha, h.accounts.sound⟩

/-- The invariant depends on the stacks of the contexts, and on the table and the ledger. -/
theorem congr (h : StackInv N A k) (hstack : ∀ i < N, (k'.ctx i).stack = (k.ctx i).stack)
    (hfree : k'.freeOsPfn = k.freeOsPfn) (hframes : k'.frames = k.frames) : StackInv N A k' := by
  refine ⟨?_, ?_⟩
  · rw [hframes, holds_congr hstack hfree]
    exact h.accounts
  · rw [hframes]
    exact h.ne_zero

/-- One entry of the table is freed. -/
theorem free (h : StackInv N A k) (hi : 1 ≤ i ∧ i < N) (hf : k.freeOsPfn i ≠ 0) :
    StackInv N A { k with
      frames := .free (k.freeOsPfn i) :: k.frames
      freeOsPfn := Function.update k.freeOsPfn i 0 } := by
  refine ⟨?_, fun a ha => h.ne_zero a (by simpa using ha)⟩
  have hfree := h.accounts.free (x := .pending i) ((holds_pending_iff hf).mpr ⟨hi, rfl⟩)
  convert hfree using 1
  funext x
  by_cases hx : x = .pending i
  · rw [hx, Function.update_self, holds_pending, if_pos hi]
    change pendingFrame (Function.update k.freeOsPfn i 0 i) = none
    rw [Function.update_self, pendingFrame, if_neg (by simp)]
  · rw [Function.update_of_ne hx]
    cases x with
    | live j => rfl
    | pending j =>
      have hji : j ≠ i := fun hj => hx (congrArg Holder.pending hj)
      rw [holds_pending, holds_pending]
      change (if 1 ≤ j ∧ j < N then pendingFrame (Function.update k.freeOsPfn i 0 j) else none) = _
      rw [Function.update_of_ne hji]

/-- A timer tick frees the frames of the table. -/
theorem freePending (h : StackInv N A k) : StackInv N A (k.freePending N) := by
  have hrange : ∀ i ∈ List.range' 1 (N - 1), 1 ≤ i ∧ i < N := fun i hi => by
    rw [List.mem_range'_1] at hi
    omega
  unfold Kernel.freePending
  generalize List.range' 1 (N - 1) = l at hrange
  induction l generalizing k with
  | nil => exact h
  | cons i l ih =>
    rw [List.foldl_cons]
    refine ih ?_ fun j hj => hrange j (List.mem_cons_of_mem _ hj)
    split_ifs with hf
    · exact h.free (hrange i List.mem_cons_self) hf
    · exact h

/-- A new process gets its frame. -/
theorem clone (h : StackInv N A k) {slot pfn : ℕ} (hslot : slot < N)
    (hst : (k.ctx slot).state = .unused)
    (h0 : pfn ≠ 0) (hfresh : pfn ∉ inUse A k.frames) (thFunc userStack : Word) (s : Syscall) :
    StackInv N A { k with
      frames := .alloc pfn :: k.frames
      ctx := setCtx k.ctx slot (k.childCtx pfn thFunc userStack s) } := by
  refine ⟨?_, fun a ha => ?_⟩
  · have hnone : holds N k (.live slot) = none := by
      rw [holds_live, if_pos hslot, ExecContext.stack, if_neg fun hc => hc.1 hst]
    convert h.accounts.alloc hnone hfresh using 1
    funext x
    by_cases hx : x = .live slot
    · rw [hx, Function.update_self, holds_live, if_pos hslot, stack_eq_some h0]
      change (setCtx k.ctx slot (k.childCtx pfn thFunc userStack s) slot).state ≠ _ ∧
        (setCtx k.ctx slot (k.childCtx pfn thFunc userStack s) slot).osStackPfn = pfn
      rw [setCtx_self]
      exact ⟨by simp [Kernel.childCtx], rfl⟩
    · rw [Function.update_of_ne hx]
      cases x with
      | live j =>
        have hj : j ≠ slot := fun hj => hx (congrArg Holder.live hj)
        rw [holds_live, holds_live]
        change (if j < N then (setCtx k.ctx slot (k.childCtx pfn thFunc userStack s) j).stack
          else none) = _
        rw [setCtx_of_ne _ _ hj]
      | pending j => rfl
  · rcases List.mem_cons.mp ha with heq | ha
    · rwa [Event.alloc.inj heq]
    · exact h.ne_zero a ha

end StackInv

/-- After `do_exit` the table has the frame of the process. -/
theorem Effect.holds_exit {s : Syscall} (heff : Effect N k (.exit s) o k') (h : Inv N k)
    (hop : Legal N k (.exit s)) : holds N k' = Function.update
      (Function.update (holds N k) (.live k.current) none) (.pending k.current)
        (holds N k (.live k.current)) := by
  have hlt := h.current_lt
  have hcur : 1 ≤ k.current ∧ k.current < N := ⟨Nat.pos_of_ne_zero hop.1, hlt⟩
  have hother := fun i (hi : i < N) (hic : i ≠ k.current) =>
    heff.stack_other h hop hi hic fun pfn thFunc userStack s => by simp
  cases heff with
  | exit _ q hq =>
    funext x
    cases x with
    | live i =>
      -- The context that exits is unused, and what it held waits in `free_os_pfn`.
      rw [Function.update_of_ne (by simp), holds_live]
      by_cases hic : i = k.current
      · rw [hic, Function.update_self, if_pos hlt, Kernel.switch_ctx,
          setCtx_of_ne _ _ (hq.ne (Or.inl hop.1)).symm, setCtx_self]
        exact if_neg fun hc => hc.1 rfl
      · rw [Function.update_of_ne fun hx => hic (Holder.live.inj hx), holds_live]
        split_ifs with hi
        · exact hother i hi hic
        · rfl
    | pending i =>
      rw [holds_pending]
      change (if 1 ≤ i ∧ i < N then
        pendingFrame (Function.update k.freeOsPfn k.current (k.ctx k.current).osStackPfn i)
        else none) = _
      by_cases hic : i = k.current
      · rw [hic, Function.update_self, if_pos hcur, Function.update_self, holds_live, if_pos hlt,
          pendingFrame, ExecContext.stack, h.current_state]
        simp
      · rw [Function.update_of_ne hic, Function.update_of_ne fun hx => hic (Holder.pending.inj hx),
          Function.update_of_ne (by simp), holds_pending]

/-- Every entry that loses no frame keeps the invariant. -/
theorem Effect.stackInv (heff : Effect N k op o k') (h : Inv N k) (hk : StackInv N A k)
    (hop : LegalFrame N A k op) (hsafe : ExitSafe k op) : StackInv N A k' := by
  have hquiet : (∀ s, op ≠ .exit s) → (∀ slot pfn thFunc userStack s,
      op ≠ .clone slot pfn thFunc userStack s) → ∀ i < N, (k'.ctx i).stack = (k.ctx i).stack := by
    intro hexit hclone i hi
    by_cases hic : i = k.current
    · rw [hic]
      exact heff.stack_current h hop.1 hexit
    · exact heff.stack_other h hop.1 hi hic (hclone i)
  have htick : (∀ i < N, (k'.ctx i).stack = (k.ctx i).stack) →
      k'.freeOsPfn = (k.freePending N).freeOsPfn → k'.frames = (k.freePending N).frames →
        StackInv N A k' := fun hstack hfree hframes => by
    refine hk.freePending.congr (fun i hi => ?_) hfree hframes
    rw [(k.freePending_fields N).1]
    exact hstack i hi
  have hstack := heff
  cases heff with
  | stay f userMem _ => exact htick (hquiet (by simp) (by simp)) rfl rfl
  | preempt f userMem q _ _ => exact htick (hquiet (by simp) (by simp)) rfl rfl
  | sleep ticks s q _ => exact hk.congr (hquiet (by simp) (by simp)) rfl rfl
  | exit s q hq =>
    refine ⟨?_, hk.ne_zero⟩
    rw [hstack.holds_exit h hop.1]
    refine hk.accounts.move (by simp) fun a ha halloc => ?_
    -- What the entry of the table had was never allocated.
    obtain ⟨-, hf⟩ := (holds_pending_iff (hk.ne_zero a halloc)).mp ha
    rcases hsafe with h0 | hnot
    · exact hk.ne_zero a halloc (by rw [← hf, h0])
    · rw [hf] at hnot
      exact hnot halloc
  | clone slot pfn thFunc userStack s =>
    obtain ⟨h0, hfresh⟩ := hop.2
    exact hk.clone hop.1.2.2.1 hop.1.2.2.2 h0 hfresh thFunc userStack s
  | signal signo handler ret sighandlers => exact hk.congr (hquiet (by simp) (by simp)) rfl rfl
  | alarm ticks => exact hk.congr (hquiet (by simp) (by simp)) rfl rfl

/-- After an exit that is not safe, a frame is lost. -/
theorem Effect.not_stacksKept (heff : Effect N k op o k') (h : Inv N k) (hk : StackInv N A k)
    (hop : Legal N k op) (hsafe : ¬ExitSafe k op) : ¬StacksKept N k' := by
  obtain ⟨s, rfl⟩ : ∃ s, op = .exit s := by
    cases op with
    | exit s => exact ⟨s, rfl⟩
    | _ => exact absurd trivial hsafe
  obtain ⟨h0, halloc⟩ := not_or.mp hsafe
  rw [not_not] at halloc
  have hpend : holds N k (.pending k.current) = some (k.freeOsPfn k.current) :=
    (holds_pending_iff h0).mpr ⟨⟨Nat.pos_of_ne_zero hop.1, h.current_lt⟩, rfl⟩
  have hlost : ∀ x, holds N k' x ≠ some (k.freeOsPfn k.current) := by
    rw [heff.holds_exit h hop]
    exact hk.accounts.move_lost (by simp) hpend
  have hframes : k'.frames = k.frames := by
    cases heff
    rfl
  intro hkept
  rcases hkept.1 _ (by rwa [hframes]) with ⟨hlive, -⟩ | ⟨-, ⟨i, hi, -⟩, -⟩ | ⟨-, -, hfreed⟩
  · obtain ⟨i, hi⟩ := (isLive_iff h0).mp hlive
    exact hlost _ hi
  · exact hlost _ ((holds_pending_iff h0).mpr hi)
  · rw [IsFreed, hframes, hk.accounts.held _ _ hpend halloc] at hfreed
    exact absurd hfreed (by simp)

theorem StartFrames.stackInv (h : StartFrames N A k) : StackInv N A k := by
  refine ⟨⟨h.inj, ?_, ?_, ?_, ?_⟩, ?_⟩ <;> rw [h.frames]
  · exact h.allocated
  · exact fun x a _ ha => absurd ha (by simp)
  · exact fun a ha => absurd ha (by simp)
  · trivial
  · exact fun a ha => absurd ha (by simp)

/-! ## All runs -/

/-- All frames of kernel stacks are kept in a run if and only if no process exits while its entry of
`free_os_pfn` still has a frame that `do_clone` allocated. -/
theorem stacks_kept_iff (N : ℕ) (A : Finset ℕ) (k : Kernel) (hk : StartFrames N A k) (ops : List Op)
    (hops : Run.Along (step N) (LegalFrame N A) k ops) :
    (∀ pre, pre <+: ops → ∃ hist k', Run.run (step N) k pre = some (hist, k') ∧ StacksKept N k') ↔
      Run.Along (step N) ExitSafe k ops := by
  refine Run.forall_prefix_iff (fun k => Inv N k ∧ StackInv N A k) (StacksKept N)
    (fun k hk => hk.2.stacksKept) (fun k op hk hop hsafe => ?_)
    (fun k op o k' hk hop hnot hstep => ?_) ⟨hk.start.inv, hk.stackInv⟩ hops
  · obtain ⟨o, k', hstep, heff, h'⟩ := hk.1.step hop.1
    exact ⟨o, k', hstep, h', heff.stackInv hk.1 hk.2 hop hsafe⟩
  · obtain ⟨o', k'', hstep', heff⟩ := hk.1.step_effect hop.1
    obtain ⟨rfl, rfl⟩ : o' = o ∧ k'' = k' := by simpa using hstep'.symm.trans hstep
    exact heff.not_stacksKept hk.1 hk.2 hop.1 hnot

theorem startFrames_boot {N : ℕ} (hN : 2 ≤ N) : StartFrames N {1} boot := by
  have hlive : ∀ x a, holds N boot x = some a → x = .live 1 ∧ a = 1 := by
    intro x a hx
    cases x with
    | live i =>
      rw [holds_live] at hx
      split_ifs at hx with hi
      by_cases h1 : i = 1
      · subst h1
        exact ⟨rfl, (Option.some.inj hx).symm⟩
      · rw [ExecContext.stack, if_neg fun hc => hc.2 (if_neg h1)] at hx
        exact absurd hx (by simp)
    | pending i =>
      rw [holds_pending] at hx
      split_ifs at hx
      exact absurd hx (by simp [pendingFrame, boot])
  refine ⟨start_boot hN, rfl, fun x y a hx hy => ?_, fun x a hx => ?_⟩
  · rw [(hlive x a hx).1, (hlive y a hy).1]
  · rw [(hlive x a hx).2]
    simp

/-- Process 1 starts process 2, which exits. -/
def tidy : List Op := [.clone 2 100 0 0 call, .sleep 1 call, .exit call, .tick interrupt]

/-- The frame of process 2 is freed. -/
theorem stacks_kept_tidy :
    ∃ hist k', Run.run (step 4) boot tidy = some (hist, k') ∧ StacksKept 4 k' :=
  (stacks_kept_iff 4 {1} boot (startFrames_boot (by decide)) tidy (by decide)).mpr (by decide) tidy
    (List.prefix_refl _)

/-- Process 1 starts processes 2 and 3 and sleeps. Process 2 exits, process 3 starts another process
2, and this one exits before the next tick. -/
def hasty : List Op :=
  [.clone 2 100 0 0 call, .clone 3 101 0 0 call, .sleep 1 call, .exit call, .clone 2 102 0 0 call,
    .sleep 1 call, .exit call]

/-- The state after the second exit. -/
def afterHasty : Kernel := ((Run.run (step 4) boot hasty).getD ([], boot)).2

/-- The frame of the first process 2 is lost. -/
theorem stacks_not_kept :
    StartFrames 4 {1} boot ∧ Run.Along (step 4) (LegalFrame 4 {1}) boot hasty ∧
      ¬∀ pre, pre <+: hasty → ∃ hist k', Run.run (step 4) boot pre = some (hist, k') ∧
        StacksKept 4 k' := by
  refine ⟨startFrames_boot (by decide), by decide, fun hall => ?_⟩
  obtain ⟨hist, k', hrun, hkept⟩ := hall hasty (List.prefix_refl _)
  obtain rfl : afterHasty = k' := by rw [afterHasty, hrun, Option.getD_some]
  have hpending : ∀ i < 4, afterHasty.freeOsPfn i ≠ 100 := by decide
  rcases hkept.1 100 (by decide) with ⟨hlive, -⟩ | ⟨-, ⟨i, ⟨⟨-, hi⟩, hpfn⟩, -⟩, -⟩ | ⟨-, -, hfreed⟩
  · exact absurd hlive (by decide)
  · exact hpending i hi hpfn
  · exact absurd hfreed (by decide)

end GemOS.Sched
