import GemOS.Lib.Run
import GemOS.Paging.Tree

/-!
# The frames of the user

No frame of the user is leaked, shared, or freed twice. Every entry of the kernel keeps the page
table a tree (`step_inv`): a page fault hangs new frames into empty entries, and a shrink frees the
frame of a page with its entry. `run_frames_kept` reads this off for the frames of `USER_REG`.
-/

namespace GemOS.Paging

open Ledger

variable {M : MapFlags} {A : Finset ℕ} {k k' : Kernel} {seg : Seg} {size n a r : ℕ} {op : Op}

/-- The states in which a run starts: the page table is a tree of allocated frames, and its pages
have different frames. -/
structure StartTree (A : Finset ℕ) (k : Kernel) : Prop where
  /-- Nothing was allocated or freed in the run. -/
  log : k.log = []
  /-- No frame is at two places of the page table. -/
  inj : ∀ p q a, k.nodes p = some a → k.nodes q = some a → p = q
  /-- The frames are allocated. -/
  allocated : ∀ p a, k.nodes p = some a → a ∈ A

/-- What holds of the frames in every state of a run. -/
structure FramesKept (k : Kernel) : Prop where
  /-- No frame is at two places of the page table, neither of two tables, nor of two pages, nor of a
  table and a page. -/
  tree : ∀ p q a, k.nodes p = some a → k.nodes q = some a → p = q
  /-- A frame that was allocated last for the user is that of exactly one page and was not freed
  since, or is not in the page table and was freed exactly once since. -/
  user : ∀ a, lastRegion a k.log = some .userReg →
    (∃! p, p.length = 4 ∧ k.nodes p = some a) ∧ frees a k.ledger = 0 ∨
      (∀ p, k.nodes p ≠ some a) ∧ frees a k.ledger = 1
  /-- A frame that was allocated again was freed exactly once between. -/
  sound : Sound k.ledger

/-- `os_pfn_alloc` returns frames below `2^20` that are not allocated. -/
def AllocOk (M : MapFlags) (A : Finset ℕ) (k : Kernel) (op : Op) : Prop :=
  ∀ r k', step M k op = some (r, k') → FreshLog A k'.log

/-! ## The invariant -/

theorem mem_of_lastRegion {l : List (Region × Event ℕ)} {region : Region}
    (h : lastRegion a l = some region) : .alloc a ∈ l.map Prod.snd := by
  induction l with
  | nil => exact absurd h (by simp [lastRegion])
  | cons e l ih =>
    obtain ⟨region', b | b⟩ := e
    · by_cases hb : b = a
      · simp [hb]
      · rw [lastRegion, if_neg hb] at h
        simp [ih h]
    · simp [ih h]

theorem TreeInv.framesKept (h : TreeInv A k) : FramesKept k := by
  refine ⟨h.accounts.inj, fun a ha => ?_, h.accounts.sound⟩
  have halloc := mem_of_lastRegion ha
  by_cases hheld : ∃ p, k.nodes p = some a
  · obtain ⟨p, hp⟩ := hheld
    refine Or.inl ⟨⟨p, ⟨(h.region p a _ hp ha).mp rfl, hp⟩, fun q hq => ?_⟩,
      h.accounts.held p a hp halloc⟩
    exact h.accounts.inj q p a hq.2 hp
  · have hnot : ∀ p, k.nodes p ≠ some a := fun p hp => hheld ⟨p, hp⟩
    exact Or.inr ⟨hnot, h.accounts.freed a halloc hnot⟩

theorem StartTree.treeInv (h : StartTree A k) : TreeInv A k := by
  have hledger : k.ledger = [] := by rw [Kernel.ledger, h.log, List.map_nil]
  refine ⟨⟨h.inj, ?_, ?_, ?_, ?_⟩, fun p a r _ hr => ?_⟩
  · rw [hledger]
    exact h.allocated
  · rw [hledger]
    exact fun p a _ ha => absurd ha (by simp)
  · rw [hledger]
    exact fun a ha => absurd ha (by simp)
  · rw [hledger]
    trivial
  · rw [h.log] at hr
    exact absurd hr (by simp [lastRegion])

/-- Moving `next_free` has nothing to do with the page table. -/
theorem TreeInv.setNextFree (h : TreeInv A k) (seg : Seg) (n : ℕ) :
    TreeInv A (k.setNextFree seg n) :=
  ⟨h.accounts, h.region⟩

theorem expandSegment_inv (h : TreeInv A k) (seg : Seg) (size : ℕ) :
    TreeInv A (k.expandSegment seg size).2 := by
  unfold Kernel.expandSegment
  dsimp only
  split_ifs
  · exact h
  · exact h.setNextFree seg _

theorem shrinkPage_inv (h : TreeInv A k) (seg : Seg) : TreeInv A (k.shrinkPage seg) :=
  (unmapPage_spec (h.setNextFree seg _) _).2.1

theorem shrinkSegment_inv (h : TreeInv A k) (seg : Seg) (size : ℕ) :
    TreeInv A (k.shrinkSegment seg size).2 := by
  have hloop : ∀ n, TreeInv A ((fun k : Kernel => k.shrinkPage seg)^[n] k) := fun n => by
    induction n with
    | zero => exact h
    | succ n ih =>
      rw [Function.iterate_succ_apply']
      exact shrinkPage_inv ih seg
  unfold Kernel.shrinkSegment
  split_ifs
  · exact h
  · exact hloop size

/-- The flags of the entries for a page fault that the handler admits. -/
def Kernel.admits (k : Kernel) (fault error : ℕ) : Option ℕ :=
  if error &&& 1 ≠ 0 then none
  else if fault ≤ (k.mms .data).last ∧ fault ≥ (k.mms .data).start then
    if fault > (k.mms .data).nextFree then none else some rwFlags
  else if fault ≤ (k.mms .rodata).last ∧ fault ≥ (k.mms .rodata).start then
    if fault > (k.mms .rodata).nextFree then none
    else if (error >>> 1) &&& 1 &&& 1 ≠ 0 then none
    else some roFlags
  else if fault ≤ (k.mms .stack).last ∧ fault ≥ (k.mms .stack).start then some rwFlags
  else none

/-- A page fault is admitted, or changes nothing. -/
theorem handlePageFault_eq (k : Kernel) (fault error : ℕ) (fresh : Fresh) :
    k.handlePageFault fault error fresh = match k.admits fault error with
      | some flags => (.resumes, k.mapPage flags fault fresh)
      | none => (.exits, k) := by
  unfold Kernel.handlePageFault Kernel.admits
  dsimp only
  split_ifs <;> rfl

theorem admits_flags {fault error flags : ℕ} (h : k.admits fault error = some flags) :
    flags.testBit 0 = true ∧ flags < 2^12 := by
  unfold Kernel.admits at h
  split_ifs at h <;> obtain rfl := Option.some.inj h <;> decide

theorem admits_of_step {fault error : ℕ} {fresh : Fresh}
    (h : step M k (.fault fault error fresh) = some (r, k')) :
    ∃ flags, k.admits fault error = some flags ∧ k' = k.mapPage flags fault fresh := by
  have heq := handlePageFault_eq k fault error fresh
  simp only [step] at h
  cases hadmit : k.admits fault error with
  | none =>
    rw [heq, hadmit] at h
    exact absurd h (by simp)
  | some flags =>
    rw [heq, hadmit] at h
    exact ⟨flags, rfl, by simpa using (congrArg (Option.map Prod.snd) h).symm⟩

/-- Every entry keeps the page table a tree. -/
theorem step_inv (h : TreeInv A k) (hstep : step M k op = some (r, k'))
    (hfresh : FreshLog A k'.log) :
    TreeInv A k' := by
  cases op with
  | call c =>
    cases c with
    | expand size flags =>
      obtain rfl : (k.expand M size flags).2 = k' := congrArg Prod.snd (Option.some.inj hstep)
      unfold Kernel.expand
      split_ifs
      · exact h
      · exact expandSegment_inv h _ _
      · exact expandSegment_inv h _ _
      · exact h
    | shrink size flags =>
      obtain rfl : (k.shrink M size flags).2 = k' := congrArg Prod.snd (Option.some.inj hstep)
      unfold Kernel.shrink
      split_ifs
      · exact shrinkSegment_inv h _ _
      · exact shrinkSegment_inv h _ _
      · exact h
  | fault fault error fresh =>
    obtain ⟨flags, hadmit, rfl⟩ := admits_of_step hstep
    obtain ⟨hflags, hflags'⟩ := admits_flags hadmit
    exact (mapPage_spec h hflags hflags' fresh hfresh).inv

/-! ## Runs -/

/-- In every state of a run, the page table is a tree, and no frame of the user is leaked, shared,
or freed twice. -/
theorem run_frames_kept (M : MapFlags) (A : Finset ℕ) (k : Kernel) (hk : StartTree A k)
    (ops : List Op)
    (hops : Run.Along (step M) (AllocOk M A) k ops) (hist : List (Op × ℕ)) (k' : Kernel)
    (hrun : Run.run (step M) k ops = some (hist, k')) : FramesKept k' := by
  have h := Run.of_run (h := []) (fun k (_ : List (Op × ℕ)) => TreeInv A k)
    (fun k _ op r k' hk hop hstep => step_inv hk hstep (hop r k' hstep)) hk.treeInv hops hrun
  exact h.framesKept

/-- An address space with two pages in the data segment, and no page mapped. -/
def twoPages : Kernel where
  pgd := 1
  mms
    | .rodata => ⟨0x140000000, 0x140000000, 0x180000000⟩
    | .data => ⟨0x180000000, 0x180002000, 0x200000000⟩
    | .stack => ⟨0x7FF000000, 0x800000000, 0x800000000⟩
  mem _ _ := 0
  log := []

/-- Values of the flags. -/
def mapFlags : MapFlags := ⟨1, 0⟩

theorem nodes_twoPages {p : List (Fin 512)} (hp : p ≠ []) : twoPages.nodes p = none := by
  cases p with
  | nil => exact absurd rfl hp
  | cons i p =>
    have hempty : twoPages.nodes [i] = none := by
      simp [Kernel.nodes, Radix.nodes, Radix.node, Kernel.child, twoPages, present]
    exact Radix.nodes_eq_none hempty ⟨p, rfl⟩

theorem startTree_twoPages : StartTree {1} twoPages := by
  have hroot : ∀ p a, twoPages.nodes p = some a → p = [] ∧ a = 1 := by
    intro p a hp
    have hnil : p = [] := by
      by_contra hne
      rw [nodes_twoPages hne] at hp
      exact absurd hp (by simp)
    subst hnil
    exact ⟨rfl, (Option.some.inj hp).symm⟩
  refine ⟨rfl, fun p q a hp hq => ?_, fun p a hp => ?_⟩
  · rw [(hroot p a hp).1, (hroot q a hq).1]
  · rw [(hroot p a hp).2]
    simp

instance decidableFreshLog (A : Finset ℕ) : (l : List (Region × Event ℕ)) → Decidable (FreshLog A l)
  | [] => inferInstanceAs (Decidable True)
  | (_, .alloc _) :: l =>
    have := decidableFreshLog A l
    inferInstanceAs (Decidable (_ ∧ _ ∧ _))
  | (_, .free _) :: l => decidableFreshLog A l

/-- The state after a page fault at the start of the data segment. -/
def onePage : Kernel := twoPages.mapPage rwFlags 0x180000000 ⟨10, 11, 12, 13⟩

/-- A page fault at the start of the data segment, and a shrink by both its pages. -/
def mapAndShrink : List Op := [.fault 0x180000000 2 ⟨10, 11, 12, 13⟩, .call (.shrink 2 1)]

/-- A page is mapped, and the data segment shrinks by both its pages. -/
theorem run_frames_kept_shrink :
    ∃ hist k', Run.run (step mapFlags) twoPages mapAndShrink = some (hist, k') ∧ FramesKept k' := by
  refine ⟨[(.fault 0x180000000 2 ⟨10, 11, 12, 13⟩, 0), (.call (.shrink 2 1), 0x180000000)],
    (onePage.shrink mapFlags 2 1).2, ?_, run_frames_kept mapFlags {1} twoPages startTree_twoPages
      mapAndShrink ?_ [(.fault 0x180000000 2 ⟨10, 11, 12, 13⟩, 0),
        (.call (.shrink 2 1), 0x180000000)] _ ?_⟩
  · rfl
  · have hfault : step mapFlags twoPages (.fault 0x180000000 2 ⟨10, 11, 12, 13⟩) =
        some (0, onePage) := rfl
    have hshrink : step mapFlags onePage (.call (.shrink 2 1)) =
        some (onePage.shrink mapFlags 2 1) := rfl
    refine ⟨fun r k' h => ?_, fun r k' h => ⟨fun r₁ k₁ h₁ => ?_, fun _ _ _ => trivial⟩⟩ <;>
      obtain rfl : onePage = k' := congrArg Prod.snd (Option.some.inj (hfault.symm.trans h))
    · decide
    · obtain rfl : (onePage.shrink mapFlags 2 1).2 = k₁ :=
        congrArg Prod.snd (Option.some.inj (hshrink.symm.trans h₁))
      decide
  · rfl

end GemOS.Paging
