import GemOS.Paging.Table

/-!
# The page table is a tree

The nodes of the page table are the tables and pages that it points to (`Kernel.nodes`). They are
the holders of frames: as long as the accounts of `os_pfn_alloc` and `os_pfn_free` are kept
(`TreeInv`), no frame is at two places of the table. `ensureEntry_spec` says what a page fault does
at one level, `mapPage_spec` puts the four levels together, and `shrinkPage_spec` says what a page
of a shrink does.
-/

namespace GemOS.Paging

open Ledger

variable {A : Finset ℕ} {k k' : Kernel} {address flags frame pfn : ℕ} {i : Fin 512}
  {p q : List (Fin 512)} {region : Region}

/-! ## Entries -/

theorem present_eq_testBit (entry : ℕ) : present entry = entry.testBit 0 := by
  rw [present, Nat.and_one_is_mod, Nat.testBit_zero]
  exact decide_eq_decide.mpr (by omega)

theorem present_mkEntry (pfn : ℕ) (hflags : flags.testBit 0 = true) :
    present (mkEntry pfn flags) = true := by
  rw [present_eq_testBit, mkEntry, Nat.testBit_or, hflags, Bool.or_true]

theorem present_clearPresent (entry : ℕ) : present (clearPresent entry) = false := by
  rw [present_eq_testBit, clearPresent, Nat.testBit_and, show Nat.testBit (2^64 - 2) 0 =
    false by decide, Bool.and_false]

/-- The frame of an entry is found again. -/
theorem entryPfn_mkEntry (hpfn : pfn < 2^20) (hflags : flags < 2^12) :
    entryPfn (mkEntry pfn flags) = pfn := by
  have hshift : (pfn <<< 0x00C) % 2^32 = pfn <<< 12 := by
    rw [Nat.shiftLeft_eq]
    exact Nat.mod_eq_of_lt (by omega)
  rw [entryPfn, mkEntry, hshift, Nat.shiftRight_or_distrib, Nat.shiftLeft_shiftRight,
    Nat.shiftRight_eq_div_pow, Nat.div_eq_of_lt hflags, Nat.or_zero]
  exact Nat.mod_eq_of_lt (by omega)

/-! ## Nodes -/

/-- What the entry `i` of a table points to. -/
def Kernel.child (k : Kernel) (frame : ℕ) (i : Fin 512) : Option ℕ :=
  if present (k.mem frame i) then some (entryPfn (k.mem frame i)) else none

/-- The tables and pages of the page table. -/
def Kernel.nodes (k : Kernel) : List (Fin 512) → Option ℕ := Radix.nodes 4 k.child k.pgd

/-- The path to the page of an address. -/
def path (address : ℕ) : List (Fin 512) :=
  [tableOffset address 0x027, tableOffset address 0x01E, tableOffset address 0x015,
    tableOffset address 0x00C]

/-- The calls of the allocator for both regions. -/
def Kernel.ledger (k : Kernel) : List (Event ℕ) := k.log.map Prod.snd

/-- The region for which a frame was allocated last. -/
def lastRegion (pfn : ℕ) : List (Region × Event ℕ) → Option Region
  | [] => none
  | (region, .alloc a) :: l => if a = pfn then some region else lastRegion pfn l
  | (_, .free _) :: l => lastRegion pfn l

/-- `os_pfn_alloc` returned only frames that were not allocated, below `2^20`, where `A` were
allocated at the start. -/
def FreshLog (A : Finset ℕ) : List (Region × Event ℕ) → Prop
  | [] => True
  | (_, .alloc a) :: l => a ∉ inUse A (l.map Prod.snd) ∧ a < 2^20 ∧ FreshLog A l
  | (_, .free _) :: l => FreshLog A l

theorem FreshLog.tail {e : Region × Event ℕ} {l : List (Region × Event ℕ)}
    (h : FreshLog A (e :: l)) :
    FreshLog A l := by
  obtain ⟨region, a | a⟩ := e
  · exact h.2.2
  · exact h

/-- The invariant of the page table. -/
structure TreeInv (A : Finset ℕ) (k : Kernel) : Prop where
  /-- No frame is at two places of the page table, and every frame that was allocated is in it, or
  was freed once. -/
  accounts : Accounts A k.ledger k.nodes
  /-- The frames of the three upper levels are not allocated for pages, and those of the pages
  are. -/
  region : ∀ p a r, k.nodes p = some a → lastRegion a k.log = some r → (r = .userReg ↔ p.length = 4)

theorem TreeInv.inj (h : TreeInv A k) (p q : List (Fin 512)) (x : ℕ)
    (hp : Radix.nodes 4 k.child k.pgd p = some x) (hq : Radix.nodes 4 k.child k.pgd q = some x) :
    p = q :=
  h.accounts.inj p q x hp hq

/-! ## One level of a page fault -/

/-- What filling up the entry at the path `p` leads to. -/
structure Ensured (A : Finset ℕ) (k : Kernel) (p : List (Fin 512)) (r : ℕ × Kernel) : Prop where
  /-- The entry points to the frame that is returned. -/
  node : r.2.nodes p = some r.1
  /-- The rest of the page table is as it was. -/
  other : ∀ q, q ≠ p → r.2.nodes q = k.nodes q
  /-- The page table is a tree. -/
  inv : TreeInv A r.2
  /-- The top table stays. -/
  pgd : r.2.pgd = k.pgd
  /-- The segments stay. -/
  mms : r.2.mms = k.mms

/-- The allocator changes no other frame. -/
theorem osPfnAlloc_mem (k : Kernel) (region : Region) {pfn x : ℕ} (hx : x ≠ pfn) :
    (k.osPfnAlloc region pfn).mem x = k.mem x := by
  unfold Kernel.osPfnAlloc PageTables.osPfnAlloc
  dsimp only
  split_ifs
  · rw [Function.update_of_ne hx]
  · rfl

theorem setEntry_self (k : Kernel) (frame : ℕ) (i : Fin 512) (entry : ℕ) :
    (k.setEntry frame i entry).mem frame i = entry := by
  simp [Kernel.setEntry, PageTables.setEntry]

theorem setEntry_of_ne (k : Kernel) {frame x : ℕ} {i j : Fin 512} (entry : ℕ)
    (h : x ≠ frame ∨ j ≠ i) :
    (k.setEntry frame i entry).mem x j = k.mem x j := by
  change Function.update k.mem frame (Function.update (k.mem frame) i entry) x j = k.mem x j
  by_cases hx : x = frame
  · rw [hx, Function.update_self, Function.update_of_ne (h.resolve_left (not_not.mpr hx))]
  · rw [Function.update_of_ne hx]

theorem child_congr {x : ℕ} {j : Fin 512} (h : k'.mem x j = k.mem x j) :
    k'.child x j = k.child x j := by
  rw [Kernel.child, Kernel.child, h]

/-- A frame is hung into an entry that was not present. -/
theorem nodes_link (h : TreeInv A k) (hp : k.nodes p = some frame) (hlen : p.length < 4)
    (habsent : present (k.mem frame i) = false) (hfresh : pfn ∉ inUse A k.ledger)
    (hpfn : pfn < 2^20) (hflags : flags.testBit 0 = true) (hflags' : flags < 2^12)
    (hregion : p.length + 1 < 4 → region = .osPtReg) :
    ((k.osPfnAlloc region pfn).setEntry frame i (mkEntry pfn flags)).nodes =
      Function.update k.nodes (p ++ [i]) (some pfn) := by
  have hne : frame ≠ pfn := by
    rintro rfl
    exact hfresh (h.accounts.inUse p frame hp)
  refine Radix.nodes_link h.inj hp hlen (if_neg (by simp [habsent])) ?_ (fun j hj => ?_)
    (fun x hx hxp => ?_) (h.accounts.not_held hfresh) fun hlt j => ?_
  · rw [Kernel.child, setEntry_self, if_pos (present_mkEntry pfn hflags),
      entryPfn_mkEntry hpfn hflags']
  · refine child_congr ?_
    rw [setEntry_of_ne _ _ (Or.inr hj), osPfnAlloc_mem _ _ hne]
  · funext j
    refine child_congr ?_
    rw [setEntry_of_ne _ _ (Or.inl hx), osPfnAlloc_mem _ _ hxp]
  · -- A new table is filled with zeros.
    rw [Kernel.child, setEntry_of_ne _ _ (Or.inl hne.symm), hregion hlt]
    simp [Kernel.osPfnAlloc, PageTables.osPfnAlloc, present]

/-- The entry of a page is emptied. -/
theorem nodes_unlink (h : TreeInv A k) (hp : k.nodes p = some frame)
    (hlen : p.length + 1 = 4) (entry : ℕ) :
    (k.setEntry frame i (clearPresent entry)).nodes = Function.update k.nodes (p ++ [i]) none := by
  refine Radix.nodes_unlink h.inj hp hlen ?_ (fun j hj => ?_) fun x hx => ?_
  · rw [Kernel.child, setEntry_self, if_neg (by simp [present_clearPresent])]
  · exact child_congr (setEntry_of_ne _ _ (Or.inr hj))
  · funext j
    exact child_congr (setEntry_of_ne _ _ (Or.inl hx))

theorem Region.eq_osPtReg (h : region ≠ .userReg) : region = .osPtReg := by
  cases region
  · rfl
  · exact absurd rfl h

/-- One level of a page fault. -/
theorem ensureEntry_spec (h : TreeInv A k) (hp : k.nodes p = some frame) (hlen : p.length < 4)
    (hregion : region = .userReg ↔ p.length + 1 = 4) (hflags : flags.testBit 0 = true)
    (hflags' : flags < 2^12) (hfresh : FreshLog A (k.ensureEntry region flags frame i pfn).2.log) :
    Ensured A k (p ++ [i]) (k.ensureEntry region flags frame i pfn) := by
  have hnode : k.nodes (p ++ [i]) = k.child frame i := Radix.nodes_concat hlen hp i
  cases hpres : present (k.mem frame i) with
  | true =>
    rw [k.ensureEntry_eq, if_pos hpres]
    exact ⟨hnode.trans (if_pos hpres), fun _ _ => rfl, h, rfl, rfl⟩
  | false =>
    rw [k.ensureEntry_eq, if_neg (by simp [hpres])] at hfresh ⊢
    obtain ⟨hfree, hlt, -⟩ := hfresh
    -- A new table hangs no other node into the tree, since it starts empty.
    have hnodes := nodes_link h hp hlen hpres hfree hlt hflags hflags' fun hlt' =>
      Region.eq_osPtReg fun hr => by
        have := hregion.mp hr
        omega
    refine ⟨?_, fun q hq => ?_, ⟨?_, fun q a r hq hr => ?_⟩, rfl, rfl⟩
    · rw [hnodes, Function.update_self]
    · rw [hnodes, Function.update_of_ne hq]
    · rw [hnodes]
      exact h.accounts.alloc (hnode.trans (if_neg (by simp [hpres]))) hfree
    · rw [hnodes] at hq
      by_cases hqp : q = p ++ [i]
      · rw [hqp, Function.update_self, Option.some.injEq] at hq
        subst hq
        obtain rfl : region = r := by
          simpa [lastRegion, Kernel.setEntry, Kernel.osPfnAlloc, PageTables.setEntry,
            PageTables.osPfnAlloc] using hr
        rw [hqp, List.length_append, List.length_singleton]
        exact hregion
      · rw [Function.update_of_ne hqp] at hq
        have hne : pfn ≠ a := by
          rintro rfl
          exact h.accounts.not_held hfree q hq
        refine h.region q a r hq ?_
        simpa [lastRegion, Kernel.setEntry, Kernel.osPfnAlloc, PageTables.setEntry,
          PageTables.osPfnAlloc, hne] using hr

/-! ## Page faults -/

theorem ensureEntry_freshLog (h : FreshLog A (k.ensureEntry region flags frame i pfn).2.log) :
    FreshLog A k.log := by
  rw [k.ensureEntry_eq] at h
  split_ifs at h
  · exact h
  · exact FreshLog.tail h

/-- What filling up the entries on the way to a page leads to. -/
structure Mapped (A : Finset ℕ) (k : Kernel) (address : ℕ) (k' : Kernel) : Prop where
  /-- The page is present. -/
  page : ∃ pfn, k'.nodes (path address) = some pfn
  /-- Only the nodes on the way to the page are new. -/
  other : ∀ q, ¬q <+: path address → k'.nodes q = k.nodes q
  /-- The page table is a tree. -/
  inv : TreeInv A k'
  /-- The segments stay. -/
  mms : k'.mms = k.mms

theorem mapPage_spec (h : TreeInv A k) (hflags : flags.testBit 0 = true) (hflags' : flags < 2^12)
    (fresh : Fresh) (hfresh : FreshLog A (k.mapPage flags address fresh).log) :
    Mapped A k address (k.mapPage flags address fresh) := by
  unfold Kernel.mapPage at hfresh ⊢
  set r₃ := k.ensureEntry .osPtReg flags k.pgd (tableOffset address 0x027) fresh.pfnL3 with h₃
  set r₂ := r₃.2.ensureEntry .osPtReg flags r₃.1 (tableOffset address 0x01E) fresh.pfnL2 with h₂
  set r₁ := r₂.2.ensureEntry .osPtReg flags r₂.1 (tableOffset address 0x015) fresh.pfnL1 with h₁
  set r₀ := r₁.2.ensureEntry .userReg flags r₁.1 (tableOffset address 0x00C) fresh.dataPfn with h₀
  have f₀ : FreshLog A r₀.2.log := hfresh
  have f₁ : FreshLog A r₁.2.log := ensureEntry_freshLog f₀
  have f₂ : FreshLog A r₂.2.log := ensureEntry_freshLog f₁
  have f₃ : FreshLog A r₃.2.log := ensureEntry_freshLog f₂
  have e₃ := ensureEntry_spec h (Radix.nodes_nil 4) (by simp) (by simp) hflags hflags' f₃
  have e₂ := ensureEntry_spec e₃.inv e₃.node (by simp) (by simp) hflags hflags' f₂
  have e₁ := ensureEntry_spec e₂.inv e₂.node (by simp) (by simp) hflags hflags' f₁
  have e₀ := ensureEntry_spec e₁.inv e₁.node (by simp) (by simp) hflags hflags' f₀
  refine ⟨⟨_, e₀.node⟩, fun q hq => ?_, e₀.inv, ?_⟩
  · have hne : ∀ p, p <+: path address → q ≠ p := fun p hp hqp => hq (hqp ▸ hp)
    rw [e₀.other q (hne _ ⟨[], rfl⟩), e₁.other q (hne _ ⟨[_], rfl⟩),
      e₂.other q (hne _ ⟨[_, _], rfl⟩), e₃.other q (hne _ ⟨[_, _, _], rfl⟩)]
  · rw [e₀.mms, e₁.mms, e₂.mms, e₃.mms]

/-! ## Shrinking -/

/-- The page of an entry is freed. -/
theorem freePage_spec (h : TreeInv A k) (hp : k.nodes p = some frame) (hlen : p.length + 1 = 4)
    (hpres : present (k.mem frame i) = true) :
    let k' := (k.setEntry frame i (clearPresent (k.mem frame i))).osPfnFree .userReg
      (entryPfn (k.mem frame i))
    k'.nodes = Function.update k.nodes (p ++ [i]) none ∧ TreeInv A k' := by
  have hnodes := nodes_unlink (i := i) h hp hlen (k.mem frame i)
  have hpage : k.nodes (p ++ [i]) = some (entryPfn (k.mem frame i)) :=
    (Radix.nodes_concat (by omega) hp i).trans (if_pos hpres)
  refine ⟨hnodes, ⟨?_, fun q a r hq hr => ?_⟩⟩
  · change Accounts A _ (k.setEntry frame i (clearPresent (k.mem frame i))).nodes
    rw [hnodes]
    exact h.accounts.free hpage
  · change (k.setEntry frame i (clearPresent (k.mem frame i))).nodes q = some a at hq
    rw [hnodes] at hq
    have hqp : q ≠ p ++ [i] := by
      rintro rfl
      rw [Function.update_self] at hq
      exact absurd hq (by simp)
    rw [Function.update_of_ne hqp] at hq
    exact h.region q a r hq hr

/-- The page of an address is not present any more, and nothing else changes. -/
theorem unmapPage_spec (h : TreeInv A k) (address : ℕ) :
    (k.unmapPage address).nodes = Function.update k.nodes (path address) none ∧
      TreeInv A (k.unmapPage address) ∧ (k.unmapPage address).mms = k.mms := by
  -- An entry on the way may not be present.
  have hskip : ∀ q, q <+: path address → k.nodes q = none →
      k.nodes = Function.update k.nodes (path address) none ∧ TreeInv A k ∧ k.mms = k.mms := by
    intro q hpre hq
    have hnone : k.nodes (path address) = none := Radix.nodes_eq_none hq hpre
    refine ⟨?_, h, rfl⟩
    rw [← hnone, Function.update_eq_self]
  have hstep : ∀ p frame (i : Fin 512), p.length < 4 → k.nodes p = some frame →
      k.nodes (p ++ [i]) = k.child frame i := fun p frame i hlen hp => Radix.nodes_concat hlen hp i
  unfold Kernel.unmapPage
  dsimp only
  have n₄ := hstep [] k.pgd (tableOffset address 0x027) (by simp) (Radix.nodes_nil 4)
  by_cases h₄ : present (k.mem k.pgd (tableOffset address 0x027)) = true
  swap
  · rw [if_neg h₄]
    exact hskip _ ⟨[_, _, _], rfl⟩ (n₄.trans (if_neg h₄))
  rw [if_pos h₄]
  rw [Kernel.child, if_pos h₄] at n₄
  have n₃ := hstep _ _ (tableOffset address 0x01E) (by simp) n₄
  by_cases h₃ : present (k.mem (entryPfn (k.mem k.pgd (tableOffset address 0x027)))
    (tableOffset address 0x01E)) = true
  swap
  · rw [if_neg h₃]
    exact hskip _ ⟨[_, _], rfl⟩ (n₃.trans (if_neg h₃))
  rw [if_pos h₃]
  rw [Kernel.child, if_pos h₃] at n₃
  have n₂ := hstep _ _ (tableOffset address 0x015) (by simp) n₃
  generalize entryPfn (k.mem (entryPfn (k.mem k.pgd (tableOffset address 0x027)))
    (tableOffset address 0x01E)) = pfnL2 at n₃ n₂ ⊢
  by_cases h₂ : present (k.mem pfnL2 (tableOffset address 0x015)) = true
  swap
  · rw [if_neg h₂]
    exact hskip _ ⟨[_], rfl⟩ (n₂.trans (if_neg h₂))
  rw [if_pos h₂]
  rw [Kernel.child, if_pos h₂] at n₂
  have n₁ := hstep _ _ (tableOffset address 0x00C) (by simp) n₂
  generalize entryPfn (k.mem pfnL2 (tableOffset address 0x015)) = pfnL1 at n₂ n₁ ⊢
  by_cases h₁ : present (k.mem pfnL1 (tableOffset address 0x00C)) = true
  swap
  · rw [if_neg h₁]
    exact hskip _ ⟨[], rfl⟩ (n₁.trans (if_neg h₁))
  rw [if_pos h₁]
  obtain ⟨hnodes, hinv⟩ := freePage_spec h n₂ (by simp) h₁
  exact ⟨hnodes, hinv, rfl⟩

end GemOS.Paging
