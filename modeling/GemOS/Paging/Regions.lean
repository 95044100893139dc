import GemOS.Paging.Segments

/-!
# Mapped memory and the regions in use

A page fault should map only the part of a segment that is in use, and a shrink unmaps what it gives
back. `handle_page_fault` compares the address with the bounds by `>` and `<=`, so that it also
admits the first address behind a region. `regions_contained_iff` says that mapped memory stays
inside the regions exactly when no fault is at such an edge.
-/

namespace GemOS.Paging

/-- The segments as in the layout of gemOS. -/
structure Placed (k : Kernel) : Prop where
  /-- The segments are behind the first 4 GiB. -/
  start : ∀ seg, 2^32 ≤ (k.mms seg).start
  /-- The start is before the end. -/
  ordered : ∀ seg, (k.mms seg).start ≤ (k.mms seg).last
  /-- The part in use is inside. -/
  bounded : Bounded k
  /-- The addresses have 48 bits. -/
  last : ∀ seg, (k.mms seg).last ≤ 2^48
  /-- The bounds are those of pages. -/
  aligned : ∀ seg, 4096 ∣ (k.mms seg).start ∧ 4096 ∣ (k.mms seg).nextFree ∧ 4096 ∣ (k.mms seg).last
  /-- The segments are disjoint. -/
  disjoint : ∀ s t, s ≠ t → (k.mms s).last ≤ (k.mms t).start ∨ (k.mms t).last ≤ (k.mms s).start

/-- The end of the region of a segment that may be mapped. -/
def Segment.limit (s : Segment) : Seg → ℕ
  | .stack => s.last
  | _ => s.nextFree

/-- An address in the part of a segment that may be mapped: what is in use of `DATA` and `RODATA`,
and all of `STACK`. -/
def Inside (k : Kernel) (address : ℕ) : Prop :=
  ∃ seg, (k.mms seg).start ≤ address ∧ address < (k.mms seg).limit seg

/-- The page of an address is present. -/
def IsMapped (k : Kernel) (address : ℕ) : Prop := k.nodes (path address) ≠ none

/-- Every present page of `DATA` or `RODATA` is in use. -/
def DataInside (k : Kernel) : Prop := ∀ address < 2^48, IsMapped k address → ∀ seg, seg ≠ .stack →
  (k.mms seg).start ≤ address → address < (k.mms seg).last → address < (k.mms seg).nextFree

/-- A page fault outside the regions ends in `do_exit` and changes nothing, and every page that one
maps is inside a region. -/
def Contained (k : Kernel) : Op → Prop
  | .call _ => True
  | .fault fault error fresh =>
    (¬Inside k fault → k.handlePageFault fault error fresh = (.exits, k)) ∧
      ∀ k', k.handlePageFault fault error fresh = (.resumes, k') →
        ∀ address < 2^48, IsMapped k' address → ¬IsMapped k address → Inside k address

/-- The address is between the bounds of a segment, both of them included. -/
def Segment.Covers (s : Segment) (address : ℕ) : Prop := s.start ≤ address ∧ address ≤ s.last

/-- A page fault at the first address behind a region, when the page is not present: at `next_free`
of `DATA`, at `next_free` of `RODATA` by a read, or at the end of `STACK`. -/
def AtEdge (k : Kernel) : Op → Prop
  | .call _ => False
  | .fault fault error _ => error &&& 1 = 0 ∧ ¬Inside k fault ∧
    (fault = (k.mms .data).nextFree ∨
      fault = (k.mms .rodata).nextFree ∧ ¬(k.mms .data).Covers fault ∧ (error >>> 1) &&& 1 = 0 ∨
      fault = (k.mms .stack).last ∧ ¬(k.mms .data).Covers fault ∧ ¬(k.mms .rodata).Covers fault)

/-- What the entries of a run are: shrinks have less than `2^20` pages, and `os_pfn_alloc` returns
frames that are not allocated. -/
def LegalOp (M : MapFlags) (A : Finset ℕ) (k : Kernel) (op : Op) : Prop :=
  AllocOk M A k op ∧ ∀ size flags, op = .call (.shrink size flags) → size < 2^20

variable {M : MapFlags} {A : Finset ℕ} {k k' : Kernel} {seg : Seg} {size n address r : ℕ} {op : Op}

/-! ## Addresses and pages -/

theorem tableOffset_val (a offset : ℕ) : (tableOffset a offset).val = a / 2^offset % 512 := by
  change 0x1FF &&& (a >>> offset) = _
  rw [Nat.and_comm, Nat.shiftRight_eq_div_pow]
  exact Nat.and_two_pow_sub_one_eq_mod _ 9

/-- Addresses of 48 bits have the same path exactly when they are in the same page. -/
theorem path_eq_iff {a b : ℕ} (ha : a < 2^48) (hb : b < 2^48) :
    path a = path b ↔ a / 4096 = b / 4096 := by
  have hval : path a = path b ↔ a / 2^39 % 512 = b / 2^39 % 512 ∧ a / 2^30 % 512 = b / 2^30 % 512 ∧
      a / 2^21 % 512 = b / 2^21 % 512 ∧ a / 2^12 % 512 = b / 2^12 % 512 := by
    simp only [path, List.cons.injEq, Fin.ext_iff, tableOffset_val, and_true]
  rw [hval]
  constructor
  · rintro ⟨h₄, h₃, h₂, h₁⟩
    omega
  · intro h
    refine ⟨?_, ?_, ?_, ?_⟩ <;> omega

/-- The pages that are mapped are in the part of their segment that may be mapped. -/
theorem inside_of_page (h : Placed k) {a b : ℕ} (hpage : a / 4096 = b / 4096) (ha : Inside k a) :
    Inside k b := by
  obtain ⟨seg, hstart, hlimit⟩ := ha
  obtain ⟨h₁, h₂, h₃⟩ := h.aligned seg
  have hdvd : 4096 ∣ (k.mms seg).limit seg := by
    cases seg
    · exact h₂
    · exact h₂
    · exact h₃
  exact ⟨seg, by omega, by omega⟩

/-- An address that may be mapped is in one segment only. -/
theorem inside_of_covered (h : Placed k) (ha : Inside k address) (hseg : seg ≠ .stack)
    (hstart : (k.mms seg).start ≤ address) (hlast : address < (k.mms seg).last) :
    address < (k.mms seg).nextFree := by
  obtain ⟨t, htstart, htlimit⟩ := ha
  by_cases hts : t = seg
  · subst hts
    cases t
    · exact htlimit
    · exact htlimit
    · exact absurd rfl hseg
  · have hle : (k.mms t).limit t ≤ (k.mms t).last := by
      cases t
      · exact (h.bounded _ (by simp)).2
      · exact (h.bounded _ (by simp)).2
      · exact Nat.le_refl _
    have := h.disjoint t seg hts
    omega

theorem Placed.segmentOk (h : Placed k) (hseg : seg ≠ .stack) : SegmentOk (k.mms seg) :=
  ⟨h.start seg, (h.bounded seg hseg).1, (h.bounded seg hseg).2, h.last seg⟩

/-- A page fault that is admitted outside the regions is at an edge. -/
theorem admits_iff (h : Placed k) {fault error : ℕ} (hout : ¬Inside k fault) (fresh : Fresh) :
    k.admits fault error ≠ none ↔ AtEdge k (.fault fault error fresh) := by
  have hd := h.bounded .data (by simp)
  have hr := h.bounded .rodata (by simp)
  have hs := h.ordered .stack
  have hnd : ¬((k.mms .data).start ≤ fault ∧ fault < (k.mms .data).nextFree) := fun hin =>
    hout ⟨.data, hin⟩
  have hnr : ¬((k.mms .rodata).start ≤ fault ∧ fault < (k.mms .rodata).nextFree) := fun hin =>
    hout ⟨.rodata, hin⟩
  have hns : ¬((k.mms .stack).start ≤ fault ∧ fault < (k.mms .stack).last) := fun hin =>
    hout ⟨.stack, hin⟩
  have hbit : (error >>> 1) &&& 1 &&& 1 = (error >>> 1) &&& 1 := by rw [Nat.and_assoc]; rfl
  unfold Kernel.admits AtEdge Segment.Covers
  rw [hbit]
  simp only [hout, not_false_eq_true, true_and]
  -- What is left compares the address with the bounds.
  generalize error &&& 1 = protection
  generalize (error >>> 1) &&& 1 = writeBit
  split_ifs <;> simp only [ne_eq, not_true_eq_false, reduceCtorEq, not_false_eq_true,
    false_iff, true_iff] <;> omega

/-! ## The invariant -/

/-- The invariant of the regions. -/
structure RegionInv (A : Finset ℕ) (k : Kernel) : Prop where
  /-- The segments are as in the layout. -/
  placed : Placed k
  /-- The page table is a tree. -/
  tree : TreeInv A k
  /-- Every present page of `DATA` or `RODATA` is in use. -/
  data : DataInside k

theorem Placed.congr (h : Placed k) (hmms : k'.mms = k.mms) : Placed k' := by
  obtain ⟨h₁, h₂, h₃, h₄, h₅, h₆⟩ := h
  unfold Bounded at h₃
  rw [← hmms] at h₁ h₂ h₃ h₄ h₅ h₆
  exact ⟨h₁, h₂, h₃, h₄, h₅, h₆⟩

/-- Another `next_free`. -/
theorem Placed.update (h : Placed k) (hn : (k.mms seg).start ≤ n ∧ n ≤ (k.mms seg).last)
    (hdvd : 4096 ∣ n)
    (hmms : k'.mms = Function.update k.mms seg { k.mms seg with nextFree := n }) : Placed k' := by
  have hkeep : ∀ s, (k'.mms s).start = (k.mms s).start ∧ (k'.mms s).last = (k.mms s).last ∧
      (4096 ∣ (k.mms s).nextFree → 4096 ∣ (k'.mms s).nextFree) := fun s => by
    rw [hmms]
    by_cases hs : s = seg
    · rw [hs, Function.update_self]
      exact ⟨rfl, rfl, fun _ => hdvd⟩
    · rw [Function.update_of_ne hs]
      exact ⟨rfl, rfl, id⟩
  refine ⟨fun s => ?_, fun s => ?_, h.bounded.update n hn hmms, fun s => ?_, fun s => ?_,
    fun s t hst => ?_⟩
  · rw [(hkeep s).1]
    exact h.start s
  · rw [(hkeep s).1, (hkeep s).2.1]
    exact h.ordered s
  · rw [(hkeep s).2.1]
    exact h.last s
  · obtain ⟨h₁, h₂, h₃⟩ := h.aligned s
    rw [(hkeep s).1, (hkeep s).2.1]
    exact ⟨h₁, (hkeep s).2.2 h₂, h₃⟩
  · rw [(hkeep s).1, (hkeep s).2.1, (hkeep t).1, (hkeep t).2.1]
    exact h.disjoint s t hst

/-- Another `next_free`, with the pages between the old one and the new one not present. -/
theorem DataInside.update (h : DataInside k) (n : ℕ)
    (hmms : k'.mms = Function.update k.mms seg { k.mms seg with nextFree := n })
    (hpage : ∀ a < 2^48, IsMapped k' a → IsMapped k a ∧ (a < (k.mms seg).nextFree → a < n)) :
    DataInside k' := by
  intro a ha hmapped s hs hstart hlast
  obtain ⟨hold, hn⟩ := hpage a ha hmapped
  rw [hmms] at hstart hlast ⊢
  by_cases hss : s = seg
  · subst hss
    rw [Function.update_self] at hstart hlast ⊢
    exact hn (h a ha hold s hs hstart hlast)
  · rw [Function.update_of_ne hss] at hstart hlast ⊢
    exact h a ha hold s hs hstart hlast

/-- A segment grows. -/
theorem RegionInv.expand (h : RegionInv A k) (hseg : seg ≠ .stack) (hsize : size ≤ 512) :
    RegionInv A (k.expandSegment seg size).2 := by
  rcases expandSegment_spec (h.placed.segmentOk hseg) hsize with heq | ⟨hle, heq⟩ <;> rw [heq]
  · exact h
  · obtain ⟨-, hdvd, -⟩ := h.placed.aligned seg
    have hstart := (h.placed.bounded seg hseg).1
    refine ⟨h.placed.update ⟨by omega, hle⟩ (by omega) rfl, h.tree.setNextFree seg _, ?_⟩
    exact h.data.update _ rfl fun a _ hmapped => ⟨hmapped, fun hlt => by omega⟩

/-- A segment shrinks by one page. -/
theorem RegionInv.shrinkPage (h : RegionInv A k) (hseg : seg ≠ .stack)
    (hroom : (k.mms seg).start + 4096 ≤ (k.mms seg).nextFree) :
    RegionInv A (k.shrinkPage seg) ∧ (k.shrinkPage seg).mms =
      Function.update k.mms seg { k.mms seg with nextFree := (k.mms seg).nextFree - 4096 } := by
  have hok := h.placed.segmentOk hseg
  have hlast := hok.last
  have hle := hok.le_last
  obtain ⟨-, hdvd, -⟩ := h.placed.aligned seg
  have hlow : ((k.mms seg).nextFree + 2^64 - 4096) % 2^64 = (k.mms seg).nextFree - 4096 := by omega
  have hpage : k.shrinkPage seg =
      (k.setNextFree seg ((k.mms seg).nextFree - 4096)).unmapPage
        ((k.mms seg).nextFree - 4096) := by
    rw [Kernel.shrinkPage, hlow]
    simp [Kernel.setNextFree]
  obtain ⟨hnodes, htree, hmms⟩ :=
    unmapPage_spec (h.tree.setNextFree seg ((k.mms seg).nextFree - 4096))
    ((k.mms seg).nextFree - 4096)
  rw [← hpage] at hnodes htree hmms
  refine ⟨⟨h.placed.update ⟨by omega, by omega⟩ (by omega) hmms, htree, ?_⟩, hmms⟩
  refine h.data.update _ hmms fun a ha hmapped => ?_
  unfold IsMapped at hmapped
  rw [hnodes] at hmapped
  -- The page at the new end was unmapped.
  have hne : path a ≠ path ((k.mms seg).nextFree - 4096) := fun heq => by
    rw [heq, Function.update_self] at hmapped
    exact hmapped rfl
  rw [Function.update_of_ne hne] at hmapped
  rw [ne_eq, path_eq_iff ha (by omega)] at hne
  exact ⟨hmapped, fun hlt => by omega⟩

/-- A segment shrinks by several pages. -/
theorem RegionInv.shrinkPages (h : RegionInv A k) (hseg : seg ≠ .stack) {n : ℕ}
    (hroom : (k.mms seg).start + n * 4096 ≤ (k.mms seg).nextFree) :
    RegionInv A ((fun k : Kernel => k.shrinkPage seg)^[n] k) := by
  induction n generalizing k with
  | zero => exact h
  | succ n ih =>
    have hnext : (k.mms seg).start + n * 4096 ≤ (k.mms seg).nextFree - 4096 := by
      refine Nat.le_sub_of_add_le ?_
      rwa [Nat.add_assoc, ← Nat.succ_mul]
    obtain ⟨h', hmms⟩ := h.shrinkPage hseg (by omega)
    rw [Function.iterate_succ_apply]
    refine ih h' ?_
    rw [hmms, Function.update_self]
    exact hnext

theorem RegionInv.shrink (h : RegionInv A k) (hseg : seg ≠ .stack) (hsize : size < 2^20) :
    RegionInv A (k.shrinkSegment seg size).2 := by
  obtain ⟨hstart, hle, hle', hlast⟩ := h.placed.segmentOk hseg
  by_cases hlow : ((k.mms seg).nextFree + 2^64 - size * 4096 % 2^32) % 2^64 < (k.mms seg).start
  · have heq : k.shrinkSegment seg size = (0, k) := if_pos hlow
    rwa [heq]
  · have heq : (k.shrinkSegment seg size).2 = (fun k : Kernel => k.shrinkPage seg)^[size] k :=
      congrArg Prod.snd (if_neg hlow)
    rw [heq]
    exact h.shrinkPages hseg (by omega)

/-- A page is mapped inside a region. -/
theorem RegionInv.mapped (h : RegionInv A k) (hin : Inside k address)
    (hmapped : Mapped A k address k') :
    RegionInv A k' ∧ ∀ a < 2^48, IsMapped k' a → ¬IsMapped k a → Inside k a := by
  have haddress : address < 2^48 := by
    obtain ⟨seg, -, hlimit⟩ := hin
    have hlast := h.placed.last seg
    have hle : (k.mms seg).limit seg ≤ (k.mms seg).last := by
      cases seg
      · exact (h.placed.bounded _ (by simp)).2
      · exact (h.placed.bounded _ (by simp)).2
      · exact Nat.le_refl _
    omega
  have hpage : ∀ a < 2^48, IsMapped k' a → IsMapped k a ∨ Inside k a := fun a ha hmap => by
    by_cases hpath : path a = path address
    · exact Or.inr (inside_of_page h.placed ((path_eq_iff haddress ha).mp hpath.symm) hin)
    · refine Or.inl ?_
      unfold IsMapped at hmap ⊢
      rwa [hmapped.other _ fun hpre => hpath (hpre.eq_of_length rfl)] at hmap
  refine ⟨⟨h.placed.congr hmapped.mms, hmapped.inv, fun a ha hmap seg hseg hstart hlast => ?_⟩,
    fun a ha hmap hnot => (hpage a ha hmap).resolve_left hnot⟩
  rw [hmapped.mms] at hstart hlast ⊢
  rcases hpage a ha hmap with hold | hin'
  · exact h.data a ha hold seg hseg hstart hlast
  · exact inside_of_covered h.placed hin' hseg hstart hlast

/-! ## Entries -/

theorem step_of_resumes {fault error : ℕ} {fresh : Fresh}
    (h : k.handlePageFault fault error fresh = (.resumes, k')) :
    step M k (.fault fault error fresh) = some (0, k') := by
  rw [step, h]

/-- Every entry that is no page fault at an edge keeps the invariant and is contained. -/
theorem RegionInv.step (h : RegionInv A k) (hop : LegalOp M A k op) (hedge : ¬AtEdge k op) :
    Contained k op ∧ ∀ r k', Paging.step M k op = some (r, k') → RegionInv A k' := by
  cases op with
  | call c =>
    refine ⟨trivial, fun r k' hstep => ?_⟩
    cases c with
    | expand size flags =>
      obtain rfl : (k.expand M size flags).2 = k' := congrArg Prod.snd (Option.some.inj hstep)
      unfold Kernel.expand
      split_ifs with hsize
      · exact h
      · exact h.expand (by simp) (by omega)
      · exact h.expand (by simp) (by omega)
      · exact h
    | shrink size flags =>
      obtain rfl : (k.shrink M size flags).2 = k' := congrArg Prod.snd (Option.some.inj hstep)
      have hsize := hop.2 size flags rfl
      unfold Kernel.shrink
      split_ifs
      · exact h.shrink (by simp) hsize
      · exact h.shrink (by simp) hsize
      · exact h
  | fault fault error fresh =>
    have heq := handlePageFault_eq k fault error fresh
    -- An admitted fault is in a segment, as it is at no edge.
    have hin : k.admits fault error ≠ none → Inside k fault := fun hadmits => by
      by_contra hout
      exact hedge ((admits_iff h.placed hout fresh).mp hadmits)
    have hmap : ∀ k', Paging.step M k (.fault fault error fresh) = some (0, k') →
        Inside k fault ∧ Mapped A k fault k' := fun k' hk' => by
      obtain ⟨flags, hadmits, rfl⟩ := admits_of_step hk'
      obtain ⟨hflags, hflags'⟩ := admits_flags hadmits
      exact ⟨hin (by rw [hadmits]; simp), mapPage_spec h.tree hflags hflags' fresh (hop.1 _ _ hk')⟩
    refine ⟨⟨fun hout => ?_, fun k' hk' => ?_⟩, fun r k' hstep => ?_⟩
    · have hnone : k.admits fault error = none := by
        by_contra hadmits
        exact hout (hin hadmits)
      rw [heq, hnone]
    · obtain ⟨hin, hmapped⟩ := hmap k' (step_of_resumes hk')
      exact (h.mapped hin hmapped).2
    · obtain ⟨flags, hadmits, rfl⟩ := admits_of_step hstep
      have hresumes : k.handlePageFault fault error fresh =
          (.resumes, k.mapPage flags fault fresh) := by
        rw [heq, hadmits]
      obtain ⟨hin, hmapped⟩ := hmap _ (step_of_resumes hresumes)
      exact (h.mapped hin hmapped).1

/-- A page fault at an edge resumes the process. -/
theorem not_contained (hp : Placed k) (hedge : AtEdge k op) : ¬Contained k op := by
  cases op with
  | call c => exact absurd hedge id
  | fault fault error fresh =>
    intro hcontained
    have hout : ¬Inside k fault := hedge.2.1
    have hadmits := (admits_iff hp hout fresh).mpr hedge
    obtain ⟨flags, hflags⟩ := Option.ne_none_iff_exists'.mp hadmits
    have hends := hcontained.1 hout
    rw [handlePageFault_eq, hflags] at hends
    exact absurd (congrArg Prod.fst hends) (by simp)

/-! ## Runs -/

/-- In every state of a run the mapped memory of `DATA` and `RODATA` is in use, every page that a
page fault maps is inside a region, and every page fault outside the regions ends in `do_exit`, if
and only if no page fault of the run is at an edge. -/
theorem regions_contained_iff (M : MapFlags) (A : Finset ℕ) (k : Kernel) (hp : Placed k)
    (ht : StartTree A k)
    (hd : DataInside k) (ops : List Op) (hops : Run.Along (step M) (LegalOp M A) k ops) :
    (∀ pre, pre <+: ops → ∀ hist k', Run.run (step M) k pre = some (hist, k') → DataInside k') ∧
      Run.Along (step M) Contained k ops ↔ Run.Along (step M) (fun k op => ¬AtEdge k op) k ops := by
  have hk : RegionInv A k := ⟨hp, ht.treeInv, hd⟩
  constructor
  · rintro ⟨-, hcontained⟩
    refine Run.along_of_step (RegionInv A) (fun k op hk hop => ?_) hk (hcontained.and hops)
    have hedge : ¬AtEdge k op := fun hedge => not_contained hk.placed hedge hop.1
    exact ⟨hedge, (hk.step hop.2 hedge).2⟩
  · intro hedge
    have hlegal := hops.and hedge
    refine ⟨fun pre hpre hist k' hrun => ?_, ?_⟩
    · obtain ⟨rest, rfl⟩ := hpre
      have h := Run.of_run (h := []) (fun k (_ : List (Op × ℕ)) => RegionInv A k)
        (fun k _ op r k' hk hop hstep => (hk.step hop.1 hop.2).2 r k' hstep) hk hlegal.left hrun
      exact h.data
    · exact Run.along_of_step (RegionInv A) (fun k op hk hop => hk.step hop.1 hop.2) hk hlegal

theorem placed_twoPages : Placed twoPages := by
  refine ⟨fun s => ?_, fun s => ?_, layout_twoPages.2, fun s => ?_, fun s => ?_, fun s t hst => ?_⟩
  · cases s <;> decide
  · cases s <;> decide
  · cases s <;> decide
  · cases s <;> decide
  · cases s <;> cases t <;> first | exact absurd rfl hst | decide

theorem dataInside_twoPages : DataInside twoPages := fun _ _ hmapped =>
  absurd (nodes_twoPages (by simp [path])) hmapped

/-- The state after a shrink by one of the two pages. -/
def shrunk : Kernel := (twoPages.shrink mapFlags 1 1).2

/-- A shrink by one of the two pages, and a write to the page that is left. -/
def shrinkAndWrite : List Op := [.call (.shrink 1 1), .fault 0x180000000 2 ⟨10, 11, 12, 13⟩]

/-- The data segment shrinks by one page, and the other page is mapped. -/
theorem regions_contained_write :
    (∀ pre, pre <+: shrinkAndWrite → ∀ hist k',
      Run.run (step mapFlags) twoPages pre = some (hist, k') → DataInside k') ∧
        Run.Along (step mapFlags) Contained twoPages shrinkAndWrite := by
  have hshrink : step mapFlags twoPages (.call (.shrink 1 1)) =
      some (twoPages.shrink mapFlags 1 1) := rfl
  refine (regions_contained_iff mapFlags {1} twoPages placed_twoPages startTree_twoPages
    dataInside_twoPages shrinkAndWrite ?_).mpr ?_
  · refine ⟨⟨fun r k' h => ?_, fun size flags h => ?_⟩, fun r k' h =>
      ⟨⟨fun r₁ k₁ h₁ => ?_, fun _ _ h₁ => ?_⟩, fun _ _ _ => trivial⟩⟩
    · obtain rfl : shrunk = k' := congrArg Prod.snd (Option.some.inj (hshrink.symm.trans h))
      decide
    · obtain ⟨rfl, -⟩ : 1 = size ∧ 1 = flags := by simpa using h
      decide
    · obtain rfl : shrunk = k' := congrArg Prod.snd (Option.some.inj (hshrink.symm.trans h))
      have hwrite : step mapFlags shrunk (.fault 0x180000000 2 ⟨10, 11, 12, 13⟩) =
          some (0, shrunk.mapPage rwFlags 0x180000000 ⟨10, 11, 12, 13⟩) := rfl
      obtain rfl : shrunk.mapPage rwFlags 0x180000000 ⟨10, 11, 12, 13⟩ = k₁ :=
        congrArg Prod.snd (Option.some.inj (hwrite.symm.trans h₁))
      decide
    · exact absurd h₁ (by simp)
  · refine ⟨id, fun r k' h => ⟨fun hedge => hedge.2.1 ⟨.data, ?_⟩, fun _ _ _ => trivial⟩⟩
    obtain rfl : shrunk = k' := congrArg Prod.snd (Option.some.inj (hshrink.symm.trans h))
    decide

/-- A write to the first address behind the data segment. -/
def writeBehind : Op := .fault 0x180002000 2 ⟨10, 11, 12, 13⟩

/-- A page fault at `next_free` of the data segment maps a page there. -/
theorem regions_not_contained :
    Run.Along (step mapFlags) (LegalOp mapFlags {1}) twoPages [writeBehind] ∧
      ¬((∀ pre, pre <+: [writeBehind] → ∀ hist k',
          Run.run (step mapFlags) twoPages pre = some (hist, k') → DataInside k') ∧
        Run.Along (step mapFlags) Contained twoPages [writeBehind]) := by
  refine ⟨⟨⟨fun r k' h => ?_, fun _ _ h => absurd h (by simp [writeBehind])⟩,
    fun _ _ _ => trivial⟩, ?_⟩
  · have hstep : step mapFlags twoPages writeBehind =
        some (0, twoPages.mapPage rwFlags 0x180002000 ⟨10, 11, 12, 13⟩) := rfl
    obtain rfl : twoPages.mapPage rwFlags 0x180002000 ⟨10, 11, 12, 13⟩ = k' :=
      congrArg Prod.snd (Option.some.inj (hstep.symm.trans h))
    decide
  · rintro ⟨-, hcontained, -⟩
    refine not_contained placed_twoPages ?_ hcontained
    refine ⟨rfl, ?_, Or.inl rfl⟩
    rintro ⟨seg, hstart, hlimit⟩
    cases seg <;> revert hstart hlimit <;> decide

end GemOS.Paging
