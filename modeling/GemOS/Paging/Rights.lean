import GemOS.Paging.Accesses

/-!
# Which accesses are answered

A page fault fills up the missing levels of a walk with the flags of its segment, and leaves the
levels that are there. Whether the access succeeds when the instruction is executed again depends on
all of them: a table that was made for `RODATA` is not writable, and a page of `DATA` behind it
would not be either. In the layout of gemOS this does not happen, as the top table has one entry for
all segments, which is writable from the start, and `RODATA` shares no gigabyte with another
segment.

`access_answered_iff`: in every state of a run, an access to a segment is answered, after at most
one page fault, exactly when its address is in the part that is in use, and it is not a write to
`RODATA`; otherwise the process exits.
-/

namespace GemOS.Paging

open Ledger

variable {M : MapFlags} {A : Finset ℕ} {k k' : Kernel} {p p' : Process} {address a size pfn : ℕ}
  {flags : ℤ} {fresh : Fresh} {write : Bool} {seg : Seg} {q : List (Fin 512)} {w : ℕ × List ℕ}

/-! ## Layout and rights -/

/-- The segments are in order, and share no tables of the lower levels. -/
structure Apart (k : Kernel) : Prop where
  /-- `RODATA` is before `DATA`. -/
  rodata : (k.mms .rodata).last ≤ (k.mms .data).start
  /-- There is room between `DATA` and `STACK`. -/
  stack : (k.mms .data).last < (k.mms .stack).start
  /-- No gigabyte has addresses of `RODATA` and of another segment. -/
  gigabyte : ∀ s, s ≠ .rodata → ∀ a b, k.InSegment s a → k.InSegment .rodata b →
    ¬k.InSegment .data b → a / 2^30 ≠ b / 2^30

/-- An address of `DATA` or `STACK`. -/
def Kernel.IsWritable (k : Kernel) (a : ℕ) : Prop :=
  a < 2^48 ∧ ∃ s, s ≠ .rodata ∧ k.InSegment s a

/-- An address of `RODATA`. -/
def Kernel.IsReadOnly (k : Kernel) (a : ℕ) : Prop :=
  a < 2^48 ∧ k.InSegment .rodata a ∧ ¬k.InSegment .data a

/-- What the entries of the page table allow. -/
structure Rights (k : Kernel) : Prop where
  /-- The entries of the top table are present, and allow everything. -/
  root : ∀ a < 2^48, ∀ s, k.InSegment s a → ∃ w, k.walk ((path a).take 1) = some w ∧
    ∀ e ∈ w.2, userBit e = true ∧ writeBit e = true
  /-- All entries on the way to a page of `DATA` or `STACK` allow everything. -/
  writable : ∀ a, k.IsWritable a → ∀ q w, q <+: path a → k.walk q = some w →
    ∀ e ∈ w.2, userBit e = true ∧ writeBit e = true
  /-- All entries on the way to a page of `RODATA` are for the user. -/
  readOnly : ∀ a, k.IsReadOnly a → ∀ q w, q <+: path a → k.walk q = some w →
    ∀ e ∈ w.2, userBit e = true
  /-- A page of `RODATA` is not writable. -/
  leaf : ∀ a, k.IsReadOnly a → ∀ w, k.walk (path a) = some w → ∃ e ∈ w.2, writeBit e = false

/-- An access that the process may make: to the part of a segment that may be mapped, and not to
write to `RODATA`. -/
def Permitted (k : Kernel) (a : ℕ) (write : Bool) : Prop :=
  ∃ seg, (k.mms seg).start ≤ a ∧ a < (k.mms seg).limit seg ∧ (write = true → seg ≠ .rodata)

/-- An address between the bounds of a segment. -/
def Covered (k : Kernel) (a : ℕ) : Prop := ∃ seg, (k.mms seg).start ≤ a ∧ a < (k.mms seg).last

/-- An access to the first address behind a region. -/
def AccessAtEdge (k : Kernel) (a : ℕ) (write : Bool) : Prop :=
  AtEdge k (.fault a (errorCode false write) ⟨0, 0, 0, 0⟩)

/-- A load or store at the first address behind a region. -/
def UserAtEdge (p : Process) : UserOp → Prop
  | .call _ => False
  | .load address _ _ => AccessAtEdge p.kernel address false
  | .store address _ _ _ => AccessAtEdge p.kernel address true

/-- The access is carried out, after at most one page fault. -/
def Kernel.Answers (k : Kernel) (a : ℕ) (write : Bool) (fresh : Fresh) : Prop :=
  ∃ pfn k', k.access a write fresh = .served pfn k' ∨ k.access a write fresh = .mapped pfn k'

/-- The invariant of the rights. -/
structure RightsInv (A : Finset ℕ) (k : Kernel) : Prop where
  /-- The page table is a tree, of frames that were not allocated before. -/
  memory : MemoryInv A k
  /-- Every present page of `DATA` or `RODATA` is in use. -/
  data : DataInside k
  /-- The segments are apart. -/
  apart : Apart k
  /-- The entries allow what they should. -/
  rights : Rights k

/-! ## Paths -/

/-- Addresses of 48 bits share the entries of the two upper levels exactly when they are in the same
gigabyte. -/
theorem take_path_eq_iff {a b : ℕ} (ha : a < 2^48) (hb : b < 2^48) :
    (path a).take 2 = (path b).take 2 ↔ a / 2^30 = b / 2^30 := by
  have hval : (path a).take 2 = (path b).take 2 ↔
      a / 2^39 % 512 = b / 2^39 % 512 ∧ a / 2^30 % 512 = b / 2^30 % 512 := by
    simp [path, List.take, Fin.ext_iff, tableOffset_val]
  rw [hval]
  constructor
  · rintro ⟨h₄, h₃⟩
    omega
  · intro h
    exact ⟨by omega, by omega⟩

/-- Paths that share more than the top table are in the same gigabyte. -/
theorem gigabyte_of_common {a b : ℕ} (ha : a < 2^48) (hb : b < 2^48) (hqa : q <+: path a)
    (hqb : q <+: path b) (hlen : 2 ≤ q.length) : a / 2^30 = b / 2^30 := by
  refine (take_path_eq_iff ha hb).mp ?_
  obtain ⟨r, hr⟩ := hqa
  obtain ⟨t, ht⟩ := hqb
  rw [← hr, ← ht, List.take_append_of_le_length hlen, List.take_append_of_le_length hlen]

/-! ## Rights -/

/-- The state changes no bounds of segments. -/
def SameBounds (k k' : Kernel) : Prop :=
  ∀ s, (k'.mms s).start = (k.mms s).start ∧ (k'.mms s).last = (k.mms s).last

theorem SameBounds.update {n : ℕ}
    (hmms : k'.mms = Function.update k.mms seg { k.mms seg with nextFree := n }) :
    SameBounds k k' := fun s => by
  rw [hmms]
  by_cases hs : s = seg
  · rw [hs, Function.update_self]
    exact ⟨rfl, rfl⟩
  · rw [Function.update_of_ne hs]
    exact ⟨rfl, rfl⟩

theorem SameBounds.inSegment (h : SameBounds k k') (s : Seg) :
    k'.InSegment s a ↔ k.InSegment s a := by
  rw [Kernel.InSegment, Kernel.InSegment, (h s).1, (h s).2]

theorem SameBounds.isWritable (h : SameBounds k k') : k'.IsWritable a ↔ k.IsWritable a := by
  simp only [Kernel.IsWritable, h.inSegment]

theorem SameBounds.isReadOnly (h : SameBounds k k') : k'.IsReadOnly a ↔ k.IsReadOnly a := by
  simp only [Kernel.IsReadOnly, h.inSegment]

theorem SameBounds.apart (h : SameBounds k k') (hapart : Apart k) : Apart k' := by
  refine ⟨?_, ?_, fun s hs a b ha hb hb' => ?_⟩
  · rw [(h .rodata).2, (h .data).1]
    exact hapart.rodata
  · rw [(h .data).2, (h .stack).1]
    exact hapart.stack
  · rw [h.inSegment] at ha hb hb'
    exact hapart.gigabyte s hs a b ha hb hb'

/-- Where pages are only taken away, the rights stay. -/
theorem Rights.mono (h : Rights k) (hbounds : SameBounds k k')
    (hwalk : ∀ q w, q.length ≤ 4 → k'.walk q = some w → k.walk q = some w)
    (hroot : ∀ q, q.length < 4 → k'.walk q = k.walk q) : Rights k' := by
  refine ⟨fun a ha s hs => ?_, fun a ha q w hq hw => ?_, fun a ha q w hq hw => ?_,
    fun a ha w hw => ?_⟩
  · rw [hroot _ (by simp [path])]
    exact h.root a ha s ((hbounds.inSegment s).mp hs)
  · exact h.writable a (hbounds.isWritable.mp ha) q w hq (hwalk q w hq.length_le hw)
  · exact h.readOnly a (hbounds.isReadOnly.mp ha) q w hq (hwalk q w hq.length_le hw)
  · exact h.leaf a (hbounds.isReadOnly.mp ha) w (hwalk _ w (by simp [path]) hw)

/-- The frames that `os_pfn_alloc` returns are no tables. -/
theorem Fresh.Available.ok (h : fresh.Available A k) (htree : TreeInv A k) : fresh.Ok k := by
  refine ⟨h.1, fun g hg p w hp hw heq => ?_, fun g hg => (h.2 g hg).2⟩
  have hnode : k.nodes p = some w.1 := by
    rw [← walk_fst k hp.le, Kernel.walk, hw, Option.map_some]
  exact (h.2 g hg).1 (heq ▸ htree.accounts.inUse p w.1 hnode)

/-- A fault that is admitted is in its segment. -/
theorem inSegment_of_faultIn {error : ℕ} (h : k.FaultIn a error seg) : k.InSegment seg a := by
  cases seg with
  | data => exact h.1
  | rodata => exact h.2.1
  | stack => exact h.2.2

/-- An address for which a fault is admitted is writable, or in `RODATA`. -/
theorem class_of_faultIn {error : ℕ} (ha : a < 2^48) (h : k.FaultIn a error seg) :
    seg ≠ .rodata ∧ k.IsWritable a ∨ seg = .rodata ∧ k.IsReadOnly a := by
  have hin := inSegment_of_faultIn h
  cases seg with
  | rodata => exact Or.inr ⟨rfl, ha, hin, h.1⟩
  | data => exact Or.inl ⟨by simp, ha, _, by simp, hin⟩
  | stack => exact Or.inl ⟨by simp, ha, _, by simp, hin⟩

/-- The pages of `RODATA` and of the other segments share the top table only. -/
theorem shared_prefix (hapart : Apart k) {b : ℕ} (ha : k.IsWritable a) (hb : k.IsReadOnly b)
    (hqa : q <+: path a) (hqb : q <+: path b) : q.length < 2 := by
  obtain ⟨ha, s, hs, hin⟩ := ha
  obtain ⟨hb, hin', hnot⟩ := hb
  by_contra hlen
  exact hapart.gigabyte s hs a b hin hin' hnot (gigabyte_of_common ha hb hqa hqb (by omega))

/-- What filling up the entries on the way to a page shows. -/
structure PageFilled (k k' : Kernel) (seg : Seg) (address : ℕ) : Prop where
  /-- The segments stay. -/
  mms : k'.mms = k.mms
  /-- The page is present. -/
  page : ∃ w, k'.walk (path address) = some w
  /-- Every walk goes on as before. -/
  kept : ∀ q w, q.length ≤ 4 → k.walk q = some w → k'.walk q = some w
  /-- A walk that is not on the way to the page is an old one. -/
  other : ∀ q w, q.length ≤ 4 → ¬q <+: path address → k'.walk q = some w → k.walk q = some w
  /-- The entries on the way have what the old ones and the new ones have. -/
  entries : ∀ P : ℕ → Prop,
    (∀ q w, q <+: path address → k.walk q = some w → ∀ e ∈ w.2, P e) →
      (∀ pfn, P (mkEntry pfn (segFlags seg))) → ∀ q w, q <+: path address →
        k'.walk q = some w → ∀ e ∈ w.2, P e
  /-- The entry of the page is an old one or a new one. -/
  leaf : ∀ w, k'.walk (path address) = some w →
    k.walk (path address) = some w ∨ ∃ pfn, mkEntry pfn (segFlags seg) ∈ w.2

theorem mapPage_pageFilled (htree : TreeInv A k) (hfresh : fresh.Available A k) (seg : Seg)
    (address : ℕ) (hmms : (k.mapPage (segFlags seg) address fresh).mms = k.mms) :
    PageFilled k (k.mapPage (segFlags seg) address fresh) seg address := by
  obtain ⟨hpresent, hlt, -, -⟩ := segFlags_ok seg
  have hok := hfresh.ok htree
  have hfilled := Memory.walk_fillPath (p := path address) ⟨htree.treeShaped, hok.nodup,
    hok.notTable, hok.lt⟩ (Memory.walk_nil k.mem k.pgd) rfl rfl hpresent hlt
  rw [← mapPage_mem] at hfilled
  have hwalk : ∀ p, (k.mapPage (segFlags seg) address fresh).walk p =
      Memory.walk (k.mapPage (segFlags seg) address fresh).mem k.pgd p := fun p => by
    rw [Kernel.walk, mapPage_pgd]
  refine ⟨hmms, ?_, fun q w hq hw => ?_, fun q w hq hpre hw => ?_,
    fun P hold hnew q w hq hw => ?_, fun w hw => ?_⟩
  · obtain ⟨w, hw⟩ := hfilled.present (List.prefix_refl _)
    exact ⟨w, (hwalk _).trans hw⟩
  · exact (hwalk q).trans (hfilled.kept hq hw)
  · rw [hwalk, hfilled.other q hq fun r hr _ heq => hpre (by simpa [heq] using hr)] at hw
    exact hw
  · exact hfilled.forall_entry hold (fun _ _ _ _ => hnew _) hq ((hwalk q).symm.trans hw)
  · cases hold : k.walk (path address) with
    | some v =>
      rw [mapPage_present hold, hold] at hw
      exact Or.inl hw
    | none =>
      obtain ⟨v, -, hentry⟩ := hfilled.created (r := (path address).take 3)
        (i := tableOffset address 0x00C) (List.prefix_refl _) hold
      obtain rfl := Option.some.inj (((hwalk _).symm.trans hw).symm.trans hentry)
      exact Or.inr ⟨_, List.mem_append_right _ (List.mem_singleton.mpr rfl)⟩

theorem PageFilled.bounds (h : PageFilled k k' seg address) : SameBounds k k' := fun s => by
  rw [h.mms]
  exact ⟨rfl, rfl⟩

/-- The entries of a page of `DATA` or `STACK` allow everything. -/
theorem Rights.filled_writable (h : Rights k) (hapart : Apart k)
    (hfilled : PageFilled k k' seg address)
    (hclass : seg ≠ .rodata ∧ k.IsWritable address ∨ seg = .rodata ∧ k.IsReadOnly address)
    (ha : k.IsWritable a) (hq : q <+: path a) (hw : k'.walk q = some w) :
    ∀ e ∈ w.2, userBit e = true ∧ writeBit e = true := by
  obtain ⟨-, -, huser, hwrite⟩ := segFlags_ok seg
  by_cases hpre : q <+: path address
  · rcases hclass with ⟨hseg, hclass⟩ | ⟨-, hclass⟩
    · refine hfilled.entries _ (fun q w hq hw => h.writable address hclass q w hq hw)
        (fun pfn => ?_) q w hpre hw
      rw [userBit, writeBit, testBit_mkEntry _ _ (by decide), testBit_mkEntry _ _ (by decide)]
      exact ⟨huser, hwrite.trans (decide_eq_true hseg)⟩
    · -- The page is one of `RODATA`, so that only the entry of the top table is shared.
      have hlen := shared_prefix hapart ha hclass hq hpre
      obtain ⟨ha', s, hs, hin⟩ := ha
      obtain ⟨v, hv, -⟩ := h.root a ha' s hin
      obtain ⟨u, hu⟩ := Memory.walk_of_prefix (p := q) hv
        (List.prefix_take_iff.mpr ⟨hq, Nat.lt_succ_iff.mp hlen⟩)
      obtain rfl := Option.some.inj (hw.symm.trans (hfilled.kept q u hq.length_le hu))
      exact h.writable a ⟨ha', s, hs, hin⟩ q w hq hu
  · exact h.writable a ha q w hq (hfilled.other q w hq.length_le hpre hw)

/-- A page fault fills up the entries on its way so that the rights stay. -/
theorem Rights.filled (h : Rights k) (hapart : Apart k) (hfilled : PageFilled k k' seg address)
    (hclass : seg ≠ .rodata ∧ k.IsWritable address ∨ seg = .rodata ∧ k.IsReadOnly address) :
    Rights k' := by
  obtain ⟨-, -, huser, hwrite⟩ := segFlags_ok seg
  have hbounds := hfilled.bounds
  refine ⟨fun a ha s hs => ?_, fun a ha q w hq hw => ?_, fun a ha q w hq hw => ?_,
    fun a ha w hw => ?_⟩
  · obtain ⟨w, hw, hall⟩ := h.root a ha s ((hbounds.inSegment s).mp hs)
    exact ⟨w, hfilled.kept _ w (by simp [path]) hw, hall⟩
  · exact h.filled_writable hapart hfilled hclass (hbounds.isWritable.mp ha) hq hw
  · by_cases hpre : q <+: path address
    · refine hfilled.entries _ (fun q w hq hw e he => ?_) (fun pfn => ?_) q w hpre hw
      · rcases hclass with ⟨-, hclass⟩ | ⟨-, hclass⟩
        · exact (h.writable address hclass q w hq hw e he).1
        · exact h.readOnly address hclass q w hq hw e he
      · rw [userBit, testBit_mkEntry _ _ (by decide)]
        exact huser
    · exact h.readOnly a (hbounds.isReadOnly.mp ha) q w hq
        (hfilled.other q w hq.length_le hpre hw)
  · have ha' := hbounds.isReadOnly.mp ha
    by_cases hpath : path a = path address
    · rw [hpath] at hw
      rcases hclass with ⟨-, hclass⟩ | ⟨rfl, hclass⟩
      · -- No page of another segment is one of `RODATA`.
        have hlen := shared_prefix hapart hclass ha' (List.prefix_refl _)
          (hpath ▸ List.prefix_refl _)
        exact absurd hlen (by simp [path])
      · rcases hfilled.leaf w hw with hold | ⟨pfn, hmem⟩
        · exact h.leaf address hclass w hold
        · refine ⟨_, hmem, ?_⟩
          rw [writeBit, testBit_mkEntry _ _ (by decide)]
          exact hwrite
    · exact h.leaf a ha' w (hfilled.other _ w (by simp [path])
        (fun hpre => hpath (hpre.eq_of_length rfl)) hw)

/-! ## Accesses -/

theorem errorCode_protection (protection write : Bool) :
    errorCode protection write &&& 1 = if protection then 1 else 0 := by
  cases protection <;> cases write <;> rfl

theorem errorCode_write (protection write : Bool) :
    (errorCode protection write >>> 1) &&& 1 = if write then 1 else 0 := by
  cases protection <;> cases write <;> rfl

theorem translate_of_none (h : k.walk (path a) = none) :
    k.translate a write = .fault (errorCode false write) := by
  rw [Kernel.translate, h]

/-- A page fault that is handled is in its segment, and fills up the entries on its way. -/
theorem MemoryInv.pageFilled (h : MemoryInv A k) (hfresh : fresh.Available A k)
    (hend : k.handlePageFault a (errorCode false write) fresh = (.resumes, k')) :
    ∃ seg, k.FaultIn a (errorCode false write) seg ∧ PageFilled k k' seg a ∧ Mapped A k a k' := by
  obtain ⟨herror, seg, hseg⟩ := handlePageFault_resumes (congrArg Prod.fst hend)
  obtain rfl := congrArg Prod.snd ((handlePageFault_of_faultIn herror hseg fresh).symm.trans hend)
  obtain ⟨hpresent, hlt, -, -⟩ := segFlags_ok seg
  have hmapped := mapPage_spec h.tree hpresent hlt fresh
    (Supply.mapPage ⟨h.log, hfresh.1, hfresh.2⟩ (segFlags seg) a)
  exact ⟨seg, hseg, mapPage_pageFilled h.tree hfresh seg a hmapped.mms, hmapped⟩

/-- A page fault that is handled is in its segment, and leaves the rights. -/
theorem RightsInv.faulted (h : RightsInv A k) (ha : a < 2^48) (hfresh : fresh.Available A k)
    (hedge : ¬AccessAtEdge k a write) (habsent : k.nodes (path a) = none)
    (hend : k.handlePageFault a (errorCode false write) fresh = (.resumes, k')) :
    RightsInv A k' ∧ k'.mms = k.mms ∧ ∃ w, k'.walk (path a) = some w := by
  obtain ⟨seg, hseg, hfilled, hmapped⟩ := h.memory.pageFilled hfresh hend
  have hin : Inside k a := by
    by_contra hout
    refine hedge ((admits_iff h.memory.placed hout ⟨0, 0, 0, 0⟩).mp fun hnone => ?_)
    rw [handlePageFault_eq, hnone] at hend
    exact absurd (congrArg Prod.fst hend) (by simp)
  have hregion : RegionInv A k := ⟨h.memory.placed, h.memory.tree, h.data⟩
  exact ⟨⟨(h.memory.faulted ha hfresh habsent hend).inv, (hregion.mapped hin hmapped).1.data,
    hfilled.bounds.apart h.apart, h.rights.filled h.apart hfilled (class_of_faultIn ha hseg)⟩,
    hfilled.mms, hfilled.page⟩

/-- An access leaves the rights. -/
theorem RightsInv.access (pfn : ℕ) (h : RightsInv A k) (ha : a < 2^48)
    (hfresh : fresh.Available A k)
    (hedge : ¬AccessAtEdge k a write)
    (hret : k.access a write fresh = .served pfn k' ∨ k.access a write fresh = .mapped pfn k' ∨
      k.access a write fresh = .again k') : RightsInv A k' := by
  rcases MemoryInv.access_cases k a write fresh with ⟨f, heq, -⟩ | heq | ⟨k₁, hwalk, hend, heq⟩
  · obtain ⟨-, rfl⟩ : f = pfn ∧ k = k' := by
      rw [heq] at hret
      simpa using hret
    exact h
  · rw [heq] at hret
    simp at hret
  · have habsent : k.nodes (path a) = none := by
      rw [← walk_fst k (by simp [path]), hwalk, Option.map_none]
    have hinv := (h.faulted ha hfresh hedge habsent hend).1
    rcases heq with ⟨f, heq, -⟩ | heq
    · obtain ⟨-, rfl⟩ : f = pfn ∧ k₁ = k' := by
        rw [heq] at hret
        simpa using hret
      exact hinv
    · obtain rfl : k₁ = k' := by
        rw [heq] at hret
        simpa using hret
      exact hinv

/-- Where the entries allow the access, it is carried out in the frame of the page. -/
theorem translate_of_walk {w : ℕ × List ℕ} (hw : k.walk (path a) = some w)
    (hall : ∀ e ∈ w.2, userBit e = true ∧ (write = true → writeBit e = true)) :
    k.translate a write = .frame w.1 := by
  unfold Kernel.translate
  rw [hw]
  dsimp only
  rw [if_pos]
  refine List.all_eq_true.mpr fun e he => ?_
  obtain ⟨huser, hwrite⟩ := hall e he
  cases write with
  | false => simp [huser]
  | true => simp [huser, hwrite rfl]

/-- A page fault that is not handled ends in `do_exit`. -/
theorem access_of_not_resumes {error : ℕ} (htrans : k.translate a write = .fault error)
    (hne : (k.handlePageFault a error fresh).1 ≠ .resumes) : k.access a write fresh = .exits := by
  unfold Kernel.access
  rw [htrans]
  dsimp only
  obtain ⟨r, k', hend⟩ : ∃ r k', k.handlePageFault a error fresh = (r, k') := ⟨_, _, rfl⟩
  rw [hend] at hne ⊢
  cases r with
  | exits => rfl
  | resumes => exact absurd rfl hne

/-- A write to a page with an entry that is not writable ends in `do_exit`. -/
theorem access_of_not_writable {e : ℕ} (hw : k.walk (path a) = some w) (he : e ∈ w.2)
    (hbit : writeBit e = false) (fresh : Fresh) : k.access a true fresh = .exits := by
  have htrans : k.translate a true = .fault (errorCode true true) := by
    unfold Kernel.translate
    rw [hw]
    dsimp only
    rw [if_neg fun hall => ?_]
    have := List.all_eq_true.mp hall e he
    simp [hbit] at this
  exact access_of_not_resumes htrans fun hres =>
    absurd (handlePageFault_resumes hres).1 (by decide)

/-- An address of a segment has 48 bits, and is before its end. -/
theorem lt_of_limit (h : Placed k) (ha : a < (k.mms seg).limit seg) :
    a < (k.mms seg).last ∧ a < 2^48 := by
  have hle : (k.mms seg).limit seg ≤ (k.mms seg).last := by
    cases seg
    · exact (h.bounded _ (by simp)).2
    · exact (h.bounded _ (by simp)).2
    · exact Nat.le_refl _
  have hlast := h.last seg
  omega

/-- The entries of a page that is present allow the accesses that are permitted. -/
theorem RightsInv.translate (h : RightsInv A k) (hperm : Permitted k a write)
    (hw : k.walk (path a) = some w) : k.translate a write = .frame w.1 := by
  obtain ⟨seg, hstart, hlimit, hwrite⟩ := hperm
  obtain ⟨hlast, ha⟩ := lt_of_limit h.memory.placed hlimit
  refine translate_of_walk hw fun e he => ?_
  by_cases hseg : seg = .rodata
  · subst hseg
    have hnot : ¬k.InSegment .data a := fun hin => by
      have := h.apart.rodata
      have := hin.1
      omega
    exact ⟨h.rights.readOnly a ⟨ha, ⟨hstart, hlast.le⟩, hnot⟩ _ w (List.prefix_refl _) hw e he,
      fun htrue => absurd rfl (hwrite htrue)⟩
  · obtain ⟨huser, hbit⟩ := h.rights.writable a ⟨ha, seg, hseg, hstart, hlast.le⟩ _ w
      (List.prefix_refl _) hw e he
    exact ⟨huser, fun _ => hbit⟩

/-- A page fault of an access that is permitted is admitted. -/
theorem RightsInv.faultIn (h : RightsInv A k) (hperm : Permitted k a write) :
    ∃ seg, k.FaultIn a (errorCode false write) seg := by
  obtain ⟨seg, hstart, hlimit, hwrite⟩ := hperm
  obtain ⟨hlast, -⟩ := lt_of_limit h.memory.placed hlimit
  have hrodata := h.apart.rodata
  have hstack := h.apart.stack
  have hdata := h.memory.placed.ordered .data
  refine ⟨seg, ?_⟩
  unfold Kernel.FaultIn Kernel.InSegment
  cases seg with
  | data => exact ⟨⟨hstart, hlast.le⟩, Nat.le_of_lt hlimit⟩
  | rodata =>
    have hread : write = false := by simpa using hwrite
    refine ⟨fun hin => ?_, ⟨hstart, hlast.le⟩, Nat.le_of_lt hlimit, ?_⟩
    · have := hin.1
      omega
    · rw [errorCode_write, hread]
      rfl
  | stack =>
    refine ⟨fun hin => ?_, fun hin => ?_, hstart, hlast.le⟩
    · have := hin.2
      omega
    · have := hin.2
      omega

/-- An access that is permitted is answered. -/
theorem RightsInv.answers (h : RightsInv A k) (hfresh : fresh.Available A k)
    (hedge : ¬AccessAtEdge k a write) (hperm : Permitted k a write) :
    k.Answers a write fresh := by
  have ha : a < 2^48 := by
    obtain ⟨seg, -, hlimit, -⟩ := hperm
    exact (lt_of_limit h.memory.placed hlimit).2
  unfold Kernel.Answers Kernel.access
  cases hwalk : k.walk (path a) with
  | some w =>
    rw [h.translate hperm hwalk]
    exact ⟨_, _, Or.inl rfl⟩
  | none =>
    have habsent : k.nodes (path a) = none := by
      rw [← walk_fst k (by simp [path]), hwalk, Option.map_none]
    obtain ⟨seg, hseg⟩ := h.faultIn hperm
    have hend := handlePageFault_of_faultIn (errorCode_protection false write) hseg fresh
    obtain ⟨h', hmms, w, hw⟩ := h.faulted ha hfresh hedge habsent hend
    have hperm' : Permitted (k.mapPage (segFlags seg) a fresh) a write := by
      unfold Permitted
      rw [hmms]
      exact hperm
    rw [translate_of_none hwalk]
    dsimp only
    rw [hend]
    dsimp only
    rw [h'.translate hperm' hw]
    exact ⟨_, _, Or.inr rfl⟩

/-- Any other access ends in `do_exit`. -/
theorem RightsInv.exits (h : RightsInv A k) (hcovered : Covered k a)
    (hedge : ¬AccessAtEdge k a write) (hperm : ¬Permitted k a write) (fresh : Fresh) :
    k.access a write fresh = .exits := by
  obtain ⟨t, htstart, htlast⟩ := hcovered
  have ha : a < 2^48 := Nat.lt_of_lt_of_le htlast (h.memory.placed.last t)
  by_cases hin : Inside k a
  · -- The access is a write to `RODATA`.
    obtain ⟨seg, hstart, hlimit⟩ := hin
    obtain ⟨hlast, -⟩ := lt_of_limit h.memory.placed hlimit
    obtain ⟨rfl, rfl⟩ : write = true ∧ seg = .rodata := by
      by_contra hcon
      refine hperm ⟨seg, hstart, hlimit, fun hw hseg => hcon ⟨hw, hseg⟩⟩
    have hnot : ¬k.InSegment .data a := fun hin => by
      have := h.apart.rodata
      have := hin.1
      omega
    cases hwalk : k.walk (path a) with
    | none =>
      refine access_of_not_resumes (translate_of_none hwalk) fun hres => ?_
      obtain ⟨-, seg, hseg⟩ := handlePageFault_resumes hres
      cases seg with
      | data => exact hnot hseg.1
      | rodata => exact absurd hseg.2.2.2 (by decide)
      | stack => exact hseg.2.1 ⟨hstart, hlast.le⟩
    | some w =>
      obtain ⟨e, he, hbit⟩ := h.rights.leaf a ⟨ha, ⟨hstart, hlast.le⟩, hnot⟩ w hwalk
      exact access_of_not_writable hwalk he hbit fresh
  · -- Nothing is mapped there, and no page fault is handled.
    have hwalk : k.walk (path a) = none := by
      cases hwalk : k.walk (path a) with
      | none => rfl
      | some w =>
        have hmapped : IsMapped k a := by
          rw [IsMapped, ← walk_fst k (by simp [path]), hwalk]
          simp
        refine absurd ⟨t, htstart, ?_⟩ hin
        cases t with
        | stack => exact htlast
        | data => exact h.data a ha hmapped _ (by simp) htstart htlast
        | rodata => exact h.data a ha hmapped _ (by simp) htstart htlast
    refine access_of_not_resumes (translate_of_none hwalk) fun hres => ?_
    have hnone : k.admits a (errorCode false write) = none := by
      by_contra hsome
      exact hedge ((admits_iff h.memory.placed hin ⟨0, 0, 0, 0⟩).mp hsome)
    rw [handlePageFault_eq, hnone] at hres
    exact absurd hres (by simp)

/-! ## Runs -/

/-- `SYSCALL_EXPAND` leaves the rights. -/
theorem RightsInv.expand (h : RightsInv A k) (M : MapFlags) (size : ℕ) (flags : ℤ) :
    RightsInv A (k.expand M size flags).2 := by
  have hmemory := (h.memory.expand M size flags).1
  have hregion : RegionInv A (k.expand M size flags).2 := by
    have hlegal : LegalOp M A k (.call (.expand size flags)) := ⟨fun r k' hstep => ?_, by simp⟩
    · exact (RegionInv.step ⟨h.memory.placed, h.memory.tree, h.data⟩ hlegal id).2 _ _ rfl
    obtain rfl := congrArg Prod.snd (Option.some.inj hstep)
    exact hmemory.log
  rcases Nat.lt_or_ge 512 size with hbig | hsize
  · rw [show k.expand M size flags = (0, k) from if_pos hbig]
    exact h
  · cases hsel : selected M flags with
    | none =>
      rw [expand_of_none k size hsel]
      exact h
    | some seg =>
      have hseg := selected_ne_stack hsel
      rw [expand_of_selected k hsize hsel] at hmemory hregion ⊢
      rcases expandSegment_spec (h.memory.placed.segmentOk hseg) hsize with heq | ⟨-, heq⟩ <;>
        rw [heq] at hmemory hregion ⊢
      · exact h
      · have hbounds : SameBounds k (k.setNextFree seg ((k.mms seg).nextFree + size * 4096)) :=
          SameBounds.update rfl
        exact ⟨hmemory, hregion.data, hbounds.apart h.apart,
          h.rights.mono hbounds (fun _ _ _ hw => hw) fun _ _ => rfl⟩

/-- `SYSCALL_SHRINK` leaves the rights. -/
theorem RightsInv.shrink (h : RightsInv A k) (M : MapFlags) (flags : ℤ) (hsize : size < 2^20) :
    RightsInv A (k.shrink M size flags).2 := by
  have hmemory := h.memory.shrink M flags hsize
  have hlog : FreshLog A (k.shrink M size flags).2.log := by
    rcases hmemory with heq | ⟨-, hmemory, -⟩
    · rw [heq]
      exact h.memory.log
    · exact hmemory.log
  have hregion : RegionInv A (k.shrink M size flags).2 := by
    have hlegal : LegalOp M A k (.call (.shrink size flags)) := ⟨fun r k' hstep => ?_, ?_⟩
    · exact (RegionInv.step ⟨h.memory.placed, h.memory.tree, h.data⟩ hlegal id).2 _ _ rfl
    · obtain rfl := congrArg Prod.snd (Option.some.inj hstep)
      exact hlog
    · rintro size flags ⟨⟩
      exact hsize
  rcases h.memory.shrink_cases M flags hsize with hfail | ⟨seg, -, -, hshrunk⟩
  · rw [hfail]
    exact h
  · have hunmapped := hshrunk.unmapped
    have hbounds : SameBounds k (k.shrink M size flags).2 := SameBounds.update hshrunk.mms
    refine ⟨⟨hregion.placed, hregion.tree, hlog⟩, hregion.data, hbounds.apart h.apart,
      h.rights.mono hbounds (fun q w hq hw => (hunmapped.of_walk hq hw).1) fun q hq => ?_⟩
    -- The pages that are given back have longer paths.
    refine hunmapped.other q hq.le fun a _ _ heq => ?_
    rw [heq] at hq
    exact absurd hq (by simp [path])

/-- Every step of the process that is at no edge leaves the rights. -/
theorem RightsInv.step {op : UserOp} {o : UserEnd} (h : RightsInv A p.kernel)
    (hop : UserLegal A p op ∧ ¬UserAtEdge p op) (hstep : userStep M p op = some (o, p')) :
    RightsInv A p'.kernel := by
  have haccess : ∀ address fresh store contents, address < 2^48 → fresh.Available A p.kernel →
      ¬AccessAtEdge p.kernel address store.isSome →
        p.access address store fresh contents = some (o, p') → RightsInv A p'.kernel := by
    intro address fresh store contents ha hfresh hedge hstep
    unfold Process.access at hstep
    cases hend : p.kernel.access address store.isSome fresh with
    | served pfn k =>
      rw [hend] at hstep
      have hinv := h.access pfn ha hfresh hedge (Or.inl hend)
      cases store <;> obtain rfl := congrArg Prod.snd (Option.some.inj hstep) <;> exact hinv
    | mapped pfn k =>
      rw [hend] at hstep
      have hinv := h.access pfn ha hfresh hedge (Or.inr (Or.inl hend))
      cases store <;> obtain rfl := congrArg Prod.snd (Option.some.inj hstep) <;> exact hinv
    | exits =>
      rw [hend] at hstep
      exact absurd hstep (by simp)
    | again k =>
      rw [hend] at hstep
      have hinv := h.access 0 ha hfresh hedge (Or.inr (Or.inr hend))
      obtain rfl := congrArg Prod.snd (Option.some.inj hstep)
      exact hinv
  cases op with
  | call c =>
    cases c with
    | expand size flags =>
      obtain rfl := congrArg Prod.snd (Option.some.inj hstep)
      exact h.expand M size flags
    | shrink size flags =>
      obtain rfl := congrArg Prod.snd (Option.some.inj hstep)
      exact h.shrink M flags hop.1
  | load address fresh contents =>
    exact haccess address fresh none contents hop.1.1 hop.1.2 hop.2 hstep
  | store address v fresh contents =>
    exact haccess address fresh (some v) contents hop.1.1 hop.1.2 hop.2 hstep

/-- In every state of a run without accesses at an edge, an access between the bounds of a segment
is carried out, after at most one page fault, when its address may be mapped and it is no write to
`RODATA`; any other one ends in `do_exit`. -/
theorem access_answered_iff (M : MapFlags) (A : Finset ℕ) (p : Process) (hp : Placed p.kernel)
    (ht : StartTree A p.kernel) (hd : DataInside p.kernel) (hapart : Apart p.kernel)
    (hr : Rights p.kernel) (ops : List UserOp)
    (hops : Run.Along (userStep M) (fun p op => UserLegal A p op ∧ ¬UserAtEdge p op) p ops)
    (hist : List (UserOp × UserEnd)) (p' : Process)
    (hrun : Run.run (userStep M) p ops = some (hist, p')) (address : ℕ) (write : Bool)
    (fresh : Fresh) (hcovered : Covered p'.kernel address)
    (hedge : ¬AccessAtEdge p'.kernel address write) (hfresh : fresh.Available A p'.kernel) :
    (Permitted p'.kernel address write → p'.kernel.Answers address write fresh) ∧
      (¬Permitted p'.kernel address write → p'.kernel.access address write fresh = .exits) := by
  have hlog : FreshLog A p.kernel.log := by
    rw [ht.log]
    trivial
  have h := Run.of_run (h := []) (fun p (_ : List (UserOp × UserEnd)) => RightsInv A p.kernel)
    (fun p _ op o p' h hop hstep => h.step hop hstep) ⟨⟨hp, ht.treeInv, hlog⟩, hd, hapart, hr⟩ hops
      hrun
  exact ⟨fun hperm => h.answers hfresh hedge hperm, fun hperm => h.exits hcovered hedge hperm fresh⟩

/-- An address space with two pages in `DATA` and one in `RODATA`, whose top table has an entry for
all segments. -/
def rooted : Kernel where
  pgd := 1
  mms
    | .rodata => ⟨0x140000000, 0x140001000, 0x180000000⟩
    | .data => ⟨0x180000000, 0x180002000, 0x200000000⟩
    | .stack => ⟨0x7FF000000, 0x800000000, 0x800000000⟩
  mem frame i := if frame = 1 ∧ i = 0 then mkEntry 2 rwFlags else 0
  log := []

theorem nodes_rooted {q : List (Fin 512)} {f : ℕ} (h : rooted.nodes q = some f) :
    q = [] ∧ f = 1 ∨ q = [0] ∧ f = 2 := by
  have hchild : ∀ frame i, rooted.child frame i = if frame = 1 ∧ i = 0 then some 2 else none := by
    intro frame i
    by_cases hi : frame = 1 ∧ i = 0
    · rw [if_pos hi, hi.1, hi.2]
      rfl
    · simp [Kernel.child, rooted, hi, present]
  rcases q with - | ⟨i, - | ⟨j, q⟩⟩
  · exact Or.inl ⟨rfl, (Option.some.inj h).symm⟩
  · have hnode : rooted.nodes [i] = rooted.child 1 i := by
      simp [Kernel.nodes, Radix.nodes, Radix.node, rooted]
    rw [hnode, hchild] at h
    split_ifs at h with hi
    exact Or.inr ⟨by rw [hi.2], (Option.some.inj h).symm⟩
  · have hnode : rooted.nodes [i, j] = (rooted.child 1 i).bind fun f => rooted.child f j := by
      simp [Kernel.nodes, Radix.nodes, Radix.node, rooted]
    have hnone : rooted.nodes [i, j] = none := by
      rw [hnode, hchild]
      split_ifs with hi
      · rw [Option.bind_some, hchild, if_neg (by simp)]
      · rfl
    have hbehind : rooted.nodes (i :: j :: q) = none := Radix.nodes_eq_none hnone ⟨q, rfl⟩
    exact absurd (hbehind.symm.trans h) (by simp)

theorem walk_rooted {w : ℕ × List ℕ} (hq : q.length ≤ 4) (h : rooted.walk q = some w) :
    q = [] ∧ w = (1, []) ∨ q = [0] ∧ w = (2, [mkEntry 2 rwFlags]) := by
  have hnode : rooted.nodes q = some w.1 := by rw [← walk_fst rooted hq, h, Option.map_some]
  rcases nodes_rooted hnode with ⟨rfl, -⟩ | ⟨rfl, -⟩
  · exact Or.inl ⟨rfl, (Option.some.inj h).symm⟩
  · have hroot : rooted.walk [0] = some (2, [mkEntry 2 rwFlags]) := by decide
    exact Or.inr ⟨rfl, Option.some.inj (h.symm.trans hroot)⟩

theorem startTree_rooted : StartTree {1, 2} rooted := by
  refine ⟨rfl, fun p q a hp hq => ?_, fun p a hp => ?_⟩
  · rcases nodes_rooted hp with ⟨rfl, rfl⟩ | ⟨rfl, rfl⟩ <;>
      rcases nodes_rooted hq with ⟨rfl, ha⟩ | ⟨rfl, ha⟩
    · rfl
    · exact absurd ha (by decide)
    · exact absurd ha (by decide)
    · rfl
  · rcases nodes_rooted hp with ⟨-, rfl⟩ | ⟨-, rfl⟩ <;> decide

theorem placed_rooted : Placed rooted := by
  refine ⟨fun s => ?_, fun s => ?_, fun s hs => ?_, fun s => ?_, fun s => ?_, fun s t hst => ?_⟩
  · cases s <;> decide
  · cases s <;> decide
  · cases s <;> first | exact absurd rfl hs | decide
  · cases s <;> decide
  · cases s <;> decide
  · cases s <;> cases t <;> first | exact absurd rfl hst | decide

theorem dataInside_rooted : DataInside rooted := fun a _ hmapped => by
  obtain ⟨f, hf⟩ := Option.ne_none_iff_exists'.mp hmapped
  rcases nodes_rooted hf with ⟨hpath, -⟩ | ⟨hpath, -⟩ <;> simp [path] at hpath

theorem apart_rooted : Apart rooted := by
  refine ⟨by decide, by decide, fun s hs a b ha hb hnot => ?_⟩
  have hb' : b < 0x180000000 := by
    by_contra hle
    exact hnot ⟨not_lt.mp hle, hb.2.trans (by decide)⟩
  -- `RODATA` ends where the seventh gigabyte begins, and the other segments are behind.
  have ha' : 0x180000000 ≤ a := by
    cases s with
    | rodata => exact absurd rfl hs
    | data => exact ha.1
    | stack => exact le_trans (by decide) ha.1
  omega

theorem rights_rooted : Rights rooted := by
  have hentries : ∀ a q w, q <+: path a → rooted.walk q = some w →
      ∀ e ∈ w.2, userBit e = true ∧ writeBit e = true := by
    intro a q w hq hw e he
    rcases walk_rooted hq.length_le hw with ⟨-, rfl⟩ | ⟨-, rfl⟩
    · simp at he
    · rw [List.mem_singleton.mp he]
      decide
  refine ⟨fun a ha s hs => ?_, fun a _ => hentries a, fun a _ q w hq hw e he =>
    (hentries a q w hq hw e he).1, fun a _ w hw => ?_⟩
  · have hsmall : a < 2^39 := by
      refine lt_of_le_of_lt hs.2 ?_
      cases s <;> decide
    have hroot : (path a).take 1 = [0] := by
      simp only [path, List.take, List.cons.injEq, Fin.ext_iff, tableOffset_val, and_true]
      change a / 2^39 % 512 = 0
      omega
    refine ⟨(2, [mkEntry 2 rwFlags]), ?_, ?_⟩
    · rw [hroot]
      decide
    · decide
  · rcases walk_rooted (by simp [path]) hw with ⟨hpath, -⟩ | ⟨hpath, -⟩ <;> simp [path] at hpath

/-- A load from `RODATA`, which maps a page. -/
def loadConstant : List UserOp := [.load 0x140000abc ⟨20, 10, 11, 12⟩ fun _ => 5]

/-- After it a store to `DATA` is carried out, and a store to the page of `RODATA` ends the
process. -/
theorem access_answered_constant : ∃ hist p',
    Run.run (userStep mapFlags) ⟨rooted, fun _ _ => 0⟩ loadConstant = some (hist, p') ∧
      (Permitted p'.kernel 0x180000abc true →
        p'.kernel.Answers 0x180000abc true ⟨21, 22, 23, 24⟩) ∧
      (¬Permitted p'.kernel 0x180000abc true →
        p'.kernel.access 0x180000abc true ⟨21, 22, 23, 24⟩ = .exits) := by
  have hedge : ∀ k : Kernel, ∀ a write, Inside k a → ¬AccessAtEdge k a write :=
    fun k a write hin hedge => hedge.2.1 hin
  refine ⟨_, _, rfl, access_answered_iff mapFlags {1, 2} ⟨rooted, fun _ _ => 0⟩ placed_rooted
    startTree_rooted dataInside_rooted apart_rooted rights_rooted loadConstant
      ⟨⟨by decide, hedge _ _ _ ⟨.rodata, by decide⟩⟩, fun _ _ _ => trivial⟩ _ _ rfl 0x180000abc true
        ⟨21, 22, 23, 24⟩ ⟨.data, by decide⟩ (hedge _ _ _ ⟨.data, by decide⟩) (by decide)⟩

end GemOS.Paging
