import GemOS.Paging.Faults
import GemOS.Paging.Regions

/-!
# What a shrink gives back

`SYSCALL_SHRINK` moves `next_free` down page by page, and frees the page at the new `next_free` when
all four levels of its walk are present. `shrink_unmaps`: the pages that are given back are not
present any more, all other pages are translated as before, and `os_pfn_free` was called once for
each page that was mapped, also when whole tables on the way are missing.
-/

namespace GemOS.Paging

open Ledger

/-- No frame is that of two pages. -/
def Memory.LeavesDistinct (mem : Memory) (pgd : ℕ) : Prop :=
  ∀ p q v w, p.length = 4 → q.length = 4 → mem.walk pgd p = some v → mem.walk pgd q = some w →
    v.1 = w.1 → p = q

/-- The pages from `lo` up to `hi` are unmapped, and nothing else. -/
structure Unmapped (k k' : Kernel) (lo hi : ℕ) : Prop where
  /-- The pages are not present. -/
  absent : ∀ a, lo ≤ a → a < hi → k'.walk (path a) = none
  /-- The other walks are as they were. -/
  other : ∀ p, p.length ≤ 4 → (∀ a, lo ≤ a → a < hi → p ≠ path a) → k'.walk p = k.walk p
  /-- The frames of the pages that were present are freed, each of them once, and no others. -/
  frees : ∃ fs : List ℕ, k'.log = fs.map (fun f => (.userReg, .free f)) ++ k.log ∧ fs.Nodup ∧
    ∀ f, f ∈ fs ↔ ∃ a es, lo ≤ a ∧ a < hi ∧ k.walk (path a) = some (f, es)

variable {M : MapFlags} {k k' k'' : Kernel} {seg : Seg} {size address lo mid hi frame e : ℕ}
  {flags : ℤ} {i : Fin 512} {p q : List (Fin 512)} {es : List ℕ} {w : ℕ × List ℕ}

/-! ## One page -/

/-- The entry of a page is emptied. -/
theorem walk_setEntry (htree : Memory.TreeShaped k.mem k.pgd) (hp : k.walk p = some (frame, es))
    (hlen : p.length + 1 = 4) (he : present e = false) :
    (k.setEntry frame i e).walk (p ++ [i]) = none ∧
      ∀ q, q.length ≤ 4 → q ≠ p ++ [i] → (k.setEntry frame i e).walk q = k.walk q := by
  -- A walk that does not come through the entry meets no written entry.
  have hother : ∀ q, q.length ≤ 4 → ¬p ++ [i] <+: q →
      (k.setEntry frame i e).walk q = k.walk q := fun q hq hpre =>
    Memory.walk_of_not_prefix htree hp (by omega)
      (fun _ _ _ _ _ hx => setEntry_of_ne k e hx) hq hpre
  refine ⟨?_, fun q hq hne => hother q hq fun hpre => hne ?_⟩
  · have hp' : (k.setEntry frame i e).walk p = some (frame, es) := by
      rw [hother p (by omega) (Radix.not_prefix_concat p i), hp]
    rw [Kernel.walk] at hp' ⊢
    rw [Memory.walk_concat, hp', Option.bind_some, Memory.edge, setEntry_self,
      if_neg (by simp [he])]
  · -- A page has no longer path.
    exact (hpre.eq_of_length_le (by simpa [hlen] using hq)).symm

/-- The page is present, so its entry is emptied and its frame freed. -/
theorem unmapPage_of_walk (h : k.walk (path address) = some w) : ∃ frame es,
    k.walk ((path address).take 3) = some (frame, es) ∧
    k.unmapPage address = (k.setEntry frame (tableOffset address 0x00C)
      (clearPresent (k.mem frame (tableOffset address 0x00C)))).osPfnFree .userReg w.1 := by
  have hconcat : k.walk (path address) =
      (k.walk ((path address).take 3)).bind fun w =>
        Memory.edge k.mem w (tableOffset address 0x00C) :=
    Memory.walk_concat ((path address).take 3) (tableOffset address 0x00C)
  obtain ⟨v, hv, hedge⟩ := Option.bind_eq_some_iff.mp (hconcat.symm.trans h)
  refine ⟨v.1, v.2, hv, ?_⟩
  unfold Memory.edge at hedge
  split_ifs at hedge with h₁
  obtain rfl := Option.some.inj hedge
  obtain ⟨h₄, hv⟩ := Memory.node_edge_some hv
  obtain ⟨h₃, hv⟩ := Memory.node_edge_some hv
  obtain ⟨h₂, hv⟩ := Memory.node_edge_some hv
  obtain rfl := Option.some.inj hv
  unfold Kernel.unmapPage
  dsimp only
  rw [if_pos h₄, if_pos h₃, if_pos h₂, if_pos h₁]

/-- A level of the walk is missing, so nothing is done. -/
theorem unmapPage_of_none (h : k.walk (path address) = none) : k.unmapPage address = k := by
  unfold Kernel.unmapPage
  dsimp only
  split_ifs with h₄ h₃ h₂ h₁
  · simp [Kernel.walk, Memory.walk, path, Radix.node, Memory.edge, h₄, h₃, h₂, h₁] at h
  all_goals rfl

/-- The page of an address is unmapped. -/
theorem unmapPage_unmapped (htree : Memory.TreeShaped k.mem k.pgd) (address : ℕ)
    (hdvd : 4096 ∣ address) (haddress : address + 4096 ≤ 2^48) :
    Unmapped k (k.unmapPage address) address (address + 4096) := by
  have hpath : ∀ a, address ≤ a → a < address + 4096 → path a = path address := fun a hlo hhi =>
    (path_eq_iff (by omega) (by omega)).mpr (by omega)
  cases hwalk : k.walk (path address) with
  | none =>
    rw [unmapPage_of_none hwalk]
    refine ⟨fun a hlo hhi => ?_, fun _ _ _ => rfl, [], rfl, List.nodup_nil, fun f => ?_⟩
    · rw [hpath a hlo hhi, hwalk]
    · simp only [List.not_mem_nil, false_iff]
      rintro ⟨a, es, hlo, hhi, ha⟩
      rw [hpath a hlo hhi, hwalk] at ha
      exact absurd ha (by simp)
  | some w =>
    obtain ⟨frame, es, hp, heq⟩ := unmapPage_of_walk hwalk
    obtain ⟨hnone, hother⟩ := walk_setEntry htree hp (by simp [path])
      (present_clearPresent (k.mem frame (tableOffset address 0x00C)))
    have hconcat : (path address).take 3 ++ [tableOffset address 0x00C] = path address := rfl
    rw [hconcat] at hnone hother
    rw [heq]
    refine ⟨fun a hlo hhi => ?_, fun p hp hne => ?_, [w.1], rfl, List.nodup_singleton _,
      fun f => ?_⟩
    · rw [hpath a hlo hhi]
      exact hnone
    · exact hother p hp (hne address (Nat.le_refl _) (by omega))
    · rw [List.mem_singleton]
      constructor
      · rintro rfl
        exact ⟨address, w.2, Nat.le_refl _, by omega, hwalk⟩
      · rintro ⟨a, es, hlo, hhi, ha⟩
        rw [hpath a hlo hhi, hwalk] at ha
        exact (congrArg Prod.fst (Option.some.inj ha)).symm

/-! ## Several pages -/

namespace Unmapped

theorem refl (k : Kernel) (lo : ℕ) : Unmapped k k lo lo := by
  refine ⟨fun a hlo hhi => by omega, fun _ _ _ => rfl, [], rfl, List.nodup_nil, fun f => ?_⟩
  simp only [List.not_mem_nil, false_iff]
  rintro ⟨a, es, hlo, hhi, -⟩
  omega

/-- A page that is still present was present, and is outside. -/
theorem of_walk (h : Unmapped k k' lo hi) (hp : p.length ≤ 4) (hw : k'.walk p = some w) :
    k.walk p = some w ∧ ∀ a, lo ≤ a → a < hi → p ≠ path a := by
  have hout : ∀ a, lo ≤ a → a < hi → p ≠ path a := by
    rintro a hlo hhi rfl
    exact absurd ((h.absent a hlo hhi).symm.trans hw) (by simp)
  exact ⟨(h.other p hp hout).symm.trans hw, hout⟩

/-- The tables are a tree as before. -/
theorem treeShaped (h : Unmapped k k' lo hi) (htree : Memory.TreeShaped k.mem k.pgd) :
    Memory.TreeShaped k'.mem k'.pgd := fun p q v w hp hq hv hw =>
  htree p q v w hp hq (h.of_walk hp.le hv).1 (h.of_walk hq.le hw).1

/-- First the upper pages, and then the lower ones. -/
theorem trans (h : Unmapped k k' mid hi) (h' : Unmapped k' k'' lo mid)
    (hleaves : Memory.LeavesDistinct k.mem k.pgd) (hlo : lo ≤ mid) (hhi : mid ≤ hi) :
    Unmapped k k'' lo hi := by
  obtain ⟨fs, hlog, hnodup, hfs⟩ := h.frees
  obtain ⟨fs', hlog', hnodup', hfs'⟩ := h'.frees
  -- A page among the lower ones is mapped as before, if it is not also among the upper ones.
  have hlower : ∀ a w, lo ≤ a → a < mid → k'.walk (path a) = some w → k.walk (path a) = some w :=
    fun a w _ _ hw => (h.of_walk (by simp [path]) hw).1
  refine ⟨fun a ha ha' => ?_, fun p hp hne => ?_, fs' ++ fs, ?_, ?_, fun f => ?_⟩
  · rcases Nat.lt_or_ge a mid with hmid | hmid
    · exact h'.absent a ha hmid
    · cases hw : k''.walk (path a) with
      | none => rfl
      | some w =>
        have hw' := (h'.of_walk (by simp [path]) hw).1
        exact absurd ((h.absent a hmid ha').symm.trans hw') (by simp)
  · rw [h'.other p hp fun a ha ha' => hne a ha (by omega),
      h.other p hp fun a ha ha' => hne a (by omega) ha']
  · rw [hlog', hlog, List.map_append, List.append_assoc]
  · -- No frame is that of an upper and of a lower page.
    refine List.nodup_append.mpr ⟨hnodup', hnodup, fun f hf g hg hfg => ?_⟩
    subst hfg
    obtain ⟨a, es, ha, ha', hwa⟩ := (hfs' f).mp hf
    obtain ⟨b, es', hb, hb', hwb⟩ := (hfs f).mp hg
    have hpath : path a = path b :=
      hleaves _ _ _ _ rfl rfl (hlower a _ ha ha' hwa) hwb rfl
    rw [hpath, h.absent b hb hb'] at hwa
    exact absurd hwa (by simp)
  · rw [List.mem_append, hfs', hfs]
    constructor
    · rintro (⟨a, es, ha, ha', hw⟩ | ⟨a, es, ha, ha', hw⟩)
      · exact ⟨a, es, ha, by omega, hlower a _ ha ha' hw⟩
      · exact ⟨a, es, by omega, ha', hw⟩
    · rintro ⟨a, es, ha, ha', hw⟩
      by_cases hup : ∃ b, mid ≤ b ∧ b < hi ∧ path a = path b
      · obtain ⟨b, hb, hb', hab⟩ := hup
        exact Or.inr ⟨b, es, hb, hb', hab ▸ hw⟩
      · have hout : ∀ b, mid ≤ b → b < hi → path a ≠ path b := fun b hb hb' hab =>
          hup ⟨b, hb, hb', hab⟩
        rcases Nat.lt_or_ge a mid with hmid | hmid
        · exact Or.inl ⟨a, es, ha, hmid, (h.other _ (by simp [path]) hout).trans hw⟩
        · exact absurd rfl (hout a hmid ha')

end Unmapped

/-- One page in the loop of `SYSCALL_SHRINK`. -/
theorem shrinkPage_unmapped (htree : Memory.TreeShaped k.mem k.pgd)
    (hdvd : 4096 ∣ (k.mms seg).nextFree) (hlow : 4096 ≤ (k.mms seg).nextFree)
    (hhigh : (k.mms seg).nextFree ≤ 2^48) :
    Unmapped k (k.shrinkPage seg) ((k.mms seg).nextFree - 4096) (k.mms seg).nextFree := by
  have hnext : ((k.mms seg).nextFree + 2^64 - 4096) % 2^64 = (k.mms seg).nextFree - 4096 := by
    omega
  have hpage : k.shrinkPage seg =
      (k.setNextFree seg ((k.mms seg).nextFree - 4096)).unmapPage
        ((k.mms seg).nextFree - 4096) := by
    rw [Kernel.shrinkPage, hnext]
    simp [Kernel.setNextFree]
  -- The new `next_free` shows at no walk.
  have h := unmapPage_unmapped (k := k.setNextFree seg ((k.mms seg).nextFree - 4096)) htree
    ((k.mms seg).nextFree - 4096) (by omega) (by omega)
  rw [Nat.sub_add_cancel hlow, ← hpage] at h
  exact ⟨h.absent, h.other, h.frees⟩

/-- The loop of `SYSCALL_SHRINK`. -/
theorem shrinkPages_unmapped (htree : Memory.TreeShaped k.mem k.pgd)
    (hleaves : Memory.LeavesDistinct k.mem k.pgd) (hdvd : 4096 ∣ (k.mms seg).nextFree)
    (hhigh : (k.mms seg).nextFree ≤ 2^48) {n : ℕ} (hn : n * 4096 ≤ (k.mms seg).nextFree) :
    Unmapped k ((fun k : Kernel => k.shrinkPage seg)^[n] k) ((k.mms seg).nextFree - n * 4096)
      (k.mms seg).nextFree := by
  induction n with
  | zero =>
    rw [Nat.zero_mul, Nat.sub_zero]
    exact Unmapped.refl k _
  | succ n ih =>
    have hle : n * 4096 ≤ (k.mms seg).nextFree :=
      le_trans (Nat.mul_le_mul_right 4096 (Nat.le_succ n)) hn
    have h := ih hle
    rw [Function.iterate_succ_apply']
    have hmms := shrinkPage_iterate (by omega : (k.mms seg).nextFree < 2^64) n
    generalize (fun k : Kernel => k.shrinkPage seg)^[n] k = k' at h hmms ⊢
    have hnext : (k'.mms seg).nextFree = (k.mms seg).nextFree - n * 4096 := by
      rw [hmms, Function.update_self]
      dsimp only
      omega
    have hstep := shrinkPage_unmapped (h.treeShaped htree) (by omega : 4096 ∣ (k'.mms seg).nextFree)
      (by omega) (by omega)
    rw [hnext] at hstep
    have hlo : (k.mms seg).nextFree - n * 4096 - 4096 =
        (k.mms seg).nextFree - (n + 1) * 4096 := by omega
    rw [hlo] at hstep
    exact h.trans hstep hleaves (by omega) (by omega)

/-! ## The system call -/

/-- A `SYSCALL_SHRINK` whose check passes moves `next_free` of the segment that it selects down by
its size and unmaps exactly the pages between: they are not present, every other page is translated
as before, and the frames of those that were present are freed, each of them once. -/
theorem shrink_unmaps (M : MapFlags) (k : Kernel) (size : ℕ) (flags : ℤ) (seg : Seg)
    (hsel : selected M flags = some seg) (htree : Memory.TreeShaped k.mem k.pgd)
    (hleaves : Memory.LeavesDistinct k.mem k.pgd) (hdvd : 4096 ∣ (k.mms seg).nextFree)
    (hlow : 2^32 ≤ (k.mms seg).nextFree) (hhigh : (k.mms seg).nextFree ≤ 2^48)
    (hsize : size < 2^20)
    (hpass : ¬((k.mms seg).nextFree + 2^64 - size * 4096 % 2^32) % 2^64 < (k.mms seg).start) :
    (k.shrink M size flags).1 = (k.mms seg).nextFree - size * 4096 ∧
      (k.shrink M size flags).2.mms = Function.update k.mms seg
        { k.mms seg with nextFree := (k.mms seg).nextFree - size * 4096 } ∧
      Unmapped k (k.shrink M size flags).2 ((k.mms seg).nextFree - size * 4096)
        (k.mms seg).nextFree := by
  obtain ⟨hret, hmms⟩ := shrinkSegment_pass (by omega) hpass
  have hnext : ((k.mms seg).nextFree + size * (2^64 - 4096)) % 2^64 =
      (k.mms seg).nextFree - size * 4096 := by omega
  rw [hnext] at hret hmms
  rw [shrink_of_selected k size hsel]
  refine ⟨hret, hmms, ?_⟩
  have hloop : (k.shrinkSegment seg size).2 = (fun k : Kernel => k.shrinkPage seg)^[size] k :=
    congrArg Prod.snd (if_neg hpass)
  rw [hloop]
  exact shrinkPages_unmapped htree hleaves hdvd hhigh (by omega)

/-- In every state of a run no frame is that of two pages. -/
theorem TreeInv.leavesDistinct {A : Finset ℕ} (h : TreeInv A k) :
    Memory.LeavesDistinct k.mem k.pgd := by
  intro p q v w hp hq hv hw hvw
  have hnode : ∀ {p : List (Fin 512)} {v : ℕ × List ℕ}, p.length = 4 → k.walk p = some v →
      k.nodes p = some v.1 := fun hp hv => by rw [← walk_fst k hp.le, hv, Option.map_some]
  exact h.accounts.inj p q w.1 (hvw ▸ hnode hp hv) (hnode hq hw)

/-- The data segment shrinks by its two pages, of which the first one is mapped. -/
theorem shrink_unmaps_onePage :
    (onePage.shrink mapFlags 2 1).1 = 0x180000000 ∧
      (onePage.shrink mapFlags 2 1).2.mms = Function.update onePage.mms .data
        { onePage.mms .data with nextFree := 0x180000000 } ∧
      Unmapped onePage (onePage.shrink mapFlags 2 1).2 0x180000000 0x180002000 := by
  have hinv : TreeInv {1} onePage :=
    (mapPage_spec startTree_twoPages.treeInv (by decide) (by decide) ⟨10, 11, 12, 13⟩
      (by decide)).inv
  exact shrink_unmaps mapFlags onePage 2 1 .data rfl hinv.treeShaped hinv.leavesDistinct
    (by decide) (by decide) (by decide) (by decide) (by decide)

end GemOS.Paging
