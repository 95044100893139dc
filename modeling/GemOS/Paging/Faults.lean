import GemOS.Paging.Frames
import GemOS.Paging.Walk

/-!
# What a page fault adds

`page_fault_adds`: a page fault that `handle_page_fault` admits makes one page present, and changes
no other page. The three copies of the walk differ in the flags of the entries that they make.
-/

namespace GemOS.Paging

variable {k k' : Kernel} {fault error flags address frame pfn : ℕ} {fresh : Fresh}
  {seg : Seg} {i : Fin 512} {region : Region} {es : List ℕ}

namespace Kernel

/-- The walk of a path from the top table of the current context. -/
def walk (k : Kernel) (p : List (Fin 512)) : Option (ℕ × List ℕ) := Memory.walk k.mem k.pgd p

/-- All entries carry the user bit. -/
def UserEntries (k : Kernel) : Prop := ∀ p w, p.length ≤ 4 → k.walk p = some w →
    ∀ e ∈ w.2, userBit e = true

/-- An address is in a segment, up to its last address. -/
def InSegment (k : Kernel) (seg : Seg) (fault : ℕ) : Prop :=
  (k.mms seg).start ≤ fault ∧ fault ≤ (k.mms seg).last

/-- The faults that are admitted for each segment: `DATA` at or below `next_free`, `RODATA` for a
read at or below `next_free`, and `STACK`, in this order when the segments overlap. -/
def FaultIn (k : Kernel) (fault error : ℕ) : Seg → Prop
  | .data => k.InSegment .data fault ∧ fault ≤ (k.mms .data).nextFree
  | .rodata => ¬k.InSegment .data fault ∧ k.InSegment .rodata fault ∧
      fault ≤ (k.mms .rodata).nextFree ∧ (error >>> 1) &&& 1 = 0
  | .stack => ¬k.InSegment .data fault ∧ ¬k.InSegment .rodata fault ∧ k.InSegment .stack fault

end Kernel

/-- The flags of the entries that are made for a page of a segment. -/
def segFlags : Seg → ℕ
  | .data => rwFlags
  | .rodata => roFlags
  | .stack => rwFlags

/-- The frames that `os_pfn_alloc` returns are different, below `2^20`, and no tables. -/
structure Fresh.Ok (fresh : Fresh) (k : Kernel) : Prop where
  /-- They are different. -/
  nodup : fresh.frames.Nodup
  /-- They are not those of tables. -/
  notTable : ∀ g ∈ fresh.frames, Memory.NotTable k.mem k.pgd g
  /-- They are below `2^20`. -/
  lt : ∀ g ∈ fresh.frames, g < 2^20

/-- What an admitted page fault does. -/
structure PageAdded (k k' : Kernel) (seg : Seg) (fault : ℕ) : Prop where
  /-- The page is present, and the user may read it. -/
  page : ∃ w, k'.walk (path fault) = some w ∧ ∀ e ∈ w.2, userBit e = true
  /-- An entry on the way that is new, of a table or of the page, is writable unless the segment is
  `RODATA`. -/
  created : ∀ p i, p ++ [i] <+: path fault → k.walk (p ++ [i]) = none →
    ∃ pfn es e, k'.walk (p ++ [i]) = some (pfn, es ++ [e]) ∧ writeBit e = decide (seg ≠ .rodata)
  /-- The frame and the entries of every other page are as they were. -/
  other : ∀ p, p.length = 4 → p ≠ path fault → k'.walk p = k.walk p
  /-- When the page was present, nothing changes. -/
  mapped : ∀ w, k.walk (path fault) = some w → k' = k

/-! ## Walks and nodes -/

/-- A walk ends at a node of the page table. -/
theorem walk_fst (k : Kernel) {p : List (Fin 512)} (hp : p.length ≤ 4) :
    (k.walk p).map Prod.fst = k.nodes p := by
  rw [Kernel.nodes, Radix.nodes_of_le hp]
  refine Radix.node_map Prod.fst (fun w i => ?_) p
  unfold Memory.edge Kernel.child
  split_ifs <;> rfl

/-- In every state of a run the tables are a tree. -/
theorem TreeInv.treeShaped {A : Finset ℕ} (h : TreeInv A k) : Memory.TreeShaped k.mem k.pgd := by
  intro p q v w hp hq hv hw hvw
  have hnode : ∀ {p : List (Fin 512)} {v : ℕ × List ℕ}, p.length < 4 → k.walk p = some v →
      k.nodes p = some v.1 := fun hp hv => by rw [← walk_fst k hp.le, hv, Option.map_some]
  exact h.accounts.inj p q w.1 (hvw ▸ hnode hp hv) (hnode hq hw)

/-! ## The four levels -/

theorem ensureEntry_fst (k : Kernel) (region : Region) (flags frame : ℕ) (i : Fin 512) (pfn : ℕ) :
    (k.ensureEntry region flags frame i pfn).1 = Memory.next k.mem frame i pfn :=
  k.toPageTables.ensureEntry_fst region flags frame i pfn

theorem ensureEntry_mem (k : Kernel) (region : Region) (flags frame : ℕ) (i : Fin 512) (pfn : ℕ) :
    (k.ensureEntry region flags frame i pfn).2.mem = Memory.fill k.mem region flags frame i pfn :=
  k.toPageTables.ensureEntry_mem region flags frame i pfn

theorem ensureEntry_pgd (k : Kernel) (region : Region) (flags frame : ℕ) (i : Fin 512) (pfn : ℕ) :
    (k.ensureEntry region flags frame i pfn).2.pgd = k.pgd := rfl

/-- The entries on the path to the page are filled up. -/
theorem mapPage_mem (k : Kernel) (flags address : ℕ) (fresh : Fresh) :
    (k.mapPage flags address fresh).mem =
      Memory.fillPath flags k.mem k.pgd (path address) fresh.frames := by
  simp only [Kernel.mapPage, path, Fresh.frames, Memory.fillPath, ensureEntry_mem, ensureEntry_fst,
    reduceIte, reduceCtorEq]

theorem mapPage_pgd (k : Kernel) (flags address : ℕ) (fresh : Fresh) :
    (k.mapPage flags address fresh).pgd = k.pgd := by
  simp only [Kernel.mapPage, ensureEntry_pgd]

theorem ensureEntry_present (h : present (k.mem frame i) = true) :
    k.ensureEntry region flags frame i pfn = (entryPfn (k.mem frame i), k) := by
  rw [k.ensureEntry_eq, if_pos h]

/-- When the page is present, nothing is stored or allocated. -/
theorem mapPage_present {w : ℕ × List ℕ} (h : k.walk (path address) = some w) :
    k.mapPage flags address fresh = k := by
  obtain ⟨h₄, h⟩ := Memory.node_edge_some h
  obtain ⟨h₃, h⟩ := Memory.node_edge_some h
  obtain ⟨h₂, h⟩ := Memory.node_edge_some h
  obtain ⟨h₁, -⟩ := Memory.node_edge_some h
  simp only [Kernel.mapPage, ensureEntry_present h₄, ensureEntry_present h₃, ensureEntry_present h₂,
    ensureEntry_present h₁]

/-! ## Admitted faults -/

/-- An admitted fault fills up the entries with the flags of the segment. -/
theorem handlePageFault_of_faultIn (herror : error &&& 1 = 0) (h : k.FaultIn fault error seg)
    (fresh : Fresh) :
    k.handlePageFault fault error fresh = (.resumes, k.mapPage (segFlags seg) fault fresh) := by
  unfold Kernel.handlePageFault
  dsimp only
  rw [if_neg (not_not.mpr herror)]
  cases seg with
  | data => rw [if_pos h.1.symm, if_neg (not_lt.mpr h.2), segFlags]
  | rodata =>
    obtain ⟨hdata, hseg, hnext, hread⟩ := h
    rw [if_neg fun h => hdata h.symm, if_pos hseg.symm, if_neg (not_lt.mpr hnext), hread,
      if_neg (by decide), segFlags]
  | stack =>
    obtain ⟨hdata, hrodata, hseg⟩ := h
    rw [if_neg fun h => hdata h.symm, if_neg fun h => hrodata h.symm, if_pos hseg.symm, segFlags]

/-- The faults that are admitted. -/
theorem handlePageFault_resumes (h : (k.handlePageFault fault error fresh).1 = .resumes) :
    error &&& 1 = 0 ∧ ∃ seg, k.FaultIn fault error seg := by
  unfold Kernel.handlePageFault at h
  dsimp only at h
  split_ifs at h with herror hdata hnext hrodata hnext hwrite hstack
  · exact ⟨not_not.mp herror, .data, hdata.symm, not_lt.mp hnext⟩
  · refine ⟨not_not.mp herror, .rodata, fun h => hdata h.symm, hrodata.symm, not_lt.mp hnext, ?_⟩
    rw [Nat.and_assoc] at hwrite
    exact not_not.mp hwrite
  · exact ⟨not_not.mp herror, .stack, fun h => hdata h.symm, fun h => hrodata h.symm, hstack.symm⟩

theorem segFlags_ok (seg : Seg) : (segFlags seg).testBit 0 = true ∧ segFlags seg < 2^12 ∧
    userBit (segFlags seg) = true ∧ writeBit (segFlags seg) = decide (seg ≠ .rodata) := by
  cases seg <;> decide

/-- Filling up the entries on the way to a page adds this page. -/
theorem mapPage_pageAdded (htree : Memory.TreeShaped k.mem k.pgd) (huser : k.UserEntries)
    (hfresh : fresh.Ok k)
    (seg : Seg) (fault : ℕ) : PageAdded k (k.mapPage (segFlags seg) fault fresh) seg fault := by
  obtain ⟨hpresent, hlt, hu, hw⟩ := segFlags_ok seg
  have hfilled := Memory.walk_fillPath (p := path fault) ⟨htree, hfresh.nodup,
    hfresh.notTable, hfresh.lt⟩ (Memory.walk_nil k.mem k.pgd) rfl rfl hpresent hlt
  have hwalk : ∀ p, (k.mapPage (segFlags seg) fault fresh).walk p =
      Memory.walk (Memory.fillPath (segFlags seg) k.mem k.pgd (path fault) fresh.frames) k.pgd p :=
    fun p => by rw [Kernel.walk, mapPage_mem, mapPage_pgd]
  refine ⟨?_, fun p i hp hnone => ?_, fun p hp hne => ?_, fun w hw => mapPage_present hw⟩
  · obtain ⟨w, hpage⟩ := hfilled.present (List.prefix_refl _)
    refine ⟨w, (hwalk _).trans hpage, hfilled.forall_entry (fun q v hq hv =>
      huser q v hq.length_le hv) (fun r i _ _ => ?_) (List.prefix_refl _) hpage⟩
    rw [userBit, testBit_mkEntry _ _ (by decide)]
    exact hu
  · obtain ⟨v, -, hentry⟩ := hfilled.created hp hnone
    refine ⟨_, _, _, (hwalk _).trans hentry, ?_⟩
    rw [writeBit, testBit_mkEntry _ _ (by decide)]
    exact hw
  · rw [hwalk, hfilled.other p hp.le fun r hr _ heq => hne ?_]
    · rfl
    · rw [heq, List.nil_append]
      exact hr.eq_of_length (by rw [← List.nil_append r, ← heq, hp]; rfl)

/-- A page fault that is admitted is one of `DATA` or `RODATA` at or below `next_free`, for `RODATA`
a read, or of `STACK`. After it the page is present and the user may read it; the entries that are
new on the way are writable, but not for `RODATA`; every other page is as it was; and when the page
was present, nothing changed. -/
theorem page_fault_adds (k : Kernel) (htree : Memory.TreeShaped k.mem k.pgd) (huser : k.UserEntries)
    (fault error : ℕ) (fresh : Fresh) (hfresh : fresh.Ok k) :
    ((k.handlePageFault fault error fresh).1 = .resumes ↔
      error &&& 1 = 0 ∧ ∃ seg, k.FaultIn fault error seg) ∧
    ∀ seg, error &&& 1 = 0 → k.FaultIn fault error seg →
      PageAdded k (k.handlePageFault fault error fresh).2 seg fault := by
  refine ⟨⟨handlePageFault_resumes, fun ⟨herror, seg, hseg⟩ => ?_⟩, fun seg herror hseg => ?_⟩
  · rw [handlePageFault_of_faultIn herror hseg]
  · rw [handlePageFault_of_faultIn herror hseg]
    exact mapPage_pageAdded htree huser hfresh seg fault

theorem walk_twoPages {p : List (Fin 512)} {w : ℕ × List ℕ} (hp : p.length ≤ 4)
    (h : twoPages.walk p = some w) : w = (1, []) := by
  have hnode : twoPages.nodes p = some w.1 := by rw [← walk_fst twoPages hp, h, Option.map_some]
  obtain rfl : p = [] := by
    by_contra hne
    rw [nodes_twoPages hne] at hnode
    exact absurd hnode (by simp)
  exact (Option.some.inj h).symm

/-- A write to the first page of the data segment. -/
theorem page_fault_adds_data :
    PageAdded twoPages (twoPages.handlePageFault 0x180000000 6 ⟨10, 11, 12, 13⟩).2 .data
      0x180000000 := by
  have hframes : ∀ g ∈ Fresh.frames ⟨10, 11, 12, 13⟩, g ≠ 1 ∧ g < 2^20 := by decide
  refine (page_fault_adds twoPages startTree_twoPages.treeInv.treeShaped
    (fun p w hp hw e he => ?_) 0x180000000
    6 ⟨10, 11, 12, 13⟩ ⟨by decide, fun g hg p w hp hw => ?_, fun g hg => (hframes g hg).2⟩).2
      .data (by decide)
    ⟨⟨by decide, by decide⟩, by decide⟩
  · rw [walk_twoPages hp hw] at he
    simp at he
  · rw [walk_twoPages hp.le hw]
    exact (hframes g hg).1.symm

end GemOS.Paging
