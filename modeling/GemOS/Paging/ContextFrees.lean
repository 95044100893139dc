import GemOS.Paging.ContextMaps

/-!
# What `cleanup_context_mm` frees

Each pass of `cleanup_context_mm` frees the nodes on its path, but the pass over the code leaves out
the table of level 3. A table that is on several paths is freed by each of their passes.
`cleanup_undoes_iff` says for which layouts every frame is freed exactly once; the one of
`context.h` is not among them.
-/

namespace GemOS.Paging

open Ledger

/-- The nodes that a pass frees, the last one first. -/
def freedNodes (freesL3 : Bool) (p : List (Fin 512)) : List (List (Fin 512)) :=
  [p, p.take 3, p.take 2] ++ if freesL3 then [p.take 1] else []

/-- `os_pfn_free` was called exactly once for each frame that was allocated, and for `argPfn`, and
for no other frame. The frame `pgd` is left to the caller. -/
def Undone (pgd argPfn : ℕ) (allocs frees : List (Region × Event ℕ)) : Prop :=
  ∀ region a, a ≠ pgd → frees.count (region, .free a) =
    if (region, .alloc a) ∈ allocs ∨ region = .userReg ∧ a = argPfn then 1 else 0

namespace Machine

variable {m m' : Machine} {f : ContextFrames} {address : ℕ} {w : ℕ × List ℕ} {q : List (Fin 512)}

/-- The frame at the end of a path. -/
def frameAt (m : Machine) (q : List (Fin 512)) : ℕ := ((m.walk q).map Prod.fst).getD 0

/-- The free of the frame at the end of a path. -/
def freeOf (m : Machine) (q : List (Fin 512)) : Region × Event ℕ :=
  (nodeRegion q, .free (m.frameAt q))

/-- A pass over a page that is present frees the nodes on the way. -/
theorem cleanupSegment_spec (freesL3 : Bool) (v : Locals) (h : m.walk (path address) = some w) :
    ∃ v', m.cleanupSegment freesL3 address v =
      some (v', { m with log := (freedNodes freesL3 (path address)).map m.freeOf ++ m.log }) := by
  obtain ⟨h₄, h⟩ := Memory.node_edge_some h
  obtain ⟨h₃, h⟩ := Memory.node_edge_some h
  obtain ⟨h₂, h⟩ := Memory.node_edge_some h
  obtain ⟨h₁, -⟩ := Memory.node_edge_some h
  dsimp only at h₄ h₃ h₂ h₁
  have hlog : (freedNodes freesL3 (path address)).map m.freeOf =
      [(.userReg, .free (m.frameAt (path address))),
        (.osPtReg, .free (m.frameAt ((path address).take 3))),
        (.osPtReg, .free (m.frameAt ((path address).take 2)))] ++
        if freesL3 then [(.osPtReg, .free (m.frameAt ((path address).take 1)))] else [] := by
    cases freesL3 <;> rfl
  rw [hlog]
  simp only [frameAt, walk, Memory.walk, path, List.take, Radix.node, Memory.edge, h₄, h₃,
    h₂, h₁, if_true, Option.bind_some, Option.map_some, Option.getD_some]
  -- The frames on the way.
  generalize hpfnL3 : entryPfn (m.mem m.ctx.pgd (tableOffset address 0x027)) = pfnL3 at h₃ h₂ h₁ ⊢
  generalize hpfnL2 : entryPfn (m.mem pfnL3 (tableOffset address 0x01E)) = pfnL2 at h₂ h₁ ⊢
  generalize hpfnL1 : entryPfn (m.mem pfnL2 (tableOffset address 0x015)) = pfnL1 at h₁ ⊢
  generalize hdataPfn : entryPfn (m.mem pfnL1 (tableOffset address 0x00C)) = dataPfn
  refine ⟨⟨some pfnL3, some pfnL2, some pfnL1, some dataPfn⟩, ?_⟩
  unfold cleanupSegment
  cases freesL3 <;>
    simp [osPfnFree, PageTables.osPfnFree, h₄, h₃, h₂, h₁, hpfnL3, hpfnL2, hpfnL1, hdataPfn]

/-- The nodes that the three passes free, the last one first. -/
def cleanupNodes (ctx : ExecContext) : List (List (Fin 512)) :=
  freedNodes true ctx.dataPath ++ (freedNodes false ctx.codePath ++ freedNodes true ctx.stackPath)

/-- When the three pages are present, the nodes on their paths are freed. -/
theorem cleanup_spec {w w' w'' : ℕ × List ℕ} (hs : m.walk m.ctx.stackPath = some w)
    (hc : m.walk m.ctx.codePath = some w') (hd : m.walk m.ctx.dataPath = some w'') :
    m.cleanupContextMm = some { m with log := (cleanupNodes m.ctx).map m.freeOf ++ m.log } := by
  obtain ⟨v₁, h₁⟩ := cleanupSegment_spec true ⟨none, none, none, none⟩ hs
  -- The frees change no table.
  let m₁ : Machine := { m with log := (freedNodes true m.ctx.stackPath).map m.freeOf ++ m.log }
  obtain ⟨v₂, h₂⟩ := cleanupSegment_spec (m := m₁) false v₁ hc
  let m₂ : Machine := { m₁ with log := (freedNodes false m.ctx.codePath).map m.freeOf ++ m₁.log }
  obtain ⟨v₃, h₃⟩ := cleanupSegment_spec (m := m₂) true v₂ hd
  unfold cleanupContextMm
  simp only [Option.bind_eq_bind]
  rw [show m.cleanupSegment true m.ctx.stackVA ⟨none, none, none, none⟩ = some (v₁, m₁) from h₁,
    Option.bind_some]
  dsimp only
  rw [show m₁.cleanupSegment false m₁.ctx.codeStart v₁ = some (v₂, m₂) from h₂, Option.bind_some]
  dsimp only
  rw [show m₂.cleanupSegment true m₂.ctx.dataStart v₂ = some (v₃, _) from h₃, Option.bind_some]
  simp only [cleanupNodes, List.map_append, List.append_assoc]
  rfl

end Machine

/-! ## Counting -/

/-- A pass frees each node on its path once. -/
theorem count_freedNodes (freesL3 : Bool) {p q : List (Fin 512)} (hp : p.length = 4) (hq : q ≠ []) :
    (freedNodes freesL3 p).count q =
      if q <+: p ∧ (freesL3 = true ∨ 2 ≤ q.length) then 1 else 0 := by
  have htake : ∀ n, n ≤ 4 → (p.take n = q ↔ q <+: p ∧ q.length = n) := fun n hn => by
    constructor
    · rintro rfl
      exact ⟨List.take_prefix n p, by rw [List.length_take]; omega⟩
    · rintro ⟨h, rfl⟩
      exact (List.prefix_iff_eq_take.mp h).symm
  have hself : p = q ↔ q <+: p ∧ q.length = 4 := by
    rw [← htake 4 le_rfl, List.take_of_length_le hp.le]
  have hpos := List.length_pos_of_ne_nil hq
  by_cases hpre : q <+: p
  · have hle : q.length ≤ 4 := hp ▸ hpre.length_le
    cases freesL3 <;> simp [freedNodes, List.count_cons, htake, hself, hpre] <;> split_ifs <;> omega
  · cases freesL3 <;> simp [freedNodes, htake, hself, hpre]

namespace Passes

variable {P : Passes} {q r : List (Fin 512)}

/-- The place of the frame of a node among all frames. -/
def index (P : Passes) (q : List (Fin 512)) : ℕ :=
  (if q <+: P.s then 0 else if q <+: P.c then 4 else 8) + (q.length - 1)

/-- All frames. -/
def frames (P : Passes) : List ℕ := P.gs ++ (P.gc ++ P.gd)

/-- Each segment has a frame for each level. -/
def Full (P : Passes) : Prop := P.gs.length = 4 ∧ P.gc.length = 4 ∧ P.gd.length = 4

theorem frame_eq_getD (hP : P.Full) (hq : P.Node q) :
    P.index q < P.frames.length ∧ P.frame q = P.frames.getD (P.index q) 0 := by
  obtain ⟨hgs, hgc, hgd⟩ := hP
  have hle := hq.length_le
  unfold frames index frame
  simp only [List.length_append, hgs, hgc, hgd]
  split_ifs with hs hc
  · rw [List.getD_append _ _ _ _ (by omega), Nat.zero_add]
    exact ⟨by omega, rfl⟩
  · rw [List.getD_append_right _ _ _ _ (by omega), List.getD_append _ _ _ _ (by omega), hgs,
      Nat.add_sub_cancel_left]
    exact ⟨by omega, rfl⟩
  · rw [List.getD_append_right _ _ _ _ (by omega), List.getD_append_right _ _ _ _
      (by omega), hgs, hgc, show 8 + (q.length - 1) - 4 - 4 = q.length - 1 by omega]
    exact ⟨by omega, rfl⟩

/-- No two nodes have the same frame. -/
theorem frame_inj (hP : P.Full) (hnodup : P.frames.Nodup) (hq : P.Node q) (hr : P.Node r)
    (h : P.frame q = P.frame r) : q = r := by
  obtain ⟨hqlt, hqf⟩ := frame_eq_getD hP hq
  obtain ⟨hrlt, hrf⟩ := frame_eq_getD hP hr
  have hindex : P.index q = P.index r := by
    rw [hqf, hrf, List.getD_eq_getElem _ _ hqlt, List.getD_eq_getElem _ _ hrlt] at h
    exact (hnodup.getElem_inj_iff).mp h
  have hqle := hq.length_le
  have hrle := hr.length_le
  have hqpos := List.length_pos_of_ne_nil hq.1
  have hrpos := List.length_pos_of_ne_nil hr.1
  -- Both are on the path of the same segment, at the same level.
  have hsame : ∀ {p : List (Fin 512)}, q <+: p → r <+: p → q.length = r.length → q = r :=
    fun hqp hrp hlen => (List.prefix_of_prefix_length_le hqp hrp hlen.le).eq_of_length hlen
  unfold index at hindex
  split_ifs at hindex with hqs hrs hrc hqc hrs hrc hrs hrc
  · exact hsame hqs hrs (by omega)
  · omega
  · omega
  · omega
  · exact hsame hqc hrc (by omega)
  · omega
  · omega
  · omega
  · exact hsame ((hq.2.resolve_left hqs).resolve_left hqc)
      ((hr.2.resolve_left hrs).resolve_left hrc) (by omega)

end Passes

namespace Machine

variable {m : Machine} {f : ContextFrames} {q : List (Fin 512)}

/-- The layouts in which every node is freed once. Stack and data are in different 512 GiB slots,
one of which is that of the code, and the code is in a 1 GiB slot of its own. -/
def FreedOnce (ctx : ExecContext) : Prop :=
  topSlot ctx.stackVA ≠ topSlot ctx.dataStart ∧
    (topSlot ctx.codeStart = topSlot ctx.stackVA ∨ topSlot ctx.codeStart = topSlot ctx.dataStart) ∧
    gibSlot ctx.codeStart ≠ gibSlot ctx.stackVA ∧ gibSlot ctx.codeStart ≠ gibSlot ctx.dataStart

instance (ctx : ExecContext) : Decidable (FreedOnce ctx) := inferInstanceAs (Decidable (_ ∧ _))

/-- How often a node is freed. -/
theorem count_cleanupNodes (ctx : ExecContext) (hq : q ≠ []) : (cleanupNodes ctx).count q =
    (if q <+: ctx.dataPath then 1 else 0) + ((if q <+: ctx.codePath ∧ 2 ≤ q.length then 1 else 0) +
      if q <+: ctx.stackPath then 1 else 0) := by
  have hs : ctx.stackPath.length = 4 := path_length _
  have hc : ctx.codePath.length = 4 := path_length _
  have hd : ctx.dataPath.length = 4 := path_length _
  rw [cleanupNodes, List.count_append, List.count_append, count_freedNodes _ hd hq,
    count_freedNodes _ hc hq, count_freedNodes _ hs hq]
  simp

/-- Every node is freed once in these layouts, and in no other. -/
theorem count_iff_freedOnce (ctx : ExecContext) :
    (∀ q, q ≠ [] → (q <+: ctx.stackPath ∨ q <+: ctx.codePath ∨ q <+: ctx.dataPath) →
      (cleanupNodes ctx).count q = 1) ↔ FreedOnce ctx := by
  constructor
  · intro h
    have hgib : gibSlot ctx.codeStart ≠ [] := by simp [gibSlot, path]
    have hs := h [topSlot ctx.stackVA] (by simp) (Or.inl (singleton_path_iff.mpr rfl))
    have hc := h [topSlot ctx.codeStart] (by simp) (Or.inr (Or.inl (singleton_path_iff.mpr rfl)))
    have hg := h (gibSlot ctx.codeStart) hgib (Or.inr (Or.inl (gibSlot_path_iff.mpr rfl)))
    have hlen : (gibSlot ctx.codeStart).length = 2 := rfl
    rw [count_cleanupNodes ctx (by simp)] at hs hc
    rw [count_cleanupNodes ctx hgib, hlen] at hg
    simp only [ExecContext.stackPath, ExecContext.codePath, ExecContext.dataPath,
      singleton_path_iff, gibSlot_path_iff, List.length_singleton, and_true, le_refl,
      if_true] at hs hc hg
    refine ⟨fun heq => ?_, ?_, fun heq => ?_, fun heq => ?_⟩
    · rw [if_pos heq] at hs
      simp at hs
    · by_contra hne
      rw [not_or] at hne
      rw [if_neg hne.1, if_neg hne.2] at hc
      simp at hc
    · rw [if_pos heq] at hg
      omega
    · rw [if_pos heq] at hg
      omega
  · rintro ⟨hsd, hc, hcs, hcd⟩ q hq hnode
    rw [count_cleanupNodes ctx hq]
    have hnot_sd : q <+: ctx.stackPath → ¬q <+: ctx.dataPath :=
      fun hs hd => hsd (topSlot_eq hq hs hd)
    have hnot_sc : 2 ≤ q.length → q <+: ctx.codePath → ¬q <+: ctx.stackPath :=
      fun hlen hc hs => hcs (gibSlot_eq hlen hc hs)
    have hnot_dc : 2 ≤ q.length → q <+: ctx.codePath → ¬q <+: ctx.dataPath :=
      fun hlen hc hd => hcd (gibSlot_eq hlen hc hd)
    -- The table of level 3 of the code is that of the stack or of the data.
    have htop : q.length < 2 → q <+: ctx.codePath → q <+: ctx.stackPath ∨ q <+: ctx.dataPath := by
      intro hlen hqc
      obtain ⟨x, rfl⟩ : ∃ x, q = [x] := List.length_eq_one_iff.mp (by
        have := List.length_pos_of_ne_nil hq
        omega)
      rw [singleton_path_iff.mp hqc]
      exact hc.imp singleton_path_iff.mpr singleton_path_iff.mpr
    by_cases hd : q <+: ctx.dataPath
    · have hcode : ¬(q <+: ctx.codePath ∧ 2 ≤ q.length) := fun h => hnot_dc h.2 h.1 hd
      rw [if_pos hd, if_neg hcode, if_neg fun hs => hnot_sd hs hd]
    · by_cases hs : q <+: ctx.stackPath
      · have hcode : ¬(q <+: ctx.codePath ∧ 2 ≤ q.length) := fun h => hnot_sc h.2 h.1 hs
        rw [if_neg hd, if_neg hcode, if_pos hs]
      · have hqc : q <+: ctx.codePath := (hnode.resolve_left hs).resolve_right hd
        have hlen : 2 ≤ q.length := by
          by_contra hlt
          exact (htop (by omega) hqc).elim hs hd
        rw [if_neg hd, if_pos ⟨hqc, hlen⟩, if_neg hs]

variable (hf : f.Ok m.ctx.argPfn)

include hf

theorem passes_full : (m.passes f hf).Full := ⟨rfl, rfl, rfl⟩

theorem passes_nodup : (m.passes f hf).frames.Nodup := by
  have h := (List.nodup_cons.mp hf.nodup).2
  rwa [List.append_assoc] at h

/-- The frames of nodes are not that of the top table. -/
theorem frame_ne_pgd (hq : (m.passes f hf).Node q) : (m.passes f hf).frame q ≠ f.pgd := by
  obtain ⟨hlt, hframe⟩ := Passes.frame_eq_getD (passes_full hf) hq
  have hmem := getD_mem hlt
  rw [← hframe] at hmem
  intro heq
  rw [heq] at hmem
  refine (List.nodup_cons.mp hf.nodup).1 ?_
  rw [List.append_assoc]
  exact hmem

/-- The frees of the nodes that `cleanup_context_mm` frees undo the allocations if every node is
freed once, and only then. -/
theorem undone_iff (hctx : (m.prepareContextMm f).ctx = { m.ctx with pgd := f.pgd })
    {l : List (Region × ℕ)}
    (hcreated : m.created f = l ++ [(.userReg, m.ctx.argPfn)]) {L : List (List (Fin 512))}
    (hL : ∀ q ∈ L, (m.passes f hf).Node q) :
    Undone f.pgd m.ctx.argPfn (allocs l ++ [(.osPtReg, .alloc f.pgd)])
        (L.map (m.prepareContextMm f).freeOf) ↔
      ∀ q, (m.passes f hf).Node q → L.count q = 1 := by
  have hfree : ∀ q, (m.passes f hf).Node q →
      (m.prepareContextMm f).freeOf q =
        (nodeRegion q, .free ((m.passes f hf).frame q)) := fun q hq => by
    obtain ⟨es, hes⟩ := Passes.walk_node hq
    rw [freeOf, frameAt, walk_prepare hctx hf, hes]
    rfl
  have hdue : ∀ region a, a ≠ f.pgd →
      ((region, .alloc a) ∈ allocs l ++ [(.osPtReg, .alloc f.pgd)] ∨
          region = .userReg ∧ a = m.ctx.argPfn ↔
        ∃ q, (m.passes f hf).Node q ∧ a = (m.passes f hf).frame q ∧ region = nodeRegion q) := by
    intro region a ha
    rw [← mem_created hf, hcreated]
    simp [allocs, ha]
  -- Different nodes have different frames, so that frees are counted node by node.
  have hcount : ∀ q, (m.passes f hf).Node q →
      (L.map (m.prepareContextMm f).freeOf).count ((m.prepareContextMm f).freeOf q) =
        L.count q := by
    intro q hq
    rw [List.count, List.countP_map, List.count]
    refine List.countP_congr fun r hr => ?_
    simp only [Function.comp_apply, beq_iff_eq]
    refine ⟨fun heq => ?_, fun heq => by rw [heq]⟩
    rw [hfree r (hL r hr), hfree q hq, Prod.mk.injEq, Event.free.injEq] at heq
    exact Passes.frame_inj (passes_full hf) (passes_nodup hf) (hL r hr) hq heq.2
  constructor
  · intro h q hq
    rw [← hcount q hq, hfree q hq, h _ _ (frame_ne_pgd hf hq),
      if_pos ((hdue _ _ (frame_ne_pgd hf hq)).mpr ⟨q, hq, rfl, rfl⟩)]
  · intro h region a ha
    split_ifs with hd
    · obtain ⟨q, hq, rfl, rfl⟩ := (hdue region a ha).mp hd
      rw [← hfree q hq, hcount q hq, h q hq]
    · refine List.count_eq_zero.mpr fun hmem => hd ((hdue region a ha).mpr ?_)
      obtain ⟨q, hq, heq⟩ := List.mem_map.mp hmem
      rw [hfree q (hL q hq), Prod.mk.injEq, Event.free.injEq] at heq
      exact ⟨q, hL q hq, heq.2.symm, heq.1.symm⟩

omit hf

theorem mem_cleanupNodes {ctx : ExecContext} (h : q ∈ cleanupNodes ctx) :
    q ≠ [] ∧ (q <+: ctx.stackPath ∨ q <+: ctx.codePath ∨ q <+: ctx.dataPath) := by
  have hfreed : ∀ {freesL3 : Bool} {p : List (Fin 512)}, p.length = 4 → q ∈ freedNodes freesL3 p →
      q ≠ [] ∧ q <+: p := by
    intro freesL3 p hp hq
    have htake : ∀ n, 0 < n → p.take n ≠ [] ∧ p.take n <+: p := fun n hn =>
      ⟨List.ne_nil_of_length_pos (by rw [List.length_take]; omega), List.take_prefix n p⟩
    have hself := htake 4 (by decide)
    rw [List.take_of_length_le hp.le] at hself
    rcases List.mem_append.mp hq with hq | hq
    · simp only [List.mem_cons, List.not_mem_nil, or_false] at hq
      rcases hq with rfl | rfl | rfl
      · exact hself
      · exact htake 3 (by decide)
      · exact htake 2 (by decide)
    · split_ifs at hq
      · rw [List.mem_singleton.mp hq]
        exact htake 1 (by decide)
      · exact absurd hq (by simp)
  rcases List.mem_append.mp h with h | h
  · obtain ⟨hne, hpre⟩ := hfreed (path_length _) h
    exact ⟨hne, Or.inr (Or.inr hpre)⟩
  · rcases List.mem_append.mp h with h | h
    · obtain ⟨hne, hpre⟩ := hfreed (path_length _) h
      exact ⟨hne, Or.inr (Or.inl hpre)⟩
    · obtain ⟨hne, hpre⟩ := hfreed (path_length _) h
      exact ⟨hne, Or.inl hpre⟩

/-- `cleanup_context_mm` after `prepare_context_mm` frees every frame that was allocated and the one
of the data exactly once, and no other, if and only if stack and data are in different 512 GiB
slots, one of which is that of the code, and the code is in a 1 GiB slot of its own. -/
theorem cleanup_undoes_iff (m : Machine) (f : ContextFrames) (hf : f.Ok m.ctx.argPfn)
    (hs : m.ctx.dataPath ≠ m.ctx.stackPath) (hc : m.ctx.dataPath ≠ m.ctx.codePath) :
    ∃ l frees m', (m.prepareContextMm f).log = l ++ m.log ∧
      (m.prepareContextMm f).cleanupContextMm = some m' ∧
      m'.log = frees ++ (m.prepareContextMm f).log ∧
      (Undone f.pgd m.ctx.argPfn l frees ↔ FreedOnce m.ctx) := by
  obtain ⟨hctx, l, hlog, hcreated⟩ := prepare_log hf hs hc
  have hwalk : ∀ q, (m.passes f hf).Node q →
      ∃ w, (m.prepareContextMm f).walk q = some w := fun q hq => by
    obtain ⟨es, hes⟩ := Passes.walk_node hq
    exact ⟨_, (walk_prepare hctx hf q).trans hes⟩
  obtain ⟨ws, hws⟩ := hwalk _ (Passes.Node.of_s (m.passes f hf))
  obtain ⟨wc, hwc⟩ := hwalk _ (Passes.Node.of_c (m.passes f hf))
  obtain ⟨wd, hwd⟩ := hwalk _ (Passes.Node.of_d (m.passes f hf))
  -- The segments of the context stay.
  have hstack : (m.prepareContextMm f).ctx.stackPath = m.ctx.stackPath := by simp only [hctx]; rfl
  have hcode : (m.prepareContextMm f).ctx.codePath = m.ctx.codePath := by simp only [hctx]; rfl
  have hdata : (m.prepareContextMm f).ctx.dataPath = m.ctx.dataPath := by simp only [hctx]; rfl
  have hcleanup := cleanup_spec ((congrArg _ hstack).trans hws) ((congrArg _ hcode).trans hwc)
    ((congrArg _ hdata).trans hwd)
  refine ⟨allocs l ++ [(.osPtReg, .alloc f.pgd)], _, _, ?_, hcleanup, rfl, ?_⟩
  · rw [hlog, List.append_assoc]
    rfl
  · rw [hctx]
    have hL : ∀ q ∈ cleanupNodes m.ctx, (m.passes f hf).Node q := fun q hq => mem_cleanupNodes hq
    refine (undone_iff hf hctx hcreated hL).trans (Iff.trans ?_ (count_iff_freedOnce m.ctx))
    exact ⟨fun h q hq hnode => h q ⟨hq, hnode⟩, fun h q hq => h q hq.1 hq.2⟩

end Machine

/-- With the data in the 512 GiB slot of the code, and the stack in another one. -/
theorem cleanup_undoes_iff_split :
    ∃ l frees m', ((newContext 0x8040000000).prepareContextMm contextFrames).log = l ++ [] ∧
      ((newContext 0x8040000000).prepareContextMm contextFrames).cleanupContextMm = some m' ∧
      m'.log = frees ++ ((newContext 0x8040000000).prepareContextMm contextFrames).log ∧
      Undone 1 30 l frees := by
  obtain ⟨l, frees, m', hlog, hcleanup, hfrees, hiff⟩ :=
    Machine.cleanup_undoes_iff (newContext 0x8040000000)
    contextFrames contextFrames_ok (by decide +kernel) (by decide +kernel)
  exact ⟨l, frees, m', hlog, hcleanup, hfrees, hiff.mpr (by decide +kernel)⟩

/-- In the layout of `context.h`, the table of level 3 is allocated once, and is freed by the pass
over the stack and again by the one over the data. -/
theorem cleanup_frees_twice :
    contextFrames.Ok (newContext 0x800000000).ctx.argPfn ∧
      [(newContext 0x800000000).ctx.stackPath, (newContext 0x800000000).ctx.codePath,
        (newContext 0x800000000).ctx.dataPath].Nodup ∧
      (((newContext 0x800000000).prepareContextMm contextFrames).cleanupContextMm.map fun m' =>
        (m'.log.count (.osPtReg, .alloc 10), m'.log.count (.osPtReg, .free 10))) = some (1, 2) :=
  ⟨contextFrames_ok, by decide +kernel, by decide +kernel⟩

end GemOS.Paging
