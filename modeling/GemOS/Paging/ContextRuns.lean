import GemOS.Lib.Run
import GemOS.Paging.ContextFrees

/-!
# Runs of contexts

The kernel prepares contexts and takes them down in any order, all in the same memory.
`contexts_run` is about every run of `prepare_context_mm` and `cleanup_context_mm`: a context keeps
the address space that it got, whatever happens to the others; no frame of it is in the tables of
another one, or is freed while it lives; and every page is freed once, in all layouts. Only tables
are freed twice (`cleanup_frees_twice`), and `os_pfn_alloc` is taken to return no frame that is in
use, also after such a call.
-/

namespace GemOS.Paging

open Ledger

/-- All frames of a context. -/
def ContextFrames.all (f : ContextFrames) (argPfn : ℕ) : List ℕ :=
  f.pgd :: (f.stack.frames ++ f.code.frames ++ (f.data argPfn).frames)

instance (f : ContextFrames) (argPfn : ℕ) : Decidable (f.Ok argPfn) :=
  decidable_of_iff ((f.all argPfn).Nodup ∧
    ∀ g ∈ f.stack.frames ++ f.code.frames ++ (f.data argPfn).frames, g < 2^20)
    ⟨fun h => ⟨h.1, h.2⟩, fun h => ⟨h.nodup, h.lt⟩⟩

/-- The three pages are different. -/
def ExecContext.PagesApart (ctx : ExecContext) : Prop :=
  ctx.codePath ≠ ctx.stackPath ∧ ctx.dataPath ≠ ctx.stackPath ∧ ctx.dataPath ≠ ctx.codePath

instance (ctx : ExecContext) : Decidable ctx.PagesApart := inferInstanceAs (Decidable (_ ∧ _ ∧ _))

/-- The contexts, the tables, and the calls of the allocator. -/
structure Contexts (ι : Type*) where
  /-- The live contexts. -/
  ctx : ι → Option ExecContext
  /-- The entries of the tables, by frame. -/
  mem : Memory
  /-- The calls of `os_pfn_alloc` and `os_pfn_free`, the newest first. -/
  log : List (Region × Event ℕ)

/-- What is done with a context. -/
inductive ContextOp where
  /-- The frame `arg_pfn` is allocated, and the context is prepared. -/
  | prepare (ctx : ExecContext) (f : ContextFrames)
  /-- The context is taken down. -/
  | cleanup

section

variable {ι : Type*}

/-- What the functions see of the context `ctx`. -/
def Contexts.machine (s : Contexts ι) (ctx : ExecContext) : Machine := ⟨⟨s.mem, s.log⟩, ctx⟩

/-- `arg_pfn` was allocated for a new context. -/
def Contexts.newMachine (s : Contexts ι) (ctx : ExecContext) : Machine :=
  ⟨⟨s.mem, (.userReg, .alloc ctx.argPfn) :: s.log⟩, ctx⟩

variable [DecidableEq ι]

/-- The context `i` after a call. -/
def Contexts.put (s : Contexts ι) (i : ι) (ctx : Option ExecContext) (m : Machine) : Contexts ι :=
  ⟨Function.update s.ctx i ctx, m.mem, m.log⟩

/-- A call for the context `i`. -/
def contextStep (s : Contexts ι) : ι × ContextOp → Option (Unit × Contexts ι)
  | (i, .prepare ctx f) =>
    let m := (s.newMachine ctx).prepareContextMm f
    some ((), s.put i (some m.ctx) m)
  | (i, .cleanup) => (s.ctx i).bind fun ctx =>
    (s.machine ctx).cleanupContextMm.map fun m => ((), s.put i none m)

/-- A new context gets frames that are not in use, and only a live one is taken down. -/
def ContextLegal (s : Contexts ι) : ι × ContextOp → Prop
  | (i, .prepare ctx f) => s.ctx i = none ∧ ctx.PagesApart ∧ f.Ok ctx.argPfn ∧
    ∀ g ∈ f.all ctx.argPfn, g ∉ inUse ∅ (s.log.map Prod.snd)
  | (i, .cleanup) => s.ctx i ≠ none

/-- No context is live. -/
def noContexts (mem : Memory) : Contexts ι := ⟨fun _ => none, mem, []⟩

/-- The frame at the end of a path of a live context. -/
def Contexts.frame (s : Contexts ι) (i : ι) (q : List (Fin 512)) : Option ℕ :=
  (s.ctx i).bind fun ctx => if q.length ≤ 4 then (s.mem.walk ctx.pgd q).map Prod.fst else none

/-- No frame is at two places in the tables of the live contexts. -/
def FramesApart (s : Contexts ι) : Prop :=
  ∀ i j q r a, s.frame i q = some a → s.frame j r = some a → i = j ∧ q = r

/-- No frame of a live context was freed since it was allocated. -/
def FramesInUse (s : Contexts ι) : Prop :=
  ∀ i q a, s.frame i q = some a → a ∈ inUse ∅ (s.log.map Prod.snd)

/-- Those that are for pages. -/
def pagesOf {α : Type*} (l : List (Region × α)) : List α :=
  (l.filter fun x => x.1 = .userReg).map Prod.snd

/-- The frames of the pages, by context and path. -/
def Contexts.page (s : Contexts ι) (x : ι × List (Fin 512)) : Option ℕ :=
  if x.2.length = 4 then s.frame x.1 x.2 else none

/-- The machine `m'` has the address space that `prepare_context_mm` gives to the context of `m`. -/
def Prepared (m m' : Machine) : Prop :=
  Machine.AddressSpace m m' ∧
    ([Machine.gibSlot m.ctx.stackVA, Machine.gibSlot m.ctx.codeStart,
        Machine.gibSlot m.ctx.dataStart].Nodup →
      Machine.Permissions m m' ∧ (m'.Allows writeBit m.ctx.dataPath ↔
        (Machine.topSlot m.ctx.codeStart = Machine.topSlot m.ctx.dataStart →
          Machine.topSlot m.ctx.stackVA = Machine.topSlot m.ctx.dataStart)))

end

theorem pagesOf_append {α : Type*} (l l' : List (Region × α)) :
    pagesOf (l ++ l') = pagesOf l ++ pagesOf l' := by
  simp [pagesOf]

theorem mem_pagesOf {α : Type*} {l : List (Region × α)} {x : α} :
    x ∈ pagesOf l ↔ (Region.userReg, x) ∈ l := by
  simp [pagesOf]

theorem pagesOf_allocs (l : List (Region × ℕ)) :
    pagesOf (Machine.allocs l) = ((pagesOf l).map Event.alloc).reverse := by
  simp [pagesOf, Machine.allocs, List.filter_map, Function.comp_def]

/-! ## What `prepare_context_mm` writes to -/

namespace Memory

variable {mem : Memory} {pgd flags frame x : ℕ} {p : List (Fin 512)} {es gs : List ℕ}

/-- An entry that is filled up is in a table, and a new table is in its frame. -/
theorem fill_of_ne (region : Region) (i : Fin 512) {g : ℕ} (hframe : x ≠ frame) (hg : x ≠ g) :
    mem.fill region flags frame i g x = mem x := by
  unfold fill
  split_ifs
  · rfl
  · funext j
    exact link_other hg (Or.inl hframe)

/-- A path that is filled up writes to tables and to the new frames only. -/
theorem fillPath_of_notTable {pre : List (Fin 512)} (hfill : Fillable mem pgd gs)
    (hpre : mem.walk pgd pre = some (frame, es)) (hlen : pre.length + p.length = 4)
    (hgs : gs.length = p.length) (hflags : flags.testBit 0 = true) (hflags' : flags < 2^12)
    (hx : mem.NotTable pgd x) (hnew : x ∉ gs) : fillPath flags mem frame p gs x = mem x := by
  induction p generalizing mem pre frame es gs with
  | nil => cases gs <;> rfl
  | cons i p ih =>
    obtain ⟨g, gs, rfl⟩ : ∃ g l, gs = g :: l := List.exists_cons_of_length_eq_add_one hgs
    obtain ⟨hg, hnew⟩ := not_or.mp (mt List.mem_cons.mpr hnew)
    have hfirst := hfill.filled hpre hlen hflags hflags'
    rw [List.length_cons] at hlen
    have hframe : x ≠ frame := (hx pre _ (by omega) hpre).symm
    rw [fillPath]
    obtain ⟨es', hnext⟩ := hfirst.walk_next hpre
    rw [ih (hfirst.fillable hfill) hnext (by rw [List.length_append, List.length_singleton]; omega)
      (by simpa using hgs) (hfirst.notTable hx hg) hnew, fill_of_ne _ i hframe hg]

/-- Of the frames that are hung in on a path, only the last one is that of a page. -/
theorem pages_created (flags : ℕ) (mem : Memory) (frame : ℕ) (p : List (Fin 512)) (gs : List ℕ) :
    (pagesOf (created flags mem frame p gs)).Sublist [gs.getD (p.length - 1) 0] := by
  induction p generalizing mem frame gs with
  | nil => cases gs <;> exact List.nil_sublist _
  | cons i p ih =>
    cases gs with
    | nil => exact List.nil_sublist _
    | cons g gs =>
      rw [created, pagesOf_append]
      cases p with
      | nil =>
        have hnil : ∀ mem frame, created flags mem frame [] gs = [] := by
          intro mem frame
          cases gs <;> rfl
        rw [hnil]
        split_ifs <;> simp [pagesOf]
      | cons j p =>
        have htable : pagesOf (if present (mem frame i) then [] else [(if j :: p = [] then
            Region.userReg else .osPtReg, g)]) = [] := by
          split_ifs <;> simp_all [pagesOf]
        rw [htable, List.nil_append]
        exact ih _ _ gs

/-- When the page is not present, its frame is hung in. -/
theorem pages_created_of_none (hfill : Fillable mem pgd gs) (hp : p.length = 4)
    (hgs : gs.length = 4) (hflags : flags.testBit 0 = true) (hflags' : flags < 2^12)
    (hnone : mem.walk pgd p = none) : pagesOf (created flags mem pgd p gs) = [gs.getD 3 0] := by
  have hsub := pages_created flags mem pgd p gs
  rw [hp] at hsub
  refine (List.sublist_singleton.mp hsub).resolve_left fun hempty => ?_
  obtain ⟨r, i, rfl⟩ : ∃ r i, p = r ++ [i] := by
    have hconcat := (List.eq_nil_or_concat p).resolve_left (List.ne_nil_of_length_pos (by omega))
    simpa [List.concat_eq_append] using hconcat
  have hr : r.length = 3 := by simpa using hp
  have hmem : (Region.userReg, gs.getD r.length 0) ∈ created flags mem pgd (r ++ [i]) gs := by
    rw [mem_created hfill (walk_nil mem pgd) (by simpa using hr) (by simp [hgs, hr]) hflags hflags']
    exact ⟨r, i, List.prefix_refl _, hnone, rfl, (if_pos rfl).symm⟩
  have hin := mem_pagesOf.mpr hmem
  rw [hempty] at hin
  exact List.not_mem_nil hin

end Memory

namespace Machine

variable {m : Machine} {f : ContextFrames} {x : ℕ}

/-- `prepare_context_mm` writes to no frames but those that it gets. -/
theorem prepare_mem (hf : f.Ok m.ctx.argPfn) (hx : x ∉ f.all m.ctx.argPfn) :
    (m.prepareContextMm f).mem x = m.mem x := by
  obtain ⟨hpgd, hx⟩ := not_or.mp (mt List.mem_cons.mpr hx)
  obtain ⟨hsc, hd⟩ := not_or.mp (mt List.mem_append.mpr hx)
  obtain ⟨hs, hc⟩ := not_or.mp (mt List.mem_append.mpr hsc)
  have h₀ : (m.withPgd f).mem x = m.mem x := Function.update_of_ne hpgd _ _
  have t₀ : (m.withPgd f).mem.NotTable f.pgd x := notTable_withPgd hpgd
  have t₁ := (stackFilled hf).notTable_of_not_mem rfl t₀ hs
  have t₂ := (codeFilled hf).notTable_of_not_mem rfl t₁ hc
  have h₁ : (m.withStack f).mem x = (m.withPgd f).mem x := by
    rw [withStack, mapSegment_mem]
    exact Memory.fillPath_of_notTable (stackFillable hf) (Memory.walk_nil _ _) rfl rfl (by decide)
      (by decide) t₀ hs
  have h₂ : (m.withCode f).mem x = (m.withStack f).mem x := by
    rw [withCode, mapSegment_mem, withStack_ctx]
    exact Memory.fillPath_of_notTable (codeFillable hf) (Memory.walk_nil _ _) rfl rfl (by decide)
      (by decide) t₁ hc
  have h₃ : (m.prepareContextMm f).mem x = (m.withCode f).mem x := by
    rw [prepareContextMm_eq, mapData_mem, withCode_ctx]
    exact Memory.fillPath_of_notTable (dataFillable hf) (Memory.walk_nil _ _) rfl rfl (by decide)
      (by decide) t₂ hd
  rw [h₃, h₂, h₁, h₀]

/-- The pages that are hung in. -/
theorem pages_prepare (hf : f.Ok m.ctx.argPfn) (hctx : m.ctx.PagesApart) :
    pagesOf (m.created f) = [f.stack.dataPfn, f.code.dataPfn, m.ctx.argPfn] := by
  obtain ⟨hcs, hs, hc⟩ := hctx
  have hpre : ∀ {p q : List (Fin 512)}, p.length = 4 → q.length = 4 → p ≠ q → ¬p <+: q :=
    fun hp hq hne h => hne (h.eq_of_length (hp.trans hq.symm))
  have hstack : pagesOf (Memory.created rwFlags (m.withPgd f).mem f.pgd m.ctx.stackPath
      f.stack.frames) = [f.stack.dataPfn] :=
    Memory.pages_created_of_none (stackFillable hf) rfl rfl (by decide) (by decide)
      (Passes.none₀ (P := m.passes f hf) (List.cons_ne_nil _ _))
  have hcode : pagesOf (Memory.created roFlags (m.withStack f).mem f.pgd m.ctx.codePath
      f.code.frames) = [f.code.dataPfn] :=
    Memory.pages_created_of_none (codeFillable hf) rfl rfl (by decide) (by decide)
      ((Passes.none₁ (P := m.passes f hf) (List.cons_ne_nil _ _) le_rfl).mpr (hpre rfl rfl hcs))
  have hdata : pagesOf (Memory.created rwFlags (m.withCode f).mem f.pgd m.ctx.dataPath
      (f.data m.ctx.argPfn).frames) = [m.ctx.argPfn] :=
    Memory.pages_created_of_none (dataFillable hf) rfl rfl (by decide) (by decide)
      ((Passes.none₂ (P := m.passes f hf) (List.cons_ne_nil _ _) le_rfl).mpr
        ⟨hpre rfl rfl hs, hpre rfl rfl hc⟩)
  rw [created, createdFirst, pagesOf_append, pagesOf_append, hstack, hcode, hdata]
  rfl

end Machine

/-! ## A live context -/

section

variable {ι : Type*} {s s' : Contexts ι} {ctx : ExecContext} {m : Machine} {f : ContextFrames}
  {i j : ι} {p q : List (Fin 512)} {a : ℕ}

/-- A live context has the tables that it got when it was prepared in `m`. -/
structure Kept (s : Contexts ι) (ctx : ExecContext) (m : Machine) (f : ContextFrames) : Prop where
  /-- It got different frames. -/
  ok : f.Ok m.ctx.argPfn
  /-- Its pages are different. -/
  apart : m.ctx.PagesApart
  /-- It got a top table. -/
  ctx : ctx = { m.ctx with pgd := f.pgd }
  /-- The tables are as they were. -/
  walk : ∀ q, q.length ≤ 4 → s.mem.walk f.pgd q = (m.prepareContextMm f).mem.walk f.pgd q
  /-- It was prepared before. -/
  log : ∃ l, s.log = l ++ (m.prepareContextMm f).log

namespace Kept

/-- The walk is that of `prepare_context_mm`. -/
theorem machine_walk (h : Kept s ctx m f) (hq : q.length ≤ 4) :
    (s.machine ctx).walk q = (m.prepareContextMm f).walk q := by
  obtain ⟨hctx, -⟩ := Machine.prepare_log h.ok h.apart.2.1 h.apart.2.2
  rw [Machine.walk, Machine.walk, hctx, h.ctx]
  exact h.walk q hq

/-- It has its pages, with their permissions. -/
theorem prepared (h : Kept s ctx m f) : Prepared m (s.machine ctx) := by
  obtain ⟨hcs, hs, hc⟩ := h.apart
  have hwalk : ∀ q, q.length = 4 → (s.machine ctx).walk q = (m.prepareContextMm f).walk q :=
    fun q hq => h.machine_walk hq.le
  have hallows : ∀ bit q, q.length = 4 →
      ((s.machine ctx).Allows bit q ↔ (m.prepareContextMm f).Allows bit q) := fun bit q hq => by
    simp only [Machine.Allows, hwalk q hq]
  obtain ⟨⟨es, hdata⟩, ⟨st, co, es₁, es₂, l, hst, hco, hne, hlog, hin, hin'⟩, hother⟩ :=
    Machine.addressSpace h.ok hcs hs hc
  obtain ⟨l', hl'⟩ := h.log
  refine ⟨⟨⟨es, (hwalk _ rfl).trans hdata⟩, ⟨st, co, es₁, es₂, l' ++ l, (hwalk _ rfl).trans hst,
    (hwalk _ rfl).trans hco, hne, ?_, List.mem_append_right _ hin, List.mem_append_right _ hin'⟩,
    fun q hq hqs hqc hqd => (hwalk q hq).trans (hother q hq hqs hqc hqd)⟩, fun hslots => ?_⟩
  · rw [List.append_assoc, ← hlog]
    exact hl'
  · obtain ⟨hperm, hwrite⟩ := Machine.permissions h.ok hcs hs hc
    simp only [List.nodup_cons, List.mem_singleton] at hslots
    refine ⟨⟨?_, ?_, ?_⟩, (hallows _ _ rfl).trans (hwrite hslots.2.1)⟩
    · exact ⟨(hallows _ _ rfl).mpr hperm.stack.1, (hallows _ _ rfl).mpr hperm.stack.2⟩
    · exact ⟨(hallows _ _ rfl).mpr hperm.code.1, fun hw => hperm.code.2 ((hallows _ _ rfl).mp hw)⟩
    · exact (hallows _ _ rfl).mpr hperm.data

/-- The frames of a live context. -/
theorem frame_iff (h : Kept s ctx m f) (hi : s.ctx i = some ctx) :
    s.frame i q = some a ↔ q = [] ∧ a = f.pgd ∨
      (m.passes f h.ok).Node q ∧ a = (m.passes f h.ok).frame q := by
  have hpgd : ctx.pgd = f.pgd := by rw [h.ctx]
  have hframe : s.frame i q = if q.length ≤ 4 then
      ((m.prepareContextMm f).mem.walk f.pgd q).map Prod.fst else none := by
    rw [Contexts.frame, hi, Option.bind_some, hpgd]
    split_ifs with hq
    · rw [h.walk q hq]
    · rfl
  rw [hframe]
  by_cases hq : q = []
  · subst hq
    have hroot : (if ([] : List (Fin 512)).length ≤ 4 then
        ((m.prepareContextMm f).mem.walk f.pgd []).map Prod.fst else none) = some f.pgd := rfl
    rw [hroot, or_iff_left fun h => h.1.1 rfl, and_iff_right rfl, Option.some.injEq]
    exact eq_comm
  · rw [or_iff_right fun h => hq h.1]
    constructor
    · intro hnode
      split_ifs at hnode with hle
      by_cases hN : (m.passes f h.ok).Node q
      · obtain ⟨es, hes⟩ := Passes.walk_node hN
        have heq : ((m.prepareContextMm f).mem.walk f.pgd q).map Prod.fst =
            some ((m.passes f h.ok).frame q) := congrArg (Option.map Prod.fst) hes
        exact ⟨hN, Option.some.inj (hnode.symm.trans heq)⟩
      · have hnone : (m.prepareContextMm f).mem.walk f.pgd q = none :=
          (Passes.none₃ (P := m.passes f h.ok) hq hle).mpr hN
        rw [hnone] at hnode
        exact absurd hnode (by simp)
    · rintro ⟨hN, rfl⟩
      obtain ⟨es, hes⟩ := Passes.walk_node hN
      rw [if_pos hN.length_le]
      exact congrArg (Option.map Prod.fst) hes

/-- They are among those that it got. -/
theorem frame_mem (h : Kept s ctx m f) (hi : s.ctx i = some ctx) (hq : s.frame i q = some a) :
    a ∈ f.all m.ctx.argPfn := by
  rcases (h.frame_iff hi).mp hq with ⟨-, rfl⟩ | ⟨hN, rfl⟩
  · exact List.mem_cons_self
  · obtain ⟨hlt, hframe⟩ := Passes.frame_eq_getD (Machine.passes_full h.ok) hN
    rw [hframe, ContextFrames.all, List.append_assoc]
    exact List.mem_cons_of_mem _ (getD_mem hlt)

/-- No frame of it is at two places. -/
theorem frame_inj (h : Kept s ctx m f) (hi : s.ctx i = some ctx) (hp : s.frame i p = some a)
    (hq : s.frame i q = some a) : p = q := by
  rcases (h.frame_iff hi).mp hp with ⟨rfl, rfl⟩ | ⟨hP, rfl⟩ <;>
    rcases (h.frame_iff hi).mp hq with ⟨rfl, ha⟩ | ⟨hQ, ha⟩
  · rfl
  · exact absurd ha.symm (Machine.frame_ne_pgd h.ok hQ)
  · exact absurd ha (Machine.frame_ne_pgd h.ok hP)
  · exact Passes.frame_inj (Machine.passes_full h.ok) (Machine.passes_nodup h.ok) hP hQ ha

/-- Its pages. -/
theorem page_eq (h : Kept s ctx m f) (hi : s.ctx i = some ctx) (p : List (Fin 512)) :
    s.page (i, p) = if p = m.ctx.dataPath then some m.ctx.argPfn else
      if p = m.ctx.codePath then some f.code.dataPfn else
      if p = m.ctx.stackPath then some f.stack.dataPfn else none := by
  obtain ⟨hcs, hs, hc⟩ := h.apart
  have hnode : ∀ q, q.length = 4 → (m.passes f h.ok).Node q →
      s.page (i, q) = some ((m.passes f h.ok).frame q) := fun q hlen hN => by
    rw [Contexts.page, if_pos hlen]
    exact (h.frame_iff hi).mpr (Or.inr ⟨hN, rfl⟩)
  split_ifs with hd hcode hstack
  · rw [hd]
    exact (hnode _ rfl (Passes.Node.of_d _)).trans
      (congrArg some (Passes.frame_d (P := m.passes f h.ok) hs hc))
  · rw [hcode]
    exact (hnode _ rfl (Passes.Node.of_c _)).trans
      (congrArg some (Passes.frame_c (P := m.passes f h.ok) hcs))
  · rw [hstack]
    exact (hnode _ rfl (Passes.Node.of_s _)).trans
      (congrArg some (Passes.frame_s (m.passes f h.ok)))
  · unfold Contexts.page
    split_ifs with hlen
    · cases hsome : s.frame i p with
      | none => rfl
      | some a =>
        rcases (h.frame_iff hi).mp hsome with ⟨rfl, -⟩ | ⟨⟨-, hpre⟩, -⟩
        · exact absurd hlen (by simp)
        · rcases hpre with hpre | hpre | hpre
          · exact absurd (hpre.eq_of_length hlen) hstack
          · exact absurd (hpre.eq_of_length hlen) hcode
          · exact absurd (hpre.eq_of_length hlen) hd
    · rfl

theorem paths (h : Kept s ctx m f) : ctx.stackPath = m.ctx.stackPath ∧
    ctx.codePath = m.ctx.codePath ∧ ctx.dataPath = m.ctx.dataPath := by
  rw [h.ctx]
  exact ⟨rfl, rfl, rfl⟩

/-- The three pages. -/
theorem pages (h : Kept s ctx m f) (hi : s.ctx i = some ctx) :
    s.page (i, ctx.stackPath) = some f.stack.dataPfn ∧
      s.page (i, ctx.codePath) = some f.code.dataPfn ∧
      s.page (i, ctx.dataPath) = some m.ctx.argPfn := by
  obtain ⟨hcs, hs, hc⟩ := h.apart
  obtain ⟨hst, hco, hda⟩ := h.paths
  refine ⟨?_, ?_, ?_⟩
  · rw [h.page_eq hi, hst, if_neg hs.symm, if_neg hcs.symm, if_pos rfl]
  · rw [h.page_eq hi, hco, if_neg hc.symm, if_pos rfl]
  · rw [h.page_eq hi, hda, if_pos rfl]

end Kept

theorem Contexts.frame_eq_none (hi : s.ctx i = none) (q : List (Fin 512)) :
    s.frame i q = none := by
  rw [Contexts.frame, hi, Option.bind_none]

theorem Contexts.page_eq_none (hi : s.ctx i = none) (p : List (Fin 512)) :
    s.page (i, p) = none := by
  rw [Contexts.page]
  split_ifs
  · exact Contexts.frame_eq_none hi p
  · rfl

theorem Contexts.frame_of_page {x : ι × List (Fin 512)} (hx : s.page x = some a) :
    s.frame x.1 x.2 = some a := by
  unfold Contexts.page at hx
  split_ifs at hx
  exact hx

theorem Contexts.frame_of_walk {w : ℕ × List ℕ} (hi : s.ctx i = some ctx) (hq : q.length ≤ 4)
    (hw : s.mem.walk ctx.pgd q = some w) : s.frame i q = some w.1 := by
  rw [Contexts.frame, hi, Option.bind_some, if_pos hq, hw, Option.map_some]

/-- What is freed for a node is its frame. -/
theorem Contexts.frameAt_of_frame (hi : s.ctx i = some ctx) (hq : s.frame i q = some a) :
    (s.machine ctx).frameAt q = a := by
  rw [Contexts.frame, hi, Option.bind_some] at hq
  split_ifs at hq
  exact congrArg (Option.getD · 0) hq

/-! ## The steps -/

variable [DecidableEq ι]

/-- The invariant: it is about the contexts that were prepared in the run so far. -/
structure ContextsInv (s : Contexts ι) (hist : List ((ι × ContextOp) × Unit)) : Prop where
  /-- Every live context has the tables that it got. -/
  live : ∀ i ctx, s.ctx i = some ctx →
    ∃ m f, (i, .prepare m.ctx f) ∈ hist.map Prod.fst ∧ Kept s ctx m f
  /-- No frame is that of two contexts. -/
  apart : ∀ i j, i ≠ j → ∀ q r a, s.frame i q = some a → s.frame j r ≠ some a
  /-- The frames of live contexts are in use. -/
  inUse : FramesInUse s
  /-- The accounts of the pages. -/
  pages : Accounts ∅ (pagesOf s.log) s.page

omit [DecidableEq ι] in
theorem Kept.congr (h : Kept s ctx m f) (hi : s.ctx i = some ctx)
    (hmem : ∀ q a, s.frame i q = some a → s'.mem a = s.mem a) (hlog : ∃ l, s'.log = l ++ s.log) :
    Kept s' ctx m f := by
  obtain ⟨l, hl⟩ := h.log
  obtain ⟨l', hl'⟩ := hlog
  have hpgd : ctx.pgd = f.pgd := by rw [h.ctx]
  refine ⟨h.ok, h.apart, h.ctx, fun q hq => ?_, l' ++ l, by rw [hl', hl, List.append_assoc]⟩
  rw [← h.walk q hq, ← hpgd]
  exact Memory.walk_congr (fun r w hr hw => hmem r w.1 (Contexts.frame_of_walk hi hr hw)) hq

/-- Stores to other frames leave the frames of a context. -/
theorem Contexts.frame_put_of_ne (hne : j ≠ i) (c : Option ExecContext) (m : Machine)
    (hmem : ∀ q a, s.frame j q = some a → m.mem a = s.mem a) (q : List (Fin 512)) :
    (s.put i c m).frame j q = s.frame j q := by
  have hctx : (s.put i c m).ctx j = s.ctx j := Function.update_of_ne hne _ _
  cases hj : s.ctx j with
  | none => rw [frame_eq_none hj, frame_eq_none (hctx.trans hj)]
  | some ctx =>
    rw [frame, frame, hctx, hj, Option.bind_some, Option.bind_some]
    split_ifs with hq
    · exact congrArg (Option.map Prod.fst)
        (Memory.walk_congr (fun r w hr hw => hmem r w.1 (frame_of_walk hj hr hw)) hq)
    · rfl

theorem Contexts.page_put_of_ne (hne : j ≠ i) (c : Option ExecContext) (m : Machine)
    (hmem : ∀ q a, s.frame j q = some a → m.mem a = s.mem a) (p : List (Fin 512)) :
    (s.put i c m).page (j, p) = s.page (j, p) := by
  rw [page, page, frame_put_of_ne hne c m hmem]

namespace ContextsInv

variable {hist : List ((ι × ContextOp) × Unit)}

/-- What holds of the context `i` after a call for it, and does not of the others. -/
theorem put {hist' : List ((ι × ContextOp) × Unit)} {c : Option ExecContext}
    (h : ContextsInv s hist) (hhist : hist ⊆ hist')
    (hmem : ∀ j, j ≠ i → ∀ q a, s.frame j q = some a → m.mem a = s.mem a)
    (hlog : ∃ l, m.log = l ++ s.log)
    (hlive : ∀ ctx, c = some ctx → ∃ m₀ f, (i, .prepare m₀.ctx f) ∈ hist'.map Prod.fst ∧
      Kept (s.put i c m) ctx m₀ f)
    (hnew : ∀ q a, (s.put i c m).frame i q = some a →
      a ∈ Ledger.inUse ∅ (m.log.map Prod.snd) ∧ ∀ j, j ≠ i → ∀ r, s.frame j r ≠ some a)
    (huse : ∀ j, j ≠ i → ∀ q a, s.frame j q = some a → a ∈ Ledger.inUse ∅ (m.log.map Prod.snd))
    (hpages : Accounts ∅ (pagesOf m.log) (s.put i c m).page) :
    ContextsInv (s.put i c m) hist' := by
  have hframe : ∀ j, j ≠ i → ∀ q, (s.put i c m).frame j q = s.frame j q := fun j hne =>
    Contexts.frame_put_of_ne hne c m (hmem j hne)
  refine ⟨fun j ctx hj => ?_, fun j l hne q r a hq hr => ?_, fun j q a hq => ?_, hpages⟩
  · by_cases hji : j = i
    · subst hji
      refine hlive ctx ?_
      rw [← hj]
      exact (Function.update_self j c s.ctx).symm
    · have hj' : s.ctx j = some ctx := (Function.update_of_ne hji _ _).symm.trans hj
      obtain ⟨m₀, f₀, hin, hk⟩ := h.live j ctx hj'
      exact ⟨m₀, f₀, List.map_subset _ hhist hin, hk.congr hj' (hmem j hji) hlog⟩
  · by_cases hji : j = i
    · subst hji
      rw [hframe l hne.symm] at hr
      exact (hnew q a hq).2 l hne.symm r hr
    · rw [hframe j hji] at hq
      by_cases hli : l = i
      · subst hli
        exact (hnew r a hr).2 j hji q hq
      · rw [hframe l hli] at hr
        exact h.apart j l hne q r a hq hr
  · by_cases hji : j = i
    · subst hji
      exact (hnew q a hq).1
    · rw [hframe j hji] at hq
      exact huse j hji q a hq

omit [DecidableEq ι] in
/-- A frame that is not in use is no page that is in use. -/
theorem not_inUse_pages (h : ContextsInv s hist) (ha : a ∉ Ledger.inUse ∅ (s.log.map Prod.snd)) :
    a ∉ Ledger.inUse ∅ (pagesOf s.log) := fun hin => by
  obtain ⟨x, hx⟩ := h.pages.held_of_inUse hin
  exact ha (h.inUse x.1 x.2 a (Contexts.frame_of_page hx))

/-- The three pages of a new context are allocated one after the other. -/
theorem accounts_prepare (h : ContextsInv s hist) (hi : s.ctx i = none) (hctx : ctx.PagesApart)
    (hf : f.Ok ctx.argPfn) (hfresh : ∀ g ∈ f.all ctx.argPfn, g ∉ Ledger.inUse ∅ (pagesOf s.log)) :
    Accounts ∅ (.alloc f.code.dataPfn :: .alloc f.stack.dataPfn :: .alloc ctx.argPfn ::
        pagesOf s.log)
      (Function.update (Function.update (Function.update s.page (i, ctx.dataPath)
        (some ctx.argPfn)) (i, ctx.stackPath) (some f.stack.dataPfn)) (i, ctx.codePath)
        (some f.code.dataPfn)) := by
  obtain ⟨hcs, hs, hc⟩ := hctx
  obtain ⟨-, -, -, hsc, hscd⟩ := hf.parts
  have harg := hscd ctx.argPfn (by simp [Fresh.frames, ContextFrames.data])
  have hstack_arg : f.stack.dataPfn ≠ ctx.argPfn := fun heq =>
    harg.1 (heq ▸ by simp [Fresh.frames])
  have hcode_arg : f.code.dataPfn ≠ ctx.argPfn := fun heq =>
    harg.2 (heq ▸ by simp [Fresh.frames])
  have hcode_stack : f.code.dataPfn ≠ f.stack.dataPfn := fun heq =>
    hsc f.code.dataPfn (by simp [Fresh.frames]) (heq ▸ by simp [Fresh.frames])
  have hsd : (i, ctx.stackPath) ≠ (i, ctx.dataPath) := fun heq => hs (congrArg Prod.snd heq).symm
  have hcd : (i, ctx.codePath) ≠ (i, ctx.dataPath) := fun heq => hc (congrArg Prod.snd heq).symm
  have hcst : (i, ctx.codePath) ≠ (i, ctx.stackPath) := fun heq => hcs (congrArg Prod.snd heq)
  have hnone : ∀ p, s.page (i, p) = none := Contexts.page_eq_none hi
  have hdata := h.pages.alloc (hnone ctx.dataPath)
    (hfresh ctx.argPfn (by simp [ContextFrames.all, Fresh.frames, ContextFrames.data]))
  have hstack := hdata.alloc (x := (i, ctx.stackPath)) (a := f.stack.dataPfn)
    ((Function.update_of_ne hsd _ _).trans (hnone _)) (by
      rw [Ledger.inUse, Finset.mem_insert, not_or]
      exact ⟨hstack_arg, hfresh _ (by simp [ContextFrames.all, Fresh.frames])⟩)
  refine hstack.alloc ?_ ?_
  · rw [Function.update_of_ne hcst, Function.update_of_ne hcd]
    exact hnone _
  · rw [Ledger.inUse, Finset.mem_insert, not_or, Ledger.inUse, Finset.mem_insert, not_or]
    exact ⟨hcode_stack, hcode_arg, hfresh _ (by simp [ContextFrames.all, Fresh.frames])⟩

/-- `prepare_context_mm` keeps the invariant. -/
theorem prepare (h : ContextsInv s hist) (hmem : m.mem = s.mem)
    (hlog : m.log = (.userReg, .alloc m.ctx.argPfn) :: s.log) (hi : s.ctx i = none)
    (hctx : m.ctx.PagesApart) (hf : f.Ok m.ctx.argPfn)
    (hfresh : ∀ g ∈ f.all m.ctx.argPfn, g ∉ Ledger.inUse ∅ (s.log.map Prod.snd)) :
    ContextsInv (s.put i (some (m.prepareContextMm f).ctx) (m.prepareContextMm f))
      (hist ++ [((i, .prepare m.ctx f), ())]) := by
  obtain ⟨hctx', l, hprep, hcreated⟩ := Machine.prepare_log hf hctx.2.1 hctx.2.2
  -- All new events are allocations.
  let es : List (Region × Event ℕ) :=
    Machine.allocs l ++ [(.osPtReg, .alloc f.pgd), (.userReg, .alloc m.ctx.argPfn)]
  have hes : (m.prepareContextMm f).log = es ++ s.log := by
    rw [hprep, hlog, List.append_assoc]
    rfl
  have hinUse : ∀ a, a ∈ Ledger.inUse ∅ ((m.prepareContextMm f).log.map Prod.snd) ↔
      .alloc a ∈ es.map Prod.snd ∨ a ∈ Ledger.inUse ∅ (s.log.map Prod.snd) := fun a => by
    rw [hes, List.map_append]
    exact mem_inUse_append (by simp [es, Machine.allocs]) _
  have hkept : ∀ j, j ≠ i → ∀ q a, s.frame j q = some a → (m.prepareContextMm f).mem a = s.mem a :=
    fun j _ q a hq => by
      rw [← hmem]
      exact Machine.prepare_mem hf fun hin => hfresh a hin (h.inUse j q a hq)
  have hself : Kept (s.put i (some (m.prepareContextMm f).ctx) (m.prepareContextMm f))
      (m.prepareContextMm f).ctx m f := ⟨hf, hctx, hctx', fun _ _ => rfl, [], rfl⟩
  have hi' : (s.put i (some (m.prepareContextMm f).ctx) (m.prepareContextMm f)).ctx i =
      some (m.prepareContextMm f).ctx := Function.update_self i _ s.ctx
  refine h.put (List.subset_append_left _ _) hkept ⟨es, hes⟩ ?_ ?_ ?_ ?_
  · rintro c hsome
    obtain rfl := Option.some.inj hsome
    exact ⟨m, f, by simp, hself⟩
  · intro q a hq
    refine ⟨(hinUse a).mpr (Or.inl ?_), fun j _ r hr =>
      hfresh a (hself.frame_mem hi' hq) (h.inUse j r a hr)⟩
    rcases (hself.frame_iff hi').mp hq with ⟨-, rfl⟩ | ⟨hN, ha⟩
    · simp [es]
    · have hin := (Machine.mem_created hf (nodeRegion q) a).mpr ⟨q, hN, ha, rfl⟩
      rw [hcreated, List.mem_append, List.mem_singleton, Prod.mk.injEq] at hin
      rcases hin with hin | ⟨-, rfl⟩
      · refine List.mem_map.mpr ⟨(nodeRegion q, .alloc a), List.mem_append_left _ ?_, rfl⟩
        simpa [Machine.allocs] using hin
      · simp [es]
  · exact fun j _ q a hq => (hinUse a).mpr (Or.inr (h.inUse j q a hq))
  · have hpages : pagesOf (m.prepareContextMm f).log = .alloc f.code.dataPfn ::
        .alloc f.stack.dataPfn :: .alloc m.ctx.argPfn :: pagesOf s.log := by
      have hl : pagesOf l = [f.stack.dataPfn, f.code.dataPfn] := by
        have hall := Machine.pages_prepare hf hctx
        rw [hcreated, pagesOf_append] at hall
        exact List.append_inj_left' hall rfl
      rw [hprep, hlog, pagesOf_append, pagesOf_allocs, hl]
      rfl
    rw [hpages]
    convert h.accounts_prepare hi hctx hf fun g hg => h.not_inUse_pages (hfresh g hg) using 1
    funext x
    obtain ⟨j, p⟩ := x
    by_cases hji : j = i
    · subst hji
      have hnone : s.page (j, p) = none := Contexts.page_eq_none hi p
      obtain ⟨hcs, hs, hc⟩ := hctx
      rw [hself.page_eq hi']
      simp only [Function.update_apply, Prod.mk.injEq, true_and, hnone]
      split_ifs with h₁ h₂ h₃ <;> simp_all
    · rw [Contexts.page_put_of_ne hji _ _ (hkept j hji)]
      simp [hji]

/-- The three pages of a context are freed one after the other. -/
theorem accounts_cleanup (h : ContextsInv s hist) (hi : s.ctx i = some ctx) (hk : Kept s ctx m f) :
    Accounts ∅ (pagesOf ((Machine.cleanupNodes ctx).map (s.machine ctx).freeOf ++ s.log))
      (Function.update (Function.update (Function.update s.page (i, ctx.stackPath) none)
        (i, ctx.codePath) none) (i, ctx.dataPath) none) := by
  obtain ⟨hcs, hs, hc⟩ := hk.apart
  obtain ⟨hst, hco, hda⟩ := hk.paths
  obtain ⟨hpage_s, hpage_c, hpage_d⟩ := hk.pages hi
  have hframe : ∀ p a, s.page (i, p) = some a → (s.machine ctx).frameAt p = a :=
    fun p a hp => Contexts.frameAt_of_frame hi (Contexts.frame_of_page hp)
  have hpages : pagesOf ((Machine.cleanupNodes ctx).map (s.machine ctx).freeOf) =
      [.free m.ctx.argPfn, .free f.code.dataPfn, .free f.stack.dataPfn] := by
    rw [← hframe _ _ hpage_s, ← hframe _ _ hpage_c, ← hframe _ _ hpage_d]
    rfl
  have hcst : (i, ctx.codePath) ≠ (i, ctx.stackPath) := fun heq =>
    hcs (hco ▸ hst ▸ congrArg Prod.snd heq)
  have hdst : (i, ctx.dataPath) ≠ (i, ctx.stackPath) := fun heq =>
    hs (hda ▸ hst ▸ congrArg Prod.snd heq)
  have hdc : (i, ctx.dataPath) ≠ (i, ctx.codePath) := fun heq =>
    hc (hda ▸ hco ▸ congrArg Prod.snd heq)
  rw [pagesOf_append, hpages]
  have hstack := h.pages.free hpage_s
  have hcode := hstack.free ((Function.update_of_ne hcst _ _).trans hpage_c)
  refine hcode.free ?_
  rw [Function.update_of_ne hdc, Function.update_of_ne hdst]
  exact hpage_d

/-- `cleanup_context_mm` returns, and keeps the invariant. -/
theorem cleanup (h : ContextsInv s hist) (hi : s.ctx i = some ctx) :
    ∃ m', (s.machine ctx).cleanupContextMm = some m' ∧
      ContextsInv (s.put i none m') (hist ++ [((i, .cleanup), ())]) := by
  obtain ⟨m, f, -, hk⟩ := h.live i ctx hi
  obtain ⟨hst, hco, hda⟩ := hk.paths
  obtain ⟨hpage_s, hpage_c, hpage_d⟩ := hk.pages hi
  have hwalk : ∀ p a, s.page (i, p) = some a → ∃ w, (s.machine ctx).walk p = some w := by
    intro p a hp
    have hframe := Contexts.frame_of_page hp
    rw [Contexts.frame, hi, Option.bind_some] at hframe
    split_ifs at hframe
    obtain ⟨w, hw, -⟩ := Option.map_eq_some_iff.mp hframe
    exact ⟨w, hw⟩
  obtain ⟨ws, hws⟩ := hwalk _ _ hpage_s
  obtain ⟨wc, hwc⟩ := hwalk _ _ hpage_c
  obtain ⟨wd, hwd⟩ := hwalk _ _ hpage_d
  refine ⟨_, Machine.cleanup_spec hws hwc hwd, ?_⟩
  -- What is freed are frames of the context.
  let es := (Machine.cleanupNodes ctx).map (s.machine ctx).freeOf
  have hown : ∀ a, .free a ∈ es.map Prod.snd → ∃ q, s.frame i q = some a := by
    intro a ha
    obtain ⟨x, hx, hxa⟩ := List.mem_map.mp ha
    obtain ⟨q, hq, rfl⟩ := List.mem_map.mp hx
    obtain rfl := Event.free.inj hxa
    have hN : (m.passes f hk.ok).Node q := by
      have hin := Machine.mem_cleanupNodes hq
      rw [hst, hco, hda] at hin
      exact hin
    have hframe := (hk.frame_iff hi).mpr (Or.inr ⟨hN, rfl⟩)
    exact ⟨q, by rw [hframe, Contexts.frameAt_of_frame hi hframe]⟩
  refine h.put (List.subset_append_left _ _) (fun _ _ _ _ _ => rfl) ⟨es, rfl⟩ ?_ ?_ ?_ ?_
  · rintro c hsome
    exact absurd hsome (by simp)
  · intro q a hq
    rw [Contexts.frame_eq_none (Function.update_self i none s.ctx)] at hq
    exact absurd hq (by simp)
  · intro j hne q a hq
    have hnot : .free a ∉ es.map Prod.snd := fun hin => by
      obtain ⟨r, hr⟩ := hown a hin
      exact h.apart j i hne q r a hq hr
    have hin := (mem_inUse_append (A := ∅) hnot (s.log.map Prod.snd)).mpr
      (Or.inr (h.inUse j q a hq))
    rwa [← List.map_append] at hin
  · have hacc := h.accounts_cleanup hi hk
    change Accounts ∅ (pagesOf (es ++ s.log)) _
    convert hacc using 1
    funext x
    obtain ⟨j, p⟩ := x
    by_cases hji : j = i
    · subst hji
      rw [Contexts.page_eq_none (Function.update_self j none s.ctx)]
      simp only [Function.update_apply, Prod.mk.injEq, true_and]
      split_ifs with h₁ h₂ h₃
      · rfl
      · rfl
      · rfl
      · rw [hk.page_eq hi, ← hst, ← hco, ← hda, if_neg h₁, if_neg h₂, if_neg h₃]
    · rw [Contexts.page_put_of_ne hji _ _ (fun _ _ _ => rfl)]
      simp [hji]

/-- Every call returns and keeps the invariant. -/
theorem step {x : ι × ContextOp} (h : ContextsInv s hist) (hlegal : ContextLegal s x) :
    ∃ s', contextStep s x = some ((), s') ∧ ContextsInv s' (hist ++ [(x, ())]) := by
  obtain ⟨i, op⟩ := x
  cases op with
  | prepare ctx f =>
    obtain ⟨hi, hctx, hf, hfresh⟩ := hlegal
    exact ⟨_, rfl, h.prepare (m := s.newMachine ctx) rfl rfl hi hctx hf hfresh⟩
  | cleanup =>
    obtain ⟨ctx, hi⟩ := Option.ne_none_iff_exists'.mp hlegal
    obtain ⟨m', hm', hinv⟩ := h.cleanup hi
    exact ⟨s.put i none m', by simp [contextStep, hi, hm'], hinv⟩

omit [DecidableEq ι] in
theorem start (mem : Memory) : ContextsInv (noContexts mem : Contexts ι) [] := by
  have hnone : ∀ i q, (noContexts mem : Contexts ι).frame i q = none := fun _ _ => rfl
  have hpage : ∀ x, (noContexts mem : Contexts ι).page x = none := fun x =>
    Contexts.page_eq_none rfl x.2
  exact ⟨fun _ _ h => absurd h (by simp [noContexts]),
    fun i _ _ q _ a h => absurd h (by simp [hnone]),
    fun i q a h => absurd h (by simp [hnone]), ⟨fun x _ a h => absurd h (by simp [hpage]),
      fun x a h => absurd h (by simp [hpage]), fun x a h => absurd h (by simp [hpage]),
      fun a h => absurd h List.not_mem_nil, trivial⟩⟩

/-- Every run returns and ends with the invariant. -/
theorem run {mem : Memory} {ops : List (ι × ContextOp)}
    (hops : Run.Along contextStep ContextLegal (noContexts mem) ops) :
    ∃ hist s, Run.run contextStep (noContexts mem) ops = some (hist, s) ∧ ContextsInv s hist := by
  have hrun := Run.run_of_step (P := ContextLegal) ContextsInv
    (fun _ _ _ h hlegal => ⟨(), h.step hlegal⟩) (ContextsInv.start mem) hops
  simpa only [List.nil_append] using hrun

theorem of_run {mem : Memory} {ops : List (ι × ContextOp)}
    (hops : Run.Along contextStep ContextLegal (noContexts mem) ops)
    (hrun : Run.run contextStep (noContexts mem) ops = some (hist, s)) : ContextsInv s hist := by
  obtain ⟨hist', s', hrun', hinv⟩ := run hops
  obtain ⟨rfl, rfl⟩ := Prod.mk.inj (Option.some.inj (hrun.symm.trans hrun'))
  exact hinv

end ContextsInv

end

/-! ## Runs -/

/-- In every run of `prepare_context_mm` and `cleanup_context_mm` for any number of contexts, all
calls return; in the end every live context has the address space that it was prepared with, no
frame is at two places in their tables, none of their frames was freed, and every page that was
allocated is that of one live context, or was freed exactly once since. -/
theorem contexts_run {ι : Type*} [DecidableEq ι] (mem : Memory) (ops : List (ι × ContextOp))
    (hops : Run.Along contextStep ContextLegal (noContexts mem) ops) :
    ∃ hist s, Run.run contextStep (noContexts mem) ops = some (hist, s) ∧
      (∀ i ctx, s.ctx i = some ctx → ∃ m f, (i, .prepare m.ctx f) ∈ ops ∧
        ctx = { m.ctx with pgd := f.pgd } ∧ Prepared m (s.machine ctx)) ∧
      FramesApart s ∧ FramesInUse s ∧ Accounts ∅ (pagesOf s.log) s.page := by
  obtain ⟨hist, s, hrun, hinv⟩ := ContextsInv.run hops
  refine ⟨hist, s, hrun, fun i ctx hi => ?_, fun i j q r a hq hr => ?_, hinv.inUse, hinv.pages⟩
  · obtain ⟨m, f, hin, hk⟩ := hinv.live i ctx hi
    rw [Run.map_fst_of_run hrun] at hin
    exact ⟨m, f, hin, hk.ctx, hk.prepared⟩
  · by_cases hij : i = j
    · subst hij
      cases hi : s.ctx i with
      | none =>
        rw [Contexts.frame_eq_none hi] at hq
        exact absurd hq (by simp)
      | some ctx =>
        obtain ⟨m, f, -, hk⟩ := hinv.live i ctx hi
        exact ⟨rfl, hk.frame_inj hi hq hr⟩
    · exact absurd hr (hinv.apart i j hij q r a hq)

instance {ι : Type*} (s : Contexts ι) : (op : ι × ContextOp) → Decidable (ContextLegal s op)
  | (_, .prepare _ _) => inferInstanceAs (Decidable (_ ∧ _ ∧ _ ∧ _))
  | (_, .cleanup) => inferInstanceAs (Decidable (_ ≠ _))

/-- Two contexts in the layout of `context.h`. One of them is taken down, and prepared again in the
frames that it had. -/
def preparedTwice : List (Bool × ContextOp) :=
  [(true, .prepare (newContext 0x800000000).ctx contextFrames),
    (false, .prepare { (newContext 0x800000000).ctx with argPfn := 60 }
      ⟨2, ⟨40, 41, 42, 43⟩, ⟨44, 45, 46, 47⟩, 48, 49, 50⟩),
    (true, .cleanup),
    (true, .prepare (newContext 0x800000000).ctx { contextFrames with pgd := 3 })]

theorem contexts_run_twice : ∃ hist s,
    Run.run contextStep (noContexts fun _ _ => 0) preparedTwice = some (hist, s) ∧
      (∀ i ctx, s.ctx i = some ctx → ∃ m f, (i, .prepare m.ctx f) ∈ preparedTwice ∧
        ctx = { m.ctx with pgd := f.pgd } ∧ Prepared m (s.machine ctx)) ∧
      FramesApart s ∧ FramesInUse s ∧ Accounts ∅ (pagesOf s.log) s.page :=
  contexts_run (fun _ _ => 0) preparedTwice (by decide +kernel)

end GemOS.Paging
