import GemOS.Paging.Context

/-!
# What `prepare_context_mm` maps

`prepare_context_mm` fills up three paths, one after the other. Which entries a path finds present
depends on how much of it it shares with the paths before, so that an entry has the flags of the
first segment whose path comes through it (`Passes.walk`). `prepare_context_mm_maps` reads off the
pages and what may be done with them.
-/

namespace GemOS.Paging

open Ledger

theorem getD_mem {gs : List ℕ} {n : ℕ} (h : n < gs.length) : gs.getD n 0 ∈ gs := by
  rw [List.getD_eq_getElem?_getD, List.getElem?_eq_getElem h, Option.getD_some]
  exact List.getElem_mem h

/-- A node is a table or a page. -/
def nodeRegion (q : List (Fin 512)) : Region := if q.length = 4 then .userReg else .osPtReg

/-! ## Three paths -/

/-- The paths of the stack, the code, and the data, with the frames that may be hung into each, are
filled up one after the other in an empty table. -/
structure Passes where
  /-- The table. -/
  pgd : ℕ
  /-- The paths. -/
  s : List (Fin 512)
  c : List (Fin 512)
  d : List (Fin 512)
  /-- The frames. -/
  gs : List ℕ
  gc : List ℕ
  gd : List ℕ
  /-- The tables before, between, and after the passes. -/
  mem₀ : Memory
  mem₁ : Memory
  mem₂ : Memory
  mem₃ : Memory
  /-- The table is empty. -/
  start : ∀ q w, mem₀.walk pgd q = some w → q = []
  /-- The first pass. -/
  stack : Memory.PathFilled mem₀ mem₁ pgd rwFlags [] s gs
  /-- The second pass. -/
  code : Memory.PathFilled mem₁ mem₂ pgd roFlags [] c gc
  /-- The third pass. -/
  data : Memory.PathFilled mem₂ mem₃ pgd rwFlags [] d gd
  /-- The paths lead to pages. -/
  s_length : s.length = 4
  c_length : c.length = 4
  d_length : d.length = 4

namespace Passes

variable {P : Passes} {q r : List (Fin 512)} {i : Fin 512}

/-- The flags of the entry at the end of a path. -/
def flags (P : Passes) (q : List (Fin 512)) : ℕ :=
  if q <+: P.s then rwFlags else if q <+: P.c then roFlags else rwFlags

/-- The frame at the end of a path. -/
def frame (P : Passes) (q : List (Fin 512)) : ℕ :=
  (if q <+: P.s then P.gs else if q <+: P.c then P.gc else P.gd).getD (q.length - 1) 0

/-- The nodes below the top table. -/
def Node (P : Passes) (q : List (Fin 512)) : Prop := q ≠ [] ∧ (q <+: P.s ∨ q <+: P.c ∨ q <+: P.d)

theorem Node.length_le (h : P.Node q) : q.length ≤ 4 := by
  rcases h.2 with h | h | h
  · exact h.length_le.trans P.s_length.le
  · exact h.length_le.trans P.c_length.le
  · exact h.length_le.trans P.d_length.le

end Passes

namespace Memory.PathFilled

variable {mem mem' : Memory} {pgd flags : ℕ} {p q : List (Fin 512)} {gs : List ℕ}

/-- The nodes after a path was filled up. -/
theorem walk_eq_none_iff (h : PathFilled mem mem' pgd flags [] p gs) (hq : q.length ≤ 4) :
    mem'.walk pgd q = none ↔ mem.walk pgd q = none ∧ ¬q <+: p := by
  constructor
  · intro hnone
    refine ⟨?_, fun hpre => ?_⟩
    · cases hmem : mem.walk pgd q with
      | none => rfl
      | some w => exact absurd ((h.kept hq hmem).symm.trans hnone) (by simp)
    · obtain ⟨w, hw⟩ := h.present hpre
      exact absurd (hw.symm.trans hnone) (by simp)
  · rintro ⟨hnone, hpre⟩
    rw [h.other q hq fun r hr _ heq => hpre (by simpa [heq] using hr), hnone]

end Memory.PathFilled

namespace Passes

variable {P : Passes} {q r : List (Fin 512)} {i : Fin 512} {w : ℕ × List ℕ}

theorem none₀ (hq : q ≠ []) : P.mem₀.walk P.pgd q = none := by
  cases h : P.mem₀.walk P.pgd q with
  | none => rfl
  | some w => exact absurd (P.start q w h) hq

theorem none₁ (hq : q ≠ []) (hle : q.length ≤ 4) : P.mem₁.walk P.pgd q = none ↔ ¬q <+: P.s := by
  rw [P.stack.walk_eq_none_iff hle, and_iff_right (none₀ hq)]

theorem none₂ (hq : q ≠ []) (hle : q.length ≤ 4) :
    P.mem₂.walk P.pgd q = none ↔ ¬q <+: P.s ∧ ¬q <+: P.c := by
  rw [P.code.walk_eq_none_iff hle, none₁ hq hle]

/-- A path that is not one of a node leads nowhere. -/
theorem none₃ (hq : q ≠ []) (hle : q.length ≤ 4) : P.mem₃.walk P.pgd q = none ↔ ¬P.Node q := by
  rw [P.data.walk_eq_none_iff hle, none₂ hq hle, Node]
  tauto

theorem frame_of_s (hs : r ++ [i] <+: P.s) : P.frame (r ++ [i]) = P.gs.getD r.length 0 := by
  rw [frame, if_pos hs, List.length_append, List.length_singleton, Nat.add_sub_cancel]

theorem frame_of_c (hs : ¬r ++ [i] <+: P.s) (hc : r ++ [i] <+: P.c) :
    P.frame (r ++ [i]) = P.gc.getD r.length 0 := by
  rw [frame, if_neg hs, if_pos hc, List.length_append, List.length_singleton, Nat.add_sub_cancel]

theorem frame_of_d (hs : ¬r ++ [i] <+: P.s) (hc : ¬r ++ [i] <+: P.c) :
    P.frame (r ++ [i]) = P.gd.getD r.length 0 := by
  rw [frame, if_neg hs, if_neg hc, List.length_append, List.length_singleton, Nat.add_sub_cancel]

/-- The walk to a node: the entry is the one of the first pass that came through it. -/
theorem walk (h : P.Node (r ++ [i])) : ∃ es,
    P.mem₃.walk P.pgd (r ++ [i]) =
      some (P.frame (r ++ [i]), es ++ [mkEntry (P.frame (r ++ [i])) (P.flags (r ++ [i]))]) := by
  have hlen := h.length_le
  by_cases hs : r ++ [i] <+: P.s
  · obtain ⟨w, -, hentry⟩ := P.stack.created hs (none₀ h.1)
    refine ⟨w.2, ?_⟩
    rw [P.data.kept hlen (P.code.kept hlen hentry), frame_of_s hs, flags, if_pos hs]
  · by_cases hc : r ++ [i] <+: P.c
    · obtain ⟨w, -, hentry⟩ := P.code.created hc ((none₁ h.1 hlen).mpr hs)
      refine ⟨w.2, ?_⟩
      rw [P.data.kept hlen hentry, frame_of_c hs hc, flags, if_neg hs, if_pos hc]
    · have hd : r ++ [i] <+: P.d := (h.2.resolve_left hs).resolve_left hc
      obtain ⟨w, -, hentry⟩ := P.data.created hd ((none₂ h.1 hlen).mpr ⟨hs, hc⟩)
      refine ⟨w.2, ?_⟩
      rw [hentry, frame_of_d hs hc, flags, if_neg hs, if_neg hc]

/-- The entries on the way to a page are those of the nodes on the way. -/
theorem mem_entries {p : List (Fin 512)} (hp : P.mem₃.walk P.pgd p = some w)
    (hle : p.length ≤ 4) (e : ℕ) :
    e ∈ w.2 ↔ ∃ q, q ≠ [] ∧ q <+: p ∧ e = mkEntry (P.frame q) (P.flags q) := by
  have hnode : ∀ q v, q ≠ [] → q <+: p → P.mem₃.walk P.pgd q = some v →
      P.Node q := fun q v hq hpre hv => by
    by_contra hn
    exact absurd (((none₃ hq (hpre.length_le.trans hle)).mpr hn).symm.trans hv) (by simp)
  constructor
  · intro he
    obtain ⟨r, i, g, es, hpre, hwalk⟩ := Memory.mem_entries hp he
    obtain ⟨es', hwalk'⟩ := walk (hnode _ _ (by simp) hpre hwalk)
    have heq := congrArg Prod.snd (Option.some.inj (hwalk.symm.trans hwalk'))
    have he' := (List.append_inj' heq rfl).2
    exact ⟨r ++ [i], by simp, hpre, List.singleton_injective he'⟩
  · rintro ⟨q, hq, hpre, rfl⟩
    obtain ⟨v, hv⟩ := Memory.walk_of_prefix hp hpre
    rcases List.eq_nil_or_concat q with rfl | ⟨r, i, rfl⟩
    · exact absurd rfl hq
    · rw [List.concat_eq_append] at *
      obtain ⟨es, hwalk⟩ := walk (hnode _ _ hq hpre hv)
      exact Memory.entries_of_prefix hp hpre hwalk (by simp)

theorem Node.of_s (P : Passes) : P.Node P.s :=
  ⟨List.ne_nil_of_length_pos (P.s_length ▸ by decide), Or.inl (List.prefix_refl _)⟩

theorem Node.of_c (P : Passes) : P.Node P.c :=
  ⟨List.ne_nil_of_length_pos (P.c_length ▸ by decide), Or.inr (Or.inl (List.prefix_refl _))⟩

theorem Node.of_d (P : Passes) : P.Node P.d :=
  ⟨List.ne_nil_of_length_pos (P.d_length ▸ by decide), Or.inr (Or.inr (List.prefix_refl _))⟩

/-- The frame at the end of a walk to a node. -/
theorem walk_node (h : P.Node q) : ∃ es, P.mem₃.walk P.pgd q = some (P.frame q, es) := by
  rcases List.eq_nil_or_concat q with rfl | ⟨r, i, rfl⟩
  · exact absurd rfl h.1
  · rw [List.concat_eq_append] at h ⊢
    obtain ⟨es, hwalk⟩ := walk h
    exact ⟨_, hwalk⟩

/-- The frames of the pages are the last ones of the segments. -/
theorem frame_s (P : Passes) : P.frame P.s = P.gs.getD 3 0 := by
  rw [frame, if_pos (List.prefix_refl _), P.s_length]

theorem frame_c (h : P.c ≠ P.s) : P.frame P.c = P.gc.getD 3 0 := by
  rw [frame, if_neg fun hpre => h (hpre.eq_of_length (P.c_length.trans P.s_length.symm)),
    if_pos (List.prefix_refl _), P.c_length]

theorem frame_d (hs : P.d ≠ P.s) (hc : P.d ≠ P.c) : P.frame P.d = P.gd.getD 3 0 := by
  rw [frame, if_neg fun hpre => hs (hpre.eq_of_length (P.d_length.trans P.s_length.symm)),
    if_neg fun hpre => hc (hpre.eq_of_length (P.d_length.trans P.c_length.symm)), P.d_length]

/-- A bit is set in all entries on the way to a node if it is set in the flags of all nodes on the
way. -/
theorem forall_entries_iff (hp : P.Node q) {n : ℕ} (hn : n < 12) :
    (∀ w, P.mem₃.walk P.pgd q = some w → ∀ e ∈ w.2, e.testBit n = true) ↔
      ∀ r, r ≠ [] → r <+: q → (P.flags r).testBit n = true := by
  obtain ⟨es, hwalk⟩ := walk_node hp
  have hentries := mem_entries hwalk hp.length_le
  constructor
  · intro h r hr hpre
    rw [← testBit_mkEntry (P.frame r) _ hn]
    exact h _ hwalk _ ((hentries _).mpr ⟨r, hr, hpre, rfl⟩)
  · intro h w hw e he
    obtain rfl := Option.some.inj (hwalk.symm.trans hw)
    obtain ⟨r, hr, hpre, rfl⟩ := (hentries e).mp he
    rw [testBit_mkEntry _ _ hn]
    exact h r hr hpre

theorem flags_user (P : Passes) (q : List (Fin 512)) : (P.flags q).testBit 2 = true := by
  unfold flags
  split_ifs <;> decide

theorem flags_write (P : Passes) (q : List (Fin 512)) :
    (P.flags q).testBit 1 = true ↔ q <+: P.s ∨ ¬q <+: P.c := by
  unfold flags
  by_cases hs : q <+: P.s
  · rw [if_pos hs]
    exact iff_of_true (by decide) (Or.inl hs)
  · by_cases hc : q <+: P.c
    · rw [if_neg hs, if_pos hc]
      exact iff_of_false (by decide) fun h => h.elim hs fun h => h hc
    · rw [if_neg hs, if_neg hc]
      exact iff_of_true (by decide) (Or.inr hc)

end Passes

/-! ## The passes of `prepare_context_mm` -/

/-- The path to the page of the stack. -/
def ExecContext.stackPath (ctx : ExecContext) : List (Fin 512) := path ctx.stackVA

/-- The path to the page of the code. -/
def ExecContext.codePath (ctx : ExecContext) : List (Fin 512) := path ctx.codeStart

/-- The path to the page of the data. -/
def ExecContext.dataPath (ctx : ExecContext) : List (Fin 512) := path ctx.dataStart

namespace Machine

/-- The top table is allocated. -/
def withPgd (m : Machine) (f : ContextFrames) : Machine :=
  { m.osPfnAlloc .osPtReg f.pgd with ctx := { m.ctx with pgd := f.pgd } }

/-- The stack is mapped. -/
def withStack (m : Machine) (f : ContextFrames) : Machine :=
  (m.withPgd f).mapSegment rwFlags m.ctx.stackVA f.stack

/-- The code is mapped. -/
def withCode (m : Machine) (f : ContextFrames) : Machine :=
  (m.withStack f).mapSegment roFlags m.ctx.codeStart f.code

theorem withStack_ctx (m : Machine) (f : ContextFrames) :
    (m.withStack f).ctx = { m.ctx with pgd := f.pgd } := mapSegment_ctx _ _ _ _

theorem withCode_ctx (m : Machine) (f : ContextFrames) :
    (m.withCode f).ctx = { m.ctx with pgd := f.pgd } :=
  (mapSegment_ctx _ _ _ _).trans (m.withStack_ctx f)

theorem prepareContextMm_eq (m : Machine) (f : ContextFrames) :
    m.prepareContextMm f = (m.withCode f).mapData m.ctx.dataStart f := by
  simp only [prepareContextMm, withCode, withStack, withPgd, mapSegment_ctx]
  rfl

variable {m : Machine} {f : ContextFrames} {g : ℕ}

theorem start_withPgd (m : Machine) (f : ContextFrames) {q : List (Fin 512)} {w : ℕ × List ℕ}
    (h : (m.withPgd f).mem.walk f.pgd q = some w) : q = [] := by
  cases q with
  | nil => rfl
  | cons i q =>
    have hpres := (Memory.node_edge_some h).1
    rw [show (m.withPgd f).mem f.pgd i = 0 by
      simp [withPgd, osPfnAlloc, PageTables.osPfnAlloc]] at hpres
    exact absurd hpres (by decide)

theorem treeShaped_withPgd (m : Machine) (f : ContextFrames) : (m.withPgd f).mem.TreeShaped f.pgd :=
  fun _ _ _ _ _ _ hv hw _ => (m.start_withPgd f hv).trans (m.start_withPgd f hw).symm

theorem notTable_withPgd (hg : g ≠ f.pgd) : (m.withPgd f).mem.NotTable f.pgd g := by
  intro q w _ hw
  obtain rfl := m.start_withPgd f hw
  obtain rfl := Option.some.inj ((Memory.walk_nil _ _).symm.trans hw)
  exact hg.symm

end Machine

namespace ContextFrames.Ok

variable {m : Machine} {f : ContextFrames} {argPfn a : ℕ}

theorem ne_pgd (hf : f.Ok argPfn)
    (ha : a ∈ f.stack.frames ∨ a ∈ f.code.frames ∨ a ∈ (f.data argPfn).frames) :
    a ≠ f.pgd := by
  rintro rfl
  exact (List.nodup_cons.mp hf.nodup).1 (by simpa [or_assoc] using ha)

/-- The frames of each segment are different, and not those of the segments before. -/
theorem parts (hf : f.Ok argPfn) : f.stack.frames.Nodup ∧ f.code.frames.Nodup ∧
    (f.data argPfn).frames.Nodup ∧ (∀ a ∈ f.code.frames, a ∉ f.stack.frames) ∧
    (∀ a ∈ (f.data argPfn).frames, a ∉ f.stack.frames ∧ a ∉ f.code.frames) := by
  obtain ⟨hsc, hd, hscd⟩ := List.nodup_append.mp (List.nodup_cons.mp hf.nodup).2
  obtain ⟨hs, hc, hsc⟩ := List.nodup_append.mp hsc
  refine ⟨hs, hc, hd, fun a ha has => hsc a has a ha rfl, fun a ha =>
    ⟨fun has => ?_, fun hac => ?_⟩⟩
  · exact hscd a (List.mem_append_left _ has) a ha rfl
  · exact hscd a (List.mem_append_right _ hac) a ha rfl

theorem stack_lt (hf : f.Ok argPfn) : ∀ g ∈ f.stack.frames, g < 2^20 :=
  fun g hg => hf.lt g (by simp [hg])

theorem code_lt (hf : f.Ok argPfn) : ∀ g ∈ f.code.frames, g < 2^20 :=
  fun g hg => hf.lt g (by simp [hg])

theorem data_lt (hf : f.Ok argPfn) : ∀ g ∈ (f.data argPfn).frames, g < 2^20 :=
  fun g hg => hf.lt g (List.mem_append_right _ hg)

end ContextFrames.Ok

/-- A frame that was not hung in is no table as before. -/
theorem Memory.PathFilled.notTable_of_not_mem {mem mem' : Memory} {pgd flags x : ℕ}
    {p : List (Fin 512)}
    {gs : List ℕ} (h : PathFilled mem mem' pgd flags [] p gs) (hgs : gs.length = 4)
    (hx : mem.NotTable pgd x) (hne : x ∉ gs) : mem'.NotTable pgd x :=
  h.notTable hx fun n hn heq => hne (heq ▸ getD_mem (by omega))

namespace Machine

variable {m : Machine} {f : ContextFrames}

theorem stackFillable (hf : f.Ok m.ctx.argPfn) : (m.withPgd f).mem.Fillable f.pgd f.stack.frames :=
  ⟨treeShaped_withPgd m f, hf.parts.1, fun _ hg =>
    notTable_withPgd (hf.ne_pgd (Or.inl hg)), hf.stack_lt⟩

theorem stackFilled (hf : f.Ok m.ctx.argPfn) :
    Memory.PathFilled (m.withPgd f).mem (m.withStack f).mem
    f.pgd rwFlags [] m.ctx.stackPath f.stack.frames := by
  rw [withStack, mapSegment_mem]
  exact Memory.walk_fillPath (stackFillable hf) (Memory.walk_nil _ _) rfl rfl
    (by decide) (by decide)

theorem codeFillable (hf : f.Ok m.ctx.argPfn) :
    (m.withStack f).mem.Fillable f.pgd f.code.frames := by
  obtain ⟨-, hc, -, hsc, -⟩ := hf.parts
  refine ⟨(stackFilled hf).treeShaped, hc, fun g hg => ?_, hf.code_lt⟩
  exact (stackFilled hf).notTable_of_not_mem rfl (notTable_withPgd (hf.ne_pgd (Or.inr (Or.inl hg))))
    (hsc g hg)

theorem codeFilled (hf : f.Ok m.ctx.argPfn) :
    Memory.PathFilled (m.withStack f).mem (m.withCode f).mem
    f.pgd roFlags [] m.ctx.codePath f.code.frames := by
  rw [withCode, mapSegment_mem, withStack_ctx]
  exact Memory.walk_fillPath (codeFillable hf) (Memory.walk_nil _ _) rfl rfl (by decide) (by decide)

theorem dataFillable (hf : f.Ok m.ctx.argPfn) :
    (m.withCode f).mem.Fillable f.pgd (f.data m.ctx.argPfn).frames := by
  obtain ⟨-, -, hd, -, hscd⟩ := hf.parts
  refine ⟨(codeFilled hf).treeShaped, hd, fun g hg => ?_, hf.data_lt⟩
  have hstack := (stackFilled hf).notTable_of_not_mem rfl
    (notTable_withPgd (hf.ne_pgd (Or.inr (Or.inr hg)))) (hscd g hg).1
  exact (codeFilled hf).notTable_of_not_mem rfl hstack (hscd g hg).2

theorem dataFilled (hf : f.Ok m.ctx.argPfn) : Memory.PathFilled (m.withCode f).mem
    (m.prepareContextMm f).mem f.pgd rwFlags [] m.ctx.dataPath (f.data m.ctx.argPfn).frames := by
  rw [prepareContextMm_eq, mapData_mem, withCode_ctx]
  exact Memory.walk_fillPath (dataFillable hf) (Memory.walk_nil _ _) rfl rfl (by decide) (by decide)

/-- The three passes. -/
def passes (m : Machine) (f : ContextFrames) (hf : f.Ok m.ctx.argPfn) : Passes where
  pgd := f.pgd
  s := m.ctx.stackPath
  c := m.ctx.codePath
  d := m.ctx.dataPath
  gs := f.stack.frames
  gc := f.code.frames
  gd := (f.data m.ctx.argPfn).frames
  mem₀ := (m.withPgd f).mem
  mem₁ := (m.withStack f).mem
  mem₂ := (m.withCode f).mem
  mem₃ := (m.prepareContextMm f).mem
  start _ _ h := m.start_withPgd f h
  stack := stackFilled hf
  code := codeFilled hf
  data := dataFilled hf
  s_length := rfl
  c_length := rfl
  d_length := rfl

/-- The frames that the passes over the stack and the code hang in. -/
def createdFirst (m : Machine) (f : ContextFrames) : List (Region × ℕ) :=
  Memory.created rwFlags (m.withPgd f).mem f.pgd m.ctx.stackPath f.stack.frames ++
    Memory.created roFlags (m.withStack f).mem f.pgd m.ctx.codePath f.code.frames

/-- The frames that the three passes hang in. -/
def created (m : Machine) (f : ContextFrames) : List (Region × ℕ) :=
  m.createdFirst f ++ Memory.created rwFlags (m.withCode f).mem f.pgd m.ctx.dataPath
    (f.data m.ctx.argPfn).frames

theorem nodeRegion_eq {p q : List (Fin 512)} (hp : p.length = 4) (h : q <+: p) :
    nodeRegion q = if q = p then .userReg else .osPtReg := by
  unfold nodeRegion
  by_cases hq : q = p
  · rw [if_pos hq, if_pos (by rw [hq, hp])]
  · rw [if_neg hq, if_neg fun hlen => hq (h.eq_of_length (hlen.trans hp.symm))]

/-- In the pass over the data they are those of the nodes that are new. -/
theorem mem_created_data (hf : f.Ok m.ctx.argPfn) {region : Region} {a : ℕ} :
    (region, a) ∈ Memory.created rwFlags (m.withCode f).mem f.pgd m.ctx.dataPath
        (f.data m.ctx.argPfn).frames ↔
      ∃ r i, r ++ [i] <+: m.ctx.dataPath ∧
        (¬r ++ [i] <+: m.ctx.stackPath ∧ ¬r ++ [i] <+: m.ctx.codePath) ∧
        a = (f.data m.ctx.argPfn).frames.getD r.length 0 ∧
        region = if r ++ [i] = m.ctx.dataPath then .userReg else .osPtReg := by
  have hnone : ∀ r i, r ++ [i] <+: m.ctx.dataPath →
      ((m.withCode f).mem.walk f.pgd (r ++ [i]) = none ↔
      ¬r ++ [i] <+: m.ctx.stackPath ∧ ¬r ++ [i] <+: m.ctx.codePath) := fun r i h =>
    Passes.none₂ (P := m.passes f hf) (by simp) h.length_le
  rw [Memory.mem_created (dataFillable hf) (Memory.walk_nil _ _) rfl rfl (by decide) (by decide)]
  exact exists_congr fun r => exists_congr fun i => and_congr_right fun h =>
    and_congr_left fun _ => hnone r i h

/-- They are the frames of the nodes. -/
theorem mem_created (hf : f.Ok m.ctx.argPfn) (region : Region) (a : ℕ) :
    (region, a) ∈ m.created f ↔
      ∃ q, (m.passes f hf).Node q ∧ a = (m.passes f hf).frame q ∧ region = nodeRegion q := by
  have hstack : (region, a) ∈ Memory.created rwFlags (m.withPgd f).mem f.pgd m.ctx.stackPath
      f.stack.frames ↔
      ∃ r i, r ++ [i] <+: m.ctx.stackPath ∧ (m.withPgd f).mem.walk f.pgd (r ++ [i]) = none ∧
        a = f.stack.frames.getD r.length 0 ∧
        region = if r ++ [i] = m.ctx.stackPath then .userReg else .osPtReg :=
    Memory.mem_created (stackFillable hf) (Memory.walk_nil _ _) rfl rfl (by decide) (by decide)
  have hcode : (region, a) ∈ Memory.created roFlags (m.withStack f).mem f.pgd m.ctx.codePath
      f.code.frames ↔
      ∃ r i, r ++ [i] <+: m.ctx.codePath ∧ (m.withStack f).mem.walk f.pgd (r ++ [i]) = none ∧
        a = f.code.frames.getD r.length 0 ∧
        region = if r ++ [i] = m.ctx.codePath then .userReg else .osPtReg :=
    Memory.mem_created (codeFillable hf) (Memory.walk_nil _ _) rfl rfl (by decide) (by decide)
  -- A frame is hung in by the first pass that comes to the node.
  have hnone₁ : ∀ r i, r ++ [i] <+: m.ctx.codePath →
      ((m.withStack f).mem.walk f.pgd (r ++ [i]) = none ↔
        ¬r ++ [i] <+: m.ctx.stackPath) := fun r i h =>
    Passes.none₁ (P := m.passes f hf) (by simp) h.length_le
  rw [created, createdFirst, List.mem_append, List.mem_append, hstack, hcode, mem_created_data hf]
  constructor
  · rintro ((⟨r, i, hpre, -, ha, hr⟩ | ⟨r, i, hpre, hnone, ha, hr⟩) | ⟨r, i, hpre, hnone, ha, hr⟩)
    · exact ⟨r ++ [i], ⟨by simp, Or.inl hpre⟩,
        ha.trans (Passes.frame_of_s (P := m.passes f hf) hpre).symm,
        hr.trans (nodeRegion_eq rfl hpre).symm⟩
    · have hs := (hnone₁ r i hpre).mp hnone
      exact ⟨r ++ [i], ⟨by simp, Or.inr (Or.inl hpre)⟩,
        ha.trans (Passes.frame_of_c (P := m.passes f hf) hs hpre).symm,
        hr.trans (nodeRegion_eq rfl hpre).symm⟩
    · obtain ⟨hs, hc⟩ := hnone
      exact ⟨r ++ [i], ⟨by simp, Or.inr (Or.inr hpre)⟩,
        ha.trans (Passes.frame_of_d (P := m.passes f hf) hs hc).symm,
        hr.trans (nodeRegion_eq rfl hpre).symm⟩
  · rintro ⟨q, hq, ha, hr⟩
    obtain ⟨r, i, rfl⟩ := (List.eq_nil_or_concat q).resolve_left hq.1
    rw [List.concat_eq_append] at *
    by_cases hs : r ++ [i] <+: m.ctx.stackPath
    · exact Or.inl (Or.inl ⟨r, i, hs, Passes.none₀ (P := m.passes f hf) (by simp),
        ha.trans (Passes.frame_of_s hs), hr.trans (nodeRegion_eq rfl hs)⟩)
    · by_cases hc : r ++ [i] <+: m.ctx.codePath
      · exact Or.inl (Or.inr ⟨r, i, hc, (hnone₁ r i hc).mpr hs, ha.trans (Passes.frame_of_c hs hc),
          hr.trans (nodeRegion_eq rfl hc)⟩)
      · have hd : r ++ [i] <+: m.ctx.dataPath := (hq.2.resolve_left hs).resolve_left hc
        exact Or.inr ⟨r, i, hd, ⟨hs, hc⟩, ha.trans (Passes.frame_of_d hs hc),
          hr.trans (nodeRegion_eq rfl hd)⟩

theorem path_length (address : ℕ) : (path address).length = 4 := rfl

theorem exists_concat_path (address : ℕ) : ∃ r i, r.length = 3 ∧ path address = r ++ [i] :=
  ⟨[_, _, _], _, rfl, rfl⟩

/-- When the page of the data is none of the others, all frames that are hung in are allocated,
apart from the one of this page, and the context keeps this frame. -/
theorem prepare_log (hf : f.Ok m.ctx.argPfn) (hs : m.ctx.dataPath ≠ m.ctx.stackPath)
    (hc : m.ctx.dataPath ≠ m.ctx.codePath) :
    (m.prepareContextMm f).ctx = { m.ctx with pgd := f.pgd } ∧
      ∃ l, (m.prepareContextMm f).log = allocs l ++ (.osPtReg, .alloc f.pgd) :: m.log ∧
        m.created f = l ++ [(.userReg, m.ctx.argPfn)] := by
  have hcode : (m.withCode f).log = allocs (m.createdFirst f) ++
      (.osPtReg, .alloc f.pgd) :: m.log := by
    rw [withCode, mapSegment_log, withStack_ctx, withStack, mapSegment_log, createdFirst,
      allocs_append, List.append_assoc]
    rfl
  -- The entry of the page is not present when the pass over the data comes to it.
  have hmem : (Region.userReg, m.ctx.argPfn) ∈ Memory.created rwFlags (m.withCode f).mem f.pgd
      m.ctx.dataPath (f.data m.ctx.argPfn).frames := by
    obtain ⟨r, i, hlen, hpath⟩ := exists_concat_path m.ctx.dataStart
    rw [mem_created_data hf]
    refine ⟨r, i, ?_, ⟨fun h => hs ?_, fun h => hc ?_⟩, ?_, ?_⟩
    · rw [← hpath]
      exact List.prefix_refl _
    · rw [← hpath] at h
      exact h.eq_of_length ((path_length _).trans (path_length _).symm)
    · rw [← hpath] at h
      exact h.eq_of_length ((path_length _).trans (path_length _).symm)
    · rw [hlen]
      rfl
    · rw [← hpath]
      exact (if_pos rfl).symm
  obtain ⟨l, hlog, hcreated⟩ := (m.withCode f).mapData_log m.ctx.dataStart f
  rw [withCode_ctx] at hcreated
  rw [prepareContextMm_eq]
  rcases hcreated with ⟨heq, hl⟩ | ⟨heq, hctx⟩
  · exact absurd (heq ▸ hmem) (hl _)
  · refine ⟨hctx, m.createdFirst f ++ l, ?_, ?_⟩
    · rw [hlog, hcode, allocs_append, List.append_assoc]
    · rw [created, List.append_assoc]
      exact congrArg (m.createdFirst f ++ ·) heq

/-! ## Pages -/

/-- The pages of a new context. -/
structure AddressSpace (m m' : Machine) : Prop where
  /-- The page of the data has the frame that is given. -/
  data : ∃ es, m'.walk m.ctx.dataPath = some (m.ctx.argPfn, es)
  /-- The pages of the stack and the code have new frames. -/
  pages : ∃ stackPfn codePfn es es' l, m'.walk m.ctx.stackPath = some (stackPfn, es) ∧
    m'.walk m.ctx.codePath = some (codePfn, es') ∧ stackPfn ≠ codePfn ∧ m'.log = l ++ m.log ∧
    (.userReg, .alloc stackPfn) ∈ l ∧ (.userReg, .alloc codePfn) ∈ l
  /-- No other page is present. -/
  other : ∀ p, p.length = 4 → p ≠ m.ctx.stackPath → p ≠ m.ctx.codePath → p ≠ m.ctx.dataPath →
    m'.walk p = none

theorem walk_prepare (hctx : (m.prepareContextMm f).ctx = { m.ctx with pgd := f.pgd })
    (hf : f.Ok m.ctx.argPfn) (p : List (Fin 512)) :
    (m.prepareContextMm f).walk p = (m.passes f hf).mem₃.walk (m.passes f hf).pgd p := by
  rw [Machine.walk, hctx]
  rfl

/-- `prepare_context_mm` maps the three pages. -/
theorem addressSpace (hf : f.Ok m.ctx.argPfn) (hcs : m.ctx.codePath ≠ m.ctx.stackPath)
    (hs : m.ctx.dataPath ≠ m.ctx.stackPath) (hc : m.ctx.dataPath ≠ m.ctx.codePath) :
    AddressSpace m (m.prepareContextMm f) := by
  obtain ⟨hctx, l, hlog, hcreated⟩ := prepare_log hf hs hc
  have hwalk := walk_prepare hctx hf
  have hstack : (m.passes f hf).frame m.ctx.stackPath = f.stack.dataPfn := Passes.frame_s _
  have hcode : (m.passes f hf).frame m.ctx.codePath = f.code.dataPfn :=
    Passes.frame_c (P := m.passes f hf) hcs
  have hdata : (m.passes f hf).frame m.ctx.dataPath = m.ctx.argPfn :=
    Passes.frame_d (P := m.passes f hf) hs hc
  obtain ⟨-, -, -, hsc, hscd⟩ := hf.parts
  have hargs := hscd m.ctx.argPfn (by simp [Fresh.frames, ContextFrames.data])
  -- Every page but that of the arguments is allocated by the function itself.
  have hmem : ∀ q, (m.passes f hf).Node q → q.length = 4 → (m.passes f hf).frame q ≠ m.ctx.argPfn →
      (Region.userReg, (m.passes f hf).frame q) ∈ l := fun q hq hlen hne => by
    have h := (mem_created hf .userReg _).mpr ⟨q, hq, rfl, (if_pos hlen).symm⟩
    rw [hcreated, List.mem_append, List.mem_singleton, Prod.mk.injEq] at h
    exact h.resolve_right fun heq => hne heq.2
  have halloc : ∀ a, (Region.userReg, a) ∈ l →
      (Region.userReg, Event.alloc a) ∈ allocs l ++ [(.osPtReg, .alloc f.pgd)] := fun a ha => by
    simpa [allocs] using ha
  refine ⟨?_, ?_, fun p hp hps hpc hpd => ?_⟩
  · obtain ⟨es, hes⟩ := Passes.walk_node (Passes.Node.of_d (m.passes f hf))
    exact ⟨es, by rw [hwalk, ← hdata]; exact hes⟩
  · obtain ⟨es, hes⟩ := Passes.walk_node (Passes.Node.of_s (m.passes f hf))
    obtain ⟨es', hes'⟩ := Passes.walk_node (Passes.Node.of_c (m.passes f hf))
    refine ⟨f.stack.dataPfn, f.code.dataPfn, es, es', allocs l ++ [(.osPtReg, .alloc f.pgd)],
      ?_, ?_, ?_, ?_, halloc _ ?_, halloc _ ?_⟩
    · rw [hwalk, ← hstack]
      exact hes
    · rw [hwalk, ← hcode]
      exact hes'
    · intro heq
      exact hsc f.code.dataPfn (by simp [Fresh.frames]) (by simp [Fresh.frames, ← heq])
    · rw [hlog, List.append_assoc]
      rfl
    · rw [← hstack]
      refine hmem _ (Passes.Node.of_s (m.passes f hf)) (path_length _) fun heq => hargs.1 ?_
      rw [← heq, hstack]
      simp [Fresh.frames]
    · rw [← hcode]
      refine hmem _ (Passes.Node.of_c (m.passes f hf)) (path_length _) fun heq => hargs.2 ?_
      rw [← heq, hcode]
      simp [Fresh.frames]
  · rw [hwalk, Passes.none₃ (List.ne_nil_of_length_pos (by omega)) hp.le]
    rintro ⟨-, h | h | h⟩
    · exact hps (h.eq_of_length (hp.trans (path_length _).symm))
    · exact hpc (h.eq_of_length (hp.trans (path_length _).symm))
    · exact hpd (h.eq_of_length (hp.trans (path_length _).symm))

/-! ## Permissions -/

/-- All entries on the way to a page carry a bit. -/
def Allows (m : Machine) (bit : ℕ → Bool) (p : List (Fin 512)) : Prop :=
  ∀ w, m.walk p = some w → ∀ e ∈ w.2, bit e = true

/-- The 1 GiB slot of an address. -/
def gibSlot (address : ℕ) : List (Fin 512) := (path address).take 2

/-- The 512 GiB slot of an address. -/
def topSlot (address : ℕ) : Fin 512 := tableOffset address 0x027

theorem path_eq_cons (address : ℕ) : ∃ p, path address = topSlot address :: p := ⟨_, rfl⟩

/-- What may be done with the pages. -/
structure Permissions (m m' : Machine) : Prop where
  /-- The user may read and write the stack. -/
  stack : m'.Allows userBit m.ctx.stackPath ∧ m'.Allows writeBit m.ctx.stackPath
  /-- The user may read the code, but not write it. -/
  code : m'.Allows userBit m.ctx.codePath ∧ ¬m'.Allows writeBit m.ctx.codePath
  /-- The user may read the data. -/
  data : m'.Allows userBit m.ctx.dataPath

theorem singleton_path_iff {x : Fin 512} {a : ℕ} : [x] <+: path a ↔ x = topSlot a := by
  obtain ⟨p, hp⟩ := path_eq_cons a
  rw [hp]
  simp

/-- A node on the way to two pages is in their 512 GiB slot. -/
theorem topSlot_eq {a b : ℕ} {q : List (Fin 512)} (hq : q ≠ []) (ha : q <+: path a)
    (hb : q <+: path b) :
    topSlot a = topSlot b := by
  obtain ⟨x, r, rfl⟩ := List.exists_cons_of_ne_nil hq
  have hx : [x] <+: x :: r := ⟨r, rfl⟩
  rw [← singleton_path_iff.mp (hx.trans ha), ← singleton_path_iff.mp (hx.trans hb)]

theorem gibSlot_path_iff {a b : ℕ} : gibSlot a <+: path b ↔ gibSlot a = gibSlot b := by
  constructor
  · rintro ⟨r, hr⟩
    have hlen : (gibSlot a).length = 2 := rfl
    have htake := congrArg (List.take 2) hr
    rwa [List.take_append_of_le_length hlen.ge, List.take_of_length_le hlen.le] at htake
  · intro h
    rw [h]
    exact List.take_prefix 2 _

/-- A table of level 2, or a node behind it, is in the 1 GiB slot of all its pages. -/
theorem gibSlot_eq {a b : ℕ} {q : List (Fin 512)} (hq : 2 ≤ q.length) (ha : q <+: path a)
    (hb : q <+: path b) : gibSlot a = gibSlot b := by
  have htake : ∀ c, q <+: path c → q.take 2 = gibSlot c := fun c hc => by
    obtain ⟨r, hr⟩ := hc
    rw [gibSlot, ← hr, List.take_append_of_le_length hq]
  exact (htake a ha).symm.trans (htake b hb)

/-- The stack is writable and the code is not, and the data is writable unless it is in the 512 GiB
slot of the code, and the stack is not. -/
theorem permissions (hf : f.Ok m.ctx.argPfn) (hcs : m.ctx.codePath ≠ m.ctx.stackPath)
    (hs : m.ctx.dataPath ≠ m.ctx.stackPath) (hc : m.ctx.dataPath ≠ m.ctx.codePath) :
    Permissions m (m.prepareContextMm f) ∧ (gibSlot m.ctx.codeStart ≠ gibSlot m.ctx.dataStart →
      ((m.prepareContextMm f).Allows writeBit m.ctx.dataPath ↔
        (topSlot m.ctx.codeStart = topSlot m.ctx.dataStart →
          topSlot m.ctx.stackVA = topSlot m.ctx.dataStart))) := by
  obtain ⟨hctx, -⟩ := prepare_log hf hs hc
  have hwalk := walk_prepare hctx hf
  -- Every entry of the three passes has the user bit, and those of the code no write bit.
  have huser : ∀ q, (m.passes f hf).Node q →
      (m.prepareContextMm f).Allows userBit q := fun q hq w hw =>
    (Passes.forall_entries_iff hq (by decide)).mpr (fun r _ _ => (m.passes f hf).flags_user r) w
      (by rwa [← hwalk])
  have hwrite : ∀ q, (m.passes f hf).Node q → ((m.prepareContextMm f).Allows writeBit q ↔
      ∀ r, r ≠ [] → r <+: q → r <+: m.ctx.stackPath ∨ ¬r <+: m.ctx.codePath) := fun q hq => by
    have hiff := Passes.forall_entries_iff hq (by decide : 1 < 12)
    simp only [Passes.flags_write] at hiff
    refine Iff.trans ?_ hiff
    simp only [Allows, hwalk, writeBit]
  have hcode := Passes.Node.of_c (m.passes f hf)
  refine ⟨⟨⟨huser _ (Passes.Node.of_s _),
      (hwrite _ (Passes.Node.of_s (m.passes f hf))).mpr fun r _ hr =>
    Or.inl hr⟩, ⟨huser _ hcode, fun h => ?_⟩, huser _ (Passes.Node.of_d _)⟩, fun hslot => ?_⟩
  · -- The page of the code is not one of the stack.
    rcases (hwrite _ hcode).mp h _ hcode.1 (List.prefix_refl _) with hpre | hpre
    · exact hcs (hpre.eq_of_length ((path_length _).trans (path_length _).symm))
    · exact hpre (List.prefix_refl _)
  · refine (hwrite _ (Passes.Node.of_d (m.passes f hf))).trans ?_
    constructor
    · intro h htop
      have hpre := h [topSlot m.ctx.dataStart] (by simp) (singleton_path_iff.mpr rfl)
      exact (singleton_path_iff.mp (hpre.resolve_right
        (not_not.mpr (singleton_path_iff.mpr htop.symm)))).symm
    · intro h r hr hrd
      by_cases hrc : r <+: m.ctx.codePath
      · -- A node on the way to code and data is a table of level 3, and so on the way to the stack.
        have hlen : r.length < 2 := by
          by_contra hge
          exact hslot (gibSlot_eq (by omega) hrc hrd)
        obtain ⟨x, rfl⟩ : ∃ x, r = [x] := List.length_eq_one_iff.mp (by
          have := List.length_pos_of_ne_nil hr
          omega)
        refine Or.inl (singleton_path_iff.mpr ?_)
        rw [h (topSlot_eq hr hrc hrd)]
        exact singleton_path_iff.mp hrd
      · exact Or.inr hrc

/-- After `prepare_context_mm` the three pages are present, and no others. When they are in
different 1 GiB slots, the user may write the stack, and not the code, and may write the data if and
only if the data is not in a 512 GiB slot with the code and without the stack. -/
theorem prepare_context_mm_maps (m : Machine) (f : ContextFrames) (hf : f.Ok m.ctx.argPfn)
    (hcs : m.ctx.codePath ≠ m.ctx.stackPath) (hs : m.ctx.dataPath ≠ m.ctx.stackPath)
    (hc : m.ctx.dataPath ≠ m.ctx.codePath) :
    AddressSpace m (m.prepareContextMm f) ∧
      ([gibSlot m.ctx.stackVA, gibSlot m.ctx.codeStart, gibSlot m.ctx.dataStart].Nodup →
        Permissions m (m.prepareContextMm f) ∧
          ((m.prepareContextMm f).Allows writeBit m.ctx.dataPath ↔
          (topSlot m.ctx.codeStart = topSlot m.ctx.dataStart →
            topSlot m.ctx.stackVA = topSlot m.ctx.dataStart))) := by
  obtain ⟨hperm, hdata⟩ := permissions hf hcs hs hc
  refine ⟨addressSpace hf hcs hs hc, fun hslots => ⟨hperm, hdata ?_⟩⟩
  simp only [List.nodup_cons, List.mem_singleton] at hslots
  exact hslots.2.1

end Machine

/-- A context whose stack ends at the given address, with code and data as in `context.h`. -/
def newContext (stackEnd : ℕ) : Machine where
  ctx := ⟨0, stackEnd, 0x100000000, 0x180000000, 30⟩
  mem _ _ := 0
  log := []

/-- Frames for it. -/
def contextFrames : ContextFrames := ⟨1, ⟨10, 11, 12, 13⟩, ⟨14, 15, 16, 17⟩, 18, 19, 20⟩

theorem contextFrames_ok : contextFrames.Ok 30 := ⟨by decide, by decide⟩

/-- In the layout of `context.h`, all pages are in one 512 GiB slot, and the data is writable. -/
theorem prepare_context_mm_maps_layout :
    Machine.AddressSpace (newContext 0x800000000)
      ((newContext 0x800000000).prepareContextMm contextFrames) ∧
      Machine.Permissions (newContext 0x800000000)
        ((newContext 0x800000000).prepareContextMm contextFrames) ∧
      ((newContext 0x800000000).prepareContextMm contextFrames).Allows writeBit
        (newContext 0x800000000).ctx.dataPath := by
  obtain ⟨hspace, hperm⟩ := Machine.prepare_context_mm_maps (newContext 0x800000000) contextFrames
    contextFrames_ok (by decide +kernel) (by decide +kernel) (by decide +kernel)
  obtain ⟨hperm, hdata⟩ := hperm (by decide +kernel)
  exact ⟨hspace, hperm, hdata.mpr fun _ => by decide +kernel⟩

/-- With the stack in another 512 GiB slot, the table of level 3 of the data is made for the code,
and the data is not writable. -/
theorem data_not_writable :
    contextFrames.Ok (newContext 0x8040000000).ctx.argPfn ∧
      [Machine.gibSlot (newContext 0x8040000000).ctx.stackVA,
        Machine.gibSlot (newContext 0x8040000000).ctx.codeStart,
        Machine.gibSlot (newContext 0x8040000000).ctx.dataStart].Nodup ∧
      ¬((newContext 0x8040000000).prepareContextMm contextFrames).Allows writeBit
        (newContext 0x8040000000).ctx.dataPath := by
  refine ⟨contextFrames_ok, by decide +kernel, fun h => ?_⟩
  obtain ⟨-, hdata⟩ := Machine.permissions (m := newContext 0x8040000000) contextFrames_ok
    (by decide +kernel) (by decide +kernel) (by decide +kernel)
  exact absurd ((hdata (by decide +kernel)).mp h (by decide +kernel)) (by decide +kernel)

end GemOS.Paging
