import GemOS.Paging.Walk

/-!
# The address space of a new context

A transcription of `prepare_context_mm` and `cleanup_context_mm` of `src/Assn1/context_mm.c`, which
build and take down the page table of a context with one page each of stack, code, and data. The
frames that `os_pfn_alloc` returns are parameters, as for page faults.
-/

namespace GemOS.Paging

open Ledger

/-- The fields of `struct exec_context` that are read or written here. -/
structure ExecContext where
  /-- The frame of the top table. -/
  pgd : ℕ
  /-- `mms[MM_SEG_STACK].end`. -/
  stackEnd : ℕ
  /-- `mms[MM_SEG_CODE].start`. -/
  codeStart : ℕ
  /-- `mms[MM_SEG_DATA].start`. -/
  dataStart : ℕ
  /-- The frame of the data page. -/
  argPfn : ℕ

/-- `stackVA`, an `unsigned long`. -/
def ExecContext.stackVA (ctx : ExecContext) : ℕ := (ctx.stackEnd + 2^64 - 1) % 2^64

/-- A context, the tables, and the calls of the allocator. -/
structure Machine extends PageTables where
  /-- The context. -/
  ctx : ExecContext

/-- The frames that `os_pfn_alloc` returns in `prepare_context_mm`. -/
structure ContextFrames where
  /-- For the top table. -/
  pgd : ℕ
  /-- For the stack. -/
  stack : Fresh
  /-- For the code. -/
  code : Fresh
  /-- For the tables of the data segment. -/
  dataL3 : ℕ
  dataL2 : ℕ
  dataL1 : ℕ

/-- The local variables of `cleanup_context_mm`, which are not set at the start. The pointers
`l3addr`, `l2addr`, and `l1addr` are set together with the frames. -/
structure Locals where
  pfnL3 : Option ℕ
  pfnL2 : Option ℕ
  pfnL1 : Option ℕ
  dataPfn : Option ℕ

namespace Machine

/-- A store to an entry of a table. -/
def setEntry (m : Machine) (frame : ℕ) (i : Fin 512) (entry : ℕ) : Machine :=
  { m with toPageTables := m.toPageTables.setEntry frame i entry }

/-- `os_pfn_alloc` returns the frame `pfn`. -/
def osPfnAlloc (m : Machine) (region : Region) (pfn : ℕ) : Machine :=
  { m with toPageTables := m.toPageTables.osPfnAlloc region pfn }

/-- `os_pfn_free`. -/
def osPfnFree (m : Machine) (region : Region) (pfn : ℕ) : Machine :=
  { m with toPageTables := m.toPageTables.osPfnFree region pfn }

/-! ## `prepare_context_mm` -/

/-- The frame that an entry points to; `pfn` is allocated for it when it is not present. -/
def ensureEntry (m : Machine) (region : Region) (flags frame : ℕ) (i : Fin 512) (pfn : ℕ) :
    ℕ × Machine :=
  let (pfn, t) := m.toPageTables.ensureEntry region flags frame i pfn
  (pfn, { m with toPageTables := t })

/-- The entries on the way to the page of the stack, or of the code. -/
def mapSegment (m : Machine) (flags address : ℕ) (fresh : Fresh) : Machine :=
  let (pfnL3, m) := m.ensureEntry .osPtReg flags m.ctx.pgd (tableOffset address 0x027) fresh.pfnL3
  let (pfnL2, m) := m.ensureEntry .osPtReg flags pfnL3 (tableOffset address 0x01E) fresh.pfnL2
  let (pfnL1, m) := m.ensureEntry .osPtReg flags pfnL2 (tableOffset address 0x015) fresh.pfnL1
  (m.ensureEntry .userReg flags pfnL1 (tableOffset address 0x00C) fresh.dataPfn).2

/-- The tables on the way to the page of the data. -/
def dataTables (m : Machine) (address : ℕ) (f : ContextFrames) : ℕ × Machine :=
  let (pfnL3, m) := m.ensureEntry .osPtReg rwFlags m.ctx.pgd (tableOffset address 0x027) f.dataL3
  let (pfnL2, m) := m.ensureEntry .osPtReg rwFlags pfnL3 (tableOffset address 0x01E) f.dataL2
  m.ensureEntry .osPtReg rwFlags pfnL2 (tableOffset address 0x015) f.dataL1

/-- The entries on the way to the page of the data, whose frame is given. -/
def mapData (m : Machine) (address : ℕ) (f : ContextFrames) : Machine :=
  let (pfnL1, m) := m.dataTables address f
  let entry := m.mem pfnL1 (tableOffset address 0x00C)
  if present entry then { m with ctx := { m.ctx with argPfn := entryPfn entry } }
  else m.setEntry pfnL1 (tableOffset address 0x00C) (mkEntry m.ctx.argPfn rwFlags)

/-- `prepare_context_mm`. -/
def prepareContextMm (m : Machine) (f : ContextFrames) : Machine :=
  let m := m.osPfnAlloc .osPtReg f.pgd
  let m := { m with ctx := { m.ctx with pgd := f.pgd } }
  let m := m.mapSegment rwFlags m.ctx.stackVA f.stack
  let m := m.mapSegment roFlags m.ctx.codeStart f.code
  m.mapData m.ctx.dataStart f

/-! ## `cleanup_context_mm` -/

/-- The walk of `cleanup_context_mm` for one segment; `freesL3` says whether the table of level 3 is
freed. A pointer that is not set is not followed. -/
def cleanupSegment (m : Machine) (freesL3 : Bool) (address : ℕ) (v : Locals) :
    Option (Locals × Machine) := do
  let entryL4 := m.mem m.ctx.pgd (tableOffset address 0x027)
  let v := if present entryL4 then { v with pfnL3 := some (entryPfn entryL4) } else v
  let pfnL3 ← v.pfnL3
  let entryL3 := m.mem pfnL3 (tableOffset address 0x01E)
  let (v, m) := if present entryL3 then
      ({ v with pfnL2 := some (entryPfn entryL3) },
        if freesL3 then m.osPfnFree .osPtReg pfnL3 else m)
    else (v, m)
  let pfnL2 ← v.pfnL2
  let entryL2 := m.mem pfnL2 (tableOffset address 0x015)
  let (v, m) := if present entryL2 then
      ({ v with pfnL1 := some (entryPfn entryL2) }, m.osPfnFree .osPtReg pfnL2)
    else (v, m)
  let pfnL1 ← v.pfnL1
  let entryL1 := m.mem pfnL1 (tableOffset address 0x00C)
  let (v, m) := if present entryL1 then
      ({ v with dataPfn := some (entryPfn entryL1) }, m.osPfnFree .osPtReg pfnL1)
    else (v, m)
  let dataPfn ← v.dataPfn
  return (v, m.osPfnFree .userReg dataPfn)

/-- `cleanup_context_mm`. The pass over the code does not free the table of level 3. -/
def cleanupContextMm (m : Machine) : Option Machine := do
  let (v, m) ← m.cleanupSegment true m.ctx.stackVA ⟨none, none, none, none⟩
  let (v, m) ← m.cleanupSegment false m.ctx.codeStart v
  let (_, m) ← m.cleanupSegment true m.ctx.dataStart v
  return m

/-- The walk of a path from the top table. -/
def walk (m : Machine) (p : List (Fin 512)) : Option (ℕ × List ℕ) := m.mem.walk m.ctx.pgd p

end Machine

/-- The frames of the three tables and the page of the data segment. -/
def ContextFrames.data (f : ContextFrames) (argPfn : ℕ) : Fresh :=
  ⟨f.dataL3, f.dataL2, f.dataL1, argPfn⟩

/-- The frames that `os_pfn_alloc` returns are different from each other and from `arg_pfn`, and all
are below `2^20`. -/
structure ContextFrames.Ok (f : ContextFrames) (argPfn : ℕ) : Prop where
  /-- They are different. -/
  nodup : (f.pgd :: (f.stack.frames ++ f.code.frames ++ (f.data argPfn).frames)).Nodup
  /-- They are below `2^20`. -/
  lt : ∀ g ∈ f.stack.frames ++ f.code.frames ++ (f.data argPfn).frames, g < 2^20

variable {m m' : Machine} {f : ContextFrames} {flags address : ℕ} {fresh : Fresh}
  {frame pfn : ℕ} {i : Fin 512} {region : Region}

/-! ## The passes as paths -/

namespace Machine

/-- The calls of `os_pfn_alloc` for frames. -/
def allocs (l : List (Region × ℕ)) : List (Region × Event ℕ) :=
  (l.map fun x => (x.1, .alloc x.2)).reverse

theorem allocs_append (l l' : List (Region × ℕ)) : allocs (l ++ l') = allocs l' ++ allocs l := by
  simp [allocs]

theorem ensureEntry_fst (m : Machine) (region : Region) (flags frame : ℕ) (i : Fin 512) (pfn : ℕ) :
    (m.ensureEntry region flags frame i pfn).1 = m.mem.next frame i pfn :=
  m.toPageTables.ensureEntry_fst region flags frame i pfn

theorem ensureEntry_mem (m : Machine) (region : Region) (flags frame : ℕ) (i : Fin 512) (pfn : ℕ) :
    (m.ensureEntry region flags frame i pfn).2.mem = m.mem.fill region flags frame i pfn :=
  m.toPageTables.ensureEntry_mem region flags frame i pfn

theorem ensureEntry_ctx (m : Machine) (region : Region) (flags frame : ℕ) (i : Fin 512) (pfn : ℕ) :
    (m.ensureEntry region flags frame i pfn).2.ctx = m.ctx := rfl

theorem ensureEntry_log (m : Machine) (region : Region) (flags frame : ℕ) (i : Fin 512) (pfn : ℕ) :
    (m.ensureEntry region flags frame i pfn).2.log =
      allocs (if present (m.mem frame i) then [] else [(region, pfn)]) ++ m.log := by
  unfold ensureEntry PageTables.ensureEntry
  split_ifs <;> rfl

theorem mapSegment_mem (m : Machine) (flags address : ℕ) (fresh : Fresh) :
    (m.mapSegment flags address fresh).mem =
      Memory.fillPath flags m.mem m.ctx.pgd (path address) fresh.frames := by
  simp only [mapSegment, path, Fresh.frames, Memory.fillPath, ensureEntry_mem,
    ensureEntry_fst, reduceIte, reduceCtorEq]

theorem mapSegment_ctx (m : Machine) (flags address : ℕ) (fresh : Fresh) :
    (m.mapSegment flags address fresh).ctx = m.ctx := by
  simp only [mapSegment, ensureEntry_ctx]

theorem mapSegment_log (m : Machine) (flags address : ℕ) (fresh : Fresh) :
    (m.mapSegment flags address fresh).log =
      allocs (Memory.created flags m.mem m.ctx.pgd (path address) fresh.frames) ++ m.log := by
  simp only [mapSegment, path, Fresh.frames, Memory.created, ensureEntry_log, ensureEntry_mem,
    ensureEntry_fst, reduceIte, reduceCtorEq, allocs_append, List.append_assoc, List.append_nil]

theorem dataTables_ctx (m : Machine) (address : ℕ) (f : ContextFrames) :
    (m.dataTables address f).2.ctx = m.ctx := by
  simp only [dataTables, ensureEntry_ctx]

theorem mapData_mem (m : Machine) (address : ℕ) (f : ContextFrames) :
    (m.mapData address f).mem =
      Memory.fillPath rwFlags m.mem m.ctx.pgd (path address) (f.data m.ctx.argPfn).frames := by
  have hpath : Memory.fillPath rwFlags m.mem m.ctx.pgd (path address) (f.data m.ctx.argPfn).frames =
      (m.dataTables address f).2.mem.fill .userReg rwFlags (m.dataTables address f).1
        (tableOffset address 0x00C) m.ctx.argPfn := by
    simp only [dataTables, path, Fresh.frames, ContextFrames.data, Memory.fillPath, ensureEntry_mem,
      ensureEntry_fst, reduceIte, reduceCtorEq]
  have hctx := m.dataTables_ctx address f
  rw [hpath, mapData, Memory.fill]
  dsimp only
  split_ifs
  · rfl
  · rw [hctx]
    rfl

/-- The frame of the data page is hung in without being allocated, unless there is a frame
already. -/
theorem mapData_log (m : Machine) (address : ℕ) (f : ContextFrames) :
    ∃ l, (m.mapData address f).log = allocs l ++ m.log ∧
      (Memory.created rwFlags m.mem m.ctx.pgd (path address) (f.data m.ctx.argPfn).frames = l ∧
          (∀ a, (Region.userReg, a) ∉ l) ∨
        Memory.created rwFlags m.mem m.ctx.pgd (path address) (f.data m.ctx.argPfn).frames =
          l ++ [(.userReg, m.ctx.argPfn)] ∧ (m.mapData address f).ctx = m.ctx) := by
  -- The tables come first; the page itself is `arg_pfn`, which the code does not allocate.
  have htables : ∃ l, (m.dataTables address f).2.log = allocs l ++ m.log ∧
      (∀ a, (Region.userReg, a) ∉ l) ∧
      Memory.created rwFlags m.mem m.ctx.pgd (path address) (f.data m.ctx.argPfn).frames =
        l ++ if present ((m.dataTables address f).2.mem (m.dataTables address f).1
          (tableOffset address 0x00C)) then [] else [(.userReg, m.ctx.argPfn)] := by
    let r₃ := m.ensureEntry .osPtReg rwFlags m.ctx.pgd (tableOffset address 0x027) f.dataL3
    let r₂ := r₃.2.ensureEntry .osPtReg rwFlags r₃.1 (tableOffset address 0x01E) f.dataL2
    refine ⟨(if present (m.mem m.ctx.pgd (tableOffset address 0x027)) then []
        else [(.osPtReg, f.dataL3)]) ++
      (if present (r₃.2.mem r₃.1 (tableOffset address 0x01E)) then []
        else [(.osPtReg, f.dataL2)]) ++
      if present (r₂.2.mem r₂.1 (tableOffset address 0x015)) then []
        else [(.osPtReg, f.dataL1)], ?_, ?_, ?_⟩
    · simp only [dataTables, ensureEntry_log, allocs_append, List.append_assoc, r₃, r₂]
    · intro a ha
      simp only [List.mem_append] at ha
      rcases ha with (ha | ha) | ha <;> split_ifs at ha <;> simp at ha
    · simp only [dataTables, path, Fresh.frames, ContextFrames.data, Memory.created,
        ensureEntry_mem, ensureEntry_fst, reduceIte, reduceCtorEq, List.append_nil,
        List.append_assoc, r₃, r₂]
  obtain ⟨l, hlog, hl, hcreated⟩ := htables
  have hctx := m.dataTables_ctx address f
  refine ⟨l, ?_, ?_⟩
  · rw [mapData]
    dsimp only
    split_ifs <;> exact hlog
  · rw [hcreated, mapData]
    dsimp only
    split_ifs
    · exact Or.inl ⟨List.append_nil l, hl⟩
    · exact Or.inr ⟨rfl, hctx⟩

end Machine

end GemOS.Paging
