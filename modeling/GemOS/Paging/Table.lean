import GemOS.Lib.Ledger
import GemOS.Lib.Radix
import Mathlib.Data.Nat.Bitwise

/-!
# Page tables and segments

A transcription of `SYSCALL_EXPAND`, `SYSCALL_SHRINK`, and `handle_page_fault` of
`src/Assn2/entry.c`. `unsigned long` and `u32` values are natural numbers, with the modulus written
out where an operation may wrap. A frame of `OS_PT_REG` is a table of 512 entries. `os_pfn_alloc`
and the flags `MAP_WR` and `MAP_RD` are outside the repository: the frames that the allocator
returns are part of a page fault, and the flags are parameters.
-/

namespace GemOS.Paging

open Ledger

/-- The segments that the source names. -/
inductive Seg where
  | rodata
  | data
  | stack
  deriving DecidableEq

/-- `struct mm_segment`. -/
structure Segment where
  /-- The first address. -/
  start : ℕ
  /-- The end of the part that may be used. -/
  nextFree : ℕ
  /-- The end of the segment. -/
  last : ℕ

/-- The regions of `os_pfn_alloc`. -/
inductive Region where
  | osPtReg
  | userReg
  deriving DecidableEq

/-- The entries of the tables, by frame. -/
abbrev Memory := ℕ → Fin 512 → ℕ

/-- The tables, and the calls of the allocator. -/
structure PageTables where
  /-- The entries of the tables. -/
  mem : Memory
  /-- The calls of `os_pfn_alloc` and `os_pfn_free`, the newest first. -/
  log : List (Region × Event ℕ)

/-- The state of the kernel, as far as these functions read it. -/
structure Kernel extends PageTables where
  /-- The frame of the top table of the current context. -/
  pgd : ℕ
  /-- The segments of the current context. -/
  mms : Seg → Segment

/-! ## Entries and addresses -/

/-- `PToffset & (address >> offset)`. -/
def tableOffset (address offset : ℕ) : Fin 512 :=
  ⟨0x1FF &&& (address >>> offset), Nat.lt_of_le_of_lt Nat.and_le_left (by decide)⟩

/-- The present bit of an entry. -/
def present (entry : ℕ) : Bool := entry &&& 1 ≠ 0

/-- `entry >> PTEoffset`, as a `u32`. -/
def entryPfn (entry : ℕ) : ℕ := (entry >>> 0x00C) % 2^32

/-- `(pfn << PTEoffset) | flags` for a `u32`. -/
def mkEntry (pfn flags : ℕ) : ℕ := (pfn <<< 0x00C) % 2^32 ||| flags

/-- `entry & ~1` for an `unsigned long`. -/
def clearPresent (entry : ℕ) : ℕ := entry &&& (2^64 - 2)

/-- `pr | rw | us`. -/
def rwFlags : ℕ := 0x001 ||| 0x002 ||| 0x004

/-- `pr | us`. -/
def roFlags : ℕ := 0x001 ||| 0x004

namespace PageTables

/-- A store to an entry of a table. -/
def setEntry (t : PageTables) (frame : ℕ) (i : Fin 512) (entry : ℕ) : PageTables :=
  { t with mem := Function.update t.mem frame (Function.update (t.mem frame) i entry) }

/-- `os_pfn_alloc` returns the frame `pfn`. The frames of `OS_PT_REG` are filled with zeros. -/
def osPfnAlloc (t : PageTables) (region : Region) (pfn : ℕ) : PageTables where
  mem := if region = .osPtReg then Function.update t.mem pfn fun _ => 0 else t.mem
  log := (region, .alloc pfn) :: t.log

/-- `os_pfn_free`. -/
def osPfnFree (t : PageTables) (region : Region) (pfn : ℕ) : PageTables :=
  { t with log := (region, .free pfn) :: t.log }

/-- The frame that an entry points to; `pfn` is allocated for it when it is not present. -/
def ensureEntry (t : PageTables) (region : Region) (flags frame : ℕ) (i : Fin 512) (pfn : ℕ) :
    ℕ × PageTables :=
  if present (t.mem frame i) then (entryPfn (t.mem frame i), t)
  else (pfn, (t.osPfnAlloc region pfn).setEntry frame i (mkEntry pfn flags))

end PageTables

namespace Kernel

/-- A store to an entry of a table. -/
def setEntry (k : Kernel) (frame : ℕ) (i : Fin 512) (entry : ℕ) : Kernel :=
  { k with toPageTables := k.toPageTables.setEntry frame i entry }

/-- A store to `next_free` of a segment. -/
def setNextFree (k : Kernel) (seg : Seg) (nextFree : ℕ) : Kernel :=
  { k with mms := Function.update k.mms seg { k.mms seg with nextFree := nextFree } }

/-- `os_pfn_alloc` returns the frame `pfn`. -/
def osPfnAlloc (k : Kernel) (region : Region) (pfn : ℕ) : Kernel :=
  { k with toPageTables := k.toPageTables.osPfnAlloc region pfn }

/-- `os_pfn_free`. -/
def osPfnFree (k : Kernel) (region : Region) (pfn : ℕ) : Kernel :=
  { k with toPageTables := k.toPageTables.osPfnFree region pfn }

/-! ## System calls -/

/-- The entry of the page of an address is emptied, and the page freed, when the entries on the way
to it are present. -/
def unmapPage (k : Kernel) (address : ℕ) : Kernel :=
  let entryL4 := k.mem k.pgd (tableOffset address 0x027)
  if present entryL4 then
    let pfnL3 := entryPfn entryL4
    let entryL3 := k.mem pfnL3 (tableOffset address 0x01E)
    if present entryL3 then
      let pfnL2 := entryPfn entryL3
      let entryL2 := k.mem pfnL2 (tableOffset address 0x015)
      if present entryL2 then
        let pfnL1 := entryPfn entryL2
        let entryL1 := k.mem pfnL1 (tableOffset address 0x00C)
        if present entryL1 then
          let dataPfn := entryPfn entryL1
          let k := k.setEntry pfnL1 (tableOffset address 0x00C) (clearPresent entryL1)
          k.osPfnFree .userReg dataPfn
        else k
      else k
    else k
  else k

/-- One page in the loop of `SYSCALL_SHRINK`. -/
def shrinkPage (k : Kernel) (seg : Seg) : Kernel :=
  let k := k.setNextFree seg (((k.mms seg).nextFree + 2^64 - 4096) % 2^64)
  k.unmapPage (k.mms seg).nextFree

/-- `SYSCALL_SHRINK` of one segment. -/
def shrinkSegment (k : Kernel) (seg : Seg) (size : ℕ) : ℕ × Kernel :=
  if ((k.mms seg).nextFree + 2^64 - size * 4096 % 2^32) % 2^64 < (k.mms seg).start then (0, k)
  else
    let k := (fun k : Kernel => k.shrinkPage seg)^[size] k
    ((k.mms seg).nextFree, k)

/-- `SYSCALL_EXPAND` of one segment. -/
def expandSegment (k : Kernel) (seg : Seg) (size : ℕ) : ℕ × Kernel :=
  let nextFree := (k.mms seg).nextFree
  if (nextFree + size * 4096 % 2^32) % 2^64 > (k.mms seg).last then (0, k)
  else (nextFree, k.setNextFree seg ((nextFree + size * 4096 % 2^32) % 2^64))

end Kernel

/-- The flags of `SYSCALL_EXPAND` and `SYSCALL_SHRINK`. -/
structure MapFlags where
  /-- `MAP_WR`. -/
  wr : ℤ
  /-- `MAP_RD`. -/
  rd : ℤ

namespace Kernel

variable (M : MapFlags)

/-- `SYSCALL_EXPAND`. -/
def expand (k : Kernel) (size : ℕ) (flags : ℤ) : ℕ × Kernel :=
  if size > 512 then (0, k)
  else if flags = M.wr then k.expandSegment .data size
  else if flags = M.rd then k.expandSegment .rodata size
  else (0, k)

/-- `SYSCALL_SHRINK`. -/
def shrink (k : Kernel) (size : ℕ) (flags : ℤ) : ℕ × Kernel :=
  if flags = M.wr then k.shrinkSegment .data size
  else if flags = M.rd then k.shrinkSegment .rodata size
  else (0, k)

/-! ## Page faults -/

/-- The frame that an entry points to; `pfn` is allocated for it when it is not present. -/
def ensureEntry (k : Kernel) (region : Region) (flags frame : ℕ) (i : Fin 512)
    (pfn : ℕ) : ℕ × Kernel :=
  let (pfn, t) := k.toPageTables.ensureEntry region flags frame i pfn
  (pfn, { k with toPageTables := t })

theorem ensureEntry_eq (k : Kernel) (region : Region) (flags frame : ℕ) (i : Fin 512) (pfn : ℕ) :
    k.ensureEntry region flags frame i pfn =
      if present (k.mem frame i) then (entryPfn (k.mem frame i), k)
      else (pfn, (k.osPfnAlloc region pfn).setEntry frame i (mkEntry pfn flags)) := by
  unfold ensureEntry PageTables.ensureEntry
  split_ifs <;> rfl

end Kernel

/-- The frames that `os_pfn_alloc` returns in a page fault, for the three tables and the page. -/
structure Fresh where
  pfnL3 : ℕ
  pfnL2 : ℕ
  pfnL1 : ℕ
  dataPfn : ℕ

/-- How a page fault ends. -/
inductive FaultEnd where
  /-- The process goes on. -/
  | resumes
  /-- `do_exit`, which does not return. -/
  | exits
  deriving DecidableEq

namespace Kernel

/-- The entries on the way to the page of an address are filled up, as `handle_page_fault` does it
for every segment. -/
def mapPage (k : Kernel) (flags address : ℕ) (fresh : Fresh) : Kernel :=
  let (pfnL3, k) := k.ensureEntry .osPtReg flags k.pgd (tableOffset address 0x027) fresh.pfnL3
  let (pfnL2, k) := k.ensureEntry .osPtReg flags pfnL3 (tableOffset address 0x01E) fresh.pfnL2
  let (pfnL1, k) := k.ensureEntry .osPtReg flags pfnL2 (tableOffset address 0x015) fresh.pfnL1
  (k.ensureEntry .userReg flags pfnL1 (tableOffset address 0x00C) fresh.dataPfn).2

/-- `handle_page_fault`. -/
def handlePageFault (k : Kernel) (fault error : ℕ) (fresh : Fresh) : FaultEnd × Kernel :=
  let writeBit := (error >>> 1) &&& 1
  if error &&& 1 ≠ 0 then (.exits, k)
  else if fault ≤ (k.mms .data).last ∧ fault ≥ (k.mms .data).start then
    if fault > (k.mms .data).nextFree then (.exits, k)
    else (.resumes, k.mapPage rwFlags fault fresh)
  else if fault ≤ (k.mms .rodata).last ∧ fault ≥ (k.mms .rodata).start then
    if fault > (k.mms .rodata).nextFree then (.exits, k)
    else if writeBit &&& 1 ≠ 0 then (.exits, k)
    else (.resumes, k.mapPage roFlags fault fresh)
  else if fault ≤ (k.mms .stack).last ∧ fault ≥ (k.mms .stack).start then
    (.resumes, k.mapPage rwFlags fault fresh)
  else (.exits, k)

end Kernel

/-! ## Entries of the kernel -/

/-- A system call. -/
inductive Call where
  /-- `SYSCALL_EXPAND`. -/
  | expand (size : ℕ) (flags : ℤ)
  /-- `SYSCALL_SHRINK`. -/
  | shrink (size : ℕ) (flags : ℤ)

/-- A system call, with its result. -/
def callStep (M : MapFlags) (k : Kernel) : Call → Option (ℕ × Kernel)
  | .expand size flags => some (k.expand M size flags)
  | .shrink size flags => some (k.shrink M size flags)

/-- An entry of the kernel. -/
inductive Op where
  /-- A system call. -/
  | call (c : Call)
  /-- A page fault. -/
  | fault (fault error : ℕ) (fresh : Fresh)

/-- An entry of the kernel, which does not return when the process exits. -/
def step (M : MapFlags) (k : Kernel) : Op → Option (ℕ × Kernel)
  | .call c => callStep M k c
  | .fault fault error fresh =>
    match k.handlePageFault fault error fresh with
    | (.resumes, k) => some (0, k)
    | (.exits, _) => none

end GemOS.Paging
