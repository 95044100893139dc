import GemOS.Lib.Recall
import GemOS.Paging.Shrink

/-!
# The memory of a process

A process reads and writes bytes at virtual addresses. The processor walks the page table for each
of them (`translate`); when a level of the walk is missing, or an entry does not allow the access,
`handle_page_fault` is called, and the instruction is executed again unless the process exits.
Between the accesses the process calls `SYSCALL_EXPAND` and `SYSCALL_SHRINK`.

To the process all this is a memory. `run_memory` says that a load returns the byte that was stored
last at its address, unless a shrink gave the address back since, and that no store reaches a table:
the frames behind the pages of the process are different, come into use when they are in use
nowhere else, and stay behind their pages.
-/

namespace GemOS.Paging

open Ledger

/-- A process: the kernel as it sees it, and the contents of the frames. -/
structure Process where
  /-- The state of the kernel. -/
  kernel : Kernel
  /-- The bytes of the frames. -/
  ram : ℕ → ℕ → UInt8

/-! ## The processor -/

/-- How the translation of an address ends. -/
inductive Translation where
  /-- The frame of the page. -/
  | frame (pfn : ℕ)
  /-- A page fault, with its error code. -/
  | fault (error : ℕ)

/-- The error code of a page fault in user mode: bit 0 for an entry that does not allow the access,
bit 1 for a write, and bit 2 for user mode. -/
def errorCode (protection write : Bool) : ℕ :=
  (if protection then 1 else 0) + (if write then 2 else 0) + 4

/-- The walk of an access in user mode. All entries on the way need the user bit, and for a write
the writable bit. -/
def Kernel.translate (k : Kernel) (address : ℕ) (write : Bool) : Translation :=
  match k.walk (path address) with
  | none => .fault (errorCode false write)
  | some (pfn, es) =>
    if es.all fun e => userBit e && (!write || writeBit e) then .frame pfn
    else .fault (errorCode true write)

/-- How an access ends. -/
inductive AccessEnd where
  /-- It is carried out in a frame. -/
  | served (pfn : ℕ) (k : Kernel)
  /-- It is carried out in a frame that was mapped for it. -/
  | mapped (pfn : ℕ) (k : Kernel)
  /-- `do_exit`. -/
  | exits
  /-- It faults again after its page fault was handled. -/
  | again (k : Kernel)

/-- An access, with the frames that `os_pfn_alloc` returns if there is a page fault. -/
def Kernel.access (k : Kernel) (address : ℕ) (write : Bool) (fresh : Fresh) : AccessEnd :=
  match k.translate address write with
  | .frame pfn => .served pfn k
  | .fault error =>
    match k.handlePageFault address error fresh with
    | (.exits, _) => .exits
    | (.resumes, k) =>
      match k.translate address write with
      | .frame pfn => .mapped pfn k
      | .fault _ => .again k

/-- A store to a frame. -/
def setByte (ram : ℕ → ℕ → UInt8) (pfn offset : ℕ) (v : UInt8) : ℕ → ℕ → UInt8 :=
  Function.update ram pfn (Function.update (ram pfn) offset v)

/-- What a process does. -/
inductive UserOp where
  /-- A system call. -/
  | call (c : Call)
  /-- A load of a byte. `contents` is what is in the frame of a page that is mapped for it. -/
  | load (address : ℕ) (fresh : Fresh) (contents : ℕ → UInt8)
  /-- A store of a byte. -/
  | store (address : ℕ) (v : UInt8) (fresh : Fresh) (contents : ℕ → UInt8)

/-- What the process sees of it. -/
inductive UserEnd where
  /-- The result of a system call. -/
  | result (r : ℕ)
  /-- The byte of a load. -/
  | value (v : UInt8)
  /-- The end of a store. -/
  | stored
  /-- The instruction faults again. -/
  | again
  deriving DecidableEq

/-- The process goes on behind an access in a frame. -/
def Process.served (k : Kernel) (ram : ℕ → ℕ → UInt8) (pfn offset : ℕ) :
    Option UInt8 → UserEnd × Process
  | none => (.value (ram pfn offset), ⟨k, ram⟩)
  | some v => (.stored, ⟨k, setByte ram pfn offset v⟩)

/-- A load (`none`) or a store of a byte. -/
def Process.access (p : Process) (address : ℕ) (store : Option UInt8) (fresh : Fresh)
    (contents : ℕ → UInt8) : Option (UserEnd × Process) :=
  match p.kernel.access address store.isSome fresh with
  | .served pfn k => some (served k p.ram pfn (address % 4096) store)
  | .mapped pfn k =>
    some (served k (Function.update p.ram pfn contents) pfn (address % 4096) store)
  | .exits => none
  | .again k => some (.again, { p with kernel := k })

/-- A step of the process, `none` when it exits. -/
def userStep (M : MapFlags) (p : Process) : UserOp → Option (UserEnd × Process)
  | .call c => (callStep M p.kernel c).map fun (r, k) => (.result r, { p with kernel := k })
  | .load address fresh contents => p.access address none fresh contents
  | .store address v fresh contents => p.access address (some v) fresh contents

/-! ## What the process should see -/

/-- The byte at an address, when its page is present. -/
def Process.view (p : Process) (a : ℕ) : Option UInt8 :=
  (p.kernel.nodes (path a)).map fun pfn => p.ram pfn (a % 4096)

/-- A store puts its byte at its address, and a shrink that succeeds loses the bytes that it gives
back. -/
def touch : UserOp × UserEnd → ℕ → Run.Touch UInt8
  | (.store address v _ _, .stored), a => if a = address then .put v else .keep
  | (.call (.shrink size _), .result r), a =>
    if r ≠ 0 ∧ r ≤ a ∧ a < r + size * 4096 then .lose else .keep
  | _, _ => .keep

theorem touch_store (address : ℕ) (v : UInt8) (fresh : Fresh) (contents : ℕ → UInt8) (a : ℕ) :
    touch (.store address v fresh contents, .stored) a =
      if a = address then .put v else .keep := rfl

theorem touch_shrink (size : ℕ) (flags : ℤ) (r a : ℕ) :
    touch (.call (.shrink size flags), .result r) a =
      if r ≠ 0 ∧ r ≤ a ∧ a < r + size * 4096 then .lose else .keep := rfl

/-- The frames that `os_pfn_alloc` returns in a page fault are different, below `2^20`, and not
allocated. -/
def Fresh.Available (A : Finset ℕ) (k : Kernel) (fresh : Fresh) : Prop :=
  fresh.frames.Nodup ∧ ∀ g ∈ fresh.frames, g ∉ inUse A k.ledger ∧ g < 2^20

/-- The addresses have 48 bits, shrinks have less than `2^20` pages, and `os_pfn_alloc` returns
frames that are not allocated. -/
def UserLegal (A : Finset ℕ) (p : Process) : UserOp → Prop
  | .call (.expand _ _) => True
  | .call (.shrink size _) => size < 2^20
  | .load address fresh _ => address < 2^48 ∧ fresh.Available A p.kernel
  | .store address _ fresh _ => address < 2^48 ∧ fresh.Available A p.kernel

/-- The invariant of the memory. -/
structure MemoryInv (A : Finset ℕ) (k : Kernel) : Prop where
  /-- The segments are as in the layout. -/
  placed : Placed k
  /-- The page table is a tree. -/
  tree : TreeInv A k
  /-- The frames were not allocated when `os_pfn_alloc` returned them. -/
  log : FreshLog A k.log

/-- What a page fault that is handled does to the pages. -/
structure Faulted (A : Finset ℕ) (k : Kernel) (address : ℕ) (k' : Kernel) : Prop where
  /-- The invariant is kept. -/
  inv : MemoryInv A k'
  /-- The page was not present. -/
  absent : k.nodes (path address) = none
  /-- The other pages are as they were. -/
  other : ∀ a < 2^48, a / 4096 ≠ address / 4096 → k'.nodes (path a) = k.nodes (path a)

/-- A shrink that succeeds moves `next_free` of its segment down, and unmaps the pages between. -/
structure Shrunk (k : Kernel) (size : ℕ) (seg : Seg) (r : ℕ) (k' : Kernel) : Prop where
  /-- The result is the new bound. -/
  result : r = (k.mms seg).nextFree - size * 4096
  /-- It is in the segment. -/
  start : (k.mms seg).start + size * 4096 ≤ (k.mms seg).nextFree
  /-- Nothing else of the segments changes. -/
  mms : k'.mms = Function.update k.mms seg
    { k.mms seg with nextFree := (k.mms seg).nextFree - size * 4096 }
  /-- The pages. -/
  unmapped : Unmapped k k' ((k.mms seg).nextFree - size * 4096) (k.mms seg).nextFree

variable {M : MapFlags} {A : Finset ℕ} {k k' : Kernel} {p p' : Process} {address size pfn : ℕ}
  {flags : ℤ} {fresh : Fresh} {write : Bool} {region : Region} {frame : ℕ} {i : Fin 512}
  {gs : List ℕ}

/-! ## The allocator -/

/-- The frames `gs` may be returned by `os_pfn_alloc`, one after the other. -/
structure Supply (A : Finset ℕ) (k : Kernel) (gs : List ℕ) : Prop where
  /-- The frames so far were not allocated when they were returned. -/
  log : FreshLog A k.log
  /-- The frames are different. -/
  nodup : gs.Nodup
  /-- They are not allocated, and below `2^20`. -/
  free : ∀ g ∈ gs, g ∉ inUse A k.ledger ∧ g < 2^20

/-- One level of a page fault takes the first frame, or none. -/
theorem Supply.ensureEntry (h : Supply A k (pfn :: gs)) (region : Region) (flags frame : ℕ)
    (i : Fin 512) : Supply A (k.ensureEntry region flags frame i pfn).2 gs := by
  obtain ⟨hne, hnodup⟩ := List.nodup_cons.mp h.nodup
  obtain ⟨hfree, hlt⟩ := h.free pfn (by simp)
  rw [k.ensureEntry_eq]
  split_ifs
  · exact ⟨h.log, hnodup, fun g hg => h.free g (by simp [hg])⟩
  · refine ⟨⟨hfree, hlt, h.log⟩, hnodup, fun g hg => ⟨fun hin => ?_, (h.free g (by simp [hg])).2⟩⟩
    have hin' : g ∈ insert pfn (inUse A k.ledger) := hin
    rcases Finset.mem_insert.mp hin' with rfl | hin'
    · exact hne hg
    · exact (h.free g (by simp [hg])).1 hin'

theorem Supply.mapPage (h : Supply A k fresh.frames) (flags address : ℕ) :
    FreshLog A (k.mapPage flags address fresh).log := by
  have h₃ := h.ensureEntry .osPtReg flags k.pgd (tableOffset address 0x027)
  have h₂ := h₃.ensureEntry .osPtReg flags
    (k.ensureEntry .osPtReg flags k.pgd (tableOffset address 0x027) fresh.pfnL3).1
    (tableOffset address 0x01E)
  exact ((h₂.ensureEntry .osPtReg flags _ (tableOffset address 0x015)).ensureEntry .userReg flags _
    (tableOffset address 0x00C)).log

/-! ## System calls -/

namespace MemoryInv

/-- `SYSCALL_EXPAND` leaves all pages. -/
theorem expand (h : MemoryInv A k) (M : MapFlags) (size : ℕ) (flags : ℤ) :
    MemoryInv A (k.expand M size flags).2 ∧
      ∀ a, (k.expand M size flags).2.nodes (path a) = k.nodes (path a) := by
  rcases Nat.lt_or_ge 512 size with hbig | hsize
  · rw [show k.expand M size flags = (0, k) from if_pos hbig]
    exact ⟨h, fun _ => rfl⟩
  · cases hsel : selected M flags with
    | none =>
      rw [expand_of_none k size hsel]
      exact ⟨h, fun _ => rfl⟩
    | some seg =>
      have hseg := selected_ne_stack hsel
      rw [expand_of_selected k hsize hsel]
      rcases expandSegment_spec (h.placed.segmentOk hseg) hsize with heq | ⟨hle, heq⟩ <;> rw [heq]
      · exact ⟨h, fun _ => rfl⟩
      · obtain ⟨-, hdvd, -⟩ := h.placed.aligned seg
        have hstart := (h.placed.bounded seg hseg).1
        exact ⟨⟨h.placed.update ⟨by omega, hle⟩ (by omega) rfl, h.tree.setNextFree seg _, h.log⟩,
          fun _ => rfl⟩

/-- Frees do not matter to the allocator's promise. -/
theorem freshLog_frees {l : List (Region × Event ℕ)} (h : FreshLog A l) (fs : List ℕ) :
    FreshLog A (fs.map (fun f => (.userReg, .free f)) ++ l) := by
  induction fs with
  | nil => exact h
  | cons f fs ih => exact ih

/-- `SYSCALL_SHRINK` fails and changes nothing, or succeeds for one of the segments. -/
theorem shrink_cases (h : MemoryInv A k) (M : MapFlags) (flags : ℤ) (hsize : size < 2^20) :
    k.shrink M size flags = (0, k) ∨
      ∃ seg, seg ≠ .stack ∧ k.shrink M size flags = k.shrinkSegment seg size ∧
        Shrunk k size seg (k.shrink M size flags).1 (k.shrink M size flags).2 := by
  cases hsel : selected M flags with
  | none => exact Or.inl (shrink_of_none k size hsel)
  | some seg =>
    have hseg := selected_ne_stack hsel
    obtain ⟨hstart, hle, hle', hlast⟩ := h.placed.segmentOk hseg
    rw [shrink_of_selected k size hsel]
    by_cases hlow : ((k.mms seg).nextFree + 2^64 - size * 4096 % 2^32) % 2^64 < (k.mms seg).start
    · exact Or.inl (if_pos hlow)
    · obtain ⟨hret, hmms⟩ := shrinkSegment_pass (by omega) hlow
      have hnext : ((k.mms seg).nextFree + size * (2^64 - 4096)) % 2^64 =
          (k.mms seg).nextFree - size * 4096 := by omega
      rw [hnext] at hret hmms
      refine Or.inr ⟨seg, hseg, rfl, hret, by omega, hmms, ?_⟩
      have hloop : (k.shrinkSegment seg size).2 = (fun k : Kernel => k.shrinkPage seg)^[size] k :=
        congrArg Prod.snd (if_neg hlow)
      rw [hloop]
      exact shrinkPages_unmapped h.tree.treeShaped h.tree.leavesDistinct
        (h.placed.aligned seg).2.1 (by omega) (by omega)

/-- `SYSCALL_SHRINK` fails and changes nothing, or leaves all pages but those that it gives back. -/
theorem shrink (h : MemoryInv A k) (M : MapFlags) (flags : ℤ) (hsize : size < 2^20) :
    k.shrink M size flags = (0, k) ∨ (k.shrink M size flags).1 ≠ 0 ∧
      MemoryInv A (k.shrink M size flags).2 ∧ ∀ a < 2^48, ¬((k.shrink M size flags).1 ≤ a ∧
        a < (k.shrink M size flags).1 + size * 4096) →
          (k.shrink M size flags).2.nodes (path a) = k.nodes (path a) := by
  rcases h.shrink_cases M flags hsize with hfail | ⟨seg, hseg, heq, hshrunk⟩
  · exact Or.inl hfail
  · obtain ⟨hstart, hle, hle', hlast⟩ := h.placed.segmentOk hseg
    obtain ⟨hret, hlow, hmms, hunmapped⟩ := hshrunk
    obtain ⟨fs, hlog, -, -⟩ := hunmapped.frees
    have hdvd := (h.placed.aligned seg).2.1
    have htree : TreeInv A (k.shrink M size flags).2 := by
      rw [heq]
      exact shrinkSegment_inv h.tree seg size
    refine Or.inr ⟨by omega, ⟨h.placed.update ⟨by omega, by omega⟩ (by omega) hmms, htree, ?_⟩,
      fun a ha hout => ?_⟩
    · rw [hlog]
      exact freshLog_frees h.log fs
    · -- A page is given back as a whole, so that no other address shares it.
      have hwalk := hunmapped.other (path a) (by simp [path]) fun b hlo hhi hpath => by
        have hpage := (path_eq_iff ha (by omega)).mp hpath
        omega
      rw [← walk_fst _ (by simp [path]), ← walk_fst k (by simp [path]), hwalk]

/-! ## Page faults -/

/-- A page fault that is handled. -/
theorem faulted (h : MemoryInv A k) {error : ℕ} (ha : address < 2^48)
    (hfresh : fresh.Available A k) (habsent : k.nodes (path address) = none)
    (hend : k.handlePageFault address error fresh = (.resumes, k')) : Faulted A k address k' := by
  obtain ⟨flags, hadmits, rfl⟩ := admits_of_step (M := ⟨0, 0⟩) (step_of_resumes hend)
  obtain ⟨hflags, hflags'⟩ := admits_flags hadmits
  have hlog : FreshLog A (k.mapPage flags address fresh).log :=
    Supply.mapPage ⟨h.log, hfresh.1, hfresh.2⟩ flags address
  have hmapped := mapPage_spec h.tree hflags hflags' fresh hlog
  refine ⟨⟨h.placed.congr hmapped.mms, hmapped.inv, hlog⟩, habsent, fun a ha' hne => ?_⟩
  refine hmapped.other _ fun hpre => hne ?_
  exact (path_eq_iff ha' ha).mp (hpre.eq_of_length rfl)

/-- The translation of an address is a page of the page table. -/
theorem nodes_of_translate (h : k.translate address write = .frame pfn) :
    k.nodes (path address) = some pfn := by
  unfold Kernel.translate at h
  rw [← walk_fst k (by simp [path])]
  cases hwalk : k.walk (path address) with
  | none =>
    rw [hwalk] at h
    exact absurd h (by simp)
  | some w =>
    rw [hwalk] at h
    dsimp only at h
    split_ifs at h
    rw [Translation.frame.injEq] at h
    rw [← h, Option.map_some]

/-- A translation faults at a page that is not present, or at an entry that does not allow the
access. -/
theorem walk_of_translate {error : ℕ} (h : k.translate address write = .fault error) :
    k.walk (path address) = none ∧ error = errorCode false write ∨
      error = errorCode true write := by
  unfold Kernel.translate at h
  cases hwalk : k.walk (path address) with
  | none =>
    rw [hwalk] at h
    exact Or.inl ⟨rfl, (Translation.fault.inj h).symm⟩
  | some w =>
    rw [hwalk] at h
    dsimp only at h
    split_ifs at h
    exact Or.inr (Translation.fault.inj h).symm

/-- How an access may end: in the frame of its page, with `do_exit`, or after a page fault that was
handled for a page that was not present. -/
theorem access_cases (k : Kernel) (address : ℕ) (write : Bool) (fresh : Fresh) :
    (∃ pfn, k.access address write fresh = .served pfn k ∧ k.nodes (path address) = some pfn) ∨
    k.access address write fresh = .exits ∨
    ∃ k', k.walk (path address) = none ∧
      k.handlePageFault address (errorCode false write) fresh = (.resumes, k') ∧
      ((∃ pfn, k.access address write fresh = .mapped pfn k' ∧
        k'.nodes (path address) = some pfn) ∨ k.access address write fresh = .again k') := by
  unfold Kernel.access
  cases htrans : k.translate address write with
  | frame pfn => exact Or.inl ⟨pfn, rfl, nodes_of_translate htrans⟩
  | fault error =>
    dsimp only
    obtain ⟨r, k', hend⟩ : ∃ r k', k.handlePageFault address error fresh = (r, k') := ⟨_, _, rfl⟩
    rw [hend]
    cases r with
    | exits => exact Or.inr (Or.inl rfl)
    | resumes =>
      rcases walk_of_translate htrans with ⟨hwalk, rfl⟩ | rfl
      · refine Or.inr (Or.inr ⟨k', hwalk, hend, ?_⟩)
        dsimp only
        cases htrans' : k'.translate address write with
        | frame pfn => exact Or.inl ⟨pfn, rfl, nodes_of_translate htrans'⟩
        | fault error' => exact Or.inr rfl
      · -- A fault at an entry that is present is not handled.
        have hbit := (handlePageFault_resumes (congrArg Prod.fst hend)).1
        cases write <;> exact absurd hbit (by decide)

/-- What an access does. -/
theorem access (h : MemoryInv A k) (ha : address < 2^48) (hfresh : fresh.Available A k)
    (write : Bool) :
    (∃ pfn, k.access address write fresh = .served pfn k ∧ k.nodes (path address) = some pfn) ∨
    (∃ pfn k', k.access address write fresh = .mapped pfn k' ∧ Faulted A k address k' ∧
      k'.nodes (path address) = some pfn) ∨
    k.access address write fresh = .exits ∨
    ∃ k', k.access address write fresh = .again k' ∧ Faulted A k address k' := by
  rcases access_cases k address write fresh with hserved | hexits | ⟨k', hwalk, hend, hret⟩
  · exact Or.inl hserved
  · exact Or.inr (Or.inr (Or.inl hexits))
  · have habsent : k.nodes (path address) = none := by
      rw [← walk_fst k (by simp [path]), hwalk, Option.map_none]
    have hfaulted := h.faulted ha hfresh habsent hend
    rcases hret with ⟨pfn, hmapped, hpage⟩ | hagain
    · exact Or.inr (Or.inl ⟨pfn, k', hmapped, hfaulted, hpage⟩)
    · exact Or.inr (Or.inr (Or.inr ⟨k', hagain, hfaulted⟩))

end MemoryInv

/-! ## What the process sees -/

/-- A store in the frame of a page shows at its address only. -/
theorem view_setByte (h : TreeInv A k) {ram : ℕ → ℕ → UInt8} (hpage : k.nodes (path address) =
    some pfn) (ha : address < 2^48) (v : UInt8) {a : ℕ} (ha' : a < 2^48) :
    Process.view ⟨k, setByte ram pfn (address % 4096) v⟩ a =
      if a = address then some v else Process.view ⟨k, ram⟩ a := by
  unfold Process.view setByte
  split_ifs with heq
  · rw [heq, hpage]
    simp
  · cases hnode : k.nodes (path a) with
    | none => rfl
    | some f =>
      simp only [Option.map_some, Option.some.injEq]
      by_cases hf : f = pfn
      · -- The frame is that of one page, in which the address has another offset.
        subst hf
        have hpath := h.accounts.inj _ _ f hnode hpage
        have hpage' := (path_eq_iff ha' ha).mp hpath
        rw [Function.update_self, Function.update_of_ne (by omega)]
      · rw [Function.update_of_ne hf]

/-- The bytes that were visible before a page fault are visible after it. -/
theorem view_mapped {ram : ℕ → ℕ → UInt8} (h : Faulted A k address k')
    (hpage : k'.nodes (path address) = some pfn) (contents : ℕ → UInt8) (ha : address < 2^48)
    {a : ℕ} (ha' : a < 2^48) {v : UInt8} (hv : Process.view ⟨k, ram⟩ a = some v) :
    Process.view ⟨k', Function.update ram pfn contents⟩ a = some v := by
  unfold Process.view at hv ⊢
  have hne : a / 4096 ≠ address / 4096 := fun heq => by
    rw [(path_eq_iff ha' ha).mpr heq, h.absent] at hv
    exact absurd hv (by simp)
  rw [h.other a ha' hne]
  cases hnode : k.nodes (path a) with
  | none =>
    rw [hnode] at hv
    exact absurd hv (by simp)
  | some f =>
    rw [hnode] at hv
    -- The frame of the new page is that of no other one.
    have hf : f ≠ pfn := by
      rintro rfl
      have hpath := h.inv.tree.accounts.inj _ _ f ((h.other a ha' hne).trans hnode) hpage
      exact hne ((path_eq_iff ha' ha).mp hpath)
    simpa [Function.update_of_ne hf] using hv

theorem view_again {ram : ℕ → ℕ → UInt8} (h : Faulted A k address k') (ha : address < 2^48)
    {a : ℕ} (ha' : a < 2^48) {v : UInt8} (hv : Process.view ⟨k, ram⟩ a = some v) :
    Process.view ⟨k', ram⟩ a = some v := by
  unfold Process.view at hv ⊢
  have hne : a / 4096 ≠ address / 4096 := fun heq => by
    rw [(path_eq_iff ha' ha).mpr heq, h.absent] at hv
    exact absurd hv (by simp)
  rwa [h.other a ha' hne]

/-- What a load or store leads to. -/
structure Accessed (A : Finset ℕ) (p : Process) (address : ℕ) (store : Option UInt8) (o : UserEnd)
    (p' : Process) : Prop where
  /-- The invariant is kept. -/
  inv : MemoryInv A p'.kernel
  /-- It faults again, or is a load of what is visible then, or a store. -/
  result : o = .again ∨ store = none ∧ (∃ v, o = .value v ∧ p'.view address = some v) ∨
    store ≠ none ∧ o = .stored ∧ p'.view address = store
  /-- What was visible is visible, at other addresses, and at all when nothing is stored. -/
  kept : ∀ a < 2^48, a ≠ address ∨ o ≠ .stored → ∀ v, p.view a = some v → p'.view a = some v

/-- An access in the frame of its page. -/
theorem accessed_served {ram : ℕ → ℕ → UInt8} (h : MemoryInv A k) (ha : address < 2^48)
    (hpage : k.nodes (path address) = some pfn)
    (hkept : ∀ a < 2^48, ∀ v, p.view a = some v → Process.view ⟨k, ram⟩ a = some v)
    (store : Option UInt8) :
    Accessed A p address store (Process.served k ram pfn (address % 4096) store).1
      (Process.served k ram pfn (address % 4096) store).2 := by
  cases store with
  | none =>
    refine ⟨h, Or.inr (Or.inl ⟨rfl, _, rfl, ?_⟩), fun a ha' _ v hv => hkept a ha' v hv⟩
    simp [Process.view, Process.served, hpage]
  | some v =>
    refine ⟨h, Or.inr (Or.inr ⟨by simp, rfl, ?_⟩), fun a ha' hne w hw => ?_⟩
    · exact (view_setByte h.tree hpage ha v ha).trans (if_pos rfl)
    · have hne' : a ≠ address := hne.resolve_right (by simp [Process.served])
      calc (Process.served k ram pfn (address % 4096) (some v)).2.view a
          = if a = address then some v else Process.view ⟨k, ram⟩ a :=
            view_setByte h.tree hpage ha v ha'
        _ = Process.view ⟨k, ram⟩ a := if_neg hne'
        _ = some w := hkept a ha' w hw

theorem accessed_access (h : MemoryInv A p.kernel) (ha : address < 2^48)
    (hfresh : fresh.Available A p.kernel) {store : Option UInt8} {contents : ℕ → UInt8}
    {o : UserEnd} (hstep : p.access address store fresh contents = some (o, p')) :
    Accessed A p address store o p' := by
  unfold Process.access at hstep
  rcases h.access ha hfresh store.isSome with ⟨pfn, heq, hpage⟩ | ⟨pfn, k', heq, hfaulted, hpage⟩ |
    heq | ⟨k', heq, hfaulted⟩ <;> rw [heq] at hstep
  · obtain ⟨rfl, rfl⟩ := Prod.mk.inj (Option.some.inj hstep)
    exact accessed_served h ha hpage (fun _ _ _ hv => hv) store
  · obtain ⟨rfl, rfl⟩ := Prod.mk.inj (Option.some.inj hstep)
    exact accessed_served hfaulted.inv ha hpage
      (fun a ha' v hv => view_mapped hfaulted hpage contents ha ha' hv) store
  · exact absurd hstep (by simp)
  · obtain ⟨rfl, rfl⟩ := Prod.mk.inj (Option.some.inj hstep)
    exact ⟨hfaulted.inv, Or.inl rfl, fun a ha' _ v hv => view_again hfaulted ha ha' hv⟩

/-- Every step keeps the invariant, and does to the memory what `touch` says. -/
theorem userStep_respects {op : UserOp} {o : UserEnd} (h : MemoryInv A p.kernel)
    (hop : UserLegal A p op) (hstep : userStep M p op = some (o, p')) :
    MemoryInv A p'.kernel ∧ ∀ a < 2^48, Run.Respects Process.view touch p op o p' a := by
  cases op with
  | call c =>
    cases c with
    | expand size flags =>
      obtain ⟨r, k', heq⟩ : ∃ r k', p.kernel.expand M size flags = (r, k') := ⟨_, _, rfl⟩
      obtain ⟨hinv, hnodes⟩ := h.expand M size flags
      simp only [userStep, callStep, heq, Option.map_some, Option.some.injEq,
        Prod.mk.injEq] at hstep
      obtain ⟨rfl, rfl⟩ := hstep
      rw [heq] at hinv hnodes
      refine ⟨hinv, fun a _ v hv => ?_⟩
      have hview : p.view a = some v := hv
      rwa [Process.view, ← hnodes a] at hview
    | shrink size flags =>
      obtain ⟨r, k', heq⟩ : ∃ r k', p.kernel.shrink M size flags = (r, k') := ⟨_, _, rfl⟩
      have hshrink := h.shrink M flags hop
      simp only [userStep, callStep, heq, Option.map_some, Option.some.injEq,
        Prod.mk.injEq] at hstep
      obtain ⟨rfl, rfl⟩ := hstep
      rw [heq] at hshrink
      rcases hshrink with hsame | ⟨hret, hinv, hnodes⟩
      · obtain ⟨rfl, rfl⟩ := Prod.mk.inj hsame
        exact ⟨h, fun a _ v hv => by simpa [touch_shrink, Run.Touch.apply] using hv⟩
      · refine ⟨hinv, fun a ha v hv => ?_⟩
        rw [touch_shrink] at hv
        split_ifs at hv with hlost
        · exact absurd hv (by simp [Run.Touch.apply])
        · have hview : p.view a = some v := hv
          rw [Process.view, ← hnodes a ha fun hin => hlost ⟨hret, hin⟩] at hview
          exact hview
  | load address fresh contents =>
    obtain ⟨ha, hfresh⟩ := hop
    have hacc := accessed_access h ha hfresh hstep
    refine ⟨hacc.inv, fun a ha' v hv => hacc.kept a ha' (Or.inr ?_) v hv⟩
    rcases hacc.result with rfl | ⟨-, w, rfl, -⟩ | ⟨hnone, -⟩
    · simp
    · simp
    · exact absurd rfl hnone
  | store address w fresh contents =>
    obtain ⟨ha, hfresh⟩ := hop
    have hacc := accessed_access h ha hfresh hstep
    refine ⟨hacc.inv, fun a ha' v hv => ?_⟩
    rcases hacc.result with rfl | ⟨hsome, -⟩ | ⟨-, rfl, hview⟩
    · exact hacc.kept a ha' (Or.inr (by simp)) v hv
    · exact absurd hsome (by simp)
    · rw [touch_store] at hv
      split_ifs at hv with heq
      · rw [heq, hview]
        exact hv
      · exact hacc.kept a ha' (Or.inl heq) v hv

/-! ## Runs -/

/-- In every run of loads, stores, expands, and shrinks, a load returns the byte that was stored
last at its address, unless a shrink gave the address back since; and in the end no frame of a page
is that of a table or of another page. -/
theorem run_memory (M : MapFlags) (A : Finset ℕ) (p : Process) (hp : Placed p.kernel)
    (ht : StartTree A p.kernel) (ops : List UserOp)
    (hops : Run.Along (userStep M) (UserLegal A) p ops) (hist : List (UserOp × UserEnd))
    (p' : Process) (hrun : Run.run (userStep M) p ops = some (hist, p')) :
    FramesKept p'.kernel ∧ ∀ pre address fresh contents v post,
      hist = pre ++ (.load address fresh contents, .value v) :: post →
        ∀ w, Run.recalled touch pre address = some w → v = w := by
  have hlog : FreshLog A p.kernel.log := by
    rw [ht.log]
    trivial
  obtain ⟨⟨hinv, -⟩, hload⟩ := Run.recalled_of_run (fun p => MemoryInv A p.kernel) (· < 2^48)
    Process.view touch
    (fun known op o => ∀ address fresh contents v, op = .load address fresh contents →
      o = .value v → ∀ w, known address = some w → v = w)
    (fun p op o p' h hop hstep => userStep_respects h hop hstep)
    (fun p op o p' known h hop hstep hknown => by
      rintro address fresh contents v rfl rfl w hw
      obtain ⟨ha, hfresh⟩ := hop
      have hacc := accessed_access h ha hfresh hstep
      rcases hacc.result with hr | ⟨-, u, hu, hview⟩ | ⟨hnone, -⟩
      · exact absurd hr (by simp)
      · -- What the load returns is visible after it, and what is known was visible before.
        obtain rfl := UserEnd.value.inj hu
        have hw' := hacc.kept address ha (Or.inr (by simp)) w (hknown address ha w hw)
        exact Option.some.inj (hview.symm.trans hw')
      · exact absurd rfl hnone)
    ⟨hp, ht.treeInv, hlog⟩ hops hrun
  exact ⟨hinv.tree.framesKept, fun pre address fresh contents v post hsplit =>
    hload pre _ _ post hsplit address fresh contents v rfl rfl⟩

instance (A : Finset ℕ) (k : Kernel) (fresh : Fresh) : Decidable (fresh.Available A k) :=
  inferInstanceAs (Decidable (_ ∧ _))

instance (A : Finset ℕ) (p : Process) : (op : UserOp) → Decidable (UserLegal A p op)
  | .call (.expand _ _) => inferInstanceAs (Decidable True)
  | .call (.shrink _ _) => inferInstanceAs (Decidable (_ < _))
  | .load _ _ _ => inferInstanceAs (Decidable (_ ∧ _))
  | .store _ _ _ _ => inferInstanceAs (Decidable (_ ∧ _))

/-- A process with two pages in the data segment. -/
def process : Process := ⟨twoPages, fun _ _ => 0⟩

/-- A byte is stored, which maps a page, and loaded again, after the segment has grown. -/
def storeAndLoad : List UserOp :=
  [.store 0x180000abc 7 ⟨10, 11, 12, 13⟩ fun _ => 1, .call (.expand 1 1),
    .load 0x180000abc ⟨20, 21, 22, 23⟩ fun _ => 1]

/-- The load returns the byte. -/
theorem run_memory_load : ∃ hist p', Run.run (userStep mapFlags) process storeAndLoad =
    some (hist, p') ∧ FramesKept p'.kernel ∧ ∀ pre address fresh contents v post,
      hist = pre ++ (.load address fresh contents, .value v) :: post →
        ∀ w, Run.recalled touch pre address = some w → v = w :=
  ⟨[(.store 0x180000abc 7 ⟨10, 11, 12, 13⟩ fun _ => 1, .stored),
      (.call (.expand 1 1), .result 0x180002000),
      (.load 0x180000abc ⟨20, 21, 22, 23⟩ fun _ => 1, .value 7)], _, rfl,
    run_memory mapFlags {1} process placed_twoPages startTree_twoPages storeAndLoad (by decide) _ _
      rfl⟩

end GemOS.Paging
