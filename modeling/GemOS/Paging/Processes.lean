import GemOS.Paging.Accesses

/-!
# Processes

Several processes share the frames of the machine. Each has a page table and segments of its own,
and they take their steps in any order. `run_processes`: to each of them the memory is that of
`run_memory`, whatever the others do. The reason is that a step of a process writes to no frames but
those that the process has, and those that `os_pfn_alloc` returns during the step (`Confined`).

What `do_exit` does with the frames of a process is not part of `src/Assn2`. After it, they may be
returned to other processes.
-/

namespace GemOS.Paging

open Ledger

/-- The processes, the tables, and the contents of the frames. -/
structure System (ι : Type*) where
  /-- The processes that did not exit. -/
  alive : ι → Bool
  /-- The frames of their top tables. -/
  pgd : ι → ℕ
  /-- Their segments. -/
  mms : ι → Seg → Segment
  /-- The calls of `os_pfn_alloc` and `os_pfn_free` for each of them, the newest first. -/
  log : ι → List (Region × Event ℕ)
  /-- The entries of the tables, by frame. -/
  mem : ℕ → Fin 512 → ℕ
  /-- The bytes of the frames. -/
  ram : ℕ → ℕ → UInt8

section

variable {ι : Type*}

/-- What the current context of the kernel is when the process `i` runs. -/
def System.process (s : System ι) (i : ι) : Process :=
  ⟨⟨⟨s.mem, s.log i⟩, s.pgd i, s.mms i⟩, s.ram⟩

variable [DecidableEq ι]

/-- The machine after a step of the process `i`. -/
def System.put (s : System ι) (i : ι) (p : Process) : System ι where
  alive := s.alive
  pgd := Function.update s.pgd i p.kernel.pgd
  mms := Function.update s.mms i p.kernel.mms
  log := Function.update s.log i p.kernel.log
  mem := p.kernel.mem
  ram := p.ram

/-- The process `i` exits. -/
def System.exit (s : System ι) (i : ι) : System ι :=
  { s with alive := Function.update s.alive i false }

/-- A step of a process, with `none` when it exits. -/
def systemStep (M : MapFlags) (s : System ι) : ι × UserOp → Option (Option UserEnd × System ι)
  | (i, op) =>
    if s.alive i then
      match userStep M (s.process i) op with
      | some (o, p) => some (some o, s.put i p)
      | none => some (none, s.exit i)
    else none

/-- The frames that `os_pfn_alloc` may return during a step. -/
def UserOp.frames : UserOp → List ℕ
  | .call _ => []
  | .load _ fresh _ => fresh.frames
  | .store _ _ fresh _ => fresh.frames

/-- A step is legal for its process, and `os_pfn_alloc` returns no frame that another process
has. -/
def SystemLegal (A : ι → Finset ℕ) (s : System ι) : ι × UserOp → Prop
  | (i, op) => UserLegal (A i) (s.process i) op ∧
    ∀ j, s.alive j = true → ∀ g ∈ op.frames, g ∉ inUse (A j) (s.process j).kernel.ledger

/-- The byte that a process sees at an address. -/
def System.view (s : System ι) (x : ι × ℕ) : Option UInt8 :=
  if s.alive x.1 then (s.process x.1).view x.2 else none

/-- A step is to the memory of its process what it is to that of a process alone, and nothing to
that of any other one. -/
def systemTouch : (ι × UserOp) × Option UserEnd → ι × ℕ → Run.Touch UInt8
  | ((i, op), some o), (j, a) => if j = i then touch (op, o) a else .keep
  | ((i, _), none), (j, _) => if j = i then .lose else .keep

/-- The states in which a run starts: the page tables are trees of frames that the processes have,
and no frame is that of two processes. -/
structure StartSystem (A : ι → Finset ℕ) (s : System ι) : Prop where
  /-- The segments are as in the layout. -/
  placed : ∀ i, s.alive i = true → Placed (s.process i).kernel
  /-- The page tables are trees. -/
  tree : ∀ i, s.alive i = true → StartTree (A i) (s.process i).kernel
  /-- No frame is that of two processes. -/
  apart : ∀ i j, s.alive i = true → s.alive j = true → i ≠ j → ∀ g ∈ A i, g ∉ A j

/-- No frame is in the page tables of two processes. -/
def TablesApart (s : System ι) : Prop :=
  ∀ i j, s.alive i = true → s.alive j = true → i ≠ j → ∀ p q g,
    (s.process i).kernel.nodes p = some g → (s.process j).kernel.nodes q ≠ some g

/-- The invariant of the machine. -/
structure SystemInv (A : ι → Finset ℕ) (s : System ι) : Prop where
  /-- The memory of every process. -/
  memory : ∀ i, s.alive i = true → MemoryInv (A i) (s.process i).kernel
  /-- No frame is that of two processes. -/
  apart : ∀ i j, s.alive i = true → s.alive j = true → i ≠ j →
    ∀ g ∈ inUse (A i) (s.process i).kernel.ledger, g ∉ inUse (A j) (s.process j).kernel.ledger

end

variable {M : MapFlags} {A : Finset ℕ} {k k' k'' : Kernel} {p p' : Process} {address pfn flags : ℕ}
  {fresh : Fresh} {region : Region} {frame : ℕ} {i : Fin 512} {q : List (Fin 512)} {gs : List ℕ}

/-! ## What a process writes to -/

/-- The kernel writes to no tables but those in the frames of the process and in `gs`, and the
process gets no frames but `gs`. -/
structure Within (A : Finset ℕ) (gs : List ℕ) (k k' : Kernel) : Prop where
  /-- The other frames are as they were. -/
  mem : ∀ x, x ∉ inUse A k.ledger → x ∉ gs → k'.mem x = k.mem x
  /-- The frames of the process. -/
  used : ∀ x ∈ inUse A k'.ledger, x ∈ inUse A k.ledger ∨ x ∈ gs

/-- A process writes to no frames but its own and `gs`. -/
structure Confined (A : Finset ℕ) (gs : List ℕ) (p p' : Process) : Prop where
  /-- The tables. -/
  kernel : Within A gs p.kernel p'.kernel
  /-- The bytes. -/
  ram : ∀ x, x ∉ inUse A p.kernel.ledger → x ∉ gs → p'.ram x = p.ram x

namespace Within

theorem refl (A : Finset ℕ) (gs : List ℕ) (k : Kernel) : Within A gs k k :=
  ⟨fun _ _ _ => rfl, fun _ hx => Or.inl hx⟩

theorem trans (h : Within A gs k k') (h' : Within A gs k' k'') : Within A gs k k'' := by
  refine ⟨fun x hx hg => ?_, fun x hx => (h'.used x hx).elim (h.used x) Or.inr⟩
  have hx' : x ∉ inUse A k'.ledger := fun hin => (h.used x hin).elim hx hg
  rw [h'.mem x hx' hg, h.mem x hx hg]

/-- A level of a page fault writes to a table of the process, and to the frame that it gets. -/
theorem ensureEntry (h : TreeInv A k) (hq : k.nodes q = some frame) (hpfn : pfn ∈ gs)
    (region : Region) (flags : ℕ) (i : Fin 512) :
    Within A gs k (k.ensureEntry region flags frame i pfn).2 := by
  rw [k.ensureEntry_eq]
  split_ifs
  · exact refl A gs k
  · refine ⟨fun x hx hg => ?_, fun x hx => ?_⟩
    · have hframe : x ≠ frame := by
        rintro rfl
        exact hx (h.accounts.inUse q x hq)
      have hnew : x ≠ pfn := by
        rintro rfl
        exact hg hpfn
      funext j
      rw [setEntry_of_ne _ _ (Or.inl hframe), osPfnAlloc_mem _ _ hnew]
    · have hx' : x ∈ insert pfn (inUse A k.ledger) := hx
      rcases Finset.mem_insert.mp hx' with rfl | hin
      · exact Or.inr hpfn
      · exact Or.inl hin

theorem mapPage (h : TreeInv A k) (hflags : flags.testBit 0 = true) (hflags' : flags < 2^12)
    (hfresh : FreshLog A (k.mapPage flags address fresh).log) :
    Within A fresh.frames k (k.mapPage flags address fresh) := by
  unfold Kernel.mapPage at hfresh ⊢
  set r₃ := k.ensureEntry .osPtReg flags k.pgd (tableOffset address 0x027) fresh.pfnL3 with h₃
  set r₂ := r₃.2.ensureEntry .osPtReg flags r₃.1 (tableOffset address 0x01E) fresh.pfnL2 with h₂
  set r₁ := r₂.2.ensureEntry .osPtReg flags r₂.1 (tableOffset address 0x015) fresh.pfnL1 with h₁
  have f₁ : FreshLog A r₁.2.log := ensureEntry_freshLog hfresh
  have f₂ : FreshLog A r₂.2.log := ensureEntry_freshLog f₁
  have f₃ : FreshLog A r₃.2.log := ensureEntry_freshLog f₂
  have e₃ := ensureEntry_spec h (Radix.nodes_nil 4) (by simp) (by simp) hflags hflags' f₃
  have e₂ := ensureEntry_spec e₃.inv e₃.node (by simp) (by simp) hflags hflags' f₂
  have e₁ := ensureEntry_spec e₂.inv e₂.node (by simp) (by simp) hflags hflags' f₁
  have w₃ : Within A fresh.frames k r₃.2 :=
    ensureEntry h (Radix.nodes_nil 4) (by simp [Fresh.frames]) _ _ _
  have w₂ : Within A fresh.frames r₃.2 r₂.2 :=
    ensureEntry e₃.inv e₃.node (by simp [Fresh.frames]) _ _ _
  have w₁ : Within A fresh.frames r₂.2 r₁.2 :=
    ensureEntry e₂.inv e₂.node (by simp [Fresh.frames]) _ _ _
  exact ((w₃.trans w₂).trans w₁).trans
    (ensureEntry e₁.inv e₁.node (by simp [Fresh.frames]) _ _ _)

/-- A page of a shrink writes to the table of the page. -/
theorem unmapPage (h : TreeInv A k) (gs : List ℕ) (address : ℕ) :
    Within A gs k (k.unmapPage address) := by
  cases hwalk : k.walk (path address) with
  | none =>
    rw [unmapPage_of_none hwalk]
    exact refl A gs k
  | some w =>
    obtain ⟨frame, es, hframe, heq⟩ := unmapPage_of_walk hwalk
    have hnode : k.nodes ((path address).take 3) = some frame := by
      rw [← walk_fst k (by simp [path]), hframe, Option.map_some]
    rw [heq]
    refine ⟨fun x hx _ => funext fun j => setEntry_of_ne k _ (Or.inl ?_), fun x hx => Or.inl ?_⟩
    · rintro rfl
      exact hx (h.accounts.inUse _ x hnode)
    · exact (Finset.mem_erase.mp hx).2

theorem setNextFree (A : Finset ℕ) (gs : List ℕ) (k : Kernel) (seg : Seg) (n : ℕ) :
    Within A gs k (k.setNextFree seg n) := ⟨fun _ _ _ => rfl, fun _ hx => Or.inl hx⟩

theorem shrinkPage (h : TreeInv A k) (gs : List ℕ) (seg : Seg) :
    Within A gs k (k.shrinkPage seg) :=
  (setNextFree A gs k seg _).trans (unmapPage (h.setNextFree seg _) gs _)

theorem shrinkSegment (h : TreeInv A k) (gs : List ℕ) (seg : Seg) (size : ℕ) :
    Within A gs k (k.shrinkSegment seg size).2 := by
  have hloop : ∀ n, TreeInv A ((fun k : Kernel => k.shrinkPage seg)^[n] k) ∧
      Within A gs k ((fun k : Kernel => k.shrinkPage seg)^[n] k) := fun n => by
    induction n with
    | zero => exact ⟨h, refl A gs k⟩
    | succ n ih =>
      rw [Function.iterate_succ_apply']
      exact ⟨shrinkPage_inv ih.1 seg, ih.2.trans (shrinkPage ih.1 gs seg)⟩
  unfold Kernel.shrinkSegment
  split_ifs
  · exact refl A gs k
  · exact (hloop size).2

theorem call (h : TreeInv A k) (gs : List ℕ) {c : Call} {r : ℕ}
    (hstep : callStep M k c = some (r, k')) : Within A gs k k' := by
  cases c with
  | expand size flags =>
    obtain rfl : (k.expand M size flags).2 = k' := congrArg Prod.snd (Option.some.inj hstep)
    unfold Kernel.expand Kernel.expandSegment
    dsimp only
    split_ifs
    all_goals first | exact refl A gs k | exact setNextFree A gs k _ _
  | shrink size flags =>
    obtain rfl : (k.shrink M size flags).2 = k' := congrArg Prod.snd (Option.some.inj hstep)
    unfold Kernel.shrink
    split_ifs
    · exact shrinkSegment h gs _ _
    · exact shrinkSegment h gs _ _
    · exact refl A gs k

end Within

namespace Confined

/-- An access in a frame of the process. -/
theorem served {ram : ℕ → ℕ → UInt8} {offset : ℕ} (hw : Within A gs p.kernel k)
    (hram : ∀ x, x ∉ inUse A p.kernel.ledger → x ∉ gs → ram x = p.ram x)
    (hpfn : pfn ∈ inUse A k.ledger) (store : Option UInt8) :
    Confined A gs p (Process.served k ram pfn offset store).2 := by
  cases store with
  | none => exact ⟨hw, hram⟩
  | some v =>
    refine ⟨hw, fun x hx hg => ?_⟩
    have hne : x ≠ pfn := by
      rintro rfl
      exact (hw.used x hpfn).elim hx hg
    exact (Function.update_of_ne hne _ _).trans (hram x hx hg)

/-- A load or store. -/
theorem access (h : MemoryInv A p.kernel) (ha : address < 2^48)
    (hfresh : fresh.Available A p.kernel) {store : Option UInt8} {contents : ℕ → UInt8}
    {o : UserEnd} (hstep : p.access address store fresh contents = some (o, p')) :
    Confined A fresh.frames p p' := by
  -- A page fault that is handled maps the page.
  have hfault : ∀ {error k'}, p.kernel.handlePageFault address error fresh = (.resumes, k') →
      Within A fresh.frames p.kernel k' := fun hend => by
    obtain ⟨flags, hadmits, rfl⟩ := admits_of_step (M := ⟨0, 0⟩) (step_of_resumes hend)
    obtain ⟨hflags, hflags'⟩ := admits_flags hadmits
    exact Within.mapPage h.tree hflags hflags'
      (Supply.mapPage ⟨h.log, hfresh.1, hfresh.2⟩ flags address)
  unfold Process.access at hstep
  rcases MemoryInv.access_cases p.kernel address store.isSome fresh with ⟨pfn, heq, hpage⟩ | heq |
    ⟨k', hwalk, hend, ⟨pfn, heq, hpage⟩ | heq⟩ <;> rw [heq] at hstep
  · obtain ⟨-, rfl⟩ := Prod.mk.inj (Option.some.inj hstep)
    exact served (Within.refl A _ _) (fun _ _ _ => rfl) (h.tree.accounts.inUse _ pfn hpage) store
  · exact absurd hstep (by simp)
  · obtain ⟨-, rfl⟩ := Prod.mk.inj (Option.some.inj hstep)
    have habsent : p.kernel.nodes (path address) = none := by
      rw [← walk_fst p.kernel (by simp [path]), hwalk, Option.map_none]
    have hin := (h.faulted ha hfresh habsent hend).inv.tree.accounts.inUse _ pfn hpage
    refine served (hfault hend) (fun x hx hg => Function.update_of_ne ?_ _ _) hin store
    rintro rfl
    exact ((hfault hend).used x hin).elim hx hg
  · obtain ⟨-, rfl⟩ := Prod.mk.inj (Option.some.inj hstep)
    exact ⟨hfault hend, fun _ _ _ => rfl⟩

/-- A step of a process. -/
theorem step {op : UserOp} {o : UserEnd} (h : MemoryInv A p.kernel) (hop : UserLegal A p op)
    (hstep : userStep M p op = some (o, p')) : Confined A op.frames p p' := by
  cases op with
  | call c =>
    obtain ⟨⟨r, k⟩, hcall, heq⟩ := Option.map_eq_some_iff.mp hstep
    obtain ⟨-, rfl⟩ := Prod.mk.inj heq
    exact ⟨Within.call h.tree _ hcall, fun _ _ _ => rfl⟩
  | load address fresh contents => exact access h hop.1 hop.2 hstep
  | store address v fresh contents => exact access h hop.1 hop.2 hstep

end Confined

/-! ## What the others see -/

/-- Stores to frames that a process does not have leave its page table. -/
theorem nodes_of_apart (h : TreeInv A k) {mem : ℕ → Fin 512 → ℕ}
    (hmem : ∀ x ∈ inUse A k.ledger, mem x = k.mem x) :
    Kernel.nodes { k with mem := mem } = k.nodes := by
  refine Radix.nodes_congr fun q x hq => ?_
  have hx := hmem x (h.accounts.inUse q x hq)
  funext i
  exact child_congr (congrFun hx i)

theorem MemoryInv.of_apart (h : MemoryInv A k) {mem : ℕ → Fin 512 → ℕ}
    (hmem : ∀ x ∈ inUse A k.ledger, mem x = k.mem x) : MemoryInv A { k with mem := mem } := by
  have hnodes := nodes_of_apart h.tree hmem
  refine ⟨h.placed.congr rfl, ⟨?_, ?_⟩, h.log⟩
  · rw [hnodes]
    exact h.tree.accounts
  · rw [hnodes]
    exact h.tree.region

/-- A process sees what it saw. -/
theorem view_of_apart (h : TreeInv A k) {mem : ℕ → Fin 512 → ℕ} {ram ram' : ℕ → ℕ → UInt8}
    (hmem : ∀ x ∈ inUse A k.ledger, mem x = k.mem x)
    (hram : ∀ x ∈ inUse A k.ledger, ram' x = ram x) (a : ℕ) :
    Process.view ⟨{ k with mem := mem }, ram'⟩ a = Process.view ⟨k, ram⟩ a := by
  unfold Process.view
  rw [nodes_of_apart h hmem]
  cases hnode : k.nodes (path a) with
  | none => rfl
  | some f =>
    have hbyte := congrFun (hram f (h.accounts.inUse _ f hnode)) (a % 4096)
    rw [Option.map_some, Option.map_some]
    exact congrArg some hbyte

section

variable {ι : Type*} [DecidableEq ι] {A : ι → Finset ℕ} {s s' : System ι} {i j : ι} {op : UserOp}

@[simp] theorem System.process_put_self (s : System ι) (i : ι) (p : Process) :
    (s.put i p).process i = p := by
  simp [System.put, System.process]

theorem System.process_put_of_ne (s : System ι) (hne : j ≠ i) (p : Process) :
    (s.put i p).process j =
      ⟨{ (s.process j).kernel with mem := p.kernel.mem }, p.ram⟩ := by
  simp [System.put, System.process, Function.update_of_ne hne]

theorem System.alive_exit : (s.exit i).alive j = true ↔ j ≠ i ∧ s.alive j = true := by
  unfold System.exit
  by_cases hne : j = i
  · simp [hne]
  · simp [hne, Function.update_of_ne]

omit [DecidableEq ι] in
theorem System.view_eq_some {a : ℕ} {v : UInt8} :
    s.view (j, a) = some v ↔ s.alive j = true ∧ (s.process j).view a = some v :=
  Option.ite_none_right_eq_some

/-- How a step may end. -/
theorem systemStep_cases {o : Option UserEnd} (h : systemStep M s (i, op) = some (o, s')) :
    s.alive i = true ∧ ((∃ r p, userStep M (s.process i) op = some (r, p) ∧ o = some r ∧
        s' = s.put i p) ∨
      o = none ∧ s' = s.exit i) := by
  simp only [systemStep] at h
  split_ifs at h with halive
  refine ⟨halive, ?_⟩
  cases hstep : userStep M (s.process i) op with
  | none =>
    rw [hstep] at h
    obtain ⟨rfl, rfl⟩ := Prod.mk.inj (Option.some.inj h)
    exact Or.inr ⟨rfl, rfl⟩
  | some x =>
    obtain ⟨r, p⟩ := x
    rw [hstep] at h
    obtain ⟨rfl, rfl⟩ := Prod.mk.inj (Option.some.inj h)
    exact Or.inl ⟨r, p, rfl, rfl, rfl⟩

omit [DecidableEq ι] in
/-- A step of a process leaves the frames of the others. -/
theorem SystemInv.others (h : SystemInv A s) (hi : s.alive i = true)
    (hop : SystemLegal A s (i, op)) {r : UserEnd}
    (hstep : userStep M (s.process i) op = some (r, p)) (hne : j ≠ i) (hj : s.alive j = true)
    {x : ℕ} (hx : x ∈ inUse (A j) (s.process j).kernel.ledger) :
    x ∉ inUse (A i) p.kernel.ledger ∧ p.kernel.mem x = s.mem x ∧ p.ram x = s.ram x := by
  have hconf := Confined.step (h.memory i hi) hop.1 hstep
  -- A frame of another process is neither one of this process nor one that it gets.
  have hown : x ∉ inUse (A i) (s.process i).kernel.ledger := h.apart j i hj hi hne x hx
  have hnew : x ∉ op.frames := fun hg => hop.2 j hj x hg hx
  exact ⟨fun hin => (hconf.kernel.used x hin).elim hown hnew, hconf.kernel.mem x hown hnew,
    hconf.ram x hown hnew⟩

/-- A process that goes on keeps the invariant, and leaves what the others see. -/
theorem SystemInv.put (h : SystemInv A s) (hi : s.alive i = true) (hop : SystemLegal A s (i, op))
    {r : UserEnd} (hstep : userStep M (s.process i) op = some (r, p)) :
    SystemInv A (s.put i p) ∧ ∀ j, j ≠ i → s.alive j = true →
      ∀ a, ((s.put i p).process j).view a = (s.process j).view a := by
  have hinv := (userStep_respects (h.memory i hi) hop.1 hstep).1
  have hother : ∀ j, j ≠ i → s.alive j = true → ∀ x ∈ inUse (A j) (s.process j).kernel.ledger,
      x ∉ inUse (A i) p.kernel.ledger ∧ p.kernel.mem x = s.mem x ∧ p.ram x = s.ram x :=
    fun j hne hj x hx => h.others hi hop hstep hne hj hx
  refine ⟨⟨fun j hj => ?_, fun j l hj hl hjl => ?_⟩, fun j hne hj a => ?_⟩
  · by_cases hne : j = i
    · rw [hne, System.process_put_self]
      exact hinv
    · rw [System.process_put_of_ne s hne]
      exact (h.memory j hj).of_apart fun x hx => (hother j hne hj x hx).2.1
  · by_cases hji : j = i
    · have hli : l ≠ i := hji ▸ hjl.symm
      rw [hji, System.process_put_self, System.process_put_of_ne s hli]
      exact fun g hg hin => (hother l hli hl g hin).1 hg
    · rw [System.process_put_of_ne s hji]
      by_cases hli : l = i
      · rw [hli, System.process_put_self]
        exact fun g hg hin => (hother j hji hj g hg).1 hin
      · rw [System.process_put_of_ne s hli]
        exact h.apart j l hj hl hjl
  · rw [System.process_put_of_ne s hne]
    exact view_of_apart (h.memory j hj).tree (fun x hx => (hother j hne hj x hx).2.1)
      (fun x hx => (hother j hne hj x hx).2.2) a

/-- The invariant does not ask for anything of a process that exits. -/
theorem SystemInv.exit (h : SystemInv A s) (i : ι) : SystemInv A (s.exit i) :=
  ⟨fun j hj => h.memory j (System.alive_exit.mp hj).2, fun j l hj hl =>
    h.apart j l (System.alive_exit.mp hj).2 (System.alive_exit.mp hl).2⟩

/-- Every step keeps the invariant, and does to the memories what `systemTouch` says. -/
theorem systemStep_respects {o : Option UserEnd} (h : SystemInv A s) (hop : SystemLegal A s (i, op))
    (hstep : systemStep M s (i, op) = some (o, s')) :
    SystemInv A s' ∧ ∀ x : ι × ℕ, x.2 < 2^48 →
      Run.Respects System.view systemTouch s (i, op) o s' x := by
  obtain ⟨hi, ⟨r, p, huser, rfl, rfl⟩ | ⟨rfl, rfl⟩⟩ := systemStep_cases hstep
  · obtain ⟨hinv, hothers⟩ := h.put hi hop huser
    refine ⟨hinv, fun ⟨j, a⟩ ha v hv => System.view_eq_some.mpr ?_⟩
    unfold systemTouch at hv
    dsimp only at hv
    split_ifs at hv with hne
    · subst hne
      have hview : s.view (j, a) = (s.process j).view a := if_pos hi
      rw [hview] at hv
      rw [System.process_put_self]
      exact ⟨hi, (userStep_respects (h.memory j hi) hop.1 huser).2 a ha v hv⟩
    · obtain ⟨hj, hview⟩ := System.view_eq_some.mp hv
      rw [hothers j hne hj a]
      exact ⟨hj, hview⟩
  · refine ⟨h.exit i, fun ⟨j, a⟩ _ v hv => System.view_eq_some.mpr ?_⟩
    unfold systemTouch at hv
    dsimp only at hv
    split_ifs at hv with hne
    · exact absurd hv (by simp [Run.Touch.apply])
    · obtain ⟨hj, hview⟩ := System.view_eq_some.mp hv
      exact ⟨System.alive_exit.mpr ⟨hne, hj⟩, hview⟩

/-- A load returns what its process saw there before, if it saw anything. -/
theorem systemStep_load {contents : ℕ → UInt8} {v w : UInt8} (h : SystemInv A s)
    (hop : SystemLegal A s (i, .load address fresh contents))
    (hstep : systemStep M s (i, .load address fresh contents) = some (some (.value v), s'))
    (hw : s.view (i, address) = some w) : v = w := by
  obtain ⟨hi, ⟨r, p, huser, hr, -⟩ | ⟨hr, -⟩⟩ := systemStep_cases hstep
  · obtain rfl := Option.some.inj hr
    obtain ⟨ha, hfresh⟩ := hop.1
    have hacc := accessed_access (h.memory i hi) ha hfresh huser
    have hkept := hacc.kept address ha (Or.inr (by simp)) w (System.view_eq_some.mp hw).2
    rcases hacc.result with hagain | ⟨-, u, hu, hview⟩ | ⟨hnone, -⟩
    · exact absurd hagain (by simp)
    · obtain rfl := UserEnd.value.inj hu
      exact Option.some.inj (hview.symm.trans hkept)
    · exact absurd rfl hnone
  · exact absurd hr (by simp)

omit [DecidableEq ι] in
theorem StartSystem.inv (h : StartSystem A s) : SystemInv A s := by
  have hledger : ∀ i, s.alive i = true → (s.process i).kernel.ledger = [] := fun i hi => by
    rw [Kernel.ledger, (h.tree i hi).log, List.map_nil]
  refine ⟨fun i hi => ⟨h.placed i hi, (h.tree i hi).treeInv, ?_⟩, fun i j hi hj hne g hg => ?_⟩
  · rw [(h.tree i hi).log]
    trivial
  · rw [hledger i hi] at hg
    rw [hledger j hj]
    exact h.apart i j hi hj hne g hg

omit [DecidableEq ι] in
theorem SystemInv.tablesApart (h : SystemInv A s) : TablesApart s :=
  fun i j hi hj hne _ _ g hp hq => h.apart i j hi hj hne g
    ((h.memory i hi).tree.accounts.inUse _ g hp) ((h.memory j hj).tree.accounts.inUse _ g hq)

end

/-! ## Runs -/

/-- In every run of any number of processes, in any order of their steps, a load returns the byte
that was stored last by the same process at its address, unless a shrink of this process gave the
address back since; and in the end no frame of the page table of a process is at another place of
it, or in the page table of another process. -/
theorem run_processes {ι : Type*} [DecidableEq ι] (M : MapFlags) (A : ι → Finset ℕ) (s : System ι)
    (hs : StartSystem A s) (ops : List (ι × UserOp))
    (hops : Run.Along (systemStep M) (SystemLegal A) s ops)
    (hist : List ((ι × UserOp) × Option UserEnd)) (s' : System ι)
    (hrun : Run.run (systemStep M) s ops = some (hist, s')) :
    TablesApart s' ∧ (∀ i, s'.alive i = true → FramesKept (s'.process i).kernel) ∧
      ∀ pre i address fresh contents v post,
        hist = pre ++ ((i, .load address fresh contents), some (.value v)) :: post →
          ∀ w, Run.recalled systemTouch pre (i, address) = some w → v = w := by
  obtain ⟨⟨hinv, -⟩, hload⟩ := Run.recalled_of_run (SystemInv A) (fun x : ι × ℕ => x.2 < 2^48)
    System.view systemTouch
    (fun known op o => ∀ i address fresh contents v, op = (i, .load address fresh contents) →
      o = some (.value v) → ∀ w, known (i, address) = some w → v = w)
    (fun s op o s' h hop hstep => systemStep_respects h hop hstep)
    (fun s op o s' known h hop hstep hknown => by
      rintro i address fresh contents v rfl rfl w hw
      exact systemStep_load h hop hstep (hknown (i, address) hop.1.1 w hw))
    hs.inv hops hrun
  exact ⟨hinv.tablesApart, fun i hi => (hinv.memory i hi).tree.framesKept,
    fun pre i address fresh contents v post hsplit =>
      hload pre _ _ post hsplit i address fresh contents v rfl rfl⟩

instance (A : Bool → Finset ℕ) (s : System Bool) :
    (op : Bool × UserOp) → Decidable (SystemLegal A s op)
  | (_, _) => inferInstanceAs (Decidable (_ ∧ _))

/-- Two processes with the segments of `twoPages`, whose top tables are in the frames 1 and 2. -/
def twoProcesses : System Bool where
  alive _ := true
  pgd i := if i then 1 else 2
  mms _ := twoPages.mms
  log _ := []
  mem _ _ := 0
  ram _ _ := 0

/-- The frames of the top tables. -/
def topFrames (i : Bool) : Finset ℕ := {twoProcesses.pgd i}

/-- An empty top table is a tree. -/
theorem startTree_empty (hmem : k.mem k.pgd = fun _ => 0) (hlog : k.log = []) :
    StartTree {k.pgd} k := by
  have hroot : ∀ p a, k.nodes p = some a → p = [] ∧ a = k.pgd := fun p a hp => by
    cases p with
    | nil => exact ⟨rfl, (Option.some.inj hp).symm⟩
    | cons i p =>
      have hempty : k.nodes [i] = none := by
        simp [Kernel.nodes, Radix.nodes, Radix.node, Kernel.child, hmem, present]
      have hnone : k.nodes (i :: p) = none := Radix.nodes_eq_none hempty ⟨p, rfl⟩
      rw [hnone] at hp
      exact absurd hp (by simp)
  refine ⟨hlog, fun p q a hp hq => ?_, fun p a hp => ?_⟩
  · rw [(hroot p a hp).1, (hroot q a hq).1]
  · rw [(hroot p a hp).2]
    exact Finset.mem_singleton_self _

theorem startSystem_twoProcesses : StartSystem topFrames twoProcesses :=
  ⟨fun _ _ => placed_twoPages.congr rfl,
    fun i _ => startTree_empty (k := (twoProcesses.process i).kernel) rfl rfl, by decide⟩

/-- Both processes store to the same address, and load from it. -/
def storesAndLoads : List (Bool × UserOp) :=
  [(true, .store 0x180000abc 7 ⟨10, 11, 12, 13⟩ fun _ => 1),
    (false, .store 0x180000abc 8 ⟨20, 21, 22, 23⟩ fun _ => 1),
    (true, .load 0x180000abc ⟨30, 31, 32, 33⟩ fun _ => 1),
    (false, .load 0x180000abc ⟨30, 31, 32, 33⟩ fun _ => 1)]

/-- Each process loads the byte that it stored. -/
theorem run_processes_two : ∃ hist s', Run.run (systemStep mapFlags) twoProcesses storesAndLoads =
    some (hist, s') ∧ TablesApart s' ∧
      (∀ i, s'.alive i = true → FramesKept (s'.process i).kernel) ∧
      ∀ pre i address fresh contents v post,
        hist = pre ++ ((i, .load address fresh contents), some (.value v)) :: post →
          ∀ w, Run.recalled systemTouch pre (i, address) = some w → v = w :=
  ⟨[((true, .store 0x180000abc 7 ⟨10, 11, 12, 13⟩ fun _ => 1), some .stored),
      ((false, .store 0x180000abc 8 ⟨20, 21, 22, 23⟩ fun _ => 1), some .stored),
      ((true, .load 0x180000abc ⟨30, 31, 32, 33⟩ fun _ => 1), some (.value 7)),
      ((false, .load 0x180000abc ⟨30, 31, 32, 33⟩ fun _ => 1), some (.value 8))], _, rfl,
    run_processes mapFlags topFrames twoProcesses startSystem_twoProcesses storesAndLoads
      (by decide) _ _ rfl⟩

end GemOS.Paging
