import GemOS.Paging.ContextRuns
import GemOS.Paging.Processes
import GemOS.Paging.Rights

/-!
# The code of a process

`prepare_context_mm` maps the page of the code with entries that are not writable. What keeps its
bytes afterwards is not in one place: the processor refuses a store, `handle_page_fault` refuses to
repair it, its walks leave the entries that are there, `SYSCALL_SHRINK` unmaps pages of `DATA` and
`RODATA` only, and `os_pfn_alloc` returns the frame to no other process. `run_code_kept` puts these
together: after any run of `prepare_context_mm` and `cleanup_context_mm`, and in every run of the
processes that are live then, each of them sees its code unchanged, and a store to it ends the
process.
-/

namespace GemOS.Paging

open Ledger

/-- The page of `c` is present, for the user to read but not to write, and is not in a segment that
shrinks. -/
structure ReadOnlyPage (k : Kernel) (c : ℕ) : Prop where
  /-- The address has 48 bits. -/
  lt : c < 2^48
  /-- The entries on the way to the page. -/
  page : ∃ w, k.walk (path c) = some w ∧ (∀ e ∈ w.2, userBit e = true) ∧
    ∃ e ∈ w.2, writeBit e = false
  /-- The page is in neither `DATA` nor `RODATA`. -/
  outside : ∀ seg, seg ≠ .stack → c < (k.mms seg).start ∨ (k.mms seg).last ≤ c

/-- The page of `c` is as it was. -/
structure PageKept (c : ℕ) (p p' : Process) : Prop where
  /-- The walk ends as before. -/
  walk : p'.kernel.walk (path c) = p.kernel.walk (path c)
  /-- The segments have the same bounds. -/
  bounds : SameBounds p.kernel p'.kernel
  /-- The frame has the same bytes. -/
  ram : ∀ w, p.kernel.walk (path c) = some w → p'.ram w.1 = p.ram w.1

/-- What the accesses to the page of `c` lead to, where `view` is what was visible at first: a store
ends the process, and a load returns the byte. -/
def ReadsOnly (c : ℕ) (view : ℕ → Option UInt8) : UserOp → Option UserEnd → Prop
  | .call _, _ => True
  | .load address _ _, o => address / 4096 = c / 4096 →
    ∃ v, o = some (.value v) ∧ view address = some v
  | .store address _ _ _, o => address / 4096 = c / 4096 → o = none

section

variable {ι : Type*}

/-- The processes that run in the contexts. -/
def Contexts.start (cs : Contexts ι) (mms : ι → Seg → Segment) (ram : ℕ → ℕ → UInt8) :
    System ι where
  alive i := (cs.ctx i).isSome
  pgd i := (cs.ctx i).elim 0 ExecContext.pgd
  mms := mms
  log _ := []
  mem := cs.mem
  ram := ram

/-- The frames of a context. -/
def Contexts.frames (cs : Contexts ι) (i : ι) : Finset ℕ :=
  (cs.ctx i).elim ∅ fun ctx =>
    ((ctx.stackPath.inits ++ ctx.codePath.inits ++ ctx.dataPath.inits).filterMap
      (cs.frame i)).toFinset

/-- The segments of a process are as in the layout, and its code is outside those that shrink. -/
structure LaidOut (p : Process) (ctx : ExecContext) : Prop where
  /-- The segments. -/
  placed : Placed p.kernel
  /-- The address of the code has 48 bits. -/
  lt : ctx.codeStart < 2^48
  /-- It is in neither `DATA` nor `RODATA`. -/
  outside : ∀ seg, seg ≠ .stack →
    ctx.codeStart < (p.kernel.mms seg).start ∨ (p.kernel.mms seg).last ≤ ctx.codeStart

end

variable {M : MapFlags} {A : Finset ℕ} {k k' : Kernel} {p p' p'' : Process} {a address c pfn : ℕ}
  {fresh : Fresh} {w : ℕ × List ℕ} {ram ram' : ℕ → ℕ → UInt8} {contents : ℕ → UInt8}

/-! ## One process -/

theorem path_of_page (hc : c < 2^48) (ha : a / 4096 = c / 4096) : path a = path c :=
  (path_eq_iff (by omega) hc).mpr ha

theorem ReadsOnly.congr {view view' : ℕ → Option UInt8} {op : UserOp} {o : Option UserEnd}
    (h : ReadsOnly c view op o) (hview : ∀ a, a / 4096 = c / 4096 → view a = view' a) :
    ReadsOnly c view' op o := by
  cases op with
  | call cl => trivial
  | load address fresh contents =>
    intro ha
    obtain ⟨v, ho, hv⟩ := h ha
    exact ⟨v, ho, (hview address ha).symm.trans hv⟩
  | store address v fresh contents => exact h

namespace PageKept

theorem refl (c : ℕ) (p : Process) : PageKept c p p :=
  ⟨rfl, fun _ => ⟨rfl, rfl⟩, fun _ _ => rfl⟩

theorem trans (h : PageKept c p p') (h' : PageKept c p' p'') : PageKept c p p'' := by
  refine ⟨h'.walk.trans h.walk, fun s => ?_, fun w hw => ?_⟩
  · exact ⟨(h'.bounds s).1.trans (h.bounds s).1, (h'.bounds s).2.trans (h.bounds s).2⟩
  · exact (h'.ram w (h.walk.trans hw)).trans (h.ram w hw)

theorem readOnlyPage (h : PageKept c p p') (hpage : ReadOnlyPage p.kernel c) :
    ReadOnlyPage p'.kernel c := by
  obtain ⟨w, hw, hentries⟩ := hpage.page
  refine ⟨hpage.lt, ⟨w, h.walk.trans hw, hentries⟩, fun seg hseg => ?_⟩
  rw [(h.bounds seg).1, (h.bounds seg).2]
  exact hpage.outside seg hseg

theorem view (h : PageKept c p p') (hpage : ReadOnlyPage p.kernel c) (ha : a / 4096 = c / 4096) :
    p'.view a = p.view a := by
  obtain ⟨w, hw, -⟩ := hpage.page
  unfold Process.view
  rw [path_of_page hpage.lt ha, ← walk_fst _ (by simp [path]), ← walk_fst _ (by simp [path]),
    h.walk, hw, Option.map_some, Option.map_some, Option.map_some, h.ram w hw]

/-- An access in the frame of another page. -/
theorem served (h : PageKept c p ⟨k, ram⟩)
    (hne : ∀ w, p.kernel.walk (path c) = some w → w.1 ≠ pfn) (offset : ℕ) (store : Option UInt8) :
    PageKept c p (Process.served k ram pfn offset store).2 := by
  cases store with
  | none => exact h
  | some v =>
    exact ⟨h.walk, h.bounds, fun w hw =>
      (Function.update_of_ne (hne w hw) _ _).trans (h.ram w hw)⟩

end PageKept

namespace ReadOnlyPage

/-- A store to the page ends the process. -/
theorem store (h : ReadOnlyPage p.kernel c) (ha : a / 4096 = c / 4096) (v : UInt8) (fresh : Fresh)
    (contents : ℕ → UInt8) : p.access a (some v) fresh contents = none := by
  obtain ⟨w, hw, -, e, he, hbit⟩ := h.page
  rw [← path_of_page h.lt ha] at hw
  have hexits : p.kernel.access a (some v).isSome fresh = .exits :=
    access_of_not_writable hw he hbit fresh
  unfold Process.access
  rw [hexits]

/-- A load from the page returns what is visible there, and changes nothing. -/
theorem load (h : ReadOnlyPage p.kernel c) (ha : a / 4096 = c / 4096) (fresh : Fresh)
    (contents : ℕ → UInt8) :
    ∃ v, p.access a none fresh contents = some (.value v, p) ∧ p.view a = some v := by
  obtain ⟨w, hw, huser, -⟩ := h.page
  rw [← path_of_page h.lt ha] at hw
  have htrans : p.kernel.translate a false = .frame w.1 :=
    translate_of_walk hw fun e he => ⟨huser e he, by simp⟩
  have hserved : p.kernel.access a (none : Option UInt8).isSome fresh = .served w.1 p.kernel := by
    unfold Kernel.access
    rw [Option.isSome_none, htrans]
  refine ⟨p.ram w.1 (a % 4096), ?_, ?_⟩
  · unfold Process.access
    rw [hserved]
    rfl
  · rw [Process.view, ← walk_fst _ (by simp [path]), hw, Option.map_some, Option.map_some]

/-- A load or store leaves the page. -/
theorem access (h : ReadOnlyPage p.kernel c) (hinv : MemoryInv A p.kernel) (ha : address < 2^48)
    (hfresh : fresh.Available A p.kernel) {store : Option UInt8} {o : UserEnd}
    (hstep : p.access address store fresh contents = some (o, p')) : PageKept c p p' := by
  by_cases hsame : address / 4096 = c / 4096
  · cases store with
    | none =>
      obtain ⟨v, heq, -⟩ := h.load hsame fresh contents
      obtain rfl := congrArg Prod.snd (Option.some.inj (heq.symm.trans hstep))
      exact PageKept.refl c p
    | some v => exact absurd ((h.store hsame v fresh contents).symm.trans hstep) (by simp)
  · -- The frame of another page is another one.
    have hframe : ∀ k pfn, TreeInv A k → k.walk (path c) = p.kernel.walk (path c) →
        k.nodes (path address) = some pfn → ∀ w, p.kernel.walk (path c) = some w → w.1 ≠ pfn := by
      rintro k _ htree hwalk hnode w hw rfl
      have hpage : k.nodes (path c) = some w.1 := by
        rw [← walk_fst k (by simp [path]), hwalk, hw, Option.map_some]
      exact hsame ((path_eq_iff ha h.lt).mp (htree.accounts.inj _ _ _ hnode hpage))
    have hfault : ∀ k', p.kernel.walk (path address) = none →
        p.kernel.handlePageFault address (errorCode false store.isSome) fresh = (.resumes, k') →
          TreeInv A k' ∧ PageKept c p ⟨k', p.ram⟩ := fun k' _ hend => by
      obtain ⟨seg, -, hfilled, hmapped⟩ := hinv.pageFilled hfresh hend
      obtain ⟨w, hw, -⟩ := h.page
      exact ⟨hmapped.inv, (hfilled.kept _ w (by simp [path]) hw).trans hw.symm, hfilled.bounds,
        fun _ _ => rfl⟩
    unfold Process.access at hstep
    rcases MemoryInv.access_cases p.kernel address store.isSome fresh with ⟨pfn, heq, hnode⟩ |
      heq | ⟨k', hwalk, hend, ⟨pfn, heq, hnode⟩ | heq⟩ <;> rw [heq] at hstep
    · obtain rfl := congrArg Prod.snd (Option.some.inj hstep)
      exact (PageKept.refl c p).served (hframe _ pfn hinv.tree rfl hnode) _ store
    · exact absurd hstep (by simp)
    · obtain rfl := congrArg Prod.snd (Option.some.inj hstep)
      obtain ⟨htree, hkept⟩ := hfault k' hwalk hend
      have hne := hframe k' pfn htree hkept.walk hnode
      have hkept' : PageKept c p ⟨k', Function.update p.ram pfn contents⟩ :=
        ⟨hkept.walk, hkept.bounds, fun w hw => Function.update_of_ne (hne w hw) _ _⟩
      exact hkept'.served hne _ store
    · obtain rfl := congrArg Prod.snd (Option.some.inj hstep)
      exact (hfault k' hwalk hend).2

/-- A system call leaves the page. -/
theorem call (h : ReadOnlyPage k c) (hinv : MemoryInv A k) {cl : Call} {r : ℕ}
    (hop : ∀ size flags, cl = .shrink size flags → size < 2^20)
    (hstep : callStep M k cl = some (r, k')) : PageKept c ⟨k, ram⟩ ⟨k', ram⟩ := by
  cases cl with
  | expand size flags =>
    obtain rfl : (k.expand M size flags).2 = k' := congrArg Prod.snd (Option.some.inj hstep)
    unfold Kernel.expand Kernel.expandSegment
    dsimp only
    split_ifs
    all_goals first | exact PageKept.refl c _ | exact ⟨rfl, SameBounds.update rfl, fun _ _ => rfl⟩
  | shrink size flags =>
    obtain rfl : (k.shrink M size flags).2 = k' := congrArg Prod.snd (Option.some.inj hstep)
    rcases hinv.shrink_cases M flags (hop size flags rfl) with hfail | ⟨seg, hseg, -, hshrunk⟩
    · rw [hfail]
      exact PageKept.refl c _
    · refine ⟨hshrunk.unmapped.other _ (by simp [path]) fun b hlo hhi hpath => ?_,
        SameBounds.update hshrunk.mms, fun _ _ => rfl⟩
      -- What is unmapped are pages of the segment.
      obtain ⟨-, -, hle, hlast⟩ := hinv.placed.segmentOk hseg
      obtain ⟨hdvd, hdvd', -⟩ := hinv.placed.aligned seg
      have hpage := (path_eq_iff h.lt (by omega)).mp hpath
      have hstart := hshrunk.start
      have hout := h.outside seg hseg
      omega

end ReadOnlyPage

/-- A step of the process leaves the page. -/
theorem userStep_kept (h : ReadOnlyPage p.kernel c) (hinv : MemoryInv A p.kernel) {op : UserOp}
    {o : UserEnd} (hop : UserLegal A p op) (hstep : userStep M p op = some (o, p')) :
    PageKept c p p' := by
  cases op with
  | call cl =>
    obtain ⟨⟨r, k⟩, hcall, heq⟩ := Option.map_eq_some_iff.mp hstep
    obtain ⟨-, rfl⟩ := Prod.mk.inj heq
    refine h.call hinv (fun size flags hcl => ?_) hcall
    subst hcl
    exact hop
  | load address fresh contents => exact h.access hinv hop.1 hop.2 hstep
  | store address v fresh contents => exact h.access hinv hop.1 hop.2 hstep

/-! ## All processes -/

section

variable {ι : Type*} {A : ι → Finset ℕ} {s s' : System ι} {i j : ι} {op : UserOp}

/-- What a step of another process leaves of a page. -/
theorem SystemInv.pageKept (h : SystemInv A s) (hj : s.alive j = true) {mem : Memory}
    (hmem : ∀ x ∈ inUse (A j) (s.process j).kernel.ledger, mem x = s.mem x)
    (hram : ∀ x ∈ inUse (A j) (s.process j).kernel.ledger, ram x = s.ram x) (c : ℕ) :
    PageKept c (s.process j) ⟨{ (s.process j).kernel with mem := mem }, ram⟩ := by
  have hin : ∀ q w, q.length ≤ 4 → (s.process j).kernel.walk q = some w →
      w.1 ∈ inUse (A j) (s.process j).kernel.ledger := fun q w hq hw => by
    refine (h.memory j hj).tree.accounts.inUse q w.1 ?_
    rw [← walk_fst _ hq, hw, Option.map_some]
  refine ⟨?_, fun _ => ⟨rfl, rfl⟩, fun w hw => hram w.1 (hin _ w (by simp [path]) hw)⟩
  exact Memory.walk_congr (fun q w hq hw => hmem w.1 (hin q w hq hw)) (by simp [path])

variable [DecidableEq ι]

/-- A step of any process leaves the page of each process that is live after it. -/
theorem systemStep_kept {o : Option UserEnd} (h : SystemInv A s) (hop : SystemLegal A s (i, op))
    (hstep : systemStep M s (i, op) = some (o, s')) (hj : s'.alive j = true)
    (hpage : s.alive j = true → ReadOnlyPage (s.process j).kernel c) :
    s.alive j = true ∧ PageKept c (s.process j) (s'.process j) := by
  obtain ⟨hi, ⟨r, p, huser, -, rfl⟩ | ⟨-, rfl⟩⟩ := systemStep_cases hstep
  · have hj' : s.alive j = true := hj
    refine ⟨hj', ?_⟩
    by_cases hne : j = i
    · subst hne
      rw [System.process_put_self]
      exact userStep_kept (hpage hj') (h.memory j hj') hop.1 huser
    · rw [System.process_put_of_ne s hne]
      exact h.pageKept hj' (fun x hx => (h.others hi hop huser hne hj' hx).2.1)
        (fun x hx => (h.others hi hop huser hne hj' hx).2.2) c
  · exact ⟨(System.alive_exit.mp hj).2, PageKept.refl c _⟩

/-- What an access to the page leads to. -/
theorem systemStep_readsOnly {o : Option UserEnd} (hstep : systemStep M s (i, op) = some (o, s'))
    (hpage : s.alive i = true → ReadOnlyPage (s.process i).kernel c) :
    ReadsOnly c (fun a => s.view (i, a)) op o := by
  obtain ⟨hi, hend⟩ := systemStep_cases hstep
  cases op with
  | call cl => trivial
  | load address fresh contents =>
    intro ha
    obtain ⟨v, heq, hview⟩ := (hpage hi).load ha fresh contents
    obtain ⟨r, p, huser, rfl, -⟩ | ⟨rfl, -⟩ := hend
    · obtain ⟨rfl, -⟩ := Prod.mk.inj (Option.some.inj (heq.symm.trans huser))
      exact ⟨v, rfl, (if_pos hi).trans hview⟩
    · simp only [systemStep, if_pos hi, userStep, heq] at hstep
      exact absurd hstep (by simp)
  | store address v fresh contents =>
    intro ha
    have heq := (hpage hi).store ha v fresh contents
    obtain ⟨r, p, huser, -, -⟩ | ⟨rfl, -⟩ := hend
    · exact absurd (heq.symm.trans huser) (by simp)
    · rfl

/-- The rule of read-only pages: in every run they stay as they are, and are only read. -/
theorem run_readsOnly (h : SystemInv A s)
    (hpage : s.alive i = true → ReadOnlyPage (s.process i).kernel c) {ops : List (ι × UserOp)}
    (hops : Run.Along (systemStep M) (SystemLegal A) s ops)
    {hist : List ((ι × UserOp) × Option UserEnd)}
    (hrun : Run.run (systemStep M) s ops = some (hist, s')) :
    (s'.alive i = true → ∀ a, a / 4096 = c / 4096 → s'.view (i, a) = s.view (i, a)) ∧
      ∀ op o, ((i, op), o) ∈ hist → ReadsOnly c (fun a => s.view (i, a)) op o := by
  -- A page that is as it was shows the same bytes.
  have hview : ∀ s₁ : System ι, s₁.alive i = true → s.alive i = true →
      PageKept c (s.process i) (s₁.process i) → ∀ a, a / 4096 = c / 4096 →
        s₁.view (i, a) = s.view (i, a) := fun s₁ hi₁ hi hkept a ha => by
    rw [System.view, System.view, if_pos hi₁, if_pos hi]
    exact hkept.view (hpage hi) ha
  obtain ⟨⟨-, hkept⟩, hends⟩ := Run.history_of_run
    (fun s₁ _ => SystemInv A s₁ ∧ (s₁.alive i = true →
      s.alive i = true ∧ PageKept c (s.process i) (s₁.process i)))
    (fun _ x o => x.1 = i → ReadsOnly c (fun a => s.view (i, a)) x.2 o)
    (fun s₁ _ x o s₂ hR hop hstep => by
      obtain ⟨j, op⟩ := x
      obtain ⟨hinv, hkept⟩ := hR
      have hpage₁ : s₁.alive i = true → ReadOnlyPage (s₁.process i).kernel c := fun hi₁ =>
        (hkept hi₁).2.readOnlyPage (hpage (hkept hi₁).1)
      refine ⟨⟨(systemStep_respects hinv hop hstep).1, fun hi₂ => ?_⟩, ?_⟩
      · obtain ⟨hi₁, hstep_kept⟩ := systemStep_kept hinv hop hstep hi₂ hpage₁
        exact ⟨(hkept hi₁).1, (hkept hi₁).2.trans hstep_kept⟩
      · rintro rfl
        have hi₁ := (systemStep_cases hstep).1
        obtain ⟨hi, hkept₁⟩ := hkept hi₁
        exact (systemStep_readsOnly hstep hpage₁).congr (hview s₁ hi₁ hi hkept₁))
    ⟨h, fun hi => ⟨hi, PageKept.refl c _⟩⟩ hops hrun
  refine ⟨fun hi' => hview s' hi' (hkept hi').1 (hkept hi').2, fun op o hin => ?_⟩
  obtain ⟨pre, post, hsplit⟩ := List.append_of_mem hin
  exact hends pre (i, op) o post hsplit rfl

end

/-! ## The code -/

section

variable {ι : Type*} {i j : ι} {cs : Contexts ι} {mms : ι → Seg → Segment} {ctx : ExecContext}
  {m : Machine} {f : ContextFrames} {prep : List ((ι × ContextOp) × Unit)} {q : List (Fin 512)}

theorem Contexts.nodes_start (hi : cs.ctx i = some ctx) (q : List (Fin 512)) :
    ((cs.start mms ram).process i).kernel.nodes q = cs.frame i q := by
  have hpgd : ((cs.start mms ram).process i).kernel.pgd = ctx.pgd := by
    simp [System.process, Contexts.start, hi]
  rw [Contexts.frame, hi, Option.bind_some]
  split_ifs with hq
  · rw [← walk_fst _ hq, Kernel.walk, hpgd]
    rfl
  · exact if_neg hq

theorem Kept.mem_frames (h : Kept cs ctx m f) (hi : cs.ctx i = some ctx)
    (hq : cs.frame i q = some a) : a ∈ cs.frames i := by
  obtain ⟨hst, hco, hda⟩ := h.paths
  rw [Contexts.frames, hi, Option.elim_some, List.mem_toFinset, List.mem_filterMap, hst, hco, hda]
  refine ⟨q, ?_, hq⟩
  rw [List.mem_append, List.mem_append, List.mem_inits, List.mem_inits, List.mem_inits, or_assoc]
  rcases (h.frame_iff hi).mp hq with ⟨rfl, -⟩ | ⟨⟨-, hpre⟩, -⟩
  · exact Or.inl List.nil_prefix
  · exact hpre

theorem Contexts.frame_of_mem (hi : cs.ctx i = some ctx) (ha : a ∈ cs.frames i) :
    ∃ q, cs.frame i q = some a := by
  rw [Contexts.frames, hi, Option.elim_some, List.mem_toFinset, List.mem_filterMap] at ha
  obtain ⟨q, -, hq⟩ := ha
  exact ⟨q, hq⟩

/-- The code of a context is read only. -/
theorem Kept.readOnlyPage (h : Kept cs ctx m f) (hi : cs.ctx i = some ctx)
    (hlaid : LaidOut ((cs.start mms ram).process i) ctx) :
    ReadOnlyPage ((cs.start mms ram).process i).kernel ctx.codeStart := by
  obtain ⟨hcs, hs, hc⟩ := h.apart
  obtain ⟨⟨-, ⟨huser, hwrite⟩, -⟩, -⟩ := Machine.permissions h.ok hcs hs hc
  have hwalk : ((cs.start mms ram).process i).kernel.walk (path ctx.codeStart) =
      (m.prepareContextMm f).walk m.ctx.codePath := by
    rw [← h.paths.2.1, ← h.machine_walk (le_of_eq rfl), Machine.walk, Kernel.walk]
    simp [System.process, Contexts.start, hi, Contexts.machine, ExecContext.codePath]
  have hex : ∃ w, (m.prepareContextMm f).walk m.ctx.codePath = some w ∧
      ∃ e ∈ w.2, writeBit e = false := by
    by_contra hnone
    exact hwrite fun w hw e he => by
      by_contra hbit
      exact hnone ⟨w, hw, e, he, Bool.not_eq_true _ ▸ hbit⟩
  obtain ⟨w, hw, hbit⟩ := hex
  exact ⟨hlaid.lt, ⟨w, hwalk.trans hw, huser w hw, hbit⟩, hlaid.outside⟩

/-- The processes start with page tables that share no frames. -/
theorem ContextsInv.startSystem (h : ContextsInv cs prep)
    (hlaid : ∀ i ctx, cs.ctx i = some ctx → LaidOut ((cs.start mms ram).process i) ctx) :
    StartSystem cs.frames (cs.start mms ram) := by
  have halive : ∀ i, (cs.start mms ram).alive i = true → ∃ ctx, cs.ctx i = some ctx :=
    fun i hi => Option.isSome_iff_exists.mp hi
  refine ⟨fun i hi => ?_, fun i hi => ?_, fun i j hi hj hne g hg hg' => ?_⟩
  · obtain ⟨ctx, hctx⟩ := halive i hi
    exact (hlaid i ctx hctx).placed
  · obtain ⟨ctx, hctx⟩ := halive i hi
    obtain ⟨m, f, -, hk⟩ := h.live i ctx hctx
    refine ⟨rfl, fun p q a hp hq => ?_, fun p a hp => ?_⟩
    · rw [Contexts.nodes_start hctx] at hp hq
      exact hk.frame_inj hctx hp hq
    · rw [Contexts.nodes_start hctx] at hp
      exact hk.mem_frames hctx hp
  · obtain ⟨_, hctx⟩ := halive i hi
    obtain ⟨_, hctx'⟩ := halive j hj
    obtain ⟨q, hq⟩ := Contexts.frame_of_mem hctx hg
    obtain ⟨r, hr⟩ := Contexts.frame_of_mem hctx' hg'
    exact h.apart i j hne q r g hq hr

end

/-! ## Runs -/

/-- Contexts are prepared and taken down in any order, and then the processes that run in the live
ones take their steps in any order. As long as a process is live, its code is as it was when it
started; every load from the page of the code returns the byte that was there, and every store to it
ends the process. -/
theorem run_code_kept {ι : Type*} [DecidableEq ι] (M : MapFlags) (mem : Memory)
    (calls : List (ι × ContextOp))
    (hcalls : Run.Along contextStep ContextLegal (noContexts mem) calls)
    (prep : List ((ι × ContextOp) × Unit)) (cs : Contexts ι)
    (hprep : Run.run contextStep (noContexts mem) calls = some (prep, cs))
    (mms : ι → Seg → Segment) (ram : ℕ → ℕ → UInt8)
    (hlaid : ∀ i ctx, cs.ctx i = some ctx → LaidOut ((cs.start mms ram).process i) ctx)
    (ops : List (ι × UserOp))
    (hops : Run.Along (systemStep M) (SystemLegal cs.frames) (cs.start mms ram) ops)
    (hist : List ((ι × UserOp) × Option UserEnd)) (s' : System ι)
    (hrun : Run.run (systemStep M) (cs.start mms ram) ops = some (hist, s')) (i : ι)
    (ctx : ExecContext) (hi : cs.ctx i = some ctx) :
    (s'.alive i = true → ∀ a, a / 4096 = ctx.codeStart / 4096 →
      s'.view (i, a) = (cs.start mms ram).view (i, a)) ∧
    ∀ op o, ((i, op), o) ∈ hist →
      ReadsOnly ctx.codeStart (fun a => (cs.start mms ram).view (i, a)) op o := by
  have hinv := ContextsInv.of_run hcalls hprep
  obtain ⟨m, f, -, hk⟩ := hinv.live i ctx hi
  exact run_readsOnly (hinv.startSystem hlaid).inv
    (fun _ => hk.readOnlyPage hi (hlaid i ctx hi)) hops hrun

/-- A process writes to its data, and another one reads its code and writes to it. -/
def tamper : List (Bool × UserOp) :=
  [(false, .store 0x180000abc 7 ⟨70, 71, 72, 73⟩ fun _ => 1),
    (true, .load 0x100000abc ⟨80, 81, 82, 83⟩ fun _ => 1),
    (true, .store 0x100000abc 7 ⟨80, 81, 82, 83⟩ fun _ => 1),
    (false, .load 0x100000abc ⟨80, 81, 82, 83⟩ fun _ => 1)]

/-- The bytes of the frames are those of the code. -/
def codeBytes (frame _offset : ℕ) : UInt8 := if frame = 17 then 0xC3 else 0

/-- The store of the process ends it, and its code is as it was. -/
theorem run_code_kept_tamper : ∃ prep cs,
    Run.run contextStep (noContexts fun _ _ => 0) preparedTwice = some (prep, cs) ∧
      ∃ hist s', Run.run (systemStep mapFlags) (cs.start (fun _ => twoPages.mms) codeBytes) tamper =
        some (hist, s') ∧ ∃ ctx, cs.ctx true = some ctx ∧
        (s'.alive true = true → ∀ a, a / 4096 = ctx.codeStart / 4096 →
          s'.view (true, a) = (cs.start (fun _ => twoPages.mms) codeBytes).view (true, a)) ∧
        ∀ op o, ((true, op), o) ∈ hist → ReadsOnly ctx.codeStart
          (fun a => (cs.start (fun _ => twoPages.mms) codeBytes).view (true, a)) op o := by
  have hlow : ∀ seg, seg ≠ .stack → 0x100000000 < (twoPages.mms seg).start := fun seg hseg => by
    cases seg <;> first | exact absurd rfl hseg | decide
  refine ⟨_, _, rfl, _, _, rfl, _, rfl, run_code_kept mapFlags (fun _ _ => 0) preparedTwice
    (by decide +kernel) _ _ rfl (fun _ => twoPages.mms) codeBytes (fun i ctx hi => ?_) tamper
    (by decide +kernel) _ _ rfl true _ rfl⟩
  have hcode : ctx.codeStart = 0x100000000 := by
    cases i <;> (obtain rfl := Option.some.inj hi; rfl)
  exact ⟨placed_twoPages.congr rfl, hcode.trans_lt (by decide),
    fun seg hseg => Or.inl (hcode.trans_lt (hlow seg hseg))⟩

end GemOS.Paging
