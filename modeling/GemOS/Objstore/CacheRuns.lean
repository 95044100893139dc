import GemOS.Objstore.Transparent

/-!
# Runs of the cache

A run of the cache is a list of calls of `read_block_modified` and `write_block_modified` from the
empty cache. `latest` is what a plain disk holds after the same calls. Every read of a run returns
the latest write when each call of the run meets `TransparentOk`. Without it the code fails: a
second read of a block whose bucket was cut by a hit on its head returns what is on the disk. Runs
over blocks of different buckets that fit in the cache always meet it (`Spread`).
-/

namespace GemOS.Objstore.Cache

/-- A call of the block layer, with the buffer that the caller passes. -/
inductive Op where
  /-- `read_block_modified(b, buf)`. -/
  | read (b : ℕ) (buf : Block)
  /-- `write_block_modified(b, buf)`. -/
  | write (b : ℕ) (buf : Block)

/-- The block of a call. -/
def Op.block : Op → ℕ
  | read b _ => b
  | write b _ => b

/-- A call on a plain disk. -/
def Op.apply (D : ℕ → Block) : Op → ℕ → Block
  | read _ _ => D
  | write b buf => Function.update D b buf

/-- The content of every block after the calls: the latest write, or the initial content. -/
def latest (D : ℕ → Block) (ops : List Op) : ℕ → Block := ops.foldl Op.apply D

/-- A call on the cache: the return value and the buffer after the call. -/
def step (c : Cache) : Op → Option ((ℤ × Block) × Cache)
  | .read b buf => (c.readBlockModified b buf).map fun (r, out, c) => ((r, out), c)
  | .write b buf => (c.writeBlockModified b buf).map fun (r, c) => ((r, buf), c)

/-- What a call needs so that no data is lost, and the code does not check: the condition of the
access, and on a miss that the data of the evicted node is on the disk or will be written there. -/
def TransparentOk (c : Cache) (op : Op) : Prop :=
  c.AccessOk op.block ∧ (¬c.Cached op.block → ∀ z, c.Due z → c.Synced z)

/-- The cache holds the contents `D`. -/
def Holds (c : Cache) (D : ℕ → Block) : Prop := ∃ l B, Inv c l B ∧ c.view = D

variable {c c' : Cache} {D : ℕ → Block} {op : Op}

theorem latest_concat (D : ℕ → Block) (ops : List Op) (op : Op) :
    latest D (ops ++ [op]) = op.apply (latest D ops) := by
  simp [latest]

/-- A call that meets the condition keeps the invariant and does to the view what it does to a plain
disk. No block is cached that was not cached or called for. -/
theorem Inv.step {l : List ℕ} {B : ℕ → List ℕ} (h : Inv c l B) (hok : c.TransparentOk op) :
    ∃ r c' l' B', c.step op = some (r, c') ∧ Inv c' l' B' ∧ c'.view = op.apply c.view ∧
      ∀ q ∈ l', (c'.heap.mem q).diskAddr = op.block ∨
        ∃ a ∈ l, (c.heap.mem a).diskAddr = (c'.heap.mem q).diskAddr := by
  cases op with
  | read b buf =>
    have haccess : c.AccessOk b := hok.1
    obtain ⟨c', l', B', hread, hinv', hview, hblocks, -⟩ :=
      h.readBlockModified haccess hok.2 buf
    refine ⟨(4096, c.view b), c', l', B', ?_, hinv', hview, hblocks⟩
    rw [Cache.step, hread]
    rfl
  | write b buf =>
    have haccess : c.AccessOk b := hok.1
    obtain ⟨c', l', B', hwrite, hinv', hview, hblocks, -⟩ :=
      h.writeBlockModified haccess hok.2 buf
    refine ⟨(0, buf), c', l', B', ?_, hinv', hview, hblocks⟩
    rw [Cache.step, hwrite]
    rfl

theorem Holds.read {b : ℕ} {buf : Block} (h : Holds c D) (hok : c.TransparentOk (.read b buf)) :
    ∃ c', c.readBlockModified b buf = some (4096, D b, c') := by
  obtain ⟨l, B, hinv, rfl⟩ := h
  have haccess : c.AccessOk b := hok.1
  obtain ⟨c', -, -, hread, -⟩ := hinv.readBlockModified haccess hok.2 buf
  exact ⟨c', hread⟩

theorem Holds.step (h : Holds c D) (hok : c.TransparentOk op) :
    ∃ r c', c.step op = some (r, c') ∧ Holds c' (op.apply D) := by
  obtain ⟨l, B, hinv, rfl⟩ := h
  obtain ⟨r, c', l', B', hstep, hinv', hview, -⟩ := hinv.step hok
  exact ⟨r, c', hstep, l', B', hinv', hview⟩

/-- A run whose calls meet the condition does to the cache what it does to a plain disk. -/
theorem holds_run (A : Allocator) {d : Disk} (hd : d.AllOk) (slots : ℕ → Block) {ops : List Op}
    (ha : Run.Along Cache.step TransparentOk (empty A d slots) ops) :
    ∃ hist c, Run.run Cache.step (empty A d slots) ops = some (hist, c) ∧
      Holds c (latest d.block ops) := by
  have hempty : Holds (empty A d slots) (latest d.block []) :=
    ⟨[], _, inv_empty A hd slots, view_empty A d slots⟩
  obtain ⟨hist, c, hrun, hc⟩ := Run.run_of_step (h := [])
    (fun c (hist : List (Op × (ℤ × Block))) => Holds c (latest d.block (hist.map Prod.fst)))
    (fun c hist op hc hop => by
      obtain ⟨r, c', hstep, hc'⟩ := Holds.step hc hop
      exact ⟨r, c', hstep, by simpa [latest_concat] using hc'⟩) hempty ha
  refine ⟨hist, c, hrun, ?_⟩
  rwa [List.nil_append, Run.map_fst_of_run hrun] at hc

/-! ## Runs without collisions -/

/-- The calls on the blocks `S` cannot fail when no two of these share a bucket and all of them fit
in the cache. -/
structure Spread (S : Finset ℕ) : Prop where
  /-- No two blocks share a bucket. -/
  inj : ∀ a ∈ S, ∀ b ∈ S, cacheHash a = cacheHash b → a = b
  /-- There is a slot for each block. -/
  card_le : S.card ≤ 2^15 - 3

theorem Shape.length_le_card {l : List ℕ} {B : ℕ → List ℕ} (h : Shape c l B) {S : Finset ℕ}
    (hS : ∀ a ∈ l, (c.heap.mem a).diskAddr ∈ S) : l.length ≤ S.card := by
  have hnd : (l.map fun a => (c.heap.mem a).diskAddr).Nodup :=
    h.lru.nodup.map_on fun a ha b hb => h.members.inj a ha b hb
  rw [← List.length_map (fun a => (c.heap.mem a).diskAddr), ← List.toFinset_card_of_nodup hnd]
  refine Finset.card_le_card fun b hb => ?_
  obtain ⟨a, ha, rfl⟩ := List.mem_map.mp (List.mem_toFinset.mp hb)
  exact hS a ha

/-- A node per slot: when all slots are taken, the list has all of them. -/
theorem Slots.length_ge {l : List ℕ} (h : Slots c l)
    (hall : ∀ k, 2 ≤ k → k < 2^15 → c.cachemap.bit k = true) : 2^15 - 2 ≤ l.length := by
  have hsub : Finset.Ico 2 (2^15) ⊆ (l.map fun a => (c.heap.mem a).cacheAddr).toFinset := by
    intro k hk
    rw [Finset.mem_Ico] at hk
    obtain ⟨a, ha, hak⟩ := (h.used k hk.1 hk.2).mp (hall k hk.1 hk.2)
    exact List.mem_toFinset.mpr (List.mem_map.mpr ⟨a, ha, hak⟩)
  have hcard := (Finset.card_le_card hsub).trans (List.toFinset_card_le _)
  rwa [Nat.card_Ico, List.length_map] at hcard

/-- Over blocks without collisions, every call meets the condition. -/
theorem Spread.transparentOk {S : Finset ℕ} (hS : Spread S) {l : List ℕ} {B : ℕ → List ℕ}
    (h : Inv c l B) (hl : ∀ a ∈ l, (c.heap.mem a).diskAddr ∈ S) (hop : op.block ∈ S) :
    c.TransparentOk op := by
  have hlen := (h.shape.length_le_card hl).trans hS.card_le
  have hdue : ∀ z, ¬c.Due z := fun z hz => by
    have := hz.1
    rw [h.shape.lru.size] at this
    omega
  refine ⟨⟨fun _ => ?_, fun _ => ⟨fun b p hp hslot => ?_, fun z hz => absurd hz (hdue z)⟩⟩,
    fun _ z hz => absurd hz (hdue z)⟩
  · exact h.shape.bucketOk_of_alone fun a ha => hS.inj _ (hl a ha) _ hop
  · -- The slot that is handed out is not in use.
    obtain ⟨hpl, -⟩ := h.shape.mem_of_getCacheObj hp
    obtain ⟨s, m, itr, hget, hs⟩ := c.getBlockForCache_spec
    rw [hget] at hslot
    rcases hs with ⟨-, -, hall⟩ | ⟨h₂, hs₁₅, hbit, -⟩
    · have := h.slots.length_ge hall
      omega
    · rw [(h.slots.used s h₂ hs₁₅).mpr ⟨p, hpl, hslot⟩] at hbit
      exact absurd hbit (by simp)

/-- Every run over blocks without collisions meets the condition. -/
theorem Spread.along {S : Finset ℕ} (hS : Spread S) {l : List ℕ} {B : ℕ → List ℕ} {ops : List Op}
    (h : Inv c l B) (hl : ∀ a ∈ l, (c.heap.mem a).diskAddr ∈ S) (hops : ∀ op ∈ ops, op.block ∈ S) :
    Run.Along Cache.step TransparentOk c ops := by
  induction ops generalizing c l B with
  | nil => trivial
  | cons op ops ih =>
    have hop : op.block ∈ S := hops op (by simp)
    have hok := hS.transparentOk h hl hop
    refine ⟨hok, fun r c' hstep => ?_⟩
    obtain ⟨r₁, c₁, l₁, B₁, hstep₁, h₁, -, hblocks⟩ := h.step hok
    obtain ⟨-, rfl⟩ : r₁ = r ∧ c₁ = c' := by simpa [hstep₁] using hstep
    refine ih h₁ (fun q hq => ?_) fun op' hop' => hops op' (by simp [hop'])
    rcases hblocks q hq with hb | ⟨a, ha, hab⟩
    · rwa [hb]
    · rw [← hab]
      exact hl a ha

/-! ## Runs with collisions -/

/-- In a run whose calls meet the condition, every read returns the latest write to its block, or
the initial content of the disk. -/
theorem read_block_transparent (A : Allocator) (d : Disk) (hd : d.AllOk) (slots : ℕ → Block)
    (ops : List Op) (b : ℕ) (buf : Block)
    (ha : Run.Along Cache.step TransparentOk (empty A d slots) (ops ++ [.read b buf])) :
    ∃ hist c c', Run.run Cache.step (empty A d slots) ops = some (hist, c) ∧
      c.readBlockModified b buf = some (4096, latest d.block ops b, c') := by
  obtain ⟨hist, c, hrun, hc⟩ := holds_run A hd slots ha.left
  obtain ⟨c', hread⟩ := hc.read (ha.last hrun)
  exact ⟨hist, c, c', hrun, hread⟩

/-- A disk of zeros that never fails. -/
def zeroDisk : Disk := ⟨fun _ => Block.zero, fun _ => true, 0⟩

/-- A write, and a read of it. -/
theorem read_block_transparent_hit :
    ∃ hist c c', Run.run Cache.step (empty Allocator.bump zeroDisk fun _ => Block.zero)
        [.write 5 (fun _ => 1)] = some (hist, c) ∧
      c.readBlockModified 5 Block.zero = some (4096, latest zeroDisk.block
        [.write 5 (fun _ => 1)] 5, c') := by
  have hS : Spread {5} := ⟨by simp, by simp⟩
  exact read_block_transparent Allocator.bump zeroDisk (fun _ => rfl) (fun _ => Block.zero)
    [.write 5 (fun _ => 1)] 5 Block.zero
    (hS.along (inv_empty Allocator.bump (fun _ => rfl) _) (by simp) (by simp [Op.block]))

/-- Two blocks of one bucket: the read of the head of the bucket empties it, and the write to the
other block is lost. -/
theorem read_block_not_transparent :
    ¬∃ hist c c', Run.run Cache.step (empty Allocator.bump zeroDisk fun _ => Block.zero)
        [.write 5 (fun _ => 1), .write 32773 (fun _ => 2), .read 5 Block.zero] = some (hist, c) ∧
      c.readBlockModified 32773 Block.zero = some (4096, latest zeroDisk.block
        [.write 5 (fun _ => 1), .write 32773 (fun _ => 2), .read 5 Block.zero] 32773, c') := by
  rintro ⟨hist, c, c', hrun, hread⟩
  have hzero : ((Run.run Cache.step (empty Allocator.bump zeroDisk fun _ => Block.zero)
      [.write 5 (fun _ => 1), .write 32773 (fun _ => 2), .read 5 Block.zero]).bind fun (_, c) =>
        (c.readBlockModified 32773 Block.zero).map fun (_, out, _) => out 0) = some 0 := by decide
  simp only [hrun, Option.bind_some, hread, Option.map_some] at hzero
  exact absurd hzero (by decide)

end GemOS.Objstore.Cache
