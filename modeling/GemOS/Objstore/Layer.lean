import GemOS.Objstore.CacheRuns

/-!
# Block layers

The object store calls `read_block_modified` and `write_block_modified` and nothing else of the
cache (apart from mounting and unmounting). Its functions are therefore generic in the state `σ` of
the block layer. `Lawful` is what they rely on: reads return the last content written, at the blocks
of a domain. A plain array of blocks is lawful everywhere, the cache at any set of blocks without
collisions.
-/

namespace GemOS.Objstore

/-- A block layer with state `σ`. -/
class BlockLayer (σ : Type) where
  /-- `read_block_modified(objfs, block_no, buf)`: the result, the buffer, and the new state. -/
  readBlockModified : σ → ℕ → Block → Option (ℕ × Block × σ)
  /-- `write_block_modified(objfs, block_no, buf)`: the result and the new state. -/
  writeBlockModified : σ → ℕ → Block → Option (ℤ × σ)

instance : BlockLayer Cache := ⟨Cache.readBlockModified, Cache.writeBlockModified⟩

/-- A block layer whose reads return the last content written, at the blocks of `dom`. -/
structure Lawful (σ : Type) [BlockLayer σ] (dom : Set ℕ) where
  /-- The states in which it is. -/
  inv : σ → Prop
  /-- The content of every block. -/
  content : σ → ℕ → Block
  /-- A read returns the content and keeps it. -/
  read : ∀ {s b} buf, inv s → b ∈ dom → ∃ r s', BlockLayer.readBlockModified s b buf =
    some (r, content s b, s') ∧ inv s' ∧ content s' = content s
  /-- A write returns 0 and sets the content of its block. -/
  write : ∀ {s b} buf, inv s → b ∈ dom → ∃ s', BlockLayer.writeBlockModified s b buf =
    some (0, s') ∧ inv s' ∧ content s' = Function.update (content s) b buf

/-- A plain array of blocks. -/
structure Plain where
  /-- The blocks. -/
  block : ℕ → Block

instance : BlockLayer Plain where
  readBlockModified s b _ := some (4096, s.block b, s)
  writeBlockModified s b buf := some (0, ⟨Function.update s.block b buf⟩)

/-- A plain array is lawful at every block. -/
def Plain.lawful : Lawful Plain Set.univ where
  inv _ := True
  content := Plain.block
  read _ _ _ := ⟨4096, _, rfl, trivial, rfl⟩
  write _ _ _ := ⟨_, rfl, trivial, rfl⟩

/-- The cache is lawful at a set of blocks of different buckets that fit into it. -/
def Cache.Spread.lawful {S : Finset ℕ} (hS : Cache.Spread S) : Lawful Cache {b | b ∈ S} where
  inv c := ∃ l B, Cache.Inv c l B ∧ ∀ a ∈ l, (c.heap.mem a).diskAddr ∈ S
  content := Cache.view
  read := by
    rintro c b buf ⟨l, B, hinv, hl⟩ hb
    have hok : c.TransparentOk (.read b buf) := hS.transparentOk hinv hl hb
    obtain ⟨c', l', B', hread, hinv', hview, hblocks, -⟩ :=
      hinv.readBlockModified (b := b) hok.1 hok.2 buf
    refine ⟨4096, c', hread, ⟨l', B', hinv', fun q hq => ?_⟩, hview⟩
    rcases hblocks q hq with hqb | ⟨a, ha, hab⟩
    · rw [hqb]
      exact hb
    · rw [← hab]
      exact hl a ha
  write := by
    rintro c b buf ⟨l, B, hinv, hl⟩ hb
    have hok : c.TransparentOk (.write b buf) := hS.transparentOk hinv hl hb
    obtain ⟨c', l', B', hwrite, hinv', hview, hblocks, -⟩ :=
      hinv.writeBlockModified (b := b) hok.1 hok.2 buf
    refine ⟨c', hwrite, ⟨l', B', hinv', fun q hq => ?_⟩, hview⟩
    rcases hblocks q hq with hqb | ⟨a, ha, hab⟩
    · rw [hqb]
      exact hb
    · rw [← hab]
      exact hl a ha

end GemOS.Objstore
