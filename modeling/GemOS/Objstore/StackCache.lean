import GemOS.Objstore.Stack

/-!
# The file system over the cache

A run of the file system over the cache makes many calls of `read_block_modified` and
`write_block_modified`, and which ones depends on what the cache returned before. `SafeCache` is the
cache with calls that do not return when they may lose data (`TransparentOk`). `fs_over_cache`: as
long as no call loses data, the replies to the calls of FUSE, and the tables, are those of a file
system over a plain array of blocks, and this array is what the cache holds in the end. Calls on
blocks of different buckets that fit into the cache lose no data (`layers_bounded`).
-/

namespace GemOS.Objstore

/-- The cache, as far as its calls lose no data. -/
structure SafeCache where
  /-- The cache. -/
  cache : Cache

open Classical in
/-- A call that may lose data does not return. -/
noncomputable instance : BlockLayer SafeCache where
  readBlockModified s b buf :=
    if s.cache.TransparentOk (.read b buf) then
      (s.cache.readBlockModified b buf).map fun (r, out, c) => (r, out, ⟨c⟩)
    else none
  writeBlockModified s b buf :=
    if s.cache.TransparentOk (.write b buf) then
      (s.cache.writeBlockModified b buf).map fun (r, c) => (r, ⟨c⟩)
    else none

/-- An array of the blocks `S`. A call on another block does not return. -/
structure Bounded (S : Finset ℕ) where
  /-- The blocks. -/
  block : ℕ → Block

instance (S : Finset ℕ) : BlockLayer (Bounded S) where
  readBlockModified s b _ := if b ∈ S then some (4096, s.block b, s) else none
  writeBlockModified s b buf :=
    if b ∈ S then some (0, ⟨Function.update s.block b buf⟩) else none

/-- The cache holds the blocks of the array, and no other block is cached. -/
def HoldsBounded (S : Finset ℕ) (p : Bounded S) (s : SafeCache) : Prop :=
  ∃ l B, Cache.Inv s.cache l B ∧ s.cache.view = p.block ∧ ∀ a ∈ l, (s.cache.heap.mem a).diskAddr ∈ S

theorem SafeCache.readBlockModified_eq_some {c c' : Cache} {b r : ℕ} {buf out : Block} :
    BlockLayer.readBlockModified (⟨c⟩ : SafeCache) b buf = some (r, out, ⟨c'⟩) ↔
      c.TransparentOk (.read b buf) ∧ c.readBlockModified b buf = some (r, out, c') := by
  refine Option.ite_none_right_eq_some.trans (and_congr_right fun _ => ?_)
  rw [Option.map_eq_some_iff]
  constructor
  · rintro ⟨⟨_, _, c₁⟩, hread, heq⟩
    obtain ⟨rfl, rfl, rfl⟩ : _ = r ∧ _ = out ∧ c₁ = c' := by simpa using heq
    exact hread
  · exact fun hread => ⟨_, hread, rfl⟩

theorem SafeCache.writeBlockModified_eq_some {c c' : Cache} {b : ℕ} {r : ℤ} {buf : Block} :
    BlockLayer.writeBlockModified (⟨c⟩ : SafeCache) b buf = some (r, ⟨c'⟩) ↔
      c.TransparentOk (.write b buf) ∧ c.writeBlockModified b buf = some (r, c') := by
  refine Option.ite_none_right_eq_some.trans (and_congr_right fun _ => ?_)
  rw [Option.map_eq_some_iff]
  constructor
  · rintro ⟨⟨_, c₁⟩, hwrite, heq⟩
    obtain ⟨rfl, rfl⟩ : _ = r ∧ c₁ = c' := by simpa using heq
    exact hwrite
  · exact fun hwrite => ⟨_, hwrite, rfl⟩

/-- What returns from the cache that loses no data returns from the cache. -/
theorem layers_cache : Layers fun (s : SafeCache) (c : Cache) => s.cache = c := by
  constructor
  · rintro ⟨c⟩ _ b buf rfl ⟨r, out, ⟨c'⟩⟩ hread
    exact ⟨_, (SafeCache.readBlockModified_eq_some.mp hread).2, .mk (.mk rfl)⟩
  · rintro ⟨c⟩ _ b buf rfl ⟨r, ⟨c'⟩⟩ hwrite
    exact ⟨_, (SafeCache.writeBlockModified_eq_some.mp hwrite).2, .mk rfl⟩

/-- What returns from the cache that loses no data is what a plain array returns. -/
theorem layers_plain : Layers fun (s : SafeCache) (p : Plain) => s.cache.Holds p.block := by
  constructor
  · rintro ⟨c⟩ ⟨_⟩ b buf ⟨l, B, hinv, rfl⟩ ⟨r, out, ⟨c'⟩⟩ hread
    obtain ⟨hok, hread⟩ := SafeCache.readBlockModified_eq_some.mp hread
    obtain ⟨c₁, l', B', hread', hinv', hview, -⟩ :=
      hinv.readBlockModified (b := b) hok.1 hok.2 buf
    obtain ⟨rfl, rfl, rfl⟩ : 4096 = r ∧ _ = out ∧ c₁ = c' := by simpa using hread'.symm.trans hread
    exact ⟨_, rfl, .mk (.mk ⟨l', B', hinv', hview⟩)⟩
  · rintro ⟨c⟩ ⟨_⟩ b buf ⟨l, B, hinv, rfl⟩ ⟨r, ⟨c'⟩⟩ hwrite
    obtain ⟨hok, hwrite⟩ := SafeCache.writeBlockModified_eq_some.mp hwrite
    obtain ⟨c₁, l', B', hwrite', hinv', hview, -⟩ :=
      hinv.writeBlockModified (b := b) hok.1 hok.2 buf
    obtain ⟨rfl, rfl⟩ : 0 = r ∧ c₁ = c' := by simpa using hwrite'.symm.trans hwrite
    exact ⟨_, rfl, .mk ⟨l', B', hinv', hview⟩⟩

/-- Calls on blocks of different buckets, which fit into the cache, lose no data. -/
theorem layers_bounded {S : Finset ℕ} (hS : Cache.Spread S) : Layers (HoldsBounded S) := by
  constructor
  · rintro ⟨D⟩ ⟨c⟩ b buf ⟨l, B, hinv, hview, hl⟩ x hread
    obtain ⟨hb, hread⟩ := Option.ite_none_right_eq_some.mp hread
    obtain rfl := Option.some.inj hread
    have hok : c.TransparentOk (.read b buf) := hS.transparentOk hinv hl hb
    obtain ⟨c', l', B', hread', hinv', hview', hblocks, -⟩ :=
      hinv.readBlockModified (b := b) hok.1 hok.2 buf
    refine ⟨_, SafeCache.readBlockModified_eq_some.mpr ⟨hok, hread'⟩, rfl,
      congrFun hview.symm b, l', B', hinv', hview'.trans hview, fun q hq => ?_⟩
    rcases hblocks q hq with hqb | ⟨a, ha, hab⟩
    · exact hqb ▸ hb
    · exact hab ▸ hl a ha
  · rintro ⟨D⟩ ⟨c⟩ b buf ⟨l, B, hinv, rfl, hl⟩ x hwrite
    obtain ⟨hb, hwrite⟩ := Option.ite_none_right_eq_some.mp hwrite
    obtain rfl := Option.some.inj hwrite
    have hok : c.TransparentOk (.write b buf) := hS.transparentOk hinv hl hb
    obtain ⟨c', l', B', hwrite', hinv', hview', hblocks, -⟩ :=
      hinv.writeBlockModified (b := b) hok.1 hok.2 buf
    refine ⟨_, SafeCache.writeBlockModified_eq_some.mpr ⟨hok, hwrite'⟩, rfl, l', B', hinv', hview',
      fun q hq => ?_⟩
    rcases hblocks q hq with hqb | ⟨a, ha, hab⟩
    · exact hqb ▸ hb
    · exact hab ▸ hl a ha

/-! ## Runs -/

/-- As long as no call of the cache loses data, the file system over the cache replies what the file
system over a plain array of blocks replies, changes its tables in the same way, and holds the
blocks of this array in the end. -/
theorem fs_over_cache (d : Defaults) (T : Tables) (c : Cache) (D : ℕ → Block) (hc : c.Holds D)
    (calls : List FsCall) (hist : List (FsCall × FsReply)) (T' : Tables) (c' : Cache)
    (hrun : Run.run (Store.fsStep d) (⟨T, ⟨c⟩⟩ : Store SafeCache) calls =
      some (hist, ⟨T', ⟨c'⟩⟩)) :
    Run.run (Store.fsStep d) (⟨T, c⟩ : Store Cache) calls = some (hist, ⟨T', c'⟩) ∧
      ∃ D', Run.run (Store.fsStep d) (⟨T, ⟨D⟩⟩ : Store Plain) calls = some (hist, ⟨T', ⟨D'⟩⟩) ∧
        c'.Holds D' := by
  obtain ⟨⟨_, _⟩, hcache, rfl, ⟨_, rfl⟩⟩ := layers_cache.run d (.mk T rfl) calls _ hrun
  obtain ⟨⟨_, _⟩, hplain, rfl, ⟨_, hc'⟩⟩ := layers_plain.run d (.mk T hc) calls _ hrun
  exact ⟨hcache, _, hplain, hc'⟩

/-- Attributes of zeros. -/
def zeroDefaults : Defaults := ⟨⟨⟨0, 0, 0⟩, 0, 0⟩, ⟨⟨0, 0, 0⟩, 0, 0⟩, 0, 0⟩

/-- Tables without objects. The search for a free block starts at the first data block. -/
def emptyTables : Tables :=
  { Tables.new Allocator.bump with
    blockmap := fun i => if i < 2212 then 0xff else 0
    blockBitItr := 2212 }

/-- A file is created, written, and read. -/
def writeAndRead : List FsCall :=
  [.create (path [97]), .write 2 (fun _ => 98) 1 0, .read 2 (fun _ => 0) 4096 0]

/-- The calls for one file, over three blocks of different buckets. -/
theorem fs_over_cache_file : ∃ hist T' c',
    Run.run (Store.fsStep zeroDefaults) (⟨emptyTables,
        Cache.empty Allocator.bump Cache.zeroDisk fun _ => Block.zero⟩ : Store Cache) writeAndRead =
      some (hist, ⟨T', c'⟩) ∧
    ∃ D', Run.run (Store.fsStep zeroDefaults)
        (⟨emptyTables, ⟨Cache.zeroDisk.block⟩⟩ : Store Plain) writeAndRead =
      some (hist, ⟨T', ⟨D'⟩⟩) ∧ c'.Holds D' := by
  have hS : Cache.Spread {1312, 17696, 17697} := ⟨by decide, by decide⟩
  have hrun : ∃ hist s', Run.run (Store.fsStep zeroDefaults)
      (⟨emptyTables, ⟨Cache.zeroDisk.block⟩⟩ : Store (Bounded {1312, 17696, 17697})) writeAndRead =
        some (hist, s') := ⟨_, _, rfl⟩
  obtain ⟨hist, s', hrun⟩ := hrun
  have hempty := Cache.inv_empty Allocator.bump (d := Cache.zeroDisk) (fun _ => rfl)
    fun _ => Block.zero
  have hholds : HoldsBounded {1312, 17696, 17697} ⟨Cache.zeroDisk.block⟩
      ⟨Cache.empty Allocator.bump Cache.zeroDisk fun _ => Block.zero⟩ :=
    ⟨[], _, hempty, Cache.view_empty _ _ _, by simp⟩
  obtain ⟨⟨_, ⟨T', ⟨c'⟩⟩⟩, hsafe, rfl, -⟩ :=
    (layers_bounded hS).run zeroDefaults (.mk emptyTables hholds) writeAndRead _ hrun
  exact ⟨hist, T', c', fs_over_cache zeroDefaults emptyTables _ _
    ⟨[], _, hempty, Cache.view_empty _ _ _⟩ writeAndRead hist T' c' hsafe⟩

end GemOS.Objstore
