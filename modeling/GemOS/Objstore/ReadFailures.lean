import GemOS.Objstore.Failures
import GemOS.Objstore.Names

/-!
# Failed reads

`read_block_modified` stores the result of `read_block` in a `u32`, and returns a `u32`, so that no
test `< 0` sees a failure. The page that `read_block` did not fill becomes the data of a new node
(`readBlockModified_failed`), in every state of the cache. `get_object_by_id` looks for a record in
it, and `insert_to_disk` writes it back with one record (`failed_read_not_reported`).
-/

namespace GemOS.Objstore

namespace Cache

/-- The globals of the cache, its data area, and the blocks of the disk are the same in `c` and
`c'`. The calls into the system may have gone on. -/
structure Unchanged (c c' : Cache) : Prop where
  /-- The blocks of the disk. -/
  block : c'.disk.block = c.disk.block
  /-- The data area. -/
  slots : c'.slots = c.slots
  /-- The nodes. -/
  heap : c'.heap = c.heap
  /-- The hash table. -/
  table : c'.table = c.table
  /-- The bitmap of the slots. -/
  cachemap : c'.cachemap = c.cachemap
  /-- The most recent node. -/
  cacheLeft : c'.cacheLeft = c.cacheLeft
  /-- The next victim. -/
  cacheRight : c'.cacheRight = c.cacheRight
  /-- The number of nodes. -/
  cacheSize : c'.cacheSize = c.cacheSize

/-- From `c` to `c'` nodes were linked and freed, and none was allocated. -/
structure Rearranged (c c' : Cache) : Prop where
  /-- The data of the nodes. -/
  data : ∀ q, (c'.heap.mem q).data = (c.heap.mem q).data
  /-- The data area. -/
  slots : c'.slots = c.slots
  /-- The number of allocations. -/
  count : c'.heap.count = c.heap.count

variable {c c' c'' : Cache} {b p s : ℕ} {buf buf' : Block} {r : ℕ} {newNode : Ptr}

/-- A guarded store to a link keeps the data of all nodes. -/
theorem data_modify? (h : Heap CacheObj) (p : Ptr) {f : CacheObj → CacheObj}
    (hf : ∀ n, (f n).data = n.data) (q : ℕ) :
    ((h.modify? p f).mem q).data = (h.mem q).data := by
  rw [Heap.modify?_mem]
  split_ifs
  · exact hf _
  · rfl

namespace Rearranged

theorem refl (c : Cache) : Rearranged c c := ⟨fun _ => rfl, rfl, rfl⟩

theorem trans (h : Rearranged c c') (h' : Rearranged c' c'') : Rearranged c c'' :=
  ⟨fun q => (h'.data q).trans (h.data q), h'.slots.trans h.slots, h'.count.trans h.count⟩

/-- A store to a link. -/
theorem modify (c : Cache) (p : ℕ) {f : CacheObj → CacheObj} (hf : ∀ n, (f n).data = n.data) :
    Rearranged c (c.modify p f) := by
  refine ⟨fun q => ?_, rfl, rfl⟩
  by_cases hq : q = p
  · rw [hq]
    exact (congrArg CacheObj.data (Function.update_self p _ _)).trans (hf _)
  · exact congrArg CacheObj.data (Function.update_of_ne hq _ _)

theorem addAtTopOfCache (c : Cache) (p : ℕ) : Rearranged c (c.addAtTopOfCache p) := by
  have htop : Rearranged c (c.modify p fun n => { n with right := c.cacheLeft, left := none }) :=
    modify c p fun _ => rfl
  refine ⟨fun q => Eq.trans ?_ (htop.data q), rfl, by simp [Cache.addAtTopOfCache]⟩
  refine data_modify? _ _ ?_ q
  exact fun _ => rfl

theorem takeOut (c : Cache) (p : ℕ) : Rearranged c (c.takeOut p) := by
  refine ⟨fun q => ?_, rfl, by simp [Cache.takeOut]⟩
  refine (data_modify? _ _ ?_ q).trans (data_modify? _ _ ?_ q)
  · exact fun _ => rfl
  · exact fun _ => rfl

theorem removeObjectFromCacheAndWriteBack (c : Cache) (p : ℕ) :
    Rearranged c (c.removeObjectFromCacheAndWriteBack p) := by
  unfold Cache.removeObjectFromCacheAndWriteBack
  dsimp only
  split_ifs
  · refine trans ?_ (takeOut _ p)
    exact ⟨fun _ => rfl, rfl, rfl⟩
  · exact ⟨fun _ => rfl, rfl, rfl⟩
  · exact takeOut c p

theorem insertBlockInCacheHashTable (h : c.insertBlockInCacheHashTable b p = some c') :
    Rearranged c c' := by
  unfold Cache.insertBlockInCacheHashTable at h
  obtain ⟨⟨parent, itr⟩, -, h⟩ := Option.bind_eq_some_iff.mp h
  cases parent with
  | none =>
    obtain rfl := Option.some.inj h
    exact ⟨fun _ => rfl, rfl, rfl⟩
  | some a =>
    obtain rfl := Option.some.inj h
    exact modify c a fun _ => rfl

theorem removeBlockFromCacheHashTable (h : c.removeBlockFromCacheHashTable p = some c') :
    Rearranged c c' := by
  unfold Cache.removeBlockFromCacheHashTable at h
  obtain ⟨⟨par, itr⟩, -, h⟩ := Option.bind_eq_some_iff.mp h
  dsimp only at h
  split_ifs at h
  · obtain rfl := Option.some.inj h
    exact ⟨fun _ => rfl, rfl, rfl⟩
  · obtain ⟨a, -, h⟩ := Option.bind_eq_some_iff.mp h
    obtain ⟨z, -, h⟩ := Option.bind_eq_some_iff.mp h
    obtain rfl := Option.some.inj h
    exact modify c a fun _ => rfl

theorem evict (h : c.evict = some c') : Rearranged c c' := by
  unfold Cache.evict at h
  split_ifs at h
  · obtain ⟨z, -, h⟩ := Option.bind_eq_some_iff.mp h
    obtain ⟨c₁, hremove, h⟩ := Option.bind_eq_some_iff.mp h
    obtain ⟨z', -, h⟩ := Option.bind_eq_some_iff.mp h
    obtain rfl := Option.some.inj h
    have hfree : Rearranged c₁ (c₁.freeCacheId (c₁.heap.mem z').cacheAddr) :=
      ⟨fun _ => rfl, rfl, rfl⟩
    exact ((removeBlockFromCacheHashTable hremove).trans hfree).trans
      (removeObjectFromCacheAndWriteBack _ z')
  · obtain rfl := Option.some.inj h
    exact refl c

end Rearranged

/-! ## A new node -/

theorem checkDiskBlockInCache_eq (h : c.getCacheObj b = some none) :
    c.checkDiskBlockInCache b = some false := by
  obtain ⟨⟨par, itr⟩, hsearch, hitr⟩ := Option.bind_eq_some_iff.mp h
  obtain rfl := Option.some.inj hitr
  unfold checkDiskBlockInCache
  rw [hsearch]
  rfl

/-- The insertion of a block that is not cached, in a state of the cache that need not be well
formed: when the call returns, there is a new node, at the top of the LRU list. -/
structure NewNode (c c' : Cache) (b s : ℕ) : Prop where
  /-- The most recent node. -/
  cacheLeft : c'.cacheLeft = some c.heap.fresh
  /-- The node is clean. -/
  data : (c'.heap.mem c.heap.fresh).data = (s, b, false)
  /-- The data area. -/
  slots : c'.slots = c.slots
  /-- One node was allocated. -/
  count : c'.heap.count = c.heap.count + 1

theorem insertBlockInCacheHashTable_cacheLeft
    (h : c.insertBlockInCacheHashTable b p = some c') : c'.cacheLeft = c.cacheLeft := by
  unfold insertBlockInCacheHashTable at h
  obtain ⟨⟨parent, itr⟩, -, h⟩ := Option.bind_eq_some_iff.mp h
  cases parent <;> obtain rfl := Option.some.inj h <;> rfl

theorem insertBlockToCache_newNode (h : c.insertBlockToCache b s = some (newNode, c'))
    (hmiss : c.checkDiskBlockInCache b = some false) : NewNode c c' b s := by
  unfold insertBlockToCache at h
  rw [hmiss] at h
  simp only [Option.bind_eq_bind, Option.bind_some, Bool.false_eq_true, if_false] at h
  obtain ⟨c₁, hevict, h⟩ := Option.bind_eq_some_iff.mp h
  obtain ⟨c₂, hinsert, h⟩ := Option.bind_eq_some_iff.mp h
  obtain ⟨-, rfl⟩ : some c.heap.fresh = newNode ∧ c₂ = c' := by simpa using h
  -- Behind the allocation, nodes are only linked and freed.
  have hall := ((Rearranged.evict hevict).trans (Rearranged.addAtTopOfCache c₁ c.heap.fresh)).trans
    (Rearranged.insertBlockInCacheHashTable hinsert)
  refine ⟨?_, ?_, hall.slots, hall.count⟩
  · rw [insertBlockInCacheHashTable_cacheLeft hinsert]
    rfl
  · rw [hall.data, allocNode_mem_fresh]
    rfl

/-- A read whose `mmap` succeeds and whose `read_block` fails, in any state of the cache. When it
returns, the result is not negative, and a new node holds the page that was not filled. -/
theorem readBlockModified_failed (hmiss : c.getCacheObj b = some none)
    (hmmap : c.disk.ok c.disk.calls = true) (hread : c.disk.ok (c.disk.calls + 1) = false)
    (h : c.readBlockModified b buf = some (r, buf', c')) :
    r = 2^32 - 1 ∧ buf' = Block.zero ∧ ∃ s, c'.cacheLeft = some c.heap.fresh ∧
      (c'.heap.mem c.heap.fresh).data = (s, b, false) ∧ c'.slots s = Block.zero ∧
      c'.heap.count = c.heap.count + 1 := by
  have hretrieve : c.retrieveBlockFromCache b = some (none, c) := by
    unfold retrieveBlockFromCache
    rw [checkDiskBlockInCache_eq hmiss]
    rfl
  have hu : u32 (-1) = 2^32 - 1 := by decide
  obtain ⟨s, m, itr, hget, -⟩ := (c.afterCalls 2).getBlockForCache_spec
  unfold readBlockModified at h
  rw [hretrieve] at h
  simp only [Option.bind_eq_bind, Option.bind_some, Disk.malloc4k, hmmap, Disk.readBlock, hread,
    Bool.true_eq_false, Bool.false_eq_true, if_false, Nat.not_lt_zero] at h
  change ((c.afterCalls 2).getBlockForCache.2.copyToSlot (c.afterCalls 2).getBlockForCache.1
    Block.zero |>.insertBlockToCache b (c.afterCalls 2).getBlockForCache.1).bind _ = _ at h
  rw [hget] at h
  obtain ⟨⟨newNode, c₂⟩, hinsert, h⟩ := Option.bind_eq_some_iff.mp h
  obtain ⟨hr, hbuf, rfl⟩ : u32 (-1) = r ∧ Block.zero = buf' ∧ c₂ = c' := by simpa using h
  have hnew := insertBlockToCache_newNode hinsert (checkDiskBlockInCache_eq hmiss)
  refine ⟨hr ▸ hu, hbuf.symm, s, hnew.cacheLeft, hnew.data, ?_, hnew.count⟩
  rw [hnew.slots]
  change Function.update c.slots s Block.zero s = Block.zero
  rw [Function.update_self]

/-- In a well-formed cache that can take a block, the failed read returns, and the block is cached
as the page that was not filled. -/
theorem Shape.failed_read {l : List ℕ} {B : ℕ → List ℕ} (h : Shape c l B)
    (hb : ∀ a ∈ l, (c.heap.mem a).diskAddr ≠ b) (hmmap : c.disk.ok c.disk.calls = true)
    (hread : c.disk.ok (c.disk.calls + 1) = false)
    (hvictim : ∀ z, c.Due z → (c.afterCalls 2).WriteBackOk z ∧ c.BucketOk (c.heap.mem z).diskAddr)
    (buf : Block) : ∃ c', c.readBlockModified b buf = some (2^32 - 1, Block.zero, c') ∧
      c'.Cached b ∧ c'.view b = Block.zero := by
  have hu : u32 (-1) = 2^32 - 1 := by decide
  obtain ⟨s, m, itr, hget, -⟩ := (c.afterCalls 2).getBlockForCache_spec
  set c₁ : Cache := ({ c.afterCalls 2 with cachemap := m, cacheBitItr := itr } : Cache).copyToSlot s
    Block.zero with hc₁
  have hshape₁ : Shape c₁ l B :=
    h.of_links (fun q => ⟨rfl, rfl, rfl, rfl⟩) rfl rfl rfl rfl rfl rfl
  obtain ⟨c', l', B', hinsert, hshape, hdata, -, hslots, -⟩ :=
    hshape₁.insertBlockToCache hb (fun hfull z hz => hvictim z ⟨hfull, hz⟩) s
  have hfresh : c₁.heap.fresh = c.heap.fresh := rfl
  rw [hfresh] at hinsert hshape hdata
  obtain ⟨hslot, haddr, -⟩ : (c'.heap.mem c.heap.fresh).cacheAddr = s ∧
      (c'.heap.mem c.heap.fresh).diskAddr = b ∧ (c'.heap.mem c.heap.fresh).dirty = false := by
    simpa [CacheObj.data] using hdata
  have hmem : c.heap.fresh ∈ c.heap.fresh :: l' := List.mem_cons_self
  refine ⟨c', ?_, hshape.cached_iff.mpr ⟨c.heap.fresh, hmem, haddr⟩, ?_⟩
  · unfold readBlockModified
    rw [h.retrieve_miss hb]
    simp only [Option.bind_eq_bind, Option.bind_some, Disk.malloc4k, hmmap, Disk.readBlock, hread,
      Bool.true_eq_false, Bool.false_eq_true, if_false, Nat.not_lt_zero]
    change ((c.afterCalls 2).getBlockForCache.2.copyToSlot (c.afterCalls 2).getBlockForCache.1
      Block.zero |>.insertBlockToCache b (c.afterCalls 2).getBlockForCache.1).bind _ = _
    rw [hget]
    change (c₁.insertBlockToCache b s).bind _ = _
    rw [hinsert, Option.bind_some, hu]
    rfl
  · have hview := hshape.view_of_mem hmem
    rw [haddr, hslot, hslots] at hview
    rw [hview]
    change Function.update c.slots s Block.zero s = Block.zero
    rw [Function.update_self]

theorem replaceNode_count {cNode newNode : ℕ} (h : c.replaceNode b cNode = some (newNode, c')) :
    c'.heap.count = c.heap.count + 1 := by
  unfold replaceNode at h
  obtain ⟨c₁, hremove, h⟩ := Option.bind_eq_some_iff.mp h
  obtain ⟨c₂, hinsert, h⟩ := Option.bind_eq_some_iff.mp h
  obtain ⟨-, rfl⟩ : c.heap.fresh = newNode ∧ c₂ = c' := by simpa using h
  rw [(Rearranged.insertBlockInCacheHashTable hinsert).count,
    (Rearranged.removeBlockFromCacheHashTable hremove).count,
    (Rearranged.addAtTopOfCache _ _).count]
  exact (Rearranged.takeOut _ cNode).count

/-- Every write allocates a node, on a hit and on a miss. -/
theorem writeBlockModified_count {result : ℤ} (h : c.writeBlockModified b buf = some (result, c')) :
    c'.heap.count = c.heap.count + 1 := by
  unfold writeBlockModified at h
  obtain ⟨⟨newNode, c₁⟩, hretrieve, h⟩ := Option.bind_eq_some_iff.mp h
  unfold retrieveBlockFromCache at hretrieve
  obtain ⟨hit, hcheck, hretrieve⟩ := Option.bind_eq_some_iff.mp hretrieve
  cases hit with
  | true =>
    obtain ⟨⟨par, node⟩, -, hretrieve⟩ := Option.bind_eq_some_iff.mp hretrieve
    obtain ⟨cNode, -, hretrieve⟩ := Option.bind_eq_some_iff.mp hretrieve
    obtain ⟨⟨p, c₂⟩, hreplace, hretrieve⟩ := Option.bind_eq_some_iff.mp hretrieve
    obtain ⟨rfl, rfl⟩ : some p = newNode ∧ c₂ = c₁ := by simpa using hretrieve
    have hcount := replaceNode_count hreplace
    obtain ⟨-, rfl⟩ : 0 = result ∧ _ = c' := by simpa using h
    exact hcount
  | false =>
    obtain ⟨rfl, rfl⟩ : none = newNode ∧ c = c₁ := by simpa using hretrieve
    obtain ⟨s, m, itr, hget, -⟩ := c.getBlockForCache_spec
    dsimp only at h
    rw [hget] at h
    obtain ⟨⟨newNode, c₂⟩, hinsert, h⟩ := Option.bind_eq_some_iff.mp h
    obtain ⟨p, -, h⟩ := Option.bind_eq_some_iff.mp h
    have hcount := (insertBlockToCache_newNode hinsert hcheck).count
    obtain ⟨-, rfl⟩ : 0 = result ∧ _ = c' := by simpa using h
    exact hcount

end Cache

/-! ## The callers -/

/-- When `read_block` fails for the block `b`, the read leaves the cache as it is,
`get_object_by_id` returns `NULL` for the objects with their records in `b`, and `insert_to_disk`
does not write these records. -/
structure ReportsFailure (t : Tables) (c : Cache) (b : ℕ) : Prop where
  /-- The read. -/
  kept : ∀ buf, ∃ r buf' c', c.readBlockModified b buf = some (r, buf', c') ∧ c.Unchanged c'
  /-- `get_object_by_id`. -/
  null : ∀ id, 2 ≤ id → id < 2^20 → recordBlock id = b →
    ∃ s', (⟨t, c⟩ : Store Cache).getObjectById id = some (none, s')
  /-- `insert_to_disk`. -/
  unwritten : ∀ obj : Object, 2 ≤ obj.id.toNat → obj.id.toNat < 2^20 →
    recordBlock obj.id.toNat = b →
      ∃ s', (⟨t, c⟩ : Store Cache).insertToDisk obj = some s' ∧ c.Unchanged s'.layer

variable {t : Tables} {c : Cache} {b : ℕ}

/-- The read of a block whose `read_block` fails does not leave the cache as it is. -/
theorem not_kept (hmiss : c.getCacheObj b = some none) (hmmap : c.disk.ok c.disk.calls = true)
    (hread : c.disk.ok (c.disk.calls + 1) = false) (buf : Block) :
    ¬∃ r buf' c', c.readBlockModified b buf = some (r, buf', c') ∧ c.Unchanged c' := by
  rintro ⟨r, buf', c', h, hsame⟩
  obtain ⟨-, -, s, -, -, -, hcount⟩ := Cache.readBlockModified_failed hmiss hmmap hread h
  rw [hsame.heap] at hcount
  omega

/-- `insert_to_disk` writes to a block whose `read_block` fails. -/
theorem not_unwritten {obj : Object} (h₂ : 2 ≤ obj.id.toNat)
    (hmiss : c.getCacheObj (recordBlock obj.id.toNat) = some none)
    (hmmap : c.disk.ok c.disk.calls = true) (hread : c.disk.ok (c.disk.calls + 1) = false) :
    ¬∃ s', (⟨t, c⟩ : Store Cache).insertToDisk obj = some s' ∧ c.Unchanged s'.layer := by
  rintro ⟨s', h, hsame⟩
  have hblock : 1312 + u32 (obj.id.toNat - 2) / 64 = recordBlock obj.id.toNat := by
    have hid := obj.id.toNat_lt
    rw [recordBlock_eq h₂ hid]
    unfold u32
    omega
  unfold Store.insertToDisk at h
  dsimp only at h
  rw [hblock] at h
  obtain ⟨⟨r, buf, s₁⟩, hr, h⟩ := Option.bind_eq_some_iff.mp h
  obtain ⟨⟨r', buf', c₁⟩, hr', hs₁⟩ := Option.bind_eq_some_iff.mp hr
  obtain ⟨rfl, rfl, rfl⟩ : r' = r ∧ buf' = buf ∧ (⟨t, c₁⟩ : Store Cache) = s₁ := by
    simpa using hs₁
  -- The result is a `u32`, so that the write follows, of the page that was not filled.
  dsimp only at h
  rw [if_neg (Nat.not_lt_zero _)] at h
  obtain ⟨⟨w, s₂⟩, hw, h⟩ := Option.bind_eq_some_iff.mp h
  obtain ⟨⟨w', c₂⟩, hw', hs₂⟩ := Option.bind_eq_some_iff.mp hw
  obtain ⟨-, rfl⟩ : w' = w ∧ (⟨t, c₂⟩ : Store Cache) = s₂ := by simpa using hs₂
  obtain rfl := Option.some.inj h
  obtain ⟨-, -, s, -, -, -, hcount⟩ := Cache.readBlockModified_failed hmiss hmmap hread hr'
  have hcount' := Cache.writeBlockModified_count hw'
  rw [hcount, hsame.heap] at hcount'
  omega

/-- In no state of the cache, and for no block that is not cached, is a failure of `read_block`
reported, and every record in the block that is passed to `insert_to_disk` is written. -/
theorem failed_read_not_reported (t : Tables) (c : Cache) (b : ℕ)
    (hmiss : c.getCacheObj b = some none) (hmmap : c.disk.ok c.disk.calls = true)
    (hread : c.disk.ok (c.disk.calls + 1) = false) :
    ¬ReportsFailure t c b ∧ ∀ obj : Object, 2 ≤ obj.id.toNat → recordBlock obj.id.toNat = b →
      ¬∃ s', (⟨t, c⟩ : Store Cache).insertToDisk obj = some s' ∧ c.Unchanged s'.layer := by
  refine ⟨fun h => not_kept hmiss hmmap hread Block.zero (h.kept Block.zero), ?_⟩
  rintro obj h₂ rfl
  exact not_unwritten h₂ hmiss hmmap hread

/-- A cache without nodes, over a disk with the record of the object 2, whose second call fails: the
first `read_block`, after the `mmap` for its page. -/
def failingRead : Cache :=
  Cache.empty Allocator.bump
    ⟨setRecord (fun _ => Block.zero) 2 (Store.newObject [97] 2), fun n => n != 1, 0⟩
    fun _ => Block.zero

theorem getCacheObj_failingRead (b : ℕ) : failingRead.getCacheObj b = some none :=
  (Cache.shape_empty _ _ _).getCacheObj_none (by simp)

/-- The failure for the block of the first records. -/
theorem failed_read_not_reported_empty :
    ¬ReportsFailure (Tables.new Allocator.bump) failingRead 1312 ∧
      ∀ obj : Object, 2 ≤ obj.id.toNat → recordBlock obj.id.toNat = 1312 →
      ¬∃ s', (⟨Tables.new Allocator.bump, failingRead⟩ : Store Cache).insertToDisk obj = some s' ∧
        failingRead.Unchanged s'.layer :=
  failed_read_not_reported _ failingRead 1312 (getCacheObj_failingRead 1312) rfl rfl

/-- After the failure, the block is cached as a page of zeros, in which the object has no record. -/
theorem failed_read_cached :
    ¬ReportsFailure (Tables.new Allocator.bump) failingRead 1312 ∧
      (record failingRead.disk.block 2).id = 2 ∧
      ∃ c', failingRead.readBlockModified 1312 Block.zero = some (2^32 - 1, Block.zero, c') ∧
        c'.Cached 1312 ∧ (record c'.view 2).id = 0 := by
  have hkey : KeyOk [97] := by decide
  have hblock : recordBlock 2 = 1312 := recordBlock_eq le_rfl (by norm_num)
  obtain ⟨c', hread, hcached, hview⟩ := (Cache.shape_empty Allocator.bump failingRead.disk
    fun _ => Block.zero).failed_read (b := 1312) (by simp) rfl rfl
      (fun z hz => absurd hz.1 (by decide)) Block.zero
  refine ⟨fun h => not_kept (getCacheObj_failingRead 1312) rfl rfl Block.zero (h.kept Block.zero),
    ?_, c', hread, hcached, ?_⟩
  · change (record (setRecord (fun _ => Block.zero) 2 (Store.newObject [97] 2)) 2).id = 2
    rw [record_setRecord_self, newObject_eq hkey.1]
    rfl
  · rw [record, hblock, hview, Block.object_zero]
    rfl

end GemOS.Objstore
