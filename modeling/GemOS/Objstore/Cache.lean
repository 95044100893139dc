import GemOS.Lib.Chain
import GemOS.Lib.Bitmap
import GemOS.Objstore.Block

/-!
# The block cache (`CACHE` build)

A transcription of the block cache of `src/Assn4/objstore.c`. A node (`struct cache_obj`) is a heap
cell with three links: `left` and `right` of the LRU list between `cache_left` and `cache_right`,
and `next` of the chain of its bucket in `cacheHashTable`. Its data is the slot `cacheAddr` of
`objfs->cache`; the slots are handed out by the bitmap `cachemap`.

Functions that dereference a pointer without a test return an `Option`: `none` is a `NULL`
dereference, or a loop through a cyclic chain that does not end. `read_block`, `write_block`, and
`mmap` are outside the repository; the device carries the outcome of every such call, so that a
property can speak of any pattern of failures.
-/

namespace GemOS.Objstore

/-- A value stored in a `u32`. -/
def u32 (n : ℤ) : ℕ := (n % 2^32).toNat

/-! ## The device -/

/-- The disk behind `objfs`, with the outcomes of the calls into the system: `ok n` says whether the
`n`-th one succeeds. -/
structure Disk where
  /-- The contents of the disk. -/
  block : ℕ → Block
  /-- Whether the `n`-th call of `mmap`, `read_block`, or `write_block` succeeds. -/
  ok : ℕ → Bool
  /-- The number of calls so far. -/
  calls : ℕ

namespace Disk

/-- `malloc_4k`: whether `mmap` returned a page. -/
def malloc4k (d : Disk) : Bool × Disk := (d.ok d.calls, { d with calls := d.calls + 1 })

/-- `read_block`: the number of bytes or a negative value, and the buffer. -/
def readBlock (d : Disk) (b : ℕ) (buf : Block) : ℤ × Block × Disk :=
  if d.ok d.calls then (4096, d.block b, { d with calls := d.calls + 1 })
  else (-1, buf, { d with calls := d.calls + 1 })

/-- `write_block`: the number of bytes or a negative value. -/
def writeBlock (d : Disk) (b : ℕ) (buf : Block) : ℤ × Disk :=
  if d.ok d.calls then
    (4096, { d with block := Function.update d.block b buf, calls := d.calls + 1 })
  else (-1, { d with calls := d.calls + 1 })

/-- Every call into the system succeeds. -/
def AllOk (d : Disk) : Prop := ∀ n, d.ok n = true

end Disk

/-! ## The cache -/

/-- `struct cache_obj`. -/
structure CacheObj where
  /-- The slot of the node's data in `objfs->cache`. -/
  cacheAddr : ℕ
  /-- The block number. -/
  diskAddr : ℕ
  /-- The data is to be written back. -/
  dirty : Bool
  /-- The neighbour towards `cache_left`. -/
  left : Ptr
  /-- The neighbour towards `cache_right`. -/
  right : Ptr
  /-- The next node of the bucket. -/
  next : Ptr

/-- The node that `calloc` returns. -/
def CacheObj.zero : CacheObj := ⟨0, 0, false, none, none, none⟩

/-- The globals of the cache, with the data area of `objfs` and the disk behind it. -/
structure Cache where
  /-- The disk. -/
  disk : Disk
  /-- The data area `objfs->cache`, block by block. -/
  slots : ℕ → Block
  /-- The nodes. -/
  heap : Heap CacheObj
  /-- `cacheHashTable`. -/
  table : ℕ → Ptr
  /-- `cachemap`. -/
  cachemap : ByteMap
  /-- `cache_bit_itr`. -/
  cacheBitItr : ℕ
  /-- `cache_left`, the most recent node. -/
  cacheLeft : Ptr
  /-- `cache_right`, the next victim. -/
  cacheRight : Ptr
  /-- `cache_size`. -/
  cacheSize : ℕ

namespace Cache

/-- The cache of a new process over a disk. -/
def empty (A : Allocator) (d : Disk) (slots : ℕ → Block) : Cache where
  disk := d
  slots := slots
  heap := Heap.empty A CacheObj.zero
  table := fun _ => none
  cachemap := fun _ => 0
  cacheBitItr := 0
  cacheLeft := none
  cacheRight := none
  cacheSize := 0

/-- A store to the node at `p`. -/
def modify (c : Cache) (p : ℕ) (f : CacheObj → CacheObj) : Cache :=
  { c with heap := c.heap.modify p f }

/-- `get_block_for_cache`: a free slot, or 0 when there is none. -/
def getBlockForCache (c : Cache) : ℕ × Cache :=
  let (r, map, itr) := ByteMap.fetchFree 4096 c.cachemap c.cacheBitItr
  (r, { c with cachemap := map, cacheBitItr := itr })

/-- `free_cache_id`. -/
def freeCacheId (c : Cache) (cacheId : ℕ) : Cache :=
  { c with cachemap := c.cachemap.clearBit cacheId }

/-- `cache_hash`: the bucket of a block, modulo `CACHE_HTSIZE`. -/
def cacheHash (diskBlock : ℕ) : ℕ := diskBlock % 2^15

/-- The loop of the bucket searches: the last `par` and `itr`, from the head of the bucket of
`b`. -/
def search (c : Cache) (b : ℕ) (stop : CacheObj → Bool) : Option (Ptr × Ptr) :=
  let head := c.table (cacheHash b)
  walk c.heap.mem CacheObj.next stop c.heap.fuel head head

/-- `check_disk_block_in_cache`. -/
def checkDiskBlockInCache (c : Cache) (diskBlock : ℕ) : Option Bool := do
  let (_, itr) ← c.search diskBlock fun n => n.diskAddr == diskBlock
  return itr.isSome

/-- `get_cache_obj`: the node of a block, or `NULL`. -/
def getCacheObj (c : Cache) (diskAddr : ℕ) : Option Ptr := do
  let (_, itr) ← c.search diskAddr fun n => n.diskAddr == diskAddr
  return itr

/-- `add_at_top_of_cache`. -/
def addAtTopOfCache (c : Cache) (newNode : ℕ) : Cache :=
  let heap := c.heap.modify newNode fun n => { n with right := c.cacheLeft, left := none }
  let heap := heap.modify? c.cacheLeft fun n => { n with left := some newNode }
  let cacheLeft := some newNode
  let cacheRight := if c.cacheRight = none then cacheLeft else c.cacheRight
  { c with heap := heap, cacheLeft := cacheLeft, cacheRight := cacheRight,
           cacheSize := u32 (c.cacheSize + 1) }

/-- The end of both `remove_object_from_cache_…` functions: the node leaves the LRU list and is
freed. -/
def takeOut (c : Cache) (node : ℕ) : Cache :=
  let n := c.heap.mem node
  let heap := c.heap.modify? n.left fun l => { l with right := n.right }
  let cacheLeft := if n.left = none then n.right else c.cacheLeft
  let n := heap.mem node
  let heap := heap.modify? n.right fun r => { r with left := n.left }
  let cacheRight := if n.right = none then n.left else c.cacheRight
  { c with heap := heap.free node, cacheLeft := cacheLeft, cacheRight := cacheRight,
           cacheSize := u32 (c.cacheSize - 1) }

/-- `remove_object_from_cache_dont_write_back`. -/
def removeObjectFromCacheDontWriteBack (c : Cache) (node : ℕ) : Cache := c.takeOut node

/-- `remove_object_from_cache_and_write_back`. A failed `mmap` returns before the node is taken out;
the result of `write_block` is not looked at. -/
def removeObjectFromCacheAndWriteBack (c : Cache) (node : ℕ) : Cache :=
  if (c.heap.mem node).dirty then
    let (ptr, disk) := c.disk.malloc4k
    let c := { c with disk := disk }
    if ptr then
      let (_, disk) := c.disk.writeBlock (c.heap.mem node).diskAddr
        (c.slots (c.heap.mem node).cacheAddr)
      takeOut { c with disk := disk } node
    else c
  else c.takeOut node

/-- `insert_block_in_cache_hash_table`: the node is linked behind the last one of its bucket. -/
def insertBlockInCacheHashTable (c : Cache) (diskBlock : ℕ) (newNode : ℕ) : Option Cache := do
  let (parent, _) ← c.search diskBlock fun _ => false
  match parent with
  | none => return { c with table := Function.update c.table (cacheHash diskBlock) (some newNode) }
  | some p => return c.modify p fun n => { n with next := some newNode }

/-- `remove_block_from_cache_hash_table`: the first node with the block of `node` is unlinked. When
this is the head of the bucket, the whole bucket is emptied. -/
def removeBlockFromCacheHashTable (c : Cache) (node : ℕ) : Option Cache := do
  let diskAddr := (c.heap.mem node).diskAddr
  let (par, itr) ← c.search diskAddr fun n => n.diskAddr == diskAddr
  if par = itr then
    return { c with table := Function.update c.table (cacheHash diskAddr) none }
  else
    let par ← par
    let itr ← itr
    return c.modify par fun n => { n with next := (c.heap.mem itr).next }

/-- `calloc` of a node and the stores to its fields that follow. -/
def allocNode (c : Cache) (f : CacheObj → CacheObj) : Cache :=
  ({ c with heap := c.heap.alloc CacheObj.zero } : Cache).modify c.heap.fresh f

/-- The hit of `retrieve_block_from_cache`: the node `cNode` is replaced by a new one, which takes
over the block and the slot and goes to the top of the LRU list and to the end of the bucket. -/
def replaceNode (c : Cache) (diskBlock : ℕ) (cNode : ℕ) : Option (ℕ × Cache) := do
  let newNode := c.heap.fresh
  let c := c.allocNode fun n =>
    { n with left := none, right := none, diskAddr := diskBlock,
             cacheAddr := (c.heap.mem cNode).cacheAddr }
  let c := c.removeObjectFromCacheDontWriteBack cNode
  let c := c.addAtTopOfCache newNode
  let c ← c.removeBlockFromCacheHashTable newNode
  let c ← c.insertBlockInCacheHashTable (c.heap.mem newNode).diskAddr newNode
  return (newNode, c)

/-- `retrieve_block_from_cache`. -/
def retrieveBlockFromCache (c : Cache) (diskBlock : ℕ) : Option (Ptr × Cache) := do
  if ← c.checkDiskBlockInCache diskBlock then
    let (_, node) ← c.search diskBlock fun n => n.diskAddr == diskBlock
    let cNode ← node
    let (newNode, c) ← c.replaceNode diskBlock cNode
    return (some newNode, c)
  else return (none, c)

/-- The eviction of `insert_block_to_cache`, when `CACHE_HTSIZE - 1` nodes are cached. -/
def evict (c : Cache) : Option Cache := do
  if c.cacheSize ≥ 2^15 - 1 then
    let victim ← c.cacheRight
    let c ← c.removeBlockFromCacheHashTable victim
    let victim ← c.cacheRight
    let c := c.freeCacheId (c.heap.mem victim).cacheAddr
    return c.removeObjectFromCacheAndWriteBack victim
  else return c

/-- `insert_block_to_cache`. -/
def insertBlockToCache (c : Cache) (diskBlock : ℕ) (cacheBlock : ℕ) : Option (Ptr × Cache) := do
  if ← c.checkDiskBlockInCache diskBlock then return (none, c)
  else
    let newNode := c.heap.fresh
    let c := c.allocNode fun n =>
      { n with diskAddr := diskBlock, cacheAddr := cacheBlock, left := none, right := none }
    let c ← c.evict
    let c := c.addAtTopOfCache newNode
    let c ← c.insertBlockInCacheHashTable diskBlock newNode
    return (some newNode, c)

/-- A copy of a block into the slot `s` of `objfs->cache`. -/
def copyToSlot (c : Cache) (s : ℕ) (buf : Block) : Cache :=
  { c with slots := Function.update c.slots s buf }

/-- `read_block_modified`: the result, the buffer, and the new state. The result of `read_block` is
stored in a `u32` before it is compared with 0. -/
def readBlockModified (c : Cache) (blockNo : ℕ) (buf : Block) : Option (ℕ × Block × Cache) := do
  let (newNode, c) ← c.retrieveBlockFromCache blockNo
  match newNode with
  | none =>
    let (ptr, disk) := c.disk.malloc4k
    let c := { c with disk := disk }
    if ptr = false then return (u32 (-1), buf, c)
    let (ret, page, disk) := c.disk.readBlock blockNo Block.zero
    let obtainedId := u32 ret
    let c := { c with disk := disk }
    if obtainedId < 0 then return (u32 (-1), buf, c)
    let (cId, c) := c.getBlockForCache
    let c := c.copyToSlot cId page
    let (_, c) ← c.insertBlockToCache blockNo cId
    return (obtainedId, page, c)
  | some p => return (4096, c.slots (c.heap.mem p).cacheAddr, c)

/-- `write_block_modified`. -/
def writeBlockModified (c : Cache) (blockNo : ℕ) (buf : Block) : Option (ℤ × Cache) := do
  let (newNode, c) ← c.retrieveBlockFromCache blockNo
  match newNode with
  | none =>
    let (cacheId, c) := c.getBlockForCache
    let c := c.copyToSlot cacheId buf
    let (newNode, c) ← c.insertBlockToCache blockNo cacheId
    let p ← newNode
    return (0, c.modify p fun n => { n with dirty := true })
  | some p =>
    let c := c.copyToSlot (c.heap.mem p).cacheAddr buf
    return (0, c.modify p fun n => { n with dirty := true })

/-- The walk of `obj_sync` through a bucket: every dirty node is written to the disk. A failed
`mmap` ends the whole function, which the flag of the result says. -/
def syncChain (c : Cache) : ℕ → Ptr → Option (Bool × Cache)
  | 0, _ => none
  | _ + 1, none => some (true, c)
  | fuel + 1, some p =>
    if (c.heap.mem p).dirty then
      let (ptr, disk) := c.disk.malloc4k
      let c := { c with disk := disk }
      if ptr then
        let (_, disk) := c.disk.writeBlock (c.heap.mem p).diskAddr
          (c.slots (c.heap.mem p).cacheAddr)
        syncChain { c with disk := disk } fuel (c.heap.mem p).next
      else some (false, c)
    else syncChain c fuel (c.heap.mem p).next

/-- The loop of `obj_sync` over `n` buckets from bucket `i` on. -/
def syncBuckets (c : Cache) : ℕ → ℕ → Option Cache
  | 0, _ => some c
  | n + 1, i => do
    let (ok, c) ← c.syncChain c.heap.fuel (c.table i)
    if ok then syncBuckets c n (i + 1) else return c

/-- `obj_sync`. -/
def objSync (c : Cache) : Option Cache := c.syncBuckets (2^15) 0

end Cache

end GemOS.Objstore
