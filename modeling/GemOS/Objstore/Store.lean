import GemOS.Objstore.Layer

/-!
# The object store

A transcription of the object store of `src/Assn4/objstore.c`, over any block layer. The blocks of
the disk are: 0 to 1023 the hash table (`ID_BLOCKS`), 1024 to 1055 `inodemap` (`I_BLOCKS`), 1056 to
1311 `blockmap` (`B_BLOCKS`), 1312 to 17695 the records of the objects, 64 in a block, and from
17696 on the blocks that `fetch_free_block` hands out.

As in the cache, `none` is a `NULL` dereference, an index out of bounds, or a loop that does not
end. `mmap`ped buffers are not freed here, and `dprintf` is left out.
-/

namespace GemOS.Objstore

/-- A value stored in a `u64`. -/
def u64 (n : ℤ) : ℕ := (n % 2^64).toNat

/-! ## Strings -/

/-- The memory behind a C string: its bytes, a NUL, and whatever follows. -/
def cString (key : List UInt8) (rest : ℕ → UInt8) (i : ℕ) : UInt8 :=
  if i < key.length then key.getD i 0 else if i = key.length then 0 else rest i

/-- One round of `hash`: a signed `char` is added to a `u32`. -/
def hashStep (hashval : ℕ) (c : UInt8) : ℕ := u32 (hashval * 39 + c.toInt8.toInt) % (2^15 - 1)

/-- `hash`, over the first 29 bytes of the key. -/
def hash (key : List UInt8) : ℕ := (key.take 29).foldl hashStep 0 % 2^20 + 1

namespace Object

/-- The string in the field `key`, up to the NUL, or to the end of the record. -/
def keyString (obj : Object) : List UInt8 :=
  ((List.range 48).map fun i => obj.bytes (16 + i)).takeWhile fun c => c != 0

/-- The record with a key and its NUL at the field `key`: a key of more than 31 bytes runs into the
fields behind it. -/
def withKey (obj : Object) (key : List UInt8) : Object :=
  ofBytes fun i => if 16 ≤ i ∧ i ≤ 16 + key.length then (key ++ [0]).getD (i - 16) 0
    else obj.bytes i

/-- `strcpy(obj->key, key)`: from 48 bytes on, the NUL is behind the record. -/
def strcpy (obj : Object) (key : List UInt8) : Option Object :=
  if key.length < 48 then some (obj.withKey key) else none

end Object

/-! ## The tables -/

/-- `struct hashobj`. -/
structure HashObj where
  /-- The object's id, a `u64`. -/
  id : ℕ
  /-- The next node of the bucket. -/
  next : Ptr

/-- The node that `calloc` returns. -/
def HashObj.zero : HashObj := ⟨0, none⟩

/-- The globals of the store. -/
structure Tables where
  /-- The nodes of the hash table. -/
  heap : Heap HashObj
  /-- `hashTable`, with `MAX_OBJECT` buckets. -/
  hashTable : ℕ → Ptr
  /-- `inodemap`. -/
  inodemap : ByteMap
  /-- `inode_bit_itr`. -/
  inodeBitItr : ℕ
  /-- `blockmap`. -/
  blockmap : ByteMap
  /-- `block_bit_itr`. -/
  blockBitItr : ℕ

namespace Tables

/-- The globals of a new process. -/
def new (A : Allocator) : Tables :=
  ⟨Heap.empty A HashObj.zero, fun _ => none, fun _ => 0, 0, fun _ => 0, 0⟩

/-- `fetch_free_id`: a free id, or 0. -/
def fetchFreeId (t : Tables) : ℕ × Tables :=
  let (id, map, itr) := ByteMap.fetchFree (2^17) t.inodemap t.inodeBitItr
  (id, { t with inodemap := map, inodeBitItr := itr })

/-- `fetch_free_block`: a free block, or 0. -/
def fetchFreeBlock (t : Tables) : ℕ × Tables :=
  let (b, map, itr) := ByteMap.fetchFree (2^20) t.blockmap t.blockBitItr
  (b, { t with blockmap := map, blockBitItr := itr })

/-- `free_inode_id`. -/
def freeInodeId (t : Tables) (inodeId : ℕ) : Tables :=
  { t with inodemap := t.inodemap.clearBit inodeId }

/-- `free_block`. -/
def freeBlock (t : Tables) (blockNo : ℕ) : Tables :=
  { t with blockmap := t.blockmap.clearBit blockNo }

/-- `calloc` of a node and the stores to it that follow. -/
def allocNode (t : Tables) (f : HashObj → HashObj) : Tables :=
  { t with heap := (t.heap.alloc HashObj.zero).modify t.heap.fresh f }

/-- `insert_to_hash_table`: a new node goes to the end of the bucket. When the bucket has one node,
the new node takes its place. -/
def insertToHashTable (t : Tables) (id index : ℕ) : Option Tables := do
  if 2^20 ≤ index then none
  else
    let head := t.hashTable index
    let (par, _) ← walk t.heap.mem HashObj.next (fun _ => false) t.heap.fuel head head
    let node := t.heap.fresh
    let t := t.allocNode fun n => { n with id := id }
    if par = t.hashTable index then
      return { t with hashTable := Function.update t.hashTable index (some node) }
    else
      let par ← par
      return { t with heap := t.heap.modify par fun n => { n with next := some node } }

end Tables

/-- The store: its globals and the block layer. -/
structure Store (σ : Type) extends Tables where
  /-- The block layer. -/
  layer : σ

namespace Store

variable {σ : Type} [BlockLayer σ]

/-- A read through the block layer: the result and the buffer. -/
def readBlock (s : Store σ) (b : ℕ) (buf : Block) : Option (ℕ × Block × Store σ) := do
  let (r, buf, layer) ← BlockLayer.readBlockModified s.layer b buf
  return (r, buf, { s with layer := layer })

/-- A write through the block layer. -/
def writeBlock (s : Store σ) (b : ℕ) (buf : Block) : Option (ℤ × Store σ) := do
  let (r, layer) ← BlockLayer.writeBlockModified s.layer b buf
  return (r, { s with layer := layer })

/-- `fetch_free_id`. -/
def fetchFreeId (s : Store σ) : ℕ × Store σ :=
  let (id, t) := s.toTables.fetchFreeId
  (id, { s with toTables := t })

/-- `fetch_free_block`. -/
def fetchFreeBlock (s : Store σ) : ℕ × Store σ :=
  let (b, t) := s.toTables.fetchFreeBlock
  (b, { s with toTables := t })

/-- `insert_to_hash_table`. -/
def insertToHashTable (s : Store σ) (id index : ℕ) : Option (Store σ) := do
  let t ← s.toTables.insertToHashTable id index
  return { s with toTables := t }

/-! ## Records -/

/-- `get_object_by_id`: the record of an object, or `NULL`. The result of the read is a `u32`, so
that it is never negative. -/
def getObjectById (s : Store σ) (objid : ℕ) : Option (Option Object × Store σ) := do
  let blockNo := u32 (u64 (objid - 2) / 64 + 1312)
  let slot := u64 (objid - 2) % 64
  let (r, buf, s) ← s.readBlock blockNo Block.zero
  if r < 0 then return (none, s)
  let node := buf.object slot
  if node.id.toNat = objid then return (some node, s) else return (none, s)

/-- `insert_to_disk`: the record of an object is written to its slot. -/
def insertToDisk (s : Store σ) (obj : Object) : Option (Store σ) := do
  let blockNo := 1312 + u32 (obj.id.toNat - 2) / 64
  let (r, buf, s) ← s.readBlock blockNo Block.zero
  if r < 0 then return s
  let (_, s) ← s.writeBlock blockNo (buf.setObject (u32 (obj.id.toNat - 2) % 64) obj)
  return s

/-! ## Keys -/

/-- How a walk through a bucket for a key ends. -/
inductive Search where
  /-- At the end of the bucket, behind the node `par`. -/
  | missing (par : Ptr)
  /-- At a node whose object has no record. -/
  | noRecord
  /-- At the node `node` behind `par`, whose object has the key and the record `obj`. -/
  | found (par : Ptr) (node : ℕ) (obj : Object)

/-- The loop over a bucket that `find_object_id`, `create_object`, `destroy_object`, and
`rename_object` share, from the node `itr` behind `par` on. -/
def search (key : List UInt8) : ℕ → Ptr → Ptr → Store σ → Option (Search × Store σ)
  | 0, _, _, _ => none
  | _ + 1, par, none, s => some (.missing par, s)
  | fuel + 1, par, some itr, s => do
    let (obj, s) ← s.getObjectById (s.heap.mem itr).id
    match obj with
    | none => return (.noRecord, s)
    | some obj =>
      if (s.heap.mem itr).id ≠ 0 ∧ obj.keyString = key then return (.found par itr obj, s)
      else search key fuel (some itr) (s.heap.mem itr).next s

/-- The search for a key from the head of its bucket. -/
def searchKey (s : Store σ) (key : List UInt8) : Option (Search × Store σ) :=
  search key s.heap.fuel (s.hashTable (hash key)) (s.hashTable (hash key)) s

/-- `find_object_id`: the id of the object with the key, or -1. -/
def findObjectId (s : Store σ) (key : List UInt8) : Option (ℤ × Store σ) := do
  let (r, s) ← s.searchKey key
  match r with
  | .found _ itr _ => return ((s.heap.mem itr).id, s)
  | _ => return (-1, s)

/-- `create_object`: the id of a new object with the key, or -1. The new node is linked by the
function itself, and `insert_to_hash_table` links another one. -/
def createObject (s : Store σ) (key : List UInt8) : Option (ℤ × Store σ) := do
  let (r, s) ← s.searchKey key
  match r with
  | .missing par =>
    let (newId, s) := s.fetchFreeId
    if newId = 0 then return (-1, s)
    let newnode := s.heap.fresh
    let s := { s with toTables := s.allocNode fun n => { n with id := newId, next := none } }
    let newobj ← Object.zero.strcpy key
    let newobj := { newobj with id := UInt32.ofNat newId, cacheIndex := 0xffffffff }
    let s := match par with
      | none => { s with hashTable := Function.update s.hashTable (hash key) (some newnode) }
      | some par => { s with heap := s.heap.modify par fun n => { n with next := some newnode } }
    let s ← s.insertToHashTable newobj.id.toNat (hash newobj.keyString)
    let s ← s.insertToDisk newobj
    return (newId, s)
  | _ => return (-1, s)

/-- An argument where the source passes a block number for the pointer to the store, and the other
way round. -/
inductive Arg where
  /-- A `u32`. -/
  | num (n : ℕ)
  /-- The pointer to the store. -/
  | store

/-- The loop of `free_object_blocks`: an entry is freed when it is 0. -/
def freeEntries (t : Tables) (blocks : Block) : Tables :=
  (List.range 1024).foldl (fun t i =>
    if (blocks.entry i).toNat = 0 then t.freeBlock (blocks.entry i).toNat else t) t

/-- `free_object_blocks`. A number in the place of `objfs` is not the address of a store. -/
def freeObjectBlocks (s : Store σ) (ptr objfs : Arg) : Option (Store σ) :=
  match ptr, objfs with
  | .num ptr, .store => do
    let (_, blocks, s) ← s.readBlock ptr Block.zero
    return { s with toTables := freeEntries s.toTables blocks }
  | _, _ => none

/-- `remove_object_cached`. It calls `free_object_blocks` with the two arguments exchanged. -/
def removeObjectCached (s : Store σ) (obj : Object) : Option (Store σ) :=
  let s := { s with toTables := s.freeInodeId obj.id.toNat }
  let free (s : Store σ) (i : Fin 4) : Option (Store σ) := do
    let s ← s.freeObjectBlocks .store (.num (obj.level1 i).toNat)
    return { s with toTables := s.freeBlock (obj.level1 i).toNat }
  if obj.blocknum.toNat > 3072 then [0, 1, 2, 3].foldlM free s
  else if obj.blocknum.toNat > 2048 then [0, 1, 2].foldlM free s
  else if obj.blocknum.toNat > 1024 then [0, 1].foldlM free s
  else if obj.blocknum ≠ 0 then [0].foldlM free s
  else some s

/-- `destroy_object`: 0, or -1 when there is no object with the key. The node is freed and stays in
its bucket. -/
def destroyObject (s : Store σ) (key : List UInt8) : Option (ℤ × Store σ) := do
  let (r, s) ← s.searchKey key
  match r with
  | .found _ itr obj =>
    let s ← s.removeObjectCached obj
    return (0, { s with heap := s.heap.free itr })
  | _ => return (-1, s)

/-- What `rename_object` does to the record `obj`, before it unlinks the node of the old key: 32
bytes of the new name are copied, and a node is inserted for it. -/
def rekey (s : Store σ) (obj : Object) (newname : List UInt8) (rest : ℕ → UInt8) :
    Option (Store σ) := do
  let obj := { obj with key := fun i => cString newname rest i }
  let s ← s.insertToHashTable obj.id.toNat (hash newname)
  s.insertToDisk obj

/-- `rename_object`: 0, or -1 when there is no object with the key. `rest` is the memory behind the
new name. -/
def renameObject (s : Store σ) (key newname : List UInt8) (rest : ℕ → UInt8) :
    Option (ℤ × Store σ) := do
  let val := hash key
  match s.hashTable val with
  | none => return (-1, s)
  | some temp =>
    let (obj, s) ← s.getObjectById (s.heap.mem temp).id
    if (s.heap.mem temp).id ≠ 0 ∧ obj = none then none
    else if (s.heap.mem temp).id ≠ 0 ∧ (obj.map Object.keyString) = some key then
      let obj ← obj
      let s ← s.rekey obj newname rest
      let s := { s with hashTable := Function.update s.hashTable val (s.heap.mem temp).next }
      return (0, { s with heap := s.heap.free temp })
    else
      let (r, s) ← s.searchKey key
      match r with
      | .found itr temp obj =>
        let s ← s.rekey obj newname rest
        let itr ← itr
        let next := (s.heap.mem temp).next
        let s := { s with heap := s.heap.modify itr fun n => { n with next := next } }
        return (0, { s with heap := s.heap.free temp })
      | _ => return (-1, s)

/-! ## Data -/

/-- The entry of `level1` for block `k` of an object. -/
def level (k : ℕ) : Fin 4 :=
  if k < 1024 then 0 else if k < 2048 then 1 else if k < 3072 then 2 else 3

/-- The block that `find_write_cached` writes: `size` bytes of the user's buffer, and zeros. -/
def writeBuf (userBuf : ℕ → UInt8) (size : ℤ) : Block :=
  Block.ofBytes fun i => if (i : ℤ) < size then userBuf i else 0

/-- `memcpy(write_buf, user_buf, size)`: a size above `BLOCK_SIZE` overruns `write_buf`. -/
def memcpyWriteBuf (userBuf : ℕ → UInt8) (size : ℤ) : Option Block :=
  if size ≤ 4096 then some (writeBuf userBuf size) else none

/-- `find_read_cached`: the result and the buffer `ans`, of which the caller gets `size` bytes. -/
def findReadCached (s : Store σ) (obj : Object) (size : ℤ) (offset : ℕ) :
    Option (ℤ × Block × Store σ) := do
  let k := offset / 4096
  if obj.blocknum.toNat < k then return (-1, Block.zero, s)
  let (_, level1Ptr, s) ← s.readBlock (obj.level1 (level k)).toNat Block.zero
  let (_, ans, s) ← s.readBlock (level1Ptr.entry (k % 1024)).toNat Block.zero
  return (size, ans, s)

/-- The allocation of an indirect block in `find_write_cached`: for the first block of an object,
and for block 1024, 2048, or 3072 when the object has one block less. `none` in the result is a full
disk. -/
def indirect (s : Store σ) (obj : Object) (k : ℕ) : Option Object × Store σ :=
  let fetch (obj : Object) (i : Fin 4) (s : Store σ) : Option Object × Store σ :=
    let (newBlock, s) := s.fetchFreeBlock
    if newBlock = 0 then (none, s)
    else (some { obj with level1 := Function.update obj.level1 i (UInt32.ofNat newBlock) }, s)
  match if obj.blocknum = 0 then fetch obj 0 s else (some obj, s) with
  | (none, s) => (none, s)
  | (some obj, s) =>
    if (k = 1024 ∧ obj.blocknum = 1023) ∨ (k = 2048 ∧ obj.blocknum = 2047) ∨
      (k = 3072 ∧ obj.blocknum = 3071) then fetch obj (level k) s
    else (some obj, s)

/-- The new size of an object after a write of `size` bytes to block `k` was appended. -/
def newSize (obj : Object) (size : ℤ) (k : ℕ) : UInt32 :=
  if k < obj.blocknum.toNat then UInt32.ofInt size
  else if k = obj.blocknum.toNat then UInt32.ofInt size + (obj.size / 4096) * 4096
  else obj.size + UInt32.ofInt size

/-- The end of `find_write_cached` for a block that the object does not have. -/
def append (s : Store σ) (obj : Object) (level1Ptr : Block) (userBuf : ℕ → UInt8) (size : ℤ)
    (k : ℕ) : Option (ℤ × Store σ) := do
  let (newBlockId, s) := s.fetchFreeBlock
  let level1Ptr := level1Ptr.setEntry (obj.blocknum.toNat % 1024) (UInt32.ofNat newBlockId)
  let (r, s) ← s.writeBlock (obj.level1 0).toNat level1Ptr
  if r < 0 then return (-1, s)
  let obj := { obj with blocknum := obj.blocknum + 1 }
  let buf ← memcpyWriteBuf userBuf size
  let (r, s) ← s.writeBlock newBlockId buf
  if r < 0 then return (-1, s)
  let obj := { obj with size := newSize obj size k }
  let obj := { obj with blocknum := obj.blocknum + 1 }
  let s ← s.insertToDisk obj
  return (size, s)

/-- `find_write_cached`. -/
def findWriteCached (s : Store σ) (obj : Object) (userBuf : ℕ → UInt8) (size : ℤ) (offset : ℕ) :
    Option (ℤ × Store σ) := do
  if size < 0 then return (-1, s)
  let k := offset / 4096
  match s.indirect obj k with
  | (none, s) => return (-1, s)
  | (some obj, s) =>
    let (_, level1Ptr, s) ← s.readBlock (obj.level1 (level k)).toNat Block.zero
    if k < obj.blocknum.toNat then
      let buf ← memcpyWriteBuf userBuf size
      let (r, s) ← s.writeBlock (level1Ptr.entry (k % 1024)).toNat buf
      if r ≠ 0 then return (-1, s) else return (size, s)
    else s.append obj level1Ptr userBuf size k

/-- `objstore_write`. -/
def objstoreWrite (s : Store σ) (objid : ℤ) (buf : ℕ → UInt8) (size : ℤ) (offset : ℤ) :
    Option (ℤ × Store σ) := do
  let (obj, s) ← s.getObjectById (u64 objid)
  match obj with
  | none => return (-1, s)
  | some obj =>
    if objid < 2 then return (-1, s)
    let (r, s) ← s.findWriteCached obj buf size (u32 offset)
    if r < 0 then return (-1, s) else return (size, s)

/-- The loop of `objstore_read`. Every round reads at the same `offset`. -/
def readLoop (obj : Object) (offset : ℕ) : ℕ → (ℕ → UInt8) → ℕ → ℕ → Store σ →
    Option (Bool × (ℕ → UInt8) × Store σ)
  | 0, _, _, _, _ => none
  | fuel + 1, buf, offcheck, sizecheck, s =>
    if sizecheck = 0 then some (true, buf, s)
    else do
      let n := if 4096 < sizecheck then 4096 else sizecheck
      let (r, buffer, s) ← s.findReadCached obj n offset
      if r < 0 then return (false, buf, s)
      let buf := fun i =>
        if offcheck ≤ i ∧ i < offcheck + n then buffer.byte (i - offcheck) else buf i
      readLoop obj offset fuel buf (u32 (offcheck + 4096)) (u32 (sizecheck - 4096)) s

/-- `objstore_read`: the result and the user's buffer. -/
def objstoreRead (s : Store σ) (objid : ℤ) (buf : ℕ → UInt8) (size : ℤ) (offset : ℤ) :
    Option (ℤ × (ℕ → UInt8) × Store σ) := do
  let (obj, s) ← s.getObjectById (u64 objid)
  match obj with
  | none => return (-1, buf, s)
  | some obj =>
    if objid < 2 then return (-1, buf, s)
    let (ok, buf, s) ← readLoop obj (u32 offset) (2^20 + 1) buf (u32 offset) (u32 size) s
    if ok then return (size, buf, s) else return (-1, buf, s)

end Store

end GemOS.Objstore
