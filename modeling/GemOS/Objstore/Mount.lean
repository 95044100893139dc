import GemOS.Objstore.Names

/-!
# Mounting and unmounting

`objstore_init` and `objstore_destroy`, which read and write the metadata blocks 0 to 1311 past the
cache. `objstore_init` on a disk with zeros there leaves the state `Fresh`: an empty hash table, no
id in use, and the blocks up to 17695 in use.
-/

namespace GemOS.Objstore

/-! ## `objstore_init` -/

/-- The inner loop of `objstore_init` over `n` entries of block `i` of the hash table, from entry
`x` on. `temp` is a `char *`, so that an entry is a signed byte. -/
def loadBytes (temp : Block) (i : ℕ) : ℕ → ℕ → Tables → Option Tables
  | 0, _, t => some t
  | n + 1, x, t => do
    let uid := u32 (temp.byte x).toInt8.toInt
    if uid ≠ 0 then
      let t ← t.insertToHashTable (i * 1024 + x) uid
      loadBytes temp i n (x + 1) t
    else loadBytes temp i n (x + 1) t

/-- The loop over `n` blocks of the hash table from block `i` on; `false` is a failed read. -/
def loadIds : ℕ → ℕ → Disk → Tables → Option (Bool × Disk × Tables)
  | 0, _, d, t => some (true, d, t)
  | n + 1, i, d, t => do
    let (r, temp, d) := d.readBlock i Block.zero
    if r < 0 then return (false, d, t)
    let t ← loadBytes temp i 1024 0 t
    loadIds n (i + 1) d t

/-- The loop over `n` blocks of a bitmap from block `first + i` on; `false` is a failed read. -/
def loadMap (first : ℕ) : ℕ → ℕ → Disk → ByteMap → Bool × Disk × ByteMap
  | 0, _, d, map => (true, d, map)
  | n + 1, i, d, map =>
    let (r, temp, d) := d.readBlock (first + i) Block.zero
    if r < 0 then (false, d, map)
    else loadMap first n (i + 1) d fun k =>
      if 4096 * i ≤ k ∧ k < 4096 * (i + 1) then temp.byte (k - 4096 * i) else map k

/-- The end of `objstore_init`: the bitmaps are read, and the reserved bits are set. -/
def loadMaps (d : Disk) (t : Tables) : ℤ × Disk × Tables :=
  match loadMap 1024 32 0 d t.inodemap with
  | (false, d, imap) => (-1, d, { t with inodemap := imap })
  | (true, d, imap) =>
    match loadMap 1056 256 0 d t.blockmap with
    | (false, d, bmap) => (-1, d, { t with inodemap := imap, blockmap := bmap })
    | (true, d, bmap) =>
      (0, d, { t with
        inodemap := Function.update imap 0 (imap 0 &&& 0xfc)
        blockmap := fun i => if i < 2212 then 0xff else bmap i })

/-- `objstore_init`: 0, or -1 when a call into the system fails. -/
def objstoreInit (d : Disk) (t : Tables) : Option (ℤ × Disk × Tables) :=
  match d.malloc4k with
  | (false, d) => some (-1, d, t)
  | (true, d) =>
    match loadIds 1024 0 d t with
    | none => none
    | some (false, d, t) => some (-1, d, t)
    | some (true, d, t) => some (loadMaps d t)

/-! ## `objstore_destroy` -/

/-- The walk of `objstore_destroy` through bucket `i`: the bucket of every id goes to `temp`. -/
def fillChain (t : Tables) (i : ℕ) : ℕ → Ptr → (ℕ → ℕ) → Option (ℕ → ℕ)
  | 0, _, _ => none
  | _ + 1, none, temp => some temp
  | fuel + 1, some node, temp =>
    if 2^20 ≤ (t.heap.mem node).id then none
    else fillChain t i fuel (t.heap.mem node).next (Function.update temp (t.heap.mem node).id i)

/-- The loop over `n` buckets from bucket `i` on. -/
def fillBuckets (t : Tables) : ℕ → ℕ → (ℕ → ℕ) → Option (ℕ → ℕ)
  | 0, _, temp => some temp
  | n + 1, i, temp => do
    let temp ← fillChain t i t.heap.fuel (t.hashTable i) temp
    fillBuckets t n (i + 1) temp

/-- The memory of an array of `unsigned long`. -/
def longBytes (temp : ℕ → ℕ) (k : ℕ) : UInt8 := UInt8.ofNat (temp (k / 8) / 2^(8 * (k % 8)))

/-- The loop that writes `n` blocks of a memory to the disk, block `i` of it to block `first + i`;
`false` is a failed write. -/
def storeBlocks (first : ℕ) (f : ℕ → UInt8) : ℕ → ℕ → Disk → Bool × Disk
  | 0, _, d => (true, d)
  | n + 1, i, d =>
    let (r, d) := d.writeBlock (first + i) (Block.ofBytes fun k => f (4096 * i + k))
    if r < 0 then (false, d) else storeBlocks first f n (i + 1) d

/-- The writes of `objstore_destroy`: 1024 blocks of the array of buckets, and the bitmaps. -/
def storeMaps (temp : ℕ → ℕ) (t : Tables) (d : Disk) : Bool × Disk :=
  match storeBlocks 0 (longBytes temp) 1024 0 d with
  | (false, d) => (false, d)
  | (true, d) =>
    match storeBlocks 1024 t.inodemap 32 0 d with
    | (false, d) => (false, d)
    | (true, d) => storeBlocks 1056 t.blockmap 256 0 d

/-- `objstore_destroy`: 0, or -1 when a call into the system fails. The array `temp` has an
`unsigned long` for each id. Memory is not given back here. -/
def objstoreDestroy (s : Store Cache) : Option (ℤ × Store Cache) := do
  let temp ← fillBuckets s.toTables (2^20) 0 fun _ => 0
  match s.layer.disk.malloc4k with
  | (false, d) => return (-1, { s with layer := { s.layer with disk := d } })
  | (true, d) =>
    match storeMaps temp s.toTables d with
    | (false, d) => return (-1, { s with layer := { s.layer with disk := d } })
    | (true, d) =>
      let layer ← Cache.objSync { s.layer with disk := d }
      return (0, { s with layer := layer })

/-! ## The state after `objstore_init` -/

/-- The globals after `objstore_init` on a disk without objects. -/
structure Fresh (t : Tables) : Prop where
  /-- The hash table is empty. -/
  table : Table t fun _ => []
  /-- No id is in use. -/
  inodemap : ∀ id < 2^20, t.inodemap.bit id = false
  /-- The search for a free id starts at the first one. -/
  inodeBitItr : t.inodeBitItr = 0
  /-- The metadata blocks and the record blocks are in use. -/
  reserved : ∀ b < 17696, t.blockmap.bit b = true
  /-- The other blocks are free. -/
  blockmap : ∀ b, 17696 ≤ b → b < 2^23 → t.blockmap.bit b = false

variable {d d' : Disk} {t t' : Tables} {map map' : ByteMap} {b : ℕ}

theorem Disk.readBlock_block (d : Disk) (b : ℕ) (buf : Block) :
    (d.readBlock b buf).2.2.block = d.block ∧ (d.readBlock b buf).2.2.ok = d.ok ∧
      (¬(d.readBlock b buf).1 < 0 → (d.readBlock b buf).2.1 = d.block b) := by
  unfold Disk.readBlock
  split_ifs <;> simp

theorem loadBytes_zero (i n x : ℕ) (t : Tables) : loadBytes Block.zero i n x t = some t := by
  induction n generalizing x with
  | zero => rfl
  | succ n ih =>
    rw [loadBytes, Block.byte_zero]
    exact ih (x + 1)

/-- Without entries, no id is loaded. -/
theorem loadIds_zero {n i : ℕ} (hzero : ∀ b < i + n, d.block b = Block.zero) {ok : Bool}
    (h : loadIds n i d t = some (ok, d', t')) : d'.block = d.block ∧ t' = t := by
  induction n generalizing i d with
  | zero =>
    simp only [loadIds, Option.some.injEq, Prod.mk.injEq] at h
    rw [← h.2.1, ← h.2.2]
    exact ⟨rfl, rfl⟩
  | succ n ih =>
    obtain ⟨hblock, -, hread⟩ := d.readBlock_block i Block.zero
    rw [loadIds] at h
    generalize d.readBlock i Block.zero = r at *
    obtain ⟨r, temp, d₁⟩ := r
    dsimp only at *
    by_cases hr : r < 0
    · rw [if_pos hr] at h
      simp only [Option.pure_def, Option.some.injEq, Prod.mk.injEq] at h
      rw [← h.2.1, ← h.2.2]
      exact ⟨hblock, rfl⟩
    · rw [if_neg hr, hread hr, hzero i (by omega), loadBytes_zero] at h
      rw [← hblock] at hzero ⊢
      exact ih (fun b hb => hzero b (by omega)) h

/-- A bitmap is loaded block by block. -/
theorem loadMap_spec {first n i : ℕ} (h : loadMap first n i d map = (true, d', map')) :
    d'.block = d.block ∧ ∀ k, map' k = if 4096 * i ≤ k ∧ k < 4096 * (i + n) then
      (d.block (first + k / 4096)).byte (k % 4096) else map k := by
  induction n generalizing i d map with
  | zero =>
    simp only [loadMap, Prod.mk.injEq, true_and] at h
    rw [← h.1, ← h.2]
    exact ⟨rfl, fun k => by rw [if_neg (by omega)]⟩
  | succ n ih =>
    obtain ⟨hblock, -, hread⟩ := d.readBlock_block (first + i) Block.zero
    rw [loadMap] at h
    generalize d.readBlock (first + i) Block.zero = r at *
    obtain ⟨r, temp, d₁⟩ := r
    dsimp only at *
    by_cases hr : r < 0
    · simp [hr] at h
    · rw [if_neg hr] at h
      obtain ⟨hd', hmap⟩ := ih h
      refine ⟨hd'.trans hblock, fun k => ?_⟩
      rw [hmap, hblock, hread hr]
      by_cases hk : 4096 * i ≤ k ∧ k < 4096 * (i + 1)
      · rw [if_neg (by omega), if_pos hk, if_pos (by omega)]
        rw [show k / 4096 = i by omega, show k % 4096 = k - 4096 * i by omega]
      · by_cases hk' : 4096 * (i + 1) ≤ k ∧ k < 4096 * (i + 1 + n)
        · rw [if_pos hk', if_pos (by omega)]
        · rw [if_neg hk', if_neg hk, if_neg (by omega)]

/-- Over a disk that never fails, a bitmap is loaded. -/
theorem loadMap_ok (hd : d.AllOk) (first n i : ℕ) (map : ByteMap) :
    ∃ d' map', loadMap first n i d map = (true, d', map') ∧ d'.AllOk := by
  induction n generalizing i d map with
  | zero => exact ⟨d, map, rfl, hd⟩
  | succ n ih =>
    rw [loadMap]
    simp only [Disk.readBlock, hd _, if_true]
    rw [if_neg (by norm_num)]
    exact ih (d := { d with calls := d.calls + 1 }) hd (i + 1) _

/-- Over a disk that never fails, the ids are loaded unless one of them is out of bounds. -/
theorem loadIds_ok (hd : d.AllOk) {n i : ℕ} {ok : Bool} (h : loadIds n i d t = some (ok, d', t')) :
    ok = true ∧ d'.AllOk ∧ d'.block = d.block := by
  induction n generalizing i d t with
  | zero =>
    simp only [loadIds, Option.some.injEq, Prod.mk.injEq] at h
    rw [← h.2.1]
    exact ⟨h.1.symm, hd, rfl⟩
  | succ n ih =>
    rw [loadIds] at h
    simp only [Disk.readBlock, hd _, if_true, Option.bind_eq_bind] at h
    rw [if_neg (by norm_num)] at h
    obtain ⟨t₁, -, h⟩ := Option.bind_eq_some_iff.mp h
    exact ih (d := { d with calls := d.calls + 1 }) hd h

/-- The bitmaps are read without a failure. -/
theorem loadMaps_zero (h : loadMaps d t = (0, d', t')) :
    ∃ d₁ imap bmap, loadMap 1024 32 0 d t.inodemap = (true, d₁, imap) ∧
      loadMap 1056 256 0 d₁ t.blockmap = (true, d', bmap) ∧
      t' = { t with
        inodemap := Function.update imap 0 (imap 0 &&& 0xfc)
        blockmap := fun i => if i < 2212 then 0xff else bmap i } := by
  unfold loadMaps at h
  split at h
  · simp at h
  · rename_i d₁ imap himap
    split at h
    · simp at h
    · rename_i d₂ bmap hbmap
      simp only [Prod.mk.injEq, true_and] at h
      obtain ⟨rfl, rfl⟩ := h
      exact ⟨d₁, imap, bmap, himap, hbmap, rfl⟩

/-- A run of `objstore_init` that returns 0. -/
theorem objstoreInit_zero (h : objstoreInit d t = some (0, d', t')) :
    ∃ d₀ d₁ t₁, d.malloc4k = (true, d₀) ∧ loadIds 1024 0 d₀ t = some (true, d₁, t₁) ∧
      loadMaps d₁ t₁ = (0, d', t') := by
  unfold objstoreInit at h
  split at h
  · simp at h
  · rename_i d₀ hptr
    split at h
    · simp at h
    · simp at h
    · rename_i d₁ t₁ hids
      exact ⟨d₀, d₁, t₁, hptr, hids, Option.some.inj h⟩

/-- Whatever the disk holds, the metadata blocks and the record blocks are in use after
`objstore_init`. -/
theorem objstoreInit_reserved (h : objstoreInit d t = some (0, d', t')) :
    ∀ b < 17696, t'.blockmap.bit b = true := by
  obtain ⟨d₀, d₁, t₁, -, -, hmaps⟩ := objstoreInit_zero h
  obtain ⟨d₂, imap, bmap, -, -, rfl⟩ := loadMaps_zero hmaps
  intro b hb
  have h255 : ∀ j < 8, (0xff : UInt8).toNat.testBit j = true := by decide
  have hlt : b / 8 < 2212 := by omega
  simp only [ByteMap.bit, hlt, if_true]
  exact h255 _ (Nat.mod_lt _ (by norm_num))

/-- After `objstore_init` of a new process on a disk with zeros in the metadata blocks, the store is
empty. -/
theorem objstoreInit_fresh {A : Allocator} (hzero : ∀ b < 1312, d.block b = Block.zero)
    (h : objstoreInit d (Tables.new A) = some (0, d', t)) : d'.block = d.block ∧ Fresh t := by
  obtain ⟨d₀, d₁, t₁, hptr, hids, hmaps⟩ := objstoreInit_zero h
  have hd₀ : d₀.block = d.block := congrArg (fun r => r.2.block) hptr.symm
  have hzero₀ : ∀ b < 0 + 1024, d₀.block b = Block.zero := fun b hb => by
    rw [hd₀]
    exact hzero b (by omega)
  obtain ⟨hd₁, rfl⟩ := loadIds_zero hzero₀ hids
  obtain ⟨d₂, imap, bmap, hi, hb, rfl⟩ := loadMaps_zero hmaps
  obtain ⟨hd₂, himap⟩ := loadMap_spec hi
  obtain ⟨hd₃, hbmap⟩ := loadMap_spec hb
  have hblock₁ : d₁.block = d.block := hd₁.trans hd₀
  -- Both maps are read from blocks of zeros.
  have himap0 : imap = fun _ => 0 := by
    funext k
    rw [himap, hblock₁]
    split_ifs with hk
    · rw [hzero _ (by omega), Block.byte_zero]
    · rfl
  have hbmap0 : bmap = fun _ => 0 := by
    funext k
    rw [hbmap, hd₂, hblock₁]
    split_ifs with hk
    · rw [hzero _ (by omega), Block.byte_zero]
    · rfl
  refine ⟨hd₃.trans (hd₂.trans hblock₁), ⟨(Table.new A).congr rfl rfl, fun id _ => ?_, rfl,
    fun b hb => ?_, fun b hb _ => ?_⟩⟩
  · rw [himap0]
    have hmap : Function.update (fun _ : ℕ => (0 : UInt8)) 0 (0 &&& 0xfc) = fun _ => 0 :=
      Function.update_eq_self_iff.mpr (by decide)
    rw [hmap]
    simp [ByteMap.bit]
  · exact objstoreInit_reserved h b hb
  · have hlt : ¬b / 8 < 2212 := by omega
    simp [ByteMap.bit, hlt, hbmap0]

/-- Over a disk that never fails, a table without entries is loaded. -/
theorem loadIds_zero_ok {n i : ℕ} (hd : d.AllOk) (hzero : ∀ b < i + n, d.block b = Block.zero)
    (t : Tables) : ∃ d', loadIds n i d t = some (true, d', t) ∧ d'.AllOk := by
  induction n generalizing i d with
  | zero => exact ⟨d, rfl, hd⟩
  | succ n ih =>
    rw [loadIds]
    simp only [Disk.readBlock, hd _, if_true]
    rw [if_neg (by norm_num), hzero i (by omega), loadBytes_zero]
    exact ih (d := { d with calls := d.calls + 1 }) hd fun b hb => hzero b (by omega)

/-- When no call into the system fails, `objstore_init` of a new process on a disk with zeros in the
blocks of the hash table returns 0, and the table is empty. -/
theorem objstoreInit_ok (A : Allocator) (hd : d.AllOk)
    (hzero : ∀ b < 1024, d.block b = Block.zero) :
    ∃ d' t, objstoreInit d (Tables.new A) = some (0, d', t) ∧ d'.AllOk ∧ Table t fun _ => [] := by
  have hptr : d.malloc4k = (true, { d with calls := d.calls + 1 }) := by
    rw [Disk.malloc4k, hd]
  obtain ⟨d₁, h₁, hd₁⟩ := loadIds_zero_ok (n := 1024) (i := 0)
    (d := { d with calls := d.calls + 1 }) hd (fun b hb => hzero b (by omega)) (Tables.new A)
  obtain ⟨d₂, imap, h₂, hd₂⟩ := loadMap_ok hd₁ 1024 32 0 (Tables.new A).inodemap
  obtain ⟨d₃, bmap, h₃, hd₃⟩ := loadMap_ok hd₂ 1056 256 0 (Tables.new A).blockmap
  have hmaps : loadMaps d₁ (Tables.new A) = (0, d₃, { Tables.new A with
      inodemap := Function.update imap 0 (imap 0 &&& 0xfc)
      blockmap := fun i => if i < 2212 then 0xff else bmap i }) := by
    simp only [loadMaps, h₂, h₃]
  have hinit : objstoreInit d (Tables.new A) = some (loadMaps d₁ (Tables.new A)) := by
    simp only [objstoreInit, hptr, h₁]
  refine ⟨d₃, _, by rw [hinit, hmaps], hd₃, ?_⟩
  exact (Table.new A).congr rfl rfl

/-! ## The store after `objstore_init` -/

section Store

variable {σ : Type} [BlockLayer σ] {dom : Set ℕ} {L : Lawful σ dom} {layer : σ} {key : List UInt8}

/-- The store that `objstore_init` leaves has no names. -/
theorem Fresh.names (ht : Fresh t) (hl : L.inv layer) :
    Store.Names L ⟨t, layer⟩ fun _ => [] := ⟨hl, ht.table, by simp⟩

omit [BlockLayer σ] in
theorem Fresh.ids (t : Tables) (layer : σ) :
    Store.ids (⟨t, layer⟩ : Store σ) (fun _ => []) = fun _ => [] := rfl

/-- The first object gets the id 2, and its bucket is a single node. -/
theorem Fresh.createObject (ht : Fresh t) (hl : L.inv layer) (hdom : ∀ b ∈ recordBlocks, b ∈ dom)
    (hkey : KeyOk key) :
    ∃ (s' : Store σ) (B' : ℕ → List ℕ),
      (⟨t, layer⟩ : Store σ).createObject key = some (2, s') ∧
      Store.Names L s' B' ∧ Store.Created L ⟨t, layer⟩ s' (fun _ => []) B' key 2 ∧
      s'.ids B' = Function.update (fun _ => []) (hash key) [2] := by
  obtain ⟨r, s', B', hcreate, hnames, hr⟩ := (ht.names hl).createObject hdom hkey
  have h2 : t.inodemap.bit 2 = false := ht.inodemap 2 (by norm_num)
  rcases hr with ⟨-, hfail, -⟩ | ⟨id, rfl, -, hcreated⟩
  · rcases hfail with hfound | hfull
    · exact absurd (lookup_eq_none.mpr (by simp [Fresh.ids])) hfound
    · rw [hfull 2 le_rfl (by norm_num)] at h2
      exact absurd h2 (by simp)
  · obtain rfl : 2 = id := by
      have hid : (ByteMap.fetchFree (2^17) t.inodemap t.inodeBitItr).1 = id := hcreated.fetched
      rwa [ht.inodeBitItr, ByteMap.fetchFree_first (by norm_num) _ h2] at hid
    refine ⟨s', B', hcreate, hnames, hcreated, ?_⟩
    rw [hcreated.ids, Fresh.ids]
    simp

end Store

/-- The store over the cache after `objstore_init` on a disk of zeros, when no call fails. -/
theorem mount_zeroDisk :
    ∃ d' t, objstoreInit Cache.zeroDisk (Tables.new Allocator.bump) = some (0, d', t) ∧
      spread_recordBlocks.lawful.inv (Cache.empty Allocator.bump d' fun _ => Block.zero) := by
  obtain ⟨d', t, hinit, hd', -⟩ :=
    objstoreInit_ok Allocator.bump (d := Cache.zeroDisk) (fun _ => rfl) fun _ _ => rfl
  exact ⟨d', t, hinit, [], _, Cache.inv_empty Allocator.bump hd' _, by simp⟩

end GemOS.Objstore
