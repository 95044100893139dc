import GemOS.Objstore.FilesExact
import GemOS.Objstore.FullDisk

/-!
# The size of an object

`fillup_size_details` reports the size in the record. `find_write_cached` stores a size when it
appends a block, and `objstore_write` sets the size of its copy of the record, which is dropped.
`size_is_extent`: the reported size is the extent of the writes as long as all writes are to the
first block, and none but the first is longer than the size so far.
-/

namespace GemOS.Objstore

/-- The fields of `struct stat` that are used. -/
structure Stat where
  /-- `st_ino`. -/
  stIno : ℕ
  /-- `st_size`. -/
  stSize : ℕ
  /-- `st_blocks`. -/
  stBlocks : ℕ

/-- `fillup_size_details`. -/
def Store.fillupSizeDetails {σ : Type} [BlockLayer σ] (s : Store σ) (buf : Stat) :
    Option (ℤ × Stat × Store σ) := do
  let (obj, s) ← s.getObjectById buf.stIno
  match obj with
  | none => return (-1, buf, s)
  | some obj =>
    if buf.stIno < 2 then return (-1, buf, s)
    let buf := { buf with stSize := obj.size.toNat }
    let buf := { buf with stBlocks := obj.blocknum.toNat }
    return (0, buf, s)

/-- A call of `objstore_write`. -/
structure SizedWrite where
  /-- The user's buffer. -/
  data : ℕ → UInt8
  /-- The size. -/
  size : ℕ
  /-- The offset. -/
  offset : ℕ

/-- A write to the object `id`. -/
def Store.sizedStep {σ : Type} [BlockLayer σ] (id : ℕ) (s : Store σ) (op : SizedWrite) :
    Option (ℤ × Store σ) :=
  s.objstoreWrite id op.data op.size op.offset

/-- `fillup_size_details` reports the size `n` for the object `id`. -/
def Reports {σ : Type} [BlockLayer σ] (s : Store σ) (id n : ℕ) : Prop :=
  ∀ buf : Stat, buf.stIno = id → ∃ blocks s',
    s.fillupSizeDetails buf = some (0, { buf with stSize := n, stBlocks := blocks }, s')

/-- The largest end of a write. -/
def extent (ops : List SizedWrite) : ℕ := ops.foldl (fun m op => max m (op.offset + op.size)) 0

variable {σ : Type} [BlockLayer σ] {L : Lawful σ Set.univ} {s s' : Store σ} {id k b : ℕ}
  {size offset : ℤ} {data : ℕ → UInt8} {ops : List SizedWrite} {op : SizedWrite}

/-- A write of at most one block to the start of the object, which has no blocks yet, or is reported
as not shorter. -/
def InPlace (L : Lawful σ Set.univ) (id : ℕ) (s : Store σ) (op : SizedWrite) : Prop :=
  op.size ≤ 4096 ∧ op.offset = 0 ∧ ((record (L.content s.layer) id).blocknum = 0 ∨
    op.size ≤ (record (L.content s.layer) id).size.toNat)

/-- The record is that of an object that was not written. -/
structure Unwritten (L : Lawful σ Set.univ) (s : Store σ) (id : ℕ) : Prop where
  /-- The object is stored. -/
  stored : Stored s.toTables (L.content s.layer) id
  /-- It has no blocks. -/
  blocknum : (record (L.content s.layer) id).blocknum = 0
  /-- Its size is 0. -/
  size : (record (L.content s.layer) id).size = 0

/-- The record after the writes `ops`, all of them to the first block. -/
def SizeInv (L : Lawful σ Set.univ) (id : ℕ) (s : Store σ) (ops : List SizedWrite) : Prop :=
  L.inv s.layer ∧ (ops = [] ∧ Unwritten L s id ∨ HasBlocks (L.content s.layer) id 1 ∧
    (record (L.content s.layer) id).size.toNat = extent ops)

theorem extent_concat (ops : List SizedWrite) (op : SizedWrite) :
    extent (ops ++ [op]) = max (extent ops) (op.offset + op.size) := by
  rw [extent, List.foldl_append]
  rfl

theorem toNat_ofInt_of_le {n : ℕ} (hn : n ≤ 4096) : (UInt32.ofInt (n : ℤ)).toNat = n := by
  have hmod : ((n : ℤ) % 2^32).toNat = n := by omega
  rw [UInt32.ofInt, hmod]
  exact UInt32.toNat_ofNat_of_lt' (by change n < 2^32; omega)

/-! ## Successful writes -/

/-- From `t` to `t'`, blocks were handed out, and nothing else changed but where to search. -/
structure Grows (t t' : Tables) : Prop where
  /-- The nodes. -/
  heap : t'.heap = t.heap
  /-- The buckets. -/
  hashTable : t'.hashTable = t.hashTable
  /-- The ids in use. -/
  inodemap : t'.inodemap = t.inodemap
  /-- No block becomes free. -/
  blockmap : ∀ c, t.blockmap.bit c = true → t'.blockmap.bit c = true

theorem Grows.refl (t : Tables) : Grows t t := ⟨rfl, rfl, rfl, fun _ hc => hc⟩

theorem Grows.trans {t₁ t₂ t₃ : Tables} (h : Grows t₁ t₂) (h' : Grows t₂ t₃) : Grows t₁ t₃ :=
  ⟨h'.heap.trans h.heap, h'.hashTable.trans h.hashTable, h'.inodemap.trans h.inodemap,
    fun c hc => h'.blockmap c (h.blockmap c hc)⟩

/-- A block that is free was free before. -/
theorem Grows.free {t t' : Tables} (h : Grows t t') {c : ℕ} (hc : t'.blockmap.bit c = false) :
    t.blockmap.bit c = false := by
  by_contra hbit
  rw [h.blockmap c (by simpa using hbit)] at hc
  exact absurd hc (by simp)

theorem Fetched.grows {t t' : Tables} (h : Fetched t t' b) : Grows t t' :=
  ⟨h.heap, h.hashTable, h.inodemap, fun c hc => by rw [h.bit, hc, Bool.true_or]⟩

theorem Fetched.bit_self {t t' : Tables} (h : Fetched t t' b) : t'.blockmap.bit b = true := by
  rw [h.bit]
  simp

/-- `fetch_free_block` hands out a block, or 0 when no block is free. -/
theorem fetchFreeBlock_grows (t : Tables) : ∃ b t', t.fetchFreeBlock = (b, t') ∧ Grows t t' ∧
    ((b = 0 ∧ Full t') ∨
      (b < 2^23 ∧ t.blockmap.bit b = false ∧ t'.blockmap.bit b = true)) := by
  rcases t.fetchFreeBlock_spec with ⟨hall, hfull⟩ | ⟨b, t', hfetch, hb⟩
  · exact ⟨0, t, hfull, Grows.refl t, Or.inl ⟨rfl, hall⟩⟩
  · exact ⟨b, t', hfetch, hb.grows, Or.inr ⟨hb.lt, hb.free, hb.bit_self⟩⟩

/-- A write extended the object: its record `obj` has a table, and the new block `b`, which is 0
when no block is free. -/
structure Extended (L : Lawful σ Set.univ) (s s' : Store σ) (id k : ℕ) (data : ℕ → UInt8) (size : ℤ)
    (obj : Object) (b : ℕ) : Prop where
  /-- The block layer is in one of its states. -/
  inv : L.inv s'.layer
  /-- The nodes. -/
  heap : s'.heap = s.heap
  /-- The buckets. -/
  hashTable : s'.hashTable = s.hashTable
  /-- The ids in use. -/
  inodemap : s'.inodemap = s.inodemap
  /-- No block becomes free. -/
  blockmap : ∀ c, s.blockmap.bit c = true → s'.blockmap.bit c = true
  /-- The first write takes a block for the table. -/
  table : ((record (L.content s.layer) id).blocknum ≠ 0 ∧ obj = record (L.content s.layer) id) ∨
    (record (L.content s.layer) id).blocknum = 0 ∧ ∃ p t, s.toTables.fetchFreeBlock = (p, t) ∧
      Fetched s.toTables t p ∧ 17696 ≤ p ∧ p ≠ b ∧ s'.blockmap.bit p = true ∧
      obj = withIndirect (record (L.content s.layer) id) k p
  /-- The block of the data. -/
  new : (b = 0 ∧ Full s'.toTables) ∨ (17696 ≤ b ∧ b < 2^23 ∧ s.blockmap.bit b = false ∧
    s'.blockmap.bit b = true)
  /-- The contents. -/
  content : L.content s'.layer =
    appendTo (L.content s.layer) obj k b (Store.writeBuf data size) size

namespace Stored

theorem hasRecord {t : Tables} {D : ℕ → Block} (h : Stored t D id) : HasRecord D id :=
  ⟨h.two_le, h.lt, h.present⟩

/-- A block that was free is not reserved. -/
theorem ge_of_free {t : Tables} {D : ℕ → Block} (h : Stored t D id) {c : ℕ}
    (hc : t.blockmap.bit c = false) : 17696 ≤ c := by
  by_contra hlt
  rw [h.reserved c (by omega)] at hc
  exact absurd hc (by simp)

/-- The table for a write, when the write succeeds: that of the object, or a new block. -/
theorem indirect_cases (hinv : L.inv s.layer) (hs : Stored s.toTables (L.content s.layer) id)
    (hsize₀ : 0 ≤ size) (hoff : u32 offset / 4096 = k) {r : ℤ} (hr : 0 ≤ r)
    (hwrite : s.objstoreWrite id data size offset = some (r, s')) :
    ∃ obj t₁, (∀ layer, ({ s with layer := layer } : Store σ).indirect
        (record (L.content s.layer) id) k = (some obj, ⟨t₁, layer⟩)) ∧
      (((record (L.content s.layer) id).blocknum ≠ 0 ∧ t₁ = s.toTables ∧
          obj = record (L.content s.layer) id) ∨
        (record (L.content s.layer) id).blocknum = 0 ∧ ∃ p, s.toTables.fetchFreeBlock = (p, t₁) ∧
          Fetched s.toTables t₁ p ∧ obj = withIndirect (record (L.content s.layer) id) k p) := by
  by_cases h0 : (record (L.content s.layer) id).blocknum = 0
  · have hneeds : NeedsIndirect (record (L.content s.layer) id) k := Or.inl h0
    rcases s.toTables.fetchFreeBlock_spec with ⟨-, hfetch⟩ | ⟨p, t₁, hfetch, hp⟩
    · -- Without a table the write fails.
      obtain ⟨s₁, hfail, -⟩ : FailsCleanly L s id data size offset :=
        objstoreWrite_fails hinv hs.hasRecord hsize₀ (hoff.symm ▸ hneeds) hfetch
      rw [hwrite] at hfail
      have := congrArg Prod.fst (Option.some.inj hfail)
      omega
    · exact ⟨_, t₁, indirect_of_fetched s hneeds hfetch hp, Or.inr ⟨h0, p, hfetch, hp, rfl⟩⟩
  · exact ⟨_, s.toTables, fun layer => Store.indirect_even _ k h0 hs.even,
      Or.inl ⟨h0, rfl, rfl⟩⟩

/-- A successful write to a block that the object does not have. -/
theorem extended (hinv : L.inv s.layer) (hs : Stored s.toTables (L.content s.layer) id)
    (hsize₀ : 0 ≤ size) (hsize : size ≤ 4096) (hoff : u32 offset / 4096 = k)
    (hk : ¬k < (record (L.content s.layer) id).blocknum.toNat) {r : ℤ} (hr : 0 ≤ r)
    (hwrite : s.objstoreWrite id data size offset = some (r, s')) :
    ∃ obj b, Extended L s s' id k data size obj b := by
  obtain ⟨obj, t₁, hind, hcase⟩ := hs.indirect_cases hinv hsize₀ hoff hr hwrite
  have hobj : obj.id.toNat = id ∧ obj.blocknum = (record (L.content s.layer) id).blocknum := by
    rcases hcase with ⟨-, -, rfl⟩ | ⟨-, p, -, -, rfl⟩
    · exact ⟨hs.present, rfl⟩
    · exact ⟨hs.present, rfl⟩
  -- The table takes at most one block, and the data another one.
  have ht₁ : Grows s.toTables t₁ := by
    rcases hcase with ⟨-, rfl, -⟩ | ⟨-, p, -, hp, -⟩
    · exact Grows.refl _
    · exact hp.grows
  obtain ⟨b, t₂, hfetch, ht₂, hnew⟩ := fetchFreeBlock_grows t₁
  obtain ⟨s₁, hwrite₁, hc⟩ := Store.objstoreWrite_append data offset hinv hsize₀ hsize hs.two_le
    hs.lt hoff hs.present hind hobj.1 (by rwa [hobj.2]) hfetch
  obtain rfl : s' = s₁ := by
    rw [hwrite] at hwrite₁
    exact congrArg Prod.snd (Option.some.inj hwrite₁)
  obtain rfl : s'.toTables = t₂ := hc.tables
  have hgrows := ht₁.trans ht₂
  refine ⟨obj, b, hc.inv, hgrows.heap, hgrows.hashTable, hgrows.inodemap, hgrows.blockmap, ?_, ?_,
    hc.content⟩
  · refine hcase.imp (fun h => ⟨h.1, h.2.2⟩) ?_
    rintro ⟨h0, p, hfetch₁, hp, hobj'⟩
    refine ⟨h0, p, t₁, hfetch₁, hp, hs.ge_of_free hp.free, ?_, ht₂.blockmap p hp.bit_self, hobj'⟩
    -- The block of the table is in use when that of the data is handed out.
    rintro rfl
    rcases hnew with ⟨rfl, -⟩ | ⟨-, hbfree, -⟩
    · exact absurd hp.two_le (by norm_num)
    · rw [hp.bit_self] at hbfree
      exact absurd hbfree (by simp)
  · exact hnew.imp_right fun h =>
      ⟨hs.ge_of_free (ht₁.free h.2.1), h.1, ht₁.free h.2.1, h.2.2⟩

end Stored

namespace Extended

variable {obj : Object}

/-- The table is entered into the record, and nothing else. -/
theorem fields_eq (h : Extended L s s' id k data size obj b)
    (hs : HasRecord (L.content s.layer) id) : obj.id.toNat = id ∧
      obj.blocknum = (record (L.content s.layer) id).blocknum ∧
      obj.key = (record (L.content s.layer) id).key := by
  rcases h.table with ⟨-, rfl⟩ | ⟨-, p, t, -, -, -, -, -, rfl⟩
  · exact ⟨hs.present, rfl, rfl⟩
  · exact ⟨hs.present, rfl, rfl⟩

/-- The record after the write. -/
theorem record_eq (h : Extended L s s' id k data size obj b)
    (hs : HasRecord (L.content s.layer) id) :
    record (L.content s'.layer) id = appended obj size k := by
  have hid := (h.fields_eq hs).1
  have hself : record (appendTo (L.content s.layer) obj k b (Store.writeBuf data size) size)
      obj.id.toNat = appended obj size k := record_appendTo_self
  rwa [hid, ← h.content] at hself

/-- The data block is not the block of the record. -/
theorem ne_recordBlock (h : Extended L s s' id k data size obj b) {j : ℕ} (h₂ : 2 ≤ j)
    (hj : j < 2^20) : b ≠ recordBlock j := by
  have hblock := recordBlock_mem h₂ hj
  rw [recordBlocks, Finset.mem_Ico] at hblock
  rcases h.new with ⟨rfl, -⟩ | ⟨hge, -⟩
  · omega
  · omega

/-- The first indirect block is not reserved. -/
theorem level1_ge (h : Extended L s s' id k data size obj b)
    (hs : Stored s.toTables (L.content s.layer) id) : 17696 ≤ (obj.level1 0).toNat ∧
      s'.blockmap.bit (obj.level1 0).toNat = true := by
  rcases h.table with ⟨h0, rfl⟩ | ⟨h0, p, t, -, hp, hge, -, hbit, rfl⟩
  · exact ⟨(hs.first h0).1, h.blockmap _ (hs.first h0).2⟩
  · rw [withIndirect_level1 h0, hp.toNat]
    exact ⟨hge, hbit⟩

/-- The records of the other objects. -/
theorem record_of_ne (h : Extended L s s' id k data size obj b)
    (hs : Stored s.toTables (L.content s.layer) id) {j : ℕ} (hne : j ≠ id) (h₂ : 2 ≤ j)
    (hj : j < 2^20) : record (L.content s'.layer) j = record (L.content s.layer) j := by
  have hid := (h.fields_eq hs.hasRecord).1
  have hid₂ := hs.two_le
  have hlt := hs.lt
  rw [h.content, appendTo, hid, enter, record_setRecord_of_ne _ hid₂ (by omega) h₂ (by omega) hne,
    record_update_of_ne (h.ne_recordBlock h₂ hj), record_update_of_ge (h.level1_ge hs).1 h₂ hj]

/-- After a first write to its block 0, the object has this block, and the size of the write. -/
theorem hasBlocks {n : ℕ} (h : Extended L s s' id 0 data n obj b)
    (hs : HasRecord (L.content s.layer) id)
    (h0 : (record (L.content s.layer) id).blocknum = 0) (hn : n ≤ 4096) :
    HasBlocks (L.content s'.layer) id 1 ∧ (record (L.content s'.layer) id).size.toNat = n := by
  have hrec := h.record_eq hs
  obtain ⟨-, p, t, -, hp, hge, hne, -, rfl⟩ := h.table.resolve_left fun h' => h'.1 h0
  have hlevel := withIndirect_level1 h0 0 p
  have hpnat := hp.toNat
  have hblocknum : (record (L.content s'.layer) id).blocknum = 2 := by
    rw [hrec, appended, withIndirect, h0]
    rfl
  have hlevel' : (record (L.content s'.layer) id).level1 0 = UInt32.ofNat p := by
    rw [hrec, ← hlevel]
    rfl
  have hblock := recordBlock_mem hs.two_le hs.lt
  rw [recordBlocks, Finset.mem_Ico] at hblock
  have hlt : b < 2^32 := by
    rcases h.new with ⟨rfl, -⟩ | ⟨-, hlt, -⟩
    · norm_num
    · omega
  -- The entry 0 of the table was set to the new block.
  have htarget : target (L.content s'.layer) (record (L.content s'.layer) id) 0 = b := by
    have hid : (withIndirect (record (L.content s.layer) id) 0 p).id.toNat = id := hs.present
    have hzero : (withIndirect (record (L.content s.layer) id) 0 p).blocknum = 0 := h0
    rw [target, level_of_lt (by norm_num), hlevel', ← hlevel, h.content,
      appendTo_indirect (by rw [hlevel, hpnat, hid]; omega) (by rw [hlevel, hpnat]; exact hne),
      hzero, UInt32.toNat_zero, Block.entry_setEntry_self _ (by norm_num)]
    exact UInt32.toNat_ofNat_of_lt' hlt
  refine ⟨⟨⟨hs.two_le, hs.lt, ?_⟩, ?_, ⟨fun i hi j hj _ => by omega, fun i hi j hj => ?_⟩,
    fun i hi => ?_⟩, ?_⟩
  · rw [hrec]
    exact hs.present
  · rw [hblocknum]
    decide
  · obtain rfl : i = 0 := by omega
    obtain rfl : j = 0 := by omega
    rw [htarget, level_of_lt (by norm_num), hlevel', hpnat]
    exact hne.symm
  · obtain rfl : i = 0 := by omega
    rw [htarget]
    exact h.ne_recordBlock hs.two_le hs.lt
  · rw [hrec, appended, Store.newSize, if_pos (by dsimp only [withIndirect]; rw [h0]; decide)]
    exact toNat_ofInt_of_le hn

end Extended

/-! ## The reported size -/

theorem fillupSizeDetails_spec (hinv : L.inv s.layer) (h : HasRecord (L.content s.layer) id) :
    Reports s id (record (L.content s.layer) id).size.toNat := by
  rintro buf rfl
  obtain ⟨s', hget, -⟩ := Store.getObjectById_spec hinv buf.stIno (Set.mem_univ _)
  rw [if_pos h.present] at hget
  refine ⟨(record (L.content s.layer) buf.stIno).blocknum.toNat, s', ?_⟩
  have h₂ := h.two_le
  unfold Store.fillupSizeDetails
  rw [hget]
  simp only [Option.bind_eq_bind, Option.bind_some]
  rw [if_neg (by omega)]
  rfl

/-! ## Runs -/

/-- A successful write in place keeps the invariant. -/
theorem SizeInv.step (h : SizeInv L id s ops) (hop : InPlace L id s op)
    (hwrite : s.sizedStep id op = some ((op.size : ℤ), s')) : SizeInv L id s' (ops ++ [op]) := by
  obtain ⟨data, size, offset⟩ := op
  obtain ⟨hinv, hcase⟩ := h
  obtain ⟨hsize, hoff, hlong⟩ := hop
  dsimp only at hsize hoff hlong
  subst hoff
  change s.objstoreWrite id data size 0 = some ((size : ℤ), s') at hwrite
  have hk : u32 0 / 4096 = 0 := by decide
  rcases hcase with ⟨rfl, hs⟩ | ⟨hb, hext⟩
  · obtain ⟨obj, b, hfirst⟩ := hs.stored.extended hinv (Int.natCast_nonneg size) (by omega) hk
      (by rw [hs.blocknum]; simp) (Int.natCast_nonneg size) hwrite
    obtain ⟨hblocks, hnew⟩ := hfirst.hasBlocks hs.stored.hasRecord hs.blocknum hsize
    refine ⟨hfirst.inv, Or.inr ⟨hblocks, ?_⟩⟩
    rw [hnew, extent_concat]
    simp [extent]
  · have hpos := hb.blocknum
    have hle : size ≤ (record (L.content s.layer) id).size.toNat := hlong.resolve_left fun h0 => by
      rw [h0] at hpos
      exact absurd hpos (by decide)
    obtain ⟨s₁, hwrite₁, hc⟩ := Store.objstoreWrite_overwrite data 0 hinv (Int.natCast_nonneg size)
      (by omega) hb.two_le hb.lt hk hb.present hpos
    obtain rfl : s' = s₁ := by simpa using hwrite.symm.trans hwrite₁
    have hrec := hb.record_update one_pos (Store.writeBuf data size)
    have hblocks := hb.update one_pos (Store.writeBuf data size)
    rw [← hc.content] at hrec hblocks
    refine ⟨hc.inv, Or.inr ⟨hblocks, ?_⟩⟩
    rw [hrec, hext, extent_concat]
    dsimp only
    omega

theorem SizeInv.reports (h : SizeInv L id s ops) : Reports s id (extent ops) := by
  obtain ⟨hinv, ⟨rfl, hs⟩ | ⟨hb, hext⟩⟩ := h
  · have hreports := fillupSizeDetails_spec hinv hs.stored.hasRecord
    rwa [hs.size] at hreports
  · exact hext ▸ fillupSizeDetails_spec hinv hb.toHasRecord

/-- After every run of successful writes in place to an object that was not written before, the
reported size is the extent of the writes. -/
theorem size_is_extent {σ : Type} [BlockLayer σ] (L : Lawful σ Set.univ) (s s' : Store σ) (id : ℕ)
    (ops : List SizedWrite) (hist : List (SizedWrite × ℤ)) (hinv : L.inv s.layer)
    (hs : Unwritten L s id)
    (hops : Run.Along (Store.sizedStep id) (InPlace L id) s ops)
    (hrun : Run.run (Store.sizedStep id) s ops = some (hist, s'))
    (hok : ∀ e ∈ hist, e.2 = e.1.size) : Reports s' id (extent ops) := by
  have h := Run.of_run (h := [])
    (fun s hist => (∀ e ∈ hist, e.2 = (e.1.size : ℤ)) → SizeInv L id s (hist.map Prod.fst))
    (fun s hist op r s' hR hop hstep hok => ?_) (fun _ => ⟨hinv, Or.inl ⟨rfl, hs⟩⟩) hops hrun
  · rw [List.nil_append, Run.map_fst_of_run hrun] at h
    exact (h hok).reports
  · have hr : r = (op.size : ℤ) := hok (op, r) (by simp)
    rw [List.map_append]
    exact (hR fun e he => hok e (List.mem_append_left _ he)).step hop (hr ▸ hstep)

/-! ## Two writes to a new object -/

/-- Two writes of `m` and `n` bytes to the first object of a new store. The size is that of the
first. -/
theorem Fresh.writtenTwice {t : Tables} (ht : Fresh t) {layer : σ} (hl : L.inv layer)
    (data : ℕ → UInt8) {m n : ℕ} (hm : m ≤ 4096) (hn : n ≤ 4096) :
    ∃ s s₁ s', (⟨t, layer⟩ : Store σ).createObject [97] = some (2, s) ∧ L.inv s.layer ∧
      Unwritten L s 2 ∧ s.sizedStep 2 ⟨data, m, 0⟩ = some ((m : ℤ), s₁) ∧
      (record (L.content s₁.layer) 2).size.toNat = m ∧
      s₁.sizedStep 2 ⟨data, n, 0⟩ = some ((n : ℤ), s') ∧ Reports s' 2 m := by
  have hkey : KeyOk [97] := by decide
  obtain ⟨s, B, hcreate, hnames, hc, -⟩ := ht.createObject hl (fun b _ => Set.mem_univ b) hkey
  obtain ⟨s₀, hcreate₀, hstored, hinv, h0, hfree, -⟩ := ht.createStored hl hkey
  obtain rfl : s = s₀ := by simpa using hcreate.symm.trans hcreate₀
  have hsize : (record (L.content s.layer) 2).size = 0 := by
    rw [hc.record_self, newObject_eq hkey.1]
  have hs : Unwritten L s 2 := ⟨hstored, h0, hsize⟩
  -- There is a free block for the table, so that the first write succeeds.
  obtain ⟨p, t₁, hfetch, hp, -⟩ := (hfree 1 (by norm_num)).next
  have hk : u32 0 / 4096 = 0 := by decide
  obtain ⟨s₁, hwrite₁⟩ := objstoreWrite_returns data hinv hstored.hasRecord
    (Int.natCast_nonneg m) (by omega) (indirect_of_fetched s (Or.inl h0) hfetch hp) rfl rfl
  obtain ⟨obj, b, hfirst⟩ := hstored.extended hinv (Int.natCast_nonneg m) (by omega) hk
    (by rw [h0]; simp) (Int.natCast_nonneg m) hwrite₁
  obtain ⟨hblocks, hm'⟩ := hfirst.hasBlocks hstored.hasRecord h0 hm
  -- The second write overwrites the block.
  obtain ⟨s', hwrite, hcalls⟩ := Store.objstoreWrite_overwrite data 0 hfirst.inv
    (Int.natCast_nonneg n) (by omega) hblocks.two_le hblocks.lt hk hblocks.present hblocks.blocknum
  have hblocks' := hblocks.update one_pos (Store.writeBuf data n)
  have hrec := hblocks.record_update one_pos (Store.writeBuf data n)
  rw [← hcalls.content] at hblocks' hrec
  refine ⟨s, s₁, s', hcreate, hinv, hs, hwrite₁, hm', hwrite, ?_⟩
  rw [← hm', ← hrec]
  exact fillupSizeDetails_spec hcalls.inv hblocks'.toHasRecord

/-- Three bytes over the first of five. -/
theorem size_is_extent_three :
    ∃ d' t, objstoreInit Cache.zeroDisk (Tables.new Allocator.bump) = some (0, d', t) ∧
      ∃ s s', (⟨t, ⟨fun _ => Block.zero⟩⟩ : Store Plain).createObject [97] = some (2, s) ∧
        Run.run (Store.sizedStep 2) s [⟨fun _ => 1, 5, 0⟩, ⟨fun _ => 1, 3, 0⟩] =
          some ([(⟨fun _ => 1, 5, 0⟩, 5), (⟨fun _ => 1, 3, 0⟩, 3)], s') ∧ Reports s' 2 5 := by
  obtain ⟨d', t, hinit, -⟩ := mount_zeroDisk
  obtain ⟨-, hfresh⟩ := objstoreInit_fresh (fun _ _ => rfl) hinit
  obtain ⟨s, s₁, s', hcreate, -, hs, hfirst, hsize, hsecond, -⟩ :=
    hfresh.writtenTwice (L := Plain.lawful) trivial (fun _ => 1) (m := 5) (n := 3) (by norm_num)
      (by norm_num)
  have hrun : Run.run (Store.sizedStep 2) s [⟨fun _ => 1, 5, 0⟩, ⟨fun _ => 1, 3, 0⟩] =
      some ([(⟨fun _ => 1, 5, 0⟩, 5), (⟨fun _ => 1, 3, 0⟩, 3)], s') :=
    Run.run_cons hfirst (Run.run_cons hsecond rfl)
  refine ⟨d', t, hinit, s, s', hcreate, hrun, ?_⟩
  have hlong : 3 ≤ (record (Plain.lawful.content s₁.layer) 2).size.toNat := by omega
  refine size_is_extent Plain.lawful s s' 2 [⟨fun _ => 1, 5, 0⟩, ⟨fun _ => 1, 3, 0⟩] _ trivial hs
    ⟨⟨by norm_num, rfl, Or.inl hs.blocknum⟩, fun r s₂ hstep => ⟨⟨by norm_num, rfl, Or.inr ?_⟩,
      fun _ _ _ => trivial⟩⟩ hrun (by simp)
  obtain ⟨-, rfl⟩ : 5 = r ∧ s₁ = s₂ := by simpa using hfirst.symm.trans hstep
  exact hlong

/-- Five bytes over the only one. -/
theorem size_not_extent :
    ∃ d' t, objstoreInit Cache.zeroDisk (Tables.new Allocator.bump) = some (0, d', t) ∧
      ∃ s s', (⟨t, ⟨fun _ => Block.zero⟩⟩ : Store Plain).createObject [97] = some (2, s) ∧
        Run.run (Store.sizedStep 2) s [⟨fun _ => 1, 1, 0⟩, ⟨fun _ => 1, 5, 0⟩] =
          some ([(⟨fun _ => 1, 1, 0⟩, 1), (⟨fun _ => 1, 5, 0⟩, 5)], s') ∧
        ¬Reports s' 2 (extent [⟨fun _ => 1, 1, 0⟩, ⟨fun _ => 1, 5, 0⟩]) := by
  obtain ⟨d', t, hinit, -⟩ := mount_zeroDisk
  obtain ⟨-, hfresh⟩ := objstoreInit_fresh (fun _ _ => rfl) hinit
  obtain ⟨s, s₁, s', hcreate, -, -, hfirst, -, hsecond, hreports⟩ :=
    hfresh.writtenTwice (L := Plain.lawful) trivial (fun _ => 1) (m := 1) (n := 5) (by norm_num)
      (by norm_num)
  refine ⟨d', t, hinit, s, s', hcreate, Run.run_cons hfirst (Run.run_cons hsecond rfl),
    fun hextent => ?_⟩
  obtain ⟨n, s₂, h₂⟩ := hreports ⟨2, 0, 0⟩ rfl
  obtain ⟨n', s₃, h₃⟩ := hextent ⟨2, 0, 0⟩ rfl
  rw [h₂] at h₃
  have hsizes := congrArg (fun r => r.2.1.stSize) (Option.some.inj h₃)
  change 1 = extent _ at hsizes
  exact absurd hsizes (by decide)

end GemOS.Objstore
