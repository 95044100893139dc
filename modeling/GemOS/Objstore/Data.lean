import GemOS.Objstore.Mount

/-!
# Writing and reading data

`objstore_write` of one block, over a lawful block layer. When the object has block `k`, the block
that the entry `k` of its indirect block names is written (`objstoreWrite_overwrite`). Otherwise a
block is appended (`objstoreWrite_append`): a new block is entered into the first indirect block at
the index `blocknum`, and the record is written with a `blocknum` that is larger by two.
`find_read_cached` follows the same entry.
-/

namespace GemOS.Objstore

/-! ## What a write does to the contents -/

/-- The block that the table of `obj` names for its block `k`. -/
def target (D : ℕ → Block) (obj : Object) (k : ℕ) : ℕ :=
  ((D (obj.level1 (Store.level k)).toNat).entry (k % 1024)).toNat

/-- The record after a block was appended. -/
def appended (obj : Object) (size : ℤ) (k : ℕ) : Object :=
  { obj with
    blocknum := obj.blocknum + 1 + 1
    size := Store.newSize { obj with blocknum := obj.blocknum + 1 } size k }

/-- The contents after the new block `b` was entered into the table that is read for block `k`, and
written. -/
def enter (D : ℕ → Block) (obj : Object) (k b : ℕ) (buf : Block) : ℕ → Block :=
  Function.update (Function.update D (obj.level1 0).toNat
    ((D (obj.level1 (Store.level k)).toNat).setEntry (obj.blocknum.toNat % 1024) (UInt32.ofNat b)))
      b buf

/-- The contents after a block was appended. -/
def appendTo (D : ℕ → Block) (obj : Object) (k b : ℕ) (buf : Block) (size : ℤ) : ℕ → Block :=
  setRecord (enter D obj k b buf) obj.id.toNat (appended obj size k)

section Contents

variable {D : ℕ → Block} {obj : Object} {id k b c : ℕ} {buf : Block} {size : ℤ}

theorem record_update_of_ge (hb : 17696 ≤ b) (h₂ : 2 ≤ id) (hid : id < 2^20) (D : ℕ → Block)
    (buf : Block) : record (Function.update D b buf) id = record D id := by
  have hrec := recordBlock_mem h₂ hid
  rw [recordBlocks, Finset.mem_Ico] at hrec
  unfold record
  rw [Function.update_of_ne (by omega)]

/-- The record of the object. -/
theorem record_appendTo_self :
    record (appendTo D obj k b buf size) obj.id.toNat = appended obj size k :=
  record_setRecord_self _ _ _

/-- The records of other objects. -/
theorem record_appendTo_of_ne (h₂ : 2 ≤ obj.id.toNat) (hid : obj.id.toNat < 2^20) (hc₂ : 2 ≤ c)
    (hc : c < 2^20) (hne : c ≠ obj.id.toNat) (hb : 17696 ≤ b) (hp : 17696 ≤ (obj.level1 0).toNat) :
    record (appendTo D obj k b buf size) c = record D c := by
  unfold appendTo enter
  rw [record_setRecord_of_ne _ h₂ (by omega) hc₂ (by omega) hne, record_update_of_ge hb hc₂ hc,
    record_update_of_ge hp hc₂ hc]

/-- The new block. -/
theorem appendTo_new (hb : b ≠ recordBlock obj.id.toNat) : appendTo D obj k b buf size b = buf := by
  rw [appendTo, setRecord_of_not_mem _ hb, enter, Function.update_self]

/-- The first indirect block. -/
theorem appendTo_indirect (hp : (obj.level1 0).toNat ≠ recordBlock obj.id.toNat)
    (hpb : (obj.level1 0).toNat ≠ b) : appendTo D obj k b buf size (obj.level1 0).toNat =
      (D (obj.level1 (Store.level k)).toNat).setEntry (obj.blocknum.toNat % 1024)
      (UInt32.ofNat b) := by
  rw [appendTo, setRecord_of_not_mem _ hp, enter, Function.update_of_ne hpb, Function.update_self]

/-- The other blocks. -/
theorem appendTo_of_ne (hc : c ≠ recordBlock obj.id.toNat) (hcb : c ≠ b)
    (hcp : c ≠ (obj.level1 0).toNat) : appendTo D obj k b buf size c = D c := by
  rw [appendTo, setRecord_of_not_mem _ hc, enter, Function.update_of_ne hcb,
    Function.update_of_ne hcp]

/-- The block of the record changes in the slot of the record only. -/
theorem byte_appendTo_of_ne {i : ℕ} (hi : i < 4096) (hslot : i / 64 ≠ recordSlot obj.id.toNat)
    (hb : recordBlock obj.id.toNat ≠ b) (hp : recordBlock obj.id.toNat ≠ (obj.level1 0).toNat) :
    (appendTo D obj k b buf size (recordBlock obj.id.toNat)).byte i =
      (D (recordBlock obj.id.toNat)).byte i := by
  rw [appendTo, setRecord, Function.update_self, Block.byte_setObject_of_ne _ hi hslot, enter,
    Function.update_of_ne hb, Function.update_of_ne hp]

end Contents

/-- A free block that `fetch_free_block` hands out. -/
structure Fetched (t t' : Tables) (b : ℕ) : Prop where
  /-- The blocks 0 and 1 are not handed out. -/
  two_le : 2 ≤ b
  /-- There are 8 * 2^20 bits. -/
  lt : b < 2^23
  /-- The block was free. -/
  free : t.blockmap.bit b = false
  /-- It is in use now. -/
  bit : ∀ i, t'.blockmap.bit i = (t.blockmap.bit i || decide (i = b))
  /-- The nodes are unchanged. -/
  heap : t'.heap = t.heap
  /-- The buckets are unchanged. -/
  hashTable : t'.hashTable = t.hashTable
  /-- The ids are unchanged. -/
  inodemap : t'.inodemap = t.inodemap
  /-- The search for a free id is unchanged. -/
  inodeBitItr : t'.inodeBitItr = t.inodeBitItr

/-- What `fetch_free_block` does. -/
theorem Tables.fetchFreeBlock_spec (t : Tables) :
    ((∀ b, 2 ≤ b → b < 2^23 → t.blockmap.bit b = true) ∧ t.fetchFreeBlock = (0, t)) ∨
      ∃ b t', t.fetchFreeBlock = (b, t') ∧ Fetched t t' b := by
  unfold Tables.fetchFreeBlock
  rcases ByteMap.fetchFree_spec (n := 2^20) (by norm_num) t.blockmap t.blockBitItr with
    ⟨hall, heq⟩ | ⟨b, map, heq, h₂, hlt, hfree, hbit⟩
  · rw [heq]
    exact Or.inl ⟨fun b hb hlt => hall b hb (by omega), rfl⟩
  · rw [heq]
    exact Or.inr ⟨b, _, rfl, h₂, by omega, hfree, hbit, rfl, rfl, rfl, rfl⟩

/-- A block is handed out when one is free. -/
theorem Tables.fetchFreeBlock_of_free {t : Tables} {b : ℕ} (h₂ : 2 ≤ b) (hb : b < 2^23)
    (hfree : t.blockmap.bit b = false) : ∃ b t', t.fetchFreeBlock = (b, t') ∧ Fetched t t' b := by
  rcases t.fetchFreeBlock_spec with ⟨hall, -⟩ | hfetch
  · rw [hall b h₂ hb] at hfree
    exact absurd hfree (by simp)
  · exact hfetch

theorem Fetched.toNat {t t' : Tables} {b : ℕ} (h : Fetched t t' b) :
    (UInt32.ofNat b).toNat = b := by
  have hlt := h.lt
  exact UInt32.toNat_ofNat_of_lt' (by change b < 2^32; omega)

/-- The object exists. -/
def InUse (t : Tables) (objid : ℤ) : Prop :=
  2 ≤ objid ∧ objid < 2^20 ∧ t.inodemap.bit objid.toNat = true

/-- Two blocks are free. -/
def TwoFree (t : Tables) : Prop :=
  ∃ a b, a ≠ b ∧ (2 ≤ a ∧ a < 2^23 ∧ t.blockmap.bit a = false) ∧
    2 ≤ b ∧ b < 2^23 ∧ t.blockmap.bit b = false

/-- What an append to an object takes from the free blocks. -/
def Room (t : Tables) (obj : Object) : Prop :=
  if obj.blocknum = 0 then TwoFree t else ∃ b, 2 ≤ b ∧ b < 2^23 ∧ t.blockmap.bit b = false

/-- The object `obj` with its first indirect block, which is new when it had no blocks. -/
structure Prepared (t t' : Tables) (obj obj' : Object) : Prop where
  /-- The indirect block is new, or the object had one. -/
  first : (obj.blocknum = 0 ∧ Fetched t t' (obj'.level1 0).toNat) ∨
    (obj.blocknum ≠ 0 ∧ t' = t ∧ obj' = obj)
  /-- The id. -/
  id : obj'.id = obj.id
  /-- The number of blocks. -/
  blocknum : obj'.blocknum = obj.blocknum

namespace Store

variable {σ : Type} [BlockLayer σ] {L : Lawful σ Set.univ} {s s' s₁ s₂ : Store σ}
  {obj obj' : Object} {buf : ℕ → UInt8} {size offset : ℤ} {k b : ℕ}

omit [BlockLayer σ] in
/-- An object that has block `k` keeps its indirect blocks. -/
theorem indirect_of_lt (s : Store σ) (hk : k < obj.blocknum.toNat) :
    s.indirect obj k = (some obj, s) := by
  have h0 : obj.blocknum ≠ 0 := by
    rintro h
    rw [h] at hk
    exact absurd hk (by simp)
  unfold indirect
  dsimp only
  rw [if_neg h0]
  dsimp only
  rw [if_neg]
  rintro (⟨rfl, h⟩ | ⟨rfl, h⟩ | ⟨rfl, h⟩) <;> rw [h] at hk <;> exact absurd hk (by decide)

omit [BlockLayer σ] in
/-- The first block of an object gets an indirect block. -/
theorem indirect_first (s : Store σ) (k : ℕ) (h0 : obj.blocknum = 0) {t : Tables}
    (hfetch : s.toTables.fetchFreeBlock = (b, t)) (hb : b ≠ 0) : s.indirect obj k =
      (some { obj with level1 := Function.update obj.level1 0 (UInt32.ofNat b) },
        { s with toTables := t }) := by
  have hfetch' : s.fetchFreeBlock = (b, { s with toTables := t }) := by
    unfold fetchFreeBlock
    rw [hfetch]
  unfold indirect
  dsimp only
  rw [if_pos h0, hfetch']
  dsimp only
  rw [if_neg hb]
  dsimp only
  rw [if_neg (by rw [h0]; simp)]

omit [BlockLayer σ] in
/-- The first block of an object when the disk is full. -/
theorem indirect_full (s : Store σ) (k : ℕ) (h0 : obj.blocknum = 0) {t : Tables}
    (hfetch : s.toTables.fetchFreeBlock = (0, t)) :
    s.indirect obj k = (none, { s with toTables := t }) := by
  have hfetch' : s.fetchFreeBlock = (0, { s with toTables := t }) := by
    unfold fetchFreeBlock
    rw [hfetch]
  unfold indirect
  dsimp only
  rw [if_pos h0, hfetch']
  rfl

omit [BlockLayer σ] in
/-- The other indirect blocks are allocated for an odd number of blocks only. -/
theorem indirect_even (s : Store σ) (k : ℕ) (h0 : obj.blocknum ≠ 0)
    (heven : obj.blocknum.toNat % 2 = 0) : s.indirect obj k = (some obj, s) := by
  unfold indirect
  dsimp only
  rw [if_neg h0]
  dsimp only
  rw [if_neg]
  rintro (⟨-, h⟩ | ⟨-, h⟩ | ⟨-, h⟩) <;> rw [h] at heven <;> exact absurd heven (by decide)

/-- `find_write_cached` once it has the indirect blocks. -/
theorem findWriteCached_some (hsize₀ : 0 ≤ size) {off : ℕ}
    (hoff : off / 4096 = k) (hind : s.indirect obj k = (some obj', s₁)) :
    s.findWriteCached obj buf size off =
      (s₁.readBlock (obj'.level1 (level k)).toNat Block.zero).bind fun (_, level1Ptr, s) =>
        if k < obj'.blocknum.toNat then
          (memcpyWriteBuf buf size).bind fun buf =>
            (s.writeBlock (level1Ptr.entry (k % 1024)).toNat buf).bind fun (r, s) =>
              if r ≠ 0 then some (-1, s) else some (size, s)
        else s.append obj' level1Ptr buf size k := by
  unfold findWriteCached
  rw [if_neg (by omega), hoff]
  dsimp only
  rw [hind]
  rfl

/-- `find_write_cached` when there is no block for an indirect block. -/
theorem findWriteCached_none {off : ℕ} (hsize₀ : 0 ≤ size) (hoff : off / 4096 = k)
    (hind : s.indirect obj k = (none, s₁)) :
    s.findWriteCached obj buf size off = some (-1, s₁) := by
  unfold findWriteCached
  rw [if_neg (by omega), hoff]
  dsimp only
  rw [hind]
  rfl

omit [BlockLayer σ] in
/-- The allocation of an indirect block does not call the block layer. -/
theorem indirect_layer (s : Store σ) (obj : Object) (k : ℕ) :
    (s.indirect obj k).2.layer = s.layer := by
  unfold indirect fetchFreeBlock
  dsimp only
  split_ifs
  · rfl
  all_goals
    dsimp only
    split_ifs <;> rfl

/-- `find_write_cached` of more than a block, once it has the indirect blocks, overruns
`write_buf`. -/
theorem findWriteCached_large (h : L.inv s.layer) (hsize : 4096 < size) {off : ℕ}
    (hoff : off / 4096 = k) (hind : s.indirect obj k = (some obj', s₁)) :
    s.findWriteCached obj buf size off = none := by
  have hnone : memcpyWriteBuf buf size = none := if_neg (by omega)
  have h₁ : L.inv s₁.layer := by
    rw [← s.indirect_layer obj k, hind] at h
    exact h
  obtain ⟨r, s₂, hread, hc₂⟩ := readBlock_spec h₁
    (Set.mem_univ (obj'.level1 (level k)).toNat) Block.zero
  rw [findWriteCached_some (by omega) hoff hind, hread, Option.bind_some]
  dsimp only
  split_ifs
  · rw [hnone]
    rfl
  · -- The entry of the indirect block is written before the data are copied.
    have h₂ : L.inv s₂.fetchFreeBlock.2.layer := hc₂.inv
    obtain ⟨s₃, hwrite, -⟩ := writeBlock_spec h₂ (Set.mem_univ (obj'.level1 0).toNat)
      ((L.content s₁.layer (obj'.level1 (level k)).toNat).setEntry (obj'.blocknum.toNat % 1024)
        (UInt32.ofNat s₂.fetchFreeBlock.1))
    unfold append
    dsimp only
    rw [hwrite]
    simp only [Option.bind_eq_bind, Option.bind_some, hnone]
    rfl

/-- `find_write_cached` for a block that the object has. -/
theorem findWriteCached_overwrite (buf : ℕ → UInt8) (h : L.inv s.layer) (hsize₀ : 0 ≤ size)
    (hsize : size ≤ 4096) {off : ℕ} (hoff : off / 4096 = k) (hk : k < obj.blocknum.toNat) :
    ∃ s', s.findWriteCached obj buf size off = some (size, s') ∧
      Calls L s s' (Function.update (L.content s.layer) (target (L.content s.layer) obj k)
        (writeBuf buf size)) := by
  obtain ⟨r, s₁, hread, hc₁⟩ := readBlock_spec h
    (Set.mem_univ (obj.level1 (level k)).toNat) Block.zero
  obtain ⟨s₂, hwrite, hc₂⟩ := writeBlock_spec hc₁.inv
    (Set.mem_univ (target (L.content s.layer) obj k)) (writeBuf buf size)
  rw [hc₁.content] at hc₂
  refine ⟨s₂, ?_, hc₁.trans hc₂⟩
  rw [findWriteCached_some hsize₀ hoff (s.indirect_of_lt hk), hread, Option.bind_some]
  dsimp only
  rw [if_pos hk, ← target, memcpyWriteBuf, if_pos hsize, Option.bind_some, hwrite]
  rfl

/-- The end of `find_write_cached` for a block that the object does not have. -/
theorem append_spec (h : L.inv s.layer) {t : Tables} (hfetch : s.toTables.fetchFreeBlock = (b, t))
    (hid : 2 ≤ obj.id.toNat) (level1Ptr : Block) (buf : ℕ → UInt8) (hsize : size ≤ 4096) (k : ℕ) :
    ∃ s', s.append obj level1Ptr buf size k = some (size, s') ∧
      Calls L { s with toTables := t } s' (setRecord (Function.update (Function.update
        (L.content s.layer) (obj.level1 0).toNat
        (level1Ptr.setEntry (obj.blocknum.toNat % 1024) (UInt32.ofNat b))) b (writeBuf buf size))
        obj.id.toNat (appended obj size k)) := by
  obtain ⟨s₁, hwrite₁, hc₁⟩ := writeBlock_spec (s := { s with toTables := t }) h
    (Set.mem_univ (obj.level1 0).toNat)
    (level1Ptr.setEntry (obj.blocknum.toNat % 1024) (UInt32.ofNat b))
  obtain ⟨s₂, hwrite₂, hc₂⟩ := writeBlock_spec hc₁.inv (Set.mem_univ b) (writeBuf buf size)
  have hid' : (appended obj size k).id.toNat = obj.id.toNat := rfl
  obtain ⟨s₃, hdisk, hc₃⟩ := insertToDisk_spec hc₂.inv (appended obj size k)
    (by rwa [hid']) (Set.mem_univ _)
  rw [hid', hc₂.content, hc₁.content] at hc₃
  refine ⟨s₃, ?_, (hc₁.trans hc₂).trans hc₃⟩
  have hfetch' : s.fetchFreeBlock = (b, { s with toTables := t }) := by
    unfold fetchFreeBlock
    rw [hfetch]
  unfold append
  rw [hfetch']
  dsimp only
  rw [hwrite₁]
  simp only [Option.bind_eq_bind, Option.bind_some]
  rw [if_neg (by norm_num), memcpyWriteBuf, if_pos hsize, Option.bind_some, hwrite₂]
  simp only [Option.bind_some]
  rw [if_neg (by norm_num)]
  unfold appended at hdisk
  rw [hdisk]
  rfl

/-- `find_write_cached` for a block that the object does not have. -/
theorem findWriteCached_append (buf : ℕ → UInt8) (h : L.inv s.layer) (hsize₀ : 0 ≤ size)
    (hsize : size ≤ 4096) {off : ℕ} (hoff : off / 4096 = k) {t₁ t₂ : Tables}
    (hind : s.indirect obj k = (some obj', { s with toTables := t₁ }))
    (hk : ¬k < obj'.blocknum.toNat) (hid : 2 ≤ obj'.id.toNat)
    (hfetch : t₁.fetchFreeBlock = (b, t₂)) :
    ∃ s', s.findWriteCached obj buf size off = some (size, s') ∧
      Calls L { s with toTables := t₂ } s'
      (appendTo (L.content s.layer) obj' k b (writeBuf buf size) size) := by
  obtain ⟨r, s₁, hread, hc₁⟩ := readBlock_spec (s := { s with toTables := t₁ }) h
    (Set.mem_univ (obj'.level1 (level k)).toNat) Block.zero
  have htables : s₁.toTables = t₁ := hc₁.tables
  rw [← htables] at hfetch
  obtain ⟨s₂, happend, hc₂⟩ := append_spec hc₁.inv hfetch hid
    (L.content s.layer (obj'.level1 (level k)).toNat) buf hsize k
  rw [hc₁.content] at hc₂
  refine ⟨s₂, ?_, hc₂.tables, hc₂.inv, hc₂.content⟩
  rw [findWriteCached_some hsize₀ hoff hind, hread, Option.bind_some]
  dsimp only
  rw [if_neg hk, happend]

/-! ## The calls -/

/-- `objstore_write` to an object with a record. -/
theorem objstoreWrite_eq (h : L.inv s.layer) {id : ℕ} (hid : 2 ≤ id) (hid' : id < 2^20)
    (hrec : (record (L.content s.layer) id).id.toNat = id) (buf : ℕ → UInt8) (size offset : ℤ) :
    ∃ s₁, Calls L s s₁ (L.content s.layer) ∧ s.objstoreWrite id buf size offset =
      (s₁.findWriteCached (record (L.content s.layer) id) buf size (u32 offset)).bind
        fun (r, s) => if r < 0 then some (-1, s) else some (size, s) := by
  obtain ⟨s₁, hget, hc₁⟩ := getObjectById_spec h id (Set.mem_univ _)
  rw [if_pos hrec] at hget
  have hu : u64 (id : ℤ) = id := by
    unfold u64
    omega
  refine ⟨s₁, hc₁, ?_⟩
  unfold objstoreWrite
  rw [hu, hget]
  simp only [Option.bind_eq_bind, Option.bind_some]
  rw [if_neg (by omega)]
  rfl

/-- Once it has its indirect blocks, `objstore_write` returns for at most one block only. -/
theorem size_le_of_objstoreWrite (h : L.inv s.layer) {id : ℕ}
    (hrec : HasRecord (L.content s.layer) id) {t₁ : Tables}
    (hind : ∀ layer, ({ s with layer := layer } : Store σ).indirect
      (record (L.content s.layer) id) (u32 offset / 4096) = (some obj', ⟨t₁, layer⟩)) {r : ℤ}
    (hwrite : s.objstoreWrite id buf size offset = some (r, s')) : size ≤ 4096 := by
  by_contra hsize
  obtain ⟨s₁, hc, heq⟩ := objstoreWrite_eq h hrec.two_le hrec.lt hrec.present buf size offset
  have hs₁ : s₁ = { s with layer := s₁.layer } := by
    rw [← hc.tables]
  rw [heq, findWriteCached_large hc.inv (by omega) rfl (by rw [hs₁]; exact hind s₁.layer)] at hwrite
  exact absurd hwrite (by simp)

/-- `objstore_write` of a block that the object has. -/
theorem objstoreWrite_overwrite (buf : ℕ → UInt8) (offset : ℤ) (h : L.inv s.layer)
    (hsize₀ : 0 ≤ size) (hsize : size ≤ 4096) {id : ℕ} (hid : 2 ≤ id) (hid' : id < 2^20)
    (hoff : u32 offset / 4096 = k) (hrec : (record (L.content s.layer) id).id.toNat = id)
    (hk : k < (record (L.content s.layer) id).blocknum.toNat) :
    ∃ s', s.objstoreWrite id buf size offset = some (size, s') ∧
      Calls L s s' (Function.update (L.content s.layer)
        (target (L.content s.layer) (record (L.content s.layer) id) k) (writeBuf buf size)) := by
  obtain ⟨s₁, hc₁, heq⟩ := objstoreWrite_eq h hid hid' hrec buf size offset
  obtain ⟨s₂, hwrite, hc₂⟩ := findWriteCached_overwrite buf hc₁.inv hsize₀ hsize hoff hk
  rw [hc₁.content] at hc₂
  refine ⟨s₂, ?_, hc₁.trans hc₂⟩
  rw [heq, hwrite, Option.bind_some]
  exact if_neg (by omega)

/-- `objstore_write` of a block that the object does not have. -/
theorem objstoreWrite_append (buf : ℕ → UInt8) (offset : ℤ) (h : L.inv s.layer)
    (hsize₀ : 0 ≤ size) (hsize : size ≤ 4096) {id : ℕ} (hid : 2 ≤ id) (hid' : id < 2^20)
    (hoff : u32 offset / 4096 = k)
    (hrec : (record (L.content s.layer) id).id.toNat = id) {t₁ t₂ : Tables}
    (hind : ∀ layer, ({ s with layer := layer } : Store σ).indirect
      (record (L.content s.layer) id) k = (some obj', ⟨t₁, layer⟩)) (hobj : obj'.id.toNat = id)
    (hk : ¬k < obj'.blocknum.toNat) (hfetch : t₁.fetchFreeBlock = (b, t₂)) :
    ∃ s', s.objstoreWrite id buf size offset = some (size, s') ∧
      Calls L { s with toTables := t₂ } s'
      (appendTo (L.content s.layer) obj' k b (writeBuf buf size) size) := by
  obtain ⟨s₁, hc₁, heq⟩ := objstoreWrite_eq h hid hid' hrec buf size offset
  have hind₁ : s₁.indirect (record (L.content s.layer) id) k =
      (some obj', { s₁ with toTables := t₁ }) := by
    have hs₁ : s₁ = { s with layer := s₁.layer } := by
      rw [← hc₁.tables]
    rw [hs₁]
    exact hind s₁.layer
  obtain ⟨s₂, hwrite, hc₂⟩ := findWriteCached_append buf hc₁.inv hsize₀ hsize hoff hind₁ hk
    (by rwa [hobj]) hfetch
  rw [hc₁.content] at hc₂
  refine ⟨s₂, ?_, hc₂.tables, hc₂.inv, hc₂.content⟩
  rw [heq, hwrite, Option.bind_some]
  exact if_neg (by omega)

/-- `find_read_cached` of a block that is not beyond the end. -/
theorem findReadCached_spec (obj : Object) (h : L.inv s.layer) {off : ℕ} (hoff : off / 4096 = k)
    (hk : ¬obj.blocknum.toNat < k) (size : ℤ) :
    ∃ s', s.findReadCached obj size off =
        some (size, L.content s.layer (target (L.content s.layer) obj k), s') ∧
      Calls L s s' (L.content s.layer) := by
  obtain ⟨r₁, s₁, hread₁, hc₁⟩ :=
    readBlock_spec h (Set.mem_univ (obj.level1 (level k)).toNat) Block.zero
  obtain ⟨r₂, s₂, hread₂, hc₂⟩ := readBlock_spec hc₁.inv
    (Set.mem_univ (target (L.content s.layer) obj k)) Block.zero
  rw [hc₁.content] at hread₂ hc₂
  refine ⟨s₂, ?_, hc₁.trans hc₂⟩
  unfold findReadCached
  dsimp only
  rw [hoff, if_neg hk]
  simp only [Option.pure_def, Option.bind_eq_bind, Option.bind_some, hread₁]
  rw [← target, hread₂]
  rfl

/-- `find_read_cached` of a block beyond the end. -/
theorem findReadCached_beyond (s : Store σ) {off : ℕ} (hoff : off / 4096 = k)
    (hk : obj.blocknum.toNat < k) (size : ℤ) :
    s.findReadCached obj size off = some (-1, Block.zero, s) := by
  unfold findReadCached
  dsimp only
  rw [hoff, if_pos hk]
  rfl

/-- The loop of `objstore_read` for one block. -/
theorem readLoop_one {off : ℕ} {data : Block}
    (hread : s.findReadCached obj (4096 : ℕ) off = some (4096, data, s')) (fuel : ℕ)
    (buf : ℕ → UInt8) (offcheck : ℕ) : readLoop obj off (fuel + 2) buf offcheck 4096 s =
      some (true, fun i => if offcheck ≤ i ∧ i < offcheck + 4096 then data.byte (i - offcheck)
        else buf i, s') := by
  have hu : u32 ((4096 : ℕ) - 4096) = 0 := by decide
  rw [readLoop, if_neg (by norm_num), if_neg (by norm_num)]
  dsimp only
  rw [hread]
  simp only [Option.bind_eq_bind, Option.bind_some]
  rw [if_neg (by norm_num), hu, readLoop, if_pos rfl]

/-- `objstore_read` of the first block of an object. -/
theorem objstoreRead_spec (h : L.inv s.layer) (id : ℤ) (buf : ℕ → UInt8) :
    ∃ r buf' s', s.objstoreRead id buf 4096 0 = some (r, buf', s') ∧
      Calls L s s' (L.content s.layer) ∧
      (2 ≤ id → id < 2^20 → (record (L.content s.layer) id.toNat).id.toNat = id.toNat → r = 4096 ∧
        ∀ i < 4096, buf' i = (L.content s.layer
          (target (L.content s.layer) (record (L.content s.layer) id.toNat) 0)).byte i) := by
  obtain ⟨s₁, hget, hc₁⟩ := getObjectById_spec h (u64 id) (Set.mem_univ _)
  have hu : 2 ≤ id → id < 2^20 → u64 id = id.toNat := fun h₂ hlt => by
    unfold u64
    omega
  -- An object without a record of its own is `NULL`, and the read fails.
  by_cases hrec : (record (L.content s.layer) (u64 id)).id.toNat = u64 id
  swap
  · rw [if_neg hrec] at hget
    refine ⟨-1, buf, s₁, ?_, hc₁, fun h₂ hlt hrec' => ?_⟩
    · unfold objstoreRead
      rw [hget]
      rfl
    · rw [hu h₂ hlt] at hrec
      exact absurd hrec' hrec
  rw [if_pos hrec] at hget
  by_cases hid : id < 2
  · refine ⟨-1, buf, s₁, ?_, hc₁, fun h₂ => by omega⟩
    unfold objstoreRead
    rw [hget]
    simp only [Option.bind_eq_bind, Option.bind_some]
    rw [if_pos hid]
    rfl
  obtain ⟨s₂, hread, hc₂⟩ := findReadCached_spec (k := 0)
    (record (L.content s.layer) (u64 id)) hc₁.inv (Nat.zero_div 4096) (by omega) (4096 : ℕ)
  rw [hc₁.content] at hread hc₂
  refine ⟨4096, fun i => if 0 ≤ i ∧ i < 0 + 4096 then (L.content s.layer (target (L.content s.layer)
    (record (L.content s.layer) (u64 id)) 0)).byte (i - 0) else buf i, s₂, ?_, hc₁.trans hc₂,
    fun h₂ hlt _ => ⟨rfl, fun i hi => ?_⟩⟩
  · unfold objstoreRead
    rw [hget]
    simp only [Option.bind_eq_bind, Option.bind_some]
    have hu₀ : u32 0 = 0 := by decide
    have hu₄ : u32 4096 = 4096 := by decide
    -- The loop runs once and sees that nothing is left.
    obtain ⟨m, hm⟩ : ∃ m, 2^20 + 1 = m + 2 := ⟨2^20 - 1, by norm_num⟩
    rw [if_neg hid, hu₀, hu₄, hm, readLoop_one hread]
    rfl
  · rw [hu h₂ hlt]
    simp [hi]

/-! ## Blocks for an append -/

omit [BlockLayer σ] in
/-- With enough free blocks, an append finds an indirect block and a data block. -/
theorem prepare {t : Tables} {obj : Object} (k : ℕ) (heven : obj.blocknum.toNat % 2 = 0)
    (hroom : Room t obj) :
    ∃ obj' t₁ b t₂, (∀ layer : σ, indirect ⟨t, layer⟩ obj k = (some obj', ⟨t₁, layer⟩)) ∧
      Prepared t t₁ obj obj' ∧ t₁.fetchFreeBlock = (b, t₂) ∧ Fetched t₁ t₂ b := by
  unfold Room at hroom
  split_ifs at hroom with h0
  · obtain ⟨a, c, hac, ⟨ha₂, ha, hafree⟩, hc₂, hc, hcfree⟩ := hroom
    obtain ⟨p, t₁, hfetch₁, hp⟩ := Tables.fetchFreeBlock_of_free ha₂ ha hafree
    obtain ⟨b, t₂, hfetch₂, hb⟩ : ∃ b t₂, t₁.fetchFreeBlock = (b, t₂) ∧ Fetched t₁ t₂ b := by
      by_cases hap : a = p
      · exact Tables.fetchFreeBlock_of_free hc₂ hc (by rw [hp.bit, hcfree]; simp; omega)
      · exact Tables.fetchFreeBlock_of_free ha₂ ha (by rw [hp.bit, hafree]; simp; omega)
    have hp₂ := hp.two_le
    refine ⟨_, t₁, b, t₂, fun layer => indirect_first ⟨t, layer⟩ k h0 hfetch₁ (by omega),
      ⟨Or.inl ⟨h0, ?_⟩, rfl, rfl⟩, hfetch₂, hb⟩
    change Fetched t t₁ (Function.update obj.level1 0 (UInt32.ofNat p) 0).toNat
    rw [Function.update_self, hp.toNat]
    exact hp
  · obtain ⟨c, hc₂, hc, hcfree⟩ := hroom
    obtain ⟨b, t₂, hfetch, hb⟩ := Tables.fetchFreeBlock_of_free hc₂ hc hcfree
    exact ⟨obj, t, b, t₂, fun layer => indirect_even ⟨t, layer⟩ k h0 heven,
      ⟨Or.inr ⟨h0, rfl, rfl⟩, rfl, rfl⟩, hfetch, hb⟩

end Store

end GemOS.Objstore
