import GemOS.Objstore.Files

/-!
# Overwrites

`find_write_cached` of a block that the object has and `find_read_cached` each select one of four
indirect blocks with comparisons of their own. `overwrite_reads` says that they agree at every
block. A write is always one of a whole block: `find_write_cached` puts the user's bytes at the
start of a zeroed block, whatever the offset in the block is. `partial_write_iff` says when such a
write changes only its own bytes.
-/

namespace GemOS.Objstore

/-- The first `n` blocks of a record are different, and none of them is an indirect block of these
blocks. -/
structure OwnPlaces (D : ℕ → Block) (obj : Object) (n : ℕ) : Prop where
  /-- The blocks are different. -/
  inj : ∀ i < n, ∀ j < n, target D obj i = target D obj j → i = j
  /-- They are not indirect blocks. -/
  table : ∀ i < n, ∀ j < n, target D obj i ≠ (obj.level1 (Store.level j)).toNat

/-- The object has `n` blocks, at places of their own. -/
structure HasBlocks (D : ℕ → Block) (id n : ℕ) : Prop extends HasRecord D id where
  /-- The blocks are among those that the object has by its `blocknum`. -/
  blocknum : n ≤ (record D id).blocknum.toNat
  /-- The blocks are different, and no indirect blocks. -/
  places : OwnPlaces D (record D id) n
  /-- The record is in none of them. -/
  record : ∀ i < n, target D (record D id) i ≠ recordBlock id

/-- The byte `x` of an object with the record `obj`. -/
def objectByte (D : ℕ → Block) (obj : Object) (x : ℕ) : UInt8 :=
  (D (target D obj (x / 4096))).byte (x % 4096)

variable {σ : Type} [BlockLayer σ] {L : Lawful σ Set.univ} {s s' : Store σ} {D : ℕ → Block}
  {obj : Object} {id j k n x size offset : ℕ} {d : Block}

/-- The blocks that were written in order, and fit, are at places of their own. -/
theorem Written.hasBlocks {t : Tables} {data : ℕ → Block} (h : Written L t D id data k s)
    (hs : Stored t D id) (hfree : t.HasFree (fetches D id k)) (hfit : ∀ j < k, Fits t D id j) :
    HasBlocks (L.content s.layer) id k := by
  have hplace : ∀ j < k, ((record (L.content s.layer) id).level1 (Store.level j)).toNat =
      tableOf t D id j ∧
      target (L.content s.layer) (record (L.content s.layer) id) j = place t D id j := by
    intro j hj
    have hlevel := h.level1_of_counted hs (hfree.mono (fetches_mono hs.even (by omega : 1 ≤ k)))
      (Or.inl (by omega)) j
    exact ⟨hlevel, by rw [target, hlevel, h.entries j (hfit j hj).inTable
      (fun i hi => place_ne_tableOf hfit hi hj) (Or.inl hj)]⟩
  have hblocknum := h.blocknum
  refine ⟨⟨hs.two_le, hs.lt, h.present⟩, by omega, ⟨fun i hi j hj hij => ?_, fun i hi j hj => ?_⟩,
    fun i hi => ?_⟩
  · rw [(hplace i hi).2, (hplace j hj).2] at hij
    rcases Nat.lt_trichotomy i j with hlt | heq | hlt
    · exact absurd hij ((hfit j hj).inj i hlt)
    · exact heq
    · exact absurd hij.symm ((hfit i hi).inj j hlt)
  · rw [(hplace i hi).2, (hplace j hj).1]
    exact place_ne_tableOf hfit hi hj
  · rw [(hplace i hi).2]
    exact (hfit i hi).record

/-- From `s` to `s'`, block `k` of the record `obj` was overwritten by `d`. -/
structure Overwritten (L : Lawful σ Set.univ) (s s' : Store σ) (obj : Object) (k : ℕ)
    (d : Block) : Prop where
  /-- The allocation maps, and the other globals. -/
  tables : s'.toTables = s.toTables
  /-- The block. -/
  block : L.content s'.layer (target (L.content s.layer) obj k) = d
  /-- The other blocks. -/
  other : ∀ b, b ≠ target (L.content s.layer) obj k →
    L.content s'.layer b = L.content s.layer b
  /-- The records, unless one is in the block itself. -/
  record : ∀ i, recordBlock i ≠ target (L.content s.layer) obj k →
    record (L.content s'.layer) i = record (L.content s.layer) i

/-- A write of a block leaves the places of all blocks as they are. -/
theorem OwnPlaces.target_update (h : OwnPlaces D obj n) (hk : k < n) (hj : j < n) (buf : Block) :
    target (Function.update D (target D obj k) buf) obj j = target D obj j := by
  rw [target, Function.update_of_ne (h.table k hk j hj).symm, target]

/-- A write of a block leaves the record as it is. -/
theorem HasBlocks.record_update (h : HasBlocks D id n) (hk : k < n) (buf : Block) :
    Objstore.record (Function.update D (target D (Objstore.record D id) k) buf) id =
      Objstore.record D id :=
  record_update_of_ne (h.record k hk) D buf

/-- A write of a block leaves the blocks at their places. -/
theorem HasBlocks.update (h : HasBlocks D id n) (hk : k < n) (buf : Block) :
    HasBlocks (Function.update D (target D (Objstore.record D id) k) buf) id n := by
  have hrec := h.record_update hk buf
  have hplace : ∀ i < n, target (Function.update D (target D (Objstore.record D id) k) buf)
      (Objstore.record D id) i = target D (Objstore.record D id) i := fun i hi =>
    h.places.target_update hk hi buf
  refine ⟨⟨h.two_le, h.lt, ?_⟩, ?_, ⟨fun i hi j hj hij => ?_, fun i hi j hj => ?_⟩, fun i hi => ?_⟩
  · rw [hrec]
    exact h.present
  · rw [hrec]
    exact h.blocknum
  · rw [hrec, hplace i hi, hplace j hj] at hij
    exact h.places.inj i hi j hj hij
  · rw [hrec, hplace i hi]
    exact h.places.table i hi j hj
  · rw [hrec, hplace i hi]
    exact h.record i hi

/-- In every object with `n` blocks at places of their own, `find_write_cached` of a whole block `k`
changes this block and nothing else, and `find_read_cached` then returns it for block `k`, and the
old content for every other block. -/
theorem overwrite_reads {σ : Type} [BlockLayer σ] (L : Lawful σ Set.univ) (s : Store σ)
    (obj : Object) (n k : ℕ) (d : Block) (hinv : L.inv s.layer) (hn : obj.blocknum.toNat = n)
    (hplaces : OwnPlaces (L.content s.layer) obj n) (hk : k < n) :
    s.indirect obj k = (some obj, s) ∧
      ∃ s', s.findWriteCached obj d.byte 4096 (k * 4096) = some (4096, s') ∧
        Overwritten L s s' obj k d ∧
        ∀ j < n, ∃ s'', s'.findReadCached obj 4096 (j * 4096) = some (4096,
          if j = k then d else L.content s.layer (target (L.content s.layer) obj j), s'') := by
  subst hn
  obtain ⟨s', hwrite, hc⟩ := Store.findWriteCached_overwrite d.byte hinv (by norm_num) le_rfl
    (Nat.mul_div_cancel k (by norm_num)) hk
  rw [writeBuf_byte] at hc
  have hother : ∀ b, b ≠ target (L.content s.layer) obj k →
      L.content s'.layer b = L.content s.layer b := fun b hb => by
    rw [hc.content, Function.update_of_ne hb]
  refine ⟨s.indirect_of_lt hk, s', hwrite, ⟨hc.tables, ?_, hother, fun i hi => ?_⟩,
    fun j hj => ?_⟩
  · rw [hc.content, Function.update_self]
  · rw [record, hother _ hi, record]
  · obtain ⟨s'', hread, -⟩ := Store.findReadCached_spec obj hc.inv
      (Nat.mul_div_cancel j (by norm_num)) (Nat.not_lt.mpr hj.le) 4096
    refine ⟨s'', ?_⟩
    -- Reader and writer come through the same entry, which the write has left alone.
    rw [hread, hc.content, hplaces.target_update hk hj]
    by_cases hjk : j = k
    · rw [if_pos hjk, hjk, Function.update_self]
    · rw [if_neg hjk, Function.update_of_ne fun heq => hjk (hplaces.inj j hj k hk heq)]

/-! ## An object of two blocks -/

/-- The record of the object 2, with the indirect block 17696. -/
def twoBlocksRecord : Object := ⟨2, 4096, 0xffffffff, 2, fun _ => 0, fun _ => 17696⟩

/-- A disk with the object 2, whose blocks 17697 and 17698 hold the bytes `c`. -/
def twoBlocks (c : UInt8) : ℕ → Block :=
  setRecord (fun b =>
    if b = 17696 then (Block.zero.setEntry 0 17697).setEntry 1 17698
    else if b = 17697 ∨ b = 17698 then Block.ofBytes fun _ => c
    else Block.zero) 2 twoBlocksRecord

/-- The store over this disk, as a plain array of blocks. -/
def twoBlocksStore (c : UInt8) : Store Plain := ⟨Tables.new Allocator.bump, ⟨twoBlocks c⟩⟩

theorem record_twoBlocks (c : UInt8) : record (twoBlocks c) 2 = twoBlocksRecord :=
  record_setRecord_self _ _ _

theorem target_twoBlocks (c : UInt8) {i : ℕ} (hi : i < 2) :
    target (twoBlocks c) twoBlocksRecord i = 17697 + i := by
  have hblock : recordBlock 2 = 1312 := recordBlock_eq le_rfl (by norm_num)
  have htable : twoBlocks c 17696 = (Block.zero.setEntry 0 17697).setEntry 1 17698 := by
    rw [twoBlocks, setRecord_of_not_mem _ (by rw [hblock]; norm_num), if_pos rfl]
  change ((twoBlocks c 17696).entry (i % 1024)).toNat = _
  rw [htable]
  obtain rfl | rfl : i = 0 ∨ i = 1 := by omega
  · rw [Block.entry_setEntry_of_ne _ (by norm_num) (by norm_num),
      Block.entry_setEntry_self _ (by norm_num)]
    rfl
  · rw [Block.entry_setEntry_self _ (by norm_num)]
    rfl

theorem hasBlocks_twoBlocks (c : UInt8) : HasBlocks (twoBlocks c) 2 2 := by
  have hblock : recordBlock 2 = 1312 := recordBlock_eq le_rfl (by norm_num)
  have hrec := record_twoBlocks c
  refine ⟨⟨le_rfl, by norm_num, ?_⟩, ?_, ⟨fun i hi j hj hij => ?_, fun i hi j hj => ?_⟩,
    fun i hi => ?_⟩ <;> rw [hrec] at *
  · rfl
  · exact le_rfl
  · rw [target_twoBlocks c hi, target_twoBlocks c hj] at hij
    omega
  · rw [target_twoBlocks c hi]
    change 17697 + i ≠ 17696
    omega
  · rw [target_twoBlocks c hi, hblock]
    omega

/-- The second block of the object is overwritten. -/
theorem overwrite_reads_second :
    (twoBlocksStore 1).indirect twoBlocksRecord 1 = (some twoBlocksRecord, twoBlocksStore 1) ∧
      ∃ s', (twoBlocksStore 1).findWriteCached twoBlocksRecord Block.zero.byte 4096 4096 =
          some (4096, s') ∧
        Overwritten Plain.lawful (twoBlocksStore 1) s' twoBlocksRecord 1 Block.zero ∧
        ∀ j < 2, ∃ s'', s'.findReadCached twoBlocksRecord 4096 (j * 4096) = some (4096,
          if j = 1 then Block.zero else Plain.lawful.content (twoBlocksStore 1).layer
            (target (Plain.lawful.content (twoBlocksStore 1).layer) twoBlocksRecord j), s'') :=
  overwrite_reads Plain.lawful (twoBlocksStore 1) twoBlocksRecord 2 1 Block.zero trivial rfl
    (record_twoBlocks 1 ▸ (hasBlocks_twoBlocks 1).places) one_lt_two

/-! ## Writes of a part of a block -/

/-- `objstore_write` of `size` bytes at `offset` makes them those of the user, and leaves every
other byte of the first `n` blocks of the object as it was. -/
def WritesPart (L : Lawful σ Set.univ) (s : Store σ) (id n size offset : ℕ) : Prop :=
  ∀ d : ℕ → UInt8, ∃ s', s.objstoreWrite id d size offset = some ((size : ℤ), s') ∧
    ∀ x < n * 4096, objectByte (L.content s'.layer) (record (L.content s'.layer) id) x =
      if offset ≤ x ∧ x < offset + size then d (x - offset)
      else objectByte (L.content s.layer) (record (L.content s.layer) id) x

/-- A write to the first block of an object replaces the block by the user's bytes and zeros. -/
theorem objstoreWrite_first (hinv : L.inv s.layer) (h : HasBlocks (L.content s.layer) id n)
    (hn : 0 < n) (hle : offset + size ≤ 4096) (hlt : offset < 4096) (d : ℕ → UInt8) :
    ∃ s', s.objstoreWrite id d size offset = some ((size : ℤ), s') ∧
      ∀ x < n * 4096, objectByte (L.content s'.layer) (record (L.content s'.layer) id) x =
        if x < size then d x else if x < 4096 then 0
        else objectByte (L.content s.layer) (record (L.content s.layer) id) x := by
  have hoff : u32 (offset : ℤ) / 4096 = 0 := by
    unfold u32
    omega
  obtain ⟨s', hwrite, hc⟩ := Store.objstoreWrite_overwrite d offset hinv
    (by omega : (0 : ℤ) ≤ size) (by omega) h.two_le h.lt hoff h.present
    (Nat.lt_of_lt_of_le hn h.blocknum)
  refine ⟨s', hwrite, fun x hx => ?_⟩
  have hxn : x / 4096 < n := Nat.div_lt_of_lt_mul (by rwa [Nat.mul_comm])
  have hrec : record (L.content s'.layer) id = record (L.content s.layer) id := by
    rw [hc.content, record_update_of_ne (h.record 0 hn)]
  rw [objectByte, hrec, hc.content, h.places.target_update hn hxn]
  by_cases hfirst : x < 4096
  · have hzero : x / 4096 = 0 := by omega
    rw [hzero, Function.update_self, Nat.mod_eq_of_lt hfirst, Store.writeBuf,
      Block.byte_ofBytes _ hfirst, if_pos hfirst]
    simp only [Nat.cast_lt]
  · have hne : target (L.content s.layer) (record (L.content s.layer) id) (x / 4096) ≠
        target (L.content s.layer) (record (L.content s.layer) id) 0 := fun heq => by
      have := h.places.inj _ hxn 0 hn heq
      omega
    rw [Function.update_of_ne hne, if_neg (by omega), if_neg hfirst]
    rfl

theorem exists_byte_ne (b : UInt8) : ∃ c : UInt8, c ≠ b := by
  by_cases hb : b = 0
  · exact ⟨1, by rw [hb]; decide⟩
  · exact ⟨0, Ne.symm hb⟩

/-- The first byte of the buffer goes to the first byte of the block, also when this is in front of
`offset`. -/
theorem WritesPart.offset_eq_zero (hpart : WritesPart L s id n size offset) (hinv : L.inv s.layer)
    (h : HasBlocks (L.content s.layer) id n) (hn : 0 < n) (hsize : 0 < size)
    (hle : offset + size ≤ 4096) : offset = 0 := by
  by_contra hpos
  obtain ⟨c, hc⟩ :=
    exists_byte_ne (objectByte (L.content s.layer) (record (L.content s.layer) id) 0)
  obtain ⟨s', hwrite, hbytes⟩ := hpart fun _ => c
  obtain ⟨s₁, hwrite₁, hbytes₁⟩ := objstoreWrite_first hinv h hn hle (by omega) fun _ => c
  obtain rfl : s' = s₁ := by simpa using hwrite.symm.trans hwrite₁
  have h0 := (hbytes₁ 0 (by omega)).symm.trans (hbytes 0 (by omega))
  rw [if_pos hsize, if_neg (by omega)] at h0
  exact hc h0

/-- In every object with blocks of its own, a write of a part of the first block changes only its
own bytes if and only if it begins at the start of the block, and the bytes behind it are 0. -/
theorem partial_write_iff {σ : Type} [BlockLayer σ] (L : Lawful σ Set.univ) (s : Store σ)
    (id n size offset : ℕ) (hinv : L.inv s.layer) (h : HasBlocks (L.content s.layer) id n)
    (hn : 0 < n) (hsize : 0 < size) (hle : offset + size ≤ 4096) :
    WritesPart L s id n size offset ↔ offset = 0 ∧ ∀ x, size ≤ x → x < 4096 →
      objectByte (L.content s.layer) (record (L.content s.layer) id) x = 0 := by
  constructor
  · intro hpart
    obtain rfl := hpart.offset_eq_zero hinv h hn hsize hle
    refine ⟨rfl, fun x hx hlt => ?_⟩
    obtain ⟨s', hwrite, hbytes⟩ := hpart fun _ => 0
    obtain ⟨s₁, hwrite₁, hbytes₁⟩ := objstoreWrite_first hinv h hn hle (by omega) fun _ => 0
    obtain rfl : s' = s₁ := by simpa using hwrite.symm.trans hwrite₁
    -- The block is filled up with zeros behind the bytes of the user.
    have hx' := (hbytes x (by omega)).symm.trans (hbytes₁ x (by omega))
    rwa [if_neg (by omega), if_neg (by omega), if_pos hlt] at hx'
  · rintro ⟨rfl, hzero⟩ d
    obtain ⟨s', hwrite, hbytes⟩ := objstoreWrite_first hinv h hn hle (by norm_num) d
    refine ⟨s', hwrite, fun x hx => ?_⟩
    rw [hbytes x hx]
    by_cases hxs : x < size
    · rw [if_pos hxs, if_pos ⟨Nat.zero_le x, by omega⟩, Nat.sub_zero]
    · have hbehind : ¬(0 ≤ x ∧ x < 0 + size) := by omega
      rw [if_neg hxs, if_neg hbehind]
      by_cases hlt : x < 4096
      · rw [if_pos hlt, hzero x (by omega) hlt]
      · rw [if_neg hlt]

theorem objectByte_twoBlocks (c : UInt8) {x : ℕ} (hx : x < 8192) :
    objectByte (twoBlocks c) (record (twoBlocks c) 2) x = c := by
  have hblock : recordBlock 2 = 1312 := recordBlock_eq le_rfl (by norm_num)
  rw [record_twoBlocks, objectByte, target_twoBlocks c (by omega), twoBlocks,
    setRecord_of_not_mem _ (by rw [hblock]; omega), if_neg (by omega), if_pos (by omega),
    Block.byte_ofBytes _ (Nat.mod_lt _ (by norm_num))]

/-- Five bytes at the start of a block of zeros. -/
theorem partial_write_five : WritesPart Plain.lawful (twoBlocksStore 0) 2 2 5 0 :=
  (partial_write_iff Plain.lawful (twoBlocksStore 0) 2 2 5 0 trivial (hasBlocks_twoBlocks 0)
    (by norm_num) (by norm_num) (by norm_num)).mpr
      ⟨rfl, fun _ _ hlt => objectByte_twoBlocks 0 (by omega)⟩

/-- Five bytes in the middle of a block of ones. -/
theorem partial_write_middle :
    HasBlocks (Plain.lawful.content (twoBlocksStore 1).layer) 2 2 ∧
      ¬WritesPart Plain.lawful (twoBlocksStore 1) 2 2 5 100 := by
  refine ⟨hasBlocks_twoBlocks 1, fun hpart => ?_⟩
  exact absurd (hpart.offset_eq_zero trivial (hasBlocks_twoBlocks 1) (by norm_num) (by norm_num)
    (by norm_num)) (by norm_num)

end GemOS.Objstore
