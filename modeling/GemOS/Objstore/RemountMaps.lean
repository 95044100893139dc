import GemOS.Objstore.Remount

/-!
# The bitmaps after mounting again

The ids and the buckets of a store do not survive `objstore_destroy` and `objstore_init`, the
bitmaps do: `remount_maps`, for any tables and any cache whose lists end and which has no dirty
metadata block.
-/

namespace GemOS.Objstore

variable {d d' : Disk} {t t' : Tables} {B C : ℕ → List ℕ} {temp : ℕ → ℕ} {id b : ℕ}

/-- The bucket that `objstore_init` reads for every id is an index of `hashTable`. -/
def IdsInBounds (d : Disk) : Prop :=
  ∀ i < 1024, ∀ x < 1024, u32 ((d.block i).byte x).toInt8.toInt < 2^20

/-! ## Loading the ids -/

theorem loadBytes_ok {temp : Block} {i n x : ℕ} (h : Table t B) (hn : x + n ≤ 1024)
    (hin : ∀ x < 1024, u32 (temp.byte x).toInt8.toInt < 2^20) :
    ∃ t' B', loadBytes temp i n x t = some t' ∧ Table t' B' := by
  induction n generalizing x t B with
  | zero => exact ⟨t, B, rfl, h⟩
  | succ n ih =>
    rw [loadBytes]
    split_ifs with huid
    · obtain ⟨t₁, hins, h₁, -⟩ := h.insertToHashTable (hin x (by omega)) (i * 1024 + x)
      rw [hins]
      exact ih h₁ (by omega)
    · exact ih h (by omega)

/-- Over a disk that never fails, ids in bounds are loaded. -/
theorem loadIds_some {n i : ℕ} (h : Table t B) (hn : i + n ≤ 1024) (hd : d.AllOk)
    (hin : IdsInBounds d) :
    ∃ d' t', loadIds n i d t = some (true, d', t') := by
  induction n generalizing i d t B with
  | zero => exact ⟨d, t, rfl⟩
  | succ n ih =>
    obtain ⟨t₁, B₁, hbytes, h₁⟩ :=
      loadBytes_ok (i := i) (n := 1024) (x := 0) h le_rfl (hin i (by omega))
    rw [loadIds]
    simp only [Disk.readBlock, hd _, if_true]
    rw [if_neg (by norm_num), hbytes]
    exact ih (d := { d with calls := d.calls + 1 }) h₁ (by omega) hd hin

/-! ## Loading the bitmaps -/

theorem bit_congr {m m' : ByteMap} {n : ℕ} (h : m (n / 8) = m' (n / 8)) : m.bit n = m'.bit n := by
  rw [ByteMap.bit, ByteMap.bit, h]

/-- `INODE_INIT` clears the bits of the ids 0 and 1 only. -/
theorem bit_inodeInit (m : ByteMap) {n : ℕ} (h₂ : 2 ≤ n) :
    ByteMap.bit (Function.update m 0 (m 0 &&& 0xfc)) n = m.bit n := by
  by_cases h0 : n / 8 = 0
  · have hmask : ∀ j < 8, 2 ≤ j → (0xfc : UInt8).toNat.testBit j = true := by decide
    have hn : n % 8 = n := by omega
    rw [ByteMap.bit, ByteMap.bit, h0, Function.update_self, UInt8.toNat_and, Nat.testBit_and, hn,
      hmask n (by omega) h₂, Bool.and_true]
  · exact bit_congr (Function.update_of_ne h0 _ _)

/-- The bitmaps that `objstore_init` loads are those that `objstore_destroy` wrote. -/
theorem MetaOn.loadMaps (h : MetaOn temp t d.block) {t₁ : Tables}
    (hload : loadMaps d t₁ = (0, d', t')) :
    (∀ id, 2 ≤ id → id < 2^20 → t'.inodemap.bit id = t.inodemap.bit id) ∧
      ∀ b, 17696 ≤ b → b < 2^23 → t'.blockmap.bit b = t.blockmap.bit b := by
  obtain ⟨d₁, imap, bmap, hi, hb, rfl⟩ := loadMaps_zero hload
  obtain ⟨hd₁, himap⟩ := loadMap_spec hi
  obtain ⟨-, hbmap⟩ := loadMap_spec hb
  rw [hd₁] at hbmap
  refine ⟨fun id h₂ hid => (bit_inodeInit imap h₂).trans (bit_congr ?_),
    fun b h₁ hb => bit_congr ?_⟩
  · rw [himap, if_pos (by omega), h.inodemap _ (by omega) (by omega),
      Block.byte_ofBytes _ (Nat.mod_lt _ (by norm_num)), Nat.add_sub_cancel_left, Nat.div_add_mod]
  · dsimp only
    rw [if_neg (by omega), hbmap, if_pos (by omega), h.blockmap _ (by omega) (by omega),
      Block.byte_ofBytes _ (Nat.mod_lt _ (by norm_num)), Nat.add_sub_cancel_left, Nat.div_add_mod]

/-- When no call into the system fails, `objstore_destroy` returns 0. If the buckets that were
written are in bounds, `objstore_init` in a new process returns 0 as well, every id has the bit that
it had, every block that can be handed out too, and the other blocks are in use. -/
theorem remount_maps (A : Allocator) {s : Store Cache} (h : Walks s B C)
    (hmeta : NoDirtyMeta s.layer C) (hd : s.layer.disk.AllOk) :
    ∃ s₁, objstoreDestroy s = some (0, s₁) ∧ (IdsInBounds s₁.layer.disk →
      ∃ d t, objstoreInit s₁.layer.disk (Tables.new A) = some (0, d, t) ∧
        (∀ id, 2 ≤ id → id < 2^20 → t.inodemap.bit id = s.inodemap.bit id) ∧
        (∀ b, 17696 ≤ b → b < 2^23 → t.blockmap.bit b = s.blockmap.bit b) ∧
        ∀ b < 17696, t.blockmap.bit b = true) := by
  obtain ⟨s₁, temp, hdestroy, hd₁, -, hon⟩ := objstoreDestroy_spec h hmeta hd
  refine ⟨s₁, hdestroy, fun hin => ?_⟩
  have hmalloc : s₁.layer.disk.malloc4k =
      (true, { s₁.layer.disk with calls := s₁.layer.disk.calls + 1 }) := by
    rw [Disk.malloc4k, hd₁]
  obtain ⟨d₂, t₂, hids⟩ := loadIds_some (n := 1024) (i := 0)
    (d := { s₁.layer.disk with calls := s₁.layer.disk.calls + 1 }) (Table.new A) le_rfl hd₁ hin
  obtain ⟨-, hd₂, hblock₂⟩ := loadIds_ok
    (d := { s₁.layer.disk with calls := s₁.layer.disk.calls + 1 }) hd₁ hids
  obtain ⟨d₃, imap, himap, hd₃⟩ := loadMap_ok hd₂ 1024 32 0 t₂.inodemap
  obtain ⟨d₄, bmap, hbmap, -⟩ := loadMap_ok hd₃ 1056 256 0 t₂.blockmap
  have hmaps : loadMaps d₂ t₂ = (0, d₄, { t₂ with
      inodemap := Function.update imap 0 (imap 0 &&& 0xfc)
      blockmap := fun i => if i < 2212 then 0xff else bmap i }) := by
    simp only [loadMaps, himap, hbmap]
  have hinit : objstoreInit s₁.layer.disk (Tables.new A) = some (loadMaps d₂ t₂) := by
    simp only [objstoreInit, hmalloc, hids]
  rw [hmaps] at hinit
  have hon₂ : MetaOn temp s.toTables d₂.block := by rwa [hblock₂]
  obtain ⟨hinode, hblockmap⟩ := hon₂.loadMaps hmaps
  exact ⟨d₄, _, hinit, hinode, hblockmap, objstoreInit_reserved hinit⟩

/-- Buckets below 128 are read as they were written, and their other bytes as 0. -/
theorem MetaOn.idsInBounds (h : MetaOn temp t d.block) (htemp : ∀ id, temp id < 128) :
    IdsInBounds d := by
  have hbyte : ∀ n < 128, u32 (UInt8.ofNat n).toInt8.toInt < 2^20 := by decide
  intro i hi x hx
  rw [h.ids i hi, Block.byte_ofBytes _ (by omega)]
  exact hbyte _ ((Nat.div_le_self _ _).trans_lt (htemp _))

/-- The blocks of the records, and the first block behind them. -/
def firstBlocks : Finset ℕ := Finset.Ico 1312 17697

theorem spread_firstBlocks : Cache.Spread firstBlocks := spread_Ico (by norm_num) (by norm_num)

/-- The tables with the block 17696 in use. -/
def Tables.takeFirst (t : Tables) : Tables :=
  { t with blockmap := Function.update t.blockmap 2212 1 }

/-- On a disk of zeros, a key is created, and a block behind the records is taken and written, which
leaves it dirty in the cache. The store is unmounted and mounted again. -/
theorem remount_maps_object :
    ∃ d t s c s₁ d' t', objstoreInit Cache.zeroDisk (Tables.new Allocator.bump) = some (0, d, t) ∧
      (⟨t, Cache.empty Allocator.bump d fun _ => Block.zero⟩ : Store Cache).createObject [97] =
        some (2, s) ∧
      s.layer.writeBlockModified 17696 (fun _ => 1) = some (0, c) ∧ s.inodemap.bit 2 = true ∧
      objstoreDestroy ⟨s.toTables.takeFirst, c⟩ = some (0, s₁) ∧
      objstoreInit s₁.layer.disk (Tables.new Allocator.bump) = some (0, d', t') ∧
      (∀ id, 2 ≤ id → id < 2^20 → t'.inodemap.bit id = s.inodemap.bit id) ∧
      (∀ b, 17696 ≤ b → b < 2^23 → t'.blockmap.bit b = s.toTables.takeFirst.blockmap.bit b) ∧
      ∀ b < 17696, t'.blockmap.bit b = true := by
  obtain ⟨d, t, hinit, hd, -⟩ :=
    objstoreInit_ok Allocator.bump (d := Cache.zeroDisk) (fun _ => rfl) fun _ _ => rfl
  obtain ⟨-, hfresh⟩ := objstoreInit_fresh (fun _ _ => rfl) hinit
  have hdom : ∀ b ∈ recordBlocks, b ∈ {b | b ∈ firstBlocks} := fun b hb =>
    Finset.Ico_subset_Ico_right (by norm_num) hb
  have hlayer : spread_firstBlocks.lawful.inv (Cache.empty Allocator.bump d fun _ => Block.zero) :=
    ⟨[], _, Cache.inv_empty Allocator.bump hd _, by simp⟩
  obtain ⟨s, B, hcreate, hnames, hcreated, hids⟩ :=
    hfresh.createObject hlayer hdom (by decide : KeyOk [97])
  obtain ⟨c, hwrite, hc, -⟩ := spread_firstBlocks.lawful.write (b := 17696) (fun _ => 1) hnames.inv
    (Finset.mem_Ico.mpr (by norm_num))
  have hused : Table s.toTables.takeFirst B := hnames.table.congr rfl rfl
  obtain ⟨hd, C, hwalks, hmeta⟩ := walks_of_inv (s := ⟨s.toTables.takeFirst, c⟩)
    (fun _ hb => (Finset.mem_Ico.mp hb).1) hc hused fun v a ha => (hnames.node v a ha).lt
  obtain ⟨s₁, hdestroy, hremount⟩ := remount_maps Allocator.bump hwalks hmeta hd
  obtain ⟨s₂, temp, hdestroy₂, -, htemp, hon⟩ := objstoreDestroy_spec hwalks hmeta hd
  obtain rfl : s₁ = s₂ := congrArg Prod.snd (Option.some.inj (hdestroy.symm.trans hdestroy₂))
  -- The only bucket with a node is the one of the key.
  have hin : IdsInBounds s₁.layer.disk := hon.idsInBounds fun id => by
    rcases htemp id with hzero | ⟨a, ha, -⟩
    · omega
    · have hmem : (s.heap.mem a).id ∈ s.ids B (temp id) := List.mem_map_of_mem ha
      have hbucket : temp id = hash [97] := by
        by_contra hne
        rw [hids, Function.update_of_ne hne] at hmem
        exact absurd hmem List.not_mem_nil
      rw [hbucket]
      decide
  obtain ⟨d', t', hinit', hmaps⟩ := hremount hin
  exact ⟨d, t, s, c, s₁, d', t', hinit, hcreate, hwrite, by rw [hcreated.bit]; simp, hdestroy,
    hinit', hmaps⟩

end GemOS.Objstore
