import GemOS.Objstore.Data

/-!
# Objects and their blocks

`Objects L s B` is what every run of `create_object` and of writes keeps: the namespace, the
reserved blocks, and a record for every object that exists. `Wrote` is what a write to an object
leaves alone, and `Appends` what a write that appends a block does.
-/

namespace GemOS.Objstore

variable {σ : Type} [BlockLayer σ]

/-- What every run of `create_object` and of writes to the objects keeps. -/
structure Objects (L : Lawful σ Set.univ) (s : Store σ) (B : ℕ → List ℕ) : Prop where
  /-- The invariant of the namespace. -/
  names : Store.Names L s B
  /-- The metadata blocks and the record blocks are in use. -/
  reserved : ∀ b < 17696, s.blockmap.bit b = true
  /-- The objects that exist have a record. -/
  present : ∀ id : ℕ, InUse s.toTables id → (record (L.content s.layer) id).id.toNat = id

/-- What a write to the object `id` leaves alone. -/
structure Wrote (L : Lawful σ Set.univ) (s s' : Store σ) (id : ℕ) : Prop where
  /-- The block layer is in one of its states. -/
  inv : L.inv s'.layer
  /-- The nodes. -/
  heap : s'.heap = s.heap
  /-- The buckets. -/
  hashTable : s'.hashTable = s.hashTable
  /-- The ids in use. -/
  inodemap : s'.inodemap = s.inodemap
  /-- No block becomes free. -/
  blockmap : ∀ b, s.blockmap.bit b = true → s'.blockmap.bit b = true
  /-- The id in its record. -/
  recordId : (record (L.content s'.layer) id).id = (record (L.content s.layer) id).id
  /-- The other records. -/
  others : ∀ j, j ≠ id → 2 ≤ j → j < 2^20 →
    record (L.content s'.layer) j = record (L.content s.layer) j

/-- A write to the object `id`, whose record is `obj`, appended the block `b`. -/
structure Appends (L : Lawful σ Set.univ) (s s' : Store σ) (id : ℕ) (obj' : Object) (k b : ℕ)
    (buf : Block) (size : ℤ) : Prop where
  /-- What it leaves alone. -/
  wrote : Wrote L s s' id
  /-- The object has a record. -/
  hasRecord : HasRecord (L.content s.layer) id
  /-- The contents. -/
  content : L.content s'.layer = appendTo (L.content s.layer) obj' k b buf size
  /-- The id of the record. -/
  objId : obj'.id.toNat = id
  /-- The number of blocks before. -/
  blocknum : obj'.blocknum = (record (L.content s.layer) id).blocknum
  /-- The new block is not reserved. -/
  ge : 17696 ≤ b
  /-- There are `2^23` blocks. -/
  lt : b < 2^23
  /-- The new block was free. -/
  free : s.blockmap.bit b = false
  /-- The indirect block is new, or the object had it. -/
  first : (obj'.blocknum = 0 ∧ 17696 ≤ (obj'.level1 0).toNat ∧ (obj'.level1 0).toNat ≠ b ∧
      s.blockmap.bit (obj'.level1 0).toNat = false) ∨
    (obj'.blocknum ≠ 0 ∧ obj' = record (L.content s.layer) id)
  /-- The new blocks are in use now. -/
  bit : ∀ c, s'.blockmap.bit c = true ↔ s.blockmap.bit c = true ∨ c = b ∨
    (obj'.blocknum = 0 ∧ c = (obj'.level1 0).toNat)

variable {L : Lawful σ Set.univ} {s s' : Store σ} {B B' : ℕ → List ℕ} {id k b j : ℕ} {obj' : Object}
  {buf : Block} {size : ℤ} {key : List UInt8}

theorem inUse_natCast {t : Tables} : InUse t id ↔ 2 ≤ id ∧ id < 2^20 ∧
    t.inodemap.bit id = true := by
  unfold InUse
  rw [Int.toNat_natCast]
  constructor <;> rintro ⟨h₂, hlt, hbit⟩ <;> exact ⟨by omega, by omega, hbit⟩

/-- The blocks that are in use. -/
def usedBlocks (t : Tables) : Finset ℕ := (Finset.range (2^23)).filter fun b =>
    t.blockmap.bit b = true

/-- The blocks in use after a call that frees no block. -/
theorem usedBlocks_subset {t t' : Tables}
    (hbit : ∀ b, t.blockmap.bit b = true → t'.blockmap.bit b = true) :
    usedBlocks t ⊆ usedBlocks t' :=
  Finset.monotone_filter_right _ fun b _ hb => hbit b hb

/-- The blocks in use after a call that takes one. -/
theorem usedBlocks_card_lt {t t' : Tables}
    (hbit : ∀ b, t.blockmap.bit b = true → t'.blockmap.bit b = true)
    {c : ℕ} (hc : c < 2^23) (hfree : t.blockmap.bit c = false) (htaken : t'.blockmap.bit c = true) :
    (usedBlocks t).card < (usedBlocks t').card := by
  refine Finset.card_lt_card (Finset.ssubset_iff_subset_ne.mpr ⟨usedBlocks_subset hbit,
    fun heq => ?_⟩)
  have hmem : c ∈ usedBlocks t' := Finset.mem_filter.mpr ⟨Finset.mem_range.mpr hc, htaken⟩
  rw [← heq, usedBlocks, Finset.mem_filter, hfree] at hmem
  exact absurd hmem.2 (by simp)

theorem usedBlocks_card_le (t : Tables) : (usedBlocks t).card ≤ 2^23 :=
  (Finset.card_filter_le _ _).trans (Finset.card_range _).le

/-- A write leaves the records where they are. -/
theorem Wrote.hasRecord_iff (h : Wrote L s s' id) :
    HasRecord (L.content s'.layer) j ↔ HasRecord (L.content s.layer) j := by
  refine hasRecord_congr fun i h₂ hlt => ?_
  by_cases hne : i = id
  · rw [hne, h.recordId]
  · rw [h.others i hne h₂ hlt]

namespace Appends

variable (h : Appends L s s' id obj' k b buf size)

include h

/-- The new record. -/
theorem record_self : record (L.content s'.layer) id = appended obj' size k := by
  rw [h.content, ← h.objId]
  exact record_appendTo_self

/-- The block of the record is not one of the blocks of data. -/
theorem recordBlock_lt : 1312 ≤ recordBlock obj'.id.toNat ∧ recordBlock obj'.id.toNat < 17696 := by
  have hblock := recordBlock_mem h.hasRecord.two_le h.hasRecord.lt
  rw [recordBlocks, Finset.mem_Ico, ← h.objId] at hblock
  exact hblock

/-- The new block. -/
theorem content_new : L.content s'.layer b = buf := by
  have hblock := h.recordBlock_lt
  have hge := h.ge
  rw [h.content, appendTo_new (by omega)]

/-- The indirect block. -/
theorem content_indirect (hp : 17696 ≤ (obj'.level1 0).toNat) (hpb : (obj'.level1 0).toNat ≠ b) :
    L.content s'.layer (obj'.level1 0).toNat =
      (L.content s.layer (obj'.level1 (Store.level k)).toNat).setEntry (obj'.blocknum.toNat % 1024)
        (UInt32.ofNat b) := by
  have hblock := h.recordBlock_lt
  rw [h.content, appendTo_indirect (by omega) hpb]

/-- The other blocks. -/
theorem content_of_ne {c : ℕ} (hc : c ≠ recordBlock id) (hcb : c ≠ b)
    (hcp : c ≠ (obj'.level1 0).toNat) : L.content s'.layer c = L.content s.layer c := by
  rw [← h.objId] at hc
  rw [h.content, appendTo_of_ne hc hcb hcp]

/-- In the block of the record, the other records. -/
theorem byte_of_ne {i : ℕ} (hp : 17696 ≤ (obj'.level1 0).toNat) (hi : i < 4096)
    (hslot : i / 64 ≠ recordSlot id) : (L.content s'.layer (recordBlock id)).byte i =
      (L.content s.layer (recordBlock id)).byte i := by
  have hblock := h.recordBlock_lt
  have hge := h.ge
  rw [← h.objId] at hslot ⊢
  rw [h.content, byte_appendTo_of_ne hi hslot (by omega) (by omega)]

end Appends

/-! ## New objects -/

namespace Store.Made

variable (hc : Store.Made L s s' key id)

include hc

/-- The record of the new object. -/
theorem record_self : record (L.content s'.layer) id = Store.newObject key id := by
  rw [hc.content, record_setRecord_self]

/-- The records of the other objects. -/
theorem record_of_ne (h₂ : 2 ≤ j) (hj : j < 2^20) (hne : j ≠ id) :
    record (L.content s'.layer) j = record (L.content s.layer) j := by
  have hid₂ := hc.two_le
  have hid := hc.lt
  rw [hc.content, record_setRecord_of_ne _ hid₂ (by omega) h₂ (by omega) hne]

/-- The blocks that are not record blocks. -/
theorem content_of_not_mem (hb : b ∉ recordBlocks) :
    L.content s'.layer b = L.content s.layer b := by
  have hne : b ≠ recordBlock id := fun h => hb (by rw [h]; exact recordBlock_mem hc.two_le hc.lt)
  rw [hc.content, setRecord_of_not_mem _ hne]

/-- The objects that exist. -/
theorem inUse_iff : InUse s'.toTables j ↔ InUse s.toTables j ∨ j = id := by
  have h₂ := hc.two_le
  have hlt := hc.lt
  rw [inUse_natCast, inUse_natCast, hc.bit, Bool.or_eq_true, decide_eq_true_eq]
  constructor
  · rintro ⟨h₂, hlt, hbit | rfl⟩
    · exact Or.inl ⟨h₂, hlt, hbit⟩
    · exact Or.inr rfl
  · rintro (⟨h₂, hlt, hbit⟩ | rfl)
    · exact ⟨h₂, hlt, Or.inl hbit⟩
    · exact ⟨h₂, hlt, Or.inr rfl⟩

/-- The new object did not exist. -/
theorem not_inUse : ¬InUse s.toTables id := by
  rw [inUse_natCast, hc.free]
  simp

end Store.Made

theorem Fresh.objects {t : Tables} (ht : Fresh t) {layer : σ} (hl : L.inv layer) :
    Objects L ⟨t, layer⟩ fun _ => [] := by
  refine ⟨ht.names hl, ht.reserved, fun id huse => ?_⟩
  obtain ⟨-, hlt, hbit⟩ := inUse_natCast.mp huse
  have hbit' : t.inodemap.bit id = true := hbit
  rw [ht.inodemap id hlt] at hbit'
  exact absurd hbit' (by simp)

/-- In a new store there are no objects. -/
theorem Fresh.not_inUse {t : Tables} (ht : Fresh t) (objid : ℤ) : ¬InUse t objid := by
  rintro ⟨h₂, hlt, hbit⟩
  rw [ht.inodemap _ (by omega)] at hbit
  exact absurd hbit (by simp)

/-- A free block is not reserved. -/
theorem ge_of_free {t : Tables} (hreserved : ∀ b < 17696, t.blockmap.bit b = true)
    (hb : t.blockmap.bit b = false) : 17696 ≤ b := by
  by_contra hlt
  rw [hreserved b (by omega)] at hb
  exact absurd hb (by simp)

/-- A write of a block that the object does not have, over the reserved blocks. -/
theorem HasRecord.append (h : HasRecord (L.content s.layer) id) (hinv : L.inv s.layer)
    (hreserved : ∀ b < 17696, s.blockmap.bit b = true) (data : ℕ → UInt8) (offset : ℤ)
    (hsize₀ : 0 ≤ size) (hsize : size ≤ 4096) (hoff : u32 offset / 4096 = k)
    (heven : (record (L.content s.layer) id).blocknum.toNat % 2 = 0)
    (hfirst : (record (L.content s.layer) id).blocknum ≠ 0 →
      17696 ≤ ((record (L.content s.layer) id).level1 0).toNat)
    (hk : ¬k < (record (L.content s.layer) id).blocknum.toNat)
    (hroom : Room s.toTables (record (L.content s.layer) id)) :
    ∃ s' obj' b, s.objstoreWrite id data size offset = some (size, s') ∧
      Appends L s s' id obj' k b (Store.writeBuf data size) size := by
  obtain ⟨h₂, hlt, hid⟩ := h
  obtain ⟨obj', t₁, b, t₂, hind, hprep, hfetch, hb⟩ := Store.prepare (σ := σ) k heven hroom
  have hobj : obj'.id.toNat = id := by rw [hprep.id, hid]
  obtain ⟨s', hwrite, hc⟩ := Store.objstoreWrite_append data offset hinv hsize₀
    hsize h₂ hlt hoff hid hind hobj (by rw [hprep.blocknum]; exact hk) hfetch
  -- The first append of an object takes a block for its table, and touches no other map.
  have hheap : t₁.heap = s.heap ∧ t₁.hashTable = s.hashTable ∧ t₁.inodemap = s.inodemap := by
    rcases hprep.first with ⟨-, hp⟩ | ⟨-, rfl, -⟩
    · exact ⟨hp.heap, hp.hashTable, hp.inodemap⟩
    · exact ⟨rfl, rfl, rfl⟩
  have hbit₁ : ∀ c, t₁.blockmap.bit c = true ↔ s.blockmap.bit c = true ∨
      (obj'.blocknum = 0 ∧ c = (obj'.level1 0).toNat) := fun c => by
    rw [hprep.blocknum]
    rcases hprep.first with ⟨h0, hp⟩ | ⟨h0, rfl, -⟩
    · rw [hp.bit, Bool.or_eq_true, decide_eq_true_eq, and_iff_right h0]
    · rw [or_iff_left fun h => h0 h.1]
  -- The data block was free before the call, and is not the block of the table.
  have hbfree : s.blockmap.bit b = false ∧ ¬(obj'.blocknum = 0 ∧ b = (obj'.level1 0).toNat) := by
    have hnot : ¬t₁.blockmap.bit b = true := by
      rw [hb.free]
      simp
    rw [hbit₁] at hnot
    push Not at hnot
    exact ⟨by simpa using hnot.1, fun h => hnot.2 h.1 h.2⟩
  have hge := ge_of_free hreserved hbfree.1
  have hpge : 17696 ≤ (obj'.level1 0).toNat := by
    rcases hprep.first with ⟨-, hp⟩ | ⟨h0, -, rfl⟩
    · exact ge_of_free hreserved hp.free
    · exact hfirst h0
  -- Afterwards the data block is in use, and the block of the table when it is new.
  have hbit : ∀ c, s'.blockmap.bit c = true ↔ s.blockmap.bit c = true ∨ c = b ∨
      (obj'.blocknum = 0 ∧ c = (obj'.level1 0).toNat) := fun c => by
    rw [hc.tables]
    change t₂.blockmap.bit c = true ↔ _
    rw [hb.bit, Bool.or_eq_true, decide_eq_true_eq, hbit₁, or_assoc, or_comm (b := c = b)]
  refine ⟨s', obj', b, hwrite, ⟨hc.inv, ?_, ?_, ?_, fun c hc' => (hbit c).mpr (Or.inl hc'), ?_,
    fun j hne hj₂ hj => ?_⟩, ⟨h₂, hlt, hid⟩, hc.content, hobj, hprep.blocknum,
    hge, hb.lt, hbfree.1, ?_, hbit⟩
  · rw [hc.heap]
    exact hb.heap.trans hheap.1
  · rw [hc.hashTable]
    exact hb.hashTable.trans hheap.2.1
  · rw [hc.tables]
    exact hb.inodemap.trans hheap.2.2
  · have hrec : record (L.content s'.layer) id = appended obj' size k := by
      rw [hc.content, ← hobj]
      exact record_appendTo_self
    rw [hrec]
    exact hprep.id
  · rw [hc.content]
    exact record_appendTo_of_ne (hobj.symm ▸ h₂) (hobj.symm ▸ hlt) hj₂ hj (hobj.symm ▸ hne) hge hpge
  · rcases hprep.first with ⟨h0, hp⟩ | ⟨h0, -, rfl⟩
    · rw [hprep.blocknum]
      exact Or.inl ⟨h0, hpge, fun hpb => hbfree.2 ⟨by rw [hprep.blocknum, h0], hpb.symm⟩, hp.free⟩
    · exact Or.inr ⟨h0, rfl⟩

namespace Objects

theorem hasRecord (h : Objects L s B) (huse : InUse s.toTables id) :
    HasRecord (L.content s.layer) id := by
  obtain ⟨h₂, hlt, -⟩ := inUse_natCast.mp huse
  exact ⟨h₂, hlt, h.present id huse⟩

theorem calls (h : Objects L s B) (hc : Store.Calls L s s' (L.content s.layer)) :
    Objects L s' B := by
  refine ⟨h.names.calls hc, ?_, ?_⟩
  · rw [hc.tables]
    exact h.reserved
  · rw [hc.tables, hc.content]
    exact h.present

/-- `create_object` keeps the invariant. -/
theorem created (h : Objects L s B) (hnames : Store.Names L s' B')
    (hc : Store.Created L s s' B B' key id) : Objects L s' B' := by
  refine ⟨hnames, ?_, fun j huse => ?_⟩
  · rw [hc.blockmap]
    exact h.reserved
  · have hlt := hc.lt
    by_cases hne : j = id
    · rw [hne, hc.record_self, newObject_id _ (by omega)]
    · have hold := (hc.inUse_iff.mp huse).resolve_right hne
      obtain ⟨h₂, hj, -⟩ := inUse_natCast.mp hold
      rw [hc.record_of_ne h₂ hj hne]
      exact h.present j hold

/-- A write keeps the invariant. -/
theorem wrote (h : Objects L s B) (hw : Wrote L s s' id) : Objects L s' B := by
  have hrec : ∀ j : ℕ, 2 ≤ j → j < 2^20 →
      (record (L.content s'.layer) j).id = (record (L.content s.layer) j).id := fun j h₂ hj => by
    by_cases hne : j = id
    · rw [hne, hw.recordId]
    · rw [hw.others j hne h₂ hj]
  refine ⟨h.names.update hw.inv hw.heap hw.hashTable hw.inodemap fun j hj => ?_,
    fun b hb => hw.blockmap b (h.reserved b hb), fun j huse => ?_⟩
  · rw [hrec j hj.two_le hj.lt, hj.record]
  · rw [InUse, hw.inodemap] at huse
    obtain ⟨h₂, hj, -⟩ := inUse_natCast.mp huse
    rw [hrec j h₂ hj]
    exact h.present j huse

/-- A free block is not reserved. -/
theorem ge_of_free (h : Objects L s B) (hb : s.blockmap.bit b = false) : 17696 ≤ b :=
  Objstore.ge_of_free h.reserved hb

/-- A write of a block that the object has. -/
theorem overwrite (h : Objects L s B) (huse : InUse s.toTables id) (data : ℕ → UInt8) (offset : ℤ)
    (hsize₀ : 0 ≤ size) (hsize : size ≤ 4096) (hoff : u32 offset / 4096 = k)
    (hk : k < (record (L.content s.layer) id).blocknum.toNat) :
    ∃ s', s.objstoreWrite id data size offset = some (size, s') ∧
      Store.Calls L s s' (Function.update (L.content s.layer)
        (target (L.content s.layer) (record (L.content s.layer) id) k)
          (Store.writeBuf data size)) := by
  obtain ⟨h₂, hlt, hid⟩ := h.hasRecord huse
  exact Store.objstoreWrite_overwrite data offset h.names.inv hsize₀ hsize h₂ hlt hoff hid hk

/-- A write to a block that is not reserved leaves the records alone. -/
theorem wrote_of_overwrite (hb : 17696 ≤ b) (h₂ : 2 ≤ id) (hlt : id < 2^20)
    (hc : Store.Calls L s s' (Function.update (L.content s.layer) b buf)) : Wrote L s s' id := by
  refine ⟨hc.inv, hc.heap, hc.hashTable, congrArg Tables.inodemap hc.tables, fun c hc' => ?_, ?_,
    fun j _ hj₂ hj => ?_⟩
  · rw [hc.tables]
    exact hc'
  · rw [hc.content, record_update_of_ge hb h₂ hlt]
  · rw [hc.content, record_update_of_ge hb hj₂ hj]

/-- A write of a block that the object does not have. -/
theorem append (h : Objects L s B) (huse : InUse s.toTables id) (data : ℕ → UInt8) (offset : ℤ)
    (hsize₀ : 0 ≤ size) (hsize : size ≤ 4096) (hoff : u32 offset / 4096 = k)
    (heven : (record (L.content s.layer) id).blocknum.toNat % 2 = 0)
    (hfirst : (record (L.content s.layer) id).blocknum ≠ 0 →
      17696 ≤ ((record (L.content s.layer) id).level1 0).toNat)
    (hk : ¬k < (record (L.content s.layer) id).blocknum.toNat)
    (hroom : Room s.toTables (record (L.content s.layer) id)) :
    ∃ s' obj' b, s.objstoreWrite id data size offset = some (size, s') ∧
      Appends L s s' id obj' k b (Store.writeBuf data size) size :=
  (h.hasRecord huse).append h.names.inv h.reserved data offset hsize₀ hsize hoff heven hfirst hk
    hroom

end Objects

/-- As long as no block of a new store is taken, there is room for an object without blocks. -/
theorem Fresh.room {t t' : Tables} (ht : Fresh t) (hmap : t'.blockmap = t.blockmap) {obj : Object}
    (h0 : obj.blocknum = 0) : Room t' obj := by
  rw [Room, if_pos h0]
  refine ⟨17696, 17697, by norm_num, ⟨by norm_num, by norm_num, ?_⟩, by norm_num, by norm_num,
    ?_⟩ <;>
    rw [hmap]
  · exact ht.blockmap _ (by norm_num) (by norm_num)
  · exact ht.blockmap _ (by norm_num) (by norm_num)

/-- In a new store the first object gets the id 2. It has no blocks, and there are free ones. -/
theorem Fresh.createFirst {t : Tables} (ht : Fresh t) {layer : σ} (hl : L.inv layer)
    (hkey : KeyOk key) :
    ∃ s B, (⟨t, layer⟩ : Store σ).createObject key = some (2, s) ∧ Objects L s B ∧
      InUse s.toTables 2 ∧ (record (L.content s.layer) 2).blocknum = 0 ∧
      Room s.toTables (record (L.content s.layer) 2) ∧
      ∀ b ∉ recordBlocks, L.content s.layer b = L.content layer b := by
  obtain ⟨s, B, hcreate, hnames, hc, -⟩ := ht.createObject hl (fun b _ => Set.mem_univ b) hkey
  have h0 : (record (L.content s.layer) 2).blocknum = 0 := by
    rw [hc.record_self, newObject_eq hkey.1]
  exact ⟨s, B, hcreate, (ht.objects hl).created hnames hc, hc.inUse_iff.mpr (Or.inr rfl), h0,
    ht.room hc.blockmap h0, fun b hb => hc.content_of_not_mem hb⟩

end GemOS.Objstore
