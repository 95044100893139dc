import GemOS.Objstore.HashTable

/-!
# Records over a lawful block layer

The record of the object `id` is the slot `recordSlot id` of the block `recordBlock id`. `record D`
reads it from the contents `D`, `setRecord D` writes it. Over a lawful block layer
`get_object_by_id` is the first and `insert_to_disk` is the second, and a walk through a bucket for
a key depends on the ids of its nodes and their records only (`search_spec`).
-/

namespace GemOS.Objstore

/-- The block of the record of an object. -/
def recordBlock (id : ℕ) : ℕ := u32 (u64 (id - 2) / 64 + 1312)

/-- The slot of the record of an object in its block. -/
def recordSlot (id : ℕ) : ℕ := u64 (id - 2) % 64

/-- The record of an object on a disk with contents `D`. -/
def record (D : ℕ → Block) (id : ℕ) : Object := (D (recordBlock id)).object (recordSlot id)

/-- The contents after the record of an object was written. -/
def setRecord (D : ℕ → Block) (id : ℕ) (obj : Object) : ℕ → Block :=
  Function.update D (recordBlock id) ((D (recordBlock id)).setObject (recordSlot id) obj)

/-- The blocks of the records of the ids 2 to 2^20 - 1. -/
def recordBlocks : Finset ℕ := Finset.Ico 1312 17696

theorem recordSlot_lt (id : ℕ) : recordSlot id < 64 := Nat.mod_lt _ (by norm_num)

theorem u64_sub_two {id : ℕ} (h₂ : 2 ≤ id) (hid : id < 2^32) : u64 (id - 2) = id - 2 := by
  unfold u64
  omega

theorem recordBlock_eq {id : ℕ} (h₂ : 2 ≤ id) (hid : id < 2^32) :
    recordBlock id = 1312 + (id - 2) / 64 := by
  unfold recordBlock u32
  rw [u64_sub_two h₂ hid]
  omega

theorem recordSlot_eq {id : ℕ} (h₂ : 2 ≤ id) (hid : id < 2^32) : recordSlot id = (id - 2) % 64 := by
  unfold recordSlot
  rw [u64_sub_two h₂ hid]

theorem recordBlock_mem {id : ℕ} (h₂ : 2 ≤ id) (hid : id < 2^20) :
    recordBlock id ∈ recordBlocks := by
  rw [recordBlock_eq h₂ (by omega), recordBlocks, Finset.mem_Ico]
  omega

/-- The first blocks of the disk have different buckets in the cache. -/
theorem spread_Ico {m n : ℕ} (hn : n ≤ 2^15) (hcard : n - m ≤ 2^15 - 3) :
    Cache.Spread (Finset.Ico m n) := by
  refine ⟨fun a ha b hb hab => ?_, by rwa [Nat.card_Ico]⟩
  rw [Finset.mem_Ico] at ha hb
  unfold Cache.cacheHash at hab
  omega

/-- The record blocks have different buckets in the cache and fit into it. -/
theorem spread_recordBlocks : Cache.Spread recordBlocks := spread_Ico (by norm_num) (by norm_num)

@[simp] theorem record_setRecord_self (D : ℕ → Block) (id : ℕ) (obj : Object) :
    record (setRecord D id obj) id = obj := by
  rw [record, setRecord, Function.update_self, Block.object_setObject_self _ (recordSlot_lt id)]

/-- A write to a record leaves the other records alone. -/
theorem record_setRecord_of_ne (D : ℕ → Block) {i j : ℕ} (hi₂ : 2 ≤ i) (hi : i < 2^32) (hj₂ : 2 ≤ j)
    (hj : j < 2^32) (hij : j ≠ i) (obj : Object) : record (setRecord D i obj) j = record D j := by
  unfold record setRecord
  by_cases hb : recordBlock j = recordBlock i
  · rw [hb, Function.update_self, Block.object_setObject_of_ne _ (recordSlot_lt j)]
    rw [recordBlock_eq hi₂ hi, recordBlock_eq hj₂ hj] at hb
    rw [recordSlot_eq hi₂ hi, recordSlot_eq hj₂ hj]
    omega
  · rw [Function.update_of_ne hb]

theorem setRecord_of_not_mem (D : ℕ → Block) {id b : ℕ} (hb : b ≠ recordBlock id) (obj : Object) :
    setRecord D id obj b = D b := Function.update_of_ne hb _ _

/-- The object has a record, with the id. -/
structure HasRecord (D : ℕ → Block) (id : ℕ) : Prop where
  /-- The ids 0 and 1 are not those of objects. -/
  two_le : 2 ≤ id
  /-- There are 2^20 ids. -/
  lt : id < 2^20
  /-- The id in the record. -/
  present : (record D id).id.toNat = id

/-- The objects have records as long as the ids in the records stay. -/
theorem hasRecord_congr {D D' : ℕ → Block} {id : ℕ}
    (h : ∀ j, 2 ≤ j → j < 2^20 → (record D' j).id = (record D j).id) :
    HasRecord D' id ↔ HasRecord D id :=
  ⟨fun hj => ⟨hj.two_le, hj.lt, by rw [← h id hj.two_le hj.lt]; exact hj.present⟩,
    fun hj => ⟨hj.two_le, hj.lt, by rw [h id hj.two_le hj.lt]; exact hj.present⟩⟩

/-- The records of all objects are those that they were, after the record of one was written. -/
theorem HasRecord.setRecord {D : ℕ → Block} {id v : ℕ} (h : HasRecord D v) (h₂ : 2 ≤ id)
    (hid : id < 2^20) {obj : Object} (hobj : obj.id.toNat = id) :
    HasRecord (setRecord D id obj) v := by
  have hv := h.lt
  by_cases hvid : v = id
  · rw [hvid]
    exact ⟨h₂, hid, by rw [record_setRecord_self, hobj]⟩
  · refine ⟨h.two_le, hv, ?_⟩
    rw [record_setRecord_of_ne D h₂ (by omega) h.two_le (by omega) hvid]
    exact h.present

variable {σ : Type} [BlockLayer σ] {dom : Set ℕ} (L : Lawful σ dom)

/-- The step from `s` to `s'` only called the block layer, which now holds `D`. -/
structure Store.Calls (s s' : Store σ) (D : ℕ → Block) : Prop where
  /-- The globals. -/
  tables : s'.toTables = s.toTables
  /-- The block layer is in one of its states. -/
  inv : L.inv s'.layer
  /-- The contents. -/
  content : L.content s'.layer = D

namespace Store

variable {L} {s s' s'' : Store σ} {D D' : ℕ → Block} {b id : ℕ} {buf : Block} {obj : Object}
  {key : List UInt8}

theorem Calls.trans (h : Calls L s s' D) (h' : Calls L s' s'' D') : Calls L s s'' D' :=
  ⟨h'.tables.trans h.tables, h'.inv, h'.content⟩

theorem Calls.heap (h : Calls L s s' D) : s'.heap = s.heap := congrArg Tables.heap h.tables

theorem Calls.hashTable (h : Calls L s s' D) : s'.hashTable = s.hashTable :=
  congrArg Tables.hashTable h.tables

theorem readBlock_spec (h : L.inv s.layer) (hb : b ∈ dom) (buf : Block) :
    ∃ r s', s.readBlock b buf = some (r, L.content s.layer b, s') ∧
      Calls L s s' (L.content s.layer) := by
  obtain ⟨r, layer, hread, hinv, hcont⟩ := L.read buf h hb
  exact ⟨r, { s with layer := layer }, by rw [readBlock, hread]; rfl, rfl, hinv, hcont⟩

theorem writeBlock_spec (h : L.inv s.layer) (hb : b ∈ dom) (buf : Block) :
    ∃ s', s.writeBlock b buf = some (0, s') ∧
      Calls L s s' (Function.update (L.content s.layer) b buf) := by
  obtain ⟨layer, hwrite, hinv, hcont⟩ := L.write buf h hb
  exact ⟨{ s with layer := layer }, by rw [writeBlock, hwrite]; rfl, rfl, hinv, hcont⟩

theorem getObjectById_eq (s : Store σ) (id : ℕ) : s.getObjectById id =
    (s.readBlock (recordBlock id) Block.zero).bind fun (r, buf, s) =>
      if r < 0 then some (none, s)
      else if (buf.object (recordSlot id)).id.toNat = id then
        some (some (buf.object (recordSlot id)), s)
      else some (none, s) := by
  unfold getObjectById recordBlock recordSlot
  rfl

/-- `get_object_by_id` returns the record of the object when it has the object's id. -/
theorem getObjectById_spec (h : L.inv s.layer) (id : ℕ) (hb : recordBlock id ∈ dom) :
    ∃ s', s.getObjectById id = some (if (record (L.content s.layer) id).id.toNat = id then
        some (record (L.content s.layer) id) else none, s') ∧
      Calls L s s' (L.content s.layer) := by
  obtain ⟨r, s', hread, hcalls⟩ := readBlock_spec h hb Block.zero
  refine ⟨s', ?_, hcalls⟩
  rw [getObjectById_eq, hread, Option.bind_some]
  dsimp only
  rw [if_neg (Nat.not_lt_zero r), ← record]
  split_ifs <;> rfl

/-- `insert_to_disk` writes the record. -/
theorem insertToDisk_spec (h : L.inv s.layer) (obj : Object) (h₂ : 2 ≤ obj.id.toNat)
    (hb : recordBlock obj.id.toNat ∈ dom) :
    ∃ s', s.insertToDisk obj = some s' ∧
      Calls L s s' (setRecord (L.content s.layer) obj.id.toNat obj) := by
  have hid := obj.id.toNat_lt
  have hu : u32 (obj.id.toNat - 2) = obj.id.toNat - 2 := by
    unfold u32
    omega
  have hblock : 1312 + u32 (obj.id.toNat - 2) / 64 = recordBlock obj.id.toNat := by
    rw [hu, recordBlock_eq h₂ hid]
  have hslot : u32 (obj.id.toNat - 2) % 64 = recordSlot obj.id.toNat := by
    rw [hu, recordSlot_eq h₂ hid]
  obtain ⟨r, s₁, hread, hcalls₁⟩ := readBlock_spec h hb Block.zero
  obtain ⟨s₂, hwrite, hcalls₂⟩ := writeBlock_spec hcalls₁.inv hb
    ((L.content s.layer (recordBlock obj.id.toNat)).setObject (recordSlot obj.id.toNat) obj)
  refine ⟨s₂, ?_, ?_⟩
  · unfold insertToDisk
    dsimp only
    rw [hblock, hslot, hread]
    simp only [Option.bind_eq_bind, Option.bind_some, Nat.not_lt_zero, if_false, Option.pure_def]
    rw [hwrite]
    rfl
  · rw [hcalls₁.content] at hcalls₂
    exact hcalls₁.trans hcalls₂

/-- The walk through the nodes `l` behind `par` for a key, over the contents `D`. -/
def searchIn (D : ℕ → Block) (mem : ℕ → HashObj) (key : List UInt8) : Ptr → List ℕ → Search
  | par, [] => .missing par
  | par, a :: l =>
    if (record D (mem a).id).id.toNat ≠ (mem a).id then .noRecord
    else if (mem a).id ≠ 0 ∧ (record D (mem a).id).keyString = key then
      .found par a (record D (mem a).id)
    else searchIn D mem key (some a) l

/-- One node of a walk. -/
theorem search_node (h : L.inv s.layer) (key : List UInt8) {a : ℕ}
    (hb : recordBlock (s.heap.mem a).id ∈ dom) (fuel : ℕ) (par : Ptr) :
    ∃ s', Calls L s s' (L.content s.layer) ∧ search key (fuel + 1) par (some a) s =
      if (record (L.content s.layer) (s.heap.mem a).id).id.toNat ≠ (s.heap.mem a).id then
        some (.noRecord, s')
      else if (s.heap.mem a).id ≠ 0 ∧
          (record (L.content s.layer) (s.heap.mem a).id).keyString = key then
        some (.found par a (record (L.content s.layer) (s.heap.mem a).id), s')
      else search key fuel (some a) (s.heap.mem a).next s' := by
  obtain ⟨s', hget, hcalls⟩ := getObjectById_spec h _ hb
  refine ⟨s', hcalls, ?_⟩
  rw [search, hget]
  by_cases hid : (record (L.content s.layer) (s.heap.mem a).id).id.toNat = (s.heap.mem a).id
  · simp only [hid, ne_eq, not_true_eq_false, if_true, if_false, Option.bind_eq_bind,
      Option.bind_some, Option.pure_def, hcalls.heap]
  · simp only [hid, ne_eq, not_false_eq_true, if_true, if_false, Option.bind_eq_bind,
      Option.bind_some, Option.pure_def]

/-- A walk along a chain. -/
theorem search_spec {l : List ℕ} {fuel : ℕ} {itr : Ptr} (h : L.inv s.layer)
    (key : List UInt8) (par : Ptr)
    (hchain : Chain s.heap.mem HashObj.next itr l) (hfuel : l.length < fuel)
    (hl : ∀ a ∈ l, recordBlock (s.heap.mem a).id ∈ dom) :
    ∃ s', search key fuel par itr s =
        some (searchIn (L.content s.layer) s.heap.mem key par l, s') ∧
      Calls L s s' (L.content s.layer) := by
  induction l generalizing s fuel par itr with
  | nil =>
    obtain ⟨k, rfl⟩ : ∃ k, fuel = k + 1 := ⟨fuel - 1, by omega⟩
    obtain rfl : itr = none := hchain
    exact ⟨s, rfl, rfl, h, rfl⟩
  | cons a l ih =>
    obtain ⟨k, rfl⟩ : ∃ k, fuel = k + 1 := ⟨fuel - 1, by omega⟩
    obtain ⟨rfl, hchain⟩ := hchain
    obtain ⟨s₁, hcalls₁, hnode⟩ := search_node h key (hl a (by simp)) k par
    rw [hnode, searchIn]
    split_ifs
    · exact ⟨s₁, rfl, hcalls₁⟩
    · exact ⟨s₁, rfl, hcalls₁⟩
    · rw [← hcalls₁.heap] at hchain
      obtain ⟨s₂, hrun, hcalls₂⟩ := ih hcalls₁.inv (some a) hchain (by simpa using hfuel)
        fun q hq => by rw [hcalls₁.heap]; exact hl q (by simp [hq])
      rw [hcalls₁.content] at hrun hcalls₂
      rw [hcalls₁.heap] at hrun
      exact ⟨s₂, hrun, hcalls₁.trans hcalls₂⟩

end Store

end GemOS.Objstore
