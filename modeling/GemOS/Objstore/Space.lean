import GemOS.Objstore.Destroy
import GemOS.Objstore.Objects

/-!
# The space of a destroyed object

`destroy_object` should free the id of the object, its indirect blocks, and its data blocks
(`Returned`). It does so for the objects without blocks only. The calls of `free_object_blocks` have
their arguments exchanged, and follow the number of an indirect block as a pointer.
-/

namespace GemOS.Objstore

/-- The indirect blocks of an object with `blocknum` blocks. -/
def indirectBlocks (obj : Object) : List ℕ :=
  (List.range ((obj.blocknum.toNat + 1023) / 1024)).map fun i => (obj.level1 (Fin.ofNat 4 i)).toNat

/-- The data blocks of an object on a disk with contents `D`. -/
def dataBlocks (D : ℕ → Block) (obj : Object) : List ℕ :=
  (List.range obj.blocknum.toNat).map (target D obj)

variable {σ : Type} [BlockLayer σ]

/-- An object that exists, and whose blocks are different and allocated. -/
structure LiveObject (L : Lawful σ Set.univ) (s : Store σ) (key : List UInt8) (id : ℕ)
    (obj : Object) :
    Prop where
  /-- The key is found. -/
  found : s.Finds key id
  /-- The id is in use. -/
  inUse : InUse s.toTables id
  /-- The record. -/
  record : record (L.content s.layer) id = obj
  /-- There are four indirect blocks. -/
  blocknum_le : obj.blocknum.toNat ≤ 4096
  /-- No block is there twice. -/
  nodup : (indirectBlocks obj ++ dataBlocks (L.content s.layer) obj).Nodup
  /-- The blocks are allocated. -/
  allocated : ∀ b ∈ indirectBlocks obj ++ dataBlocks (L.content s.layer) obj,
    s.blockmap.bit b = true

/-- From `s` to `s'` the id and the blocks were freed, and nothing else. -/
structure Returned (s s' : Store σ) (id : ℕ) (blocks : List ℕ) : Prop where
  /-- The ids. -/
  inodemap : ∀ i, s'.inodemap.bit i = (s.inodemap.bit i && decide (i ≠ id))
  /-- The blocks. -/
  blockmap : ∀ b, s'.blockmap.bit b = (s.blockmap.bit b && decide (b ∉ blocks))

variable {L : Lawful σ Set.univ} {s s' : Store σ} {key : List UInt8} {id a fuel : ℕ}
  {par par' itr : Ptr} {obj : Object}

namespace Store

/-! ## The search -/

/-- The node that a walk for a key finds has the id of a record with the key. -/
theorem search_found (hinv : L.inv s.layer)
    (hs : search key fuel par itr s = some (.found par' a obj, s')) :
    Calls L s s' (L.content s.layer) ∧ obj = record (L.content s.layer) (s.heap.mem a).id ∧
      obj.id.toNat = (s.heap.mem a).id := by
  induction fuel generalizing s par itr with
  | zero => exact absurd hs (by simp [search])
  | succ fuel ih =>
    cases itr with
    | none => exact absurd hs (by simp [search])
    | some b =>
      obtain ⟨s₁, hc₁, hnode⟩ := search_node hinv key
        (Set.mem_univ (recordBlock (s.heap.mem b).id)) fuel par
      rw [hnode] at hs
      split_ifs at hs with hid hkey
      · exact absurd hs (by simp)
      · simp only [Option.some.injEq, Prod.mk.injEq, Search.found.injEq] at hs
        obtain ⟨⟨-, rfl, rfl⟩, rfl⟩ := hs
        exact ⟨hc₁, rfl, not_not.mp hid⟩
      · obtain ⟨hc, hobj, hid'⟩ := ih hc₁.inv hs
        rw [hc₁.content] at hc hobj
        rw [hc₁.heap] at hobj hid'
        exact ⟨hc₁.trans hc, hobj, hid'⟩

/-- The object at the head of the bucket is found. -/
theorem finds_head (hinv : L.inv s.layer) (hhead : s.hashTable (hash key) = some a)
    (h0 : (s.heap.mem a).id ≠ 0)
    (hid : (record (L.content s.layer) (s.heap.mem a).id).id.toNat = (s.heap.mem a).id)
    (hkey : keyOf (L.content s.layer) (s.heap.mem a).id = key) : s.Finds key (s.heap.mem a).id := by
  obtain ⟨s', hc, hnode⟩ := search_node hinv key (Set.mem_univ (recordBlock (s.heap.mem a).id))
    s.heap.count (s.hashTable (hash key))
  rw [if_neg (not_not.mpr hid), if_pos ⟨h0, hkey⟩, ← hhead] at hnode
  refine ⟨s', ?_⟩
  unfold findObjectId
  rw [searchKey, Heap.fuel, hnode, ← hc.heap]
  rfl

end Store

/-- `destroy_object` finds the node of a live object. -/
theorem LiveObject.searchKey (h : LiveObject L s key id obj) (hinv : L.inv s.layer) :
    ∃ par a s', s.searchKey key = some (.found par a obj, s') ∧
      Store.Calls L s s' (L.content s.layer) ∧ obj.id.toNat = id := by
  obtain ⟨s₁, hfind⟩ := h.found
  unfold Store.findObjectId at hfind
  obtain ⟨⟨r, s₂⟩, hs, hr⟩ := Option.bind_eq_some_iff.mp hfind
  cases r with
  | found par a obj₁ =>
    obtain ⟨hc, hobj, hid⟩ := Store.search_found hinv hs
    simp only [Option.pure_def, Option.some.injEq, Prod.mk.injEq, Nat.cast_inj] at hr
    rw [hc.heap] at hr
    rw [hr.1] at hobj hid
    have hobj₁ : obj₁ = obj := hobj.trans h.record
    rw [hobj₁] at hs hid
    exact ⟨par, a, s₂, hs, hc, hid⟩
  | missing par =>
    simp only [Option.pure_def, Option.some.injEq, Prod.mk.injEq] at hr
    omega
  | noRecord =>
    simp only [Option.pure_def, Option.some.injEq, Prod.mk.injEq] at hr
    omega

/-- `destroy_object` returns the space of a live object if and only if the object has no blocks. -/
theorem LiveObject.returned_iff (h : LiveObject L s key id obj) (hinv : L.inv s.layer) :
    (∃ s', s.destroyObject key = some (0, s') ∧
      Returned s s' id (indirectBlocks obj ++ dataBlocks (L.content s.layer) obj)) ↔
      obj.blocknum = 0 := by
  obtain ⟨par, a, s₁, hs, hc, hid⟩ := h.searchKey hinv
  constructor
  · rintro ⟨s', hdestroy, -⟩
    by_contra hblocks
    unfold Store.destroyObject at hdestroy
    rw [hs, Option.bind_eq_bind, Option.bind_some] at hdestroy
    dsimp only at hdestroy
    rw [Store.removeObjectCached_eq, if_neg hblocks] at hdestroy
    exact absurd hdestroy (by simp)
  · intro hblocks
    refine ⟨_, Store.destroyObject_found hs hblocks, fun i => ?_, fun b => ?_⟩
    · change (s₁.inodemap.clearBit obj.id.toNat).bit i = _
      rw [ByteMap.bit_clearBit, hid, congrArg Tables.inodemap hc.tables]
    · change s₁.blockmap.bit b = _
      rw [congrArg Tables.blockmap hc.tables]
      simp [indirectBlocks, dataBlocks, hblocks]

/-- For every live object, `destroy_object` returns the space of the object if and only if the
object has no blocks. -/
theorem destroy_object_returns (L : Lawful σ Set.univ) (s : Store σ) (hinv : L.inv s.layer)
    (key : List UInt8) (id : ℕ) (obj : Object) (h : LiveObject L s key id obj) :
    (∃ s', s.destroyObject key = some (0, s') ∧
      Returned s s' id (indirectBlocks obj ++ dataBlocks (L.content s.layer) obj)) ↔
      obj.blocknum = 0 :=
  h.returned_iff hinv

/-- The object "a" with one block. -/
def oneBlock : Object := { Store.newObject [97] 2 with blocknum := 1, level1 := fun _ => 17696 }

/-- A disk with this object: its indirect block is block 17696, and its data is in block 17697. -/
def oneBlockDisk : ℕ → Block :=
  Function.update (setRecord (fun _ => Block.zero) 2 oneBlock) 17696 (Block.zero.setEntry 0 17697)

/-- A store over this disk. -/
def oneBlockStore : Store Plain where
  toTables := { ((Tables.new Allocator.bump).allocNode fun n => { n with id := 2 }).link
      (hash [97]) none (Tables.new Allocator.bump).heap.fresh with
    inodemap := fun i => if i = 0 then 7 else 0
    blockmap := fun i => if i < 2212 then 255 else if i = 2212 then 3 else 0 }
  layer := ⟨oneBlockDisk⟩

theorem oneBlockStore_live : LiveObject Plain.lawful oneBlockStore [97] 2 oneBlock := by
  have hrec : record (Plain.lawful.content oneBlockStore.layer) 2 = oneBlock :=
    (record_update_of_ge (by norm_num) (by norm_num) (by norm_num) _ _).trans
      (record_setRecord_self _ _ _)
  have hkey : keyOf (Plain.lawful.content oneBlockStore.layer) 2 = [97] := by
    rw [keyOf, hrec]
    decide
  have hentry : target (Plain.lawful.content oneBlockStore.layer) oneBlock 0 = 17697 := by
    have hlevel : (oneBlock.level1 (Store.level 0)).toNat = 17696 := rfl
    have hblock : oneBlockDisk 17696 = Block.zero.setEntry 0 17697 := Function.update_self _ _ _
    change ((oneBlockDisk (oneBlock.level1 (Store.level 0)).toNat).entry 0).toNat = 17697
    rw [hlevel, hblock, Block.entry_setEntry_self _ (by norm_num)]
    rfl
  have hdata : dataBlocks (Plain.lawful.content oneBlockStore.layer) oneBlock = [17697] := by
    rw [← hentry]
    rfl
  have hnode : (oneBlockStore.heap.mem (Tables.new Allocator.bump).heap.fresh).id = 2 := by decide
  have hfound : oneBlockStore.Finds [97] 2 := by
    have hhead : oneBlockStore.hashTable (hash [97]) =
        some (Tables.new Allocator.bump).heap.fresh := by decide
    have hfind := Store.finds_head (L := Plain.lawful) (s := oneBlockStore) trivial hhead
    rw [hnode, hrec] at hfind
    exact hfind (by norm_num) (by decide) hkey
  refine ⟨hfound, inUse_natCast.mpr (by decide), hrec, by decide, ?_, ?_⟩
  · rw [hdata]
    decide
  · rw [hdata]
    decide

/-- The object with one block is destroyed: the call does not return, so that the two sides are
false. -/
theorem destroy_object_returns_one :
    (∃ s', oneBlockStore.destroyObject [97] = some (0, s') ∧
      Returned oneBlockStore s' 2 (indirectBlocks oneBlock ++
        dataBlocks (Plain.lawful.content oneBlockStore.layer) oneBlock)) ↔ oneBlock.blocknum = 0 :=
  destroy_object_returns Plain.lawful oneBlockStore trivial [97] 2 oneBlock oneBlockStore_live

/-- A live object with one block whose space is not returned. -/
theorem destroy_object_not_returns :
    LiveObject Plain.lawful oneBlockStore [97] 2 oneBlock ∧
      ¬∃ s', oneBlockStore.destroyObject [97] = some (0, s') ∧
        Returned oneBlockStore s' 2 (indirectBlocks oneBlock ++
          dataBlocks (Plain.lawful.content oneBlockStore.layer) oneBlock) := by
  refine ⟨oneBlockStore_live, fun h => ?_⟩
  have h0 := (oneBlockStore_live.returned_iff trivial).mp h
  exact absurd h0 (by decide)

end GemOS.Objstore
