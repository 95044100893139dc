import GemOS.Objstore.Isolation

/-!
# Calls on a store with owners

The calls of the object store as operations of one step function, which keeps for every block the
object for which it was allocated, and what the history of a run says was written to an object. An
id may be used again after `destroy_object`: the new object has no blocks, and what was written to
the old one does not count for it.
-/

namespace GemOS.Objstore

/-- A call on the store. -/
inductive StoreOp where
  /-- `create_object(key)`. -/
  | create (key : List UInt8)
  /-- `rename_object(key, newname)`, with the memory behind the new name. -/
  | rename (key newname : List UInt8) (rest : ℕ → UInt8)
  /-- `destroy_object(key)`. -/
  | destroy (key : List UInt8)
  /-- `find_object_id(key)`. -/
  | find (key : List UInt8)
  /-- `objstore_write(objid, data, size, offset)`. -/
  | write (objid : ℤ) (data : ℕ → UInt8) (size offset : ℤ)
  /-- `objstore_read(objid, buf, size, offset)`. -/
  | read (objid : ℤ) (buf : ℕ → UInt8) (size offset : ℤ)

/-- The owners after the object `id` was created: it has no blocks, also when an earlier object had
the same id. -/
def disown (own : ℕ → Option ℕ) (id b : ℕ) : Option ℕ := if own b = some id then none else own b

/-- A call on the store: its result. -/
def OwnedStore.serve {σ : Type} [BlockLayer σ] (s : OwnedStore σ) :
    StoreOp → Option (ℤ × OwnedStore σ)
  | .create key => (s.store.createObject key).map fun (r, t) => (r, ⟨t, disown s.own r.toNat⟩)
  | .rename key newname rest =>
      (s.store.renameObject key newname rest).map fun (r, t) => (r, ⟨t, s.own⟩)
  | .destroy key => (s.store.destroyObject key).map fun (r, t) => (r, ⟨t, s.own⟩)
  | .find key => (s.store.findObjectId key).map fun (r, t) => (r, ⟨t, s.own⟩)
  | .write objid data size offset => s.step (.write objid data size offset)
  | .read objid buf size offset => (s.store.objstoreRead objid buf size offset).map
      fun (r, _, t) => (r, ⟨t, s.own⟩)

/-- The store after a write to the object `id`. -/
abbrev OwnedStore.written {σ : Type} (s : OwnedStore σ) (id : ℕ) (t : Store σ) : OwnedStore σ :=
  ⟨t, ownAfter s.own id s.store.toTables t.toTables⟩

/-! ## What was written -/

/-- The call created the object. -/
def createsObject (id : ℕ) : StoreOp × ℤ → Bool
  | (.create _, r) => r == id
  | _ => false

/-- The calls since the object was created, the last one first. -/
def sinceCreated (hist : List (StoreOp × ℤ)) (id : ℕ) : List (StoreOp × ℤ) :=
  hist.reverse.takeWhile fun e => !createsObject id e

/-- The data were written to the object. -/
def WrittenTo (hist : List (StoreOp × ℤ)) (id : ℕ) (data : ℕ → UInt8) (size : ℤ) : Prop :=
  0 ≤ size ∧ ∃ offset, (.write id data size offset, size) ∈ sinceCreated hist id

/-- The block of a write to the object that succeeded. -/
def writtenBlock (id : ℕ) : StoreOp × ℤ → Option ℕ
  | (.write objid _ _ offset, r) => if objid = id ∧ 0 ≤ r then some (u32 offset / 4096) else none
  | _ => none

/-- The blocks that were written to an object. -/
def blocksWritten (hist : List (StoreOp × ℤ)) (id : ℕ) : Finset ℕ :=
  ((sinceCreated hist id).filterMap (writtenBlock id)).toFinset

section History

variable {hist : List (StoreOp × ℤ)} {e : StoreOp × ℤ} {id : ℕ} {data : ℕ → UInt8} {size : ℤ}

theorem sinceCreated_append (he : createsObject id e = false) :
    sinceCreated (hist ++ [e]) id = e :: sinceCreated hist id := by
  rw [sinceCreated, List.reverse_append, List.reverse_singleton, List.singleton_append,
    List.takeWhile_cons, he]
  rfl

theorem WrittenTo.append (h : WrittenTo hist id data size) (he : createsObject id e = false) :
    WrittenTo (hist ++ [e]) id data size := by
  obtain ⟨hsize₀, offset, hmem⟩ := h
  refine ⟨hsize₀, offset, ?_⟩
  rw [sinceCreated_append he]
  exact List.mem_cons_of_mem _ hmem

/-- The data of the last write. -/
theorem WrittenTo.last (hsize₀ : 0 ≤ size) (offset : ℤ) :
    WrittenTo (hist ++ [(.write id data size offset, size)]) id data size := by
  refine ⟨hsize₀, offset, ?_⟩
  rw [sinceCreated_append rfl]
  exact List.mem_cons_self

end History

variable {σ : Type} [BlockLayer σ]

/-! ## The condition -/

/-- The block was allocated for data of the object: the only indirect block ever allocated for an
object is the first one. -/
def OwnedStore.IsData (L : Lawful σ Set.univ) (s : OwnedStore σ) (id b : ℕ) : Prop :=
  s.own b = some id ∧ b ≠ ((record (L.content s.store.layer) id).level1 0).toNat

/-- The first indirect block of the object, if it has blocks, was allocated for it. -/
def OwnedStore.OwnTable (L : Lawful σ Set.univ) (s : OwnedStore σ) (id : ℕ) : Prop :=
  (record (L.content s.store.layer) id).blocknum ≠ 0 →
    s.own ((record (L.content s.store.layer) id).level1 0).toNat = some id

/-- What is asked of a call: nothing, unless it is a write that finds a record. This is the record
of one of the ids, and when it has blocks, its indirect block was allocated for the object, as it is
for every object that exists. The write overwrites a data block of the object, or appends when there
are enough free blocks; without any, it fails for an object that has no blocks. -/
def ServeOk (L : Lawful σ Set.univ) (s : OwnedStore σ) : StoreOp → Prop
  | .write objid _ size offset => Reached L s.store objid size →
      objid < 2^20 ∧ s.OwnTable L objid.toNat ∧
      if u32 offset / 4096 < (record (L.content s.store.layer) objid.toNat).blocknum.toNat then
        s.IsData L objid.toNat (target (L.content s.store.layer)
          (record (L.content s.store.layer) objid.toNat) (u32 offset / 4096))
      else Room s.store.toTables (record (L.content s.store.layer) objid.toNat) ∨
        (record (L.content s.store.layer) objid.toNat).blocknum = 0 ∧
          ∀ b, 2 ≤ b → b < 2^23 → s.store.blockmap.bit b = true
  | _ => True

end GemOS.Objstore
