import GemOS.Lib.Simulation
import GemOS.Objstore.FileCalls

/-!
# The store over the cache

The object store runs over the cache. `Layers R` says of two block layers that no read and no write
can tell them apart, in states that `R` relates; then no function of the store, and no call of the
file system, can tell them apart either. The functions change their tables in the same way, as these
depend on what was read only.
-/

namespace GemOS.Objstore

variable {σ τ : Type} [BlockLayer σ] [BlockLayer τ] {R : σ → τ → Prop} {s : Store σ} {t : Store τ}

/-- Every call of the layer `σ` that returns is simulated by the layer `τ`. -/
structure Layers (R : σ → τ → Prop) : Prop where
  /-- `read_block_modified`. -/
  read : ∀ l l' b buf, R l l' → Simulates (Same (Same R))
    (BlockLayer.readBlockModified l b buf) (BlockLayer.readBlockModified l' b buf)
  /-- `write_block_modified`. -/
  write : ∀ l l' b buf, R l l' → Simulates (Same R)
    (BlockLayer.writeBlockModified l b buf) (BlockLayer.writeBlockModified l' b buf)

/-- Two stores with the same tables, over related layers. -/
inductive Alike (R : σ → τ → Prop) : Store σ → Store τ → Prop where
  /-- The tables, and the layers. -/
  | mk (T : Tables) {l : σ} {l' : τ} (h : R l l') : Alike R ⟨T, l⟩ ⟨T, l'⟩

namespace Store

/-! ## Blocks and records -/

theorem simulates_readBlock (hR : Layers R) (h : Alike R s t) (b : ℕ) (buf : Block) :
    Simulates (Same (Same (Alike R))) (s.readBlock b buf) (t.readBlock b buf) := by
  obtain ⟨T, hl⟩ := h
  refine (hR.read _ _ b buf hl).bind ?_
  rintro ⟨r, out, l⟩ ⟨_, _, l'⟩ ⟨rfl, rfl, hl⟩
  exact .some (.mk (.mk (.mk T hl)))

theorem simulates_writeBlock (hR : Layers R) (h : Alike R s t) (b : ℕ) (buf : Block) :
    Simulates (Same (Alike R)) (s.writeBlock b buf) (t.writeBlock b buf) := by
  obtain ⟨T, hl⟩ := h
  refine (hR.write _ _ b buf hl).bind ?_
  rintro ⟨r, l⟩ ⟨_, l'⟩ ⟨rfl, hl⟩
  exact .some (.mk (.mk T hl))

omit [BlockLayer σ] [BlockLayer τ] in
theorem simulates_insertToHashTable (h : Alike R s t) (id index : ℕ) :
    Simulates (Alike R) (s.insertToHashTable id index) (t.insertToHashTable id index) := by
  obtain ⟨T, hl⟩ := h
  intro s' hs
  obtain ⟨T', hT, hs'⟩ := Option.bind_eq_some_iff.mp hs
  obtain rfl := Option.some.inj hs'
  exact ⟨_, Option.bind_eq_some_iff.mpr ⟨T', hT, rfl⟩, .mk T' hl⟩

theorem simulates_getObjectById (hR : Layers R) (h : Alike R s t) (id : ℕ) :
    Simulates (Same (Alike R)) (s.getObjectById id) (t.getObjectById id) := by
  refine (simulates_readBlock hR h _ _).bind ?_
  rintro ⟨r, buf, s⟩ ⟨_, _, t⟩ ⟨rfl, rfl, h⟩
  dsimp only
  split_ifs <;> exact .some (.mk h)

theorem simulates_insertToDisk (hR : Layers R) (h : Alike R s t) (obj : Object) :
    Simulates (Alike R) (s.insertToDisk obj) (t.insertToDisk obj) := by
  refine (simulates_readBlock hR h _ _).bind ?_
  rintro ⟨r, buf, s⟩ ⟨_, _, t⟩ ⟨rfl, rfl, h⟩
  dsimp only
  split_ifs
  · exact .some h
  · refine (simulates_writeBlock hR h _ _).bind ?_
    rintro ⟨r, s⟩ ⟨_, t⟩ ⟨rfl, h⟩
    exact .some h

/-! ## Keys -/

theorem simulates_search (hR : Layers R) (key : List UInt8) (fuel : ℕ) (par itr : Ptr)
    (h : Alike R s t) :
    Simulates (Same (Alike R)) (search key fuel par itr s) (search key fuel par itr t) := by
  induction fuel generalizing par itr s t with
  | zero => exact .none
  | succ fuel ih =>
    cases itr with
    | none => exact .some (.mk h)
    | some a =>
      have htables : s.toTables = t.toTables := by cases h; rfl
      unfold search
      rw [htables]
      refine (simulates_getObjectById hR h _).bind ?_
      rintro ⟨obj, s⟩ ⟨_, t⟩ ⟨rfl, ⟨T, hl⟩⟩
      cases obj with
      | none => exact .some (.mk (.mk T hl))
      | some obj =>
        dsimp only
        split_ifs
        · exact .some (.mk (.mk T hl))
        · exact ih _ _ (.mk T hl)

theorem simulates_searchKey (hR : Layers R) (h : Alike R s t) (key : List UInt8) :
    Simulates (Same (Alike R)) (s.searchKey key) (t.searchKey key) := by
  obtain ⟨T, hl⟩ := h
  exact simulates_search hR key _ _ _ (.mk T hl)

theorem simulates_findObjectId (hR : Layers R) (h : Alike R s t) (key : List UInt8) :
    Simulates (Same (Alike R)) (s.findObjectId key) (t.findObjectId key) := by
  refine (simulates_searchKey hR h key).bind ?_
  rintro ⟨r, s⟩ ⟨_, t⟩ ⟨rfl, ⟨T, hl⟩⟩
  cases r <;> exact .some (.mk (.mk T hl))

theorem simulates_createObject (hR : Layers R) (h : Alike R s t) (key : List UInt8) :
    Simulates (Same (Alike R)) (s.createObject key) (t.createObject key) := by
  refine (simulates_searchKey hR h key).bind ?_
  rintro ⟨r, s⟩ ⟨_, t⟩ ⟨rfl, ⟨T, hl⟩⟩
  cases r with
  | noRecord => exact .some (.mk (.mk T hl))
  | found par node obj => exact .some (.mk (.mk T hl))
  | missing par =>
    dsimp only [fetchFreeId]
    split_ifs
    · exact .some (.mk (.mk _ hl))
    · unfold Object.strcpy
      split_ifs
      swap
      · exact .none
      cases par with
      | none =>
        refine (simulates_insertToHashTable (.mk _ hl) _ _).bind fun _ _ h => ?_
        exact (simulates_insertToDisk hR h _).bind fun _ _ h => .some (.mk h)
      | some par =>
        refine (simulates_insertToHashTable (.mk _ hl) _ _).bind fun _ _ h => ?_
        exact (simulates_insertToDisk hR h _).bind fun _ _ h => .some (.mk h)

theorem simulates_freeObjectBlocks (hR : Layers R) (h : Alike R s t) (ptr objfs : Arg) :
    Simulates (Alike R) (s.freeObjectBlocks ptr objfs) (t.freeObjectBlocks ptr objfs) := by
  cases ptr with
  | store => exact .none
  | num n =>
    cases objfs with
    | num m => exact .none
    | store =>
      refine (simulates_readBlock hR h _ _).bind ?_
      rintro ⟨r, blocks, s⟩ ⟨_, _, t⟩ ⟨rfl, rfl, ⟨T, hl⟩⟩
      exact .some (.mk _ hl)

theorem simulates_removeObjectCached (hR : Layers R) (h : Alike R s t) (obj : Object) :
    Simulates (Alike R) (s.removeObjectCached obj) (t.removeObjectCached obj) := by
  obtain ⟨T, hl⟩ := h
  unfold removeObjectCached
  have hfree : ∀ (s : Store σ) (t : Store τ) (i : Fin 4), Alike R s t → Simulates (Alike R)
      (s.freeObjectBlocks .store (.num (obj.level1 i).toNat) >>= fun s =>
        pure { s with toTables := s.freeBlock (obj.level1 i).toNat })
      (t.freeObjectBlocks .store (.num (obj.level1 i).toNat) >>= fun t =>
        pure { t with toTables := t.freeBlock (obj.level1 i).toNat }) := by
    intro s t i h
    refine (simulates_freeObjectBlocks hR h _ _).bind ?_
    rintro s t ⟨T, hl⟩
    exact .some (.mk _ hl)
  dsimp only
  split_ifs
  iterate 4 exact Simulates.foldlM hfree (.mk _ hl)
  exact .some (.mk _ hl)

theorem simulates_destroyObject (hR : Layers R) (h : Alike R s t) (key : List UInt8) :
    Simulates (Same (Alike R)) (s.destroyObject key) (t.destroyObject key) := by
  refine (simulates_searchKey hR h key).bind ?_
  rintro ⟨r, s⟩ ⟨_, t⟩ ⟨rfl, h⟩
  cases r with
  | missing par => exact .some (.mk h)
  | noRecord => exact .some (.mk h)
  | found par itr obj =>
    refine (simulates_removeObjectCached hR h obj).bind ?_
    rintro s t ⟨T, hl⟩
    exact .some (.mk (.mk _ hl))

theorem simulates_rekey (hR : Layers R) (h : Alike R s t) (obj : Object) (newname : List UInt8)
    (rest : ℕ → UInt8) :
    Simulates (Alike R) (s.rekey obj newname rest) (t.rekey obj newname rest) :=
  (simulates_insertToHashTable h _ _).bind fun _ _ h => simulates_insertToDisk hR h _

theorem simulates_renameObject (hR : Layers R) (h : Alike R s t) (key newname : List UInt8)
    (rest : ℕ → UInt8) :
    Simulates (Same (Alike R)) (s.renameObject key newname rest)
      (t.renameObject key newname rest) := by
  obtain ⟨T, hl⟩ := h
  unfold renameObject
  dsimp only
  cases T.hashTable (hash key) with
  | none => exact .some (.mk (.mk T hl))
  | some temp =>
    refine (simulates_getObjectById hR (.mk T hl) _).bind ?_
    rintro ⟨obj, s⟩ ⟨_, t⟩ ⟨rfl, ⟨T, hl⟩⟩
    dsimp only
    split_ifs
    · exact .none
    · cases obj with
      | none => exact .none
      | some obj =>
        refine (simulates_rekey hR (.mk T hl) obj newname rest).bind ?_
        rintro s t ⟨T, hl⟩
        exact .some (.mk (.mk _ hl))
    · refine (simulates_searchKey hR (.mk T hl) key).bind ?_
      rintro ⟨r, s⟩ ⟨_, t⟩ ⟨rfl, h⟩
      cases r with
      | missing par => exact .some (.mk h)
      | noRecord => exact .some (.mk h)
      | found itr temp obj =>
        refine (simulates_rekey hR h obj newname rest).bind ?_
        rintro s t ⟨T, hl⟩
        cases itr with
        | none => exact .none
        | some itr => exact .some (.mk (.mk _ hl))

/-! ## Data -/

theorem simulates_findReadCached (hR : Layers R) (h : Alike R s t) (obj : Object) (size : ℤ)
    (offset : ℕ) :
    Simulates (Same (Same (Alike R))) (s.findReadCached obj size offset)
      (t.findReadCached obj size offset) := by
  unfold findReadCached
  dsimp only
  split_ifs
  · exact .some (.mk (.mk h))
  · refine (simulates_readBlock hR h _ _).bind ?_
    rintro ⟨r, level1Ptr, s⟩ ⟨_, _, t⟩ ⟨rfl, rfl, h⟩
    refine (simulates_readBlock hR h _ _).bind ?_
    rintro ⟨r, ans, s⟩ ⟨_, _, t⟩ ⟨rfl, rfl, h⟩
    exact .some (.mk (.mk h))

omit [BlockLayer σ] [BlockLayer τ] in
/-- The allocation of an indirect block depends on the tables only. -/
theorem indirect_same (h : Alike R s t) (obj : Object) (k : ℕ) :
    Same (Alike R) (s.indirect obj k) (t.indirect obj k) := by
  obtain ⟨T, hl⟩ := h
  unfold indirect fetchFreeBlock
  dsimp only
  split_ifs
  · exact ⟨rfl, .mk _ hl⟩
  all_goals
    dsimp only
    split_ifs <;> exact ⟨rfl, .mk _ hl⟩

theorem simulates_append (hR : Layers R) (h : Alike R s t) (obj : Object) (level1Ptr : Block)
    (userBuf : ℕ → UInt8) (size : ℤ) (k : ℕ) :
    Simulates (Same (Alike R)) (s.append obj level1Ptr userBuf size k)
      (t.append obj level1Ptr userBuf size k) := by
  obtain ⟨T, hl⟩ := h
  refine (simulates_writeBlock hR (.mk _ hl) _ _).bind ?_
  rintro ⟨r, s⟩ ⟨_, t⟩ ⟨rfl, h⟩
  dsimp only
  split_ifs
  · exact .some (.mk h)
  · unfold memcpyWriteBuf
    split_ifs
    swap
    · exact .none
    refine (simulates_writeBlock hR h _ _).bind ?_
    rintro ⟨r, s⟩ ⟨_, t⟩ ⟨rfl, h⟩
    dsimp only
    split_ifs
    · exact .some (.mk h)
    · exact (simulates_insertToDisk hR h _).bind fun _ _ h => .some (.mk h)

theorem simulates_findWriteCached (hR : Layers R) (h : Alike R s t) (obj : Object)
    (userBuf : ℕ → UInt8) (size : ℤ) (offset : ℕ) :
    Simulates (Same (Alike R)) (s.findWriteCached obj userBuf size offset)
      (t.findWriteCached obj userBuf size offset) := by
  unfold findWriteCached
  split_ifs
  · exact .some (.mk h)
  · dsimp only
    obtain ⟨hobj, h⟩ := indirect_same h obj (offset / 4096)
    revert hobj h
    generalize s.indirect obj (offset / 4096) = x
    generalize t.indirect obj (offset / 4096) = y
    obtain ⟨o, s⟩ := x
    obtain ⟨o', t⟩ := y
    rintro rfl h
    cases o with
    | none => exact .some (.mk h)
    | some obj =>
      refine (simulates_readBlock hR h _ _).bind ?_
      rintro ⟨r, level1Ptr, s⟩ ⟨_, _, t⟩ ⟨rfl, rfl, h⟩
      dsimp only
      split_ifs
      · unfold memcpyWriteBuf
        split_ifs
        swap
        · exact .none
        refine (simulates_writeBlock hR h _ _).bind ?_
        rintro ⟨r, s⟩ ⟨_, t⟩ ⟨rfl, h⟩
        dsimp only
        split_ifs <;> exact .some (.mk h)
      · exact simulates_append hR h _ _ _ _ _

theorem simulates_objstoreWrite (hR : Layers R) (h : Alike R s t) (objid : ℤ) (buf : ℕ → UInt8)
    (size offset : ℤ) :
    Simulates (Same (Alike R)) (s.objstoreWrite objid buf size offset)
      (t.objstoreWrite objid buf size offset) := by
  refine (simulates_getObjectById hR h _).bind ?_
  rintro ⟨obj, s⟩ ⟨_, t⟩ ⟨rfl, h⟩
  cases obj with
  | none => exact .some (.mk h)
  | some obj =>
    dsimp only
    split_ifs
    · exact .some (.mk h)
    · refine (simulates_findWriteCached hR h _ _ _ _).bind ?_
      rintro ⟨r, s⟩ ⟨_, t⟩ ⟨rfl, h⟩
      dsimp only
      split_ifs <;> exact .some (.mk h)

theorem simulates_readLoop (hR : Layers R) (h : Alike R s t) (obj : Object) (offset fuel : ℕ)
    (buf : ℕ → UInt8) (offcheck sizecheck : ℕ) :
    Simulates (Same (Same (Alike R))) (readLoop obj offset fuel buf offcheck sizecheck s)
      (readLoop obj offset fuel buf offcheck sizecheck t) := by
  induction fuel generalizing buf offcheck sizecheck s t with
  | zero => exact .none
  | succ fuel ih =>
    unfold readLoop
    dsimp only
    split_ifs
    · exact .some (.mk (.mk h))
    all_goals
      refine (simulates_findReadCached hR h _ _ _).bind ?_
      rintro ⟨r, buffer, s⟩ ⟨_, _, t⟩ ⟨rfl, rfl, h⟩
      dsimp only
      split_ifs
      · exact .some (.mk (.mk h))
      · exact ih h _ _ _

theorem simulates_objstoreRead (hR : Layers R) (h : Alike R s t) (objid : ℤ) (buf : ℕ → UInt8)
    (size offset : ℤ) :
    Simulates (Same (Same (Alike R))) (s.objstoreRead objid buf size offset)
      (t.objstoreRead objid buf size offset) := by
  refine (simulates_getObjectById hR h _).bind ?_
  rintro ⟨obj, s⟩ ⟨_, t⟩ ⟨rfl, h⟩
  cases obj with
  | none => exact .some (.mk (.mk h))
  | some obj =>
    dsimp only
    split_ifs
    · exact .some (.mk (.mk h))
    · refine (simulates_readLoop hR h _ _ _ _ _ _).bind ?_
      rintro ⟨ok, buf, s⟩ ⟨_, _, t⟩ ⟨rfl, rfl, h⟩
      cases ok <;> exact .some (.mk (.mk h))

theorem simulates_fillupSizeDetails (hR : Layers R) (h : Alike R s t) (buf : Stat) :
    Simulates (Same (Same (Alike R))) (s.fillupSizeDetails buf) (t.fillupSizeDetails buf) := by
  refine (simulates_getObjectById hR h _).bind ?_
  rintro ⟨obj, s⟩ ⟨_, t⟩ ⟨rfl, h⟩
  cases obj with
  | none => exact .some (.mk (.mk h))
  | some obj =>
    dsimp only
    split_ifs <;> exact .some (.mk (.mk h))

/-! ## Calls of the file system -/

theorem simulates_objfsGetattr (hR : Layers R) (d : Defaults) (h : Alike R s t)
    (key : List UInt8) :
    Simulates (Same (Same (Alike R))) (s.objfsGetattr d key) (t.objfsGetattr d key) := by
  unfold objfsGetattr
  split_ifs
  · exact .some (.mk (.mk h))
  · refine (simulates_findObjectId hR h _).bind ?_
    rintro ⟨id, s⟩ ⟨_, t⟩ ⟨rfl, h⟩
    dsimp only
    split_ifs
    · exact .some (.mk (.mk h))
    · refine (simulates_fillupSizeDetails hR h _).bind ?_
      rintro ⟨r, stat, s⟩ ⟨_, _, t⟩ ⟨rfl, rfl, h⟩
      dsimp only
      split_ifs <;> exact .some (.mk (.mk h))

theorem simulates_objfsCreate (hR : Layers R) (h : Alike R s t) (key : List UInt8) :
    Simulates (Same (Same (Alike R))) (s.objfsCreate key) (t.objfsCreate key) := by
  refine (simulates_createObject hR h _).bind ?_
  rintro ⟨id, s⟩ ⟨_, t⟩ ⟨rfl, h⟩
  dsimp only
  split_ifs <;> exact .some (.mk (.mk h))

theorem simulates_objfsOpen (hR : Layers R) (h : Alike R s t) (key : List UInt8) :
    Simulates (Same (Same (Alike R))) (s.objfsOpen key) (t.objfsOpen key) := by
  refine (simulates_findObjectId hR h _).bind ?_
  rintro ⟨id, s⟩ ⟨_, t⟩ ⟨rfl, h⟩
  dsimp only
  split_ifs <;> exact .some (.mk (.mk h))

theorem simulates_objfsRead (hR : Layers R) (h : Alike R s t) (fh : ℕ) (buf : ℕ → UInt8)
    (size : ℕ) (offset : ℤ) :
    Simulates (Same (Same (Alike R))) (s.objfsRead fh buf size offset)
      (t.objfsRead fh buf size offset) := by
  refine (simulates_objstoreRead hR h _ _ _ _).bind ?_
  rintro ⟨r, buf, s⟩ ⟨_, _, t⟩ ⟨rfl, rfl, h⟩
  dsimp only
  split_ifs <;> exact .some (.mk (.mk h))

theorem simulates_objfsWrite (hR : Layers R) (h : Alike R s t) (fh : ℕ) (buf : ℕ → UInt8)
    (size : ℕ) (offset : ℤ) :
    Simulates (Same (Alike R)) (s.objfsWrite fh buf size offset)
      (t.objfsWrite fh buf size offset) := by
  refine (simulates_objstoreWrite hR h _ _ _ _).bind ?_
  rintro ⟨r, s⟩ ⟨_, t⟩ ⟨rfl, h⟩
  dsimp only
  split_ifs <;> exact .some (.mk h)

theorem simulates_objfsUnlink (hR : Layers R) (h : Alike R s t) (key : List UInt8) :
    Simulates (Same (Alike R)) (s.objfsUnlink key) (t.objfsUnlink key) := by
  refine (simulates_destroyObject hR h _).bind ?_
  rintro ⟨r, s⟩ ⟨_, t⟩ ⟨rfl, h⟩
  exact .some (.mk h)

theorem simulates_objfsRenameKey (hR : Layers R) (h : Alike R s t) (oldkey newkey : List UInt8)
    (rest : ℕ → UInt8) :
    Simulates (Same (Alike R)) (s.objfsRenameKey oldkey newkey rest)
      (t.objfsRenameKey oldkey newkey rest) := by
  refine (simulates_renameObject hR h _ _ _).bind ?_
  rintro ⟨r, s⟩ ⟨_, t⟩ ⟨rfl, h⟩
  exact .some (.mk h)

/-- No call of FUSE can tell the layers apart. -/
theorem simulates_fsStep (hR : Layers R) (d : Defaults) (h : Alike R s t) (c : FsCall) :
    Simulates (Same (Alike R)) (s.fsStep d c) (t.fsStep d c) := by
  cases c with
  | getattr key =>
    refine (simulates_objfsGetattr hR d h key).map ?_
    rintro ⟨r, statbuf, s⟩ ⟨_, _, t⟩ ⟨rfl, rfl, h⟩
    exact .mk h
  | create key =>
    refine (simulates_objfsCreate hR h key).map ?_
    rintro ⟨r, fh, s⟩ ⟨_, _, t⟩ ⟨rfl, rfl, h⟩
    exact .mk h
  | unlink key =>
    refine (simulates_objfsUnlink hR h key).map ?_
    rintro ⟨r, s⟩ ⟨_, t⟩ ⟨rfl, h⟩
    exact .mk h
  | openFile key =>
    refine (simulates_objfsOpen hR h key).map ?_
    rintro ⟨r, fh, s⟩ ⟨_, _, t⟩ ⟨rfl, rfl, h⟩
    exact .mk h
  | read fh buf size offset =>
    refine (simulates_objfsRead hR h fh buf size offset).map ?_
    rintro ⟨r, buf, s⟩ ⟨_, _, t⟩ ⟨rfl, rfl, h⟩
    exact .mk h
  | write fh buf size offset =>
    refine (simulates_objfsWrite hR h fh buf size offset).map ?_
    rintro ⟨r, s⟩ ⟨_, t⟩ ⟨rfl, h⟩
    exact .mk h
  | release fh => exact .some (.mk h)
  | rename oldkey newkey rest =>
    refine (simulates_objfsRenameKey hR h oldkey newkey rest).map ?_
    rintro ⟨r, s⟩ ⟨_, t⟩ ⟨rfl, h⟩
    exact .mk h

end Store

/-- No run of calls of FUSE can tell the layers apart. -/
theorem Layers.run (hR : Layers R) (d : Defaults) (h : Alike R s t) (calls : List FsCall) :
    Simulates (Same (Alike R)) (Run.run (Store.fsStep d) s calls)
      (Run.run (Store.fsStep d) t calls) :=
  Simulates.run (fun _ _ c h => Store.simulates_fsStep hR d h c) h

end GemOS.Objstore
