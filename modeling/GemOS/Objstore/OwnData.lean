import GemOS.Objstore.Loose
import GemOS.Objstore.Reads
import GemOS.Objstore.Serve

/-!
# The data blocks of an object

`OwnData` is the invariant of runs whose overwrites go to data blocks of their objects (`ServeOk`):
every block that was allocated for the data of an object holds data that were written to this object
since it was created. Objects may be destroyed and their ids used again, so that the namespace is
that of `Loose`. Every call that meets the condition keeps it (`OwnData.serve`).
-/

namespace GemOS.Objstore

variable {σ : Type} [BlockLayer σ]

/-! ## The invariant -/

/-- The object has a record, and its indirect block, if it has one, was allocated for it. -/
structure OwnedStore.Tracked (L : Lawful σ Set.univ) (s : OwnedStore σ) (id : ℕ) : Prop extends
    HasRecord (L.content s.store.layer) id where
  /-- The indirect block. -/
  table : s.OwnTable L id

/-- The invariant of the run: the data blocks of an object hold data that were written to it. -/
structure OwnData (L : Lawful σ Set.univ) (hist : List (StoreOp × ℤ)) (s : OwnedStore σ)
    (U : Finset ℕ) : Prop where
  /-- What is left of the namespace. -/
  loose : Store.Loose L s.store U
  /-- The metadata blocks and the record blocks are in use. -/
  reserved : ∀ b < 17696, s.store.blockmap.bit b = true
  /-- The objects that exist. -/
  tracked : ∀ id : ℕ, InUse s.store.toTables id → s.Tracked L id
  /-- The blocks with an owner are in use. -/
  owned : ∀ b j, s.own b = some j → 17696 ≤ b ∧ s.store.blockmap.bit b = true
  /-- An object has blocks when it was written. -/
  live : ∀ b id, s.own b = some id →
    s.Tracked L id ∧ (record (L.content s.store.layer) id).blocknum ≠ 0
  /-- The number of blocks of an object is even. -/
  even : ∀ id, s.Tracked L id → (record (L.content s.store.layer) id).blocknum.toNat % 2 = 0
  /-- Every append takes a block, and adds 2 to `blocknum`. -/
  bound : ∀ id, s.Tracked L id →
    (record (L.content s.store.layer) id).blocknum.toNat ≤ 2 * (usedBlocks s.store.toTables).card
  /-- The data blocks. -/
  data : ∀ b id, s.IsData L id b →
    ∃ data size, WrittenTo hist id data size ∧ L.content s.store.layer b = Store.writeBuf data size

/-- From `s` to `s'`, the object keeps its table and its blocks. -/
structure KeepsTable (L : Lawful σ Set.univ) (s s' : OwnedStore σ) (id : ℕ) : Prop where
  /-- It had a record. -/
  hasRecord : HasRecord (L.content s.store.layer) id
  /-- The number of blocks. -/
  blocknum : (record (L.content s'.store.layer) id).blocknum =
    (record (L.content s.store.layer) id).blocknum
  /-- The indirect blocks. -/
  level1 : (record (L.content s'.store.layer) id).level1 =
    (record (L.content s.store.layer) id).level1
  /-- The blocks that were allocated for it. -/
  own : ∀ b, s'.own b = some id ↔ s.own b = some id

variable {L : Lawful σ Set.univ} {hist : List (StoreOp × ℤ)} {s s' : OwnedStore σ}
  {U U' : Finset ℕ} {e : StoreOp × ℤ}
  {t : Store σ} {id k : ℕ} {data : ℕ → UInt8} {objid size offset r : ℤ} {op : StoreOp}

theorem disown_eq_some {own : ℕ → Option ℕ} {i j b : ℕ} :
    disown own i b = some j ↔ own b = some j ∧ j ≠ i := by
  unfold disown
  split_ifs with hi
  · rw [hi, Option.some.injEq]
    exact iff_of_false (by simp) fun h => h.2 h.1.symm
  · refine ⟨fun hj => ⟨hj, ?_⟩, fun hj => hj.1⟩
    rintro rfl
    exact hi hj

theorem disown_eq_self {own : ℕ → Option ℕ} {i : ℕ} (h : ∀ b, own b ≠ some i) :
    disown own i = own := by
  funext b
  exact if_neg (h b)

namespace KeepsTable

theorem ownTable_iff (h : KeepsTable L s s' id) : s'.OwnTable L id ↔ s.OwnTable L id := by
  rw [OwnedStore.OwnTable, OwnedStore.OwnTable, h.blocknum, h.level1, h.own]

theorem isData_iff (h : KeepsTable L s s' id) {b : ℕ} : s'.IsData L id b ↔ s.IsData L id b := by
  rw [OwnedStore.IsData, OwnedStore.IsData, h.level1, h.own]

theorem tracked (h : KeepsTable L s s' id) (ht : s'.Tracked L id) : s.Tracked L id :=
  ⟨h.hasRecord, h.ownTable_iff.mp ht.table⟩

/-- A write keeps the table and the blocks of every other object. -/
theorem of_wrote (hw : Wrote L s.store t id) {j : ℕ} (hne : j ≠ id)
    (hj : HasRecord (L.content t.layer) j) {own : ℕ → Option ℕ}
    (hown : ∀ b, own b = some j ↔ s.own b = some j) : KeepsTable L s ⟨t, own⟩ j :=
  ⟨hw.hasRecord_iff.mp hj, congrArg Object.blocknum (hw.others j hne hj.two_le hj.lt),
    congrArg Object.level1 (hw.others j hne hj.two_le hj.lt), hown⟩

end KeepsTable

namespace OwnData

/-- A step that takes no block. Every object is new, without blocks, or keeps its table and its
blocks, and every block of an object has its content, or the data that the step wrote to it. -/
theorem frame (h : OwnData L hist s U) (hloose : Store.Loose L s'.store U')
    (hbit : s'.store.blockmap = s.store.blockmap)
    (huse : ∀ id : ℕ, InUse s'.store.toTables id →
      InUse s.store.toTables id ∨ (record (L.content s'.store.layer) id).blocknum = 0)
    (hrec : ∀ id, HasRecord (L.content s.store.layer) id ∨ InUse s'.store.toTables id →
      HasRecord (L.content s'.store.layer) id)
    (hobj : ∀ id, HasRecord (L.content s'.store.layer) id →
      ((record (L.content s'.store.layer) id).blocknum = 0 ∧ ∀ b, s'.own b ≠ some id) ∨
        KeepsTable L s s' id ∧ createsObject id e = false)
    (hown : ∀ b id, s'.own b = some id → s.own b = some id)
    (hcont : ∀ b id, s.own b = some id → L.content s'.store.layer b = L.content s.store.layer b ∨
      ∃ data size, WrittenTo (hist ++ [e]) id data size ∧
        L.content s'.store.layer b = Store.writeBuf data size) :
    OwnData L (hist ++ [e]) s' U' := by
  have hused : usedBlocks s'.store.toTables = usedBlocks s.store.toTables := by
    unfold usedBlocks
    rw [hbit]
  -- An object that owns a block is not new.
  have hkeeps : ∀ b id, s'.own b = some id → KeepsTable L s s' id ∧ createsObject id e = false :=
    fun b id hb => (hobj id (hrec id (Or.inl (h.live b id
      (hown b id hb)).1.toHasRecord))).resolve_left fun hnew => hnew.2 b hb
  refine ⟨hloose, ?_, fun id hid => ?_, fun b id hb => ?_, fun b id hb => ?_, fun id hid => ?_,
    fun id hid => ?_, fun b id hb => ?_⟩
  · rw [hbit]
    exact h.reserved
  · have hid' := hrec id (Or.inr hid)
    refine ⟨hid', fun h0 => ?_⟩
    have hold := (huse id hid).resolve_right h0
    obtain ⟨hk, -⟩ := (hobj id hid').resolve_left fun hnew => h0 hnew.1
    exact hk.ownTable_iff.mpr (h.tracked id hold).table h0
  · rw [hbit]
    exact h.owned b id (hown b id hb)
  · obtain ⟨hid, h0⟩ := h.live b id (hown b id hb)
    obtain ⟨hk, -⟩ := hkeeps b id hb
    refine ⟨⟨hrec id (Or.inl hid.toHasRecord), hk.ownTable_iff.mpr hid.table⟩, ?_⟩
    rw [hk.blocknum]
    exact h0
  · rcases hobj id hid.toHasRecord with ⟨h0, -⟩ | ⟨hk, -⟩
    · rw [h0]
      rfl
    · rw [hk.blocknum]
      exact h.even id (hk.tracked hid)
  · rw [hused]
    rcases hobj id hid.toHasRecord with ⟨h0, -⟩ | ⟨hk, -⟩
    · rw [h0]
      exact Nat.zero_le _
    · rw [hk.blocknum]
      exact h.bound id (hk.tracked hid)
  · obtain ⟨hk, he⟩ := hkeeps b id hb.1
    rcases hcont b id (hown b id hb.1) with heq | hnew
    · obtain ⟨data, size, hwritten, hvalue⟩ := h.data b id (hk.isData_iff.mp hb)
      exact ⟨data, size, hwritten.append he, heq.trans hvalue⟩
    · exact hnew

/-- A call that keeps the contents and creates no object. -/
theorem calls (h : OwnData L hist s U) (hc : Store.Calls L s.store t (L.content s.store.layer))
    (he : ∀ id, createsObject id e = false) : OwnData L (hist ++ [e]) ⟨t, s.own⟩ U := by
  refine h.frame (h.loose.calls hc) (by rw [hc.tables]) (fun id hid => Or.inl ?_)
    (fun id hid => ?_) (fun id hid => Or.inr ⟨?_, he id⟩) (fun b id hb => hb)
    fun b id _ => Or.inl (by rw [hc.content])
  · dsimp only at hid
    rwa [hc.tables] at hid
  · dsimp only at hid ⊢
    rw [hc.tables] at hid
    rw [hc.content]
    exact hid.elim (fun hid => hid) fun hid => (h.tracked id hid).toHasRecord
  · dsimp only at hid
    rw [hc.content] at hid
    exact ⟨hid, by rw [hc.content], by rw [hc.content], fun b => Iff.rfl⟩

/-- `create_object` gives a new object without blocks. -/
theorem create (h : OwnData L hist s U) {key : List UInt8}
    (hserve : s.serve (.create key) = some (r, s')) :
    ∃ U', OwnData L (hist ++ [(.create key, r)]) s' U' := by
  obtain ⟨⟨r', t⟩, hcreate, heq⟩ := Option.map_eq_some_iff.mp hserve
  obtain ⟨rfl, rfl⟩ : r' = r ∧ ⟨t, disown s.own r'.toNat⟩ = s' := by simpa using heq
  rcases h.loose.createObject (fun b _ => Set.mem_univ b) hcreate with
    ⟨rfl, hc⟩ | ⟨id, rfl, hinv, hmade, U', hnodes⟩
  · -- The key was refused, and -1 is no id.
    have hsame : disown s.own (-1 : ℤ).toNat = s.own := disown_eq_self fun b hb =>
      absurd (h.live b 0 hb).1.two_le (by norm_num)
    rw [hsame]
    exact ⟨U, h.calls hc fun id => beq_false_of_ne (by omega)⟩
  · rw [Int.toNat_natCast]
    have hown : ∀ b j, disown s.own id b = some j ↔ s.own b = some j ∧ j ≠ id :=
      fun b j => disown_eq_some
    have h₂ := hmade.two_le
    have hlt := hmade.lt
    have hself : HasRecord (L.content t.layer) id := by
      refine ⟨h₂, hlt, ?_⟩
      rw [hmade.record_self, newObject_id key (by omega)]
    have hrec : ∀ j, HasRecord (L.content s.store.layer) j → HasRecord (L.content t.layer) j :=
      fun j hj => by
        rw [hmade.content]
        exact hj.setRecord h₂ hlt (newObject_id key (by omega))
    refine ⟨U', h.frame ⟨hinv, hnodes _ (h.loose.nodes.imp hrec) hself⟩ hmade.blockmap
      (fun j hj => ?_) (fun j hj => ?_) (fun j hj => ?_) (fun b j hb => ((hown b j).mp hb).1)
      fun b j hb => Or.inl ?_⟩
    · refine (hmade.inUse_iff.mp hj).imp_right ?_
      rintro rfl
      dsimp only
      rw [hmade.record_self, newObject_blocknum]
    · refine hj.elim (hrec j) fun hj => ?_
      rcases hmade.inUse_iff.mp hj with hj | rfl
      · exact hrec j (h.tracked j hj).toHasRecord
      · exact hself
    · by_cases hne : j = id
      · -- Whatever an earlier object with the id had is not the blocks of the new one.
        refine Or.inl ⟨?_, fun b hb => ((hown b j).mp hb).2 hne⟩
        dsimp only
        rw [hne, hmade.record_self, newObject_blocknum]
      · have hsame := hmade.record_of_ne hj.two_le hj.lt hne
        dsimp only at hj
        refine Or.inr ⟨⟨⟨hj.two_le, hj.lt, ?_⟩, congrArg Object.blocknum hsame,
          congrArg Object.level1 hsame, fun b => (hown b j).trans (and_iff_left hne)⟩, ?_⟩
        · rw [← hsame]
          exact hj.present
        · rw [createsObject]
          exact beq_false_of_ne (by omega)
    · have hge := (h.owned b j hb).1
      exact hmade.content_of_not_mem (by rw [recordBlocks, Finset.mem_Ico]; omega)

/-- `rename_object` changes the key in a record. -/
theorem rename (h : OwnData L hist s U) {key newname : List UInt8} {rest : ℕ → UInt8}
    (hserve : s.serve (.rename key newname rest) = some (r, s')) :
    ∃ U', OwnData L (hist ++ [(.rename key newname rest, r)]) s' U' := by
  obtain ⟨⟨r', t⟩, hrename, heq⟩ := Option.map_eq_some_iff.mp hserve
  obtain ⟨rfl, rfl⟩ : r' = r ∧ ⟨t, s.own⟩ = s' := by simpa using heq
  rcases h.loose.renameObject (fun b _ => Set.mem_univ b) hrename with
    ⟨-, hc⟩ | ⟨id, hid, hinv, hren, U', hnodes⟩
  · exact ⟨U, h.calls hc fun _ => rfl⟩
  have hlt := hid.lt
  have huse : ∀ j : ℕ, InUse t.toTables j ↔ InUse s.store.toTables j := fun j => by
    rw [InUse, InUse, hren.inodemap]
  -- The renamed object keeps its blocks, the others keep their records.
  have hrec : ∀ j : ℕ, 2 ≤ j → j < 2^20 →
      (record (L.content t.layer) j).id = (record (L.content s.store.layer) j).id ∧
        (record (L.content t.layer) j).blocknum = (record (L.content s.store.layer) j).blocknum ∧
        (record (L.content t.layer) j).level1 = (record (L.content s.store.layer) j).level1 := by
    intro j h₂ hj
    rw [hren.content]
    by_cases hne : j = id
    · rw [hne, record_setRecord_self]
      exact ⟨rfl, rfl, rfl⟩
    · rw [record_setRecord_of_ne _ hid.two_le (by omega) h₂ (by omega) hne]
      exact ⟨rfl, rfl, rfl⟩
  have hhas : ∀ j, HasRecord (L.content t.layer) j ↔ HasRecord (L.content s.store.layer) j :=
    fun j => hasRecord_congr fun i h₂ hi => (hrec i h₂ hi).1
  refine ⟨U', h.frame ⟨hinv, hnodes _ (h.loose.nodes.imp fun j => (hhas j).mpr) ((hhas id).mpr hid)⟩
    hren.blockmap (fun j hj => Or.inl ((huse j).mp hj)) (fun j hj => (hhas j).mpr ?_)
    (fun j hj => Or.inr ⟨⟨(hhas j).mp hj, (hrec j hj.two_le hj.lt).2.1,
      (hrec j hj.two_le hj.lt).2.2, fun b => Iff.rfl⟩, rfl⟩) (fun b j hb => hb)
    fun b j hb => Or.inl ?_⟩
  · exact hj.elim (fun hj => hj) fun hj => (h.tracked j ((huse j).mp hj)).toHasRecord
  · have hge := (h.owned b j hb).1
    have hblock := recordBlock_mem hid.two_le hid.lt
    rw [recordBlocks, Finset.mem_Ico] at hblock
    dsimp only
    rw [hren.content, setRecord_of_not_mem _ (by omega)]

/-- `destroy_object` frees the id of an object without blocks. -/
theorem destroy (h : OwnData L hist s U) {key : List UInt8}
    (hserve : s.serve (.destroy key) = some (r, s')) :
    OwnData L (hist ++ [(.destroy key, r)]) s' U := by
  obtain ⟨⟨r', t⟩, hdestroy, heq⟩ := Option.map_eq_some_iff.mp hserve
  obtain ⟨rfl, rfl⟩ : r' = r ∧ ⟨t, s.own⟩ = s' := by simpa using heq
  rcases h.loose.destroyObject (fun b _ => Set.mem_univ b) hdestroy with
    ⟨-, -, hc⟩ | ⟨s₁, a, -, -, -, hc, -, rfl⟩
  · exact h.calls hc fun _ => rfl
  -- The record stays on the disk: the object is tracked on, but does not exist.
  have h₁ := h.loose.calls hc
  have huse : ∀ j : ℕ, InUse (s₁.destroyed (s.store.heap.mem a).id a).toTables j →
      InUse s.store.toTables j := fun j hj => by
    obtain ⟨h₂, hlt, hbit⟩ := inUse_natCast.mp hj
    refine inUse_natCast.mpr ⟨h₂, hlt, ?_⟩
    have hbit' : (s₁.inodemap.clearBit (s.store.heap.mem a).id).bit j = true := hbit
    rw [ByteMap.bit_clearBit, hc.tables, Bool.and_eq_true] at hbit'
    exact hbit'.1
  have hcont : L.content (s₁.destroyed (s.store.heap.mem a).id a).layer =
      L.content s.store.layer := hc.content
  have hbit : (s₁.destroyed (s.store.heap.mem a).id a).blockmap = s.store.blockmap := by
    change s₁.blockmap = s.store.blockmap
    rw [hc.tables]
  refine h.frame ⟨h₁.inv, ?_⟩ hbit (fun j hj => Or.inl (huse j hj)) (fun j hj => ?_)
    (fun j hj => Or.inr ⟨?_, rfl⟩) (fun b j hb => hb) fun b j _ => Or.inl (congrFun hcont b)
  · rw [hcont, ← hc.content]
    exact Store.nodes_destroyed h₁.nodes _ _
  · dsimp only at hj ⊢
    rw [hcont]
    exact hj.elim (fun hj => hj) fun hj => (h.tracked j (huse j hj)).toHasRecord
  · dsimp only at hj
    rw [hcont] at hj
    exact ⟨hj, by rw [hcont], by rw [hcont], fun b => Iff.rfl⟩

/-- `find_object_id` changes nothing. -/
theorem find (h : OwnData L hist s U) {key : List UInt8}
    (hserve : s.serve (.find key) = some (r, s')) : OwnData L (hist ++ [(.find key, r)]) s' U := by
  obtain ⟨⟨r', t⟩, hfind, heq⟩ := Option.map_eq_some_iff.mp hserve
  obtain ⟨-, rfl⟩ : r' = r ∧ ⟨t, s.own⟩ = s' := by simpa using heq
  exact h.calls (h.loose.findObjectId (fun b _ => Set.mem_univ b) hfind) fun _ => rfl

/-- `objstore_read` changes nothing. -/
theorem read (h : OwnData L hist s U) {buf : ℕ → UInt8}
    (hserve : s.serve (.read objid buf size offset) = some (r, s')) :
    OwnData L (hist ++ [(.read objid buf size offset, r)]) s' U := by
  obtain ⟨⟨r', buf', t⟩, hobj, heq⟩ := Option.map_eq_some_iff.mp hserve
  obtain ⟨-, rfl⟩ : r' = r ∧ ⟨t, s.own⟩ = s' := by simpa using heq
  exact h.calls (Store.objstoreRead_calls h.loose.inv hobj) fun _ => rfl

/-- A write that changes nothing. -/
theorem write_fails (h : OwnData L hist s U)
    (hc : Store.Calls L s.store t (L.content s.store.layer)) :
    OwnData L (hist ++ [(.write objid data size offset, r)])
      ⟨t, ownAfter s.own objid.toNat s.store.toTables t.toTables⟩ U := by
  rw [ownAfter_of_tables s.own objid.toNat hc.tables]
  exact h.calls hc fun _ => rfl

/-- A write of a block that the object has. -/
theorem overwrite (h : OwnData L hist s U) (hid : s.Tracked L id) (hsize₀ : 0 ≤ size)
    (hsize : size ≤ 4096) (hk : u32 offset / 4096 <
      (record (L.content s.store.layer) id).blocknum.toNat)
    (htarget : s.IsData L id (target (L.content s.store.layer) (record (L.content s.store.layer) id)
      (u32 offset / 4096)))
    (hwrite : s.store.objstoreWrite id data size offset = some (r, t)) :
    OwnData L (hist ++ [(.write id data size offset, r)])
      ⟨t, ownAfter s.own id s.store.toTables t.toTables⟩ U := by
  obtain ⟨t', hwrite', hc⟩ := Store.objstoreWrite_overwrite data offset h.loose.inv hsize₀ hsize
    hid.two_le hid.lt rfl hid.present hk
  obtain ⟨rfl, rfl⟩ : size = r ∧ t' = t := by simpa using hwrite'.symm.trans hwrite
  have hge := (h.owned _ _ htarget.1).1
  -- The records are elsewhere.
  have hrec : ∀ j, 2 ≤ j → j < 2^20 →
      record (L.content t'.layer) j = record (L.content s.store.layer) j := fun j h₂ hj => by
    rw [hc.content, record_update_of_ge hge h₂ hj]
  have hhas : ∀ j, HasRecord (L.content t'.layer) j ↔ HasRecord (L.content s.store.layer) j :=
    fun j => hasRecord_congr fun i h₂ hi => congrArg Object.id (hrec i h₂ hi)
  have huse : ∀ j : ℕ, InUse t'.toTables j → InUse s.store.toTables j := fun j hj => by
    rwa [hc.tables] at hj
  rw [ownAfter_of_tables s.own id hc.tables]
  refine h.frame ⟨hc.inv, ?_⟩ (by rw [hc.tables]) (fun j hj => Or.inl (huse j hj))
    (fun j hj => (hhas j).mpr ?_) (fun j hj => Or.inr ⟨⟨(hhas j).mp hj,
      congrArg Object.blocknum (hrec j hj.two_le hj.lt),
      congrArg Object.level1 (hrec j hj.two_le hj.lt), fun b => Iff.rfl⟩, rfl⟩)
    (fun b j hb => hb) fun b j hb => ?_
  · dsimp only
    rw [hc.tables]
    exact h.loose.nodes.imp fun j => (hhas j).mpr
  · exact hj.elim (fun hj => hj) fun hj => (h.tracked j (huse j hj)).toHasRecord
  · dsimp only
    rw [hc.content]
    by_cases hbt : b = target (L.content s.store.layer) (record (L.content s.store.layer) id)
        (u32 offset / 4096)
    · -- The block of this object holds the data of this write.
      obtain rfl : id = j := by
        rw [hbt, htarget.1, Option.some.injEq] at hb
        exact hb
      rw [hbt, Function.update_self]
      exact Or.inr ⟨data, size, WrittenTo.last hsize₀ offset, rfl⟩
    · exact Or.inl (Function.update_of_ne hbt _ _)

section Append

variable {obj' : Object} {b j : ℕ}

variable (h : OwnData L hist s U) (hid : s.Tracked L id)
  (ha : Appends L s.store t id obj' k b (Store.writeBuf data size) size)

include h

/-- The owners after an append: the blocks that were in use keep theirs. -/
theorem ownAfter_eq_some (t' : Tables) (c j : ℕ) :
    ownAfter s.own id s.store.toTables t' c = some j ↔ s.own c = some j ∨
      j = id ∧ s.store.blockmap.bit c = false ∧ t'.blockmap.bit c = true := by
  rw [ownAfter]
  split_ifs with hnew
  · rw [Option.some.injEq]
    refine ⟨fun hj => Or.inr ⟨hj.symm, hnew⟩, fun hj => ?_⟩
    rcases hj with hj | ⟨rfl, -⟩
    · have hin := (h.owned c j hj).2
      rw [hnew.1] at hin
      exact absurd hin (by simp)
    · rfl
  · exact ⟨Or.inl, fun hj => hj.resolve_right fun hj => hnew hj.2⟩

include ha

/-- The other objects keep their tables and blocks. -/
theorem append_keeps (hne : j ≠ id) (hj : HasRecord (L.content t.layer) j) :
    KeepsTable L s (s.written id t) j :=
  KeepsTable.of_wrote ha.wrote hne hj fun c =>
    (h.ownAfter_eq_some t.toTables c j).trans (or_iff_left fun hnew => hne hnew.1)

include hid

/-- The number of blocks does not overflow. -/
theorem append_blocknum : (record (L.content t.layer) id).blocknum.toNat =
    (record (L.content s.store.layer) id).blocknum.toNat + 2 := by
  -- Each append so far has taken a block, so that the number is far below `2^32`.
  have hcard := usedBlocks_card_lt ha.wrote.blockmap ha.lt ha.free ((ha.bit b).mpr (by simp))
  have hbound := h.bound id hid
  have hle := usedBlocks_card_le t.toTables
  rw [ha.record_self, appended, ha.blocknum, UInt32.toNat_add, UInt32.toNat_add, UInt32.toNat_one]
  omega

/-- The indirect block is new, or the object had it. -/
theorem append_table : (s.written id t).own (obj'.level1 0).toNat = some id := by
  rcases ha.first with ⟨h0, -, -, hfree⟩ | ⟨h0, hobj⟩
  · exact (h.ownAfter_eq_some _ _ id).mpr
      (Or.inr ⟨rfl, hfree, (ha.bit _).mpr (Or.inr (Or.inr ⟨h0, rfl⟩))⟩)
  · refine (h.ownAfter_eq_some _ _ id).mpr (Or.inl ?_)
    rw [hobj] at h0 ⊢
    exact hid.table h0

theorem append_tracked (hj : s.Tracked L j) : (s.written id t).Tracked L j := by
  have hj' := ha.wrote.hasRecord_iff.mpr hj.toHasRecord
  by_cases hne : j = id
  · subst hne
    refine ⟨hj', fun _ => ?_⟩
    have htable := h.append_table hj ha
    dsimp only
    rwa [ha.record_self]
  · exact ⟨hj', (h.append_keeps ha hne hj').ownTable_iff.mpr hj.table⟩

/-- The data blocks of the object are those that it had and the new one, which holds the data of
the write; those of the other objects are as they were. -/
theorem append_data (hsize₀ : 0 ≤ size) {c : ℕ} (hc : (s.written id t).IsData L j c) :
    ∃ data' size', WrittenTo (hist ++ [(.write id data size offset, size)]) j data' size' ∧
      L.content t.layer c = Store.writeBuf data' size' := by
  have htable := h.append_table hid ha
  -- A block that an object had before, and that is not the indirect block, is as it was.
  have hsame : ∀ c j, s.own c = some j → c ≠ (obj'.level1 0).toNat →
      L.content t.layer c = L.content s.store.layer c := fun c j hc hcp => by
    obtain ⟨hge, hin⟩ := h.owned c j hc
    have hblock := recordBlock_mem hid.two_le hid.lt
    rw [recordBlocks, Finset.mem_Ico] at hblock
    refine ha.content_of_ne (by omega) ?_ hcp
    rintro rfl
    rw [ha.free] at hin
    exact absurd hin (by simp)
  by_cases hne : j = id
  · subst hne
    have hcp : c ≠ (obj'.level1 0).toNat := by
      have hcp := hc.2
      change c ≠ ((record (L.content t.layer) j).level1 0).toNat at hcp
      rwa [ha.record_self] at hcp
    rcases (h.ownAfter_eq_some _ c j).mp hc.1 with hold | ⟨-, hfree, hin⟩
    · -- The object had blocks, so that its table is the one that it had.
      have hobj := (ha.first.resolve_left fun hfirst => (h.live c j hold).2
        (ha.blocknum ▸ hfirst.1)).2
      rw [hobj] at hcp
      obtain ⟨data', size', hwritten, hvalue⟩ := h.data c j ⟨hold, hcp⟩
      rw [← hobj] at hcp
      exact ⟨data', size', hwritten.append rfl, (hsame c j hold hcp).trans hvalue⟩
    · have hcb : c = b := by
        rcases (ha.bit c).mp hin with hin | hcb | hcp'
        · rw [hfree] at hin
          exact absurd hin (by simp)
        · exact hcb
        · exact absurd hcp'.2 hcp
      rw [hcb]
      exact ⟨data, size, WrittenTo.last hsize₀ offset, ha.content_new⟩
  · have hold := ((h.ownAfter_eq_some _ c j).mp hc.1).resolve_right fun hnew => hne hnew.1
    obtain ⟨hj, -⟩ := h.live c j hold
    have hk := h.append_keeps ha hne (ha.wrote.hasRecord_iff.mpr hj.toHasRecord)
    obtain ⟨data', size', hwritten, hvalue⟩ := h.data c j (hk.isData_iff.mp hc)
    refine ⟨data', size', hwritten.append rfl, (hsame c j hold ?_).trans hvalue⟩
    -- The indirect block is that of another object.
    rintro rfl
    exact hne (Option.some.inj (hc.1.symm.trans htable))

end Append

/-- A write of a block that the object does not have. -/
theorem append (h : OwnData L hist s U) (hid : s.Tracked L id) (hsize₀ : 0 ≤ size)
    (hsize : size ≤ 4096) (hk : ¬u32 offset / 4096 <
      (record (L.content s.store.layer) id).blocknum.toNat)
    (hroom : Room s.store.toTables (record (L.content s.store.layer) id)) :
    ∃ t, s.store.objstoreWrite id data size offset = some (size, t) ∧
      OwnData L (hist ++ [(.write id data size offset, size)]) (s.written id t) U := by
  obtain ⟨t, obj', b, hwrite, ha⟩ := hid.toHasRecord.append h.loose.inv h.reserved data offset
    hsize₀ hsize rfl (h.even id hid) (fun h0 => (h.owned _ _ (hid.table h0)).1) hk hroom
  refine ⟨t, hwrite, ?_⟩
  have hown : ∀ c j, (s.written id t).own c = some j ↔ s.own c = some j ∨
      j = id ∧ s.store.blockmap.bit c = false ∧ t.blockmap.bit c = true :=
    h.ownAfter_eq_some t.toTables
  have hcard := usedBlocks_card_lt ha.wrote.blockmap ha.lt ha.free ((ha.bit b).mpr (by simp))
  have hnum := h.append_blocknum hid ha
  have huse : ∀ j : ℕ, InUse t.toTables j ↔ InUse s.store.toTables j := fun j => by
    rw [InUse, InUse, ha.wrote.inodemap]
  refine ⟨⟨ha.wrote.inv, (h.loose.nodes.imp fun j => ha.wrote.hasRecord_iff.mpr).congr
    ha.wrote.heap ha.wrote.hashTable⟩, fun c hc => ha.wrote.blockmap c (h.reserved c hc),
    fun j hj => h.append_tracked hid ha (h.tracked j ((huse j).mp hj)),
    fun c j hc => ?_, fun c j hc => ?_, fun j hj => ?_, fun j hj => ?_,
    fun c j hc => h.append_data hid ha hsize₀ hc⟩
  · rcases (hown c j).mp hc with hc | ⟨-, hfree, hin⟩
    · obtain ⟨hge, hin⟩ := h.owned c j hc
      exact ⟨hge, ha.wrote.blockmap c hin⟩
    · exact ⟨ge_of_free h.reserved hfree, hin⟩
  · by_cases hne : j = id
    · rw [hne]
      refine ⟨h.append_tracked hid ha hid, fun h0 => ?_⟩
      rw [h0, UInt32.toNat_zero] at hnum
      omega
    · obtain ⟨hold, h0⟩ := h.live c j (((hown c j).mp hc).resolve_right fun hnew => hne hnew.1)
      have hj' := h.append_tracked hid ha hold
      refine ⟨hj', ?_⟩
      rw [(h.append_keeps ha hne hj'.toHasRecord).blocknum]
      exact h0
  · by_cases hne : j = id
    · have heven := h.even id hid
      rw [hne, hnum]
      omega
    · have hkeep := h.append_keeps ha hne hj.toHasRecord
      rw [hkeep.blocknum]
      exact h.even j (hkeep.tracked hj)
  · dsimp only
    by_cases hne : j = id
    · have hbound := h.bound id hid
      rw [hne, hnum]
      omega
    · have hkeep := h.append_keeps ha hne hj.toHasRecord
      have hbound := h.bound j (hkeep.tracked hj)
      have hsame := congrArg UInt32.toNat hkeep.blocknum
      dsimp only at hsame
      omega

/-- A write to an object without blocks when no block is free. -/
theorem write_full (h : OwnData L hist s U) (hid : s.Tracked L id) (hsize₀ : 0 ≤ size)
    (h0 : (record (L.content s.store.layer) id).blocknum = 0)
    (hfull : ∀ b, 2 ≤ b → b < 2^23 → s.store.blockmap.bit b = true) :
    ∃ t, s.store.objstoreWrite id data size offset = some (-1, t) ∧
      Store.Calls L s.store t (L.content s.store.layer) := by
  obtain ⟨t, hc, heq⟩ := Store.objstoreWrite_eq h.loose.inv hid.two_le hid.lt hid.present data size
    offset
  have hfetch : t.toTables.fetchFreeBlock = (0, t.toTables) := by
    rcases t.toTables.fetchFreeBlock_spec with ⟨-, hfetch⟩ | ⟨b, t', -, hb⟩
    · exact hfetch
    · have hfree := hb.free
      rw [hc.tables, hfull b hb.two_le hb.lt] at hfree
      exact absurd hfree (by simp)
  have hwrite : t.findWriteCached (record (L.content s.store.layer) id) data size (u32 offset) =
      some (-1, t) :=
    Store.findWriteCached_none hsize₀ rfl (Store.indirect_full t _ h0 hfetch)
  refine ⟨t, ?_, hc⟩
  rw [heq, hwrite]
  rfl

/-- A write that meets the condition. -/
theorem write (h : OwnData L hist s U) (hok : ServeOk L s (.write objid data size offset))
    (hserve : s.serve (.write objid data size offset) = some (r, s')) :
    OwnData L (hist ++ [(.write objid data size offset, r)]) s' U := by
  obtain ⟨⟨r', t⟩, hwrite, heq⟩ := Option.map_eq_some_iff.mp hserve
  obtain ⟨rfl, rfl⟩ : r' = r ∧
      ⟨t, ownAfter s.own objid.toNat s.store.toTables t.toTables⟩ = s' := by simpa using heq
  by_cases hreach : Reached L s.store objid size
  swap
  · obtain ⟨t', hwrite', hc⟩ := Store.objstoreWrite_none h.loose.inv data offset hreach
    obtain ⟨rfl, rfl⟩ : -1 = r' ∧ t' = t := by simpa using hwrite'.symm.trans hwrite
    exact h.write_fails hc
  obtain ⟨hlt, htable, hok⟩ := hok hreach
  obtain ⟨hpresent, h₂, hsize₀⟩ := hreach
  obtain ⟨id, rfl⟩ := Int.eq_ofNat_of_zero_le (by omega : 0 ≤ objid)
  rw [Int.toNat_natCast] at htable hok ⊢
  have hid : s.Tracked L id := by
    refine ⟨⟨by omega, by omega, ?_⟩, htable⟩
    rwa [show u64 (id : ℤ) = id by unfold u64; omega] at hpresent
  -- The call has returned, so that the copy into the local buffer was of a block at most.
  split_ifs at hok with hk
  · have hsize := Store.size_le_of_objstoreWrite h.loose.inv hid.toHasRecord
      (fun layer => Store.indirect_of_lt _ hk) hwrite
    exact h.overwrite hid hsize₀ hsize hk hok hwrite
  · rcases hok with hroom | ⟨h0, hfull⟩
    · obtain ⟨obj', t₁, b, t₂, hind, -⟩ :=
        Store.prepare (σ := σ) (u32 offset / 4096) (h.even id hid) hroom
      have hsize := Store.size_le_of_objstoreWrite h.loose.inv hid.toHasRecord hind hwrite
      obtain ⟨t', hwrite', h'⟩ := h.append hid hsize₀ hsize hk hroom
      obtain ⟨rfl, rfl⟩ : size = r' ∧ t' = t := by simpa using hwrite'.symm.trans hwrite
      exact h'
    · obtain ⟨t', hwrite', hc⟩ := h.write_full hid hsize₀ h0 hfull
      obtain ⟨rfl, rfl⟩ : -1 = r' ∧ t' = t := by simpa using hwrite'.symm.trans hwrite
      exact h.write_fails hc

/-- Every call that meets the condition and returns keeps the invariant. -/
theorem serve (h : OwnData L hist s U) (hok : ServeOk L s op) (hserve : s.serve op = some (r, s')) :
    ∃ U', OwnData L (hist ++ [(op, r)]) s' U' := by
  cases op with
  | create key => exact h.create hserve
  | rename key newname rest => exact h.rename hserve
  | destroy key => exact ⟨U, h.destroy hserve⟩
  | find key => exact ⟨U, h.find hserve⟩
  | write objid data size offset => exact ⟨U, h.write hok hserve⟩
  | read objid buf size offset => exact ⟨U, h.read hserve⟩

end OwnData

/-- A new store. -/
theorem Fresh.ownData {t : Tables} (ht : Fresh t) {layer : σ} (hl : L.inv layer) :
    OwnData L [] ⟨⟨t, layer⟩, fun _ => none⟩ ∅ := by
  -- No block has an owner, so that a tracked object has no blocks.
  have hzero : ∀ id, OwnedStore.Tracked L (⟨⟨t, layer⟩, fun _ => none⟩ : OwnedStore σ) id →
      (record (L.content layer) id).blocknum = 0 := fun id hid => by
    by_contra h0
    exact absurd (hid.table h0) (by simp)
  refine ⟨⟨hl, ht.nodes _⟩, ht.reserved, fun id huse => absurd huse (ht.not_inUse _),
    fun _ _ hb => absurd hb (by simp), fun _ _ hb => absurd hb (by simp), fun id hid => ?_,
    fun id hid => ?_, fun _ _ hb => absurd hb.1 (by simp)⟩
  · dsimp only
    rw [hzero id hid]
    rfl
  · dsimp only
    rw [hzero id hid]
    exact Nat.zero_le _

end GemOS.Objstore
