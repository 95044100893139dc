import GemOS.Objstore.Overwrite

/-!
# Writes on a full disk

`find_write_cached` checks the result of `fetch_free_block` for an indirect block, and not for the
data block: with no free block, it enters the block 0 into the table and writes the data there.
`full_write_iff`: a write of any size fails and changes nothing if and only if the size is negative,
or its first allocation is that of an indirect block, and no block is free.
-/

namespace GemOS.Objstore

/-- No block is free. -/
def Full (t : Tables) : Prop := ∀ b, 2 ≤ b → b < 2^23 → t.blockmap.bit b = true

/-- A write of block `k` allocates an indirect block first: the object has no blocks, or one block
less than `k`, where another indirect block begins. -/
def NeedsIndirect (obj : Object) (k : ℕ) : Prop :=
  obj.blocknum = 0 ∨ (k = 1024 ∧ obj.blocknum = 1023) ∨ (k = 2048 ∧ obj.blocknum = 2047) ∨
    (k = 3072 ∧ obj.blocknum = 3071)

/-- The entry of `level1` for which a write of block `k` allocates an indirect block. -/
def indirectIndex (obj : Object) (k : ℕ) : Fin 4 := if obj.blocknum = 0 then 0 else Store.level k

/-- The record with the new indirect block `b`. -/
def withIndirect (obj : Object) (k b : ℕ) : Object :=
  { obj with level1 := Function.update obj.level1 (indirectIndex obj k) (UInt32.ofNat b) }

variable {σ : Type} [BlockLayer σ] {L : Lawful σ Set.univ} {s : Store σ} {t : Tables} {obj : Object}
  {id k b : ℕ} {size offset : ℤ} {data : ℕ → UInt8}

/-- The write fails, and leaves the allocation map and every block as they were: the records, the
metadata, and the contents of all objects. -/
def FailsCleanly (L : Lawful σ Set.univ) (s : Store σ) (id : ℕ) (data : ℕ → UInt8)
    (size offset : ℤ) : Prop :=
  ∃ s', s.objstoreWrite id data size offset = some (-1, s') ∧ s'.blockmap = s.blockmap ∧
    ∀ b, L.content s'.layer b = L.content s.layer b

/-! ## The indirect block -/

omit [BlockLayer σ] in
theorem indirect_of_not_needed (s : Store σ) (h : ¬NeedsIndirect obj k) :
    s.indirect obj k = (some obj, s) := by
  obtain ⟨h0, hlevel⟩ := not_or.mp h
  unfold Store.indirect
  dsimp only
  rw [if_neg h0]
  dsimp only
  rw [if_neg hlevel]

theorem withIndirect_level1 (h0 : obj.blocknum = 0) (k b : ℕ) :
    (withIndirect obj k b).level1 0 = UInt32.ofNat b := by
  unfold withIndirect indirectIndex
  dsimp only
  rw [if_pos h0, Function.update_self]

omit [BlockLayer σ] in
/-- The allocation of an indirect block, and its failure. -/
theorem indirect_of_needed (s : Store σ) (h : NeedsIndirect obj k)
    (hfetch : s.toTables.fetchFreeBlock = (b, t)) : s.indirect obj k =
      if b = 0 then (none, { s with toTables := t })
      else (some (withIndirect obj k b), { s with toTables := t }) := by
  have hfetch' : s.fetchFreeBlock = (b, { s with toTables := t }) := by
    unfold Store.fetchFreeBlock
    rw [hfetch]
  unfold Store.indirect withIndirect indirectIndex
  dsimp only
  by_cases h0 : obj.blocknum = 0
  · rw [if_pos h0, if_pos h0, hfetch']
    dsimp only
    split_ifs with hb
    · rfl
    · dsimp only
      rw [if_neg (by rw [h0]; simp)]
  · -- The number of blocks is not 0, so that this is the only allocation.
    rw [if_neg h0, if_neg h0]
    dsimp only
    rw [if_pos (h.resolve_left h0), hfetch']

omit [BlockLayer σ] in
/-- The allocation of an indirect block when a block is free. -/
theorem indirect_of_fetched (s : Store σ) (h : NeedsIndirect obj k)
    (hfetch : s.toTables.fetchFreeBlock = (b, t)) (hb : Fetched s.toTables t b) (layer : σ) :
    ({ s with layer := layer } : Store σ).indirect obj k =
      (some (withIndirect obj k b), ⟨t, layer⟩) := by
  have h₂ := hb.two_le
  rw [indirect_of_needed ({ s with layer := layer } : Store σ) h hfetch, if_neg (by omega)]

/-! ## The write -/

/-- Once it has its indirect blocks, a write succeeds, with the block that `fetch_free_block`
returned, or with the block 0. -/
theorem objstoreWrite_returns (data : ℕ → UInt8) (hinv : L.inv s.layer)
    (h : HasRecord (L.content s.layer) id)
    (hsize₀ : 0 ≤ size) (hsize : size ≤ 4096) {obj' : Object} {t₁ : Tables}
    (hind : ∀ layer, ({ s with layer := layer } : Store σ).indirect
      (record (L.content s.layer) id) (u32 offset / 4096) = (some obj', ⟨t₁, layer⟩))
    (hid : obj'.id = (record (L.content s.layer) id).id)
    (hnum : obj'.blocknum = (record (L.content s.layer) id).blocknum) :
    ∃ s', s.objstoreWrite id data size offset = some (size, s') := by
  by_cases hk : u32 offset / 4096 < (record (L.content s.layer) id).blocknum.toNat
  · obtain ⟨s', hwrite, -⟩ := Store.objstoreWrite_overwrite data offset hinv hsize₀ hsize h.two_le
      h.lt rfl h.present hk
    exact ⟨s', hwrite⟩
  · obtain ⟨⟨b, t₂⟩, hfetch⟩ : ∃ r, t₁.fetchFreeBlock = r := ⟨_, rfl⟩
    rw [← hnum] at hk
    obtain ⟨s', hwrite, -⟩ := Store.objstoreWrite_append data offset hinv hsize₀ hsize h.two_le h.lt
      rfl h.present hind (by rw [hid, h.present]) hk hfetch
    exact ⟨s', hwrite⟩

/-- A write of a negative size fails, and changes nothing. -/
theorem objstoreWrite_negative (hinv : L.inv s.layer) (hsize : size < 0) :
    FailsCleanly L s id data size offset := by
  have hreach : ¬Reached L s id size := fun hreach => absurd hreach.2.2 (by omega)
  obtain ⟨s₁, hwrite, hc⟩ := Store.objstoreWrite_none hinv data offset hreach
  exact ⟨s₁, hwrite, congrArg Tables.blockmap hc.tables, fun b => by rw [hc.content]⟩

/-- A write without an indirect block fails, and changes nothing. -/
theorem objstoreWrite_fails (hinv : L.inv s.layer) (h : HasRecord (L.content s.layer) id)
    (hsize₀ : 0 ≤ size)
    (hneeds : NeedsIndirect (record (L.content s.layer) id) (u32 offset / 4096))
    (hfetch : s.toTables.fetchFreeBlock = (0, s.toTables)) :
    FailsCleanly L s id data size offset := by
  obtain ⟨s₁, hc, heq⟩ := Store.objstoreWrite_eq hinv h.two_le h.lt h.present data size offset
  have hfetch₁ : s₁.toTables.fetchFreeBlock = (0, s₁.toTables) := by
    rw [hc.tables]
    exact hfetch
  have hind : s₁.indirect (record (L.content s.layer) id) (u32 offset / 4096) = (none, s₁) := by
    rw [indirect_of_needed s₁ hneeds hfetch₁, if_pos rfl]
  have hwrite : s₁.findWriteCached (record (L.content s.layer) id) data size (u32 offset) =
      some (-1, s₁) := Store.findWriteCached_none hsize₀ rfl hind
  refine ⟨s₁, ?_, congrArg Tables.blockmap hc.tables, fun b => by rw [hc.content]⟩
  rw [heq, hwrite]
  rfl

/-- A write to a live object, of any size and whatever it needs of new blocks, fails and changes
nothing if and only if the size is negative, or it allocates an indirect block first, and no block
is free. -/
theorem full_write_iff {σ : Type} [BlockLayer σ] (L : Lawful σ Set.univ) (s : Store σ) (id : ℕ)
    (data : ℕ → UInt8) (size offset : ℤ) (hinv : L.inv s.layer)
    (h : HasRecord (L.content s.layer) id) :
    FailsCleanly L s id data size offset ↔ size < 0 ∨
      NeedsIndirect (record (L.content s.layer) id) (u32 offset / 4096) ∧ Full s.toTables := by
  constructor
  · rintro ⟨s', hwrite, -⟩
    by_contra hcond
    obtain ⟨hsize₀, hcond⟩ := not_or.mp hcond
    -- Otherwise the write has its indirect blocks, and returns its size.
    obtain ⟨obj', t₁, hind, hid, hnum⟩ : ∃ obj' t₁,
        (∀ layer, ({ s with layer := layer } : Store σ).indirect (record (L.content s.layer) id)
          (u32 offset / 4096) = (some obj', ⟨t₁, layer⟩)) ∧
        obj'.id = (record (L.content s.layer) id).id ∧
        obj'.blocknum = (record (L.content s.layer) id).blocknum := by
      by_cases hneeds : NeedsIndirect (record (L.content s.layer) id) (u32 offset / 4096)
      · rcases s.toTables.fetchFreeBlock_spec with ⟨hfull, -⟩ | ⟨b, t, hfetch, hb⟩
        · exact absurd ⟨hneeds, hfull⟩ hcond
        · exact ⟨_, t, indirect_of_fetched s hneeds hfetch hb, rfl, rfl⟩
      · exact ⟨_, s.toTables, fun layer => indirect_of_not_needed _ hneeds, rfl, rfl⟩
    have hsize := Store.size_le_of_objstoreWrite hinv h hind hwrite
    obtain ⟨s₁, hwrite₁⟩ := objstoreWrite_returns data hinv h (not_lt.mp hsize₀) hsize hind hid hnum
    rw [hwrite] at hwrite₁
    have := congrArg Prod.fst (Option.some.inj hwrite₁)
    omega
  · intro hcond
    by_cases hsize₀ : size < 0
    · exact objstoreWrite_negative hinv hsize₀
    obtain ⟨hneeds, hfull⟩ := hcond.resolve_left hsize₀
    rcases s.toTables.fetchFreeBlock_spec with ⟨-, hfetch⟩ | ⟨b, t, -, hb⟩
    · exact objstoreWrite_fails hinv h (not_lt.mp hsize₀) hneeds hfetch
    · have hfree := hb.free
      rw [hfull b hb.two_le hb.lt] at hfree
      exact absurd hfree (by simp)

/-- The globals of a store without a free block. -/
def fullTables : Tables := { Tables.new Allocator.bump with blockmap := fun _ => 255 }

theorem full_fullTables : Full fullTables := by
  intro b _ _
  change ByteMap.bit (fun _ => 255) b = true
  unfold ByteMap.bit
  have hbit : ∀ j < 8, Nat.testBit 255 j = true := by decide
  exact hbit (b % 8) (Nat.mod_lt b (by norm_num))

/-- The first write to an object when no block is free. -/
theorem full_write_first :
    FailsCleanly Plain.lawful ⟨fullTables, ⟨setRecord (fun _ => Block.zero) 2
      (Store.newObject [97] 2)⟩⟩ 2 (fun _ => 1) 4096 0 := by
  have hkey : KeyOk [97] := by decide
  have hrec : record (setRecord (fun _ => Block.zero) 2 (Store.newObject [97] 2)) 2 =
      Store.newObject [97] 2 := record_setRecord_self _ _ _
  refine (full_write_iff Plain.lawful _ 2 (fun _ => 1) 4096 0 trivial
    ⟨le_rfl, by norm_num, ?_⟩).mpr (Or.inr ⟨Or.inl ?_, full_fullTables⟩)
  · exact (congrArg (fun obj => obj.id.toNat) hrec).trans (newObject_id _ (by norm_num))
  · exact (congrArg Object.blocknum hrec).trans (by rw [newObject_eq hkey.1])

/-- An append to an object of two blocks when no block is free: the call returns 4096. -/
theorem full_write_append :
    HasRecord (Plain.lawful.content (⟨twoBlocks 1⟩ : Plain)) 2 ∧ Full fullTables ∧
      ¬FailsCleanly Plain.lawful ⟨fullTables, ⟨twoBlocks 1⟩⟩ 2 (fun _ => 1) 4096 8192 := by
  have hrec := (hasBlocks_twoBlocks 1).toHasRecord
  refine ⟨hrec, full_fullTables, ?_⟩
  rintro ⟨s', hwrite, -⟩
  have hneeds : ¬NeedsIndirect (record (twoBlocks 1) 2) (u32 8192 / 4096) := by
    rw [record_twoBlocks]
    unfold NeedsIndirect
    decide
  obtain ⟨s₁, hwrite₁⟩ := objstoreWrite_returns (L := Plain.lawful)
    (s := ⟨fullTables, ⟨twoBlocks 1⟩⟩) (fun _ => 1) trivial hrec (by norm_num : (0 : ℤ) ≤ 4096)
    le_rfl (fun layer => indirect_of_not_needed _ hneeds) rfl rfl
  rw [hwrite] at hwrite₁
  exact absurd (congrArg Prod.fst (Option.some.inj hwrite₁)) (by norm_num)

end GemOS.Objstore
