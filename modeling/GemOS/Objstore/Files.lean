import GemOS.Objstore.Isolation

/-!
# Files of several blocks

The blocks of an object are written in order, by `objstore_write` at the offsets 0, 4096, and so on.
A write that appends a block enters it into the first indirect block at the index `blocknum`, and
adds 2 to `blocknum`, so that every other block goes where the entry of the indirect block pointed
to before. `place` is the block of the disk to which block `k` goes. As long as every block fits
(`Fits`), the blocks written so far are at their places (`Written`) and can be read back.
-/

namespace GemOS.Objstore

/-! ## The blocks that are handed out -/

namespace Tables

/-- The tables after `n` calls of `fetch_free_block`. -/
def fetched (t : Tables) (n : ℕ) : Tables := (fun t : Tables => t.fetchFreeBlock.2)^[n] t

/-- The result of `fetch_free_block` after `n` calls. -/
def nthBlock (t : Tables) (n : ℕ) : ℕ := (t.fetched n).fetchFreeBlock.1

/-- At least `n` blocks are free. -/
def HasFree (t : Tables) (n : ℕ) : Prop :=
  ∃ F : Finset ℕ, n ≤ F.card ∧ ∀ b ∈ F, 2 ≤ b ∧ b < 2^23 ∧ t.blockmap.bit b = false

variable {t : Tables} {m n i j b : ℕ}

theorem fetchFreeBlock_fetched (t : Tables) (n : ℕ) :
    (t.fetched n).fetchFreeBlock = (t.nthBlock n, t.fetched (n + 1)) := by
  rw [fetched, fetched, Function.iterate_succ_apply']
  rfl

theorem HasFree.mono (h : t.HasFree n) (hmn : m ≤ n) : t.HasFree m := by
  obtain ⟨F, hF, hfree⟩ := h
  exact ⟨F, hmn.trans hF, hfree⟩

/-- A block is handed out, and one block less is free. -/
theorem HasFree.next (h : t.HasFree (n + 1)) :
    ∃ b t', t.fetchFreeBlock = (b, t') ∧ Fetched t t' b ∧ t'.HasFree n := by
  obtain ⟨F, hF, hfree⟩ := h
  obtain ⟨a, ha⟩ := Finset.card_pos.mp (Nat.lt_of_lt_of_le n.succ_pos hF)
  obtain ⟨ha₂, halt, hafree⟩ := hfree a ha
  obtain ⟨b, t', hfetch, hb⟩ := fetchFreeBlock_of_free ha₂ halt hafree
  have hcard := Finset.pred_card_le_card_erase (a := b) (s := F)
  refine ⟨b, t', hfetch, hb, F.erase b, by omega, fun c hc => ?_⟩
  obtain ⟨hcb, hc⟩ := Finset.mem_erase.mp hc
  obtain ⟨hc₂, hclt, hcfree⟩ := hfree c hc
  exact ⟨hc₂, hclt, by rw [hb.bit, hcfree]; simpa using hcb⟩

/-- Every call finds a block when enough blocks are free. -/
theorem HasFree.fetched (h : t.HasFree n) (hi : i < n) :
    Fetched (t.fetched i) (t.fetched (i + 1)) (t.nthBlock i) := by
  have hall : ∀ i ≤ n, (t.fetched i).HasFree (n - i) := fun i => by
    induction i with
    | zero => exact fun _ => h
    | succ i ih =>
      intro hi
      have hsome := ih (by omega)
      rw [show n - i = n - (i + 1) + 1 by omega] at hsome
      obtain ⟨b, t', hfetch, -, hfree⟩ := hsome.next
      rw [fetchFreeBlock_fetched] at hfetch
      obtain ⟨-, rfl⟩ := Prod.mk.inj hfetch
      exact hfree
  have hsome := hall i (by omega)
  rw [show n - i = n - (i + 1) + 1 by omega] at hsome
  obtain ⟨b, t', hfetch, hb, -⟩ := hsome.next
  rw [fetchFreeBlock_fetched] at hfetch
  obtain ⟨rfl, rfl⟩ := Prod.mk.inj hfetch
  exact hb

/-- What is in use stays in use. -/
theorem HasFree.bit_fetched (h : t.HasFree n) (hi : i ≤ n) (hb : t.blockmap.bit b = true) :
    (t.fetched i).blockmap.bit b = true := by
  induction i with
  | zero => exact hb
  | succ i ih => rw [(h.fetched (by omega)).bit, ih (by omega), Bool.true_or]

/-- A block that is handed out was free before. -/
theorem HasFree.free (h : t.HasFree n) (hi : i < n) : t.blockmap.bit (t.nthBlock i) = false := by
  by_contra hb
  have hin := h.bit_fetched hi.le (by simpa using hb)
  rw [(h.fetched hi).free] at hin
  exact absurd hin (by simp)

/-- No block is handed out twice. -/
theorem HasFree.nthBlock_ne (h : t.HasFree n) (hij : i < j) (hj : j < n) :
    t.nthBlock i ≠ t.nthBlock j := by
  have hin : ∀ m, i + 1 + m ≤ n →
      (t.fetched (i + 1 + m)).blockmap.bit (t.nthBlock i) = true := fun m => by
    induction m with
    | zero =>
      intro _
      rw [Nat.add_zero, (h.fetched (by omega)).bit, decide_eq_true rfl, Bool.or_true]
    | succ m ih =>
      intro hm
      rw [← Nat.add_assoc, (h.fetched (by omega)).bit, ih (by omega), Bool.true_or]
  intro heq
  have hbit := hin (j - (i + 1)) (by omega)
  rw [Nat.add_sub_cancel' (by omega : i + 1 ≤ j), heq, (h.fetched hj).free] at hbit
  exact absurd hbit (by simp)

end Tables

/-! ## Where the blocks go -/

section Places

variable (t : Tables) (D : ℕ → Block) (id : ℕ)

/-- The first indirect block of an object, which is new when the object has no blocks. -/
def firstIndirect : ℕ :=
  if (record D id).blocknum = 0 then t.nthBlock 0 else ((record D id).level1 0).toNat

/-- The indirect block that is read for block `k`. -/
def tableOf (k : ℕ) : ℕ :=
  if Store.level k = 0 then firstIndirect t D id else ((record D id).level1 (Store.level k)).toNat

/-- The calls of `fetch_free_block` in the writes of the first `k` blocks. -/
def fetches (k : ℕ) : ℕ :=
  (if (record D id).blocknum = 0 ∧ 0 < k then 1 else 0) + (k + 1 - (record D id).blocknum.toNat) / 2

/-- Block `k` is not appended: the object has it, or will have it by its `blocknum`. -/
def Counted (k : ℕ) : Prop := k < (record D id).blocknum.toNat ∨ k % 2 = 1

instance (k : ℕ) : Decidable (Counted D id k) := inferInstanceAs (Decidable (_ ∨ _))

/-- The block of the disk to which block `k` goes: the entry that the indirect block has at the
start, or a new block. -/
def place (k : ℕ) : ℕ :=
  if Counted D id k then ((D (tableOf t D id k)).entry (k % 1024)).toNat
  else t.nthBlock (fetches D id (k + 1) - 1)

/-- Block `k` fits: it is behind an indirect block, and goes to a block of its own. -/
structure Fits (k : ℕ) : Prop where
  /-- Only the first indirect block is ever allocated. -/
  inTable : k < 1024 ∨ k < (record D id).blocknum.toNat
  /-- It does not go to the block of the record. -/
  record : place t D id k ≠ recordBlock id
  /-- It does not go to an indirect block that was read. -/
  tables : ∀ j ≤ k, place t D id k ≠ tableOf t D id j
  /-- Its indirect block was not overwritten. -/
  table : ∀ j < k, place t D id j ≠ tableOf t D id k
  /-- It does not go to an earlier block. -/
  inj : ∀ j < k, place t D id j ≠ place t D id k

end Places

/-- An object in a store with the globals `t` and the contents `D`: it has a record, an even number
of blocks, and its first indirect block is in use. The metadata blocks and the record blocks are in
use. -/
structure Stored (t : Tables) (D : ℕ → Block) (id : ℕ) : Prop where
  /-- The metadata blocks and the record blocks are in use. -/
  reserved : ∀ b < 17696, t.blockmap.bit b = true
  /-- The ids 0 and 1 are not those of objects. -/
  two_le : 2 ≤ id
  /-- There are 2^20 ids. -/
  lt : id < 2^20
  /-- The object has a record. -/
  present : (record D id).id.toNat = id
  /-- Every append adds 2 to the number of blocks. -/
  even : (record D id).blocknum.toNat % 2 = 0
  /-- The first indirect block was handed out. -/
  first : (record D id).blocknum ≠ 0 →
    17696 ≤ ((record D id).level1 0).toNat ∧ t.blockmap.bit ((record D id).level1 0).toNat = true

variable {σ : Type} [BlockLayer σ] {L : Lawful σ Set.univ} {s s' : Store σ} {t : Tables}
  {D : ℕ → Block} {id k j n b : ℕ} {data : ℕ → Block}

/-- In the states that calls of `create_object` and `objstore_write` reach, every object is
stored. -/
theorem Isolation.stored {s : OwnedStore σ} {B : ℕ → List ℕ} (h : Isolation L s B)
    (huse : InUse s.store.toTables id) : Stored s.store.toTables (L.content s.store.layer) id := by
  obtain ⟨h₂, hlt, -⟩ := inUse_natCast.mp huse
  exact ⟨h.objects.reserved, h₂, hlt, h.objects.present id huse, h.even id huse,
    fun h0 => h.owned _ _ (h.indirect id huse h0)⟩

theorem appended_id (obj : Object) (size : ℤ) (k : ℕ) : (appended obj size k).id = obj.id := rfl

theorem appended_level1 (obj : Object) (size : ℤ) (k : ℕ) :
    (appended obj size k).level1 = obj.level1 := rfl

theorem appended_blocknum (obj : Object) (size : ℤ) (k : ℕ) (h : obj.blocknum.toNat < 2^20) :
    (appended obj size k).blocknum.toNat = obj.blocknum.toNat + 2 := by
  change (obj.blocknum + 1 + 1).toNat = _
  rw [UInt32.toNat_add, UInt32.toNat_add, UInt32.toNat_one]
  omega

theorem writeBuf_byte (b : Block) : Store.writeBuf b.byte 4096 = b := by
  refine Block.ext_byte fun i hi => ?_
  rw [Store.writeBuf, Block.byte_ofBytes _ hi, if_pos (by exact_mod_cast hi)]

/-- A write to another block leaves the record alone. -/
theorem record_update_of_ne (hb : b ≠ recordBlock id) (D : ℕ → Block) (buf : Block) :
    record (Function.update D b buf) id = record D id := by
  unfold record
  rw [Function.update_of_ne hb.symm]

theorem level_of_lt (hk : k < 1024) : Store.level k = 0 := by
  unfold Store.level
  rw [if_pos hk]

theorem u32_offset (hk : k < 4096) : u32 (4096 * (k : ℤ)) / 4096 = k := by
  unfold u32
  omega

/-! ## Runs of writes -/

/-- A write of block `k` of the object. -/
def Store.blockStep (id : ℕ) (s : Store σ) (op : ℕ × Block) : Option (ℤ × Store σ) :=
  s.objstoreWrite id op.2.byte 4096 (4096 * op.1)

/-- The writes of the blocks `data 0` to `data (n - 1)`, in order. -/
def blockOps (data : ℕ → Block) (n : ℕ) : List (ℕ × Block) :=
  (List.range n).map fun k => (k, data k)

/-- For `k < n`, `find_read_cached` of block `k` returns `data k`. -/
def ReadsBlocks (id : ℕ) (data : ℕ → Block) (n : ℕ) (s : Store σ) : Prop :=
  ∀ k < n, ∃ obj s₁ s₂, s.getObjectById id = some (some obj, s₁) ∧
    s₁.findReadCached obj 4096 (4096 * k) = some (4096, data k, s₂)

/-- The blocks `data 0` to `data (n - 1)` are written in order, and then each is read back. -/
def WritesBlocks (id : ℕ) (data : ℕ → Block) (n : ℕ) (s : Store σ) : Prop :=
  ∃ hist s', Run.run (Store.blockStep id) s (blockOps data n) = some (hist, s') ∧
    (∀ e ∈ hist, e.2 = 4096) ∧ ReadsBlocks id data n s'

/-- What the reads are about. -/
theorem readsBlocks_iff (h : L.inv s.layer) :
    ReadsBlocks id data n s ↔ ∀ k < n, (record (L.content s.layer) id).id.toNat = id ∧
      k ≤ (record (L.content s.layer) id).blocknum.toNat ∧
      L.content s.layer (target (L.content s.layer) (record (L.content s.layer) id) k) =
        data k := by
  obtain ⟨s₁, hget, hc₁⟩ := Store.getObjectById_spec h id (Set.mem_univ _)
  refine forall₂_congr fun k _ => ?_
  constructor
  · rintro ⟨obj, s₁', s₂, hget', hread⟩
    rw [hget] at hget'
    obtain ⟨hobj, rfl⟩ := Prod.mk.inj (Option.some.inj hget')
    split_ifs at hobj with hrec
    obtain rfl := Option.some.inj hobj
    by_cases hk : (record (L.content s.layer) id).blocknum.toNat < k
    · rw [Store.findReadCached_beyond s₁ (by omega : 4096 * k / 4096 = k) hk] at hread
      exact absurd (congrArg Prod.fst (Option.some.inj hread)) (by simp)
    · obtain ⟨s₂', hread', -⟩ := Store.findReadCached_spec (record (L.content s.layer) id) hc₁.inv
        (by omega : 4096 * k / 4096 = k) hk 4096
      rw [hread', hc₁.content] at hread
      exact ⟨hrec, by omega, congrArg (fun r => r.2.1) (Option.some.inj hread)⟩
  · rintro ⟨hrec, hk, hdata⟩
    rw [if_pos hrec] at hget
    obtain ⟨s₂, hread, -⟩ := Store.findReadCached_spec (record (L.content s.layer) id) hc₁.inv
      (by omega : 4096 * k / 4096 = k) (by omega) 4096
    rw [hc₁.content, hdata] at hread
    exact ⟨_, s₁, s₂, hget, hread⟩

/-! ## Arithmetic of the places -/

theorem blocknum_eq_zero {obj : Object} : obj.blocknum = 0 ↔ obj.blocknum.toNat = 0 := by
  rw [← UInt32.toNat_inj, UInt32.toNat_zero]

section Arithmetic

variable (heven : (record D id).blocknum.toNat % 2 = 0)

include heven

/-- No block is handed out for a block that is not appended. -/
theorem fetches_of_counted (hc : Counted D id k) : fetches D id (k + 1) = fetches D id k := by
  unfold Counted at hc
  unfold fetches
  simp only [blocknum_eq_zero]
  split_ifs <;> omega

/-- A block that is appended takes one block, and the first one also an indirect block. -/
theorem fetches_of_not_counted (hc : ¬Counted D id k) :
    fetches D id (k + 1) =
      fetches D id k + (if (record D id).blocknum = 0 ∧ k = 0 then 2 else 1) := by
  unfold Counted at hc
  unfold fetches
  simp only [blocknum_eq_zero]
  split_ifs <;> omega

theorem fetches_mono (h : j ≤ k) : fetches D id j ≤ fetches D id k := by
  unfold fetches
  simp only [blocknum_eq_zero]
  split_ifs <;> omega

end Arithmetic

/-- Blocks that fit do not go to indirect blocks. -/
theorem place_ne_tableOf {i : ℕ} (hfit : ∀ j < k, Fits t D id j) (hi : i < k) (hj : j < k) :
    place t D id i ≠ tableOf t D id j := by
  rcases Nat.lt_or_ge i j with hij | hji
  · exact (hfit j hj).table i hij
  · exact (hfit i hi).tables j hji

/-- The entries for the indirect blocks, with the first one. -/
def levels (t : Tables) (D : ℕ → Block) (id : ℕ) : Fin 4 → UInt32 :=
  Function.update (record D id).level1 0 (UInt32.ofNat (firstIndirect t D id))

namespace Stored

variable (hs : Stored t D id)

include hs

/-- The first indirect block is not reserved. -/
theorem firstIndirect_spec (hfree : t.HasFree (fetches D id 1)) :
    17696 ≤ firstIndirect t D id ∧
      firstIndirect t D id < 2^32 := by
  unfold firstIndirect
  split_ifs with h0
  · have hpos : 0 < fetches D id 1 := by
      unfold fetches
      rw [if_pos ⟨h0, Nat.one_pos⟩]
      omega
    have hlt := (hfree.fetched hpos).lt
    refine ⟨?_, by omega⟩
    by_contra hres
    have hbit := hs.reserved _ (Nat.not_le.mp hres)
    rw [hfree.free hpos] at hbit
    exact absurd hbit (by simp)
  · exact ⟨(hs.first h0).1, UInt32.toNat_lt _⟩

theorem levels_toNat (hfree : t.HasFree (fetches D id 1)) (k : ℕ) :
    (levels t D id (Store.level k)).toNat =
      tableOf t D id k := by
  unfold levels tableOf
  split_ifs with hlevel
  · rw [hlevel, Function.update_self, UInt32.toNat_ofNat_of_lt' (hs.firstIndirect_spec hfree).2]
  · rw [Function.update_of_ne hlevel]

/-- A block that is handed out for block `k` is not reserved, and is not the first indirect
block. -/
theorem place_new (hc : ¬Counted D id k)
    (hfree : t.HasFree (fetches D id (k + 1))) :
    17696 ≤ place t D id k ∧ place t D id k < 2^32 ∧ place t D id k ≠ firstIndirect t D id := by
  have hfetches := fetches_of_not_counted hs.even hc
  have hlt : fetches D id (k + 1) - 1 < fetches D id (k + 1) := by
    split_ifs at hfetches <;> omega
  have hnew := hfree.free hlt
  unfold place firstIndirect
  rw [if_neg hc]
  refine ⟨?_, ?_, ?_⟩
  · by_contra hres
    rw [hs.reserved _ (Nat.not_le.mp hres)] at hnew
    exact absurd hnew (by simp)
  · have := (hfree.fetched hlt).lt
    omega
  · split_ifs with h0
    · have hpos : 0 < fetches D id (k + 1) - 1 := by
        have hle := fetches_mono hs.even (by omega : 1 ≤ k + 1)
        have htwo : fetches D id 1 = 2 := by
          unfold fetches
          rw [if_pos ⟨h0, Nat.one_pos⟩, blocknum_eq_zero.mp h0]
        omega
      exact (hfree.nthBlock_ne hpos hlt).symm
    · intro heq
      rw [heq, (hs.first h0).2] at hnew
      exact absurd hnew (by simp)

omit hs in
/-- An object with blocks keeps its first indirect block. -/
theorem levels_of_ne (h0 : (record D id).blocknum ≠ 0) :
    levels t D id = (record D id).level1 := by
  unfold levels firstIndirect
  rw [if_neg h0, UInt32.ofNat_toNat, Function.update_eq_self]

end Stored

/-! ## The invariant -/

/-- The blocks `data 0` to `data (k - 1)` were written in order from a store with the globals `t`
and the contents `D` on. -/
structure Written (L : Lawful σ Set.univ) (t : Tables) (D : ℕ → Block) (id : ℕ)
    (data : ℕ → Block) (k : ℕ) (s : Store σ) : Prop where
  /-- The block layer is in one of its states. -/
  inv : L.inv s.layer
  /-- The blocks that were handed out. -/
  tables : s.toTables = t.fetched (fetches D id k)
  /-- The object has a record. -/
  present : (record (L.content s.layer) id).id.toNat = id
  /-- The number of blocks. -/
  blocknum : (record (L.content s.layer) id).blocknum.toNat =
    max (record D id).blocknum.toNat ((k + 1) / 2 * 2)
  /-- The indirect blocks. -/
  level1 : (record (L.content s.layer) id).level1 =
    if k = 0 then (record D id).level1 else levels t D id
  /-- The entries of indirect blocks that were not overwritten. -/
  entries : ∀ j, j < 1024 ∨ j < (record D id).blocknum.toNat →
    (∀ i < k, place t D id i ≠ tableOf t D id j) →
    j < k ∨ Counted D id j →
    ((L.content s.layer (tableOf t D id j)).entry (j % 1024)).toNat =
      place t D id j
  /-- The blocks written. -/
  blocks : ∀ j < k, L.content s.layer (place t D id j) = data j

theorem Stored.written (hs : Stored s.toTables (L.content s.layer) id) (hinv : L.inv s.layer)
    (data : ℕ → Block) : Written L s.toTables (L.content s.layer) id data 0 s := by
  have heven := hs.even
  refine ⟨hinv, ?_, hs.present, by omega, (if_pos rfl).symm, fun j _ _ hc => ?_, by simp⟩
  · have h0 : fetches (L.content s.layer) id 0 = 0 := by
      unfold fetches
      split_ifs <;> omega
    rw [h0]
    rfl
  · unfold place
    rw [if_pos (hc.resolve_left (Nat.not_lt_zero j))]

/-- From `s` to `s'`, block `k` of the object was appended, with the data `buf`. -/
structure AppendedBlock (L : Lawful σ Set.univ) (t : Tables) (D : ℕ → Block)
    (id k : ℕ) (buf : Block) (s s' : Store σ) : Prop where
  /-- The block layer is in one of its states. -/
  inv : L.inv s'.layer
  /-- The blocks that were handed out. -/
  tables : s'.toTables = t.fetched (fetches D id (k + 1))
  /-- The object has a record. -/
  present : (record (L.content s'.layer) id).id.toNat = id
  /-- The number of blocks grows by 2. -/
  blocknum : (record (L.content s'.layer) id).blocknum.toNat = k + 2
  /-- The indirect blocks. -/
  level1 : (record (L.content s'.layer) id).level1 = levels t D id
  /-- The indirect block that is read for block `k` is written to the first indirect block, with one
  new entry. -/
  indirect : L.content s'.layer (firstIndirect t D id) =
    (L.content s.layer (tableOf t D id k)).setEntry (k % 1024) (UInt32.ofNat (place t D id k))
  /-- The new block. -/
  new : L.content s'.layer (place t D id k) = buf
  /-- The other blocks. -/
  other : ∀ b, b ≠ recordBlock id → b ≠ place t D id k → b ≠ firstIndirect t D id →
    L.content s'.layer b = L.content s.layer b

namespace Written

variable (h : Written L t D id data k s) (hs : Stored t D id)

include h hs

/-- The indirect block that is read for a block that is not appended. -/
theorem level1_of_counted (hfree : t.HasFree (fetches D id 1))
    (hc : 0 < k ∨ (record D id).blocknum ≠ 0) (j : ℕ) :
    ((record (L.content s.layer) id).level1 (Store.level j)).toNat =
      tableOf t D id j := by
  rw [← hs.levels_toNat hfree, h.level1]
  split_ifs with h0
  · rw [Stored.levels_of_ne (hc.resolve_left (by omega))]
  · rfl

/-- The write of a block that is not appended goes where the entry of its indirect block points
to. -/
theorem overwrite (hk : k < 4096) (hc : Counted D id k) :
    ∃ s', Store.blockStep id s (k, data k) = some (4096, s') ∧ Store.Calls L s s'
      (Function.update (L.content s.layer)
        (target (L.content s.layer) (record (L.content s.layer) id) k)
        (data k)) := by
  have hlt : k < (record (L.content s.layer) id).blocknum.toNat := by
    have hblocknum := h.blocknum
    unfold Counted at hc
    omega
  obtain ⟨s', hwrite, hcalls⟩ := Store.objstoreWrite_overwrite (data k).byte (4096 * k) h.inv
    (by decide : (0 : ℤ) ≤ 4096) le_rfl hs.two_le hs.lt (u32_offset hk) h.present hlt
  rw [writeBuf_byte] at hcalls
  exact ⟨s', hwrite, hcalls⟩

/-- The write of a block that is appended. -/
theorem append (hk : k < 4096) (hc : ¬Counted D id k)
    (hfree : t.HasFree (fetches D id (k + 1))) :
    ∃ s' obj', Store.blockStep id s (k, data k) = some (4096, s') ∧
      s'.toTables = t.fetched (fetches D id (k + 1)) ∧ L.inv s'.layer ∧
      L.content s'.layer = appendTo (L.content s.layer) obj' k
        (place t D id k) (data k) 4096 ∧
      obj'.id.toNat = id ∧ obj'.blocknum.toNat = k ∧
      obj'.level1 = levels t D id := by
  have hblocknum : (record (L.content s.layer) id).blocknum.toNat = k := by
    have hblocknum := h.blocknum
    unfold Counted at hc
    omega
  have hfetches := fetches_of_not_counted hs.even hc
  have hplace : place t D id k =
      t.nthBlock (fetches D id (k + 1) - 1) := if_neg hc
  -- The first block of an object also takes an indirect block.
  obtain ⟨obj', t₁, hind, hid, hnum, hlevel, hfetch⟩ : ∃ obj' t₁,
      (∀ layer, ({ s with layer := layer } : Store σ).indirect (record (L.content s.layer) id) k =
        (some obj', ⟨t₁, layer⟩)) ∧ obj'.id.toNat = id ∧ obj'.blocknum.toNat = k ∧
      obj'.level1 = levels t D id ∧
      t₁.fetchFreeBlock = (place t D id k,
        t.fetched (fetches D id (k + 1))) := by
    rw [hplace]
    by_cases h0 : (record D id).blocknum = 0 ∧ k = 0
    · obtain ⟨h0, rfl⟩ := h0
      have hzero : (record (L.content s.layer) id).blocknum = 0 := blocknum_eq_zero.mpr hblocknum
      have hnone : fetches D id 0 = 0 := by
        unfold fetches
        split_ifs <;> omega
      rw [if_pos ⟨h0, rfl⟩, hnone] at hfetches
      have htables : s.toTables = t.fetched 0 := by rw [h.tables, hnone]
      have hfirst : s.toTables.fetchFreeBlock = (t.nthBlock 0, t.fetched 1) := by
        rw [htables, Tables.fetchFreeBlock_fetched]
      have hne : t.nthBlock 0 ≠ 0 := by
        have := (hfree.fetched (by omega : 0 < fetches D id (0 + 1))).two_le
        omega
      refine ⟨_, t.fetched 1, fun layer => Store.indirect_first _ 0 hzero hfirst hne,
        h.present, hblocknum, ?_, ?_⟩
      · rw [h.level1, if_pos rfl, levels, firstIndirect, if_pos h0]
      · rw [hfetches, Tables.fetchFreeBlock_fetched]
    · have hne : (record (L.content s.layer) id).blocknum ≠ 0 := fun hzero => by
        rw [blocknum_eq_zero, hblocknum] at hzero
        have hbn := h.blocknum
        refine h0 ⟨blocknum_eq_zero.mpr ?_, hzero⟩
        unfold Counted at hc
        omega
      have heven : (record (L.content s.layer) id).blocknum.toNat % 2 = 0 := by
        unfold Counted at hc
        omega
      rw [if_neg h0] at hfetches
      refine ⟨_, s.toTables, fun layer => Store.indirect_even _ k hne heven, h.present,
        hblocknum, ?_, ?_⟩
      · rw [h.level1]
        split_ifs with hk0
        · exact (Stored.levels_of_ne fun hzero => h0 ⟨hzero, hk0⟩).symm
        · rfl
      · rw [h.tables, hfetches, Nat.add_sub_cancel, Tables.fetchFreeBlock_fetched]
  obtain ⟨s', hwrite, hcalls⟩ := Store.objstoreWrite_append (data k).byte (4096 * k) h.inv
    (by decide : (0 : ℤ) ≤ 4096) le_rfl hs.two_le hs.lt (u32_offset hk) h.present hind hid
    (by omega) hfetch
  rw [writeBuf_byte] at hcalls
  exact ⟨s', obj', hwrite, hcalls.tables, hcalls.inv, hcalls.content, hid, hnum, hlevel⟩

/-- A block that is not appended goes to its place. -/
theorem target_eq (hfree : t.HasFree (fetches D id 1)) (hc : Counted D id k)
    (hin : k < 1024 ∨ k < (record D id).blocknum.toNat)
    (htable : ∀ i < k, place t D id i ≠ tableOf t D id k) :
    target (L.content s.layer) (record (L.content s.layer) id) k = place t D id k := by
  have hpos : 0 < k ∨ (record D id).blocknum ≠ 0 := by
    rw [ne_eq, blocknum_eq_zero]
    unfold Counted at hc
    omega
  rw [target, h.level1_of_counted hs hfree hpos, h.entries k hin htable (Or.inr hc)]

/-- A block that is not appended, and fits. -/
theorem step_counted (hfree : t.HasFree (fetches D id (k + 1))) (hk : k < 4096)
    (hc : Counted D id k) (hfit : Fits t D id k) :
    ∃ s', Store.blockStep id s (k, data k) = some (4096, s') ∧
      Written L t D id data (k + 1) s' := by
  have hfree₁ := hfree.mono (fetches_mono hs.even (by omega : 1 ≤ k + 1))
  obtain ⟨s', hwrite, hcalls⟩ := h.overwrite hs hk hc
  rw [h.target_eq hs hfree₁ hc hfit.inTable hfit.table] at hcalls
  have hrec : record (L.content s'.layer) id = record (L.content s.layer) id := by
    rw [hcalls.content, record_update_of_ne hfit.record]
  refine ⟨s', hwrite, hcalls.inv, ?_, by rw [hrec, h.present], ?_, ?_, fun j hj hhit hcount => ?_,
    fun j hj => ?_⟩
  · rw [hcalls.tables, h.tables, fetches_of_counted hs.even hc]
  · have heven := hs.even
    rw [hrec, h.blocknum]
    unfold Counted at hc
    omega
  · -- A block that is counted leaves the tables as they are, also when it is the first one.
    rw [hrec, h.level1, if_neg k.succ_ne_zero]
    split_ifs with h0
    · rw [Stored.levels_of_ne]
      rw [ne_eq, blocknum_eq_zero]
      unfold Counted at hc
      omega
    · rfl
  · rw [hcalls.content, Function.update_of_ne (hhit k k.lt_succ_self).symm]
    refine h.entries j hj (fun i hi => hhit i (by omega)) ?_
    rcases hcount with hlt | hcj
    · rcases Nat.lt_succ_iff_lt_or_eq.mp hlt with hlt | rfl
      · exact Or.inl hlt
      · exact Or.inr hc
    · exact Or.inr hcj
  · rw [hcalls.content]
    rcases Nat.lt_succ_iff_lt_or_eq.mp hj with hlt | rfl
    · rw [Function.update_of_ne (hfit.inj j hlt), h.blocks j hlt]
    · rw [Function.update_self]

/-- The write of a block that is appended. -/
theorem appended (hk : k < 4096) (hc : ¬Counted D id k) (hfree : t.HasFree (fetches D id (k + 1))) :
    ∃ s', Store.blockStep id s (k, data k) = some (4096, s') ∧
      AppendedBlock L t D id k (data k) s s' := by
  have hfree₁ := hfree.mono (fetches_mono hs.even (by omega : 1 ≤ k + 1))
  obtain ⟨s', obj', hwrite, htables, hinv, hcontent, hid, hnum, hlevels⟩ := h.append hs hk hc hfree
  obtain ⟨hge, -, hne⟩ := hs.place_new hc hfree
  obtain ⟨hpge, -⟩ := hs.firstIndirect_spec hfree₁
  have hp : (obj'.level1 0).toNat = firstIndirect t D id := by
    have hzero : Store.level 0 = 0 := level_of_lt (by omega)
    rw [hlevels, ← hzero, hs.levels_toNat hfree₁, tableOf, if_pos hzero]
  have hblock := recordBlock_mem hs.two_le hs.lt
  rw [recordBlocks, Finset.mem_Ico] at hblock
  have hrec : record (L.content s'.layer) id = GemOS.Objstore.appended obj' 4096 k := by
    rw [hcontent, ← hid]
    exact record_appendTo_self
  -- The table, the block and the record are three different blocks.
  have hprec : (obj'.level1 0).toNat ≠ recordBlock obj'.id.toNat := by
    rw [hid, hp]
    omega
  have hpb : (obj'.level1 0).toNat ≠ place t D id k := by
    rw [hp]
    exact hne.symm
  have hnew : place t D id k ≠ recordBlock obj'.id.toNat := by
    rw [hid]
    omega
  refine ⟨s', hwrite, hinv, htables, ?_, ?_, ?_, ?_, ?_, fun b hb hbk hbp => ?_⟩
  · rw [hrec, appended_id, hid]
  · have hadd := appended_blocknum obj' 4096 k
    rw [hnum] at hadd
    rw [hrec, hadd (by omega)]
  · rw [hrec, appended_level1, hlevels]
  · rw [hcontent, ← hp, appendTo_indirect hprec hpb, hnum, hlevels, hs.levels_toNat hfree₁]
  · rw [hcontent, appendTo_new hnew]
  · rw [← hid] at hb
    rw [← hp] at hbp
    rw [hcontent, appendTo_of_ne hb hbk hbp]

/-- A block that is appended, and fits. -/
theorem step_not_counted (hfree : t.HasFree (fetches D id (k + 1))) (hk : k < 4096)
    (hc : ¬Counted D id k) (hfit : Fits t D id k) (hprev : ∀ j < k, Fits t D id j) :
    ∃ s', Store.blockStep id s (k, data k) = some (4096, s') ∧
      Written L t D id data (k + 1) s' := by
  have hbn : (record D id).blocknum.toNat ≤ k ∧ k % 2 = 0 := by
    unfold Counted at hc
    omega
  have hmax : max (record D id).blocknum.toNat ((k + 1 + 1) / 2 * 2) = k + 2 := by omega
  have hlow : k < 1024 := hfit.inTable.resolve_right (by omega)
  have htable : ∀ j < 1024, tableOf t D id j = firstIndirect t D id := fun j hj => by
    rw [tableOf, if_pos (level_of_lt hj)]
  obtain ⟨-, hlt, -⟩ := hs.place_new hc hfree
  obtain ⟨s', hwrite, ha⟩ := h.appended hs hk hc hfree
  refine ⟨s', hwrite, ha.inv, ha.tables, ha.present, ?_, ?_, fun j hj hhit hcount => ?_,
    fun j hj => ?_⟩
  · rw [ha.blocknum, hmax]
  · rw [ha.level1, if_neg k.succ_ne_zero]
  · have hj' : j < 1024 := by omega
    rw [htable j hj', ha.indirect, htable k hlow]
    by_cases hjk : j = k
    · rw [hjk, Block.entry_setEntry_self _ (Nat.mod_lt _ (by decide)),
        UInt32.toNat_ofNat_of_lt' hlt]
    · rw [Block.entry_setEntry_of_ne _ (Nat.mod_lt _ (by decide)) (by omega), ← htable j hj']
      exact h.entries j hj (fun i hi => hhit i (by omega)) (hcount.imp_left fun _ => by omega)
  · rcases Nat.lt_succ_iff_lt_or_eq.mp hj with hjk | rfl
    · have hfitj := hprev j hjk
      have hnej := hfitj.tables 0 j.zero_le
      rw [htable 0 (by omega)] at hnej
      rw [ha.other _ hfitj.record (hfit.inj j hjk) hnej, h.blocks j hjk]
    · exact ha.new

/-- A write of a block that fits. -/
theorem step (hfree : t.HasFree (fetches D id (k + 1))) (hk : k < 4096)
    (hfit : ∀ j ≤ k, Fits t D id j) :
    ∃ s', Store.blockStep id s (k, data k) = some (4096, s') ∧
      Written L t D id data (k + 1) s' := by
  by_cases hc : Counted D id k
  · exact h.step_counted hs hfree hk hc (hfit k le_rfl)
  · exact h.step_not_counted hs hfree hk hc (hfit k le_rfl) fun j hj => hfit j hj.le

/-- The blocks that were written can be read back. -/
theorem reads (hfree : t.HasFree (fetches D id k)) (hfit : ∀ j < k, Fits t D id j) :
    ReadsBlocks id data k s := by
  rw [readsBlocks_iff h.inv]
  intro j hj
  have hfree₁ := hfree.mono (fetches_mono hs.even (by omega : 1 ≤ k))
  have htable : ∀ i < k, place t D id i ≠ tableOf t D id j :=
    fun i hi => place_ne_tableOf hfit hi hj
  have htarget : target (L.content s.layer) (record (L.content s.layer) id) j = place t D id j := by
    rw [target, h.level1_of_counted hs hfree₁ (Or.inl (by omega)),
      h.entries j (hfit j hj).inTable htable (Or.inl hj)]
  have hblocknum := h.blocknum
  refine ⟨h.present, by omega, ?_⟩
  rw [htarget, h.blocks j hj]

end Written

theorem blockOps_succ (data : ℕ → Block) (n : ℕ) :
    blockOps data (n + 1) = blockOps data n ++ [(n, data n)] := by
  rw [blockOps, List.range_succ, List.map_append]
  rfl

/-- The writes of blocks that fit. -/
theorem Stored.run (hs : Stored s.toTables (L.content s.layer) id) (hinv : L.inv s.layer)
    (data : ℕ → Block) (hn : n ≤ 4096) (hfree : s.HasFree (fetches (L.content s.layer) id n))
    (hfit : ∀ k < n, Fits s.toTables (L.content s.layer) id k) :
    ∃ hist s', Run.run (Store.blockStep id) s (blockOps data n) = some (hist, s') ∧
      (∀ e ∈ hist, e.2 = 4096) ∧ Written L s.toTables (L.content s.layer) id data n s' := by
  induction n with
  | zero => exact ⟨[], s, rfl, by simp, hs.written hinv data⟩
  | succ n ih =>
    obtain ⟨hist, s₁, hrun, hhist, hw⟩ :=
      ih (by omega) (hfree.mono (fetches_mono hs.even n.le_succ)) fun k hk => hfit k (by omega)
    obtain ⟨s', hstep, hw'⟩ := hw.step hs hfree (by omega) fun k hk => hfit k (by omega)
    refine ⟨hist ++ [((n, data n), 4096)], s', ?_, fun e he => ?_, hw'⟩
    · rw [blockOps_succ]
      exact Run.run_append hrun (Run.run_cons hstep rfl)
    · rcases List.mem_append.mp he with he | he
      · exact hhist e he
      · rw [List.mem_singleton.mp he]

/-- Blocks that fit can be written and read back. -/
theorem Stored.writesBlocks (hs : Stored s.toTables (L.content s.layer) id) (hinv : L.inv s.layer)
    (data : ℕ → Block) (hn : n ≤ 4096) (hfree : s.HasFree (fetches (L.content s.layer) id n))
    (hfit : ∀ k < n, Fits s.toTables (L.content s.layer) id k) : WritesBlocks id data n s := by
  obtain ⟨hist, s', hrun, hhist, hw⟩ := hs.run hinv data hn hfree hfit
  exact ⟨hist, s', hrun, hhist, hw.reads hs hfree hfit⟩

end GemOS.Objstore
