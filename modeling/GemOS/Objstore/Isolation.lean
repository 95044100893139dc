import GemOS.Objstore.Objects
import GemOS.Lib.Run

/-!
# Write isolation

Runs of `create_object` and `objstore_write`, with a ghost map from blocks to the objects that they
were allocated for. A write that appends changes new blocks, the first indirect block of the object,
and its record. A write to a block that the object has, by its `blocknum`, follows the entry of the
indirect block, which was never set when the index is odd: it changes the block that the entry
names, whatever it is. Under the condition that this is a block of the object (`WriteOk`), writes
are isolated.
-/

namespace GemOS.Objstore

/-- A call that creates or writes an object. -/
inductive BlockOp where
  /-- `create_object(key)`. -/
  | create (key : List UInt8)
  /-- `objstore_write(objid, data, size, offset)`. -/
  | write (objid : ℤ) (data : ℕ → UInt8) (size offset : ℤ)

/-- A store with the objects that its blocks were allocated for. -/
structure OwnedStore (σ : Type) where
  /-- The store. -/
  store : Store σ
  /-- The object of a block, if any. -/
  own : ℕ → Option ℕ

/-- The owners after a write to the object `id`: it gets the blocks that were allocated. -/
def ownAfter (own : ℕ → Option ℕ) (id : ℕ) (t t' : Tables) (b : ℕ) : Option ℕ :=
  if t.blockmap.bit b = false ∧ t'.blockmap.bit b = true then some id else own b

/-- A call on the store. -/
def OwnedStore.step {σ : Type} [BlockLayer σ] (s : OwnedStore σ) :
    BlockOp → Option (ℤ × OwnedStore σ)
  | .create key => (s.store.createObject key).map fun (r, t) => (r, ⟨t, s.own⟩)
  | .write objid data size offset =>
      (s.store.objstoreWrite objid data size offset).map fun (r, t) =>
      (r, ⟨t, ownAfter s.own objid.toNat s.store.toTables t.toTables⟩)

variable {σ : Type} [BlockLayer σ] {L : Lawful σ Set.univ} {s s' : OwnedStore σ} {B : ℕ → List ℕ}
  {objid size offset : ℤ} {data : ℕ → UInt8} {id : ℕ}

/-- `get_object_by_id` finds a record for the call, and the call goes on. -/
def Reached (L : Lawful σ Set.univ) (s : Store σ) (objid size : ℤ) : Prop :=
  (record (L.content s.layer) (u64 objid)).id.toNat = u64 objid ∧ 2 ≤ objid ∧ 0 ≤ size

/-- What is asked of a call. A key is valid. A write is of at most one block, a record that it finds
is that of an object that exists, there are free blocks for an append, and, which the code does not
check, an overwrite goes to a block of the object. -/
def WriteOk (L : Lawful σ Set.univ) (s : OwnedStore σ) : BlockOp → Prop
  | .create key => KeyOk key
  | .write objid _ size offset => size ≤ 4096 ∧ (Reached L s.store objid size →
      InUse s.store.toTables objid ∧
      if u32 offset / 4096 < (record (L.content s.store.layer) objid.toNat).blocknum.toNat then
        s.own (target (L.content s.store.layer) (record (L.content s.store.layer) objid.toNat)
          (u32 offset / 4096)) = some objid.toNat
      else Room s.store.toTables (record (L.content s.store.layer) objid.toNat))

/-- From `s` to `s'`, only the slot of the record of the object `id` and its own blocks changed. -/
structure Isolated (L : Lawful σ Set.univ) (s s' : OwnedStore σ) (id : ℕ) : Prop where
  /-- What changed. -/
  changed : ∀ b, L.content s'.store.layer b ≠ L.content s.store.layer b →
    s'.own b = some id ∨ b = recordBlock id ∧ ∀ i < 4096, i / 64 ≠ recordSlot id →
      (L.content s'.store.layer b).byte i = (L.content s.store.layer b).byte i
  /-- The metadata blocks. -/
  metadata : ∀ b < 1312, L.content s'.store.layer b = L.content s.store.layer b
  /-- The other records. -/
  record : ∀ j, 2 ≤ j → j < 2^20 → j ≠ id →
    record (L.content s'.store.layer) j = record (L.content s.store.layer) j
  /-- The blocks of the other objects. -/
  other : ∀ b j, s.own b = some j → j ≠ id →
    L.content s'.store.layer b = L.content s.store.layer b ∧ s'.own b = some j

/-- The invariant of the run. -/
structure Isolation (L : Lawful σ Set.univ) (s : OwnedStore σ) (B : ℕ → List ℕ) : Prop where
  /-- The objects and their records. -/
  objects : Objects L s.store B
  /-- The blocks with an owner are in use. -/
  owned : ∀ b j, s.own b = some j → 17696 ≤ b ∧ s.store.blockmap.bit b = true
  /-- The number of blocks of an object is even. -/
  even : ∀ id : ℕ, InUse s.store.toTables id →
    (record (L.content s.store.layer) id).blocknum.toNat % 2 = 0
  /-- The first indirect block of an object is its own. -/
  indirect : ∀ id : ℕ, InUse s.store.toTables id →
    (record (L.content s.store.layer) id).blocknum ≠ 0 →
    s.own ((record (L.content s.store.layer) id).level1 0).toNat = some id

namespace Store

/-- `objstore_write` that finds no record, or has a negative size. -/
theorem objstoreWrite_none {s : Store σ} (h : L.inv s.layer) (data : ℕ → UInt8) (offset : ℤ)
    (hreach : ¬Reached L s objid size) :
    ∃ s', s.objstoreWrite objid data size offset = some (-1, s') ∧
      Calls L s s' (L.content s.layer) := by
  obtain ⟨s₁, hget, hc₁⟩ := getObjectById_spec h (u64 objid) (Set.mem_univ _)
  refine ⟨s₁, ?_, hc₁⟩
  unfold objstoreWrite
  rw [hget]
  by_cases hrec : (record (L.content s.layer) (u64 objid)).id.toNat = u64 objid
  · rw [if_pos hrec]
    simp only [Option.bind_eq_bind, Option.bind_some]
    by_cases hid : objid < 2
    · rw [if_pos hid]
      rfl
    · have hsize : size < 0 := by
        by_contra hsize
        exact hreach ⟨hrec, by omega, by omega⟩
      have hwrite : s₁.findWriteCached (record (L.content s.layer) (u64 objid)) data size
          (u32 offset) = some (-1, s₁) := by
        unfold findWriteCached
        rw [if_pos hsize]
        rfl
      rw [if_neg hid, hwrite]
      rfl
  · rw [if_neg hrec]
    rfl

end Store

omit [BlockLayer σ] in
/-- No block changes its owner when none is allocated. -/
theorem ownAfter_of_tables (own : ℕ → Option ℕ) (id : ℕ) {t t' : Tables} (ht : t' = t) :
    ownAfter own id t t' = own := by
  subst ht
  funext b
  exact if_neg fun h => by simp [h.1] at h

theorem step_write {r : ℤ} {t : Store σ}
    (hwrite : s.store.objstoreWrite objid data size offset = some (r, t)) :
    s.step (.write objid data size offset) =
      some (r, ⟨t, ownAfter s.own objid.toNat s.store.toTables t.toTables⟩) := by
  rw [OwnedStore.step, hwrite]
  rfl

/-- A step that changes nothing on the blocks is isolated. -/
theorem Isolated.of_content (hc : L.content s'.store.layer = L.content s.store.layer)
    (hown : s'.own = s.own) : Isolated L s s' id :=
  ⟨fun b hb => absurd (congrFun hc b) hb, fun b _ => congrFun hc b, fun j _ _ _ => by rw [hc],
    fun b j hb _ => ⟨congrFun hc b, by rw [hown, hb]⟩⟩

namespace Isolation

variable (h : Isolation L s B)

include h

/-- A block that is in use and has an owner keeps it when other blocks are allocated. -/
theorem own_of_owned {t' : Tables} {b j : ℕ} (hb : s.own b = some j) :
    ownAfter s.own id s.store.toTables t' b = some j := by
  rw [ownAfter, if_neg, hb]
  rw [(h.owned b j hb).2]
  simp

/-- `create_object` keeps the invariant: a new object has no blocks. -/
theorem create {key : List UInt8} (hkey : KeyOk key) : ∃ r s' B',
    s.step (.create key) = some (r, s') ∧ Isolation L s' B' := by
  obtain ⟨r, t, B', hcreate, hnames, hr⟩ :=
    h.objects.names.createObject (fun b _ => Set.mem_univ b) hkey
  refine ⟨r, ⟨t, s.own⟩, B', by rw [OwnedStore.step, hcreate]; rfl, ?_⟩
  rcases hr with ⟨-, -, rfl, hc⟩ | ⟨id, rfl, -, hc⟩
  · refine ⟨h.objects.calls hc, ?_, ?_, ?_⟩ <;> simp only [hc.tables, hc.content]
    · exact h.owned
    · exact h.even
    · exact h.indirect
  · -- The new object has no blocks; every other object keeps its record.
    have hnew : (record (L.content t.layer) id).blocknum = 0 := by
      rw [hc.record_self, newObject_eq hkey.1]
    have hold : ∀ j : ℕ, InUse t.toTables j → j ≠ id → InUse s.store.toTables j ∧
        record (L.content t.layer) j = record (L.content s.store.layer) j := fun j huse hne => by
      have huse' := (hc.inUse_iff.mp huse).resolve_right hne
      obtain ⟨h₂, hlt, -⟩ := inUse_natCast.mp huse'
      exact ⟨huse', hc.record_of_ne h₂ hlt hne⟩
    refine ⟨h.objects.created hnames hc, ?_, fun j huse => ?_, fun j huse h0 => ?_⟩
    · simp only [hc.blockmap]
      exact h.owned
    · by_cases hne : j = id
      · rw [hne, hnew]
        decide
      · obtain ⟨huse', hrec⟩ := hold j huse hne
        rw [hrec]
        exact h.even j huse'
    · by_cases hne : j = id
      · exact absurd (hne ▸ hnew) h0
      · obtain ⟨huse', hrec⟩ := hold j huse hne
        dsimp only at h0 ⊢
        rw [hrec] at h0 ⊢
        exact h.indirect j huse' h0

/-- A write that finds no record changes nothing. -/
theorem unreached (hreach : ¬Reached L s.store objid size) : ∃ r s',
    s.step (.write objid data size offset) = some (r, s') ∧ Isolation L s' B ∧
      Isolated L s s' objid.toNat := by
  obtain ⟨t, hwrite, hc⟩ := Store.objstoreWrite_none h.objects.names.inv data offset hreach
  have hown := ownAfter_of_tables s.own objid.toNat hc.tables
  refine ⟨-1, ⟨t, s.own⟩, by rw [step_write hwrite, hown], ?_,
    Isolated.of_content hc.content rfl⟩
  refine ⟨h.objects.calls hc, ?_, ?_, ?_⟩ <;> simp only [hc.tables, hc.content]
  · exact h.owned
  · exact h.even
  · exact h.indirect

/-- An overwrite of a block of the object changes this block. -/
theorem overwrite {k : ℕ} (huse : InUse s.store.toTables id) (hsize₀ : 0 ≤ size)
    (hsize : size ≤ 4096)
    (hoff : u32 offset / 4096 = k) (hk : k < (record (L.content s.store.layer) id).blocknum.toNat)
    (hown : s.own (target (L.content s.store.layer) (record (L.content s.store.layer) id) k) =
      some id) :
    ∃ r s', s.step (.write id data size offset) = some (r, s') ∧ Isolation L s' B ∧
      Isolated L s s' id := by
  obtain ⟨t, hwrite, hc⟩ := h.objects.overwrite huse data offset hsize₀ hsize hoff hk
  obtain ⟨h₂, hlt, -⟩ := inUse_natCast.mp huse
  set b := target (L.content s.store.layer) (record (L.content s.store.layer) id) k
  have hge := (h.owned b id hown).1
  -- A block that an object owns is behind the records, so that no record changes.
  have hrec : ∀ j, 2 ≤ j → j < 2^20 →
      record (L.content t.layer) j = record (L.content s.store.layer) j :=
    fun j hj₂ hj => by rw [hc.content, record_update_of_ge hge hj₂ hj]
  have hother : ∀ c, c ≠ b → L.content t.layer c = L.content s.store.layer c := fun c hc' => by
    rw [hc.content, Function.update_of_ne hc']
  refine ⟨size, ⟨t, s.own⟩, ?_, ⟨h.objects.wrote (Objects.wrote_of_overwrite hge h₂ hlt hc), ?_,
    fun j hj => ?_, fun j hj h0 => ?_⟩, ⟨fun c hc' => ?_, fun c hc' => hother c (by omega),
    fun j hj₂ hj _ => hrec j hj₂ hj, fun c j hcj hne => ⟨hother c ?_, hcj⟩⟩⟩
  · rw [step_write hwrite, Int.toNat_natCast, ownAfter_of_tables s.own id hc.tables]
  · simp only [hc.tables]
    exact h.owned
  · dsimp only at hj ⊢
    rw [hc.tables] at hj
    obtain ⟨hj₂, hlt, -⟩ := inUse_natCast.mp hj
    rw [hrec j hj₂ hlt]
    exact h.even j hj
  · dsimp only at hj h0 ⊢
    rw [hc.tables] at hj
    obtain ⟨hj₂, hlt, -⟩ := inUse_natCast.mp hj
    rw [hrec j hj₂ hlt] at h0 ⊢
    exact h.indirect j hj h0
  · by_cases hcb : c = b
    · exact Or.inl (hcb ▸ hown)
    · exact absurd (hother c hcb) hc'
  · rintro rfl
    rw [hown] at hcj
    exact hne (Option.some.inj hcj).symm

/-- A write that appends a block changes new blocks, the first indirect block, and the record. -/
theorem append {k : ℕ} (huse : InUse s.store.toTables id) (hsize₀ : 0 ≤ size) (hsize : size ≤ 4096)
    (hoff : u32 offset / 4096 = k) (hk : ¬k < (record (L.content s.store.layer) id).blocknum.toNat)
    (hroom : Room s.store.toTables (record (L.content s.store.layer) id)) :
    ∃ r s', s.step (.write id data size offset) = some (r, s') ∧ Isolation L s' B ∧
      Isolated L s s' id := by
  obtain ⟨t, obj', b, hwrite, ha⟩ :=
    h.objects.append huse data offset hsize₀ hsize hoff (h.even id huse)
    (fun h0 => (h.owned _ _ (h.indirect id huse h0)).1) hk hroom
  obtain ⟨h₂, hlt, -⟩ := inUse_natCast.mp huse
  obtain ⟨own', hown'⟩ : ∃ own', own' = ownAfter s.own id s.store.toTables t.toTables := ⟨_, rfl⟩
  obtain ⟨p, hpdef⟩ : ∃ p, p = (obj'.level1 0).toNat := ⟨_, rfl⟩
  have hold : ∀ c j, s.own c = some j → own' c = some j := fun c j hc => by
    rw [hown', h.own_of_owned hc]
  have hnew : ∀ c, s.store.blockmap.bit c = false → t.blockmap.bit c = true → own' c = some id :=
    fun c hfree hin => by rw [hown', ownAfter, if_pos ⟨hfree, hin⟩]
  have hb : own' b = some id := hnew b ha.free ((ha.bit b).mpr (Or.inr (Or.inl rfl)))
  -- The first indirect block is new, or it belongs to the object already.
  have hp : own' p = some id ∧ 17696 ≤ p ∧ ∀ c j, s.own c = some j → j ≠ id → c ≠ p := by
    rcases ha.first with ⟨h0, hge, -, hfree⟩ | ⟨h0, hobj⟩
    · rw [← hpdef] at hge hfree
      refine ⟨hnew p hfree ((ha.bit p).mpr (Or.inr (Or.inr ⟨h0, hpdef⟩))), hge, ?_⟩
      rintro c j hc - rfl
      rw [(h.owned c j hc).2] at hfree
      exact absurd hfree (by simp)
    · have hind := h.indirect id huse (by rw [← hobj]; exact h0)
      rw [← hobj, ← hpdef] at hind
      refine ⟨hold p id hind, (h.owned p id hind).1, ?_⟩
      rintro c j hc hne rfl
      rw [hind] at hc
      exact hne (Option.some.inj hc).symm
  have hblock := recordBlock_mem h₂ hlt
  rw [recordBlocks, Finset.mem_Ico] at hblock
  have hge := ha.ge
  have hother : ∀ c, c ≠ recordBlock id → c ≠ b → c ≠ p → L.content t.layer c =
      L.content s.store.layer c := fun c hc hcb hcp => ha.content_of_ne hc hcb (by rwa [← hpdef])
  have huse' : ∀ j, InUse t.toTables j → InUse s.store.toTables j := fun j hj => by
    rw [InUse, ← ha.wrote.inodemap]
    exact hj
  refine ⟨size, ⟨t, own'⟩, by rw [step_write hwrite, Int.toNat_natCast, hown'],
    ⟨h.objects.wrote ha.wrote, fun c j hc => ?_, fun j hj => ?_, fun j hj h0 => ?_⟩,
    ⟨fun c hc => ?_, fun c hc => hother c (by omega) (by omega) (by omega), fun j hj₂ hj hne =>
      ha.wrote.others j hne hj₂ hj, fun c j hcj hne => ?_⟩⟩
  · dsimp only at hc ⊢
    rw [hown', ownAfter] at hc
    split_ifs at hc with hif
    · exact ⟨h.objects.ge_of_free hif.1, hif.2⟩
    · exact ⟨(h.owned c j hc).1, ha.wrote.blockmap c (h.owned c j hc).2⟩
  · obtain ⟨hj₂, hjlt, -⟩ := inUse_natCast.mp hj
    by_cases hne : j = id
    · have heven := h.even id huse
      rw [hne, ha.record_self, appended, ha.blocknum, UInt32.toNat_add, UInt32.toNat_add]
      simp only [UInt32.toNat_one]
      omega
    · rw [ha.wrote.others j hne hj₂ hjlt]
      exact h.even j (huse' j hj)
  · obtain ⟨hj₂, hjlt, -⟩ := inUse_natCast.mp hj
    dsimp only at h0 ⊢
    by_cases hne : j = id
    · rw [hne, ha.record_self, appended, ← hpdef]
      exact hp.1
    · rw [ha.wrote.others j hne hj₂ hjlt] at h0 ⊢
      exact hold _ _ (h.indirect j (huse' j hj) h0)
  · by_cases hcb : c = b
    · exact Or.inl (hcb ▸ hb)
    by_cases hcp : c = p
    · exact Or.inl (hcp ▸ hp.1)
    by_cases hcr : c = recordBlock id
    · refine Or.inr ⟨hcr, fun i hi hslot => ?_⟩
      dsimp only
      rw [hcr, ha.byte_of_ne (hpdef ▸ hp.2.1) hi hslot]
    · exact absurd (hother c hcr hcb hcp) hc
  · obtain ⟨hcge, hcin⟩ := h.owned c j hcj
    refine ⟨hother c (by omega) ?_ (hp.2.2 c j hcj hne), hold c j hcj⟩
    rintro rfl
    rw [ha.free] at hcin
    exact absurd hcin (by simp)

/-- A write that meets the condition is isolated. -/
theorem write (hok : WriteOk L s (.write objid data size offset)) : ∃ r s',
    s.step (.write objid data size offset) = some (r, s') ∧ Isolation L s' B ∧
      Isolated L s s' objid.toNat := by
  by_cases hreach : Reached L s.store objid size
  swap
  · exact h.unreached hreach
  obtain ⟨huse, hok'⟩ := hok.2 hreach
  obtain ⟨id, rfl⟩ := Int.eq_ofNat_of_zero_le (by have := hreach.2.1; omega : 0 ≤ objid)
  rw [Int.toNat_natCast] at hok' ⊢
  split_ifs at hok' with hk
  · exact h.overwrite huse hreach.2.2 hok.1 rfl hk hok'
  · exact h.append huse hreach.2.2 hok.1 rfl hk hok'

/-- Every call that meets the condition keeps the invariant. -/
theorem step {op : BlockOp} (hok : WriteOk L s op) :
    ∃ r s', s.step op = some (r, s') ∧ ∃ B', Isolation L s' B' := by
  cases op with
  | create key =>
    obtain ⟨r, s', B', hstep, h'⟩ := h.create hok
    exact ⟨r, s', hstep, B', h'⟩
  | write objid data size offset =>
    obtain ⟨r, s', hstep, h', -⟩ := h.write hok
    exact ⟨r, s', hstep, B, h'⟩

end Isolation

/-- A new store, where no block has an owner. -/
theorem Fresh.isolation {t : Tables} (ht : Fresh t) {layer : σ} (hl : L.inv layer) :
    Isolation L ⟨⟨t, layer⟩, fun _ => none⟩ fun _ => [] :=
  ⟨ht.objects hl, fun _ _ hb => absurd hb (by simp), fun _ huse => absurd huse (ht.not_inUse _),
    fun _ huse => absurd huse (ht.not_inUse _)⟩

/-- In every state that calls of `create_object` and `objstore_write` reach whose overwrites go to
blocks of their objects, such a write is isolated. -/
theorem write_isolation {σ : Type} [BlockLayer σ] (L : Lawful σ Set.univ)
    {A : Allocator} {d d' : Disk}
    {t : Tables} {layer : σ} (hzero : ∀ b < 1312, d.block b = Block.zero)
    (hinit : objstoreInit d (Tables.new A) = some (0, d', t)) (hlayer : L.inv layer)
    (ops : List BlockOp)
    (hops : Run.Along OwnedStore.step (WriteOk L)
      (⟨⟨t, layer⟩, fun _ => none⟩ : OwnedStore σ) ops) :
    ∃ hist s, Run.run OwnedStore.step (⟨⟨t, layer⟩, fun _ => none⟩ : OwnedStore σ) ops =
        some (hist, s) ∧
      ∀ objid data size offset, WriteOk L s (.write objid data size offset) →
        ∃ r s', s.step (.write objid data size offset) = some (r, s') ∧
          Isolated L s s' objid.toNat := by
  obtain ⟨-, hfresh⟩ := objstoreInit_fresh hzero hinit
  obtain ⟨hist, s, hrun, B, hs⟩ := Run.run_of_step (h := [])
    (fun (s : OwnedStore σ) _ => ∃ B, Isolation L s B)
    (fun s _ op ⟨B, hs⟩ hok => by
      obtain ⟨r, s', hstep, h'⟩ := hs.step hok
      exact ⟨r, s', hstep, h'⟩) ⟨_, hfresh.isolation hlayer⟩ hops
  refine ⟨hist, s, hrun, fun objid data size offset hok => ?_⟩
  obtain ⟨r, s', hstep, -, hiso⟩ := hs.write hok
  exact ⟨r, s', hstep, hiso⟩

/-- Over a plain array of blocks: an object is created and written. -/
theorem write_isolation_one :
    ∃ d' t, objstoreInit Cache.zeroDisk (Tables.new Allocator.bump) = some (0, d', t) ∧
      ∃ hist s, Run.run OwnedStore.step
          (⟨⟨t, ⟨fun _ => Block.zero⟩⟩, fun _ => none⟩ : OwnedStore Plain)
          [.create [97], .write 2 (fun _ => 1) 5 0] = some (hist, s) ∧
        ∀ objid data size offset, WriteOk Plain.lawful s (.write objid data size offset) →
          ∃ r s', s.step (.write objid data size offset) = some (r, s') ∧
            Isolated Plain.lawful s s' objid.toNat := by
  obtain ⟨d', t, hinit, -⟩ := mount_zeroDisk
  obtain ⟨-, hfresh⟩ := objstoreInit_fresh (fun _ _ => rfl) hinit
  have hkey : KeyOk [97] := by decide
  have hlayer : Plain.lawful.inv ⟨fun _ => Block.zero⟩ := trivial
  obtain ⟨s, B, hcreate, -, huse, h0, hroom, -⟩ := hfresh.createFirst hlayer hkey
  refine ⟨d', t, hinit, write_isolation Plain.lawful (fun _ _ => rfl) hinit trivial _
    ⟨hkey, fun r s' hs => ⟨⟨by norm_num, fun _ => ?_⟩, fun _ _ _ => trivial⟩⟩⟩
  obtain rfl : (⟨s, fun _ => none⟩ : OwnedStore Plain) = s' := by
    rw [OwnedStore.step, hcreate, Option.map_some, Option.some.injEq, Prod.mk.injEq] at hs
    exact hs.2
  refine ⟨huse, ?_⟩
  dsimp only
  rw [if_neg (by rw [show (2 : ℤ).toNat = 2 from rfl, h0]; exact Nat.not_lt_zero _)]
  exact hroom

/-- The second block of an object on a disk of zeros: the number of blocks is 2 after the first
write, the entry 1 of the indirect block is 0, and the block 0 of the disk is overwritten. -/
theorem write_not_isolation :
    ∃ d' t, objstoreInit Cache.zeroDisk (Tables.new Allocator.bump) = some (0, d', t) ∧
      ∃ hist s, Run.run OwnedStore.step
          (⟨⟨t, ⟨fun _ => Block.zero⟩⟩, fun _ => none⟩ : OwnedStore Plain)
          [.create [97], .write 2 (fun _ => 1) 4096 0] = some (hist, s) ∧
        ∃ r s', s.step (.write 2 (fun _ => 1) 4096 4096) = some (r, s') ∧
          ¬Isolated Plain.lawful s s' 2 := by
  obtain ⟨d', t, hinit, -⟩ := mount_zeroDisk
  obtain ⟨-, hfresh⟩ := objstoreInit_fresh (fun _ _ => rfl) hinit
  have hlayer : Plain.lawful.inv ⟨fun _ => Block.zero⟩ := trivial
  obtain ⟨s₁, B, hcreate, h₁, huse, h0, hroom, hzero⟩ :=
    hfresh.createFirst hlayer (by decide : KeyOk [97])
  obtain ⟨s₂, obj', b, hwrite, ha⟩ := h₁.append huse (fun _ => 1) 0 (by norm_num) le_rfl
    (by decide : u32 0 / 4096 = 0) (by rw [h0]; rfl) (fun hne => absurd h0 hne)
    (by rw [h0]; exact Nat.not_lt_zero _) hroom
  have hobj0 : obj'.blocknum = 0 := ha.blocknum.trans h0
  obtain ⟨-, hp, hpb, -⟩ := ha.first.resolve_right fun h => h.1 hobj0
  have hrec := ha.record_self
  have hblocknum : (record (Plain.lawful.content s₂.layer) 2).blocknum = 2 := by
    rw [hrec, appended, hobj0]
    rfl
  have h0₂ : Plain.lawful.content s₂.layer 0 = Block.zero := by
    rw [ha.content_of_ne (by decide) (by have := ha.ge; omega) (by omega),
      hzero 0 (by rw [recordBlocks, Finset.mem_Ico]; omega)]
    rfl
  -- Only the entry 0 of the indirect block was set.
  have htarget :
      target (Plain.lawful.content s₂.layer) (record (Plain.lawful.content s₂.layer) 2) 1 = 0 := by
    have hlevel : (record (Plain.lawful.content s₂.layer) 2).level1 (Store.level 1) =
        obj'.level1 0 := by
      rw [hrec]
      rfl
    rw [target, hlevel, ha.content_indirect hp hpb, hobj0,
      Block.entry_setEntry_of_ne _ (by norm_num) (by decide), show Store.level 0 = 0 from rfl,
      hzero _ (by rw [recordBlocks, Finset.mem_Ico]; omega)]
    exact congrArg UInt32.toNat (Block.entry_zero 1)
  obtain ⟨s₃, hwrite', hc⟩ := (h₁.wrote ha.wrote).overwrite (k := 1)
    (by rw [InUse, ha.wrote.inodemap]; exact huse) (fun _ => 1) 4096 (by norm_num) le_rfl
    (by decide : u32 4096 / 4096 = 1) (by rw [hblocknum]; decide)
  have hstep : (⟨⟨t, ⟨fun _ => Block.zero⟩⟩, fun _ => none⟩ : OwnedStore Plain).step
      (.create [97]) = some (2, ⟨s₁, fun _ => none⟩) := by
    rw [OwnedStore.step, hcreate]
    rfl
  refine ⟨d', t, hinit, _, _, Run.run_cons hstep (Run.run_cons (step_write hwrite) rfl), _, _,
    step_write hwrite', fun hiso => ?_⟩
  have hmeta := congrArg (fun D => Block.byte D 0) (hiso.metadata 0 (by norm_num))
  dsimp only at hmeta
  rw [hc.content, htarget, Function.update_self, h0₂, Block.byte_zero, Store.writeBuf,
    Block.byte_ofBytes _ (by norm_num)] at hmeta
  exact absurd hmeta (by decide)

end GemOS.Objstore
