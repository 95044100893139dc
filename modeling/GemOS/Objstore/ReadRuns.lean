import GemOS.Objstore.OwnData

/-!
# What reads expose

A read of block `k` follows the entry `k` of an indirect block, wherever it points to: the test on
`blocknum` lets pass one block too many, `blocknum` grows by two, and no entry is ever set behind
1024 blocks. Under the condition that the entry names a data block of the object (`ReadOk`), in
every state that runs reach whose calls meet `ServeOk`, reads deliver blocks that were written to
the object, and depend on nothing but its record and its own blocks (`reads_own_data`).
-/

namespace GemOS.Objstore

variable {σ : Type} [BlockLayer σ]

/-! ## The condition -/

/-- What is asked of a read of block `k`: it is rejected by the test on `blocknum`, or the entry for
it is in the first indirect block, for one of as many blocks as were written, and names a data block
of the object. -/
def ReadOk (L : Lawful σ Set.univ) (hist : List (StoreOp × ℤ)) (s : OwnedStore σ)
    (id k : ℕ) : Prop :=
  (record (L.content s.store.layer) id).blocknum.toNat < k ∨
    k < 1024 ∧ k < (blocksWritten hist id).card ∧
      s.IsData L id (target (L.content s.store.layer) (record (L.content s.store.layer) id) k)

/-- What is asked of a call of `objstore_read`. One of size 0 reads nothing and returns 0, which is
no failure. -/
def ReadCallOk (L : Lawful σ Set.univ) (hist : List (StoreOp × ℤ)) (s : OwnedStore σ) (id : ℕ)
    (size offset : ℤ) : Prop :=
  if u32 size = 0 then u32 offset / 4096 < (blocksWritten hist id).card
  else ReadOk L hist s id (u32 offset / 4096)

/-! ## What reads promise -/

/-- The layer has the same record of the object, and the same blocks of the object. -/
structure Agrees (L : Lawful σ Set.univ) (s : OwnedStore σ) (id : ℕ) (layer : σ) : Prop where
  /-- The block layer is in one of its states. -/
  inv : L.inv layer
  /-- The record. -/
  record : record (L.content layer) id = record (L.content s.store.layer) id
  /-- The blocks. -/
  own : ∀ b, s.own b = some id → L.content layer b = L.content s.store.layer b

/-- `find_read_cached` at an offset exposes only data of the object. -/
structure FindsOwnData (L : Lawful σ Set.univ) (hist : List (StoreOp × ℤ))
    (s : OwnedStore σ) (id : ℕ) (size : ℤ) (offset : ℕ) : Prop where
  /-- What is delivered was written to the object, with zeros behind it. -/
  data : ∀ r ans t, s.store.findReadCached (record (L.content s.store.layer) id) size offset =
    some (r, ans, t) → r ≠ -1 → ∃ data n, WrittenTo hist id data n ∧ ans = Store.writeBuf data n
  /-- A block that is not below the number of blocks written is not read. -/
  fails : (blocksWritten hist id).card ≤ offset / 4096 →
    ∃ ans t, s.store.findReadCached (record (L.content s.store.layer) id) size offset =
      some (-1, ans, t)
  /-- It depends on the record and the blocks of the object only. -/
  same : ∀ layer, Agrees L s id layer →
    ((⟨s.store.toTables, layer⟩ : Store σ).findReadCached (record (L.content s.store.layer) id)
      size offset).map
        (fun x => (x.1, x.2.1)) =
      (s.store.findReadCached (record (L.content s.store.layer) id) size offset).map
        fun x => (x.1, x.2.1)

/-- `objstore_read` at an offset exposes only data of the object. -/
structure ReadsOwnData (L : Lawful σ Set.univ) (hist : List (StoreOp × ℤ))
    (s : OwnedStore σ) (id : ℕ) (buf : ℕ → UInt8) (size offset : ℤ) : Prop where
  /-- What is delivered was written to the object, with zeros behind it. -/
  data : ∀ r buf' t, s.store.objstoreRead id buf size offset = some (r, buf', t) → 0 ≤ r →
    ∀ i, buf' i = buf i ∨
    ∃ data n, WrittenTo hist id data n ∧ ∃ j < 4096, buf' i = (Store.writeBuf data n).byte j
  /-- A block that is not below the number of blocks written is not read. -/
  fails : (blocksWritten hist id).card ≤ u32 offset / 4096 →
    ∃ buf' t, s.store.objstoreRead id buf size offset = some (-1, buf', t)
  /-- It depends on the record and the blocks of the object only. -/
  same : ∀ layer, Agrees L s id layer →
    ((⟨s.store.toTables, layer⟩ : Store σ).objstoreRead id buf size offset).map
      (fun x => (x.1, x.2.1)) = (s.store.objstoreRead id buf size offset).map fun x => (x.1, x.2.1)

variable {L : Lawful σ Set.univ} {hist : List (StoreOp × ℤ)} {s : OwnedStore σ} {U : Finset ℕ}
  {id k : ℕ} {size offset : ℤ}

namespace OwnData

/-! ## What a read delivers -/

/-- The block that a read follows is the same in every layer that agrees. -/
theorem target_eq (h : OwnData L hist s U) (hk : k < 1024)
    (hdata : s.IsData L id (target (L.content s.store.layer)
      (record (L.content s.store.layer) id) k))
    {layer : σ} (hagree : Agrees L s id layer) :
    L.content layer (target (L.content layer) (record (L.content s.store.layer) id) k) =
      L.content s.store.layer (target (L.content s.store.layer)
        (record (L.content s.store.layer) id) k) := by
  -- The indirect block is one of the object, and so is the block that its entry names.
  obtain ⟨hid, h0⟩ := h.live _ id hdata.1
  have hlevel : Store.level k = 0 := if_pos hk
  have htarget : target (L.content layer) (record (L.content s.store.layer) id) k =
      target (L.content s.store.layer) (record (L.content s.store.layer) id) k := by
    unfold target
    rw [hlevel, hagree.own _ (hid.table h0)]
  calc L.content layer (target (L.content layer) (record (L.content s.store.layer) id) k)
      = L.content layer (target (L.content s.store.layer)
          (record (L.content s.store.layer) id) k) := by rw [htarget]
    _ = L.content s.store.layer (target (L.content s.store.layer)
          (record (L.content s.store.layer) id) k) := hagree.own _ hdata.1

/-- `find_read_cached` of a block that meets the condition. -/
theorem findsOwnData (h : OwnData L hist s U) {offset : ℕ}
    (hok : ReadOk L hist s id (offset / 4096))
    (size : ℤ) : FindsOwnData L hist s id size offset := by
  by_cases hk : (record (L.content s.store.layer) id).blocknum.toNat < offset / 4096
  · -- The test on `blocknum` rejects it.
    have hbeyond : ∀ t : Store σ, t.findReadCached
        (record (L.content s.store.layer) id) size offset =
        some (-1, Block.zero, t) := fun t => Store.findReadCached_beyond t rfl hk size
    refine ⟨fun r ans t hread hr => ?_, fun _ => ⟨_, _, hbeyond s.store⟩, fun layer _ => ?_⟩
    · rw [hbeyond] at hread
      exact absurd (congrArg Prod.fst (Option.some.inj hread)).symm hr
    · rw [hbeyond, hbeyond]
      rfl
  · obtain ⟨hlt, hcard, hdata⟩ := hok.resolve_left hk
    obtain ⟨t₁, hread, -⟩ := Store.findReadCached_spec (record (L.content s.store.layer) id)
      h.loose.inv rfl hk size
    refine ⟨fun r ans t hread' hr => ?_, fun hle => absurd hcard (by omega), fun layer hagree => ?_⟩
    · obtain ⟨data, n, hwritten, hvalue⟩ := h.data _ id hdata
      rw [hread, Option.some.injEq, Prod.mk.injEq, Prod.mk.injEq] at hread'
      exact ⟨data, n, hwritten, hread'.2.1.symm.trans hvalue⟩
    · obtain ⟨t₂, hread₂, -⟩ := Store.findReadCached_spec (s := ⟨s.store.toTables, layer⟩)
        (record (L.content s.store.layer) id) hagree.inv rfl hk size
      rw [hread, hread₂]
      exact congrArg (fun b => some (size, b)) (h.target_eq hlt hdata hagree)

/-- `objstore_read` of size 0 delivers nothing. -/
theorem readsOwnData_zero (h : OwnData L hist s U) (hid : HasRecord (L.content s.store.layer) id)
    (hsize : u32 size = 0) (hlt : u32 offset / 4096 < (blocksWritten hist id).card)
    (buf : ℕ → UInt8) : ReadsOwnData L hist s id buf size offset := by
  have hnone : ∀ t : Store σ, L.inv t.layer →
      record (L.content t.layer) id = record (L.content s.store.layer) id →
      ∃ t', t.objstoreRead id buf size offset = some (size, buf, t') := by
    intro t ht heq
    obtain ⟨t₁, hc, hread⟩ := Store.objstoreRead_eq ht hid.two_le hid.lt
      (by rw [heq, hid.present]) buf size offset
    refine ⟨t₁, ?_⟩
    rw [hread, hsize, Store.readLoop, if_pos rfl]
    rfl
  obtain ⟨t₁, hread₁⟩ := hnone s.store h.loose.inv rfl
  refine ⟨fun r buf' t hread hr i => Or.inl ?_, fun hle => absurd hlt (by omega),
    fun layer hagree => ?_⟩
  · rw [hread₁, Option.some.injEq, Prod.mk.injEq, Prod.mk.injEq] at hread
    exact (congrFun hread.2.1 i).symm
  · obtain ⟨t₂, hread₂⟩ := hnone ⟨s.store.toTables, layer⟩ hagree.inv hagree.record
    rw [hread₂, hread₁]
    rfl

/-- `objstore_read` of a block beyond the end. -/
theorem readsOwnData_beyond (h : OwnData L hist s U) (hid : HasRecord (L.content s.store.layer) id)
    (hsize : u32 size ≠ 0)
    (hk : (record (L.content s.store.layer) id).blocknum.toNat < u32 offset / 4096)
    (buf : ℕ → UInt8) : ReadsOwnData L hist s id buf size offset := by
  -- The loop ends at once, for any store with the same record.
  have hbeyond : ∀ t : Store σ, L.inv t.layer →
      record (L.content t.layer) id = record (L.content s.store.layer) id →
      ∃ t', t.objstoreRead id buf size offset = some (-1, buf, t') := by
    intro t ht heq
    obtain ⟨t₁, hc, hread⟩ := Store.objstoreRead_eq ht hid.two_le hid.lt
      (by rw [heq, hid.present]) buf size offset
    refine ⟨t₁, ?_⟩
    rw [hread, heq, Store.readLoop_beyond t₁ rfl hk, Option.bind_some, decide_eq_false hsize]
    rfl
  obtain ⟨t₁, hread₁⟩ := hbeyond s.store h.loose.inv rfl
  refine ⟨fun r buf' t hread hr i => Or.inl ?_, fun _ => ⟨buf, t₁, hread₁⟩, fun layer hagree => ?_⟩
  · rw [hread₁, Option.some.injEq, Prod.mk.injEq, Prod.mk.injEq] at hread
    exact (congrFun hread.2.1 i).symm
  · obtain ⟨t₂, hread₂⟩ := hbeyond ⟨s.store.toTables, layer⟩ hagree.inv hagree.record
    rw [hread₂, hread₁]
    rfl

/-- `objstore_read` that meets the condition. -/
theorem readsOwnData (h : OwnData L hist s U) (hid : HasRecord (L.content s.store.layer) id)
    (hok : ReadCallOk L hist s id size offset) (buf : ℕ → UInt8) :
    ReadsOwnData L hist s id buf size offset := by
  rw [ReadCallOk] at hok
  split_ifs at hok with hsize
  · exact h.readsOwnData_zero hid hsize hok buf
  by_cases hk : (record (L.content s.store.layer) id).blocknum.toNat < u32 offset / 4096
  · exact h.readsOwnData_beyond hid hsize hk buf
  obtain ⟨hk', hcard, hdata⟩ := hok.resolve_left hk
  obtain ⟨data, n, hwritten, hvalue⟩ := h.data _ id hdata
  -- Any store with the same record and the same block delivers the same bytes.
  have hdeliver : ∀ t : Store σ, L.inv t.layer →
      record (L.content t.layer) id = record (L.content s.store.layer) id →
      L.content t.layer (target (L.content t.layer) (record (L.content s.store.layer) id)
        (u32 offset / 4096)) = Store.writeBuf data n → ∃ t', t.objstoreRead id buf size offset =
      (deliver (Store.writeBuf data n) (2^20 + 1) buf (u32 offset) (u32 size)).map
        fun buf => (size, buf, t') := by
    intro t ht heq hblock
    obtain ⟨t₁, hc₁, hread⟩ := Store.objstoreRead_eq ht hid.two_le hid.lt
      (by rw [heq, hid.present]) buf size offset
    generalize 2^20 + 1 = fuel at hread ⊢
    obtain ⟨t₂, -, hloop⟩ := Store.readLoop_eq hc₁.inv rfl hk fuel buf (u32 offset) (u32 size)
    refine ⟨t₂, ?_⟩
    rw [hc₁.content, hblock] at hloop
    rw [hread, heq, hloop]
    cases deliver (Store.writeBuf data n) fuel buf (u32 offset) (u32 size) <;> rfl
  obtain ⟨t₁, hread₁⟩ := hdeliver s.store h.loose.inv rfl hvalue
  refine ⟨fun r buf' t hread hr i => ?_, fun hle => absurd hcard (by omega),
    fun layer hagree => ?_⟩
  · rw [hread₁] at hread
    obtain ⟨buf₁, hbuf, heq⟩ := Option.map_eq_some_iff.mp hread
    obtain ⟨-, rfl, -⟩ : size = r ∧ buf₁ = buf' ∧ t₁ = t := by simpa using heq
    exact (deliver_byte hbuf i).imp_right fun hbyte => ⟨data, n, hwritten, hbyte⟩
  · obtain ⟨t₂, hread₂⟩ := hdeliver ⟨s.store.toTables, layer⟩ hagree.inv hagree.record
      ((h.target_eq hk' hdata hagree).trans hvalue)
    refine (congrArg (Option.map _) hread₂).trans
      (Eq.trans ?_ (congrArg (Option.map _) hread₁).symm)
    rw [Option.map_map, Option.map_map]
    simp only [Function.comp_def]

end OwnData

/-! ## Runs -/

/-- In a new store a key is created and destroyed, and another key gets its id. -/
theorem Fresh.createAgain {σ : Type} [BlockLayer σ] {L : Lawful σ Set.univ} {t : Tables}
    (ht : Fresh t) {layer : σ} (hl : L.inv layer) {key key' : List UInt8} (hkey : KeyOk key)
    (hkey' : KeyOk key') (hne : hash key' ≠ hash key) :
    ∃ s₁ s₂ s₃ : Store σ, (⟨t, layer⟩ : Store σ).createObject key = some (2, s₁) ∧
      s₁.destroyObject key = some (0, s₂) ∧ s₂.createObject key' = some (2, s₃) ∧
      InUse s₃.toTables 2 ∧ (record (L.content s₃.layer) 2).blocknum = 0 ∧
      s₃.blockmap = t.blockmap := by
  have hdom : ∀ b ∈ recordBlocks, b ∈ (Set.univ : Set ℕ) := fun b _ => Set.mem_univ b
  have hloose : Store.Loose L (⟨t, layer⟩ : Store σ) ∅ := ⟨hl, ht.nodes _⟩
  have hhead : ∀ v, t.hashTable v = none := fun v => ht.table.chain v
  have hfirst : ∀ map : ByteMap, map.bit 2 = false → (ByteMap.fetchFree (2^17) map 0).1 = 2 :=
    fun map => ByteMap.fetchFree_first (by norm_num) map
  have hid : (ByteMap.fetchFree (2^17) t.inodemap t.inodeBitItr).1 = 2 := by
    rw [ht.inodeBitItr]
    exact hfirst _ (ht.inodemap 2 (by norm_num))
  obtain ⟨s₁, hcreate, hlisted, hitr, htable⟩ := hloose.createObject_empty hdom (hhead _)
    (hkey.1.trans (by norm_num)) hkey.2 hid (by norm_num)
  obtain ⟨hr, -⟩ | ⟨id, hid, hinv, hmade, U, hnodes⟩ := hloose.createObject hdom hcreate
  · exact absurd hr (by norm_num)
  obtain rfl : 2 = id := by exact_mod_cast hid
  have h0 : (record (L.content s₁.layer) 2).blocknum = 0 := by
    rw [hmade.record_self, newObject_blocknum]
  have hrec : HasRecord (L.content s₁.layer) 2 :=
    ⟨le_rfl, hmade.lt, by rw [hmade.record_self]; exact newObject_id key (by norm_num)⟩
  -- Every node is one of this object.
  have htwo : Nodes s₁.toTables (· = 2) U := hnodes _ (ht.nodes _) rfl
  have hloose₁ : Store.Loose L s₁ U :=
    ⟨hinv, htwo.imp fun i hi => by rw [hi]; exact hrec⟩
  obtain ⟨par, a, s', hsearch, hc, ha⟩ := hloose₁.searchKey_listed hdom hlisted
  have ha2 := htwo.node a ha
  rw [ha2] at hsearch
  have hdestroy := Store.destroyObject_found hsearch h0
  rw [show (record (L.content s₁.layer) 2).id.toNat = 2 from hrec.present] at hdestroy
  have hloose₂ : Store.Loose L (s'.destroyed 2 a) U :=
    ⟨hc.inv, Store.nodes_destroyed (hloose₁.calls hc).nodes 2 a⟩
  have hitr₂ : (s'.destroyed 2 a).inodeBitItr = 0 := by
    change s'.inodeBitItr = 0
    rw [hc.tables, hitr]
  have hempty : (s'.destroyed 2 a).hashTable (hash key') = none := by
    change s'.hashTable (hash key') = none
    rw [hc.tables, htable _ hne]
    exact hhead _
  have hid₂ : (ByteMap.fetchFree (2^17) (s'.destroyed 2 a).inodemap
      (s'.destroyed 2 a).inodeBitItr).1 = 2 := by
    rw [hitr₂]
    refine hfirst _ ?_
    change (s'.inodemap.clearBit 2).bit 2 = false
    rw [ByteMap.bit_clearBit]
    simp
  obtain ⟨s₃, hcreate₃, -⟩ := hloose₂.createObject_empty hdom hempty
    (hkey'.1.trans (by norm_num)) hkey'.2 hid₂ (by norm_num)
  obtain ⟨hr, -⟩ | ⟨id, hid, -, hmade₃, -⟩ := hloose₂.createObject hdom hcreate₃
  · exact absurd hr (by norm_num)
  obtain rfl : 2 = id := by exact_mod_cast hid
  refine ⟨s₁, _, s₃, hcreate, hdestroy, hcreate₃, hmade₃.inUse_iff.mpr (Or.inr rfl), ?_, ?_⟩
  · rw [hmade₃.record_self, newObject_blocknum]
  · rw [hmade₃.blockmap]
    change s'.blockmap = t.blockmap
    rw [hc.tables, hmade.blockmap]

/-- In every state that a run of calls that meet the condition reaches, a read of an object that
meets the condition exposes only data of the object. -/
theorem reads_own_data {σ : Type} [BlockLayer σ] (L : Lawful σ Set.univ)
    {A : Allocator} {d d' : Disk}
    {t : Tables} {layer : σ} (hzero : ∀ b < 1312, d.block b = Block.zero)
    (hinit : objstoreInit d (Tables.new A) = some (0, d', t)) (hlayer : L.inv layer)
    {ops : List StoreOp} {hist : List (StoreOp × ℤ)} {s : OwnedStore σ}
    (hrun : Run.run OwnedStore.serve (⟨⟨t, layer⟩, fun _ => none⟩ : OwnedStore σ) ops =
      some (hist, s))
    (hops : Run.Along OwnedStore.serve (ServeOk L)
      (⟨⟨t, layer⟩, fun _ => none⟩ : OwnedStore σ) ops) :
    ∀ id : ℕ, InUse s.store.toTables id →
      (∀ size offset, ReadOk L hist s id (offset / 4096) → FindsOwnData L hist s id size offset) ∧
        ∀ buf size offset, ReadCallOk L hist s id size offset →
          ReadsOwnData L hist s id buf size offset := by
  obtain ⟨-, hfresh⟩ := objstoreInit_fresh hzero hinit
  obtain ⟨U, h⟩ := Run.of_run (h := []) (fun s hist => ∃ U, OwnData L hist s U)
    (fun s hist op r s' ⟨U, hs⟩ hok hserve => hs.serve hok hserve)
      ⟨_, hfresh.ownData hlayer⟩ hops hrun
  rw [List.nil_append] at h
  exact fun id huse => ⟨fun size offset hok => h.findsOwnData hok size,
    fun buf size offset hok => h.readsOwnData (h.tracked id huse).toHasRecord hok buf⟩

/-- Over a plain array of blocks: an object is created and destroyed, and another one, with the same
id, is written. -/
theorem reads_own_data_one :
    ∃ d' t, objstoreInit Cache.zeroDisk (Tables.new Allocator.bump) = some (0, d', t) ∧
      ∃ hist s, Run.run OwnedStore.serve
        (⟨⟨t, ⟨fun _ => Block.zero⟩⟩, fun _ => none⟩ : OwnedStore Plain)
          [.create [97], .destroy [97], .create [98], .write 2 (fun _ => 1) 5 0] =
            some (hist, s) ∧
        ∀ id : ℕ, InUse s.store.toTables id →
          (∀ size offset, ReadOk Plain.lawful hist s id (offset / 4096) →
              FindsOwnData Plain.lawful hist s id size offset) ∧
            ∀ buf size offset, ReadCallOk Plain.lawful hist s id size offset →
              ReadsOwnData Plain.lawful hist s id buf size offset := by
  obtain ⟨d', t, hinit, -⟩ := mount_zeroDisk
  obtain ⟨-, hfresh⟩ := objstoreInit_fresh (fun _ _ => rfl) hinit
  have hlayer : Plain.lawful.inv ⟨fun _ => Block.zero⟩ := trivial
  obtain ⟨s₁, s₂, s₃, hcreate, hdestroy, hcreate', huse, h0, hmap⟩ :=
    hfresh.createAgain hlayer (by decide : KeyOk [97]) (by decide : KeyOk [98]) (by decide)
  have hdisown : ∀ id, disown (fun _ => none) id = fun _ => none := fun id =>
    disown_eq_self fun _ => by simp
  have hserve₁ : (⟨⟨t, ⟨fun _ => Block.zero⟩⟩, fun _ => none⟩ : OwnedStore Plain).serve
      (.create [97]) = some (2, ⟨s₁, fun _ => none⟩) := by
    rw [OwnedStore.serve, hcreate, ← hdisown 2]
    rfl
  have hserve₂ : (⟨s₁, fun _ => none⟩ : OwnedStore Plain).serve (.destroy [97]) =
      some (0, ⟨s₂, fun _ => none⟩) := by
    rw [OwnedStore.serve, hdestroy, Option.map_some]
  have hserve₃ : (⟨s₂, fun _ => none⟩ : OwnedStore Plain).serve (.create [98]) =
      some (2, ⟨s₃, fun _ => none⟩) := by
    rw [OwnedStore.serve, hcreate', ← hdisown 2]
    rfl
  have hok : ServeOk Plain.lawful (⟨s₃, fun _ => none⟩ : OwnedStore Plain)
      (.write 2 (fun _ => 1) 5 0) := by
    refine fun _ => ⟨by norm_num, fun hne => absurd h0 hne, ?_⟩
    dsimp only
    rw [if_neg (by rw [show (2 : ℤ).toNat = 2 from rfl, h0]; exact Nat.not_lt_zero _)]
    exact Or.inl (hfresh.room hmap h0)
  obtain ⟨U₁, h₁⟩ := (hfresh.ownData hlayer).create hserve₁
  have h₂ := h₁.destroy hserve₂
  obtain ⟨U₃, h₃⟩ := h₂.create hserve₃
  obtain ⟨s₄, hwrite, -⟩ : ∃ s₄, s₃.objstoreWrite 2 (fun _ => 1) 5 0 = some (5, s₄) ∧ _ :=
    h₃.append (h₃.tracked 2 huse) (by norm_num) (by norm_num)
      (by dsimp only; rw [h0]; exact Nat.not_lt_zero _) (hfresh.room hmap h0)
  have hserve₄ : (⟨s₃, fun _ => none⟩ : OwnedStore Plain).serve (.write 2 (fun _ => 1) 5 0) =
      some (5, ⟨s₄, ownAfter (fun _ => none) 2 s₃.toTables s₄.toTables⟩) := by
    rw [OwnedStore.serve, OwnedStore.step, hwrite]
    rfl
  have hrun : Run.run OwnedStore.serve
      (⟨⟨t, ⟨fun _ => Block.zero⟩⟩, fun _ => none⟩ : OwnedStore Plain)
      [.create [97], .destroy [97], .create [98], .write 2 (fun _ => 1) 5 0] = some (_, _) :=
    Run.run_cons hserve₁ (Run.run_cons hserve₂ (Run.run_cons hserve₃ (Run.run_cons hserve₄ rfl)))
  have hops : Run.Along OwnedStore.serve (ServeOk Plain.lawful) _
      [.create [97], .destroy [97], .create [98], .write 2 (fun _ => 1) 5 0] :=
    .cons trivial hserve₁ (.cons trivial hserve₂ (.cons trivial hserve₃
      ⟨hok, fun _ _ _ => trivial⟩))
  exact ⟨d', t, hinit, _, _, hrun,
    reads_own_data Plain.lawful (fun _ _ => rfl) hinit hlayer hrun hops⟩

/-- An object that was never written: the block 0 of the disk is taken for its indirect block, and
the read succeeds. -/
theorem reads_unwritten :
    ∃ d' t, objstoreInit Cache.zeroDisk (Tables.new Allocator.bump) = some (0, d', t) ∧
      ∃ hist s, Run.run OwnedStore.serve
        (⟨⟨t, ⟨fun _ => Block.zero⟩⟩, fun _ => none⟩ : OwnedStore Plain)
          [.create [97]] = some (hist, s) ∧ InUse s.store.toTables 2 ∧ blocksWritten hist 2 = ∅ ∧
        ¬FindsOwnData Plain.lawful hist s 2 4096 0 := by
  obtain ⟨d', t, hinit, -⟩ := mount_zeroDisk
  obtain ⟨-, hfresh⟩ := objstoreInit_fresh (fun _ _ => rfl) hinit
  have hlayer : Plain.lawful.inv ⟨fun _ => Block.zero⟩ := trivial
  obtain ⟨s₁, B, hcreate, h₁, huse, h0, -⟩ := hfresh.createFirst hlayer (by decide : KeyOk [97])
  have hserve₁ : (⟨⟨t, ⟨fun _ => Block.zero⟩⟩, fun _ => none⟩ : OwnedStore Plain).serve
      (.create [97]) = some (2, ⟨s₁, disown (fun _ => none) 2⟩) := by
    rw [OwnedStore.serve, hcreate]
    rfl
  refine ⟨d', t, hinit, _, _, Run.run_cons hserve₁ rfl, huse, by decide, fun hsafe => ?_⟩
  obtain ⟨ans, t₁, hread⟩ := hsafe.fails (Nat.zero_le _)
  obtain ⟨t₂, hread₂, -⟩ := Store.findReadCached_spec (record (Plain.lawful.content s₁.layer) 2)
    h₁.names.inv (Nat.zero_div 4096) (Nat.not_lt_zero _) 4096
  have hr : (-1 : ℤ) = 4096 := congrArg Prod.fst (Option.some.inj (hread.symm.trans hread₂))
  exact absurd hr (by decide)

end GemOS.Objstore
