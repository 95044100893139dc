import GemOS.Objstore.Sizes

/-!
# Long keys

`create_object` copies a key of any length into the 32 bytes in front of the block pointers. From 33
bytes on the key is text in the pointers, and the NUL of a key of 32 bytes is the first byte of the
first pointer, which the first write of the object overwrites. `accepts_key_iff` is the exact
condition under which a key that is not refused stays usable.
-/

namespace GemOS.Objstore

/-- The arguments of `objstore_write`. -/
structure WriteArgs where
  /-- The user's buffer. -/
  data : ℕ → UInt8
  /-- The size. -/
  size : ℤ
  /-- The offset. -/
  offset : ℤ

/-- A write to the object `id`. -/
def Store.writeStep {σ : Type} [BlockLayer σ] (id : ℕ) (s : Store σ) (op : WriteArgs) :
    Option (ℤ × Store σ) :=
  s.objstoreWrite id op.data op.size op.offset

/-- The record of the object has the key, and nothing else but the id. -/
structure StoredKey (D : ℕ → Block) (id : ℕ) (key : List UInt8) : Prop where
  /-- The key. -/
  key : (record D id).keyString = key
  /-- There are no blocks. -/
  blocknum : (record D id).blocknum = 0
  /-- There are no indirect blocks. -/
  level1 : ∀ i, (record D id).level1 i = 0

variable {σ : Type} [BlockLayer σ]

/-- The write overwrites no block of records. A block that the object has by its `blocknum` goes
where its table says, also when it was never written. -/
def KeepsRecords (L : Lawful σ Set.univ) (id : ℕ) (s : Store σ) (op : WriteArgs) : Prop :=
  u32 op.offset / 4096 < (record (L.content s.layer) id).blocknum.toNat →
    target (L.content s.layer) (record (L.content s.layer) id) (u32 op.offset / 4096) ∉ recordBlocks

/-- `find_object_id(key)` returns `id` after all successful writes to the object. -/
def FoundAlong (L : Lawful σ Set.univ) (s : Store σ) (id : ℕ) (key : List UInt8) : Prop :=
  ∀ ops hist s', Run.Along (Store.writeStep id) (KeepsRecords L id) s ops →
    Run.run (Store.writeStep id) s ops = some (hist, s') → (∀ e ∈ hist, 0 ≤ e.2) → s'.Finds key id

/-- `create_object(key)` makes an object that has the key and is found by it, also after writes, or
it fails and changes nothing. -/
def AcceptsKey (L : Lawful σ Set.univ) (s : Store σ) (key : List UInt8) : Prop :=
  ∃ r s', s.createObject key = some (r, s') ∧
    ((r = -1 ∧ Store.Calls L s s' (L.content s.layer)) ∨
      ∃ id : ℕ, r = id ∧ 2 ≤ id ∧ StoredKey (L.content s'.layer) id key ∧ FoundAlong L s' id key)

/-- The key is that of an object, or all ids are in use. -/
def Refused (s : Store σ) (key : List UInt8) : Prop :=
  ¬s.Finds key (-1) ∨ ∀ i, 2 ≤ i → i < 2^20 → s.inodemap.bit i = true

variable {L : Lawful σ Set.univ} {s s' s₁ : Store σ} {B B' : ℕ → List ℕ} {D : ℕ → Block}
  {obj : Object} {id k b j : ℕ} {key : List UInt8} {size offset : ℤ} {data : ℕ → UInt8} {r : ℤ}

/-! ## Keys of 32 bytes and more -/

theorem Object.bytes_level1 (obj : Object) : obj.bytes 48 = wordByte (obj.level1 0) 0 := by
  unfold bytes
  norm_num

/-- The key of a record, when the field `key` holds it, with its NUL if there is room. -/
theorem Object.keyString_of_key (hlen : key.length ≤ 32) (hnul : 0 ∉ key)
    (hkey : ∀ i : Fin 32, obj.key i = key.getD i 0)
    (h32 : key.length = 32 → wordByte (obj.level1 0) 0 = 0) : obj.keyString = key := by
  refine takeWhile_range (by omega) (fun i hi => ?_) ?_ hnul
  · rw [obj.bytes_key (by omega : i < 32)]
    exact hkey ⟨i, by omega⟩
  · by_cases heq : key.length = 32
    · rw [heq, obj.bytes_level1]
      exact h32 heq
    · rw [obj.bytes_key (by omega : key.length < 32), hkey]
      exact List.getD_eq_default _ _ le_rfl

/-- Where the key of a record ends, there is a NUL. -/
theorem Object.bytes_of_keyString (hlen : key.length < 48) (hkey : obj.keyString = key) :
    obj.bytes (16 + key.length) = 0 := by
  unfold keyString at hkey
  generalize hl : (List.range 48).map (fun i => obj.bytes (16 + i)) = l at hkey
  have hlength : l.length = 48 := by rw [← hl]; simp
  have hsplit := List.takeWhile_append_dropWhile (p := fun c : UInt8 => c != 0) (l := l)
  rw [hkey] at hsplit
  have hpos : 0 < (l.dropWhile fun c => c != 0).length := by
    have := congrArg List.length hsplit
    rw [List.length_append] at this
    omega
  -- The byte behind the key is the first that is not taken.
  have hfirst := List.dropWhile_get_zero_not (fun c : UInt8 => c != 0) l hpos
  have hidx : key.length < l.length := by omega
  have hget : l[key.length] = (l.dropWhile fun c => c != 0).get ⟨0, hpos⟩ := by
    have hlt : key.length < (key ++ l.dropWhile fun c => c != 0).length := by
      rw [List.length_append]
      omega
    rw [← List.getElem_of_eq hsplit hlt, List.getElem_append_right le_rfl]
    simp
  rw [← hget] at hfirst
  subst hl
  simpa using hfirst

/-- The first indirect block in the record of a new object is text from 33 bytes on. -/
theorem newObject_level1_ne (hnul : 0 ∉ key) (hlen : 32 < key.length) (id : ℕ) :
    (Store.newObject key id).level1 0 ≠ 0 := by
  intro h0
  have hbyte := newObject_bytes key id (by norm_num : 32 < 48)
  rw [Object.bytes_level1, h0, List.getD_eq_getElem _ _ hlen] at hbyte
  have hzero : wordByte 0 0 = 0 := by decide
  rw [hzero] at hbyte
  exact hnul (hbyte ▸ List.getElem_mem hlen)

/-- A pointer that is zero byte by byte. -/
theorem Object.level1_eq_zero (h : ∀ j < 16, obj.bytes (48 + j) = 0) (i : Fin 4) :
    obj.level1 i = 0 := by
  have hword : obj.level1 i = word obj.bytes (48 + 4 * i) :=
    congrArg (fun o : Object => o.level1 i) obj.ofBytes_bytes.symm
  rw [hword]
  refine word_eq fun j hj => ?_
  have hi := i.isLt
  rw [Nat.add_assoc, h _ (by omega)]
  simp [wordByte]

/-- The record of a new object has the key, and no blocks, if and only if the key has at most 32
bytes. -/
theorem newObject_storedKey_iff (hnul : 0 ∉ key) (hrec : record D id = Store.newObject key id) :
    StoredKey D id key ↔ key.length ≤ 32 := by
  constructor
  · intro h
    by_contra hlen
    refine newObject_level1_ne hnul (by omega) id ?_
    rw [← hrec]
    exact h.level1 0
  · intro hlen
    refine ⟨?_, by rw [hrec, newObject_blocknum], fun i => ?_⟩
    · rw [hrec, newObject_keyString (by omega) hnul]
    · rw [hrec]
      refine Object.level1_eq_zero (fun j hj => ?_) i
      rw [show 48 + j = 16 + (32 + j) by omega, newObject_bytes key id (by omega),
        List.getD_eq_default _ _ (by omega)]

/-! ## Writes -/

/-- A successful write is one of at most a block. -/
theorem size_of_success (hinv : L.inv s.layer) (hs : HasRecord (L.content s.layer) id)
    (hwrite : s.objstoreWrite id data size offset = some (r, s')) (hr : 0 ≤ r) :
    0 ≤ size ∧ size ≤ 4096 := by
  obtain ⟨s₁, hc₁, heq⟩ := Store.objstoreWrite_eq hinv hs.two_le hs.lt hs.present data size offset
  rw [heq] at hwrite
  by_contra hcond
  rcases lt_or_ge size 0 with hneg | hpos
  · have hfail : s₁.findWriteCached (record (L.content s.layer) id) data size (u32 offset) =
        some (-1, s₁) := by
      unfold Store.findWriteCached
      rw [if_pos hneg]
      rfl
    rw [hfail] at hwrite
    have := congrArg Prod.fst (Option.some.inj hwrite)
    dsimp only at this
    omega
  · -- Only without an indirect block does a larger one return, with -1.
    obtain ⟨⟨obj', s₂⟩, hind⟩ : ∃ x, s₁.indirect (record (L.content s.layer) id)
        (u32 offset / 4096) = x := ⟨_, rfl⟩
    cases obj' with
    | none =>
      rw [Store.findWriteCached_none hpos rfl hind] at hwrite
      have := congrArg Prod.fst (Option.some.inj hwrite)
      dsimp only at this
      omega
    | some obj' =>
      rw [Store.findWriteCached_large hc₁.inv (by omega) rfl hind] at hwrite
      exact absurd hwrite (by simp)

/-- The object `id` has the key `key`, and the state `s` was reached from `s₁` by writes to it. -/
structure HoldsKey (L : Lawful σ Set.univ) (s₁ s : Store σ) (B : ℕ → List ℕ) (id : ℕ)
    (key : List UInt8) : Prop where
  /-- The invariant of the namespace. -/
  names : Store.Names L s B
  /-- The object is stored. -/
  stored : Stored s.toTables (L.content s.layer) id
  /-- The nodes. -/
  heap : s.heap = s₁.heap
  /-- The records of the other objects. -/
  others : ∀ j, j ≠ id → 2 ≤ j → j < 2^20 →
    record (L.content s.layer) j = record (L.content s₁.layer) j
  /-- The field `key`. -/
  field : (record (L.content s.layer) id).key = (record (L.content s₁.layer) id).key
  /-- The NUL of a key of 32 bytes. -/
  nul : key.length = 32 → wordByte ((record (L.content s.layer) id).level1 0) 0 = 0
  /-- The number of blocks is 0 before the first write only, unless there is no free block. -/
  count : (s.toTables = s₁.toTables ∧ (record (L.content s.layer) id).blocknum = 0) ∨
    Full s.toTables ∨ 0 < (record (L.content s.layer) id).blocknum.toNat ∧
      (record (L.content s.layer) id).blocknum.toNat ≤ 2 * (usedBlocks s.toTables).card

/-- An extension keeps the id of the record. -/
theorem Extended.record_id (he : Extended L s s' id k data size obj b)
    (hs : HasRecord (L.content s.layer) id) : (record (L.content s'.layer) id).id.toNat = id := by
  have hid : obj.id = (record (L.content s.layer) id).id := by
    rcases he.table with ⟨-, rfl⟩ | ⟨-, p, t, -, -, -, -, -, rfl⟩ <;> rfl
  rw [he.record_eq hs, appended_id, hid, hs.present]

/-- An extension keeps the invariant of the namespace. -/
theorem Extended.names (he : Extended L s s' id k data size obj b) (h : Store.Names L s B)
    (hs : Stored s.toTables (L.content s.layer) id) : Store.Names L s' B := by
  refine h.update he.inv he.heap he.hashTable he.inodemap fun j hj => ?_
  by_cases hne : j = id
  · rw [hne, he.record_id hs.hasRecord]
  · rw [he.record_of_ne hs hne hj.two_le hj.lt, hj.record]

namespace HoldsKey

/-- An overwrite of a block that is not one of the records. -/
theorem overwrite (h : HoldsKey L s₁ s B id key) (hb : b ∉ recordBlocks) {buf : Block}
    (hc : Store.Calls L s s' (Function.update (L.content s.layer) b buf)) :
    HoldsKey L s₁ s' B id key := by
  have hrec : ∀ j, 2 ≤ j → j < 2^20 →
      record (L.content s'.layer) j = record (L.content s.layer) j := fun j h₂ hj => by
    have hmem := recordBlock_mem h₂ hj
    rw [hc.content, record_update_of_ne fun hbj => hb (by rwa [hbj])]
  have hself := hrec id h.stored.two_le h.stored.lt
  refine ⟨h.names.update hc.inv hc.heap hc.hashTable (congrArg Tables.inodemap hc.tables)
    fun j hj => by rw [hrec j hj.two_le hj.lt, hj.record], ?_, hc.heap.trans h.heap,
    fun j hne h₂ hj => (hrec j h₂ hj).trans (h.others j hne h₂ hj), ?_, ?_, ?_⟩
  · obtain ⟨hreserved, h₂, hlt, hpresent, heven, hfirst⟩ := h.stored
    refine ⟨?_, h₂, hlt, ?_, ?_, ?_⟩
    · rw [hc.tables]
      exact hreserved
    · rw [hself]
      exact hpresent
    · rw [hself]
      exact heven
    · rw [hself, hc.tables]
      exact hfirst
  · rw [hself]
    exact h.field
  · rw [hself]
    exact h.nul
  · rw [hself, hc.tables]
    exact h.count

/-- An append adds 2 to the number of blocks. -/
theorem blocknum_appended (hbn : obj.blocknum = (record D id).blocknum) :
    (appended obj size k).blocknum.toNat = ((record D id).blocknum.toNat + 2) % 2^32 := by
  have hone : (1 : UInt32).toNat = 1 := rfl
  rw [appended, hbn]
  dsimp only
  rw [UInt32.toNat_add, UInt32.toNat_add, hone]
  omega

/-- The number of blocks of an extended object. -/
theorem count_extended (h : HoldsKey L s₁ s B id key)
    (he : Extended L s s' id k data size obj b) (hbn : obj.blocknum =
      (record (L.content s.layer) id).blocknum) : Full s'.toTables ∨
      0 < (appended obj size k).blocknum.toNat ∧
        (appended obj size k).blocknum.toNat ≤ 2 * (usedBlocks s'.toTables).card := by
  have hle := usedBlocks_card_le s.toTables
  have hnum : (appended obj size k).blocknum.toNat =
      ((record (L.content s.layer) id).blocknum.toNat + 2) % 2^32 := blocknum_appended hbn
  rcases he.new with ⟨-, hfull⟩ | ⟨-, hlt, hfree, htaken⟩
  · exact Or.inl hfull
  · have hcard := usedBlocks_card_lt he.blockmap hlt hfree htaken
    rcases h.count with ⟨-, h0⟩ | hfull | ⟨hpos, hcount⟩
    · have hzero : (0 : UInt32).toNat = 0 := rfl
      rw [h0, hzero] at hnum
      right
      rw [hnum]
      omega
    · exact Or.inl fun c h₂ hc => he.blockmap c (hfull c h₂ hc)
    · right
      rw [hnum]
      omega

/-- A write that extends the object. -/
theorem extend (h : HoldsKey L s₁ s B id key)
    (hp : key.length = 32 → s₁.toTables.fetchFreeBlock.1 % 256 = 0)
    (he : Extended L s s' id k data size obj b) : HoldsKey L s₁ s' B id key := by
  have hrec := he.record_eq h.stored.hasRecord
  obtain ⟨-, hbn, hkey⟩ := he.fields_eq h.stored.hasRecord
  have hcount := h.count_extended he hbn
  obtain ⟨hreserved, h₂, hlt, hpresent, heven, hfirst⟩ := h.stored
  refine ⟨he.names h.names h.stored, ⟨fun c hc => he.blockmap c (hreserved c hc), h₂, hlt,
    he.record_id h.stored.hasRecord, ?_, fun _ => ?_⟩, he.heap.trans h.heap,
    fun j hne h₂ hj => (he.record_of_ne h.stored hne h₂ hj).trans (h.others j hne h₂ hj), ?_,
    fun h32 => ?_, ?_⟩
  · rw [hrec, blocknum_appended hbn]
    omega
  · rw [hrec, appended_level1]
    exact he.level1_ge h.stored
  · rw [hrec, ← h.field]
    exact hkey
  · rw [hrec, appended_level1]
    rcases he.table with ⟨-, rfl⟩ | ⟨h0, p, t, hfetch, hfetched, -, -, -, rfl⟩
    · exact h.nul h32
    · -- The table of the first write is the block that was next when the object was created.
      have hsame : s.toTables = s₁.toTables := by
        rcases h.count with ⟨hsame, -⟩ | hfull | ⟨hpos, -⟩
        · exact hsame
        · have hfree := hfetched.free
          rw [hfull p hfetched.two_le hfetched.lt] at hfree
          exact absurd hfree (by simp)
        · rw [h0] at hpos
          exact absurd hpos (by simp)
      have hmod := hp h32
      rw [← hsame, hfetch] at hmod
      rw [withIndirect_level1 h0, wordByte, hfetched.toNat]
      apply UInt8.toNat_inj.mp
      rw [UInt8.toNat_ofNat']
      simpa using hmod
  · rw [hrec]
    exact Or.inr hcount

/-- A successful write that does not overwrite a block of records. -/
theorem step (h : HoldsKey L s₁ s B id key)
    (hp : key.length = 32 → s₁.toTables.fetchFreeBlock.1 % 256 = 0) {op : WriteArgs}
    (hkeep : KeepsRecords L id s op) (hwrite : s.writeStep id op = some (r, s')) (hr : 0 ≤ r) :
    HoldsKey L s₁ s' B id key := by
  have hs := h.stored
  have hinv := h.names.inv
  obtain ⟨hsize₀, hsize⟩ := size_of_success hinv hs.hasRecord hwrite hr
  by_cases hk : u32 op.offset / 4096 < (record (L.content s.layer) id).blocknum.toNat
  · obtain ⟨s₂, hwrite₂, hc⟩ := Store.objstoreWrite_overwrite op.data op.offset hinv hsize₀ hsize
      hs.two_le hs.lt rfl hs.present hk
    obtain rfl : s' = s₂ := by
      rw [Store.writeStep, hwrite₂] at hwrite
      exact (congrArg Prod.snd (Option.some.inj hwrite)).symm
    exact h.overwrite (hkeep hk) hc
  · obtain ⟨obj, b, he⟩ := hs.extended hinv hsize₀ hsize rfl hk hr hwrite
    exact h.extend hp he

/-- The key of the object. -/
theorem keyOf_eq (h : HoldsKey L s₁ s B id key) (hlen : key.length ≤ 32) (hnul : 0 ∉ key)
    (hfield : ∀ i : Fin 32, (record (L.content s₁.layer) id).key i = key.getD i 0) :
    keyOf (L.content s.layer) id = key :=
  Object.keyString_of_key hlen hnul (fun i => by rw [h.field, hfield]) h.nul

end HoldsKey

/-! ## Creation -/

variable {s₀ : Store σ} {B₀ : ℕ → List ℕ}

theorem newObject_key (key : List UInt8) (id : ℕ) (i : Fin 32) :
    (Store.newObject key id).key i = key.getD i 0 := by
  have hi := i.isLt
  rw [← newObject_bytes key id (by omega : i.val < 48), Object.bytes_key _ hi]

namespace Store.Created

variable (hc : Created L s₀ s₁ B₀ B key id)

include hc

theorem holdsKey (h₀ : Objects L s₀ B₀) (hnames : Names L s₁ B) (hnul : 0 ∉ key)
    (hlen : key.length ≤ 32) : HoldsKey L s₁ s₁ B id key := by
  have hrec := hc.record_self
  have hid := hc.lt
  have hstored := (newObject_storedKey_iff hnul hrec).mpr hlen
  refine ⟨hnames, ⟨?_, hc.two_le, hc.lt, ?_, ?_, fun hne => absurd hstored.blocknum hne⟩, rfl,
    fun _ _ _ _ => rfl, rfl, fun _ => ?_, Or.inl ⟨rfl, hstored.blocknum⟩⟩
  · rw [hc.blockmap]
    exact h₀.reserved
  · rw [hrec, newObject_id key (by omega)]
  · rw [hstored.blocknum]
    rfl
  · rw [hstored.level1]
    rfl

/-- The new object is found by its key as long as its record has it. -/
theorem finds (h₀ : Names L s₀ B₀)
    (hnone : lookup hash (s₀.ids B₀) (keyOf (L.content s₀.layer)) key = none)
    (h : HoldsKey L s₁ s B id key) (hkey : keyOf (L.content s.layer) id = key) :
    s.Finds key id := by
  rw [h.names.finds_id_iff fun b _ => Set.mem_univ b]
  have hids : s.ids B (hash key) = s₀.ids B₀ (hash key) ++
      id :: (if s₀.ids B₀ (hash key) = [] then [] else [id]) := by
    have hids₁ : s.ids B = s₁.ids B := by
      funext v
      unfold Store.ids
      rw [h.heap]
    rw [hids₁, hc.ids, Function.update_self]
    split_ifs <;> rfl
  refine lookup_of_split hids hkey fun j hj => ?_
  -- The other objects of the bucket have kept their keys.
  have hpresent := h₀.present hj
  have hne : j ≠ id := by
    rintro rfl
    have hbit := hpresent.bit
    rw [hc.free] at hbit
    exact absurd hbit (by simp)
  rw [keyOf, h.others j hne hpresent.two_le hpresent.lt, ← keyOf, hc.keyOf_of_ne hpresent hne]
  exact lookup_eq_none.mp hnone j hj

/-- A key of less than 32 bytes is kept along all writes, and one of 32 bytes when the first block
that is handed out has a number that ends in a zero byte. -/
theorem foundAlong (h₀ : Objects L s₀ B₀) (hnames : Names L s₁ B) (hnul : 0 ∉ key)
    (hlen : key.length ≤ 32)
    (hnone : lookup hash (s₀.ids B₀) (keyOf (L.content s₀.layer)) key = none)
    (hp : key.length = 32 → s₁.toTables.fetchFreeBlock.1 % 256 = 0) : FoundAlong L s₁ id key := by
  intro ops hist s hkeep hrun hok
  have hrun' := Run.of_run (h := [])
    (fun s hist => (∀ e ∈ hist, (0 : ℤ) ≤ e.2) → HoldsKey L s₁ s B id key)
    (fun s hist op r s' hR hop hstep hok => (hR fun e he => hok e (List.mem_append_left _ he)).step
      hp hop hstep (hok (op, r) (by simp)))
    (fun _ => hc.holdsKey h₀ hnames hnul hlen) hkeep hrun
  rw [List.nil_append] at hrun'
  have h := hrun' hok
  refine hc.finds h₀.names hnone h (h.keyOf_eq hlen hnul fun i => ?_)
  rw [hc.record_self, newObject_key]

/-- A key of 32 bytes is lost in the first write, when this takes a block whose number does not end
in a zero byte. -/
theorem not_foundAlong (h₀ : Objects L s₀ B₀) (hnames : Names L s₁ B) (hnul : 0 ∉ key)
    (hlen : key.length = 32) (hp : s₁.toTables.fetchFreeBlock.1 % 256 ≠ 0) :
    ¬FoundAlong L s₁ id key := by
  intro hfound
  have h := hc.holdsKey h₀ hnames hnul hlen.le
  have h0 : (record (L.content s₁.layer) id).blocknum = 0 := by
    rw [hc.record_self, newObject_blocknum]
  rcases s₁.toTables.fetchFreeBlock_spec with ⟨-, hfetch⟩ | ⟨p, t, hfetch, hfetched⟩
  · rw [hfetch] at hp
    exact hp rfl
  obtain ⟨s₂, hwrite⟩ := objstoreWrite_returns (fun _ => 0) hnames.inv
    h.stored.hasRecord le_rfl (by norm_num) (indirect_of_fetched s₁ (Or.inl h0) hfetch hfetched)
    rfl rfl
  have hfinds := hfound [⟨fun _ => 0, 0, 0⟩] _ s₂
    ⟨fun hk => by rw [h0] at hk; exact absurd hk (by simp), fun _ _ _ => trivial⟩
    (Run.run_cons hwrite rfl) (by simp)
  obtain ⟨obj, b, he⟩ := h.stored.extended hnames.inv le_rfl (by norm_num) rfl
    (by rw [h0]; simp) le_rfl hwrite
  -- The NUL of the key is the first byte of the number of the table.
  have hkey := (mem_of_lookup
    (((he.names hnames h.stored).finds_id_iff fun b _ => Set.mem_univ b).mp hfinds)).2
  have hbyte := Object.bytes_of_keyString (by omega) hkey
  obtain ⟨-, p', t', hfetch', -, -, -, -, rfl⟩ := he.table.resolve_left fun h' => h'.1 h0
  obtain ⟨rfl, -⟩ : p = p' ∧ t = t' := by simpa using hfetch.symm.trans hfetch'
  rw [hlen, Object.bytes_level1, he.record_eq h.stored.hasRecord, appended_level1,
    withIndirect_level1 h0, wordByte, hfetched.toNat] at hbyte
  have hmod := congrArg UInt8.toNat hbyte
  rw [UInt8.toNat_ofNat'] at hmod
  rw [hfetch] at hp
  exact hp (by simpa using hmod)

end Store.Created

/-! ## Keys that are accepted -/

theorem Objects.refused_iff (h : Objects L s B) : Refused s key ↔
    lookup hash (s.ids B) (keyOf (L.content s.layer)) key ≠ none ∨
      ∀ i, 2 ≤ i → i < 2^20 → s.inodemap.bit i = true := by
  unfold Refused
  rw [h.names.finds_neg_iff fun b _ => Set.mem_univ b]

/-- A key that is not refused fits into the record, with its NUL. -/
theorem AcceptsKey.fits (haccept : AcceptsKey L s key) (h : Objects L s B)
    (hnot : ¬Refused s key) : key.length < 48 := by
  by_contra hlen
  obtain ⟨r, s', hcreate, -⟩ := haccept
  rcases h.names.createObject_cases (fun b _ => Set.mem_univ b) key with
    ⟨hrefused, -⟩ | ⟨-, hnone, -⟩
  · exact hnot (h.refused_iff.mpr hrefused)
  · rw [hnone hlen] at hcreate
    exact absurd hcreate (by simp)

/-- The object of a key that is not refused. -/
theorem AcceptsKey.created (haccept : AcceptsKey L s key) (h : Objects L s B) (hnul : 0 ∉ key)
    (hnot : ¬Refused s key) : ∃ id s₁ B', Store.Names L s₁ B' ∧ Store.Created L s s₁ B B' key id ∧
      s₁.blockBitItr = s.blockBitItr ∧ StoredKey (L.content s₁.layer) id key ∧
      FoundAlong L s₁ id key := by
  obtain ⟨r, s₁, B', hcreate, hnames, hr⟩ :=
    h.names.createObject_of_nul (fun b _ => Set.mem_univ b) (haccept.fits h hnot) hnul
  obtain ⟨r', s', hcreate', hr'⟩ := haccept
  obtain ⟨rfl, rfl⟩ : r = r' ∧ s₁ = s' := by simpa using hcreate.symm.trans hcreate'
  rcases hr with ⟨-, hrefused, -⟩ | ⟨id, rfl, -, hc, hitr⟩
  · exact absurd (h.refused_iff.mpr hrefused) hnot
  · rcases hr' with ⟨hneg, -⟩ | ⟨id', hid', -, hstored, hfound⟩
    · omega
    · obtain rfl : id = id' := by omega
      exact ⟨id, s₁, B', hnames, hc, hitr, hstored, hfound⟩

theorem AcceptsKey.length_le (haccept : AcceptsKey L s key) (h : Objects L s B) (hnul : 0 ∉ key)
    (hnot : ¬Refused s key) : key.length ≤ 32 := by
  obtain ⟨id, s₁, B', -, hc, -, hstored, -⟩ := haccept.created h hnul hnot
  exact (newObject_storedKey_iff hnul hc.record_self).mp hstored

/-- The next block after the creation is the next block before it. -/
theorem fetchFreeBlock_fst {t t' : Tables} (hmap : t'.blockmap = t.blockmap)
    (hitr : t'.blockBitItr = t.blockBitItr) : t'.fetchFreeBlock.1 = t.fetchFreeBlock.1 := by
  unfold Tables.fetchFreeBlock
  rw [hmap, hitr]

/-- In every state that satisfies the invariant, a key stays usable along all writes that overwrite
no records if and only if it is refused, or it has less than 32 bytes, or it has 32 bytes and the
next free block has a number that ends in a zero byte. -/
theorem accepts_key_iff {σ : Type} [BlockLayer σ] (L : Lawful σ Set.univ) (s : Store σ)
    (B : ℕ → List ℕ) (key : List UInt8) (h : Objects L s B) (hnul : 0 ∉ key) :
    AcceptsKey L s key ↔ Refused s key ∨ key.length < 32 ∨
      (key.length = 32 ∧ s.toTables.fetchFreeBlock.1 % 256 = 0) := by
  constructor
  · intro haccept
    by_cases hnot : Refused s key
    · exact Or.inl hnot
    obtain ⟨id, s₁, B', hnames, hc, hitr, -, hfound⟩ := haccept.created h hnul hnot
    rcases Nat.lt_or_eq_of_le (haccept.length_le h hnul hnot) with hlt | heq
    · exact Or.inr (Or.inl hlt)
    · refine Or.inr (Or.inr ⟨heq, ?_⟩)
      by_contra hp
      rw [← fetchFreeBlock_fst hc.blockmap hitr] at hp
      exact hc.not_foundAlong h hnames hnul heq hp hfound
  · intro hcond
    rcases h.names.createObject_cases (fun b _ => Set.mem_univ b) key with
      ⟨-, s₁, hcreate, hcalls⟩ | ⟨hnone, -, s₁, id, map, -, -, -, h₂, hlt, hfree, -⟩
    · exact ⟨-1, s₁, hcreate, Or.inl ⟨rfl, hcalls⟩⟩
    -- The key is not refused, so that its length is one of the two.
    have hlen : key.length < 32 ∨ (key.length = 32 ∧ s.toTables.fetchFreeBlock.1 % 256 = 0) := by
      refine hcond.resolve_left fun hrefused => ?_
      rcases h.refused_iff.mp hrefused with hfound | hall
      · exact hfound hnone
      · rw [hall id h₂ hlt] at hfree
        exact absurd hfree (by simp)
    have hle : key.length ≤ 32 := hlen.elim Nat.le_of_lt fun h32 => h32.1.le
    obtain ⟨r, s₁, B', hcreate, hnames, hr⟩ :=
      h.names.createObject_of_nul (fun b _ => Set.mem_univ b) (by omega) hnul
    refine ⟨r, s₁, hcreate, ?_⟩
    rcases hr with ⟨hneg, -, -, hcalls⟩ | ⟨id, hid, -, hc, hitr⟩
    · exact Or.inl ⟨hneg, hcalls⟩
    · refine Or.inr ⟨id, hid, hc.two_le, (newObject_storedKey_iff hnul hc.record_self).mpr hle,
        hc.foundAlong h hnames hnul hle hnone fun h32 => ?_⟩
      rw [fetchFreeBlock_fst hc.blockmap hitr]
      exact (hlen.resolve_left (by omega)).2

/-! ## A new store -/

/-- In a new store no key is refused. -/
theorem Fresh.not_refused {t : Tables} (ht : Fresh t) {layer : σ} (hl : L.inv layer)
    (key : List UInt8) : ¬Refused (⟨t, layer⟩ : Store σ) key := by
  rw [(ht.objects hl).refused_iff]
  rintro (hfound | hall)
  · exact hfound (lookup_eq_none.mpr (by simp [Store.ids]))
  · have hbit := hall 2 le_rfl (by norm_num)
    have hbit' : t.inodemap.bit 2 = true := hbit
    rw [ht.inodemap 2 (by norm_num)] at hbit'
    exact absurd hbit' (by simp)

/-- A key of one byte. -/
theorem accepts_key_one :
    ∃ d' t, objstoreInit Cache.zeroDisk (Tables.new Allocator.bump) = some (0, d', t) ∧
      AcceptsKey Plain.lawful ⟨t, ⟨fun _ => Block.zero⟩⟩ [97] := by
  obtain ⟨d', t, hinit, -⟩ := mount_zeroDisk
  obtain ⟨-, hfresh⟩ := objstoreInit_fresh (fun _ _ => rfl) hinit
  exact ⟨d', t, hinit, (accepts_key_iff Plain.lawful _ (fun _ => []) [97]
    (hfresh.objects trivial) (by decide)).mpr (Or.inr (Or.inl (by decide)))⟩

/-- A key of 33 bytes. -/
theorem not_accepts_key :
    ∃ d' t, objstoreInit Cache.zeroDisk (Tables.new Allocator.bump) = some (0, d', t) ∧
      ¬AcceptsKey Plain.lawful ⟨t, ⟨fun _ => Block.zero⟩⟩ (List.replicate 33 97) := by
  obtain ⟨d', t, hinit, -⟩ := mount_zeroDisk
  obtain ⟨-, hfresh⟩ := objstoreInit_fresh (fun _ _ => rfl) hinit
  refine ⟨d', t, hinit, fun haccept => ?_⟩
  have hlen := haccept.length_le (hfresh.objects trivial) (by decide)
    (hfresh.not_refused (L := Plain.lawful) trivial _)
  exact absurd hlen (by decide)

end GemOS.Objstore
