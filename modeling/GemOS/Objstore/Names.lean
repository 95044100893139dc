import GemOS.Lib.Lookup
import GemOS.Objstore.Records

/-!
# The namespace

`Names L s B` is the invariant of the hash table, the records, and `inodemap` that `create_object`
and `rename_object` keep: every node has an id in use and the record of this id. `keyOf` is the key
of an object, `ids` are the ids of a bucket, and `find_object_id` is `lookup` in them.
`create_object` returns -1 for a key that is found and when there is no id left; else it lists a new
id at the end of the bucket, once when the bucket was empty and twice otherwise.
-/

namespace GemOS.Objstore

/-- A key as `create_object` needs it: shorter than 32 bytes, and without a NUL. -/
def KeyOk (key : List UInt8) : Prop := key.length < 32 ∧ 0 ∉ key

instance (key : List UInt8) : Decidable (KeyOk key) :=
  inferInstanceAs (Decidable (key.length < 32 ∧ 0 ∉ key))

/-! ## Keys of records -/

/-- A NUL-terminated string in memory is read back. -/
theorem takeWhile_range {f : ℕ → UInt8} {key : List UInt8} {n : ℕ} (hlen : key.length < n)
    (hf : ∀ i, i < key.length → f i = key.getD i 0) (hnul : f key.length = 0) (hkey : 0 ∉ key) :
    ((List.range n).map f).takeWhile (fun c => c != 0) = key := by
  induction key generalizing f n with
  | nil =>
    obtain ⟨m, rfl⟩ : ∃ m, n = m + 1 := ⟨n - 1, by simp at hlen; omega⟩
    have h0 : f 0 = 0 := hnul
    rw [List.range_succ_eq_map, List.map_cons, List.takeWhile_cons, h0]
    simp
  | cons c key ih =>
    obtain ⟨m, rfl⟩ : ∃ m, n = m + 1 := ⟨n - 1, by simp at hlen; omega⟩
    have hc : f 0 = c := by simpa using hf 0 (by simp)
    have hc0 : c ≠ 0 := by rintro rfl; exact hkey (by simp)
    rw [List.range_succ_eq_map, List.map_cons, List.map_map, List.takeWhile_cons, hc]
    rw [if_pos (by simpa using hc0), ih (f := f ∘ Nat.succ) (by simpa using hlen)
      (fun i hi => ?_) hnul fun h => hkey (by simp [h])]
    simpa using hf (i + 1) (by simpa using hi)

namespace Object

theorem bytes_key (obj : Object) {i : ℕ} (hi : i < 32) : obj.bytes (16 + i) = obj.key ⟨i, hi⟩ := by
  unfold bytes
  rw [if_neg (by omega), if_neg (by omega), if_neg (by omega), if_neg (by omega),
    dif_pos (by omega)]
  exact congrArg obj.key (Fin.ext (by dsimp only; omega))

/-- The key of a record whose field `key` starts with a string. -/
theorem keyString_eq {obj : Object} {key : List UInt8} (hkey : KeyOk key)
    (hobj : ∀ i : Fin 32, i.val ≤ key.length → obj.key i = key.getD i 0) : obj.keyString = key := by
  have hlen := hkey.1
  refine takeWhile_range (by omega) (fun i hi => ?_) ?_ hkey.2
  · rw [obj.bytes_key (by omega : i < 32)]
    exact hobj ⟨i, by omega⟩ hi.le
  · rw [obj.bytes_key hlen, hobj ⟨key.length, hlen⟩ le_rfl]
    exact List.getD_eq_default _ _ le_rfl

end Object

/-- The record that `create_object` writes for a key that fits into it. -/
def Store.newObject (key : List UInt8) (newId : ℕ) : Object :=
  { Object.zero.withKey key with id := UInt32.ofNat newId, cacheIndex := 0xffffffff }

/-- The record of a new object: its key, and no blocks. -/
theorem newObject_eq {key : List UInt8} (hlen : key.length < 32) (id : ℕ) :
    Store.newObject key id =
      ⟨UInt32.ofNat id, 0, 0xffffffff, 0, fun i => key.getD i 0, fun _ => 0⟩ := by
  have hbytes := Object.bytes_zero
  have hword : ∀ f : ℕ → UInt8, ∀ i, (∀ j < 4, f (i + j) = 0) → word f i = 0 := by
    intro f i h
    exact word_eq fun j hj => by rw [h j hj]; simp [wordByte]
  unfold Store.newObject Object.withKey Object.ofBytes
  simp only [Object.mk.injEq, true_and]
  refine ⟨hword _ _ fun j hj => ?_, hword _ _ fun j hj => ?_, ?_, ?_⟩
  · rw [if_neg (by omega), hbytes]
  · rw [if_neg (by omega), hbytes]
  · funext i
    have hi := i.isLt
    by_cases h : i.val ≤ key.length
    · rw [if_pos (by omega), Nat.add_sub_cancel_left]
      rcases Nat.lt_or_eq_of_le h with h | h
      · rw [List.getD_append _ _ _ _ h]
      · rw [h, List.getD_append_right _ _ _ _ le_rfl, List.getD_eq_default _ _ le_rfl]
        simp
    · rw [if_neg (by omega), hbytes, List.getD_eq_default _ _ (by omega)]
  · funext i
    have hi := i.isLt
    exact hword _ _ fun j hj => by rw [if_neg (by omega), hbytes]

/-- The bytes of a new record from the key on. -/
theorem newObject_bytes (key : List UInt8) (id : ℕ) {i : ℕ} (hi : i < 48) :
    (Store.newObject key id).bytes (16 + i) = key.getD i 0 := by
  have hbytes : (Store.newObject key id).bytes (16 + i) =
      (Object.zero.withKey key).bytes (16 + i) := by
    unfold Store.newObject Object.bytes
    simp only [show ¬16 + i < 4 by omega, show ¬16 + i < 8 by omega, show ¬16 + i < 12 by omega,
      show ¬16 + i < 16 by omega, if_false]
  rw [hbytes, Object.withKey, Object.bytes_ofBytes _ (by omega)]
  by_cases h : i ≤ key.length
  · rw [if_pos (by omega), Nat.add_sub_cancel_left]
    rcases Nat.lt_or_eq_of_le h with h | h
    · rw [List.getD_append _ _ _ _ h]
    · rw [h, List.getD_append_right _ _ _ _ le_rfl, List.getD_eq_default _ _ le_rfl]
      simp
  · rw [if_neg (by omega), Object.bytes_zero, List.getD_eq_default _ _ (by omega)]

/-- The key of a new record. -/
theorem newObject_keyString {key : List UInt8} (hlen : key.length < 48) (hnul : 0 ∉ key) (id : ℕ) :
    (Store.newObject key id).keyString = key := by
  unfold Object.keyString
  rw [List.map_congr_left fun i hi => newObject_bytes key id (List.mem_range.mp hi)]
  exact takeWhile_range hlen (fun _ _ => rfl) (List.getD_eq_default _ _ le_rfl) hnul

theorem newObject_id (key : List UInt8) {id : ℕ} (hid : id < 2^32) :
    (Store.newObject key id).id.toNat = id :=
  UInt32.toNat_ofNat_of_lt' hid

theorem newObject_blocknum (key : List UInt8) (id : ℕ) : (Store.newObject key id).blocknum = 0 := by
  have hword : (Store.newObject key id).blocknum = word (fun i => if 16 ≤ i ∧ i ≤ 16 + key.length
      then (key ++ [0]).getD (i - 16) 0 else Object.zero.bytes i) 12 := rfl
  rw [hword]
  refine word_eq fun j hj => ?_
  rw [if_neg (by omega), Object.bytes_zero]
  simp [wordByte]

/-- A hash is a number below `2^15 - 1`, plus 1. -/
theorem hash_le (key : List UInt8) : hash key ≤ 2^15 := by
  have hstep : ∀ (l : List UInt8) (h : ℕ), h < 2^15 → l.foldl hashStep h < 2^15 := by
    intro l
    induction l with
    | nil => exact fun h hh => hh
    | cons c l ih =>
      intro h _
      refine ih _ ?_
      unfold hashStep
      omega
  have := hstep (key.take 29) 0 (by norm_num)
  unfold hash
  omega

theorem hash_lt (key : List UInt8) : hash key < 2^20 := (hash_le key).trans_lt (by norm_num)

/-! ## The invariant -/

/-- The key of an object on a disk with contents `D`. -/
def keyOf (D : ℕ → Block) (id : ℕ) : List UInt8 := (record D id).keyString

/-- An object that a node may have: its id is in use and its record has the id. -/
structure Present (map : ByteMap) (D : ℕ → Block) (id : ℕ) : Prop where
  /-- The ids 0 and 1 are reserved. -/
  two_le : 2 ≤ id
  /-- There are `MAX_OBJECT` ids. -/
  lt : id < 2^20
  /-- The id is in use. -/
  bit : map.bit id = true
  /-- The record has the id. -/
  record : (record D id).id.toNat = id

theorem Table.congr {t t' : Tables} {B : ℕ → List ℕ} (h : Table t B) (hheap : t'.heap = t.heap)
    (htable : t'.hashTable = t.hashTable) : Table t' B := by
  obtain ⟨wf, chain, live, nodup, disjoint⟩ := h
  rw [← hheap] at wf chain live
  rw [← htable] at chain
  exact ⟨wf, chain, live, nodup, disjoint⟩

variable {σ : Type} [BlockLayer σ] {dom : Set ℕ} (L : Lawful σ dom)

namespace Store

/-- The ids of the nodes of each bucket. -/
def ids (s : Store σ) (B : ℕ → List ℕ) (v : ℕ) : List ℕ := (B v).map fun a => (s.heap.mem a).id

/-- The invariant of the namespace. -/
structure Names (s : Store σ) (B : ℕ → List ℕ) : Prop where
  /-- The block layer is in one of its states. -/
  inv : L.inv s.layer
  /-- The buckets. -/
  table : Table s.toTables B
  /-- The objects of the nodes. -/
  node : ∀ v, ∀ a ∈ B v, Present s.inodemap (L.content s.layer) (s.heap.mem a).id

variable {L} {s s' : Store σ} {B : ℕ → List ℕ} {D : ℕ → Block} {key : List UInt8}

theorem Names.present (h : Names L s B) {v id : ℕ} (hid : id ∈ s.ids B v) :
    Present s.inodemap (L.content s.layer) id := by
  obtain ⟨a, ha, rfl⟩ := List.mem_map.mp hid
  exact h.node v a ha

/-- Calls that keep the contents keep the invariant. -/
theorem Names.calls (h : Names L s B) (hc : Calls L s s' (L.content s.layer)) : Names L s' B := by
  refine ⟨hc.inv, ?_, fun v a ha => ?_⟩
  · rw [hc.tables]
    exact h.table
  · rw [hc.content, hc.tables]
    exact h.node v a ha

theorem Calls.ids (hc : Calls L s s' D) : s'.ids B = s.ids B := by
  funext v
  unfold Store.ids
  rw [hc.heap]

/-- What a walk over nodes with records finds. -/
theorem searchIn_cases (D : ℕ → Block) (mem : ℕ → HashObj) (key : List UInt8) (par : Ptr)
    (l : List ℕ) (hl : ∀ a ∈ l, 2 ≤ (mem a).id ∧ (record D (mem a).id).id.toNat = (mem a).id) :
    ((∀ a ∈ l, keyOf D (mem a).id ≠ key) ∧
        searchIn D mem key par l = .missing (l.getLast?.or par)) ∨
      ∃ l₁ a l₂, l = l₁ ++ a :: l₂ ∧ (∀ b ∈ l₁, keyOf D (mem b).id ≠ key) ∧
        keyOf D (mem a).id = key ∧
        searchIn D mem key par l = .found (l₁.getLast?.or par) a (record D (mem a).id) := by
  induction l generalizing par with
  | nil => exact Or.inl ⟨by simp, rfl⟩
  | cons a l ih =>
    obtain ⟨h₂, hrec⟩ := hl a (by simp)
    rw [searchIn, if_neg (by simpa using hrec)]
    by_cases hkey : keyOf D (mem a).id = key
    · refine Or.inr ⟨[], a, l, rfl, by simp, hkey, ?_⟩
      rw [if_pos ⟨by omega, hkey⟩]
      rfl
    · have hneg : ¬((mem a).id ≠ 0 ∧ (record D (mem a).id).keyString = key) := fun h => hkey h.2
      rw [if_neg hneg]
      rcases ih (some a) fun b hb => hl b (by simp [hb]) with
        ⟨hall, hmiss⟩ | ⟨l₁, b, l₂, rfl, h₁, hb, hfound⟩
      · refine Or.inl ⟨by simpa [hkey] using hall, ?_⟩
        rw [hmiss, getLast?_cons_or]
      · refine Or.inr ⟨a :: l₁, b, l₂, rfl, by simpa [hkey] using h₁, hb, ?_⟩
        rw [hfound, getLast?_cons_or]

/-- The search for a key ends behind its bucket, or at the first node whose object has the key. -/
theorem Names.searchKey (h : Names L s B) (hdom : ∀ b ∈ recordBlocks, b ∈ dom) (key : List UInt8) :
    ∃ r s', s.searchKey key = some (r, s') ∧ Calls L s s' (L.content s.layer) ∧
      ((lookup hash (s.ids B) (keyOf (L.content s.layer)) key = none ∧
          r = .missing (B (hash key)).getLast?) ∨
        ∃ l₁ a l₂, B (hash key) = l₁ ++ a :: l₂ ∧
          (∀ b ∈ l₁, keyOf (L.content s.layer) (s.heap.mem b).id ≠ key) ∧
          keyOf (L.content s.layer) (s.heap.mem a).id = key ∧
          lookup hash (s.ids B) (keyOf (L.content s.layer)) key = some (s.heap.mem a).id ∧
          r = .found (l₁.getLast?.or (s.hashTable (hash key))) a
            (record (L.content s.layer) (s.heap.mem a).id)) := by
  have hvalid : ∀ a ∈ B (hash key), 2 ≤ (s.heap.mem a).id ∧
      (record (L.content s.layer) (s.heap.mem a).id).id.toNat = (s.heap.mem a).id :=
    fun a ha => ⟨(h.node _ a ha).two_le, (h.node _ a ha).record⟩
  obtain ⟨s', hsearch, hcalls⟩ := search_spec h.inv key (s.hashTable (hash key))
    (h.table.chain (hash key)) (h.table.length_lt_fuel _)
    fun a ha => hdom _ (recordBlock_mem (h.node _ a ha).two_le (h.node _ a ha).lt)
  refine ⟨_, s', hsearch, hcalls, ?_⟩
  rcases searchIn_cases (L.content s.layer) s.heap.mem key (s.hashTable (hash key)) (B (hash key))
    hvalid with ⟨hall, hmiss⟩ | ⟨l₁, a, l₂, hB, h₁, ha, hfound⟩
  · refine Or.inl ⟨lookup_eq_none.mpr fun i hi => ?_, ?_⟩
    · obtain ⟨a, ha, rfl⟩ := List.mem_map.mp hi
      exact hall a ha
    · rw [hmiss, (h.table.chain _).head_eq]
      cases B (hash key) <;> simp [List.getLast?_cons]
  · refine Or.inr ⟨l₁, a, l₂, hB, h₁, ha, ?_, hfound⟩
    -- The first node with the key carries the first id with the key.
    have hids : s.ids B (hash key) = (l₁.map fun b => (s.heap.mem b).id) ++ (s.heap.mem a).id ::
        l₂.map fun b => (s.heap.mem b).id := by
      unfold ids
      rw [hB, List.map_append, List.map_cons]
    refine lookup_of_split hids ha fun j hj => ?_
    obtain ⟨b, hb, rfl⟩ := List.mem_map.mp hj
    exact h₁ b hb

/-- `find_object_id` is a lookup. -/
theorem Names.findObjectId (h : Names L s B) (hdom : ∀ b ∈ recordBlocks, b ∈ dom)
    (key : List UInt8) :
    ∃ s', s.findObjectId key =
        some (((lookup hash (s.ids B) (keyOf (L.content s.layer)) key).map Nat.cast).getD (-1),
          s') ∧
      Calls L s s' (L.content s.layer) := by
  obtain ⟨r, s', hsearch, hcalls, hr⟩ := h.searchKey hdom key
  refine ⟨s', ?_, hcalls⟩
  unfold Store.findObjectId
  rw [hsearch]
  rcases hr with ⟨hnone, rfl⟩ | ⟨l₁, a, l₂, -, -, -, hsome, rfl⟩
  · rw [hnone]
    rfl
  · rw [hsome, ← hcalls.heap]
    rfl

/-- `find_object_id(key)` returns `r`. -/
def Finds (s : Store σ) (key : List UInt8) (r : ℤ) : Prop :=
  ∃ s', s.findObjectId key = some (r, s')

theorem Names.finds_iff (h : Names L s B) (hdom : ∀ b ∈ recordBlocks, b ∈ dom) {r : ℤ} :
    s.Finds key r ↔
      r = ((lookup hash (s.ids B) (keyOf (L.content s.layer)) key).map Nat.cast).getD (-1) := by
  obtain ⟨s', hfind, -⟩ := h.findObjectId hdom key
  constructor
  · rintro ⟨s'', hr⟩
    rw [hfind, Option.some.injEq, Prod.mk.injEq] at hr
    exact hr.1.symm
  · rintro rfl
    exact ⟨s', hfind⟩

/-- A key is found if and only if the lookup finds it. -/
theorem Names.finds_id_iff (h : Names L s B) (hdom : ∀ b ∈ recordBlocks, b ∈ dom) {id : ℕ} :
    s.Finds key id ↔ lookup hash (s.ids B) (keyOf (L.content s.layer)) key = some id := by
  rw [h.finds_iff hdom]
  cases lookup hash (s.ids B) (keyOf (L.content s.layer)) key with
  | none => exact iff_of_false (by simp) (by simp)
  | some n => simp [eq_comm]

/-- `find_object_id` returns -1 if and only if the lookup finds nothing. -/
theorem Names.finds_neg_iff (h : Names L s B) (hdom : ∀ b ∈ recordBlocks, b ∈ dom) :
    s.Finds key (-1) ↔ lookup hash (s.ids B) (keyOf (L.content s.layer)) key = none := by
  rw [h.finds_iff hdom]
  cases lookup hash (s.ids B) (keyOf (L.content s.layer)) key with
  | none => simp
  | some n => exact iff_of_false (by simp) (by simp)

/-- Writes to the disk that keep the ids of the records keep the invariant. -/
theorem Names.update (h : Names L s B) (hinv : L.inv s'.layer) (hheap : s'.heap = s.heap)
    (htable : s'.hashTable = s.hashTable) (hmap : s'.inodemap = s.inodemap)
    (hrec : ∀ id, Present s.inodemap (L.content s.layer) id →
      (record (L.content s'.layer) id).id.toNat = id) : Names L s' B := by
  refine ⟨hinv, h.table.congr hheap htable, fun v a ha => ?_⟩
  have hp := h.node v a ha
  rw [hheap, hmap]
  exact ⟨hp.two_le, hp.lt, hp.bit, hrec _ hp⟩

/-! ## Creating an object -/

/-- What `create_object(key)` leaves of the maps and the records when it returns the id `id`. -/
structure Made (L : Lawful σ dom) (s s' : Store σ) (key : List UInt8) (id : ℕ) : Prop where
  /-- The ids 0 and 1 are reserved. -/
  two_le : 2 ≤ id
  /-- There are `MAX_OBJECT` ids. -/
  lt : id < 2^20
  /-- The id was free. -/
  free : s.inodemap.bit id = false
  /-- It is in use now. -/
  bit : ∀ i, s'.inodemap.bit i = (s.inodemap.bit i || decide (i = id))
  /-- The record is written. -/
  content : L.content s'.layer = setRecord (L.content s.layer) id (newObject key id)
  /-- No block is taken. -/
  blockmap : s'.blockmap = s.blockmap

/-- What `create_object(key)` leaves when it returns the id `id`. -/
structure Created (L : Lawful σ dom) (s s' : Store σ) (B B' : ℕ → List ℕ) (key : List UInt8)
    (id : ℕ) : Prop extends Made L s s' key id where
  /-- The id is the one that `fetch_free_id` hands out. -/
  fetched : s.toTables.fetchFreeId.1 = id
  /-- The id is listed. -/
  ids : s'.ids B' = Function.update (s.ids B) (hash key)
    (s.ids B (hash key) ++ if s.ids B (hash key) = [] then [id] else [id, id])

/-- The new node that `create_object` links itself. -/
def linkNew (s : Store σ) (id v : ℕ) (par : Ptr) : Store σ :=
  { s with
    toTables := (s.allocNode fun n => { n with id := id, next := none }).link v par s.heap.fresh }

theorem createObject_missing {s₁ s₂ : Store σ} {par : Ptr} {id : ℕ}
    (hsearch : s.searchKey key = some (.missing par, s₁)) (hid : s₁.fetchFreeId = (id, s₂))
    (hid0 : id ≠ 0) (hlen : key.length < 48) : s.createObject key =
      ((s₂.linkNew id (hash key) par).insertToHashTable (newObject key id).id.toNat
        (hash (newObject key id).keyString)).bind fun s =>
        (s.insertToDisk (newObject key id)).bind fun s => some ((id : ℤ), s) := by
  unfold createObject
  rw [hsearch]
  simp only [Option.bind_eq_bind, Option.bind_some, hid]
  rw [if_neg hid0, Object.strcpy, if_pos hlen]
  cases par <;> rfl

/-- A new key with its NUL that does not fit into a record. -/
theorem createObject_long {s₁ s₂ : Store σ} {par : Ptr} {id : ℕ}
    (hsearch : s.searchKey key = some (.missing par, s₁)) (hid : s₁.fetchFreeId = (id, s₂))
    (hid0 : id ≠ 0) (hlen : ¬key.length < 48) : s.createObject key = none := by
  unfold createObject
  rw [hsearch]
  simp only [Option.bind_eq_bind, Option.bind_some, hid]
  rw [if_neg hid0, Object.strcpy, if_neg hlen]
  rfl

theorem createObject_full {s₁ s₂ : Store σ} {par : Ptr}
    (hsearch : s.searchKey key = some (.missing par, s₁)) (hid : s₁.fetchFreeId = (0, s₂)) :
    s.createObject key = some (-1, s₂) := by
  unfold createObject
  rw [hsearch]
  simp only [Option.bind_eq_bind, Option.bind_some, hid]
  rfl

theorem createObject_found {s₁ : Store σ} {par : Ptr} {a : ℕ} {obj : Object}
    (hsearch : s.searchKey key = some (.found par a obj, s₁)) :
    s.createObject key = some (-1, s₁) := by
  unfold createObject
  rw [hsearch]
  rfl

omit [BlockLayer σ] in
/-- What `fetch_free_id` does. -/
theorem fetchFreeId_spec (s : Store σ) :
    ((∀ i, 2 ≤ i → i < 2^20 → s.inodemap.bit i = true) ∧ s.fetchFreeId = (0, s)) ∨
      ∃ id map, s.fetchFreeId = (id, { s with inodemap := map, inodeBitItr := id / 8 }) ∧ 2 ≤ id ∧
        id < 2^20 ∧ s.inodemap.bit id = false ∧
        ∀ i, map.bit i = (s.inodemap.bit i || decide (i = id)) := by
  unfold fetchFreeId Tables.fetchFreeId
  rcases ByteMap.fetchFree_spec (n := 2^17) (by norm_num) s.inodemap s.inodeBitItr with
    ⟨hall, heq⟩ | ⟨id, map, heq, h₂, hlt, hfree, hbit⟩
  · rw [heq]
    exact Or.inl ⟨fun i hi hlt => hall i hi (by omega), rfl⟩
  · rw [heq]
    exact Or.inr ⟨id, map, rfl, h₂, by omega, hfree, hbit⟩

end Store

/-- A present object is still present after the record of another one was written. -/
theorem Present.setRecord {map map' : ByteMap} {D : ℕ → Block} {i j : ℕ} (h : Present map D j)
    (hbit : map.bit j = true → map'.bit j = true) (hi₂ : 2 ≤ i) (hi : i < 2^20) (hij : j ≠ i)
    (obj : Object) : Present map' (setRecord D i obj) j := by
  refine ⟨h.two_le, h.lt, hbit h.bit, ?_⟩
  have hj := h.lt
  rw [record_setRecord_of_ne D hi₂ (by omega) h.two_le (by omega) hij]
  exact h.record

/-- The key of an object depends on its own record only. -/
theorem Present.keyOf_setRecord {map : ByteMap} {D : ℕ → Block} {i j : ℕ} (h : Present map D j)
    (hi₂ : 2 ≤ i) (hi : i < 2^20) (hij : j ≠ i) (obj : Object) :
    keyOf (GemOS.Objstore.setRecord D i obj) j = keyOf D j := by
  have hj := h.lt
  rw [keyOf, record_setRecord_of_ne D hi₂ (by omega) h.two_le (by omega) hij]
  rfl

namespace Store

variable {L : Lawful σ dom} {s s' : Store σ} {B : ℕ → List ℕ} {key : List UInt8}

/-- A new object has the key that it was created with. -/
theorem Created.keyOf_self {B' : ℕ → List ℕ} {id : ℕ} (h : Created L s s' B B' key id)
    (hkey : KeyOk key) :
    keyOf (L.content s'.layer) id = key := by
  rw [h.content, keyOf, record_setRecord_self,
    newObject_keyString (hkey.1.trans (by norm_num)) hkey.2]

/-- The creation of an object leaves the keys of the others. -/
theorem Created.keyOf_of_ne {B' : ℕ → List ℕ} {id j : ℕ} (h : Created L s s' B B' key id)
    (hj : Present s.inodemap (L.content s.layer) j) (hne : j ≠ id) :
    keyOf (L.content s'.layer) j = keyOf (L.content s.layer) j := by
  rw [h.content]
  exact hj.keyOf_setRecord h.two_le h.lt hne _

/-- `create_object` refuses a key that is found, or any key when all ids are in use, or else it
takes an id, and overruns the record when the key does not fit. -/
theorem Names.createObject_cases (h : Names L s B) (hdom : ∀ b ∈ recordBlocks, b ∈ dom)
    (key : List UInt8) :
    ((lookup hash (s.ids B) (keyOf (L.content s.layer)) key ≠ none ∨
          ∀ i, 2 ≤ i → i < 2^20 → s.inodemap.bit i = true) ∧
        ∃ s', s.createObject key = some (-1, s') ∧ Calls L s s' (L.content s.layer)) ∨
      lookup hash (s.ids B) (keyOf (L.content s.layer)) key = none ∧
        (¬key.length < 48 → s.createObject key = none) ∧
        ∃ s₁ id map, s.searchKey key = some (.missing (B (hash key)).getLast?, s₁) ∧
          Calls L s s₁ (L.content s.layer) ∧
          s₁.fetchFreeId = (id, { s₁ with inodemap := map, inodeBitItr := id / 8 }) ∧ 2 ≤ id ∧
          id < 2^20 ∧ s.inodemap.bit id = false ∧
          ∀ i, map.bit i = (s.inodemap.bit i || decide (i = id)) := by
  obtain ⟨r, s₁, hsearch, hcalls, hr⟩ := h.searchKey hdom key
  rcases hr with ⟨hnone, rfl⟩ | ⟨l₁, a, l₂, -, -, -, hsome, rfl⟩
  swap
  · exact Or.inl ⟨Or.inl (by simp [hsome]), s₁, createObject_found hsearch, hcalls⟩
  have hmap : s₁.inodemap = s.inodemap := congrArg Tables.inodemap hcalls.tables
  rcases s₁.fetchFreeId_spec with ⟨hall, hid⟩ | ⟨id, map, hid, h₂, hlt, hfree, hbit⟩
  · rw [hmap] at hall
    exact Or.inl ⟨Or.inr hall, s₁, createObject_full hsearch hid, hcalls⟩
  · rw [hmap] at hfree hbit
    exact Or.inr ⟨hnone, fun hlen => createObject_long hsearch hid (by omega) hlen, s₁, id, map,
      hsearch, hcalls, hid, h₂, hlt, hfree, hbit⟩

/-- `create_object` returns -1 when the key is found or all ids are in use, and else creates an
object, also when the key runs into the fields behind it. -/
theorem Names.createObject_of_nul (h : Names L s B) (hdom : ∀ b ∈ recordBlocks, b ∈ dom)
    (hlen : key.length < 48) (hnul : 0 ∉ key) :
    ∃ r s' B', s.createObject key = some (r, s') ∧ Names L s' B' ∧
      ((r = -1 ∧ (lookup hash (s.ids B) (keyOf (L.content s.layer)) key ≠ none ∨
            ∀ i, 2 ≤ i → i < 2^20 → s.inodemap.bit i = true) ∧
          B' = B ∧ Calls L s s' (L.content s.layer)) ∨
        ∃ id : ℕ, r = id ∧ lookup hash (s.ids B) (keyOf (L.content s.layer)) key = none ∧
          Created L s s' B B' key id ∧ s'.blockBitItr = s.blockBitItr) := by
  rcases h.createObject_cases hdom key with ⟨hrefused, s₁, hcreate, hcalls⟩ |
    ⟨hnone, -, s₁, id, map, hsearch, hcalls, hid, h₂, hlt, hfree, hbit⟩
  · exact ⟨-1, s₁, B, hcreate, h.calls hcalls, Or.inl ⟨rfl, hrefused, rfl, hcalls⟩⟩
  have hobj : (newObject key id).id.toNat = id := newObject_id key (by omega)
  -- The node that the function links itself.
  set s₂ : Store σ := { s₁ with inodemap := map, inodeBitItr := id / 8 } with hs₂
  have htable₂ : Table s₂.toTables B :=
    h.table.congr (hcalls.heap ▸ rfl) (hcalls.hashTable ▸ rfl)
  obtain ⟨htable₃, hids₃⟩ := htable₂.append (hash key)
    (f := fun n => { n with id := id, next := none }) rfl
  set s₃ : Store σ := s₂.linkNew id (hash key) (B (hash key)).getLast? with hs₃
  have htable₃' : Table s₃.toTables _ := htable₃
  have hids₃' : ∀ q, (s₃.heap.mem q).id = if q = s₂.heap.fresh then id else (s₂.heap.mem q).id :=
    hids₃
  -- The node that `insert_to_hash_table` links.
  obtain ⟨t₄, hins, htable₄, hids₄, -, hmaps₄⟩ := htable₃'.insertToHashTable (hash_lt key) id
  set s₄ : Store σ := { s₃ with toTables := t₄ } with hs₄
  -- The record.
  obtain ⟨s₅, hdisk, hcalls₅⟩ := insertToDisk_spec (s := s₄) hcalls.inv (newObject key id)
    (by rwa [hobj]) (by rw [hobj]; exact hdom _ (recordBlock_mem h₂ hlt))
  have hcont : L.content s₄.layer = L.content s.layer := hcalls.content
  rw [hobj, hcont] at hcalls₅
  have hins₄ : s₃.insertToHashTable id (hash key) = some s₄ := by
    rw [insertToHashTable, hins]
    rfl
  have hcode : s.createObject key = some ((id : ℤ), s₅) := by
    rw [createObject_missing hsearch hid (by omega) hlen, hobj, newObject_keyString hlen hnul,
      hins₄, Option.bind_some, hdisk, Option.bind_some]
  -- The ids of the nodes.
  have hp : ∀ w, s₂.heap.fresh ∉ B w := htable₂.fresh_not_mem
  have hp' : ∀ w, ∀ q ∈ B w, q ≠ s₃.heap.fresh := fun w q hq hqp => by
    refine htable₃'.fresh_not_mem w (hqp ▸ ?_)
    by_cases hw : w = hash key
    · rw [hw, Function.update_self]
      exact List.mem_append_left _ (hw ▸ hq)
    · rwa [Function.update_of_ne hw]
  have hidq : ∀ q, (s₅.heap.mem q).id = if q = s₃.heap.fresh then id
      else if q = s₂.heap.fresh then id else (s.heap.mem q).id := fun q => by
    rw [hcalls₅.heap]
    change (t₄.heap.mem q).id = _
    rw [hids₄, hids₃']
    have hheap : s₂.heap = s.heap := hcalls.heap
    rw [hheap]
  have hold : ∀ w, ∀ q ∈ B w, (s₅.heap.mem q).id = (s.heap.mem q).id := fun w q hq => by
    have hqp : q ≠ s₂.heap.fresh := by rintro rfl; exact hp w hq
    rw [hidq, if_neg (hp' w q hq), if_neg hqp]
  have hmaps : s₅.toTables = t₄ := hcalls₅.tables
  have hmaps₃ : Tables.MapsEq _ s₃.toTables := Tables.link_mapsEq _ _ _ _
  have hbit₅ : s₅.inodemap = map := by rw [hmaps, hmaps₄.inodemap, hmaps₃.inodemap]; rfl
  refine ⟨id, s₅, _, hcode, ⟨hcalls₅.inv, hmaps ▸ htable₄, fun w a ha => ?_⟩,
    Or.inr ⟨id, rfl, hnone, ⟨⟨h₂, hlt, hfree, ?_, hcalls₅.content, ?_⟩,
      hcalls.tables ▸ congrArg Prod.fst hid, ?_⟩, ?_⟩⟩
  · rw [hcalls₅.content]
    have hnew : Present s₅.inodemap (setRecord (L.content s.layer) id (newObject key id)) id :=
      ⟨h₂, hlt, by rw [hbit₅, hbit]; simp, by rw [record_setRecord_self, hobj]⟩
    have hpres : ∀ w, ∀ q ∈ B w, Present s₅.inodemap
        (setRecord (L.content s.layer) id (newObject key id)) (s₅.heap.mem q).id := fun w q hq => by
      rw [hold w q hq]
      have hq := h.node w q hq
      refine hq.setRecord (fun hb => by rw [hbit₅, hbit, hb, Bool.true_or]) h₂ hlt ?_ _
      intro hqid
      rw [← hqid, hq.bit] at hfree
      exact absurd hfree (by simp)
    by_cases hqp' : a = s₃.heap.fresh
    · rwa [hidq, if_pos hqp']
    by_cases hqp : a = s₂.heap.fresh
    · rwa [hidq, if_neg hqp', if_pos hqp]
    by_cases hw : w = hash key
    · refine hpres w a ?_
      rw [hw, Function.update_self, Function.update_self] at ha
      rw [hw]
      split_ifs at ha
      · exact absurd (List.mem_singleton.mp ha) hqp'
      · simpa [hqp, hqp'] using ha
    · rw [Function.update_of_ne hw, Function.update_of_ne hw] at ha
      exact hpres w a ha
  · intro i
    rw [hbit₅, hbit]
  · rw [hmaps, hmaps₄.blockmap, hmaps₃.blockmap]
    change s₁.blockmap = s.blockmap
    rw [hcalls.tables]
  · funext w
    by_cases hw : w = hash key
    · subst hw
      have hmap : (B (hash key)).map (fun a => (s₅.heap.mem a).id) = s.ids B (hash key) :=
        List.map_congr_left (hold (hash key))
      have hids : s.ids B (hash key) = [] ↔ B (hash key) = [] := List.map_eq_nil_iff
      rw [Function.update_self]
      unfold Store.ids at hids ⊢
      rw [Function.update_self, Function.update_self]
      by_cases hB : B (hash key) = []
      · rw [if_pos (by simp [hB]), if_pos (hids.mpr hB), hB]
        simp [hidq]
      · have hlen : ¬(B (hash key) ++ [s₂.heap.fresh]).length ≤ 1 := by
          have := List.length_pos_iff.mpr hB
          simp
          omega
        rw [if_neg hlen, if_neg fun h => hB (hids.mp h)]
        rw [List.map_append, List.map_append, hmap]
        simp [Store.ids, hidq]
    · unfold Store.ids
      rw [Function.update_of_ne hw, Function.update_of_ne hw, Function.update_of_ne hw]
      exact List.map_congr_left (hold w)
  · rw [hmaps, hmaps₄.blockBitItr, hmaps₃.blockBitItr]
    change s₁.blockBitItr = s.blockBitItr
    rw [hcalls.tables]

/-- `create_object` of a key that fits into the record. -/
theorem Names.createObject (h : Names L s B) (hdom : ∀ b ∈ recordBlocks, b ∈ dom)
    (hkey : KeyOk key) :
    ∃ r s' B', s.createObject key = some (r, s') ∧ Names L s' B' ∧
      ((r = -1 ∧ (lookup hash (s.ids B) (keyOf (L.content s.layer)) key ≠ none ∨
            ∀ i, 2 ≤ i → i < 2^20 → s.inodemap.bit i = true) ∧
          B' = B ∧ Calls L s s' (L.content s.layer)) ∨
        ∃ id : ℕ, r = id ∧ lookup hash (s.ids B) (keyOf (L.content s.layer)) key = none ∧
          Created L s s' B B' key id) := by
  have hlen := hkey.1
  obtain ⟨r, s', B', hcreate, hnames, hr⟩ := h.createObject_of_nul hdom (by omega) hkey.2
  exact ⟨r, s', B', hcreate, hnames,
    hr.imp_right fun ⟨id, hid, hnone, hc, _⟩ => ⟨id, hid, hnone, hc⟩⟩

end Store

end GemOS.Objstore
