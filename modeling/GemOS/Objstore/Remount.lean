import GemOS.Objstore.Durable
import GemOS.Objstore.FiniteMap

/-!
# Unmounting and mounting again

`objstore_destroy` writes an array with 8 bytes for each id to the blocks of the hash table, and
`objstore_init` reads one byte for each id, 1024 from each block. The bytes that it takes for the
ids 0 to 15 are those of the ids 0 and 1, which no object has, so that the first object is lost.
-/

namespace GemOS.Objstore

variable {d d' : Disk} {t t' : Tables} {B : ℕ → List ℕ} {temp : ℕ → ℕ} {id : ℕ}

/-! ## What `objstore_destroy` writes -/

/-- The walk through a bucket sets the entries of its ids to the number of the bucket. -/
theorem fillChain_spec {l : List ℕ} {p : Ptr} {fuel : ℕ} (temp : ℕ → ℕ) (i : ℕ)
    (hchain : Chain t.heap.mem HashObj.next p l) (hfuel : l.length < fuel)
    (hid : ∀ a ∈ l, (t.heap.mem a).id < 2^20) :
    ∃ temp', fillChain t i fuel p temp = some temp' ∧
      ∀ id, temp' id = temp id ∨ temp' id = i ∧ ∃ a ∈ l, (t.heap.mem a).id = id := by
  induction l generalizing p fuel temp with
  | nil =>
    obtain ⟨k, rfl⟩ : ∃ k, fuel = k + 1 := ⟨fuel - 1, by omega⟩
    obtain rfl : p = none := hchain
    exact ⟨temp, rfl, fun _ => Or.inl rfl⟩
  | cons a l ih =>
    obtain ⟨k, rfl⟩ : ∃ k, fuel = k + 1 := ⟨fuel - 1, by omega⟩
    obtain ⟨rfl, hchain⟩ := hchain
    have ha := hid a (by simp)
    obtain ⟨temp', hrun, hset⟩ := ih (Function.update temp (t.heap.mem a).id i) hchain
      (by simpa using hfuel) fun q hq => hid q (by simp [hq])
    refine ⟨temp', ?_, fun id => ?_⟩
    · rw [fillChain, if_neg (by omega)]
      exact hrun
    · -- A later node with the id sets its entry to the same number.
      rcases hset id with heq | ⟨heq, q, hq, hqid⟩
      · by_cases hida : id = (t.heap.mem a).id
        · rw [hida, Function.update_self] at heq
          exact Or.inr ⟨hida ▸ heq, a, by simp, hida.symm⟩
        · exact Or.inl (heq.trans (Function.update_of_ne hida _ _))
      · exact Or.inr ⟨heq, q, by simp [hq], hqid⟩

/-- The lists that `objstore_destroy` walks through end, and the ids are below `MAX_OBJECT`. -/
structure Walks (s : Store Cache) (B C : ℕ → List ℕ) : Prop where
  /-- The buckets of `hashTable`. -/
  chain : ∀ v < 2^20, Chain s.heap.mem HashObj.next (s.hashTable v) (B v)
  /-- They have at most as many nodes as were allocated. -/
  fuel : ∀ v < 2^20, (B v).length < s.heap.fuel
  /-- The ids. -/
  id : ∀ v < 2^20, ∀ a ∈ B v, (s.heap.mem a).id < 2^20
  /-- The buckets of `cacheHashTable`. -/
  cacheChain : ∀ v < 2^15, Chain s.layer.heap.mem CacheObj.next (s.layer.table v) (C v)
  /-- They have at most as many nodes as were allocated. -/
  cacheFuel : ∀ v < 2^15, (C v).length < s.layer.heap.fuel

/-- The dirty nodes among `C` are not those of metadata blocks. -/
def NoDirtyMeta (c : Cache) (C : ℕ → List ℕ) : Prop :=
  ∀ v < 2^15, ∀ a ∈ C v, (c.heap.mem a).dirty = true → 1312 ≤ (c.heap.mem a).diskAddr

/-- A cache of blocks that are not metadata blocks. -/
theorem walks_of_inv {s : Store Cache} {S : Finset ℕ} {hS : Cache.Spread S}
    (hdata : ∀ b ∈ S, 1312 ≤ b) (hinv : hS.lawful.inv s.layer) (h : Table s.toTables B)
    (hid : ∀ v, ∀ a ∈ B v, (s.heap.mem a).id < 2^20) :
    s.layer.disk.AllOk ∧ ∃ C, Walks s B C ∧ NoDirtyMeta s.layer C := by
  obtain ⟨l, C, hc, hl⟩ := hinv
  refine ⟨hc.disk, C, ⟨fun v _ => h.chain v, fun v _ => h.length_lt_fuel v, fun v _ => hid v,
    fun v _ => hc.shape.buckets.chain v, fun v _ => hc.shape.buckets.fuel v⟩, fun v _ a ha _ => ?_⟩
  exact hdata _ (hl a ((hc.shape.members.mem_iff v a).mp ha).1)

theorem le_of_mem_recordBlocks {b : ℕ} (hb : b ∈ recordBlocks) : 1312 ≤ b :=
  (Finset.mem_Ico.mp hb).1

/-- The loop over the buckets sets the entries of the listed ids to the numbers of their
buckets. -/
theorem fillBuckets_spec {s : Store Cache} {C : ℕ → List ℕ} (h : Walks s B C)
    (temp : ℕ → ℕ) {n i : ℕ} (hn : i + n ≤ 2^20) :
    ∃ temp', fillBuckets s.toTables n i temp = some temp' ∧
      ∀ id, temp' id = temp id ∨ ∃ a ∈ B (temp' id), (s.heap.mem a).id = id := by
  induction n generalizing i temp with
  | zero => exact ⟨temp, rfl, fun _ => Or.inl rfl⟩
  | succ n ih =>
    have hi : i < 2^20 := by omega
    obtain ⟨temp₁, hchain, hset₁⟩ :=
      fillChain_spec temp i (h.chain i hi) (h.fuel i hi) (h.id i hi)
    obtain ⟨temp₂, hrun, hset₂⟩ := ih temp₁ (i := i + 1) (by omega)
    refine ⟨temp₂, ?_, fun id => ?_⟩
    · rw [fillBuckets, hchain]
      exact hrun
    · -- For an id that is in two buckets the later one counts.
      rcases hset₂ id with heq | hlisted
      · rcases hset₁ id with heq₁ | ⟨heq₁, hlisted⟩
        · exact Or.inl (heq.trans heq₁)
        · rw [heq, heq₁]
          exact Or.inr hlisted
      · exact Or.inr hlisted

/-- Over a disk that never fails, the blocks are written. -/
theorem storeBlocks_ok (hd : d.AllOk) (first : ℕ) (f : ℕ → UInt8) (n i : ℕ) :
    ∃ d', storeBlocks first f n i d = (true, d') ∧ d'.AllOk ∧
      (∀ b, first + i ≤ b → b < first + i + n →
        d'.block b = Block.ofBytes fun k => f (4096 * (b - first) + k)) ∧
      ∀ b, ¬(first + i ≤ b ∧ b < first + i + n) → d'.block b = d.block b := by
  induction n generalizing i d with
  | zero => exact ⟨d, rfl, hd, fun b h₁ h₂ => by omega, fun _ _ => rfl⟩
  | succ n ih =>
    obtain ⟨d', hrun, hd', hin, hout⟩ := ih (i := i + 1) (d := { d with
      block := Function.update d.block (first + i) (Block.ofBytes fun k => f (4096 * i + k))
      calls := d.calls + 1 }) hd
    refine ⟨d', ?_, hd', fun b h₁ h₂ => ?_, fun b hb => ?_⟩
    · rw [storeBlocks]
      simp only [Disk.writeBlock, hd _, if_true]
      rw [if_neg (by norm_num)]
      exact hrun
    · by_cases hb : b = first + i
      · rw [hout b (by omega), hb, Nat.add_sub_cancel_left]
        exact Function.update_self _ _ _
      · exact hin b (by omega) (by omega)
    · rw [hout b (by omega)]
      exact Function.update_of_ne (by omega) _ _

/-- The metadata blocks hold the array `temp` and the bitmaps. -/
structure MetaOn (temp : ℕ → ℕ) (t : Tables) (D : ℕ → Block) : Prop where
  /-- `ID_BLOCKS`. -/
  ids : ∀ b < 1024, D b = Block.ofBytes fun k => longBytes temp (4096 * b + k)
  /-- `I_BLOCKS`. -/
  inodemap : ∀ b, 1024 ≤ b → b < 1056 → D b = Block.ofBytes fun k =>
    t.inodemap (4096 * (b - 1024) + k)
  /-- `B_BLOCKS`. -/
  blockmap : ∀ b, 1056 ≤ b → b < 1312 → D b = Block.ofBytes fun k =>
    t.blockmap (4096 * (b - 1056) + k)

theorem MetaOn.congr {D D' : ℕ → Block} (h : MetaOn temp t D) (heq : ∀ b < 1312, D' b = D b) :
    MetaOn temp t D' :=
  ⟨fun b hb => (heq b (by omega)).trans (h.ids b hb),
    fun b h₁ h₂ => (heq b (by omega)).trans (h.inodemap b h₁ h₂),
    fun b h₁ h₂ => (heq b h₂).trans (h.blockmap b h₁ h₂)⟩

/-- The array and the bitmaps are written to blocks that do not overlap. -/
theorem storeMaps_ok (hd : d.AllOk) (temp : ℕ → ℕ) (t : Tables) :
    ∃ d', storeMaps temp t d = (true, d') ∧ d'.AllOk ∧ MetaOn temp t d'.block := by
  obtain ⟨d₁, h₁, hd₁, hin₁, -⟩ := storeBlocks_ok hd 0 (longBytes temp) 1024 0
  obtain ⟨d₂, h₂, hd₂, hin₂, hout₂⟩ := storeBlocks_ok hd₁ 1024 t.inodemap 32 0
  obtain ⟨d₃, h₃, hd₃, hin₃, hout₃⟩ := storeBlocks_ok hd₂ 1056 t.blockmap 256 0
  refine ⟨d₃, ?_, hd₃, fun b hb => ?_, fun b hb hb' => ?_, fun b hb hb' => ?_⟩
  · unfold storeMaps
    rw [h₁]
    dsimp only
    rw [h₂]
    exact h₃
  · rw [hout₃ b (by omega), hout₂ b (by omega)]
    exact hin₁ b (by omega) (by omega)
  · rw [hout₃ b (by omega)]
    exact hin₂ b (by omega) (by omega)
  · exact hin₃ b (by omega) (by omega)

/-- Visits of nodes that are not those of metadata blocks. -/
theorem flush_meta {c : Cache} {L : List ℕ}
    (hL : ∀ a ∈ L, (c.heap.mem a).dirty = true → 1312 ≤ (c.heap.mem a).diskAddr) (D : ℕ → Block) :
    ∀ b < 1312, L.foldl c.flush D b = D b := by
  induction L generalizing D with
  | nil => exact fun _ _ => rfl
  | cons a L ih =>
    intro b hb
    rw [List.foldl_cons, ih (fun q hq => hL q (by simp [hq])) _ b hb, Cache.flush]
    split_ifs with hdirty
    · have ha := hL a (by simp) hdirty
      exact Function.update_of_ne (by omega) _ _
    · rfl

/-- An unmount over a disk that never fails. The cache leaves the metadata blocks as they were
written. -/
theorem objstoreDestroy_spec {s : Store Cache} {C : ℕ → List ℕ} (h : Walks s B C)
    (hmeta : NoDirtyMeta s.layer C) (hd : s.layer.disk.AllOk) :
    ∃ s' temp, objstoreDestroy s = some (0, s') ∧ s'.layer.disk.AllOk ∧
      (∀ id, temp id = 0 ∨ ∃ a ∈ B (temp id), (s.heap.mem a).id = id) ∧
      MetaOn temp s.toTables s'.layer.disk.block := by
  obtain ⟨temp, hfill, htemp⟩ :=
    fillBuckets_spec h (fun _ => 0) (n := 2^20) (i := 0) (Nat.zero_add _).le
  have hmalloc : s.layer.disk.malloc4k =
      (true, { s.layer.disk with calls := s.layer.disk.calls + 1 }) := by
    rw [Disk.malloc4k, hd]
  obtain ⟨d₁, hstore, hd₁, hon⟩ :=
    storeMaps_ok (d := { s.layer.disk with calls := s.layer.disk.calls + 1 }) hd temp s.toTables
  obtain ⟨d₂, L, hsync, hd₂, hL, hblock⟩ :=
    Cache.objSync_spec (c := { s.layer with disk := d₁ }) h.cacheChain h.cacheFuel hd₁
  refine ⟨{ s with layer := { s.layer with disk := d₂ } }, temp, ?_, hd₂, htemp,
    hon.congr fun b hb => ?_⟩
  · unfold objstoreDestroy
    rw [hfill]
    simp only [Option.bind_eq_bind, Option.bind_some]
    rw [hmalloc]
    dsimp only
    rw [hstore]
    dsimp only
    rw [hsync]
    rfl
  · refine (congrFun hblock b).trans (flush_meta (fun a ha hdirty => ?_) d₁.block b hb)
    obtain ⟨v, hv, hav⟩ := (hL a).mp ha
    exact hmeta v hv a hav hdirty

/-! ## What `objstore_init` reads -/

/-- The nodes of the table have ids with the property `P`. -/
def Only (P : ℕ → Prop) (t : Tables) : Prop :=
  ∃ B, Table t B ∧ ∀ v, ∀ a ∈ B v, P (t.heap.mem a).id

theorem Only.insertToHashTable {P : ℕ → Prop} (h : Only P t) (hid : P id) {v : ℕ}
    (hins : t.insertToHashTable id v = some t') : Only P t' := by
  obtain ⟨B, htable, hP⟩ := h
  have hv : v < 2^20 := by
    by_contra hv
    rw [Tables.insertToHashTable, if_pos (by omega)] at hins
    exact absurd hins (by simp)
  obtain ⟨t₁, hins₁, htable₁, hids₁, -, -⟩ := htable.insertToHashTable hv id
  obtain rfl : t₁ = t' := Option.some.inj (hins₁.symm.trans hins)
  refine ⟨_, htable₁, fun w a ha => ?_⟩
  rw [hids₁]
  split_ifs with hfresh
  · exact hid
  · by_cases hw : w = v
    · rw [hw, Function.update_self] at ha
      split_ifs at ha
      · exact absurd (List.mem_singleton.mp ha) hfresh
      · exact hP v a (by simpa [hfresh] using ha)
    · rw [Function.update_of_ne hw] at ha
      exact hP w a ha

/-- An id is inserted only if its byte is not zero. -/
theorem loadBytes_only {P : ℕ → Prop} {temp : Block} {i n x : ℕ} (h : Only P t)
    (hP : ∀ y, temp.byte y ≠ 0 → P (i * 1024 + y)) (hload : loadBytes temp i n x t = some t') :
    Only P t' := by
  induction n generalizing x t with
  | zero =>
    obtain rfl : t = t' := Option.some.inj hload
    exact h
  | succ n ih =>
    rw [loadBytes] at hload
    split_ifs at hload with huid
    · obtain ⟨t₁, hins, hload⟩ := Option.bind_eq_some_iff.mp hload
      refine ih (h.insertToHashTable (hP x fun hx => huid ?_) hins) hload
      rw [hx]
      rfl
    · exact ih h hload

theorem loadIds_only {P : ℕ → Prop} {n i : ℕ} {ok : Bool} (h : Only P t)
    (hP : ∀ i y, (d.block i).byte y ≠ 0 → P (i * 1024 + y))
    (hload : loadIds n i d t = some (ok, d', t')) : Only P t' := by
  induction n generalizing i d t with
  | zero =>
    simp only [loadIds, Option.some.injEq, Prod.mk.injEq] at hload
    rw [← hload.2.2]
    exact h
  | succ n ih =>
    obtain ⟨hblock, -, hread⟩ := d.readBlock_block i Block.zero
    rw [loadIds] at hload
    generalize d.readBlock i Block.zero = r at *
    obtain ⟨r, temp, d₁⟩ := r
    dsimp only at *
    by_cases hr : r < 0
    · rw [if_pos hr] at hload
      simp only [Option.pure_def, Option.some.injEq, Prod.mk.injEq] at hload
      rw [← hload.2.2]
      exact h
    · rw [if_neg hr, hread hr] at hload
      obtain ⟨t₁, hbytes, hload⟩ := Option.bind_eq_some_iff.mp hload
      refine ih (loadBytes_only h (hP i) hbytes) (fun j y => ?_) hload
      rw [hblock]
      exact hP j y

theorem objstoreInit_only {P : ℕ → Prop} {A : Allocator}
    (hP : ∀ i y, (d.block i).byte y ≠ 0 → P (i * 1024 + y))
    (hinit : objstoreInit d (Tables.new A) = some (0, d', t)) : Only P t := by
  obtain ⟨d₀, d₁, t₁, hptr, hids, hmaps⟩ := objstoreInit_zero hinit
  have hd₀ : d₀.block = d.block := congrArg (fun r => r.2.block) hptr.symm
  rw [← hd₀] at hP
  obtain ⟨B, htable, hB⟩ := loadIds_only ⟨_, Table.new A, by simp⟩ hP hids
  obtain ⟨d₂, imap, bmap, -, -, rfl⟩ := loadMaps_zero hmaps
  exact ⟨B, htable.congr rfl rfl, hB⟩

/-! ## Keys after mounting again -/

section Search

variable {σ : Type} [BlockLayer σ] {s s' : Store σ} {key : List UInt8}

theorem Store.getObjectById_tables {o : Option Object} (h : s.getObjectById id = some (o, s')) :
    s'.toTables = s.toTables := by
  rw [Store.getObjectById_eq] at h
  obtain ⟨⟨r, buf, s₁⟩, hread, h⟩ := Option.bind_eq_some_iff.mp h
  obtain ⟨⟨r', buf', layer⟩, -, hs₁⟩ := Option.bind_eq_some_iff.mp hread
  simp only [Option.pure_def, Option.some.injEq, Prod.mk.injEq] at hs₁
  obtain ⟨-, -, rfl⟩ := hs₁
  dsimp only at h
  split_ifs at h <;>
    · simp only [Option.some.injEq, Prod.mk.injEq] at h
      rw [← h.2]

/-- Over any block layer, a walk finds a node of its bucket only. -/
theorem Store.search_mem {l : List ℕ} {fuel a : ℕ} {par par' itr : Ptr} {obj : Object}
    (hchain : Chain s.heap.mem HashObj.next itr l)
    (hs : Store.search key fuel par itr s = some (.found par' a obj, s')) :
    a ∈ l ∧ s'.toTables = s.toTables := by
  induction l generalizing s fuel par itr with
  | nil =>
    obtain rfl : itr = none := hchain
    cases fuel <;> simp [Store.search] at hs
  | cons b l ih =>
    obtain ⟨rfl, hchain⟩ := hchain
    cases fuel with
    | zero => simp [Store.search] at hs
    | succ fuel =>
      rw [Store.search] at hs
      obtain ⟨⟨o, s₁⟩, hget, hs⟩ := Option.bind_eq_some_iff.mp hs
      have htables := Store.getObjectById_tables hget
      cases o with
      | none => simp at hs
      | some o =>
        dsimp only at hs
        split_ifs at hs
        · simp only [Option.pure_def, Option.some.injEq, Prod.mk.injEq, Search.found.injEq] at hs
          obtain ⟨⟨-, rfl, -⟩, rfl⟩ := hs
          exact ⟨by simp, htables⟩
        · rw [← htables] at hchain
          have hl := ih (by rw [htables] at hchain ⊢; exact hchain) hs
          exact ⟨by simp [hl.1], hl.2.trans htables⟩

/-- Over any block layer, `find_object_id` returns -1 or an id of the table. -/
theorem Store.Finds.only {P : ℕ → Prop} {n : ℕ} (hfind : s.Finds key n) (h : Only P s.toTables) :
    P n := by
  obtain ⟨B, htable, hP⟩ := h
  obtain ⟨s', hfind⟩ := hfind
  obtain ⟨⟨r, s₁⟩, hs, hfind⟩ := Option.bind_eq_some_iff.mp hfind
  cases r with
  | missing par =>
    simp only [Option.pure_def, Option.some.injEq, Prod.mk.injEq] at hfind
    omega
  | noRecord =>
    simp only [Option.pure_def, Option.some.injEq, Prod.mk.injEq] at hfind
    omega
  | found par a obj =>
    obtain ⟨ha, htables⟩ := Store.search_mem (htable.chain (hash key)) hs
    simp only [Option.pure_def, Option.some.injEq, Prod.mk.injEq] at hfind
    obtain ⟨hid, -⟩ := hfind
    have hn : (s₁.heap.mem a).id = n := by omega
    rw [← hn, congrArg Tables.heap htables]
    exact hP _ a ha

end Search

/-- `objstore_destroy` and `objstore_init` in a new process return 0, and every key is found as
before. -/
def RemountPreserves (A : Allocator) (slots : ℕ → Block) (s : Store Cache) : Prop :=
  ∃ s₁ d t, objstoreDestroy s = some (0, s₁) ∧
    objstoreInit s₁.layer.disk (Tables.new A) = some (0, d, t) ∧
    ∀ key r, s.Finds key r → Store.Finds (⟨t, Cache.empty A d slots⟩ : Store Cache) key r

/-- An object with the id 2 is lost. -/
theorem not_remountPreserves {A : Allocator} {slots : ℕ → Block} {s : Store Cache}
    (h : Store.Names spread_recordBlocks.lawful s B) {key : List UInt8} (hkey : s.Finds key 2) :
    ¬RemountPreserves A slots s := by
  rintro ⟨s₁, d, t, hdestroy, hinit, hfind⟩
  obtain ⟨hd, C, hwalks, hmeta⟩ := walks_of_inv (fun _ => le_of_mem_recordBlocks) h.inv h.table
    fun v a ha => (h.node v a ha).lt
  obtain ⟨s₁', temp, hdestroy', -, htemp, hon⟩ := objstoreDestroy_spec hwalks hmeta hd
  obtain rfl : s₁ = s₁' := by
    have heq := hdestroy.symm.trans hdestroy'
    rw [Option.some.injEq, Prod.mk.injEq] at heq
    exact heq.2
  have htemp0 : temp 0 = 0 := (htemp 0).resolve_right fun ⟨a, ha, hid⟩ => by
    have h₂ := (h.node _ a ha).two_le
    omega
  have honly : Only (fun id => id ≠ 2) t := by
    refine objstoreInit_only (fun i y hbyte hid => ?_) hinit
    obtain ⟨rfl, rfl⟩ : i = 0 ∧ y = 2 := by omega
    rw [hon.ids 0 (by norm_num), Block.byte_ofBytes _ (by norm_num), longBytes] at hbyte
    simp [htemp0] at hbyte
  exact (hfind key 2 hkey).only (n := 2) honly rfl

/-- A store without objects is preserved. -/
theorem Fresh.remountPreserves (ht : Fresh t) {layer : Cache}
    (hl : spread_recordBlocks.lawful.inv layer) (A : Allocator) (slots : ℕ → Block) :
    RemountPreserves A slots ⟨t, layer⟩ := by
  obtain ⟨hd, C, hwalks, hmeta⟩ :=
    walks_of_inv (s := ⟨t, layer⟩) (fun _ => le_of_mem_recordBlocks) hl ht.table (by simp)
  obtain ⟨s₁, temp, hdestroy, hd₁, htemp, hon⟩ := objstoreDestroy_spec hwalks hmeta hd
  have hzero : ∀ b < 1024, s₁.layer.disk.block b = Block.zero := fun b hb => by
    refine Block.ext_byte fun k hk => ?_
    rw [hon.ids b hb, Block.byte_ofBytes _ hk, Block.byte_zero, longBytes,
      (htemp _).resolve_right (by simp), Nat.zero_div]
    rfl
  obtain ⟨d, t', hinit, hd, htable⟩ := objstoreInit_ok A hd₁ hzero
  refine ⟨s₁, d, t', hdestroy, hinit, fun key r hfind => ?_⟩
  have hdom : ∀ b ∈ recordBlocks, b ∈ {b | b ∈ recordBlocks} := fun b hb => hb
  have hnames : Store.Names spread_recordBlocks.lawful
      (⟨t', Cache.empty A d slots⟩ : Store Cache) fun _ => [] :=
    ⟨⟨[], _, Cache.inv_empty A hd slots, by simp⟩, htable, by simp⟩
  rw [(ht.names hl).finds_iff hdom, lookup_eq_none.mpr (by simp [Store.ids])] at hfind
  rw [hfind]
  exact (hnames.finds_neg_iff hdom).mpr (lookup_eq_none.mpr (by simp [Store.ids]))

/-- After any run of `create_object` on a new store, unmounting and mounting again preserves the
keys if and only if the run is empty. -/
theorem remount_preserves {A A' : Allocator} {d d' : Disk} {t : Tables} (slots slots' : ℕ → Block)
    (hd : d.AllOk) (hzero : ∀ b < 1312, d.block b = Block.zero)
    (hinit : objstoreInit d (Tables.new A) = some (0, d', t)) (keys : List (List UInt8))
    (hkeys : ∀ key ∈ keys, KeyOk key) :
    ∃ hist s, Run.run Store.nameStep (⟨t, Cache.empty A d' slots⟩ : Store Cache)
        (keys.map NameOp.create) = some (hist, s) ∧
      (RemountPreserves A' slots' s ↔ keys = []) := by
  obtain ⟨-, hfresh⟩ := objstoreInit_fresh hzero hinit
  have hd' : d'.AllOk := by
    obtain ⟨d₁, t₁, hinit₁, hd₁, -⟩ := objstoreInit_ok A hd fun b hb => hzero b (by omega)
    have heq := hinit.symm.trans hinit₁
    simp only [Option.some.injEq, Prod.mk.injEq, true_and] at heq
    rw [heq.1]
    exact hd₁
  have hdom : ∀ b ∈ recordBlocks, b ∈ {b | b ∈ recordBlocks} := fun b hb => hb
  have hlayer : spread_recordBlocks.lawful.inv (Cache.empty A d' slots) :=
    ⟨[], _, Cache.inv_empty A hd' slots, by simp⟩
  have hstep : ∀ (s : Store Cache) hist op,
      (∃ B, HoldsMap spread_recordBlocks.lawful s B hist) → KeyOk op.key →
      ∃ r s', s.nameStep op = some (r, s') ∧
        ∃ B, HoldsMap spread_recordBlocks.lawful s' B (hist ++ [(op, r)]) :=
    fun s hist op ⟨B, hs⟩ hop => by
      obtain ⟨r, s', hstep, hmap, -⟩ := hs.step hdom hop
      exact ⟨r, s', hstep, hmap⟩
  have hops : ∀ op ∈ keys.map NameOp.create, KeyOk op.key := fun op hop => by
    obtain ⟨key, hkey, rfl⟩ := List.mem_map.mp hop
    exact hkeys key hkey
  obtain ⟨hist, s, hrun, B, hmap⟩ :=
    Run.run_of_step (h := []) (P := fun _ op => KeyOk op.key) _ hstep
    ⟨_, hfresh.holdsMap hlayer⟩ (Run.along_of_forall fun op hop _ => hops op hop)
  refine ⟨hist, s, hrun, ?_⟩
  cases keys with
  | nil =>
    obtain rfl : _ = s := (Prod.mk.inj (Option.some.inj hrun)).2
    exact iff_of_true (hfresh.remountPreserves hlayer A' slots') rfl
  | cons key keys =>
    -- The first key got the id 2.
    refine iff_of_false (not_remountPreserves hmap.names (?_ : s.Finds key 2)) (by simp)
    obtain ⟨r, s₁, hist', hstep₁, -, rfl⟩ := Run.run_cons_some hrun
    obtain ⟨s₂, B₂, hcreate, -⟩ := hfresh.createObject hlayer hdom (hkeys key (by simp))
    have hr := hcreate.symm.trans hstep₁
    simp only [Option.some.injEq, Prod.mk.injEq] at hr
    obtain ⟨rfl, -⟩ := hr
    obtain ⟨n, hn, hlookup⟩ := (hmap.lookup_iff key 2).mp ⟨by simp, by norm_num⟩
    rw [← hn]
    exact (hmap.names.finds_id_iff hdom).mpr hlookup

/-- On a disk of zeros: after a key was created. -/
theorem remount_preserves_new :
    ∃ d' t, objstoreInit Cache.zeroDisk (Tables.new Allocator.bump) = some (0, d', t) ∧
      ∃ hist s, Run.run Store.nameStep
          (⟨t, Cache.empty Allocator.bump d' fun _ => Block.zero⟩ : Store Cache)
          ([[97]].map NameOp.create) = some (hist, s) ∧
        (RemountPreserves Allocator.bump (fun _ => Block.zero) s ↔
          ([[97]] : List (List UInt8)) = []) := by
  obtain ⟨d', t, hinit, -⟩ := mount_zeroDisk
  refine ⟨d', t, hinit, remount_preserves (fun _ => Block.zero) (fun _ => Block.zero) (fun _ => rfl)
    (fun _ _ => rfl) hinit [[97]] fun key hkey => ?_⟩
  rw [List.mem_singleton] at hkey
  rw [hkey]
  decide

/-- A key is created, and is lost when the disk is mounted again. -/
theorem not_remount_preserves :
    ∃ d' t, objstoreInit Cache.zeroDisk (Tables.new Allocator.bump) = some (0, d', t) ∧
      ∃ hist s, Run.run Store.nameStep
          (⟨t, Cache.empty Allocator.bump d' fun _ => Block.zero⟩ : Store Cache)
          [.create [97]] = some (hist, s) ∧
        s.Finds [97] 2 ∧ ¬RemountPreserves Allocator.bump (fun _ => Block.zero) s := by
  obtain ⟨d', t, hinit, hlayer⟩ := mount_zeroDisk
  obtain ⟨-, hfresh⟩ := objstoreInit_fresh (fun _ _ => rfl) hinit
  have hdom : ∀ b ∈ recordBlocks, b ∈ {b | b ∈ recordBlocks} := fun b hb => hb
  have hkey : KeyOk [97] := by decide
  obtain ⟨s, B, hcreate, hnames, hcreated, hids⟩ := hfresh.createObject hlayer hdom hkey
  have hfind : s.Finds [97] (2 : ℕ) := by
    rw [hnames.finds_id_iff hdom]
    refine lookup_singleton ?_ ?_
    · rw [hids, Function.update_self]
    · exact hcreated.keyOf_self hkey
  exact ⟨d', t, hinit, _, s, Run.run_cons hcreate rfl, hfind, not_remountPreserves hnames hfind⟩

end GemOS.Objstore
