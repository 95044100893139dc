import GemOS.Objstore.Linked

/-!
# The nodes of the cache

`Shape c l B` is the invariant of the pointers while no node is lost: the LRU list is `l`, the
buckets are `B`, both have the same nodes, and no block has two of them. A hit replaces the node of
the block by a new one at the top of the list (`Shape.retrieve_hit`). An insertion pushes a new
node, after the last one has been evicted when the cache is full (`Shape.insertBlockToCache`). Both
need what the code does not check, that a node that leaves its bucket is not the head of a longer
one (`BucketOk`).
-/

namespace GemOS.Objstore

namespace Cache

/-- The nodes `l` and the buckets `B` have the same members, the bucket of a node is the one of its
block, and no block has two nodes. -/
structure Members (addr : ℕ → ℕ) (l : List ℕ) (B : ℕ → List ℕ) : Prop where
  /-- The nodes of a bucket are the nodes with a block of this bucket. -/
  mem_iff : ∀ v a, a ∈ B v ↔ a ∈ l ∧ cacheHash (addr a) = v
  /-- No block has two nodes. -/
  inj : ∀ a ∈ l, ∀ b ∈ l, addr a = addr b → a = b

/-- The pointer structure of the cache. -/
structure Shape (c : Cache) (l : List ℕ) (B : ℕ → List ℕ) : Prop where
  /-- The heap is well formed. -/
  wf : c.heap.Wf
  /-- The nodes are live. -/
  live : ∀ a ∈ l, a ∈ c.heap.live
  /-- The LRU list. -/
  lru : Lru c l
  /-- The buckets. -/
  buckets : Buckets c B
  /-- List and buckets have the same nodes. -/
  members : Members (fun q => (c.heap.mem q).diskAddr) l B
  /-- There are at most `CACHE_HTSIZE - 1` nodes. -/
  length_le : l.length ≤ 2^15 - 1

/-- The block `b` does not head a bucket with further nodes: the removal of its node from the bucket
keeps the other nodes. -/
def BucketOk (c : Cache) (b : ℕ) : Prop :=
  ∀ p, c.table (cacheHash b) = some p → (c.heap.mem p).diskAddr = b → (c.heap.mem p).next = none

/-- The write-back of the node `z` succeeds: a dirty node takes a page from `mmap`, and a call of
`write_block`. -/
def WriteBackOk (c : Cache) (z : ℕ) : Prop :=
  (c.heap.mem z).dirty = true →
    c.disk.ok c.disk.calls = true ∧ c.disk.ok (c.disk.calls + 1) = true

variable {c c' c'' : Cache} {l l₁ l₂ : List ℕ} {B : ℕ → List ℕ} {a b p z s : ℕ}

namespace Members

variable {addr addr' : ℕ → ℕ}

theorem congr (h : Members addr l B) (heq : ∀ q ∈ l, addr' q = addr q) : Members addr' l B := by
  refine ⟨fun v q => ?_, fun q hq r hr hqr => ?_⟩
  · rw [h.mem_iff]
    constructor
    · rintro ⟨hq, hv⟩
      exact ⟨hq, by rw [heq q hq, hv]⟩
    · rintro ⟨hq, hv⟩
      exact ⟨hq, by rw [← heq q hq, hv]⟩
  · rw [heq q hq, heq r hr] at hqr
    exact h.inj q hq r hr hqr

/-- A node leaves the list and its bucket. -/
theorem erase (h : Members addr l B) (hl : l.Nodup) (hB : ∀ v, (B v).Nodup) (a : ℕ) :
    Members addr (l.erase a)
      (Function.update B (cacheHash (addr a)) ((B (cacheHash (addr a))).erase a)) := by
  refine ⟨fun v q => ?_, fun q hq r hr => h.inj q (List.mem_of_mem_erase hq) r
    (List.mem_of_mem_erase hr)⟩
  rw [hl.mem_erase_iff]
  by_cases hv : v = cacheHash (addr a)
  · subst hv
    rw [Function.update_self, (hB _).mem_erase_iff, h.mem_iff]
    tauto
  · rw [Function.update_of_ne hv, h.mem_iff]
    have hne : cacheHash (addr q) = v → q ≠ a := by
      rintro rfl rfl
      exact hv rfl
    tauto

/-- A node enters the list and the bucket of its block. -/
theorem push (h : Members addr l B) (hp : ∀ q ∈ l, addr q ≠ addr p) :
    Members addr (p :: l)
      (Function.update B (cacheHash (addr p)) (B (cacheHash (addr p)) ++ [p])) := by
  refine ⟨fun v q => ?_, fun q hq r hr hqr => ?_⟩
  · by_cases hv : v = cacheHash (addr p)
    · subst hv
      rw [Function.update_self, List.mem_append, h.mem_iff, List.mem_singleton, List.mem_cons]
      constructor
      · rintro (⟨hq, hv⟩ | rfl)
        · exact ⟨Or.inr hq, hv⟩
        · exact ⟨Or.inl rfl, rfl⟩
      · rintro ⟨rfl | hq, hv⟩
        · exact Or.inr rfl
        · exact Or.inl ⟨hq, hv⟩
    · rw [Function.update_of_ne hv, h.mem_iff, List.mem_cons]
      constructor
      · rintro ⟨hq, hv'⟩
        exact ⟨Or.inr hq, hv'⟩
      · rintro ⟨rfl | hq, hv'⟩
        · exact absurd hv'.symm hv
        · exact ⟨hq, hv'⟩
  · rcases List.mem_cons.mp hq with rfl | hq' <;> rcases List.mem_cons.mp hr with rfl | hr'
    · rfl
    · exact absurd hqr.symm (hp r hr')
    · exact absurd hqr (hp q hq')
    · exact h.inj q hq' r hr' hqr

end Members

/-- Linked nodes none of which is lost. -/
theorem Linked.shape (h : Linked c l B) (hmem : Members (fun q => (c.heap.mem q).diskAddr) l B)
    (hlen : l.length ≤ 2^15 - 1) : Shape c l B :=
  ⟨h.wf, h.live, h.lru, h.buckets, hmem, hlen⟩

namespace Shape

theorem linked (h : Shape c l B) : Linked c l B :=
  ⟨h.wf, h.live, h.lru, h.buckets, fun v a ha => ((h.members.mem_iff v a).mp ha).1,
    fun v a ha b hb => h.members.inj a ((h.members.mem_iff v a).mp ha).1 b
      ((h.members.mem_iff v b).mp hb).1⟩

/-- The bucket of a node splits at it, and no node before it has its block. -/
theorem bucket_split (h : Shape c l B) (ha : a ∈ l) :
    ∃ l₁ l₂, B (cacheHash (c.heap.mem a).diskAddr) = l₁ ++ a :: l₂ ∧
      ∀ q ∈ l₁, (c.heap.mem q).diskAddr ≠ (c.heap.mem a).diskAddr :=
  h.linked.bucket_split ((h.members.mem_iff _ a).mpr ⟨ha, rfl⟩) rfl

/-- A block that no node of the list has is in no bucket. -/
theorem not_mem_bucket (h : Shape c l B) (hb : ∀ a ∈ l, (c.heap.mem a).diskAddr ≠ b) :
    ∀ a ∈ B (cacheHash b), (c.heap.mem a).diskAddr ≠ b :=
  fun a ha => hb a ((h.members.mem_iff _ a).mp ha).1

theorem getCacheObj_some (h : Shape c l B) (ha : a ∈ l) :
    c.getCacheObj (c.heap.mem a).diskAddr = some (some a) := by
  obtain ⟨l₁, l₂, hB, h₁⟩ := h.bucket_split ha
  exact Cache.getCacheObj_some h.buckets hB rfl h₁

theorem getCacheObj_none (h : Shape c l B) (hb : ∀ a ∈ l, (c.heap.mem a).diskAddr ≠ b) :
    c.getCacheObj b = some none :=
  Cache.getCacheObj_none h.buckets (h.not_mem_bucket hb)

/-- A search for a block always ends. -/
theorem getCacheObj_cases (h : Shape c l B) (b : ℕ) :
    (∃ a ∈ l, (c.heap.mem a).diskAddr = b ∧ c.getCacheObj b = some (some a)) ∨
      (∀ a ∈ l, (c.heap.mem a).diskAddr ≠ b) ∧ c.getCacheObj b = some none := by
  by_cases hb : ∃ a ∈ l, (c.heap.mem a).diskAddr = b
  · obtain ⟨a, ha, rfl⟩ := hb
    exact Or.inl ⟨a, ha, rfl, h.getCacheObj_some ha⟩
  · push Not at hb
    exact Or.inr ⟨hb, h.getCacheObj_none hb⟩

/-- The nodes that a search can return are those of the list. -/
theorem mem_of_getCacheObj (h : Shape c l B) (hp : c.getCacheObj b = some (some p)) :
    p ∈ l ∧ (c.heap.mem p).diskAddr = b := by
  rcases h.getCacheObj_cases b with ⟨a, ha, haddr, hget⟩ | ⟨-, hget⟩
  · obtain rfl : a = p := by simpa [hget] using hp
    exact ⟨ha, haddr⟩
  · simp [hget] at hp

/-- When the block of `a` may be removed, its node is the whole bucket or not the head of it. -/
theorem bucketOk_split (h : Shape c l B) (ha : BucketOk c (c.heap.mem a).diskAddr)
    (hB : B (cacheHash (c.heap.mem a).diskAddr) = l₁ ++ a :: l₂) : l₁ = [] → l₂ = [] := by
  rintro rfl
  have hchain := h.buckets.chain (cacheHash (c.heap.mem a).diskAddr)
  rw [hB] at hchain
  have hnext := hchain.next_head
  rw [ha a hchain.1 rfl] at hnext
  exact List.head?_eq_none_iff.mp hnext.symm

/-- The node of a block that is alone in its bucket may be removed. -/
theorem bucketOk_of_alone (h : Shape c l B)
    (hb : ∀ a ∈ l, cacheHash (c.heap.mem a).diskAddr = cacheHash b → (c.heap.mem a).diskAddr = b) :
    BucketOk c b := by
  intro p hp hpb
  have hchain := h.buckets.chain (cacheHash b)
  have hnd := h.buckets.nodup (cacheHash b)
  rw [hp] at hchain
  -- The nodes of a bucket are nodes of the list.
  have hpB : p ∈ B (cacheHash b) := List.mem_of_head? hchain.head_eq.symm
  have hpl := ((h.members.mem_iff _ p).mp hpB).1
  -- Every node of the bucket is the head.
  have hall : ∀ q ∈ B (cacheHash b), q = p := fun q hq => by
    obtain ⟨hql, hqh⟩ := (h.members.mem_iff _ q).mp hq
    exact h.members.inj q hql p hpl ((hb q hql hqh).trans hpb.symm)
  cases hB : B (cacheHash b) with
  | nil => simp [hB] at hpB
  | cons q k =>
    rw [hB] at hchain hall hnd
    obtain rfl := hall q (by simp)
    rw [hchain.2.head_eq, List.head?_eq_none_iff]
    refine List.eq_nil_iff_forall_not_mem.mpr fun r hr => ?_
    rw [hall r (by simp [hr])] at hr
    exact (List.nodup_cons.mp hnd).1 hr

/-- The pointer structure depends on the links and the block numbers of the nodes only. -/
theorem of_links (h : Shape c l B)
    (hnode : ∀ q, (c'.heap.mem q).left = (c.heap.mem q).left ∧
      (c'.heap.mem q).right = (c.heap.mem q).right ∧ (c'.heap.mem q).next = (c.heap.mem q).next ∧
      (c'.heap.mem q).diskAddr = (c.heap.mem q).diskAddr)
    (hlive : c'.heap.live = c.heap.live) (hcount : c'.heap.count = c.heap.count)
    (htable : c'.table = c.table) (hleft : c'.cacheLeft = c.cacheLeft)
    (hright : c'.cacheRight = c.cacheRight) (hsize : c'.cacheSize = c.cacheSize) : Shape c' l B :=
  (h.linked.of_links hnode hlive hcount htable hleft hright hsize).shape
    (h.members.congr fun q _ => (hnode q).2.2.2) h.length_le

/-- A node outside the list may be allocated. -/
theorem allocNode (h : Shape c l B) (f : CacheObj → CacheObj) : Shape (c.allocNode f) l B := by
  refine (h.linked.allocNode f).shape (h.members.congr fun q hq => ?_) h.length_le
  have hne : q ≠ c.heap.fresh := by
    rintro rfl
    exact h.linked.fresh_not_mem hq
  rw [allocNode_mem_of_ne c f hne]

/-- The next node that is allocated is not in the list. -/
theorem fresh_not_mem (h : Shape c l B) : c.heap.fresh ∉ l := h.linked.fresh_not_mem

/-- The allocation of a node changes no bucket. -/
theorem bucketOk_allocNode (h : Shape c l B) (f : CacheObj → CacheObj) (hok : BucketOk c b) :
    BucketOk (c.allocNode f) b := by
  intro q hq hqb
  have hhead := (h.buckets.chain (cacheHash b)).head_eq
  rw [show c.table (cacheHash b) = some q from hq] at hhead
  have hql := ((h.members.mem_iff _ q).mp (List.mem_of_head? hhead.symm)).1
  have hqp : q ≠ c.heap.fresh := by
    rintro rfl
    exact h.fresh_not_mem hql
  rw [allocNode_mem_of_ne c f hqp] at hqb ⊢
  exact hok q hq hqb

/-! ## Insertion -/

/-- A node that is in no bucket goes to the top of the list and to the end of its bucket. -/
theorem push (h : Shape c l B) (hp : p ∉ l) (hlive : p ∈ c.heap.live)
    (hnext : (c.heap.mem p).next = none) (hb : (c.heap.mem p).diskAddr = b)
    (haddr : ∀ q ∈ l, (c.heap.mem q).diskAddr ≠ b) (hlen : l.length < 2^15 - 1) :
    ∃ c' B', (c.addAtTopOfCache p).insertBlockInCacheHashTable b p = some c' ∧
      Shape c' (p :: l) B' ∧ Relinked c c' := by
  obtain ⟨c', hins, h', hrel⟩ := h.linked.push hp hlive hnext hb (h.not_mem_bucket haddr) (by omega)
  have hmem := h.members.push (p := p) (by simpa only [hb] using haddr)
  rw [hb] at hmem
  exact ⟨c', _, hins, h'.shape (hmem.congr fun q _ => hrel.diskAddr q) (by simpa using hlen), hrel⟩

/-! ## A hit -/

/-- The node of a cached block is replaced by a new node for the same block and slot, which is
clean, at the top of the list. -/
theorem replaceNode (h : Shape c l B) (ha : a ∈ l) (hok : BucketOk c (c.heap.mem a).diskAddr) :
    ∃ c' B', c.replaceNode (c.heap.mem a).diskAddr a = some (c.heap.fresh, c') ∧
      Shape c' (c.heap.fresh :: l.erase a) B' ∧
      (c'.heap.mem c.heap.fresh).data =
        ((c.heap.mem a).cacheAddr, (c.heap.mem a).diskAddr, false) ∧
      (∀ q, q ≠ c.heap.fresh → (c'.heap.mem q).data = (c.heap.mem q).data) ∧
      c'.disk = c.disk ∧ c'.slots = c.slots ∧ c'.cachemap = c.cachemap := by
  obtain ⟨k₁, k₂, hB, hk₁⟩ := h.bucket_split ha
  have hhead := h.bucketOk_split hok hB
  have hnd := h.lru.nodup
  have hlen := h.length_le
  obtain ⟨c', hrep, h', hnew, hold, hdisk, hslots, hmap⟩ :=
    h.linked.replaceNode hB rfl hk₁ (by omega)
  refine ⟨c', _, hrep, h'.shape ?_ ?_, hnew, hold, hdisk, hslots, hmap⟩
  · -- The new node takes the place of `a` in the list and in the bucket.
    set b := (c.heap.mem a).diskAddr with hb
    set p := c.heap.fresh with hp
    have hBnd := h.buckets.nodup (cacheHash b)
    have hBerase : (B (cacheHash b)).erase a = remaining k₁ k₂ := by
      rw [remaining_eq hhead]
      rw [hB] at hBnd ⊢
      exact erase_middle hBnd
    have hnewb : (c'.heap.mem p).diskAddr = b := congrArg (fun d => d.2.1) hnew
    have holdb : ∀ q ∈ l, (c'.heap.mem q).diskAddr = (c.heap.mem q).diskAddr := fun q hq =>
      (data_eq (hold q (by rintro rfl; exact h.fresh_not_mem hq))).2.1
    have hcongr : Members (fun q => (c'.heap.mem q).diskAddr) l B := h.members.congr holdb
    have hmem := hcongr.erase hnd h.buckets.nodup a
    rw [holdb a ha, ← hb] at hmem
    have hpush := hmem.push (p := p) fun q hq hqb => by
      rw [hnewb, holdb q (List.mem_of_mem_erase hq)] at hqb
      obtain rfl := h.members.inj q (List.mem_of_mem_erase hq) a ha hqb
      exact hnd.not_mem_erase hq
    rwa [hnewb, Function.update_self, Function.update_idem, hBerase] at hpush
  · have hpos := List.length_pos_of_mem ha
    rw [List.length_cons, List.length_erase_of_mem ha]
    omega

/-- `retrieve_block_from_cache` finds the node of a cached block and replaces it. -/
theorem retrieve_hit (h : Shape c l B) (ha : a ∈ l) :
    c.retrieveBlockFromCache (c.heap.mem a).diskAddr =
      (c.replaceNode (c.heap.mem a).diskAddr a).map fun r => (some r.1, r.2) := by
  obtain ⟨k₁, k₂, hB, hk₁⟩ := h.bucket_split ha
  exact h.linked.retrieve_hit hB rfl hk₁

/-- `retrieve_block_from_cache` changes nothing for a block that is not cached. -/
theorem retrieve_miss (h : Shape c l B) (hb : ∀ a ∈ l, (c.heap.mem a).diskAddr ≠ b) :
    c.retrieveBlockFromCache b = some (none, c) :=
  h.linked.retrieve_miss (h.not_mem_bucket hb)

/-! ## Eviction -/

/-- The last node of the list is the victim. -/
theorem cacheRight_eq (h : Shape c (l ++ [z]) B) : c.cacheRight = some z := by
  have := h.lru.left.head_eq
  simpa using this

/-- The victim leaves its bucket. -/
theorem unlink (h : Shape c (l ++ [z]) B) (hok : BucketOk c (c.heap.mem z).diskAddr) :
    ∃ c₁ B', c.removeBlockFromCacheHashTable z = some c₁ ∧ BucketsOnly c c₁ ∧
      (∀ q, q ∉ l ++ [z] → (c₁.heap.mem q).next = (c.heap.mem q).next) ∧ Buckets c₁ B' ∧
      Members (fun q => (c.heap.mem q).diskAddr) l B' := by
  have hz : z ∈ l ++ [z] := by simp
  obtain ⟨k₁, k₂, hB, hk₁⟩ := h.bucket_split hz
  have hmemB : ∀ v, ∀ q ∈ B v, q ∈ l ++ [z] := fun v q hq => ((h.members.mem_iff v q).mp hq).1
  obtain ⟨c₁, hrem, honly, hnext, hb₁⟩ := h.buckets.removeBlockFromCacheHashTable hB rfl hk₁
  rw [remaining_eq (h.bucketOk_split hok hB)] at hb₁
  have hBnd := h.buckets.nodup (cacheHash (c.heap.mem z).diskAddr)
  have hBerase : (B (cacheHash (c.heap.mem z).diskAddr)).erase z = k₁ ++ k₂ := by
    rw [hB] at hBnd ⊢
    exact erase_middle hBnd
  rw [← hBerase] at hb₁
  have hmem := h.members.erase h.lru.nodup h.buckets.nodup z
  rw [show (l ++ [z]).erase z = l by simpa using erase_middle h.lru.nodup] at hmem
  exact ⟨c₁, _, hrem, honly, fun q hq => hnext q fun hk => hq (hmemB _ q (by rw [hB]; simp [hk])),
    hb₁, hmem⟩

/-- After the victim left its bucket, `takeOut` takes it from the list. In between, the disk and the
bitmap may change. -/
theorem takeOut {c₁ : Cache} {B' : ℕ → List ℕ} (h : Shape c (l ++ [z]) B) (honly : BucketsOnly c c₁)
    (hb₁ : Buckets c₁ B') (hmem : Members (fun q => (c.heap.mem q).diskAddr) l B') (d : Disk)
    (m : ByteMap) :
    Shape (Cache.takeOut { c₁ with disk := d, cachemap := m } z) l B' ∧
      LinksOnly { c₁ with disk := d, cachemap := m }
        (Cache.takeOut { c₁ with disk := d, cachemap := m } z) := by
  have hnd := h.lru.nodup
  have hlen := h.length_le
  -- Neither the write nor the slot is a link, so the lists are those of the cache after the
  -- unlinking.
  have herase : (l ++ [z]).erase z = l := by simpa using erase_middle hnd
  set c₂ : Cache := { c₁ with disk := d, cachemap := m } with hc₂
  have hl₁ := h.lru.of_bucketsOnly honly
  have hl₂ : Lru c₂ (l ++ z :: []) := ⟨⟨hl₁.right, hl₁.left, hl₁.nodup⟩, hl₁.size⟩
  have hlinks := takeOut_linksOnly hl₂.left_ne
  have hb₂ : Buckets c₂ B' := ⟨hb₁.chain, hb₁.hash, hb₁.nodup, hb₁.fuel⟩
  have hlive : c₂.heap.live = c.heap.live := honly.live
  have hcount : c₂.heap.count = c.heap.count := honly.count
  refine ⟨⟨⟨?_, ?_⟩, ?_, ?_, hb₂.of_linksOnly hlinks (by simp), hmem.congr fun q _ => ?_, ?_⟩,
    hlinks⟩
  · rw [takeOut_live, hlive]
    exact h.wf.nodup.erase z
  · rw [takeOut_live, takeOut_count, hlive, hcount]
    exact le_trans List.length_erase_le h.wf.length_le
  · intro q hq
    have hqz : q ≠ z := by
      rintro rfl
      rw [← herase] at hq
      exact hnd.not_mem_erase hq
    rw [takeOut_live, hlive]
    exact (List.mem_erase_of_ne hqz).mpr (h.live q (by simp [hq]))
  · simpa using hl₂.takeOut (by omega)
  · rw [hlinks.diskAddr]
    exact honly.diskAddr q
  · simp at hlen
    omega

/-- The state after the victim was evicted: its slot is free, and its data, when dirty, is on the
disk. -/
structure Evicted (c c' : Cache) (z : ℕ) : Prop where
  /-- The data of the nodes. -/
  data : ∀ q, (c'.heap.mem q).data = (c.heap.mem q).data
  /-- The data area. -/
  slots : c'.slots = c.slots
  /-- The slot of the victim is free. -/
  cachemap : c'.cachemap = c.cachemap.clearBit (c.heap.mem z).cacheAddr
  /-- The disk. -/
  block : c'.disk.block = if (c.heap.mem z).dirty then
      Function.update c.disk.block (c.heap.mem z).diskAddr (c.slots (c.heap.mem z).cacheAddr)
    else c.disk.block
  /-- The outcomes of the calls into the system. -/
  ok : c'.disk.ok = c.disk.ok

/-- The eviction of a full cache, once the victim has left its bucket. -/
theorem evict_eq {c₁ : Cache} (h : Shape c (l ++ [z]) B) (hfull : 2^15 - 1 ≤ c.cacheSize)
    (hrem : c.removeBlockFromCacheHashTable z = some c₁) (honly : BucketsOnly c c₁) :
    c.evict =
      some ((c₁.freeCacheId (c.heap.mem z).cacheAddr).removeObjectFromCacheAndWriteBack z) := by
  have hright : c₁.cacheRight = some z := by rw [honly.cacheRight, h.cacheRight_eq]
  unfold evict
  rw [if_pos hfull, h.cacheRight_eq]
  simp only [Option.bind_eq_bind, Option.bind_some, hrem, hright, honly.cacheAddr]
  rfl

/-- A full cache evicts the last node of the list, when its write-back succeeds. -/
theorem evict_full (h : Shape c (l ++ [z]) B) (hfull : 2^15 - 1 ≤ c.cacheSize)
    (hdisk : WriteBackOk c z) (hok : BucketOk c (c.heap.mem z).diskAddr) :
    ∃ c' B', c.evict = some c' ∧ Shape c' l B' ∧ Evicted c c' z ∧
      (∀ q, q ∉ l ++ [z] → (c'.heap.mem q).next = (c.heap.mem q).next) ∧
      c'.heap.live = c.heap.live.erase z := by
  obtain ⟨c₁, B', hrem, honly, hnext, hb₁, hmem⟩ := h.unlink hok
  have hdata := honly.relinked.data
  -- What the removal of the node leaves, with any disk and bitmap in between.
  have hstep : ∀ d m, Shape (Cache.takeOut { c₁ with disk := d, cachemap := m } z) l B' ∧
      (∀ q, ((Cache.takeOut { c₁ with disk := d, cachemap := m } z).heap.mem q).data =
        (c.heap.mem q).data) ∧
      (Cache.takeOut { c₁ with disk := d, cachemap := m } z).slots = c.slots ∧
      (Cache.takeOut { c₁ with disk := d, cachemap := m } z).cachemap = m ∧
      (Cache.takeOut { c₁ with disk := d, cachemap := m } z).disk = d ∧
      (∀ q, q ∉ l ++ [z] →
        ((Cache.takeOut { c₁ with disk := d, cachemap := m } z).heap.mem q).next =
          (c.heap.mem q).next) ∧
      (Cache.takeOut { c₁ with disk := d, cachemap := m } z).heap.live = c.heap.live.erase z := by
    intro d m
    obtain ⟨hs, hlinks⟩ := h.takeOut honly hb₁ hmem d m
    refine ⟨hs, fun q => (hlinks.relinked.data q).trans (hdata q), hlinks.slots.trans honly.slots,
      hlinks.cachemap, hlinks.disk, fun q hq => ?_, ?_⟩
    · rw [hlinks.next]
      exact hnext q hq
    · rw [takeOut_live]
      exact congrArg (·.erase z) honly.live
  rw [h.evict_eq hfull hrem honly]
  by_cases hdirty : (c.heap.mem z).dirty
  · obtain ⟨hmmap, hwrite⟩ := hdisk hdirty
    rw [← honly.disk] at hmmap hwrite
    obtain ⟨hs, hdata', hslots, hmap, hd, hnext', hlive⟩ := hstep
      { c₁.disk with
        block := Function.update c₁.disk.block (c₁.heap.mem z).diskAddr
          (c₁.slots (c₁.heap.mem z).cacheAddr)
        calls := c₁.disk.calls + 1 + 1 } (c₁.cachemap.clearBit (c.heap.mem z).cacheAddr)
    refine ⟨_, B', ?_, hs, ⟨hdata', hslots, ?_, ?_, ?_⟩, hnext', hlive⟩
    · unfold removeObjectFromCacheAndWriteBack freeCacheId
      dsimp only
      rw [honly.dirty, if_pos hdirty]
      simp only [Disk.malloc4k, Disk.writeBlock, hmmap, hwrite, if_true]
    · rw [hmap, honly.cachemap]
    · rw [hd, if_pos hdirty, honly.cacheAddr, honly.diskAddr, honly.disk, honly.slots]
    · rw [hd]
      change c₁.disk.ok = c.disk.ok
      rw [honly.disk]
  · obtain ⟨hs, hdata', hslots, hmap, hd, hnext', hlive⟩ := hstep c₁.disk
      (c₁.cachemap.clearBit (c.heap.mem z).cacheAddr)
    refine ⟨_, B', ?_, hs, ⟨hdata', hslots, ?_, ?_, ?_⟩, hnext', hlive⟩
    · unfold removeObjectFromCacheAndWriteBack freeCacheId
      dsimp only
      rw [honly.dirty, if_neg hdirty]
    · rw [hmap, honly.cachemap]
    · rw [hd, if_neg hdirty, honly.disk]
    · rw [hd, honly.disk]

/-- A write-back that fails leaves the disk as it was, and the victim in no bucket. It stays in the
list when `mmap` failed, and is freed when `write_block` did. -/
theorem evict_failed (h : Shape c (l ++ [z]) B) (hfull : 2^15 - 1 ≤ c.cacheSize)
    (hfail : ¬WriteBackOk c z) (hok : BucketOk c (c.heap.mem z).diskAddr) :
    ∃ c' l' B', c.evict = some c' ∧ Linked c' l' B' ∧ c'.disk.block = c.disk.block ∧
      (∀ q, (c'.heap.mem q).data = (c.heap.mem q).data) ∧ (∀ q ∈ l', q ∈ l ++ [z]) ∧
      (∀ v, ∀ q ∈ B' v, q ∈ l) ∧
      (∀ q, q ∉ l ++ [z] → (c'.heap.mem q).next = (c.heap.mem q).next) ∧
      ∀ q ∈ c.heap.live, q ∉ l ++ [z] → q ∈ c'.heap.live := by
  obtain ⟨hdirty, hio⟩ := Classical.not_imp.mp hfail
  obtain ⟨c₁, B', hrem, honly, hnext, hb₁, hmem⟩ := h.unlink hok
  have hdata := honly.relinked.data
  have hB' : ∀ v, ∀ q ∈ B' v, q ∈ l := fun v q hq => ((hmem.mem_iff v q).mp hq).1
  have hdirty₁ : ((c₁.freeCacheId (c.heap.mem z).cacheAddr).heap.mem z).dirty = true :=
    (honly.dirty z).trans hdirty
  rw [h.evict_eq hfull hrem honly]
  unfold removeObjectFromCacheAndWriteBack
  rw [if_pos hdirty₁]
  set c₂ := c₁.freeCacheId (c.heap.mem z).cacheAddr with hc₂
  have hdisk₂ : c₂.disk = c.disk := honly.disk
  by_cases hmmap : c.disk.ok c.disk.calls = true
  · -- `write_block` fails, which the code does not look at.
    have hwrite : c.disk.ok (c.disk.calls + 1) = false := by simpa [hmmap] using hio
    obtain ⟨hs, hlinks⟩ := h.takeOut honly hb₁ hmem
      { c.disk with calls := c.disk.calls + 1 + 1 } c₂.cachemap
    refine ⟨_, l, B', ?_, hs.linked, by rw [hlinks.disk], fun q => ?_, fun q hq => by simp [hq],
      hB', fun q hq => ?_, fun q hq hql => ?_⟩
    · simp only [Disk.malloc4k, Disk.writeBlock, hdisk₂, hmmap, hwrite, if_true, Bool.false_eq_true,
        if_false]
      rfl
    · exact (hlinks.relinked.data q).trans (hdata q)
    · rw [hlinks.next]
      exact hnext q hq
    · rw [takeOut_live]
      have hqz : q ≠ z := by rintro rfl; simp at hql
      exact (List.mem_erase_of_ne hqz).mpr (by rw [← honly.live] at hq; exact hq)
  · -- `mmap` fails, and the function returns.
    rw [Bool.not_eq_true] at hmmap
    have hlru := h.lru.of_bucketsOnly honly
    refine ⟨{ c₂ with disk := { c.disk with calls := c.disk.calls + 1 } }, l ++ [z], B', ?_,
      ⟨⟨?_, ?_⟩, fun q hq => ?_, ⟨⟨hlru.right, hlru.left, hlru.nodup⟩, hlru.size⟩,
        ⟨hb₁.chain, hb₁.hash, hb₁.nodup, hb₁.fuel⟩, fun v q hq => by simp [hB' v q hq],
        fun v q hq r hr hqr => ?_⟩, rfl, hdata, fun q hq => hq, hB', hnext, fun q hq _ => ?_⟩
    · simp only [Disk.malloc4k, hdisk₂, hmmap, Bool.false_eq_true, if_false]
    · change c₁.heap.live.Nodup
      rw [honly.live]
      exact h.wf.nodup
    · change c₁.heap.live.length ≤ c₁.heap.count
      rw [honly.live, honly.count]
      exact h.wf.length_le
    · change q ∈ c₁.heap.live
      rw [honly.live]
      exact h.live q hq
    · exact hmem.inj q (hB' v q hq) r (hB' v r hr)
        (by rw [← honly.diskAddr q, ← honly.diskAddr r]; exact hqr)
    · change q ∈ c₁.heap.live
      rwa [honly.live]

/-- `insert_block_to_cache` of a block that is not cached pushes a new node for it. -/
theorem insert_fresh (h : Shape c l B) (hb : ∀ a ∈ l, (c.heap.mem a).diskAddr ≠ b)
    (hlen : l.length < 2^15 - 1) (s : ℕ) :
    ∃ c' B', c.insertBlockToCache b s = some (some c.heap.fresh, c') ∧
      Shape c' (c.heap.fresh :: l) B' ∧ (c'.heap.mem c.heap.fresh).data = (s, b, false) ∧
      (∀ q, q ≠ c.heap.fresh → (c'.heap.mem q).data = (c.heap.mem q).data) ∧
      c'.slots = c.slots ∧ c'.disk = c.disk ∧ c'.cachemap = c.cachemap := by
  set p := c.heap.fresh with hp
  have hne : ∀ q ∈ l, q ≠ p := fun q hq => by
    rintro rfl
    exact h.fresh_not_mem hq
  obtain ⟨c₁, hins, h₁, hnew, hold, hslots, hdisk, hmap⟩ :=
    h.linked.insertBlockToCache (h.not_mem_bucket hb) hlen s
  -- The new node enters the list and the bucket of its block.
  have hnewb : (c₁.heap.mem p).diskAddr = b := congrArg (fun d => d.2.1) hnew
  have holdb : ∀ q ∈ l, (c₁.heap.mem q).diskAddr = (c.heap.mem q).diskAddr := fun q hq =>
    (data_eq (hold q (hne q hq))).2.1
  have hcongr : Members (fun q => (c₁.heap.mem q).diskAddr) l B := h.members.congr holdb
  have hmem := hcongr.push (p := p) fun q hq => by
    rw [hnewb, holdb q hq]
    exact hb q hq
  rw [hnewb] at hmem
  have hlen₁ : (p :: l).length ≤ 2^15 - 1 := by
    rw [List.length_cons]
    omega
  exact ⟨c₁, _, hins, h₁.shape hmem hlen₁, hnew, hold, hslots, hdisk, hmap⟩

/-- With a full cache, `insert_block_to_cache` evicts the last node before it pushes the new one. -/
theorem insert_evict (h : Shape c (l ++ [z]) B) (hb : ∀ a ∈ l ++ [z], (c.heap.mem a).diskAddr ≠ b)
    (hfull : 2^15 - 1 ≤ c.cacheSize) (hwrite : WriteBackOk c z)
    (hbucket : BucketOk c (c.heap.mem z).diskAddr) (s : ℕ) :
    ∃ c' B', c.insertBlockToCache b s = some (some c.heap.fresh, c') ∧
      Shape c' (c.heap.fresh :: l) B' ∧ (c'.heap.mem c.heap.fresh).data = (s, b, false) ∧
      (∀ q, q ≠ c.heap.fresh → (c'.heap.mem q).data = (c.heap.mem q).data) ∧
      c'.slots = c.slots ∧ c'.disk.ok = c.disk.ok ∧
      c'.cachemap = c.cachemap.clearBit (c.heap.mem z).cacheAddr ∧
      c'.disk.block = if (c.heap.mem z).dirty then Function.update c.disk.block
        (c.heap.mem z).diskAddr (c.slots (c.heap.mem z).cacheAddr) else c.disk.block := by
  set f : CacheObj → CacheObj := fun n =>
    { n with diskAddr := b, cacheAddr := s, left := none, right := none } with hf
  set p := c.heap.fresh with hp
  have h₁ := h.allocNode f
  have hpl : p ∉ l ++ [z] := h.fresh_not_mem
  have hp₁ : (c.allocNode f).heap.mem p = f CacheObj.zero := allocNode_mem_fresh c f
  have hq₁ : ∀ q, q ≠ p → (c.allocNode f).heap.mem q = c.heap.mem q :=
    fun q hq => allocNode_mem_of_ne c f hq
  have hne : ∀ q ∈ l ++ [z], q ≠ p := fun q hq => by rintro rfl; exact hpl hq
  have hzp : z ≠ p := hne z (by simp)
  -- The conditions of the eviction hold after the allocation.
  have hwrite₁ : WriteBackOk (c.allocNode f) z := fun hd => hwrite (by rwa [hq₁ z hzp] at hd)
  have hok₁ : BucketOk (c.allocNode f) ((c.allocNode f).heap.mem z).diskAddr := by
    rw [hq₁ z hzp]
    exact h.bucketOk_allocNode f hbucket
  obtain ⟨c₂, B₂, hevict, h₂, hev, hnext, hlive⟩ := h₁.evict_full hfull hwrite₁ hok₁
  have hdata₂ := hev.data
  have hlen : l.length < 2^15 - 1 := by
    have := h.length_le
    simp at this
    omega
  have hlive₂ : p ∈ c₂.heap.live := by
    rw [hlive]
    exact (List.mem_erase_of_ne hzp.symm).mpr List.mem_cons_self
  have haddr₂ : ∀ q ∈ l, (c₂.heap.mem q).diskAddr ≠ b := fun q hq => by
    rw [(data_eq (hdata₂ q)).2.1, hq₁ q (hne q (by simp [hq]))]
    exact hb q (by simp [hq])
  obtain ⟨c₃, B₃, hins, h₃, hrel⟩ := h₂.push (fun hmem => hpl (by simp [hmem])) hlive₂
    (by rw [hnext p hpl, hp₁]; rfl) ((data_eq (hdata₂ p)).2.1.trans (by rw [hp₁])) haddr₂ hlen
  refine ⟨c₃, B₃, h.linked.insert_parts (h.not_mem_bucket hb) hevict hins, h₃, ?_, fun q hq => ?_,
    ?_, ?_, ?_, ?_⟩
  · rw [hrel.data, hdata₂, hp₁]
    rfl
  · rw [hrel.data, hdata₂, hq₁ q hq]
  · rw [hrel.slots, hev.slots]
    rfl
  · rw [hrel.disk, hev.ok]
    rfl
  · rw [hrel.cachemap, hev.cachemap, hq₁ z hzp]
    rfl
  · rw [hrel.disk, hev.block, hq₁ z hzp]
    rfl

/-- `insert_block_to_cache` of a block that is not cached pushes a new node for it, after an
eviction when the cache is full. -/
theorem insertBlockToCache (h : Shape c l B) (hb : ∀ a ∈ l, (c.heap.mem a).diskAddr ≠ b)
    (hvictim : 2^15 - 1 ≤ c.cacheSize → ∀ z, c.cacheRight = some z →
      WriteBackOk c z ∧ BucketOk c (c.heap.mem z).diskAddr) (s : ℕ) :
    ∃ c' l' B', c.insertBlockToCache b s = some (some c.heap.fresh, c') ∧
      Shape c' (c.heap.fresh :: l') B' ∧
      (c'.heap.mem c.heap.fresh).data = (s, b, false) ∧
      (∀ q, q ≠ c.heap.fresh → (c'.heap.mem q).data = (c.heap.mem q).data) ∧
      c'.slots = c.slots ∧ c'.disk.ok = c.disk.ok ∧
      ((c.cacheSize < 2^15 - 1 ∧ l' = l ∧ c'.disk = c.disk ∧ c'.cachemap = c.cachemap) ∨
        ∃ z, 2^15 - 1 ≤ c.cacheSize ∧ c.cacheRight = some z ∧ l = l' ++ [z] ∧
          c'.cachemap = c.cachemap.clearBit (c.heap.mem z).cacheAddr ∧
          c'.disk.block = if (c.heap.mem z).dirty then Function.update c.disk.block
            (c.heap.mem z).diskAddr (c.slots (c.heap.mem z).cacheAddr) else c.disk.block) := by
  have hsize := h.lru.size
  by_cases hfull : 2^15 - 1 ≤ c.cacheSize
  · rcases List.eq_nil_or_concat l with rfl | ⟨l', z, hl⟩
    · simp at hsize
      omega
    · rw [List.concat_eq_append] at hl
      subst hl
      obtain ⟨hwrite, hbucket⟩ := hvictim hfull z h.cacheRight_eq
      obtain ⟨c', B', hins, h', hnew, hold, hslots, hok, hmap, hblock⟩ :=
        h.insert_evict hb hfull hwrite hbucket s
      exact ⟨c', l', B', hins, h', hnew, hold, hslots, hok,
        Or.inr ⟨z, hfull, h.cacheRight_eq, rfl, hmap, hblock⟩⟩
  · obtain ⟨c', B', hins, h', hnew, hold, hslots, hdisk, hmap⟩ := h.insert_fresh hb (by omega) s
    exact ⟨c', l, B', hins, h', hnew, hold, hslots, by rw [hdisk],
      Or.inl ⟨by omega, rfl, hdisk, hmap⟩⟩

end Shape

end Cache

end GemOS.Objstore
