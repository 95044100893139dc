import GemOS.Objstore.CacheRuns

/-!
# The slots of the cache along runs

The slots of the nodes of the LRU list stay different, and those of the bitmap, as long as no call
misses while 32766 nodes are cached: then all slots are taken, `get_block_for_cache` returns 0, and
nothing is evicted, since this starts at one node more. Collisions in the buckets may lose nodes for
the searches, but not for the LRU list, so that they do not matter here.
-/

namespace GemOS.Objstore.Cache

/-- The slots of the nodes `l`. -/
def slotsOf (c : Cache) (l : List ℕ) : List ℕ := l.map fun a => (c.heap.mem a).cacheAddr

/-- The slots `σ` are different numbers from 2 to `CACHE_HTSIZE - 1`, and those of the bitmap. -/
structure SlotsOk (map : ByteMap) (σ : List ℕ) : Prop where
  /-- No slot is twice in the list. -/
  nodup : σ.Nodup
  /-- The slots 0 and 1 are not handed out. -/
  range : ∀ s ∈ σ, 2 ≤ s ∧ s < 2^15
  /-- The bitmap. -/
  used : ∀ s, map.bit s = true ↔ s ∈ σ

/-- The slots of the nodes of the LRU list are different, and those of the bitmap. -/
def SlotsDistinct (c : Cache) : Prop :=
  ∃ l, Chain c.heap.mem CacheObj.right c.cacheLeft l ∧ SlotsOk c.cachemap (slotsOf c l)

/-- The call misses while all slots are taken and no node is evicted. -/
def Overflow (c : Cache) (op : Op) : Prop :=
  c.cacheSize = 2^15 - 2 ∧ c.getCacheObj op.block = some none

/-- The state `c'` after the insertion of a node for the block `b` with the slot that
`get_block_for_cache` handed out in `c`. -/
structure Added (c c' : Cache) (l : List ℕ) (B' : ℕ → List ℕ) (b : ℕ) : Prop where
  /-- The nodes. -/
  linked : Linked c' (c.heap.fresh :: l) B'
  /-- The block of the new node. -/
  diskAddr : (c'.heap.mem c.heap.fresh).diskAddr = b
  /-- The blocks of the old nodes. -/
  old : ∀ q ∈ l, (c'.heap.mem q).diskAddr = (c.heap.mem q).diskAddr
  /-- The slots. -/
  slots : slotsOf c' (c.heap.fresh :: l) = c.getBlockForCache.1 :: slotsOf c l
  /-- The bitmap. -/
  cachemap : c'.cachemap = c.getBlockForCache.2.cachemap
  /-- The disk. -/
  disk : c'.disk.AllOk

/-- The invariant of the slots, over a disk that never fails. -/
structure SlotInv (c : Cache) (l : List ℕ) (B : ℕ → List ℕ) : Prop where
  /-- The nodes. -/
  linked : Linked c l B
  /-- The slots. -/
  slots : SlotsOk c.cachemap (slotsOf c l)
  /-- The disk. -/
  disk : c.disk.AllOk

variable {c c' : Cache} {l l' : List ℕ} {B : ℕ → List ℕ} {a b p s : ℕ} {op : Op} {σ σ' : List ℕ}
  {m m' : ByteMap}

namespace SlotsOk

theorem perm (h : SlotsOk m σ) (hσ : σ'.Perm σ) : SlotsOk m σ' :=
  ⟨hσ.nodup_iff.mpr h.nodup, fun s hs => h.range s (hσ.mem_iff.mp hs),
    fun s => (h.used s).trans hσ.mem_iff.symm⟩

/-- A free slot is taken. -/
theorem cons (h : SlotsOk m σ) (h₂ : 2 ≤ s) (hs : s < 2^15) (hfree : m.bit s = false)
    (hbit : ∀ k, m'.bit k = (m.bit k || decide (k = s))) : SlotsOk m' (s :: σ) := by
  refine ⟨List.nodup_cons.mpr ⟨fun hmem => ?_, h.nodup⟩, fun k hk => ?_, fun k => ?_⟩
  · rw [(h.used s).mpr hmem] at hfree
    exact absurd hfree (by simp)
  · rcases List.mem_cons.mp hk with rfl | hk
    · exact ⟨h₂, hs⟩
    · exact h.range k hk
  · rw [hbit, Bool.or_eq_true, decide_eq_true_eq, h.used, List.mem_cons, or_comm]

theorem length_le (h : SlotsOk m σ) : σ.length ≤ 2^15 - 2 := by
  have hsub : σ.toFinset ⊆ Finset.Ico 2 (2^15) := fun s hs =>
    Finset.mem_Ico.mpr (h.range s (List.mem_toFinset.mp hs))
  have hcard := Finset.card_le_card hsub
  rwa [List.toFinset_card_of_nodup h.nodup, Nat.card_Ico] at hcard

/-- All slots are taken when as many as there are slots from 2 on are. -/
theorem full (h : SlotsOk m σ) (hlen : σ.length = 2^15 - 2) (h₂ : 2 ≤ s) (hs : s < 2^15) :
    m.bit s = true := by
  have hsub : σ.toFinset ⊆ Finset.Ico 2 (2^15) := fun s hs =>
    Finset.mem_Ico.mpr (h.range s (List.mem_toFinset.mp hs))
  have heq := Finset.eq_of_subset_of_card_le hsub (by
    rw [List.toFinset_card_of_nodup h.nodup, Nat.card_Ico, hlen])
  exact (h.used s).mpr (List.mem_toFinset.mp (heq ▸ Finset.mem_Ico.mpr ⟨h₂, hs⟩))

/-- Some slot is free when fewer are taken. -/
theorem exists_free (h : SlotsOk m σ) (hlen : σ.length < 2^15 - 2) :
    ∃ s, 2 ≤ s ∧ s < 2^15 ∧ m.bit s = false := by
  by_contra hall
  push Not at hall
  have hsub : Finset.Ico 2 (2^15) ⊆ σ.toFinset := fun s hs => by
    rw [Finset.mem_Ico] at hs
    exact List.mem_toFinset.mpr ((h.used s).mp (by simpa using hall s hs.1 hs.2))
  have hcard := (Finset.card_le_card hsub).trans (List.toFinset_card_le σ)
  rw [Nat.card_Ico] at hcard
  omega

end SlotsOk

theorem slotsOf_length (c : Cache) (l : List ℕ) : (slotsOf c l).length = l.length :=
  List.length_map _

theorem slotsOf_congr (h : ∀ a ∈ l, (c'.heap.mem a).data = (c.heap.mem a).data) :
    slotsOf c' l = slotsOf c l :=
  List.map_congr_left fun a ha => (data_eq (h a ha)).1

/-- The slots after the node `a` was replaced by `p`. -/
theorem slotsOf_replace (ha : a ∈ l) (hnew : (c'.heap.mem p).cacheAddr = (c.heap.mem a).cacheAddr)
    (hold : ∀ q ∈ l, (c'.heap.mem q).data = (c.heap.mem q).data) :
    (slotsOf c' (p :: l.erase a)).Perm (slotsOf c l) := by
  have herase : slotsOf c' (l.erase a) = slotsOf c (l.erase a) :=
    slotsOf_congr fun q hq => hold q (List.mem_of_mem_erase hq)
  have hcons : slotsOf c' (p :: l.erase a) = slotsOf c (a :: l.erase a) := by
    rw [slotsOf, List.map_cons, hnew, ← slotsOf, herase]
    rfl
  rw [hcons]
  exact (List.perm_cons_erase ha).symm.map _

namespace SlotInv

theorem slotsDistinct (h : SlotInv c l B) : c.SlotsDistinct := ⟨l, h.linked.lru.right, h.slots⟩

theorem size_le (h : SlotInv c l B) : c.cacheSize ≤ 2^15 - 2 := by
  rw [h.linked.lru.size, ← slotsOf_length c l]
  exact h.slots.length_le

/-- The invariant depends on the links, the block numbers, and the slots of the nodes only. -/
theorem of_links (h : SlotInv c l B)
    (hnode : ∀ q, (c'.heap.mem q).left = (c.heap.mem q).left ∧
      (c'.heap.mem q).right = (c.heap.mem q).right ∧ (c'.heap.mem q).next = (c.heap.mem q).next ∧
      (c'.heap.mem q).diskAddr = (c.heap.mem q).diskAddr)
    (hslot : ∀ q, (c'.heap.mem q).cacheAddr = (c.heap.mem q).cacheAddr)
    (hlive : c'.heap.live = c.heap.live) (hcount : c'.heap.count = c.heap.count)
    (htable : c'.table = c.table) (hleft : c'.cacheLeft = c.cacheLeft)
    (hright : c'.cacheRight = c.cacheRight) (hsize : c'.cacheSize = c.cacheSize)
    (hmap : c'.cachemap = c.cachemap) (hdisk : c'.disk.AllOk) : SlotInv c' l B := by
  refine ⟨h.linked.of_links hnode hlive hcount htable hleft hright hsize, ?_, hdisk⟩
  have hslots : slotsOf c' l = slotsOf c l := List.map_congr_left fun a _ => hslot a
  rw [hmap, hslots]
  exact h.slots

/-- A store to the data area. -/
theorem copyToSlot (h : SlotInv c l B) (s : ℕ) (buf : Block) : SlotInv (c.copyToSlot s buf) l B :=
  h.of_links (fun _ => ⟨rfl, rfl, rfl, rfl⟩) (fun _ => rfl) rfl rfl rfl rfl rfl rfl rfl h.disk

/-- The dirty flag is set. -/
theorem setDirty (h : SlotInv c l B) (p : ℕ) :
    SlotInv (c.modify p fun n => { n with dirty := true }) l B := by
  have hcore := modify_dirty_core c p
  refine h.of_links (fun q => ⟨(hcore q).1, (hcore q).2.1, (hcore q).2.2.1, (hcore q).2.2.2.1⟩)
    (fun q => (hcore q).2.2.2.2) rfl rfl rfl rfl rfl rfl rfl h.disk

/-- A hit moves the slot to the new node. -/
theorem hit {l₁ l₂ : List ℕ} (h : SlotInv c l B) (hB : B (cacheHash b) = l₁ ++ a :: l₂)
    (hab : (c.heap.mem a).diskAddr = b) (h₁ : ∀ q ∈ l₁, (c.heap.mem q).diskAddr ≠ b) :
    ∃ p c' l' B', c.retrieveBlockFromCache b = some (some p, c') ∧ SlotInv c' l' B' := by
  have hlen := h.size_le
  rw [h.linked.lru.size] at hlen
  have ha : a ∈ l := h.linked.sub _ a (by rw [hB]; simp)
  obtain ⟨c', hrep, h', hnew, hold, hdisk, -, hmap⟩ := h.linked.replaceNode hB hab h₁ (by omega)
  have hperm : (slotsOf c' (c.heap.fresh :: l.erase a)).Perm (slotsOf c l) :=
    slotsOf_replace ha (congrArg Prod.fst hnew) fun q hq =>
      hold q (by rintro rfl; exact h.linked.fresh_not_mem hq)
  refine ⟨c.heap.fresh, c', _, _, ?_, h', ?_, ?_⟩
  · rw [h.linked.retrieve_hit hB hab h₁, hrep]
    rfl
  · rw [hmap]
    exact h.slots.perm hperm
  · rw [hdisk]
    exact h.disk

/-- A miss inserts a node, and evicts none. -/
theorem insert (h : SlotInv c l B) (hb : ∀ a ∈ B (cacheHash b), (c.heap.mem a).diskAddr ≠ b)
    (buf : Block) :
    ∃ c' B', (c.getBlockForCache.2.copyToSlot c.getBlockForCache.1 buf).insertBlockToCache b
        c.getBlockForCache.1 = some (some c.heap.fresh, c') ∧ Added c c' l B' b := by
  have hlen := h.size_le
  rw [h.linked.lru.size] at hlen
  obtain ⟨s, m, itr, hget, -⟩ := c.getBlockForCache_spec
  have h₁ : Linked (({ c with cachemap := m, cacheBitItr := itr } : Cache).copyToSlot s buf) l B :=
    h.linked.of_links (fun q => ⟨rfl, rfl, rfl, rfl⟩) rfl rfl rfl rfl rfl rfl
  obtain ⟨c', hins, h', hnew, hold, -, hdisk, hmap⟩ := h₁.insertBlockToCache hb (by omega) s
  have hdata : ∀ q ∈ l, (c'.heap.mem q).data = (c.heap.mem q).data := fun q hq =>
    hold q (by rintro rfl; exact h.linked.fresh_not_mem hq)
  have hslot : (c'.heap.mem c.heap.fresh).cacheAddr = s := congrArg Prod.fst hnew
  refine ⟨c', _, by rw [hget]; exact hins, h', congrArg (fun d => d.2.1) hnew,
    fun q hq => (data_eq (hdata q hq)).2.1,
      ?_, by rw [hget, hmap]; rfl, by rw [hdisk]; exact h.disk⟩
  rw [hget, slotsOf, List.map_cons, hslot]
  exact congrArg _ (slotsOf_congr hdata)

/-- With a free slot, the slots stay different. -/
theorem of_added {B' : ℕ → List ℕ} (h : SlotInv c l B) (hlt : c.cacheSize ≠ 2^15 - 2)
    (ha : Added c c' l B' b) : SlotInv c' (c.heap.fresh :: l) B' := by
  refine ⟨ha.linked, ?_, ha.disk⟩
  have hle := h.size_le
  rw [h.linked.lru.size] at hlt hle
  obtain ⟨s, m, itr, hget, hs⟩ := c.getBlockForCache_spec
  rw [ha.slots, ha.cachemap, hget]
  rcases hs with ⟨-, -, hall⟩ | ⟨h₂, hs, hfree, hbit⟩
  · -- Fewer nodes than slots do not take all slots.
    obtain ⟨k, hk₂, hk, hfree⟩ := h.slots.exists_free (by rw [slotsOf_length]; omega)
    rw [hall k hk₂ hk] at hfree
    exact absurd hfree (by simp)
  · exact h.slots.cons h₂ hs hfree hbit

/-- Without a free slot, the new node has the slot 0. -/
theorem not_slotsDistinct_of_added {B' : ℕ → List ℕ} (h : SlotInv c l B)
    (hfull : c.cacheSize = 2^15 - 2) (ha : Added c c' l B' b) : ¬c'.SlotsDistinct := by
  rintro ⟨l', hl', hok⟩
  obtain rfl : l' = c.heap.fresh :: l := hl'.unique ha.linked.lru.right
  rw [h.linked.lru.size] at hfull
  obtain ⟨s, m, itr, hget, hs⟩ := c.getBlockForCache_spec
  rcases hs with ⟨rfl, -, -⟩ | ⟨h₂, hs, hfree, -⟩
  · have hzero := hok.range 0 (by rw [ha.slots, hget]; simp)
    omega
  · rw [h.slots.full (by rw [slotsOf_length]; exact hfull) h₂ hs] at hfree
    exact absurd hfree (by simp)

/-! ## Steps -/

/-- The invariant does not depend on the contents of the disk. -/
theorem setDisk (h : SlotInv c l B) {d : Disk} (hd : d.AllOk) : SlotInv { c with disk := d } l B :=
  h.of_links (fun _ => ⟨rfl, rfl, rfl, rfl⟩) (fun _ => rfl) rfl rfl rfl rfl rfl rfl rfl hd

/-- A call that hits. -/
theorem step_hit {l₁ l₂ : List ℕ} (h : SlotInv c l B)
    (hB : B (cacheHash op.block) = l₁ ++ a :: l₂) (hab : (c.heap.mem a).diskAddr = op.block)
    (h₁ : ∀ q ∈ l₁, (c.heap.mem q).diskAddr ≠ op.block) :
    ∃ r c' l' B', c.step op = some (r, c') ∧ SlotInv c' l' B' := by
  obtain ⟨p, c', l', B', hret, h'⟩ := h.hit hB hab h₁
  cases op with
  | read b buf =>
    refine ⟨(4096, c'.slots (c'.heap.mem p).cacheAddr), c', l', B', ?_, h'⟩
    rw [Cache.step, readBlockModified, show c.retrieveBlockFromCache b = _ from hret]
    rfl
  | write b buf =>
    refine ⟨(0, buf), _, l', B', ?_, (h'.copyToSlot (c'.heap.mem p).cacheAddr buf).setDirty p⟩
    rw [Cache.step, writeBlockModified, show c.retrieveBlockFromCache b = _ from hret]
    rfl

/-- A call that misses. -/
theorem step_miss (h : SlotInv c l B)
    (hb : ∀ a ∈ B (cacheHash op.block), (c.heap.mem a).diskAddr ≠ op.block) :
    ∃ r c' B', c.step op = some (r, c') ∧ Added c c' l B' op.block := by
  have hret := h.linked.retrieve_miss hb
  cases op with
  | read b buf =>
    -- The page is allocated and the block read, both with success, before the node is inserted.
    set d : Disk := { c.disk with calls := c.disk.calls + 1 + 1 } with hd
    have hmalloc : c.disk.malloc4k = (true, { c.disk with calls := c.disk.calls + 1 }) := by
      rw [Disk.malloc4k, h.disk]
    have hread : ({ c.disk with calls := c.disk.calls + 1 } : Disk).readBlock b Block.zero =
        (4096, c.disk.block b, d) := if_pos (h.disk _)
    obtain ⟨c', B', hins, hadd⟩ := (h.setDisk (d := d) h.disk).insert (b := b) hb
      (c.disk.block b)
    refine ⟨(4096, c.disk.block b), c', B', ?_, hadd.linked, hadd.diskAddr, hadd.old,
      hadd.slots, hadd.cachemap, hadd.disk⟩
    rw [Cache.step, readBlockModified, show c.retrieveBlockFromCache b = _ from hret]
    simp only [Option.bind_eq_bind, Option.bind_some, hmalloc, hread]
    rw [if_neg (by simp), if_neg (by simp), hins]
    rfl
  | write b buf =>
    obtain ⟨c', B', hins, hadd⟩ := h.insert (b := b) hb buf
    have hcore := modify_dirty_core c' c.heap.fresh
    refine ⟨(0, buf), c'.modify c.heap.fresh fun n => { n with dirty := true }, B', ?_,
      hadd.linked.setDirty c.heap.fresh, (hcore _).2.2.2.1.trans hadd.diskAddr,
      fun q hq => (hcore q).2.2.2.1.trans (hadd.old q hq), ?_, hadd.cachemap, hadd.disk⟩
    · rw [Cache.step, writeBlockModified, show c.retrieveBlockFromCache b = _ from hret]
      simp only [Option.bind_eq_bind, Option.bind_some]
      rw [hins]
      rfl
    · rw [← hadd.slots]
      exact List.map_congr_left fun q _ => (hcore q).2.2.2.2

/-- A call on a block that is cached, or on any block while a slot is free. -/
theorem step (h : SlotInv c l B) (hop : ¬c.Overflow op) :
    ∃ r c', c.step op = some (r, c') ∧ ∃ l' B', SlotInv c' l' B' := by
  rcases h.linked.getCacheObj_cases op.block with ⟨l₁, a, l₂, hB, hab, h₁, -⟩ | ⟨hb, hget⟩
  · obtain ⟨r, c', l', B', hstep, h'⟩ := h.step_hit hB hab h₁
    exact ⟨r, c', hstep, l', B', h'⟩
  · obtain ⟨r, c', B', hstep, hadd⟩ := h.step_miss hb
    exact ⟨r, c', hstep, _, B', h.of_added (fun hfull => hop ⟨hfull, hget⟩) hadd⟩

/-- A call on a block that is not cached when no slot is free. -/
theorem step_overflow {r : ℤ × Block} (h : SlotInv c l B) (hop : c.Overflow op)
    (hstep : c.step op = some (r, c')) : ¬c'.SlotsDistinct := by
  rcases h.linked.getCacheObj_cases op.block with ⟨l₁, a, l₂, -, -, -, hget⟩ | ⟨hb, -⟩
  · exact absurd (hget.symm.trans hop.2) (by simp)
  · obtain ⟨r', c'', B', hstep', hadd⟩ := h.step_miss hb
    obtain ⟨-, rfl⟩ : r' = r ∧ c'' = c' := by simpa [hstep'] using hstep
    exact h.not_slotsDistinct_of_added hop.1 hadd

end SlotInv

/-- The empty cache. -/
theorem slotInv_empty (A : Allocator) {d : Disk} (hd : d.AllOk) (slots : ℕ → Block) :
    SlotInv (empty A d slots) [] fun _ => [] := by
  refine ⟨(inv_empty A hd slots).shape.linked, ⟨List.nodup_nil, by simp [slotsOf], fun s => ?_⟩, hd⟩
  simp [empty, ByteMap.bit, slotsOf]

/-- The exact condition of runs, from any state of a run. -/
theorem SlotInv.forall_prefix_iff (h : SlotInv c l B) (ops : List Op) :
    (∀ pre, pre <+: ops → ∃ hist c', Run.run Cache.step c pre = some (hist, c') ∧
      c'.SlotsDistinct) ↔ Run.Along Cache.step (fun c op => ¬c.Overflow op) c ops :=
  Run.forall_prefix_iff (fun c => ∃ l B, SlotInv c l B) SlotsDistinct
    (fun _ ⟨_, _, h⟩ => h.slotsDistinct)
    (fun _ _ ⟨_, _, h⟩ _ hop => h.step hop)
    (fun _ _ _ _ ⟨_, _, h⟩ _ hop hstep => h.step_overflow (not_not.mp hop) hstep) ⟨l, B, h⟩
    (Q := fun _ _ => True) (Run.along_of_forall fun _ _ _ => trivial)

/-- From the empty cache, the slots of the nodes are different and those of the bitmap in every
state of a run if and only if no call of the run misses while 32766 nodes are cached. -/
theorem slots_distinct_iff (A : Allocator) (d : Disk) (hd : d.AllOk) (slots : ℕ → Block)
    (ops : List Op) :
    (∀ pre, pre <+: ops → ∃ hist c, Run.run Cache.step (empty A d slots) pre = some (hist, c) ∧
      c.SlotsDistinct) ↔ Run.Along Cache.step (fun c op => ¬c.Overflow op) (empty A d slots) ops :=
  (slotInv_empty A hd slots).forall_prefix_iff ops

instance (c : Cache) (op : Op) : Decidable (c.Overflow op) := inferInstanceAs (Decidable (_ ∧ _))

/-- Two blocks of one bucket are read and written, and the first one is read again. -/
def sameBucket : List Op :=
  [.read 5 Block.zero, .write (5 + 2^15) fun _ => 1, .write 5 fun _ => 2, .read 5 Block.zero]

/-- No slot runs out, and the nodes have different slots after every call. -/
theorem slots_distinct_iff_bucket :
    Run.Along Cache.step (fun c op => ¬c.Overflow op)
        (empty Allocator.bump zeroDisk fun _ => Block.zero) sameBucket ∧
      ∀ pre, pre <+: sameBucket → ∃ hist c,
        Run.run Cache.step (empty Allocator.bump zeroDisk fun _ => Block.zero) pre =
          some (hist, c) ∧ c.SlotsDistinct := by
  have hops : Run.Along Cache.step (fun c op => ¬c.Overflow op)
      (empty Allocator.bump zeroDisk fun _ => Block.zero) sameBucket := by
    decide +kernel
  exact ⟨hops, (slots_distinct_iff Allocator.bump zeroDisk (fun _ => rfl) (fun _ => Block.zero)
    sameBucket).mpr hops⟩

/-- Reads of consecutive blocks run into the condition at the 32767th one. -/
theorem SlotInv.reads_overflow (h : SlotInv c l B) {i n : ℕ} (hi : l.length = i)
    (hl : ∀ a ∈ l, (c.heap.mem a).diskAddr < i) (hn : i + (n + 1) = 2^15 - 1) :
    ¬Run.Along Cache.step (fun c op => ¬c.Overflow op) c
      ((List.range' i (n + 1)).map fun b => .read b Block.zero) := by
  induction n generalizing c l B i with
  | zero =>
    rintro ⟨hop, -⟩
    refine hop ⟨by rw [h.linked.lru.size]; omega, getCacheObj_none h.linked.buckets fun a ha => ?_⟩
    exact (hl a (h.linked.sub _ a ha)).ne
  | succ n ih =>
    rintro ⟨hop, hrest⟩
    have hmiss : ∀ a ∈ B (cacheHash (Op.read i Block.zero).block),
        (c.heap.mem a).diskAddr ≠ (Op.read i Block.zero).block := fun a ha =>
      (hl a (h.linked.sub _ a ha)).ne
    obtain ⟨r, c', B', hstep, hadd⟩ := h.step_miss hmiss
    have h' := h.of_added (by rw [h.linked.lru.size]; omega) hadd
    refine ih h' (by simp [hi]) (fun a ha => ?_) (by omega) (hrest r c' hstep)
    rcases List.mem_cons.mp ha with rfl | ha
    · rw [hadd.diskAddr]
      exact Nat.lt_succ_self i
    · rw [hadd.old a ha]
      exact (hl a ha).trans (Nat.lt_succ_self i)

/-- After reads of 32767 blocks, two nodes do not have different slots from 2 on: the last one has
the slot 0. -/
theorem slots_not_distinct :
    ¬∀ pre, pre <+: (List.range' 0 32767).map (fun b => .read b Block.zero) → ∃ hist c,
      Run.run Cache.step (empty Allocator.bump zeroDisk fun _ => Block.zero) pre = some (hist, c) ∧
        c.SlotsDistinct := by
  have h := slotInv_empty Allocator.bump (d := zeroDisk) (fun _ => rfl) fun _ => Block.zero
  rw [h.forall_prefix_iff]
  exact h.reads_overflow rfl (by simp) rfl

end GemOS.Objstore.Cache
