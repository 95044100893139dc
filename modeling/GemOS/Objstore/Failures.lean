import GemOS.Objstore.CacheRuns

/-!
# Failures of the disk

The device may fail: `mmap`, `read_block`, and `write_block` return what `Disk.ok` says. The last
data written to a block is kept when a node of the LRU list and of the hash table has it in its
slot, or the disk has it (`Keeps`). `Kept` is the invariant for this, of the nodes and of the disk
below them. A call keeps it under `KeepOk`: no bucket is cut, a slot is overwritten only where the
other nodes in it are saved, and the write-back of an evicted node succeeds. An eviction whose
write-back fails loses the data (`Shape.write_lost`): the node has left its bucket and its slot
before `write_block` is called, and the result of the call is not looked at. Runs that leave room in
the cache meet the condition (`keepOk_of_room`).
-/

namespace GemOS.Objstore.Cache

/-- The data `D b` of the block `b` is in the slot of its node, which is on the LRU list and in the
hash table, or on the disk. -/
def Keeps (c : Cache) (D : ℕ → Block) (b : ℕ) : Prop :=
  (∃ p l, c.getCacheObj b = some (some p) ∧ Chain c.heap.mem CacheObj.right c.cacheLeft l ∧ p ∈ l ∧
    c.slots (c.heap.mem p).cacheAddr = D b) ∨ c.disk.block b = D b

/-- The node `a` has nothing to write back: it is clean, and the disk has the data of its block. -/
def Saved (c : Cache) (D : ℕ → Block) (a : ℕ) : Prop :=
  (c.heap.mem a).dirty = false ∧ c.disk.block (c.heap.mem a).diskAddr = D (c.heap.mem a).diskAddr

/-- The nodes of other blocks than `b` in the slot `s`, which is overwritten, are saved. -/
def SlotOk (c : Cache) (D : ℕ → Block) (s b : ℕ) : Prop :=
  ∀ k p, c.getCacheObj k = some (some p) → k ≠ b → (c.heap.mem p).cacheAddr = s → c.Saved D p

/-- The state after `n` calls into the system. -/
def afterCalls (c : Cache) (n : ℕ) : Cache :=
  { c with disk := { c.disk with calls := c.disk.calls + n } }

/-- What the insertion of the block `b` needs so that no data is lost, and the code does not
check. -/
structure InsertOk (c : Cache) (D : ℕ → Block) (b : ℕ) : Prop where
  /-- The slot that is handed out. -/
  slot : c.SlotOk D c.getBlockForCache.1 b
  /-- The node that is evicted does not head a longer bucket. -/
  bucket : ∀ z, c.Due z → c.BucketOk (c.heap.mem z).diskAddr
  /-- The node that is evicted is saved, or it is written back. -/
  victim : ∀ z, c.Due z → c.Saved D z ∨ (c.heap.mem z).dirty = true ∧ c.WriteBackOk z

/-- What a call needs so that no data is lost, and the code does not check, when `D` is the data
that was written last. A read that misses inserts the block after a call of `mmap` that succeeds,
and one of `read_block`. -/
def KeepOk (c : Cache) (D : ℕ → Block) : Op → Prop
  | .read b _ => (c.Cached b → c.BucketOk b) ∧
      (¬c.Cached b → c.disk.ok c.disk.calls = true → (c.afterCalls 2).InsertOk D b)
  | .write b _ => (c.Cached b → c.BucketOk b) ∧
      (∀ p, c.getCacheObj b = some (some p) → c.SlotOk D (c.heap.mem p).cacheAddr b) ∧
      (¬c.Cached b → c.InsertOk D b)

/-- The invariant: every node has the data of its block in its slot or is saved, and the disk has
the data of the other blocks. -/
structure Kept (c : Cache) (l : List ℕ) (B : ℕ → List ℕ) (D : ℕ → Block) : Prop where
  /-- The pointers. -/
  shape : Shape c l B
  /-- The nodes. -/
  node : ∀ a ∈ l, c.slots (c.heap.mem a).cacheAddr = D (c.heap.mem a).diskAddr ∨ c.Saved D a
  /-- The blocks without a node. -/
  disk : ∀ b, (∀ a ∈ l, (c.heap.mem a).diskAddr ≠ b) → c.disk.block b = D b

variable {c c' : Cache} {l : List ℕ} {B : ℕ → List ℕ} {D D' : ℕ → Block} {a b p s z : ℕ} {op : Op}

/-- A node is saved when its data and what the disk has of its block are as they were. -/
theorem Saved.congr (h : c.Saved D a) (hdata : (c'.heap.mem a).data = (c.heap.mem a).data)
    (hdisk : c'.disk.block (c.heap.mem a).diskAddr = c.disk.block (c.heap.mem a).diskAddr)
    (hD : D' (c.heap.mem a).diskAddr = D (c.heap.mem a).diskAddr) : c'.Saved D' a := by
  obtain ⟨-, haddr, hdirty⟩ := data_eq hdata
  unfold Saved
  rw [haddr, hdirty, hdisk, hD]
  exact h

namespace Kept

/-- The invariant is what the property asks. -/
theorem keeps (h : Kept c l B D) (b : ℕ) : c.Keeps D b := by
  rcases h.shape.getCacheObj_cases b with ⟨a, ha, rfl, hget⟩ | ⟨hb, -⟩
  · rcases h.node a ha with hslot | ⟨-, hdisk⟩
    · exact Or.inl ⟨a, l, hget, h.shape.lru.right, ha, hslot⟩
    · exact Or.inr hdisk
  · exact Or.inr (h.disk b hb)

/-- The empty cache. -/
theorem of_empty (A : Allocator) (d : Disk) (slots : ℕ → Block) :
    Kept (empty A d slots) [] (fun _ => []) d.block :=
  ⟨shape_empty A d slots, by simp, fun _ _ => rfl⟩

/-! ## Hits -/

/-- The node of the block is replaced. -/
theorem hit (h : Kept c l B D) (ha : a ∈ l) (hok : c.BucketOk (c.heap.mem a).diskAddr) :
    ∃ c' B', c.retrieveBlockFromCache (c.heap.mem a).diskAddr = some (some c.heap.fresh, c') ∧
      Kept c' (c.heap.fresh :: l.erase a) B' D ∧
      (c'.heap.mem c.heap.fresh).data =
        ((c.heap.mem a).cacheAddr, (c.heap.mem a).diskAddr, false) ∧
      (∀ q, q ≠ c.heap.fresh → (c'.heap.mem q).data = (c.heap.mem q).data) ∧
      c'.disk = c.disk := by
  obtain ⟨c', B', hrep, hshape, hnew, hold, hdisk, hslots, -⟩ := h.shape.replaceNode ha hok
  obtain ⟨hnewc, hnewd, hnewf⟩ : (c'.heap.mem c.heap.fresh).cacheAddr = (c.heap.mem a).cacheAddr ∧
      (c'.heap.mem c.heap.fresh).diskAddr = (c.heap.mem a).diskAddr ∧
      (c'.heap.mem c.heap.fresh).dirty = false := by
    simpa [CacheObj.data] using hnew
  have hne : ∀ q ∈ l, q ≠ c.heap.fresh := fun q hq => by
    rintro rfl
    exact h.shape.fresh_not_mem hq
  refine ⟨c', B', ?_, ⟨hshape, fun q hq => ?_, fun b hb => ?_⟩, hnew, hold, hdisk⟩
  · rw [h.shape.retrieve_hit ha, hrep]
    rfl
  · rcases List.mem_cons.mp hq with rfl | hq
    · -- The new node is clean, and has the slot of the old one.
      rw [Saved, hnewc, hnewd, hslots, hdisk]
      exact (h.node a ha).imp_right fun hs => ⟨hnewf, hs.2⟩
    · have hql := List.mem_of_mem_erase hq
      have hdata := hold q (hne q hql)
      obtain ⟨hc, hd, -⟩ := data_eq hdata
      rw [hc, hd, hslots]
      exact (h.node q hql).imp_right fun hs => hs.congr hdata (by rw [hdisk]) rfl
  · rw [hdisk]
    refine h.disk b fun q hq hqb => ?_
    -- A block that is not cached after the hit was not cached before it: the new node has the block
    -- of `a`.
    by_cases hqa : q = a
    · exact hb c.heap.fresh (by simp) (by rw [hnewd, ← hqa, hqb])
    · refine hb q (List.mem_cons_of_mem _ ((List.mem_erase_of_ne hqa).mpr hq)) ?_
      rw [(data_eq (hold q (hne q hq))).2.1, hqb]

/-- A copy to the slot of a node, where the other nodes in the slot are saved. -/
theorem copyToSlot (h : Kept c l B D) (hp : p ∈ l)
    (hslot : ∀ q ∈ l, q ≠ p → (c.heap.mem q).cacheAddr = (c.heap.mem p).cacheAddr → c.Saved D q)
    (buf : Block) :
    Kept (c.copyToSlot (c.heap.mem p).cacheAddr buf) l B
      (Function.update D (c.heap.mem p).diskAddr buf) := by
  have hshape : Shape (c.copyToSlot (c.heap.mem p).cacheAddr buf) l B :=
    h.shape.of_links (fun q => ⟨rfl, rfl, rfl, rfl⟩) rfl rfl rfl rfl rfl rfl
  refine ⟨hshape, fun q hq => ?_, fun b hb => ?_⟩
  · change Function.update c.slots _ buf (c.heap.mem q).cacheAddr =
      Function.update D _ buf (c.heap.mem q).diskAddr ∨ _
    by_cases hqp : q = p
    · rw [hqp, Function.update_self, Function.update_self]
      exact Or.inl rfl
    · have hD : Function.update D (c.heap.mem p).diskAddr buf (c.heap.mem q).diskAddr =
          D (c.heap.mem q).diskAddr :=
        Function.update_of_ne (fun heq => hqp (h.shape.members.inj q hq p hp heq)) _ _
      by_cases hqs : (c.heap.mem q).cacheAddr = (c.heap.mem p).cacheAddr
      · exact Or.inr ((hslot q hq hqp hqs).congr rfl rfl hD)
      · rw [Function.update_of_ne hqs, hD]
        exact (h.node q hq).imp_right fun hs => hs.congr rfl rfl hD
  · have hbp : b ≠ (c.heap.mem p).diskAddr := fun heq => hb p hp heq.symm
    rw [Function.update_of_ne hbp]
    exact h.disk b hb

/-- A node that has the data of its block in its slot may be made dirty. -/
theorem setDirty (h : Kept c l B D)
    (hp : c.slots (c.heap.mem p).cacheAddr = D (c.heap.mem p).diskAddr) :
    Kept (c.modify p fun n => { n with dirty := true }) l B D := by
  have hcore := modify_dirty_core c p
  set c₁ := c.modify p fun n => { n with dirty := true } with hc₁
  refine ⟨h.shape.setDirty p, fun q hq => ?_, fun b hb => h.disk b fun q hq => ?_⟩
  · rw [(hcore q).2.2.2.1, (hcore q).2.2.2.2]
    by_cases hqp : q = p
    · rw [hqp]
      exact Or.inl hp
    · have hmem : c₁.heap.mem q = c.heap.mem q := by simp [hc₁, modify, hqp]
      exact (h.node q hq).imp_right fun hs => hs.congr (by rw [hmem]) rfl rfl
  · rw [← (hcore q).2.2.2.1]
    exact hb q hq

/-! ## Misses -/

/-- What the insertion leaves of the blocks other than `b`. -/
theorem insert_other (h : Kept c l B D) (hb : ∀ a ∈ l, (c.heap.mem a).diskAddr ≠ b)
    (hok : c.InsertOk D b) (buf : Block) :
    ∃ c' l' B', (c.getBlockForCache.2.copyToSlot c.getBlockForCache.1 buf).insertBlockToCache b
        c.getBlockForCache.1 = some (some c.heap.fresh, c') ∧
      Shape c' (c.heap.fresh :: l') B' ∧
      (c'.heap.mem c.heap.fresh).data = (c.getBlockForCache.1, b, false) ∧
      c'.slots c.getBlockForCache.1 = buf ∧ c'.disk.block b = c.disk.block b ∧
      (∀ q ∈ l', q ∈ l ∧ (c'.heap.mem q).data = (c.heap.mem q).data ∧
        (c'.slots (c.heap.mem q).cacheAddr = D (c.heap.mem q).diskAddr ∨ c'.Saved D q)) ∧
      ∀ k, k ≠ b → (∀ a ∈ l', (c.heap.mem a).diskAddr ≠ k) → c'.disk.block k = D k := by
  obtain ⟨s, m, itr, hget, -⟩ := c.getBlockForCache_spec
  obtain ⟨hslot, hbucket, hvictim⟩ := hok
  rw [hget] at hslot ⊢
  dsimp only at hslot ⊢
  -- A node in the slot that is handed out is saved.
  have hsaved : ∀ q ∈ l, (c.heap.mem q).cacheAddr = s → c.Saved D q := fun q hq =>
    hslot _ q (h.shape.getCacheObj_some hq) (hb q hq)
  set c₁ : Cache := ({ c with cachemap := m, cacheBitItr := itr } : Cache).copyToSlot s buf with hc₁
  have hshape₁ : Shape c₁ l B :=
    h.shape.of_links (fun q => ⟨rfl, rfl, rfl, rfl⟩) rfl rfl rfl rfl rfl rfl
  have hinsert := hshape₁.insertBlockToCache hb (fun hfull z hz => by
    refine ⟨?_, hbucket z ⟨hfull, hz⟩⟩
    rcases hvictim z ⟨hfull, hz⟩ with ⟨hclean, -⟩ | ⟨-, hwrite⟩
    · exact fun hdirty => absurd (hclean.symm.trans hdirty) (by simp)
    · exact hwrite) s
  have hheap₁ : c₁.heap = c.heap := rfl
  have hdisk₁ : c₁.disk = c.disk := rfl
  have hsize₁ : c₁.cacheSize = c.cacheSize := rfl
  have hright₁ : c₁.cacheRight = c.cacheRight := rfl
  have hslots₁ : c₁.slots = Function.update c.slots s buf := rfl
  rw [hheap₁, hdisk₁, hsize₁, hright₁, hslots₁] at hinsert
  obtain ⟨c', l', B', hins, hshape, hnew, hold, hslots, -, hcase⟩ := hinsert
  have hdata : ∀ q ∈ l, (c'.heap.mem q).data = (c.heap.mem q).data := fun q hq =>
    hold q (by rintro rfl; exact h.shape.fresh_not_mem hq)
  -- What depends on whether a node was evicted.
  obtain ⟨hsub, hbelow, hleft⟩ : (∀ q ∈ l', q ∈ l) ∧
      (∀ k, k = b ∨ (∃ a ∈ l', (c.heap.mem a).diskAddr = k) → c'.disk.block k = c.disk.block k) ∧
      ∀ k, k ≠ b → (∀ a ∈ l', (c.heap.mem a).diskAddr ≠ k) → c'.disk.block k = D k := by
    rcases hcase with ⟨-, rfl, hdisk, -⟩ | ⟨z, hfull, hright, rfl, -, hblock⟩
    · rw [hdisk]
      exact ⟨fun q hq => hq, fun k _ => rfl, fun k _ hk => h.disk k hk⟩
    · have hz : z ∈ l' ++ [z] := by simp
      have hsub : ∀ q ∈ l', q ∈ l' ++ [z] := fun q hq => by simp [hq]
      have hne : ∀ q ∈ l', (c.heap.mem q).diskAddr ≠ (c.heap.mem z).diskAddr := fun q hq heq => by
        obtain rfl := h.shape.members.inj q (hsub q hq) z hz heq
        exact (List.nodup_append.mp h.shape.lru.nodup).2.2 q hq q (by simp) rfl
      have hother : ∀ k, k ≠ (c.heap.mem z).diskAddr → c'.disk.block k = c.disk.block k := by
        intro k hk
        rw [hblock]
        split
        · exact Function.update_of_ne hk _ _
        · rfl
      refine ⟨hsub, fun k hk => hother k ?_, fun k hkb hk => ?_⟩
      · rcases hk with rfl | ⟨q, hq, rfl⟩
        · exact (hb z hz).symm
        · exact hne q hq
      · by_cases hkz : k = (c.heap.mem z).diskAddr
        · subst hkz
          rcases hvictim z ⟨hfull, hright⟩ with hs | ⟨hdirty, -⟩
          · rw [hblock, if_neg (by rw [hs.1]; simp)]
            exact hs.2
          · -- A dirty victim is not in the slot that was overwritten, and has its data in its own.
            have hunsaved : ¬c.Saved D z := fun hs => absurd (hs.1.symm.trans hdirty) (by simp)
            have hzs : (c.heap.mem z).cacheAddr ≠ s := fun heq => hunsaved (hsaved z hz heq)
            rw [hblock, if_pos hdirty, Function.update_self, Function.update_of_ne hzs]
            exact (h.node z hz).resolve_right hunsaved
        · rw [hother k hkz]
          refine h.disk k fun q hq => ?_
          rcases List.mem_append.mp hq with hq | hq
          · exact hk q hq
          · rw [List.mem_singleton.mp hq]
            exact Ne.symm hkz
  refine ⟨c', l', B', hins, hshape, hnew, by rw [hslots, Function.update_self],
    hbelow b (Or.inl rfl), fun q hq => ⟨hsub q hq, hdata q (hsub q hq), ?_⟩, hleft⟩
  have hcongr : c.Saved D q → c'.Saved D q := fun hs =>
    hs.congr (hdata q (hsub q hq)) (hbelow _ (Or.inr ⟨q, hq, rfl⟩)) rfl
  by_cases hqs : (c.heap.mem q).cacheAddr = s
  · exact Or.inr (hcongr (hsaved q (hsub q hq) hqs))
  · rw [hslots, Function.update_of_ne hqs]
    exact (h.node q (hsub q hq)).imp_right hcongr

/-- A miss inserts the block with data `buf`. Afterwards the data `D'` is kept, which is `D` for the
other blocks, and for `b` what is in the new slot or on the disk. -/
theorem miss (h : Kept c l B D) (hb : ∀ a ∈ l, (c.heap.mem a).diskAddr ≠ b)
    (hok : c.InsertOk D b) (buf : Block) (hD : ∀ k, k ≠ b → D' k = D k)
    (hbuf : buf = D' b ∨ c.disk.block b = D' b) :
    ∃ c' l' B', (c.getBlockForCache.2.copyToSlot c.getBlockForCache.1 buf).insertBlockToCache b
        c.getBlockForCache.1 = some (some c.heap.fresh, c') ∧
      Kept c' (c.heap.fresh :: l') B' D' ∧ (c'.heap.mem c.heap.fresh).diskAddr = b ∧
      c'.slots (c'.heap.mem c.heap.fresh).cacheAddr = buf := by
  obtain ⟨c', l', B', hins, hshape, hnew, hslot, hblock, hold, hleft⟩ := h.insert_other hb hok buf
  obtain ⟨hnewc, hnewd, hnewf⟩ : (c'.heap.mem c.heap.fresh).cacheAddr = c.getBlockForCache.1 ∧
      (c'.heap.mem c.heap.fresh).diskAddr = b ∧ (c'.heap.mem c.heap.fresh).dirty = false := by
    simpa [CacheObj.data] using hnew
  refine ⟨c', l', B', hins, ⟨hshape, fun q hq => ?_, fun k hk => ?_⟩, hnewd, by rw [hnewc, hslot]⟩
  · rcases List.mem_cons.mp hq with rfl | hq
    · rw [Saved, hnewc, hnewd, hslot, hblock]
      exact hbuf.imp_right fun hdisk => ⟨hnewf, hdisk⟩
    · obtain ⟨hql, hdata, hkept⟩ := hold q hq
      obtain ⟨hc, hd, -⟩ := data_eq hdata
      have hDq := hD _ (hb q hql)
      rw [hc, hd, hDq]
      refine hkept.imp_right fun hs => hs.congr rfl rfl ?_
      rw [hd, hDq]
  · have hkb : k ≠ b := fun hkb => hk c.heap.fresh (by simp) (by rw [hnewd, hkb])
    rw [hD k hkb]
    refine hleft k hkb fun q hq hqk => ?_
    exact hk q (List.mem_cons_of_mem _ hq) (by rw [(data_eq (hold q hq).2.1).2.1, hqk])

/-! ## Steps and runs -/

/-- The invariant does not depend on the number of calls. -/
theorem afterCalls (h : Kept c l B D) (n : ℕ) : Kept (c.afterCalls n) l B D :=
  ⟨h.shape.of_links (fun _ => ⟨rfl, rfl, rfl, rfl⟩) rfl rfl rfl rfl rfl rfl, h.node, h.disk⟩

/-- `read_block_modified`, whatever `mmap` and `read_block` return. -/
theorem readBlockModified (h : Kept c l B D) {buf : Block} (hok : c.KeepOk D (.read b buf)) :
    ∃ r out c' l' B', c.readBlockModified b buf = some (r, out, c') ∧ Kept c' l' B' D := by
  obtain ⟨hhit, hmiss⟩ := hok
  by_cases hcached : ∃ a ∈ l, (c.heap.mem a).diskAddr = b
  · obtain ⟨a, ha, rfl⟩ := hcached
    obtain ⟨c', B', hret, h', -⟩ := h.hit ha (hhit ⟨a, h.shape.getCacheObj_some ha⟩)
    refine ⟨4096, c'.slots (c'.heap.mem c.heap.fresh).cacheAddr, c', _, B', ?_, h'⟩
    rw [Cache.readBlockModified, hret]
    rfl
  · push Not at hcached
    unfold Cache.readBlockModified
    rw [h.shape.retrieve_miss hcached]
    simp only [Option.bind_eq_bind, Option.bind_some, Option.pure_def, Disk.malloc4k]
    by_cases hmmap : c.disk.ok c.disk.calls = true
    · -- The page that is inserted is the block, or zeros when `read_block` failed.
      obtain ⟨r, page, hread⟩ : ∃ r page, Disk.readBlock { c.disk with calls := c.disk.calls + 1 } b
          Block.zero = (r, page, { c.disk with calls := c.disk.calls + 2 }) := by
        unfold Disk.readBlock
        split_ifs
        · exact ⟨_, _, rfl⟩
        · exact ⟨_, _, rfl⟩
      obtain ⟨c', l', B', hins, h', -⟩ := (h.afterCalls 2).miss hcached
        (hmiss (h.shape.not_cached hcached) hmmap) page (fun k _ => (rfl : D k = D k))
        (Or.inr (h.disk b hcached))
      refine ⟨u32 r, page, c', _, B', ?_, h'⟩
      rw [hmmap, if_neg (by simp), hread, if_neg (Nat.not_lt_zero _)]
      change Option.bind (((c.afterCalls 2).getBlockForCache.2.copyToSlot
          (c.afterCalls 2).getBlockForCache.1 page).insertBlockToCache b
            (c.afterCalls 2).getBlockForCache.1) (fun x => some (u32 r, page, x.2)) = _
      rw [hins]
      rfl
    · rw [Bool.not_eq_true] at hmmap
      rw [hmmap, if_pos rfl]
      exact ⟨_, _, _, l, B, rfl, h.afterCalls 1⟩

/-- `write_block_modified`. -/
theorem writeBlockModified (h : Kept c l B D) {buf : Block} (hok : c.KeepOk D (.write b buf)) :
    ∃ c' l' B', c.writeBlockModified b buf = some (0, c') ∧
      Kept c' l' B' (Function.update D b buf) := by
  obtain ⟨hhit, hslot, hmiss⟩ := hok
  by_cases hcached : ∃ a ∈ l, (c.heap.mem a).diskAddr = b
  · obtain ⟨a, ha, rfl⟩ := hcached
    have hget := h.shape.getCacheObj_some ha
    obtain ⟨c₁, B', hret, h₁, hnew, hold, hdisk⟩ := h.hit ha (hhit ⟨a, hget⟩)
    obtain ⟨hnewc, hnewd, -⟩ : (c₁.heap.mem c.heap.fresh).cacheAddr = (c.heap.mem a).cacheAddr ∧
        (c₁.heap.mem c.heap.fresh).diskAddr = (c.heap.mem a).diskAddr ∧
        (c₁.heap.mem c.heap.fresh).dirty = false := by
      simpa [CacheObj.data] using hnew
    -- The nodes that share the slot were saved before the hit, which keeps them.
    have h₂ := h₁.copyToSlot (p := c.heap.fresh) (by simp) (fun q hq hqp hqs => by
      have hqe := (List.mem_cons.mp hq).resolve_left hqp
      have hql := List.mem_of_mem_erase hqe
      have hqa : (c.heap.mem q).diskAddr ≠ (c.heap.mem a).diskAddr := fun heq => by
        obtain rfl := h.shape.members.inj q hql a ha heq
        exact h.shape.lru.nodup.not_mem_erase hqe
      rw [hnewc, (data_eq (hold q hqp)).1] at hqs
      exact (hslot a hget _ q (h.shape.getCacheObj_some hql) hqa hqs).congr (hold q hqp)
        (by rw [hdisk]) rfl) buf
    rw [hnewd] at h₂
    refine ⟨_, _, B', ?_, h₂.setDirty (p := c.heap.fresh) ?_⟩
    · unfold Cache.writeBlockModified
      rw [hret]
      rfl
    · change Function.update c₁.slots _ buf (c₁.heap.mem c.heap.fresh).cacheAddr =
        Function.update D _ buf (c₁.heap.mem c.heap.fresh).diskAddr
      rw [hnewd, Function.update_self, Function.update_self]
  · push Not at hcached
    obtain ⟨c₁, l', B', hins, h₁, hnewd, hnews⟩ := h.miss hcached
      (hmiss (h.shape.not_cached hcached)) buf
      (fun k hk => (Function.update_of_ne hk buf D : Function.update D b buf k = D k))
      (Or.inl (Function.update_self b buf D).symm)
    refine ⟨_, _, B', ?_, h₁.setDirty (p := c.heap.fresh) ?_⟩
    · unfold Cache.writeBlockModified
      rw [h.shape.retrieve_miss hcached]
      simp only [Option.bind_eq_bind, Option.bind_some, Option.pure_def]
      rw [hins]
      rfl
    · rw [hnews, hnewd, Function.update_self]

/-- A call that meets the condition returns and keeps the data that was written last. -/
theorem step (h : Kept c l B D) (hok : c.KeepOk D op) :
    ∃ r c' l' B', c.step op = some (r, c') ∧ Kept c' l' B' (op.apply D) := by
  cases op with
  | read b buf =>
    obtain ⟨r, out, c', l', B', hread, h'⟩ := h.readBlockModified hok
    refine ⟨(r, out), c', l', B', ?_, h'⟩
    rw [Cache.step, hread]
    rfl
  | write b buf =>
    obtain ⟨c', l', B', hwrite, h'⟩ := h.writeBlockModified hok
    refine ⟨(0, buf), c', l', B', ?_, h'⟩
    rw [Cache.step, hwrite]
    rfl

end Kept

/-! ## Runs that leave room -/

/-- The cache is not full, its nodes have slots of their own, and the block is alone in its
bucket. -/
structure RoomFor (c : Cache) (op : Op) : Prop where
  /-- Nothing is evicted. -/
  size : c.cacheSize < 2^15 - 1
  /-- The slots of the nodes and the one that is handed out next are different. -/
  slots : ∃ l, Chain c.heap.mem CacheObj.right c.cacheLeft l ∧
    (c.getBlockForCache.1 :: l.map fun a => (c.heap.mem a).cacheAddr).Nodup
  /-- The bucket. -/
  bucket : c.BucketOk op.block

/-- Such a call meets the condition. -/
theorem Shape.keepOk_of_room (h : Shape c l B) (hroom : c.RoomFor op) : c.KeepOk D op := by
  obtain ⟨hsize, ⟨l', hchain, hnodup⟩, hbucket⟩ := hroom
  obtain rfl := h.lru.right.unique hchain
  obtain ⟨hfree, hslots⟩ := List.nodup_cons.mp hnodup
  have hdue : ∀ z, ¬c.Due z := fun z hz => by
    have := hz.1
    omega
  have hins : ∀ n b, (c.afterCalls n).InsertOk D b := fun n b =>
    ⟨fun k p hp _ hslot => absurd (List.mem_map.mpr ⟨p, (h.mem_of_getCacheObj hp).1, hslot⟩) hfree,
      fun z hz => absurd hz (hdue z), fun z hz => absurd hz (hdue z)⟩
  cases op with
  | read b buf => exact ⟨fun _ => hbucket, fun _ _ => hins 2 b⟩
  | write b buf =>
    refine ⟨fun _ => hbucket, fun q hq k p hp hk hslot => ?_, fun _ => hins 0 b⟩
    -- A node in the slot of the block is the node of the block.
    obtain ⟨hql, rfl⟩ := h.mem_of_getCacheObj hq
    obtain ⟨hpl, rfl⟩ := h.mem_of_getCacheObj hp
    obtain rfl := List.inj_on_of_nodup_map hslots hpl hql hslot
    exact absurd rfl hk

/-- From the empty cache, a run in which there is always room meets it, whatever fails. -/
theorem keepOk_of_room {A : Allocator} {d : Disk} {slots : ℕ → Block} {pre post : List Op}
    {hist : List (Op × (ℤ × Block))}
    (hroom : Run.Along Cache.step RoomFor (empty A d slots) (pre ++ op :: post))
    (hrun : Run.run Cache.step (empty A d slots) pre = some (hist, c)) :
    c.KeepOk (latest d.block pre) op := by
  obtain ⟨l, B, h⟩ := Run.of_run (h := [])
    (fun c (hist : List (Op × (ℤ × Block))) =>
      ∃ l B, Kept c l B (latest d.block (hist.map Prod.fst)))
    (fun c hist op r c' ⟨l, B, h⟩ hroom hstep => by
      obtain ⟨r', c'', l', B', hstep', h'⟩ := h.step (h.shape.keepOk_of_room hroom)
      obtain ⟨-, rfl⟩ := Prod.mk.inj (Option.some.inj (hstep'.symm.trans hstep))
      exact ⟨l', B', by simpa [latest_concat] using h'⟩)
    ⟨[], _, Kept.of_empty A d slots⟩ hroom.left hrun
  exact h.shape.keepOk_of_room (hroom.right hrun).1

/-! ## Runs -/

/-- In a run whose calls meet the condition, whatever calls into the system fail, every state that
is reached keeps the last data written to each block. -/
theorem last_data_kept (A : Allocator) (d : Disk) (slots : ℕ → Block) (ops : List Op)
    (hok : ∀ pre op post hist c, ops = pre ++ op :: post →
      Run.run Cache.step (empty A d slots) pre = some (hist, c) →
      c.KeepOk (latest d.block pre) op) :
    ∀ pre, pre <+: ops → ∃ hist c, Run.run Cache.step (empty A d slots) pre = some (hist, c) ∧
      ∀ b, c.Keeps (latest d.block pre) b := by
  rintro pre ⟨rest, rfl⟩
  have hpre : ∀ pre' op post hist c, pre = pre' ++ op :: post →
      Run.run Cache.step (empty A d slots) pre' = some (hist, c) →
        c.KeepOk (latest d.block pre') op :=
    fun pre' op post hist c heq => hok pre' op (post ++ rest) hist c (by rw [heq]; simp)
  obtain ⟨hist, c, hrun, l, B, h⟩ := Run.run_of_history (h := [])
    (Q := fun hist c op => c.KeepOk (latest d.block (hist.map Prod.fst)) op)
    (fun c (hist : List (Op × (ℤ × Block))) =>
      ∃ l B, Kept c l B (latest d.block (hist.map Prod.fst)))
    (fun c hist op h hop => by
      obtain ⟨l, B, h⟩ := h
      obtain ⟨r, c', l', B', hstep, h'⟩ := h.step hop
      exact ⟨r, c', hstep, l', B', by simpa [latest_concat] using h'⟩)
    ⟨[], _, Kept.of_empty A d slots⟩ fun pre' op post hist c heq hr => by
      rw [List.nil_append, Run.map_fst_of_run hr]
      exact hpre pre' op post hist c heq hr
  refine ⟨hist, c, hrun, fun b => ?_⟩
  rw [List.nil_append, Run.map_fst_of_run hrun] at h
  exact h.keeps b

instance (c : Cache) (b : ℕ) : Decidable (c.BucketOk b) :=
  inferInstanceAs (Decidable (∀ p ∈ c.table (cacheHash b), _))

/-- A disk of zeros whose first call fails. -/
def firstFails : Disk := ⟨fun _ => Block.zero, fun n => n != 0, 0⟩

/-- A read that gets no page, and calls on two blocks. -/
def readAndWrite : List Op :=
  [.read 3 Block.zero, .write 5 fun _ => 1, .read 7 Block.zero, .write 5 fun _ => 2]

/-- The last data of these blocks is kept. -/
theorem last_data_kept_two :
    ∃ hist c, Run.run Cache.step (empty Allocator.bump firstFails fun _ => Block.zero)
        readAndWrite = some (hist, c) ∧
      ∀ b, c.Keeps (latest (fun _ => Block.zero) readAndWrite) b := by
  have hroom : Run.Along Cache.step RoomFor (empty Allocator.bump firstFails fun _ => Block.zero)
      readAndWrite :=
    .cons ⟨by decide, ⟨[], rfl, by decide⟩, by decide +kernel⟩ rfl
      (.cons ⟨by decide, ⟨[], rfl, by decide⟩, by decide +kernel⟩ rfl
        (.cons ⟨by decide, ⟨[0], ⟨rfl, rfl⟩, by decide⟩, by decide +kernel⟩ rfl
          (.cons ⟨by decide, ⟨[1, 0], ⟨rfl, rfl, rfl⟩, by decide⟩, by decide +kernel⟩ rfl
            trivial)))
  exact last_data_kept Allocator.bump firstFails (fun _ => Block.zero) readAndWrite
    (fun pre op post hist c heq hrun => keepOk_of_room (heq ▸ hroom) hrun) _ (List.prefix_refl _)

/-! ## Write-backs that fail -/

/-- When the write-back of the node that a write evicts fails, the data of the node is in no bucket,
and on the disk only if it was there before. -/
theorem Shape.write_lost (h : Shape c l B) (hb : ∀ a ∈ l, (c.heap.mem a).diskAddr ≠ b)
    (hz : c.Due z) (hok : c.BucketOk (c.heap.mem z).diskAddr) (hfail : ¬c.WriteBackOk z)
    (hD : c.disk.block (c.heap.mem z).diskAddr ≠ D (c.heap.mem z).diskAddr) (buf : Block) :
    ∃ c', c.writeBlockModified b buf = some (0, c') ∧ ¬c'.Keeps D (c.heap.mem z).diskAddr := by
  obtain ⟨l', rfl⟩ : ∃ l', l = l' ++ [z] := by
    have hlast := h.lru.left.head_eq
    rw [hz.2, List.head?_reverse] at hlast
    exact List.getLast?_eq_some_iff.mp hlast.symm
  have hzl : z ∈ l' ++ [z] := by simp
  obtain ⟨s, m, itr, hget, -⟩ := c.getBlockForCache_spec
  set c₁ : Cache := ({ c with cachemap := m, cacheBitItr := itr } : Cache).copyToSlot s buf with hc₁
  have h₁ : Shape c₁ (l' ++ [z]) B :=
    h.of_links (fun _ => ⟨rfl, rfl, rfl, rfl⟩) rfl rfl rfl rfl rfl rfl
  -- The new node is allocated, and the eviction fails to write.
  set f : CacheObj → CacheObj := fun n =>
    { n with diskAddr := b, cacheAddr := s, left := none, right := none }
  set p := c.heap.fresh with hp
  have hpl : p ∉ l' ++ [z] := h.fresh_not_mem
  have hp₂ : (c₁.allocNode f).heap.mem p = f CacheObj.zero := allocNode_mem_fresh c₁ f
  have hq₂ : ∀ q ∈ l' ++ [z], (c₁.allocNode f).heap.mem q = c.heap.mem q := fun q hq =>
    allocNode_mem_of_ne c₁ f (by rintro rfl; exact hpl hq)
  have hok₁ : c₁.BucketOk (c.heap.mem z).diskAddr := hok
  obtain ⟨c₃, l₃, B₃, hevict, h₃, hdisk₃, hdata₃, hsub₃, hB₃, hnext₃, hlive₃⟩ :=
    (h₁.allocNode f).evict_failed hz.1
      (fun hw => hfail fun hdirty => hw (by rwa [hq₂ z hzl]))
      (by rw [hq₂ z hzl]; exact h₁.bucketOk_allocNode f hok₁)
  have hlen : l₃.length < 2^15 := by
    have hle := (h₃.lru.nodup.subperm hsub₃).length_le
    have := h.length_le
    omega
  have haddr₃ : ∀ q ∈ l' ++ [z],
      (c₃.heap.mem q).diskAddr = (c.heap.mem q).diskAddr := fun q hq => by
    rw [(data_eq (hdata₃ q)).2.1, hq₂ q hq]
  have hpb : (c₃.heap.mem p).diskAddr = b := by rw [(data_eq (hdata₃ p)).2.1, hp₂]
  obtain ⟨c₄, hins, h₄, hrel⟩ := h₃.push (fun hmem => hpl (hsub₃ p hmem))
    (hlive₃ p List.mem_cons_self hpl) (by rw [hnext₃ p hpl, hp₂]; rfl) hpb
    (fun q hq => by
      have hql : q ∈ l' ++ [z] := by simp [hB₃ _ q hq]
      rw [haddr₃ q hql]
      exact hb q hql) (by omega)
  have hwrite := h₁.linked.insert_parts (h₁.not_mem_bucket hb) hevict hins
  set c₅ := c₄.modify p fun n => { n with dirty := true } with hc₅
  have h₅ := h₄.setDirty p
  refine ⟨c₅, ?_, ?_⟩
  · unfold Cache.writeBlockModified
    rw [h.retrieve_miss hb]
    simp only [Option.bind_eq_bind, Option.bind_some, Option.pure_def]
    rw [hget, show _ = some (some p, c₄) from hwrite]
    rfl
  · rintro (⟨q, -, hq, -⟩ | hdisk)
    · -- No node of the bucket has the block of the victim.
      refine absurd (hq.symm.trans (Cache.getCacheObj_none h₅.buckets fun q hq => ?_)) (by simp)
      rw [(modify_dirty_core c₄ p q).2.2.2.1, hrel.diskAddr]
      rcases Linked.insert_mem hq with hq | ⟨rfl, -⟩
      · have hql' := hB₃ _ q hq
        have hql : q ∈ l' ++ [z] := by simp [hql']
        rw [haddr₃ q hql]
        intro heq
        obtain rfl := h.members.inj q hql z hzl heq
        exact (List.nodup_append.mp h.lru.nodup).2.2 q hql' q (by simp) rfl
      · rw [hpb]
        exact (hb z hzl).symm
    · refine hD (Eq.trans ?_ hdisk)
      change _ = c₄.disk.block _
      rw [hrel.disk, hdisk₃]
      rfl

/-- A write that misses while the cache is not full adds a dirty node, and makes no call into the
system. -/
theorem Shape.write_fresh (h : Shape c l B) (hb : ∀ a ∈ l, (c.heap.mem a).diskAddr ≠ b)
    (hlen : l.length < 2^15 - 1) (buf : Block) :
    ∃ c' B', c.writeBlockModified b buf = some (0, c') ∧ Shape c' (c.heap.fresh :: l) B' ∧
      c'.disk = c.disk ∧ (c'.heap.mem c.heap.fresh).diskAddr = b ∧
      (c'.heap.mem c.heap.fresh).dirty = true ∧
      ∀ q ∈ l, (c'.heap.mem q).data = (c.heap.mem q).data := by
  obtain ⟨s, m, itr, hget, -⟩ := c.getBlockForCache_spec
  set c₁ : Cache := ({ c with cachemap := m, cacheBitItr := itr } : Cache).copyToSlot s buf with hc₁
  have h₁ : Shape c₁ l B := h.of_links (fun _ => ⟨rfl, rfl, rfl, rfl⟩) rfl rfl rfl rfl rfl rfl
  obtain ⟨c₂, B₂, hins, h₂, hnew, hold, -, hdisk, -⟩ := h₁.insert_fresh hb hlen s
  refine ⟨c₂.modify c.heap.fresh fun n => { n with dirty := true }, B₂, ?_,
    h₂.setDirty c.heap.fresh, hdisk, ?_, by simp [modify], fun q hq => ?_⟩
  · unfold Cache.writeBlockModified
    rw [h.retrieve_miss hb]
    simp only [Option.bind_eq_bind, Option.bind_some, Option.pure_def]
    rw [hget, show _ = some (some c.heap.fresh, c₂) from hins]
    rfl
  · rw [(modify_dirty_core c₂ _ _).2.2.2.1]
    exact congrArg (fun d => d.2.1) hnew
  · have hqp : q ≠ c.heap.fresh := by
      rintro rfl
      exact h.fresh_not_mem hq
    have hdata : (c₂.heap.mem q).data = (c.heap.mem q).data := hold q hqp
    rw [← hdata]
    simp [modify, hqp]

/-- The writes of ones to the first `n` blocks, from block 0 on. -/
def writes (n : ℕ) : List Op := (List.range n).map fun b => .write b fun _ => 1

theorem writes_succ (n : ℕ) : writes (n + 1) = writes n ++ [.write n fun _ => 1] := by
  rw [writes, List.range_succ, List.map_append]
  rfl

/-- The data that `writes n` leaves. -/
theorem latest_writes (D : ℕ → Block) {n : ℕ} (hb : b < n) :
    latest D (writes n) b = fun _ => 1 := by
  induction n with
  | zero => omega
  | succ n ih =>
    rw [writes_succ, latest_concat]
    by_cases hbn : b = n
    · rw [hbn]
      exact Function.update_self _ _ _
    · exact (Function.update_of_ne hbn _ _).trans (ih (by omega))

/-- `writes n` fills the cache with dirty nodes, the first block next to be evicted, without a call
into the system. -/
theorem run_writes (A : Allocator) (d : Disk) (slots : ℕ → Block) {n : ℕ} (hn : n ≤ 2^15 - 1) :
    ∃ hist c l B, Run.run Cache.step (empty A d slots) (writes n) = some (hist, c) ∧ Shape c l B ∧
      c.disk = d ∧ l.map (fun a => (c.heap.mem a).diskAddr) = (List.range n).reverse ∧
      ∀ a ∈ l, (c.heap.mem a).dirty = true := by
  induction n with
  | zero => exact ⟨[], _, [], _, rfl, shape_empty A d slots, rfl, rfl, by simp⟩
  | succ n ih =>
    obtain ⟨hist, c, l, B, hrun, h, hdisk, haddr, hdirty⟩ := ih (by omega)
    have hlen : l.length = n := by simpa using congrArg List.length haddr
    have hb : ∀ a ∈ l, (c.heap.mem a).diskAddr ≠ n := fun a ha han => by
      have hmem : (c.heap.mem a).diskAddr ∈ l.map fun a => (c.heap.mem a).diskAddr :=
        List.mem_map_of_mem ha
      rw [haddr, han] at hmem
      simp at hmem
    obtain ⟨c', B', hwrite, h', hdisk', hnewd, hnewf, hold⟩ :=
      h.write_fresh hb (by omega) fun _ => 1
    have hstep : c.step (.write n fun _ => 1) = some ((0, fun _ => 1), c') := by
      rw [Cache.step, hwrite]
      rfl
    refine ⟨hist ++ [(.write n fun _ => 1, (0, fun _ => 1))], c', c.heap.fresh :: l, B', ?_, h',
      hdisk'.trans hdisk, ?_, fun a ha => ?_⟩
    · rw [writes_succ]
      exact Run.run_append hrun (Run.run_cons hstep rfl)
    · rw [List.map_cons, hnewd, List.range_succ, List.reverse_append, ← haddr]
      exact congrArg _ (List.map_congr_left fun a ha => (data_eq (hold a ha)).2.1)
    · rcases List.mem_cons.mp ha with rfl | ha
      · exact hnewf
      · rw [(data_eq (hold a ha)).2.2]
        exact hdirty a ha

/-- A disk of zeros whose second call fails: the first `write_block`, after the `mmap` for its
buffer. -/
def failingDisk : Disk := ⟨fun _ => Block.zero, fun n => n != 1, 0⟩

/-- After a write to each of `CACHE_HTSIZE` blocks, the first block has been evicted, its write-back
has failed, and what was written to it is nowhere. -/
theorem last_data_lost :
    ∃ hist c, Run.run Cache.step (empty Allocator.bump failingDisk fun _ => Block.zero)
        (writes (2^15)) = some (hist, c) ∧
      ¬c.Keeps (latest failingDisk.block (writes (2^15))) 0 := by
  obtain ⟨hist, c, l, B, hrun, h, hdisk, haddr, hdirty⟩ :=
    run_writes Allocator.bump failingDisk (fun _ => Block.zero) (le_refl (2^15 - 1))
  have hmem : ∀ a ∈ l, (c.heap.mem a).diskAddr < 2^15 - 1 := fun a ha => by
    have hmem : (c.heap.mem a).diskAddr ∈ l.map fun a => (c.heap.mem a).diskAddr :=
      List.mem_map_of_mem ha
    rwa [haddr, List.mem_reverse, List.mem_range] at hmem
  -- The last node of the list is that of block 0.
  obtain ⟨z, hz, hz₀⟩ : ∃ z, l.getLast? = some z ∧ (c.heap.mem z).diskAddr = 0 := by
    have hlast := congrArg List.getLast? haddr
    rw [List.getLast?_map, List.getLast?_reverse, List.head?_range, if_neg (by norm_num)] at hlast
    exact Option.map_eq_some_iff.mp hlast
  have hzl : z ∈ l := List.mem_of_getLast? hz
  have hlen : l.length = 2^15 - 1 := by simpa using congrArg List.length haddr
  have hdue : c.Due z := by
    refine ⟨?_, ?_⟩
    · rw [h.lru.size, hlen]
    · rw [h.lru.left.head_eq, List.head?_reverse, hz]
  have hfail : ¬c.WriteBackOk z := fun hw => by
    have hok := (hw (hdirty z hzl)).2
    rw [hdisk] at hok
    exact absurd hok (by decide)
  have hbucket : c.BucketOk (c.heap.mem z).diskAddr := h.bucketOk_of_alone fun a ha heq => by
    have := hmem a ha
    have := hmem z hzl
    unfold cacheHash at heq
    omega
  have hlatest : latest failingDisk.block (writes (2^15)) 0 = fun _ => 1 :=
    latest_writes _ (by norm_num)
  obtain ⟨c', hwrite, hlost⟩ := h.write_lost (b := 2^15 - 1)
    (D := latest failingDisk.block (writes (2^15)))
    (fun a ha => by have := hmem a ha; omega) hdue hbucket hfail (by
      rw [hz₀, hdisk, hlatest]
      exact fun heq => absurd (congrFun heq 0) (by decide)) fun _ => 1
  rw [hz₀] at hlost
  have hstep : c.step (.write (2^15 - 1) fun _ => 1) = some ((0, fun _ => 1), c') := by
    rw [Cache.step, hwrite]
    rfl
  refine ⟨hist ++ [(.write (2^15 - 1) fun _ => 1, (0, fun _ => 1))], c', ?_, hlost⟩
  rw [show (2^15 : ℕ) = 2^15 - 1 + 1 by norm_num, writes_succ]
  exact Run.run_append hrun (Run.run_cons hstep rfl)

end GemOS.Objstore.Cache
