import GemOS.Objstore.Buckets

/-!
# Linked nodes

`Linked c l B` is what holds of the pointers of the cache in every state, whether or not the buckets
lost nodes: the LRU list is `l`, the nodes of the buckets `B` are nodes of the list, and no bucket
has two nodes of one block. A new node goes to the top of the list and to the end of its bucket
(`Linked.push`), and a hit replaces a node (`Linked.replaceNode`).
-/

namespace GemOS.Objstore

/-- The data of a node: its slot, its block, and its dirty flag. -/
def CacheObj.data (n : CacheObj) : ℕ × ℕ × Bool := (n.cacheAddr, n.diskAddr, n.dirty)

namespace Cache

/-- The nodes of the buckets are nodes of the LRU list. -/
structure Linked (c : Cache) (l : List ℕ) (B : ℕ → List ℕ) : Prop where
  /-- The heap is well formed. -/
  wf : c.heap.Wf
  /-- The nodes are live. -/
  live : ∀ a ∈ l, a ∈ c.heap.live
  /-- The LRU list. -/
  lru : Lru c l
  /-- The buckets. -/
  buckets : Buckets c B
  /-- The nodes of the buckets are in the list. -/
  sub : ∀ v, ∀ a ∈ B v, a ∈ l
  /-- No bucket has two nodes of one block. -/
  inj : ∀ v, ∀ a ∈ B v, ∀ b ∈ B v, (c.heap.mem a).diskAddr = (c.heap.mem b).diskAddr → a = b

/-- Between `c` and `c'` only links between nodes changed. -/
structure Relinked (c c' : Cache) : Prop where
  /-- The data of the nodes. -/
  data : ∀ q, (c'.heap.mem q).data = (c.heap.mem q).data
  /-- The disk. -/
  disk : c'.disk = c.disk
  /-- The data area. -/
  slots : c'.slots = c.slots
  /-- The bitmap. -/
  cachemap : c'.cachemap = c.cachemap
  /-- The cursor of the bitmap. -/
  cacheBitItr : c'.cacheBitItr = c.cacheBitItr

theorem allocNode_mem_fresh (c : Cache) (f : CacheObj → CacheObj) :
    (c.allocNode f).heap.mem c.heap.fresh = f CacheObj.zero := by
  simp [allocNode, modify]

theorem allocNode_mem_of_ne (c : Cache) (f : CacheObj → CacheObj) {q : ℕ} (hq : q ≠ c.heap.fresh) :
    (c.allocNode f).heap.mem q = c.heap.mem q := by
  simp [allocNode, modify, hq]

variable {c c' c'' : Cache} {l l₁ l₂ : List ℕ} {B : ℕ → List ℕ} {a b p : ℕ}

theorem data_eq {n m : CacheObj} (h : n.data = m.data) :
    n.cacheAddr = m.cacheAddr ∧ n.diskAddr = m.diskAddr ∧ n.dirty = m.dirty := by
  simpa [CacheObj.data] using h

theorem Relinked.trans (h : Relinked c c') (h' : Relinked c' c'') : Relinked c c'' :=
  ⟨fun q => (h'.data q).trans (h.data q), h'.disk.trans h.disk, h'.slots.trans h.slots,
    h'.cachemap.trans h.cachemap, h'.cacheBitItr.trans h.cacheBitItr⟩

theorem LinksOnly.relinked (h : LinksOnly c c') : Relinked c c' :=
  ⟨fun q => by rw [CacheObj.data, h.cacheAddr, h.diskAddr, h.dirty]; rfl, h.disk, h.slots,
    h.cachemap, h.cacheBitItr⟩

theorem BucketsOnly.relinked (h : BucketsOnly c c') : Relinked c c' :=
  ⟨fun q => by rw [CacheObj.data, h.cacheAddr, h.diskAddr, h.dirty]; rfl, h.disk, h.slots,
    h.cachemap, h.cacheBitItr⟩

theorem Relinked.diskAddr (h : Relinked c c') (q : ℕ) :
    (c'.heap.mem q).diskAddr = (c.heap.mem q).diskAddr := (data_eq (h.data q)).2.1

/-- A list without duplicates loses exactly the erased element. -/
theorem erase_middle (h : (l₁ ++ a :: l₂).Nodup) : (l₁ ++ a :: l₂).erase a = l₁ ++ l₂ := by
  rw [List.nodup_middle, List.nodup_cons] at h
  rw [List.erase_append_right _ fun ha => h.1 (List.mem_append_left _ ha), List.erase_cons_head]

namespace Linked

/-- A bucket splits at any of its nodes, and no node before it has its block. -/
theorem bucket_split (h : Linked c l B) (ha : a ∈ B (cacheHash b))
    (hab : (c.heap.mem a).diskAddr = b) :
    ∃ l₁ l₂, B (cacheHash b) = l₁ ++ a :: l₂ ∧ ∀ q ∈ l₁, (c.heap.mem q).diskAddr ≠ b := by
  obtain ⟨l₁, l₂, hB⟩ := List.append_of_mem ha
  refine ⟨l₁, l₂, hB, fun q hq heq => ?_⟩
  obtain rfl := h.inj _ q (by rw [hB]; simp [hq]) a ha (heq.trans hab.symm)
  have hnd := h.buckets.nodup (cacheHash b)
  rw [hB] at hnd
  exact (List.nodup_append.mp hnd).2.2 q hq q (by simp) rfl

/-- The next node that is allocated is not in the list. -/
theorem fresh_not_mem (h : Linked c l B) : c.heap.fresh ∉ l :=
  fun ha => c.heap.fresh_not_mem (h.live _ ha)

/-- A node outside the list may be allocated. -/
theorem allocNode (h : Linked c l B) (f : CacheObj → CacheObj) : Linked (c.allocNode f) l B := by
  have hl : ∀ a ∈ l, (c.allocNode f).heap.mem a = c.heap.mem a := fun a ha =>
    allocNode_mem_of_ne c f (by rintro rfl; exact h.fresh_not_mem ha)
  have hB : ∀ v, ∀ a ∈ B v, (c.allocNode f).heap.mem a = c.heap.mem a :=
    fun v a ha => hl a (h.sub v a ha)
  refine ⟨(h.wf.alloc _).modify _ _, fun a ha => List.mem_cons_of_mem _ (h.live a ha),
    ⟨⟨?_, ?_, h.lru.nodup⟩, h.lru.size⟩,
    ⟨fun v => ?_, fun v a ha => ?_, h.buckets.nodup, fun v => ?_⟩,
    h.sub, fun v a ha b hb hab => ?_⟩
  · exact h.lru.right.congr fun q hq => by rw [hl q hq]
  · exact h.lru.left.congr fun q hq => by rw [hl q (List.mem_reverse.mp hq)]
  · exact (h.buckets.chain v).congr fun q hq => by rw [hB v q hq]
  · rw [hB v a ha, h.buckets.hash v a ha]
  · have := h.buckets.fuel v
    simp only [Heap.fuel, Cache.allocNode, modify, Heap.modify_count, Heap.alloc_count] at *
    omega
  · rw [hB v a ha, hB v b hb] at hab
    exact h.inj v a ha b hb hab

/-- Linked nodes depend on the links and the block numbers of the nodes only. -/
theorem of_links (h : Linked c l B)
    (hnode : ∀ q, (c'.heap.mem q).left = (c.heap.mem q).left ∧
      (c'.heap.mem q).right = (c.heap.mem q).right ∧ (c'.heap.mem q).next = (c.heap.mem q).next ∧
      (c'.heap.mem q).diskAddr = (c.heap.mem q).diskAddr)
    (hlive : c'.heap.live = c.heap.live) (hcount : c'.heap.count = c.heap.count)
    (htable : c'.table = c.table) (hleft : c'.cacheLeft = c.cacheLeft)
    (hright : c'.cacheRight = c.cacheRight) (hsize : c'.cacheSize = c.cacheSize) :
    Linked c' l B := by
  refine ⟨⟨?_, ?_⟩, ?_, ⟨⟨?_, ?_, h.lru.nodup⟩, ?_⟩, ⟨fun v => ?_, fun v a ha => ?_,
    h.buckets.nodup, fun v => ?_⟩, h.sub, fun v a ha b hb hab => ?_⟩
  · rw [hlive]
    exact h.wf.nodup
  · rw [hlive, hcount]
    exact h.wf.length_le
  · rw [hlive]
    exact h.live
  · rw [hleft]
    exact h.lru.right.congr fun q _ => (hnode q).2.1
  · rw [hright]
    exact h.lru.left.congr fun q _ => (hnode q).1
  · rw [hsize, h.lru.size]
  · rw [htable]
    exact (h.buckets.chain v).congr fun q _ => (hnode q).2.2.1
  · rw [(hnode a).2.2.2, h.buckets.hash v a ha]
  · have := h.buckets.fuel v
    rwa [Heap.fuel, hcount]
  · rw [(hnode a).2.2.2, (hnode b).2.2.2] at hab
    exact h.inj v a ha b hb hab

/-- The nodes of the buckets after a node was inserted. -/
theorem insert_mem {v w q : ℕ} (hq : q ∈ Function.update B v (B v ++ [p]) w) :
    q ∈ B w ∨ q = p ∧ w = v := by
  by_cases hw : w = v
  · subst hw
    rw [Function.update_self, List.mem_append, List.mem_singleton] at hq
    exact hq.imp_right fun h => ⟨h, rfl⟩
  · rw [Function.update_of_ne hw] at hq
    exact Or.inl hq

/-- The nodes of the buckets after a node left its bucket. -/
theorem remove_mem {v w q : ℕ} (hB : B v = l₁ ++ a :: l₂)
    (hq : q ∈ Function.update B v (remaining l₁ l₂) w) : q ∈ B w := by
  by_cases hw : w = v
  · subst hw
    rw [Function.update_self] at hq
    rw [hB]
    exact (remaining_sublist l₁ l₂ a).subset hq
  · rwa [Function.update_of_ne hw] at hq

/-- A node that is in no bucket goes to the top of the list and to the end of its bucket. -/
theorem push (h : Linked c l B) (hp : p ∉ l) (hlive : p ∈ c.heap.live)
    (hnext : (c.heap.mem p).next = none) (hb : (c.heap.mem p).diskAddr = b)
    (haddr : ∀ q ∈ B (cacheHash b), (c.heap.mem q).diskAddr ≠ b) (hlen : l.length + 1 < 2^32) :
    ∃ c', (c.addAtTopOfCache p).insertBlockInCacheHashTable b p = some c' ∧
      Linked c' (p :: l) (Function.update B (cacheHash b) (B (cacheHash b) ++ [p])) ∧
      Relinked c c' := by
  have hl := h.lru.addAtTopOfCache hp hlen
  have hlinks := addAtTopOfCache_linksOnly (h.lru.cacheLeft_ne hp)
  have hbuck := h.buckets.of_linksOnly hlinks (by simp)
  have hpB : ∀ v, p ∉ B v := fun v hv => hp (h.sub v p hv)
  have hb₁ : ((c.addAtTopOfCache p).heap.mem p).diskAddr = b := by rw [hlinks.diskAddr, hb]
  -- The bucket has fewer nodes than were allocated, since `p` is not in it.
  have hfuel : (B (cacheHash b)).length + 1 < (c.addAtTopOfCache p).heap.fuel := by
    have hnd : (p :: B (cacheHash b)).Nodup := List.nodup_cons.mpr ⟨hpB _, h.buckets.nodup _⟩
    have := h.wf.length_lt_fuel hnd fun q hq => by
      rcases List.mem_cons.mp hq with rfl | hq
      · exact hlive
      · exact h.live q (h.sub _ q hq)
    simpa [Heap.fuel] using this
  obtain ⟨c', hins, honly, hbuck'⟩ := hbuck.insertBlockInCacheHashTable hpB
    (by rw [hlinks.next, hnext]) (by rwa [hb₁])
  rw [hb₁] at hins hbuck'
  have hrel := hlinks.relinked.trans honly.relinked
  refine ⟨c', hins, ⟨⟨?_, ?_⟩, ?_, hl.of_bucketsOnly honly, hbuck', fun v q hq => ?_,
    fun v q hq r hr hqr => ?_⟩, hrel⟩
  · simpa [honly.live] using h.wf.nodup
  · simpa [honly.live, honly.count] using h.wf.length_le
  · intro q hq
    rw [honly.live, addAtTopOfCache_live]
    rcases List.mem_cons.mp hq with rfl | hq
    · exact hlive
    · exact h.live q hq
  · rcases insert_mem hq with hq | ⟨rfl, -⟩
    · exact List.mem_cons_of_mem _ (h.sub v q hq)
    · exact List.mem_cons_self
  · rw [hrel.diskAddr, hrel.diskAddr] at hqr
    rcases insert_mem hq with hq' | ⟨rfl, rfl⟩ <;> rcases insert_mem hr with hr' | ⟨rfl, hv⟩
    · exact h.inj v q hq' r hr' hqr
    · exact absurd (hqr.trans hb) (haddr q (hv ▸ hq'))
    · exact absurd (hqr.symm.trans hb) (haddr r hr')
    · rfl

/-- A node of a bucket is replaced by a new node for the same block and slot, which is clean, at the
top of the list and at the end of what remains of the bucket. -/
theorem replaceNode (h : Linked c l B) (hB : B (cacheHash b) = l₁ ++ a :: l₂)
    (hab : (c.heap.mem a).diskAddr = b) (h₁ : ∀ q ∈ l₁, (c.heap.mem q).diskAddr ≠ b)
    (hlen : l.length < 2^32) :
    ∃ c', c.replaceNode b a = some (c.heap.fresh, c') ∧
      Linked c' (c.heap.fresh :: l.erase a)
        (Function.update B (cacheHash b) (remaining l₁ l₂ ++ [c.heap.fresh])) ∧
      (c'.heap.mem c.heap.fresh).data = ((c.heap.mem a).cacheAddr, b, false) ∧
      (∀ q, q ≠ c.heap.fresh → (c'.heap.mem q).data = (c.heap.mem q).data) ∧
      c'.disk = c.disk ∧ c'.slots = c.slots ∧ c'.cachemap = c.cachemap := by
  set f : CacheObj → CacheObj := fun n =>
    { n with left := none, right := none, diskAddr := b, cacheAddr := (c.heap.mem a).cacheAddr }
    with hf
  set p := c.heap.fresh with hp
  -- The new node `p` is allocated.
  have hA := h.allocNode f
  have haB : a ∈ B (cacheHash b) := by rw [hB]; simp
  have ha : a ∈ l := h.sub _ a haB
  have hpl : p ∉ l := h.fresh_not_mem
  have hpB : ∀ v, p ∉ B v := fun v hv => hpl (h.sub v p hv)
  have hp₁ : (c.allocNode f).heap.mem p = f CacheObj.zero := allocNode_mem_fresh c f
  have hq₁ : ∀ q, q ≠ p → (c.allocNode f).heap.mem q = c.heap.mem q :=
    fun q hq => allocNode_mem_of_ne c f hq
  have hne : ∀ q ∈ l, q ≠ p := fun q hq => by rintro rfl; exact hpl hq
  -- The old node leaves the list, the new one enters it.
  obtain ⟨k₁, k₂, hl⟩ := List.append_of_mem ha
  have hnd := h.lru.nodup
  have herase : l.erase a = k₁ ++ k₂ := by rw [hl] at hnd ⊢; exact erase_middle hnd
  have hl₁ := hA.lru
  rw [hl] at hl₁ hlen
  have hl₂ := hl₁.takeOut hlen
  have hpl₂ : p ∉ k₁ ++ k₂ := by rw [← herase]; exact fun hmem => hpl (List.mem_of_mem_erase hmem)
  have hl₃ := hl₂.addAtTopOfCache hpl₂ (by simp at hlen ⊢; omega)
  have hlinks₂ := takeOut_linksOnly hl₁.left_ne
  have hlinks₃ := addAtTopOfCache_linksOnly (hl₂.cacheLeft_ne hpl₂)
  have hb₃ := (hA.buckets.of_linksOnly hlinks₂ (by simp)).of_linksOnly hlinks₃ (by simp)
  set c₃ := ((c.allocNode f).takeOut a).addAtTopOfCache p with hc₃
  have hlive₃ : c₃.heap.live = (p :: c.heap.live).erase a := by
    rw [hc₃, addAtTopOfCache_live, takeOut_live]
    rfl
  have hcount₃ : c₃.heap.count = c.heap.count + 1 := by
    rw [hc₃, addAtTopOfCache_count, takeOut_count]
    rfl
  have hrel₃ := hlinks₂.relinked.trans hlinks₃.relinked
  -- The old node leaves the bucket.
  have hpb : (c₃.heap.mem p).diskAddr = b := by rw [hrel₃.diskAddr, hp₁]
  obtain ⟨c₄, hrem, honly₄, hnext₄, hb₄⟩ := hb₃.removeBlockFromCacheHashTable (p := p)
    (by rw [hpb]; exact hB) (by rw [hrel₃.diskAddr, hq₁ a (hne a ha), hpb, hab])
    (fun q hq => by
      rw [hrel₃.diskAddr, hq₁ q (hne q (h.sub _ q (by rw [hB]; simp [hq]))), hpb]
      exact h₁ q hq)
  rw [hpb] at hb₄
  -- The new node enters the bucket.
  have hpb₄ : (c₄.heap.mem p).diskAddr = b := by rw [honly₄.diskAddr, hpb]
  have hnext_p : (c₄.heap.mem p).next = none := by
    rw [hnext₄ p fun hq => hpB _ (by rw [hB]; simp [hq]), hlinks₃.next, hlinks₂.next, hp₁]
    rfl
  have hfuel := h.buckets.fuel (cacheHash b)
  obtain ⟨c₅, hins, honly₅, hb₅⟩ := hb₄.insertBlockInCacheHashTable
    (fun v hv => hpB v (remove_mem hB hv)) hnext_p (by
      have hsub := (remaining_sublist l₁ l₂ a).length_le
      rw [← hB] at hsub
      rw [hpb₄, Function.update_self]
      simp only [Heap.fuel, honly₄.count, hcount₃] at *
      omega)
  rw [hpb₄, Function.update_self, Function.update_idem] at hb₅
  have hrel : Relinked (c.allocNode f) c₅ := (hrel₃.trans honly₄.relinked).trans honly₅.relinked
  have hlive₅ : c₅.heap.live = (p :: c.heap.live).erase a := by
    rw [honly₅.live, honly₄.live, hlive₃]
  -- A node of the new buckets is the new one, or an old one that is not `a`.
  have hbucket : ∀ v, ∀ q ∈ Function.update B (cacheHash b) (remaining l₁ l₂ ++ [p]) v,
      q = p ∧ v = cacheHash b ∨ q ∈ B v ∧ q ≠ a := by
    intro v q hq
    by_cases hv : v = cacheHash b
    · subst hv
      rw [Function.update_self, List.mem_append, List.mem_singleton] at hq
      rcases hq with hq | rfl
      · have hmem : q ∈ l₁ ++ l₂ := by
          unfold remaining at hq
          split_ifs at hq
          · exact absurd hq (by simp)
          · exact hq
        have hBnd := h.buckets.nodup (cacheHash b)
        rw [hB, List.nodup_middle, List.nodup_cons] at hBnd
        refine Or.inr ⟨?_, fun hqa => hBnd.1 (hqa ▸ hmem)⟩
        rw [hB]
        exact (remaining_sublist l₁ l₂ a).subset hq
      · exact Or.inl ⟨rfl, rfl⟩
    · rw [Function.update_of_ne hv] at hq
      refine Or.inr ⟨hq, ?_⟩
      rintro rfl
      exact hv (by rw [← h.buckets.hash v q hq, hab])
  refine ⟨c₅, ?_, ⟨⟨?_, ?_⟩, ?_, ?_, hb₅, fun v q hq => ?_, fun v q hq r hr hqr => ?_⟩, ?_, ?_,
    hrel.disk, hrel.slots, hrel.cachemap⟩
  · unfold Cache.replaceNode removeObjectFromCacheDontWriteBack
    dsimp only
    rw [← hf, ← hp, ← hc₃, hrem]
    simp only [Option.bind_eq_bind, Option.bind_some, Option.pure_def]
    rw [hins]
    rfl
  · rw [hlive₅]
    exact (List.nodup_cons.mpr ⟨c.heap.fresh_not_mem, h.wf.nodup⟩).erase a
  · rw [hlive₅, honly₅.count, honly₄.count, hcount₃]
    have := h.wf.length_le
    have := List.length_erase_le (a := a) (l := p :: c.heap.live)
    simp only [List.length_cons] at this
    omega
  · intro q hq
    rw [hlive₅]
    rcases List.mem_cons.mp hq with rfl | hq
    · exact (List.mem_erase_of_ne (hne a ha).symm).mpr (by simp)
    · have hqa : q ≠ a := by rintro rfl; exact hnd.not_mem_erase hq
      have hql := List.mem_of_mem_erase hq
      exact (List.mem_erase_of_ne hqa).mpr (List.mem_cons_of_mem _ (h.live q hql))
  · rw [herase]
    exact (hl₃.of_bucketsOnly honly₄).of_bucketsOnly honly₅
  · rcases hbucket v q hq with ⟨rfl, -⟩ | ⟨hqB, hqa⟩
    · exact List.mem_cons_self
    · exact List.mem_cons_of_mem _ ((List.mem_erase_of_ne hqa).mpr (h.sub v q hqB))
  · rw [hrel.diskAddr, hrel.diskAddr] at hqr
    have hold : ∀ q ∈ B v, (c.allocNode f).heap.mem q = c.heap.mem q := fun q hq =>
      hq₁ q (hne q (h.sub v q hq))
    -- No other node of the bucket has the block of the new one.
    have hother : ∀ q ∈ B v, q ≠ a → v = cacheHash b → (c.heap.mem q).diskAddr ≠ b :=
      fun q hq hqa hv hqb => hqa (h.inj _ q (hv ▸ hq) a haB (hqb.trans hab.symm))
    rcases hbucket v q hq with ⟨rfl, hv⟩ | ⟨hqB, hqa⟩ <;>
      rcases hbucket v r hr with ⟨rfl, hv'⟩ | ⟨hrB, hra⟩
    · rfl
    · rw [hp₁, hold r hrB] at hqr
      exact absurd hqr.symm (hother r hrB hra hv)
    · rw [hp₁, hold q hqB] at hqr
      exact absurd hqr (hother q hqB hqa hv')
    · rw [hold q hqB, hold r hrB] at hqr
      exact h.inj v q hqB r hrB hqr
  · rw [hrel.data, hp₁]
    rfl
  · intro q hq
    rw [hrel.data, hq₁ q hq]

/-! ## The calls -/

/-- A search for a block always ends. -/
theorem getCacheObj_cases (h : Linked c l B) (b : ℕ) :
    (∃ l₁ a l₂, B (cacheHash b) = l₁ ++ a :: l₂ ∧ (c.heap.mem a).diskAddr = b ∧
      (∀ q ∈ l₁, (c.heap.mem q).diskAddr ≠ b) ∧ c.getCacheObj b = some (some a)) ∨
      (∀ a ∈ B (cacheHash b), (c.heap.mem a).diskAddr ≠ b) ∧ c.getCacheObj b = some none := by
  by_cases hb : ∃ a ∈ B (cacheHash b), (c.heap.mem a).diskAddr = b
  · obtain ⟨a, ha, hab⟩ := hb
    obtain ⟨l₁, l₂, hB, h₁⟩ := h.bucket_split ha hab
    exact Or.inl ⟨l₁, a, l₂, hB, hab, h₁, Cache.getCacheObj_some h.buckets hB hab h₁⟩
  · push Not at hb
    exact Or.inr ⟨hb, Cache.getCacheObj_none h.buckets hb⟩

/-- `retrieve_block_from_cache` finds the node of a block and replaces it. -/
theorem retrieve_hit (h : Linked c l B) (hB : B (cacheHash b) = l₁ ++ a :: l₂)
    (hab : (c.heap.mem a).diskAddr = b) (h₁ : ∀ q ∈ l₁, (c.heap.mem q).diskAddr ≠ b) :
    c.retrieveBlockFromCache b = (c.replaceNode b a).map fun r => (some r.1, r.2) := by
  unfold retrieveBlockFromCache
  rw [checkDiskBlockInCache_true h.buckets hB hab h₁, search_some h.buckets hB hab h₁]
  simp only [Option.bind_eq_bind, Option.bind_some, if_true, Option.pure_def]
  cases c.replaceNode b a <;> rfl

/-- `retrieve_block_from_cache` changes nothing for a block that its bucket does not have. -/
theorem retrieve_miss (h : Linked c l B) (hb : ∀ a ∈ B (cacheHash b), (c.heap.mem a).diskAddr ≠ b) :
    c.retrieveBlockFromCache b = some (none, c) := by
  unfold retrieveBlockFromCache
  rw [checkDiskBlockInCache_false h.buckets hb]
  rfl

/-- `insert_block_to_cache` of a block that its bucket does not have, in its parts: the new node is
allocated, `c₁` is what the eviction leaves, and the new node is linked. -/
theorem insert_parts {c₁ c₂ : Cache} {s : ℕ} (h : Linked c l B)
    (hb : ∀ a ∈ B (cacheHash b), (c.heap.mem a).diskAddr ≠ b)
    (hevict : (c.allocNode fun n =>
      { n with diskAddr := b, cacheAddr := s, left := none, right := none }).evict = some c₁)
    (hins : (c₁.addAtTopOfCache c.heap.fresh).insertBlockInCacheHashTable b c.heap.fresh =
      some c₂) :
    c.insertBlockToCache b s = some (some c.heap.fresh, c₂) := by
  unfold Cache.insertBlockToCache
  rw [checkDiskBlockInCache_false h.buckets hb]
  simp only [Option.bind_eq_bind, Option.bind_some, Bool.false_eq_true, if_false, Option.pure_def]
  rw [hevict, Option.bind_some, hins]
  rfl

/-- `insert_block_to_cache` of a block that its bucket does not have, when no node is evicted. -/
theorem insertBlockToCache (h : Linked c l B)
    (hb : ∀ a ∈ B (cacheHash b), (c.heap.mem a).diskAddr ≠ b) (hlen : l.length < 2^15 - 1) (s : ℕ) :
    ∃ c', c.insertBlockToCache b s = some (some c.heap.fresh, c') ∧
      Linked c' (c.heap.fresh :: l)
        (Function.update B (cacheHash b) (B (cacheHash b) ++ [c.heap.fresh])) ∧
      (c'.heap.mem c.heap.fresh).data = (s, b, false) ∧
      (∀ q, q ≠ c.heap.fresh → (c'.heap.mem q).data = (c.heap.mem q).data) ∧
      c'.slots = c.slots ∧ c'.disk = c.disk ∧ c'.cachemap = c.cachemap := by
  set f : CacheObj → CacheObj := fun n =>
    { n with diskAddr := b, cacheAddr := s, left := none, right := none } with hf
  set p := c.heap.fresh with hp
  have hp₁ : (c.allocNode f).heap.mem p = f CacheObj.zero := allocNode_mem_fresh c f
  have hq₁ : ∀ q, q ≠ p → (c.allocNode f).heap.mem q = c.heap.mem q :=
    fun q hq => allocNode_mem_of_ne c f hq
  have hpl : p ∉ l := h.fresh_not_mem
  obtain ⟨c', hins, h', hrel⟩ := (h.allocNode f).push hpl List.mem_cons_self (by rw [hp₁]; rfl)
    (by rw [hp₁]) (fun q hq => by
      rw [hq₁ q (by rintro rfl; exact hpl (h.sub _ _ hq))]
      exact hb q hq) (by omega)
  have hevict : (c.allocNode f).evict = some (c.allocNode f) := by
    have hsize : (c.allocNode f).cacheSize = l.length := h.lru.size
    exact if_neg (by rw [hsize]; omega)
  refine ⟨c', h.insert_parts hb hevict hins, h', ?_, fun q hq => ?_, hrel.slots, hrel.disk,
    hrel.cachemap⟩
  · rw [hrel.data, hp₁]
    rfl
  · rw [hrel.data, hq₁ q hq]

end Linked

end Cache

end GemOS.Objstore
