import GemOS.Objstore.Lru

/-!
# The buckets of the cache

`Buckets c B` says that bucket `v` of `cacheHashTable` is the chain of the nodes `B v`, each of them
with a block that hashes to `v`. The searches of the cache then find the first node of the block
(`search_some`, `search_none`), an insertion appends a node to its bucket
(`Buckets.insertBlockInCacheHashTable`), and a removal deletes the node from it
(`Buckets.removeBlockFromCacheHashTable`), or empties the bucket when the node is its head.
-/

namespace GemOS.Objstore

/-- A node without its bucket link. -/
def CacheObj.unchained (n : CacheObj) : CacheObj := { n with next := none }

namespace Cache

/-- The bucket `v` is the chain of the nodes `B v`. -/
structure Buckets (c : Cache) (B : ℕ → List ℕ) : Prop where
  /-- Following `next` from the head of a bucket. -/
  chain : ∀ v, Chain c.heap.mem CacheObj.next (c.table v) (B v)
  /-- The block of a node hashes to its bucket. -/
  hash : ∀ v, ∀ a ∈ B v, cacheHash (c.heap.mem a).diskAddr = v
  /-- No node is twice in a bucket. -/
  nodup : ∀ v, (B v).Nodup
  /-- A walk through a bucket does not run out of fuel. -/
  fuel : ∀ v, (B v).length < c.heap.fuel

/-- Between `c` and `c'` only the buckets changed. -/
structure BucketsOnly (c c' : Cache) : Prop where
  /-- The nodes, apart from their bucket link. -/
  unchained : ∀ q, (c'.heap.mem q).unchained = (c.heap.mem q).unchained
  /-- The live nodes. -/
  live : c'.heap.live = c.heap.live
  /-- The number of allocations. -/
  count : c'.heap.count = c.heap.count
  /-- The disk. -/
  disk : c'.disk = c.disk
  /-- The data area. -/
  slots : c'.slots = c.slots
  /-- The bitmap. -/
  cachemap : c'.cachemap = c.cachemap
  /-- The cursor of the bitmap. -/
  cacheBitItr : c'.cacheBitItr = c.cacheBitItr
  /-- The top of the LRU list. -/
  cacheLeft : c'.cacheLeft = c.cacheLeft
  /-- The end of the LRU list. -/
  cacheRight : c'.cacheRight = c.cacheRight
  /-- The length of the LRU list. -/
  cacheSize : c'.cacheSize = c.cacheSize

namespace BucketsOnly

variable {c c' : Cache}

theorem cacheAddr (h : BucketsOnly c c') (q : ℕ) :
    (c'.heap.mem q).cacheAddr = (c.heap.mem q).cacheAddr :=
  show (c'.heap.mem q).unchained.cacheAddr = (c.heap.mem q).unchained.cacheAddr by rw [h.unchained]

theorem diskAddr (h : BucketsOnly c c') (q : ℕ) :
    (c'.heap.mem q).diskAddr = (c.heap.mem q).diskAddr :=
  show (c'.heap.mem q).unchained.diskAddr = (c.heap.mem q).unchained.diskAddr by rw [h.unchained]

theorem dirty (h : BucketsOnly c c') (q : ℕ) : (c'.heap.mem q).dirty = (c.heap.mem q).dirty :=
  show (c'.heap.mem q).unchained.dirty = (c.heap.mem q).unchained.dirty by rw [h.unchained]

theorem left (h : BucketsOnly c c') (q : ℕ) : (c'.heap.mem q).left = (c.heap.mem q).left :=
  show (c'.heap.mem q).unchained.left = (c.heap.mem q).unchained.left by rw [h.unchained]

theorem right (h : BucketsOnly c c') (q : ℕ) : (c'.heap.mem q).right = (c.heap.mem q).right :=
  show (c'.heap.mem q).unchained.right = (c.heap.mem q).unchained.right by rw [h.unchained]

end BucketsOnly

variable {c c' : Cache} {B : ℕ → List ℕ} {l l₁ l₂ : List ℕ} {a b p v : ℕ}

/-- The LRU list does not depend on the buckets. -/
theorem Lru.of_bucketsOnly (h : Lru c l) (hc : BucketsOnly c c') : Lru c' l := by
  refine ⟨⟨?_, ?_, h.nodup⟩, by rw [hc.cacheSize, h.size]⟩
  · rw [hc.cacheLeft]
    exact h.right.congr fun q _ => hc.right q
  · rw [hc.cacheRight]
    exact h.left.congr fun q _ => hc.left q

/-- The buckets do not depend on the LRU list. -/
theorem Buckets.of_linksOnly (h : Buckets c B) (hc : LinksOnly c c')
    (hcount : c.heap.count ≤ c'.heap.count) : Buckets c' B := by
  refine ⟨fun v => ?_, fun v a ha => ?_, h.nodup, fun v => ?_⟩
  · rw [hc.table]
    exact (h.chain v).congr fun q _ => hc.next q
  · rw [hc.diskAddr, h.hash v a ha]
  · have := h.fuel v
    unfold Heap.fuel at *
    omega

/-! ## Searching -/

/-- A search for a block that its bucket does not have. -/
theorem search_none (h : Buckets c B) (hb : ∀ a ∈ B (cacheHash b), (c.heap.mem a).diskAddr ≠ b) :
    c.search b (fun n => n.diskAddr == b) =
      some ((B (cacheHash b)).getLast?.or (c.table (cacheHash b)), none) :=
  walk_none (fun a ha => by simpa using hb a ha) (h.chain _) (h.fuel _)

/-- A search for a block ends at its first node, with `par` at the node before it. -/
theorem search_some (h : Buckets c B) (hB : B (cacheHash b) = l₁ ++ a :: l₂)
    (ha : (c.heap.mem a).diskAddr = b) (h₁ : ∀ q ∈ l₁, (c.heap.mem q).diskAddr ≠ b) :
    c.search b (fun n => n.diskAddr == b) = some (l₁.getLast?.or (some a), some a) := by
  have hchain := h.chain (cacheHash b)
  have hfuel := h.fuel (cacheHash b)
  rw [hB] at hchain hfuel
  unfold search
  have hbefore : ∀ q ∈ l₁, (fun n : CacheObj => n.diskAddr == b) (c.heap.mem q) = false :=
    fun q hq => by simpa using h₁ q hq
  rw [walk_some hbefore (by simpa using ha) hchain hfuel]
  cases l₁ with
  | nil =>
    rw [hchain.head_eq]
    rfl
  | cons d l₁ =>
    rw [List.getLast?_cons]
    rfl

/-- A search to the end of the bucket of `b`. -/
theorem search_last (h : Buckets c B) (b : ℕ) :
    c.search b (fun _ => false) = some ((B (cacheHash b)).getLast?, none) := by
  have hchain := h.chain (cacheHash b)
  unfold search
  rw [walk_none (fun _ _ => rfl) hchain (h.fuel _)]
  cases hB : B (cacheHash b) with
  | nil =>
    rw [hB] at hchain
    rw [Chain.nil_iff.mp hchain]
    rfl
  | cons d l =>
    rw [List.getLast?_cons]
    rfl

/-- A block that its bucket does not have is not in the cache. -/
theorem checkDiskBlockInCache_false (h : Buckets c B)
    (hb : ∀ a ∈ B (cacheHash b), (c.heap.mem a).diskAddr ≠ b) :
    c.checkDiskBlockInCache b = some false := by
  unfold checkDiskBlockInCache
  rw [search_none h hb]
  rfl

theorem checkDiskBlockInCache_true (h : Buckets c B) (hB : B (cacheHash b) = l₁ ++ a :: l₂)
    (ha : (c.heap.mem a).diskAddr = b) (h₁ : ∀ q ∈ l₁, (c.heap.mem q).diskAddr ≠ b) :
    c.checkDiskBlockInCache b = some true := by
  unfold checkDiskBlockInCache
  rw [search_some h hB ha h₁]
  rfl

theorem getCacheObj_none (h : Buckets c B)
    (hb : ∀ a ∈ B (cacheHash b), (c.heap.mem a).diskAddr ≠ b) : c.getCacheObj b = some none := by
  unfold getCacheObj
  rw [search_none h hb]
  rfl

theorem getCacheObj_some (h : Buckets c B) (hB : B (cacheHash b) = l₁ ++ a :: l₂)
    (ha : (c.heap.mem a).diskAddr = b) (h₁ : ∀ q ∈ l₁, (c.heap.mem q).diskAddr ≠ b) :
    c.getCacheObj b = some (some a) := by
  unfold getCacheObj
  rw [search_some h hB ha h₁]
  rfl

/-! ## Changing a bucket -/

/-- The buckets after the list of one of them became `m`. -/
theorem Buckets.edit {m : List ℕ} (h : Buckets c B) (honly : BucketsOnly c c')
    (hchain : Chain c'.heap.mem CacheObj.next (c'.table v) m)
    (hother : ∀ w, w ≠ v → c'.table w = c.table w ∧
      ∀ q ∈ B w, (c'.heap.mem q).next = (c.heap.mem q).next)
    (hhash : ∀ q ∈ m, cacheHash (c.heap.mem q).diskAddr = v) (hnodup : m.Nodup)
    (hfuel : m.length < c.heap.fuel) : Buckets c' (Function.update B v m) := by
  have hcount : c'.heap.fuel = c.heap.fuel := by rw [Heap.fuel, honly.count, Heap.fuel]
  -- Each field is shown for the bucket `v` and for the others.
  refine ⟨(Function.forall_update_iff B
      fun w k => Chain c'.heap.mem CacheObj.next (c'.table w) k).mpr ⟨hchain, fun w hw => ?_⟩,
    (Function.forall_update_iff B
      fun w k => ∀ q ∈ k, cacheHash (c'.heap.mem q).diskAddr = w).mpr
      ⟨fun q hq => ?_, fun w _ q hq => ?_⟩,
    (Function.forall_update_iff B fun _ k => k.Nodup).mpr ⟨hnodup, fun w _ => h.nodup w⟩,
    (Function.forall_update_iff B fun _ k => k.length < c'.heap.fuel).mpr
      ⟨by rwa [hcount], fun w _ => by rw [hcount]; exact h.fuel w⟩⟩
  · obtain ⟨htable, hnext⟩ := hother w hw
    rw [htable]
    exact (h.chain w).congr hnext
  · rw [honly.diskAddr]
    exact hhash q hq
  · rw [honly.diskAddr]
    exact h.hash w q hq

/-- A store to the bucket link of a node. -/
theorem modify_next (c : Cache) (d q : ℕ) (x : Ptr) :
    ((c.modify d fun n => { n with next := x }).heap.mem q).next =
      if q = d then x else (c.heap.mem q).next := by
  split_ifs with hq
  · rw [hq]
    simp [modify]
  · simp [modify, hq]

theorem modify_next_bucketsOnly (c : Cache) (d : ℕ) (x : Ptr) :
    BucketsOnly c (c.modify d fun n => { n with next := x }) := by
  refine ⟨fun q => ?_, rfl, rfl, rfl, rfl, rfl, rfl, rfl, rfl, rfl⟩
  by_cases hq : q = d
  · rw [hq]
    simp [modify, CacheObj.unchained]
  · simp [modify, hq]

/-- A node of the bucket `v` gets a new link, with which the list of the bucket is `m`. -/
theorem Buckets.modify_next {d : ℕ} {x : Ptr} {m : List ℕ} (h : Buckets c B) (hd : d ∈ B v)
    (hchain : Chain (c.modify d fun n => { n with next := x }).heap.mem CacheObj.next (c.table v) m)
    (hhash : ∀ q ∈ m, cacheHash (c.heap.mem q).diskAddr = v) (hnodup : m.Nodup)
    (hfuel : m.length < c.heap.fuel) :
    Buckets (c.modify d fun n => { n with next := x }) (Function.update B v m) := by
  refine h.edit (modify_next_bucketsOnly c d x) hchain (fun w hw => ⟨rfl, fun q hq => ?_⟩) hhash
    hnodup hfuel
  -- The node is in no other bucket.
  have hqd : q ≠ d := by
    rintro rfl
    exact hw ((h.hash w q hq).symm.trans (h.hash v q hd))
  rw [Cache.modify_next, if_neg hqd]

/-- The head of the bucket `v` is set. -/
theorem Buckets.setHead {x : Ptr} {m : List ℕ} (h : Buckets c B)
    (hchain : Chain c.heap.mem CacheObj.next x m)
    (hhash : ∀ q ∈ m, cacheHash (c.heap.mem q).diskAddr = v) (hnodup : m.Nodup)
    (hfuel : m.length < c.heap.fuel) :
    BucketsOnly c { c with table := Function.update c.table v x } ∧
      Buckets { c with table := Function.update c.table v x } (Function.update B v m) := by
  have honly : BucketsOnly c { c with table := Function.update c.table v x } :=
    ⟨fun _ => rfl, rfl, rfl, rfl, rfl, rfl, rfl, rfl, rfl, rfl⟩
  refine ⟨honly, h.edit honly ?_ (fun w hw => ⟨Function.update_of_ne hw _ _, fun _ _ => rfl⟩)
    hhash hnodup hfuel⟩
  change Chain c.heap.mem CacheObj.next (Function.update c.table v x v) m
  rwa [Function.update_self]

/-! ## Inserting -/

/-- A node with no bucket link, in no bucket yet, goes to the end of the bucket of its block. -/
theorem Buckets.insertBlockInCacheHashTable (h : Buckets c B) (hp : ∀ v, p ∉ B v)
    (hnext : (c.heap.mem p).next = none)
    (hfuel : (B (cacheHash (c.heap.mem p).diskAddr)).length + 1 < c.heap.fuel) :
    ∃ c', c.insertBlockInCacheHashTable (c.heap.mem p).diskAddr p = some c' ∧ BucketsOnly c c' ∧
      Buckets c' (Function.update B (cacheHash (c.heap.mem p).diskAddr)
        (B (cacheHash (c.heap.mem p).diskAddr) ++ [p])) := by
  set v := cacheHash (c.heap.mem p).diskAddr with hv
  have hchain := h.chain v
  have hhash : ∀ q ∈ B v ++ [p], cacheHash (c.heap.mem q).diskAddr = v := by
    intro q hq
    rcases List.mem_append.mp hq with hq | hq
    · exact h.hash v q hq
    · rw [List.mem_singleton.mp hq]
  have hnodup : (B v ++ [p]).Nodup := (h.nodup v).append (by simp) (by simpa using hp v)
  have hlen : (B v ++ [p]).length < c.heap.fuel := by simpa using hfuel
  unfold Cache.insertBlockInCacheHashTable
  rw [search_last h, ← hv]
  rcases List.eq_nil_or_concat (B v) with hB | ⟨l, d, hB⟩
  · -- The bucket is empty: the node is its head.
    rw [hB] at hhash hnodup hlen ⊢
    obtain ⟨honly, hbuckets⟩ := h.setHead (v := v) (x := some p) (m := [p]) (by simp [hnext]) hhash
      hnodup hlen
    exact ⟨_, rfl, honly, hbuckets⟩
  · -- The last node `d` of the bucket gets the new node as its link.
    rw [List.concat_eq_append] at hB
    have hd : d ∈ B v := by simp [hB]
    have hpd : p ≠ d := by rintro rfl; exact hp v hd
    have hlast : (B v).getLast? = some d := by simp [hB]
    rw [hlast]
    refine ⟨_, rfl, modify_next_bucketsOnly c d (some p), h.modify_next hd ?_ hhash hnodup hlen⟩
    have hnd := h.nodup v
    rw [hB] at hchain hnd ⊢
    rw [List.append_assoc]
    refine hchain.append ?_ ?_ fun q hq => ?_
    · rw [Cache.modify_next, if_pos rfl]
    · rw [Cache.modify_next, if_neg hpd, hnext]
    · have hqd : q ≠ d := by
        rintro rfl
        exact (List.nodup_append.mp hnd).2.2 q hq q (by simp) rfl
      rw [Cache.modify_next, if_neg hqd]

/-! ## Removing -/

/-- What `remove_block_from_cache_hash_table` leaves of a bucket, when the node is behind `l₁` and
before `l₂`: a bucket whose head is removed is emptied. -/
def remaining (l₁ l₂ : List ℕ) : List ℕ := if l₁ = [] then [] else l₁ ++ l₂

theorem remaining_sublist (l₁ l₂ : List ℕ) (a : ℕ) : (remaining l₁ l₂).Sublist (l₁ ++ a :: l₂) := by
  unfold remaining
  split_ifs
  · exact List.nil_sublist _
  · exact (List.sublist_cons_self a l₂).append_left l₁

/-- A node that is not the head of a longer bucket leaves the other nodes. -/
theorem remaining_eq (h : l₁ = [] → l₂ = []) : remaining l₁ l₂ = l₁ ++ l₂ := by
  unfold remaining
  split_ifs with hl₁
  · rw [hl₁, h hl₁, List.append_nil]
  · rfl

/-- The first node `a` of the block of `p` leaves its bucket. -/
theorem Buckets.removeBlockFromCacheHashTable (h : Buckets c B)
    (hB : B (cacheHash (c.heap.mem p).diskAddr) = l₁ ++ a :: l₂)
    (ha : (c.heap.mem a).diskAddr = (c.heap.mem p).diskAddr)
    (h₁ : ∀ q ∈ l₁, (c.heap.mem q).diskAddr ≠ (c.heap.mem p).diskAddr) :
    ∃ c', c.removeBlockFromCacheHashTable p = some c' ∧ BucketsOnly c c' ∧
      (∀ q, q ∉ l₁ → (c'.heap.mem q).next = (c.heap.mem q).next) ∧
      Buckets c' (Function.update B (cacheHash (c.heap.mem p).diskAddr) (remaining l₁ l₂)) := by
  set v := cacheHash (c.heap.mem p).diskAddr with hv
  have hnd := h.nodup v
  have hchain := h.chain v
  have hfuel := h.fuel v
  rw [hB] at hnd hchain hfuel
  have hsub := remaining_sublist l₁ l₂ a
  have hnodup : (remaining l₁ l₂).Nodup := hnd.sublist hsub
  have hlen : (remaining l₁ l₂).length < c.heap.fuel := lt_of_le_of_lt hsub.length_le hfuel
  have hhash : ∀ q ∈ remaining l₁ l₂, cacheHash (c.heap.mem q).diskAddr = v :=
    fun q hq => h.hash v q (by rw [hB]; exact hsub.subset hq)
  unfold Cache.removeBlockFromCacheHashTable
  dsimp only
  rw [search_some h hB ha h₁, ← hv]
  rcases List.eq_nil_or_concat l₁ with rfl | ⟨l, d, rfl⟩
  · -- The node is the head: the bucket is emptied.
    have hnil : remaining [] l₂ = [] := if_pos rfl
    rw [hnil] at hnodup hlen hhash ⊢
    obtain ⟨honly, hbuckets⟩ := h.setHead (v := v) (x := none) (m := []) rfl hhash hnodup hlen
    exact ⟨_, if_pos rfl, honly, fun _ _ => rfl, hbuckets⟩
  · -- The node before it gets its link.
    rw [List.concat_eq_append] at *
    have happ : remaining (l ++ [d]) l₂ = l ++ [d] ++ l₂ := if_neg (by simp)
    rw [happ] at hnodup hlen hhash ⊢
    have hd : d ∈ B v := by simp [hB]
    have hda : d ≠ a := by
      rintro rfl
      exact (List.nodup_append.mp hnd).2.2 d (by simp) d (by simp) rfl
    have hlast : (l ++ [d]).getLast?.or (some a) = some d := by simp
    rw [hlast]
    refine ⟨c.modify d fun n => { n with next := (c.heap.mem a).next }, ?_,
      modify_next_bucketsOnly c d _, fun q hq => ?_, h.modify_next hd ?_ hhash hnodup hlen⟩
    · simp [hda]
    · have hqd : q ≠ d := by rintro rfl; simp at hq
      rw [Cache.modify_next, if_neg hqd]
    · have hunlink := hchain.unlink
        (c.modify d fun n => { n with next := (c.heap.mem a).next }).heap.mem hnd fun q _ => ?_
      · rwa [if_neg (by simp)] at hunlink
      · rw [Cache.modify_next]
        by_cases hq : q = d
        · simp [hq]
        · simp [hq, Ne.symm hq]

end Cache

end GemOS.Objstore
