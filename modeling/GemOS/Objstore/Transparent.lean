import GemOS.Lib.Run
import GemOS.Objstore.CacheShape

/-!
# The cache against a plain disk

`view c b` is the content of the block `b` as the cache and the disk behind it hold it together. The
invariant `Inv` adds to the pointer structure that no two cached blocks share a slot and that the
bitmap knows the slots in use. Under the conditions that the code does not check (`Shape`'s
`BucketOk` on a hit, `MissOk` on a miss), a read returns `view` and leaves it, and a write updates
it at its block, so that the cache runs as the plain disk `content`.
-/

namespace GemOS.Objstore.Cache

/-- The content of a block: its slot when it is cached, else the disk. -/
def view (c : Cache) (b : ℕ) : Block :=
  match c.getCacheObj b with
  | some (some p) => c.slots (c.heap.mem p).cacheAddr
  | _ => c.disk.block b

/-- The slots of the nodes `l`. Slot 0 is what `get_block_for_cache` returns when it has no slot
left, and slot 1 is never handed out. -/
structure Slots (c : Cache) (l : List ℕ) : Prop where
  /-- No two nodes share a slot. -/
  inj : ∀ a ∈ l, ∀ b ∈ l, (c.heap.mem a).cacheAddr = (c.heap.mem b).cacheAddr → a = b
  /-- The bitmap has the slots in use. -/
  used : ∀ s, 2 ≤ s → s < 2^15 →
    (c.cachemap.bit s = true ↔ ∃ a ∈ l, (c.heap.mem a).cacheAddr = s)
  /-- The slots are those of the bitmap. -/
  range : ∀ a ∈ l, (c.heap.mem a).cacheAddr = 0 ∨
    2 ≤ (c.heap.mem a).cacheAddr ∧ (c.heap.mem a).cacheAddr < 2^15

/-- The invariant of the cache over a disk that never fails. -/
structure Inv (c : Cache) (l : List ℕ) (B : ℕ → List ℕ) : Prop where
  /-- The pointers. -/
  shape : Shape c l B
  /-- The slots. -/
  slots : Slots c l
  /-- The disk. -/
  disk : c.disk.AllOk

/-- The block `b` is cached. -/
def Cached (c : Cache) (b : ℕ) : Prop := ∃ p, c.getCacheObj b = some (some p)

/-- The node `z` is evicted by the next insertion. -/
def Due (c : Cache) (z : ℕ) : Prop := 2^15 - 1 ≤ c.cacheSize ∧ c.cacheRight = some z

/-- What a miss needs, and the code does not check. -/
structure MissOk (c : Cache) : Prop where
  /-- The slot that `get_block_for_cache` hands out is free. It may only be the slot of a node that
  is evicted next and has nothing to write back. -/
  slot : ∀ b p, c.getCacheObj b = some (some p) → (c.heap.mem p).cacheAddr = c.getBlockForCache.1 →
    c.Due p ∧ (c.heap.mem p).dirty = false
  /-- The node that is evicted does not head a longer bucket. -/
  bucket : ∀ z, c.Due z → c.BucketOk (c.heap.mem z).diskAddr

/-- What an access to the block `b` needs, and the code does not check. -/
def AccessOk (c : Cache) (b : ℕ) : Prop :=
  (c.Cached b → c.BucketOk b) ∧ (¬c.Cached b → c.MissOk)

/-- The data of the node `a` is to be written back, or the disk has it. -/
def Synced (c : Cache) (a : ℕ) : Prop :=
  (c.heap.mem a).dirty = true ∨
    c.slots (c.heap.mem a).cacheAddr = c.disk.block (c.heap.mem a).diskAddr

variable {c c' : Cache} {l : List ℕ} {B : ℕ → List ℕ} {a b p s : ℕ}

theorem Shape.view_of_mem (h : Shape c l B) (ha : a ∈ l) :
    c.view (c.heap.mem a).diskAddr = c.slots (c.heap.mem a).cacheAddr := by
  rw [view, h.getCacheObj_some ha]

theorem Shape.view_of_not_mem (h : Shape c l B) (hb : ∀ a ∈ l, (c.heap.mem a).diskAddr ≠ b) :
    c.view b = c.disk.block b := by
  rw [view, h.getCacheObj_none hb]

/-- The view is what the nodes and the disk say. -/
theorem Shape.view_eq (h : Shape c l B) {F : ℕ → Block}
    (hmem : ∀ a ∈ l, c.slots (c.heap.mem a).cacheAddr = F (c.heap.mem a).diskAddr)
    (hdisk : ∀ b, (∀ a ∈ l, (c.heap.mem a).diskAddr ≠ b) → c.disk.block b = F b) : c.view = F := by
  funext b
  by_cases hb : ∃ a ∈ l, (c.heap.mem a).diskAddr = b
  · obtain ⟨a, ha, rfl⟩ := hb
    rw [h.view_of_mem ha, hmem a ha]
  · push Not at hb
    rw [h.view_of_not_mem hb, hdisk b hb]

theorem Shape.cached_iff (h : Shape c l B) :
    c.Cached b ↔ ∃ a ∈ l, (c.heap.mem a).diskAddr = b := by
  constructor
  · rintro ⟨p, hp⟩
    exact ⟨p, h.mem_of_getCacheObj hp⟩
  · rintro ⟨a, ha, rfl⟩
    exact ⟨a, h.getCacheObj_some ha⟩

theorem Shape.not_cached (h : Shape c l B) (hb : ∀ a ∈ l, (c.heap.mem a).diskAddr ≠ b) :
    ¬c.Cached b := by
  intro hc
  obtain ⟨a, ha, hab⟩ := h.cached_iff.mp hc
  exact hb a ha hab

/-- The node to evict is the last one of the list. -/
theorem Shape.mem_of_due (h : Shape c l B) (hp : c.Due p) : p ∈ l := by
  have := h.lru.left.head_eq
  rw [hp.2] at this
  exact List.mem_reverse.mp (List.mem_of_head? this.symm)

/-- The empty cache has no nodes. -/
theorem shape_empty (A : Allocator) (d : Disk) (slots : ℕ → Block) :
    Shape (empty A d slots) [] (fun _ => []) :=
  ⟨Heap.wf_empty A _, by simp, ⟨⟨rfl, rfl, List.nodup_nil⟩, rfl⟩,
    ⟨fun _ => rfl, by simp, fun _ => List.nodup_nil, fun _ => Nat.succ_pos _⟩, ⟨by simp, by simp⟩,
    by simp⟩

/-- The empty cache shows the disk. -/
theorem inv_empty (A : Allocator) {d : Disk} (hd : d.AllOk) (slots : ℕ → Block) :
    Inv (empty A d slots) [] (fun _ => []) := by
  refine ⟨shape_empty A d slots, ⟨by simp, fun s _ _ => ?_, by simp⟩, hd⟩
  simp [empty, ByteMap.bit]

theorem view_empty (A : Allocator) (d : Disk) (slots : ℕ → Block) :
    (empty A d slots).view = d.block := by
  funext b
  rfl

/-! ## A hit -/

/-- The slots after the node `a` was replaced by `p`. -/
theorem Slots.replace (h : Slots c l) (hnd : l.Nodup) (ha : a ∈ l) (hp : p ∉ l)
    (hmap : c'.cachemap = c.cachemap)
    (hnew : (c'.heap.mem p).cacheAddr = (c.heap.mem a).cacheAddr)
    (hold : ∀ q, q ≠ p → (c'.heap.mem q).cacheAddr = (c.heap.mem q).cacheAddr) :
    Slots c' (p :: l.erase a) := by
  have hne : ∀ q ∈ l.erase a, q ≠ a ∧ q ∈ l ∧
      (c'.heap.mem q).cacheAddr = (c.heap.mem q).cacheAddr := by
    intro q hq
    have hql := List.mem_of_mem_erase hq
    refine ⟨?_, hql, hold q ?_⟩
    · rintro rfl
      exact hnd.not_mem_erase hq
    · rintro rfl
      exact hp hql
  refine ⟨fun q hq r hr hqr => ?_, fun s h₂ hs => ?_, fun q hq => ?_⟩
  · rcases List.mem_cons.mp hq with rfl | hq' <;> rcases List.mem_cons.mp hr with rfl | hr'
    · rfl
    · rw [hnew, (hne r hr').2.2] at hqr
      exact absurd (h.inj a ha r (hne r hr').2.1 hqr).symm (hne r hr').1
    · rw [hnew, (hne q hq').2.2] at hqr
      exact absurd (h.inj q (hne q hq').2.1 a ha hqr) (hne q hq').1
    · rw [(hne q hq').2.2, (hne r hr').2.2] at hqr
      exact h.inj q (hne q hq').2.1 r (hne r hr').2.1 hqr
  · rw [hmap, h.used s h₂ hs]
    constructor
    · rintro ⟨q, hq, rfl⟩
      -- The slot of `a` is now that of `p`; the other slots keep their nodes.
      by_cases hqa : q = a
      · exact ⟨p, by simp, by rw [hnew, hqa]⟩
      · have hq' := (List.mem_erase_of_ne hqa).mpr hq
        exact ⟨q, List.mem_cons_of_mem _ hq', (hne q hq').2.2⟩
    · rintro ⟨q, hq, rfl⟩
      rcases List.mem_cons.mp hq with rfl | hq
      · exact ⟨a, ha, hnew.symm⟩
      · exact ⟨q, (hne q hq).2.1, (hne q hq).2.2.symm⟩
  · rcases List.mem_cons.mp hq with rfl | hq
    · rw [hnew]
      exact h.range a ha
    · rw [(hne q hq).2.2]
      exact h.range q (hne q hq).2.1

/-- A hit keeps the invariant and the view. The new node is clean, whatever the old one was. -/
theorem Inv.hit (h : Inv c l B) (ha : a ∈ l) (hok : c.BucketOk (c.heap.mem a).diskAddr) :
    ∃ p c' B', c.retrieveBlockFromCache (c.heap.mem a).diskAddr = some (some p, c') ∧ p ∉ l ∧
      Inv c' (p :: l.erase a) B' ∧
      (c'.heap.mem p).data = ((c.heap.mem a).cacheAddr, (c.heap.mem a).diskAddr, false) ∧
      (∀ q, q ≠ p → (c'.heap.mem q).data = (c.heap.mem q).data) ∧
      c'.disk = c.disk ∧ c'.slots = c.slots ∧ c'.view = c.view := by
  obtain ⟨c', B', hrep, hshape, hnew, hold, hdisk, hslots, hmap⟩ := h.shape.replaceNode ha hok
  have hp : c.heap.fresh ∉ l := h.shape.fresh_not_mem
  have hnd := h.shape.lru.nodup
  have hnewc : (c'.heap.mem c.heap.fresh).cacheAddr = (c.heap.mem a).cacheAddr :=
    congrArg Prod.fst hnew
  have hnewd : (c'.heap.mem c.heap.fresh).diskAddr = (c.heap.mem a).diskAddr :=
    congrArg (fun d => d.2.1) hnew
  have holdq : ∀ q ∈ l, (c'.heap.mem q).cacheAddr = (c.heap.mem q).cacheAddr ∧
      (c'.heap.mem q).diskAddr = (c.heap.mem q).diskAddr := fun q hq =>
    have hq := data_eq (hold q (by rintro rfl; exact hp hq))
    ⟨hq.1, hq.2.1⟩
  have hret : c.retrieveBlockFromCache (c.heap.mem a).diskAddr = some (some c.heap.fresh, c') := by
    rw [h.shape.retrieve_hit ha, hrep]
    rfl
  refine ⟨c.heap.fresh, c', B', hret, hp, ⟨hshape, ?_, ?_⟩, hnew, hold, hdisk, hslots, ?_⟩
  · exact h.slots.replace hnd ha hp hmap hnewc fun q hq => (data_eq (hold q hq)).1
  · rw [hdisk]
    exact h.disk
  · refine hshape.view_eq (fun q hq => ?_) fun b hb => ?_
    · rcases List.mem_cons.mp hq with rfl | hq
      · rw [hslots, hnewc, hnewd, h.shape.view_of_mem ha]
      · have hql := List.mem_of_mem_erase hq
        rw [hslots, (holdq q hql).1, (holdq q hql).2, h.shape.view_of_mem hql]
    · have hbl : ∀ q ∈ l, (c.heap.mem q).diskAddr ≠ b := by
        intro q hq hqb
        by_cases hqa : q = a
        · exact hb c.heap.fresh (by simp) (by rw [hnewd, ← hqa, hqb])
        · refine hb q (List.mem_cons_of_mem _ ((List.mem_erase_of_ne hqa).mpr hq)) ?_
          rw [(holdq q hq).2, hqb]
      rw [hdisk, h.shape.view_of_not_mem hbl]

/-! ## A miss -/

/-- What `get_block_for_cache` does: it returns 0 when all slots from 2 on are taken, or a free
slot, which it takes. -/
theorem getBlockForCache_spec (c : Cache) :
    ∃ s m itr, c.getBlockForCache = (s, { c with cachemap := m, cacheBitItr := itr }) ∧
      ((s = 0 ∧ m = c.cachemap ∧ ∀ k, 2 ≤ k → k < 2^15 → c.cachemap.bit k = true) ∨
        2 ≤ s ∧ s < 2^15 ∧ c.cachemap.bit s = false ∧
          ∀ k, m.bit k = (c.cachemap.bit k || decide (k = s))) := by
  unfold getBlockForCache
  rcases ByteMap.fetchFree_spec (n := 4096) (by norm_num) c.cachemap c.cacheBitItr with
    ⟨hall, heq⟩ | ⟨r, m, heq, h₂, hr, hbit, hm⟩
  · rw [heq]
    exact ⟨0, c.cachemap, c.cacheBitItr, rfl, Or.inl ⟨rfl, rfl, hall⟩⟩
  · rw [heq]
    exact ⟨r, m, r / 8, rfl, Or.inr ⟨h₂, hr, hbit, hm⟩⟩

/-- What an insertion of the block `b` with data `buf` leaves: the nodes of `l'` as they were in
`l`, and the new node `p`, which is clean. -/
structure Inserted (c c' : Cache) (l l' : List ℕ) (p b : ℕ) (buf : Block) : Prop where
  /-- The block of the new node. -/
  diskAddr : (c'.heap.mem p).diskAddr = b
  /-- The data of the new node. -/
  slot : c'.slots (c'.heap.mem p).cacheAddr = buf
  /-- The new node was not in use. -/
  not_mem : p ∉ l
  /-- No other node is new. -/
  sub : ∀ q ∈ l', q ∈ l
  /-- The data of the other nodes. -/
  data : ∀ q ∈ l', (c'.heap.mem q).data = (c.heap.mem q).data
  /-- The slots of the other nodes. -/
  slots : ∀ q ∈ l', c'.slots (c.heap.mem q).cacheAddr = c.slots (c.heap.mem q).cacheAddr
  /-- The disk, below the nodes and at `b`. -/
  block : ∀ q, q = b ∨ (∃ a ∈ l', (c.heap.mem a).diskAddr = q) → c'.disk.block q = c.disk.block q
  /-- The view. -/
  view : c'.view = Function.update c.view b buf

/-- The slots after the node `p` with slot `s` was added to the nodes `l'` that are left of `l`. -/
theorem Slots.insert {l' : List ℕ} (h : Slots c l) (hsub : ∀ q ∈ l', q ∈ l)
    (hnew : (c'.heap.mem p).cacheAddr = s)
    (hold : ∀ q ∈ l', (c'.heap.mem q).cacheAddr = (c.heap.mem q).cacheAddr)
    (hfree : ∀ q ∈ l', (c.heap.mem q).cacheAddr ≠ s) (hs : s = 0 ∨ 2 ≤ s ∧ s < 2^15)
    (hused : ∀ k, 2 ≤ k → k < 2^15 →
      (c'.cachemap.bit k = true ↔ k = s ∨ ∃ a ∈ l', (c.heap.mem a).cacheAddr = k)) :
    Slots c' (p :: l') := by
  refine ⟨fun q hq r hr hqr => ?_, fun k h₂ hk => ?_, fun q hq => ?_⟩
  · rcases List.mem_cons.mp hq with rfl | hq' <;> rcases List.mem_cons.mp hr with rfl | hr'
    · rfl
    · rw [hnew, hold r hr'] at hqr
      exact absurd hqr.symm (hfree r hr')
    · rw [hnew, hold q hq'] at hqr
      exact absurd hqr (hfree q hq')
    · rw [hold q hq', hold r hr'] at hqr
      exact h.inj q (hsub q hq') r (hsub r hr') hqr
  · rw [hused k h₂ hk]
    constructor
    · rintro (rfl | ⟨q, hq, rfl⟩)
      · exact ⟨p, by simp, hnew⟩
      · exact ⟨q, List.mem_cons_of_mem _ hq, hold q hq⟩
    · rintro ⟨q, hq, rfl⟩
      rcases List.mem_cons.mp hq with rfl | hq
      · exact Or.inl hnew
      · exact Or.inr ⟨q, hq, (hold q hq).symm⟩
  · rcases List.mem_cons.mp hq with rfl | hq
    · rwa [hnew]
    · rw [hold q hq]
      exact h.range q (hsub q hq)

/-- The slot of the last node is given back, after the slot `s` was taken from the bitmap. -/
theorem Slots.clearBit {l' : List ℕ} {z : ℕ} {m : ByteMap} (h : Slots c (l' ++ [z]))
    (hz : z ∉ l') (hzs : (c.heap.mem z).cacheAddr = s → s = 0)
    (hm : ∀ k, 2 ≤ k → k < 2^15 →
      (m.bit k = true ↔ k = s ∨ ∃ a ∈ l' ++ [z], (c.heap.mem a).cacheAddr = k)) (k : ℕ) (h₂ : 2 ≤ k)
    (hk : k < 2^15) : (m.clearBit (c.heap.mem z).cacheAddr).bit k = true ↔
      k = s ∨ ∃ a ∈ l', (c.heap.mem a).cacheAddr = k := by
  rw [ByteMap.bit_clearBit, Bool.and_eq_true, decide_eq_true_eq, hm k h₂ hk]
  constructor
  · rintro ⟨rfl | ⟨q, hq, rfl⟩, hkz⟩
    · exact Or.inl rfl
    · rcases List.mem_append.mp hq with hq | hq
      · exact Or.inr ⟨q, hq, rfl⟩
      · exact absurd (by rw [List.mem_singleton.mp hq]) hkz
  · rintro (rfl | ⟨q, hq, rfl⟩)
    · refine ⟨Or.inl rfl, fun hks => ?_⟩
      have := hzs hks.symm
      omega
    · refine ⟨Or.inr ⟨q, by simp [hq], rfl⟩, fun hqz => hz ?_⟩
      rwa [← h.inj q (by simp [hq]) z (by simp) hqz]

/-- A miss keeps the invariant, and the view shows the data that was copied to the slot. -/
theorem Inv.miss (h : Inv c l B) (hb : ∀ a ∈ l, (c.heap.mem a).diskAddr ≠ b) (hok : c.MissOk)
    (hdue : ∀ z, c.Due z → c.Synced z) (buf : Block) :
    ∃ p c' l' B', (c.getBlockForCache.2.copyToSlot c.getBlockForCache.1 buf).insertBlockToCache b
        c.getBlockForCache.1 = some (some p, c') ∧
      Inv c' (p :: l') B' ∧ Inserted c c' l l' p b buf := by
  obtain ⟨s, m, itr, hget, hslot⟩ := c.getBlockForCache_spec
  have hs : c.getBlockForCache.1 = s := by rw [hget]
  -- A node in the slot that is handed out is evicted, and has nothing to write back.
  have hfree : ∀ q ∈ l, (c.heap.mem q).cacheAddr = s → c.Due q ∧ (c.heap.mem q).dirty = false :=
    fun q hq hqs => hok.slot _ q (h.shape.getCacheObj_some hq) (by rw [hs, hqs])
  -- The slot 0 is handed out when no slot is left.
  have hrange : s = 0 ∨ 2 ≤ s ∧ s < 2^15 := by
    rcases hslot with ⟨h₀, -⟩ | ⟨h₂, h₃, -⟩
    · exact Or.inl h₀
    · exact Or.inr ⟨h₂, h₃⟩
  -- The bitmap after the call: the slots of the nodes, and the one that was handed out.
  have hm : ∀ k, 2 ≤ k → k < 2^15 →
      (m.bit k = true ↔ k = s ∨ ∃ a ∈ l, (c.heap.mem a).cacheAddr = k) := by
    intro k h₂ hk
    rw [← h.slots.used k h₂ hk]
    rcases hslot with ⟨rfl, rfl, -⟩ | ⟨-, -, -, hm⟩
    · have : k ≠ 0 := by omega
      tauto
    · rw [hm k, Bool.or_eq_true, decide_eq_true_eq, or_comm]
  set c₁ : Cache := ({ c with cachemap := m, cacheBitItr := itr } : Cache).copyToSlot s buf with hc₁
  have hshape₁ : Shape c₁ l B :=
    h.shape.of_links (fun q => ⟨rfl, rfl, rfl, rfl⟩) rfl rfl rfl rfl rfl rfl
  have hinsert := hshape₁.insertBlockToCache hb (fun hfull z hz =>
    ⟨fun _ => ⟨h.disk _, h.disk _⟩, hok.bucket z ⟨hfull, hz⟩⟩) s
  have hheap₁ : c₁.heap = c.heap := rfl
  have hdisk₁ : c₁.disk = c.disk := rfl
  have hsize₁ : c₁.cacheSize = c.cacheSize := rfl
  have hright₁ : c₁.cacheRight = c.cacheRight := rfl
  have hslots₀ : c₁.slots = Function.update c.slots s buf := rfl
  have hmap₁ : c₁.cachemap = m := rfl
  rw [hheap₁, hdisk₁, hsize₁, hright₁, hslots₀, hmap₁] at hinsert
  obtain ⟨c', l', B', hins, hshape, hnew, hold, hslots, hdok, hcase⟩ := hinsert
  have hp : c.heap.fresh ∉ l := h.shape.fresh_not_mem
  have hnewc : (c'.heap.mem c.heap.fresh).cacheAddr = s := congrArg Prod.fst hnew
  have hnewd : (c'.heap.mem c.heap.fresh).diskAddr = b := congrArg (fun d => d.2.1) hnew
  have hslots₁ : ∀ t, t ≠ s → c'.slots t = c.slots t := fun t ht => by
    rw [hslots, Function.update_of_ne ht]
  -- What depends on whether a node was evicted.
  have hparts : (∀ q ∈ l', q ∈ l ∧ (c.heap.mem q).cacheAddr ≠ s) ∧
      (∀ k, 2 ≤ k → k < 2^15 →
        (c'.cachemap.bit k = true ↔ k = s ∨ ∃ a ∈ l', (c.heap.mem a).cacheAddr = k)) ∧
      (∀ q, q = b ∨ (∃ a ∈ l', (c.heap.mem a).diskAddr = q) →
        c'.disk.block q = c.disk.block q) ∧
      ∀ q, (∀ a ∈ l', (c.heap.mem a).diskAddr ≠ q) → q ≠ b → c'.disk.block q = c.view q := by
    rcases hcase with ⟨hlt, rfl, hdisk, hmap⟩ | ⟨z, hfull, hright, rfl, hmap, hblock⟩
    · refine ⟨fun q hq => ⟨hq, fun hqs => ?_⟩, ?_, fun q _ => by rw [hdisk], fun q hq _ => ?_⟩
      · have := (hfree q hq hqs).1.1
        omega
      · rwa [hmap]
      · rw [hdisk, h.shape.view_of_not_mem hq]
    · have hz : z ∈ l' ++ [z] := by simp
      have hnd := h.shape.lru.nodup
      have hzl : ∀ q ∈ l', q ≠ z := fun q hq => by
        rintro rfl
        exact (List.nodup_append.mp hnd).2.2 q hq q (by simp) rfl
      have hmem : ∀ q ∈ l', q ∈ l' ++ [z] := fun q hq => by simp [hq]
      have haddr : ∀ q ∈ l', (c.heap.mem q).diskAddr ≠ (c.heap.mem z).diskAddr := fun q hq heq =>
        hzl q hq (h.shape.members.inj q (hmem q hq) z hz heq)
      have hblock' : ∀ q, q ≠ (c.heap.mem z).diskAddr → c'.disk.block q = c.disk.block q := by
        intro q hq
        rw [hblock]
        split
        · exact Function.update_of_ne hq _ _
        · rfl
      refine ⟨fun q hq => ⟨hmem q hq, fun hqs => ?_⟩, fun k h₂ hk => ?_, fun q hq => hblock' q ?_,
        fun q hq hqb => ?_⟩
      · have hqz := (hfree q (hmem q hq) hqs).1.2
        rw [hright] at hqz
        exact hzl q hq (Option.some.inj hqz).symm
      · rw [hmap]
        refine h.slots.clearBit (fun hq => hzl z hq rfl) (fun hzs => ?_) hm k h₂ hk
        rcases hslot with ⟨h₀, -⟩ | ⟨hs₂, hs₁₅, hbit, -⟩
        · exact h₀
        · rw [(h.slots.used s hs₂ hs₁₅).mpr ⟨z, hz, hzs⟩] at hbit
          exact absurd hbit (by simp)
      · rcases hq with rfl | ⟨a, ha, rfl⟩
        · exact fun hq => hb z hz hq.symm
        · exact haddr a ha
      · by_cases hqz : q = (c.heap.mem z).diskAddr
        · -- The data of the victim is written back, or the disk has it already.
          subst hqz
          rw [hblock, h.shape.view_of_mem hz]
          by_cases hdirty : (c.heap.mem z).dirty = true
          · have hzs : (c.heap.mem z).cacheAddr ≠ s := fun hzs => by
              have := (hfree z hz hzs).2
              simp [hdirty] at this
            rw [if_pos hdirty, Function.update_self, Function.update_of_ne hzs]
          · rw [if_neg hdirty]
            rcases hdue z ⟨hfull, hright⟩ with hd | hd
            · exact absurd hd hdirty
            · exact hd.symm
        · rw [hblock' q hqz, h.shape.view_of_not_mem fun a ha => ?_]
          rcases List.mem_append.mp ha with ha | ha
          · exact hq a ha
          · rw [List.mem_singleton.mp ha]
            exact Ne.symm hqz
  obtain ⟨hsub, hused, hbelow, hleft⟩ := hparts
  have hne : ∀ q ∈ l', q ≠ c.heap.fresh := fun q hq => by
    rintro rfl
    exact hp (hsub _ hq).1
  have hdata : ∀ q ∈ l', (c'.heap.mem q).data = (c.heap.mem q).data := fun q hq => hold q (hne q hq)
  have hview : c'.view = Function.update c.view b buf := by
    refine hshape.view_eq (fun q hq => ?_) fun q hq => ?_
    · rcases List.mem_cons.mp hq with rfl | hq
      · rw [hnewc, hnewd, Function.update_self, hslots, Function.update_self]
      · obtain ⟨hql, hqs⟩ := hsub q hq
        obtain ⟨hqc, hqd, -⟩ := data_eq (hdata q hq)
        rw [hqc, hqd, hslots₁ _ hqs, Function.update_of_ne (hb q hql), h.shape.view_of_mem hql]
    · have hqb : q ≠ b := fun hqb => hq c.heap.fresh (by simp) (by rw [hnewd, hqb])
      rw [Function.update_of_ne hqb]
      refine hleft q (fun a ha haq => ?_) hqb
      exact hq a (List.mem_cons_of_mem _ ha) (by rw [(data_eq (hdata a ha)).2.1, haq])
  refine ⟨c.heap.fresh, c', l', B', ?_, ⟨hshape, ?_, ?_⟩, hnewd, ?_, hp, fun q hq => (hsub q hq).1,
    hdata, fun q hq => hslots₁ _ (hsub q hq).2, hbelow, hview⟩
  · rw [hget]
    exact hins
  · exact h.slots.insert (fun q hq => (hsub q hq).1) hnewc (fun q hq => (data_eq (hdata q hq)).1)
      (fun q hq => (hsub q hq).2) hrange hused
  · intro n
    rw [hdok]
    exact h.disk n
  · rw [hnewc, hslots, Function.update_self]

/-! ## Reads and writes -/

theorem modify_dirty_core (c : Cache) (p q : ℕ) :
    ((c.modify p fun n => { n with dirty := true }).heap.mem q).left = (c.heap.mem q).left ∧
      ((c.modify p fun n => { n with dirty := true }).heap.mem q).right = (c.heap.mem q).right ∧
      ((c.modify p fun n => { n with dirty := true }).heap.mem q).next = (c.heap.mem q).next ∧
      ((c.modify p fun n => { n with dirty := true }).heap.mem q).diskAddr =
        (c.heap.mem q).diskAddr ∧
      ((c.modify p fun n => { n with dirty := true }).heap.mem q).cacheAddr =
        (c.heap.mem q).cacheAddr := by
  by_cases hq : q = p <;> simp [modify, hq]

/-- The flag of a node does not matter to the links. -/
theorem Linked.setDirty (h : Linked c l B) (p : ℕ) :
    Linked (c.modify p fun n => { n with dirty := true }) l B :=
  have hcore := modify_dirty_core c p
  h.of_links (fun q => ⟨(hcore q).1, (hcore q).2.1, (hcore q).2.2.1, (hcore q).2.2.2.1⟩)
    rfl rfl rfl rfl rfl rfl

theorem Shape.setDirty (h : Shape c l B) (p : ℕ) :
    Shape (c.modify p fun n => { n with dirty := true }) l B :=
  (h.linked.setDirty p).shape (h.members.congr fun q _ => (modify_dirty_core c p q).2.2.2.1)
    h.length_le

/-- The flag of a node does not matter to the invariant and the view. -/
theorem Inv.setDirty (h : Inv c l B) (p : ℕ) :
    Inv (c.modify p fun n => { n with dirty := true }) l B ∧
      (c.modify p fun n => { n with dirty := true }).view = c.view := by
  have hcore := modify_dirty_core c p
  set c' := c.modify p fun n => { n with dirty := true }
  have hshape : Shape c' l B := h.shape.setDirty p
  have haddr : ∀ q, (c'.heap.mem q).cacheAddr = (c.heap.mem q).cacheAddr :=
    fun q => (hcore q).2.2.2.2
  have hdisk : ∀ q, (c'.heap.mem q).diskAddr = (c.heap.mem q).diskAddr := fun q => (hcore q).2.2.2.1
  refine ⟨⟨hshape, ⟨?_, ?_, ?_⟩, h.disk⟩, hshape.view_eq (fun q hq => ?_) fun q hq => ?_⟩
  · simpa only [haddr] using h.slots.inj
  · simp only [haddr]
    exact h.slots.used
  · simpa only [haddr] using h.slots.range
  · rw [haddr, hdisk, h.shape.view_of_mem hq]
    rfl
  · rw [h.shape.view_of_not_mem fun a ha => by rw [← hdisk]; exact hq a ha]
    rfl

/-- A copy to the slot of a node shows at its block. -/
theorem Inv.copyToSlot (h : Inv c l B) (ha : a ∈ l) (buf : Block) :
    Inv (c.copyToSlot (c.heap.mem a).cacheAddr buf) l B ∧
      (c.copyToSlot (c.heap.mem a).cacheAddr buf).view =
        Function.update c.view (c.heap.mem a).diskAddr buf := by
  have hshape : Shape (c.copyToSlot (c.heap.mem a).cacheAddr buf) l B :=
    h.shape.of_links (fun q => ⟨rfl, rfl, rfl, rfl⟩) rfl rfl rfl rfl rfl rfl
  refine ⟨⟨hshape, ⟨h.slots.inj, h.slots.used, h.slots.range⟩, h.disk⟩,
    hshape.view_eq (fun q hq => ?_) fun q hq => ?_⟩
  · change Function.update c.slots _ buf (c.heap.mem q).cacheAddr =
      Function.update c.view _ buf (c.heap.mem q).diskAddr
    by_cases hqa : q = a
    · rw [hqa, Function.update_self, Function.update_self]
    · rw [Function.update_of_ne fun heq => hqa (h.slots.inj q hq a ha heq),
        Function.update_of_ne fun heq => hqa (h.shape.members.inj q hq a ha heq),
        h.shape.view_of_mem hq]
  · have hqa : q ≠ (c.heap.mem a).diskAddr := fun heq => hq a ha heq.symm
    rw [Function.update_of_ne hqa]
    exact (h.shape.view_of_not_mem hq).symm

/-- The condition of a hit, for the node of the block. -/
theorem AccessOk.hit (h : Shape c l B) (hok : c.AccessOk b) (ha : a ∈ l)
    (hb : (c.heap.mem a).diskAddr = b) : c.BucketOk (c.heap.mem a).diskAddr := by
  rw [hb]
  exact hok.1 (h.cached_iff.mpr ⟨a, ha, hb⟩)

/-- The condition of a miss. -/
theorem AccessOk.miss (h : Shape c l B) (hok : c.AccessOk b)
    (hb : ∀ a ∈ l, (c.heap.mem a).diskAddr ≠ b) : c.MissOk :=
  hok.2 (h.not_cached hb)

/-- The blocks of the nodes after a hit. -/
theorem hit_blocks (hp : p ∉ l)
    (hnew : (c'.heap.mem p).diskAddr = (c.heap.mem a).diskAddr)
    (hold : ∀ q, q ≠ p → (c'.heap.mem q).data = (c.heap.mem q).data) (q : ℕ)
    (hq : q ∈ p :: l.erase a) : (c'.heap.mem q).diskAddr = (c.heap.mem a).diskAddr ∨
      ∃ r ∈ l, (c.heap.mem r).diskAddr = (c'.heap.mem q).diskAddr := by
  rcases List.mem_cons.mp hq with rfl | hq
  · exact Or.inl hnew
  · have hql := List.mem_of_mem_erase hq
    exact Or.inr ⟨q, hql, (data_eq (hold q (by rintro rfl; exact hp hql))).2.1.symm⟩

/-- The blocks of the nodes after an insertion. -/
theorem Inserted.blocks {l' : List ℕ} {buf : Block} (h : Inserted c c' l l' p b buf) (q : ℕ)
    (hq : q ∈ p :: l') : (c'.heap.mem q).diskAddr = b ∨
      ∃ r ∈ l, (c.heap.mem r).diskAddr = (c'.heap.mem q).diskAddr := by
  rcases List.mem_cons.mp hq with rfl | hq
  · exact Or.inl h.diskAddr
  · exact Or.inr ⟨q, h.sub q hq, (data_eq (h.data q hq)).2.1.symm⟩

/-- `read_block_modified` returns the view and keeps it. When no data was lost so far, none is lost
unless the read hits a dirty node. -/
theorem Inv.readBlockModified (h : Inv c l B) (hok : c.AccessOk b)
    (hdue : ¬c.Cached b → ∀ z, c.Due z → c.Synced z) (buf : Block) :
    ∃ c' l' B', c.readBlockModified b buf = some (4096, c.view b, c') ∧ Inv c' l' B' ∧
      c'.view = c.view ∧
      (∀ q ∈ l', (c'.heap.mem q).diskAddr = b ∨
        ∃ a ∈ l, (c.heap.mem a).diskAddr = (c'.heap.mem q).diskAddr) ∧
      ((∀ a ∈ l, c.Synced a) → (∀ a ∈ l, (c.heap.mem a).diskAddr = b →
        (c.heap.mem a).dirty = false ∨
          c.slots (c.heap.mem a).cacheAddr = c.disk.block (c.heap.mem a).diskAddr) →
        ∀ a ∈ l', c'.Synced a) := by
  by_cases hcached : ∃ a ∈ l, (c.heap.mem a).diskAddr = b
  · obtain ⟨a, ha, hab⟩ := hcached
    obtain ⟨p, c', B', hret, hp, hinv, hnew, hold, hdisk, hslots, hview⟩ :=
      h.hit ha (hok.hit h.shape ha hab)
    have hnewc : (c'.heap.mem p).cacheAddr = (c.heap.mem a).cacheAddr := congrArg Prod.fst hnew
    have hnewd : (c'.heap.mem p).diskAddr = (c.heap.mem a).diskAddr :=
      congrArg (fun d => d.2.1) hnew
    refine ⟨c', p :: l.erase a, B', ?_, hinv, hview, fun q hq => ?_, fun hsync hclean q hq => ?_⟩
    · unfold Cache.readBlockModified
      rw [← hab, hret]
      simp only [Option.bind_eq_bind, Option.bind_some, Option.pure_def]
      rw [hslots, hnewc, h.shape.view_of_mem ha]
    · rw [← hab]
      exact hit_blocks hp hnewd hold q hq
    · rcases List.mem_cons.mp hq with rfl | hq
      · right
        rw [hnewc, hnewd, hslots, hdisk]
        rcases hclean a ha hab with hd | heq
        · exact (hsync a ha).resolve_left (by simp [hd])
        · exact heq
      · have hql := List.mem_of_mem_erase hq
        have hqp : q ≠ p := by rintro rfl; exact hp hql
        obtain ⟨hc, hd, hdirty⟩ := data_eq (hold q hqp)
        rw [Synced, hc, hd, hdirty, hslots, hdisk]
        exact hsync q hql
  · push Not at hcached
    -- The disk serves the read, and counts two calls.
    set c₁ : Cache := { c with disk := { c.disk with calls := c.disk.calls + 1 + 1 } } with hc₁
    have hshape₁ : Shape c₁ l B :=
      h.shape.of_links (fun q => ⟨rfl, rfl, rfl, rfl⟩) rfl rfl rfl rfl rfl rfl
    have h₁ : Inv c₁ l B := ⟨hshape₁, ⟨h.slots.inj, h.slots.used, h.slots.range⟩, h.disk⟩
    have hmiss := hok.miss h.shape hcached
    have hmiss₁ : c₁.MissOk := ⟨hmiss.slot, hmiss.bucket⟩
    have hdue₁ := hdue (h.shape.not_cached hcached)
    have hblock : c.view b = c.disk.block b := h.shape.view_of_not_mem hcached
    obtain ⟨p, c', l', B', hins, hinv, hp⟩ := h₁.miss hcached hmiss₁ hdue₁ (c.disk.block b)
    have hview₁ : c₁.view = c.view := rfl
    refine ⟨c', p :: l', B', ?_, hinv, ?_, hp.blocks, fun hsync _ q hq => ?_⟩
    · unfold Cache.readBlockModified
      rw [h.shape.retrieve_miss hcached]
      simp only [Option.bind_eq_bind, Option.bind_some, Option.pure_def, Disk.malloc4k,
        Disk.readBlock, h.disk _, if_true, Bool.true_eq_false, if_false]
      rw [if_neg (Nat.not_lt_zero _), ← hc₁, hins, hblock]
      rfl
    · rw [hp.view, hview₁, ← hblock, Function.update_eq_self]
    · rcases List.mem_cons.mp hq with rfl | hq
      · right
        rw [hp.slot, hp.diskAddr, hp.block b (Or.inl rfl)]
      · obtain ⟨hc, hd, hdirty⟩ := data_eq (hp.data q hq)
        rw [Synced, hdirty, hc, hd, hp.slots q hq, hp.block _ (Or.inr ⟨q, hq, rfl⟩)]
        exact hsync q (hp.sub q hq)

/-- `write_block_modified` updates the view, and loses no data. -/
theorem Inv.writeBlockModified (h : Inv c l B) (hok : c.AccessOk b)
    (hdue : ¬c.Cached b → ∀ z, c.Due z → c.Synced z) (buf : Block) :
    ∃ c' l' B', c.writeBlockModified b buf = some (0, c') ∧ Inv c' l' B' ∧
      c'.view = Function.update c.view b buf ∧
      (∀ q ∈ l', (c'.heap.mem q).diskAddr = b ∨
        ∃ a ∈ l, (c.heap.mem a).diskAddr = (c'.heap.mem q).diskAddr) ∧
      ((∀ a ∈ l, c.Synced a) → ∀ a ∈ l', c'.Synced a) := by
  by_cases hcached : ∃ a ∈ l, (c.heap.mem a).diskAddr = b
  · obtain ⟨a, ha, hab⟩ := hcached
    obtain ⟨p, c₁, B', hret, hp, h₁, hnew, hold, hdisk, hslots, hview⟩ :=
      h.hit ha (hok.hit h.shape ha hab)
    have hnewc : (c₁.heap.mem p).cacheAddr = (c.heap.mem a).cacheAddr := congrArg Prod.fst hnew
    have hnewd : (c₁.heap.mem p).diskAddr = (c.heap.mem a).diskAddr :=
      congrArg (fun d => d.2.1) hnew
    obtain ⟨h₂, hview₂⟩ := h₁.copyToSlot (a := p) (by simp) buf
    obtain ⟨h₃, hview₃⟩ := h₂.setDirty p
    refine ⟨_, p :: l.erase a, B', ?_, h₃, ?_, fun q hq => ?_, fun hsync q hq => ?_⟩
    · unfold Cache.writeBlockModified
      rw [← hab, hret]
      rfl
    · rw [hview₃, hview₂, hview, hnewd, hab]
    · rw [(modify_dirty_core _ p q).2.2.2.1, ← hab]
      exact hit_blocks hp hnewd hold q hq
    · by_cases hqp : q = p
      · left
        simp [modify, hqp]
      · have hq' := (List.mem_cons.mp hq).resolve_left hqp
        have hql := List.mem_of_mem_erase hq'
        obtain ⟨hc, hd, hdirty⟩ := data_eq (hold q hqp)
        -- Another node has another slot, which the copy does not touch.
        have hqa : (c.heap.mem q).cacheAddr ≠ (c.heap.mem a).cacheAddr := fun heq => by
          obtain rfl := h.slots.inj q hql a ha heq
          exact h.shape.lru.nodup.not_mem_erase hq'
        have hq₃ : ∀ f, (((c₁.copyToSlot (c₁.heap.mem p).cacheAddr buf).modify p f).heap.mem q) =
            c₁.heap.mem q := fun f => by
          rw [modify, Heap.modify_mem, Function.update_of_ne hqp]
          rfl
        rw [Synced, hq₃, hc, hd, hdirty]
        change _ ∨ Function.update c₁.slots (c₁.heap.mem p).cacheAddr buf _ = c₁.disk.block _
        rw [hnewc, Function.update_of_ne hqa, hslots, hdisk]
        exact hsync q hql
  · push Not at hcached
    have hdue₁ := hdue (h.shape.not_cached hcached)
    obtain ⟨p, c₁, l', B', hins, h₁, hp⟩ := h.miss hcached (hok.miss h.shape hcached) hdue₁ buf
    obtain ⟨h₂, hview₂⟩ := h₁.setDirty p
    refine ⟨_, p :: l', B', ?_, h₂, by rw [hview₂, hp.view], fun q hq => ?_, fun hsync q hq => ?_⟩
    · unfold Cache.writeBlockModified
      rw [h.shape.retrieve_miss hcached]
      simp only [Option.bind_eq_bind, Option.bind_some, Option.pure_def]
      rw [hins]
      rfl
    · rw [(modify_dirty_core _ p q).2.2.2.1]
      exact hp.blocks q hq
    · by_cases hqp : q = p
      · left
        simp [modify, hqp]
      · have hq' := (List.mem_cons.mp hq).resolve_left hqp
        obtain ⟨hc, hd, hdirty⟩ := data_eq (hp.data q hq')
        have hq₂ : ∀ f, ((c₁.modify p f).heap.mem q) = c₁.heap.mem q := fun f => by
          simp [modify, hqp]
        rw [Synced, hq₂, hc, hd, hdirty]
        change _ ∨ c₁.slots _ = c₁.disk.block _
        rw [hp.slots q hq', hp.block _ (Or.inr ⟨q, hq', rfl⟩)]
        exact hsync q (hp.sub q hq')

end GemOS.Objstore.Cache
