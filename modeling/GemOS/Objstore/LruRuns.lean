import GemOS.Lib.Run
import GemOS.Objstore.Lru

/-!
# The LRU list over runs

The functions that edit the LRU list, called in any order from the empty list, by callers that also
store to the nodes. `listed` is the list that should be there, most recent node first. After every
run the links of the cache are this list (`lru_faithful`). `cache_size` is a `u32`, so that it is
the length of the list modulo `2^32` (`cache_size_wraps`).
-/

namespace GemOS.Objstore

namespace Cache

/-- The calls that edit the LRU list, and the stores to nodes between them. -/
inductive LruOp where
  /-- `add_at_top_of_cache(p)`. -/
  | add (p : ℕ)
  /-- `remove_object_from_cache_dont_write_back(p)`. -/
  | dontWriteBack (p : ℕ)
  /-- `remove_object_from_cache_and_write_back(p)`. -/
  | writeBack (p : ℕ)
  /-- A caller stores to the node `p`, which is `n` then. -/
  | store (p : ℕ) (n : CacheObj)

namespace LruOp

/-- The cache after a call. -/
def serve (c : Cache) : LruOp → Cache
  | add p => c.addAtTopOfCache p
  | dontWriteBack p => c.removeObjectFromCacheDontWriteBack p
  | writeBack p => c.removeObjectFromCacheAndWriteBack p
  | store p n => c.modify p fun _ => n

/-- The list after a call. -/
def edit (l : List ℕ) : LruOp → List ℕ
  | add p => p :: l
  | dontWriteBack p => l.erase p
  | writeBack p => l.erase p
  | store _ _ => l

/-- The calls that occur while the list is `l`: a node is not added twice, only a node of the list
is removed, with an `mmap` that succeeds when it has to be written back, and the callers do not
store to the links of the list. -/
def Allowed (c : Cache) (l : List ℕ) : LruOp → Prop
  | add p => p ∉ l
  | dontWriteBack p => p ∈ l
  | writeBack p => p ∈ l ∧ ((c.heap.mem p).dirty = true → c.disk.ok c.disk.calls = true)
  | store p n => p ∈ l → n.left = (c.heap.mem p).left ∧ n.right = (c.heap.mem p).right

instance (c : Cache) (l : List ℕ) : (op : LruOp) → Decidable (op.Allowed c l)
  | add p => inferInstanceAs (Decidable (p ∉ l))
  | dontWriteBack p => inferInstanceAs (Decidable (p ∈ l))
  | writeBack p => inferInstanceAs (Decidable (p ∈ l ∧ (_ = true → _ = true)))
  | store p n => inferInstanceAs (Decidable (p ∈ l → n.left = (c.heap.mem p).left ∧
      n.right = (c.heap.mem p).right))

end LruOp

/-- The cache and the list after a call. -/
def lruStep (s : Cache × List ℕ) (op : LruOp) : Option (Unit × Cache × List ℕ) :=
  some ((), op.serve s.1, op.edit s.2)

/-- The nodes after some calls, most recently added first. -/
def listed (ops : List LruOp) : List ℕ := ops.foldl LruOp.edit []

/-- The links of the cache are a doubly linked list of the nodes `l`. -/
structure Faithful (c : Cache) (l : List ℕ) : Prop where
  /-- Following `right` from `cache_left`. -/
  right : Chain c.heap.mem CacheObj.right c.cacheLeft l
  /-- Following `left` from `cache_right`. -/
  left : Chain c.heap.mem CacheObj.left c.cacheRight l.reverse
  /-- `cache_left` is `NULL` exactly when there are no nodes. -/
  left_end : c.cacheLeft = none ↔ l = []
  /-- `cache_right` is `NULL` exactly when there are no nodes. -/
  right_end : c.cacheRight = none ↔ l = []
  /-- `cache_size` is the number of nodes, as a `u32`. -/
  size : c.cacheSize = l.length % 2^32
  /-- `cache_right` is the node that was added longest ago. -/
  oldest : c.cacheRight = l.getLast?

variable {c : Cache} {l : List ℕ} {p : ℕ}

/-! ## One call -/

theorem LinksTo.faithful (h : LinksTo c l) (hsize : c.cacheSize = l.length % 2^32) :
    Faithful c l := by
  have hleft := h.right.head_eq
  have hright := h.left.head_eq
  rw [List.head?_reverse] at hright
  refine ⟨h.right, h.left, ?_, ?_, hsize, hright⟩
  · rw [hleft, List.head?_eq_none_iff]
  · rw [hright, List.getLast?_eq_none_iff]

theorem linksTo_nil (hleft : c.cacheLeft = none) (hright : c.cacheRight = none) : LinksTo c [] :=
  ⟨hleft, hright, List.nodup_nil⟩

/-- A store to a node keeps the links of the list. -/
theorem LinksTo.modify (h : LinksTo c l) (f : CacheObj → CacheObj)
    (hf : p ∈ l → (f (c.heap.mem p)).left = (c.heap.mem p).left ∧
      (f (c.heap.mem p)).right = (c.heap.mem p).right) : LinksTo (c.modify p f) l := by
  have hmem : ∀ q ∈ l, ((c.modify p f).heap.mem q).left = (c.heap.mem q).left ∧
      ((c.modify p f).heap.mem q).right = (c.heap.mem q).right := by
    intro q hq
    by_cases hqp : q = p
    · subst hqp
      simpa [Cache.modify] using hf hq
    · simp [Cache.modify, hqp]
  exact ⟨h.right.congr fun q hq => (hmem q hq).2,
    h.left.congr fun q hq => (hmem q (List.mem_reverse.mp hq)).1, h.nodup⟩

/-- A node of the list is taken out, wherever it is. -/
theorem LinksTo.takeOut_mem (h : LinksTo c l) (hp : p ∈ l) : LinksTo (c.takeOut p) (l.erase p) := by
  obtain ⟨l₁, l₂, rfl⟩ := List.append_of_mem hp
  have hnotin : p ∉ l₁ := fun hp₁ =>
    (List.nodup_append.mp h.nodup).2.2 p hp₁ p (by simp) rfl
  rw [List.erase_append_right _ hnotin, List.erase_cons_head]
  exact h.takeOut

/-- A list with a node more has a `cache_size` that is one larger, modulo `2^32`. -/
theorem u32_add_one {n m : ℕ} (h : n = m % 2^32) : u32 (n + 1) = (m + 1) % 2^32 := by
  unfold u32
  omega

/-- A list with a node less has a `cache_size` that is one smaller, modulo `2^32`. -/
theorem u32_sub_one {n m : ℕ} (hm : 0 < m) (h : n = m % 2^32) :
    u32 ((n : ℤ) - 1) = (m - 1) % 2^32 := by
  unfold u32
  omega

/-- Writing a node back takes it out, when `mmap` does not fail. -/
theorem removeObjectFromCacheAndWriteBack_eq
    (hok : (c.heap.mem p).dirty = true → c.disk.ok c.disk.calls = true) :
    ∃ d, c.removeObjectFromCacheAndWriteBack p = Cache.takeOut { c with disk := d } p := by
  unfold removeObjectFromCacheAndWriteBack
  split
  · rename_i hdirty
    simp only [Disk.malloc4k, hok hdirty, if_true]
    exact ⟨_, rfl⟩
  · exact ⟨c.disk, rfl⟩

/-- Every call edits the links of the cache as it edits the list. -/
theorem LruOp.Allowed.serve {op : LruOp} (hop : op.Allowed c l) (h : LinksTo c l)
    (hsize : c.cacheSize = l.length % 2^32) :
    LinksTo (op.serve c) (op.edit l) ∧ (op.serve c).cacheSize = (op.edit l).length % 2^32 := by
  -- Both ways of removing a node take it out of the list.
  have hremove : ∀ p ∈ l, ∀ d, LinksTo (Cache.takeOut { c with disk := d } p) (l.erase p) ∧
      (Cache.takeOut { c with disk := d } p).cacheSize = (l.erase p).length % 2^32 := by
    intro p hp d
    have hd : LinksTo { c with disk := d } l := ⟨h.right, h.left, h.nodup⟩
    refine ⟨hd.takeOut_mem hp, ?_⟩
    rw [takeOut_cacheSize, List.length_erase_of_mem hp]
    exact u32_sub_one (List.length_pos_of_mem hp) hsize
  cases op with
  | add p => exact ⟨h.addAtTopOfCache hop, u32_add_one hsize⟩
  | dontWriteBack p => exact hremove p hop c.disk
  | writeBack p =>
    obtain ⟨d, heq⟩ := removeObjectFromCacheAndWriteBack_eq hop.2
    change LinksTo (c.removeObjectFromCacheAndWriteBack p) (l.erase p) ∧
      (c.removeObjectFromCacheAndWriteBack p).cacheSize = (l.erase p).length % 2^32
    rw [heq]
    exact hremove p hop.1 d
  | store p n => exact ⟨h.modify _ hop, hsize⟩

/-! ## Runs -/

/-- Every run of calls from the empty list keeps the links. -/
theorem linksTo_of_run (hleft : c.cacheLeft = none) (hright : c.cacheRight = none)
    (hsize : c.cacheSize = 0) {ops : List LruOp}
    (hops : Run.Along lruStep (fun s op => op.Allowed s.1 s.2) (c, []) ops) :
    ∃ hist c', Run.run lruStep (c, []) ops = some (hist, c', listed ops) ∧
      LinksTo c' (listed ops) ∧ c'.cacheSize = (listed ops).length % 2^32 := by
  obtain ⟨hist, s, hrun, hlisted, hlinks, hsize'⟩ := Run.run_of_step (h := [])
    (fun s hist => s.2 = listed (hist.map Prod.fst) ∧ LinksTo s.1 s.2 ∧
      s.1.cacheSize = s.2.length % 2^32)
    (fun s hist op ⟨hlisted, hlinks, hsize⟩ hop => by
      refine ⟨(), _, rfl, ?_, hop.serve hlinks hsize⟩
      simp [listed, hlisted])
    ⟨rfl, linksTo_nil hleft hright, hsize⟩ hops
  rw [List.nil_append, Run.map_fst_of_run hrun] at hlisted
  refine ⟨hist, s.1, ?_, ?_, ?_⟩ <;> rw [← hlisted]
  · exact hrun
  · exact hlinks
  · exact hsize'

/-- After every run of calls from the empty list, the links of the cache are a doubly linked list of
the nodes that were added and not removed, most recent first. -/
theorem lru_faithful (c : Cache) (hleft : c.cacheLeft = none) (hright : c.cacheRight = none)
    (hsize : c.cacheSize = 0) (ops : List LruOp)
    (hops : Run.Along lruStep (fun s op => op.Allowed s.1 s.2) (c, []) ops) :
    ∃ hist c', Run.run lruStep (c, []) ops = some (hist, c', listed ops) ∧
      Faithful c' (listed ops) := by
  obtain ⟨hist, c', hrun, hlinks, hsize'⟩ := linksTo_of_run hleft hright hsize hops
  exact ⟨hist, c', hrun, hlinks.faithful hsize'⟩

/-- A cache without nodes. -/
def noNodes : Cache :=
  empty Allocator.bump ⟨fun _ => Block.zero, fun _ => true, 0⟩ fun _ => Block.zero

/-- Nodes are taken out of the middle, when one is to be written back, and from the end. -/
def someCalls : List LruOp :=
  [.add 1, .add 2, .store 2 ⟨0, 5, true, none, some 1, none⟩, .add 3, .writeBack 2,
    .dontWriteBack 1, .add 2]

/-- Two nodes are left, the more recent of which was removed before and added again. -/
theorem lru_faithful_two : ∃ hist c',
    Run.run lruStep (noNodes, []) someCalls = some (hist, c', [2, 3]) ∧ Faithful c' [2, 3] := by
  exact lru_faithful noNodes rfl rfl rfl someCalls (by decide)

/-- Nodes that are added one after another. -/
theorem along_add (c : Cache) {l qs : List ℕ} (hnd : qs.Nodup) (hl : ∀ q ∈ qs, q ∉ l) :
    Run.Along lruStep (fun s op => op.Allowed s.1 s.2) (c, l) (qs.map LruOp.add) := by
  induction qs generalizing c l with
  | nil => trivial
  | cons q qs ih =>
    obtain ⟨hq, hqs⟩ := List.nodup_cons.mp hnd
    refine ⟨hl q (by simp), fun o s' hs => ?_⟩
    obtain rfl : (LruOp.serve c (.add q), q :: l) = s' := by simpa [lruStep, LruOp.edit] using hs
    refine ih _ hqs fun r hr => ?_
    rw [List.mem_cons, not_or]
    exact ⟨fun heq => hq (heq ▸ hr), hl r (by simp [hr])⟩

theorem length_listed_add (qs : List ℕ) : (listed (qs.map LruOp.add)).length = qs.length := by
  induction qs using List.reverseRecOn with
  | nil => rfl
  | append_singleton qs q ih =>
    have hlisted : listed ((qs ++ [q]).map LruOp.add) = q :: listed (qs.map LruOp.add) := by
      simp [listed, LruOp.edit]
    rw [hlisted, List.length_cons, ih, List.length_append, List.length_singleton]

/-- The first `n` nodes are added. -/
def adds (n : ℕ) : List LruOp := (List.range n).map LruOp.add

/-- There can be any number of nodes in the list. -/
theorem run_adds (n : ℕ) :
    Run.Along lruStep (fun s op => op.Allowed s.1 s.2) (noNodes, []) (adds n) ∧
      ∃ hist c', Run.run lruStep (noNodes, []) (adds n) = some (hist, c', listed (adds n)) ∧
        (listed (adds n)).length = n ∧ c'.cacheSize = n % 2^32 := by
  have hops : Run.Along lruStep (fun s op => op.Allowed s.1 s.2) (noNodes, []) (adds n) :=
    along_add noNodes List.nodup_range fun q _ => List.not_mem_nil
  obtain ⟨hist, c', hrun, -, hsize⟩ := linksTo_of_run rfl rfl rfl hops
  have hlength : (listed (adds n)).length = n := by
    rw [adds, length_listed_add, List.length_range]
  exact ⟨hops, hist, c', hrun, hlength, by rw [hsize, hlength]⟩

/-- When `2^32` nodes are in the list, `cache_size` is 0. -/
theorem cache_size_wraps :
    Run.Along lruStep (fun s op => op.Allowed s.1 s.2) (noNodes, []) (adds (2^32)) ∧
      ∃ hist c', Run.run lruStep (noNodes, []) (adds (2^32)) =
          some (hist, c', listed (adds (2^32))) ∧
        (listed (adds (2^32))).length = 2^32 ∧ c'.cacheSize = 0 := by
  refine (run_adds (2^32)).imp_right ?_
  rintro ⟨hist, c', hrun, hlength, hsize⟩
  refine ⟨hist, c', hrun, hlength, ?_⟩
  rw [hsize, Nat.mod_self]

end Cache

end GemOS.Objstore
