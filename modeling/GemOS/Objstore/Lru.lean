import GemOS.Objstore.Cache

/-!
# The LRU list

`LinksTo c l` says that the links `right` from `cache_left` and `left` from `cache_right` are the
list `l` of nodes, most recent first, and its reverse. `addAtTopOfCache` pushes a node
(`LinksTo.addAtTopOfCache`) and `takeOut` removes one from any place (`LinksTo.takeOut`). Neither
touches anything else of the cache than these links and `cache_size`, which `LinksOnly` says.
`Lru c l` says of `cache_size`, too, that it is the length of the list, which a `u32` has to hold.
-/

namespace GemOS.Objstore

/-- A node without its LRU links. -/
def CacheObj.core (n : CacheObj) : CacheObj := { n with left := none, right := none }

namespace Cache

/-- The LRU links of the cache are the list `l`, in both directions. -/
structure LinksTo (c : Cache) (l : List ℕ) : Prop where
  /-- Following `right` from `cache_left`. -/
  right : Chain c.heap.mem CacheObj.right c.cacheLeft l
  /-- Following `left` from `cache_right`. -/
  left : Chain c.heap.mem CacheObj.left c.cacheRight l.reverse
  /-- No node is listed twice. -/
  nodup : l.Nodup

/-- The LRU list of the cache is `l`, in both directions, and `cache_size` is its length. -/
structure Lru (c : Cache) (l : List ℕ) : Prop extends LinksTo c l where
  /-- `cache_size`. -/
  size : c.cacheSize = l.length

/-- Between `c` and `c'` only the LRU list changed. -/
structure LinksOnly (c c' : Cache) : Prop where
  /-- The nodes, apart from their LRU links. -/
  core : ∀ q, (c'.heap.mem q).core = (c.heap.mem q).core
  /-- The disk. -/
  disk : c'.disk = c.disk
  /-- The data area. -/
  slots : c'.slots = c.slots
  /-- The buckets. -/
  table : c'.table = c.table
  /-- The bitmap. -/
  cachemap : c'.cachemap = c.cachemap
  /-- The cursor of the bitmap. -/
  cacheBitItr : c'.cacheBitItr = c.cacheBitItr

namespace LinksOnly

variable {c c' : Cache}

theorem cacheAddr (h : LinksOnly c c') (q : ℕ) :
    (c'.heap.mem q).cacheAddr = (c.heap.mem q).cacheAddr :=
  show (c'.heap.mem q).core.cacheAddr = (c.heap.mem q).core.cacheAddr by rw [h.core]

theorem diskAddr (h : LinksOnly c c') (q : ℕ) :
    (c'.heap.mem q).diskAddr = (c.heap.mem q).diskAddr :=
  show (c'.heap.mem q).core.diskAddr = (c.heap.mem q).core.diskAddr by rw [h.core]

theorem dirty (h : LinksOnly c c') (q : ℕ) : (c'.heap.mem q).dirty = (c.heap.mem q).dirty :=
  show (c'.heap.mem q).core.dirty = (c.heap.mem q).core.dirty by rw [h.core]

theorem next (h : LinksOnly c c') (q : ℕ) : (c'.heap.mem q).next = (c.heap.mem q).next :=
  show (c'.heap.mem q).core.next = (c.heap.mem q).core.next by rw [h.core]

end LinksOnly

/-- A small number is itself as a `u32`. -/
theorem u32_of_lt {n : ℕ} (h : n < 2^32) : u32 n = n := by
  unfold u32
  omega

/-! ## Pushing a node -/

section Push

variable {c : Cache} {l : List ℕ} {p : ℕ}

/-- The new node gets the old top as its right neighbour, and becomes its left neighbour. -/
theorem addAtTopOfCache_mem (hp : c.cacheLeft ≠ some p) (q : ℕ) :
    (c.addAtTopOfCache p).heap.mem q =
      if q = p then { c.heap.mem p with right := c.cacheLeft, left := none }
      else if c.cacheLeft = some q then { c.heap.mem q with left := some p }
      else c.heap.mem q := by
  by_cases hq : q = p
  · subst hq
    simp [addAtTopOfCache, hp]
  · simp [addAtTopOfCache, hq]

/-- `addAtTopOfCache` changes only the LRU list. -/
theorem addAtTopOfCache_linksOnly (hp : c.cacheLeft ≠ some p) :
    LinksOnly c (c.addAtTopOfCache p) := by
  refine ⟨fun q => ?_, rfl, rfl, rfl, rfl, rfl⟩
  rw [addAtTopOfCache_mem hp]
  split_ifs with h
  · rw [h]
    rfl
  · rfl
  · rfl

@[simp] theorem addAtTopOfCache_cacheRight (c : Cache) (p : ℕ) :
    (c.addAtTopOfCache p).cacheRight = if c.cacheRight = none then some p else c.cacheRight := rfl

@[simp] theorem addAtTopOfCache_cacheSize (c : Cache) (p : ℕ) :
    (c.addAtTopOfCache p).cacheSize = u32 (c.cacheSize + 1) := rfl

@[simp] theorem addAtTopOfCache_live (c : Cache) (p : ℕ) :
    (c.addAtTopOfCache p).heap.live = c.heap.live := by
  simp [addAtTopOfCache]

@[simp] theorem addAtTopOfCache_count (c : Cache) (p : ℕ) :
    (c.addAtTopOfCache p).heap.count = c.heap.count := by
  simp [addAtTopOfCache]

/-- A node outside the list is not its top. -/
theorem LinksTo.cacheLeft_ne (h : LinksTo c l) (hp : p ∉ l) : c.cacheLeft ≠ some p := by
  rw [h.right.head_eq]
  exact fun hp' => hp (List.mem_of_head? hp')

/-- Pushing a node that is not in the list. -/
theorem LinksTo.addAtTopOfCache (h : LinksTo c l) (hp : p ∉ l) :
    LinksTo (c.addAtTopOfCache p) (p :: l) := by
  have hmem := addAtTopOfCache_mem (h.cacheLeft_ne hp)
  have hhead := h.right.head_eq
  refine ⟨⟨rfl, ?_⟩, ?_, List.nodup_cons.mpr ⟨hp, h.nodup⟩⟩
  · rw [hmem, if_pos rfl]
    refine h.right.congr fun q hq => ?_
    rw [hmem, if_neg (by rintro rfl; exact hp hq)]
    split_ifs <;> rfl
  · -- The left links: the list gets a last cell, behind the old top if there is one.
    cases l with
    | nil =>
      have hnone : c.cacheRight = none := h.left
      simp [hnone, hmem]
    | cons b l =>
      have hbp : b ≠ p := by rintro rfl; simp at hp
      have hleft := h.left
      rw [List.reverse_cons] at hleft
      obtain ⟨z, hz⟩ : ∃ z, c.cacheRight = some z := by
        rw [hleft.head_eq]
        cases l.reverse <;> simp
      rw [List.reverse_cons, List.reverse_cons, List.append_assoc, addAtTopOfCache_cacheRight, hz,
        if_neg (by simp)]
      rw [hz] at hleft
      -- Read from the right, the list ends with the old top `b`, which now points to `p`.
      refine hleft.append ?_ ?_ ?_
      · rw [hmem, if_neg hbp, if_pos (by rw [hhead]; rfl)]
      · rw [hmem, if_pos rfl]
      · intro q hq
        have hql : q ∈ l := List.mem_reverse.mp hq
        have hbl : b ∉ l := (List.nodup_cons.mp h.nodup).1
        rw [hmem, if_neg (by rintro rfl; simp [hql] at hp), if_neg]
        rw [hhead]
        intro hqb
        obtain rfl : b = q := Option.some.inj hqb
        exact hbl hql

/-- Pushing a node that is not in the list. -/
theorem Lru.addAtTopOfCache (h : Lru c l) (hp : p ∉ l) (hlen : l.length + 1 < 2^32) :
    Lru (c.addAtTopOfCache p) (p :: l) := by
  refine ⟨h.toLinksTo.addAtTopOfCache hp, ?_⟩
  rw [addAtTopOfCache_cacheSize, h.size, List.length_cons]
  exact_mod_cast u32_of_lt hlen

end Push

/-! ## Taking a node out -/

section TakeOut

variable {c : Cache} {l l₁ l₂ : List ℕ} {p : ℕ}

/-- The neighbours of the node get each other as neighbours. -/
theorem takeOut_mem (hp : (c.heap.mem p).left ≠ some p) (q : ℕ) :
    (c.takeOut p).heap.mem q =
      { c.heap.mem q with
        right := if (c.heap.mem p).left = some q then (c.heap.mem p).right else (c.heap.mem q).right
        left := if (c.heap.mem p).right = some q then (c.heap.mem p).left
          else (c.heap.mem q).left } := by
  simp only [takeOut, Heap.free_mem, Heap.modify?_mem, if_neg hp]
  split_ifs <;> rfl

/-- `takeOut` changes only the LRU list. -/
theorem takeOut_linksOnly (hp : (c.heap.mem p).left ≠ some p) : LinksOnly c (c.takeOut p) :=
  ⟨fun q => by rw [takeOut_mem hp]; rfl, rfl, rfl, rfl, rfl, rfl⟩

@[simp] theorem takeOut_cacheLeft (c : Cache) (p : ℕ) :
    (c.takeOut p).cacheLeft =
      if (c.heap.mem p).left = none then (c.heap.mem p).right else c.cacheLeft := rfl

theorem takeOut_cacheRight (hp : (c.heap.mem p).left ≠ some p) :
    (c.takeOut p).cacheRight =
      if (c.heap.mem p).right = none then (c.heap.mem p).left else c.cacheRight := by
  simp only [takeOut, Heap.modify?_mem, if_neg hp]

@[simp] theorem takeOut_cacheSize (c : Cache) (p : ℕ) :
    (c.takeOut p).cacheSize = u32 (c.cacheSize - 1) := rfl

@[simp] theorem takeOut_live (c : Cache) (p : ℕ) :
    (c.takeOut p).heap.live = c.heap.live.erase p := by
  simp [takeOut]

@[simp] theorem takeOut_count (c : Cache) (p : ℕ) : (c.takeOut p).heap.count = c.heap.count := by
  simp [takeOut]

/-- The left neighbour of a node of the list is the last node before it. -/
theorem LinksTo.left_eq (h : LinksTo c (l₁ ++ p :: l₂)) : (c.heap.mem p).left = l₁.getLast? := by
  have hleft := h.left
  rw [List.reverse_append, List.reverse_cons, List.append_assoc, List.singleton_append] at hleft
  rw [hleft.next_head, List.head?_reverse]

/-- No node of the list is its own left neighbour. -/
theorem LinksTo.left_ne (h : LinksTo c (l₁ ++ p :: l₂)) : (c.heap.mem p).left ≠ some p := by
  rw [h.left_eq]
  intro hp
  have := h.nodup
  rw [List.nodup_append] at this
  exact this.2.2 p (List.mem_of_getLast? hp) p (by simp) rfl

/-- Taking a node out of the list. -/
theorem LinksTo.takeOut (h : LinksTo c (l₁ ++ p :: l₂)) :
    LinksTo (c.takeOut p) (l₁ ++ l₂) := by
  have hmem := takeOut_mem h.left_ne
  have hleft := h.left_eq
  have hright : (c.heap.mem p).right = l₂.head? := h.right.next_head
  refine ⟨?_, ?_, ?_⟩
  · have hunlink := h.right.unlink (c.takeOut p).heap.mem h.nodup
      (fun q _ => by rw [hmem, hleft])
    rw [takeOut_cacheLeft, hleft]
    simpa using hunlink
  · -- In the other direction the roles of the two neighbours are swapped.
    have hchain := h.left
    have hnd := List.nodup_reverse.mpr h.nodup
    rw [List.reverse_append, List.reverse_cons, List.append_assoc,
      List.singleton_append] at hchain hnd
    have hunlink := hchain.unlink (c.takeOut p).heap.mem hnd
      (fun q _ => by rw [hmem, hright, List.getLast?_reverse])
    rw [takeOut_cacheRight h.left_ne, hright, List.reverse_append]
    simpa using hunlink
  · exact h.nodup.sublist ((List.sublist_cons_self p l₂).append_left l₁)

/-- Taking a node out of the list. -/
theorem Lru.takeOut (h : Lru c (l₁ ++ p :: l₂)) (hlen : (l₁ ++ p :: l₂).length < 2^32) :
    Lru (c.takeOut p) (l₁ ++ l₂) := by
  refine ⟨h.toLinksTo.takeOut, ?_⟩
  rw [takeOut_cacheSize, h.size]
  have : (l₁ ++ p :: l₂).length = (l₁ ++ l₂).length + 1 := by simp; omega
  rw [this] at hlen ⊢
  push_cast
  rw [add_sub_cancel_right]
  exact u32_of_lt (by omega)

end TakeOut

end Cache

end GemOS.Objstore
