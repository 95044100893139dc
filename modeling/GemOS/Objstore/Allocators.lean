import GemOS.Lib.Run
import GemOS.Objstore.Store

/-!
# The three allocators

`fetch_free_id` and `free_inode_id`, `fetch_free_block` and `free_block`, `get_block_for_cache` and
`free_cache_id`. Over any interleaving of these calls, `allocators_exact` says that a number is
handed out exactly when one is free, that a call changes the bit of its number and no other, and
that a number is not handed out again before it is freed.
-/

namespace GemOS.Objstore

/-- The allocators. -/
inductive Pool where
  /-- The ids of objects. -/
  | inode
  /-- The blocks of the disk. -/
  | block
  /-- The slots of the cache. -/
  | cache
  deriving DecidableEq

/-- The bytes of the bitmap: `MAX_OBJECT/8`, `MAX_BLOCKS/8`, and `BLOCK_SIZE`. -/
def Pool.bytes : Pool → ℕ
  | .inode => 2^17
  | .block => 2^20
  | .cache => 4096

/-- The globals of the store and those of the cache. -/
structure Maps where
  /-- Those of the store. -/
  tables : Tables
  /-- Those of the cache. -/
  cache : Cache

/-- A call of an allocator. A number that is freed has a bit in the bitmap. -/
inductive AllocOp where
  /-- `fetch_free_id`, `fetch_free_block`, or `get_block_for_cache`. -/
  | fetch (p : Pool)
  /-- `free_inode_id`, `free_block`, or `free_cache_id`. -/
  | free (p : Pool) (n : Fin (8 * p.bytes))

namespace Maps

/-- The bitmap of an allocator. -/
def map (s : Maps) : Pool → ByteMap
  | .inode => s.tables.inodemap
  | .block => s.tables.blockmap
  | .cache => s.cache.cachemap

/-- The cursor of an allocator. -/
def itr (s : Maps) : Pool → ℕ
  | .inode => s.tables.inodeBitItr
  | .block => s.tables.blockBitItr
  | .cache => s.cache.cacheBitItr

/-- A call of an allocator; the result of a `free` is not used. -/
def step (s : Maps) : AllocOp → Option (ℕ × Maps)
  | .fetch .inode => some (s.tables.fetchFreeId.1, { s with tables := s.tables.fetchFreeId.2 })
  | .fetch .block => some (s.tables.fetchFreeBlock.1,
      { s with tables := s.tables.fetchFreeBlock.2 })
  | .fetch .cache => some (s.cache.getBlockForCache.1,
      { s with cache := s.cache.getBlockForCache.2 })
  | .free .inode n => some (0, { s with tables := s.tables.freeInodeId n })
  | .free .block n => some (0, { s with tables := s.tables.freeBlock n })
  | .free .cache n => some (0, { s with cache := s.cache.freeCacheId n })

end Maps

/-- What a call does. -/
def AllocSpec (s : Maps) (r : ℕ) (s' : Maps) : AllocOp → Prop
  | .fetch p =>
    (r = 0 ↔ ∀ n, 2 ≤ n → n < 8 * p.bytes → (s.map p).bit n = true) ∧
      (r = 0 → ∀ q n, (s'.map q).bit n = (s.map q).bit n) ∧
      (0 < r → 2 ≤ r ∧ r < 8 * p.bytes ∧ (s.map p).bit r = false ∧
        ∀ q n, (s'.map q).bit n = ((s.map q).bit n || decide (q = p ∧ n = r)))
  | .free p k => ∀ q n, (s'.map q).bit n = ((s.map q).bit n && !decide (q = p ∧ n = k))

variable {s s' : Maps} {p q : Pool} {r i : ℕ} {m : ByteMap} {op : AllocOp}
  {hist : List (AllocOp × ℕ)}

/-! ## One call -/

/-- A bitmap and a cursor are replaced. -/
def Maps.set (s : Maps) (map : ByteMap) (itr : ℕ) : Pool → Maps
  | .inode => { s with tables := { s.tables with inodemap := map, inodeBitItr := itr } }
  | .block => { s with tables := { s.tables with blockmap := map, blockBitItr := itr } }
  | .cache => { s with cache := { s.cache with cachemap := map, cacheBitItr := itr } }

theorem Maps.map_set (s : Maps) (map : ByteMap) (itr : ℕ) (p q : Pool) :
    (s.set map itr p).map q = if q = p then map else s.map q := by
  cases p <;> cases q <;> rfl

/-- The three searches are one function. -/
theorem Maps.step_fetch (s : Maps) (p : Pool)
    (h : ByteMap.fetchFree p.bytes (s.map p) (s.itr p) = (r, m, i)) :
    s.step (.fetch p) = some (r, s.set m i p) := by
  cases p
  · have hfetch : s.tables.fetchFreeId =
        (r, { s.tables with inodemap := m, inodeBitItr := i }) := by
      unfold Tables.fetchFreeId
      rw [show ByteMap.fetchFree (2^17) s.tables.inodemap s.tables.inodeBitItr = (r, m, i) from h]
    rw [step, hfetch]
    rfl
  · have hfetch : s.tables.fetchFreeBlock =
        (r, { s.tables with blockmap := m, blockBitItr := i }) := by
      unfold Tables.fetchFreeBlock
      rw [show ByteMap.fetchFree (2^20) s.tables.blockmap s.tables.blockBitItr = (r, m, i) from h]
    rw [step, hfetch]
    rfl
  · have hfetch : s.cache.getBlockForCache =
        (r, { s.cache with cachemap := m, cacheBitItr := i }) := by
      unfold Cache.getBlockForCache
      rw [show ByteMap.fetchFree 4096 s.cache.cachemap s.cache.cacheBitItr = (r, m, i) from h]
    rw [step, hfetch]
    rfl

/-- The three functions that free are one function. -/
theorem Maps.step_free (s : Maps) (p : Pool) (n : Fin (8 * p.bytes)) :
    s.step (.free p n) = some (0, s.set ((s.map p).clearBit n) (s.itr p) p) := by
  cases p <;> rfl

theorem Pool.bytes_pos (p : Pool) : 0 < p.bytes := by
  cases p <;> decide

/-- Every call returns. -/
theorem Maps.step_some (s : Maps) (op : AllocOp) : ∃ r s', s.step op = some (r, s') := by
  cases op with
  | fetch p => exact ⟨_, _, s.step_fetch p rfl⟩
  | free p n => exact ⟨_, _, s.step_free p n⟩

/-- Every call does what it should. -/
theorem allocSpec (h : s.step op = some (r, s')) : AllocSpec s r s' op := by
  cases op with
  | fetch p =>
    rcases ByteMap.fetchFree_spec p.bytes_pos (s.map p) (s.itr p) with
      ⟨hfull, heq⟩ | ⟨b, m, heq, h₂, hlt, hfree, hbit⟩
    · rw [s.step_fetch p heq] at h
      obtain ⟨rfl, rfl⟩ := Prod.mk.inj (Option.some.inj h)
      refine ⟨iff_of_true rfl hfull, fun _ q n => ?_, fun h0 => absurd h0 (lt_irrefl 0)⟩
      rw [Maps.map_set]
      split_ifs with hq
      · rw [hq]
      · rfl
    · rw [s.step_fetch p heq] at h
      obtain ⟨rfl, rfl⟩ := Prod.mk.inj (Option.some.inj h)
      -- The bit that was found is clear, so the map was not full.
      refine ⟨iff_of_false (by omega) fun hfull => ?_, fun h0 => by omega, fun _ =>
        ⟨h₂, hlt, hfree, fun q n => ?_⟩⟩
      · rw [hfull b h₂ hlt] at hfree
        exact absurd hfree (by simp)
      · rw [Maps.map_set]
        split_ifs with hq
        · rw [hbit, hq]
          simp
        · simp [hq]
  | free p k =>
    rw [s.step_free p k] at h
    obtain ⟨rfl, rfl⟩ := Prod.mk.inj (Option.some.inj h)
    intro q n
    rw [Maps.map_set]
    split_ifs with hq
    · rw [ByteMap.bit_clearBit, hq]
      simp
    · simp [hq]

/-! ## Runs -/

/-- The number `r` was handed out and not freed since. -/
def HandedOut (hist : List (AllocOp × ℕ)) (p : Pool) (r : ℕ) : Prop :=
  ∃ pre post, hist = pre ++ (.fetch p, r) :: post ∧ ∀ e ∈ post, ∀ k, e.1 = .free p k → k.val ≠ r

/-- After one more call. -/
theorem HandedOut.of_append {e : AllocOp × ℕ} (h : HandedOut (hist ++ [e]) p r) :
    e = (.fetch p, r) ∨ HandedOut hist p r ∧ ∀ k, e.1 = .free p k → k.val ≠ r := by
  obtain ⟨pre, post, heq, hpost⟩ := h
  rcases List.eq_nil_or_concat post with rfl | ⟨mid, x, rfl⟩
  · obtain ⟨-, hx⟩ := List.append_inj' heq rfl
    exact Or.inl (List.singleton_injective hx)
  · rw [List.concat_eq_append, ← List.cons_append, ← List.append_assoc] at heq
    obtain ⟨hhist, hx⟩ := List.append_inj' heq rfl
    obtain rfl : e = x := List.singleton_injective hx
    refine Or.inr ⟨⟨pre, mid, hhist, fun y hy => hpost y (by simp [hy])⟩, hpost e (by simp)⟩

/-- The bits of the numbers that were handed out are set. -/
def Held (s : Maps) (hist : List (AllocOp × ℕ)) : Prop :=
  ∀ p r, 0 < r → HandedOut hist p r → (s.map p).bit r = true

theorem Held.step (h : Held s hist) (hspec : AllocSpec s r s' op) :
    Held s' (hist ++ [(op, r)]) := by
  intro p x hx hout
  rcases hout.of_append with heq | ⟨hout, hkeep⟩
  · obtain ⟨rfl, rfl⟩ := Prod.mk.inj heq
    rw [(hspec.2.2 hx).2.2.2]
    simp
  · have hold := h p x hx hout
    cases op with
    | fetch q =>
      by_cases h0 : r = 0
      · rw [hspec.2.1 h0, hold]
      · rw [(hspec.2.2 (by omega)).2.2.2, hold, Bool.true_or]
    | free q k =>
      have hne : ¬(p = q ∧ x = k) := by
        rintro ⟨rfl, hxk⟩
        exact hkeep k rfl hxk.symm
      rw [hspec p x, hold]
      simp [hne]

/-- Over any interleaving of the calls of the three allocators, every call does what it should, and
no number is handed out that was handed out before and not freed since. -/
theorem allocators_exact (s : Maps) (ops : List AllocOp) :
    ∃ hist s', Run.run Maps.step s ops = some (hist, s') ∧
      Run.Along Maps.step (fun s op => ∀ r s', s.step op = some (r, s') →
        AllocSpec s r s' op) s ops ∧
      ∀ pre p r post, hist = pre ++ (.fetch p, r) :: post → 0 < r → ¬HandedOut pre p r := by
  have hstart : Held s [] := by
    rintro p r - ⟨pre, post, hnil, -⟩
    simp at hnil
  have hall : Run.Along Maps.step (fun _ _ => True) s ops :=
    Run.along_of_forall fun _ _ _ => trivial
  obtain ⟨hist, s', hrun, -, hdistinct⟩ := Run.history_of_step (P := fun _ _ => True) Held
    (fun hist op r => ∀ p, op = .fetch p → 0 < r → ¬HandedOut hist p r)
    (fun s hist op hs _ => by
      obtain ⟨r, s', hstep⟩ := s.step_some op
      refine ⟨r, s', hstep, hs.step (allocSpec hstep), ?_⟩
      rintro p rfl hr hout
      have hfree := ((allocSpec hstep).2.2 hr).2.2.1
      rw [hs p r hr hout] at hfree
      exact absurd hfree (by simp))
    hstart hall
  refine ⟨hist, s', hrun, Run.along_of_forall fun op _ s r s' hstep => allocSpec hstep,
    fun pre p r post heq => hdistinct pre (.fetch p) r post heq p rfl⟩

end GemOS.Objstore
