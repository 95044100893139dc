import GemOS.Objstore.FiniteMap

/-!
# The ids in the hash table

What runs of `create_object` leave in the chains of `hashTable`. A new id is linked once into an
empty bucket. In a bucket that has nodes it is linked twice, by `create_object` itself and by
`insert_to_hash_table`, and stays twice: each id is listed once exactly when no two keys share a
bucket.
-/

namespace GemOS.Objstore

variable {σ : Type} [BlockLayer σ] {dom : Set ℕ} {L : Lawful σ dom} {s s' : Store σ}
  {B : ℕ → List ℕ} {hist : List (List UInt8 × ℤ)} {key : List UInt8} {r : ℤ}

/-- Each id that was created is listed once in the hash table, in the bucket of its key, and no
other id is. -/
def Store.ListsOnce (s : Store σ) (hist : List (List UInt8 × ℤ)) : Prop :=
  ∃ B, Table s.toTables B ∧
    (∀ key (id : ℕ), (key, (id : ℤ)) ∈ hist → (s.ids B (hash key)).count id = 1 ∧
      ∀ v, v ≠ hash key → id ∉ s.ids B v) ∧
    ∀ v, ∀ id ∈ s.ids B v, ∃ key, (key, (id : ℤ)) ∈ hist

/-- The calls of `create_object` in a history of calls on the namespace. -/
def creates (hist : List (List UInt8 × ℤ)) : List (NameOp × ℤ) :=
  hist.map fun x => (.create x.1, x.2)

theorem wasCreated_creates {id : ℤ} :
    WasCreated (creates hist) key id ↔ (key, id) ∈ hist ∧ id ≠ -1 := by
  simp [WasCreated, creates]

/-- Every call so far got an id, and the bucket of its key holds this id alone. -/
structure ListsEach (s : Store σ) (B : ℕ → List ℕ) (hist : List (List UInt8 × ℤ)) : Prop where
  /-- The bucket of a key. -/
  once : ∀ key r, (key, r) ∈ hist → ∃ id : ℕ, r = id ∧ s.ids B (hash key) = [id]
  /-- The other buckets. -/
  only : ∀ v, (∀ x ∈ hist, hash x.1 ≠ v) → s.ids B v = []

/-- Some id is listed twice in a bucket. -/
def ListsTwice (s : Store σ) (B : ℕ → List ℕ) : Prop := ∃ v id, 2 ≤ (s.ids B v).count id

/-- The ids of a history of creations are those of different keys. -/
theorem HoldsMap.key_eq {key' : List UInt8} {id : ℕ} (h : HoldsMap L s B (creates hist))
    (hkey : (key, (id : ℤ)) ∈ hist) (hkey' : (key', (id : ℤ)) ∈ hist) : key = key' := by
  have hof : ∀ k, (k, (id : ℤ)) ∈ hist → keyOf (L.content s.layer) id = k := fun k hk => by
    obtain ⟨n, hn, hlookup⟩ := (h.lookup_iff k id).mp (wasCreated_creates.mpr ⟨hk, by omega⟩)
    obtain rfl : n = id := by exact_mod_cast hn
    exact (mem_of_lookup hlookup).2
  rw [← hof key hkey, hof key' hkey']

theorem ListsEach.listsOnce (h : ListsEach s B hist) (hmap : HoldsMap L s B (creates hist)) :
    s.ListsOnce hist := by
  -- The key of a listed id.
  have hlisted : ∀ v, ∀ id ∈ s.ids B v, ∃ key, (key, (id : ℤ)) ∈ hist ∧ hash key = v :=
    fun v id hid => by
      by_cases hv : ∀ x ∈ hist, hash x.1 ≠ v
      · rw [h.only v hv] at hid
        exact absurd hid (by simp)
      · push Not at hv
        obtain ⟨⟨key, r⟩, hmem, rfl⟩ := hv
        obtain ⟨n, rfl, hids⟩ := h.once key r hmem
        rw [hids, List.mem_singleton] at hid
        exact ⟨key, hid ▸ hmem, rfl⟩
  refine ⟨B, hmap.names.table, fun key id hmem => ⟨?_, fun v hv hid => ?_⟩, fun v id hid => ?_⟩
  · obtain ⟨n, hn, hids⟩ := h.once key id hmem
    obtain rfl : id = n := by exact_mod_cast hn
    rw [hids]
    simp
  · obtain ⟨key', hmem', rfl⟩ := hlisted v id hid
    exact hv (congrArg hash (hmap.key_eq hmem' hmem))
  · obtain ⟨key, hmem, -⟩ := hlisted v id hid
    exact ⟨key, hmem⟩

omit [BlockLayer σ] in
theorem ListsTwice.not_listsOnce (h : ListsTwice s B) (ht : Table s.toTables B) :
    ¬s.ListsOnce hist := by
  rintro ⟨B', ht', honce, honly⟩
  obtain ⟨v, id, htwo⟩ := h
  obtain rfl : B = B' := funext fun v => (ht.chain v).unique (ht'.chain v)
  have hid : id ∈ s.ids B v := List.count_pos_iff.mp (by omega)
  obtain ⟨key, hmem⟩ := honly v id hid
  obtain ⟨hone, hother⟩ := honce key id hmem
  by_cases hv : v = hash key
  · rw [hv] at htwo
    omega
  · exact hother v hv hid

/-- When the keys so far have different hashes, some id is free. -/
theorem HoldsMap.exists_free (h : HoldsMap L s B (creates hist))
    (hnodup : (hist.map fun x => hash x.1).Nodup) :
    ∃ i, 2 ≤ i ∧ i < 2^20 ∧ s.inodemap.bit i = false := by
  by_contra hall
  push Not at hall
  -- More than 2^15 ids would be in use, for keys of at most 2^15 hashes.
  have hsub : Finset.Ico 2 (2^20) ⊆ (hist.map fun x => x.2.toNat).toFinset := fun i hi => by
    rw [Finset.mem_Ico] at hi
    obtain ⟨key, hkey⟩ := (h.used_iff i hi.1 hi.2).mp (by simpa using hall i hi.1 hi.2)
    obtain ⟨hmem, -⟩ := wasCreated_creates.mp ((h.lookup_iff key i).mpr ⟨i, rfl, hkey⟩)
    rw [List.mem_toFinset, List.mem_map]
    exact ⟨_, hmem, Int.toNat_natCast i⟩
  have hcard := Finset.card_le_card hsub
  have hlen := List.toFinset_card_le (hist.map fun x => x.2.toNat)
  have hhash : (hist.map fun x => hash x.1).toFinset ⊆ Finset.range (2^15 + 1) := fun v hv => by
    obtain ⟨x, -, rfl⟩ := List.mem_map.mp (List.mem_toFinset.mp hv)
    exact Finset.mem_range_succ_iff.mpr (hash_le x.1)
  have hcard' := Finset.card_le_card hhash
  rw [List.toFinset_card_of_nodup hnodup, Finset.card_range, List.length_map] at hcard'
  rw [Nat.card_Ico] at hcard
  rw [List.length_map] at hlen
  omega

/-- What runs of `create_object` with different keys keep: each id is listed once when the keys have
different hashes, and else some id is listed twice. -/
structure Lists (L : Lawful σ dom) (s : Store σ) (B : ℕ → List ℕ) (hist : List (List UInt8 × ℤ)) :
    Prop where
  /-- The map of the keys. -/
  map : HoldsMap L s B (creates hist)
  /-- While the hashes are different. -/
  each : (hist.map fun x => hash x.1).Nodup → ListsEach s B hist
  /-- Once two keys have the same hash. -/
  twice : ¬(hist.map fun x => hash x.1).Nodup → ListsTwice s B

namespace Lists

theorem nodup_append {hist : List (List UInt8 × ℤ)} :
    ((hist ++ [(key, r)]).map fun x => hash x.1).Nodup ↔
      (hist.map fun x => hash x.1).Nodup ∧ ∀ x ∈ hist, hash x.1 ≠ hash key := by
  rw [List.map_append, List.nodup_append, List.map_singleton]
  constructor
  · rintro ⟨hnodup, -, hne⟩
    exact ⟨hnodup, fun x hx => hne _ (List.mem_map_of_mem hx) _ (List.mem_singleton_self _)⟩
  · rintro ⟨hnodup, hne⟩
    refine ⟨hnodup, List.nodup_singleton _, fun v hv w hw => ?_⟩
    obtain ⟨x, hx, rfl⟩ := List.mem_map.mp hv
    rw [List.mem_singleton.mp hw]
    exact hne x hx

theorem iff (h : Lists L s B hist) :
    s.ListsOnce hist ↔ (hist.map fun x => hash x.1).Nodup := by
  by_cases hnodup : (hist.map fun x => hash x.1).Nodup
  · exact iff_of_true ((h.each hnodup).listsOnce h.map) hnodup
  · exact iff_of_false ((h.twice hnodup).not_listsOnce h.map.names.table) hnodup

/-- A call that creates an object. -/
theorem created (h : Lists L s B hist) (hkey : KeyOk key) {B' : ℕ → List ℕ} {id : ℕ}
    (hnone : lookup hash (s.ids B) (keyOf (L.content s.layer)) key = none)
    (hnames : Store.Names L s' B') (hc : Store.Created L s s' B B' key id) :
    Lists L s' B' (hist ++ [(key, (id : ℤ))]) := by
  have hids := hc.ids
  refine ⟨?_, fun hnodup => ?_, fun hnodup => ?_⟩
  · have hmap := h.map.created hkey hnone hnames hc
    unfold creates at hmap ⊢
    rwa [List.map_append]
  · rw [nodup_append] at hnodup
    have heach := h.each hnodup.1
    -- No key so far has the hash of the new one: its bucket is empty, and gets one node.
    have hempty : s.ids B (hash key) = [] := heach.only _ hnodup.2
    rw [hempty, if_pos rfl, List.nil_append] at hids
    refine ⟨fun k r hmem => ?_, fun v hv => ?_⟩ <;> rw [hids]
    · rw [List.mem_append, List.mem_singleton, Prod.mk.injEq] at hmem
      rcases hmem with hmem | ⟨rfl, rfl⟩
      · obtain ⟨n, hn, hlist⟩ := heach.once k r hmem
        exact ⟨n, hn, by rw [Function.update_of_ne (hnodup.2 _ hmem), hlist]⟩
      · exact ⟨id, rfl, Function.update_self _ _ _⟩
    · have hv' : v ≠ hash key := fun h => hv (key, (id : ℤ)) (by simp) h.symm
      rw [Function.update_of_ne hv', heach.only v fun x hx => hv x (by simp [hx])]
  · by_cases hold : (hist.map fun x => hash x.1).Nodup
    · -- The bucket has the node of another key.
      rw [nodup_append] at hnodup
      push Not at hnodup
      obtain ⟨⟨k, r⟩, hmem, hk⟩ := hnodup hold
      obtain ⟨n, -, hlist⟩ := (h.each hold).once k r hmem
      rw [show hash k = hash key from hk] at hlist
      rw [hlist, if_neg (by simp)] at hids
      refine ⟨hash key, id, ?_⟩
      rw [hids, Function.update_self, List.count_append]
      simp
    · obtain ⟨v, i, htwo⟩ := h.twice hold
      refine ⟨v, i, htwo.trans ?_⟩
      rw [hids]
      by_cases hv : v = hash key
      · rw [hv, Function.update_self, List.count_append]
        omega
      · rw [Function.update_of_ne hv]

/-- A new key is created, or some id is listed twice already. -/
theorem step (h : Lists L s B hist) (hdom : ∀ b ∈ recordBlocks, b ∈ dom) (hkey : KeyOk key)
    (hnew : key ∉ hist.map Prod.fst) :
    ∃ r s', s.createObject key = some (r, s') ∧ ∃ B', Lists L s' B' (hist ++ [(key, r)]) := by
  obtain ⟨r, s', B', hcreate, hnames, hr⟩ := h.map.names.createObject hdom hkey
  refine ⟨r, s', hcreate, B', ?_⟩
  rcases hr with ⟨rfl, hfail, rfl, hcalls⟩ | ⟨id, rfl, hnone, hc⟩
  swap
  · exact h.created hkey hnone hnames hc
  -- The key is new, so that all ids are in use, and two keys have the same hash.
  have hhash : ¬(hist.map fun x => hash x.1).Nodup := fun hnodup => by
    rcases hfail with hfound | hfull
    · obtain ⟨n, hn⟩ := Option.ne_none_iff_exists'.mp hfound
      obtain ⟨hmem, -⟩ := wasCreated_creates.mp ((h.map.lookup_iff key n).mpr ⟨n, rfl, hn⟩)
      exact hnew (List.mem_map.mpr ⟨_, hmem, rfl⟩)
    · obtain ⟨i, h₂, hi, hfree⟩ := h.map.exists_free hnodup
      rw [hfull i h₂ hi] at hfree
      exact absurd hfree (by simp)
  refine ⟨?_, fun hnodup => absurd (nodup_append.mp hnodup).1 hhash, fun _ => ?_⟩
  · have hmap : HoldsMap L s' B' (creates hist ++ [(.create key, -1)]) :=
      h.map.calls hcalls fun _ _ => rfl
    unfold creates at hmap ⊢
    rwa [List.map_append]
  · rw [ListsTwice, hcalls.ids]
    exact h.twice hhash

/-- A run that creates new keys. -/
theorem run (h : Lists L s B hist) (hdom : ∀ b ∈ recordBlocks, b ∈ dom) (keys : List (List UInt8))
    (hkeys : ∀ key ∈ keys, KeyOk key) (hnodup : keys.Nodup)
    (hnew : ∀ key ∈ keys, key ∉ hist.map Prod.fst) :
    ∃ hist' s' B', Run.run Store.createObject s keys = some (hist', s') ∧
      Lists L s' B' (hist ++ hist') := by
  induction keys generalizing s B hist with
  | nil => exact ⟨[], s, B, rfl, by rwa [List.append_nil]⟩
  | cons key keys ih =>
    obtain ⟨hkey, hnodup⟩ := List.nodup_cons.mp hnodup
    obtain ⟨r, s₁, hcreate, B₁, h₁⟩ := h.step hdom (hkeys key (by simp)) (hnew key (by simp))
    obtain ⟨hist', s', B', hrun, h'⟩ := ih h₁ (fun k hk => hkeys k (by simp [hk])) hnodup
      fun k hk hmem => by
        rw [List.map_append, List.mem_append, List.map_singleton, List.mem_singleton] at hmem
        rcases hmem with hmem | rfl
        · exact hnew k (by simp [hk]) hmem
        · exact hkey hk
    rw [List.append_assoc] at h'
    exact ⟨_, s', B', Run.run_cons hcreate hrun, h'⟩

end Lists

/-- A new store lists no ids. -/
theorem Fresh.lists {t : Tables} (ht : Fresh t) {layer : σ} (hl : L.inv layer) :
    Lists L ⟨t, layer⟩ (fun _ => []) [] :=
  ⟨ht.holdsMap hl, fun _ => ⟨fun _ _ hmem => absurd hmem (by simp), fun _ _ => rfl⟩,
    fun h => absurd List.nodup_nil h⟩

/-- Over any lawful block layer, after a run of `create_object` with different keys on a new store,
the hash table lists each id once if and only if the keys have different hashes. -/
theorem create_lists_once {σ : Type} [BlockLayer σ] {dom : Set ℕ} (L : Lawful σ dom)
    (hdom : ∀ b ∈ recordBlocks, b ∈ dom) {A : Allocator} {d d' : Disk} {t : Tables} {layer : σ}
    (hzero : ∀ b < 1312, d.block b = Block.zero)
    (hinit : objstoreInit d (Tables.new A) = some (0, d', t)) (hlayer : L.inv layer)
    (keys : List (List UInt8)) (hkeys : ∀ key ∈ keys, KeyOk key) (hnodup : keys.Nodup) :
    ∃ hist s, Run.run Store.createObject (⟨t, layer⟩ : Store σ) keys = some (hist, s) ∧
      (s.ListsOnce hist ↔ (keys.map hash).Nodup) := by
  obtain ⟨-, hfresh⟩ := objstoreInit_fresh hzero hinit
  obtain ⟨hist, s, B, hrun, h⟩ := (hfresh.lists hlayer).run hdom keys hkeys hnodup (by simp)
  refine ⟨hist, s, hrun, ?_⟩
  rw [List.nil_append] at h
  rw [h.iff, ← Run.map_fst_of_run hrun, List.map_map]
  rfl

/-- Over the cache: two keys of different hashes. -/
theorem create_lists_once_cache :
    ∃ d' t, objstoreInit Cache.zeroDisk (Tables.new Allocator.bump) = some (0, d', t) ∧
      ∃ hist s, Run.run Store.createObject
          (⟨t, Cache.empty Allocator.bump d' fun _ => Block.zero⟩ : Store Cache) [[97], [98]] =
            some (hist, s) ∧
        (s.ListsOnce hist ↔ ([[97], [98]].map hash).Nodup) := by
  obtain ⟨d', t, hinit, hlayer⟩ := mount_zeroDisk
  exact ⟨d', t, hinit, create_lists_once spread_recordBlocks.lawful (fun b hb => hb)
    (fun _ _ => rfl) hinit hlayer _ (by decide) (by decide)⟩

/-- Two keys of one hash: the second id is linked twice. -/
theorem not_create_lists_once :
    ∃ d' t, objstoreInit Cache.zeroDisk (Tables.new Allocator.bump) = some (0, d', t) ∧
      ∃ hist s, Run.run Store.createObject
          (⟨t, Cache.empty Allocator.bump d' fun _ => Block.zero⟩ : Store Cache) [[97], [2, 19]] =
            some (hist, s) ∧
        ¬s.ListsOnce hist := by
  obtain ⟨d', t, hinit, hlayer⟩ := mount_zeroDisk
  obtain ⟨-, hfresh⟩ := objstoreInit_fresh (fun _ _ => rfl) hinit
  obtain ⟨hist, s, B, hrun, h⟩ := (hfresh.lists hlayer).run (fun b hb => hb) [[97], [2, 19]]
    (by decide) (by decide) (by simp)
  refine ⟨d', t, hinit, hist, s, hrun, ?_⟩
  rw [List.nil_append] at h
  rw [h.iff, show (fun x : List UInt8 × ℤ => hash x.1) = hash ∘ Prod.fst from rfl, ← List.map_map,
    Run.map_fst_of_run hrun]
  decide

end GemOS.Objstore
