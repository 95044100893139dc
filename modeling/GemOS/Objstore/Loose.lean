import GemOS.Lib.Segment
import GemOS.Objstore.Rename

/-!
# The namespace with freed nodes

`destroy_object` frees the node of an object and leaves it in its bucket, so that a new node may
later take the address of one that is still listed: a bucket may lose its end, or run into a cycle,
and a search need not end. `Loose L s U` is what is left of the invariant of the namespace: all
links stay within the addresses `U` that were ever allocated, and every node there has an object
with a record. The lemmas say what a call that returns has done to the maps and the records, and
that the nodes stay so.
-/

namespace GemOS.Objstore

/-- The links stay within `U`, and the ids of its nodes satisfy `P`. -/
structure Nodes (t : Tables) (P : ℕ → Prop) (U : Finset ℕ) : Prop where
  /-- The addresses were allocated. -/
  card_le : U.card ≤ t.heap.count
  /-- The heads of the buckets. -/
  head : ∀ v p, t.hashTable v = some p → p ∈ U
  /-- The links. -/
  next : ∀ p ∈ U, ∀ q, (t.heap.mem p).next = some q → q ∈ U
  /-- The objects. -/
  node : ∀ p ∈ U, P (t.heap.mem p).id

variable {t t' : Tables} {P Q : ℕ → Prop} {D : ℕ → Block} {U : Finset ℕ} {key : List UInt8}
  {id v : ℕ}

theorem Fresh.nodes (ht : Fresh t) (P : ℕ → Prop) : Nodes t P ∅ := by
  refine ⟨Nat.zero_le _, fun v p hp => ?_, by simp, by simp⟩
  have hchain : t.hashTable v = none := ht.table.chain v
  rw [hchain] at hp
  exact absurd hp (by simp)

/-- A node that `insert_to_hash_table` links. -/
theorem Tables.insertToHashTable_some (hins : t.insertToHashTable id v = some t') :
    ∃ par, t' = (t.allocNode fun n => { n with id := id }).link v par t.heap.fresh := by
  unfold Tables.insertToHashTable at hins
  split_ifs at hins
  dsimp only at hins
  obtain ⟨⟨par, r⟩, -, hins⟩ := Option.bind_eq_some_iff.mp hins
  split_ifs at hins
  · exact ⟨none, (Option.some.inj hins).symm⟩
  · obtain ⟨q, -, hins⟩ := Option.bind_eq_some_iff.mp hins
    exact ⟨some q, (Option.some.inj hins).symm⟩

/-- `insert_to_hash_table` replaces the only node of a bucket. -/
theorem Tables.insertToHashTable_singleton {a : ℕ} (hv : v < 2^20) (hhead : t.hashTable v = some a)
    (hnext : (t.heap.mem a).next = none) (hcount : 0 < t.heap.count) (id : ℕ) :
    ∃ t' p, t.insertToHashTable id v = some t' ∧
      t'.hashTable = Function.update t.hashTable v (some p) ∧ (t'.heap.mem p).id = id ∧
      t'.inodeBitItr = t.inodeBitItr := by
  have hchain : Chain t.heap.mem HashObj.next (t.hashTable v) [a] := ⟨hhead, hnext⟩
  have hfuel : [a].length < t.heap.fuel := Nat.succ_lt_succ hcount
  unfold Tables.insertToHashTable
  rw [if_neg (by omega)]
  dsimp only
  rw [walk_none (fun _ _ => rfl) hchain hfuel]
  simp only [Option.bind_eq_bind, Option.bind_some, List.getLast?_singleton, Option.some_or]
  rw [Tables.allocNode_hashTable, if_pos hhead.symm]
  exact ⟨_, t.heap.fresh, rfl, rfl, by simp, rfl⟩

theorem Tables.allocNode_mapsEq (t : Tables) (f : HashObj → HashObj) : t.MapsEq (t.allocNode f) :=
  ⟨rfl, rfl, rfl, rfl⟩

theorem Tables.insertToHashTable_mapsEq (hins : t.insertToHashTable id v = some t') :
    t.MapsEq t' := by
  obtain ⟨par, rfl⟩ := Tables.insertToHashTable_some hins
  exact (t.allocNode_mapsEq _).trans (Tables.link_mapsEq _ _ _ _)

namespace Nodes

theorem imp (h : Nodes t P U) (hPQ : ∀ id, P id → Q id) : Nodes t Q U :=
  ⟨h.card_le, h.head, h.next, fun p hp => hPQ _ (h.node p hp)⟩

theorem congr (h : Nodes t P U) (hheap : t'.heap = t.heap) (htable : t'.hashTable = t.hashTable) :
    Nodes t' P U := by
  obtain ⟨hcard, hhead, hnext, hnode⟩ := h
  rw [← hheap] at hcard hnext hnode
  rw [← htable] at hhead
  exact ⟨hcard, hhead, hnext, hnode⟩

/-- A new node is linked anywhere, possibly at an address that is still listed. -/
theorem link (h : Nodes t P U) {f : HashObj → HashObj} (hf : (f HashObj.zero).next = none)
    (hid : P (f HashObj.zero).id) (v : ℕ) (par : Ptr) :
    Nodes ((t.allocNode f).link v par t.heap.fresh) P (insert t.heap.fresh U) := by
  -- Only the predecessor, or only the head of the bucket, gets the new node.
  have hmem : ∀ q, ((t.allocNode f).link v par t.heap.fresh).heap.mem q =
      if par = some q then { (t.allocNode f).heap.mem q with next := some t.heap.fresh }
      else (t.allocNode f).heap.mem q := fun q => by
    cases par with
    | none => rfl
    | some r => by_cases hq : q = r <;> simp [Tables.link, hq, Ne.symm]
  have hhead : ∀ w, ((t.allocNode f).link v par t.heap.fresh).hashTable w = some t.heap.fresh ∨
      ((t.allocNode f).link v par t.heap.fresh).hashTable w = t.hashTable w := fun w => by
    cases par with
    | none => by_cases hw : w = v <;> simp [Tables.link, hw]
    | some r => exact Or.inr rfl
  have hcount : ((t.allocNode f).link v par t.heap.fresh).heap.count = t.heap.count + 1 := by
    cases par <;> rfl
  refine ⟨?_, fun w p hp => ?_, fun p hp q hq => ?_, fun p hp => ?_⟩
  · rw [hcount]
    exact (Finset.card_insert_le _ _).trans (Nat.succ_le_succ h.card_le)
  · rw [Finset.mem_insert]
    rcases hhead w with hw | hw <;> rw [hw] at hp
    · exact Or.inl (Option.some.inj hp).symm
    · exact Or.inr (h.head w p hp)
  · rw [Finset.mem_insert] at hp ⊢
    rw [hmem] at hq
    split_ifs at hq with hpar
    · exact Or.inl (Option.some.inj hq).symm
    · rw [Tables.allocNode_mem] at hq
      split_ifs at hq with hpf
      · rw [hf] at hq
        exact absurd hq (by simp)
      · exact Or.inr (h.next p (hp.resolve_left hpf) q hq)
  · rw [Finset.mem_insert] at hp
    have hpid : (((t.allocNode f).link v par t.heap.fresh).heap.mem p).id =
        ((t.allocNode f).heap.mem p).id := by
      rw [hmem]
      split_ifs <;> rfl
    rw [hpid, Tables.allocNode_mem]
    split_ifs with hpf
    · exact hid
    · exact h.node p (hp.resolve_left hpf)

/-- `insert_to_hash_table` links a new node somewhere. -/
theorem insertToHashTable (h : Nodes t P U) (hid : P id)
    (hins : t.insertToHashTable id v = some t') : Nodes t' P (insert t.heap.fresh U) := by
  obtain ⟨par, rfl⟩ := Tables.insertToHashTable_some hins
  exact h.link rfl hid v par

/-- A node of `U` is unlinked and freed, whatever is linked to it elsewhere. -/
theorem unlink (h : Nodes t P U) {a : ℕ} (ha : a ∈ U) (v : ℕ) (par : Ptr) :
    Nodes (t.unlink v a par) P U := by
  cases par with
  | none =>
    refine ⟨h.card_le, fun w p hp => ?_, h.next, h.node⟩
    dsimp only [Tables.unlink] at hp
    by_cases hw : w = v
    · rw [hw, Function.update_self] at hp
      exact h.next a ha p hp
    · rw [Function.update_of_ne hw] at hp
      exact h.head w p hp
  | some b =>
    refine ⟨h.card_le, h.head, fun p hp q hq => ?_, fun p hp => ?_⟩
    · simp only [Tables.unlink, Heap.free_mem, Heap.modify_mem] at hq
      by_cases hpb : p = b
      · rw [hpb, Function.update_self] at hq
        exact h.next a ha q hq
      · rw [Function.update_of_ne hpb] at hq
        exact h.next p hp q hq
    · rw [Tables.unlink_id]
      exact h.node p hp

end Nodes

namespace Store

variable {σ : Type} [BlockLayer σ] {dom : Set ℕ} {L : Lawful σ dom} {s s' : Store σ} {p a : ℕ}
  {fuel : ℕ} {par itr : Ptr} {l : List ℕ} {r : Search}

/-- What is left of the invariant of the namespace once objects are destroyed. -/
structure Loose (L : Lawful σ dom) (s : Store σ) (U : Finset ℕ) : Prop where
  /-- The block layer is in one of its states. -/
  inv : L.inv s.layer
  /-- The links stay within `U`, and its nodes have objects with a record. -/
  nodes : Nodes s.toTables (HasRecord (L.content s.layer)) U

theorem Loose.calls (h : Loose L s U) (hc : Calls L s s' (L.content s.layer)) : Loose L s' U := by
  refine ⟨hc.inv, ?_⟩
  rw [hc.tables, hc.content]
  exact h.nodes

/-! ## The search for a key -/

omit [BlockLayer σ] in
/-- The nodes of a bucket are addresses of `U`. -/
theorem mem_of_segment (h : Nodes s.toTables P U) (hitr : ∀ p, itr = some p → p ∈ U)
    (hl : Segment s.heap.mem HashObj.next itr l a) : ∀ b ∈ l ++ [a], b ∈ U := by
  induction l generalizing itr with
  | nil => simpa using hitr a hl
  | cons b l ih =>
    obtain ⟨rfl, hl⟩ := hl
    have hb := hitr b rfl
    rw [List.cons_append, List.forall_mem_cons]
    exact ⟨hb, ih (h.next b hb) hl⟩

/-- What a walk for a key finds, when it ends. -/
theorem search_nodes (h : Loose L s U) (hdom : ∀ b ∈ recordBlocks, b ∈ dom)
    (hitr : ∀ p, itr = some p → p ∈ U) (hs : search key fuel par itr s = some (r, s')) :
    Calls L s s' (L.content s.layer) ∧ ((∃ par', r = .missing par') ∨ ∃ par' a l,
      r = .found par' a (record (L.content s.layer) (s.heap.mem a).id) ∧ a ∈ U ∧
        Segment s.heap.mem HashObj.next itr l a ∧
        keyOf (L.content s.layer) (s.heap.mem a).id = key) := by
  -- On the fuel: the bucket need not end.
  induction fuel generalizing s par itr with
  | zero => simp [search] at hs
  | succ fuel ih =>
    cases itr with
    | none =>
      simp only [search, Option.some.injEq, Prod.mk.injEq] at hs
      obtain ⟨rfl, rfl⟩ := hs
      exact ⟨⟨rfl, h.inv, rfl⟩, Or.inl ⟨par, rfl⟩⟩
    | some b =>
      have hb := h.nodes.node b (hitr b rfl)
      obtain ⟨s₁, hc₁, hnode⟩ := search_node h.inv key
        (hdom _ (recordBlock_mem hb.two_le hb.lt)) fuel par
      rw [hnode, if_neg (by simpa using hb.present)] at hs
      -- The node has the key, or the walk goes on behind it, over the same tables and contents.
      split_ifs at hs with hkey
      · simp only [Option.some.injEq, Prod.mk.injEq] at hs
        obtain ⟨rfl, rfl⟩ := hs
        exact ⟨hc₁, Or.inr ⟨par, b, [], rfl, hitr b rfl, rfl, hkey.2⟩⟩
      · have h₁ := h.calls hc₁
        rw [← hc₁.heap] at hs
        obtain ⟨hc, hr⟩ := ih h₁ (h₁.nodes.next b (hitr b rfl)) hs
        rw [hc₁.content, hc₁.heap] at hr
        rw [hc₁.content] at hc
        refine ⟨hc₁.trans hc, hr.imp_right ?_⟩
        rintro ⟨par', a, l, hr, ha, hl, hkey⟩
        exact ⟨par', a, b :: l, hr, ha, ⟨rfl, hl⟩, hkey⟩

/-- A walk with enough fuel finds the first node with the key. -/
theorem search_segment (h : Loose L s U) (hdom : ∀ b ∈ recordBlocks, b ∈ dom) (par : Ptr)
    (hl : Segment s.heap.mem HashObj.next itr l a) (hU : ∀ b ∈ l ++ [a], b ∈ U)
    (hbefore : ∀ b ∈ l, ¬keyOf (L.content s.layer) (s.heap.mem b).id = key)
    (ha : keyOf (L.content s.layer) (s.heap.mem a).id = key) (hfuel : l.length < fuel) :
    ∃ par' s', search key fuel par itr s =
        some (.found par' a (record (L.content s.layer) (s.heap.mem a).id), s') ∧
      Calls L s s' (L.content s.layer) := by
  induction l generalizing s par itr fuel with
  | nil =>
    obtain ⟨k, rfl⟩ : ∃ k, fuel = k + 1 := ⟨fuel - 1, by simp at hfuel; omega⟩
    obtain rfl : itr = some a := hl
    have hnode := h.nodes.node a (hU a (by simp))
    have h₂ := hnode.two_le
    obtain ⟨s₁, hc₁, hsearch⟩ := search_node h.inv key
      (hdom _ (recordBlock_mem h₂ hnode.lt)) k par
    rw [if_neg (by simpa using hnode.present), if_pos ⟨by omega, ha⟩] at hsearch
    exact ⟨par, s₁, hsearch, hc₁⟩
  | cons b l ih =>
    obtain ⟨k, rfl⟩ : ∃ k, fuel = k + 1 := ⟨fuel - 1, by simp at hfuel; omega⟩
    obtain ⟨rfl, hl⟩ := hl
    have hnode := h.nodes.node b (hU b (by simp))
    obtain ⟨s₁, hc₁, hsearch⟩ := search_node h.inv key
      (hdom _ (recordBlock_mem hnode.two_le hnode.lt)) k par
    -- A node before the first one with the key is passed over.
    rw [if_neg (by simpa using hnode.present), if_neg fun hb => hbefore b (by simp) hb.2] at hsearch
    rw [← hc₁.heap] at hl
    obtain ⟨par', s₂, hrun, hc₂⟩ := ih (h.calls hc₁) (some b) hl
      (fun c hc => hU c (List.mem_cons_of_mem b hc))
      (fun c hc => by rw [hc₁.content, hc₁.heap]; exact hbefore c (by simp [hc]))
      (by rw [hc₁.content, hc₁.heap]; exact ha) (by simpa using hfuel)
    rw [hc₁.content, hc₁.heap] at hrun
    rw [hc₁.content] at hc₂
    exact ⟨par', s₂, hsearch.trans hrun, hc₁.trans hc₂⟩

/-- A node with the key is reached from the head of its bucket. -/
def Listed (L : Lawful σ dom) (s : Store σ) (key : List UInt8) : Prop :=
  ∃ l a, Segment s.heap.mem HashObj.next (s.hashTable (hash key)) l a ∧
    keyOf (L.content s.layer) (s.heap.mem a).id = key

theorem Listed.congr (h : Listed L s key) (hmem : s'.heap.mem = s.heap.mem)
    (htable : s'.hashTable = s.hashTable) (hcont : L.content s'.layer = L.content s.layer) :
    Listed L s' key := by
  unfold Listed
  rw [hmem, htable, hcont]
  exact h

/-- A listed key is found. -/
theorem Loose.searchKey_listed (h : Loose L s U) (hdom : ∀ b ∈ recordBlocks, b ∈ dom)
    (hlisted : Listed L s key) :
    ∃ par a s', s.searchKey key =
        some (.found par a (record (L.content s.layer) (s.heap.mem a).id), s') ∧
      Calls L s s' (L.content s.layer) ∧ a ∈ U := by
  obtain ⟨l, a, hl, ha⟩ := hlisted
  -- The way to the node may go round a cycle. The first one with the key is reached without.
  obtain ⟨l', a', hl', hnd, hbefore, ha'⟩ :=
    hl.exists_first (fun b => keyOf (L.content s.layer) (s.heap.mem b).id = key) ha
  have hU := mem_of_segment h.nodes (h.nodes.head _) hl'
  -- There are fewer nodes before it than allocations.
  have hlen : l'.length < s.heap.fuel := by
    have hcard : (l' ++ [a']).toFinset.card ≤ U.card :=
      Finset.card_le_card fun b hb => hU b (List.mem_toFinset.mp hb)
    rw [List.toFinset_card_of_nodup hnd, List.length_append] at hcard
    have hcount := h.nodes.card_le
    unfold Heap.fuel
    omega
  obtain ⟨par', s', hsearch, hc⟩ := search_segment h hdom (s.hashTable (hash key)) hl' hU hbefore
    ha' hlen
  exact ⟨par', a', s', hsearch, hc, hU a' (by simp)⟩

/-- A search that ends without a node found no listed key. -/
theorem Loose.searchKey_cases (h : Loose L s U) (hdom : ∀ b ∈ recordBlocks, b ∈ dom)
    (hs : s.searchKey key = some (r, s')) :
    Calls L s s' (L.content s.layer) ∧
      (((∃ par, r = .missing par) ∧ ¬Listed L s key) ∨ ((∃ par a, a ∈ U ∧
        r = .found par a (record (L.content s.layer) (s.heap.mem a).id)) ∧ Listed L s key)) := by
  obtain ⟨hc, hr⟩ := search_nodes h hdom (h.nodes.head _) hs
  refine ⟨hc, ?_⟩
  rcases hr with ⟨par, rfl⟩ | ⟨par, a, l, rfl, ha, hl, hkey⟩
  · refine Or.inl ⟨⟨par, rfl⟩, fun hlisted => ?_⟩
    obtain ⟨par', a, s'', hs', -⟩ := h.searchKey_listed hdom hlisted
    rw [hs, Option.some.injEq, Prod.mk.injEq] at hs'
    exact absurd hs'.1 (by simp)
  · exact Or.inr ⟨⟨par, a, ha, rfl⟩, l, a, hl, hkey⟩

/-! ## The calls that return -/

/-- `find_object_id` changes nothing. -/
theorem Loose.findObjectId (h : Loose L s U) (hdom : ∀ b ∈ recordBlocks, b ∈ dom) {r : ℤ}
    (hfind : s.findObjectId key = some (r, s')) : Calls L s s' (L.content s.layer) := by
  unfold Store.findObjectId at hfind
  obtain ⟨⟨r', s₁⟩, hs, hfind⟩ := Option.bind_eq_some_iff.mp hfind
  obtain ⟨hc, -⟩ := h.searchKey_cases hdom hs
  cases r' <;>
    · simp only [Option.pure_def, Option.some.injEq, Prod.mk.injEq] at hfind
      rw [← hfind.2]
      exact hc

/-- `create_object` refuses the key, or it gives a new object a record and two nodes. -/
theorem Loose.createObject (h : Loose L s U) (hdom : ∀ b ∈ recordBlocks, b ∈ dom) {r : ℤ}
    (hcreate : s.createObject key = some (r, s')) :
    (r = -1 ∧ Calls L s s' (L.content s.layer)) ∨
      ∃ id : ℕ, r = id ∧ L.inv s'.layer ∧ Made L s s' key id ∧
        ∃ U', ∀ P, Nodes s.toTables P U → P id → Nodes s'.toTables P U' := by
  obtain ⟨⟨r', s₁⟩, hs, -⟩ := Option.bind_eq_some_iff.mp hcreate
  obtain ⟨hc, ⟨⟨par, rfl⟩, -⟩ | ⟨⟨par, a, -, rfl⟩, -⟩⟩ := h.searchKey_cases hdom hs
  swap
  · -- The key is in use.
    rw [createObject_found hs, Option.some.injEq, Prod.mk.injEq] at hcreate
    exact Or.inl ⟨hcreate.1.symm, hcreate.2 ▸ hc⟩
  have hmap : s₁.inodemap = s.inodemap := congrArg Tables.inodemap hc.tables
  rcases s₁.fetchFreeId_spec with ⟨-, hid⟩ | ⟨id, map, hid, h₂, hlt, hfree, hbit⟩
  · -- No id is free.
    rw [createObject_full hs hid, Option.some.injEq, Prod.mk.injEq] at hcreate
    exact Or.inl ⟨hcreate.1.symm, hcreate.2 ▸ hc⟩
  rw [hmap] at hfree hbit
  by_cases hlen : key.length < 48
  swap
  · -- `strcpy` would write behind the record.
    rw [createObject_long hs hid (by omega) hlen] at hcreate
    exact absurd hcreate (by simp)
  have hobj : (newObject key id).id.toNat = id := newObject_id key (by omega)
  rw [createObject_missing hs hid (by omega) hlen, hobj] at hcreate
  obtain ⟨s₃, hs₃, hcreate₃⟩ := Option.bind_eq_some_iff.mp hcreate
  obtain ⟨s₄, hdisk, hcreate₄⟩ := Option.bind_eq_some_iff.mp hcreate₃
  obtain ⟨rfl, rfl⟩ : (id : ℤ) = r ∧ s₄ = s' := by simpa using hcreate₄
  obtain ⟨t₃, hins, ht₃⟩ := Option.bind_eq_some_iff.mp hs₃
  obtain rfl := Option.some.inj ht₃
  obtain ⟨s₅, hdisk', hc₅⟩ := insertToDisk_spec (s := { s₁ with toTables := t₃ }) hc.inv
    (newObject key id) (by rwa [hobj]) (by rw [hobj]; exact hdom _ (recordBlock_mem h₂ hlt))
  obtain rfl : s₅ = s₄ := Option.some.inj (hdisk'.symm.trans hdisk)
  rw [hobj] at hc₅
  have htables : s₅.toTables = t₃ := hc₅.tables
  have hmaps : Tables.MapsEq { s₁.toTables with inodemap := map, inodeBitItr := id / 8 } t₃ :=
    ((Tables.allocNode_mapsEq _ _).trans (Tables.link_mapsEq _ (hash key) par _)).trans
      (Tables.insertToHashTable_mapsEq hins)
  -- `p` is the address of the node that `insert_to_hash_table` links.
  obtain ⟨p, hins⟩ : ∃ p, ∀ P, Nodes _ P (insert s₁.heap.fresh U) → P id →
      Nodes t₃ P (insert p (insert s₁.heap.fresh U)) :=
    ⟨_, fun P hP hPid => hP.insertToHashTable hPid hins⟩
  refine Or.inr ⟨id, rfl, hc₅.inv, ⟨h₂, hlt, hfree, fun i => ?_, ?_, ?_⟩,
    insert p (insert s₁.heap.fresh U), fun P hP hPid => ?_⟩
  · rw [htables, hmaps.inodemap, hbit]
  · rw [hc₅.content]
    exact congrArg (fun D => setRecord D id (newObject key id)) hc.content
  · rw [htables, hmaps.blockmap]
    change s₁.blockmap = s.blockmap
    rw [hc.tables]
  · -- The id is taken before the nodes are linked, which does not concern them.
    have hP₁ : Nodes { s₁.toTables with inodemap := map, inodeBitItr := id / 8 } P U :=
      hP.congr hc.heap hc.hashTable
    rw [htables]
    exact hins P (hP₁.link (f := fun n => { n with id := id, next := none }) rfl hPid
      (hash key) par) hPid

/-- `create_object` of a key whose bucket is empty returns the free id, and the key is listed. -/
theorem Loose.createObject_empty (h : Loose L s U) (hdom : ∀ b ∈ recordBlocks, b ∈ dom)
    (hempty : s.hashTable (hash key) = none) (hlen : key.length < 48) (hnul : 0 ∉ key)
    (hid : (ByteMap.fetchFree (2^17) s.inodemap s.inodeBitItr).1 = id) (hid0 : id ≠ 0) :
    ∃ s', s.createObject key = some ((id : ℤ), s') ∧ Listed L s' key ∧
      s'.inodeBitItr = id / 8 ∧ ∀ v, v ≠ hash key → s'.hashTable v = s.hashTable v := by
  have hs : s.searchKey key = some (.missing none, s) := by
    rw [searchKey, hempty, Heap.fuel, search]
  rcases s.fetchFreeId_spec with ⟨-, hfetch⟩ | ⟨i, map, hfetch, h₂, hlt, -, -⟩
  · exact absurd ((congrArg Prod.fst hfetch).symm.trans hid).symm hid0
  obtain rfl : i = id := (congrArg Prod.fst hfetch).symm.trans hid
  have hobj : (newObject key i).id.toNat = i := newObject_id key (by omega)
  have hkey : (newObject key i).keyString = key := newObject_keyString hlen hnul i
  -- The node that the function links itself is alone in the bucket.
  set s₁ : Store σ := linkNew { s with inodemap := map, inodeBitItr := i / 8 } i (hash key) none
    with hs₁
  obtain ⟨t, p, hins, htable, hmem, hitr⟩ := Tables.insertToHashTable_singleton (t := s₁.toTables)
    (a := s.heap.fresh) (hash_lt key) (by simp [hs₁, linkNew, Tables.link])
    (by simp [hs₁, linkNew, Tables.link]) (by simp [hs₁, linkNew, Tables.link, Tables.allocNode]) i
  obtain ⟨s', hdisk, hc⟩ := insertToDisk_spec (s := { s₁ with toTables := t }) h.inv
    (newObject key i) (by rwa [hobj]) (by rw [hobj]; exact hdom _ (recordBlock_mem h₂ hlt))
  have htable' : s'.hashTable = Function.update s.hashTable (hash key) (some p) := by
    rw [hc.tables, htable]
    simp [hs₁, linkNew, Tables.link]
  refine ⟨s', ?_, ⟨[], p, ?_, ?_⟩, ?_, fun v hv => ?_⟩
  · rw [createObject_missing hs hfetch hid0 hlen, hobj, hkey, ← hs₁, insertToHashTable, hins]
    dsimp only [Option.bind_eq_bind, Option.bind_some, Option.pure_def]
    rw [hdisk]
    rfl
  · change s'.hashTable (hash key) = some p
    rw [htable', Function.update_self]
  · rw [hc.tables, hmem, hc.content, hobj, keyOf, record_setRecord_self, hkey]
  · rw [hc.tables, hitr]
    rfl
  · rw [htable', Function.update_of_ne hv]

/-- The store after an object was destroyed: its id is free, and its node `a` is freed. -/
def destroyed (s : Store σ) (id a : ℕ) : Store σ :=
  { s with toTables := { s.freeInodeId id with heap := s.heap.free a } }

omit [BlockLayer σ] in
theorem nodes_destroyed (h : Nodes s.toTables P U) (id a : ℕ) :
    Nodes (s.destroyed id a).toTables P U := ⟨h.card_le, h.head, h.next, h.node⟩

/-- `remove_object_cached` frees the id of an object without blocks. For any other object it does
not return: the first call of `free_object_blocks` follows the number of an indirect block as a
pointer. -/
theorem removeObjectCached_eq (s : Store σ) (obj : Object) : s.removeObjectCached obj =
    if obj.blocknum = 0 then some { s with toTables := s.freeInodeId obj.id.toNat } else none := by
  unfold removeObjectCached freeObjectBlocks
  by_cases h0 : obj.blocknum = 0
  · simp [h0]
  · rw [if_neg h0]
    dsimp only [List.foldlM]
    split_ifs <;> rfl

theorem destroyObject_found {obj : Object} {s₁ : Store σ}
    (hs : s.searchKey key = some (.found par a obj, s₁)) (hblocks : obj.blocknum = 0) :
    s.destroyObject key = some (0, s₁.destroyed obj.id.toNat a) := by
  unfold Store.destroyObject
  rw [hs]
  simp only [Option.bind_eq_bind, Option.bind_some]
  rw [removeObjectCached_eq, if_pos hblocks]
  rfl

/-- `destroy_object` returns -1 when the key is not listed. It returns 0 for a listed one, when its
object has no blocks: the id is free then, and the node is freed. -/
theorem Loose.destroyObject (h : Loose L s U) (hdom : ∀ b ∈ recordBlocks, b ∈ dom) {r : ℤ}
    (hdestroy : s.destroyObject key = some (r, s')) :
    (r = -1 ∧ ¬Listed L s key ∧ Calls L s s' (L.content s.layer)) ∨
      ∃ s₁, ∃ a ∈ U, r = 0 ∧ Listed L s key ∧ Calls L s s₁ (L.content s.layer) ∧
        (record (L.content s.layer) (s.heap.mem a).id).blocknum = 0 ∧
        s' = s₁.destroyed (s.heap.mem a).id a := by
  unfold Store.destroyObject at hdestroy
  obtain ⟨⟨r', s₁⟩, hs, hdestroy⟩ := Option.bind_eq_some_iff.mp hdestroy
  obtain ⟨hc, ⟨⟨par, rfl⟩, hlisted⟩ | ⟨⟨par, a, ha, rfl⟩, hlisted⟩⟩ := h.searchKey_cases hdom hs
  · simp only [Option.pure_def, Option.some.injEq, Prod.mk.injEq] at hdestroy
    exact Or.inl ⟨hdestroy.1.symm, hlisted, hdestroy.2 ▸ hc⟩
  · have hid := (h.nodes.node a ha).present
    dsimp only at hdestroy
    rw [removeObjectCached_eq, hid] at hdestroy
    split_ifs at hdestroy with hblocks
    · simp only [Option.bind_eq_bind, Option.bind_some, Option.pure_def, Option.some.injEq,
        Prod.mk.injEq] at hdestroy
      exact Or.inr ⟨s₁, a, ha, hdestroy.1.symm, hlisted, hc, hblocks, hdestroy.2.symm⟩
    · simp at hdestroy

/-- `rekey` of an object with a record links a node for it, and writes the record. -/
theorem rekey_nodes (hinv : L.inv s.layer) (hdom : ∀ b ∈ recordBlocks, b ∈ dom)
    (hrec : HasRecord (L.content s.layer) id) {b : List UInt8} {rest : ℕ → UInt8}
    (hrekey : s.rekey (record (L.content s.layer) id) b rest = some s') :
    L.inv s'.layer ∧ Rekeyed L s s' b rest id ∧
      ∃ p, ∀ P, Nodes s.toTables P U → P id → Nodes s'.toTables P (insert p U) := by
  have hobj : (renamed (record (L.content s.layer) id) b rest).id.toNat = id := hrec.present
  rw [rekey_eq, hobj] at hrekey
  obtain ⟨s₁, hs₁, hdisk⟩ := Option.bind_eq_some_iff.mp hrekey
  obtain ⟨t₁, hins, ht₁⟩ := Option.bind_eq_some_iff.mp hs₁
  obtain rfl := Option.some.inj ht₁
  obtain ⟨s₂, hdisk', hc⟩ := insertToDisk_spec (s := { s with toTables := t₁ }) hinv
    (renamed (record (L.content s.layer) id) b rest) (by rw [hobj]; exact hrec.two_le)
    (by rw [hobj]; exact hdom _ (recordBlock_mem hrec.two_le hrec.lt))
  obtain rfl : s₂ = s' := Option.some.inj (hdisk'.symm.trans hdisk)
  rw [hobj] at hc
  have htables : s₂.toTables = t₁ := hc.tables
  have hmaps := Tables.insertToHashTable_mapsEq hins
  refine ⟨hc.inv, ⟨hc.content, ?_, ?_⟩, s.heap.fresh, fun P hP hPid => ?_⟩
  · rw [htables, hmaps.inodemap]
  · rw [htables, hmaps.blockmap]
  · rw [htables]
    exact hP.insertToHashTable hPid hins

/-- `rename_object` changes nothing when the key is not found. Otherwise an object gets the new
name: it has another node, and the one that was found is unlinked and freed. -/
theorem Loose.renameObject (h : Loose L s U) (hdom : ∀ b ∈ recordBlocks, b ∈ dom) {b : List UInt8}
    {rest : ℕ → UInt8} {r : ℤ} (hrename : s.renameObject key b rest = some (r, s')) :
    (r = -1 ∧ Calls L s s' (L.content s.layer)) ∨ ∃ id, HasRecord (L.content s.layer) id ∧
      L.inv s'.layer ∧ Rekeyed L s s' b rest id ∧
      ∃ U', ∀ P, Nodes s.toTables P U → P id → Nodes s'.toTables P U' := by
  -- Both paths end so, with the node `a` that was found and the one before it, if any.
  have hend : ∀ {s₁ s₂ : Store σ} {a : ℕ} (par : Ptr), Calls L s s₁ (L.content s.layer) → a ∈ U →
      s₁.rekey (record (L.content s.layer) (s.heap.mem a).id) b rest = some s₂ →
      s' = s₂.unlink (hash key) a par → ∃ id, HasRecord (L.content s.layer) id ∧
        L.inv s'.layer ∧ Rekeyed L s s' b rest id ∧
        ∃ U', ∀ P, Nodes s.toTables P U → P id → Nodes s'.toTables P U' := by
    rintro s₁ s₂ a par hc ha hrekey rfl
    have hrec := h.nodes.node a ha
    rw [← hc.content] at hrekey hrec
    obtain ⟨hinv, hrekeyed, p, hnodes⟩ := rekey_nodes (U := U) hc.inv hdom hrec hrekey
    have hmaps : s₂.toTables.MapsEq (s₂.unlink (hash key) a par).toTables :=
      Tables.unlink_mapsEq _ _ _ _
    refine ⟨_, hc.content ▸ hrec, hinv, ⟨?_, ?_, ?_⟩, insert p U, fun P hP hPid => ?_⟩
    · rw [← hc.content]
      exact hrekeyed.content
    · rw [hmaps.inodemap, hrekeyed.inodemap, hc.tables]
    · rw [hmaps.blockmap, hrekeyed.blockmap, hc.tables]
    · exact (hnodes P (hP.congr hc.heap hc.hashTable) hPid).unlink
        (Finset.mem_insert_of_mem ha) _ par
  unfold Store.renameObject at hrename
  dsimp only at hrename
  cases hhead : s.hashTable (hash key) with
  | none =>
    rw [hhead] at hrename
    simp only [Option.pure_def, Option.some.injEq, Prod.mk.injEq] at hrename
    exact Or.inl ⟨hrename.1.symm, hrename.2 ▸ ⟨rfl, h.inv, rfl⟩⟩
  | some a =>
    have ha := h.nodes.head _ a hhead
    have hnode := h.nodes.node a ha
    have h₂ := hnode.two_le
    obtain ⟨s₁, hget, hc₁⟩ := getObjectById_spec h.inv _
      (hdom _ (recordBlock_mem hnode.two_le hnode.lt))
    rw [if_pos hnode.present] at hget
    simp only [hhead, hget, Option.bind_eq_bind, Option.bind_some, hc₁.heap] at hrename
    rw [if_neg (by simp)] at hrename
    split_ifs at hrename with hkey
    · -- The head of the bucket has the key, and is taken out of it without another search.
      obtain ⟨s₂, hrekey, hrename⟩ := Option.bind_eq_some_iff.mp hrename
      simp only [Option.pure_def, Option.some.injEq, Prod.mk.injEq] at hrename
      exact Or.inr (hend none hc₁ ha hrekey hrename.2.symm)
    · obtain ⟨⟨r', s₂⟩, hs, hrename⟩ := Option.bind_eq_some_iff.mp hrename
      obtain ⟨hc₂, hr⟩ := (h.calls hc₁).searchKey_cases hdom hs
      rw [hc₁.content] at hc₂ hr
      have hc := hc₁.trans hc₂
      rcases hr with ⟨⟨par, rfl⟩, -⟩ | ⟨⟨par, a', ha', rfl⟩, -⟩
      · simp only [Option.pure_def, Option.some.injEq, Prod.mk.injEq] at hrename
        exact Or.inl ⟨hrename.1.symm, hrename.2 ▸ hc⟩
      · obtain ⟨s₃, hrekey, hrename⟩ := Option.bind_eq_some_iff.mp hrename
        obtain ⟨q, -, hrename⟩ := Option.bind_eq_some_iff.mp hrename
        simp only [Option.pure_def, Option.some.injEq, Prod.mk.injEq] at hrename
        rw [hc₁.heap] at hrekey
        exact Or.inr (hend (some q) hc ha' hrekey hrename.2.symm)

end Store

end GemOS.Objstore
