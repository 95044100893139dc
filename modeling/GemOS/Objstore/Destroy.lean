import GemOS.Objstore.Loose

/-!
# Destroying an object

`destroy_object` frees the node of the object and leaves it in its bucket, so that `find_object_id`
still finds the object. In runs without writes every node that was ever allocated has an object
without blocks (`BlankNodes`), so that a listed key is always found, and `destroy_object` returns.
-/

namespace GemOS.Objstore

/-- A call that creates, destroys, or finds an object. -/
inductive LifeOp where
  /-- `create_object(key)`. -/
  | create (key : List UInt8)
  /-- `destroy_object(key)`. -/
  | destroy (key : List UInt8)
  /-- `find_object_id(key)`. -/
  | find (key : List UInt8)

/-- A call on the store. -/
def Store.lifeStep {σ : Type} [BlockLayer σ] (s : Store σ) : LifeOp → Option (ℤ × Store σ)
  | .create key => s.createObject key
  | .destroy key => s.destroyObject key
  | .find key => s.findObjectId key

/-- An object with a record and without blocks. -/
structure Blank (D : ℕ → Block) (id : ℕ) : Prop extends HasRecord D id where
  /-- The object has no blocks. -/
  blocknum : (record D id).blocknum = 0

variable {D : ℕ → Block} {U : Finset ℕ} {key : List UInt8} {id v : ℕ}

theorem Blank.setRecord (h : Blank D v) (h₂ : 2 ≤ id) (hid : id < 2^20) {obj : Object}
    (hobj : obj.id.toNat = id) (hblocks : obj.blocknum = 0) : Blank (setRecord D id obj) v := by
  refine ⟨h.toHasRecord.setRecord h₂ hid hobj, ?_⟩
  have hv := h.lt
  by_cases hvid : v = id
  · rw [hvid, record_setRecord_self, hblocks]
  · rw [record_setRecord_of_ne D h₂ (by omega) h.two_le (by omega) hvid]
    exact h.blocknum

namespace Store

variable {σ : Type} [BlockLayer σ] {dom : Set ℕ} {L : Lawful σ dom} {s s' : Store σ}

/-- The links stay within `U`, and its nodes have objects without blocks. -/
structure BlankNodes (L : Lawful σ dom) (s : Store σ) (U : Finset ℕ) : Prop where
  /-- The block layer is in one of its states. -/
  inv : L.inv s.layer
  /-- The nodes. -/
  nodes : Nodes s.toTables (Blank (L.content s.layer)) U

namespace BlankNodes

theorem loose (h : BlankNodes L s U) : Loose L s U :=
  ⟨h.inv, h.nodes.imp fun _ hid => hid.toHasRecord⟩

theorem calls (h : BlankNodes L s U) (hc : Calls L s s' (L.content s.layer)) :
    BlankNodes L s' U := by
  refine ⟨hc.inv, ?_⟩
  rw [hc.tables, hc.content]
  exact h.nodes

/-! ## The calls -/

/-- `find_object_id` returns the id of a listed key. -/
theorem finds_listed (h : BlankNodes L s U) (hdom : ∀ b ∈ recordBlocks, b ∈ dom)
    (hlisted : Listed L s key) : ∃ id : ℕ, s.Finds key id := by
  obtain ⟨par, a, s', hs, hc, -⟩ := h.loose.searchKey_listed hdom hlisted
  refine ⟨(s.heap.mem a).id, s', ?_⟩
  unfold Store.findObjectId
  rw [hs, ← hc.heap]
  rfl

/-- `destroy_object` of a listed key returns 0, and the key is still listed. -/
theorem destroyObject_listed (h : BlankNodes L s U) (hdom : ∀ b ∈ recordBlocks, b ∈ dom)
    (hlisted : Listed L s key) :
    ∃ s', s.destroyObject key = some (0, s') ∧ BlankNodes L s' U ∧ Listed L s' key := by
  obtain ⟨par, a, s₁, hs, hc, ha⟩ := h.loose.searchKey_listed hdom hlisted
  have h₁ := h.calls hc
  -- The freed node keeps its link and its id, and the record stays on the disk.
  refine ⟨_, destroyObject_found hs (h.nodes.node a ha).blocknum,
    ⟨h₁.inv, nodes_destroyed h₁.nodes _ _⟩, hlisted.congr ?_ ?_ hc.content⟩
  · have hmem : s₁.heap.mem = s.heap.mem := congrArg Heap.mem hc.heap
    exact hmem
  · exact hc.hashTable

/-- `destroy_object` of a key that is not listed returns -1 and changes nothing. -/
theorem destroyObject_not_listed (h : BlankNodes L s U) (hdom : ∀ b ∈ recordBlocks, b ∈ dom)
    (hlisted : ¬Listed L s key) {r : ℤ} (hdestroy : s.destroyObject key = some (r, s')) :
    r = -1 ∧ Calls L s s' (L.content s.layer) := by
  rcases h.loose.destroyObject hdom hdestroy with ⟨hr, -, hc⟩ | ⟨s₁, a, -, -, hl, -⟩
  · exact ⟨hr, hc⟩
  · exact absurd hl hlisted

/-- A new object has no blocks. -/
theorem createObject (h : BlankNodes L s U) (hdom : ∀ b ∈ recordBlocks, b ∈ dom) {r : ℤ}
    (hcreate : s.createObject key = some (r, s')) : ∃ U', BlankNodes L s' U' := by
  rcases h.loose.createObject hdom hcreate with ⟨-, hc⟩ | ⟨id, -, hinv, hmade, U', hnodes⟩
  · exact ⟨U, h.calls hc⟩
  have hlt := hmade.lt
  have hobj : (newObject key id).id.toNat = id := newObject_id key (by omega)
  refine ⟨U', hinv, hnodes _ (h.nodes.imp fun v hv => ?_) ?_⟩
  · rw [hmade.content]
    exact hv.setRecord hmade.two_le hmade.lt hobj (newObject_blocknum key id)
  · rw [hmade.content]
    exact ⟨⟨hmade.two_le, hmade.lt, by rw [record_setRecord_self, hobj]⟩,
      by rw [record_setRecord_self, newObject_blocknum]⟩

end BlankNodes

/-! ## Every reached state -/

/-- `destroy_object(key)` removes exactly this key, and changes nothing when it returns -1. -/
def DestroyRemoves (L : Lawful σ dom) (s : Store σ) (key : List UInt8) : Prop :=
  (∀ s', s.destroyObject key = some (0, s') → s'.Finds key (-1) ∧
      ((∃ i, 2 ≤ i ∧ i < 2^20 ∧ s'.inodemap.bit i = false) →
        ∃ r s'', s'.createObject key = some (r, s'') ∧ r ≠ -1) ∧
      ∀ k, k ≠ key → ∀ r, s.Finds k r → s'.Finds k r) ∧
    ∀ s', s.destroyObject key = some (-1, s') →
      s'.toTables = s.toTables ∧ L.content s'.layer = L.content s.layer

/-- `destroy_object` does so if and only if no node of the bucket has the key. -/
theorem BlankNodes.destroyRemoves_iff (h : BlankNodes L s U) (hdom : ∀ b ∈ recordBlocks, b ∈ dom) :
    DestroyRemoves L s key ↔ ¬Listed L s key := by
  constructor
  · rintro ⟨hremove, -⟩ hlisted
    obtain ⟨s', hdestroy, h', hlisted'⟩ := h.destroyObject_listed hdom hlisted
    obtain ⟨⟨s₁, hfind₁⟩, -⟩ := hremove s' hdestroy
    obtain ⟨id, s₂, hfind₂⟩ := h'.finds_listed hdom hlisted'
    rw [hfind₁, Option.some.injEq, Prod.mk.injEq] at hfind₂
    omega
  · intro hlisted
    refine ⟨fun s' hdestroy => ?_, fun s' hdestroy => ?_⟩
    · obtain ⟨hr, -⟩ := h.destroyObject_not_listed hdom hlisted hdestroy
      exact absurd hr (by norm_num)
    · obtain ⟨-, hc⟩ := h.destroyObject_not_listed hdom hlisted hdestroy
      exact ⟨hc.tables, hc.content⟩

end Store

/-- Every call that returns keeps the links within the allocated addresses. -/
theorem Store.BlankNodes.lifeStep {σ : Type} [BlockLayer σ] {dom : Set ℕ} {L : Lawful σ dom}
    {s s' : Store σ} {U : Finset ℕ} (h : Store.BlankNodes L s U)
    (hdom : ∀ b ∈ recordBlocks, b ∈ dom) {op : LifeOp} {r : ℤ}
    (hstep : s.lifeStep op = some (r, s')) : ∃ U', Store.BlankNodes L s' U' := by
  cases op with
  | create key => exact h.createObject hdom hstep
  | destroy key =>
    by_cases hlisted : Store.Listed L s key
    · obtain ⟨s₁, hdestroy, h₁, -⟩ := h.destroyObject_listed hdom hlisted
      have hs₁ := hdestroy.symm.trans hstep
      rw [Option.some.injEq, Prod.mk.injEq] at hs₁
      exact ⟨U, hs₁.2 ▸ h₁⟩
    · exact ⟨U, h.calls (h.destroyObject_not_listed hdom hlisted hstep).2⟩
  | find key => exact ⟨U, h.calls (h.loose.findObjectId hdom hstep)⟩

/-- In every state that `create_object`, `destroy_object`, and `find_object_id` reach,
`destroy_object(key)` does what it should if and only if there is nothing to destroy. -/
theorem destroy_object_removes {σ : Type} [BlockLayer σ] {dom : Set ℕ} (L : Lawful σ dom)
    (hdom : ∀ b ∈ recordBlocks, b ∈ dom) {A : Allocator} {d d' : Disk} {t : Tables} {layer : σ}
    (hzero : ∀ b < 1312, d.block b = Block.zero)
    (hinit : objstoreInit d (Tables.new A) = some (0, d', t)) (hlayer : L.inv layer)
    (ops : List LifeOp) {hist : List (LifeOp × ℤ)} {s : Store σ}
    (hrun : Run.run Store.lifeStep (⟨t, layer⟩ : Store σ) ops = some (hist, s)) (key : List UInt8) :
    Store.DestroyRemoves L s key ↔ ¬Store.Listed L s key := by
  obtain ⟨-, hfresh⟩ := objstoreInit_fresh hzero hinit
  obtain ⟨U, hblank⟩ := Run.of_run (h := []) (P := fun _ _ => True)
    (fun (s : Store σ) _ => ∃ U, Store.BlankNodes L s U)
    (fun s hist op r s' ⟨U, hs⟩ _ hstep => hs.lifeStep hdom hstep)
    ⟨∅, hlayer, hfresh.nodes _⟩ (Run.along_of_forall fun _ _ _ => trivial) hrun
  exact hblank.destroyRemoves_iff hdom

/-- The first key of a new store is listed once it is created. -/
theorem Fresh.createListed {σ : Type} [BlockLayer σ] {dom : Set ℕ} {L : Lawful σ dom} {t : Tables}
    (ht : Fresh t) {layer : σ} (hl : L.inv layer) (hdom : ∀ b ∈ recordBlocks, b ∈ dom)
    (hkey : KeyOk key) : ∃ s U, (⟨t, layer⟩ : Store σ).createObject key = some (2, s) ∧
      Store.BlankNodes L s U ∧ Store.Listed L s key := by
  obtain ⟨s, B, hcreate, hnames, hcreated, hids⟩ := ht.createObject hl hdom hkey
  have hblank₀ : Store.BlankNodes L (⟨t, layer⟩ : Store σ) ∅ := ⟨hl, ht.nodes _⟩
  obtain ⟨U, hblank⟩ := hblank₀.createObject hdom hcreate
  -- The node of the key.
  have hbucket : s.ids B (hash key) = [2] := by rw [hids, Function.update_self]
  obtain ⟨a, hB, ha⟩ : ∃ a, B (hash key) = [a] ∧ (s.heap.mem a).id = 2 := by
    rw [Store.ids, List.map_eq_singleton_iff] at hbucket
    exact hbucket
  have hchain := hnames.table.chain (hash key)
  rw [hB] at hchain
  exact ⟨s, U, hcreate, hblank, [], a, hchain.1, by rw [ha, hcreated.keyOf_self hkey]⟩

/-- Over the cache: after a key was created and destroyed. -/
theorem destroy_object_removes_create :
    ∃ d' t, objstoreInit Cache.zeroDisk (Tables.new Allocator.bump) = some (0, d', t) ∧
      ∃ hist s, Run.run Store.lifeStep
          (⟨t, Cache.empty Allocator.bump d' fun _ => Block.zero⟩ : Store Cache)
          [.create [97], .destroy [97]] = some (hist, s) ∧
        ∀ key, Store.DestroyRemoves spread_recordBlocks.lawful s key ↔
          ¬Store.Listed spread_recordBlocks.lawful s key := by
  obtain ⟨d', t, hinit, hlayer⟩ := mount_zeroDisk
  obtain ⟨-, hfresh⟩ := objstoreInit_fresh (fun _ _ => rfl) hinit
  have hdom : ∀ b ∈ recordBlocks, b ∈ {b | b ∈ recordBlocks} := fun b hb => hb
  obtain ⟨s, U, hcreate, hblank, hlisted⟩ :=
    hfresh.createListed hlayer hdom (by decide : KeyOk [97])
  obtain ⟨s', hdestroy, -⟩ := hblank.destroyObject_listed hdom hlisted
  have hrun : Run.run Store.lifeStep
      (⟨t, Cache.empty Allocator.bump d' fun _ => Block.zero⟩ : Store Cache)
      [.create [97], .destroy [97]] = some ([(.create [97], 2), (.destroy [97], 0)], s') :=
    Run.run_cons hcreate (Run.run_cons hdestroy rfl)
  exact ⟨d', t, hinit, _, s', hrun, destroy_object_removes spread_recordBlocks.lawful hdom
    (fun _ _ => rfl) hinit hlayer _ hrun⟩

/-- A key is created and destroyed, and is still found. -/
theorem destroy_object_not_removes :
    ∃ d' t, objstoreInit Cache.zeroDisk (Tables.new Allocator.bump) = some (0, d', t) ∧
      ∃ hist s, Run.run Store.lifeStep
          (⟨t, Cache.empty Allocator.bump d' fun _ => Block.zero⟩ : Store Cache) [.create [97]] =
            some (hist, s) ∧
        ¬Store.DestroyRemoves spread_recordBlocks.lawful s [97] ∧
        ∃ s', s.destroyObject [97] = some (0, s') ∧ ∃ id : ℕ, s'.Finds [97] id := by
  obtain ⟨d', t, hinit, hlayer⟩ := mount_zeroDisk
  obtain ⟨-, hfresh⟩ := objstoreInit_fresh (fun _ _ => rfl) hinit
  have hdom : ∀ b ∈ recordBlocks, b ∈ {b | b ∈ recordBlocks} := fun b hb => hb
  obtain ⟨s, U, hcreate, hblank, hlisted⟩ :=
    hfresh.createListed hlayer hdom (by decide : KeyOk [97])
  obtain ⟨s', hdestroy, hblank', hlisted'⟩ := hblank.destroyObject_listed hdom hlisted
  exact ⟨d', t, hinit, _, s, Run.run_cons hcreate rfl,
    fun h => (hblank.destroyRemoves_iff hdom).mp h hlisted, s', hdestroy,
    hblank'.finds_listed hdom hlisted'⟩

end GemOS.Objstore
