import GemOS.Objstore.Rename

/-!
# Which keys a rename moves

`rename_object(a, b)` moves exactly the key `a` to `b` unless the new node takes the place of the
only node of its bucket (`Sole`) or another object has the key `a`, too (`Twins`). Both can be
reached by `create_object` and `rename_object`.
-/

namespace GemOS.Objstore.Store

variable {σ : Type} [BlockLayer σ] {dom : Set ℕ} {L : Lawful σ dom} {s s' : Store σ}
  {B B' : ℕ → List ℕ} {a b c : List UInt8} {rest : ℕ → UInt8} {id : ℕ}

/-! ## Which keys move -/

/-- The bucket of `b` is a single id, and a lookup of its key goes to this bucket. -/
def Sole (I : ℕ → List ℕ) (K : ℕ → List UInt8) (b : List UInt8) : Prop :=
  ∃ p, I (hash b) = [p] ∧ hash (K p) = hash b

/-- Two objects in the bucket of `a` have the key `a`. -/
def Twins (I : ℕ → List ℕ) (K : ℕ → List UInt8) (a : List UInt8) : Prop :=
  ∃ i ∈ I (hash a), ∃ j ∈ I (hash a), i ≠ j ∧ K i = a ∧ K j = a

section Lookup

variable {I : ℕ → List ℕ} {K K' : ℕ → List UInt8} {id : ℕ} {m₁ m₂ : List ℕ}

/-- The new key is found unless the new node is lost, and then no object has it. -/
theorem lookup_renamed_new (hI : I (hash a) = m₁ ++ id :: m₂) (hb : lookup hash I K b = none)
    (hid : K' id = b) (hother : ∀ u, ∀ j ∈ I u, j ≠ id → K' j = K j) (hsole : ¬Sole I K b)
    (ha : K id = a) : lookup hash (renamedIds I (hash a) (hash b) id m₁ m₂) K' b = some id := by
  have hmem : id ∈ renamedIds I (hash a) (hash b) id m₁ m₂ (hash b) := by
    unfold renamedIds
    by_cases hw : hash b = hash a
    · rw [if_pos hw, hw, Function.update_self]
      have hne : m₁ ++ m₂ ≠ [] := fun hnil => by
        obtain ⟨rfl, rfl⟩ := List.append_eq_nil_iff.mp hnil
        exact hsole ⟨id, by rw [hw, hI]; rfl, by rw [ha, hw]⟩
      rw [if_neg hne]
      simp
    · rw [if_neg hw, Function.update_of_ne hw, Function.update_self]
      split_ifs <;> simp
  obtain ⟨j, hj⟩ := Option.ne_none_iff_exists'.mp fun hnone => lookup_eq_none.mp hnone id hmem hid
  obtain ⟨hmem', hkey⟩ := mem_of_lookup hj
  by_cases hjid : j = id
  · rwa [hjid] at hj
  · rcases mem_renamedIds hI hmem' with rfl | hjI
    · exact absurd rfl hjid
    · rw [hother _ j hjI hjid] at hkey
      exact absurd hkey (lookup_eq_none.mp hb j hjI)

/-- The old key is missing unless another object has it. -/
theorem lookup_renamed_old (hI : I (hash a) = m₁ ++ id :: m₂) (ha : K id = a) (hid : K' id = b)
    (hab : b ≠ a) (hother : ∀ u, ∀ j ∈ I u, j ≠ id → K' j = K j) :
    lookup hash (renamedIds I (hash a) (hash b) id m₁ m₂) K' a = none ↔ ¬Twins I K a := by
  have hmem : id ∈ I (hash a) := by rw [hI]; simp
  constructor
  · rintro hnone ⟨i, hi, j, hj, hij, hKi, hKj⟩
    obtain ⟨k, hk, hkid, hKk⟩ : ∃ k ∈ I (hash a), k ≠ id ∧ K k = a := by
      by_cases hiid : i = id
      · exact ⟨j, hj, fun h => hij (hiid.trans h.symm), hKj⟩
      · exact ⟨i, hi, hiid, hKi⟩
    -- It is still in the bucket.
    have hk₁₂ : k ∈ m₁ ++ m₂ := by
      rw [hI] at hk
      simp only [List.mem_append, List.mem_cons] at hk ⊢
      tauto
    refine lookup_eq_none.mp hnone k ?_ ((hother _ k hk hkid).trans hKk)
    unfold renamedIds
    split_ifs with hw hnil
    · rw [hnil] at hk₁₂
      exact absurd hk₁₂ List.not_mem_nil
    · rw [Function.update_self]
      exact List.mem_append_left _ hk₁₂
    all_goals
      rw [Function.update_self]
      exact hk₁₂
  · intro htwins
    refine lookup_eq_none.mpr fun j hj hkey => ?_
    by_cases hjid : j = id
    · rw [hjid, hid] at hkey
      exact hab hkey
    · rcases mem_renamedIds hI hj with rfl | hjI
      · exact hjid rfl
      · rw [hother _ j hjI hjid] at hkey
        exact htwins ⟨id, hmem, j, hjI, Ne.symm hjid, ha, hkey⟩

/-- The other keys are found as before, unless a node is lost. -/
theorem lookup_renamed_other (hI : I (hash a) = m₁ ++ id :: m₂) (ha : K id = a) (hid : K' id = b)
    (hother : ∀ u, ∀ j ∈ I u, j ≠ id → K' j = K j) (hsole : ¬Sole I K b) {c : List UInt8}
    (hca : c ≠ a) (hcb : c ≠ b) :
    lookup hash (renamedIds I (hash a) (hash b) id m₁ m₂) K' c = lookup hash I K c := by
  have hKid : decide (K id = c) = false := decide_eq_false fun h => hca (h.symm.trans ha)
  -- No object gains or loses the key `c`, so the search may use the old keys.
  have hcongr : ∀ j ∈ renamedIds I (hash a) (hash b) id m₁ m₂ (hash c), K' j = c ↔ K j = c := by
    intro j hj
    by_cases hjid : j = id
    · rw [hjid, hid, ha]
      exact iff_of_false hcb.symm hca.symm
    · rcases mem_renamedIds hI hj with rfl | hjI
      · exact absurd rfl hjid
      · rw [hother _ j hjI hjid]
  rw [lookup_congr rfl hcongr]
  unfold lookup renamedIds
  -- The bucket of `c` lost the object, got it, both, or neither.
  by_cases hcv : hash c = hash a
  · have hskip : (m₁ ++ id :: m₂).find? (fun i => decide (K i = c)) =
        (m₁ ++ m₂).find? fun i => decide (K i = c) := by
      rw [List.find?_append, List.find?_append, List.find?_cons, hKid]
    rw [hcv, hI, hskip]
    split_ifs with hw hnil
    · rw [Function.update_self, hnil]
    · rw [Function.update_self, List.find?_append, List.find?_cons, hKid, List.find?_nil,
        Option.or_none]
    all_goals rw [Function.update_self]
  · by_cases hw : hash b = hash a
    · rw [if_pos hw, Function.update_of_ne hcv]
    · rw [if_neg hw, Function.update_of_ne hcv]
      by_cases hcw : hash c = hash b
      · rw [hcw, Function.update_self]
        split_ifs with hlen
        · -- The object of the only node is not looked up in this bucket.
          have hnone : (I (hash b)).find? (fun i => decide (K i = c)) = none := by
            rw [List.find?_eq_none]
            intro p hp hKp
            obtain ⟨q, hq⟩ : ∃ q, I (hash b) = [q] := by
              rw [← List.length_eq_one_iff]
              have := List.length_pos_of_mem hp
              omega
            rw [hq, List.mem_singleton] at hp
            have hKp' : K p = c := by simpa using hKp
            exact hsole ⟨q, hq, by rw [← hp, hKp', hcw]⟩
          rw [hnone, List.find?_cons, hKid, List.find?_nil]
        · rw [List.find?_append, List.find?_cons, hKid, List.find?_nil, Option.or_none]
      · rw [Function.update_of_ne hcw]

/-- When the new node takes the place of the only node of its bucket, or is lost itself, a key is
not found any more. -/
theorem lookup_renamed_sole (hI : I (hash a) = m₁ ++ id :: m₂) (hid : K' id = b)
    (hb : lookup hash I K b = none) (hsole : Sole I K b) :
    lookup hash (renamedIds I (hash a) (hash b) id m₁ m₂) K' b = none ∨
      ∃ c p, c ≠ a ∧ c ≠ b ∧ K p = c ∧ lookup hash I K c = some p ∧
        lookup hash (renamedIds I (hash a) (hash b) id m₁ m₂) K' c = none := by
  obtain ⟨p, hp, hKp⟩ := hsole
  by_cases hw : hash b = hash a
  · left
    rw [hw, hI] at hp
    obtain ⟨rfl, hid, rfl⟩ : m₁ = [] ∧ id = p ∧ m₂ = [] := by
      cases m₁ with
      | nil => simpa using hp
      | cons c m₁ => simp at hp
    refine lookup_eq_none.mpr fun j hj => ?_
    rw [renamedIds, if_pos hw, hw, Function.update_self, if_pos (List.append_nil [])] at hj
    exact absurd hj List.not_mem_nil
  · right
    have hpb : K p ≠ b := lookup_eq_none.mp hb p (by rw [hp]; simp)
    have hpa : K p ≠ a := fun h => hw (by rw [← hKp, h])
    refine ⟨K p, p, hpa, hpb, rfl, lookup_singleton (by rw [hKp, hp]) rfl,
      lookup_eq_none.mpr fun j hj => ?_⟩
    rw [renamedIds, if_neg hw, hKp, Function.update_of_ne hw, Function.update_self, hp,
      if_pos (by simp), List.mem_singleton] at hj
    rw [hj, hid]
    exact hpb.symm

end Lookup

/-! ## Every reached state -/

/-- `rename_object(a, b)` moves exactly the key `a` to `b`. -/
def RenameMoves (s : Store σ) (a b : List UInt8) (rest : ℕ → UInt8) : Prop :=
  ∃ s', s.renameObject a b rest = some (0, s') ∧ (∀ r, s.Finds a r → s'.Finds b r) ∧
    s'.Finds a (-1) ∧ ∀ c, 0 ∉ c → c ≠ a → c ≠ b → ∀ r, s.Finds c r → s'.Finds c r

/-- The bucket of `b` is a single node, and the key of its object hashes to this bucket. -/
def SoleNode (L : Lawful σ dom) (s : Store σ) (b : List UInt8) : Prop :=
  ∃ p, s.hashTable (hash b) = some p ∧ (s.heap.mem p).next = none ∧
    hash (keyOf (L.content s.layer) (s.heap.mem p).id) = hash b

/-- Two objects in the bucket of `a` have the key `a`. -/
def TwinNodes (L : Lawful σ dom) (s : Store σ) (a : List UInt8) : Prop :=
  ∃ l, Chain s.heap.mem HashObj.next (s.hashTable (hash a)) l ∧ ∃ p ∈ l, ∃ q ∈ l,
    (s.heap.mem p).id ≠ (s.heap.mem q).id ∧ keyOf (L.content s.layer) (s.heap.mem p).id = a ∧
      keyOf (L.content s.layer) (s.heap.mem q).id = a

theorem Names.soleNode_iff (h : Names L s B) :
    SoleNode L s b ↔ Sole (s.ids B) (keyOf (L.content s.layer)) b := by
  have hchain := h.table.chain (hash b)
  constructor
  · rintro ⟨p, hp, hnext, hkey⟩
    have hB : B (hash b) = [p] := hchain.unique ⟨hp, hnext⟩
    exact ⟨(s.heap.mem p).id, by rw [ids, hB]; rfl, hkey⟩
  · rintro ⟨id, hid, hkey⟩
    obtain ⟨p, hB, rfl⟩ : ∃ p, B (hash b) = [p] ∧ (s.heap.mem p).id = id := by
      rw [ids, List.map_eq_singleton_iff] at hid
      exact hid
    rw [hB] at hchain
    exact ⟨p, hchain.1, hchain.2, hkey⟩

theorem Names.twinNodes_iff (h : Names L s B) :
    TwinNodes L s a ↔ Twins (s.ids B) (keyOf (L.content s.layer)) a := by
  have hchain := h.table.chain (hash a)
  constructor
  · rintro ⟨l, hl, p, hp, q, hq, hpq⟩
    obtain rfl : B (hash a) = l := hchain.unique hl
    exact ⟨_, List.mem_map_of_mem hp, _, List.mem_map_of_mem hq, hpq⟩
  · rintro ⟨i, hi, j, hj, hij⟩
    obtain ⟨p, hp, rfl⟩ := List.mem_map.mp hi
    obtain ⟨q, hq, rfl⟩ := List.mem_map.mp hj
    exact ⟨B (hash a), hchain, p, hp, q, hq, hij⟩

/-- A rename of an existing key to a new one moves exactly this key if and only if no node is lost
and the key has one object. -/
theorem Names.renameMoves_iff (h : Names L s B) (hdom : ∀ b ∈ recordBlocks, b ∈ dom) (hb : KeyOk b)
    (hfound : ¬s.Finds a (-1)) (hmiss : s.Finds b (-1)) :
    s.RenameMoves a b rest ↔ ¬SoleNode L s b ∧ ¬TwinNodes L s a := by
  rw [h.soleNode_iff, h.twinNodes_iff]
  rw [h.finds_neg_iff hdom] at hfound hmiss
  have hab : b ≠ a := by rintro rfl; exact hfound hmiss
  obtain ⟨r, s', B', hrename, h', hr⟩ := h.renameObject hdom a b rest
  rcases hr with ⟨-, hnone, -⟩ | ⟨id, rfl, hren⟩
  · exact absurd hnone hfound
  obtain ⟨m₁, m₂, hI, hI'⟩ := hren.ids
  have hlookup := hren.lookup
  obtain ⟨hid, ha⟩ := mem_of_lookup hlookup
  have hpres := h.present hid
  -- The keys of the objects afterwards.
  have hid' : keyOf (L.content s'.layer) id = b := by
    rw [hren.content, keyOf, record_setRecord_self, renamed_keyString hb]
  have hother : ∀ u, ∀ j ∈ s.ids B u, j ≠ id →
      keyOf (L.content s'.layer) j = keyOf (L.content s.layer) j := fun u j hj hjid => by
    rw [hren.content]
    exact (h.present hj).keyOf_setRecord hpres.two_le hpres.lt hjid _
  constructor
  · rintro ⟨s'', hrename', hmove, hold, hrest⟩
    rw [hrename, Option.some.injEq, Prod.mk.injEq] at hrename'
    obtain ⟨-, rfl⟩ := hrename'
    refine ⟨fun hsole => ?_, ?_⟩
    · rcases lookup_renamed_sole hI hid' hmiss hsole with hnone | ⟨c, p, hca, hcb, hp, hsome, hnone⟩
      · have hnew := (h'.finds_id_iff hdom).mp (hmove id ((h.finds_id_iff hdom).mpr hlookup))
        rw [hI', hnone] at hnew
        exact absurd hnew (by simp)
      · have hc : 0 ∉ c := fun h0 => by
          rw [← hp] at h0
          simpa using List.mem_takeWhile_imp h0
        have hlost := (h'.finds_id_iff hdom).mp
          (hrest c hc hca hcb p ((h.finds_id_iff hdom).mpr hsome))
        rw [hI', hnone] at hlost
        exact absurd hlost (by simp)
    · rw [h'.finds_neg_iff hdom, hI'] at hold
      exact (lookup_renamed_old hI ha hid' hab hother).mp hold
  · rintro ⟨hsole, htwins⟩
    refine ⟨s', hrename, fun r hr => ?_, ?_, fun c _ hca hcb r hr => ?_⟩
    · rw [h.finds_iff hdom, hlookup] at hr
      rw [hr]
      refine (h'.finds_id_iff hdom).mpr ?_
      rw [hI']
      exact lookup_renamed_new hI hmiss hid' hother hsole ha
    · rw [h'.finds_neg_iff hdom, hI']
      exact (lookup_renamed_old hI ha hid' hab hother).mpr htwins
    · rw [h.finds_iff hdom] at hr
      rw [h'.finds_iff hdom, hI', lookup_renamed_other hI ha hid' hother hsole hca hcb]
      exact hr

end GemOS.Objstore.Store

namespace GemOS.Objstore

/-- A call that creates or renames an object. -/
inductive MoveOp where
  /-- `create_object(key)`. -/
  | create (key : List UInt8)
  /-- `rename_object(key, newname)`, with the memory behind the new name. -/
  | rename (key newname : List UInt8) (rest : ℕ → UInt8)

/-- The keys of a call. -/
def MoveOp.keys : MoveOp → List (List UInt8)
  | create key => [key]
  | rename key newname _ => [key, newname]

/-- A call on the store. -/
def Store.moveStep {σ : Type} [BlockLayer σ] (s : Store σ) : MoveOp → Option (ℤ × Store σ)
  | .create key => s.createObject key
  | .rename key newname rest => s.renameObject key newname rest

/-- Creating and renaming objects keeps the invariant of the namespace. -/
theorem Store.Names.moveStep {σ : Type} [BlockLayer σ] {dom : Set ℕ}
    {L : Lawful σ dom} {s : Store σ}
    {B : ℕ → List ℕ} (h : Store.Names L s B) (hdom : ∀ b ∈ recordBlocks, b ∈ dom) {op : MoveOp}
    (hkeys : ∀ key ∈ op.keys, KeyOk key) :
    ∃ r s' B', s.moveStep op = some (r, s') ∧ Store.Names L s' B' := by
  cases op with
  | create key =>
    obtain ⟨r, s', B', hcreate, hnames, -⟩ :=
      h.createObject hdom (hkeys key (by simp [MoveOp.keys]))
    exact ⟨r, s', B', hcreate, hnames⟩
  | rename key newname rest =>
    obtain ⟨r, s', B', hrename, hnames, -⟩ := h.renameObject hdom key newname rest
    exact ⟨r, s', B', hrename, hnames⟩

/-- In every state that `create_object` and `rename_object` reach, renaming an existing key to a new
one moves exactly this key if and only if the bucket of the new key is not a single node that is
looked up there, and no other object in the bucket of the old key has it. -/
theorem rename_object_moves {σ : Type} [BlockLayer σ] {dom : Set ℕ} (L : Lawful σ dom)
    (hdom : ∀ b ∈ recordBlocks, b ∈ dom) {A : Allocator} {d d' : Disk} {t : Tables} {layer : σ}
    (hzero : ∀ b < 1312, d.block b = Block.zero)
    (hinit : objstoreInit d (Tables.new A) = some (0, d', t)) (hlayer : L.inv layer)
    (ops : List MoveOp) (hkeys : ∀ op ∈ ops, ∀ key ∈ op.keys, KeyOk key) :
    ∃ hist s, Run.run Store.moveStep (⟨t, layer⟩ : Store σ) ops = some (hist, s) ∧
      ∀ a b rest, KeyOk a → KeyOk b → ¬s.Finds a (-1) → s.Finds b (-1) →
        (s.RenameMoves a b rest ↔ ¬Store.SoleNode L s b ∧ ¬Store.TwinNodes L s a) := by
  obtain ⟨-, hfresh⟩ := objstoreInit_fresh hzero hinit
  obtain ⟨hist, s, hrun, B, hnames⟩ := Run.run_of_step (h := [])
    (P := fun _ op => ∀ key ∈ op.keys, KeyOk key) (fun (s : Store σ) _ => ∃ B, Store.Names L s B)
    (fun s hist op ⟨B, hs⟩ hop => by
      obtain ⟨r, s', B', hstep, hnames⟩ := hs.moveStep hdom hop
      exact ⟨r, s', hstep, B', hnames⟩)
    ⟨_, hfresh.names hlayer⟩ (Run.along_of_forall fun op hop _ => hkeys op hop)
  exact ⟨hist, s, hrun, fun a b rest _ hb hfound hmiss =>
    hnames.renameMoves_iff hdom hb hfound hmiss⟩

/-- Over the cache: after a key was created. -/
theorem rename_object_moves_create :
    ∃ d' t, objstoreInit Cache.zeroDisk (Tables.new Allocator.bump) = some (0, d', t) ∧
      ∃ hist s, Run.run Store.moveStep
          (⟨t, Cache.empty Allocator.bump d' fun _ => Block.zero⟩ : Store Cache) [.create [97]] =
            some (hist, s) ∧
        ∀ a b rest, KeyOk a → KeyOk b → ¬s.Finds a (-1) → s.Finds b (-1) →
          (s.RenameMoves a b rest ↔ ¬Store.SoleNode spread_recordBlocks.lawful s b ∧
            ¬Store.TwinNodes spread_recordBlocks.lawful s a) := by
  obtain ⟨d', t, hinit, hlayer⟩ := mount_zeroDisk
  refine ⟨d', t, hinit, rename_object_moves spread_recordBlocks.lawful (fun b hb => hb)
    (fun _ _ => rfl) hinit hlayer _ fun op hop key hkey => ?_⟩
  rw [List.mem_singleton] at hop
  rw [hop, MoveOp.keys, List.mem_singleton] at hkey
  rw [hkey]
  decide

/-- The only object of a bucket is renamed within this bucket, and is lost. -/
theorem rename_object_not_moves :
    ∃ d' t, objstoreInit Cache.zeroDisk (Tables.new Allocator.bump) = some (0, d', t) ∧
      ∃ hist s, Run.run Store.moveStep
          (⟨t, Cache.empty Allocator.bump d' fun _ => Block.zero⟩ : Store Cache) [.create [97]] =
            some (hist, s) ∧
        ¬s.Finds [97] (-1) ∧ s.Finds [2, 19] (-1) ∧ ¬s.RenameMoves [97] [2, 19] fun _ => 0 := by
  obtain ⟨d', t, hinit, hlayer⟩ := mount_zeroDisk
  obtain ⟨-, hfresh⟩ := objstoreInit_fresh (fun _ _ => rfl) hinit
  have hdom : ∀ b ∈ recordBlocks, b ∈ {b | b ∈ recordBlocks} := fun b hb => hb
  obtain ⟨s, B, hcreate, hnames, hcreated, hids⟩ :=
    hfresh.createObject hlayer hdom (by decide : KeyOk [97])
  have hhash : hash [2, 19] = hash [97] := by decide
  have hkey : keyOf (spread_recordBlocks.lawful.content s.layer) 2 = [97] :=
    hcreated.keyOf_self (by decide)
  have hbucket : s.ids B (hash [97]) = [2] := by rw [hids, Function.update_self]
  have hfound : ¬s.Finds [97] (-1) := fun h => by
    rw [hnames.finds_neg_iff hdom, lookup_eq_none] at h
    exact h 2 (by rw [hbucket]; simp) hkey
  have hmiss : s.Finds [2, 19] (-1) := by
    rw [hnames.finds_neg_iff hdom, lookup_eq_none]
    intro j hj
    rw [hhash, hbucket, List.mem_singleton] at hj
    rw [hj, hkey]
    decide
  refine ⟨d', t, hinit, _, s, Run.run_cons hcreate rfl, hfound, hmiss, fun hmoves => ?_⟩
  rw [hnames.renameMoves_iff hdom (by decide) hfound hmiss, hnames.soleNode_iff] at hmoves
  exact hmoves.1 ⟨2, by rw [hhash, hbucket], by rw [hkey, hhash]⟩

end GemOS.Objstore
