import GemOS.Objstore.RenameMoves

/-!
# Keys are unique

`create_object` searches the bucket of the new key for a duplicate, and `rename_object` does not
look for one. In a run of both the keys stay unique, and duplicates are rejected, if and only if no
rename takes the key of another object, and no object is created with the key of one that is lost
(`keys_unique_iff`). An object is lost when a rename put another node in the place of its own.
-/

namespace GemOS.Objstore

namespace Store

variable {σ : Type} [BlockLayer σ] {dom : Set ℕ} (L : Lawful σ dom)

/-- An object exists when its bit is set in `inodemap`. -/
def Live (s : Store σ) (id : ℕ) : Prop := id < 2^20 ∧ s.inodemap.bit id = true

/-- The key of an object. -/
def key (s : Store σ) (id : ℕ) : List UInt8 := keyOf (L.content s.layer) id

/-- Different objects have different keys. -/
def KeysUnique (s : Store σ) : Prop := ∀ i j, s.Live i → s.Live j → s.key L i = s.key L j → i = j

/-- Another object has the key that the call gives to an object. -/
def Taken (s : Store σ) : MoveOp → Prop
  | .create key => ∃ id, s.Live id ∧ s.key L id = key
  | .rename key newname _ => ∃ id : ℕ, s.Live id ∧ s.key L id = newname ∧ ¬s.Finds key id

/-- The call returns -1 and changes nothing. -/
def Rejects (s : Store σ) (op : MoveOp) : Prop :=
  ∃ s', s.moveStep op = some (-1, s') ∧ Calls L s s' (L.content s.layer)

/-- All ids are in use. -/
def Full (s : Store σ) : Prop := ∀ id, 2 ≤ id → id < 2^20 → s.inodemap.bit id = true

/-- A created key is not the one of an object, or the object is found, or there is no id left. A
renamed object gets a key that no other object has. -/
def MoveOk (s : Store σ) : MoveOp → Prop
  | .create key => (∃ id, s.Live id ∧ s.key L id = key) → ¬s.Finds key (-1) ∨ s.Full
  | .rename key newname _ => ∀ id : ℕ, s.Finds key id → ∀ j, s.Live j → s.key L j = newname → j = id

/-- The invariant of the namespace, with a record for every object that exists, also for the lost
ones. -/
structure Recorded (s : Store σ) : Prop where
  /-- The namespace. -/
  names : ∃ B, Names L s B
  /-- The records. -/
  present : ∀ id, s.Live id → Present s.inodemap (L.content s.layer) id

/-- One object got a key; the others keep theirs. -/
structure Gains (s s' : Store σ) (id : ℕ) (key : List UInt8) : Prop where
  /-- The object exists now. -/
  live : ∀ i, s'.Live i ↔ s.Live i ∨ i = id
  /-- Its key. -/
  key : s'.key L id = key
  /-- The other keys. -/
  other : ∀ j, s.Live j → j ≠ id → s'.key L j = s.key L j

variable {L} {s s' : Store σ} {B B' : ℕ → List ℕ} {op : MoveOp} {key newname : List UInt8}
  {rest : ℕ → UInt8} {id : ℕ} {obj : Object}

/-! ## One step -/

/-- The keys stay unique if no other object has the key. -/
theorem Gains.keysUnique_iff (h : Gains L s s' id key) (hunique : s.KeysUnique L) :
    s'.KeysUnique L ↔ ∀ j, s.Live j → s.key L j = key → j = id := by
  have hid : s'.Live id := (h.live id).mpr (Or.inr rfl)
  constructor
  · intro hunique' j hj hkey
    by_contra hjid
    refine hjid (hunique' j id ((h.live j).mpr (Or.inl hj)) hid ?_)
    calc s'.key L j = s.key L j := h.other j hj hjid
      _ = key := hkey
      _ = s'.key L id := h.key.symm
  · intro hfree i j hi hj hij
    have hold : ∀ {i}, s'.Live i → i ≠ id → s.Live i :=
      fun hi hne => ((h.live _).mp hi).resolve_right hne
    by_cases hiid : i = id
    · by_cases hjid : j = id
      · exact hiid.trans hjid.symm
      · rw [hiid, h.key, h.other j (hold hj hjid) hjid] at hij
        exact absurd (hfree j (hold hj hjid) hij.symm) hjid
    · by_cases hjid : j = id
      · rw [hjid, h.key, h.other i (hold hi hiid) hiid] at hij
        exact absurd (hfree i (hold hi hiid) hij) hiid
      · rw [h.other i (hold hi hiid) hiid, h.other j (hold hj hjid) hjid] at hij
        exact hunique i j (hold hi hiid) (hold hj hjid) hij

theorem Recorded.calls (h : Recorded L s) (hc : Calls L s s' (L.content s.layer)) :
    Recorded L s' := by
  obtain ⟨B, hnames⟩ := h.names
  refine ⟨⟨B, hnames.calls hc⟩, ?_⟩
  unfold Live
  rw [hc.content, hc.tables]
  exact h.present

theorem KeysUnique.calls (h : s.KeysUnique L) (hc : Calls L s s' (L.content s.layer)) :
    s'.KeysUnique L := by
  unfold KeysUnique Live Store.key
  rw [hc.content, hc.tables]
  exact h

/-- The objects after the record of one of them was written. -/
theorem Recorded.setRecord (h : Recorded L s) (hnames : ∃ B, Names L s' B) (h₂ : 2 ≤ id)
    (hlt : id < 2^20) (hobj : obj.id.toNat = id) (hlive : ∀ i, s'.Live i ↔ s.Live i ∨ i = id)
    (hcont : L.content s'.layer = GemOS.Objstore.setRecord (L.content s.layer) id obj) :
    Recorded L s' ∧ Gains L s s' id obj.keyString := by
  have hbit : ∀ i, s.Live i → s'.inodemap.bit i = true := fun i hi => ((hlive i).mpr (Or.inl hi)).2
  refine ⟨⟨hnames, fun i hi => ?_⟩, hlive, ?_, fun j hj hjid => ?_⟩
  · rw [hcont]
    by_cases hiid : i = id
    · subst hiid
      exact ⟨h₂, hlt, hi.2, by rw [record_setRecord_self, hobj]⟩
    · have hi' := ((hlive i).mp hi).resolve_right hiid
      exact (h.present i hi').setRecord (fun _ => hbit i hi') h₂ hlt hiid obj
  · rw [Store.key, hcont, keyOf, record_setRecord_self]
  · rw [Store.key, hcont]
    exact (h.present j hj).keyOf_setRecord h₂ hlt hjid obj

/-- What a call does: it fails, when this is in order, or it gives a key to an object. -/
def Effect (L : Lawful σ dom) (s s' : Store σ) (op : MoveOp) (r : ℤ) : Prop :=
  (r = -1 ∧ Calls L s s' (L.content s.layer) ∧ s.MoveOk L op) ∨
    (r ≠ -1 ∧ ∃ id key, Gains L s s' id key ∧
      (s.MoveOk L op ↔ ∀ j, s.Live j → s.key L j = key → j = id) ∧
      (s.Taken L op ↔ ¬s.MoveOk L op))

/-- `create_object` fails, or makes a new object. -/
theorem Recorded.createObject (h : Recorded L s) (hdom : ∀ b ∈ recordBlocks, b ∈ dom)
    (hkey : KeyOk key) :
    ∃ r s', s.createObject key = some (r, s') ∧ Recorded L s' ∧ Effect L s s' (.create key) r := by
  obtain ⟨B, hnames⟩ := h.names
  obtain ⟨r, s', B', hcreate, hnames', hr⟩ := hnames.createObject hdom hkey
  refine ⟨r, s', hcreate, ?_⟩
  rcases hr with ⟨rfl, hfail, -, hcalls⟩ | ⟨id, rfl, hnone, hc⟩
  · refine ⟨h.calls hcalls, Or.inl ⟨rfl, hcalls, fun _ => ?_⟩⟩
    rwa [hnames.finds_neg_iff hdom]
  · have h₂ := hc.two_le
    have hlt := hc.lt
    have hnew : ¬s.Live id := fun hid => by
      have hbit := hid.2
      rw [hc.free] at hbit
      exact absurd hbit (by simp)
    have hlive : ∀ i, s'.Live i ↔ s.Live i ∨ i = id := fun i => by
      unfold Live
      rw [hc.bit, Bool.or_eq_true, decide_eq_true_eq]
      constructor
      · rintro ⟨hi, hbit⟩
        exact hbit.imp (fun hbit => ⟨hi, hbit⟩) fun hid => hid
      · rintro (⟨hi, hbit⟩ | rfl)
        · exact ⟨hi, Or.inl hbit⟩
        · exact ⟨hlt, Or.inr rfl⟩
    obtain ⟨h', hgains⟩ := h.setRecord ⟨B', hnames'⟩ h₂ hlt (newObject_id _ (by omega))
      hlive hc.content
    rw [newObject_keyString (hkey.1.trans (by norm_num)) hkey.2] at hgains
    have hmiss : s.Finds key (-1) := (hnames.finds_neg_iff hdom).mpr hnone
    have hroom : ¬s.Full := fun hfull => hnew ⟨hlt, hfull id h₂ hlt⟩
    -- The key is searched for, and there is an id left.
    have hok : s.MoveOk L (.create key) ↔ ¬s.Taken L (.create key) := by
      refine ⟨fun hok htaken => ?_, fun hfree htaken => absurd htaken hfree⟩
      exact (hok htaken).elim (fun hfound => hfound hmiss) hroom
    refine ⟨h', Or.inr ⟨by omega, id, key, hgains, hok.trans ⟨fun hfree j hj hjkey => ?_, ?_⟩, ?_⟩⟩
    · exact absurd ⟨j, hj, hjkey⟩ hfree
    · rintro hfree ⟨j, hj, hjkey⟩
      exact hnew (hfree j hj hjkey ▸ hj)
    · rw [hok, not_not]

/-- `rename_object` fails when the object is not found, and gives it the new key else. -/
theorem Recorded.renameObject (h : Recorded L s) (hdom : ∀ b ∈ recordBlocks, b ∈ dom)
    (hnew : KeyOk newname) (key : List UInt8) (rest : ℕ → UInt8) :
    ∃ r s', s.renameObject key newname rest = some (r, s') ∧ Recorded L s' ∧
      Effect L s s' (.rename key newname rest) r := by
  obtain ⟨B, hnames⟩ := h.names
  obtain ⟨r, s', B', hrename, hnames', hr⟩ := hnames.renameObject hdom key newname rest
  refine ⟨r, s', hrename, ?_⟩
  rcases hr with ⟨rfl, hnone, -, hcalls⟩ | ⟨id, rfl, hren⟩
  · refine ⟨h.calls hcalls, Or.inl ⟨rfl, hcalls, fun id hid => ?_⟩⟩
    rw [hnames.finds_id_iff hdom, hnone] at hid
    exact absurd hid (by simp)
  · have hpres := hnames.present (mem_of_lookup hren.lookup).1
    have hid : s.Live id := ⟨hpres.lt, hpres.bit⟩
    have hlive : ∀ i, s'.Live i ↔ s.Live i ∨ i = id := fun i => by
      unfold Live
      rw [hren.inodemap]
      exact ⟨Or.inl, fun hi => hi.elim (fun hi => hi) fun hi => hi ▸ hid⟩
    have hobj : (renamed (record (L.content s.layer) id) newname rest).id.toNat = id := hpres.record
    obtain ⟨h', hgains⟩ := h.setRecord ⟨B', hnames'⟩ hpres.two_le hpres.lt hobj hlive hren.content
    rw [renamed_keyString hnew] at hgains
    -- The object is the one that is found.
    have hfinds : ∀ j : ℕ, s.Finds key j ↔ j = id := fun j => by
      rw [hnames.finds_id_iff hdom, hren.lookup, Option.some.injEq, eq_comm]
    have hok : s.MoveOk L (.rename key newname rest) ↔
        ∀ j, s.Live j → s.key L j = newname → j = id := by
      refine ⟨fun hok => hok id ((hfinds id).mpr rfl), fun hfree i hi j hj hjkey => ?_⟩
      rw [(hfinds i).mp hi]
      exact hfree j hj hjkey
    refine ⟨h', Or.inr ⟨by decide, id, newname, hgains, hok, ?_⟩⟩
    rw [hok]
    unfold Taken
    simp only [hfinds]
    push Not
    rfl

/-- Every call fails in order or gives a key to an object. -/
theorem Recorded.moveStep (h : Recorded L s) (hdom : ∀ b ∈ recordBlocks, b ∈ dom)
    (hkeys : ∀ key ∈ op.keys, KeyOk key) :
    ∃ r s', s.moveStep op = some (r, s') ∧ Recorded L s' ∧ Effect L s s' op r := by
  cases op with
  | create key => exact h.createObject hdom (hkeys key (by simp [MoveOp.keys]))
  | rename key newname rest =>
    exact h.renameObject hdom (hkeys newname (by simp [MoveOp.keys])) key rest

/-- The keys stay unique in one step if and only if the condition holds. -/
theorem Effect.keysUnique_iff {r : ℤ} (h : Effect L s s' op r) (hunique : s.KeysUnique L) :
    s'.KeysUnique L ↔ s.MoveOk L op := by
  rcases h with ⟨-, hcalls, hok⟩ | ⟨-, id, key, hgains, hok, -⟩
  · exact iff_of_true (hunique.calls hcalls) hok
  · rw [hgains.keysUnique_iff hunique, hok]

/-- Under the condition, a taken key is rejected. -/
theorem Effect.rejects {r : ℤ} (h : Effect L s s' op r) (hstep : s.moveStep op = some (r, s'))
    (hok : s.MoveOk L op) (htaken : s.Taken L op) : s.Rejects L op := by
  rcases h with ⟨rfl, hcalls, -⟩ | ⟨-, id, key, -, -, hiff⟩
  · exact ⟨s', hstep, hcalls⟩
  · exact absurd hok (hiff.mp htaken)

end Store

/-! ## Runs -/

theorem Fresh.recorded {σ : Type} [BlockLayer σ] {dom : Set ℕ} {L : Lawful σ dom}
    {t : Tables} {layer : σ} (ht : Fresh t) (hl : L.inv layer) :
    Store.Recorded L ⟨t, layer⟩ ∧ Store.KeysUnique L (⟨t, layer⟩ : Store σ) := by
  have hnone : ∀ id, ¬(⟨t, layer⟩ : Store σ).Live id := fun id h => by
    have hbit : t.inodemap.bit id = true := h.2
    rw [ht.inodemap id h.1] at hbit
    exact absurd hbit (by simp)
  exact ⟨⟨⟨_, ht.names hl⟩, fun id h => absurd h (hnone id)⟩, fun i _ hi => absurd hi (hnone i)⟩

/-- In every run of `create_object` and `rename_object` on a new store, the keys are unique in all
states and duplicates are rejected without a change, if and only if no rename takes the key of
another object and no object is created with the key of one that is not found. -/
theorem keys_unique_iff {σ : Type} [BlockLayer σ] {dom : Set ℕ} (L : Lawful σ dom)
    (hdom : ∀ b ∈ recordBlocks, b ∈ dom) {A : Allocator} {d d' : Disk} {t : Tables} {layer : σ}
    (hzero : ∀ b < 1312, d.block b = Block.zero)
    (hinit : objstoreInit d (Tables.new A) = some (0, d', t)) (hlayer : L.inv layer)
    (ops : List MoveOp) (hkeys : ∀ op ∈ ops, ∀ key ∈ op.keys, KeyOk key) :
    ((∀ pre, pre <+: ops → ∃ hist s,
        Run.run Store.moveStep (⟨t, layer⟩ : Store σ) pre = some (hist, s) ∧ s.KeysUnique L) ∧
      Run.Along Store.moveStep (fun s op => s.Taken L op → s.Rejects L op)
        (⟨t, layer⟩ : Store σ) ops) ↔
      Run.Along Store.moveStep (Store.MoveOk L) (⟨t, layer⟩ : Store σ) ops := by
  obtain ⟨-, hfresh⟩ := objstoreInit_fresh hzero hinit
  have hstart := hfresh.recorded hlayer
  have halong : Run.Along Store.moveStep (fun _ op => ∀ key ∈ op.keys, KeyOk key)
      (⟨t, layer⟩ : Store σ) ops :=
    Run.along_of_forall fun op hop _ => hkeys op hop
  -- A call keeps the keys unique exactly when it meets the condition.
  have hunique := Run.forall_prefix_iff (P := Store.MoveOk L)
    (fun s : Store σ => Store.Recorded L s ∧ s.KeysUnique L) (fun s => s.KeysUnique L)
    (fun s hs => hs.2) (fun s op hs hop hok => by
      obtain ⟨r, s', hstep, h', heffect⟩ := hs.1.moveStep hdom hop
      exact ⟨r, s', hstep, h', (heffect.keysUnique_iff hs.2).mpr hok⟩)
    (fun s op r s' hs hop hok hstep => by
      obtain ⟨r₁, s₁, hstep₁, -, heffect⟩ := hs.1.moveStep hdom hop
      obtain ⟨rfl, rfl⟩ : r₁ = r ∧ s₁ = s' := by simpa using hstep₁.symm.trans hstep
      exact fun hunique => hok ((heffect.keysUnique_iff hs.2).mp hunique))
    hstart halong
  rw [hunique]
  refine ⟨And.left, fun hok => ⟨hok, ?_⟩⟩
  refine Run.along_of_step (fun s : Store σ => Store.Recorded L s) (fun s op hs hop => ?_) hstart.1
    (halong.and hok)
  obtain ⟨r, s', hstep, h', heffect⟩ := hs.moveStep hdom hop.1
  refine ⟨heffect.rejects hstep hop.2, fun r₁ s₁ hstep₁ => ?_⟩
  obtain ⟨-, rfl⟩ : r = r₁ ∧ s' = s₁ := by simpa using hstep.symm.trans hstep₁
  exact h'

/-- Over the cache: two keys are created. -/
theorem keys_unique_iff_create :
    ∃ d' t, objstoreInit Cache.zeroDisk (Tables.new Allocator.bump) = some (0, d', t) ∧
      ((∀ pre, pre <+: [.create [97], .create [98]] → ∃ hist s, Run.run Store.moveStep
          (⟨t, Cache.empty Allocator.bump d' fun _ => Block.zero⟩ : Store Cache) pre =
            some (hist, s) ∧ s.KeysUnique spread_recordBlocks.lawful) ∧
        Run.Along Store.moveStep
          (fun s op => s.Taken spread_recordBlocks.lawful op →
            s.Rejects spread_recordBlocks.lawful op)
          (⟨t, Cache.empty Allocator.bump d' fun _ => Block.zero⟩ : Store Cache)
            [.create [97], .create [98]] ↔
        Run.Along Store.moveStep (Store.MoveOk spread_recordBlocks.lawful)
          (⟨t, Cache.empty Allocator.bump d' fun _ => Block.zero⟩ : Store Cache)
            [.create [97], .create [98]]) := by
  obtain ⟨d', t, hinit, hlayer⟩ := mount_zeroDisk
  refine ⟨d', t, hinit, keys_unique_iff spread_recordBlocks.lawful (fun b hb => hb)
    (fun _ _ => rfl) hinit hlayer _ fun op hop key hkey => ?_⟩
  have hok : KeyOk [97] ∧ KeyOk [98] := by decide
  simp only [List.mem_cons, List.not_mem_nil, or_false] at hop
  rcases hop with rfl | rfl
  · rw [List.mem_singleton.mp hkey]
    exact hok.1
  · rw [List.mem_singleton.mp hkey]
    exact hok.2

/-- Two objects are created, and the first one is renamed to the key of the second one. -/
theorem rename_object_duplicates :
    ∃ d' t, objstoreInit Cache.zeroDisk (Tables.new Allocator.bump) = some (0, d', t) ∧
      ∃ hist s, Run.run Store.moveStep
          (⟨t, Cache.empty Allocator.bump d' fun _ => Block.zero⟩ : Store Cache)
          [.create [97], .create [98], .rename [97] [98] fun _ => 0] = some (hist, s) ∧
        ¬s.KeysUnique spread_recordBlocks.lawful := by
  obtain ⟨d', t, hinit, hlayer⟩ := mount_zeroDisk
  obtain ⟨-, hfresh⟩ := objstoreInit_fresh (fun _ _ => rfl) hinit
  have hdom : ∀ b ∈ recordBlocks, b ∈ {b | b ∈ recordBlocks} := fun b hb => hb
  have hkeys : KeyOk [97] ∧ KeyOk [98] := by decide
  have hhash : hash [98] ≠ hash [97] := by decide
  obtain ⟨s₁, B₁, hcreate₁, hnames₁, hcreated₁, hids₁⟩ := hfresh.createObject hlayer hdom hkeys.1
  have hbit₁ : ∀ i, s₁.inodemap.bit i = (t.inodemap.bit i || decide (i = 2)) := hcreated₁.bit
  obtain ⟨r₂, s₂, B₂, hcreate₂, hnames₂, hr₂⟩ := hnames₁.createObject hdom hkeys.2
  -- The second key is not found, and the id 3 is free.
  rcases hr₂ with ⟨-, hfail, -⟩ | ⟨id, rfl, -, hcreated₂⟩
  · rcases hfail with hfound | hfull
    · refine absurd (lookup_eq_none.mpr fun j hj => ?_) hfound
      rw [hids₁, Function.update_of_ne hhash] at hj
      exact absurd hj List.not_mem_nil
    · have h3 := hfull 3 (by decide) (by norm_num)
      rw [hbit₁, hfresh.inodemap 3 (by norm_num)] at h3
      exact absurd h3 (by decide)
  have hid : id ≠ 2 := by
    rintro rfl
    have hfree := hcreated₂.free
    rw [hbit₁] at hfree
    simp at hfree
  -- The first object has its key and is found.
  have hmem₁ : 2 ∈ s₁.ids B₁ (hash [97]) := by simp [hids₁]
  have hkey₂ : keyOf (spread_recordBlocks.lawful.content s₂.layer) 2 = [97] := by
    rw [hcreated₂.keyOf_of_ne (hnames₁.present hmem₁) hid.symm, hcreated₁.keyOf_self hkeys.1]
  have hids₂ : s₂.ids B₂ (hash [97]) = [2] := by
    rw [hcreated₂.ids, Function.update_of_ne hhash.symm, hids₁, Function.update_self]
  obtain ⟨r₃, s₃, B₃, hrename, -, hr₃⟩ := hnames₂.renameObject hdom [97] [98] fun _ => 0
  have hlookup : lookup hash (s₂.ids B₂) (keyOf (spread_recordBlocks.lawful.content s₂.layer))
      [97] = some 2 :=
    lookup_singleton hids₂ hkey₂
  rcases hr₃ with ⟨-, hnone, -⟩ | ⟨id₃, rfl, hren⟩
  · rw [hlookup] at hnone
    exact absurd hnone (by simp)
  obtain rfl : 2 = id₃ := Option.some.inj (hlookup.symm.trans hren.lookup)
  refine ⟨d', t, hinit, _, s₃, Run.run_cons hcreate₁
    (Run.run_cons hcreate₂ (Run.run_cons hrename rfl)), fun hunique => hid ?_⟩
  have hbit₃ : ∀ i, s₃.inodemap.bit i = (s₁.inodemap.bit i || decide (i = id)) := fun i => by
    rw [hren.inodemap, hcreated₂.bit]
  have hlt := hcreated₂.lt
  refine hunique id 2 ⟨hlt, by simp [hbit₃]⟩ ⟨by norm_num, by simp [hbit₃, hbit₁]⟩ ?_
  -- Both have the second key.
  have hpresid : Present s₂.inodemap (spread_recordBlocks.lawful.content s₂.layer) id :=
    ⟨hcreated₂.two_le, hlt, by simp [hcreated₂.bit], by
      rw [hcreated₂.content, record_setRecord_self, newObject_id _ (by omega)]⟩
  unfold Store.key
  rw [hren.content, hpresid.keyOf_setRecord le_rfl (by norm_num) hid, hcreated₂.keyOf_self hkeys.2,
    keyOf, record_setRecord_self, Store.renamed_keyString hkeys.2]

end GemOS.Objstore
