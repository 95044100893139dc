import GemOS.Objstore.Mount

/-!
# Creating and finding objects

Runs of `create_object` and `find_object_id` on a new store are runs of a finite map from keys to
ids: the invariant is that `lookup` is the map of the successful calls of `create_object` so far,
and that the ids in use are its values. Keys of one bucket do not disturb each other.
-/

namespace GemOS.Objstore

/-- A call on the namespace. -/
inductive NameOp where
  /-- `create_object(key)`. -/
  | create (key : List UInt8)
  /-- `find_object_id(key)`. -/
  | find (key : List UInt8)

/-- The key of a call on the namespace. -/
def NameOp.key : NameOp → List UInt8
  | create key => key
  | find key => key

/-- A call on the store. -/
def Store.nameStep {σ : Type} [BlockLayer σ] (s : Store σ) : NameOp → Option (ℤ × Store σ)
  | .create key => s.createObject key
  | .find key => s.findObjectId key

/-- A call of `create_object(key)` returned the id `id`. -/
def WasCreated (hist : List (NameOp × ℤ)) (key : List UInt8) (id : ℤ) : Prop :=
  (NameOp.create key, id) ∈ hist ∧ id ≠ -1

/-- What a finite map returns after a history of calls. -/
def Conforms (hist : List (NameOp × ℤ)) : NameOp → ℤ → Prop
  | .create key, r =>
    (r = -1 ↔ (∃ id, WasCreated hist key id) ∨
      ∀ id : ℤ, 2 ≤ id → id < 2^20 → ∃ key', WasCreated hist key' id) ∧
    (r ≠ -1 → 2 ≤ r ∧ ∀ key' id, WasCreated hist key' id → id ≠ r)
  | .find key, r =>
    (∀ id, WasCreated hist key id → r = id) ∧ ((∀ id, ¬WasCreated hist key id) → r = -1)

variable {σ : Type} [BlockLayer σ] {dom : Set ℕ} {L : Lawful σ dom} {s s' : Store σ}
  {B : ℕ → List ℕ} {hist : List (NameOp × ℤ)} {op : NameOp} {key : List UInt8}

/-- The store holds the map of the successful calls of `create_object`. -/
structure HoldsMap (L : Lawful σ dom) (s : Store σ) (B : ℕ → List ℕ) (hist : List (NameOp × ℤ)) :
    Prop where
  /-- The invariant of the namespace. -/
  names : Store.Names L s B
  /-- A key is found if and only if it was created. -/
  lookup_iff : ∀ key (id : ℤ), WasCreated hist key id ↔
    ∃ n : ℕ, (n : ℤ) = id ∧ lookup hash (s.ids B) (keyOf (L.content s.layer)) key = some n
  /-- An id is in use if and only if it is found. -/
  used_iff : ∀ n, 2 ≤ n → n < 2^20 → (s.inodemap.bit n = true ↔
    ∃ key, lookup hash (s.ids B) (keyOf (L.content s.layer)) key = some n)

theorem wasCreated_append (hist : List (NameOp × ℤ)) (op : NameOp) (r : ℤ) (key : List UInt8)
    (id : ℤ) : WasCreated (hist ++ [(op, r)]) key id ↔
      WasCreated hist key id ∨ (op = .create key ∧ r = id ∧ id ≠ -1) := by
  unfold WasCreated
  simp only [List.mem_append, List.mem_singleton, Prod.mk.injEq]
  constructor
  · rintro ⟨h | ⟨h₁, h₂⟩, hid⟩
    · exact Or.inl ⟨h, hid⟩
    · exact Or.inr ⟨h₁.symm, h₂.symm, hid⟩
  · rintro (⟨h, hid⟩ | ⟨h₁, h₂, hid⟩)
    · exact ⟨Or.inl h, hid⟩
    · exact ⟨Or.inr ⟨h₁.symm, h₂.symm⟩, hid⟩

/-- A call that returns nothing new and keeps the contents keeps the map. -/
theorem HoldsMap.calls (h : HoldsMap L s B hist) (hc : Store.Calls L s s' (L.content s.layer))
    {r : ℤ} (hr : ∀ key, op = .create key → r = -1) : HoldsMap L s' B (hist ++ [(op, r)]) := by
  refine ⟨h.names.calls hc, fun key id => ?_, fun n h₂ hn => ?_⟩
  · rw [wasCreated_append, hc.ids, hc.content, ← h.lookup_iff]
    constructor
    · rintro (hw | ⟨hop, rfl, hid⟩)
      · exact hw
      · exact absurd (hr key hop) hid
    · exact Or.inl
  · rw [hc.ids, hc.content, hc.tables]
    exact h.used_iff n h₂ hn

/-- The map after an object was created. -/
theorem HoldsMap.created (h : HoldsMap L s B hist) (hkey : KeyOk key) {B' : ℕ → List ℕ} {id : ℕ}
    (hnone : lookup hash (s.ids B) (keyOf (L.content s.layer)) key = none)
    (hnames : Store.Names L s' B') (hc : Store.Created L s s' B B' key id) :
    HoldsMap L s' B' (hist ++ [(.create key, (id : ℤ))]) := by
  have h₂ := hc.two_le
  have hlt := hc.lt
  -- The ids of the old nodes are not the new one, and keep their records.
  have hne : ∀ v, ∀ j ∈ s.ids B v, j ≠ id := fun v j hj hji => by
    have hbit := (h.names.present hj).bit
    rw [hji, hc.free] at hbit
    exact absurd hbit (by simp)
  have hlookup : ∀ k, lookup hash (s'.ids B') (keyOf (L.content s'.layer)) k =
      if k = key then some id else lookup hash (s.ids B) (keyOf (L.content s.layer)) k := by
    refine lookup_insert (if s.ids B (hash key) = [] then [id] else [id, id]) ?_ ?_ ?_ hnone
      hc.ids ?_ ?_
    · intro j hj
      split_ifs at hj <;> simpa using hj
    · split_ifs <;> simp
    · exact fun v hv => hne v id hv rfl
    · exact hc.keyOf_self hkey
    · rintro j ⟨v, hj⟩
      exact hc.keyOf_of_ne (h.names.present hj) (hne v j hj)
  refine ⟨hnames, fun k i => ?_, fun n hn₂ hn => ?_⟩
  · rw [wasCreated_append, h.lookup_iff, hlookup]
    by_cases hk : k = key
    · subst hk
      rw [if_pos rfl, hnone]
      constructor
      · rintro (⟨n, -, hn⟩ | ⟨-, hi, -⟩)
        · exact absurd hn (by simp)
        · exact ⟨id, hi, rfl⟩
      · rintro ⟨n, rfl, hn⟩
        obtain rfl : id = n := by simpa using hn
        exact Or.inr ⟨rfl, rfl, by omega⟩
    · rw [if_neg hk]
      constructor
      · rintro (hw | ⟨hop, -, -⟩)
        · exact hw
        · exact absurd (NameOp.create.inj hop).symm hk
      · exact Or.inl
  · rw [hc.bit, Bool.or_eq_true, decide_eq_true_eq, h.used_iff n hn₂ hn]
    constructor
    · rintro (⟨k, hk⟩ | rfl)
      · have hkk : k ≠ key := by rintro rfl; rw [hnone] at hk; exact absurd hk (by simp)
        exact ⟨k, by rw [hlookup, if_neg hkk, hk]⟩
      · exact ⟨key, by rw [hlookup, if_pos rfl]⟩
    · rintro ⟨k, hk⟩
      rw [hlookup] at hk
      split_ifs at hk with hkk
      · exact Or.inr (by simpa using hk.symm)
      · exact Or.inl ⟨k, hk⟩

/-- Every call does what a finite map does, and keeps the map. -/
theorem HoldsMap.step (hdom : ∀ b ∈ recordBlocks, b ∈ dom) (h : HoldsMap L s B hist)
    (hkey : KeyOk op.key) :
    ∃ r s', s.nameStep op = some (r, s') ∧ (∃ B', HoldsMap L s' B' (hist ++ [(op, r)])) ∧
      Conforms hist op r := by
  cases op with
  | create key =>
    change KeyOk key at hkey
    obtain ⟨r, s', B', hcreate, hnames, hr⟩ := h.names.createObject hdom hkey
    refine ⟨r, s', hcreate, ?_⟩
    rcases hr with ⟨rfl, hfail, rfl, hcalls⟩ | ⟨id, rfl, hnone, hcreated⟩
    · -- The code fails when it finds the key, or when no id is free: then every id names an object.
      refine ⟨⟨B', h.calls hcalls fun _ _ => rfl⟩, iff_of_true rfl ?_, fun hr => absurd rfl hr⟩
      rcases hfail with hfound | hfull
      · obtain ⟨n, hn⟩ := Option.ne_none_iff_exists'.mp hfound
        exact Or.inl ⟨n, (h.lookup_iff key n).mpr ⟨n, rfl, hn⟩⟩
      · refine Or.inr fun id h₂ hlt => ?_
        obtain ⟨n, rfl⟩ := Int.eq_ofNat_of_zero_le (by omega : 0 ≤ id)
        obtain ⟨k, hk⟩ := (h.used_iff n (by omega) (by omega)).mp (hfull n (by omega) (by omega))
        exact ⟨k, (h.lookup_iff k n).mpr ⟨n, rfl, hk⟩⟩
    · have h₂ := hcreated.two_le
      have hlt := hcreated.lt
      refine ⟨⟨B', h.created hkey hnone hnames hcreated⟩, iff_of_false (by omega) ?_,
        fun _ => ⟨by omega, fun k i hw hi => ?_⟩⟩
      · -- A call that succeeds had neither reason to fail: the key is new, and the id was free.
        rintro (⟨i, hw⟩ | hall)
        · obtain ⟨n, -, hn⟩ := (h.lookup_iff key i).mp hw
          rw [hnone] at hn
          exact absurd hn (by simp)
        · obtain ⟨k, hw⟩ := hall id (by omega) (by omega)
          obtain ⟨n, hn, hk⟩ := (h.lookup_iff k id).mp hw
          obtain rfl : n = id := by omega
          have hbit := (h.used_iff n h₂ hlt).mpr ⟨k, hk⟩
          rw [hcreated.free] at hbit
          exact absurd hbit (by simp)
      · obtain ⟨n, hn, hk⟩ := (h.lookup_iff k i).mp hw
        obtain rfl : n = id := by omega
        have hbit := (h.used_iff n h₂ hlt).mpr ⟨k, hk⟩
        rw [hcreated.free] at hbit
        exact absurd hbit (by simp)
  | find key =>
    obtain ⟨s', hfind, hcalls⟩ := h.names.findObjectId hdom key
    refine ⟨_, s', hfind, ⟨B, h.calls hcalls (fun _ hop => by cases hop)⟩, fun id hw => ?_,
      fun hnone => ?_⟩
    · obtain ⟨n, rfl, hn⟩ := (h.lookup_iff key id).mp hw
      rw [hn]
      rfl
    · cases hl : lookup hash (s.ids B) (keyOf (L.content s.layer)) key with
      | none => rfl
      | some n => exact absurd ((h.lookup_iff key n).mpr ⟨n, rfl, hl⟩) (hnone n)

/-- The state that `objstore_init` leaves holds the empty map. -/
theorem Fresh.holdsMap {t : Tables} (ht : Fresh t) {layer : σ} (hl : L.inv layer) :
    HoldsMap L ⟨t, layer⟩ (fun _ => []) [] := by
  have hnone : ∀ key, lookup hash (Store.ids (⟨t, layer⟩ : Store σ) fun _ => [])
      (keyOf (L.content layer)) key = none := fun key => lookup_eq_none.mpr (by simp [Store.ids])
  refine ⟨ht.names hl, fun key id => ?_, fun n _ hn => ?_⟩
  · rw [hnone]
    simp [WasCreated]
  · rw [ht.inodemap n hn]
    simp [hnone]

/-- Over any lawful block layer, every run of `create_object` and `find_object_id` on the state that
`objstore_init` leaves on a disk of zeros returns what a finite map returns. -/
theorem create_find_refine {σ : Type} [BlockLayer σ] {dom : Set ℕ} (L : Lawful σ dom)
    (hdom : ∀ b ∈ recordBlocks, b ∈ dom) {A : Allocator} {d d' : Disk} {t : Tables} {layer : σ}
    (hzero : ∀ b, d.block b = Block.zero)
    (hinit : objstoreInit d (Tables.new A) = some (0, d', t)) (hlayer : L.inv layer)
    (ops : List NameOp) (hkeys : ∀ op ∈ ops, KeyOk op.key) :
    ∃ hist s, Run.run Store.nameStep (⟨t, layer⟩ : Store σ) ops = some (hist, s) ∧
      ∀ pre op r post, hist = pre ++ (op, r) :: post → Conforms pre op r := by
  obtain ⟨-, hfresh⟩ := objstoreInit_fresh (fun b _ => hzero b) hinit
  have hrun := Run.history_of_step (P := fun _ op => KeyOk op.key)
    (fun (s : Store σ) hist => ∃ B, HoldsMap L s B hist) Conforms
    (fun s hist op ⟨B, hs⟩ hop => hs.step hdom hop) ⟨_, hfresh.holdsMap hlayer⟩
    (Run.along_of_forall fun op hop _ => hkeys op hop)
  obtain ⟨hist, s, hrun, -, hconf⟩ := hrun
  exact ⟨hist, s, hrun, hconf⟩

/-- Over the cache: a key is created twice and found. -/
theorem create_find_refine_cache :
    ∃ d' t, objstoreInit Cache.zeroDisk (Tables.new Allocator.bump) = some (0, d', t) ∧
      ∃ hist s, Run.run Store.nameStep
          (⟨t, Cache.empty Allocator.bump d' fun _ => Block.zero⟩ : Store Cache)
          [.create [97], .create [97], .find [97]] = some (hist, s) ∧
        ∀ pre op r post, hist = pre ++ (op, r) :: post → Conforms pre op r := by
  obtain ⟨d', t, hinit, hlayer⟩ := mount_zeroDisk
  refine ⟨d', t, hinit, create_find_refine spread_recordBlocks.lawful (fun b hb => hb)
    (fun _ => rfl) hinit hlayer _ fun op hop => ?_⟩
  have hkey : KeyOk [97] := by decide
  simp only [List.mem_cons, List.not_mem_nil, or_false] at hop
  rcases hop with rfl | rfl | rfl <;> exact hkey

end GemOS.Objstore
