import GemOS.Objstore.Mount

/-!
# Renaming an object

`rename_object(a, b)` writes the new key to the record of the object with key `a`, inserts a node
for it into the bucket of `b`, and unlinks its node from the bucket of `a`. When the bucket of `b`
has one node, `insert_to_hash_table` puts the new node in its place.
-/

namespace GemOS.Objstore.Store

variable {σ : Type} [BlockLayer σ] {dom : Set ℕ} {L : Lawful σ dom} {s s' : Store σ}
  {B : ℕ → List ℕ} {a b : List UInt8} {rest : ℕ → UInt8}

/-- The record of an object after it was renamed. -/
def renamed (obj : Object) (newname : List UInt8) (rest : ℕ → UInt8) : Object :=
  { obj with key := fun i => cString newname rest i }

theorem renamed_keyString (hb : KeyOk b) (obj : Object) (rest : ℕ → UInt8) :
    (renamed obj b rest).keyString = b := by
  refine Object.keyString_eq hb fun i hi => ?_
  unfold renamed cString
  dsimp only
  split_ifs with h₁ h₂
  · rfl
  · rw [h₂, List.getD_eq_default _ _ le_rfl]
  · omega

/-- The ids of the buckets after the object `id` was renamed: `m₁` and `m₂` are the ids around it in
the bucket `v` of the old key, and `w` is the bucket of the new one. -/
def renamedIds (I : ℕ → List ℕ) (v w id : ℕ) (m₁ m₂ : List ℕ) : ℕ → List ℕ :=
  if w = v then Function.update I v (if m₁ ++ m₂ = [] then [] else m₁ ++ m₂ ++ [id])
  else Function.update (Function.update I w (if (I w).length ≤ 1 then [id] else I w ++ [id])) v
    (m₁ ++ m₂)

/-- What `rename_object` leaves of the maps and the records when it gives the object `id` the new
name `b`. -/
structure Rekeyed (L : Lawful σ dom) (s s' : Store σ) (b : List UInt8) (rest : ℕ → UInt8)
    (id : ℕ) : Prop where
  /-- The record is written. -/
  content : L.content s'.layer =
    setRecord (L.content s.layer) id (renamed (record (L.content s.layer) id) b rest)
  /-- No id is taken or freed. -/
  inodemap : s'.inodemap = s.inodemap
  /-- No block is taken. -/
  blockmap : s'.blockmap = s.blockmap

/-- What `rename_object(a, b)` leaves when it finds the object `id`. -/
structure Renamed (L : Lawful σ dom) (s s' : Store σ) (B B' : ℕ → List ℕ) (a b : List UInt8)
    (rest : ℕ → UInt8) (id : ℕ) : Prop extends Rekeyed L s s' b rest id where
  /-- The object was found. -/
  lookup : lookup hash (s.ids B) (keyOf (L.content s.layer)) a = some id
  /-- The new node is listed, and the first node of the object in the bucket of `a` is not. -/
  ids : ∃ m₁ m₂, s.ids B (hash a) = m₁ ++ id :: m₂ ∧
    s'.ids B' = renamedIds (s.ids B) (hash a) (hash b) id m₁ m₂

theorem rekey_eq (s : Store σ) (obj : Object) (b : List UInt8) (rest : ℕ → UInt8) :
    s.rekey obj b rest = (s.insertToHashTable (renamed obj b rest).id.toNat (hash b)).bind fun s =>
      s.insertToDisk (renamed obj b rest) := rfl

/-- `rekey` inserts a node and writes the record. -/
theorem rekey_spec (hinv : L.inv s.layer) (htable : Table s.toTables B)
    (hdom : ∀ b ∈ recordBlocks, b ∈ dom) {id : ℕ}
    (hid : Present s.inodemap (L.content s.layer) id) (b : List UInt8) (rest : ℕ → UInt8) :
    ∃ s', s.rekey (record (L.content s.layer) id) b rest = some s' ∧ L.inv s'.layer ∧
      L.content s'.layer =
        setRecord (L.content s.layer) id (renamed (record (L.content s.layer) id) b rest) ∧
      Table s'.toTables (Function.update B (hash b) (if (B (hash b)).length ≤ 1 then [s.heap.fresh]
        else B (hash b) ++ [s.heap.fresh])) ∧
      (∀ q, (s'.heap.mem q).id = if q = s.heap.fresh then id else (s.heap.mem q).id) ∧
      ((B (hash b)).length ≤ 1 → ∀ q, q ≠ s.heap.fresh →
        (s'.heap.mem q).next = (s.heap.mem q).next) ∧
      s.MapsEq s'.toTables := by
  obtain ⟨t, hins, htable', hids, hnext, hmaps⟩ := htable.insertToHashTable (hash_lt b) id
  have hrec : (renamed (record (L.content s.layer) id) b rest).id.toNat = id := hid.record
  have hdisk := insertToDisk_spec (s := { s with toTables := t }) hinv
    (renamed (record (L.content s.layer) id) b rest) (by rw [hrec]; exact hid.two_le)
    (by rw [hrec]; exact hdom _ (recordBlock_mem hid.two_le hid.lt))
  rw [hrec] at hdisk
  obtain ⟨s', hdisk, hcalls⟩ := hdisk
  refine ⟨s', ?_, hcalls.inv, hcalls.content, ?_, ?_, ?_, ?_⟩
  · rw [rekey_eq, hrec, insertToHashTable, hins]
    exact hdisk
  · rw [hcalls.tables]
    exact htable'
  · rw [hcalls.tables]
    exact hids
  · rw [hcalls.tables]
    exact hnext
  · rw [hcalls.tables]
    exact hmaps

/-! ## The paths of `rename_object` -/

/-- The node `x` of the bucket `v` is unlinked and freed. -/
def unlink (s : Store σ) (v x : ℕ) (par : Ptr) : Store σ :=
  { s with toTables := s.toTables.unlink v x par }

theorem renameObject_empty (hhead : s.hashTable (hash a) = none) :
    s.renameObject a b rest = some (-1, s) := by
  unfold renameObject
  simp only [hhead]
  rfl

theorem renameObject_head {s₁ s₂ : Store σ} {x : ℕ} {obj : Object}
    (hhead : s.hashTable (hash a) = some x)
    (hget : s.getObjectById (s.heap.mem x).id = some (some obj, s₁)) (hheap : s₁.heap = s.heap)
    (hx : (s.heap.mem x).id ≠ 0) (hkey : obj.keyString = a)
    (hrekey : s₁.rekey obj b rest = some s₂) :
    s.renameObject a b rest = some (0, s₂.unlink (hash a) x none) := by
  unfold renameObject
  simp only [hhead, hget, Option.bind_eq_bind, Option.bind_some, hheap]
  rw [if_neg (by simp), if_pos ⟨hx, by rw [Option.map_some, hkey]⟩, hrekey]
  rfl

theorem renameObject_later {s₁ s₂ s₃ : Store σ} {x y q : ℕ} {obj obj' : Object}
    (hhead : s.hashTable (hash a) = some x)
    (hget : s.getObjectById (s.heap.mem x).id = some (some obj, s₁)) (hkey : obj.keyString ≠ a)
    (hsearch : s₁.searchKey a = some (.found (some q) y obj', s₂))
    (hrekey : s₂.rekey obj' b rest = some s₃) :
    s.renameObject a b rest = some (0, s₃.unlink (hash a) y (some q)) := by
  unfold renameObject
  simp only [hhead, hget, Option.bind_eq_bind, Option.bind_some]
  rw [if_neg (by simp), if_neg (by simp [hkey]), hsearch, Option.bind_some]
  dsimp only
  rw [hrekey]
  rfl

theorem renameObject_missing {s₁ s₂ : Store σ} {x : ℕ} {par : Ptr} {obj : Object}
    (hhead : s.hashTable (hash a) = some x)
    (hget : s.getObjectById (s.heap.mem x).id = some (some obj, s₁)) (hkey : obj.keyString ≠ a)
    (hsearch : s₁.searchKey a = some (.missing par, s₂)) :
    s.renameObject a b rest = some (-1, s₂) := by
  unfold renameObject
  simp only [hhead, hget, Option.bind_eq_bind, Option.bind_some]
  rw [if_neg (by simp), if_neg (by simp [hkey]), hsearch]
  rfl

/-! ## The buckets -/

/-- The node `x` of the bucket `v` is unlinked after the node `p` was inserted in the bucket `w`.
When both are the same bucket of one node, the bucket is empty afterwards: the new node is lost. -/
theorem moved_table {t₁ : Tables} {v w x p : ℕ} {l₁ l₂ : List ℕ} (h : Table t B)
    (hB : B v = l₁ ++ x :: l₂)
    (h₁ : Table t₁ (Function.update B w (if (B w).length ≤ 1 then [p] else B w ++ [p])))
    (hnext : (B w).length ≤ 1 → (t₁.heap.mem x).next = (t.heap.mem x).next)
    (hx : ∀ u, u ≠ v → x ∉ Function.update B w (if (B w).length ≤ 1 then [p] else B w ++ [p]) u) :
    Table (t₁.unlink v x l₁.getLast?) (renamedIds B v w p l₁ l₂) := by
  unfold renamedIds
  by_cases hw : w = v
  · subst hw
    rw [if_pos rfl]
    by_cases hlen : (B w).length ≤ 1
    · -- The bucket has no other node.
      have hnil : l₁ = [] ∧ l₂ = [] := by
        rw [hB] at hlen
        simp only [List.length_append, List.length_cons] at hlen
        exact ⟨List.length_eq_zero_iff.mp (by omega), List.length_eq_zero_iff.mp (by omega)⟩
      obtain ⟨rfl, rfl⟩ := hnil
      have hchain := h.chain w
      rw [hB] at hchain
      rw [if_pos (by simp), ← Function.update_idem (f := B)]
      refine h₁.edit (h₁.wf.free x) ?_ List.nodup_nil (by simp) (by simp) fun u hu =>
        ⟨?_, fun q hq => ⟨rfl, ?_⟩⟩
      · simp only [List.getLast?_nil, Tables.unlink, Function.update_self]
        rw [hnext hlen]
        exact hchain.2
      · simp [Tables.unlink, hu]
      · refine (List.mem_erase_of_ne ?_).mpr (h₁.live u q hq)
        rintro rfl
        exact hx u hu hq
    · -- The new node was appended to the bucket that the old one leaves.
      have hne : ¬(l₁ ++ l₂ = []) := fun hnil => by
        obtain ⟨rfl, rfl⟩ := List.append_eq_nil_iff.mp hnil
        exact hlen (by simp [hB])
      rw [if_neg hlen] at h₁
      rw [if_neg hne]
      have hB₁ : Function.update B w (B w ++ [p]) w = l₁ ++ x :: (l₂ ++ [p]) := by
        rw [Function.update_self, hB, List.append_assoc, List.cons_append]
      have hmoved := h₁.unlink hB₁
      rwa [Function.update_idem, ← List.append_assoc] at hmoved
  · rw [if_neg hw]
    refine h₁.unlink ?_
    rw [Function.update_of_ne (Ne.symm hw), hB]

/-- The ids of the moved nodes. -/
theorem renamedIds_map {v w x p id : ℕ} {l₁ l₂ : List ℕ} (f g : ℕ → ℕ) (hB : B v = l₁ ++ x :: l₂)
    (hp : f p = id) (hf : ∀ u, ∀ q ∈ B u, f q = g q) (u : ℕ) :
    (renamedIds B v w p l₁ l₂ u).map f =
      renamedIds (fun u => (B u).map g) v w id (l₁.map g) (l₂.map g) u := by
  have hmap : ∀ u, (B u).map f = (B u).map g := fun u => List.map_congr_left (hf u)
  -- `f` and `g` agree on the nodes that were listed.
  have h₁₂ : (l₁ ++ l₂).map f = l₁.map g ++ l₂.map g := by
    rw [← List.map_append]
    refine List.map_congr_left fun q hq => hf v q ?_
    rw [hB]
    simp only [List.mem_append, List.mem_cons] at hq ⊢
    tauto
  have hnil : l₁ ++ l₂ = [] ↔ l₁.map g ++ l₂.map g = [] := by
    rw [← List.map_append, List.map_eq_nil_iff]
  unfold renamedIds
  by_cases hw : w = v
  · rw [if_pos hw, if_pos hw]
    by_cases hu : u = v
    · rw [hu, Function.update_self, Function.update_self]
      by_cases hn : l₁ ++ l₂ = []
      · rw [if_pos hn, if_pos (hnil.mp hn), List.map_nil]
      · rw [if_neg hn, if_neg fun h => hn (hnil.mpr h), List.map_append, h₁₂,
          List.map_singleton, hp]
    · rw [Function.update_of_ne hu, Function.update_of_ne hu, hmap]
  · rw [if_neg hw, if_neg hw]
    by_cases hu : u = v
    · rw [hu, Function.update_self, Function.update_self, h₁₂]
    · rw [Function.update_of_ne hu, Function.update_of_ne hu]
      by_cases huw : u = w
      · rw [huw, Function.update_self, Function.update_self, List.length_map]
        split_ifs
        · rw [List.map_singleton, hp]
        · rw [List.map_append, hmap, List.map_singleton, hp]
      · rw [Function.update_of_ne huw, Function.update_of_ne huw, hmap]

/-- The nodes of the moved buckets were listed, or are new. -/
theorem mem_renamedIds {v w x p u q : ℕ} {l₁ l₂ : List ℕ} (hB : B v = l₁ ++ x :: l₂)
    (hq : q ∈ renamedIds B v w p l₁ l₂ u) : q = p ∨ q ∈ B u := by
  have hsub : q ∈ l₁ ++ l₂ → q ∈ B v := fun h => by
    rw [hB]
    simp only [List.mem_append, List.mem_cons] at h ⊢
    tauto
  unfold renamedIds at hq
  split_ifs at hq with hw hnil hlen
  · by_cases hu : u = v
    · simp [hu] at hq
    · rw [Function.update_of_ne hu] at hq
      exact Or.inr hq
  · by_cases hu : u = v
    · rw [hu, Function.update_self, List.mem_append, List.mem_singleton] at hq
      rw [hu]
      exact hq.symm.imp_right hsub
    · rw [Function.update_of_ne hu] at hq
      exact Or.inr hq
  -- The old bucket and the new one differ: the first loses nodes, the second gets `p`.
  all_goals
    by_cases hu : u = v
    · rw [hu, Function.update_self] at hq
      rw [hu]
      exact Or.inr (hsub hq)
    · rw [Function.update_of_ne hu] at hq
      by_cases huw : u = w
      · rw [huw, Function.update_self] at hq
        rw [huw]
        simp only [List.mem_append, List.mem_singleton] at hq
        tauto
      · rw [Function.update_of_ne huw] at hq
        exact Or.inr hq

/-- What is left of the state when the node `x` of the object `id` was found and its object
renamed. -/
theorem Names.moved (h : Names L s B) (hdom : ∀ b ∈ recordBlocks, b ∈ dom) {s₁ : Store σ}
    (hc : Calls L s s₁ (L.content s.layer)) {x : ℕ} {l₁ l₂ : List ℕ}
    (hB : B (hash a) = l₁ ++ x :: l₂)
    (hlookup : lookup hash (s.ids B) (keyOf (L.content s.layer)) a = some (s.heap.mem x).id)
    (b : List UInt8) (rest : ℕ → UInt8) :
    ∃ s₂ B', s₁.rekey (record (L.content s.layer) (s.heap.mem x).id) b rest = some s₂ ∧
      Names L (s₂.unlink (hash a) x l₁.getLast?) B' ∧
      Renamed L s (s₂.unlink (hash a) x l₁.getLast?) B B' a b rest (s.heap.mem x).id := by
  have hx : x ∈ B (hash a) := by rw [hB]; simp
  have hpres := h.node _ x hx
  have h₁ := h.calls hc
  have hid : Present s₁.inodemap (L.content s₁.layer) (s.heap.mem x).id := by
    rw [hc.content, hc.tables]
    exact hpres
  obtain ⟨s₂, hrekey, hinv₂, hcont₂, htable₂, hids₂, hnext₂, hmaps₂⟩ :=
    rekey_spec h₁.inv h₁.table hdom hid b rest
  rw [hc.content] at hrekey hcont₂
  rw [hc.heap] at htable₂ hids₂ hnext₂
  have hfresh : ∀ u, s.heap.fresh ∉ B u := h.table.fresh_not_mem
  have hxp : x ≠ s.heap.fresh := by rintro rfl; exact hfresh _ hx
  -- The buckets.
  have htable := moved_table h.table hB htable₂ (fun hlen => hnext₂ hlen x hxp) fun u hu hxu => by
    have hxu' : x ∈ B u := by
      by_cases huw : u = hash b
      · rw [huw, Function.update_self] at hxu
        rw [huw]
        split_ifs at hxu
        · exact absurd (List.mem_singleton.mp hxu) hxp
        · simpa [hxp] using hxu
      · rwa [Function.update_of_ne huw] at hxu
    exact hu (h.table.disjoint _ _ x hxu' hx)
  set s₃ : Store σ := s₂.unlink (hash a) x l₁.getLast? with hs₃
  have hids : ∀ q, (s₃.heap.mem q).id =
      if q = s.heap.fresh then (s.heap.mem x).id else (s.heap.mem q).id := fun q => by
    rw [← hids₂ q]
    exact Tables.unlink_id _ _ _ _ q
  have hold : ∀ u, ∀ q ∈ B u, (s₃.heap.mem q).id = (s.heap.mem q).id := fun u q hq => by
    rw [hids, if_neg (by rintro rfl; exact hfresh u hq)]
  have hmaps : Tables.MapsEq s.toTables s₃.toTables := by
    rw [← hc.tables]
    exact hmaps₂.trans (Tables.unlink_mapsEq _ _ _ _)
  have hcont₃ : L.content s₃.layer = setRecord (L.content s.layer) (s.heap.mem x).id
      (renamed (record (L.content s.layer) (s.heap.mem x).id) b rest) := hcont₂
  -- The objects of the nodes are present, the renamed one with its new record.
  have hpresent : ∀ u, ∀ q ∈ B u, Present s₃.inodemap (L.content s₃.layer) (s.heap.mem q).id := by
    intro u q hq
    rw [hmaps.inodemap, hcont₃]
    by_cases hqx : (s.heap.mem q).id = (s.heap.mem x).id
    · rw [hqx]
      refine ⟨hpres.two_le, hpres.lt, hpres.bit, ?_⟩
      rw [record_setRecord_self]
      exact hpres.record
    · exact (h.node u q hq).setRecord (fun hb => hb) hpres.two_le hpres.lt hqx _
  refine ⟨s₂, renamedIds B (hash a) (hash b) s.heap.fresh l₁ l₂, hrekey, ⟨hinv₂, htable,
    fun u q hq => ?_⟩, ⟨hcont₃, hmaps.inodemap, hmaps.blockmap⟩, hlookup,
    l₁.map fun q => (s.heap.mem q).id, l₂.map fun q => (s.heap.mem q).id, ?_, ?_⟩
  · rcases mem_renamedIds hB hq with rfl | hq
    · rw [hids, if_pos rfl]
      exact hpresent _ x hx
    · rw [hold u q hq]
      exact hpresent u q hq
  · unfold ids
    rw [hB, List.map_append, List.map_cons]
  · funext u
    exact renamedIds_map _ _ hB (by rw [hids, if_pos rfl]) hold u

/-- `rename_object` returns -1 when the key is not found, and else renames the object that has
it. -/
theorem Names.renameObject (h : Names L s B) (hdom : ∀ b ∈ recordBlocks, b ∈ dom)
    (a b : List UInt8) (rest : ℕ → UInt8) :
    ∃ r s' B', s.renameObject a b rest = some (r, s') ∧ Names L s' B' ∧
      ((r = -1 ∧ lookup hash (s.ids B) (keyOf (L.content s.layer)) a = none ∧ B' = B ∧
          Calls L s s' (L.content s.layer)) ∨
        ∃ id, r = 0 ∧ Renamed L s s' B B' a b rest id) := by
  have hhead := (h.table.chain (hash a)).head_eq
  cases hB : B (hash a) with
  | nil =>
    rw [hB] at hhead
    refine ⟨-1, s, B, renameObject_empty hhead, h, Or.inl ⟨rfl, ?_, rfl, rfl, h.inv, rfl⟩⟩
    exact lookup_eq_none.mpr (by simp [ids, hB])
  | cons x l =>
    have hhead' : s.hashTable (hash a) = some x := by rw [hhead, hB]; rfl
    have hpres := h.node _ x (by rw [hB]; simp : x ∈ B (hash a))
    -- The code compares the head of the bucket first, with a branch of its own.
    obtain ⟨s₁, hget, hc₁⟩ := getObjectById_spec h.inv _
      (hdom _ (recordBlock_mem hpres.two_le hpres.lt))
    rw [if_pos hpres.record] at hget
    have h₂ := hpres.two_le
    by_cases hkey : (record (L.content s.layer) (s.heap.mem x).id).keyString = a
    · -- The head has the key.
      have hlookup : lookup hash (s.ids B) (keyOf (L.content s.layer)) a =
          some (s.heap.mem x).id := by
        have hids : s.ids B (hash a) = [] ++ (s.heap.mem x).id :: l.map fun q =>
            (s.heap.mem q).id := by
          rw [ids, hB]
          rfl
        exact lookup_of_split hids hkey (by simp)
      have hB' : B (hash a) = [] ++ x :: l := hB
      obtain ⟨s₂, B', hrekey, hnames, hrenamed⟩ := h.moved hdom hc₁ hB' hlookup b rest
      exact ⟨0, _, B', renameObject_head hhead' hget hc₁.heap (by omega) hkey hrekey, hnames,
        Or.inr ⟨_, rfl, hrenamed⟩⟩
    · obtain ⟨r, s₂, hsearch, hc₂, hr⟩ := (h.calls hc₁).searchKey hdom a
      rw [hc₁.content] at hc₂
      rw [hc₁.content, hc₁.heap, hc₁.ids] at hr
      have hc := hc₁.trans hc₂
      rcases hr with ⟨hnone, rfl⟩ | ⟨l₁, y, l₂, hB', h₁, hy, hsome, rfl⟩
      · exact ⟨-1, s₂, B, renameObject_missing hhead' hget hkey hsearch, h.calls hc,
          Or.inl ⟨rfl, hnone, rfl, hc⟩⟩
      · -- The node is not the head, so that there is one before it.
        obtain ⟨q, hq⟩ : ∃ q, l₁.getLast? = some q := by
          cases l₁ with
          | nil =>
            rw [hB, List.nil_append] at hB'
            rw [(List.cons.inj hB').1] at hkey
            exact absurd hy hkey
          | cons c l => exact ⟨_, List.getLast?_cons⟩
        obtain ⟨s₃, B', hrekey, hnames, hrenamed⟩ := h.moved hdom hc hB' hsome b rest
        rw [hq, Option.some_or] at hsearch
        rw [hq] at hnames hrenamed
        exact ⟨0, _, B', renameObject_later hhead' hget hkey hsearch hrekey, hnames,
          Or.inr ⟨_, rfl, hrenamed⟩⟩

end GemOS.Objstore.Store
