import GemOS.Objstore.Store

/-!
# The hash table of the store

`Table t B` says that the bucket `v` of `hashTable` is the chain `B v` of live nodes, and that no
node is in two buckets. The lemmas say what the store's three edits do to the buckets: a node is
appended (`Table.append`, the link of `create_object`), `insert_to_hash_table` appends a node or
replaces the only one (`Table.insertToHashTable`), and a node is unlinked (`Table.unlink`, at the
end of `rename_object`).
-/

namespace GemOS.Objstore

/-- The buckets of the hash table are the chains `B`. -/
structure Table (t : Tables) (B : ℕ → List ℕ) : Prop where
  /-- The heap is well formed. -/
  wf : t.heap.Wf
  /-- Following `next` from the head of a bucket. -/
  chain : ∀ v, Chain t.heap.mem HashObj.next (t.hashTable v) (B v)
  /-- The nodes are live. -/
  live : ∀ v, ∀ a ∈ B v, a ∈ t.heap.live
  /-- No node is twice in a bucket. -/
  nodup : ∀ v, (B v).Nodup
  /-- No node is in two buckets. -/
  disjoint : ∀ v w a, a ∈ B v → a ∈ B w → v = w

namespace Tables

/-- Between `t` and `t'` only the hash table changed. -/
structure MapsEq (t t' : Tables) : Prop where
  /-- `inodemap`. -/
  inodemap : t'.inodemap = t.inodemap
  /-- `inode_bit_itr`. -/
  inodeBitItr : t'.inodeBitItr = t.inodeBitItr
  /-- `blockmap`. -/
  blockmap : t'.blockmap = t.blockmap
  /-- `block_bit_itr`. -/
  blockBitItr : t'.blockBitItr = t.blockBitItr

theorem MapsEq.trans {t t' t'' : Tables} (h : MapsEq t t') (h' : MapsEq t' t'') : MapsEq t t'' :=
  ⟨h'.inodemap.trans h.inodemap, h'.inodeBitItr.trans h.inodeBitItr, h'.blockmap.trans h.blockmap,
    h'.blockBitItr.trans h.blockBitItr⟩

@[simp] theorem allocNode_mem (t : Tables) (f : HashObj → HashObj) (q : ℕ) :
    (t.allocNode f).heap.mem q = if q = t.heap.fresh then f HashObj.zero else t.heap.mem q := by
  by_cases hq : q = t.heap.fresh <;> simp [allocNode, hq]

@[simp] theorem allocNode_live (t : Tables) (f : HashObj → HashObj) :
    (t.allocNode f).heap.live = t.heap.fresh :: t.heap.live := rfl

@[simp] theorem allocNode_hashTable (t : Tables) (f : HashObj → HashObj) :
    (t.allocNode f).hashTable = t.hashTable := rfl

/-- The end of a bucket gets the node `p`. -/
def link (t : Tables) (v : ℕ) (par : Ptr) (p : ℕ) : Tables :=
  match par with
  | none => { t with hashTable := Function.update t.hashTable v (some p) }
  | some q => { t with heap := t.heap.modify q fun n => { n with next := some p } }

/-- The node `a` of the bucket `v` is unlinked and freed: its predecessor, or the bucket, gets its
link. -/
def unlink (t : Tables) (v a : ℕ) : Ptr → Tables
  | none => { t with
      hashTable := Function.update t.hashTable v (t.heap.mem a).next
      heap := t.heap.free a }
  | some q => { t with
      heap := (t.heap.modify q fun n => { n with next := (t.heap.mem a).next }).free a }

theorem unlink_mapsEq (t : Tables) (v a : ℕ) (par : Ptr) : MapsEq t (t.unlink v a par) := by
  cases par <;> exact ⟨rfl, rfl, rfl, rfl⟩

theorem unlink_id (t : Tables) (v a : ℕ) (par : Ptr) (q : ℕ) :
    ((t.unlink v a par).heap.mem q).id = (t.heap.mem q).id := by
  cases par with
  | none => rfl
  | some p => by_cases hq : q = p <;> simp [unlink, hq]

theorem link_mapsEq (t : Tables) (v : ℕ) (par : Ptr) (p : ℕ) : MapsEq t (t.link v par p) := by
  cases par <;> exact ⟨rfl, rfl, rfl, rfl⟩

end Tables

namespace Table

variable {t t' : Tables} {B : ℕ → List ℕ} {l l₁ l₂ : List ℕ} {v w a p : ℕ}

theorem new (A : Allocator) : Table (Tables.new A) fun _ => [] :=
  ⟨Heap.wf_empty A _, fun _ => rfl, by simp, fun _ => List.nodup_nil, by simp⟩

theorem length_lt_fuel (h : Table t B) (v : ℕ) : (B v).length < t.heap.fuel :=
  h.wf.length_lt_fuel (h.nodup v) (h.live v)

theorem fresh_not_mem (h : Table t B) (v : ℕ) : t.heap.fresh ∉ B v :=
  fun hmem => t.heap.fresh_not_mem (h.live v _ hmem)

/-- The walk to the end of a bucket. -/
theorem walk_end (h : Table t B) (v : ℕ) :
    walk t.heap.mem HashObj.next (fun _ => false) t.heap.fuel (t.hashTable v) (t.hashTable v) =
      some ((B v).getLast?, none) := by
  rw [walk_none (fun _ _ => rfl) (h.chain v) (h.length_lt_fuel v)]
  have hhead := (h.chain v).head_eq
  cases hB : B v with
  | nil =>
    rw [hhead, hB]
    rfl
  | cons a l =>
    rw [List.getLast?_cons]
    rfl

/-- An edit of the bucket `v`: only nodes of this bucket or new ones are in it afterwards, and the
other buckets are as they were. -/
theorem edit (h : Table t B) (hwf : t'.heap.Wf)
    (hchain : Chain t'.heap.mem HashObj.next (t'.hashTable v) l) (hnd : l.Nodup)
    (hlive : ∀ a ∈ l, a ∈ t'.heap.live) (hfrom : ∀ a ∈ l, a ∈ B v ∨ a ∉ t.heap.live)
    (hother : ∀ w, w ≠ v → t'.hashTable w = t.hashTable w ∧
      ∀ a ∈ B w, (t'.heap.mem a).next = (t.heap.mem a).next ∧ a ∈ t'.heap.live) :
    Table t' (Function.update B v l) := by
  -- A node of the edited bucket that is in another one would be new, and hence live before.
  have hout : ∀ w a, a ∈ l → a ∈ B w → v = w := fun w a ha haw =>
    (hfrom a ha).elim (fun hav => h.disjoint v w a hav haw) fun hn => absurd (h.live w a haw) hn
  refine ⟨hwf, fun w => ?_, fun w => ?_, fun w => ?_, fun w x a hw hx => ?_⟩
  · by_cases hw : w = v
    · rw [hw, Function.update_self]
      exact hchain
    · rw [Function.update_of_ne hw, (hother w hw).1]
      exact (h.chain w).congr fun a ha => ((hother w hw).2 a ha).1
  · by_cases hw : w = v
    · rwa [hw, Function.update_self]
    · rw [Function.update_of_ne hw]
      exact fun a ha => ((hother w hw).2 a ha).2
  · by_cases hw : w = v
    · rwa [hw, Function.update_self]
    · rw [Function.update_of_ne hw]
      exact h.nodup w
  · -- A node in two buckets: one of them may be the edited one.
    by_cases hwv : w = v <;> by_cases hxv : x = v
    · rw [hwv, hxv]
    · rw [hwv, Function.update_self] at hw
      rw [Function.update_of_ne hxv] at hx
      rw [hwv, hout x a hw hx]
    · rw [Function.update_of_ne hwv] at hw
      rw [hxv, Function.update_self] at hx
      rw [hxv, hout w a hx hw]
    · rw [Function.update_of_ne hwv] at hw
      rw [Function.update_of_ne hxv] at hx
      exact h.disjoint w x a hw hx

/-- A new node with a `NULL` link is appended to a bucket. -/
theorem append (h : Table t B) (v : ℕ) {f : HashObj → HashObj} (hf : (f HashObj.zero).next = none) :
    Table ((t.allocNode f).link v (B v).getLast? t.heap.fresh)
        (Function.update B v (B v ++ [t.heap.fresh])) ∧
      ∀ q, (((t.allocNode f).link v (B v).getLast? t.heap.fresh).heap.mem q).id =
        if q = t.heap.fresh then (f HashObj.zero).id else (t.heap.mem q).id := by
  have hp := h.fresh_not_mem
  have hnd : (B v ++ [t.heap.fresh]).Nodup :=
    (h.nodup v).append (List.nodup_singleton _) (by simpa using hp v)
  have hwf : (t.allocNode f).heap.Wf := (h.wf.alloc _).modify _ _
  have hlive : ∀ w, ∀ a ∈ B w, a ∈ t.heap.fresh :: t.heap.live :=
    fun w a ha => List.mem_cons_of_mem _ (h.live w a ha)
  have hne : ∀ w, ∀ a ∈ B w, a ≠ t.heap.fresh := fun w a ha => by rintro rfl; exact hp w ha
  rcases List.eq_nil_or_concat (B v) with hB | ⟨l, b, hB⟩
  · -- The bucket is empty: the node is its head.
    rw [hB] at hnd ⊢
    refine ⟨h.edit hwf ?_ hnd (by simp [Tables.link]) ?_ fun w hw => ⟨?_, fun a ha => ⟨?_, ?_⟩⟩,
      fun q => ?_⟩
    · simp [Tables.link, hf]
    · intro a ha
      rw [List.nil_append, List.mem_singleton] at ha
      exact Or.inr (ha ▸ t.heap.fresh_not_mem)
    · simp [Tables.link, hw]
    · simp [Tables.link, hne w a ha]
    · exact hlive w a ha
    · simp only [List.getLast?_nil, Tables.link, Tables.allocNode_mem]
      split <;> rfl
  · -- The last node gets the link.
    rw [List.concat_eq_append] at hB
    have hb : b ∈ B v := by rw [hB]; simp
    have hlast : (B v).getLast? = some b := by rw [hB]; simp
    have hchain := h.chain v
    have hndB := h.nodup v
    rw [hB] at hchain hndB
    have hbl : b ∉ l := fun hbl => (List.nodup_append.mp hndB).2.2 b hbl b (by simp) rfl
    rw [hlast]
    refine ⟨h.edit ?_ ?_ hnd ?_ ?_ fun w hw => ⟨rfl, fun a ha => ⟨?_, ?_⟩⟩, fun q => ?_⟩
    · exact ⟨hwf.nodup, hwf.length_le⟩
    · rw [hB, List.append_assoc]
      refine Chain.append hchain ?_ ?_ fun c hc => ?_
      · simp [Tables.link]
      · simp [Tables.link, (hne v b hb).symm, hf]
      · have hcb : c ≠ b := by rintro rfl; exact hbl hc
        have hcp : c ≠ t.heap.fresh := hne v c (by rw [hB]; simp [hc])
        simp [Tables.link, hcb, hcp]
    · intro a ha
      rcases List.mem_append.mp ha with ha | ha
      · exact hlive v a ha
      · rw [List.mem_singleton.mp ha]
        exact List.mem_cons_self
    · intro a ha
      rcases List.mem_append.mp ha with ha | ha
      · exact Or.inl ha
      · exact Or.inr (List.mem_singleton.mp ha ▸ t.heap.fresh_not_mem)
    · have hab : a ≠ b := by
        rintro rfl
        exact hw (h.disjoint w v a ha hb)
      simp [Tables.link, hab, hne w a ha]
    · exact hlive w a ha
    · by_cases hqb : q = b
      · simp [Tables.link, hqb, hne v b hb]
      · simp only [Tables.link, Heap.modify_mem, Function.update_of_ne hqb, Tables.allocNode_mem]
        split <;> rfl

/-- The only node of a bucket, if any, is replaced by a new one. -/
theorem replace (h : Table t B) (v : ℕ) {f : HashObj → HashObj}
    (hf : (f HashObj.zero).next = none) :
    Table { t.allocNode f with hashTable := Function.update t.hashTable v (some t.heap.fresh) }
      (Function.update B v [t.heap.fresh]) := by
  have hp := h.fresh_not_mem
  refine h.edit ((h.wf.alloc _).modify _ _) ?_ (List.nodup_singleton _) (by simp) ?_
    fun w hw => ⟨?_, fun a ha => ⟨?_, ?_⟩⟩
  · simp [hf]
  · intro a ha
    exact Or.inr (List.mem_singleton.mp ha ▸ t.heap.fresh_not_mem)
  · simp [hw]
  · have hne : a ≠ t.heap.fresh := by rintro rfl; exact hp w ha
    simp [hne]
  · exact List.mem_cons_of_mem _ (h.live w a ha)

/-- `insert_to_hash_table` appends a node to a bucket, or replaces the only one. -/
theorem insertToHashTable (h : Table t B) (hv : v < 2^20) (id : ℕ) :
    ∃ t', t.insertToHashTable id v = some t' ∧
      Table t' (Function.update B v
        (if (B v).length ≤ 1 then [t.heap.fresh] else B v ++ [t.heap.fresh])) ∧
      (∀ q, (t'.heap.mem q).id = if q = t.heap.fresh then id else (t.heap.mem q).id) ∧
      ((B v).length ≤ 1 → ∀ q, q ≠ t.heap.fresh → (t'.heap.mem q).next = (t.heap.mem q).next) ∧
      t.MapsEq t' := by
  have hid : ∀ q, (((t.allocNode fun n => { n with id := id }).heap).mem q).id =
      if q = t.heap.fresh then id else (t.heap.mem q).id := fun q => by
    rw [Tables.allocNode_mem]
    split <;> rfl
  have hcode : t.insertToHashTable id v =
      if (B v).getLast? = t.hashTable v then
        some { t.allocNode (fun n => { n with id := id }) with
          hashTable := Function.update t.hashTable v (some t.heap.fresh) }
      else (B v).getLast?.bind fun par => some ((t.allocNode fun n => { n with id := id }).link v
        (some par) t.heap.fresh) := by
    unfold Tables.insertToHashTable
    rw [if_neg (by omega)]
    dsimp only
    rw [h.walk_end v]
    rfl
  rw [hcode]
  by_cases hlen : (B v).length ≤ 1
  · -- `par` is still the head.
    have hhead : (B v).getLast? = t.hashTable v := by
      rw [(h.chain v).head_eq]
      match B v, hlen with
      | [], _ => rfl
      | [_], _ => rfl
    rw [if_pos hhead, if_pos hlen]
    refine ⟨_, rfl, h.replace v rfl, hid, fun _ q hq => ?_, ⟨rfl, rfl, rfl, rfl⟩⟩
    simp [hq]
  · have hne : (B v).getLast? ≠ t.hashTable v := by
      rw [(h.chain v).head_eq]
      have hnd := h.nodup v
      obtain ⟨a, b, l, hB⟩ : ∃ a b l, B v = a :: b :: l := by
        match B v, hlen with
        | [], hlen => simp at hlen
        | [_], hlen => simp at hlen
        | a :: b :: l, _ => exact ⟨a, b, l, rfl⟩
      rw [hB] at hnd ⊢
      rw [List.getLast?_cons_cons, List.head?_cons]
      intro hlast
      exact (List.nodup_cons.mp hnd).1 (List.mem_of_getLast? hlast)
    -- `par` is a node behind the head, which gets the link.
    rw [if_neg hne, if_neg hlen]
    obtain ⟨htable, hids⟩ := h.append v (f := fun n => { n with id := id }) rfl
    cases hlast : (B v).getLast? with
    | none =>
      rw [List.getLast?_eq_none_iff.mp hlast] at hlen
      exact absurd (Nat.zero_le 1) hlen
    | some par =>
      rw [hlast] at htable hids
      exact ⟨_, rfl, htable, hids, fun h => absurd h hlen, ⟨rfl, rfl, rfl, rfl⟩⟩

/-- A node is unlinked behind its predecessor. -/
theorem unlink (h : Table t B) (hB : B v = l₁ ++ a :: l₂) :
    Table (t.unlink v a l₁.getLast?) (Function.update B v (l₁ ++ l₂)) := by
  have hnd := h.nodup v
  have hchain := h.chain v
  rw [hB] at hnd hchain
  have ha : a ∈ B v := by rw [hB]; simp
  have hmem : ∀ q ∈ l₁ ++ l₂, q ∈ B v := fun q hq => by
    rw [hB]
    simp only [List.mem_append, List.mem_cons] at hq ⊢
    tauto
  have hnd' : (l₁ ++ l₂).Nodup := hnd.sublist ((List.sublist_cons_self a l₂).append_left l₁)
  have hal : a ∉ l₁ ++ l₂ := by
    rw [List.nodup_middle] at hnd
    exact (List.nodup_cons.mp hnd).1
  have hlive : ∀ w, ∀ q ∈ B w, q ≠ a → q ∈ t.heap.live.erase a :=
    fun w q hq hqa => (List.mem_erase_of_ne hqa).mpr (h.live w q hq)
  have hlive' : ∀ q ∈ l₁ ++ l₂, q ∈ t.heap.live.erase a :=
    fun q hq => hlive v q (hmem q hq) (by rintro rfl; exact hal hq)
  have hother : ∀ w, w ≠ v → ∀ q ∈ B w, q ∈ t.heap.live.erase a := fun w hw q hq =>
    hlive w q hq (by rintro rfl; exact hw (h.disjoint w v q hq ha))
  -- As a chain: the predecessor, when there is one, gets the link of `a`.
  have hunlink := hchain.unlink (fun q => if l₁.getLast? = some q then
    { t.heap.mem q with next := (t.heap.mem a).next } else t.heap.mem q) hnd fun q _ => by
      dsimp only
      split <;> rfl
  cases hlast : l₁.getLast? with
  | none =>
    rw [List.getLast?_eq_none_iff] at hlast
    subst hlast
    refine h.edit (h.wf.free a) ?_ hnd' hlive' (fun q hq => Or.inl (hmem q hq))
      fun w hw => ⟨?_, fun q hq => ⟨rfl, hother w hw q hq⟩⟩
    · simpa [Tables.unlink] using hunlink
    · simp [Tables.unlink, hw]
  | some q =>
    have hl₁ : l₁ ≠ [] := by rintro rfl; simp at hlast
    have hqv : q ∈ B v := hmem q (List.mem_append_left _ (List.mem_of_getLast? hlast))
    refine h.edit ⟨(h.wf.free a).nodup, (h.wf.free a).length_le⟩ ?_ hnd' hlive'
      (fun q hq => Or.inl (hmem q hq)) fun w hw => ⟨rfl, fun r hr => ⟨?_, hother w hw r hr⟩⟩
    · rw [if_neg hl₁] at hunlink
      refine hunlink.congr fun r _ => ?_
      by_cases hrq : r = q
      · simp [Tables.unlink, hrq, hlast]
      · simp [Tables.unlink, hrq, hlast, Ne.symm hrq]
    · have hrq : r ≠ q := by rintro rfl; exact hw (h.disjoint w v r hr hqv)
      simp [Tables.unlink, hrq]

end Table

end GemOS.Objstore
