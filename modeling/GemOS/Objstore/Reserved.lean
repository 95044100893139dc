import GemOS.Objstore.Allocators
import GemOS.Objstore.Mount

/-!
# Records and data do not overlap

`insert_to_disk` and `get_object_by_id` compute the place of a record on their own, and
`objstore_init` sets the first 2212 bytes of the bitmap of blocks. `records_apart` says that both
functions mean the same place, that every object has a place of its own, and that no block with such
a place is handed out.
-/

namespace GemOS.Objstore

/-! ## Two records -/

section Records

variable {σ : Type} [BlockLayer σ] {dom : Set ℕ} {L : Lawful σ dom} {s s' : Store σ} {obj : Object}

/-- The record that `insert_to_disk` wrote is read back. -/
theorem Store.Calls.getObjectById_self {D : ℕ → Block}
    (h : Store.Calls L s s' (setRecord D obj.id.toNat obj)) (hb : recordBlock obj.id.toNat ∈ dom) :
    ∃ s'', s'.getObjectById obj.id.toNat = some (some obj, s'') := by
  obtain ⟨s'', hget, -⟩ := Store.getObjectById_spec h.inv obj.id.toNat hb
  rw [h.content, record_setRecord_self, if_pos rfl] at hget
  exact ⟨s'', hget⟩

/-- The other records are read as before. -/
theorem Store.Calls.getObjectById_of_ne {j : ℕ} (hinv : L.inv s.layer)
    (h : Store.Calls L s s' (setRecord (L.content s.layer) obj.id.toNat obj))
    (h₂ : 2 ≤ obj.id.toNat)
    (hj₂ : 2 ≤ j) (hj : j < 2^32) (hne : j ≠ obj.id.toNat) (hb : recordBlock j ∈ dom) :
    ∃ o s₁ s₂, s.getObjectById j = some (o, s₁) ∧ s'.getObjectById j = some (o, s₂) := by
  obtain ⟨s₁, hget₁, -⟩ := Store.getObjectById_spec hinv j hb
  obtain ⟨s₂, hget₂, -⟩ := Store.getObjectById_spec h.inv j hb
  rw [h.content, record_setRecord_of_ne _ h₂ obj.id.toNat_lt hj₂ hj hne] at hget₂
  exact ⟨_, s₁, s₂, hget₁, hget₂⟩

end Records

/-! ## Blocks that are handed out -/

variable {s s' : Maps} {hist hist' : List (AllocOp × ℕ)} {op : AllocOp} {r : ℕ}

/-- `free_block` is called for block 0 and for blocks that `fetch_free_block` returned. -/
def FreesFetched (hist : List (AllocOp × ℕ)) : Prop :=
  ∀ pre k r post, hist = pre ++ (.free .block k, r) :: post →
    k.val = 0 ∨ (.fetch .block, k.val) ∈ pre

theorem FreesFetched.left (h : FreesFetched (hist ++ hist')) : FreesFetched hist := by
  intro pre k r post heq
  exact h pre k r (post ++ hist') (by rw [heq, List.append_assoc, List.cons_append])

/-- The metadata blocks and the record blocks are in use, apart from block 0, and were not handed
out. -/
structure Apart (s : Maps) (hist : List (AllocOp × ℕ)) : Prop where
  /-- They are in use. Block 0 may be free, but `fetch_free_block` does not return it. -/
  reserved : ∀ b < 17696, b ≠ 0 → s.tables.blockmap.bit b = true
  /-- They were not handed out. -/
  fetched : ∀ r, (.fetch .block, r) ∈ hist → 0 < r → 17696 ≤ r

theorem Apart.step (h : Apart s hist) (hfree : FreesFetched (hist ++ [(op, r)]))
    (hspec : AllocSpec s r s' op) : Apart s' (hist ++ [(op, r)]) := by
  cases op with
  | fetch p =>
    refine ⟨fun b hb h0 => ?_, fun x hx hpos => ?_⟩
    · -- A search sets bits only.
      rcases Nat.eq_zero_or_pos r with hr | hr
      · exact (hspec.2.1 hr .block b).trans (h.reserved b hb h0)
      · have hbit := (hspec.2.2 hr).2.2.2 .block b
        exact hbit.trans (Bool.or_eq_true_iff.mpr (Or.inl (h.reserved b hb h0)))
    · rcases List.mem_append.mp hx with hx | hx
      · exact h.fetched x hx hpos
      · obtain ⟨⟨rfl⟩, rfl⟩ : AllocOp.fetch .block = .fetch p ∧ x = r := by simpa using hx
        obtain ⟨h₂, -, hbit, -⟩ := hspec.2.2 hpos
        by_contra hlt
        rw [show (s.map .block).bit x = true from h.reserved x (by omega) (by omega)] at hbit
        exact absurd hbit (by simp)
  | free p k =>
    refine ⟨fun b hb h0 => ?_, fun x hx hpos => ?_⟩
    · -- A free of a reserved block would be one of a fetched block, and these are not reserved.
      have hkeep : ¬(Pool.block = p ∧ b = k.val) := by
        rintro ⟨rfl, rfl⟩
        rcases hfree hist k r [] rfl with hk | hk
        · exact h0 hk
        · have := h.fetched _ hk (by omega)
          omega
      have hbit : s'.tables.blockmap.bit b =
          (s.tables.blockmap.bit b && !decide (Pool.block = p ∧ b = k)) :=
        hspec .block b
      rw [hbit, h.reserved b hb h0, decide_eq_false hkeep]
      rfl
    · rcases List.mem_append.mp hx with hx | hx
      · exact h.fetched x hx hpos
      · simp at hx

/-- In a run after `objstore_init`. -/
theorem Apart.run {d d' : Disk} {t : Tables} (hinit : objstoreInit d t = some (0, d', s.tables))
    {ops : List AllocOp} (hrun : Run.run Maps.step s ops = some (hist, s'))
    (hfree : FreesFetched hist) :
    Apart s' hist := by
  have hall : Run.Along Maps.step (fun _ _ => True) s ops :=
    Run.along_of_forall fun _ _ _ => trivial
  have hstart : FreesFetched [] → Apart s [] := fun _ =>
    ⟨fun b hb _ => objstoreInit_reserved hinit b hb, by simp⟩
  refine Run.of_run (h := []) (P := fun _ _ => True)
    (fun s hist => FreesFetched hist → Apart s hist)
    (fun s hist op r s' hs _ hstep hfree => ?_) hstart hall hrun hfree
  exact (hs hfree.left).step hfree (allocSpec hstep)

/-- Over a lawful block layer, `get_object_by_id` returns the record that `insert_to_disk` wrote,
and the other records as before. In every run of the allocators after `objstore_init` that frees
block 0 and blocks that were handed out only, no block is handed out that holds metadata or the
record of an id. -/
theorem records_apart {σ : Type} [BlockLayer σ] {dom : Set ℕ} (L : Lawful σ dom)
    (hdom : ∀ b ∈ recordBlocks, b ∈ dom) :
    (∀ (s : Store σ) (obj : Object), L.inv s.layer → 2 ≤ obj.id.toNat → obj.id.toNat < 2^20 →
      ∃ s', s.insertToDisk obj = some s' ∧ L.inv s'.layer ∧
        (∃ s'', s'.getObjectById obj.id.toNat = some (some obj, s'')) ∧
        ∀ j, 2 ≤ j → j < 2^20 → j ≠ obj.id.toNat →
          ∃ o s₁ s₂, s.getObjectById j = some (o, s₁) ∧ s'.getObjectById j = some (o, s₂)) ∧
    ∀ (d d' : Disk) (t : Tables) (s s' : Maps) (ops : List AllocOp) (hist : List (AllocOp × ℕ)),
      objstoreInit d t = some (0, d', s.tables) → Run.run Maps.step s ops = some (hist, s') →
      FreesFetched hist → ∀ r, (.fetch .block, r) ∈ hist → 0 < r →
        1312 ≤ r ∧ ∀ id, 2 ≤ id → id < 2^20 → recordBlock id ≠ r := by
  refine ⟨fun s obj hinv h₂ hid => ?_, fun d d' t s s' ops hist hinit hrun hfree r hr hpos => ?_⟩
  · have hb : ∀ j, 2 ≤ j → j < 2^20 → recordBlock j ∈ dom := fun j hj₂ hj =>
      hdom _ (recordBlock_mem hj₂ hj)
    obtain ⟨s', hins, hcalls⟩ := Store.insertToDisk_spec hinv obj h₂ (hb _ h₂ hid)
    exact ⟨s', hins, hcalls.inv, hcalls.getObjectById_self (hb _ h₂ hid), fun j hj₂ hj hne =>
      hcalls.getObjectById_of_ne hinv h₂ hj₂ (by omega) hne (hb j hj₂ hj)⟩
  · have hr : 17696 ≤ r := (Apart.run hinit hrun hfree).fetched r hr hpos
    refine ⟨by omega, fun id h₂ hid heq => ?_⟩
    have hmem := recordBlock_mem h₂ hid
    rw [heq, recordBlocks, Finset.mem_Ico] at hmem
    omega

/-- On an array of zeros and after `objstore_init` on a disk of zeros: a record is written and read,
a block is fetched, and block 0 is freed. -/
theorem records_apart_plain :
    (∃ s' s'', (⟨Tables.new Allocator.bump, ⟨fun _ => Block.zero⟩⟩ : Store Plain).insertToDisk
        (Store.newObject [97] 2) = some s' ∧
      s'.getObjectById (Store.newObject [97] 2).id.toNat = some
        (some (Store.newObject [97] 2), s'')) ∧
    ∃ s hist s' r, Run.run Maps.step s [.fetch .block, .free .block ⟨0, by decide⟩] =
      some (hist, s') ∧
      (.fetch .block, r) ∈ hist ∧ 1312 ≤ r ∧ ∀ id, 2 ≤ id → id < 2^20 → recordBlock id ≠ r := by
  have happly := records_apart Plain.lawful fun _ _ => Set.mem_univ _
  obtain ⟨s', hins, -, ⟨s'', hget⟩, -⟩ := happly.1
    (⟨Tables.new Allocator.bump, ⟨fun _ => Block.zero⟩⟩ : Store Plain)
    (Store.newObject [97] 2) trivial (by decide) (by decide)
  obtain ⟨d, t, hinit, -⟩ := mount_zeroDisk
  obtain ⟨-, hfresh⟩ := objstoreInit_fresh (fun _ _ => rfl) hinit
  let s : Maps := ⟨t, Cache.empty Allocator.bump d fun _ => Block.zero⟩
  obtain ⟨r, s₁, hfetch⟩ := s.step_some (.fetch .block)
  have hpos : 0 < r := by
    by_contra h0
    have hfull := (allocSpec hfetch).1.mp (by omega) 17696 (by decide) (by decide)
    exact absurd (hfull.symm.trans (hfresh.blockmap 17696 le_rfl (by norm_num))) (by simp)
  obtain ⟨r', s₂, hfree⟩ := s₁.step_some (.free .block ⟨0, by decide⟩)
  have hnil : Run.run Maps.step s₂ [] = some ([], s₂) := rfl
  have hrun := Run.run_cons hfetch (Run.run_cons hfree hnil)
  refine ⟨⟨s', s'', hins, hget⟩, s, _, s₂, r,
    hrun, by simp, happly.2 Cache.zeroDisk d _ s s₂ _ _ hinit hrun
    (fun pre k x post heq => ?_) r (by simp) hpos⟩
  -- The only block that is freed is block 0.
  have hmem : (AllocOp.free .block k, x) ∈ pre ++ (AllocOp.free .block k, x) :: post := by simp
  rw [← heq] at hmem
  simp at hmem
  exact Or.inl (congrArg Fin.val hmem.1)

end GemOS.Objstore
