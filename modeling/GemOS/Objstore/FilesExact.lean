import GemOS.Objstore.Files

/-!
# When files of several blocks can be read back

The blocks that an object is written with can be read back, whatever the data, exactly when every
block fits (`multi_block_iff`). When block `k` is the first that does not fit, there is data for
which the write of block `k` destroys the record, an indirect block, or an earlier block.
-/

namespace GemOS.Objstore

variable {σ : Type} [BlockLayer σ] {L : Lawful σ Set.univ} {s s' s₁ s₂ : Store σ} {t : Tables}
  {D : ℕ → Block} {id k j n b : ℕ} {data data' : ℕ → Block} {buf : Block}
  {hist : List ((ℕ × Block) × ℤ)} {r : ℤ}

/-! ## One write -/

theorem Written.congr (h : Written L t D id data k s) (hdata : ∀ j < k, data j = data' j) :
    Written L t D id data' k s :=
  ⟨h.inv, h.tables, h.present, h.blocknum, h.level1, h.entries,
    fun j hj => (h.blocks j hj).trans (hdata j hj)⟩

theorem blockOps_congr (hdata : ∀ j < k, data j = data' j) : blockOps data k = blockOps data' k :=
  List.map_congr_left fun j hj => by rw [hdata j (List.mem_range.mp hj)]

/-- The reads after the last of the writes. -/
theorem WritesBlocks.reads (h : WritesBlocks id data (k + 1) s)
    (hrun : Run.run (Store.blockStep id) s (blockOps data k) = some (hist, s₁))
    (hstep : Store.blockStep id s₁ (k, data k) = some (r, s₂)) :
    ReadsBlocks id data (k + 1) s₂ := by
  obtain ⟨hist', s', hrun', -, hreads⟩ := h
  rw [blockOps_succ, Run.run_append hrun (Run.run_cons hstep rfl)] at hrun'
  obtain rfl : s₂ = s' := congrArg Prod.snd (Option.some.inj hrun')
  exact hreads

/-- Blocks of one range have the same indirect block. -/
theorem level_eq_of_range {k₀ : ℕ} (hk : k < 4096) (hk₀ : k₀ = k - k % 1024) :
    Store.level k = Store.level k₀ := by
  unfold Store.level
  split_ifs <;> first | rfl | omega

/-- There are two blocks with a given entry. -/
theorem exists_block (i : ℕ) (w : UInt32) (buf : Block) (hi : i < 1024) :
    ∃ b : Block, b.entry i = w ∧ b ≠ buf := by
  obtain ⟨l, hl, hli⟩ : ∃ l < 1024, l ≠ i := by
    by_cases h0 : i = 0
    · exact ⟨1, by omega, by omega⟩
    · exact ⟨0, by omega, fun h => h0 h.symm⟩
  have hentry : ∀ x, ((Block.zero.setEntry l x).setEntry i w).entry l = x := fun x => by
    rw [Block.entry_setEntry_of_ne _ hl hli, Block.entry_setEntry_self _ hl]
  by_cases hbuf : (Block.zero.setEntry l 0).setEntry i w = buf
  · refine ⟨(Block.zero.setEntry l 1).setEntry i w, Block.entry_setEntry_self _ hi w, fun heq => ?_⟩
    have h10 : (1 : UInt32) = 0 := by rw [← hentry 1, ← hentry 0, heq, hbuf]
    exact absurd h10 (by decide)
  · exact ⟨_, Block.entry_setEntry_self _ hi w, hbuf⟩

/-- A block of zeros has no records. -/
theorem record_update_zero (D : ℕ → Block) :
    (record (Function.update D (recordBlock id) Block.zero) id).id = 0 := by
  rw [record, Function.update_self, Block.object_zero]
  rfl

/-- The state `s₁` before the write of block `k`, when the blocks up to `k` can be read back after
it, whatever its data is. -/
structure Readable (L : Lawful σ Set.univ) (t : Tables) (D : ℕ → Block) (id k : ℕ)
    (data : ℕ → Block) (s₁ : Store σ) : Prop where
  /-- The blocks before were written. -/
  written : Written L t D id data k s₁
  /-- After the write of block `k` they can be read back. -/
  reads : ∀ buf r s₂, Store.blockStep id s₁ (k, buf) = some (r, s₂) → L.inv s₂.layer → ∀ j ≤ k,
    (record (L.content s₂.layer) id).id.toNat = id ∧
      L.content s₂.layer (target (L.content s₂.layer) (record (L.content s₂.layer) id) j) =
        Function.update data k buf j

theorem Stored.readable (hs : Stored s.toTables (L.content s.layer) id) (hinv : L.inv s.layer)
    (hk : k < 4096) (hfree : s.HasFree (fetches (L.content s.layer) id k))
    (hfit : ∀ j < k, Fits s.toTables (L.content s.layer) id j)
    (hall : ∀ data, WritesBlocks id data (k + 1) s) (data : ℕ → Block) :
    ∃ s₁, Readable L s.toTables (L.content s.layer) id k data s₁ := by
  obtain ⟨hist, s₁, hrun, -, hw⟩ := hs.run hinv data hk.le hfree hfit
  refine ⟨s₁, hw, fun buf r s₂ hstep hinv₂ j hj => ?_⟩
  have hold : ∀ j < k, data j = Function.update data k buf j := fun j hj => by
    rw [Function.update_of_ne hj.ne]
  rw [blockOps_congr hold] at hrun
  have hreads := (hall (Function.update data k buf)).reads hrun
    (by rw [Function.update_self]; exact hstep)
  obtain ⟨hpresent, -, hblock⟩ := (readsBlocks_iff hinv₂).mp hreads j (by omega)
  exact ⟨hpresent, hblock⟩

namespace Readable

variable (h : Readable L t D id k data s₁) (hs : Stored t D id)

include h hs

/-- The reads after a write of block `k` that is not appended. -/
theorem overwritten (hk : k < 4096) (hc : Counted D id k) (buf : Block) : ∃ C, C = Function.update
    (L.content s₁.layer) (target (L.content s₁.layer) (record (L.content s₁.layer) id) k) buf ∧
      ∀ j ≤ k, (record C id).id.toNat = id ∧
        C (target C (record C id) j) = Function.update data k buf j := by
  have hold : ∀ j < k, data j = Function.update data k buf j := fun j hj => by
    rw [Function.update_of_ne hj.ne]
  obtain ⟨s₂, hstep, hcalls⟩ := (h.written.congr hold).overwrite hs hk hc
  rw [Function.update_self] at hstep hcalls
  have hreads := h.reads buf 4096 s₂ hstep hcalls.inv
  rw [hcalls.content] at hreads
  exact ⟨_, rfl, hreads⟩

/-- A block that is not appended does not go to the block of the record. -/
theorem target_ne_record (hk : k < 4096) (hc : Counted D id k) :
    target (L.content s₁.layer) (record (L.content s₁.layer) id) k ≠ recordBlock id := by
  intro heq
  obtain ⟨C, hC, hreads⟩ := h.overwritten hs hk hc Block.zero
  have hpresent := (hreads k le_rfl).1
  rw [hC, heq, record_update_zero] at hpresent
  have := hs.two_le
  rw [UInt32.toNat_zero] at hpresent
  omega

end Readable

/-! ## The next block -/

theorem Counted.pos (hc : Counted D id k) : 0 < k ∨ (record D id).blocknum ≠ 0 := by
  rw [ne_eq, blocknum_eq_zero]
  unfold Counted at hc
  omega

/-- The blocks before `k` fit, and those up to `k` can be read back, whatever their data is. -/
structure NextBlock (L : Lawful σ Set.univ) (t : Tables) (D : ℕ → Block) (id k : ℕ) : Prop where
  /-- The object. -/
  stored : Stored t D id
  /-- Enough blocks are free. -/
  free : t.HasFree (fetches D id (k + 1))
  /-- An object has at most 4096 blocks. -/
  lt : k < 4096
  /-- The blocks before fit. -/
  fits : ∀ j < k, Fits t D id j
  /-- The blocks can be read back. -/
  readable : ∀ data, ∃ s₁, Readable L t D id k data s₁

namespace NextBlock

variable (h : NextBlock L t D id k)

include h

theorem freeFirst : t.HasFree (fetches D id 1) :=
  h.free.mono (fetches_mono h.stored.even (by omega : 1 ≤ k + 1))

/-- The indirect block of a block that is not appended was not overwritten: the data of an earlier
block would send it to the block of the record. -/
theorem table_of_counted (hc : Counted D id k) : ∀ j < k, place t D id j ≠ tableOf t D id k := by
  intro j hj heq
  have hs := h.stored
  have hblock := recordBlock_mem hs.two_le hs.lt
  rw [recordBlocks, Finset.mem_Ico] at hblock
  have hsize : recordBlock id < 2^32 := by omega
  obtain ⟨s₁, hr⟩ := h.readable fun _ => Block.zero.setEntry (k % 1024)
    (UInt32.ofNat (recordBlock id))
  refine hr.target_ne_record hs h.lt hc ?_
  rw [target, hr.written.level1_of_counted hs h.freeFirst (Or.inl (by omega)), ← heq,
    hr.written.blocks j hj, Block.entry_setEntry_self _ (Nat.mod_lt _ (by decide)),
    UInt32.toNat_ofNat_of_lt' hsize]

section Counted

variable (hc : Counted D id k) (hin : k < 1024 ∨ k < (record D id).blocknum.toNat)

include hc hin

theorem record_of_counted : place t D id k ≠ recordBlock id := by
  obtain ⟨s₁, hr⟩ := h.readable fun _ => Block.zero
  rw [← hr.written.target_eq h.stored h.freeFirst hc hin (h.table_of_counted hc)]
  exact hr.target_ne_record h.stored h.lt hc

/-- What is read of block `j` after a write of block `k` that is not appended. -/
theorem reads_of_counted {s₁ : Store σ} (hr : Readable L t D id k data s₁) (hj : j ≤ k)
    (buf : Block) :
    Function.update (L.content s₁.layer) (place t D id k) buf
      ((Function.update (L.content s₁.layer) (place t D id k) buf (tableOf t D id j)).entry
        (j % 1024)).toNat = Function.update data k buf j := by
  obtain ⟨C, hC, hreads⟩ := hr.overwritten h.stored h.lt hc buf
  rw [hr.written.target_eq h.stored h.freeFirst hc hin (h.table_of_counted hc)] at hC
  have hread := (hreads j hj).2
  rw [target, hC, record_update_of_ne (h.record_of_counted hc hin),
    hr.written.level1_of_counted h.stored h.freeFirst hc.pos] at hread
  exact hread

/-- A block that is not appended does not go to an indirect block: its data would change the entry
of an earlier block, or its own. -/
theorem tables_of_counted : ∀ j ≤ k, place t D id k ≠ tableOf t D id j := by
  intro j hj heq
  have hsize : place t D id k < 2^32 := by
    rw [place, if_pos hc]
    exact UInt32.toNat_lt _
  obtain ⟨s₁, hr⟩ := h.readable fun _ => Block.zero
  rcases Nat.lt_or_eq_of_le hj with hjk | rfl
  · -- Block `j` is now read where the data of block `k` is.
    obtain ⟨buf, hentry, hbuf⟩ := exists_block (j % 1024) (UInt32.ofNat (place t D id k)) Block.zero
      (Nat.mod_lt _ (by decide))
    have hread := h.reads_of_counted hc hin hr hj buf
    rw [← heq, Function.update_self, hentry, UInt32.toNat_ofNat_of_lt' hsize, Function.update_self,
      Function.update_of_ne hjk.ne] at hread
    exact hbuf hread
  · -- Block `k` is read where it was not written.
    obtain ⟨x, hx, hxk⟩ : ∃ x < 2^32, x ≠ place t D id j := by
      by_cases h0 : place t D id j = 0
      · exact ⟨1, by decide, by omega⟩
      · exact ⟨0, by decide, fun h => h0 h.symm⟩
    obtain ⟨buf, hentry, hbuf⟩ := exists_block (j % 1024) (UInt32.ofNat x) (L.content s₁.layer x)
      (Nat.mod_lt _ (by decide))
    have hread := h.reads_of_counted hc hin hr hj buf
    rw [← heq, Function.update_self, hentry, UInt32.toNat_ofNat_of_lt' hx,
      Function.update_of_ne hxk, Function.update_self] at hread
    exact hbuf hread.symm

/-- A block that is not appended does not go to an earlier block. -/
theorem inj_of_counted : ∀ j < k, place t D id j ≠ place t D id k := by
  intro j hj heq
  obtain ⟨s₁, hr⟩ := h.readable fun _ => Block.zero
  obtain ⟨buf, -, hbuf⟩ := exists_block 0 0 Block.zero (by decide)
  have hread := h.reads_of_counted hc hin hr hj.le buf
  have hentry := hr.written.entries j (h.fits j hj).inTable
    (fun i hi => place_ne_tableOf h.fits hi hj) (Or.inl hj)
  rw [Function.update_of_ne (h.tables_of_counted hc hin j hj.le).symm, hentry, heq,
    Function.update_self, Function.update_of_ne hj.ne] at hread
  exact hbuf hread

end Counted

/-- What is read of block `j` after block `k` was appended. -/
theorem reads_of_not_counted (hc : ¬Counted D id k) {s₁ : Store σ}
    (hr : Readable L t D id k data s₁)
    (hj : j ≤ k) (buf : Block) : ∃ C : ℕ → Block, C (place t D id k) = buf ∧
      C (firstIndirect t D id) = (L.content s₁.layer (tableOf t D id k)).setEntry (k % 1024)
        (UInt32.ofNat (place t D id k)) ∧
      (∀ b, b ≠ recordBlock id → b ≠ place t D id k → b ≠ firstIndirect t D id →
        C b = L.content s₁.layer b) ∧
      C ((C (tableOf t D id j)).entry (j % 1024)).toNat = Function.update data k buf j := by
  have hold : ∀ j < k, data j = Function.update data k buf j := fun j hj => by
    rw [Function.update_of_ne hj.ne]
  obtain ⟨s₂, hstep, ha⟩ := (hr.written.congr hold).appended h.stored h.lt hc h.free
  rw [Function.update_self] at hstep ha
  have hread := (hr.reads buf 4096 s₂ hstep ha.inv j hj).2
  rw [target, ha.level1, h.stored.levels_toNat h.freeFirst] at hread
  exact ⟨_, ha.new, ha.indirect, ha.other, hread⟩

/-- An appended block does not go to an earlier block. -/
theorem inj_of_not_counted (hc : ¬Counted D id k) (hlow : k < 1024) :
    ∀ j < k, place t D id j ≠ place t D id k := by
  intro j hj heq
  obtain ⟨s₁, hr⟩ := h.readable fun _ => Block.zero
  obtain ⟨buf, -, hbuf⟩ := exists_block 0 0 Block.zero (by decide)
  obtain ⟨C, hnew, hindirect, -, hread⟩ := h.reads_of_not_counted hc hr hj.le buf
  have htable : ∀ i < 1024, tableOf t D id i = firstIndirect t D id := fun i hi => by
    rw [tableOf, if_pos (level_of_lt hi)]
  have hentry := hr.written.entries j (h.fits j hj).inTable
    (fun i hi => place_ne_tableOf h.fits hi hj) (Or.inl hj)
  rw [htable j (by omega)] at hentry hread
  rw [hindirect, htable k hlow, Block.entry_setEntry_of_ne _ (Nat.mod_lt _ (by decide))
    (by omega), hentry, heq, hnew, Function.update_of_ne hj.ne] at hread
  exact hbuf hread

/-- A block is behind an indirect block. Otherwise the table of its range takes the place of the
first indirect block, and block 0 is read where block `k` or the first block of its range is. -/
theorem inTable : k < 1024 ∨ k < (record D id).blocknum.toNat := by
  by_contra hout
  push Not at hout
  obtain ⟨hhigh, hbn⟩ := hout
  have heven : k % 2 = 0 := by
    have hprev := (h.fits (k - 1) (by omega)).inTable
    have := h.stored.even
    omega
  have hc : ¬Counted D id k := by
    unfold Counted
    omega
  obtain ⟨buf, -, hbuf⟩ := exists_block 0 0 Block.zero (by decide)
  -- Block 0 gets other data than all the rest, block `k` gets zeros.
  obtain ⟨s₁, hr⟩ := h.readable (Function.update (fun _ => Block.zero) 0 buf)
  obtain ⟨C, hnew, hindirect, hother, hread⟩ := h.reads_of_not_counted hc hr k.zero_le Block.zero
  obtain ⟨-, hlt, -⟩ := h.stored.place_new hc h.free
  have hzero : tableOf t D id 0 = firstIndirect t D id := by
    rw [tableOf, if_pos (level_of_lt (by decide))]
  rw [hzero, hindirect, Function.update_of_ne (by omega : 0 ≠ k), Function.update_self] at hread
  by_cases hmod : k % 1024 = 0
  · rw [hmod, Nat.zero_mod, Block.entry_setEntry_self _ (by decide), UInt32.toNat_ofNat_of_lt' hlt,
      hnew] at hread
    exact hbuf hread.symm
  · -- The first block of the range of block `k`.
    obtain ⟨k₀, hk₀⟩ : ∃ k₀, k₀ = k - k % 1024 := ⟨_, rfl⟩
    have hrange : 1024 ≤ k₀ ∧ k₀ < k ∧ k₀ % 1024 = 0 := by omega
    have htable : tableOf t D id k = tableOf t D id k₀ := by
      rw [tableOf, tableOf, level_eq_of_range h.lt hk₀]
    have hfit := h.fits k₀ hrange.2.1
    have hentry := hr.written.entries k₀ hfit.inTable
      (fun i hi => place_ne_tableOf h.fits hi hrange.2.1) (Or.inl hrange.2.1)
    rw [hrange.2.2] at hentry
    have hfirst := hfit.tables 0 k₀.zero_le
    rw [hzero] at hfirst
    rw [Nat.zero_mod, Block.entry_setEntry_of_ne _ (by decide) (fun h0 => hmod h0.symm), htable,
      hentry] at hread
    by_cases hsame : place t D id k₀ = place t D id k
    · rw [hsame, hnew] at hread
      exact hbuf hread.symm
    · rw [hother _ hfit.record hsame hfirst, hr.written.blocks k₀ hrange.2.1,
        Function.update_of_ne (by omega : k₀ ≠ 0)] at hread
      exact hbuf hread.symm

/-- Block `k` fits too. -/
theorem fits_self : Fits t D id k := by
  have hin := h.inTable
  by_cases hc : Counted D id k
  · exact ⟨hin, h.record_of_counted hc hin, h.tables_of_counted hc hin, h.table_of_counted hc,
      h.inj_of_counted hc hin⟩
  · have hlow : k < 1024 := by
      unfold Counted at hc
      omega
    have htable : ∀ j ≤ k, tableOf t D id j = firstIndirect t D id := fun j hj => by
      rw [tableOf, if_pos (level_of_lt (by omega))]
    have hblock := recordBlock_mem h.stored.two_le h.stored.lt
    rw [recordBlocks, Finset.mem_Ico] at hblock
    obtain ⟨hge, -, hne⟩ := h.stored.place_new hc h.free
    refine ⟨hin, by omega, fun j hj => ?_, fun j hj => ?_, h.inj_of_not_counted hc hlow⟩
    · rw [htable j hj]
      exact hne
    · rw [htable k le_rfl, ← htable 0 k.zero_le]
      exact (h.fits j hj).tables 0 j.zero_le

end NextBlock

/-! ## Files -/

/-- Blocks that can be read back, whatever their data is, fit. -/
theorem Stored.fits (hs : Stored s.toTables (L.content s.layer) id) (hinv : L.inv s.layer)
    (hn : n ≤ 4096) (hfree : s.HasFree (fetches (L.content s.layer) id n))
    (hall : ∀ m ≤ n, ∀ data, WritesBlocks id data m s) :
    ∀ k < n, Fits s.toTables (L.content s.layer) id k := by
  intro k
  induction k using Nat.strong_induction_on with
  | _ k ih =>
    intro hk
    have hprev : ∀ j < k, Fits s.toTables (L.content s.layer) id j := fun j hj => ih j hj (by omega)
    have hfree' := hfree.mono (fetches_mono hs.even (by omega : k + 1 ≤ n))
    have hnext : NextBlock L s.toTables (L.content s.layer) id k :=
      ⟨hs, hfree', by omega, hprev, fun data => hs.readable hinv (by omega)
        (hfree'.mono (fetches_mono hs.even k.le_succ)) hprev
          (fun data => hall (k + 1) hk data) data⟩
    exact hnext.fits_self

/-- Over a block layer that returns the last content written, with enough free blocks: for every
number of blocks up to `n` and all data, the blocks that are written in order can be read back, if
and only if the first `n` blocks fit. -/
theorem multi_block_iff {σ : Type} [BlockLayer σ] (L : Lawful σ Set.univ) (s : Store σ) (id n : ℕ)
    (hs : Stored s.toTables (L.content s.layer) id) (hinv : L.inv s.layer) (hn : n ≤ 4096)
    (hfree : s.HasFree (fetches (L.content s.layer) id n)) :
    (∀ m ≤ n, ∀ data, WritesBlocks id data m s) ↔
      ∀ k < n, Fits s.toTables (L.content s.layer) id k := by
  constructor
  · exact hs.fits hinv hn hfree
  · intro hfit m hm data
    exact hs.writesBlocks hinv data (by omega) (hfree.mono (fetches_mono hs.even hm))
      fun k hk => hfit k (by omega)

/-! ## A disk of zeros -/

/-- In a new store the first object is stored, and has no blocks. -/
theorem Fresh.createStored {t : Tables} (ht : Fresh t) {layer : σ} (hl : L.inv layer)
    {key : List UInt8}
    (hkey : KeyOk key) : ∃ s, (⟨t, layer⟩ : Store σ).createObject key = some (2, s) ∧
      Stored s.toTables (L.content s.layer) 2 ∧ L.inv s.layer ∧
      (record (L.content s.layer) 2).blocknum = 0 ∧ (∀ n, n + 17696 ≤ 2^23 → s.HasFree n) ∧
      ∀ b ∉ recordBlocks, L.content s.layer b = L.content layer b := by
  obtain ⟨s, B, hcreate, hnames, hc, -⟩ := ht.createObject hl (fun b _ => Set.mem_univ b) hkey
  have hobj := (ht.objects hl).created hnames hc
  have h0 : (record (L.content s.layer) 2).blocknum = 0 := by
    rw [hc.record_self, newObject_eq hkey.1]
  refine ⟨s, hcreate, ⟨hobj.reserved, le_rfl, by norm_num,
    hobj.present 2 (hc.inUse_iff.mpr (Or.inr rfl)), by rw [h0]; rfl, fun h => absurd h0 h⟩,
    hnames.inv, h0, fun n hn => ?_, fun b hb => hc.content_of_not_mem hb⟩
  refine ⟨Finset.Ico 17696 (17696 + n), by simp, fun b hb => ?_⟩
  rw [Finset.mem_Ico] at hb
  refine ⟨by omega, by omega, ?_⟩
  rw [hc.blockmap]
  exact ht.blockmap b hb.1 (by omega)

section Zeros

variable (hs : Stored t D id) (h0 : (record D id).blocknum = 0) (hfree : t.HasFree (fetches D id 3))
  (hzero : D (firstIndirect t D id) = Block.zero)

include hzero

/-- On a disk of zeros the odd blocks go to block 0. -/
theorem place_odd (hk : k < 1024) (hodd : k % 2 = 1) : place t D id k = 0 := by
  have hc : Counted D id k := Or.inr hodd
  rw [place, if_pos hc, tableOf, if_pos (level_of_lt hk), hzero, Block.entry_zero]
  rfl

include hs hfree h0

/-- On a disk of zeros the first three blocks fit. -/
theorem fits_zeros : ∀ k < 3, Fits t D id k := by
  have hbn := blocknum_eq_zero.mp h0
  have hc : ∀ k, ¬Counted D id k ↔ k % 2 = 0 := fun k => by
    unfold Counted
    omega
  have htable : ∀ j < 1024, tableOf t D id j = firstIndirect t D id := fun j hj => by
    rw [tableOf, if_pos (level_of_lt hj)]
  have hblock := recordBlock_mem hs.two_le hs.lt
  rw [recordBlocks, Finset.mem_Ico] at hblock
  have hmono : ∀ k < 3, t.HasFree (fetches D id (k + 1)) := fun k hk =>
    hfree.mono (fetches_mono hs.even (by omega))
  obtain ⟨hp, -⟩ := hs.firstIndirect_spec (hmono 0 (by omega))
  obtain ⟨hge₀, -, hne₀⟩ := hs.place_new ((hc 0).mpr rfl) (hmono 0 (by omega))
  obtain ⟨hge₂, -, hne₂⟩ := hs.place_new ((hc 2).mpr rfl) (hmono 2 (by omega))
  have hodd : place t D id 1 = 0 := place_odd hzero (by omega) rfl
  -- The two blocks that are appended are two different free blocks.
  have h02 : place t D id 0 ≠ place t D id 2 := by
    have hf : fetches D id 1 = 2 ∧ fetches D id 3 = 3 := by
      unfold fetches
      rw [if_pos ⟨h0, by omega⟩, if_pos ⟨h0, by omega⟩, hbn]
      exact ⟨rfl, rfl⟩
    rw [place, place, if_neg ((hc 0).mpr rfl), if_neg ((hc 2).mpr rfl), hf.1, hf.2]
    rw [hf.2] at hfree
    exact hfree.nthBlock_ne (by omega) (by omega)
  intro k hk
  refine ⟨Or.inl (by omega), ?_, fun j hj => ?_, fun j hj => ?_, fun j hj => ?_⟩
  · interval_cases k <;> omega
  · rw [htable j (by omega)]
    interval_cases k <;> omega
  · rw [htable k (by omega)]
    interval_cases k <;> interval_cases j <;> omega
  · interval_cases k <;> interval_cases j <;> omega

end Zeros

/-- The object on a disk of zeros: its first indirect block holds zeros, and there are blocks for 4
writes. -/
theorem Fresh.createZeros {t : Tables} (ht : Fresh t) :
    ∃ s : Store Plain, (⟨t, ⟨fun _ => Block.zero⟩⟩ : Store Plain).createObject [97] = some (2, s) ∧
      Stored s.toTables (Plain.lawful.content s.layer) 2 ∧
      (record (Plain.lawful.content s.layer) 2).blocknum = 0 ∧
      s.HasFree (fetches (Plain.lawful.content s.layer) 2 4) ∧
      Plain.lawful.content s.layer (firstIndirect s.toTables (Plain.lawful.content s.layer) 2) =
        Block.zero := by
  have hlayer : Plain.lawful.inv ⟨fun _ => Block.zero⟩ := trivial
  obtain ⟨s, hcreate, hs, -, h0, hfree, hcontent⟩ := ht.createStored hlayer (by decide : KeyOk [97])
  have hfetches : fetches (Plain.lawful.content s.layer) 2 4 = 3 := by
    unfold fetches
    rw [if_pos ⟨h0, by omega⟩, blocknum_eq_zero.mp h0]
  have hfree₄ := hfree 3 (by norm_num)
  rw [← hfetches] at hfree₄
  obtain ⟨hp, -⟩ := hs.firstIndirect_spec (hfree₄.mono (fetches_mono hs.even (by omega)))
  have hp' : firstIndirect s.toTables (Plain.lawful.content s.layer) 2 ∉ recordBlocks := by
    rw [recordBlocks, Finset.mem_Ico]
    omega
  refine ⟨s, hcreate, hs, h0, hfree₄, ?_⟩
  rw [hcontent _ hp']
  rfl

/-- On a disk of zeros an object of three blocks can be written and read back. -/
theorem multi_block_three :
    ∃ d' t, objstoreInit Cache.zeroDisk (Tables.new Allocator.bump) = some (0, d', t) ∧
      ∃ s, (⟨t, ⟨fun _ => Block.zero⟩⟩ : Store Plain).createObject [97] = some (2, s) ∧
        ∀ m ≤ 3, ∀ data, WritesBlocks 2 data m s := by
  obtain ⟨d', t, hinit, -⟩ := mount_zeroDisk
  obtain ⟨-, hfresh⟩ := objstoreInit_fresh (fun _ _ => rfl) hinit
  obtain ⟨s, hcreate, hs, h0, hfree, hzero⟩ := hfresh.createZeros
  have hfree₃ := hfree.mono (fetches_mono hs.even (by omega : 3 ≤ 4))
  exact ⟨d', t, hinit, s, hcreate,
    (multi_block_iff Plain.lawful s 2 3 hs trivial (by norm_num) hfree₃).mpr
    (fits_zeros hs h0 hfree₃ hzero)⟩

/-- Four blocks of different bytes. -/
def fourBlocks (k : ℕ) : Block := fun _ => UInt8.ofNat (k + 1)

/-- On a disk of zeros the blocks 1 and 3 of an object go to block 0 of the disk. -/
theorem multi_block_not_four :
    ∃ d' t, objstoreInit Cache.zeroDisk (Tables.new Allocator.bump) = some (0, d', t) ∧
      ∃ s, (⟨t, ⟨fun _ => Block.zero⟩⟩ : Store Plain).createObject [97] = some (2, s) ∧
        s.HasFree (fetches (Plain.lawful.content s.layer) 2 4) ∧
          ¬WritesBlocks 2 fourBlocks 4 s := by
  obtain ⟨d', t, hinit, -⟩ := mount_zeroDisk
  obtain ⟨-, hfresh⟩ := objstoreInit_fresh (fun _ _ => rfl) hinit
  obtain ⟨s, hcreate, hs, h0, hfree, hzero⟩ := hfresh.createZeros
  refine ⟨d', t, hinit, s, hcreate, hfree, fun hwrites => ?_⟩
  have hmono : ∀ k ≤ 4, s.HasFree (fetches (Plain.lawful.content s.layer) 2 k) := fun k hk =>
    hfree.mono (fetches_mono hs.even hk)
  have hfits := fits_zeros hs h0 (hmono 3 (by omega)) hzero
  obtain ⟨hist, s₁, hrun, -, hw⟩ := hs.run (L := Plain.lawful) trivial fourBlocks (by norm_num)
    (hmono 3 (by omega)) hfits
  have hodd : ∀ k < 1024, k % 2 = 1 → place s.toTables (Plain.lawful.content s.layer) 2 k = 0 :=
    fun k hk hkodd => place_odd hzero hk hkodd
  have htable : ∀ j < 1024, tableOf s.toTables (Plain.lawful.content s.layer) 2 j =
      tableOf s.toTables (Plain.lawful.content s.layer) 2 0 := fun j hj => by
    rw [tableOf, tableOf, level_of_lt hj, level_of_lt (by decide)]
  have hplace : ∀ i < 3, place s.toTables (Plain.lawful.content s.layer) 2 i ≠
      tableOf s.toTables (Plain.lawful.content s.layer) 2 0 :=
        fun i hi => (hfits i hi).tables 0 i.zero_le
  -- Block 3 goes to block 0 of the disk, where block 1 is.
  obtain ⟨s₂, hstep, hcalls⟩ := hw.overwrite hs (by norm_num) (Or.inr rfl)
  rw [hw.target_eq hs (hmono 1 (by omega)) (Or.inr rfl) (Or.inl (by norm_num))
    (fun i hi => by rw [htable 3 (by norm_num)]; exact hplace i hi),
    hodd 3 (by norm_num) rfl] at hcalls
  obtain ⟨-, -, hread⟩ := (readsBlocks_iff hcalls.inv).mp (hwrites.reads hrun hstep) 1 (by norm_num)
  have hne : tableOf s.toTables (Plain.lawful.content s.layer) 2 1 ≠ 0 := by
    have hplace₁ := hplace 1 (by norm_num)
    rw [hodd 1 (by norm_num) rfl] at hplace₁
    rw [htable 1 (by norm_num)]
    exact hplace₁.symm
  rw [target, hcalls.content, record_update_of_ne (by decide),
    hw.level1_of_counted hs (hmono 1 (by omega)) (Or.inl (by norm_num)), Function.update_of_ne hne,
    hw.entries 1 (Or.inl (by norm_num))
      (fun i hi => by rw [htable 1 (by norm_num)]; exact hplace i hi)
      (Or.inl (by norm_num)), hodd 1 (by norm_num) rfl, Function.update_self] at hread
  exact absurd (congrFun hread 0) (by decide)

end GemOS.Objstore
