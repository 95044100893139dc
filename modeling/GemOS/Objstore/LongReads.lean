import GemOS.Objstore.Overwrite
import GemOS.Objstore.Reads

/-!
# Reads of several blocks

The loop of `objstore_read` counts the size down by whole blocks, and moves the place in the user's
buffer up from the offset in the file. Every round calls `find_read_cached` at the same offset. A
size that is no multiple of 4096 never comes to 0 (`deliver_endless`), and otherwise every round
copies the same block (`deliver_blocks`). `long_read_iff` says for which calls this is right.
-/

namespace GemOS.Objstore

variable {σ : Type} [BlockLayer σ] {L : Lawful σ Set.univ} {s s' : Store σ} {D : ℕ → Block}
  {obj : Object} {id k m o n size offset : ℕ} {buf : ℕ → UInt8}

/-- `objstore_read` of `size` bytes at `offset` ends, copies these bytes of the object to the start
of the user's buffer, and changes nothing behind them. -/
def ReadsRange (L : Lawful σ Set.univ) (s : Store σ) (id size offset : ℕ) : Prop :=
  ∀ buf, ∃ buf' s', s.objstoreRead id buf size offset = some ((size : ℤ), buf', s') ∧
    (∀ i < size, buf' i =
      objectByte (L.content s.layer) (record (L.content s.layer) id) (offset + i)) ∧
    ∀ i, size ≤ i → buf' i = buf i

/-! ## The loop -/

/-- A size that is no multiple of 4096 never comes to 0. -/
theorem deliver_endless (C : Block) (fuel : ℕ) (buf : ℕ → UInt8) (offcheck : ℕ) {sizecheck : ℕ}
    (hsize : sizecheck % 4096 ≠ 0) : deliver C fuel buf offcheck sizecheck = none := by
  induction fuel generalizing buf offcheck sizecheck with
  | zero => rfl
  | succ fuel ih =>
    have hne : sizecheck ≠ 0 := by
      rintro rfl
      exact hsize rfl
    rw [deliver, if_neg hne]
    -- The modulus is a multiple of 4096, so that the rest stays when the size wraps around.
    refine ih _ _ ?_
    unfold u32
    omega

/-- The loop for `m` blocks copies the block `C` to `m` places of the buffer, from block `o` on. -/
theorem deliver_blocks (C : Block) (hm : m < 2^20) (ho : o < 2^20) {fuel : ℕ} (hfuel : m < fuel)
    (buf : ℕ → UInt8) : ∃ buf', deliver C fuel buf (4096 * o) (4096 * m) = some buf' ∧
      ∀ i, ((∃ j < m, i / 4096 = (o + j) % 2^20) → buf' i = C.byte (i % 4096)) ∧
        ((∀ j < m, i / 4096 ≠ (o + j) % 2^20) → buf' i = buf i) := by
  induction m generalizing buf o fuel with
  | zero =>
    obtain ⟨f, rfl⟩ : ∃ f, fuel = f + 1 := ⟨fuel - 1, by omega⟩
    refine ⟨buf, by rw [deliver, if_pos rfl], fun i => ⟨?_, fun _ => rfl⟩⟩
    rintro ⟨j, hj, -⟩
    exact absurd hj (Nat.not_lt_zero j)
  | succ m ih =>
    obtain ⟨f, rfl⟩ : ∃ f, fuel = f + 1 := ⟨fuel - 1, by omega⟩
    have hnext : u32 ((4096 * o : ℕ) + 4096) = 4096 * ((o + 1) % 2^20) ∧
        u32 ((4096 * (m + 1) : ℕ) - 4096) = 4096 * m := by
      unfold u32
      omega
    have hchunk : (if 4096 < 4096 * (m + 1) then 4096 else 4096 * (m + 1)) = 4096 := by
      split_ifs <;> omega
    obtain ⟨buf', hloop, hbuf⟩ := ih (by omega) (Nat.mod_lt (o + 1) (by norm_num))
      (by omega : m < f) fun i =>
        if 4096 * o ≤ i ∧ i < 4096 * o + 4096 then C.byte (i - 4096 * o) else buf i
    refine ⟨buf', ?_, fun i => ⟨?_, fun hnot => ?_⟩⟩
    · rw [deliver, if_neg (by omega)]
      dsimp only
      rw [hnext.1, hnext.2, hchunk, hloop]
    · rintro ⟨j, hj, hi⟩
      by_cases hlater : ∃ j < m, i / 4096 = ((o + 1) % 2^20 + j) % 2^20
      · exact (hbuf i).1 hlater
      · -- The place is that of this round, and no later round comes to it.
        push Not at hlater
        obtain rfl : j = 0 := by
          by_contra hpos
          exact hlater (j - 1) (by omega) (by omega)
        have hbyte : i - 4096 * o = i % 4096 := by omega
        rw [(hbuf i).2 hlater, if_pos (by omega), hbyte]
    · have hlater : ∀ j < m, i / 4096 ≠ ((o + 1) % 2^20 + j) % 2^20 := fun j hj heq =>
        hnot (j + 1) (by omega) (by omega)
      have hthis := hnot 0 (by omega)
      rw [(hbuf i).2 hlater, if_neg (by omega)]

/-! ## The call -/

/-- `objstore_read` of an object with a record, from a block of it on. -/
theorem objstoreRead_deliver (hinv : L.inv s.layer) (h : HasRecord (L.content s.layer) id)
    (hsize : size < 2^31) (hle : offset ≤ 4096 * (record (L.content s.layer) id).blocknum.toNat)
    (buf : ℕ → UInt8) : ∃ s', s.objstoreRead id buf size offset =
      (deliver (L.content s.layer (target (L.content s.layer) (record (L.content s.layer) id)
        (u32 (offset : ℤ) / 4096))) (2^20 + 1) buf (u32 (offset : ℤ)) size).map
          fun buf => ((size : ℤ), buf, s') := by
  obtain ⟨s₁, hc, heq⟩ := Store.objstoreRead_eq hinv h.two_le h.lt h.present buf size offset
  have hk : ¬(record (L.content s.layer) id).blocknum.toNat < u32 (offset : ℤ) / 4096 := by
    unfold u32
    omega
  obtain ⟨s₂, -, hloop⟩ := Store.readLoop_eq hc.inv rfl hk (2^20 + 1) buf (u32 (offset : ℤ)) size
  have husize : u32 (size : ℤ) = size := by
    unfold u32
    omega
  refine ⟨s₂, ?_⟩
  rw [heq, husize, hloop, hc.content]
  cases deliver (L.content s.layer (target (L.content s.layer) (record (L.content s.layer) id)
    (u32 (offset : ℤ) / 4096))) (2^20 + 1) buf (u32 (offset : ℤ)) size <;> rfl

/-- A call for a positive size that is no multiple of 4096 does not end. -/
theorem not_readsRange (hinv : L.inv s.layer) (h : HasRecord (L.content s.layer) id)
    (hsize : size < 2^31) (hle : offset ≤ 4096 * (record (L.content s.layer) id).blocknum.toNat)
    (hrest : size % 4096 ≠ 0) : ¬ReadsRange L s id size offset := by
  intro hreads
  obtain ⟨buf', s', hread, -⟩ := hreads fun _ => 0
  obtain ⟨s₁, heq⟩ := objstoreRead_deliver hinv h hsize hle fun _ => 0
  rw [heq, deliver_endless _ _ _ _ hrest] at hread
  exact absurd hread (by simp)

/-- A call for `m` blocks. -/
theorem objstoreRead_blocks (hinv : L.inv s.layer) (h : HasRecord (L.content s.layer) id)
    (hm : 4096 * m < 2^31) (hdvd : 4096 ∣ offset)
    (hle : offset ≤ 4096 * (record (L.content s.layer) id).blocknum.toNat) (buf : ℕ → UInt8) :
    ∃ buf' s', s.objstoreRead id buf ((4096 * m : ℕ) : ℤ) offset =
        some (((4096 * m : ℕ) : ℤ), buf', s') ∧
      ∀ i, ((∃ j < m, i / 4096 = (offset / 4096 + j) % 2^20) → buf' i = objectByte
        (L.content s.layer) (record (L.content s.layer) id) (offset % 2^32 + i % 4096)) ∧
        ((∀ j < m, i / 4096 ≠ (offset / 4096 + j) % 2^20) → buf' i = buf i) := by
  obtain ⟨s₁, heq⟩ := objstoreRead_deliver hinv h hm hle buf
  obtain ⟨o, hodef⟩ : ∃ o, o = offset / 4096 % 2^20 := ⟨_, rfl⟩
  have hoff : u32 (offset : ℤ) = 4096 * o := by
    unfold u32
    omega
  rw [hoff, Nat.mul_div_cancel_left o (by norm_num)] at heq
  obtain ⟨buf', hloop, hbuf⟩ := deliver_blocks (m := m) (o := o) (L.content s.layer
    (target (L.content s.layer) (record (L.content s.layer) id) o)) (by omega) (by omega)
    (by omega : m < 2^20 + 1) buf
  refine ⟨buf', s₁, ?_, fun i => ⟨?_, fun hnot => ?_⟩⟩
  · rw [heq, hloop]
    rfl
  · rintro ⟨j, hj, hi⟩
    rw [(hbuf i).1 ⟨j, hj, by omega⟩, objectByte]
    have hblock : (offset % 2^32 + i % 4096) / 4096 = o := by omega
    have hbyte : (offset % 2^32 + i % 4096) % 4096 = i % 4096 := by omega
    rw [hblock, hbyte]
  · exact (hbuf i).2 fun j hj heq' => hnot j hj (by omega)

/-- For every object and every range inside its blocks from a block on: `objstore_read` reads this
range if and only if the range is empty, or has whole blocks from offset 0 on (modulo `2^32`) which
all hold the same as the first one, as is the case for one block. -/
theorem long_read_iff {σ : Type} [BlockLayer σ] (L : Lawful σ Set.univ) (s : Store σ)
    (id size offset : ℕ) (hinv : L.inv s.layer) (h : HasRecord (L.content s.layer) id)
    (hsize : size < 2^31) (hdvd : 4096 ∣ offset)
    (hle : offset + size ≤ 4096 * (record (L.content s.layer) id).blocknum.toNat) :
    ReadsRange L s id size offset ↔ size = 0 ∨ 4096 ∣ size ∧ offset % 2^32 = 0 ∧ ∀ i < size,
      objectByte (L.content s.layer) (record (L.content s.layer) id) (offset + i) =
        objectByte (L.content s.layer) (record (L.content s.layer) id) (i % 4096) := by
  by_cases hrest : size % 4096 = 0
  swap
  · refine iff_of_false (not_readsRange hinv h hsize (by omega) hrest) ?_
    rintro (hzero | ⟨hdvd', -⟩)
    · exact hrest (by rw [hzero])
    · exact hrest (Nat.mod_eq_zero_of_dvd hdvd')
  obtain ⟨m, rfl⟩ : ∃ m, size = 4096 * m := ⟨size / 4096, by omega⟩
  constructor
  · intro hreads
    by_cases hm : m = 0
    · exact Or.inl (by omega)
    refine Or.inr ⟨Nat.dvd_mul_right 4096 m, ?_⟩
    have hoffset : offset % 2^32 = 0 := by
      by_contra hpos
      -- One of the rounds copies to a block of the buffer behind the first `m`.
      obtain ⟨b, j, hj, hb, hbm⟩ : ∃ b j, j < m ∧ b = (offset / 4096 + j) % 2^20 ∧ m ≤ b := by
        rcases Nat.lt_or_ge (offset / 4096 % 2^20 + (m - 1)) (2^20) with hlt | hge
        · exact ⟨_, m - 1, by omega, rfl, by omega⟩
        · exact ⟨_, 0, by omega, rfl, by omega⟩
      obtain ⟨c, hc⟩ := exists_byte_ne (objectByte (L.content s.layer)
        (record (L.content s.layer) id) (offset % 2^32 + 4096 * b % 4096))
      obtain ⟨buf', s', hread, -, hkeep⟩ := hreads fun _ => c
      obtain ⟨buf₁, s₁, hread₁, hbuf⟩ := objstoreRead_blocks hinv h hsize hdvd (by omega) fun _ => c
      obtain ⟨rfl, -⟩ : buf' = buf₁ ∧ s' = s₁ := by simpa using hread.symm.trans hread₁
      have hwritten := (hbuf (4096 * b)).1 ⟨j, hj, by omega⟩
      rw [hkeep (4096 * b) (by omega)] at hwritten
      exact hc hwritten
    refine ⟨hoffset, fun i hi => ?_⟩
    obtain ⟨buf', s', hread, hbytes, -⟩ := hreads fun _ => 0
    obtain ⟨buf₁, s₁, hread₁, hbuf⟩ := objstoreRead_blocks hinv h hsize hdvd (by omega) fun _ => 0
    obtain ⟨rfl, -⟩ : buf' = buf₁ ∧ s' = s₁ := by simpa using hread.symm.trans hread₁
    rw [← hbytes i hi, (hbuf i).1 ⟨i / 4096, by omega, by omega⟩, hoffset, Nat.zero_add]
  · intro hcond buf
    obtain ⟨buf', s', hread, hbuf⟩ := objstoreRead_blocks hinv h hsize hdvd (by omega) buf
    refine ⟨buf', s', hread, fun i hi => ?_, fun i hi => ?_⟩
    · rcases hcond with hzero | ⟨-, hoffset, hsame⟩
      · omega
      · rw [(hbuf i).1 ⟨i / 4096, by omega, by omega⟩, hoffset, Nat.zero_add, hsame i hi]
    · refine (hbuf i).2 fun j hj heq => ?_
      rcases hcond with hzero | ⟨-, hoffset, -⟩ <;> omega

/-- The two blocks of an object hold the same, and are read. -/
theorem long_read_blocks : ReadsRange Plain.lawful (twoBlocksStore 1) 2 8192 0 := by
  refine (long_read_iff Plain.lawful (twoBlocksStore 1) 2 8192 0 trivial
    (hasBlocks_twoBlocks 1).toHasRecord (by norm_num) (by norm_num) ?_).mpr
    (Or.inr ⟨by norm_num, rfl, fun i hi => ?_⟩)
  · rw [show record (Plain.lawful.content (twoBlocksStore 1).layer) 2 = twoBlocksRecord from
      record_twoBlocks 1]
    decide
  · calc objectByte (twoBlocks 1) (record (twoBlocks 1) 2) (0 + i)
        = 1 := objectByte_twoBlocks 1 (by omega)
      _ = objectByte (twoBlocks 1) (record (twoBlocks 1) 2) (i % 4096) :=
        (objectByte_twoBlocks 1 (by omega)).symm

/-- The first five bytes of an object of two blocks are never read to the end. -/
theorem long_read_five :
    HasBlocks (Plain.lawful.content (twoBlocksStore 1).layer) 2 2 ∧
      ¬ReadsRange Plain.lawful (twoBlocksStore 1) 2 5 0 :=
  ⟨hasBlocks_twoBlocks 1, not_readsRange trivial (hasBlocks_twoBlocks 1).toHasRecord (by norm_num)
    (Nat.zero_le _) (by norm_num)⟩

end GemOS.Objstore
