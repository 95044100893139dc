import Mathlib

/-!
# Disk blocks and the records in them

A block is 4096 bytes (`BLOCK_SIZE`, from `lib.h`). The store reads the same bytes in three ways: as
raw data, as a table of 1024 little-endian words (an indirect block), and as 64 records of 64 bytes
(`struct object`). Each view has a reader and a writer here, with the lemmas that a write is read
back and that it leaves the other entries alone.
-/

namespace GemOS.Objstore

/-- The contents of a block of `BLOCK_SIZE` bytes. -/
abbrev Block := Fin 4096 → UInt8

namespace Block

/-- The bytes of a block as memory; beyond the block there are zeros. -/
def byte (b : Block) (i : ℕ) : UInt8 := if h : i < 4096 then b ⟨i, h⟩ else 0

/-- The block that holds the first 4096 bytes of a memory. -/
def ofBytes (f : ℕ → UInt8) : Block := fun i => f i

/-- The zero-filled block. -/
def zero : Block := fun _ => 0

theorem byte_of_lt (b : Block) {i : ℕ} (h : i < 4096) : b.byte i = b ⟨i, h⟩ := dif_pos h

@[simp] theorem byte_ofBytes (f : ℕ → UInt8) {i : ℕ} (h : i < 4096) : (ofBytes f).byte i = f i := by
  rw [byte_of_lt _ h]
  rfl

@[simp] theorem byte_zero (i : ℕ) : zero.byte i = 0 := by
  unfold byte zero
  split_ifs <;> rfl

/-- A block is determined by its bytes. -/
theorem ext_byte {b c : Block} (h : ∀ i < 4096, b.byte i = c.byte i) : b = c := by
  funext i
  have := h i i.isLt
  rwa [byte_of_lt _ i.isLt, byte_of_lt _ i.isLt] at this

end Block

/-! ## Little-endian words -/

/-- The word that memory `f` holds at address `i`. -/
def word (f : ℕ → UInt8) (i : ℕ) : UInt32 :=
  UInt32.ofNat ((f i).toNat + (f (i + 1)).toNat * 2^8 + (f (i + 2)).toNat * 2^16 +
    (f (i + 3)).toNat * 2^24)

/-- Byte `i` of a word. -/
def wordByte (w : UInt32) (i : ℕ) : UInt8 := UInt8.ofNat (w.toNat / 2^(8 * i))

/-- A word is read back from its bytes. -/
theorem word_eq {f : ℕ → UInt8} {i : ℕ} {w : UInt32} (h : ∀ j < 4, f (i + j) = wordByte w j) :
    word f i = w := by
  have h0 := h 0 (by norm_num)
  rw [add_zero] at h0
  unfold word
  rw [h0, h 1 (by norm_num), h 2 (by norm_num), h 3 (by norm_num)]
  unfold wordByte
  apply UInt32.toNat_inj.mp
  have hw := w.toNat_lt
  simp only [UInt8.toNat_ofNat', UInt32.toNat_ofNat']
  norm_num
  omega

/-- The bytes of a word are read back. -/
theorem wordByte_word (f : ℕ → UInt8) (i : ℕ) {j : ℕ} (hj : j < 4) :
    wordByte (word f i) j = f (i + j) := by
  have h0 := (f i).toNat_lt
  have h1 := (f (i + 1)).toNat_lt
  have h2 := (f (i + 2)).toNat_lt
  have h3 := (f (i + 3)).toNat_lt
  unfold wordByte word
  apply UInt8.toNat_inj.mp
  rw [UInt8.toNat_ofNat', UInt32.toNat_ofNat']
  obtain rfl | rfl | rfl | rfl : j = 0 ∨ j = 1 ∨ j = 2 ∨ j = 3 := by omega
  · norm_num
    omega
  · norm_num
    omega
  · norm_num
    omega
  · norm_num
    omega

/-- A word depends only on its four bytes. -/
theorem word_congr {f g : ℕ → UInt8} {i k : ℕ} (h : ∀ j < 4, f (i + j) = g (k + j)) :
    word f i = word g k := by
  have h0 := h 0 (by norm_num)
  rw [add_zero, add_zero] at h0
  unfold word
  rw [h0, h 1 (by norm_num), h 2 (by norm_num), h 3 (by norm_num)]

/-! ## Tables -/

namespace Block

/-- Entry `k` of a block that is read as `u32[1024]`. -/
def entry (b : Block) (k : ℕ) : UInt32 := word b.byte (4 * k)

/-- The block after entry `k` of its table is set. -/
def setEntry (b : Block) (k : ℕ) (w : UInt32) : Block :=
  ofBytes fun i => if i / 4 = k then wordByte w (i % 4) else b.byte i

@[simp] theorem entry_setEntry_self (b : Block) {k : ℕ} (hk : k < 1024) (w : UInt32) :
    (b.setEntry k w).entry k = w := by
  apply word_eq
  intro j hj
  unfold setEntry
  rw [byte_ofBytes _ (by omega), if_pos (by omega), show (4 * k + j) % 4 = j by omega]

theorem entry_setEntry_of_ne (b : Block) {k l : ℕ} (hl : l < 1024) (h : l ≠ k) (w : UInt32) :
    (b.setEntry k w).entry l = b.entry l := by
  apply word_congr
  intro j hj
  unfold setEntry
  rw [byte_ofBytes _ (by omega), if_neg (by omega)]

@[simp] theorem entry_zero (k : ℕ) : zero.entry k = 0 := by
  apply word_eq
  intro j hj
  rw [byte_zero]
  simp [wordByte]

end Block

/-! ## Records -/

/-- A record has a first indirect block. -/
instance neZeroFour : NeZero 4 := ⟨by decide⟩

/-- `struct object`, the 64-byte record of an object. `cacheIndex` is an `int`, held as its bits. -/
structure Object where
  /-- The object's id, at least 2. -/
  id : UInt32
  /-- The object's size in bytes. -/
  size : UInt32
  /-- Set to -1 by `create_object`. -/
  cacheIndex : UInt32
  /-- The number of blocks of the object. -/
  blocknum : UInt32
  /-- The key, a C string in 32 bytes. -/
  key : Fin 32 → UInt8
  /-- The block numbers of the indirect blocks. -/
  level1 : Fin 4 → UInt32
  deriving DecidableEq

namespace Object

/-- The record that `calloc` returns. -/
def zero : Object := ⟨0, 0, 0, 0, fun _ => 0, fun _ => 0⟩

/-- The bytes of a record, its fields in order. -/
def bytes (r : Object) (i : ℕ) : UInt8 :=
  if i < 4 then wordByte r.id i
  else if i < 8 then wordByte r.size (i - 4)
  else if i < 12 then wordByte r.cacheIndex (i - 8)
  else if i < 16 then wordByte r.blocknum (i - 12)
  else if h : i - 16 < 32 then r.key ⟨i - 16, h⟩
  else if h : (i - 48) / 4 < 4 then wordByte (r.level1 ⟨(i - 48) / 4, h⟩) ((i - 48) % 4)
  else 0

/-- The record in 64 bytes of memory. -/
def ofBytes (f : ℕ → UInt8) : Object where
  id := word f 0
  size := word f 4
  cacheIndex := word f 8
  blocknum := word f 12
  key i := f (16 + i)
  level1 i := word f (48 + 4 * i)

/-- A record depends only on its 64 bytes. -/
theorem ofBytes_congr {f g : ℕ → UInt8} (h : ∀ i < 64, f i = g i) : ofBytes f = ofBytes g := by
  have hw : ∀ i, i + 4 ≤ 64 → word f i = word g i :=
    fun i hi => word_congr fun j hj => h (i + j) (by omega)
  unfold ofBytes
  rw [hw 0 (by norm_num), hw 4 (by norm_num), hw 8 (by norm_num), hw 12 (by norm_num)]
  congr 1
  · funext i
    exact h _ (by omega)
  · funext i
    exact hw _ (by omega)

/-- A record is read back from its bytes. -/
@[simp] theorem ofBytes_bytes (r : Object) : ofBytes r.bytes = r := by
  obtain ⟨id, size, cacheIndex, blocknum, key, level1⟩ := r
  unfold ofBytes bytes
  congr 1
  · exact word_eq fun j hj => by rw [if_pos (by omega), zero_add]
  · exact word_eq fun j hj => by
      rw [if_neg (by omega), if_pos (by omega), Nat.add_sub_cancel_left]
  · exact word_eq fun j hj => by
      rw [if_neg (by omega), if_neg (by omega), if_pos (by omega), Nat.add_sub_cancel_left]
  · exact word_eq fun j hj => by
      rw [if_neg (by omega), if_neg (by omega), if_neg (by omega), if_pos (by omega),
        Nat.add_sub_cancel_left]
  · funext i
    have hi := i.isLt
    rw [if_neg (by omega), if_neg (by omega), if_neg (by omega), if_neg (by omega),
      dif_pos (by omega)]
    exact congrArg key (Fin.ext (Nat.add_sub_cancel_left _ _))
  · funext i
    have hi := i.isLt
    apply word_eq
    intro j hj
    rw [if_neg (by omega), if_neg (by omega), if_neg (by omega), if_neg (by omega),
      dif_neg (by omega), dif_pos (by omega), show (48 + 4 * i.val + j - 48) % 4 = j by omega]
    exact congrArg (fun k => wordByte (level1 k) j) (Fin.ext (by dsimp only; omega))

/-- The bytes of a record in memory. -/
theorem bytes_ofBytes (f : ℕ → UInt8) {i : ℕ} (hi : i < 64) : (ofBytes f).bytes i = f i := by
  unfold bytes ofBytes
  split_ifs with h₁ h₂ h₃ h₄ h₅ h₆
  · rw [wordByte_word f 0 h₁, zero_add]
  · rw [wordByte_word f 4 (by omega)]
    congr 1
    omega
  · rw [wordByte_word f 8 (by omega)]
    congr 1
    omega
  · rw [wordByte_word f 12 (by omega)]
    congr 1
    omega
  · dsimp only
    congr 1
    omega
  · dsimp only
    rw [wordByte_word f _ (Nat.mod_lt _ (by norm_num))]
    congr 1
    omega
  · omega

theorem bytes_zero (i : ℕ) : zero.bytes i = 0 := by
  unfold bytes zero wordByte
  split_ifs <;> simp

end Object

namespace Block

/-- Record `slot` of a block that is read as `struct object[64]`. -/
def object (b : Block) (slot : ℕ) : Object := Object.ofBytes fun i => b.byte (64 * slot + i)

/-- The block after record `slot` is set. -/
def setObject (b : Block) (slot : ℕ) (r : Object) : Block :=
  ofBytes fun i => if i / 64 = slot then r.bytes (i % 64) else b.byte i

@[simp] theorem object_setObject_self (b : Block) {slot : ℕ} (h : slot < 64) (r : Object) :
    (b.setObject slot r).object slot = r := by
  conv_rhs => rw [← r.ofBytes_bytes]
  apply Object.ofBytes_congr
  intro i hi
  unfold setObject
  rw [byte_ofBytes _ (by omega), if_pos (by omega), show (64 * slot + i) % 64 = i by omega]

theorem object_setObject_of_ne (b : Block) {slot k : ℕ} (hk : k < 64) (h : k ≠ slot) (r : Object) :
    (b.setObject slot r).object k = b.object k := by
  apply Object.ofBytes_congr
  intro i hi
  unfold setObject
  rw [byte_ofBytes _ (by omega), if_neg (by omega)]

/-- Setting a record changes only its own 64 bytes. -/
theorem byte_setObject_of_ne (b : Block) {slot i : ℕ} (hi : i < 4096) (h : i / 64 ≠ slot)
    (r : Object) : (b.setObject slot r).byte i = b.byte i := by
  unfold setObject
  rw [byte_ofBytes _ hi, if_neg h]

@[simp] theorem object_zero (slot : ℕ) : zero.object slot = Object.zero := by
  unfold object Object.zero Object.ofBytes
  simp [word]

end Block

end GemOS.Objstore
