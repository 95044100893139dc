import Mathlib

/-!
# Bitmap allocators

A bitmap of `8 * n` numbers in `n` bytes, with a cursor. `fetchFree` searches the bytes from the
cursor on, cyclically, for the first clear bit, sets it, and leaves the cursor at its byte. The
numbers 0 and 1 are reserved: the search skips them, and 0 is its failure value. `clearBit` frees a
number.

`fetchFree_spec` says that a number is handed out exactly when one is free, that it was free, and
that only its own bit changes.
-/

namespace GemOS

/-- The bytes of a bitmap. -/
abbrev ByteMap := ℕ → UInt8

namespace ByteMap

/-- Bit `n` of a bitmap: bit `n % 8` of byte `n / 8`. -/
def bit (m : ByteMap) (n : ℕ) : Bool := (m (n / 8)).toNat.testBit (n % 8)

/-- The inner loop of the search, over `fuel` bits of a byte from bit `j` on. -/
def scanByte (m : ByteMap) (index : ℕ) : ℕ → ℕ → Option ℕ
  | 0, _ => none
  | fuel + 1, j =>
    if index = 0 ∧ (j = 0 ∨ j = 1) then scanByte m index fuel (j + 1)
    else if m index &&& (1 <<< UInt8.ofNat j) = 0 then some j
    else scanByte m index fuel (j + 1)

/-- The outer loop of the search in a bitmap of `n` bytes, over `fuel` bytes from byte `i % n`
on. -/
def scan (n : ℕ) (m : ByteMap) : ℕ → ℕ → Option (ℕ × ℕ)
  | 0, _ => none
  | fuel + 1, i =>
    match scanByte m (i % n) 8 0 with
    | some j => some (i % n, j)
    | none => scan n m fuel (i + 1)

/-- Hand out the first free number from the cursor on: the number, or 0 when there is none, with the
new bitmap and the new cursor. -/
def fetchFree (n : ℕ) (m : ByteMap) (itr : ℕ) : ℕ × ByteMap × ℕ :=
  match scan n m n itr with
  | some (index, j) =>
    (index * 8 + j, Function.update m index (m index ||| (1 <<< UInt8.ofNat j)), index)
  | none => (0, m, itr)

/-- Free the number `k`: clear its bit by the mask `(1 << (k % 8)) ^ 0xff`. -/
def clearBit (m : ByteMap) (k : ℕ) : ByteMap :=
  Function.update m (k >>> 3) (m (k >>> 3) &&& ((1 <<< UInt8.ofNat (k % 8)) ^^^ 0xff))

/-! ## Masks -/

/-- The mask of bit `j`. -/
theorem mask_toNat {j : ℕ} (hj : j < 8) : ((1 : UInt8) <<< UInt8.ofNat j).toNat = 2 ^ j := by
  have key : ∀ j : Fin 8, ((1 : UInt8) <<< UInt8.ofNat j.val).toNat = 2 ^ j.val := by decide
  exact key ⟨j, hj⟩

/-- The test of one bit of a byte. -/
theorem and_mask_eq_zero (x : UInt8) {j : ℕ} (hj : j < 8) :
    x &&& (1 <<< UInt8.ofNat j) = 0 ↔ x.toNat.testBit j = false := by
  have hpos : 2 ^ j ≠ 0 := by positivity
  rw [← UInt8.toNat_inj, UInt8.toNat_and, mask_toNat hj, Nat.and_two_pow]
  cases x.toNat.testBit j <;> simp

/-- Setting one bit of a byte. -/
theorem or_mask_testBit (x : UInt8) {j k : ℕ} (hj : j < 8) :
    (x ||| (1 <<< UInt8.ofNat j)).toNat.testBit k = (x.toNat.testBit k || decide (k = j)) := by
  rw [UInt8.toNat_or, Nat.testBit_or, mask_toNat hj, Nat.testBit_two_pow]
  simp only [eq_comm]

/-- Clearing one bit of a byte. -/
theorem and_not_mask_testBit (x : UInt8) {j k : ℕ} (hj : j < 8) (hk : k < 8) :
    (x &&& ((1 <<< UInt8.ofNat j) ^^^ 0xff)).toNat.testBit k =
      (x.toNat.testBit k && decide (k ≠ j)) := by
  have hff : (0xff : UInt8).toNat = 2 ^ 8 - 1 := rfl
  rw [UInt8.toNat_and, Nat.testBit_and, UInt8.toNat_xor, Nat.testBit_xor, mask_toNat hj,
    Nat.testBit_two_pow, hff, Nat.testBit_two_pow_sub_one, decide_eq_true hk, Bool.xor_true,
    decide_not]
  simp only [eq_comm]

/-- Setting bit `j` of byte `index` sets the bit of that number and no other. -/
theorem bit_update_or (m : ByteMap) (index : ℕ) {j : ℕ} (hj : j < 8) (k : ℕ) :
    bit (Function.update m index (m index ||| (1 <<< UInt8.ofNat j))) k =
      (m.bit k || decide (k = index * 8 + j)) := by
  unfold bit
  by_cases hk : k / 8 = index
  · subst hk
    rw [Function.update_self, or_mask_testBit _ hj]
    congr 2
    rw [eq_iff_iff]
    omega
  · rw [Function.update_of_ne hk]
    have : k ≠ index * 8 + j := by omega
    simp [this]

/-- `clearBit` clears the bit of its number and no other. -/
theorem bit_clearBit (m : ByteMap) (n k : ℕ) :
    (m.clearBit n).bit k = (m.bit k && decide (k ≠ n)) := by
  unfold bit clearBit
  rw [Nat.shiftRight_eq_div_pow]
  by_cases hk : k / 8 = n / 2 ^ 3
  · rw [hk, Function.update_self, and_not_mask_testBit _ (Nat.mod_lt _ (by norm_num))
      (Nat.mod_lt _ (by norm_num))]
    congr 2
    rw [eq_iff_iff]
    omega
  · rw [Function.update_of_ne hk]
    have : k ≠ n := by rintro rfl; exact hk rfl
    simp [this]

/-! ## The search -/

/-- A number that the search may hand out: not 0 and not 1. -/
theorem not_reserved {index j : ℕ} (h : ¬(index = 0 ∧ (j = 0 ∨ j = 1))) : 2 ≤ index * 8 + j := by
  omega

/-- The inner loop finds a clear bit that is not reserved. -/
theorem scanByte_some {m : ByteMap} {index fuel j r : ℕ} (hj : j + fuel ≤ 8)
    (h : scanByte m index fuel j = some r) :
    r < 8 ∧ 2 ≤ index * 8 + r ∧ m.bit (index * 8 + r) = false := by
  induction fuel generalizing j with
  | zero => simp [scanByte] at h
  | succ fuel ih =>
    rw [scanByte] at h
    split_ifs at h with h0 h1
    · exact ih (by omega) h
    · obtain rfl : j = r := Option.some.inj h
      refine ⟨by omega, not_reserved h0, ?_⟩
      rw [and_mask_eq_zero _ (by omega)] at h1
      unfold bit
      rw [show (index * 8 + j) / 8 = index by omega, show (index * 8 + j) % 8 = j by omega]
      exact h1
    · exact ih (by omega) h

/-- When the inner loop finds nothing, every bit that it may hand out is set. -/
theorem scanByte_none {m : ByteMap} {index fuel j : ℕ} (hj : j + fuel ≤ 8)
    (h : scanByte m index fuel j = none) (k : ℕ) (hk : j ≤ k) (hk' : k < j + fuel)
    (h2 : 2 ≤ index * 8 + k) : m.bit (index * 8 + k) = true := by
  induction fuel generalizing j with
  | zero => omega
  | succ fuel ih =>
    rw [scanByte] at h
    split_ifs at h with h0 h1
    · rcases Nat.eq_or_lt_of_le hk with rfl | hlt
      · omega
      · exact ih (by omega) h hlt (by omega)
    · rcases Nat.eq_or_lt_of_le hk with rfl | hlt
      · rw [and_mask_eq_zero _ (by omega), Bool.not_eq_false] at h1
        unfold bit
        rw [show (index * 8 + j) / 8 = index by omega, show (index * 8 + j) % 8 = j by omega]
        exact h1
      · exact ih (by omega) h hlt (by omega)

/-- The search finds a clear bit that is not reserved, in one of the bytes of the bitmap. -/
theorem scan_some {n : ℕ} {m : ByteMap} {fuel i index j : ℕ} (hn : 0 < n)
    (h : scan n m fuel i = some (index, j)) :
    index < n ∧ j < 8 ∧ 2 ≤ index * 8 + j ∧ m.bit (index * 8 + j) = false := by
  induction fuel generalizing i with
  | zero => simp [scan] at h
  | succ fuel ih =>
    rw [scan] at h
    cases hs : scanByte m (i % n) 8 0 with
    | none =>
      rw [hs] at h
      exact ih h
    | some r =>
      rw [hs] at h
      obtain ⟨rfl, rfl⟩ : i % n = index ∧ r = j := by simpa using h
      exact ⟨Nat.mod_lt _ hn, scanByte_some (by omega) hs⟩

/-- When the search finds nothing, every bit of the bytes it went through is set. -/
theorem scan_none {n : ℕ} {m : ByteMap} {fuel i : ℕ} (h : scan n m fuel i = none) (t : ℕ)
    (hi : i ≤ t) (ht : t < i + fuel) (k : ℕ) (hk : k < 8) (h2 : 2 ≤ t % n * 8 + k) :
    m.bit (t % n * 8 + k) = true := by
  induction fuel generalizing i with
  | zero => omega
  | succ fuel ih =>
    rw [scan] at h
    cases hs : scanByte m (i % n) 8 0 with
    | some r => simp [hs] at h
    | none =>
      rw [hs] at h
      rcases Nat.eq_or_lt_of_le hi with rfl | hlt
      · exact scanByte_none (by omega) hs k (by omega) (by omega) h2
      · exact ih h hlt (by omega)

/-- `n` consecutive numbers meet every residue modulo `n`. -/
theorem exists_mod_eq {n x : ℕ} (hx : x < n) (i : ℕ) : ∃ t, i ≤ t ∧ t < i + n ∧ t % n = x := by
  have hi : i % n < n := Nat.mod_lt _ (by omega)
  have hdiv := Nat.div_add_mod i n
  by_cases h : i % n ≤ x
  · refine ⟨n * (i / n) + x, by omega, by omega, ?_⟩
    rw [Nat.mul_add_mod, Nat.mod_eq_of_lt hx]
  · refine ⟨n * (i / n + 1) + x, by rw [mul_add]; omega, by rw [mul_add]; omega, ?_⟩
    rw [Nat.mul_add_mod, Nat.mod_eq_of_lt hx]

/-- What `fetchFree` does. Either all numbers from 2 on are taken, and it returns 0 and changes
nothing; or it returns a number that was free, and sets the bit of this number and no other. -/
theorem fetchFree_spec {n : ℕ} (hn : 0 < n) (m : ByteMap) (itr : ℕ) :
    ((∀ k, 2 ≤ k → k < 8 * n → m.bit k = true) ∧ fetchFree n m itr = (0, m, itr)) ∨
      ∃ r m', fetchFree n m itr = (r, m', r / 8) ∧ 2 ≤ r ∧ r < 8 * n ∧ m.bit r = false ∧
        ∀ k, m'.bit k = (m.bit k || decide (k = r)) := by
  unfold fetchFree
  cases hs : scan n m n itr with
  | none =>
    refine Or.inl ⟨?_, rfl⟩
    intro k hk hk8
    obtain ⟨t, hit, htn, hmod⟩ := exists_mod_eq (show k / 8 < n by omega) itr
    have := scan_none hs t hit htn (k % 8) (Nat.mod_lt _ (by norm_num)) (by omega)
    rwa [hmod, show k / 8 * 8 + k % 8 = k by omega] at this
  | some p =>
    obtain ⟨index, j⟩ := p
    obtain ⟨hidx, hj, h2, hbit⟩ := scan_some hn hs
    refine Or.inr ⟨index * 8 + j, Function.update m index (m index ||| (1 <<< UInt8.ofNat j)),
      ?_, h2, by omega, hbit, bit_update_or m index hj⟩
    simp only [Prod.mk.injEq, true_and]
    omega

/-- The first number that is handed out. -/
theorem fetchFree_first {n : ℕ} (hn : 0 < n) (m : ByteMap) (h : m.bit 2 = false) :
    (fetchFree n m 0).1 = 2 := by
  obtain ⟨k, rfl⟩ : ∃ k, n = k + 1 := ⟨n - 1, by omega⟩
  have hmask : m 0 &&& (1 <<< UInt8.ofNat 2) = 0 := (and_mask_eq_zero _ (by norm_num)).mpr h
  have hbyte : scanByte m 0 8 0 = some 2 := by
    rw [scanByte, if_pos (by simp), scanByte, if_pos (by simp), scanByte, if_neg (by simp),
      if_pos hmask]
  have hscan : scan (k + 1) m (k + 1) 0 = some (0, 2) := by
    rw [scan, Nat.zero_mod, hbyte]
  rw [fetchFree, hscan]

end ByteMap

end GemOS
