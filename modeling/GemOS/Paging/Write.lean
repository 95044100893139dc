import GemOS.Paging.Faults
import GemOS.Paging.Regions

/-!
# Which memory a write reads

`SYSCALL_WRITE` walks the page table for the first address of the buffer only. `strlen` and the loop
that prints then read on up to the end of the string. `write_safe_iff`: a call that is not rejected
stays in mapped memory exactly when the string ends, and every further page into which it extends is
present as well.
-/

namespace GemOS.Paging

/-- The bytes of the memory of a process, by virtual address. -/
abbrev UserMemory := ℕ → UInt8

/-- `(int)` of a `u64`. -/
def toInt (param : ℕ) : ℤ := Int.bmod param (2^32)

/-- The first `n` addresses from `buff` on. -/
def addresses (buff n : ℕ) : List ℕ := (List.range n).map fun i => (buff + i) % 2^64

/-- `strlen`, as far as the next `fuel` bytes. -/
def strlenLoop (mem : UserMemory) : ℕ → ℕ → Option ℕ
  | 0, _ => none
  | fuel + 1, s => if mem (s % 2^64) = 0 then some 0 else (strlenLoop mem fuel (s + 1)).map (· + 1)

/-- `strlen`. It does not return when none of the `2^64` bytes is NUL. -/
def strlen (mem : UserMemory) (s : ℕ) : Option ℕ := strlenLoop mem (2^64) s

/-- What `SYSCALL_WRITE` does. -/
structure WriteEnd where
  /-- The result, unless `strlen` does not return. -/
  result : Option ℕ
  /-- The addresses that are read through `buff`, in order. -/
  reads : List ℕ
  /-- What is printed. -/
  printed : List UInt8

/-- `return -1`. -/
def writeFailed : WriteEnd := ⟨some (2^64 - 1), [], []⟩

/-- The string at `buff` is printed, up to `len` bytes. -/
def writeString (mem : UserMemory) (buff : ℕ) (len : ℤ) : WriteEnd :=
  match strlen mem buff with
  | none => ⟨none, addresses buff (2^64), []⟩
  | some n =>
    -- `strlen` is called once more for a length that is too large.
    let again := if len > n then addresses buff (n + 1) else []
    let len : ℤ := if len > n then n else len
    { result := some len.toNat
      reads := addresses buff (n + 1) ++ again ++ addresses buff len.toNat
      printed := (addresses buff len.toNat).map mem ++ [10] }

/-- `SYSCALL_WRITE`. -/
def Kernel.write (k : Kernel) (mem : UserMemory) (param1 param2 : ℕ) : WriteEnd :=
  let entryL4 := k.mem k.pgd (tableOffset param1 0x027)
  if present entryL4 then
    let pfnL3 := entryPfn entryL4
    let entryL3 := k.mem pfnL3 (tableOffset param1 0x01E)
    if present entryL3 then
      let pfnL2 := entryPfn entryL3
      let entryL2 := k.mem pfnL2 (tableOffset param1 0x015)
      if present entryL2 then
        let pfnL1 := entryPfn entryL2
        if present (k.mem pfnL1 (tableOffset param1 0x00C)) then
          let len := toInt param2
          if len ≤ 0 ∨ len > 1024 ∨ param1 = 0 then writeFailed
          else writeString mem param1 len
        else writeFailed
      else writeFailed
    else writeFailed
  else writeFailed

/-- The string at `buff` has `n` bytes before its NUL. -/
def StringLength (mem : UserMemory) (buff n : ℕ) : Prop :=
  mem ((buff + n) % 2^64) = 0 ∧ ∀ i < n, mem ((buff + i) % 2^64) ≠ 0

/-- The page of an address is present. -/
def Kernel.PagePresent (k : Kernel) (address : ℕ) : Prop := k.walk (path address) ≠ none

/-- A call that is rejected: the page of the buffer is not present, or the length or the pointer is
out of range. -/
def WriteRejected (k : Kernel) (param1 param2 : ℕ) : Prop :=
  ¬k.PagePresent param1 ∨ toInt param2 ≤ 0 ∨ toInt param2 > 1024 ∨ param1 = 0

/-- A call touches only mapped memory: it fails without reading, or it reads from present pages
only, and returns how many bytes of the string it has printed. -/
def WriteSafe (k : Kernel) (mem : UserMemory) (param1 param2 : ℕ) : Prop :=
  (k.write mem param1 param2).result = some (2^64 - 1) ∧ (k.write mem param1 param2).reads = [] ∨
    (∀ a ∈ (k.write mem param1 param2).reads, k.PagePresent a) ∧
      ∃ n len : ℕ, StringLength mem param1 n ∧ (len : ℤ) = toInt param2 ∧ 1 ≤ len ∧ len ≤ 1024 ∧
        (k.write mem param1 param2).result = some (min len n)

/-- The string ends, and every page that begins inside it is present. -/
def StringMapped (k : Kernel) (mem : UserMemory) (buff : ℕ) : Prop :=
  ∃ n, StringLength mem buff n ∧
    ∀ m, buff < m * 4096 → m * 4096 ≤ buff + n → k.PagePresent (m * 4096)

variable {k : Kernel} {mem : UserMemory} {buff n a param1 param2 : ℕ} {len : ℤ}

/-! ## Strings -/

theorem mem_addresses : a ∈ addresses buff n ↔ ∃ i < n, (buff + i) % 2^64 = a := by
  simp [addresses]

theorem strlenLoop_eq_some {fuel s : ℕ} :
    strlenLoop mem fuel s = some n ↔ n < fuel ∧ StringLength mem s n := by
  induction fuel generalizing s n with
  | zero => simp [strlenLoop]
  | succ fuel ih =>
    rw [strlenLoop]
    split_ifs with hnul
    · constructor
      · intro h
        obtain rfl := Option.some.inj h
        exact ⟨Nat.succ_pos fuel, hnul, fun i hi => absurd hi (Nat.not_lt_zero i)⟩
      · rintro ⟨-, -, hn⟩
        rcases Nat.eq_zero_or_pos n with rfl | hpos
        · rfl
        · exact absurd hnul (hn 0 hpos)
    · rw [Option.map_eq_some_iff]
      have hnext : ∀ i, s + 1 + i = s + (i + 1) := fun i => by omega
      constructor
      · rintro ⟨m, hm, rfl⟩
        obtain ⟨hlt, hend, hm⟩ := ih.mp hm
        refine ⟨by omega, hnext m ▸ hend, fun i hi => ?_⟩
        cases i with
        | zero => exact hnul
        | succ i => exact hnext i ▸ hm i (by omega)
      · rintro ⟨hlt, hend, hn⟩
        cases n with
        | zero => exact absurd hend hnul
        | succ m =>
          exact ⟨m, ih.mpr ⟨by omega, (hnext m).symm ▸ hend,
            fun i hi => (hnext i).symm ▸ hn (i + 1) (by omega)⟩, rfl⟩

/-- A string has less than `2^64` bytes, since the addresses come round. -/
theorem StringLength.lt (h : StringLength mem buff n) : n < 2^64 := by
  by_contra hn
  refine h.2 (n - 2^64) (by omega) ?_
  rw [show (buff + (n - 2^64)) % 2^64 = (buff + n) % 2^64 by omega]
  exact h.1

theorem strlen_eq_some : strlen mem buff = some n ↔ StringLength mem buff n :=
  strlenLoop_eq_some.trans ⟨And.right, fun h => ⟨h.lt, h⟩⟩

/-! ## Pages -/

/-- The entries on the way to a page are present. -/
theorem pagePresent_iff : k.PagePresent a ↔
    present (k.mem k.pgd (tableOffset a 0x027)) = true ∧
    present (k.mem (entryPfn (k.mem k.pgd (tableOffset a 0x027))) (tableOffset a 0x01E)) = true ∧
    present (k.mem (entryPfn (k.mem (entryPfn (k.mem k.pgd (tableOffset a 0x027)))
      (tableOffset a 0x01E))) (tableOffset a 0x015)) = true ∧
    present (k.mem (entryPfn (k.mem (entryPfn (k.mem (entryPfn (k.mem k.pgd (tableOffset a 0x027)))
      (tableOffset a 0x01E))) (tableOffset a 0x015))) (tableOffset a 0x00C)) = true := by
  unfold Kernel.PagePresent Kernel.walk Memory.walk path
  simp only [Radix.node, Memory.edge]
  split_ifs <;> simp_all

theorem write_of_rejected (h : WriteRejected k param1 param2) :
    k.write mem param1 param2 = writeFailed := by
  unfold WriteRejected at h
  rw [pagePresent_iff] at h
  unfold Kernel.write
  dsimp only
  split_ifs with h₄ h₃ h₂ h₁ hlen
  · rfl
  · exact absurd h (not_or.mpr ⟨not_not.mpr ⟨h₄, h₃, h₂, h₁⟩, hlen⟩)
  all_goals rfl

theorem write_of_not_rejected (h : ¬WriteRejected k param1 param2) :
    k.write mem param1 param2 = writeString mem param1 (toInt param2) := by
  obtain ⟨hpage, hlen⟩ := not_or.mp h
  obtain ⟨h₄, h₃, h₂, h₁⟩ := pagePresent_iff.mp (not_not.mp hpage)
  unfold Kernel.write
  dsimp only
  rw [if_pos h₄, if_pos h₃, if_pos h₂, if_pos h₁, if_neg hlen]

/-- The upper 16 bits of an address are not used in a walk. -/
theorem pagePresent_congr {b : ℕ} (h : a / 4096 % 2^36 = b / 4096 % 2^36) :
    k.PagePresent a ↔ k.PagePresent b := by
  have hpath : path a = path b := by
    simp only [path, List.cons.injEq, Fin.ext_iff, tableOffset_val, and_true]
    refine ⟨?_, ?_, ?_, ?_⟩ <;> omega
  rw [Kernel.PagePresent, Kernel.PagePresent, hpath]

/-- The bytes of a string and its NUL are mapped exactly when the pages into which it extends
are. -/
theorem stringMapped_iff (hbuff : k.PagePresent buff) :
    (∀ i ≤ n, k.PagePresent ((buff + i) % 2^64)) ↔
      ∀ m, buff < m * 4096 → m * 4096 ≤ buff + n → k.PagePresent (m * 4096) := by
  constructor
  · intro h m hlo hhi
    refine (pagePresent_congr ?_).mp (h (m * 4096 - buff) (by omega))
    omega
  · intro h i hi
    by_cases hpage : (buff + i) / 4096 = buff / 4096
    · -- The byte is in the page of the buffer.
      exact (pagePresent_congr (by omega)).mp hbuff
    · exact (pagePresent_congr (by omega)).mp (h ((buff + i) / 4096) (by omega) (by omega))

/-! ## The system call -/

/-- A call that is not rejected, when the string ends. -/
theorem writeString_spec (h : StringLength mem buff n) (len : ℤ) :
    (writeString mem buff len).result = some (if len > n then (n : ℤ) else len).toNat ∧
      ∀ a, a ∈ (writeString mem buff len).reads ↔ ∃ i ≤ n, (buff + i) % 2^64 = a := by
  have hsome : strlen mem buff = some n := strlen_eq_some.mpr h
  unfold writeString
  rw [hsome]
  refine ⟨rfl, fun a => ?_⟩
  dsimp only
  rw [List.mem_append, List.mem_append, mem_addresses, mem_addresses]
  constructor
  · rintro ((⟨i, hi, ha⟩ | ha) | ⟨i, hi, ha⟩)
    · exact ⟨i, by omega, ha⟩
    · split_ifs at ha
      · obtain ⟨i, hi, ha⟩ := mem_addresses.mp ha
        exact ⟨i, by omega, ha⟩
      · simp at ha
    · -- The loop prints no more than the string.
      refine ⟨i, ?_, ha⟩
      split_ifs at hi <;> omega
  · rintro ⟨i, hi, ha⟩
    exact Or.inl (Or.inl ⟨i, by omega, ha⟩)

/-- `strlen` reads the first byte in any case. -/
theorem first_read (mem : UserMemory) (buff : ℕ) (len : ℤ) :
    buff % 2^64 ∈ (writeString mem buff len).reads := by
  have hfirst : ∀ n, 0 < n → buff % 2^64 ∈ addresses buff n := fun n hn =>
    mem_addresses.mpr ⟨0, hn, rfl⟩
  unfold writeString
  cases strlen mem buff with
  | none =>
    dsimp only
    exact hfirst _ (Nat.two_pow_pos 64)
  | some n =>
    dsimp only
    exact List.mem_append_left _ (List.mem_append_left _ (hfirst _ (Nat.succ_pos n)))

/-- A call that is not rejected touches only mapped memory when its string is mapped. -/
theorem writeSafe_iff_stringMapped (hrej : ¬WriteRejected k param1 param2) :
    WriteSafe k mem param1 param2 ↔ StringMapped k mem param1 := by
  obtain ⟨hpage, hlen⟩ := not_or.mp hrej
  have hbuff : k.PagePresent param1 := not_not.mp hpage
  unfold WriteSafe
  rw [write_of_not_rejected hrej]
  constructor
  · rintro (⟨-, hnil⟩ | ⟨hreads, n, len, hn, -⟩)
    · have hfirst := first_read mem param1 (toInt param2)
      rw [hnil] at hfirst
      exact absurd hfirst List.not_mem_nil
    · refine ⟨n, hn, (stringMapped_iff hbuff).mp fun i hi => ?_⟩
      exact hreads _ (((writeString_spec hn _).2 _).mpr ⟨i, hi, rfl⟩)
  · rintro ⟨n, hn, hpages⟩
    obtain ⟨hresult, hreads⟩ := writeString_spec hn (toInt param2)
    refine Or.inr ⟨fun a ha => ?_, n, (toInt param2).toNat, hn, by omega, by omega, by omega, ?_⟩
    · obtain ⟨i, hi, rfl⟩ := (hreads a).mp ha
      exact (stringMapped_iff hbuff).mpr hpages i hi
    · rw [hresult, Option.some.injEq]
      split_ifs <;> omega

/-- A call of `SYSCALL_WRITE` touches only mapped memory if and only if it is rejected, or the
string at the buffer ends and every page that begins inside it, up to its NUL, is present. -/
theorem write_safe_iff (k : Kernel) (mem : UserMemory) (param1 param2 : ℕ) :
    WriteSafe k mem param1 param2 ↔ WriteRejected k param1 param2 ∨ StringMapped k mem param1 := by
  by_cases hrej : WriteRejected k param1 param2
  · refine iff_of_true (Or.inl ?_) (Or.inl hrej)
    rw [write_of_rejected hrej]
    exact ⟨rfl, rfl⟩
  · rw [or_iff_right hrej]
    exact writeSafe_iff_stringMapped hrej

/-- A memory with a NUL at the start of the second page of the data segment. -/
def nulBehind : UserMemory := fun a => if a = 0x180001000 then 0 else 97

/-- A string of one byte at the end of the only page that is present. Its NUL is read from a page
that is not present. -/
theorem write_not_safe : ¬WriteSafe onePage nulBehind 0x180000FFF 1 := by
  have hrej : ¬WriteRejected onePage 0x180000FFF 1 := by
    unfold WriteRejected Kernel.PagePresent
    decide
  have hstring : StringLength nulBehind 0x180000FFF 1 := by
    refine ⟨by decide, fun i hi => ?_⟩
    obtain rfl : i = 0 := by omega
    decide
  rw [writeSafe_iff_stringMapped hrej]
  rintro ⟨n, hn, hpages⟩
  obtain rfl : n = 1 := Option.some.inj ((strlen_eq_some.mpr hn).symm.trans
    (strlen_eq_some.mpr hstring))
  refine hpages 0x180001 (by decide) (by decide) ?_
  decide

end GemOS.Paging
