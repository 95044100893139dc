import GemOS.Lib.X86
import Mathlib.Analysis.Real.Sqrt
import Mathlib.Data.Nat.Prime.Basic

/-!
# The prime test

The assembly routine `isPrime` of `src/HW1/prime.s`, called by a C program and itself calling
`find_square_root`. It should try all divisors up to the square root, but the block at `.cont` does
not jump back to the loop condition, and the one before `.loop` falls through into it: on every path
the argument is divided by 2 once (`returns_isPrime`), whatever the square root is. So the result is
right for the numbers of `isPrime_decides_iff`.

The code is executed from its end: `returns_end`, `returns_test`, `returns_loop`, `returns_call`,
and `returns_entry` are about the rest of the program from one of its lines on. `Frame` is what they
know of the memory.
-/

namespace GemOS.HW1

open X86

/-- The labels of `prime.s`. -/
inductive Label where
  | isPrime | loop | cont | end'
  deriving DecidableEq

/-- The C function that `prime.s` calls. -/
inductive Callee where
  | findSquareRoot

/-- `prime.s`. -/
def primeS : List (Line Label Callee) := [
  .label .isPrime,
  .instr (.pushq .rbp),
  .instr (.movq .rsp .rbp),
  .instr (.subq 32 .rsp),
  .instr (.movl (.reg .rdi) (.mem (-20) .rbp)),
  .instr (.movl (.mem (-20) .rbp) (.reg .rax)),
  .instr (.movl (.reg .rax) (.reg .rdi)),
  .instr (.call .findSquareRoot),
  .instr (.movl (.reg .rax) (.mem (-4) .rbp)),
  .instr (.movl (.imm 2) (.mem (-8) .rbp)),
  .instr (.movl (.mem (-8) .rbp) (.reg .rax)),
  .instr (.cmpl (.mem (-4) .rbp) (.reg .rax)),
  .instr (.jle .loop),
  .instr (.movl (.imm 1) (.reg .rax)),
  .label .loop,
  .instr (.movl (.mem (-20) .rbp) (.reg .rax)),
  .instr .cltd,
  .instr (.idivl (.mem (-8) .rbp)),
  .instr (.movl (.reg .rdx) (.reg .rax)),
  .instr (.testl (.reg .rax) (.reg .rax)),
  .instr (.jne .cont),
  .instr (.movl (.imm 0) (.reg .rax)),
  .instr (.jmp .end'),
  .label .cont,
  .instr (.addl (.imm 1) (.mem (-8) .rbp)),
  .label .end',
  .instr .leave,
  .instr .ret]

variable {ext : Callee → Machine → Machine} {m : Machine} {b rbp ret : BitVec 64}
  {num v : BitVec 32} {Q : BitVec 64 → Machine → Prop}

/-- The stack frame of `isPrime` at `b`. -/
structure Frame (b : BitVec 64) (num : BitVec 32) (rbp ret : BitVec 64) (m : Machine) : Prop where
  /-- `rbp` points to it. -/
  base : m.reg .rbp = b
  /-- The argument. -/
  num : m.mem.load (b + BitVec.ofInt 64 (-20)) 32 = num
  /-- The `rbp` of the caller. -/
  rbp : m.mem.load b 64 = rbp
  /-- The return address. -/
  ret : m.mem.load (b + 8#64) 64 = ret

/-- How `isPrime` goes back to its caller, with a value in `eax`. -/
structure Back (b rbp ret : BitVec 64) (eax : BitVec 32) (a : BitVec 64) (m' : Machine) :
    Prop where
  /-- It goes to the return address. -/
  address : a = ret
  /-- The result. -/
  eax : m'.read (.reg .rax) = eax
  /-- The `rbp` of the caller. -/
  rbp : m'.reg .rbp = rbp
  /-- The frame and the return address are popped. -/
  rsp : m'.reg .rsp = b + 16#64

/-- The memory of a new frame: the argument is stored below the `rbp` of the caller. -/
theorem load_frame (mem : Mem) (b rbp : BitVec 64) (num : BitVec 32) :
    ((mem.store b rbp).store (b + BitVec.ofInt 64 (-20)) num).load (b + BitVec.ofInt 64 (-20)) 32 =
        num ∧
      ((mem.store b rbp).store (b + BitVec.ofInt 64 (-20)) num).load b 64 = rbp ∧
      ((mem.store b rbp).store (b + BitVec.ofInt 64 (-20)) num).load (b + 8#64) 64 =
        mem.load (b + 8#64) 64 := by
  refine ⟨Mem.load_store (by decide) num, ?_, ?_⟩
  · rw [Mem.load_store_of_disjoint, Mem.load_store (by decide)] <;> simp
  · rw [Mem.load_store_of_disjoint, Mem.load_store_of_disjoint] <;> simp

/-- Up to the call. -/
theorem returns_entry (h : ∀ m₁,
      Frame (m.reg .rsp - 8#64) (m.read (.reg .rdi)) (m.reg .rbp) m.top m₁ →
      m₁.reg .rsp = m.reg .rsp - 40#64 → Returns primeS ext (primeS.drop 7) m₁ Q) :
    Returns primeS ext primeS m Q := by
  obtain ⟨hnum, hrbp, hret⟩ :=
    load_frame m.mem (m.reg .rsp - 8#64) (m.reg .rbp) (m.read (.reg .rdi))
  rw [BitVec.sub_add_cancel] at hret
  apply Returns.label
  apply Returns.line rfl
  apply Returns.line rfl
  apply Returns.line rfl
  apply Returns.line rfl
  apply Returns.line rfl
  apply Returns.line rfl
  refine h _ ⟨?_, hnum, hrbp, ?_⟩ ?_
  · simp
  · rw [BitVec.sub_add_cancel]
    exact hret
  · simp [BitVec.sub_eq_add_neg, BitVec.add_assoc]

/-- From `.end` on. -/
theorem returns_end (h : Frame b num rbp ret m) (hv : m.read (.reg .rax) = v) :
    Returns primeS ext (target .end' primeS) m (Back b rbp ret v) := by
  change Returns primeS ext [.instr .leave, .instr .ret] m _
  apply Returns.line rfl
  apply Returns.address rfl
  refine ⟨?_, ?_, ?_, ?_⟩
  · simp [Machine.top_eq, h.base, h.ret]
  · simpa using hv
  · simp [Machine.top_eq, h.base, h.rbp]
  · simp [h.base]
    bv_omega

/-- The frame is not in the registers other than `rbp`. -/
theorem Frame.congr {m' : Machine} (h : Frame b num rbp ret m) (hbase : m'.reg .rbp = m.reg .rbp)
    (hmem : m'.mem = m.mem) : Frame b num rbp ret m' :=
  ⟨hbase.trans h.base, by rw [hmem, h.num], by rw [hmem, h.rbp], by rw [hmem, h.ret]⟩

/-- A store to one of the two other locals. -/
theorem Frame.write {d : ℤ} (h : Frame b num rbp ret m) (hd : d = -4 ∨ d = -8) (v : BitVec 32) :
    Frame b num rbp ret (m.write (.mem d .rbp) v) := by
  refine ⟨h.base, ?_, ?_, ?_⟩ <;>
    rw [Machine.write_mem_mem, h.base, Mem.load_store_of_disjoint]
  · exact h.num
  · rcases hd with rfl | rfl <;> simp
  · rcases hd with rfl | rfl <;> simp
  · exact h.rbp
  · rcases hd with rfl | rfl <;> simp
  · rcases hd with rfl | rfl <;> simp
  · exact h.ret
  · rcases hd with rfl | rfl <;> simp
  · rcases hd with rfl | rfl <;> simp

/-- From the test of the remainder on. -/
theorem returns_test (h : Frame b num rbp ret m) (hv : m.read (.reg .rax) = v) :
    Returns primeS ext (primeS.drop 19) m (Back b rbp ret v) := by
  simp only [primeS, List.drop_succ_cons, List.drop_zero]
  apply Returns.line rfl
  refine Returns.jne (fun hz => ?_) (fun hz => ?_)
  · have h0 : v = 0 := by simpa [← hv] using hz
    apply Returns.line rfl
    apply Returns.goto rfl
    exact returns_end (h.congr rfl rfl) (by simp [h0])
  · apply Returns.line rfl
    apply Returns.label
    exact returns_end ((h.write (Or.inr rfl) _).congr rfl rfl) (by simpa using hv)

/-- From `.loop` on. -/
theorem returns_loop (h : Frame b num rbp ret m) (htwo : m.read (.mem (-8) .rbp) = 2) :
    Returns primeS ext (target .loop primeS) m
      (Back b rbp ret (BitVec.ofInt 32 (num.toInt.tmod 2))) := by
  change Returns primeS ext (primeS.drop 15) m _
  simp only [primeS, List.drop_succ_cons, List.drop_zero]
  apply Returns.line rfl
  apply Returns.line rfl
  refine Returns.line (exec_idivl (x := num) (d := 2) ?_ ?_ ?_ ?_) ?_
  · simp [h.base, ← h.num]
  · simp [h.base, ← h.num]
  · simpa using htwo
  · decide
  apply Returns.line rfl
  refine returns_test (h.congr ?_ rfl) ?_
  · simp
  · simp

/-- What `isPrime` relies on when it calls `find`: the callee returns with `rbp` as it was, and has
not written to the stack of its caller, which are the 48 bytes from `rsp` on. -/
structure KeepsStack (find : Machine → Machine) : Prop where
  /-- `rbp`. -/
  rbp : ∀ m, (find m).reg .rbp = m.reg .rbp
  /-- The stack. -/
  stack : ∀ m, ∀ i < 48,
    (find m).mem (m.reg .rsp + BitVec.ofNat 64 i) = m.mem (m.reg .rsp + BitVec.ofNat 64 i)

/-- The callee keeps the frame. -/
theorem Frame.call {find : Machine → Machine} (hfind : KeepsStack find) (h : Frame b num rbp ret m)
    (hrsp : m.reg .rsp = b - 32#64) : Frame b num rbp ret (find m) := by
  have hload : ∀ k w, 8 * k + w ≤ 8 * 48 →
      (find m).mem.load (m.reg .rsp + BitVec.ofNat 64 k) w =
        m.mem.load (m.reg .rsp + BitVec.ofNat 64 k) w := by
    refine fun k w hkw => Mem.load_congr fun i hi => ?_
    rw [BitVec.add_assoc, ← BitVec.ofNat_add]
    exact hfind.stack m (k + i) (by omega)
  have hnum : b + BitVec.ofInt 64 (-20) = m.reg .rsp + BitVec.ofNat 64 12 := by
    rw [hrsp]
    simp [BitVec.sub_eq_add_neg, BitVec.add_assoc]
  have hbase : b = m.reg .rsp + BitVec.ofNat 64 32 := by
    rw [hrsp]
    bv_omega
  have hret : b + 8#64 = m.reg .rsp + BitVec.ofNat 64 40 := by
    rw [hrsp]
    bv_omega
  refine ⟨(hfind.rbp m).trans h.base, ?_, ?_, ?_⟩
  · rw [hnum, hload 12 32 (by omega), ← hnum, h.num]
  · rw [hbase, hload 32 64 (by omega), ← hbase, h.rbp]
  · rw [hret, hload 40 64 (by omega), ← hret, h.ret]

/-- From the call on. Whether the loop condition holds or not, the machine comes to `.loop`. -/
theorem returns_call (hfind : KeepsStack (ext .findSquareRoot)) (h : Frame b num rbp ret m)
    (hrsp : m.reg .rsp = b - 32#64) :
    Returns primeS ext (primeS.drop 7) m
      (Back b rbp ret (BitVec.ofInt 32 (num.toInt.tmod 2))) := by
  have hframe := ((h.call hfind hrsp).write (Or.inl rfl)
    ((ext .findSquareRoot m).read (.reg .rax))).write (Or.inr rfl) 2
  simp only [primeS, List.drop_succ_cons, List.drop_zero]
  apply Returns.line rfl
  apply Returns.line rfl
  apply Returns.line rfl
  apply Returns.line rfl
  apply Returns.line rfl
  refine Returns.jle (fun _ => ?_) (fun _ => ?_)
  · refine returns_loop (hframe.congr ?_ rfl) ?_
    · simp
    · simp [Mem.load_store]
  · apply Returns.line rfl
    apply Returns.label
    refine returns_loop (hframe.congr ?_ rfl) ?_
    · simp
    · simp [Mem.load_store]

/-- `isPrime` returns the remainder of its argument by 2, whatever `find_square_root` returns. -/
theorem returns_isPrime (hfind : KeepsStack (ext .findSquareRoot)) (m : Machine) :
    Returns primeS ext primeS m (Back (m.reg .rsp - 8#64) (m.reg .rbp) m.top
      (BitVec.ofInt 32 ((m.read (.reg .rdi)).toInt.tmod 2))) := by
  refine returns_entry fun m₁ hframe hrsp => returns_call hfind hframe ?_
  rw [hrsp]
  bv_omega

/-! ## Primality -/

/-- The functions that are linked to `prime.s`. -/
def linked (find : Machine → Machine) : Callee → Machine → Machine
  | .findSquareRoot => find

/-- The argument of a C function of one `int`. -/
def arg (m : Machine) : ℤ := (m.read (.reg .rdi)).toInt

/-- The result of a C function that returns an `int`. -/
def intResult (m : Machine) : ℤ := (m.read (.reg .rax)).toInt

/-- The result of a C function that returns a `bool`, in the lowest byte of `rax`. -/
def boolResult (m : Machine) : Bool := (m.reg .rax).setWidth 8 != 0

/-- The call of `isPrime` on `m` returns to its caller, which has its stack back, and the result
says whether `num` is prime. -/
def Decides (find : Machine → Machine) (m : Machine) (num : ℕ) : Prop :=
  Returns primeS (linked find) primeS m fun a m' => a = m.top ∧ m'.reg .rbp = m.reg .rbp ∧
    m'.reg .rsp = m.reg .rsp + 8#64 ∧ (boolResult m' = true ↔ num.Prime)

/-- `find_square_root` returns the square root of its argument, rounded up. -/
def FindsSquareRoot (find : Machine → Machine) : Prop :=
  ∀ m, 0 ≤ arg m → intResult (find m) = ⌈√(arg m : ℝ)⌉

/-- The remainder by 2, as a `bool`. -/
theorem boolResult_eq {m' : Machine} {num : ℕ}
    (h : m'.read (.reg .rax) = BitVec.ofInt 32 ((num : ℤ).tmod 2)) :
    boolResult m' = true ↔ Odd num := by
  have hbyte : (m'.reg .rax).setWidth 8 = (BitVec.ofInt 32 ((num : ℤ).tmod 2)).setWidth 8 := by
    rw [← h, Machine.read_reg, BitVec.setWidth_setWidth_of_le _ (by decide)]
  have hmod : (num : ℤ).tmod 2 = ((num % 2 : ℕ) : ℤ) := by
    rw [Int.natCast_mod, Int.tmod_eq_emod_of_nonneg (Int.natCast_nonneg num)]
    rfl
  rw [boolResult, hbyte, hmod, Nat.odd_iff]
  rcases Nat.mod_two_eq_zero_or_one num with hnum | hnum <;> rw [hnum] <;> decide

/-- The odd numbers are the primes, but for 2 and the products of odd numbers. -/
theorem odd_iff_prime_iff {n : ℕ} (hn : 2 ≤ n) : (Odd n ↔ n.Prime) ↔
    n ≠ 2 ∧ ¬∃ a b, 1 < a ∧ 1 < b ∧ Odd a ∧ Odd b ∧ n = a * b := by
  constructor
  · intro h
    refine ⟨?_, ?_⟩
    · rintro rfl
      exact absurd (h.mpr Nat.prime_two) (by decide)
    · rintro ⟨a, b, ha, hb, hoa, hob, rfl⟩
      exact Nat.not_prime_mul ha.ne' hb.ne' (h.mp (hoa.mul hob))
  · rintro ⟨h2, hprod⟩
    refine ⟨fun hodd => ?_, fun hprime => hprime.odd_of_ne_two h2⟩
    by_contra hnp
    obtain ⟨a, b, han, hbn, rfl⟩ := (Nat.not_prime_iff_exists_mul_eq hn).mp hnp
    obtain ⟨hoa, hob⟩ := Nat.odd_mul.mp hodd
    -- A factor that is 1 makes the other one the whole number.
    refine hprod ⟨a, b, ?_, ?_, hoa, hob, rfl⟩
    · by_contra ha
      obtain rfl : a = 1 := by have := hoa.pos; omega
      omega
    · by_contra hb
      obtain rfl : b = 1 := by have := hob.pos; omega
      omega

/-- `isPrime` decides primality exactly for the numbers that are not 2 and not a product of two odd
numbers. -/
theorem isPrime_decides_iff (find : Machine → Machine) (hfind : KeepsStack find) (m : Machine)
    (num : ℕ) (hnum : 2 ≤ num) (harg : arg m = num) :
    Decides find m num ↔
      num ≠ 2 ∧ ¬∃ a b, 1 < a ∧ 1 < b ∧ Odd a ∧ Odd b ∧ num = a * b := by
  have hreturns : Returns primeS (linked find) primeS m _ := returns_isPrime hfind m
  rw [show (m.read (.reg .rdi)).toInt = num from harg] at hreturns
  rw [← odd_iff_prime_iff hnum]
  constructor
  · intro h
    obtain ⟨a, m', -, hback, -, -, -, hprime⟩ := hreturns.and h
    rw [← hprime, boolResult_eq hback.eax]
  · intro h
    obtain ⟨a, m', hrun, hback⟩ := hreturns
    refine ⟨a, m', hrun, hback.address, hback.rbp, ?_, ?_⟩
    · rw [hback.rsp]
      bv_omega
    · rw [boolResult_eq hback.eax, h]

/-! ## Calls -/

/-- The square root, rounded up. -/
def ceilSqrt : ℕ → ℕ
  | 0 => 0
  | n + 1 => n.sqrt + 1

theorem ceilSqrt_eq (n : ℕ) : (ceilSqrt n : ℤ) = ⌈√(n : ℝ)⌉ := by
  symm
  rw [Int.ceil_eq_iff]
  cases n with
  | zero => simp [ceilSqrt]
  | succ n =>
    rw [ceilSqrt]
    push_cast
    constructor
    · rw [add_sub_cancel_right, Real.lt_sqrt (by positivity)]
      exact_mod_cast Nat.lt_succ_of_le (Nat.sqrt_le' n)
    · rw [Real.sqrt_le_left (by positivity)]
      exact_mod_cast Nat.succ_le_of_lt (Nat.lt_succ_sqrt' n)

theorem ceilSqrt_le (n : ℕ) : ceilSqrt n ≤ n := by
  cases n with
  | zero => exact le_refl 0
  | succ n => exact Nat.succ_le_succ n.sqrt_le_self

/-- A `find_square_root` that writes to `eax` only. -/
def findSquareRoot (m : Machine) : Machine :=
  m.write (.reg .rax) (BitVec.ofInt 32 (ceilSqrt (arg m).toNat))

theorem keepsStack_findSquareRoot : KeepsStack findSquareRoot :=
  ⟨fun m => by simp [findSquareRoot], fun m i _ => rfl⟩

theorem findsSquareRoot_findSquareRoot : FindsSquareRoot findSquareRoot := by
  intro m hpos
  obtain ⟨n, hn⟩ := Int.eq_ofNat_of_zero_le hpos
  have hlt : arg m < 2^31 := BitVec.toInt_lt
  have hle := ceilSqrt_le n
  have hread : (findSquareRoot m).read (.reg .rax) = BitVec.ofInt 32 (ceilSqrt n) := by
    simp [findSquareRoot, hn]
  rw [intResult, hread, BitVec.toInt_ofInt, Int.bmod_eq_of_le (by omega) (by omega), ceilSqrt_eq,
    hn, Int.cast_natCast]

/-- A call with the argument `n`. -/
def callWith (n : ℕ) : Machine where
  reg
    | .rdi => BitVec.ofNat 64 n
    | .rsp => 4096
    | _ => 0
  mem _ := 0
  zf := false
  sf := false
  of := false

/-- `isPrime` says that 7 is prime. -/
theorem isPrime_decides_seven : Decides findSquareRoot (callWith 7) 7 := by
  refine (isPrime_decides_iff findSquareRoot keepsStack_findSquareRoot (callWith 7) 7 (by decide)
    (by decide)).mpr ⟨by decide, ?_⟩
  rintro ⟨a, b, ha, hb, -, -, hab⟩
  exact Nat.not_prime_of_mul_eq hab.symm ha.ne' hb.ne' (by decide)

/-- `isPrime` says that 9 is prime. -/
theorem isPrime_not_decides_nine : KeepsStack findSquareRoot ∧ FindsSquareRoot findSquareRoot ∧
    arg (callWith 9) = 9 ∧ ¬Decides findSquareRoot (callWith 9) 9 := by
  refine ⟨keepsStack_findSquareRoot, findsSquareRoot_findSquareRoot, by decide, fun h => ?_⟩
  have hreturns : Returns primeS (linked findSquareRoot) primeS (callWith 9) _ :=
    returns_isPrime keepsStack_findSquareRoot (callWith 9)
  obtain ⟨a, m', -, hback, -, -, -, hprime⟩ := hreturns.and h
  have hodd : boolResult m' = true ↔ Odd 9 := boolResult_eq hback.eax
  exact absurd (hprime.mp (hodd.mpr (by decide))) (by decide)

end GemOS.HW1
