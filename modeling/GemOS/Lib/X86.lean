import Mathlib.Computability.StateTransition
import Mathlib.Data.BitVec

/-!
# x86-64 assembly

A subset of the instructions of x86-64, on a machine with registers, flags, and a memory of bytes.
The operands are in the order of the AT&T syntax, the destination last. The instructions and labels
of a program are a list of lines, and the machine is at a suffix of it. `call` leaves the program: a
parameter says what the machine looks like when the function has returned.

`step` is one step of the machine. `Returns` says that a program returns, and with what; there is a
rule for every kind of line, so that a proof executes the program line by line. What was stored is
read back by `Mem.load_store` and, at another place, by `Mem.load_store_of_disjoint`.
-/

namespace GemOS.X86

/-! ## Memory -/

/-- A memory of bytes. -/
abbrev Mem := BitVec 64 → BitVec 8

namespace Mem

variable {w w' : ℕ} {mem mem' : Mem} {a b : BitVec 64}

/-- The `n` bytes from `a` on, the least significant byte first. -/
def bytes (mem : Mem) (a : BitVec 64) : (n : ℕ) → BitVec (8 * n)
  | 0 => 0
  | n + 1 => bytes mem (a + 1) n ++ mem a

/-- The value of `w` bits in the bytes from `a` on. -/
def load (mem : Mem) (a : BitVec 64) (w : ℕ) : BitVec w :=
  (mem.bytes a ((w + 7) / 8)).setWidth w

/-- A store of `w` bits to the bytes from `a` on. -/
def store (mem : Mem) (a : BitVec 64) (v : BitVec w) : Mem := fun x =>
  if 8 * (x - a).toNat < w then v.extractLsb' (8 * (x - a).toNat) 8 else mem x

theorem getLsbD_bytes (mem : Mem) (a : BitVec 64) {n i : ℕ} (hi : i < 8 * n) :
    (mem.bytes a n).getLsbD i = (mem (a + BitVec.ofNat 64 (i / 8))).getLsbD (i % 8) := by
  induction n generalizing a i with
  | zero => omega
  | succ n ih =>
    rw [bytes, BitVec.getLsbD_append]
    split_ifs with hlt
    · rw [Nat.div_eq_of_lt hlt, Nat.mod_eq_of_lt hlt, BitVec.add_zero]
    · have hdiv : i / 8 = 1 + (i - 8) / 8 := by omega
      rw [ih (a + 1) (by omega), BitVec.add_assoc, hdiv, BitVec.ofNat_add]
      congr 1
      omega

theorem getLsbD_load (mem : Mem) (a : BitVec 64) {i : ℕ} (hi : i < w) :
    (mem.load a w).getLsbD i = (mem (a + BitVec.ofNat 64 (i / 8))).getLsbD (i % 8) := by
  rw [load, BitVec.getLsbD_setWidth, getLsbD_bytes mem a (by omega)]
  simp only [hi, decide_true, Bool.true_and]

/-- Equal bytes give equal values. -/
theorem load_congr
    (h : ∀ i, 8 * i < w → mem' (a + BitVec.ofNat 64 i) = mem (a + BitVec.ofNat 64 i)) :
    mem'.load a w = mem.load a w := by
  refine BitVec.eq_of_getLsbD_eq fun i hi => ?_
  rw [getLsbD_load _ _ hi, getLsbD_load _ _ hi, h (i / 8) (by omega)]

/-- A value is read back where it was stored. -/
theorem load_store (hw : w ≤ 2^64) (v : BitVec w) : (mem.store a v).load a w = v := by
  refine BitVec.eq_of_getLsbD_eq fun i hi => ?_
  have hback : (a + BitVec.ofNat 64 (i / 8) - a).toNat = i / 8 := by
    rw [BitVec.add_comm, BitVec.add_sub_cancel, BitVec.toNat_ofNat]
    omega
  rw [getLsbD_load _ _ hi, store, hback, if_pos (by omega),
    BitVec.getLsbD_extractLsb']
  simp only [Nat.mod_lt i (by decide : 8 > 0), decide_true, Bool.true_and, Nat.div_add_mod]

/-- A store changes no value that is stored elsewhere. -/
theorem load_store_of_disjoint (h : w ≤ 8 * (b - a).toNat)
    (h' : 8 * (b - a).toNat + w' ≤ 8 * 2^64) (v : BitVec w) :
    (mem.store a v).load b w' = mem.load b w' := by
  refine load_congr fun i hi => if_neg ?_
  have hoff : (b + BitVec.ofNat 64 i - a).toNat = (b - a).toNat + i := by
    have heq : b + BitVec.ofNat 64 i - a = (b - a) + BitVec.ofNat 64 i := by
      rw [BitVec.sub_eq_add_neg, BitVec.sub_eq_add_neg, BitVec.add_assoc, BitVec.add_assoc,
        BitVec.add_comm (BitVec.ofNat 64 i)]
    rw [heq, BitVec.toNat_add, BitVec.toNat_ofNat]
    omega
  omega

end Mem

/-! ## The machine -/

/-- The general-purpose registers. -/
inductive Reg where
  | rax | rbx | rcx | rdx | rsi | rdi | rbp | rsp | r8 | r9 | r10 | r11 | r12 | r13 | r14 | r15
  deriving DecidableEq

/-- The registers, the memory, and the flags. -/
structure Machine where
  /-- The general-purpose registers. -/
  reg : Reg → BitVec 64
  /-- The memory. -/
  mem : Mem
  /-- The last result was zero. -/
  zf : Bool
  /-- The last result was negative. -/
  sf : Bool
  /-- The last result had a signed overflow. -/
  of : Bool

/-- Where an instruction reads and writes 32 bits. -/
inductive Place where
  /-- The low half of a register. -/
  | reg (r : Reg)
  /-- `disp(base)`. -/
  | mem (disp : ℤ) (base : Reg)

/-- What an instruction reads. -/
inductive Operand where
  /-- `$n`. -/
  | imm (n : ℤ)
  /-- A register, or memory. -/
  | place (p : Place)

/-- The low half of a register. -/
abbrev Operand.reg (r : Reg) : Operand := .place (.reg r)

/-- `disp(base)`. -/
abbrev Operand.mem (disp : ℤ) (base : Reg) : Operand := .place (.mem disp base)

namespace Machine

/-- A write of a whole register. -/
def set (m : Machine) (r : Reg) (v : BitVec 64) : Machine :=
  { m with reg := Function.update m.reg r v }

/-- The address `disp(base)`. -/
def addr (m : Machine) (disp : ℤ) (base : Reg) : BitVec 64 := m.reg base + BitVec.ofInt 64 disp

/-- A read of 32 bits. -/
def read (m : Machine) : Place → BitVec 32
  | .reg r => (m.reg r).setWidth 32
  | .mem disp base => m.mem.load (m.addr disp base) 32

/-- A write of 32 bits. In a register, the upper half is cleared. -/
def write (m : Machine) : Place → BitVec 32 → Machine
  | .reg r, v => m.set r (v.setWidth 64)
  | .mem disp base, v => { m with mem := m.mem.store (m.addr disp base) v }

/-- The value of an operand. -/
def value (m : Machine) : Operand → BitVec 32
  | .imm n => BitVec.ofInt 32 n
  | .place p => m.read p

/-- The flags after a result `v` with the overflow `o`. -/
def flags {w : ℕ} (m : Machine) (v : BitVec w) (o : Bool) : Machine :=
  { m with zf := v == 0, sf := v.msb, of := o }

/-- A push to the stack. -/
def push (m : Machine) (v : BitVec 64) : Machine :=
  { m.set .rsp (m.reg .rsp - 8#64) with mem := m.mem.store (m.reg .rsp - 8#64) v }

/-- The top of the stack. -/
def top (m : Machine) : BitVec 64 := m.mem.load (m.reg .rsp) 64

/-- The top of the stack is dropped. -/
def drop (m : Machine) : Machine := m.set .rsp (m.reg .rsp + 8#64)

/-- The signed division of `edx:eax` by `d`, with the quotient in `eax` and the remainder in `edx`.
A division by zero and a quotient that does not fit are exceptions. The flags are undefined after
it. -/
def divide (m : Machine) (d : BitVec 32) : Option Machine :=
  let n := (m.read (.reg .rdx) ++ m.read (.reg .rax)).toInt
  if d.toInt = 0 ∨ n.tdiv d.toInt < -2^31 ∨ 2^31 ≤ n.tdiv d.toInt then none
  else some ((m.write (.reg .rax) (BitVec.ofInt 32 (n.tdiv d.toInt))).write (.reg .rdx)
    (BitVec.ofInt 32 (n.tmod d.toInt)))

section Lemmas

variable {w : ℕ} (m : Machine) (r s : Reg) (disp : ℤ)

@[simp] theorem set_reg (v : BitVec 64) : (m.set r v).reg s = if s = r then v else m.reg s :=
  Function.update_apply m.reg r v s

@[simp] theorem set_mem (v : BitVec 64) : (m.set r v).mem = m.mem := rfl

@[simp] theorem read_reg : m.read (.reg r) = (m.reg r).setWidth 32 := rfl

@[simp] theorem read_mem :
    m.read (.mem disp r) = m.mem.load (m.reg r + BitVec.ofInt 64 disp) 32 := rfl

@[simp] theorem value_imm (n : ℤ) : m.value (.imm n) = BitVec.ofInt 32 n := rfl

@[simp] theorem value_place (p : Place) : m.value (.place p) = m.read p := rfl

@[simp] theorem write_reg_reg (v : BitVec 32) :
    (m.write (.reg r) v).reg s = if s = r then v.setWidth 64 else m.reg s :=
  m.set_reg r s _

@[simp] theorem write_reg_mem (v : BitVec 32) : (m.write (.reg r) v).mem = m.mem := rfl

@[simp] theorem write_mem_reg (v : BitVec 32) : (m.write (.mem disp r) v).reg = m.reg := rfl

@[simp] theorem write_mem_mem (v : BitVec 32) :
    (m.write (.mem disp r) v).mem = m.mem.store (m.reg r + BitVec.ofInt 64 disp) v := rfl

@[simp] theorem flags_reg (v : BitVec w) (o : Bool) : (m.flags v o).reg = m.reg := rfl

@[simp] theorem flags_mem (v : BitVec w) (o : Bool) : (m.flags v o).mem = m.mem := rfl

@[simp] theorem flags_zf (v : BitVec w) (o : Bool) : (m.flags v o).zf = (v == 0) := rfl

@[simp] theorem push_reg (v : BitVec 64) :
    (m.push v).reg s = if s = .rsp then m.reg .rsp - 8#64 else m.reg s :=
  m.set_reg .rsp s _

@[simp] theorem drop_reg : m.drop.reg s = if s = .rsp then m.reg .rsp + 8#64 else m.reg s :=
  m.set_reg .rsp s _

@[simp] theorem drop_mem : m.drop.mem = m.mem := rfl

theorem top_eq : m.top = m.mem.load (m.reg .rsp) 64 := rfl

/-- A number with its sign above it is the same number. -/
theorem toInt_sign_append (x : BitVec 32) : (x.sshiftRight 31 ++ x).toInt = x.toInt := by
  rw [BitVec.toInt_append, if_neg (by decide), BitVec.toInt_sshiftRight, Int.shiftRight_eq_div_pow,
    BitVec.toInt_eq_toNat_cond]
  have hx := x.isLt
  split_ifs <;> omega

/-- The division of a number, with its sign in `edx`, by a positive number is no exception. -/
theorem divide_eq_some {x d : BitVec 32} (hx : m.read (.reg .rax) = x)
    (hsign : m.read (.reg .rdx) = x.sshiftRight 31) (hd : 0 < d.toInt) :
    m.divide d = some ((m.write (.reg .rax) (BitVec.ofInt 32 (x.toInt.tdiv d.toInt))).write
      (.reg .rdx) (BitVec.ofInt 32 (x.toInt.tmod d.toInt))) := by
  unfold divide
  rw [hx, hsign, toInt_sign_append]
  refine if_neg ?_
  have hlt : x.toInt < 2^31 := BitVec.toInt_lt
  have hle : -2^31 ≤ x.toInt := BitVec.le_toInt x
  -- The quotient is between 0 and the number.
  rcases le_total 0 x.toInt with hpos | hneg
  · have h0 := Int.tdiv_nonneg hpos hd.le
    have h1 := Int.tdiv_le_self d.toInt hpos
    omega
  · have h0 := Int.tdiv_nonneg (neg_nonneg.mpr hneg) hd.le
    have h1 := Int.tdiv_le_self d.toInt (neg_nonneg.mpr hneg)
    rw [Int.neg_tdiv] at h0 h1
    omega

end Lemmas

end Machine

/-! ## Instructions -/

variable {L F : Type}

/-- The instructions, with labels `L`, and calls of functions `F`. -/
inductive Instr (L F : Type) where
  | pushq (r : Reg)
  | movq (src dst : Reg)
  | subq (n : ℤ) (dst : Reg)
  | movl (src : Operand) (dst : Place)
  | addl (src : Operand) (dst : Place)
  | cmpl (src : Operand) (dst : Place)
  | testl (src dst : Place)
  /-- Extend the sign of `eax` to `edx`. -/
  | cltd
  | idivl (src : Place)
  | call (f : F)
  | jle (l : L)
  | jne (l : L)
  | jmp (l : L)
  | leave
  | ret

/-- Where the machine goes after an instruction. -/
inductive Next (L : Type) where
  /-- To the next line. -/
  | line
  /-- To a label. -/
  | label (l : L)
  /-- Back to the caller. -/
  | address (a : BitVec 64)

/-- An instruction, `none` when it is an exception. The machine is `ext f m` when the function `f`,
called on `m`, has returned. -/
def exec (ext : F → Machine → Machine) (m : Machine) : Instr L F → Option (Next L × Machine)
  | .pushq r => some (.line, m.push (m.reg r))
  | .movq src dst => some (.line, m.set dst (m.reg src))
  | .subq n dst =>
    let v := m.reg dst - BitVec.ofInt 64 n
    some (.line, (m.set dst v).flags v (BitVec.ssubOverflow (m.reg dst) (BitVec.ofInt 64 n)))
  | .movl src dst => some (.line, m.write dst (m.value src))
  | .addl src dst =>
    let v := m.read dst + m.value src
    some (.line, (m.write dst v).flags v (BitVec.saddOverflow (m.read dst) (m.value src)))
  | .cmpl src dst =>
    some (.line, m.flags (m.read dst - m.value src)
      (BitVec.ssubOverflow (m.read dst) (m.value src)))
  | .testl src dst => some (.line, m.flags (m.read dst &&& m.read src) false)
  | .cltd => some (.line, m.write (.reg .rdx) ((m.read (.reg .rax)).sshiftRight 31))
  | .idivl src => (m.divide (m.read src)).map fun m => (.line, m)
  | .call f => some (.line, ext f m)
  | .jle l => some (if m.zf || (m.sf != m.of) then .label l else .line, m)
  | .jne l => some (if m.zf then .line else .label l, m)
  | .jmp l => some (.label l, m)
  | .leave =>
    let m := m.set .rsp (m.reg .rbp)
    some (.line, m.drop.set .rbp m.top)
  | .ret => some (.address m.top, m.drop)

/-- A division of `eax`, with its sign in `edx`, by a positive number. -/
theorem exec_idivl {ext : F → Machine → Machine} {m : Machine} {src : Place} {x d : BitVec 32}
    (hx : m.read (.reg .rax) = x) (hsign : m.read (.reg .rdx) = x.sshiftRight 31)
    (hd : m.read src = d) (hpos : 0 < d.toInt) :
    exec ext m (.idivl src : Instr L F) = some (.line,
      (m.write (.reg .rax) (BitVec.ofInt 32 (x.toInt.tdiv d.toInt))).write (.reg .rdx)
        (BitVec.ofInt 32 (x.toInt.tmod d.toInt))) := by
  rw [exec, hd, m.divide_eq_some hx hsign hpos, Option.map_some]

/-! ## Programs -/

/-- A line of a program. -/
inductive Line (L F : Type) where
  | label (l : L)
  | instr (i : Instr L F)

/-- The lines behind a label. -/
def target [DecidableEq L] (l : L) : List (Line L F) → List (Line L F)
  | [] => []
  | .label l' :: code => if l' = l then code else target l code
  | .instr _ :: code => target l code

/-- Where the machine is. -/
inductive Config (L F : Type) where
  /-- Before a line of the program, with those behind it. -/
  | running (code : List (Line L F)) (m : Machine)
  /-- Back at the address `a` of the caller. -/
  | returned (a : BitVec 64) (m : Machine)

/-- A step of the machine. There is none after an exception, behind the last line, and when the
program has returned. -/
def step [DecidableEq L] (prog : List (Line L F)) (ext : F → Machine → Machine) :
    Config L F → Option (Config L F)
  | .running [] _ => none
  | .running (.label _ :: code) m => some (.running code m)
  | .running (.instr i :: code) m => (exec ext m i).map fun
    | (.line, m) => .running code m
    | (.label l, m) => .running (target l prog) m
    | (.address a, m) => .returned a m
  | .returned _ _ => none

/-! ## Runs that return -/

open StateTransition

variable [DecidableEq L] {prog code : List (Line L F)} {ext : F → Machine → Machine}
  {i : Instr L F} {l : L} {a : BitVec 64} {m m' : Machine} {Q Q' : BitVec 64 → Machine → Prop}

/-- From the lines `code`, the program `prog` returns to an address and with a machine that meet
`Q`. -/
def Returns (prog : List (Line L F)) (ext : F → Machine → Machine) (code : List (Line L F))
    (m : Machine) (Q : BitVec 64 → Machine → Prop) : Prop :=
  ∃ a m', Reaches (step prog ext) (.running code m) (.returned a m') ∧ Q a m'

namespace Returns

/-- A step of the machine. -/
theorem of_step {code' : List (Line L F)}
    (hs : step prog ext (.running code m) = some (.running code' m'))
    (h : Returns prog ext code' m' Q) : Returns prog ext code m Q := by
  obtain ⟨a, m', hr, hq⟩ := h
  exact ⟨a, m', hr.head hs, hq⟩

/-- The machine passes a label. -/
theorem label (h : Returns prog ext code m Q) : Returns prog ext (.label l :: code) m Q :=
  of_step rfl h

/-- After an instruction, the machine is at the next line. -/
theorem line (hi : exec ext m i = some (.line, m')) (h : Returns prog ext code m' Q) :
    Returns prog ext (.instr i :: code) m Q :=
  of_step (by simp [step, hi]) h

/-- After an instruction, the machine is at a label. -/
theorem goto (hi : exec ext m i = some (.label l, m'))
    (h : Returns prog ext (target l prog) m' Q) : Returns prog ext (.instr i :: code) m Q :=
  of_step (by simp [step, hi]) h

/-- A jump when the last comparison was less or equal. -/
theorem jle (hgoto : (m.zf || (m.sf != m.of)) = true → Returns prog ext (target l prog) m Q)
    (hline : (m.zf || (m.sf != m.of)) = false → Returns prog ext code m Q) :
    Returns prog ext (.instr (.jle l) :: code) m Q := by
  cases hle : (m.zf || (m.sf != m.of)) with
  | true => exact goto (by rw [exec, hle, if_pos rfl]) (hgoto hle)
  | false => exact line (by rw [exec, hle, if_neg (by simp)]) (hline hle)

/-- A jump when the last result was not zero. -/
theorem jne (hline : m.zf = true → Returns prog ext code m Q)
    (hgoto : m.zf = false → Returns prog ext (target l prog) m Q) :
    Returns prog ext (.instr (.jne l) :: code) m Q := by
  cases hz : m.zf with
  | true => exact line (by rw [exec, hz, if_pos rfl]) (hline hz)
  | false => exact goto (by rw [exec, hz, if_neg (by simp)]) (hgoto hz)

/-- After an instruction, the machine is back. -/
theorem address (hi : exec ext m i = some (.address a, m')) (hq : Q a m') :
    Returns prog ext (.instr i :: code) m Q :=
  ⟨a, m', .single (by simp [step, hi]), hq⟩

/-- A program returns in one way only. -/
theorem and (h : Returns prog ext code m Q) (h' : Returns prog ext code m Q') :
    Returns prog ext code m fun a m' => Q a m' ∧ Q' a m' := by
  obtain ⟨a, m₁, hr, hq⟩ := h
  obtain ⟨a', m₂, hr', hq'⟩ := h'
  have hm : Config.returned a m₁ ∈ eval (step prog ext) (.running code m) := mem_eval.mpr ⟨hr, rfl⟩
  have hm' : Config.returned a' m₂ ∈ eval (step prog ext) (.running code m) :=
    mem_eval.mpr ⟨hr', rfl⟩
  obtain ⟨rfl, rfl⟩ : a = a' ∧ m₁ = m₂ := by simpa using Part.mem_unique hm hm'
  exact ⟨a, m₁, hr, hq, hq'⟩

end Returns

end GemOS.X86
