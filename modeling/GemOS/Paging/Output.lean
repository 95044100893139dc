import GemOS.Paging.Processes
import GemOS.Paging.Write

/-!
# What the processes print

`SYSCALL_WRITE` reads the memory of its process through the page table that page faults and shrinks
have left, at a time when other processes have run as well. `run_prints`: a string that the process
has stored byte by byte, and no shrink gave back, is what a write prints.
-/

namespace GemOS.Paging

open Ledger

/-- What a process does, with the system calls that do not return or that print. -/
inductive IoOp where
  /-- A load, a store, or a system call that moves the bound of a segment. -/
  | user (op : UserOp)
  /-- `SYSCALL_WRITE`. -/
  | write (param1 param2 : ℕ)
  /-- `SYSCALL_EXIT`. -/
  | exit

/-- How it ends. -/
inductive IoEnd where
  /-- As in `systemStep`. -/
  | user (o : Option UserEnd)
  /-- What the write printed and returned. -/
  | write (e : WriteEnd)
  /-- The process has exited. -/
  | exit

section

variable {ι : Type*}

/-- The memory of a process as the kernel reads it. Nothing is said of what is not mapped. -/
def System.memory (s : System ι) (i : ι) : UserMemory := fun a => (s.view (i, a)).getD 0

/-- `SYSCALL_WRITE` of the process `i`. -/
def System.write (s : System ι) (i : ι) (param1 param2 : ℕ) : WriteEnd :=
  (s.process i).kernel.write (s.memory i) param1 param2

variable [DecidableEq ι]

/-- A step of a process. -/
def ioStep (M : MapFlags) (s : System ι) : ι × IoOp → Option (IoEnd × System ι)
  | (i, .user op) => (systemStep M s (i, op)).map fun (o, s) => (.user o, s)
  | (i, .write param1 param2) =>
    if s.alive i then some (.write (s.write i param1 param2), s) else none
  | (i, .exit) => if s.alive i then some (.exit, s.exit i) else none

/-- A step is legal, and a write returns and touches only mapped memory. -/
def IoLegal (A : ι → Finset ℕ) (s : System ι) : ι × IoOp → Prop
  | (i, .user op) => SystemLegal A s (i, op)
  | (i, .write param1 param2) => (s.write i param1 param2).result ≠ none ∧
    ∀ a ∈ (s.write i param1 param2).reads, (s.process i).kernel.PagePresent a
  | (_, .exit) => True

/-- What a step does to the memory of a process. -/
def ioTouch : (ι × IoOp) × IoEnd → ι × ℕ → Run.Touch UInt8
  | ((i, .user op), .user o), x => systemTouch ((i, op), o) x
  | ((i, .exit), _), (j, _) => if j = i then .lose else .keep
  | _, _ => .keep

end

/-- What a write prints, where `known` are the bytes that are known of the memory: a string without
NUL that is known to be at the buffer, followed by its NUL, is printed up to the given length. -/
def Prints (known : ℕ → Option UInt8) (buff len : ℕ) (e : WriteEnd) : Prop :=
  ∀ str : List UInt8, (∀ b ∈ str, b ≠ 0) → buff ≠ 0 → buff + str.length < 2^48 →
    1 ≤ toInt len → toInt len ≤ 1024 →
      (∀ j v, (str ++ [0])[j]? = some v → known (buff + j) = some v) →
        e.result = some (min (toInt len).toNat str.length) ∧
          e.printed = str.take (toInt len).toNat ++ [10]

variable {M : MapFlags} {k : Kernel} {mem : UserMemory} {buff len : ℕ} {str : List UInt8}

/-! ## One write -/

/-- The bytes of a string, with its NUL, are in the memory. -/
def Holds (mem : UserMemory) (buff : ℕ) (str : List UInt8) : Prop :=
  ∀ j v, (str ++ [0])[j]? = some v → mem ((buff + j) % 2^64) = v

theorem Holds.stringLength (h : Holds mem buff str) (hstr : ∀ b ∈ str, b ≠ 0) :
    StringLength mem buff str.length := by
  refine ⟨h _ 0 (by simp), fun j hj => ?_⟩
  have hbyte : (str ++ [0])[j]? = some str[j] := by
    rw [List.getElem?_append_left hj, List.getElem?_eq_getElem hj]
  rw [h j _ hbyte]
  exact hstr _ (List.getElem_mem hj)

theorem Holds.map_addresses (h : Holds mem buff str) {n : ℕ} (hn : n ≤ str.length) :
    (addresses buff n).map mem = str.take n := by
  refine List.ext_getElem (by simpa [addresses] using hn) fun j hj hj' => ?_
  have hlt : j < str.length := by
    rw [List.length_take] at hj'
    omega
  have hbyte : (str ++ [0])[j]? = some str[j] := by
    rw [List.getElem?_append_left hlt, List.getElem?_eq_getElem hlt]
  simpa [addresses] using h j _ hbyte

/-- Where less is known, less is said. -/
theorem Prints.mono {known known' : ℕ → Option UInt8} {e : WriteEnd} (h : Prints known' buff len e)
    (hknown : ∀ a < 2^48, ∀ v, known a = some v → known' a = some v) :
    Prints known buff len e := by
  intro str hstr hbuff hlast hlen hlen' hstored
  refine h str hstr hbuff hlast hlen hlen' fun j v hj => hknown _ ?_ v (hstored j v hj)
  have hlt : j < (str ++ [0]).length := (List.getElem?_eq_some_iff.mp hj).1
  rw [List.length_append, List.length_singleton] at hlt
  omega

/-- A string that is in the memory is printed. -/
theorem write_prints (h : Holds mem buff str) (hstr : ∀ b ∈ str, b ≠ 0) (hbuff : buff ≠ 0)
    (hpage : k.PagePresent buff) (hlen : 1 ≤ toInt len) (hlen' : toInt len ≤ 1024) :
    (k.write mem buff len).result = some (min (toInt len).toNat str.length) ∧
      (k.write mem buff len).printed = str.take (toInt len).toNat ++ [10] := by
  have hrej : ¬WriteRejected k buff len := by
    rintro (hno | hlow | hhigh | hzero)
    · exact hno hpage
    · omega
    · omega
    · exact hbuff hzero
  have hstrlen : strlen mem buff = some str.length := strlen_eq_some.mpr (h.stringLength hstr)
  rw [write_of_not_rejected hrej, writeString, hstrlen]
  dsimp only
  have hmin : (if toInt len > str.length then (str.length : ℤ) else toInt len).toNat =
      min (toInt len).toNat str.length := by
    split_ifs <;> omega
  rw [hmin]
  refine ⟨rfl, congrArg (· ++ [10]) ?_⟩
  rw [h.map_addresses (Nat.min_le_right _ _), ← List.take_eq_take_min]

/-! ## The steps -/

section

variable {ι : Type*} {A : ι → Finset ℕ} {s s' : System ι} {i : ι} {op : IoOp}

/-- What is visible is in mapped memory. -/
theorem System.pagePresent_of_view {a : ℕ} {v : UInt8} (h : s.view (i, a) = some v) :
    (s.process i).kernel.PagePresent a := by
  obtain ⟨-, hview⟩ := System.view_eq_some.mp h
  intro hnone
  rw [Process.view, ← walk_fst _ (by simp [path]), hnone] at hview
  exact absurd hview (by simp)

/-- A string that is visible is printed. -/
theorem System.prints (s : System ι) (i : ι) (buff len : ℕ) :
    Prints (fun a => s.view (i, a)) buff len (s.write i buff len) := by
  intro str hstr hbuff hlast hlen hlen' hview
  have hholds : Holds (s.memory i) buff str := fun j v hj => by
    have hlt : j < (str ++ [0]).length := (List.getElem?_eq_some_iff.mp hj).1
    rw [List.length_append, List.length_singleton] at hlt
    have hbyte : s.view (i, buff + j) = some v := hview j v hj
    rw [System.memory, Nat.mod_eq_of_lt (by omega), hbyte, Option.getD_some]
  -- The string has at least its NUL, so that its first page is mapped.
  obtain ⟨v, hfirst⟩ : ∃ v, (str ++ [0])[0]? = some v := by
    cases str <;> simp
  exact write_prints hholds hstr hbuff (System.pagePresent_of_view (hview 0 v hfirst)) hlen hlen'

variable [DecidableEq ι]

/-- Every step keeps the invariant, and does to the memories what `ioTouch` says. -/
theorem ioStep_respects {o : IoEnd} (h : SystemInv A s) (hop : IoLegal A s (i, op))
    (hstep : ioStep M s (i, op) = some (o, s')) :
    SystemInv A s' ∧ ∀ x : ι × ℕ, x.2 < 2^48 →
      Run.Respects System.view ioTouch s (i, op) o s' x := by
  cases op with
  | user op =>
    obtain ⟨⟨o, s'⟩, huser, heq⟩ := Option.map_eq_some_iff.mp hstep
    obtain ⟨rfl, rfl⟩ := Prod.mk.inj heq
    exact systemStep_respects h hop huser
  | write param1 param2 =>
    obtain ⟨-, heq⟩ := Option.ite_none_right_eq_some.mp hstep
    obtain ⟨-, rfl⟩ := Prod.mk.inj (Option.some.inj heq)
    exact ⟨h, fun _ _ _ hv => hv⟩
  | exit =>
    obtain ⟨-, heq⟩ := Option.ite_none_right_eq_some.mp hstep
    obtain ⟨-, rfl⟩ := Prod.mk.inj (Option.some.inj heq)
    refine ⟨h.exit i, fun x _ v hv => System.view_eq_some.mpr ?_⟩
    obtain ⟨j, a⟩ := x
    unfold ioTouch at hv
    dsimp only at hv
    split_ifs at hv with hne
    · exact absurd hv (by simp [Run.Touch.apply])
    · obtain ⟨hj, hview⟩ := System.view_eq_some.mp hv
      exact ⟨System.alive_exit.mpr ⟨hne, hj⟩, hview⟩

end

/-! ## Runs -/

/-- In every run of any number of processes, in any order of their steps, a write prints the string
that its process stored at the buffer, up to the given length, and returns how many bytes these are:
what counts is the byte that was stored last at each address, unless a shrink of this process gave
the address back since. -/
theorem run_prints {ι : Type*} [DecidableEq ι] (M : MapFlags) (A : ι → Finset ℕ) (s : System ι)
    (hs : StartSystem A s) (ops : List (ι × IoOp)) (hops : Run.Along (ioStep M) (IoLegal A) s ops)
    (hist : List ((ι × IoOp) × IoEnd)) (s' : System ι)
    (hrun : Run.run (ioStep M) s ops = some (hist, s')) (pre : List ((ι × IoOp) × IoEnd)) (i : ι)
    (buff len : ℕ) (e : WriteEnd) (post : List ((ι × IoOp) × IoEnd))
    (hsplit : hist = pre ++ ((i, .write buff len), .write e) :: post) :
    Prints (fun a => Run.recalled ioTouch pre (i, a)) buff len e := by
  obtain ⟨-, hprints⟩ := Run.recalled_of_run (SystemInv A) (fun x : ι × ℕ => x.2 < 2^48)
    System.view ioTouch
    (fun known op o => ∀ i buff len e, op = (i, .write buff len) → o = .write e →
      Prints (fun a => known (i, a)) buff len e)
    (fun s op o s' h hop hstep => ioStep_respects h hop hstep)
    (fun s op o s' known h hop hstep hknown => by
      rintro i buff len e rfl rfl
      obtain ⟨-, heq⟩ := Option.ite_none_right_eq_some.mp hstep
      obtain ⟨hend, -⟩ := Prod.mk.inj (Option.some.inj heq)
      obtain rfl := IoEnd.write.inj hend
      exact (s.prints i buff len).mono fun a ha => hknown (i, a) ha)
    hs.inv hops hrun
  exact hprints pre _ _ post hsplit i buff len e rfl rfl

instance (k : Kernel) (a : ℕ) : Decidable (k.PagePresent a) := inferInstanceAs (Decidable (_ ≠ _))

instance (A : Bool → Finset ℕ) (s : System Bool) :
    (op : Bool × IoOp) → Decidable (IoLegal A s op)
  | (i, .user op) => inferInstanceAs (Decidable (SystemLegal A s (i, op)))
  | (_, .write _ _) => inferInstanceAs (Decidable (_ ∧ _))
  | (_, .exit) => inferInstanceAs (Decidable True)

/-- A process stores a string that extends into a second page, another process stores to the same
addresses, and the first one writes its string. -/
def storeAndWrite : List (Bool × IoOp) :=
  [(true, .user (.store 0x180000FFE 104 ⟨10, 11, 12, 13⟩ fun _ => 1)),
    (true, .user (.store 0x180000FFF 105 ⟨14, 15, 16, 17⟩ fun _ => 1)),
    (true, .user (.store 0x180001000 0 ⟨14, 15, 16, 17⟩ fun _ => 1)),
    (false, .user (.store 0x180000FFF 106 ⟨20, 21, 22, 23⟩ fun _ => 1)),
    (true, .write 0x180000FFE 10)]

/-- What the stores return. -/
def stores : List ((Bool × IoOp) × IoEnd) :=
  (storeAndWrite.take 4).map fun op => (op, .user (some .stored))

/-- It prints its string. -/
theorem run_prints_two : ∃ e s', Run.run (ioStep mapFlags) twoProcesses storeAndWrite =
    some (stores ++ [((true, .write 0x180000FFE 10), .write e)], s') ∧
      e.result = some 2 ∧ e.printed = [104, 105, 10] := by
  refine ⟨_, _, rfl, run_prints mapFlags topFrames twoProcesses startSystem_twoProcesses
    storeAndWrite (by decide +kernel) _ _ rfl stores true 0x180000FFE 10 _ [] rfl [104, 105]
    (by simp) (by decide) (by decide) (by decide) (by decide) fun j v hj => ?_⟩
  match j with
  | 0 => exact hj
  | 1 => exact hj
  | 2 => exact hj
  | j + 3 => simp at hj

end GemOS.Paging
