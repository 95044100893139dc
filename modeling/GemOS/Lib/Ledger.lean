import Mathlib.Data.Finset.Basic

/-!
# Ledgers of allocations

A ledger lists the allocations and frees of an allocator, the newest first. `inUse A l` are the
items in use after the events `l` when `A` were in use before, and `frees a l` counts the frees of
`a` since its last allocation. `holds` says which item each holder of a system has. The system keeps
its accounts (`Accounts`) when no item has two holders, every held item is in use, and every item
that was allocated is held, or was freed once since. Allocating to a holder, freeing what a holder
has, and passing an item from one holder to another keep the accounts.
-/

namespace GemOS.Ledger

/-- A call of the allocator. -/
inductive Event (α : Type*) where
  /-- The item is handed out. -/
  | alloc (a : α)
  /-- The item is given back. -/
  | free (a : α)
  deriving DecidableEq

variable {α η : Type*} [DecidableEq α]

/-- The items in use after the events. -/
def inUse (A : Finset α) : List (Event α) → Finset α
  | [] => A
  | .alloc a :: l => insert a (inUse A l)
  | .free a :: l => (inUse A l).erase a

/-- The number of frees since the last allocation. -/
def frees (a : α) : List (Event α) → ℕ
  | [] => 0
  | .alloc b :: l => if b = a then 0 else frees a l
  | .free b :: l => if b = a then frees a l + 1 else frees a l

/-- Every item that is allocated again was freed exactly once since its allocation before. -/
def Sound : List (Event α) → Prop
  | [] => True
  | .alloc a :: l => (.alloc a ∈ l → frees a l = 1) ∧ Sound l
  | .free _ :: l => Sound l

/-- The accounts of a system with holders `η`, after the events `l`. -/
structure Accounts (A : Finset α) (l : List (Event α)) (holds : η → Option α) : Prop where
  /-- No item has two holders. -/
  inj : ∀ x y a, holds x = some a → holds y = some a → x = y
  /-- The items that are held are in use. -/
  inUse : ∀ x a, holds x = some a → a ∈ inUse A l
  /-- An allocated item that is held was not freed. -/
  held : ∀ x a, holds x = some a → .alloc a ∈ l → frees a l = 0
  /-- An allocated item that is not held was freed once. -/
  freed : ∀ a, .alloc a ∈ l → (∀ x, holds x ≠ some a) → frees a l = 1
  /-- So it was with all allocations before. -/
  sound : Sound l

/-- What is in use after further events, none of which frees the item. -/
theorem mem_inUse_append {A : Finset α} {a : α} {l : List (Event α)} (h : .free a ∉ l)
    (l' : List (Event α)) : a ∈ inUse A (l ++ l') ↔ .alloc a ∈ l ∨ a ∈ inUse A l' := by
  induction l with
  | nil => simp
  | cons e l ih =>
    have ih := ih fun hmem => h (List.mem_cons_of_mem _ hmem)
    cases e with
    | alloc b => simp [inUse, ih, or_assoc]
    | free b =>
      have hne : a ≠ b := by
        rintro rfl
        exact h List.mem_cons_self
      simp [inUse, ih, hne]

/-- An item that is in use, and was not before all events, was allocated and not freed since. -/
theorem alloc_of_inUse {a : α} {l : List (Event α)} (h : a ∈ inUse ∅ l) :
    .alloc a ∈ l ∧ frees a l = 0 := by
  induction l with
  | nil => exact absurd h (Finset.notMem_empty a)
  | cons e l ih =>
    cases e with
    | alloc b =>
      by_cases hb : b = a
      · simp [frees, hb]
      · have hin : a ∈ inUse ∅ l := (Finset.mem_insert.mp h).resolve_left (Ne.symm hb)
        simpa [frees, hb, Ne.symm hb] using ih hin
    | free b =>
      obtain ⟨hne, hin⟩ := Finset.mem_erase.mp h
      simpa [frees, Ne.symm hne] using ih hin

namespace Accounts

variable {A : Finset α} {l : List (Event α)} {holds holds' : η → Option α} {a b : α} {x y : η}

/-- An item that is not in use has no holder. -/
theorem not_held (h : Accounts A l holds) (ha : a ∉ Ledger.inUse A l) (x : η) : holds x ≠ some a :=
  fun hx => ha (h.inUse x a hx)

/-- When nothing was in use before, what is in use is held. -/
theorem held_of_inUse (h : Accounts ∅ l holds) (ha : a ∈ Ledger.inUse ∅ l) :
    ∃ x, holds x = some a := by
  obtain ⟨halloc, hzero⟩ := alloc_of_inUse ha
  by_contra hno
  have hone := h.freed a halloc (not_exists.mp hno)
  omega

/-- An item is held, or was freed. -/
theorem frees_eq_one_iff (h : Accounts A l holds) (ha : .alloc a ∈ l) :
    frees a l = 1 ↔ ∀ x, holds x ≠ some a := by
  refine ⟨fun h1 x hx => ?_, h.freed a ha⟩
  rw [h.held x a hx ha] at h1
  exact absurd h1 (by simp)

/-- An item that is not in use goes to a holder that has none. -/
theorem alloc [DecidableEq η] (h : Accounts A l holds) (hx : holds x = none)
    (ha : a ∉ Ledger.inUse A l) :
    Accounts A (.alloc a :: l) (Function.update holds x (some a)) := by
  have hnot := h.not_held ha
  have hcases : ∀ y b, Function.update holds x (some a) y = some b →
      y = x ∧ b = a ∨ y ≠ x ∧ b ≠ a ∧ holds y = some b := by
    intro y b hy
    by_cases hyx : y = x
    · rw [hyx, Function.update_self, Option.some.injEq] at hy
      exact Or.inl ⟨hyx, hy.symm⟩
    · rw [Function.update_of_ne hyx] at hy
      refine Or.inr ⟨hyx, ?_, hy⟩
      rintro rfl
      exact hnot y hy
  refine ⟨fun y z b hy hz => ?_, fun y b hy => ?_, fun y b hy hb => ?_, fun b hb hno => ?_,
    fun ha' => h.freed a ha' hnot, h.sound⟩
  · rcases hcases y b hy with ⟨rfl, rfl⟩ | ⟨hyx, hba, hy⟩ <;>
      rcases hcases z b hz with ⟨rfl, hb⟩ | ⟨hzx, hba', hz⟩
    · rfl
    · exact absurd rfl hba'
    · exact absurd hb hba
    · exact h.inj y z b hy hz
  · rw [Ledger.inUse, Finset.mem_insert]
    rcases hcases y b hy with ⟨-, hb⟩ | ⟨-, -, hy⟩
    · exact Or.inl hb
    · exact Or.inr (h.inUse y b hy)
  · unfold frees
    rcases hcases y b hy with ⟨-, rfl⟩ | ⟨-, hba, hy⟩
    · rw [if_pos rfl]
    · rw [if_neg (Ne.symm hba)]
      exact h.held y b hy (by simpa [hba] using hb)
  · have hba : b ≠ a := by
      rintro rfl
      exact hno x (Function.update_self _ _ _)
    rw [frees, if_neg (Ne.symm hba)]
    refine h.freed b (by simpa [hba] using hb) fun y hy => hno y ?_
    have hyx : y ≠ x := by
      rintro rfl
      rw [hx] at hy
      exact absurd hy (by simp)
    rw [Function.update_of_ne hyx, hy]

/-- The item of a holder is given back. -/
theorem free [DecidableEq η] (h : Accounts A l holds) (hx : holds x = some a) :
    Accounts A (.free a :: l) (Function.update holds x none) := by
  -- A holder that is left is another one, with another item.
  have hcases : ∀ y b, Function.update holds x none y = some b →
      y ≠ x ∧ b ≠ a ∧ holds y = some b := by
    intro y b hy
    have hyx : y ≠ x := by
      rintro rfl
      rw [Function.update_self] at hy
      exact absurd hy (by simp)
    rw [Function.update_of_ne hyx] at hy
    refine ⟨hyx, ?_, hy⟩
    rintro rfl
    exact hyx (h.inj y x b hy hx)
  refine ⟨fun y z b hy hz => h.inj y z b (hcases y b hy).2.2 (hcases z b hz).2.2, fun y b hy => ?_,
    fun y b hy hb => ?_, fun b hb hno => ?_, h.sound⟩
  · obtain ⟨-, hba, hy⟩ := hcases y b hy
    exact Finset.mem_erase.mpr ⟨hba, h.inUse y b hy⟩
  · obtain ⟨-, hba, hy⟩ := hcases y b hy
    rw [frees, if_neg (Ne.symm hba)]
    exact h.held y b hy (by simpa using hb)
  · have hb' : .alloc b ∈ l := by simpa using hb
    rw [frees]
    by_cases hba : a = b
    · rw [if_pos hba, ← hba, h.held x a hx (by rw [hba]; exact hb')]
    · rw [if_neg hba]
      refine h.freed b hb' fun y hy => hno y ?_
      have hyx : y ≠ x := by
        rintro rfl
        rw [hx, Option.some.injEq] at hy
        exact hba hy
      rw [Function.update_of_ne hyx, hy]

/-- Items pass between holders, and those that get lost were never allocated. -/
theorem pass (h : Accounts A l holds)
    (hinj : ∀ x y a, holds' x = some a → holds' y = some a → x = y)
    (hfrom : ∀ x a, holds' x = some a → ∃ y, holds y = some a)
    (hto : ∀ x a, .alloc a ∈ l → holds x = some a → ∃ y, holds' y = some a) :
    Accounts A l holds' := by
  refine ⟨hinj, fun x a hx => ?_, fun x a hx ha => ?_, fun a ha hno => ?_, h.sound⟩
  · obtain ⟨y, hy⟩ := hfrom x a hx
    exact h.inUse y a hy
  · obtain ⟨y, hy⟩ := hfrom x a hx
    exact h.held y a hy ha
  · refine h.freed a ha fun x hx => ?_
    obtain ⟨y, hy⟩ := hto x a ha hx
    exact hno y hy

omit [DecidableEq α] in
/-- A holder passes its item to another one, which has it instead of its own. -/
theorem move_eq_some [DecidableEq η] {z : η}
    (hz : Function.update (Function.update holds x none) y (holds x) z = some a) :
    z = y ∧ holds x = some a ∨ z ≠ x ∧ z ≠ y ∧ holds z = some a := by
  by_cases hzy : z = y
  · rw [hzy, Function.update_self] at hz
    exact Or.inl ⟨hzy, hz⟩
  · rw [Function.update_of_ne hzy] at hz
    by_cases hzx : z = x
    · rw [hzx, Function.update_self] at hz
      exact absurd hz (by simp)
    · rw [Function.update_of_ne hzx] at hz
      exact Or.inr ⟨hzx, hzy, hz⟩

/-- An item that was never allocated may get lost in this way. -/
theorem move [DecidableEq η] (h : Accounts A l holds) (hxy : x ≠ y)
    (hy : ∀ a, holds y = some a → .alloc a ∉ l) :
    Accounts A l (Function.update (Function.update holds x none) y (holds x)) := by
  refine h.pass (fun z w a hz hw => ?_) (fun z a hz => ?_) fun z a ha hz => ?_
  · rcases move_eq_some hz with ⟨hzy, hx⟩ | ⟨hzx, -, hz'⟩ <;>
      rcases move_eq_some hw with ⟨hwy, hx'⟩ | ⟨hwx, -, hw'⟩
    · rw [hzy, hwy]
    · exact absurd (h.inj w x a hw' hx) hwx
    · exact absurd (h.inj z x a hz' hx') hzx
    · exact h.inj z w a hz' hw'
  · rcases move_eq_some hz with ⟨-, hx⟩ | ⟨-, -, hz⟩
    · exact ⟨x, hx⟩
    · exact ⟨z, hz⟩
  · by_cases hzx : z = x
    · exact ⟨y, by rw [Function.update_self, ← hzx, hz]⟩
    · have hzy : z ≠ y := by
        rintro rfl
        exact hy a hz ha
      exact ⟨z, by rw [Function.update_of_ne hzy, Function.update_of_ne hzx, hz]⟩

/-- The item that the other holder had is lost. -/
theorem move_lost [DecidableEq η] (h : Accounts A l holds) (hxy : x ≠ y)
    (hy : holds y = some a) (z : η) :
    Function.update (Function.update holds x none) y (holds x) z ≠ some a := by
  intro hz
  rcases move_eq_some hz with ⟨-, hx⟩ | ⟨-, hzy, hz⟩
  · exact hxy (h.inj x y a hx hy)
  · exact hzy (h.inj z y a hz hy)

end Accounts

end GemOS.Ledger
