import Mathlib

/-!
# A C heap of cells of one type

Addresses are natural numbers and a pointer is an address or `NULL`. `calloc` may return any address
that is not live: the allocator is an arbitrary strategy that the heap carries, and it may hand out
a freed address again. `free` keeps the contents of the cell, so that a read through a dangling
pointer sees the old fields until the address is handed out again.
-/

namespace GemOS

/-- A C pointer into a heap: `none` is `NULL`. -/
abbrev Ptr := Option ℕ

/-- A strategy of `malloc`: the address of the `n`-th allocation, given the live addresses. It is
never live already. -/
structure Allocator where
  /-- The address that the `n`-th allocation returns. -/
  pick : ℕ → List ℕ → ℕ
  /-- The address is not live. -/
  pick_fresh : ∀ n live, pick n live ∉ live

/-- The allocator that counts up, and looks past the live addresses where the count is taken. -/
def Allocator.bump : Allocator where
  pick n live := if n ∈ live then live.foldr max 0 + 1 else n
  pick_fresh n live := by
    have hle : ∀ a ∈ live, a ≤ live.foldr max 0 := by
      intro a ha
      induction live with
      | nil => simp at ha
      | cons b l ih =>
        rcases List.mem_cons.mp ha with rfl | hl
        · exact le_max_left _ _
        · exact le_trans (ih hl) (le_max_right _ _)
    split_ifs with h
    · intro hmem
      have := hle _ hmem
      omega
    · exact h

/-- A heap of cells of type `α`. -/
structure Heap (α : Type) where
  /-- The allocation strategy. -/
  malloc : Allocator
  /-- The contents of every address, live or not. -/
  mem : ℕ → α
  /-- The addresses that are allocated and not freed. -/
  live : List ℕ
  /-- The number of allocations so far. -/
  count : ℕ

namespace Heap

variable {α : Type}

/-- The heap of a process that has allocated nothing. -/
def empty (A : Allocator) (zero : α) : Heap α := ⟨A, fun _ => zero, [], 0⟩

/-- The address that the next `calloc` returns. -/
def fresh (h : Heap α) : ℕ := h.malloc.pick h.count h.live

/-- The heap after a `calloc` whose cell is filled with `v`. -/
def alloc (h : Heap α) (v : α) : Heap α :=
  { h with mem := Function.update h.mem h.fresh v, live := h.fresh :: h.live, count := h.count + 1 }

/-- `free`: the address is no longer live; its cell keeps its contents. -/
def free (h : Heap α) (p : ℕ) : Heap α := { h with live := h.live.erase p }

/-- A store to the cell at `p`. -/
def modify (h : Heap α) (p : ℕ) (f : α → α) : Heap α :=
  { h with mem := Function.update h.mem p (f (h.mem p)) }

/-- The guarded store `if (p != NULL) *p = …;`. -/
def modify? (h : Heap α) (p : Ptr) (f : α → α) : Heap α :=
  match p with
  | some a => h.modify a f
  | none => h

/-- The number of steps after which a walk through a list of this heap is surely in a cycle. -/
def fuel (h : Heap α) : ℕ := h.count + 1

theorem fresh_not_mem (h : Heap α) : h.fresh ∉ h.live := h.malloc.pick_fresh _ _

@[simp] theorem alloc_mem (h : Heap α) (v : α) :
    (h.alloc v).mem = Function.update h.mem h.fresh v := rfl

@[simp] theorem alloc_live (h : Heap α) (v : α) : (h.alloc v).live = h.fresh :: h.live := rfl

@[simp] theorem alloc_count (h : Heap α) (v : α) : (h.alloc v).count = h.count + 1 := rfl

@[simp] theorem free_mem (h : Heap α) (p : ℕ) : (h.free p).mem = h.mem := rfl

@[simp] theorem free_live (h : Heap α) (p : ℕ) : (h.free p).live = h.live.erase p := rfl

@[simp] theorem free_count (h : Heap α) (p : ℕ) : (h.free p).count = h.count := rfl

@[simp] theorem modify_mem (h : Heap α) (p : ℕ) (f : α → α) :
    (h.modify p f).mem = Function.update h.mem p (f (h.mem p)) := rfl

@[simp] theorem modify_live (h : Heap α) (p : ℕ) (f : α → α) : (h.modify p f).live = h.live := rfl

@[simp] theorem modify_count (h : Heap α) (p : ℕ) (f : α → α) :
    (h.modify p f).count = h.count := rfl

@[simp] theorem modify?_mem (h : Heap α) (p : Ptr) (f : α → α) (q : ℕ) :
    (h.modify? p f).mem q = if p = some q then f (h.mem q) else h.mem q := by
  cases p with
  | none => simp [modify?]
  | some a =>
    by_cases hq : q = a
    · subst hq
      simp [modify?]
    · simp [modify?, hq, Ne.symm hq]

@[simp] theorem modify?_live (h : Heap α) (p : Ptr) (f : α → α) :
    (h.modify? p f).live = h.live := by
  cases p <;> rfl

@[simp] theorem modify?_count (h : Heap α) (p : Ptr) (f : α → α) :
    (h.modify? p f).count = h.count := by
  cases p <;> rfl

/-- What every run of allocations and frees keeps: no address is live twice, and there are at most
as many live addresses as there were allocations. -/
structure Wf (h : Heap α) : Prop where
  /-- No address is live twice. -/
  nodup : h.live.Nodup
  /-- Every live address was allocated. -/
  length_le : h.live.length ≤ h.count

theorem wf_empty (A : Allocator) (zero : α) : (empty A zero).Wf := ⟨List.nodup_nil, le_rfl⟩

theorem Wf.alloc {h : Heap α} (w : h.Wf) (v : α) : (h.alloc v).Wf :=
  ⟨List.nodup_cons.mpr ⟨h.fresh_not_mem, w.nodup⟩, by simpa using w.length_le⟩

theorem Wf.free {h : Heap α} (w : h.Wf) (p : ℕ) : (h.free p).Wf :=
  ⟨w.nodup.erase p, le_trans (List.erase_sublist.length_le) w.length_le⟩

theorem Wf.modify {h : Heap α} (w : h.Wf) (p : ℕ) (f : α → α) : (h.modify p f).Wf :=
  ⟨w.nodup, w.length_le⟩

/-- Distinct live addresses are fewer than the fuel. -/
theorem Wf.length_lt_fuel {h : Heap α} (w : h.Wf) {l : List ℕ} (hl : l.Nodup)
    (hsub : ∀ a ∈ l, a ∈ h.live) : l.length < h.fuel := by
  have := (hl.subperm hsub).length_le
  have := w.length_le
  unfold fuel
  omega

end Heap

end GemOS
