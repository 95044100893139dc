import GemOS.Lib.Heap

/-!
# Linked lists in a heap

`Chain mem next p l` says that following the link `next` from `p` visits exactly the addresses `l`,
in this order, and ends at `NULL`. One cell type can have several links, and each of them its own
chain: a doubly linked list is a chain of its right links and the reversed chain of its left links.

`walk` is the loop `while (itr != NULL && !stop(itr)) { par = itr; itr = itr->next; }`, by which C
code searches such a list with a trailing pointer to the predecessor. The lemmas of the last section
are the two edits of a list: a cell is appended behind the last one, and a cell is bypassed by its
predecessor.
-/

namespace GemOS

variable {α : Type}

/-- Following `next` from `p` visits exactly the addresses `l` and ends at `NULL`. -/
def Chain (mem : ℕ → α) (next : α → Ptr) : Ptr → List ℕ → Prop
  | p, [] => p = none
  | p, a :: l => p = some a ∧ Chain mem next (next (mem a)) l

namespace Chain

variable {mem mem' : ℕ → α} {next next' : α → Ptr} {p q : Ptr} {l l₁ l₂ : List ℕ} {a : ℕ}

@[simp] theorem nil_iff : Chain mem next p [] ↔ p = none := Iff.rfl

@[simp] theorem cons_iff :
    Chain mem next p (a :: l) ↔ p = some a ∧ Chain mem next (next (mem a)) l := Iff.rfl

/-- The pointer to a chain is its first address. -/
theorem head_eq (h : Chain mem next p l) : p = l.head? := by
  cases l with
  | nil => exact h
  | cons a l => exact h.1

/-- A chain depends only on the links of its own cells. -/
theorem congr (heq : ∀ a ∈ l, next' (mem' a) = next (mem a)) (h : Chain mem next p l) :
    Chain mem' next' p l := by
  induction l generalizing p with
  | nil => exact h
  | cons a l ih =>
    refine ⟨h.1, ?_⟩
    rw [heq a (by simp)]
    exact ih (fun b hb => heq b (by simp [hb])) h.2

/-- A pointer is the head of at most one chain. -/
theorem unique (h₁ : Chain mem next p l₁) (h₂ : Chain mem next p l₂) : l₁ = l₂ := by
  induction l₁ generalizing p l₂ with
  | nil =>
    cases l₂ with
    | nil => rfl
    | cons b l₂ => simp [nil_iff.mp h₁] at h₂
  | cons a l₁ ih =>
    cases l₂ with
    | nil => simp [nil_iff.mp h₂] at h₁
    | cons b l₂ =>
      obtain rfl : a = b := Option.some.inj (h₁.1.symm.trans h₂.1)
      rw [ih h₁.2 h₂.2]

/-- A chain splits at any of its addresses: the rest of it is the chain behind that address. -/
theorem split (h : Chain mem next p (l₁ ++ a :: l₂)) : Chain mem next (next (mem a)) l₂ := by
  induction l₁ generalizing p with
  | nil => exact h.2
  | cons b l₁ ih => exact ih h.2

/-- The link of any cell is the first address behind it. -/
theorem next_head (h : Chain mem next p (l₁ ++ a :: l₂)) : next (mem a) = l₂.head? :=
  h.split.head_eq

end Chain

/-! ## Walking a chain -/

section Walk

variable (mem : ℕ → α) (next : α → Ptr) (stop : α → Bool)

/-- `while (itr != NULL && !stop(itr)) { par = itr; itr = itr->next; }`: the last values of `par`
and `itr`. The walk fails when the fuel runs out, which only a cyclic list does to `Heap.fuel`. -/
def walk : ℕ → Ptr → Ptr → Option (Ptr × Ptr)
  | 0, _, _ => none
  | _ + 1, par, none => some (par, none)
  | fuel + 1, par, some a =>
    if stop (mem a) then some (par, some a) else walk fuel (some a) (next (mem a))

variable {mem next stop} {l l₁ l₂ : List ℕ} {a : ℕ}

/-- The last address of a nonempty list, whatever the walk started behind. -/
theorem getLast?_cons_or (a : ℕ) (l : List ℕ) (p : Ptr) :
    (a :: l).getLast?.or p = l.getLast?.or (some a) := by
  rw [List.getLast?_cons]
  cases l.getLast? <;> rfl

/-- A walk that finds nothing ends at `NULL` behind the last cell. -/
theorem walk_none (hstop : ∀ a ∈ l, stop (mem a) = false) {fuel : ℕ} {par itr : Ptr}
    (h : Chain mem next itr l) (hf : l.length < fuel) :
    walk mem next stop fuel par itr = some (l.getLast?.or par, none) := by
  induction l generalizing fuel par itr with
  | nil =>
    obtain ⟨k, rfl⟩ : ∃ k, fuel = k + 1 := ⟨fuel - 1, by omega⟩
    rw [Chain.nil_iff.mp h]
    rfl
  | cons b l ih =>
    obtain ⟨k, rfl⟩ : ∃ k, fuel = k + 1 := ⟨fuel - 1, by omega⟩
    rw [h.1, walk, hstop b (by simp)]
    rw [if_neg (by simp), ih (fun c hc => hstop c (by simp [hc])) h.2 (by simp at hf; omega),
      getLast?_cons_or]

/-- A walk ends at the first cell at which it stops, with `par` at the cell before it. -/
theorem walk_some (hbefore : ∀ b ∈ l₁, stop (mem b) = false) (ha : stop (mem a) = true)
    {fuel : ℕ} {par itr : Ptr} (h : Chain mem next itr (l₁ ++ a :: l₂))
    (hf : (l₁ ++ a :: l₂).length < fuel) :
    walk mem next stop fuel par itr = some (l₁.getLast?.or par, some a) := by
  induction l₁ generalizing fuel par itr with
  | nil =>
    obtain ⟨k, rfl⟩ : ∃ k, fuel = k + 1 := ⟨fuel - 1, by omega⟩
    rw [h.1, walk, if_pos ha]
    rfl
  | cons b l₁ ih =>
    obtain ⟨k, rfl⟩ : ∃ k, fuel = k + 1 := ⟨fuel - 1, by omega⟩
    rw [h.1, walk, hbefore b (by simp), if_neg (by simp),
      ih (fun c hc => hbefore c (by simp [hc])) h.2 (by simp at hf ⊢; omega), getLast?_cons_or]

end Walk

/-! ## Editing a chain -/

namespace Chain

variable {mem mem' : ℕ → α} {next : α → Ptr} {p : Ptr} {l l₁ l₂ : List ℕ} {a b : ℕ}

/-- A cell `a` with a `NULL` link is appended to a chain by the link of its last cell `b`. -/
theorem append (h : Chain mem next p (l ++ [b])) (hb : next (mem' b) = some a)
    (ha : next (mem' a) = none) (hother : ∀ c ∈ l, next (mem' c) = next (mem c)) :
    Chain mem' next p (l ++ [b, a]) := by
  induction l generalizing p with
  | nil => exact ⟨h.1, hb, ha⟩
  | cons c l ih =>
    refine ⟨h.1, ?_⟩
    rw [hother c (by simp)]
    exact ih h.2 (fun d hd => hother d (by simp [hd]))

/-- The cell `a` leaves a chain when its predecessor gets its link; without a predecessor, its link
is the new head. -/
theorem unlink (h : Chain mem next p (l₁ ++ a :: l₂)) (mem' : ℕ → α) (hnd : (l₁ ++ a :: l₂).Nodup)
    (hnext : ∀ q ∈ l₁ ++ l₂, next (mem' q) =
      if l₁.getLast? = some q then next (mem a) else next (mem q)) :
    Chain mem' next (if l₁ = [] then next (mem a) else p) (l₁ ++ l₂) := by
  induction l₁ generalizing p with
  | nil => exact h.2.congr (by simpa using hnext)
  | cons b l₁ ih =>
    rw [List.cons_append, List.nodup_cons] at hnd
    have hb : b ∉ l₁ ++ l₂ := fun hb => hnd.1 (by simp at hb ⊢; tauto)
    -- Behind `b`, the predecessor of `a` is the same cell as in the whole list.
    have htail : ∀ q ∈ l₁ ++ l₂, next (mem' q) =
        if l₁.getLast? = some q then next (mem a) else next (mem q) := by
      intro q hq
      have hqb : b ≠ q := by rintro rfl; exact hb hq
      rw [hnext q (by simp at hq ⊢; tauto)]
      cases l₁ with
      | nil => simp [hqb]
      | cons c l₁ => rw [List.getLast?_cons_cons]
    have ih := ih h.2 hnd.2 htail
    refine ⟨h.1, ?_⟩
    rw [hnext b (by simp)]
    cases l₁ with
    | nil => simpa using ih
    | cons c l₁ =>
      have hlast : (b :: c :: l₁).getLast? ≠ some b := by
        rw [List.getLast?_cons_cons]
        exact fun hlast => hb (List.mem_append_left _ (List.mem_of_getLast? hlast))
      rw [if_neg hlast]
      simpa using ih

end Chain

end GemOS
