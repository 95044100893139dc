import GemOS.Lib.Chain

/-!
# List segments

`Segment mem next p l a` says that following `next` from `p` visits the addresses `l` and then
arrives at the address `a`. Unlike a `Chain`, a segment says nothing of what is behind `a`: the list
may end, or run into a cycle. What a segment reaches is also reached without visiting an address
twice.
-/

namespace GemOS

variable {α : Type}

/-- Following `next` from `p` visits the addresses `l` and arrives at `a`. -/
def Segment (mem : ℕ → α) (next : α → Ptr) : Ptr → List ℕ → ℕ → Prop
  | p, [], a => p = some a
  | p, b :: l, a => p = some b ∧ Segment mem next (next (mem b)) l a

namespace Segment

variable {mem : ℕ → α} {next : α → Ptr} {p : Ptr} {l l₁ l₂ : List ℕ} {a b : ℕ}

/-- A suffix of a segment. -/
theorem right (h : Segment mem next p (l₁ ++ b :: l₂) a) :
    Segment mem next (some b) (b :: l₂) a := by
  induction l₁ generalizing p with
  | nil => exact ⟨rfl, h.2⟩
  | cons c l₁ ih => exact ih h.2

/-- Cutting the cycles out of a segment. -/
theorem exists_nodup (h : Segment mem next p l a) :
    ∃ l', Segment mem next p l' a ∧ (l' ++ [a]).Nodup ∧ ∀ b ∈ l', b ∈ l := by
  induction l generalizing p with
  | nil => exact ⟨[], h, List.nodup_singleton a, by simp⟩
  | cons b l ih =>
    obtain ⟨rfl, h⟩ := h
    obtain ⟨l', h', hnd, hsub⟩ := ih h
    by_cases hba : b = a
    · exact ⟨[], by rw [hba]; rfl, List.nodup_singleton a, by simp⟩
    by_cases hb : b ∈ l'
    · -- The way from `b` back to `b` is left out.
      obtain ⟨m₁, m₂, rfl⟩ := List.append_of_mem hb
      rw [List.append_assoc] at hnd
      refine ⟨b :: m₂, h'.right, hnd.of_append_right, fun c hc => List.mem_cons.mpr ?_⟩
      exact (List.mem_cons.mp hc).imp_right fun hc => hsub c (by simp [hc])
    · refine ⟨b :: l', ⟨rfl, h'⟩, ?_, fun c hc => List.mem_cons.mpr ?_⟩
      · rw [List.cons_append, List.nodup_cons]
        exact ⟨by simp [hb, hba], hnd⟩
      · exact (List.mem_cons.mp hc).imp_right (hsub c)

/-- The first address with a property, without a cycle before it. -/
theorem exists_first (P : ℕ → Prop) [DecidablePred P] (h : Segment mem next p l a) (ha : P a) :
    ∃ l' a', Segment mem next p l' a' ∧ (l' ++ [a']).Nodup ∧ (∀ b ∈ l', ¬P b) ∧ P a' := by
  obtain ⟨l₁, a₁, h₁, hbefore, ha₁⟩ : ∃ l₁ a₁, Segment mem next p l₁ a₁ ∧
      (∀ b ∈ l₁, ¬P b) ∧ P a₁ := by
    induction l generalizing p with
    | nil => exact ⟨[], a, h, by simp, ha⟩
    | cons b l ih =>
      obtain ⟨rfl, h⟩ := h
      by_cases hb : P b
      · exact ⟨[], b, rfl, by simp, hb⟩
      · obtain ⟨l₁, a₁, h₁, hbefore, ha₁⟩ := ih h
        exact ⟨b :: l₁, a₁, ⟨rfl, h₁⟩, by simpa [hb] using hbefore, ha₁⟩
  obtain ⟨l', h', hnd, hsub⟩ := h₁.exists_nodup
  exact ⟨l', a₁, h', hnd, fun b hb => hbefore b (hsub b hb), ha₁⟩

end Segment

end GemOS
