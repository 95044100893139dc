import Mathlib.Data.List.Basic
import Mathlib.Logic.Function.Basic

/-!
# Lookup in a chained table

A table with chains `I` of values, one for each hash. The keys are not in the chains: `K i` is the
key of the value `i`. `lookup` returns the first value of the chain of a key that has the key.
Values may be listed twice, and a chain may have values whose key belongs to another chain.
-/

namespace GemOS

section Lookup

variable {κ ι : Type*} [DecidableEq κ] (hash : κ → ℕ) (I I' : ℕ → List ι) (K K' : ι → κ)

/-- The first value of the chain of `k` with the key `k`. -/
def lookup (k : κ) : Option ι := (I (hash k)).find? fun i => decide (K i = k)

variable {hash I I' K K'} {k k' : κ} {i : ι}

theorem lookup_eq_none : lookup hash I K k = none ↔ ∀ i ∈ I (hash k), K i ≠ k := by
  simp [lookup]

theorem mem_of_lookup (h : lookup hash I K k = some i) : i ∈ I (hash k) ∧ K i = k :=
  ⟨List.mem_of_find?_eq_some h, by simpa using List.find?_some h⟩

/-- The value before which no other one of the chain has the key. -/
theorem lookup_of_split {l₁ l₂ : List ι} (hI : I (hash k) = l₁ ++ i :: l₂) (hK : K i = k)
    (h₁ : ∀ j ∈ l₁, K j ≠ k) : lookup hash I K k = some i := by
  rw [lookup, hI, List.find?_append, List.find?_eq_none.mpr (by simpa using h₁)]
  simp [hK]

/-- The only value of a chain. -/
theorem lookup_singleton (hI : I (hash k) = [i]) (hK : K i = k) : lookup hash I K k = some i := by
  simp [lookup, hI, hK]

/-- A lookup depends only on which values of the chain have the key. -/
theorem lookup_congr (hI : I' (hash k) = I (hash k)) (hK : ∀ i ∈ I (hash k), K' i = k ↔ K i = k) :
    lookup hash I' K' k = lookup hash I K k := by
  unfold lookup
  rw [hI]
  generalize I (hash k) = l at hK ⊢
  induction l with
  | nil => rfl
  | cons i l ih =>
    rw [List.find?_cons, List.find?_cons, ih fun j hj => hK j (by simp [hj])]
    have hi := hK i (by simp)
    by_cases h : K i = k
    · rw [decide_eq_true h, decide_eq_true (hi.mpr h)]
    · rw [decide_eq_false h, decide_eq_false fun h' => h (hi.mp h')]

/-- A new value `i` with the key `k`, listed at the end of its chain, is found when `k` was missing;
the other keys are not affected. -/
theorem lookup_insert (new : List ι) (hnew : ∀ j ∈ new, j = i) (hne : new ≠ [])
    (hfresh : ∀ v, i ∉ I v) (hmiss : lookup hash I K k = none)
    (hI : I' = Function.update I (hash k) (I (hash k) ++ new)) (hK : K' i = k)
    (hother : ∀ j, (∃ v, j ∈ I v) → K' j = K j) (k' : κ) :
    lookup hash I' K' k' = if k' = k then some i else lookup hash I K k' := by
  obtain ⟨j, l, rfl⟩ := List.exists_cons_of_ne_nil hne
  obtain rfl : j = i := hnew j (by simp)
  subst hI
  by_cases hk : k' = k
  · subst hk
    rw [if_pos rfl]
    refine lookup_of_split (Function.update_self _ _ _) hK fun q hq => ?_
    rw [hother q ⟨_, hq⟩]
    exact lookup_eq_none.mp hmiss q hq
  · rw [if_neg hk]
    by_cases hv : hash k' = hash k
    · -- The new values have another key.
      have hnone : (j :: l).find? (fun q => decide (K' q = k')) = none := by
        rw [List.find?_eq_none]
        intro q hq
        rw [hnew q hq, hK]
        simpa using Ne.symm hk
      have hcongr : lookup hash I K' k' = lookup hash I K k' :=
        lookup_congr rfl fun q hq => by rw [hother q ⟨_, hq⟩]
      rw [← hcongr]
      unfold lookup
      rw [hv, Function.update_self, List.find?_append, hnone, Option.or_none]
    · exact lookup_congr (Function.update_of_ne hv _ _) fun q hq => by rw [hother q ⟨_, hq⟩]

end Lookup

end GemOS
