import Mathlib.Data.List.Range
import Mathlib.Data.Nat.Basic

/-!
# Search around a cycle

A search for the numbers below `n` that starts behind `a` and goes once around, up to `a` itself.
`gap` is the distance of two numbers around the cycle, and `next` finds the one with the smallest
distance from `a` (`next_eq_some`). `Toward p` is a sequence of moves none of which goes past `p`:
it comes to `p` within `n - 1` moves, and visits nothing twice before (`Toward.nodup`,
`Toward.length_lt`).
-/

namespace GemOS.Cyclic

/-- The distance from `a` forward to `b`. -/
def gap (n a b : ℕ) : ℕ := (b + n - a) % n

/-- The first number after `a`, once around, that meets `p`. -/
def next (n : ℕ) (p : ℕ → Bool) (a : ℕ) : Option ℕ :=
  ((List.range' (a + 1) (n - 1)).map (· % n)).find? p

variable {n a b c i : ℕ} {p q : ℕ → Bool}

theorem gap_lt (ha : a < n) : gap n a b < n := Nat.mod_lt _ (by omega)

/-- Below `n` the distance is a difference, or wraps around. -/
theorem gap_eq (ha : a < n) (hb : b < n) : gap n a b = if a ≤ b then b - a else b + n - a := by
  unfold gap
  split_ifs with h
  · rw [show b + n - a = (b - a) + n by omega, Nat.add_mod_right, Nat.mod_eq_of_lt (by omega)]
  · rw [Nat.mod_eq_of_lt (by omega)]

theorem gap_pos (ha : a < n) (hb : b < n) (hab : b ≠ a) : 0 < gap n a b := by
  rw [gap_eq ha hb]
  split_ifs <;> omega

/-- A move that does not go past `c` comes closer to it. -/
theorem gap_add (ha : a < n) (hb : b < n) (hc : c < n) (h : gap n a b ≤ gap n a c) :
    gap n a b + gap n b c = gap n a c := by
  rw [gap_eq ha hb, gap_eq ha hc] at *
  rw [gap_eq hb hc]
  split_ifs at * <;> omega

/-- The number at a distance. -/
theorem gap_mod (ha : a < n) (hi : i + 1 < n) : gap n a ((a + 1 + i) % n) = i + 1 := by
  rw [gap_eq ha (Nat.mod_lt _ (by omega))]
  rcases Nat.lt_or_ge (a + 1 + i) n with h | h
  · rw [Nat.mod_eq_of_lt h]
    split_ifs <;> omega
  · rw [Nat.mod_eq_sub_mod h, Nat.mod_eq_of_lt (by omega)]
    split_ifs <;> omega

/-- Every other number is at its distance. -/
theorem mod_gap (ha : a < n) (hb : b < n) (hab : b ≠ a) : (a + 1 + (gap n a b - 1)) % n = b := by
  have hpos := gap_pos ha hb hab
  rw [show a + 1 + (gap n a b - 1) = a + gap n a b by omega, gap_eq ha hb]
  split_ifs with h
  · rw [show a + (b - a) = b by omega, Nat.mod_eq_of_lt hb]
  · rw [show a + (b + n - a) = b + n by omega, Nat.add_mod_right, Nat.mod_eq_of_lt hb]

/-- The search finds the closest number that meets `p`, and not `a`. -/
theorem next_eq_some (ha : a < n) (h : next n p a = some b) :
    b < n ∧ b ≠ a ∧ p b = true ∧ ∀ c < n, c ≠ a → p c = true → gap n a b ≤ gap n a c := by
  obtain ⟨hpb, i, hi, hib, hbefore⟩ := List.find?_eq_some_iff_getElem.mp h
  simp only [List.length_map, List.length_range'] at hi
  simp only [List.getElem_map, List.getElem_range', Nat.one_mul] at hib hbefore
  have hgap : gap n a b = i + 1 := by rw [← hib, gap_mod ha (by omega)]
  refine ⟨?_, ?_, hpb, fun c hc hca hpc => ?_⟩
  · rw [← hib]
    exact Nat.mod_lt _ (by omega)
  · rintro rfl
    rw [gap_eq ha ha] at hgap
    simp at hgap
  · -- A closer number would have been found before.
    by_contra hlt
    have hpos := gap_pos ha hc hca
    have := hbefore (gap n a c - 1) (by omega)
    rw [mod_gap ha hc hca, hpc] at this
    exact absurd this (by simp)

/-- The search fails when no other number meets `p`. -/
theorem next_eq_none (ha : a < n) : next n p a = none ↔ ∀ c < n, c ≠ a → p c = false := by
  unfold next
  rw [List.find?_eq_none]
  constructor
  · intro h c hc hca
    have hpos := gap_pos ha hc hca
    have hlt := gap_lt (b := c) ha
    have := h c (List.mem_map.mpr ⟨a + 1 + (gap n a c - 1), ?_, mod_gap ha hc hca⟩)
    · simpa using this
    · rw [List.mem_range'_1]
      omega
  · intro h c hc
    obtain ⟨j, hj, rfl⟩ := List.mem_map.mp hc
    rw [List.mem_range'_1] at hj
    have hgap := gap_mod (i := j - (a + 1)) ha (by omega)
    rw [show a + 1 + (j - (a + 1)) = j by omega] at hgap
    have hne : j % n ≠ a := by
      intro hja
      rw [hja, gap_eq ha ha] at hgap
      simp at hgap
    rw [h (j % n) (Nat.mod_lt _ (by omega)) hne]
    simp

/-! ## Moves toward a number -/

/-- The moves `l` from `a` do not go past `p` before they come to it. -/
def Toward (n p : ℕ) : ℕ → List ℕ → Prop
  | _, [] => True
  | a, q :: l => q < n ∧ q ≠ a ∧ gap n a q ≤ gap n a p ∧ (q ≠ p → Toward n p q l)

variable {p q : ℕ} {l : List ℕ}

/-- The moves before `p` are at growing distances. -/
theorem Toward.between (h : Toward n p a l) (ha : a < n) (hp : p < n) (hap : p ≠ a) :
    ∀ c ∈ l.takeWhile (· ≠ p), c < n ∧ 0 < gap n a c ∧ gap n a c < gap n a p := by
  induction l generalizing a with
  | nil => simp
  | cons q l ih =>
    obtain ⟨hq, hqa, hle, hrest⟩ := h
    intro c hc
    by_cases hqp : q = p
    · simp [hqp] at hc
    · have hadd := gap_add ha hq hp hle
      have hpos := gap_pos ha hq hqa
      have hpos' := gap_pos hq hp (Ne.symm hqp)
      rw [List.takeWhile_cons_of_pos (by simpa using hqp)] at hc
      rcases List.mem_cons.mp hc with rfl | hc
      · exact ⟨hq, hpos, by omega⟩
      · obtain ⟨hcn, h₁, h₂⟩ := ih (hrest hqp) hq (Ne.symm hqp) c hc
        -- The distances from `q` are those from `a`, less the one of `q`.
        have hac : gap n a q + gap n q c = gap n a c := by
          rw [gap_eq ha hq, gap_eq hq hcn, gap_eq ha hcn]
          rw [gap_eq ha hq, gap_eq hq hp, gap_eq ha hp] at hadd
          rw [gap_eq hq hcn, gap_eq hq hp] at h₂
          split_ifs at * <;> omega
        exact ⟨hcn, by omega, by omega⟩

/-- Nothing is visited twice before `p`. -/
theorem Toward.nodup (h : Toward n p a l) (ha : a < n) (hp : p < n) (hap : p ≠ a) :
    (l.takeWhile (· ≠ p)).Nodup := by
  induction l generalizing a with
  | nil => simp
  | cons q l ih =>
    obtain ⟨hq, hqa, hle, hrest⟩ := h
    by_cases hqp : q = p
    · simp [hqp]
    · rw [List.takeWhile_cons_of_pos (by simpa using hqp), List.nodup_cons]
      refine ⟨fun hmem => ?_, ih (hrest hqp) hq (Ne.symm hqp)⟩
      obtain ⟨-, hpos, -⟩ := (hrest hqp).between hq hp (Ne.symm hqp) q hmem
      rw [gap_eq hq hq] at hpos
      simp at hpos

/-- There are fewer moves before `p` than its distance. -/
theorem Toward.length_lt (h : Toward n p a l) (ha : a < n) (hp : p < n) (hap : p ≠ a) :
    (l.takeWhile (· ≠ p)).length < gap n a p := by
  induction l generalizing a with
  | nil => simpa using gap_pos ha hp hap
  | cons q l ih =>
    obtain ⟨hq, hqa, hle, hrest⟩ := h
    by_cases hqp : q = p
    · simpa [hqp] using gap_pos ha hp hap
    · have hadd := gap_add ha hq hp hle
      have hpos := gap_pos ha hq hqa
      have hlen := ih (hrest hqp) hq (Ne.symm hqp)
      rw [List.takeWhile_cons_of_pos (by simpa using hqp), List.length_cons]
      omega

/-- One more move. -/
theorem Toward.concat (h : Toward n p a l)
    (hq : p ∉ l → q < n ∧ q ≠ l.getLastD a ∧ gap n (l.getLastD a) q ≤ gap n (l.getLastD a) p) :
    Toward n p a (l ++ [q]) := by
  induction l generalizing a with
  | nil =>
    obtain ⟨hqn, hqa, hle⟩ := hq (by simp)
    exact ⟨hqn, hqa, hle, fun _ => trivial⟩
  | cons r l ih =>
    obtain ⟨hr, hra, hle, hrest⟩ := h
    refine ⟨hr, hra, hle, fun hrp => ih (hrest hrp) fun hpl => ?_⟩
    have := hq (by simpa using ⟨Ne.symm hrp, hpl⟩)
    rwa [List.getLastD_cons] at this

/-- After `n - 1` moves, `p` was among them. -/
theorem Toward.mem_take (h : Toward n p a l) (ha : a < n) (hp : p < n) (hap : p ≠ a)
    (hlen : n - 1 ≤ l.length) : p ∈ l.take (n - 1) := by
  have hlt := h.length_lt ha hp hap
  have hgap := gap_lt (b := p) ha
  have hlen' : (l.takeWhile (· ≠ p)).length < l.length := by omega
  -- Behind the moves before `p` comes `p`.
  cases hdrop : l.dropWhile (· ≠ p) with
  | nil =>
    have happ := List.takeWhile_append_dropWhile (p := fun x => decide (x ≠ p)) (l := l)
    rw [hdrop, List.append_nil] at happ
    rw [happ] at hlen'
    exact absurd hlen' (Nat.lt_irrefl _)
  | cons q m =>
    have hq : q = p := by
      have hne : l.dropWhile (fun x => decide (x ≠ p)) ≠ [] := by
        rw [hdrop]
        exact List.cons_ne_nil q m
      have hhead := List.head_dropWhile_not (fun x => decide (x ≠ p)) hne
      simp only [hdrop, List.head_cons] at hhead
      simpa using hhead
    have happ := List.takeWhile_append_dropWhile (p := fun x => decide (x ≠ p)) (l := l)
    rw [hdrop, hq] at happ
    rw [← happ, List.take_append]
    refine List.mem_append_right _ ?_
    rw [show n - 1 - (l.takeWhile (· ≠ p)).length =
      (n - 2 - (l.takeWhile (· ≠ p)).length) + 1 by omega, List.take_succ_cons]
    exact List.mem_cons_self

end GemOS.Cyclic
