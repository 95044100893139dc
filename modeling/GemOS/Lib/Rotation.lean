import GemOS.Lib.Cyclic
import Mathlib.Data.Int.CardIntervalMod
import Mathlib.Data.List.GetD

/-!
# Turns around a cycle

`rotation n p a` are the numbers below `n` that meet `p`, in the order in which a search around the
cycle comes to them from `a`. When the closest one gets its turn, it goes to the end
(`rotation_closest`). Who takes turns in this way gets them again and again in the same order:
`turns l t` are the first `t` turns, and everyone in `l` gets an equal share of them
(`count_turns`).
-/

namespace GemOS.Cyclic

/-- The numbers below `n` that meet `p`, in their order behind `a`. -/
def rotation (n : ℕ) (p : ℕ → Bool) (a : ℕ) : List ℕ :=
  ((List.range' (a + 1) n).map (· % n)).filter p

/-- The first `t` elements of `l` again and again. -/
def turns (l : List ℕ) (t : ℕ) : List ℕ :=
  (List.range t).map fun i => l.getD (i % l.length) 0

variable {n a b c i t : ℕ} {p q : ℕ → Bool} {l : List ℕ}

/-! ## Rotations -/

/-- A cycle from two numbers that are equal around it. -/
theorem map_mod_congr {x y : ℕ} (h : x % n = y % n) (m : ℕ) :
    (List.range' x m).map (· % n) = (List.range' y m).map (· % n) := by
  rw [List.range'_eq_map_range, List.range'_eq_map_range, List.map_map, List.map_map]
  refine List.map_congr_left fun i _ => ?_
  simp only [Function.comp_apply]
  rw [Nat.add_mod, h, ← Nat.add_mod]

theorem map_mod_nodup (a n : ℕ) : ((List.range' (a + 1) n).map (· % n)).Nodup := by
  refine List.Nodup.map_on (fun x hx y hy heq => ?_) List.nodup_range'
  rw [List.mem_range'_1] at hx hy
  -- Two numbers with the same remainder differ by a multiple of `n`.
  have hx' := Nat.div_add_mod x n
  have hy' := Nat.div_add_mod y n
  rcases Nat.lt_trichotomy (x / n) (y / n) with hlt | heq' | hlt
  · have := Nat.mul_le_mul_left n (Nat.succ_le_of_lt hlt)
    rw [Nat.mul_succ] at this
    omega
  · rw [← hx', ← hy', heq', heq]
  · have := Nat.mul_le_mul_left n (Nat.succ_le_of_lt hlt)
    rw [Nat.mul_succ] at this
    omega

theorem rotation_nodup : (rotation n p a).Nodup := (map_mod_nodup a n).filter _

theorem mem_rotation (ha : a < n) : b ∈ rotation n p a ↔ b < n ∧ p b = true := by
  rw [rotation, List.mem_filter]
  refine and_congr_left fun _ => ⟨fun h => ?_, fun hb => ?_⟩
  · obtain ⟨j, -, rfl⟩ := List.mem_map.mp h
    exact Nat.mod_lt _ (by omega)
  · refine List.mem_map.mpr ?_
    by_cases hba : b = a
    · exact ⟨a + n, List.mem_range'_1.mpr ⟨by omega, by omega⟩, by
        rw [hba, Nat.add_mod_right, Nat.mod_eq_of_lt ha]⟩
    · have hpos := gap_pos ha hb hba
      have hlt := gap_lt (b := b) ha
      exact ⟨a + 1 + (gap n a b - 1), List.mem_range'_1.mpr ⟨by omega, by omega⟩,
        mod_gap ha hb hba⟩

theorem rotation_congr (h : ∀ b < n, p b = q b) : rotation n p a = rotation n q a := by
  refine List.filter_congr fun b hb => h b ?_
  obtain ⟨j, hj, rfl⟩ := List.mem_map.mp hb
  rw [List.mem_range'_1] at hj
  exact Nat.mod_lt _ (by omega)

/-- The closest number is the first one of the rotation, and its own rotation has it at the end. -/
theorem rotation_closest (ha : a < n) (hb : b < n) (hba : b ≠ a) (hpb : p b = true)
    (hmin : ∀ c < n, c ≠ a → p c = true → gap n a b ≤ gap n a c) :
    ∃ l, rotation n p a = b :: l ∧ rotation n p b = l ++ [b] := by
  have hpos := gap_pos ha hb hba
  have hlt := gap_lt (b := b) ha
  have hmod := mod_gap ha hb hba
  generalize hd : gap n a b = d at hpos hlt hmod hmin
  rw [show a + 1 + (d - 1) = a + d by omega] at hmod
  -- Nothing between `a` and `b` meets `p`.
  have hempty : ((List.range' (a + 1) (d - 1)).map (· % n)).filter p = [] := by
    rw [List.filter_eq_nil_iff]
    intro c hc hpc
    obtain ⟨j, hj, rfl⟩ := List.mem_map.mp hc
    rw [List.mem_range'_1] at hj
    have hgap := gap_mod (i := j - (a + 1)) ha (by omega)
    rw [show a + 1 + (j - (a + 1)) = j by omega] at hgap
    have hja : j % n ≠ a := by
      intro hja
      rw [hja, gap_eq ha ha] at hgap
      simp at hgap
    have := hmin (j % n) (Nat.mod_lt _ (by omega)) hja hpc
    omega
  have hfirst : ((List.range' (a + 1) d).map (· % n)).filter p = [b] := by
    have hsplit : List.range' (a + 1) d = List.range' (a + 1) (d - 1) ++ [a + d] := by
      rw [show d = (d - 1) + 1 by omega, List.range'_concat]
      simp only [Nat.add_sub_cancel, Nat.one_mul]
      rw [show a + 1 + (d - 1) = a + ((d - 1) + 1) by omega]
    rw [hsplit, List.map_append, List.filter_append, hempty, List.nil_append, List.map_singleton,
      hmod, List.filter_singleton, hpb, cond_true]
  refine ⟨((List.range' (a + d + 1) (n - d)).map (· % n)).filter p, ?_, ?_⟩
  · have hsplit : List.range' (a + 1) n =
        List.range' (a + 1) d ++ List.range' (a + d + 1) (n - d) := by
      rw [show a + d + 1 = a + 1 + d by omega, List.range'_append_1]
      congr 1
      omega
    rw [rotation, hsplit, List.map_append, List.filter_append, hfirst]
    rfl
  · have hshift : (List.range' (b + 1) n).map (· % n) =
        (List.range' (a + d + 1) n).map (· % n) := by
      refine map_mod_congr ?_ n
      rw [← hmod, Nat.add_mod, Nat.mod_mod, ← Nat.add_mod]
    have hsplit : List.range' (a + d + 1) n =
        List.range' (a + d + 1) (n - d) ++ List.range' (a + 1 + n) d := by
      rw [show a + 1 + n = a + d + 1 + (n - d) by omega, List.range'_append_1]
      congr 1
      omega
    rw [rotation, hshift, hsplit, List.map_append, List.filter_append,
      map_mod_congr (Nat.add_mod_right (a + 1) n) d, hfirst]

/-! ## Turns -/

theorem turns_succ (q : ℕ) (l : List ℕ) (t : ℕ) :
    turns (q :: l) (t + 1) = q :: turns (l ++ [q]) t := by
  rw [turns, List.range_succ_eq_map, List.map_cons, List.map_map]
  refine congrArg₂ List.cons (by simp) (List.map_congr_left fun i _ => ?_)
  have hlen : (l ++ [q]).length = l.length + 1 := by simp
  simp only [Function.comp_apply, List.length_cons, hlen, Nat.succ_eq_add_one]
  have hlt := Nat.mod_lt i (Nat.succ_pos l.length)
  have hdiv := Nat.div_add_mod i (l.length + 1)
  generalize i % (l.length + 1) = r at *
  have hnext : (i + 1) % (l.length + 1) = (r + 1) % (l.length + 1) := by
    rw [← hdiv, Nat.add_assoc, Nat.mul_add_mod]
  rw [hnext]
  rcases Nat.lt_or_ge r l.length with hr | hr
  · rw [Nat.mod_eq_of_lt (by omega), List.getD_cons_succ, List.getD_append _ _ _ _ hr]
  · obtain rfl : r = l.length := by omega
    rw [Nat.mod_self, List.getD_append_right _ _ _ _ le_rfl, Nat.sub_self]
    rfl

/-- Everyone gets an equal share of the turns. -/
theorem count_turns (hl : l.Nodup) (hb : b ∈ l) (t : ℕ) : (turns l t).count b =
    t / l.length + if l.idxOf b < t % l.length then 1 else 0 := by
  have hidx := List.idxOf_lt_length_of_mem hb
  have hpos : 0 < l.length := by omega
  have hcount := Nat.count_modEq_card t hpos (l.idxOf b)
  rw [Nat.mod_eq_of_lt hidx] at hcount
  rw [← hcount, turns, List.count, List.countP_map, Nat.count]
  refine List.countP_congr fun i _ => ?_
  have hi := Nat.mod_lt i hpos
  have hmod : i ≡ l.idxOf b [MOD l.length] ↔ i % l.length = l.idxOf b := by
    rw [Nat.ModEq, Nat.mod_eq_of_lt hidx]
  rw [Function.comp_apply, beq_iff_eq, decide_eq_true_eq, hmod, List.getD_eq_getElem _ _ hi]
  constructor
  · rintro rfl
    exact (hl.idxOf_getElem _ hi).symm
  · intro heq
    simp only [heq, List.getElem_idxOf]

end GemOS.Cyclic
