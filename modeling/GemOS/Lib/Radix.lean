import Mathlib.Data.List.Basic
import Mathlib.Data.List.Infix
import Mathlib.Logic.Function.Basic

/-!
# Radix trees of tables

A tree of `d` levels of tables: `child f i` is what the entry `i` of the table `f` points to, if it
is present. `node` follows a path from the root, and `nodes d` are the tables and leaves that the
tree has, by their paths. A table does not say where it is in the tree, so a store to it may show at
several paths. When no table has two paths, a store shows at the paths through its entry only:
`nodes_link` hangs a new node into an empty entry, and `nodes_unlink` empties the entry of a leaf.
-/

namespace GemOS.Radix

variable {φ ι : Type*}

/-- The node at the end of a path. -/
def node (child : φ → ι → Option φ) : φ → List ι → Option φ
  | r, [] => some r
  | r, i :: p => (child r i).bind fun c => node child c p

/-- The nodes of a tree with `d` levels of tables. -/
def nodes (d : ℕ) (child : φ → ι → Option φ) (root : φ) (p : List ι) : Option φ :=
  if p.length ≤ d then node child root p else none

variable {child child' : φ → ι → Option φ} {root f g : φ} {d : ℕ} {p q : List ι} {i : ι}

theorem node_append (p q : List ι) :
    node child root (p ++ q) = (node child root p).bind fun f => node child f q := by
  induction p generalizing root with
  | nil => rfl
  | cons i p ih =>
    simp only [List.cons_append, node]
    cases child root i with
    | none => rfl
    | some c => exact ih

theorem node_concat (p : List ι) (i : ι) :
    node child root (p ++ [i]) = (node child root p).bind fun f => child f i := by
  rw [node_append]
  simp [node]

/-- Paths through tables with more data are paths through the tables. -/
theorem node_map {ψ : Type*} {child₂ : ψ → ι → Option ψ} (π : φ → ψ)
    (h : ∀ f i, (child f i).map π = child₂ (π f) i) (p : List ι) :
    (node child root p).map π = node child₂ (π root) p := by
  induction p generalizing root with
  | nil => rfl
  | cons i p ih =>
    rw [node, node, ← h]
    cases child root i with
    | none => rfl
    | some c => exact ih

/-- Stores that change no entry on a path. -/
theorem node_congr
    (h : ∀ q j x, q ++ [j] <+: p → node child root q = some x → child' x j = child x j) :
    node child' root p = node child root p := by
  induction p generalizing root with
  | nil => rfl
  | cons i p ih =>
    have hroot : child' root i = child root i := h [] i root ⟨p, rfl⟩ rfl
    simp only [node, hroot]
    cases hc : child root i with
    | none => rfl
    | some c =>
      refine ih fun q j x hpre hq => h (i :: q) j x ?_ ?_
      · exact List.cons_prefix_cons.mpr ⟨rfl, hpre⟩
      · simp only [node, hc, Option.bind_some, hq]

theorem not_prefix_concat (p : List ι) (i : ι) : ¬p ++ [i] <+: p := by
  intro h
  have := h.length_le
  rw [List.length_append, List.length_singleton] at this
  omega

theorem nodes_nil (d : ℕ) : nodes d child root [] = some root := if_pos (Nat.zero_le d)

theorem nodes_of_le (h : p.length ≤ d) : nodes d child root p = node child root p := if_pos h

theorem nodes_concat (h : p.length < d) (hp : nodes d child root p = some f) (i : ι) :
    nodes d child root (p ++ [i]) = child f i := by
  rw [nodes_of_le (by omega)] at hp
  rw [nodes_of_le (by simp; omega), node_concat, hp, Option.bind_some]

/-- Nothing is behind an entry that is not present. -/
theorem nodes_eq_none (h : nodes d child root p = none) (hpq : p <+: q) :
    nodes d child root q = none := by
  obtain ⟨r, rfl⟩ := hpq
  unfold nodes at h ⊢
  split_ifs with hle
  · rw [if_pos (by rw [List.length_append] at hle; omega)] at h
    rw [node_append, h, Option.bind_none]
  · rfl

/-- A store to the entry `i` of the table at `p` shows at the paths through this entry only. -/
theorem nodes_of_other
    (hinj : ∀ p q x, nodes d child root p = some x → nodes d child root q = some x → p = q)
    (hp : nodes d child root p = some f) (hsame : ∀ j, j ≠ i → child' f j = child f j)
    (hother : ∀ q x, nodes d child root q = some x → x ≠ f → child' x = child x)
    (hq : ¬p ++ [i] <+: q) : nodes d child' root q = nodes d child root q := by
  unfold nodes
  split_ifs with hle
  · refine node_congr fun r j x hpre hr => ?_
    have hlen := hpre.length_le
    rw [List.length_append, List.length_singleton] at hlen
    have hr' : nodes d child root r = some x := by rw [nodes_of_le (by omega), hr]
    by_cases hx : x = f
    · subst hx
      obtain rfl := hinj r p x hr' hp
      refine hsame j ?_
      rintro rfl
      exact hq hpre
    · rw [hother r x hr' hx]
  · rfl

/-- Stores that change no table of the tree do not show. -/
theorem nodes_congr (h : ∀ q x, nodes d child root q = some x → child' x = child x) :
    nodes d child' root = nodes d child root := by
  funext p
  unfold nodes
  split_ifs with hle
  · refine node_congr fun q j x hpre hq => ?_
    have hlen := hpre.length_le
    rw [List.length_append, List.length_singleton] at hlen
    rw [h q x (by rw [nodes_of_le (by omega), hq])]
  · rfl

section

variable [DecidableEq ι]

/-- A node that the tree does not have is hung into an empty entry. -/
theorem nodes_link (hinj : ∀ p q x, nodes d child root p = some x →
    nodes d child root q = some x → p = q)
    (hp : nodes d child root p = some f) (hlen : p.length < d) (hempty : child f i = none)
    (hset : child' f i = some g) (hsame : ∀ j, j ≠ i → child' f j = child f j)
    (hother : ∀ x, x ≠ f → x ≠ g → child' x = child x) (hfresh : ∀ q, nodes d child root q ≠ some g)
    (hnew : p.length + 1 < d → ∀ j, child' g j = none) :
    nodes d child' root = Function.update (nodes d child root) (p ++ [i]) (some g) := by
  have hout : ∀ q, ¬p ++ [i] <+: q → nodes d child' root q = nodes d child root q := fun q =>
    nodes_of_other hinj hp hsame fun r x hr hx => hother x hx fun hg => hfresh r (hg ▸ hr)
  have hp' : nodes d child' root p = some f := by
    rw [hout p (not_prefix_concat p i), hp]
  funext q
  by_cases hq : q = p ++ [i]
  · rw [hq, Function.update_self, nodes_concat hlen hp', hset]
  · rw [Function.update_of_ne hq]
    by_cases hpre : p ++ [i] <+: q
    · -- Behind the new node is nothing, as there was before.
      rw [nodes_eq_none ((nodes_concat hlen hp i).trans hempty) hpre]
      obtain ⟨r, rfl⟩ := hpre
      cases r with
      | nil => exact absurd (List.append_nil _) hq
      | cons j r =>
        unfold nodes
        split_ifs with hle
        · simp only [List.length_append, List.length_cons, List.length_nil] at hle
          rw [nodes_of_le (by omega)] at hp'
          rw [node_append, node_concat, hp', Option.bind_some, hset, Option.bind_some, node,
            hnew (by omega) j, Option.bind_none]
        · rfl
    · exact hout q hpre

/-- The entry of a leaf is emptied. -/
theorem nodes_unlink (hinj : ∀ p q x, nodes d child root p = some x →
    nodes d child root q = some x → p = q)
    (hp : nodes d child root p = some f) (hlen : p.length + 1 = d) (hset : child' f i = none)
    (hsame : ∀ j, j ≠ i → child' f j = child f j) (hother : ∀ x, x ≠ f → child' x = child x) :
    nodes d child' root = Function.update (nodes d child root) (p ++ [i]) none := by
  have hout : ∀ q, ¬p ++ [i] <+: q → nodes d child' root q = nodes d child root q := fun q =>
    nodes_of_other hinj hp hsame fun r x _ hx => hother x hx
  have hp' : nodes d child' root p = some f := by
    rw [hout p (not_prefix_concat p i), hp]
  funext q
  by_cases hq : q = p ++ [i]
  · rw [hq, Function.update_self, nodes_concat (by omega) hp', hset]
  · rw [Function.update_of_ne hq]
    by_cases hpre : p ++ [i] <+: q
    · -- A longer path leaves the tree.
      have hlt : ¬q.length ≤ d := by
        have hle := hpre.length_le
        rw [List.length_append, List.length_singleton] at hle
        intro hqd
        exact hq (hpre.eq_of_length (by simp; omega)).symm
      rw [nodes, if_neg hlt, nodes, if_neg hlt]
    · exact hout q hpre

end

end GemOS.Radix
