import GemOS.Lib.Run
import GemOS.Paging.Frames

/-!
# The bounds of the segments

`SYSCALL_EXPAND` and `SYSCALL_SHRINK` keep `next_free` between the start and the end of its segment,
with one exception. `SYSCALL_SHRINK` takes any 32-bit size; its check multiplies in 32 bits, while
its loop goes down page by page in 64 bits. `segments_bounded_iff` says that the bounds fail exactly
when a size of `2^20` pages or more passes the check by its lower bits.
-/

namespace GemOS.Paging

/-- The segment that the flags of a call select. -/
def selected (M : MapFlags) (flags : ℤ) : Option Seg :=
  if flags = M.wr then some .data else if flags = M.rd then some .rodata else none

/-- The flags of a call. -/
def Call.flags : Call → ℤ
  | .expand _ flags => flags
  | .shrink _ flags => flags

/-- The size of a call is a `u32`. -/
def Call.IsU32 : Call → Prop
  | .expand size _ => size < 2^32
  | .shrink size _ => size < 2^32

/-- What a call adds to `next_free`. -/
def Call.moved : Call → ℤ
  | .expand size _ => size * 4096
  | .shrink size _ => -(size * 4096)

/-- Both segments that grow and shrink have their `next_free` inside. -/
def Bounded (k : Kernel) : Prop :=
  ∀ seg, seg ≠ .stack → (k.mms seg).start ≤ (k.mms seg).nextFree ∧
    (k.mms seg).nextFree ≤ (k.mms seg).last

/-- The segments are where `src/Assn1/context.h` puts them. -/
structure Layout (k : Kernel) : Prop where
  /-- `DATA_START`. -/
  data : (k.mms .data).start = 0x180000000
  /-- `RODATA_START`. -/
  rodata : (k.mms .rodata).start = 0x140000000
  /-- The addresses have 48 bits. -/
  last : ∀ seg, seg ≠ .stack → (k.mms seg).last ≤ 2^48

/-- A call that returns 0 changes nothing, and one that succeeds moves only the `next_free` of the
segment that it selects, by exactly its size. -/
structure Exact (M : MapFlags) (k : Kernel) (c : Call) (r : ℕ) (k' : Kernel) : Prop where
  /-- A call that fails. -/
  failed : r = 0 → k' = k
  /-- A call that succeeds. -/
  moved : r ≠ 0 → ∃ seg, ∃ nextFree : ℕ, selected M c.flags = some seg ∧
    (nextFree : ℤ) = (k.mms seg).nextFree + c.moved ∧
    k'.mms = Function.update k.mms seg { k.mms seg with nextFree := nextFree }

/-- The check of `SYSCALL_SHRINK` is right about a call: its size is not more than what is in use,
or is rejected. -/
def CheckRight (M : MapFlags) (k : Kernel) : Call → Prop
  | .expand _ _ => True
  | .shrink size flags => ∀ seg, selected M flags = some seg →
      size * 4096 ≤ (k.mms seg).nextFree - (k.mms seg).start ∨
        (k.mms seg).nextFree - (k.mms seg).start < size * 4096 % 2^32

/-! ## One segment -/

variable {M : MapFlags} {k k' : Kernel} {seg : Seg} {size n : ℕ} {flags : ℤ} {c : Call} {r : ℕ}

/-- A segment as in the layout. -/
structure SegmentOk (s : Segment) : Prop where
  /-- The start is above 32 bits. -/
  start : 2^32 ≤ s.start
  /-- The part in use begins at the start. -/
  start_le : s.start ≤ s.nextFree
  /-- The part in use is inside. -/
  le_last : s.nextFree ≤ s.last
  /-- The addresses have 48 bits. -/
  last : s.last ≤ 2^48

theorem Layout.segmentOk (h : Layout k) (hb : Bounded k) (hseg : seg ≠ .stack) :
    SegmentOk (k.mms seg) := by
  refine ⟨?_, (hb seg hseg).1, (hb seg hseg).2, h.last seg hseg⟩
  cases seg with
  | data => rw [h.data]; decide
  | rodata => rw [h.rodata]; decide
  | stack => exact absurd rfl hseg

/-- `SYSCALL_EXPAND` of one segment. -/
theorem expandSegment_spec (h : SegmentOk (k.mms seg)) (hsize : size ≤ 512) :
    k.expandSegment seg size = (0, k) ∨
      (k.mms seg).nextFree + size * 4096 ≤ (k.mms seg).last ∧
        k.expandSegment seg size =
          ((k.mms seg).nextFree, k.setNextFree seg ((k.mms seg).nextFree + size * 4096)) := by
  obtain ⟨-, -, hle, hlast⟩ := h
  have hmod : ((k.mms seg).nextFree + size * 4096 % 2^32) % 2^64 = (k.mms seg).nextFree +
      size * 4096 := by
    omega
  unfold Kernel.expandSegment
  dsimp only
  rw [hmod]
  split_ifs with hgt
  · exact Or.inl rfl
  · exact Or.inr ⟨by omega, rfl⟩

theorem unmapPage_mms (k : Kernel) (address : ℕ) : (k.unmapPage address).mms = k.mms := by
  unfold Kernel.unmapPage
  dsimp only
  split_ifs <;> rfl

/-- The loop of `SYSCALL_SHRINK` goes down by one page in each round, modulo `2^64`. -/
theorem shrinkPage_iterate (h : (k.mms seg).nextFree < 2^64) (n : ℕ) :
    ((fun k : Kernel => k.shrinkPage seg)^[n] k).mms = Function.update k.mms seg
      { k.mms seg with nextFree := ((k.mms seg).nextFree + n * (2^64 - 4096)) % 2^64 } := by
  induction n with
  | zero =>
    rw [Function.iterate_zero, id, Nat.zero_mul, Nat.add_zero, Nat.mod_eq_of_lt h,
      Function.update_eq_self]
  | succ n ih =>
    rw [Function.iterate_succ_apply', Kernel.shrinkPage]
    dsimp only
    rw [unmapPage_mms, Kernel.setNextFree]
    dsimp only
    rw [ih, Function.update_self, Function.update_idem]
    refine congrArg (Function.update k.mms seg)
      (congrArg (fun a => { k.mms seg with nextFree := a }) ?_)
    dsimp only
    omega

/-- `SYSCALL_SHRINK` of one segment, when its check passes. -/
theorem shrinkSegment_pass (h : (k.mms seg).nextFree < 2^64)
    (hpass : ¬((k.mms seg).nextFree + 2^64 - size * 4096 % 2^32) % 2^64 < (k.mms seg).start) :
    (k.shrinkSegment seg size).1 = ((k.mms seg).nextFree + size * (2^64 - 4096)) % 2^64 ∧
      (k.shrinkSegment seg size).2.mms = Function.update k.mms seg { k.mms seg with
        nextFree := ((k.mms seg).nextFree + size * (2^64 - 4096)) % 2^64 } := by
  have hmms := shrinkPage_iterate h size
  unfold Kernel.shrinkSegment
  rw [if_neg hpass]
  refine ⟨?_, hmms⟩
  dsimp only
  rw [hmms, Function.update_self]

/-- `SYSCALL_SHRINK` of one segment, when its check is right. -/
theorem shrinkSegment_spec (h : SegmentOk (k.mms seg))
    (hcheck : size * 4096 ≤ (k.mms seg).nextFree - (k.mms seg).start ∨
      (k.mms seg).nextFree - (k.mms seg).start < size * 4096 % 2^32) :
    k.shrinkSegment seg size = (0, k) ∨
      size * 4096 ≤ (k.mms seg).nextFree - (k.mms seg).start ∧
        (k.shrinkSegment seg size).1 = (k.mms seg).nextFree - size * 4096 ∧
        (k.shrinkSegment seg size).2.mms =
          Function.update k.mms seg
            { k.mms seg with nextFree := (k.mms seg).nextFree - size * 4096 } := by
  obtain ⟨hstart, hle, hle', hlast⟩ := h
  by_cases hlow : ((k.mms seg).nextFree + 2^64 - size * 4096 % 2^32) % 2^64 < (k.mms seg).start
  · exact Or.inl (if_pos hlow)
  · -- The check has passed, so the size is not more than what is in use.
    have hsize : size * 4096 ≤ (k.mms seg).nextFree - (k.mms seg).start := by omega
    obtain ⟨hret, hmms⟩ := shrinkSegment_pass (by omega) hlow
    have hnext : ((k.mms seg).nextFree + size * (2^64 - 4096)) % 2^64 =
        (k.mms seg).nextFree - size * 4096 := by omega
    rw [hnext] at hret hmms
    exact Or.inr ⟨hsize, hret, hmms⟩

/-- When the check is wrong, `next_free` leaves the segment. -/
theorem shrinkSegment_outside (h : SegmentOk (k.mms seg)) (hsize : size < 2^32)
    (hcheck : ¬(size * 4096 ≤ (k.mms seg).nextFree - (k.mms seg).start ∨
      (k.mms seg).nextFree - (k.mms seg).start < size * 4096 % 2^32)) :
    ¬(((k.shrinkSegment seg size).2.mms seg).start ≤
        ((k.shrinkSegment seg size).2.mms seg).nextFree ∧
      ((k.shrinkSegment seg size).2.mms seg).nextFree ≤
        ((k.shrinkSegment seg size).2.mms seg).last) := by
  obtain ⟨hstart, hle, hle', hlast⟩ := h
  obtain ⟨hmore, hlow⟩ := not_or.mp hcheck
  have hpass : ¬((k.mms seg).nextFree + 2^64 - size * 4096 % 2^32) % 2^64 < (k.mms seg).start := by
    omega
  obtain ⟨-, hmms⟩ := shrinkSegment_pass (by omega) hpass
  rw [hmms, Function.update_self]
  -- `next_free` is below the start, or has wrapped around.
  have hnext : ((k.mms seg).nextFree + size * (2^64 - 4096)) % 2^64 < (k.mms seg).start ∨
      (k.mms seg).last < ((k.mms seg).nextFree + size * (2^64 - 4096)) % 2^64 := by omega
  exact fun hbounds => hnext.elim (Nat.not_lt.mpr hbounds.1) (Nat.not_lt.mpr hbounds.2)

/-! ## Calls -/

/-- A state that differs in one `next_free`, which is inside. -/
theorem Layout.update (h : Layout k) (n : ℕ)
    (hmms : k'.mms = Function.update k.mms seg { k.mms seg with nextFree := n }) : Layout k' := by
  have hkeep : ∀ s, (k'.mms s).start = (k.mms s).start ∧
      (k'.mms s).last = (k.mms s).last := fun s => by
    rw [hmms]
    by_cases hs : s = seg
    · rw [hs, Function.update_self]
      exact ⟨rfl, rfl⟩
    · rw [Function.update_of_ne hs]
      exact ⟨rfl, rfl⟩
  refine ⟨?_, ?_, fun s hs => ?_⟩
  · rw [(hkeep _).1, h.data]
  · rw [(hkeep _).1, h.rodata]
  · rw [(hkeep s).2]
    exact h.last s hs

theorem Bounded.update (h : Bounded k) (n : ℕ) (hn : (k.mms seg).start ≤ n ∧ n ≤ (k.mms seg).last)
    (hmms : k'.mms = Function.update k.mms seg { k.mms seg with nextFree := n }) : Bounded k' := by
  intro s hs
  rw [hmms]
  by_cases hseg : s = seg
  · rw [hseg, Function.update_self]
    exact hn
  · rw [Function.update_of_ne hseg]
    exact h s hs

theorem selected_ne_stack (h : selected M flags = some seg) : seg ≠ .stack := by
  unfold selected at h
  split_ifs at h <;> obtain rfl := Option.some.inj h <;> simp

theorem shrink_of_selected (k : Kernel) (size : ℕ) (h : selected M flags = some seg) :
    k.shrink M size flags = k.shrinkSegment seg size := by
  unfold selected at h
  split_ifs at h with hwr hrd <;> obtain rfl := Option.some.inj h
  · exact if_pos hwr
  · exact (if_neg hwr).trans (if_pos hrd)

theorem shrink_of_none (k : Kernel) (size : ℕ) (h : selected M flags = none) :
    k.shrink M size flags = (0, k) := by
  unfold selected at h
  split_ifs at h with hwr hrd
  exact (if_neg hwr).trans (if_neg hrd)

theorem expand_of_selected (k : Kernel) (hsize : size ≤ 512) (h : selected M flags = some seg) :
    k.expand M size flags = k.expandSegment seg size := by
  have hsize' : ¬size > 512 := by omega
  unfold selected at h
  split_ifs at h with hwr hrd <;> obtain rfl := Option.some.inj h
  · exact (if_neg hsize').trans (if_pos hwr)
  · exact (if_neg hsize').trans ((if_neg hwr).trans (if_pos hrd))

theorem expand_of_none (k : Kernel) (size : ℕ) (h : selected M flags = none) :
    k.expand M size flags = (0, k) := by
  unfold selected at h
  split_ifs at h with hwr hrd
  unfold Kernel.expand
  rw [if_neg hwr, if_neg hrd, ite_self]

/-- A call that moves `next_free` inside its segment. -/
theorem exact_of_moved (hl : Layout k) (hb : Bounded k)
    (hsel : selected M c.flags = some seg) (hr : r ≠ 0)
    (hn : (k.mms seg).start ≤ n ∧ n ≤ (k.mms seg).last)
    (hmoved : (n : ℤ) = (k.mms seg).nextFree + c.moved)
    (hmms : k'.mms = Function.update k.mms seg { k.mms seg with nextFree := n }) :
    Exact M k c r k' ∧ Layout k' ∧ Bounded k' :=
  ⟨⟨fun h0 => absurd h0 hr, fun _ => ⟨seg, n, hsel, hmoved, hmms⟩⟩, hl.update n hmms,
    hb.update n hn hmms⟩

/-- A call that fails. -/
theorem exact_of_failed (hl : Layout k) (hb : Bounded k) : Exact M k c 0 k ∧ Layout k ∧ Bounded k :=
  ⟨⟨fun _ => rfl, fun h => absurd rfl h⟩, hl, hb⟩

theorem expand_spec (hl : Layout k) (hb : Bounded k) (size : ℕ) (flags : ℤ) :
    Exact M k (.expand size flags) (k.expand M size flags).1 (k.expand M size flags).2 ∧
      Layout (k.expand M size flags).2 ∧ Bounded (k.expand M size flags).2 := by
  rcases Nat.lt_or_ge 512 size with hbig | hsize
  · rw [show k.expand M size flags = (0, k) from if_pos hbig]
    exact exact_of_failed hl hb
  · cases hsel : selected M flags with
    | none =>
      rw [expand_of_none k size hsel]
      exact exact_of_failed hl hb
    | some seg =>
      have hok := hl.segmentOk hb (selected_ne_stack hsel)
      rw [expand_of_selected k hsize hsel]
      rcases expandSegment_spec hok hsize with heq | ⟨hle, heq⟩ <;> rw [heq]
      · exact exact_of_failed hl hb
      · have hstart := hok.start
        have hle' := hok.start_le
        refine exact_of_moved hl hb hsel (by omega) ⟨by omega, hle⟩ ?_ rfl
        simp [Call.moved]

theorem shrink_spec (hl : Layout k) (hb : Bounded k)
    (hcheck : CheckRight M k (.shrink size flags)) :
    Exact M k (.shrink size flags) (k.shrink M size flags).1 (k.shrink M size flags).2 ∧
      Layout (k.shrink M size flags).2 ∧ Bounded (k.shrink M size flags).2 := by
  cases hsel : selected M flags with
  | none =>
    rw [shrink_of_none k size hsel]
    exact exact_of_failed hl hb
  | some seg =>
    have hok := hl.segmentOk hb (selected_ne_stack hsel)
    rw [shrink_of_selected k size hsel]
    rcases shrinkSegment_spec hok (hcheck seg hsel) with heq | ⟨hle, hret, hmms⟩
    · rw [heq]
      exact exact_of_failed hl hb
    · have hstart := hok.start
      have hstart' := hok.start_le
      have hlast := hok.le_last
      refine exact_of_moved hl hb hsel (by omega) ⟨by omega, by omega⟩ ?_ hmms
      rw [Call.moved]
      omega

theorem shrink_outside (hl : Layout k) (hb : Bounded k) (hsize : size < 2^32)
    (hcheck : ¬CheckRight M k (.shrink size flags)) : ¬Bounded (k.shrink M size flags).2 := by
  unfold CheckRight at hcheck
  push Not at hcheck
  obtain ⟨seg, hsel, hmore, hlow⟩ := hcheck
  have hseg := selected_ne_stack hsel
  rw [shrink_of_selected k size hsel]
  intro hb'
  exact shrinkSegment_outside (hl.segmentOk hb hseg) hsize (not_or.mpr ⟨by omega, by omega⟩)
    (hb' seg hseg)

/-- After a call whose check is wrong, the bounds fail. -/
theorem call_outside (hl : Layout k) (hb : Bounded k) (hsize : c.IsU32) (hcheck : ¬CheckRight M k c)
    (h : callStep M k c = some (r, k')) : ¬Bounded k' := by
  cases c with
  | expand size flags => exact absurd trivial hcheck
  | shrink size flags =>
    obtain ⟨-, rfl⟩ := Prod.mk.inj (Option.some.inj h)
    exact shrink_outside hl hb hsize hcheck

/-! ## Runs -/

/-- The bounds hold in every state of a run, and every call moves only what it should, if and only
if the check of every `SYSCALL_SHRINK` is right. -/
theorem segments_bounded_iff (M : MapFlags) (k : Kernel) (hl : Layout k) (hb : Bounded k)
    (calls : List Call) (hsize : ∀ c ∈ calls, c.IsU32) :
    ((∀ pre, pre <+: calls → ∃ hist k', Run.run (callStep M) k pre = some (hist, k') ∧ Bounded k') ∧
      Run.Along (callStep M) (fun k c => ∀ r k', callStep M k c = some (r, k') →
        Exact M k c r k') k calls) ↔
      Run.Along (callStep M) (CheckRight M) k calls := by
  have hstep : ∀ k c, Layout k ∧ Bounded k → CheckRight M k c →
      ∃ r k', callStep M k c = some (r, k') ∧ Exact M k c r k' ∧ Layout k' ∧ Bounded k' := by
    intro k c ⟨hl, hb⟩ hcheck
    cases c with
    | expand size flags => exact ⟨_, _, rfl, expand_spec hl hb size flags⟩
    | shrink size flags => exact ⟨_, _, rfl, shrink_spec hl hb hcheck⟩
  have hiff : (∀ pre, pre <+: calls → ∃ hist k', Run.run (callStep M) k pre = some (hist, k') ∧
      Bounded k') ↔ Run.Along (callStep M) (CheckRight M) k calls := by
    refine Run.forall_prefix_iff (fun k => Layout k ∧ Bounded k) Bounded (fun k hk => hk.2)
      (fun k c hk _ hcheck => ?_) (fun k c r k' hk hc hcheck heq => ?_) ⟨hl, hb⟩
      (Run.along_of_forall (P := fun _ c => c.IsU32) fun c hc _ => hsize c hc)
    · obtain ⟨r, k', heq, -, hk'⟩ := hstep k c hk hcheck
      exact ⟨r, k', heq, hk'⟩
    · exact call_outside hk.1 hk.2 hc hcheck heq
  refine ⟨fun h => hiff.mp h.1, fun h => ⟨hiff.mpr h, ?_⟩⟩
  refine Run.along_of_step (fun k => Layout k ∧ Bounded k) (fun k c hk hcheck => ?_) ⟨hl, hb⟩ h
  obtain ⟨r, k', heq, hexact, hk'⟩ := hstep k c hk hcheck
  have hsame : ∀ r₁ k₁, callStep M k c = some (r₁, k₁) → r₁ = r ∧ k₁ = k' := fun r₁ k₁ h₁ => by
    simpa using h₁.symm.trans heq
  refine ⟨fun r₁ k₁ h₁ => ?_, fun r₁ k₁ h₁ => ?_⟩
  · obtain ⟨rfl, rfl⟩ := hsame r₁ k₁ h₁
    exact hexact
  · obtain ⟨rfl, rfl⟩ := hsame r₁ k₁ h₁
    exact hk'

theorem layout_twoPages : Layout twoPages ∧ Bounded twoPages := by
  refine ⟨⟨rfl, rfl, fun seg hseg => ?_⟩, fun seg hseg => ?_⟩
  · cases seg <;> first | exact absurd rfl hseg | decide
  · cases seg <;> first | exact absurd rfl hseg | decide

/-- Below `2^20` pages nothing wraps. -/
theorem checkRight_of_lt (hsize : size < 2^20) : CheckRight M k (.shrink size flags) := by
  intro seg _
  rw [Nat.mod_eq_of_lt (by omega)]
  omega

/-- The data segment grows by three pages and shrinks by four. -/
theorem segments_bounded_data :
    (∀ pre, pre <+: [Call.expand 3 1, Call.shrink 4 1] →
        ∃ hist k', Run.run (callStep mapFlags) twoPages pre = some (hist, k') ∧ Bounded k') ∧
      Run.Along (callStep mapFlags)
        (fun k c => ∀ r k', callStep mapFlags k c = some (r, k') → Exact mapFlags k c r k') twoPages
        [.expand 3 1, .shrink 4 1] := by
  obtain ⟨hl, hb⟩ := layout_twoPages
  refine (segments_bounded_iff mapFlags twoPages hl hb [.expand 3 1, .shrink 4 1] ?_).mpr ?_
  · simp [Call.IsU32]
  · exact ⟨trivial, fun _ _ _ => ⟨checkRight_of_lt (by decide), fun _ _ _ => trivial⟩⟩

/-- A shrink by `2^20` pages passes the check, and `next_free` leaves the segment. -/
theorem segments_not_bounded :
    ¬((∀ pre, pre <+: [Call.shrink (2^20) 1] →
        ∃ hist k', Run.run (callStep mapFlags) twoPages pre = some (hist, k') ∧ Bounded k') ∧
      Run.Along (callStep mapFlags)
        (fun k c => ∀ r k', callStep mapFlags k c = some (r, k') → Exact mapFlags k c r k') twoPages
        [.shrink (2^20) 1]) := by
  rintro ⟨hall, -⟩
  obtain ⟨hist, k', hrun, hbounded⟩ := hall [.shrink (2^20) 1] (List.prefix_refl _)
  obtain ⟨r, k₁, t, hstep, hnil, -⟩ := Run.run_cons_some hrun
  obtain ⟨-, rfl⟩ := Prod.mk.inj (Option.some.inj hnil)
  obtain ⟨hl, hb⟩ := layout_twoPages
  have hsize : (Call.shrink (2^20) 1).IsU32 := by
    unfold Call.IsU32
    decide
  refine call_outside hl hb hsize (fun hcheck => ?_) hstep hbounded
  -- The lower 32 bits of the size in bytes are 0.
  have := hcheck .data rfl
  simp [twoPages] at this

end GemOS.Paging
