import GemOS.Objstore.CacheRuns

/-!
# Write-back

`obj_sync` walks the buckets and writes the data of every dirty node to the disk (`Inv.objSync`).
After it the disk holds the view when the data of every clean node is on the disk, which every call
keeps that meets `DurableOk`. The one call that loses it, apart from those that `AccessOk` excludes,
is a read that hits a dirty node: the new node is clean.
-/

namespace GemOS.Objstore.Cache

/-- The contents `D` are those of the disk behind `c` after the dirty nodes among `H` were
written. -/
structure WrittenBack (c : Cache) (l : List ℕ) (H : ℕ → Prop) (D : ℕ → Block) : Prop where
  /-- The data of a dirty node of `H` is on the disk. -/
  done : ∀ a ∈ l, (c.heap.mem a).dirty = true → H a →
    D (c.heap.mem a).diskAddr = c.slots (c.heap.mem a).cacheAddr
  /-- The other blocks are unchanged. -/
  other : ∀ b, (∀ a ∈ l, (c.heap.mem a).dirty = true → H a → (c.heap.mem a).diskAddr ≠ b) →
    D b = c.disk.block b

/-- The contents after `obj_sync` visited the node `a`: the data of a dirty node goes to its
block. -/
def flush (c : Cache) (D : ℕ → Block) (a : ℕ) : ℕ → Block :=
  if (c.heap.mem a).dirty then
    Function.update D (c.heap.mem a).diskAddr (c.slots (c.heap.mem a).cacheAddr)
  else D

/-- What a call needs so that `obj_sync` finds all data, and the code does not check: the condition
of the access, and that a read hits no dirty node with data that the disk does not have. -/
def DurableOk (c : Cache) (op : Op) : Prop :=
  c.AccessOk op.block ∧ ∀ b buf, op = .read b buf → ∀ p, c.getCacheObj b = some (some p) →
    (c.heap.mem p).dirty = false ∨
      c.slots (c.heap.mem p).cacheAddr = c.disk.block (c.heap.mem p).diskAddr

variable {c c' : Cache} {D : ℕ → Block} {l : List ℕ} {B : ℕ → List ℕ} {H H' : ℕ → Prop} {op : Op}

theorem WrittenBack.congr (h : WrittenBack c l H D) (hH : ∀ a ∈ l, H a ↔ H' a) :
    WrittenBack c l H' D :=
  ⟨fun a ha hd ha' => h.done a ha hd ((hH a ha).mpr ha'),
    fun b hb => h.other b fun a ha hd ha' => hb a ha hd ((hH a ha).mp ha')⟩

/-- A clean node needs no write. -/
theorem WrittenBack.skip {p : ℕ} (h : WrittenBack c l H D) (hp : (c.heap.mem p).dirty = false) :
    WrittenBack c l (fun a => H a ∨ a = p) D := by
  have hne : ∀ a, (c.heap.mem a).dirty = true → a ≠ p := by
    rintro a ha rfl
    simp [hp] at ha
  refine ⟨fun a ha hd ha' => h.done a ha hd (ha'.resolve_right (hne a hd)), fun b hb => ?_⟩
  exact h.other b fun a ha hd ha' => hb a ha hd (Or.inl ha')

/-- The write of a dirty node. -/
theorem WrittenBack.write {p : ℕ} (h : WrittenBack c l H D) (hm : Shape c l B) (hp : p ∈ l)
    (hdirty : (c.heap.mem p).dirty = true) :
    WrittenBack c l (fun a => H a ∨ a = p)
      (Function.update D (c.heap.mem p).diskAddr (c.slots (c.heap.mem p).cacheAddr)) := by
  refine ⟨fun a ha hd ha' => ?_, fun b hb => ?_⟩
  · by_cases hap : a = p
    · rw [hap, Function.update_self]
    · rw [Function.update_of_ne fun heq => hap (hm.members.inj a ha p hp heq)]
      exact h.done a ha hd (ha'.resolve_right hap)
  · have hbp : b ≠ (c.heap.mem p).diskAddr := fun heq => hb p hp hdirty (Or.inr rfl) heq.symm
    rw [Function.update_of_ne hbp]
    exact h.other b fun a ha hd ha' => hb a ha hd (Or.inl ha')

/-- The nodes `L` are visited. -/
theorem WrittenBack.flush (hm : Shape c l B) {L : List ℕ} (hL : ∀ a ∈ L, a ∈ l)
    (h : WrittenBack c l H D) : WrittenBack c l (fun a => H a ∨ a ∈ L) (L.foldl c.flush D) := by
  induction L generalizing H D with
  | nil => exact h.congr fun a _ => by simp
  | cons a L ih =>
    have hflush : WrittenBack c l (fun q => H q ∨ q = a) (c.flush D a) := by
      unfold Cache.flush
      split_ifs with hdirty
      · exact h.write hm (hL a (by simp)) hdirty
      · exact h.skip (by simpa using hdirty)
    exact (ih (fun q hq => hL q (by simp [hq])) hflush).congr
      fun q _ => by rw [List.mem_cons, or_assoc]

/-- The walk of `obj_sync` through the rest `L` of a bucket. -/
theorem syncChain_spec {L : List ℕ} {p : Ptr} {fuel : ℕ} {d : Disk}
    (hchain : Chain c.heap.mem CacheObj.next p L) (hfuel : L.length < fuel) (hd : d.AllOk) :
    ∃ d', syncChain { c with disk := d } fuel p = some (true, { c with disk := d' }) ∧ d'.AllOk ∧
      d'.block = L.foldl c.flush d.block := by
  induction L generalizing p fuel d with
  | nil =>
    obtain ⟨k, rfl⟩ : ∃ k, fuel = k + 1 := ⟨fuel - 1, by omega⟩
    obtain rfl : p = none := hchain
    exact ⟨d, rfl, hd, rfl⟩
  | cons a L ih =>
    obtain ⟨k, rfl⟩ : ∃ k, fuel = k + 1 := ⟨fuel - 1, by omega⟩
    obtain ⟨rfl, hchain⟩ := hchain
    have hk : L.length < k := by simpa using hfuel
    unfold syncChain
    rw [List.foldl_cons, Cache.flush]
    by_cases hdirty : (c.heap.mem a).dirty = true
    · -- The node is written, with two calls into the system.
      rw [if_pos hdirty, if_pos hdirty]
      simp only [Disk.malloc4k, Disk.writeBlock, hd _, if_true]
      exact ih (d := { d with
          block := Function.update d.block (c.heap.mem a).diskAddr
            (c.slots (c.heap.mem a).cacheAddr)
          calls := d.calls + 1 + 1 }) hchain hk hd
    · rw [if_neg hdirty, if_neg hdirty]
      exact ih hchain hk hd

/-- The loop of `obj_sync` over the buckets from `i` on. -/
theorem syncBuckets_spec (hchain : ∀ v < 2^15, Chain c.heap.mem CacheObj.next (c.table v) (B v))
    (hfuel : ∀ v < 2^15, (B v).length < c.heap.fuel) {n i : ℕ} (hn : i + n ≤ 2^15) {d : Disk}
    (hd : d.AllOk) :
    ∃ (d' : Disk) (L : List ℕ),
      syncBuckets { c with disk := d } n i = some { c with disk := d' } ∧ d'.AllOk ∧
      (∀ a, a ∈ L ↔ ∃ v, i ≤ v ∧ v < i + n ∧ a ∈ B v) ∧ d'.block = L.foldl c.flush d.block := by
  induction n generalizing i d with
  | zero => exact ⟨d, [], rfl, hd, fun a => by simp; omega, rfl⟩
  | succ n ih =>
    obtain ⟨d₁, hrun₁, hd₁, hblock₁⟩ := syncChain_spec (hchain i (by omega)) (hfuel i (by omega)) hd
    obtain ⟨d₂, L, hrun₂, hd₂, hL, hblock₂⟩ := ih (i := i + 1) (by omega) hd₁
    refine ⟨d₂, B i ++ L, ?_, hd₂, fun a => ?_, ?_⟩
    · rw [syncBuckets]
      change (syncChain { c with disk := d } c.heap.fuel (c.table i)).bind _ = _
      rw [hrun₁, Option.bind_some]
      exact hrun₂
    · rw [List.mem_append, hL]
      constructor
      · rintro (ha | ⟨v, h₁, h₂, ha⟩)
        · exact ⟨i, le_rfl, by omega, ha⟩
        · exact ⟨v, by omega, by omega, ha⟩
      · rintro ⟨v, h₁, h₂, ha⟩
        rcases Nat.eq_or_lt_of_le h₁ with rfl | hlt
        · exact Or.inl ha
        · exact Or.inr ⟨v, hlt, by omega, ha⟩
    · rw [List.foldl_append, ← hblock₁, hblock₂]

/-- `obj_sync` visits the nodes of the buckets. -/
theorem objSync_spec (hchain : ∀ v < 2^15, Chain c.heap.mem CacheObj.next (c.table v) (B v))
    (hfuel : ∀ v < 2^15, (B v).length < c.heap.fuel) (hd : c.disk.AllOk) :
    ∃ (d : Disk) (L : List ℕ), c.objSync = some { c with disk := d } ∧ d.AllOk ∧
      (∀ a, a ∈ L ↔ ∃ v < 2^15, a ∈ B v) ∧ d.block = L.foldl c.flush c.disk.block := by
  obtain ⟨d, L, hrun, hd', hL, hblock⟩ :=
    syncBuckets_spec hchain hfuel (n := 2^15) (i := 0) (Nat.zero_add _).le hd
  exact ⟨d, L, hrun, hd', fun a => by simpa using hL a, hblock⟩

/-- `obj_sync` writes the data of the dirty nodes to the disk, and nothing else. -/
theorem Inv.objSync (h : Inv c l B) :
    ∃ d, c.objSync = some { c with disk := d } ∧ d.AllOk ∧
      WrittenBack c l (fun _ => True) d.block := by
  have hw : WrittenBack c l (fun _ => False) c.disk.block := ⟨by simp, fun _ _ => rfl⟩
  obtain ⟨d, L, hrun, hd, hL, hblock⟩ := objSync_spec (fun v _ => h.shape.buckets.chain v)
    (fun v _ => h.shape.buckets.fuel v) h.disk
  refine ⟨d, hrun, hd, ?_⟩
  rw [hblock]
  refine (hw.flush h.shape fun a ha => ?_).congr fun a ha => iff_of_true (Or.inr ?_) trivial
  · obtain ⟨v, -, hav⟩ := (hL a).mp ha
    exact ((h.shape.members.mem_iff v a).mp hav).1
  · exact (hL a).mpr ⟨_, Nat.mod_lt _ (by norm_num), (h.shape.members.mem_iff _ a).mpr ⟨ha, rfl⟩⟩

/-- When no data was lost, the disk holds the view after `obj_sync`. -/
theorem Inv.objSync_view (h : Inv c l B) (hs : ∀ a ∈ l, c.Synced a) :
    ∃ d, c.objSync = some { c with disk := d } ∧ d.block = c.view := by
  obtain ⟨d, hrun, -, hw⟩ := h.objSync
  refine ⟨d, hrun, (h.shape.view_eq (fun a ha => ?_) fun b hb => ?_).symm⟩
  · by_cases hdirty : (c.heap.mem a).dirty = true
    · exact (hw.done a ha hdirty trivial).symm
    · rw [(hs a ha).resolve_left hdirty, hw.other _ fun q hq hd _ heq => ?_]
      obtain rfl := h.shape.members.inj q hq a ha heq
      exact hdirty hd
  · exact (hw.other b fun a ha _ _ => hb a ha).symm

/-- The cache holds the contents `D`, and no data is lost: a clean node has the data of the disk. -/
def Durable (c : Cache) (D : ℕ → Block) : Prop :=
  ∃ l B, Inv c l B ∧ c.view = D ∧ ∀ a ∈ l, c.Synced a

/-- A call that meets the condition loses no data. -/
theorem Durable.step (h : Durable c D) (hok : c.DurableOk op) :
    ∃ r c', c.step op = some (r, c') ∧ Durable c' (op.apply D) := by
  obtain ⟨l, B, hinv, rfl, hs⟩ := h
  have hdue : ¬c.Cached op.block → ∀ z, c.Due z → c.Synced z :=
    fun _ z hz => hs z (hinv.shape.mem_of_due hz)
  cases op with
  | read b buf =>
    obtain ⟨c', l', B', hread, hinv', hview, -, hs'⟩ := hinv.readBlockModified hok.1 hdue buf
    refine ⟨(4096, c.view b), c', ?_, l', B', hinv', hview, hs' hs fun a ha hab => ?_⟩
    · change (c.readBlockModified b buf).map _ = _
      rw [show c.readBlockModified b buf = _ from hread]
      rfl
    · refine hok.2 b buf rfl a ?_
      have hget := hinv.shape.getCacheObj_some ha
      rwa [show (c.heap.mem a).diskAddr = b from hab] at hget
  | write b buf =>
    obtain ⟨c', l', B', hwrite, hinv', hview, -, hs'⟩ := hinv.writeBlockModified hok.1 hdue buf
    refine ⟨(0, buf), c', ?_, l', B', hinv', hview, hs' hs⟩
    change (c.writeBlockModified b buf).map _ = _
    rw [show c.writeBlockModified b buf = _ from hwrite]
    rfl

/-- A run whose calls meet the condition loses no data. -/
theorem durable_run (A : Allocator) {d : Disk} (hd : d.AllOk) (slots : ℕ → Block) {ops : List Op}
    (ha : Run.Along Cache.step DurableOk (empty A d slots) ops) :
    ∃ hist c, Run.run Cache.step (empty A d slots) ops = some (hist, c) ∧
      Durable c (latest d.block ops) := by
  have hempty : Durable (empty A d slots) (latest d.block []) :=
    ⟨[], _, inv_empty A hd slots, view_empty A d slots, by simp⟩
  obtain ⟨hist, c, hrun, hc⟩ := Run.run_of_step (h := [])
    (fun c (hist : List (Op × (ℤ × Block))) => Durable c (latest d.block (hist.map Prod.fst)))
    (fun c hist op hc hop => by
      obtain ⟨r, c', hstep, hc'⟩ := Durable.step hc hop
      exact ⟨r, c', hstep, by simpa [latest_concat] using hc'⟩) hempty ha
  refine ⟨hist, c, hrun, ?_⟩
  rwa [List.nil_append, Run.map_fst_of_run hrun] at hc

/-- After a run whose calls meet the condition, a cached block with data that the disk does not have
is dirty, and `obj_sync` leaves the latest write of every block on the disk. -/
theorem obj_sync_durable (A : Allocator) (d : Disk) (hd : d.AllOk) (slots : ℕ → Block)
    (ops : List Op) (ha : Run.Along Cache.step DurableOk (empty A d slots) ops) :
    ∃ hist c c', Run.run Cache.step (empty A d slots) ops = some (hist, c) ∧
      (∀ b p, c.getCacheObj b = some (some p) →
        c.slots (c.heap.mem p).cacheAddr ≠ c.disk.block b → (c.heap.mem p).dirty = true) ∧
      c.objSync = some c' ∧ ∀ b, c'.disk.block b = latest d.block ops b := by
  obtain ⟨hist, c, hrun, l, B, hinv, hview, hs⟩ := durable_run A hd slots ha
  obtain ⟨d', hsync, hd'⟩ := hinv.objSync_view hs
  refine ⟨hist, c, _, hrun, fun b p hp hne => ?_, hsync, fun b => ?_⟩
  · obtain ⟨hpl, rfl⟩ := hinv.shape.mem_of_getCacheObj hp
    exact (hs p hpl).resolve_right hne
  · change d'.block b = _
    rw [hd', hview]

/-- A write, followed by `obj_sync`. -/
theorem obj_sync_durable_write :
    ∃ hist c c', Run.run Cache.step (empty Allocator.bump zeroDisk fun _ => Block.zero)
        [.write 5 (fun _ => 1)] = some (hist, c) ∧
      (∀ b p, c.getCacheObj b = some (some p) →
        c.slots (c.heap.mem p).cacheAddr ≠ c.disk.block b → (c.heap.mem p).dirty = true) ∧
      c.objSync = some c' ∧ ∀ b, c'.disk.block b =
        latest zeroDisk.block [.write 5 (fun _ => 1)] b := by
  have hS : Spread {5} := ⟨by simp, by simp⟩
  have hok : (empty Allocator.bump zeroDisk fun _ => Block.zero).TransparentOk
      (.write 5 (fun _ => 1)) :=
    hS.transparentOk (inv_empty Allocator.bump (fun _ => rfl) _) (by simp) (by simp [Op.block])
  exact obj_sync_durable Allocator.bump zeroDisk (fun _ => rfl) (fun _ => Block.zero)
    [.write 5 (fun _ => 1)] ⟨⟨hok.1, fun b buf h => by cases h⟩, fun _ _ _ => trivial⟩

/-- A write and a read of one block: the read makes the node clean, and `obj_sync` does not write
it. -/
theorem obj_sync_not_durable :
    ¬∃ hist c c', Run.run Cache.step (empty Allocator.bump zeroDisk fun _ => Block.zero)
        [.write 5 (fun _ => 1), .read 5 Block.zero] = some (hist, c) ∧ c.objSync = some c' ∧
      c'.disk.block 5 = latest zeroDisk.block [.write 5 (fun _ => 1), .read 5 Block.zero] 5 := by
  rintro ⟨hist, c, c', hrun, hsync, hblock⟩
  have hS : Spread {5} := ⟨by simp, by simp⟩
  have hempty := inv_empty Allocator.bump (d := zeroDisk) (fun _ => rfl) fun _ => Block.zero
  have ha : Run.Along Cache.step TransparentOk _ [.write 5 (fun _ => 1), .read 5 Block.zero] :=
    hS.along hempty (by simp) (by simp [Op.block])
  obtain ⟨hist', c₁, hrun₁, l, B, hinv, -⟩ := holds_run Allocator.bump (fun _ => rfl) _ ha
  obtain ⟨-, rfl⟩ : hist' = hist ∧ c₁ = c := by simpa [hrun₁] using hrun
  obtain ⟨d, hsync₁, -, hw⟩ := hinv.objSync
  obtain rfl : { c₁ with disk := d } = c' := by simpa [hsync₁] using hsync
  -- The node of the block is clean, and the disk has a zero.
  have hclean : ((Run.run Cache.step (empty Allocator.bump zeroDisk fun _ => Block.zero)
      [.write 5 (fun _ => 1), .read 5 Block.zero]).bind fun r => (r.2.getCacheObj 5).map fun p =>
        (p.map fun p => (r.2.heap.mem p).dirty, r.2.disk.block 5 0)) = some (some false, 0) := by
    decide
  simp only [hrun₁, Option.bind_some, Option.map_eq_some_iff, Prod.mk.injEq] at hclean
  obtain ⟨_, hget, ⟨p, rfl, hdirty⟩, hzero⟩ := hclean
  have hother : d.block 5 = c₁.disk.block 5 := by
    refine hw.other 5 fun a ha hd _ hab => ?_
    have hget' := hinv.shape.getCacheObj_some ha
    rw [hab, hget] at hget'
    obtain rfl : p = a := by simpa using hget'
    simp [hdirty] at hd
  have hone : d.block 5 0 = 1 := congrFun hblock 0
  rw [hother, hzero] at hone
  exact absurd hone (by decide)

end GemOS.Objstore.Cache
