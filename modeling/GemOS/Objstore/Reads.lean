import GemOS.Objstore.Data

/-!
# The loop of `objstore_read`

Every round of the loop of `objstore_read` reads the same block, so that the loop does what
`deliver` does with the content of this block (`Store.readLoop_eq`), or it ends at once when the
block is beyond the end (`Store.readLoop_beyond`). A read keeps the contents of the disk.
-/

namespace GemOS.Objstore

/-- What the loop of `objstore_read` delivers when every round reads the block `C`. -/
def deliver (C : Block) : ℕ → (ℕ → UInt8) → ℕ → ℕ → Option (ℕ → UInt8)
  | 0, _, _, _ => none
  | fuel + 1, buf, offcheck, sizecheck =>
    if sizecheck = 0 then some buf
    else
      let n := if 4096 < sizecheck then 4096 else sizecheck
      deliver C fuel (fun i => if offcheck ≤ i ∧ i < offcheck + n then C.byte
        (i - offcheck) else buf i) (u32 (offcheck + 4096)) (u32 (sizecheck - 4096))

/-- All bytes delivered are from this block. -/
theorem deliver_byte {C : Block} {fuel : ℕ} {buf buf' : ℕ → UInt8} {offcheck sizecheck : ℕ}
    (h : deliver C fuel buf offcheck sizecheck = some buf') (i : ℕ) :
    buf' i = buf i ∨ ∃ j < 4096, buf' i = C.byte j := by
  induction fuel generalizing buf offcheck sizecheck with
  | zero => exact absurd h (by simp [deliver])
  | succ fuel ih =>
    rw [deliver] at h
    dsimp only at h
    split_ifs at h with h0 hn
    · exact Or.inl (congrFun (Option.some.inj h).symm i)
    all_goals
      refine (ih h).elim (fun heq => ?_) Or.inr
      rw [heq]
      split_ifs with hi
      · exact Or.inr ⟨i - offcheck, by omega, rfl⟩
      · exact Or.inl rfl

namespace Store

variable {σ : Type} [BlockLayer σ] {L : Lawful σ Set.univ} {s s' : Store σ}
  {obj : Object} {k off : ℕ}

/-- The loop of `objstore_read` for a block that is not beyond the end. -/
theorem readLoop_eq (h : L.inv s.layer) (hoff : off / 4096 = k) (hk : ¬obj.blocknum.toNat < k)
    (fuel : ℕ) (buf : ℕ → UInt8) (offcheck sizecheck : ℕ) :
    ∃ s', Calls L s s' (L.content s.layer) ∧ readLoop obj off fuel buf offcheck sizecheck s =
      (deliver (L.content s.layer (target (L.content s.layer) obj k)) fuel buf offcheck
        sizecheck).map fun buf => (true, buf, s') := by
  induction fuel generalizing s buf offcheck sizecheck with
  | zero => exact ⟨s, ⟨rfl, h, rfl⟩, rfl⟩
  | succ fuel ih =>
    by_cases h0 : sizecheck = 0
    · refine ⟨s, ⟨rfl, h, rfl⟩, ?_⟩
      rw [readLoop, deliver, if_pos h0, if_pos h0]
      rfl
    · obtain ⟨s₁, hread, hc₁⟩ := findReadCached_spec obj h hoff hk
        ((if 4096 < sizecheck then 4096 else sizecheck : ℕ) : ℤ)
      obtain ⟨s₂, hc₂, hloop⟩ := ih hc₁.inv
        (fun i =>
          if offcheck ≤ i ∧ i < offcheck + (if 4096 < sizecheck then 4096 else sizecheck) then
          (L.content s.layer (target (L.content s.layer) obj k)).byte (i - offcheck) else buf i)
        (u32 (offcheck + 4096)) (u32 (sizecheck - 4096))
      rw [hc₁.content] at hc₂ hloop
      refine ⟨s₂, hc₁.trans hc₂, ?_⟩
      rw [readLoop, deliver, if_neg h0, if_neg h0]
      dsimp only
      rw [hread]
      simp only [Option.bind_eq_bind, Option.bind_some]
      rw [if_neg (by omega), hloop]

/-- The loop of `objstore_read` for a block beyond the end. -/
theorem readLoop_beyond (s : Store σ) (hoff : off / 4096 = k)
    (hk : obj.blocknum.toNat < k) (fuel : ℕ)
    (buf : ℕ → UInt8) (offcheck sizecheck : ℕ) :
    readLoop obj off (fuel + 1) buf offcheck sizecheck s =
      some (decide (sizecheck = 0), buf, s) := by
  rw [readLoop]
  by_cases h0 : sizecheck = 0
  · rw [if_pos h0, decide_eq_true h0]
  · rw [if_neg h0, decide_eq_false h0]
    dsimp only
    rw [findReadCached_beyond s hoff hk]
    rfl

/-- `objstore_read` of an object with a record. -/
theorem objstoreRead_eq {id : ℕ} (h : L.inv s.layer) (h₂ : 2 ≤ id) (hlt : id < 2^20)
    (hrec : (record (L.content s.layer) id).id.toNat = id) (buf : ℕ → UInt8) (size offset : ℤ) :
    ∃ s₁, Calls L s s₁ (L.content s.layer) ∧ s.objstoreRead id buf size offset =
      (readLoop (record (L.content s.layer) id) (u32 offset) (2^20 + 1) buf (u32 offset)
        (u32 size) s₁).bind
        fun (ok, buf, s) => if ok then some (size, buf, s) else some (-1, buf, s) := by
  obtain ⟨s₁, hget, hc₁⟩ := getObjectById_spec h id (Set.mem_univ _)
  have hu : u64 (id : ℤ) = id := by
    unfold u64
    omega
  refine ⟨s₁, hc₁, ?_⟩
  rw [if_pos hrec] at hget
  unfold objstoreRead
  rw [hu, hget]
  simp only [Option.bind_eq_bind, Option.bind_some]
  rw [if_neg (by omega)]
  rfl

/-- The loop of `objstore_read` keeps the contents. -/
theorem readLoop_calls (h : L.inv s.layer) {fuel offcheck sizecheck : ℕ}
    {buf buf' : ℕ → UInt8} {ok : Bool}
    (hloop : readLoop obj off fuel buf offcheck sizecheck s = some (ok, buf', s')) :
    Calls L s s' (L.content s.layer) := by
  cases fuel with
  | zero => exact absurd hloop (by simp [readLoop])
  | succ fuel =>
    by_cases hk : obj.blocknum.toNat < off / 4096
    · rw [readLoop_beyond s rfl hk] at hloop
      obtain ⟨-, -, rfl⟩ : _ ∧ buf = buf' ∧ s = s' := by simpa using hloop
      exact ⟨rfl, h, rfl⟩
    · obtain ⟨s₁, hc, heq⟩ := readLoop_eq h rfl hk (fuel + 1) buf offcheck sizecheck
      rw [heq] at hloop
      obtain ⟨buf₁, -, heq⟩ := Option.map_eq_some_iff.mp hloop
      obtain ⟨-, -, rfl⟩ : true = ok ∧ buf₁ = buf' ∧ s₁ = s' := by simpa using heq
      exact hc

/-- `objstore_read` keeps the contents. -/
theorem objstoreRead_calls (h : L.inv s.layer) {objid size offset r : ℤ} {buf buf' : ℕ → UInt8}
    (hread : s.objstoreRead objid buf size offset = some (r, buf', s')) :
    Calls L s s' (L.content s.layer) := by
  obtain ⟨s₁, hget, hc₁⟩ := getObjectById_spec h (u64 objid) (Set.mem_univ _)
  unfold objstoreRead at hread
  rw [hget] at hread
  generalize 2^20 + 1 = fuel at hread
  by_cases hrec : (record (L.content s.layer) (u64 objid)).id.toNat = u64 objid
  · simp only [if_pos hrec, Option.bind_eq_bind, Option.bind_some] at hread
    split_ifs at hread with hid
    · obtain ⟨-, -, rfl⟩ : -1 = r ∧ buf = buf' ∧ s₁ = s' := by simpa using hread
      exact hc₁
    · obtain ⟨⟨ok, buf₁, s₂⟩, hloop, hr⟩ := Option.bind_eq_some_iff.mp hread
      have hc₂ := readLoop_calls hc₁.inv hloop
      rw [hc₁.content] at hc₂
      have hs' : s₂ = s' := by
        dsimp only at hr
        split_ifs at hr <;> exact congrArg (fun x => x.2.2) (Option.some.inj hr)
      exact hs' ▸ hc₁.trans hc₂
  · simp only [if_neg hrec, Option.bind_eq_bind, Option.bind_some] at hread
    obtain ⟨-, -, rfl⟩ : -1 = r ∧ buf = buf' ∧ s₁ = s' := by simpa using hread
    exact hc₁

end Store

end GemOS.Objstore
