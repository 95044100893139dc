import GemOS.Objstore.Objects
import GemOS.Lib.Run

/-!
# Values of one block

Runs of `create_object`, of `objstore_write` of at most one block at offset 0, and of
`objstore_read` of this block. The invariant `HoldsValues` has a ghost map from the blocks in use to
the objects: an object that was written has an indirect block and a data block of its own, and the
data block holds the last write. The first write of an object takes two blocks that are free, later
ones the data block.
-/

namespace GemOS.Objstore

/-- A call that creates, writes, or reads an object. -/
inductive ValueOp where
  /-- `create_object(key)`. -/
  | create (key : List UInt8)
  /-- `objstore_write(objid, data, size, 0)`. -/
  | write (objid : ℤ) (data : ℕ → UInt8) (size : ℤ)
  /-- `objstore_read(objid, buf, 4096, 0)`. -/
  | read (objid : ℤ) (buf : ℕ → UInt8)

/-- A call on the store: its result, and the user's buffer after it. -/
def Store.valueStep {σ : Type} [BlockLayer σ] (s : Store σ) :
    ValueOp → Option ((ℤ × (ℕ → UInt8)) × Store σ)
  | .create key => (s.createObject key).map fun (r, s) => ((r, fun _ => 0), s)
  | .write objid data size => (s.objstoreWrite objid data size 0).map fun (r, s) => ((r, data), s)
  | .read objid buf => (s.objstoreRead objid buf 4096 0).map fun (r, buf, s) => ((r, buf), s)

/-- The writes after a call: the buffer and the size of the last one to each object. -/
def ValueOp.apply (m : ℤ → Option ((ℕ → UInt8) × ℤ)) : ValueOp → ℤ → Option ((ℕ → UInt8) × ℤ)
  | .write objid data size => Function.update m objid (some (data, size))
  | _ => m

/-- The last write to each object in a history. -/
def lastWrite (hist : List (ValueOp × ℤ × (ℕ → UInt8))) : ℤ → Option ((ℕ → UInt8) × ℤ) :=
  hist.foldl (fun m x => x.1.apply m) fun _ => none

/-- What a call returns: a read the data of the last write and zeros behind it. -/
def ReadsBack (hist : List (ValueOp × ℤ × (ℕ → UInt8))) : ValueOp → ℤ × (ℕ → UInt8) → Prop
  | .create _, _ => True
  | .write _ _ size, (r, _) => r = size
  | .read objid _, (r, buf) => ∀ data size, lastWrite hist objid = some (data, size) →
      r = 4096 ∧ ∀ i < 4096, buf i = if (i : ℤ) < size then data i else 0

/-- What is asked of a call: a key is valid, and a write is of at most one block to an object that
exists. The first write to an object needs two free blocks. -/
def ValueOk {σ : Type} [BlockLayer σ] (L : Lawful σ Set.univ) (s : Store σ) : ValueOp → Prop
  | .create key => KeyOk key
  | .write objid _ size => 0 < size ∧ size ≤ 4096 ∧ InUse s.toTables objid ∧
      ((record (L.content s.layer) objid.toNat).blocknum = 0 → TwoFree s.toTables)
  | .read _ _ => True

variable {σ : Type} [BlockLayer σ] {L : Lawful σ Set.univ} {s s' : Store σ} {B : ℕ → List ℕ}
  {D : ℕ → Block} {own : ℕ → Option (ℕ × Bool)} {hist : List (ValueOp × ℤ × (ℕ → UInt8))} {id : ℕ}

/-- The object `id` holds the last write: its indirect block and its data block are its own. -/
structure HoldsValue (D : ℕ → Block) (own : ℕ → Option (ℕ × Bool)) (id : ℕ)
    (value : Block) : Prop where
  /-- Every write that appends counts two blocks. -/
  blocknum : (record D id).blocknum = 2
  /-- The indirect block is the object's. -/
  indirect : own ((record D id).level1 0).toNat = some (id, false)
  /-- The data block is the object's. -/
  data : own (target D (record D id) 0) = some (id, true)
  /-- The data. -/
  value : D (target D (record D id) 0) = value

/-- Every object holds its last write. -/
structure HoldsValues (L : Lawful σ Set.univ) (s : Store σ) (B : ℕ → List ℕ)
    (own : ℕ → Option (ℕ × Bool)) (hist : List (ValueOp × ℤ × (ℕ → UInt8))) : Prop where
  /-- The objects and their records. -/
  objects : Objects L s B
  /-- The blocks of the objects are in use. -/
  owned : ∀ b x, own b = some x → 17696 ≤ b ∧ s.blockmap.bit b = true
  /-- An object that was not written has no blocks. -/
  unwritten : ∀ id : ℕ, InUse s.toTables id → lastWrite hist id = none →
    (record (L.content s.layer) id).blocknum = 0
  /-- Only objects that exist were written. -/
  exist : ∀ objid, lastWrite hist objid ≠ none → InUse s.toTables objid
  /-- An object that was written holds the last write. -/
  written : ∀ (id : ℕ) data size, lastWrite hist id = some (data, size) →
    HoldsValue (L.content s.layer) own id (Store.writeBuf data size)

theorem lastWrite_append (hist : List (ValueOp × ℤ × (ℕ → UInt8))) (op : ValueOp)
    (r : ℤ × (ℕ → UInt8)) : lastWrite (hist ++ [(op, r)]) = op.apply (lastWrite hist) := by
  unfold lastWrite
  rw [List.foldl_append]
  rfl

/-- A write that leaves the record and the blocks of an object alone leaves its value. -/
theorem HoldsValue.frame {D' : ℕ → Block} {own' : ℕ → Option (ℕ × Bool)} {value : Block}
    (h : HoldsValue D own id value) (hrec : record D' id = record D id)
    (hD : ∀ b x, own b = some (id, x) → D' b = D b ∧ own' b = some (id, x)) :
    HoldsValue D' own' id value := by
  have hp := hD _ _ h.indirect
  have hd := hD _ _ h.data
  have htarget : target D' (record D' id) 0 = target D (record D id) 0 := by
    unfold target
    rw [hrec, show Store.level 0 = 0 from rfl, hp.1]
  refine ⟨by rw [hrec, h.blocknum], by rw [hrec, hp.2], by rw [htarget, hd.2], ?_⟩
  rw [htarget, hd.1, h.value]

namespace HoldsValues

theorem unowned (h : HoldsValues L s B own hist) {b : ℕ} (hb : s.blockmap.bit b = false) :
    own b = none := by
  cases hown : own b with
  | none => rfl
  | some x =>
    rw [(h.owned b x hown).2] at hb
    exact absurd hb (by simp)

theorem lt_of_written (h : HoldsValues L s B own hist) {v : (ℕ → UInt8) × ℤ}
    (hv : lastWrite hist id = some v) : 2 ≤ id ∧ id < 2^20 := by
  have huse := h.exist id (by rw [hv]; simp)
  exact ⟨by have := huse.1; omega, by have := huse.2.1; omega⟩

/-- A call that keeps the contents keeps the values. -/
theorem calls (h : HoldsValues L s B own hist) (hc : Store.Calls L s s' (L.content s.layer))
    {op : ValueOp} (hop : op.apply (lastWrite hist) = lastWrite hist) (r : ℤ × (ℕ → UInt8)) :
    HoldsValues L s' B own (hist ++ [(op, r)]) := by
  refine ⟨h.objects.calls hc, ?_, ?_, ?_, ?_⟩ <;>
    simp only [lastWrite_append, hop, hc.tables, hc.content]
  · exact h.owned
  · exact h.unwritten
  · exact h.exist
  · exact h.written

/-- `create_object` keeps the values; a new object was not written. -/
theorem createObject (h : HoldsValues L s B own hist) {key : List UInt8} (hkey : KeyOk key) :
    ∃ r s' B', s.createObject key = some (r, s') ∧
      HoldsValues L s' B' own (hist ++ [(.create key, r, fun _ => 0)]) := by
  obtain ⟨r, s', B', hcreate, hnames, hr⟩ :=
    h.objects.names.createObject (fun b _ => Set.mem_univ b) hkey
  refine ⟨r, s', B', hcreate, ?_⟩
  rcases hr with ⟨-, -, rfl, hc⟩ | ⟨id, rfl, -, hc⟩
  · exact h.calls hc rfl _
  refine ⟨h.objects.created hnames hc, ?_, fun j huse hlast => ?_, fun j hlast => ?_,
    fun j data size hlast => ?_⟩ <;> try rw [lastWrite_append] at hlast
  · rw [hc.blockmap]
    exact h.owned
  · by_cases hne : j = id
    · rw [hne, hc.record_self, newObject_eq hkey.1]
    · have huse' := (hc.inUse_iff.mp huse).resolve_right hne
      obtain ⟨h₂, hlt, -⟩ := inUse_natCast.mp huse'
      rw [hc.record_of_ne h₂ hlt hne]
      exact h.unwritten j huse' hlast
  · obtain ⟨h₂, hlt, hbit⟩ := h.exist j hlast
    exact ⟨h₂, hlt, by rw [hc.bit, hbit, Bool.true_or]⟩
  · have hlast' : lastWrite hist j = some (data, size) := hlast
    obtain ⟨h₂, hlt⟩ := h.lt_of_written hlast'
    have hne : j ≠ id := fun hjid => hc.not_inUse (by
      rw [← hjid]
      exact h.exist j (by rw [hlast']; simp))
    refine (h.written j data size hlast').frame (hc.record_of_ne h₂ hlt hne) fun b x hb => ⟨?_, hb⟩
    have hge := (h.owned b _ hb).1
    exact hc.content_of_not_mem (by rw [recordBlocks, Finset.mem_Ico]; omega)

/-- What a write to the object `id` has to keep. -/
theorem wrote (h : HoldsValues L s B own hist) {own' : ℕ → Option (ℕ × Bool)} {data : ℕ → UInt8}
    {size : ℤ} (huse : InUse s.toTables id) (hw : Wrote L s s' id)
    (howned : ∀ b x, own' b = some x → 17696 ≤ b ∧ s'.blockmap.bit b = true)
    (hother : ∀ j, j ≠ id → ∀ b x, own b = some (j, x) →
      L.content s'.layer b = L.content s.layer b ∧ own' b = some (j, x))
    (hval : HoldsValue (L.content s'.layer) own' id (Store.writeBuf data size)) :
    HoldsValues L s' B own' (hist ++ [(.write id data size, size, data)]) := by
  have hself : (ValueOp.write id data size).apply (lastWrite hist) id = some (data, size) :=
    Function.update_self _ _ _
  -- The last write to another object is still the same one.
  have hlast' : ∀ j : ℤ, j ≠ id → (ValueOp.write id data size).apply (lastWrite hist) j =
      lastWrite hist j := fun j hne => Function.update_of_ne hne _ _
  refine ⟨h.objects.wrote hw, howned, fun j hj hlast => ?_, fun j hlast => ?_,
    fun j data' size' hlast => ?_⟩ <;> rw [lastWrite_append] at hlast
  · have hne : j ≠ id := by
      rintro rfl
      rw [hself] at hlast
      exact absurd hlast (by simp)
    rw [hlast' j (by exact_mod_cast hne)] at hlast
    rw [InUse, hw.inodemap] at hj
    obtain ⟨h₂, hlt, -⟩ := inUse_natCast.mp hj
    rw [hw.others j hne h₂ hlt]
    exact h.unwritten j hj hlast
  · rw [InUse, hw.inodemap]
    by_cases hne : j = id
    · rw [hne]
      exact huse
    · rw [hlast' j hne] at hlast
      exact h.exist j hlast
  · by_cases hne : j = id
    · subst hne
      rw [hself, Option.some.injEq, Prod.mk.injEq] at hlast
      rw [← hlast.1, ← hlast.2]
      exact hval
    · rw [hlast' j (by exact_mod_cast hne)] at hlast
      obtain ⟨h₂, hlt⟩ := h.lt_of_written hlast
      exact (h.written j data' size' hlast).frame (hw.others j hne h₂ hlt) (hother j hne)

/-- A write to an object that was written goes to its data block. -/
theorem overwrite (h : HoldsValues L s B own hist) {data : ℕ → UInt8} {size : ℤ} (hsize₀ : 0 < size)
    (hsize : size ≤ 4096) {v : (ℕ → UInt8) × ℤ} (hlast : lastWrite hist id = some v) :
    ∃ s', s.objstoreWrite id data size 0 = some (size, s') ∧
      HoldsValues L s' B own (hist ++ [(.write id data size, size, data)]) := by
  obtain ⟨h₂, hlt⟩ := h.lt_of_written hlast
  have huse := h.exist id (by rw [hlast]; simp)
  have hval := h.written id v.1 v.2 hlast
  obtain ⟨s', hwrite, hc⟩ := h.objects.overwrite huse data 0 hsize₀.le hsize
    (by decide : u32 0 / 4096 = 0) (by rw [hval.blocknum]; decide)
  set d := target (L.content s.layer) (record (L.content s.layer) id) 0 with hd
  have hge := (h.owned d _ hval.data).1
  have hrec : record (L.content s'.layer) id = record (L.content s.layer) id := by
    rw [hc.content, record_update_of_ge hge h₂ hlt]
  have hother : ∀ b, b ≠ d → L.content s'.layer b = L.content s.layer b := fun b hb => by
    rw [hc.content, Function.update_of_ne hb]
  -- The table is marked as a table and the block as data, so that the write leaves the table alone.
  have hp : ((record (L.content s.layer) id).level1 0).toNat ≠ d := fun hpd => by
    have hind := hval.indirect
    rw [hpd, hval.data] at hind
    exact absurd hind (by simp)
  have htarget : target (L.content s'.layer) (record (L.content s'.layer) id) 0 = d := by
    rw [hrec, target, show Store.level 0 = 0 from rfl, hother _ hp]
    rfl
  refine ⟨s', hwrite, h.wrote huse (Objects.wrote_of_overwrite hge h₂ hlt hc)
    (fun b x hb => by rw [hc.tables]; exact h.owned b x hb) (fun j hne b x hb => ⟨?_, hb⟩)
    ⟨?_, ?_, ?_, ?_⟩⟩
  · refine hother b fun hbd => hne ?_
    rw [hbd, hval.data, Option.some.injEq, Prod.mk.injEq] at hb
    exact hb.1.symm
  · rw [hrec, hval.blocknum]
  · rw [hrec, hval.indirect]
  · rw [htarget, hval.data]
  · rw [htarget, hc.content, Function.update_self]

/-- The first write to an object takes two free blocks. -/
theorem first (h : HoldsValues L s B own hist) {data : ℕ → UInt8} {size : ℤ} (hsize₀ : 0 < size)
    (hsize : size ≤ 4096) (huse : InUse s.toTables id) (hlast : lastWrite hist id = none)
    (hfree : TwoFree s.toTables) :
    ∃ s' own', s.objstoreWrite id data size 0 = some (size, s') ∧
      HoldsValues L s' B own' (hist ++ [(.write id data size, size, data)]) := by
  have h0 := h.unwritten id huse hlast
  obtain ⟨s', obj', d, hwrite, ha⟩ := h.objects.append huse data 0 hsize₀.le hsize
    (by decide : u32 0 / 4096 = 0) (by rw [h0]; rfl) (fun hne => absurd h0 hne)
    (by rw [h0]; exact Nat.not_lt_zero _) (by rw [Room, if_pos h0]; exact hfree)
  have hobj0 : obj'.blocknum = 0 := ha.blocknum.trans h0
  obtain ⟨-, hpge, hpd, hpfree⟩ := ha.first.resolve_right fun hold => hold.1 hobj0
  have hblock := ha.recordBlock_lt
  rw [ha.objId] at hblock
  have hind := ha.content_indirect hpge hpd
  rw [hobj0, show Store.level 0 = 0 from rfl] at hind
  have hlevel : (record (L.content s'.layer) id).level1 0 = obj'.level1 0 := by
    rw [ha.record_self]
    rfl
  -- `p` is the block of the table, `d` that of the data.
  obtain ⟨p, hp⟩ : ∃ p, p = (obj'.level1 0).toNat := ⟨_, rfl⟩
  rw [← hp] at hpge hpd hpfree hind
  have hpin : s'.blockmap.bit p = true := (ha.bit p).mpr (Or.inr (Or.inr ⟨hobj0, hp⟩))
  have hdin : s'.blockmap.bit d = true := (ha.bit d).mpr (Or.inr (Or.inl rfl))
  have htarget : target (L.content s'.layer) (record (L.content s'.layer) id) 0 = d := by
    rw [target, show Store.level 0 = 0 from rfl, hlevel, ← hp, hind]
    change (Block.entry (Block.setEntry _ 0 _) 0).toNat = d
    rw [Block.entry_setEntry_self _ (by norm_num),
      UInt32.toNat_ofNat_of_lt' (ha.lt.trans (by norm_num))]
  refine ⟨s', Function.update (Function.update own p (some (id, false))) d (some (id, true)),
    hwrite, h.wrote huse ha.wrote (fun b x hb => ?_) (fun j hne b x hb => ?_) ⟨?_, ?_, ?_, ?_⟩⟩
  · by_cases hbd : b = d
    · exact ⟨hbd ▸ ha.ge, hbd ▸ hdin⟩
    · rw [Function.update_of_ne hbd] at hb
      by_cases hbp : b = p
      · exact ⟨hbp ▸ hpge, hbp ▸ hpin⟩
      · rw [Function.update_of_ne hbp] at hb
        obtain ⟨hge, hin⟩ := h.owned b x hb
        exact ⟨hge, ha.wrote.blockmap b hin⟩
  · -- A block of another object was in use, so it is neither of the new ones.
    have hbp : b ≠ p := by
      rintro rfl
      rw [h.unowned hpfree] at hb
      exact absurd hb (by simp)
    have hbd : b ≠ d := by
      rintro rfl
      rw [h.unowned ha.free] at hb
      exact absurd hb (by simp)
    have hge := (h.owned b _ hb).1
    exact ⟨ha.content_of_ne (by omega) hbd (hp ▸ hbp),
      by rw [Function.update_of_ne hbd, Function.update_of_ne hbp, hb]⟩
  · rw [ha.record_self, appended, hobj0]
    rfl
  · rw [hlevel, ← hp, Function.update_of_ne hpd, Function.update_self]
  · rw [htarget, Function.update_self]
  · rw [htarget, ha.content_new]

/-- A read returns the last write. -/
theorem objstoreRead (h : HoldsValues L s B own hist) (objid : ℤ) (buf : ℕ → UInt8) :
    ∃ r buf' s', s.objstoreRead objid buf 4096 0 = some (r, buf', s') ∧
      HoldsValues L s' B own (hist ++ [(.read objid buf, r, buf')]) ∧
      ReadsBack hist (.read objid buf) (r, buf') := by
  obtain ⟨r, buf', s', hread, hc, hspec⟩ := Store.objstoreRead_spec h.objects.names.inv objid buf
  refine ⟨r, buf', s', hread, h.calls hc rfl _, fun data size hlast => ?_⟩
  obtain ⟨h₂, hlt, hbit⟩ := h.exist objid (by rw [hlast]; simp)
  obtain ⟨n, rfl⟩ := Int.eq_ofNat_of_zero_le (by omega : 0 ≤ objid)
  rw [Int.toNat_natCast] at hbit hspec
  obtain ⟨hr, hbuf⟩ := hspec h₂ hlt (h.objects.present n ⟨h₂, hlt, hbit⟩)
  refine ⟨hr, fun i hi => ?_⟩
  rw [hbuf i hi, (h.written n data size hlast).value, Store.writeBuf, Block.byte_ofBytes _ hi]

/-- Every call that meets the condition does what it should, and keeps the values. -/
theorem step (h : HoldsValues L s B own hist) {op : ValueOp} (hok : ValueOk L s op) :
    ∃ r s', s.valueStep op = some (r, s') ∧
      (∃ B own, HoldsValues L s' B own (hist ++ [(op, r)])) ∧ ReadsBack hist op r := by
  cases op with
  | create key =>
    obtain ⟨r, s', B', hcreate, h'⟩ := h.createObject hok
    exact ⟨_, s', by rw [Store.valueStep, hcreate]; rfl, ⟨B', own, h'⟩, trivial⟩
  | write objid data size =>
    obtain ⟨hsize₀, hsize, huse, hfree⟩ := hok
    obtain ⟨n, rfl⟩ := Int.eq_ofNat_of_zero_le (by have := huse.1; omega : 0 ≤ objid)
    cases hlast : lastWrite hist n with
    | none =>
      obtain ⟨s', own', hwrite, h'⟩ :=
        h.first hsize₀ hsize huse hlast (hfree (h.unwritten n huse hlast))
      exact ⟨_, s', by rw [Store.valueStep, hwrite]; rfl, ⟨B, own', h'⟩, rfl⟩
    | some v =>
      obtain ⟨s', hwrite, h'⟩ := h.overwrite hsize₀ hsize hlast
      exact ⟨_, s', by rw [Store.valueStep, hwrite]; rfl, ⟨B, own, h'⟩, rfl⟩
  | read objid buf =>
    obtain ⟨r, buf', s', hread, h', hback⟩ := h.objstoreRead objid buf
    exact ⟨_, s', by rw [Store.valueStep, hread]; rfl, ⟨B, own, h'⟩, hback⟩

end HoldsValues

/-- A new store holds no values. -/
theorem Fresh.holdsValues {t : Tables} (ht : Fresh t) {layer : σ} (hl : L.inv layer) :
    HoldsValues L ⟨t, layer⟩ (fun _ => []) (fun _ => none) [] :=
  ⟨ht.objects hl, by simp, fun _ huse => absurd huse (ht.not_inUse _),
    fun _ hlast => absurd rfl hlast, fun _ _ _ hlast => absurd hlast (by simp [lastWrite])⟩

/-- Over any lawful block layer, in every run of `create_object`, of writes of at most one block at
offset 0 to objects that exist, and of reads, each read returns the last write to its object and
zeros behind it. -/
theorem put_get {σ : Type} [BlockLayer σ] (L : Lawful σ Set.univ) {A : Allocator} {d d' : Disk}
    {t : Tables} {layer : σ} (hzero : ∀ b < 1312, d.block b = Block.zero)
    (hinit : objstoreInit d (Tables.new A) = some (0, d', t)) (hlayer : L.inv layer)
    (ops : List ValueOp) (hops : Run.Along Store.valueStep (ValueOk L) (⟨t, layer⟩ : Store σ) ops) :
    ∃ hist s, Run.run Store.valueStep (⟨t, layer⟩ : Store σ) ops = some (hist, s) ∧
      ∀ pre op r post, hist = pre ++ (op, r) :: post → ReadsBack pre op r := by
  obtain ⟨-, hfresh⟩ := objstoreInit_fresh hzero hinit
  obtain ⟨hist, s, hrun, -, hback⟩ := Run.history_of_step
    (fun (s : Store σ) hist => ∃ B own, HoldsValues L s B own hist) ReadsBack
    (fun s hist op ⟨B, own, hs⟩ hok => hs.step hok) ⟨_, _, hfresh.holdsValues hlayer⟩ hops
  exact ⟨hist, s, hrun, hback⟩

/-- Over a plain array of blocks: an object is created, written, and read. -/
theorem put_get_one :
    ∃ d' t, objstoreInit Cache.zeroDisk (Tables.new Allocator.bump) = some (0, d', t) ∧
      ∃ hist s, Run.run Store.valueStep (⟨t, ⟨fun _ _ => 7⟩⟩ : Store Plain)
          [.create [97], .write 2 (fun _ => 1) 5, .read 2 fun _ => 0] = some (hist, s) ∧
        ∀ pre op r post, hist = pre ++ (op, r) :: post → ReadsBack pre op r := by
  obtain ⟨d', t, hinit, -⟩ := mount_zeroDisk
  obtain ⟨-, hfresh⟩ := objstoreInit_fresh (fun _ _ => rfl) hinit
  have hkey : KeyOk [97] := by decide
  have hlayer : Plain.lawful.inv ⟨fun _ _ => 7⟩ := trivial
  obtain ⟨s, B, hcreate, -, huse, h0, hroom, -⟩ := hfresh.createFirst hlayer hkey
  refine ⟨d', t, hinit, put_get Plain.lawful (fun _ _ => rfl) hinit trivial _
    ⟨hkey, fun r s' hs => ⟨?_, fun _ _ _ => ⟨trivial, fun _ _ _ => trivial⟩⟩⟩⟩
  obtain rfl : s = s' := by
    rw [Store.valueStep, hcreate, Option.map_some, Option.some.injEq, Prod.mk.injEq] at hs
    exact hs.2
  rw [Room, if_pos h0] at hroom
  exact ⟨by norm_num, by norm_num, huse, fun _ => hroom⟩

end GemOS.Objstore
