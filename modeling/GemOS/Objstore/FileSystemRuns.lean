import GemOS.Objstore.FileSystem
import GemOS.Objstore.StackCache
import GemOS.Objstore.FiniteMap

/-!
# Runs of the file system

The store serves every run of legal calls as the abstract file system does (`fs_refines`), and never
runs out of blocks, as an object that is written in place has two of them. Over the cache this
holds as long as no call of the cache loses data (`fs_over_cache_refines`).
-/

namespace GemOS.Objstore

/-! ## Keys -/

/-- The key of a record depends on the field `key` only, if there is a NUL in this field. -/
theorem Object.keyString_congr {obj obj' : Object} {key : List UInt8} (hkey : KeyOk key)
    (hobj : obj.keyString = key) (heq : obj'.key = obj.key) : obj'.keyString = key := by
  refine Object.keyString_eq hkey fun i hi => ?_
  rw [heq, ← obj.bytes_key i.isLt]
  rcases hi.lt_or_eq with hlt | hend
  · have hprefix : key <+: (List.range 48).map fun i => obj.bytes (16 + i) := by
      rw [← hobj]
      exact List.takeWhile_prefix _
    have hget := hprefix.getElem hlt
    rw [List.getD_eq_getElem _ _ hlt, hget]
    simp
  · have hlen := hkey.1
    rw [hend, Object.bytes_of_keyString (by omega) hobj, List.getD_eq_default _ _ le_rfl]

variable {σ : Type} [BlockLayer σ] {L : Lawful σ Set.univ} {s s' : Store σ} {B B' : ℕ → List ℕ}
  {id : ℕ}

omit [BlockLayer σ] in
/-- An indirect block leaves the key of the object. -/
theorem Store.indirect_key {s₁ : Store σ} {obj obj' : Object} {k : ℕ}
    (h : s.indirect obj k = (some obj', s₁)) : obj'.key = obj.key := by
  unfold Store.indirect Store.fetchFreeBlock at h
  dsimp only at h
  split_ifs at h
  · simp at h
  all_goals
    dsimp only at h
    split_ifs at h
    · simp at h
    all_goals
      obtain rfl := Option.some.inj (congrArg Prod.fst h)
      rfl

/-! ## Blocks in use -/

theorem twoFree_of_card {t : Tables} (h : (usedBlocks t).card + 4 ≤ 2^23) : TwoFree t := by
  set free := (Finset.Ico 2 (2^23)).filter fun b => ¬t.blockmap.bit b = true with hfree
  have hcard : 1 < free.card := by
    have hsplit := Finset.card_filter_add_card_filter_not (s := Finset.Ico 2 (2^23))
      fun b => t.blockmap.bit b = true
    have hsub : ((Finset.Ico 2 (2^23)).filter fun b => t.blockmap.bit b = true).card ≤
        (usedBlocks t).card := by
      refine Finset.card_le_card fun b hb => ?_
      rw [Finset.mem_filter, Finset.mem_Ico] at hb
      exact Finset.mem_filter.mpr ⟨Finset.mem_range.mpr hb.1.2, hb.2⟩
    rw [Nat.card_Ico, ← hfree] at hsplit
    omega
  obtain ⟨a, ha, b, hb, hne⟩ := Finset.one_lt_card.mp hcard
  rw [hfree, Finset.mem_filter, Finset.mem_Ico, Bool.not_eq_true] at ha hb
  exact ⟨a, b, hne, ⟨ha.1.1, ha.1.2, ha.2⟩, hb.1.1, hb.1.2, hb.2⟩

theorem card_usedBlocks_le {t t' : Tables} (a b : ℕ)
    (h : ∀ c, t'.blockmap.bit c = true → t.blockmap.bit c = true ∨ c = a ∨ c = b) :
    (usedBlocks t').card ≤ (usedBlocks t).card + 2 := by
  have hsub : usedBlocks t' ⊆ insert a (insert b (usedBlocks t)) := fun c hc => by
    obtain ⟨hlt, hbit⟩ := Finset.mem_filter.mp hc
    rw [Finset.mem_insert, Finset.mem_insert]
    rcases h c hbit with hold | rfl | rfl
    · exact Or.inr (Or.inr (Finset.mem_filter.mpr ⟨hlt, hold⟩))
    · exact Or.inl rfl
    · exact Or.inr (Or.inl rfl)
  have h₁ := Finset.card_insert_le a (insert b (usedBlocks t))
  have h₂ := Finset.card_insert_le b (usedBlocks t)
  have h₃ := Finset.card_le_card hsub
  omega

/-! ## The first write to an object -/

/-- The first write to an object leaves its key, sets its size, and takes at most two blocks. -/
structure FirstWrite (L : Lawful σ Set.univ) (s s' : Store σ) (id : ℕ) (size : ℤ) : Prop where
  /-- What it leaves alone. -/
  wrote : Wrote L s s' id
  /-- The key. -/
  key : (record (L.content s'.layer) id).key = (record (L.content s.layer) id).key
  /-- The size. -/
  size : (record (L.content s'.layer) id).size = UInt32.ofInt size
  /-- The blocks. -/
  used : (usedBlocks s'.toTables).card ≤ (usedBlocks s.toTables).card + 2

theorem Objects.firstWrite (h : Objects L s B) (huse : InUse s.toTables id) (data : ℕ → UInt8)
    {size : ℤ} (hsize₀ : 0 ≤ size) (hsize : size ≤ 4096)
    (h0 : (record (L.content s.layer) id).blocknum = 0) (hfree : TwoFree s.toTables)
    (hwrite : s.objstoreWrite id data size 0 = some (size, s')) : FirstWrite L s s' id size := by
  obtain ⟨h₂, hlt, -⟩ := inUse_natCast.mp huse
  have hid := h.present id huse
  have hroom : Room s.toTables (record (L.content s.layer) id) := by rwa [Room, if_pos h0]
  have heven : (record (L.content s.layer) id).blocknum.toNat % 2 = 0 := by rw [h0]; rfl
  have hk : ¬0 < (record (L.content s.layer) id).blocknum.toNat := by rw [h0]; exact lt_irrefl _
  obtain ⟨obj', t₁, b, t₂, hind, hprep, hfetch, hb⟩ := Store.prepare (σ := σ) 0 heven hroom
  have hobj : obj'.id.toNat = id := by rw [hprep.id, hid]
  obtain ⟨s₁, hwrite₁, hc⟩ := Store.objstoreWrite_append data 0 h.names.inv hsize₀ hsize h₂ hlt
    (by decide : u32 0 / 4096 = 0) hid hind hobj (by rwa [hprep.blocknum]) hfetch
  obtain rfl : s₁ = s' := congrArg Prod.snd (Option.some.inj (hwrite₁.symm.trans hwrite))
  have hrec : record (L.content s₁.layer) id = appended obj' size 0 := by
    rw [hc.content, ← hobj]
    exact record_appendTo_self
  have hkey : obj'.key = (record (L.content s.layer) id).key := Store.indirect_key (hind s.layer)
  obtain ⟨s₂, obj₂, c, hwrite₂, ha⟩ := h.append huse data 0 hsize₀ hsize
    (by decide : u32 0 / 4096 = 0) heven (fun hne => absurd h0 hne) hk hroom
  obtain rfl : s₂ = s₁ := congrArg Prod.snd (Option.some.inj (hwrite₂.symm.trans hwrite))
  refine ⟨ha.wrote, ?_, ?_, ?_⟩
  · rw [hrec]
    exact hkey
  · rw [hrec]
    have hnum : obj'.blocknum = 0 := hprep.blocknum.trans h0
    unfold appended Store.newSize
    rw [hnum]
    rfl
  · refine card_usedBlocks_le c (obj₂.level1 0).toNat fun q hq => ?_
    exact ((ha.bit q).mp hq).imp_right (Or.imp_right And.right)

/-! ## The invariant -/

/-- The store holds the file system `F`. The ghosts are those of the namespace and of the values. -/
structure Tracks (L : Lawful σ Set.univ) (s : Store σ) (F : FileSystem) (B : ℕ → List ℕ)
    (own : ℕ → Option (ℕ × Bool)) (names : List (NameOp × ℤ))
    (values : List (ValueOp × ℤ × (ℕ → UInt8))) : Prop where
  /-- The namespace. -/
  map : HoldsMap L s B names
  /-- The values. -/
  holds : HoldsValues L s B own values
  /-- The handles are the ids that were created. -/
  handle : ∀ name (id : ℕ), F.handle name = some id ↔ WasCreated names name id
  /-- The names are valid. -/
  nameOk : ∀ name id, F.handle name = some id → NameOk name
  /-- The last writes. -/
  last : ∀ id : ℕ, lastWrite values id = (F.last id).map fun w => (w.1, (w.2 : ℤ))
  /-- A file that was not written is empty. -/
  unwritten : ∀ id, ¬F.Written id → F.first id = 0
  /-- The sizes. -/
  first : ∀ id : ℕ, InUse s.toTables id → (record (L.content s.layer) id).size.toNat = F.first id
  /-- A file that was written has two blocks. -/
  used : (usedBlocks s.toTables).card ≤ 17696 + 2 * F.writtenFiles.card

variable {F : FileSystem} {own : ℕ → Option (ℕ × Bool)} {names : List (NameOp × ℤ)}
  {values : List (ValueOp × ℤ × (ℕ → UInt8))} {name : List UInt8} {d : Defaults}

namespace Tracks

/-- A lookup of the store is one of the file system. -/
theorem lookup_eq (h : Tracks L s F B own names values) (name : List UInt8) :
    lookup hash (s.ids B) (keyOf (L.content s.layer)) name = F.handle name := by
  refine Option.ext fun id => ?_
  rw [h.handle, h.map.lookup_iff]
  constructor
  · exact fun hid => ⟨id, rfl, hid⟩
  · rintro ⟨n, hn, hlookup⟩
    obtain rfl : n = id := by exact_mod_cast hn
    exact hlookup

theorem isFile_iff (h : Tracks L s F B own names values) (h₂ : 2 ≤ id) (hlt : id < 2^20) :
    F.IsFile id ↔ s.inodemap.bit id = true := by
  rw [h.map.used_iff id h₂ hlt]
  simp only [h.lookup_eq]
  rfl

theorem inUse (h : Tracks L s F B own names values) (hfile : F.IsFile id) :
    InUse s.toTables id := by
  obtain ⟨name, hname⟩ := hfile
  rw [← h.lookup_eq] at hname
  have hpresent := h.map.names.present (mem_of_lookup hname).1
  exact inUse_natCast.mpr ⟨hpresent.two_le, hpresent.lt, hpresent.bit⟩

/-- Every object has a name, which is its key. -/
theorem keyOf_mem (h : Tracks L s F B own names values) {v : ℕ} (hid : id ∈ s.ids B v) :
    ∃ name, NameOk name ∧ keyOf (L.content s.layer) id = name := by
  have hpresent := h.map.names.present hid
  obtain ⟨name, hname⟩ := (h.isFile_iff hpresent.two_le hpresent.lt).mpr hpresent.bit
  refine ⟨name, h.nameOk name id hname, ?_⟩
  rw [← h.lookup_eq] at hname
  exact (mem_of_lookup hname).2

/-- No key has a slash in front. -/
theorem files (h : Tracks L s F B own names values) : Store.Files L s B := by
  refine ⟨h.map.names, fun v id hid name heq => ?_⟩
  obtain ⟨name', hok, hkey⟩ := h.keyOf_mem hid
  refine hok.2 ?_
  rw [← hkey, heq]
  exact List.mem_cons_self

/-- Calls that keep the contents keep the file system. -/
theorem calls (h : Tracks L s F B own names values)
    (hc : Store.Calls L s s' (L.content s.layer)) : Tracks L s' F B own names values := by
  obtain ⟨⟨hnames, hlookup, hbit⟩, ⟨hobj, howned, hunw, hexist, hwritten⟩, hhandle, hok, hlast,
    hempty, hfirst, hused⟩ := h
  refine ⟨⟨hnames.calls hc, ?_, ?_⟩, ⟨hobj.calls hc, ?_, ?_, ?_, ?_⟩, hhandle, hok, hlast, hempty,
    ?_, ?_⟩ <;>
    simp only [hc.ids, hc.tables, hc.content] <;> assumption

/-- There are two free blocks. -/
theorem twoFree (h : Tracks L s F B own names values) : TwoFree s.toTables := by
  have hused := h.used
  have hcard := Finset.card_filter_le (Finset.range (2^20)) F.Written
  rw [Finset.card_range] at hcard
  refine twoFree_of_card ?_
  unfold FileSystem.writtenFiles at hused
  omega

end Tracks

/-! ## Calls that change nothing -/

theorem int_natCast {n : ℕ} (hn : n < 2^31) : int n = n := Int.bmod_eq_of_le (by omega) (by omega)

theorem u64_natCast {n : ℕ} (hn : n < 2^64) : u64 n = n := by
  unfold u64
  omega

theorem path_tail (name : List UInt8) : (path name).tail = name := rfl

/-- `fillup_size_details` of an object. -/
theorem Store.fillupSizeDetails_of_record (hinv : L.inv s.layer) (buf : Stat)
    (h : HasRecord (L.content s.layer) buf.stIno) :
    ∃ s', s.fillupSizeDetails buf = some (0, ⟨buf.stIno,
        (record (L.content s.layer) buf.stIno).size.toNat,
        (record (L.content s.layer) buf.stIno).blocknum.toNat⟩, s') ∧
      Calls L s s' (L.content s.layer) := by
  obtain ⟨s', hget, hc⟩ := getObjectById_spec hinv buf.stIno (Set.mem_univ _)
  rw [if_pos h.present] at hget
  refine ⟨s', ?_, hc⟩
  have h₂ := h.two_le
  unfold fillupSizeDetails
  rw [hget]
  simp only [Option.bind_eq_bind, Option.bind_some]
  rw [if_neg (by omega)]
  rfl

/-- A write that returns no error. -/
theorem Store.objfsWrite_of_some {fh size : ℕ} {buf : ℕ → UInt8} {offset r : ℤ}
    (hwrite : s.objstoreWrite (int fh) buf (int size) offset = some (r, s')) (hr : ¬int r < 0) :
    s.objfsWrite fh buf size offset = some (int r, s') := by
  unfold objfsWrite
  rw [hwrite]
  simp only [Option.bind_eq_bind, Option.bind_some]
  rw [if_neg hr]
  rfl

/-- A call does what the file system should do. -/
def Serves (L : Lawful σ Set.univ) (d : Defaults) (s : Store σ) (F : FileSystem) (c : FsCall) :
    Prop :=
  ∃ r s', s.fsStep d c = some (r, s') ∧ F.Replies d c r ∧
    ∃ B own names values, Tracks L s' (F.next (c, r)) B own names values

namespace Tracks

theorem blocknum_eq (h : Tracks L s F B own names values) (hfile : F.IsFile id) :
    (record (L.content s.layer) id).blocknum.toNat = if F.Written id then 2 else 0 := by
  have hlast := h.last id
  by_cases hw : F.Written id
  · obtain ⟨w, hw'⟩ := Option.isSome_iff_exists.mp hw
    rw [hw', Option.map_some] at hlast
    rw [if_pos hw, (h.holds.written id _ _ hlast).blocknum]
    rfl
  · rw [Option.not_isSome_iff_eq_none.mp hw, Option.map_none] at hlast
    rw [if_neg hw, h.holds.unwritten id (h.inUse hfile) hlast]
    rfl

/-- The attributes of a file are those of its record. -/
theorem stat_eq (h : Tracks L s F B own names values) (hfile : F.IsFile id) :
    F.stat d id = ⟨⟨id, (record (L.content s.layer) id).size.toNat,
      (record (L.content s.layer) id).blocknum.toNat⟩, d.uid, d.gid⟩ := by
  rw [h.blocknum_eq hfile, h.first id (h.inUse hfile)]
  rfl

theorem getattr (h : Tracks L s F B own names values) (d : Defaults) (name : List UInt8) :
    Serves L d s F (.getattr (path name)) := by
  by_cases hroot : path name = path []
  · refine ⟨.attributes 0 (FileSystem.rootStat d), s, ?_, ?_, B, own, names, values, h⟩
    · rw [Store.fsStep, Store.objfsGetattr, if_pos hroot]
      rfl
    · rw [FileSystem.Replies, if_pos hroot]
  obtain ⟨s₁, hfind, hc₁⟩ := h.map.names.findObjectId (fun b _ => Set.mem_univ b) name
  rw [h.lookup_eq] at hfind
  unfold Serves
  simp only [Store.fsStep, Store.objfsGetattr, FileSystem.Replies, if_neg hroot, path_tail, hfind,
    Option.bind_eq_bind, Option.bind_some]
  cases hname : F.handle name with
  | none => exact ⟨_, s₁, rfl, rfl, B, own, names, values, h.calls hc₁⟩
  | some fh =>
    have hfile : F.IsFile fh := ⟨name, hname⟩
    have h₁ := h.calls hc₁
    obtain ⟨h₂, hlt, -⟩ := inUse_natCast.mp (h.inUse hfile)
    have hrec : HasRecord (L.content s₁.layer) fh :=
      ⟨h₂, hlt, h₁.holds.objects.present fh (h₁.inUse hfile)⟩
    obtain ⟨s₂, hfill, hc₂⟩ := Store.fillupSizeDetails_of_record hc₁.inv
      { d.defFstat.toStat with stIno := fh } hrec
    simp only [Option.map_some, Option.getD_some, int_natCast (by omega : fh < 2^31),
      u64_natCast (by omega : fh < 2^64)]
    rw [if_neg (by omega), hfill]
    exact ⟨_, s₂, rfl, by rw [h₁.stat_eq hfile], B, own, names, values, h₁.calls hc₂⟩

theorem openFile (h : Tracks L s F B own names values) (d : Defaults) (name : List UInt8) :
    Serves L d s F (.openFile (path name)) := by
  obtain ⟨s', hc, hopen⟩ := h.map.names.objfsOpen (fun b _ => Set.mem_univ b) name
  rw [h.lookup_eq] at hopen
  unfold Serves
  simp only [Store.fsStep, FileSystem.Replies, path_tail, hopen]
  cases hname : F.handle name <;> exact ⟨_, s', rfl, rfl, B, own, names, values, h.calls hc⟩

theorem rename (h : Tracks L s F B own names values) (d : Defaults) (a b : List UInt8)
    (rest : ℕ → UInt8) : Serves L d s F (.rename (path a) (path b) rest) := by
  obtain ⟨s', hrename, hc⟩ := h.files.objfsRenameKey (fun b _ => Set.mem_univ b) a b rest
  refine ⟨.result (-EINVAL), s', ?_, rfl, B, own, names, values, h.calls hc⟩
  rw [Store.fsStep, hrename]
  rfl

theorem unlink (h : Tracks L s F B own names values) (d : Defaults)
    (hname : F.handle name = none) : Serves L d s F (.unlink (path name)) := by
  obtain ⟨r, s', hsearch, hc, hr⟩ := h.map.names.searchKey (fun b _ => Set.mem_univ b) name
  rw [h.lookup_eq, hname] at hr
  obtain ⟨-, rfl⟩ := hr.resolve_right fun ⟨_, _, _, _, _, _, hsome, _⟩ => by simp at hsome
  refine ⟨.result 0, s', ?_, rfl, B, own, names, values, h.calls hc⟩
  rw [Store.fsStep, Store.objfsUnlink, Store.destroyObject, path_tail, hsearch]
  rfl

/-! ## Reads and writes -/

theorem read (h : Tracks L s F B own names values) (d : Defaults) {fh : ℕ} (hfile : F.IsFile fh)
    (buf : ℕ → UInt8) : Serves L d s F (.read fh buf 4096 0) := by
  have huse := h.inUse hfile
  obtain ⟨h₂, hlt, -⟩ := inUse_natCast.mp huse
  obtain ⟨r, buf', s', hread, hc, hspec⟩ :=
    Store.objstoreRead_spec h.holds.objects.names.inv (fh : ℤ) buf
  rw [Int.toNat_natCast] at hspec
  obtain ⟨rfl, hbuf⟩ := hspec (by omega) (by omega) (h.holds.objects.present fh huse)
  refine ⟨.data 4096 buf', s', ?_, ⟨buf', rfl, fun data n hlast i hi => ?_⟩, B, own, names, values,
    h.calls hc⟩
  · rw [Store.fsStep, Store.objfsRead, int_natCast (by omega), int_natCast (by norm_num)]
    change Option.map _ ((s.objstoreRead fh buf 4096 0).bind _) = _
    rw [hread]
    rfl
  · have hlast' := h.last fh
    rw [hlast, Option.map_some] at hlast'
    rw [hbuf i hi, (h.holds.written fh data n hlast').value, Store.writeBuf,
      Block.byte_ofBytes _ hi]
    simp only [Nat.cast_lt]

/-- What a write to the file `id` has to keep. -/
theorem stored (h : Tracks L s F B own names values) (hfile : F.IsFile id)
    {own' : ℕ → Option (ℕ × Bool)} {buf : ℕ → UInt8} {size : ℕ} (hw : Wrote L s s' id)
    (hkey : (record (L.content s'.layer) id).key = (record (L.content s.layer) id).key)
    (hholds : HoldsValues L s' B own' (values ++ [(ValueOp.write id buf size, (size : ℤ), buf)]))
    (hsize : (record (L.content s'.layer) id).size.toNat = (F.store id buf size).first id)
    (hused : (usedBlocks s'.toTables).card ≤
      17696 + 2 * (F.store id buf size).writtenFiles.card) :
    Tracks L s' (F.store id buf size) B own' names
      (values ++ [(ValueOp.write id buf size, (size : ℤ), buf)]) := by
  have hids : s'.ids B = s.ids B := by
    unfold Store.ids
    rw [hw.heap]
  -- All objects keep their keys.
  have hkeyOf : ∀ v, ∀ j ∈ s.ids B v, keyOf (L.content s'.layer) j = keyOf (L.content s.layer) j :=
    fun v j hj => by
      obtain ⟨name, hok, hname⟩ := h.keyOf_mem hj
      by_cases hne : j = id
      · rw [hname, hne]
        exact Object.keyString_congr hok.1 (hne ▸ hname) hkey
      · have hpresent := h.map.names.present hj
        rw [keyOf, hw.others j hne hpresent.two_le hpresent.lt, keyOf]
  have hlookup : ∀ name, lookup hash (s'.ids B) (keyOf (L.content s'.layer)) name =
      lookup hash (s.ids B) (keyOf (L.content s.layer)) name := fun name => by
    rw [hids]
    exact lookup_congr rfl fun j hj => by rw [hkeyOf _ j hj]
  refine ⟨⟨hholds.objects.names, fun name n => ?_, fun n h₂ hlt => ?_⟩, hholds, h.handle, h.nameOk,
    fun j => ?_, fun j hj => ?_, fun j huse => ?_, hused⟩
  · rw [hlookup]
    exact h.map.lookup_iff name n
  · simp only [hlookup, hw.inodemap]
    exact h.map.used_iff n h₂ hlt
  · rw [lastWrite_append]
    by_cases hne : j = id
    · subst hne
      simp [ValueOp.apply, FileSystem.store]
    · have hcast : (j : ℤ) ≠ id := by exact_mod_cast hne
      have hlast : (F.store id buf size).last j = F.last j := Function.update_of_ne hne _ _
      rw [ValueOp.apply, Function.update_of_ne hcast, h.last j, hlast]
  · rw [FileSystem.written_store, not_or] at hj
    rw [F.first_store_of_ne hj.1, h.unwritten j hj.2]
  · by_cases hne : j = id
    · rw [hne, hsize]
    · rw [InUse, hw.inodemap] at huse
      obtain ⟨h₂, hlt, -⟩ := inUse_natCast.mp huse
      rw [hw.others j hne h₂ hlt, F.first_store_of_ne hne, h.first j huse]

/-- A write to a file that was written. -/
theorem overwrite (h : Tracks L s F B own names values) (hfile : F.IsFile id)
    (hwritten : F.Written id) {size : ℕ} (hsize₀ : 0 < size) (hsize : size ≤ 4096)
    (buf : ℕ → UInt8) :
    ∃ s', s.objstoreWrite id buf size 0 = some ((size : ℤ), s') ∧
      Tracks L s' (F.store id buf size) B own names
        (values ++ [(ValueOp.write id buf size, (size : ℤ), buf)]) := by
  have huse := h.inUse hfile
  obtain ⟨h₂, hlt, -⟩ := inUse_natCast.mp huse
  have hlast := h.last id
  obtain ⟨w, hw⟩ := Option.isSome_iff_exists.mp hwritten
  rw [hw, Option.map_some] at hlast
  have hval := h.holds.written id _ _ hlast
  have hpos : (0 : ℤ) < size := by omega
  have hle : (size : ℤ) ≤ 4096 := by omega
  obtain ⟨s', hwrite, hholds⟩ : ∃ s', s.objstoreWrite id buf size 0 = some ((size : ℤ), s') ∧ _ :=
    h.holds.overwrite hpos hle hlast
  obtain ⟨s₁, hwrite₁, hc⟩ := h.holds.objects.overwrite huse buf 0 hpos.le hle
    (by decide : u32 0 / 4096 = 0) (by rw [hval.blocknum]; decide)
  obtain rfl : s₁ = s' := congrArg Prod.snd (Option.some.inj (hwrite₁.symm.trans hwrite))
  have hge := (h.holds.owned _ _ hval.data).1
  have hrec : record (L.content s₁.layer) id = record (L.content s.layer) id := by
    rw [hc.content, record_update_of_ge hge h₂ hlt]
  refine ⟨s₁, hwrite, h.stored hfile (Objects.wrote_of_overwrite hge h₂ hlt hc)
    (by rw [hrec]) hholds ?_ ?_⟩
  · rw [hrec, F.first_store_self, if_pos hwritten, h.first id huse]
  · rw [hc.tables, F.card_writtenFiles_store hlt, if_pos hwritten]
    exact h.used

/-- The first write to a file takes two blocks, which are there. -/
theorem firstWrite (h : Tracks L s F B own names values) (hfile : F.IsFile id)
    (hwritten : ¬F.Written id) {size : ℕ} (hsize₀ : 0 < size) (hsize : size ≤ 4096)
    (buf : ℕ → UInt8) :
    ∃ s' own', s.objstoreWrite id buf size 0 = some ((size : ℤ), s') ∧
      Tracks L s' (F.store id buf size) B own' names
        (values ++ [(ValueOp.write id buf size, (size : ℤ), buf)]) := by
  have huse := h.inUse hfile
  obtain ⟨h₂, hlt, -⟩ := inUse_natCast.mp huse
  have hlast := h.last id
  rw [Option.not_isSome_iff_eq_none.mp hwritten, Option.map_none] at hlast
  have hpos : (0 : ℤ) < size := by omega
  have hle : (size : ℤ) ≤ 4096 := by omega
  obtain ⟨s', own', hwrite, hholds⟩ : ∃ s' own',
      s.objstoreWrite id buf size 0 = some ((size : ℤ), s') ∧ _ :=
    h.holds.first hpos hle huse hlast h.twoFree
  have hfirst := h.holds.objects.firstWrite huse buf hpos.le hle
    (h.holds.unwritten id huse hlast) h.twoFree hwrite
  refine ⟨s', own', hwrite, h.stored hfile hfirst.wrote hfirst.key hholds ?_ ?_⟩
  · rw [hfirst.size, F.first_store_self, if_neg hwritten]
    have hmod : ((size : ℤ) % 2^32).toNat = size := by omega
    rw [UInt32.ofInt, UInt32.toNat_ofNat', hmod]
    omega
  · rw [F.card_writtenFiles_store hlt, if_neg hwritten, Nat.mul_add, ← Nat.add_assoc]
    exact hfirst.used.trans (Nat.add_le_add_right h.used 2)

theorem write (h : Tracks L s F B own names values) (d : Defaults) {fh size : ℕ}
    (hfile : F.IsFile fh) (hsize₀ : 0 < size) (hsize : size ≤ 4096) (buf : ℕ → UInt8) :
    Serves L d s F (.write fh buf size 0) := by
  obtain ⟨-, hlt, -⟩ := inUse_natCast.mp (h.inUse hfile)
  have hstep : ∃ s' own', s.objstoreWrite fh buf size 0 = some ((size : ℤ), s') ∧
      Tracks L s' (F.store fh buf size) B own' names
        (values ++ [(ValueOp.write fh buf size, (size : ℤ), buf)]) := by
    by_cases hw : F.Written fh
    · obtain ⟨s', hwrite, h'⟩ := h.overwrite hfile hw hsize₀ hsize buf
      exact ⟨s', own, hwrite, h'⟩
    · exact h.firstWrite hfile hw hsize₀ hsize buf
  obtain ⟨s', own', hwrite, htracks⟩ := hstep
  refine ⟨.result size, s', ?_, rfl, B, own', names, _, htracks⟩
  have hint : int size = size := int_natCast (by omega)
  have hfh : int fh = fh := int_natCast (by omega)
  rw [← hfh, ← hint] at hwrite
  have hcall := Store.objfsWrite_of_some hwrite
  rw [hint, hint] at hcall
  rw [Store.fsStep, hcall (by omega)]
  rfl

/-! ## New files -/

/-- The invariant after a file was created. -/
theorem created (h : Tracks L s F B own names values) (hname : NameOk name)
    (hnone : F.handle name = none) (hnames : Store.Names L s' B')
    (hc : Store.Created L s s' B B' name id) (hholds : HoldsValues L s' B' own
      (values ++ [(ValueOp.create name, (id : ℤ), fun _ => 0)])) :
    Tracks L s' (F.addName name id) B' own (names ++ [(NameOp.create name, (id : ℤ))])
      (values ++ [(ValueOp.create name, (id : ℤ), fun _ => 0)]) := by
  have hlookup := h.lookup_eq name
  rw [hnone] at hlookup
  have hhandle : ∀ name', (F.addName name id).handle name' =
      if name' = name then some id else F.handle name' := fun name' => Function.update_apply _ _ _ _
  -- The id was not in use, so that no file has it.
  have hnew : ¬F.Written id := fun hw => by
    obtain ⟨w, hw⟩ := Option.isSome_iff_exists.mp hw
    exact hc.not_inUse (h.holds.exist id (by rw [h.last, hw]; simp))
  refine ⟨h.map.created hname.1 hlookup hnames hc, hholds, fun name' j => ?_, fun name' j hj => ?_,
    fun j => ?_, h.unwritten, fun j huse => ?_, ?_⟩
  · rw [hhandle, wasCreated_append]
    split_ifs with heq
    · rw [heq, ← h.handle, hnone]
      constructor
      · rintro ⟨rfl⟩
        exact Or.inr ⟨rfl, rfl, by omega⟩
      · rintro (hold | ⟨-, hj, -⟩)
        · exact absurd hold (by simp)
        · exact congrArg some (by exact_mod_cast hj)
    · rw [← h.handle, or_iff_left fun hnew => heq (NameOp.create.inj hnew.1).symm]
  · rw [hhandle] at hj
    split_ifs at hj with heq
    · exact heq ▸ hname
    · exact h.nameOk name' j hj
  · rw [lastWrite_append]
    exact h.last j
  · by_cases hne : j = id
    · rw [hne, hc.record_self, newObject_eq hname.1.1]
      exact (h.unwritten id hnew).symm
    · have hold := (hc.inUse_iff.mp huse).resolve_right hne
      obtain ⟨h₂, hlt, -⟩ := inUse_natCast.mp hold
      rw [hc.record_of_ne h₂ hlt hne]
      exact h.first j hold
  · have hused := h.used
    unfold usedBlocks at hused ⊢
    rwa [hc.blockmap]

theorem create (h : Tracks L s F B own names values) (d : Defaults) (hname : NameOk name) :
    Serves L d s F (.create (path name)) := by
  obtain ⟨r, s', B', hcreate, hnames, hr⟩ :=
    h.map.names.createObject (fun b _ => Set.mem_univ b) hname.1
  rw [h.lookup_eq] at hr
  unfold Serves
  simp only [Store.fsStep, Store.objfsCreate, FileSystem.Replies, path_tail, hcreate,
    Option.bind_eq_bind, Option.bind_some]
  rcases hr with ⟨rfl, hfail, rfl, hc⟩ | ⟨id, rfl, hnone, hc⟩
  · have hreply := hfail.imp_right fun hfull fh h₂ hlt =>
      (h.isFile_iff h₂ hlt).mpr (hfull fh h₂ hlt)
    exact ⟨.handle (-EEXIST) none, s', rfl, Or.inr ⟨hreply, rfl⟩, B', own, names, values,
      h.calls hc⟩
  · have h₂ := hc.two_le
    have hlt := hc.lt
    obtain ⟨r, s₁, B₁, hcreate₁, hholds⟩ := h.holds.createObject hname.1
    obtain ⟨rfl, rfl⟩ : (id : ℤ) = r ∧ s' = s₁ := by
      simpa using hcreate.symm.trans hcreate₁
    obtain rfl : B₁ = B' := funext fun v =>
      (hholds.objects.names.table.chain v).unique (hnames.table.chain v)
    have hfile : ¬F.IsFile id := fun hfile => by
      rw [h.isFile_iff h₂ hlt, hc.free] at hfile
      exact absurd hfile (by simp)
    have htracks := h.created hname hnone hnames hc hholds
    rw [if_neg (by omega), u64_natCast (by omega)]
    exact ⟨.handle 0 (some id), s', rfl, Or.inl ⟨hnone, id, rfl, h₂, hlt, hfile⟩, B₁, own, _, _,
      htracks⟩

/-- The store serves every legal call. -/
theorem serves (h : Tracks L s F B own names values) (d : Defaults) {c : FsCall}
    (hc : F.Legal c) : Serves L d s F c := by
  cases c with
  | getattr key =>
    obtain ⟨name, rfl⟩ := hc
    exact h.getattr d name
  | create key =>
    obtain ⟨name, rfl, hname⟩ := hc
    exact h.create d hname
  | unlink key =>
    obtain ⟨name, rfl, hname⟩ := hc
    exact h.unlink d hname
  | openFile key =>
    obtain ⟨name, rfl⟩ := hc
    exact h.openFile d name
  | read fh buf size offset =>
    obtain ⟨hfile, rfl, rfl⟩ := hc
    exact h.read d hfile buf
  | write fh buf size offset =>
    obtain ⟨hfile, hsize₀, hsize, rfl⟩ := hc
    exact h.write d hfile hsize₀ hsize buf
  | release fh => exact ⟨.result (-EINVAL), s, rfl, rfl, B, own, names, values, h⟩
  | rename oldkey newkey rest =>
    obtain ⟨a, b, rfl, rfl⟩ := hc
    exact h.rename d a b rest

end Tracks

/-- The store holds the file system that the calls of a history made. -/
def Tracked (L : Lawful σ Set.univ) (s : Store σ) (hist : List (FsCall × FsReply)) : Prop :=
  ∃ B own names values, Tracks L s (FileSystem.after hist) B own names values

theorem Fresh.tracked {t : Tables} (ht : Fresh t) {layer : σ} (hl : L.inv layer) :
    Tracked L ⟨t, layer⟩ [] := by
  refine ⟨_, _, [], [], ht.holdsMap hl, ht.holdsValues hl, fun name id => ?_, fun name id h => ?_,
    fun id => rfl, fun id _ => rfl, fun id huse => absurd huse (ht.not_inUse _), ?_⟩
  · simp [FileSystem.after, FileSystem.empty, WasCreated]
  · exact absurd h (by simp [FileSystem.after, FileSystem.empty])
  · have hsub : usedBlocks t ⊆ Finset.range 17696 := fun b hb => by
      obtain ⟨hlt, hbit⟩ := Finset.mem_filter.mp hb
      rw [Finset.mem_range] at hlt ⊢
      by_contra hge
      rw [ht.blockmap b (by omega) hlt] at hbit
      exact absurd hbit (by simp)
    have hcard := Finset.card_le_card hsub
    rw [Finset.card_range] at hcard
    exact hcard.trans (Nat.le_add_right _ _)

/-- A legal call gets the right reply. -/
theorem Tracked.step {hist : List (FsCall × FsReply)} {c : FsCall} (h : Tracked L s hist)
    (d : Defaults) (hc : (FileSystem.after hist).Legal c) :
    ∃ r s', s.fsStep d c = some (r, s') ∧ Tracked L s' (hist ++ [(c, r)]) ∧
      (FileSystem.after hist).Replies d c r := by
  obtain ⟨B, own, names, values, h⟩ := h
  obtain ⟨r, s', hstep, hreply, h'⟩ := h.serves d hc
  refine ⟨r, s', hstep, ?_, hreply⟩
  unfold Tracked
  rw [FileSystem.after_concat]
  exact h'

/-! ## Runs -/

theorem fresh_emptyTables : Fresh emptyTables := by
  refine ⟨(Table.new Allocator.bump).congr rfl rfl, fun id _ => Nat.zero_testBit _,
    rfl, fun b hb => ?_, fun b hb _ => ?_⟩
  · have h255 : ∀ j < 8, Nat.testBit 255 j = true := by decide
    have hbyte : emptyTables.blockmap (b / 8) = 0xff := if_pos (by omega)
    rw [ByteMap.bit, hbyte]
    exact h255 _ (Nat.mod_lt _ (by norm_num))
  · have hbyte : emptyTables.blockmap (b / 8) = 0 := if_neg (by omega)
    rw [ByteMap.bit, hbyte]
    exact Nat.zero_testBit _

/-- The calls for one file are legal, whatever is read. -/
theorem legal_writeAndRead (buf : ℕ → UInt8) : FileSystem.LegalHistory
    [(.create (path [97]), .handle 0 (some 2)), (.write 2 (fun _ => 98) 1 0, .result 1),
      (.read 2 (fun _ => 0) 4096 0, .data 4096 buf)] := by
  have hfile : (FileSystem.empty.addName [97] 2).IsFile 2 := ⟨[97], rfl⟩
  have hcreate : FileSystem.LegalHistory [(.create (path [97]), .handle 0 (some 2))] :=
    FileSystem.LegalHistory.concat (Run.throughout_nil _) (.create _) _ ⟨[97], rfl, by decide⟩
  have hwrite : FileSystem.LegalHistory [(.create (path [97]), .handle 0 (some 2)),
      (.write 2 (fun _ => 98) 1 0, .result 1)] :=
    hcreate.concat (.write _ _ _ _) _ ⟨hfile, by norm_num, by norm_num, rfl⟩
  exact hwrite.concat (.read _ _ _ _) _ ⟨hfile, rfl, rfl⟩

/-- From the tables that `objstore_init` leaves on a disk of zeros, every run of legal calls
returns, and all replies are those of the file system. -/
theorem fs_refines {σ : Type} [BlockLayer σ] (L : Lawful σ Set.univ) (d : Defaults) (t : Tables)
    (layer : σ) (ht : Fresh t) (hlayer : L.inv layer) (calls : List FsCall)
    (hlegal : ∀ pre c post hist s, calls = pre ++ c :: post →
      Run.run (Store.fsStep d) (⟨t, layer⟩ : Store σ) pre = some (hist, s) →
        (FileSystem.after hist).Legal c) :
    ∃ hist s, Run.run (Store.fsStep d) (⟨t, layer⟩ : Store σ) calls = some (hist, s) ∧
      FileSystem.RightReplies d hist := by
  obtain ⟨hist, s, hrun, -, hright⟩ := Run.run_of_history (h := [])
    (Q := fun hist _ c => (FileSystem.after hist).Legal c)
    (fun (s : Store σ) hist => Tracked L s hist ∧ FileSystem.RightReplies d hist)
    (fun s hist c h hc => by
      obtain ⟨r, s', hstep, h', hreply⟩ := h.1.step d hc
      exact ⟨r, s', hstep, h', Run.throughout_concat.mpr ⟨h.2, hreply⟩⟩)
    ⟨ht.tracked hlayer, Run.throughout_nil _⟩ hlegal
  exact ⟨hist, s, hrun, hright⟩

/-- Over a plain array of blocks, the byte that was written is read. -/
theorem fs_refines_file : ∃ hist s, Run.run (Store.fsStep zeroDefaults)
    (⟨emptyTables, ⟨fun _ => Block.zero⟩⟩ : Store Plain) writeAndRead = some (hist, s) ∧
      FileSystem.RightReplies zeroDefaults hist := by
  have hrun : ∃ buf s, Run.run (Store.fsStep zeroDefaults)
      (⟨emptyTables, ⟨fun _ => Block.zero⟩⟩ : Store Plain) writeAndRead =
    some ([(.create (path [97]), .handle 0 (some 2)), (.write 2 (fun _ => 98) 1 0, .result 1),
      (.read 2 (fun _ => 0) 4096 0, .data 4096 buf)], s) := ⟨_, _, rfl⟩
  obtain ⟨buf, s, hrun⟩ := hrun
  exact fs_refines Plain.lawful zeroDefaults emptyTables ⟨fun _ => Block.zero⟩ fresh_emptyTables
    trivial writeAndRead fun _ _ _ _ _ hsplit hpre =>
      (legal_writeAndRead buf).of_run_split hrun hsplit hpre

/-- Over the cache, as long as no call of it loses data, all replies to legal calls are those of the
file system. -/
theorem fs_over_cache_refines (d : Defaults) (t : Tables) (ht : Fresh t) (c : Cache)
    (D : ℕ → Block) (hc : c.Holds D) (calls : List FsCall) (hist : List (FsCall × FsReply))
    (s : Store SafeCache)
    (hrun : Run.run (Store.fsStep d) (⟨t, ⟨c⟩⟩ : Store SafeCache) calls = some (hist, s))
    (hlegal : FileSystem.LegalHistory hist) : FileSystem.RightReplies d hist := by
  obtain ⟨⟨_, s'⟩, hplain, rfl, -⟩ := layers_plain.run d (.mk t hc) calls _ hrun
  have h := Run.of_run (h := []) (P := fun _ _ => True)
    (fun (s : Store Plain) hist => FileSystem.LegalHistory hist →
      Tracked Plain.lawful s hist ∧ FileSystem.RightReplies d hist)
    (fun s hist c r s' h _ hstep hlegal => by
      obtain ⟨hlegal, hc⟩ := Run.throughout_concat.mp hlegal
      obtain ⟨htracked, hright⟩ := h hlegal
      obtain ⟨r', s'', hstep', h', hreply⟩ := htracked.step d hc
      obtain ⟨rfl, rfl⟩ : r' = r ∧ s'' = s' := by simpa using hstep'.symm.trans hstep
      exact ⟨h', Run.throughout_concat.mpr ⟨hright, hreply⟩⟩)
    (fun _ => ⟨ht.tracked trivial, Run.throughout_nil _⟩)
    (Run.along_of_forall fun _ _ _ => trivial) hplain
  exact (h hlegal).2

/-- Through the cache, the byte that was written is read. -/
theorem fs_over_cache_refines_file : ∃ buf, FileSystem.RightReplies zeroDefaults
    [(.create (path [97]), .handle 0 (some 2)), (.write 2 (fun _ => 98) 1 0, .result 1),
      (.read 2 (fun _ => 0) 4096 0, .data 4096 buf)] := by
  have hS : Cache.Spread {1312, 17696, 17697} := ⟨by decide, by decide⟩
  have hrun : ∃ buf s', Run.run (Store.fsStep zeroDefaults)
      (⟨emptyTables, ⟨Cache.zeroDisk.block⟩⟩ : Store (Bounded {1312, 17696, 17697})) writeAndRead =
    some ([(.create (path [97]), .handle 0 (some 2)), (.write 2 (fun _ => 98) 1 0, .result 1),
      (.read 2 (fun _ => 0) 4096 0, .data 4096 buf)], s') := ⟨_, _, rfl⟩
  obtain ⟨buf, s', hrun⟩ := hrun
  have hempty := Cache.inv_empty Allocator.bump (d := Cache.zeroDisk) (fun _ => rfl)
    fun _ => Block.zero
  have hholds : HoldsBounded {1312, 17696, 17697} ⟨Cache.zeroDisk.block⟩
      ⟨Cache.empty Allocator.bump Cache.zeroDisk fun _ => Block.zero⟩ :=
    ⟨[], _, hempty, Cache.view_empty _ _ _, by simp⟩
  obtain ⟨⟨_, s⟩, hsafe, rfl, -⟩ :=
    (layers_bounded hS).run zeroDefaults (.mk emptyTables hholds) writeAndRead _ hrun
  exact ⟨buf, fs_over_cache_refines zeroDefaults emptyTables fresh_emptyTables _ _
    ⟨[], _, hempty, Cache.view_empty _ _ _⟩ writeAndRead _ s hsafe (legal_writeAndRead buf)⟩

end GemOS.Objstore
