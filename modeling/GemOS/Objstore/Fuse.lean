import GemOS.Objstore.RenameMoves

/-!
# Paths and keys

A transcription of `objfs_create`, `objfs_open`, and `objfs_rename_key` of `src/Assn4/objfs.c`.
Creating and opening a file drop the slash of its path, and renaming does not. `objfs_rename_key`
therefore finds no object and changes nothing, and it returns `-EINVAL` in any case.
-/

namespace GemOS.Objstore

/-- Error numbers. -/
def ENOENT : ℤ := 2
def EEXIST : ℤ := 17
def EINVAL : ℤ := 22

/-- A value stored in an `int`. -/
def int (n : ℤ) : ℤ := n.bmod (2^32)

/-- The path of a file. -/
def path (name : List UInt8) : List UInt8 := 47 :: name

/-- The name of a file: a key without a slash. -/
def NameOk (name : List UInt8) : Prop := KeyOk name ∧ 47 ∉ name

instance (name : List UInt8) : Decidable (NameOk name) :=
  inferInstanceAs (Decidable (KeyOk name ∧ 47 ∉ name))

/-- A call of the file system. -/
inductive FileOp where
  /-- `objfs_create`. -/
  | create (name : List UInt8)
  /-- `objfs_open`. -/
  | openFile (name : List UInt8)
  /-- `objfs_rename_key`. -/
  | rename (old new : List UInt8) (rest : ℕ → UInt8)

namespace Store

variable {σ : Type} [BlockLayer σ]

/-- `objfs_rename_key`. -/
def objfsRenameKey (s : Store σ) (oldkey newkey : List UInt8) (rest : ℕ → UInt8) :
    Option (ℤ × Store σ) := do
  let (_, s) ← s.renameObject oldkey newkey rest
  return (-EINVAL, s)

/-- `objfs_create`: the result, and the handle when it is set. -/
def objfsCreate (s : Store σ) (key : List UInt8) : Option (ℤ × Option ℕ × Store σ) := do
  let (retval, s) ← s.createObject key.tail
  if retval < 0 then return (-EEXIST, none, s)
  return (0, some (u64 retval), s)

/-- `objfs_open`: the result, and the handle when it is set. -/
def objfsOpen (s : Store σ) (key : List UInt8) : Option (ℤ × Option ℕ × Store σ) := do
  let (id, s) ← s.findObjectId key.tail
  let retval := int id
  if retval < 0 then return (-ENOENT, none, s)
  return (0, some (u64 retval), s)

/-- `objfs_open(key)` returns `r` and sets the handle to `fh`. -/
def Opens (s : Store σ) (key : List UInt8) (r : ℤ) (fh : Option ℕ) : Prop :=
  ∃ s', s.objfsOpen key = some (r, fh, s')

/-- `objfs_rename_key` renames the file `a` to `b`. -/
def RenamesKey (s : Store σ) (a b : List UInt8) (rest : ℕ → UInt8) : Prop :=
  ∃ s', s.objfsRenameKey (path a) (path b) rest = some (0, s') ∧
    (∀ fh, s.Opens (path a) 0 fh → s'.Opens (path b) 0 fh) ∧ s'.Opens (path a) (-ENOENT) none

/-- A call on the store. -/
def fileStep (s : Store σ) : FileOp → Option ((ℤ × Option ℕ) × Store σ)
  | .create name => (s.objfsCreate (path name)).map fun (r, fh, s) => ((r, fh), s)
  | .openFile name => (s.objfsOpen (path name)).map fun (r, fh, s) => ((r, fh), s)
  | .rename old new rest =>
      (s.objfsRenameKey (path old) (path new) rest).map fun (r, s) => ((r, none), s)

/-- `objfs_rename_key` renames no file, in any state of the store. -/
theorem objfs_rename_key_never (s : Store σ) (a b : List UInt8) (rest : ℕ → UInt8) :
    ¬s.RenamesKey a b rest := by
  rintro ⟨s', hrename, -⟩
  obtain ⟨⟨r, s''⟩, -, hr⟩ := Option.bind_eq_some_iff.mp hrename
  have hr' : -EINVAL = 0 := congrArg Prod.fst (Option.some.inj hr)
  exact absurd hr' (by decide)

/-! ## What a rename does instead -/

variable {dom : Set ℕ} {L : Lawful σ dom} {s s' : Store σ} {B : ℕ → List ℕ} {name : List UInt8}

/-- The namespace of a file system: no object has a key with a slash in front. -/
structure Files (L : Lawful σ dom) (s : Store σ) (B : ℕ → List ℕ) : Prop where
  /-- The invariant of the namespace. -/
  names : Names L s B
  /-- The keys of the objects are not paths. -/
  key : ∀ v, ∀ id ∈ s.ids B v, ∀ name, keyOf (L.content s.layer) id ≠ path name

/-- `objfs_open` is a lookup of the name. -/
theorem Names.objfsOpen (h : Names L s B) (hdom : ∀ b ∈ recordBlocks, b ∈ dom) (name : List UInt8) :
    ∃ s', Calls L s s' (L.content s.layer) ∧ s.objfsOpen (path name) = some
      (match lookup hash (s.ids B) (keyOf (L.content s.layer)) name with
        | none => (-ENOENT, none, s')
        | some id => (0, some id, s')) := by
  obtain ⟨s', hfind, hcalls⟩ := h.findObjectId hdom name
  refine ⟨s', hcalls, ?_⟩
  unfold Store.objfsOpen
  rw [path, List.tail_cons, hfind, Option.bind_eq_bind, Option.bind_some]
  cases hlookup : lookup hash (s.ids B) (keyOf (L.content s.layer)) name with
  | none => rfl
  | some id =>
    -- An id fits into an `int`.
    have hlt := (h.present (mem_of_lookup hlookup).1).lt
    have hint : int (id : ℤ) = id := Int.bmod_eq_of_le (by omega) (by omega)
    have hu64 : u64 (id : ℤ) = id := by
      unfold u64
      omega
    simp only [Option.map_some, Option.getD_some, hint, hu64]
    rw [if_neg (by omega)]
    rfl

/-- `objfs_rename_key` finds no object and changes nothing. -/
theorem Files.objfsRenameKey (h : Files L s B) (hdom : ∀ b ∈ recordBlocks, b ∈ dom)
    (old new : List UInt8) (rest : ℕ → UInt8) :
    ∃ s', s.objfsRenameKey (path old) (path new) rest = some (-EINVAL, s') ∧
      Calls L s s' (L.content s.layer) := by
  obtain ⟨r, s', B', hrename, -, hr⟩ := h.names.renameObject hdom (path old) (path new) rest
  have hcall : s.objfsRenameKey (path old) (path new) rest = some (-EINVAL, s') := by
    rw [Store.objfsRenameKey, hrename]
    rfl
  rcases hr with ⟨-, -, -, hcalls⟩ | ⟨id, -, hren⟩
  · exact ⟨s', hcall, hcalls⟩
  · obtain ⟨hid, hkey⟩ := mem_of_lookup hren.lookup
    exact absurd hkey (h.key _ id hid old)

end Store

/-- Over the cache: the file `/a` is created, and `/b` does not exist, but `/a` is not renamed to
`/b`. -/
theorem objfs_rename_key_fails :
    ∃ d' t, objstoreInit Cache.zeroDisk (Tables.new Allocator.bump) = some (0, d', t) ∧
      ∃ s, Run.run Store.fileStep
          (⟨t, Cache.empty Allocator.bump d' fun _ => Block.zero⟩ : Store Cache) [.create [97]] =
            some ([(.create [97], (0, some 2))], s) ∧
        s.Opens (path [97]) 0 (some 2) ∧ s.Opens (path [98]) (-ENOENT) none ∧
        ¬s.RenamesKey [97] [98] fun _ => 0 := by
  obtain ⟨d', t, hinit, hlayer⟩ := mount_zeroDisk
  obtain ⟨-, hfresh⟩ := objstoreInit_fresh (fun _ _ => rfl) hinit
  have hdom : ∀ b ∈ recordBlocks, b ∈ {b | b ∈ recordBlocks} := fun b hb => hb
  obtain ⟨s, B, hcreate, hnames, hcreated, hids⟩ :=
    hfresh.createObject hlayer hdom (by decide : KeyOk [97])
  have hkey : keyOf (spread_recordBlocks.lawful.content s.layer) 2 = [97] :=
    hcreated.keyOf_self (by decide)
  have ha :
      lookup hash (s.ids B) (keyOf (spread_recordBlocks.lawful.content s.layer)) [97] = some 2 :=
    lookup_singleton (by rw [hids, Function.update_self]) hkey
  have hb :
      lookup hash (s.ids B) (keyOf (spread_recordBlocks.lawful.content s.layer)) [98] = none := by
    refine lookup_eq_none.mpr fun j hj => ?_
    rw [hids, Function.update_of_ne (by decide)] at hj
    exact absurd hj List.not_mem_nil
  obtain ⟨sa, -, hopena⟩ := hnames.objfsOpen hdom [97]
  obtain ⟨sb, -, hopenb⟩ := hnames.objfsOpen hdom [98]
  rw [ha] at hopena
  rw [hb] at hopenb
  have hstep : Store.fileStep (⟨t, Cache.empty Allocator.bump d' fun _ => Block.zero⟩ : Store Cache)
      (.create [97]) = some ((0, some 2), s) := by
    have hfile : Store.objfsCreate
        (⟨t, Cache.empty Allocator.bump d' fun _ => Block.zero⟩ : Store Cache)
        (path [97]) = some (0, some 2, s) := by
      unfold Store.objfsCreate
      simp only [path, List.tail_cons, hcreate]
      rfl
    rw [Store.fileStep, hfile]
    rfl
  refine ⟨d', t, hinit, s, Run.run_cons hstep rfl, ⟨sa, hopena⟩, ⟨sb, hopenb⟩, ?_⟩
  rintro ⟨s', hrename, -⟩
  obtain ⟨⟨r, s''⟩, -, hr⟩ := Option.bind_eq_some_iff.mp hrename
  have hr' : -EINVAL = 0 := congrArg Prod.fst (Option.some.inj hr)
  exact absurd hr' (by decide)

end GemOS.Objstore
