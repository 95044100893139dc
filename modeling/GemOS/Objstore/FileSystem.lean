import GemOS.Lib.Recall
import GemOS.Objstore.FileCalls
import GemOS.Objstore.LongKeys
import GemOS.Objstore.Values

/-!
# What the file system is for

An abstract file system has names with handles, and for each handle the last write. `Legal` says
which calls the store can serve as one: creating and opening files, writing up to one block at the
beginning of a file, reading the first block of a file, and the calls that change nothing. `Replies`
says what they should return. The sizes that are reported are those of the first write, as the store
does not change the size of an object that it overwrites.
-/

namespace GemOS.Objstore

/-- A file system. -/
structure FileSystem where
  /-- The handle of a name. -/
  handle : List UInt8 → Option ℕ
  /-- The buffer and the size of the last write to a handle. -/
  last : ℕ → Option ((ℕ → UInt8) × ℕ)
  /-- The size of the first write to a handle. -/
  first : ℕ → ℕ

namespace FileSystem

/-- No files. -/
def empty : FileSystem := ⟨fun _ => none, fun _ => none, fun _ => 0⟩

/-- The file has this handle. -/
def IsFile (F : FileSystem) (fh : ℕ) : Prop := ∃ name, F.handle name = some fh

/-- The file was written. -/
def Written (F : FileSystem) (fh : ℕ) : Prop := (F.last fh).isSome = true

instance (F : FileSystem) (fh : ℕ) : Decidable (F.Written fh) :=
  inferInstanceAs (Decidable (_ = true))

/-- The file system with a new name. -/
def addName (F : FileSystem) (name : List UInt8) (fh : ℕ) : FileSystem :=
  { F with handle := Function.update F.handle name (some fh) }

/-- The file system after a write. -/
def store (F : FileSystem) (fh : ℕ) (buf : ℕ → UInt8) (size : ℕ) : FileSystem :=
  { F with
    last := Function.update F.last fh (some (buf, size))
    first := if F.Written fh then F.first else Function.update F.first fh size }

theorem written_store (F : FileSystem) (fh : ℕ) (buf : ℕ → UInt8) (size j : ℕ) :
    (F.store fh buf size).Written j ↔ j = fh ∨ F.Written j := by
  unfold Written store
  dsimp only
  by_cases hne : j = fh
  · simp [hne]
  · simp [hne, Function.update_of_ne]

theorem first_store_of_ne (F : FileSystem) {fh j : ℕ} (hne : j ≠ fh) (buf : ℕ → UInt8) (size : ℕ) :
    (F.store fh buf size).first j = F.first j := by
  unfold store
  dsimp only
  split_ifs
  · rfl
  · rw [Function.update_of_ne hne]

theorem first_store_self (F : FileSystem) (fh : ℕ) (buf : ℕ → UInt8) (size : ℕ) :
    (F.store fh buf size).first fh = if F.Written fh then F.first fh else size := by
  unfold store
  dsimp only
  split_ifs
  · rfl
  · rw [Function.update_self]

/-- The files that were written. -/
def writtenFiles (F : FileSystem) : Finset ℕ := (Finset.range (2^20)).filter F.Written

theorem mem_writtenFiles (F : FileSystem) {fh : ℕ} (hlt : fh < 2^20) :
    fh ∈ F.writtenFiles ↔ F.Written fh := by
  rw [writtenFiles, Finset.mem_filter, Finset.mem_range, and_iff_right hlt]

theorem writtenFiles_store (F : FileSystem) {fh : ℕ} (hlt : fh < 2^20) (buf : ℕ → UInt8)
    (size : ℕ) : (F.store fh buf size).writtenFiles = insert fh F.writtenFiles := by
  ext j
  simp only [writtenFiles, Finset.mem_insert, Finset.mem_filter, Finset.mem_range, written_store]
  constructor
  · rintro ⟨hj, rfl | hw⟩
    · exact Or.inl rfl
    · exact Or.inr ⟨hj, hw⟩
  · rintro (rfl | ⟨hj, hw⟩)
    · exact ⟨hlt, Or.inl rfl⟩
    · exact ⟨hj, Or.inr hw⟩

theorem card_writtenFiles_store (F : FileSystem) {fh : ℕ} (hlt : fh < 2^20) (buf : ℕ → UInt8)
    (size : ℕ) : (F.store fh buf size).writtenFiles.card =
      if F.Written fh then F.writtenFiles.card else F.writtenFiles.card + 1 := by
  rw [F.writtenFiles_store hlt]
  by_cases hw : F.Written fh
  · rw [if_pos hw, Finset.insert_eq_of_mem ((F.mem_writtenFiles hlt).mpr hw)]
  · rw [if_neg hw, Finset.card_insert_of_notMem fun hin => hw ((F.mem_writtenFiles hlt).mp hin)]

/-- The file system after a call and its reply. -/
def next (F : FileSystem) : FsCall × FsReply → FileSystem
  | (.create key, .handle _ (some fh)) => F.addName key.tail fh
  | (.write fh buf size _, _) => F.store fh buf size
  | _ => F

/-- The file system after a history. -/
def after (hist : List (FsCall × FsReply)) : FileSystem := hist.foldl next empty

/-- The attributes of a file. -/
def stat (F : FileSystem) (d : Defaults) (fh : ℕ) : FileStat :=
  { d.defFstat with
    stIno := fh
    stSize := F.first fh
    stBlocks := if F.Written fh then 2 else 0
    stUid := d.uid
    stGid := d.gid }

/-- The attributes of the root. -/
def rootStat (d : Defaults) : FileStat :=
  { d.defDirstat with stIno := rootObjid, stUid := d.uid, stGid := d.gid }

/-- The calls that can be served. -/
def Legal (F : FileSystem) : FsCall → Prop
  | .getattr key => ∃ name, key = path name
  | .create key => ∃ name, key = path name ∧ NameOk name
  | .unlink key => ∃ name, key = path name ∧ F.handle name = none
  | .openFile key => ∃ name, key = path name
  | .read fh _ size offset => F.IsFile fh ∧ size = 4096 ∧ offset = 0
  | .write fh _ size offset => F.IsFile fh ∧ 0 < size ∧ size ≤ 4096 ∧ offset = 0
  | .release _ => True
  | .rename oldkey newkey _ => ∃ a b, oldkey = path a ∧ newkey = path b

/-- What the calls should return. A new file gets a handle that no file has. What is read from a
file that was not written is left open. -/
def Replies (d : Defaults) (F : FileSystem) : FsCall → FsReply → Prop
  | .getattr key, r =>
      if key = path [] then r = .attributes 0 (rootStat d)
      else match F.handle key.tail with
        | none => r = .attributes (-ENOENT) d.defFstat
        | some fh => r = .attributes 0 (F.stat d fh)
  | .create key, r =>
      (F.handle key.tail = none ∧
        ∃ fh, r = .handle 0 (some fh) ∧ 2 ≤ fh ∧ fh < 2^20 ∧ ¬F.IsFile fh) ∨
      ((F.handle key.tail ≠ none ∨ ∀ fh, 2 ≤ fh → fh < 2^20 → F.IsFile fh) ∧
        r = .handle (-EEXIST) none)
  | .unlink _, r => r = .result 0
  | .openFile key, r =>
      match F.handle key.tail with
      | none => r = .handle (-ENOENT) none
      | some fh => r = .handle 0 (some fh)
  | .read fh _ _ _, r => ∃ buf, r = .data 4096 buf ∧ ∀ data n, F.last fh = some (data, n) →
      ∀ i < 4096, buf i = if i < n then data i else 0
  | .write _ _ size _, r => r = .result size
  | .release _, r => r = .result (-EINVAL)
  | .rename _ _ _, r => r = .result (-EINVAL)

/-- Every call of a history is legal for the file system that the calls before it made. -/
def LegalHistory (hist : List (FsCall × FsReply)) : Prop :=
  Run.Throughout (fun pre c _ => (after pre).Legal c) hist

/-- Every reply of a history is right for the file system that the calls before it made. -/
def RightReplies (d : Defaults) (hist : List (FsCall × FsReply)) : Prop :=
  Run.Throughout (fun pre c r => (after pre).Replies d c r) hist

theorem LegalHistory.concat {hist : List (FsCall × FsReply)} (h : LegalHistory hist) (c : FsCall)
    (r : FsReply) (hc : (after hist).Legal c) : LegalHistory (hist ++ [(c, r)]) :=
  Run.throughout_concat.mpr ⟨h, hc⟩

theorem after_concat (hist : List (FsCall × FsReply)) (e : FsCall × FsReply) :
    after (hist ++ [e]) = (after hist).next e := by
  simp [after]

end FileSystem

end GemOS.Objstore
