import GemOS.Objstore.Fuse
import GemOS.Objstore.Sizes

/-!
# The calls of the file system

A transcription of the other functions of `src/Assn4/objfs.c` that FUSE calls: `objfs_getattr`,
`objfs_unlink`, `objfs_read`, `objfs_write`, and `objfs_release`. A handle is the id of an object.
`fsStep` serves any of the calls.
-/

namespace GemOS.Objstore

/-- Error number. -/
def EBADF : ℤ := 9

/-- `ROOT_OBJID`. -/
def rootObjid : ℕ := 1

/-- `struct stat`, as far as it is used. -/
structure FileStat extends Stat where
  /-- `st_uid`. -/
  stUid : ℕ
  /-- `st_gid`. -/
  stGid : ℕ

/-- What `objfs_getattr` finds outside the store. -/
structure Defaults where
  /-- `def_dirstat`. -/
  defDirstat : FileStat
  /-- `def_fstat`. -/
  defFstat : FileStat
  /-- `getuid()`. -/
  uid : ℕ
  /-- `getgid()`. -/
  gid : ℕ

/-- A call of FUSE. -/
inductive FsCall where
  /-- `objfs_getattr(key, statbuf)`. -/
  | getattr (key : List UInt8)
  /-- `objfs_create(key, mode, fi)`. -/
  | create (key : List UInt8)
  /-- `objfs_unlink(key)`. -/
  | unlink (key : List UInt8)
  /-- `objfs_open(key, fi)`. -/
  | openFile (key : List UInt8)
  /-- `objfs_read(key, buf, size, offset, fi)`, with the handle `fh` in `fi`. -/
  | read (fh : ℕ) (buf : ℕ → UInt8) (size : ℕ) (offset : ℤ)
  /-- `objfs_write(key, buf, size, offset, fi)`, with the handle `fh` in `fi`. -/
  | write (fh : ℕ) (buf : ℕ → UInt8) (size : ℕ) (offset : ℤ)
  /-- `objfs_release(key, fi)`. -/
  | release (fh : ℕ)
  /-- `objfs_rename_key(oldkey, newkey)`, with the memory behind the new key. -/
  | rename (oldkey newkey : List UInt8) (rest : ℕ → UInt8)

/-- What a call gives back. -/
inductive FsReply where
  /-- The result. -/
  | result (r : ℤ)
  /-- The result, and the handle when it is set. -/
  | handle (r : ℤ) (fh : Option ℕ)
  /-- The result, and the attributes. -/
  | attributes (r : ℤ) (statbuf : FileStat)
  /-- The result, and the buffer. -/
  | data (r : ℤ) (buf : ℕ → UInt8)

namespace Store

variable {σ : Type} [BlockLayer σ]

/-- `objfs_getattr`. -/
def objfsGetattr (d : Defaults) (s : Store σ) (key : List UInt8) :
    Option (ℤ × FileStat × Store σ) := do
  if key = path [] then
    let statbuf := { d.defDirstat with stIno := rootObjid }
    return (0, { statbuf with stUid := d.uid, stGid := d.gid }, s)
  else
    let statbuf := d.defFstat
    let (id, s) ← s.findObjectId key.tail
    let retval := int id
    if retval < 0 then return (-ENOENT, statbuf, s)
    let statbuf := { statbuf with stIno := u64 retval }
    let (r, stat, s) ← s.fillupSizeDetails statbuf.toStat
    let statbuf := { statbuf with toStat := stat }
    if r < 0 then return (-EBADF, statbuf, s)
    return (0, { statbuf with stUid := d.uid, stGid := d.gid }, s)

/-- `objfs_unlink`. -/
def objfsUnlink (s : Store σ) (key : List UInt8) : Option (ℤ × Store σ) := do
  let (_, s) ← s.destroyObject key.tail
  return (0, s)

/-- `objfs_read`. The handle and the size are passed on as an `int`. -/
def objfsRead (s : Store σ) (fh : ℕ) (buf : ℕ → UInt8) (size : ℕ) (offset : ℤ) :
    Option (ℤ × (ℕ → UInt8) × Store σ) := do
  let (r, buf, s) ← s.objstoreRead (int fh) buf (int size) offset
  let retval := int r
  if retval < 0 then return (-EINVAL, buf, s)
  return (retval, buf, s)

/-- `objfs_write`. The handle and the size are passed on as an `int`. -/
def objfsWrite (s : Store σ) (fh : ℕ) (buf : ℕ → UInt8) (size : ℕ) (offset : ℤ) :
    Option (ℤ × Store σ) := do
  let (r, s) ← s.objstoreWrite (int fh) buf (int size) offset
  let retval := int r
  if retval < 0 then return (-EINVAL, s)
  return (retval, s)

/-- `objfs_release`. `release_object` does nothing. -/
def objfsRelease (s : Store σ) (_fh : ℕ) : ℤ × Store σ := (-EINVAL, s)

/-- A call of FUSE. -/
def fsStep (d : Defaults) (s : Store σ) : FsCall → Option (FsReply × Store σ)
  | .getattr key => (s.objfsGetattr d key).map fun (r, statbuf, s) => (.attributes r statbuf, s)
  | .create key => (s.objfsCreate key).map fun (r, fh, s) => (.handle r fh, s)
  | .unlink key => (s.objfsUnlink key).map fun (r, s) => (.result r, s)
  | .openFile key => (s.objfsOpen key).map fun (r, fh, s) => (.handle r fh, s)
  | .read fh buf size offset =>
      (s.objfsRead fh buf size offset).map fun (r, buf, s) => (.data r buf, s)
  | .write fh buf size offset => (s.objfsWrite fh buf size offset).map fun (r, s) => (.result r, s)
  | .release fh => some (.result (s.objfsRelease fh).1, (s.objfsRelease fh).2)
  | .rename oldkey newkey rest =>
      (s.objfsRenameKey oldkey newkey rest).map fun (r, s) => (.result r, s)

end Store

end GemOS.Objstore
