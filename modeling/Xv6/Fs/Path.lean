import Xv6.Fs.Inode

/-! # Directories and path names

The rest of fs.c.  A name is the bytes before the terminating zero, at most `DIRSIZ` of them
when it comes from a path.
-/
namespace Xv6.Fs
open Disk

abbrev Name := List UInt8

/-- A zero-terminated string without its terminator. -/
abbrev Path := { bytes : List UInt8 // 0 ∉ bytes }

def SLASH : UInt8 := 47

def DOT : Name := [46]

def DOTDOT : Name := [46, 46]

/-- Copy the next path element: the element and the path that follows it. -/
def skipelem (path : List UInt8) : Option (Name × List UInt8) :=
  match path.dropWhile (· == SLASH) with
  | [] => none
  | c :: s =>
    some (((c :: s).takeWhile (· != SLASH)).take DIRSIZ,
      ((c :: s).dropWhile (· != SLASH)).dropWhile (· == SLASH))

/-- The elements that repeated calls of `skipelem` return. -/
def elems : (fuel : ℕ) → List UInt8 → List Name
  | 0, _ => []
  | fuel + 1, path =>
    match skipelem path with
    | none => []
    | some (name, rest) => name :: elems fuel rest

def Path.elems (path : Path) : List Name := Fs.elems path.val.length path.val

def DIRENT : ℕ := 16

def slots (size : ℕ) : ℕ := (size + (DIRENT - 1)) / DIRENT

section
variable [sb : Superblock]

/-- Names are compared up to `DIRSIZ` bytes. -/
def namecmp (s t : List UInt8) : ℤ := strncmp DIRSIZ s t

/-- Read the entries in the listed slots up to the first wanted one, and return its
slot and the entry. -/
def scanDir (dp : InodeId) (err : Panic) (wanted : Dirent → Bool) :
    List ℕ → FsM (Option (ℕ × Dirent))
  | [] => pure none
  | k :: ks => do
    let r ← readi dp none (DIRENT * k) DIRENT
    if r.1 ≠ DIRENT then throw err
    else if wanted (.ofBytes r.2) then pure (some (k, .ofBytes r.2))
    else scanDir dp err wanted ks

/-- Look for a directory entry: its inode and its slot. -/
def dirlookup (dp : InodeId) (name : Name) : FsM (Option (InodeId × ℕ)) := do
  let inode ← getInode dp
  if inode.d.type ≠ T_DIR then throw .dirlookupNotDir
  else do
    let found ← scanDir dp .dirlookupRead (fun de => de.inum != 0 && namecmp name de.name == 0)
      (List.range (slots inode.d.size))
    match found with
    | none => pure none
    | some (k, de) => do
      let ip ← iget de.inum
      pure (some (ip, k))

/-- Write a new directory entry into the directory; false on failure. -/
def dirlink (dp : InodeId) (name : Name) (inum : ℕ) : FsM Bool := do
  let found ← dirlookup dp name
  match found with
  | some (ip, _) => do
    iput ip
    pure false
  | none => do
    let inode ← getInode dp
    let empty ← scanDir dp .dirlinkRead (fun de => de.inum == 0)
      (List.range (slots inode.d.size))
    let k := empty.elim (slots inode.d.size) (·.1)
    let r ← writei dp (Dirent.toBytes ⟨inum, strncpy DIRSIZ name⟩) (DIRENT * k) DIRENT
    pure (r == DIRENT)

/-- The loop of `namex` over the elements of the path. -/
def namexLoop (nameiparent : Bool) : InodeId → List Name → FsM (Option (InodeId × Name))
  | ip, [] =>
    if nameiparent then do
      iput ip
      pure none
    else pure (some (ip, []))
  | ip, name :: rest => do
    ilock ip
    let inode ← getInode ip
    if inode.d.type ≠ T_DIR then do
      iunlockput ip
      pure none
    else if nameiparent ∧ rest = [] then do
      iunlock ip
      pure (some (ip, name))
    else do
      let found ← dirlookup ip name
      iunlockput ip
      match found with
      | none => pure none
      | some (next, _) => namexLoop nameiparent next rest

/-- Look up the inode for a path name, or its parent and the final element.
`cwd` is the current directory of the calling process. -/
def namex (cwd : InodeId) (path : Path) (nameiparent : Bool) : FsM (Option (InodeId × Name)) := do
  let ip ← if path.val.head? = some SLASH then iget ROOTINO else idup cwd
  namexLoop nameiparent ip path.elems

def namei (cwd : InodeId) (path : Path) : FsM (Option InodeId) := do
  let r ← namex cwd path false
  pure (r.map (·.1))

def nameiparent (cwd : InodeId) (path : Path) : FsM (Option (InodeId × Name)) :=
  namex cwd path true

end

end Xv6.Fs
