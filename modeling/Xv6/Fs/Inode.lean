import Xv6.Lib.Wp
import Xv6.Fs.Dir
import Xv6.Param

/-!
# Inodes: the table on disk, the cache in memory, directories and path lookup

The functions of `fs.c` on inodes as programs over the state of the file system: the inode table (`Tree`), the inode
cache, the file table and what each process has open. A call runs from its start to its end without another one in
between; what it does with the buffer cache and the log is modelled elsewhere, and so a change of an inode in memory and
the `iupdate` after it are one step here.
-/

namespace Xv6

abbrev NOFILE : ℕ := 16

abbrev NFILE : ℕ := 100

abbrev NINODE : ℕ := 50

namespace Fs

/-! ## The disk -/

abbrev ROOTINO : ℕ := 1

/-- `sb.ninodes`, as `mkfs` sets it. -/
abbrev NINODES : ℕ := 200

/-- The entries that a directory of `MAXFILE * BSIZE` bytes has. -/
abbrev MAXENTS : ℕ := (12 + 128) * 512 / 16

/-- The entries of a block. -/
abbrev BLOCKENTS : ℕ := 512 / 16

/-- `dinode.type`: 0 for a free inode, or `T_DIR`, `T_FILE`, `T_DEV`. -/
inductive Kind
  | free
  | dir
  | file
  | dev
  deriving DecidableEq

/-- `struct dinode`. `nlink` is a `short`, and the number here is the one in the source as long as it is below 2^15. The
directories of an image have fewer entries than that (`mkfs` leaves 965 data blocks of 32 entries), but links made in
removed directories stay counted when the directory is gone, and many of them make the `short` wrap (`Countable`). -/
structure Inode where
  type : Kind
  major : BitVec 16
  minor : BitVec 16
  nlink : ℤ
  ents : List Dirent
  deriving DecidableEq

/-- An inode as `memset` leaves it. -/
def Inode.zero : Inode := ⟨.free, 0, 0, 0, []⟩

abbrev Tree := ℕ → Inode

/-- The name under which `mkfs` stores a file of the host: without a leading underscore, cut to `DIRSIZ` bytes. -/
def mkfsName (arg : List Char) : Name := (if arg.head? = some '_' then arg.tail else arg).take DIRSIZ

/-- The entries of the files from inode `i` on. -/
def mkfsEnts : ℕ → List (List Char) → List Dirent
  | _, [] => []
  | i, arg :: args => ⟨i, mkfsName arg⟩ :: mkfsEnts (i + 1) args

/-- `main` of `mkfs.c`: the root with its dots, the files and the free entries up to the end of a block; the inodes of
the files. -/
def mkfs (args : List (List Char)) : Tree := fun i =>
  if i = ROOTINO then
    let used := ⟨ROOTINO, dot⟩ :: ⟨ROOTINO, dotdot⟩ :: mkfsEnts 2 args
    ⟨.dir, 0, 0, 1, used ++ .replicate ((used.length / BLOCKENTS + 1) * BLOCKENTS - used.length) .zero⟩
  else if 2 ≤ i ∧ i < 2 + args.length then ⟨.file, 0, 0, 1, []⟩
  else .zero

/-! ## The state -/

/-- The part of `struct inode` that is not on disk: `ref`, `I_BUSY` and `I_VALID`. -/
structure Cached where
  ref : ℕ
  busy : Bool
  valid : Bool
  deriving DecidableEq

/-- `file.type`. -/
inductive Ftype
  | none
  | pipe
  | inode
  deriving DecidableEq

/-- `struct file`, without the offset; a pipe is given by its page. -/
structure File where
  type : Ftype
  ref : ℕ
  readable : Bool
  writable : Bool
  pipe : ℕ
  ip : ℕ
  deriving DecidableEq

/-- The fields `readopen` and `writeopen` of `struct pipe`. -/
structure Pipe where
  readopen : Bool
  writeopen : Bool
  deriving DecidableEq

structure Proc where
  ofile : Fin NOFILE → Option (Fin NFILE)
  cwd : Option ℕ

/-- The state of the file system between two calls. -/
structure State where
  inode : Tree
  icache : ℕ → Cached
  file : Fin NFILE → File
  /-- the pages that hold a pipe -/
  pipe : ℕ → Option Pipe
  proc : Slot → Proc

/-- Why a call does not return: a panic with its message, a wait that nothing ends, or the use of a pipe whose page has
been given back. -/
inductive Stop
  | ilock
  | noType
  | iunlock
  | iputBusy
  | igetNoInodes
  | iallocNoInodes
  | ballocOutOfBlocks
  | dirlookupNotDir
  | dirlink
  | createDots
  | createDirlink
  | unlinkNlink
  | filedup
  | fileclose
  | fileread
  | filewrite
  | initExiting
  | sleep
  | pipeFreed
  | noCwd
  | fuel
  deriving DecidableEq

abbrev Prog := StateT State (Except Stop)

def State.setInode (s : State) (x : ℕ) (i : Inode) : State := { s with inode := Function.update s.inode x i }

def State.setCached (s : State) (x : ℕ) (c : Cached) : State := { s with icache := Function.update s.icache x c }

def State.setFile (s : State) (f : Fin NFILE) (v : File) : State := { s with file := Function.update s.file f v }

def State.setPipe (s : State) (k : ℕ) (v : Option Pipe) : State := { s with pipe := Function.update s.pipe k v }

def State.setProc (s : State) (p : Slot) (v : Proc) : State := { s with proc := Function.update s.proc p v }

/-- Change an inode that is locked, and write it to disk (`iupdate`). -/
def iupdate (ip : ℕ) (f : Inode → Inode) : Prog Unit := do
  let s ← get
  set (s.setInode ip (f (s.inode ip)))

/-! ## The inode protocol -/

/-- The entries of the inode cache that are in use. -/
def State.cached (s : State) : ℕ := (List.range NINODES).countP fun i => 0 < (s.icache i).ref

def iget (inum : ℕ) : Prog ℕ := do
  let s ← get
  if 0 < (s.icache inum).ref then
    set (s.setCached inum { s.icache inum with ref := (s.icache inum).ref + 1 })
    return inum
  else if s.cached < NINODE then
    -- recycle an entry: `ref = 1`, `flags = 0`
    set (s.setCached inum ⟨1, false, false⟩)
    return inum
  else throw .igetNoInodes

def idup (ip : ℕ) : Prog ℕ := do
  let s ← get
  set (s.setCached ip { s.icache ip with ref := (s.icache ip).ref + 1 })
  return ip

/-- `ilock`. The lock is never held by another call, so a caller that finds it taken waits for itself. -/
def ilock (ip : ℕ) : Prog Unit := do
  let s ← get
  if (s.icache ip).ref < 1 then throw .ilock
  else if (s.icache ip).busy then throw .sleep
  else if ¬ (s.icache ip).valid ∧ (s.inode ip).type = .free then throw .noType
  else set (s.setCached ip ⟨(s.icache ip).ref, true, true⟩)

def iunlock (ip : ℕ) : Prog Unit := do
  let s ← get
  if ¬ (s.icache ip).busy ∨ (s.icache ip).ref < 1 then throw .iunlock
  else set (s.setCached ip { s.icache ip with busy := false })

/-- `iput`: the last reference to an inode without links frees it and its content (`itrunc`). -/
def iput (ip : ℕ) : Prog Unit := do
  let s ← get
  if (s.icache ip).ref = 1 ∧ (s.icache ip).valid ∧ (s.inode ip).nlink = 0 then
    if (s.icache ip).busy then throw .iputBusy
    else set ((s.setInode ip { s.inode ip with type := .free, ents := [] }).setCached ip ⟨0, false, false⟩)
  else set (s.setCached ip { s.icache ip with ref := (s.icache ip).ref - 1 })

def iunlockput (ip : ℕ) : Prog Unit := do
  iunlock ip
  iput ip

def Tree.freeInode (τ : Tree) : Option ℕ := (List.range' 1 (NINODES - 1)).find? fun i => (τ i).type = .free

def ialloc (type : Kind) : Prog ℕ := do
  let s ← get
  match s.inode.freeInode with
  | none => throw .iallocNoInodes
  | some inum =>
    set (s.setInode inum { Inode.zero with type := type })
    iget inum

/-! ## Directories -/

/-- `dirlookup`: the inode that the name stands for and the place of its entry. -/
def dirlookup (dp : ℕ) (name : Name) : Prog (Option (ℕ × ℕ)) := do
  let s ← get
  if (s.inode dp).type ≠ .dir then throw .dirlookupNotDir
  else
    match find name (s.inode dp).ents with
    | none => return none
    | some (inum, off) =>
      let ip ← iget inum
      return some (ip, off)

/-- `dirlink`; false is the return value -1. -/
def dirlink (dp : ℕ) (name : Name) (inum : ℕ) (blocks : Bool) : Prog Bool := do
  match ← dirlookup dp name with
  | some (ip, _) =>
    iput ip
    return false
  | none =>
    let s ← get
    let es := (s.inode dp).ents
    if MAXENTS ≤ freeSlot es then throw .dirlink
    else if freeSlot es = es.length ∧ es.length % BLOCKENTS = 0 ∧ ¬ blocks then throw .ballocOutOfBlocks
    else
      iupdate dp fun i => { i with ents := put es (freeSlot es) ⟨inum, name.take DIRSIZ⟩ }
      return true

/-! ## Paths -/

/-- The loop of `namex`; the fuel is more than the length of the path. Without `parent` the name is not returned. -/
def namexFrom (parent : Bool) : ℕ → ℕ → List Char → Prog (Option (ℕ × Name))
  | 0, _, _ => throw .fuel
  | fuel + 1, ip, path =>
    match skipelem path with
    | none =>
      if parent then do
        iput ip
        return none
      else return some (ip, [])
    | some (name, rest) => do
      ilock ip
      let s ← get
      if (s.inode ip).type ≠ .dir then
        iunlockput ip
        return none
      else if parent && rest.isEmpty then
        -- stop one level early
        iunlock ip
        return some (ip, name)
      else
        match ← dirlookup ip name with
        | none =>
          iunlockput ip
          return none
        | some (next, _) =>
          iunlockput ip
          namexFrom parent fuel next rest

def namex (p : Slot) (path : List Char) (parent : Bool) : Prog (Option (ℕ × Name)) := do
  if path.head? = some '/' then
    let ip ← iget ROOTINO
    namexFrom parent (path.length + 1) ip path
  else
    let s ← get
    match (s.proc p).cwd with
    | none => throw .noCwd
    | some cwd =>
      let ip ← idup cwd
      namexFrom parent (path.length + 1) ip path

def namei (p : Slot) (path : List Char) : Prog (Option ℕ) := do
  let r ← namex p path false
  return r.map (·.1)

def nameiparent (p : Slot) (path : List Char) : Prog (Option (ℕ × Name)) := namex p path true

end Fs
end Xv6
