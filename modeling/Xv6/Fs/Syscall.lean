import Xv6.Fs.Inode

/-!
# The file system calls

`file.c` and `sysfile.c` over the programs of `Xv6.Fs.Inode`, with the parts of `fork`, `exit` and `exec` that touch
files. A call whose arguments cannot be fetched returns -1 before it does anything (`Call.fault`).
-/

namespace Xv6.Fs

/-! ## Open files -/

def filealloc : Prog (Option (Fin NFILE)) := do
  let s ← get
  match (List.finRange NFILE).find? fun f => (s.file f).ref = 0 with
  | none => return none
  | some f =>
    set (s.setFile f { s.file f with ref := 1 })
    return some f

def filedup (f : Fin NFILE) : Prog (Fin NFILE) := do
  let s ← get
  if (s.file f).ref < 1 then throw .filedup
  else
    set (s.setFile f { s.file f with ref := (s.file f).ref + 1 })
    return f

def Pipe.close (p : Pipe) (writable : Bool) : Pipe :=
  if writable then { p with writeopen := false } else { p with readopen := false }

/-- `pipeclose`: the page goes back when both ends are closed. -/
def pipeclose (k : ℕ) (writable : Bool) : Prog Unit := do
  let s ← get
  match s.pipe k with
  | none => throw .pipeFreed
  | some p =>
    set (s.setPipe k (if ¬ (p.close writable).readopen ∧ ¬ (p.close writable).writeopen then none
      else some (p.close writable)))

def fileclose (f : Fin NFILE) : Prog Unit := do
  let s ← get
  if (s.file f).ref < 1 then throw .fileclose
  else if 0 < (s.file f).ref - 1 then set (s.setFile f { s.file f with ref := (s.file f).ref - 1 })
  else
    set (s.setFile f { s.file f with ref := 0, type := .none })
    match (s.file f).type with
    | .pipe => pipeclose (s.file f).pipe (s.file f).writable
    | .inode => iput (s.file f).ip
    | .none => return ()

def setOfile (p : Slot) (fd : Fin NOFILE) (v : Option (Fin NFILE)) : Prog Unit := do
  let s ← get
  set (s.setProc p { s.proc p with ofile := Function.update (s.proc p).ofile fd v })

def setCwd (p : Slot) (v : Option ℕ) : Prog Unit := do
  let s ← get
  set (s.setProc p { s.proc p with cwd := v })

def fdalloc (p : Slot) (f : Fin NFILE) : Prog (Option (Fin NOFILE)) := do
  let s ← get
  match (List.finRange NOFILE).find? fun fd => (s.proc p).ofile fd = none with
  | none => return none
  | some fd =>
    setOfile p fd (some f)
    return some fd

/-- `argfd`: the descriptor and its file. -/
def State.argfd (s : State) (p : Slot) (fd : ℤ) : Option (Fin NOFILE × Fin NFILE) :=
  if h : 0 ≤ fd ∧ fd < NOFILE then
    ((s.proc p).ofile ⟨fd.toNat, by omega⟩).map fun f => (⟨fd.toNat, by omega⟩, f)
  else none

def sysDup (p : Slot) (fd : ℤ) : Prog ℤ := do
  let s ← get
  match s.argfd p fd with
  | none => return -1
  | some (_, f) =>
    match ← fdalloc p f with
    | none => return -1
    | some fd' =>
      let _ ← filedup f
      return fd'.val

def sysClose (p : Slot) (fd : ℤ) : Prog ℤ := do
  let s ← get
  match s.argfd p fd with
  | none => return -1
  | some (i, f) =>
    setOfile p i none
    fileclose f
    return 0

/-- `sys_read` with `fileread`. -/
def sysRead (p : Slot) (fd : ℤ) : Prog ℤ := do
  let s ← get
  match s.argfd p fd with
  | none => return -1
  | some (_, f) =>
    if ¬ (s.file f).readable then return -1
    else
      match (s.file f).type with
      | .none => throw .fileread
      | .pipe => return 0
      | .inode =>
        ilock (s.file f).ip
        iunlock (s.file f).ip
        return 0

/-- One round of the loop of `filewrite`. -/
def writeChunk (ip : ℕ) (es : List Dirent) : Prog Unit := do
  ilock ip
  let s ← get
  if (s.inode ip).type = .dir then
    iupdate ip fun i => { i with ents := es }
    iunlock ip
  else iunlock ip

/-- `sys_write` with `filewrite`. -/
def sysWrite (p : Slot) (fd : ℤ) (chunks : List (List Dirent)) : Prog ℤ := do
  let s ← get
  match s.argfd p fd with
  | none => return -1
  | some (_, f) =>
    if ¬ (s.file f).writable then return -1
    else
      match (s.file f).type with
      | .none => throw .filewrite
      | .pipe => return 0
      | .inode =>
        chunks.forM (writeChunk (s.file f).ip)
        return 0

/-- `sys_fstat` with `filestat`. -/
def sysFstat (p : Slot) (fd : ℤ) : Prog ℤ := do
  let s ← get
  match s.argfd p fd with
  | none => return -1
  | some (_, f) =>
    if (s.file f).type = .inode then
      ilock (s.file f).ip
      iunlock (s.file f).ip
      return 0
    else return -1

/-- `pipealloc`; `page` is the page that `kalloc` returns, if any, and it never returns one that is in use. -/
def pipealloc (page : Option ℕ) : Prog (Option (Fin NFILE × Fin NFILE)) := do
  match ← filealloc with
  | none => return none
  | some f0 =>
    match ← filealloc with
    | none =>
      fileclose f0
      return none
    | some f1 =>
      let s ← get
      match page.filter fun k => s.pipe k = none with
      | none =>
        fileclose f0
        fileclose f1
        return none
      | some k =>
        set (s.setPipe k (some ⟨true, true⟩))
        let s ← get
        set (s.setFile f0 { s.file f0 with type := .pipe, readable := true, writable := false, pipe := k })
        let s ← get
        set (s.setFile f1 { s.file f1 with type := .pipe, readable := false, writable := true, pipe := k })
        return some (f0, f1)

def sysPipe (p : Slot) (page : Option ℕ) : Prog ℤ := do
  match ← pipealloc page with
  | none => return -1
  | some (rf, wf) =>
    match ← fdalloc p rf with
    | none =>
      fileclose rf
      fileclose wf
      return -1
    | some fd0 =>
      match ← fdalloc p wf with
      | none =>
        setOfile p fd0 none
        fileclose rf
        fileclose wf
        return -1
      | some _ => return 0

/-! ## Names -/

/-- The label `bad` of `sys_link`: take the new link back. -/
def linkBad (ip : ℕ) : Prog ℤ := do
  ilock ip
  iupdate ip fun i => { i with nlink := i.nlink - 1 }
  iunlockput ip
  return -1

def sysLink (p : Slot) (old new : List Char) (blocks : Bool) : Prog ℤ := do
  match ← namei p old with
  | none => return -1
  | some ip =>
    ilock ip
    let s ← get
    if (s.inode ip).type = .dir then
      iunlockput ip
      return -1
    else
      iupdate ip fun i => { i with nlink := i.nlink + 1 }
      iunlock ip
      match ← nameiparent p new with
      | none => linkBad ip
      | some (dp, name) =>
        ilock dp
        let linked ← dirlink dp name ip blocks
        if linked then
          iunlockput dp
          iput ip
          return 0
        else
          iunlockput dp
          linkBad ip

/-- `isdirempty`: no entry in use behind the first two. -/
def isdirempty (es : List Dirent) : Bool := (es.drop 2).all (·.inum = 0)

def sysUnlink (p : Slot) (path : List Char) : Prog ℤ := do
  match ← nameiparent p path with
  | none => return -1
  | some (dp, name) =>
    ilock dp
    if namecmp name dot || namecmp name dotdot then
      iunlockput dp
      return -1
    else
      match ← dirlookup dp name with
      | none =>
        iunlockput dp
        return -1
      | some (ip, off) =>
        ilock ip
        let s ← get
        if (s.inode ip).nlink < 1 then throw .unlinkNlink
        else if (s.inode ip).type = .dir ∧ ¬ isdirempty (s.inode ip).ents then
          iunlockput ip
          iunlockput dp
          return -1
        else
          iupdate dp fun i => { i with ents := i.ents.set off .zero }
          if (s.inode ip).type = .dir then iupdate dp fun i => { i with nlink := i.nlink - 1 }
          else pure ()
          iunlockput dp
          iupdate ip fun i => { i with nlink := i.nlink - 1 }
          iunlockput ip
          return 0

/-- The part of `create` for a new name: the inode, its dots if it is a directory, and its entry. -/
def createNew (dp : ℕ) (name : Name) (type : Kind) (major minor : BitVec 16) (blocks : Bool) : Prog (Option ℕ) := do
  let ip ← ialloc type
  ilock ip
  iupdate ip fun i => { i with major := major, minor := minor, nlink := 1 }
  if type = .dir then
    iupdate dp fun i => { i with nlink := i.nlink + 1 }
    let one ← dirlink ip dot ip blocks
    if one then
      let two ← dirlink ip dotdot dp blocks
      if two then pure () else throw .createDots
    else throw .createDots
  else pure ()
  let linked ← dirlink dp name ip blocks
  if linked then
    iunlockput dp
    return some ip
  else throw .createDirlink

/-- `create`: the inode is returned locked. -/
def create (p : Slot) (path : List Char) (type : Kind) (major minor : BitVec 16) (blocks : Bool) :
    Prog (Option ℕ) := do
  match ← nameiparent p path with
  | none => return none
  | some (dp, name) =>
    ilock dp
    match ← dirlookup dp name with
    | some (ip, _) =>
      iunlockput dp
      ilock ip
      let s ← get
      if type = .file ∧ (s.inode ip).type = .file then return some ip
      else
        iunlockput ip
        return none
    | none => createNew dp name type major minor blocks

def O_WRONLY : Word := 0x001

def O_RDWR : Word := 0x002

def O_CREATE : Word := 0x200

/-- The part of `sys_open` before the file is allocated: the inode, locked. -/
def openInode (p : Slot) (path : List Char) (omode : Word) (blocks : Bool) : Prog (Option ℕ) := do
  if omode &&& O_CREATE ≠ 0 then create p path .file 0 0 blocks
  else
    match ← namei p path with
    | none => return none
    | some ip =>
      ilock ip
      let s ← get
      if (s.inode ip).type = .dir ∧ omode ≠ 0 then
        iunlockput ip
        return none
      else return some ip

def sysOpen (p : Slot) (path : List Char) (omode : Word) (blocks : Bool) : Prog ℤ := do
  match ← openInode p path omode blocks with
  | none => return -1
  | some ip =>
    match ← filealloc with
    | none =>
      iunlockput ip
      return -1
    | some f =>
      match ← fdalloc p f with
      | none =>
        fileclose f
        iunlockput ip
        return -1
      | some fd =>
        iunlock ip
        let s ← get
        set (s.setFile f { s.file f with
          type := .inode, ip := ip, readable := omode &&& O_WRONLY = 0,
          writable := omode &&& O_WRONLY ≠ 0 ∨ omode &&& O_RDWR ≠ 0 })
        return fd.val

/-- `sys_mkdir` and `sys_mknod`. -/
def sysMake (p : Slot) (path : List Char) (type : Kind) (major minor : BitVec 16) (blocks : Bool) : Prog ℤ := do
  match ← create p path type major minor blocks with
  | none => return -1
  | some ip =>
    iunlockput ip
    return 0

def sysMkdir (p : Slot) (path : List Char) (blocks : Bool) : Prog ℤ := sysMake p path .dir 0 0 blocks

/-- `sys_mknod`; the device numbers are cut to `short`. -/
def sysMknod (p : Slot) (path : List Char) (major minor : Word) (blocks : Bool) : Prog ℤ :=
  sysMake p path .dev (major.setWidth 16) (minor.setWidth 16) blocks

def sysChdir (p : Slot) (path : List Char) : Prog ℤ := do
  match ← namei p path with
  | none => return -1
  | some ip =>
    ilock ip
    let s ← get
    if (s.inode ip).type ≠ .dir then
      iunlockput ip
      return -1
    else
      iunlock ip
      match (s.proc p).cwd with
      | none => throw .noCwd
      | some cwd =>
        iput cwd
        setCwd p (some ip)
        return 0

/-- The inode of `exec`: it is looked up, read and released on every way out. -/
def sysExec (p : Slot) (path : List Char) : Prog ℤ := do
  match ← namei p path with
  | none => return -1
  | some ip =>
    ilock ip
    iunlockput ip
    return 0

/-! ## Processes -/

def initproc : Slot := 0

/-- The loop of `fork` over the descriptors. -/
def forkFile (p np : Slot) (fd : Fin NOFILE) : Prog Unit := do
  let s ← get
  match (s.proc p).ofile fd with
  | none => return ()
  | some f =>
    let f' ← filedup f
    setOfile np fd (some f')

/-- The files of `fork`; `np` is the slot that `allocproc` offers, and one in use is no slot. -/
def sysFork (p np : Slot) : Prog ℤ := do
  let s ← get
  match (s.proc np).cwd, (s.proc p).cwd with
  | some _, _ => return -1
  | none, none => throw .noCwd
  | none, some cwd =>
    (List.finRange NOFILE).forM (forkFile p np)
    let ip ← idup cwd
    setCwd np (some ip)
    return 0

/-- The loop of `exit` over the descriptors. -/
def exitFile (p : Slot) (fd : Fin NOFILE) : Prog Unit := do
  let s ← get
  match (s.proc p).ofile fd with
  | none => return ()
  | some f =>
    fileclose f
    setOfile p fd none

def sysExit (p : Slot) : Prog ℤ := do
  if p = initproc then throw .initExiting
  else
    (List.finRange NOFILE).forM (exitFile p)
    let s ← get
    match (s.proc p).cwd with
    | none => throw .noCwd
    | some cwd =>
      iput cwd
      setCwd p none
      return 0

/-! ## The system -/

inductive Call
  | open (path : List Char) (omode : Word) (blocks : Bool)
  | mkdir (path : List Char) (blocks : Bool)
  | mknod (path : List Char) (major minor : Word) (blocks : Bool)
  | link (old new : List Char) (blocks : Bool)
  | unlink (path : List Char)
  | chdir (path : List Char)
  | exec (path : List Char)
  | close (fd : ℤ)
  | dup (fd : ℤ)
  | read (fd : ℤ)
  | write (fd : ℤ) (chunks : List (List Dirent))
  | fstat (fd : ℤ)
  | pipe (page : Option ℕ)
  | fork (np : Slot)
  | exit
  | fault

def Call.run (p : Slot) : Call → Prog ℤ
  | .open path omode blocks => sysOpen p path omode blocks
  | .mkdir path blocks => sysMkdir p path blocks
  | .mknod path major minor blocks => sysMknod p path major minor blocks
  | .link old new blocks => sysLink p old new blocks
  | .unlink path => sysUnlink p path
  | .chdir path => sysChdir p path
  | .exec path => sysExec p path
  | .close fd => sysClose p fd
  | .dup fd => sysDup p fd
  | .read fd => sysRead p fd
  | .write fd chunks => sysWrite p fd chunks
  | .fstat fd => sysFstat p fd
  | .pipe page => sysPipe p page
  | .fork np => sysFork p np
  | .exit => sysExit p
  | .fault => return -1

structure Label where
  proc : Slot
  call : Call

/-- One call that returns, by a process that runs. -/
def step (s : State) (l : Label) : Option State :=
  if (s.proc l.proc).cwd = none then none
  else
    match l.call.run l.proc s with
    | .ok (_, t) => some t
    | .error _ => none

/-- The files of the host on an image: `mkfs` has inodes for `NINODES - 2` of them. -/
structure Files where
  list : List (List Char)
  bound : list.length ≤ NINODES - 2

instance : EmptyCollection Files := ⟨⟨[], Nat.zero_le _⟩⟩

/-- The state in which the first process runs: `userinit` has set its working directory to the root. -/
def boot (args : Files) : State where
  inode := mkfs args.list
  icache := Function.update (fun _ => ⟨0, false, false⟩) ROOTINO ⟨1, false, false⟩
  file := fun _ => ⟨.none, 0, false, false, 0, 0⟩
  pipe := fun _ => none
  proc := Function.update (fun _ => ⟨fun _ => none, none⟩) initproc ⟨fun _ => none, some ROOTINO⟩

end Xv6.Fs
