import Xv6.Fs.Syscall
import Xv6.Lib.Bytes
import Xv6.Lib.Zoom

/-!
# Calls with their transactions

The calls of `sysfile.c` that can fail after they have begun, over the state of `Xv6.Fs.Syscall` and what that state
leaves out: the bytes of the files and the count of the calls that are inside a transaction. `begin_op` and `end_op`
stand where the source has them, on every way out of a call. `Request.run` is the program of a request.
-/

namespace Xv6.Fs

open Lib

/-- The state with the bytes of the files and the count of the log. -/
structure Whole where
  fs : State
  data : ℕ → List Byte
  /-- `log.outstanding` -/
  outstanding : ℕ

/-- The state after a part of a call that has turned `w.fs` into `t`. An inode that the part gives back loses its bytes
(`itrunc`) and one that it allocates has none; nothing else that these calls do touches the bytes of a file. -/
def Whole.after (w : Whole) (t : State) : Whole where
  fs := t
  data := fun x => if (w.fs.inode x).type = .free ∨ (t.inode x).type = .free then [] else w.data x
  outstanding := w.outstanding

abbrev Op := StateT Whole (Except Stop)

/-- A part of a call. No part gives an inode back and allocates it again. -/
def part {α : Type} (m : Prog α) : Op α := zoom Whole.fs Whole.after m

def beginOp : Op PUnit := modify fun w => { w with outstanding := w.outstanding + 1 }

def endOp : Op PUnit := modify fun w => { w with outstanding := w.outstanding - 1 }

namespace Logged

/-! ## The calls -/

def fileclose (f : Fin NFILE) : Op Unit := do
  let w ← get
  if (w.fs.file f).ref < 1 then throw .fileclose
  else if 0 < (w.fs.file f).ref - 1 then
    part (set (w.fs.setFile f { w.fs.file f with ref := (w.fs.file f).ref - 1 }))
  else
    part (set (w.fs.setFile f { w.fs.file f with ref := 0, type := .none }))
    match (w.fs.file f).type with
    | .pipe => part (pipeclose (w.fs.file f).pipe (w.fs.file f).writable)
    | .inode =>
      beginOp
      part (iput (w.fs.file f).ip)
      endOp
    | .none => return ()

def sysDup (p : Slot) : Option ℤ → Op ℤ
  | none => return -1
  | some fd => part (Fs.sysDup p fd)

def pipealloc (page : Option ℕ) : Op (Option (Fin NFILE × Fin NFILE)) := do
  match ← part filealloc with
  | none => return none
  | some f0 =>
    match ← part filealloc with
    | none =>
      fileclose f0
      return none
    | some f1 =>
      let w ← get
      match page.filter fun k => w.fs.pipe k = none with
      | none =>
        fileclose f0
        fileclose f1
        return none
      | some k =>
        part (set (w.fs.setPipe k (some ⟨true, true⟩)))
        let w ← get
        part (set (w.fs.setFile f0 { w.fs.file f0 with type := .pipe, readable := true, writable := false, pipe := k }))
        let w ← get
        part (set (w.fs.setFile f1 { w.fs.file f1 with type := .pipe, readable := false, writable := true, pipe := k }))
        return some (f0, f1)

/-- `sys_pipe`; `fetched` is the result of `argptr`. -/
def sysPipe (p : Slot) (fetched : Bool) (page : Option ℕ) : Op ℤ := do
  if ¬ fetched then return -1
  else
    match ← pipealloc page with
    | none => return -1
    | some (rf, wf) =>
      match ← part (fdalloc p rf) with
      | none =>
        fileclose rf
        fileclose wf
        return -1
      | some fd0 =>
        match ← part (fdalloc p wf) with
        | none =>
          part (setOfile p fd0 none)
          fileclose rf
          fileclose wf
          return -1
        | some _ => return 0

/-- The label `bad` of `sys_link`. -/
def linkBad (ip : ℕ) : Op ℤ := do
  part (ilock ip)
  part (iupdate ip fun i => { i with nlink := i.nlink - 1 })
  part (iunlockput ip)
  endOp
  return -1

def sysLink (p : Slot) : Option (List Char) → Option (List Char) → Bool → Op ℤ
  | some old, some new, blocks => do
    beginOp
    match ← part (namei p old) with
    | none =>
      endOp
      return -1
    | some ip =>
      part (ilock ip)
      let w ← get
      if (w.fs.inode ip).type = .dir then
        part (iunlockput ip)
        endOp
        return -1
      else
        part (iupdate ip fun i => { i with nlink := i.nlink + 1 })
        part (iunlock ip)
        match ← part (nameiparent p new) with
        | none => linkBad ip
        | some (dp, name) =>
          part (ilock dp)
          let linked ← part (dirlink dp name ip blocks)
          if linked then
            part (iunlockput dp)
            part (iput ip)
            endOp
            return 0
          else
            part (iunlockput dp)
            linkBad ip
  | _, _, _ => return -1

/-- The label `bad` of `sys_unlink`. -/
def unlinkBad (dp : ℕ) : Op ℤ := do
  part (iunlockput dp)
  endOp
  return -1

def sysUnlink (p : Slot) : Option (List Char) → Op ℤ
  | none => return -1
  | some path => do
    beginOp
    match ← part (nameiparent p path) with
    | none =>
      endOp
      return -1
    | some (dp, name) =>
      part (ilock dp)
      if namecmp name dot || namecmp name dotdot then unlinkBad dp
      else
        match ← part (dirlookup dp name) with
        | none => unlinkBad dp
        | some (ip, off) =>
          part (ilock ip)
          let w ← get
          if (w.fs.inode ip).nlink < 1 then throw .unlinkNlink
          else if (w.fs.inode ip).type = .dir ∧ ¬ isdirempty (w.fs.inode ip).ents then
            part (iunlockput ip)
            unlinkBad dp
          else
            part (iupdate dp fun i => { i with ents := i.ents.set off .zero })
            if (w.fs.inode ip).type = .dir then part (iupdate dp fun i => { i with nlink := i.nlink - 1 })
            else pure ()
            part (iunlockput dp)
            part (iupdate ip fun i => { i with nlink := i.nlink - 1 })
            part (iunlockput ip)
            endOp
            return 0

def create (p : Slot) (path : List Char) (type : Kind) (major minor : BitVec 16) (blocks : Bool) : Op (Option ℕ) := do
  match ← part (nameiparent p path) with
  | none => return none
  | some (dp, name) =>
    part (ilock dp)
    match ← part (dirlookup dp name) with
    | some (ip, _) =>
      part (iunlockput dp)
      part (ilock ip)
      let w ← get
      if type = .file ∧ (w.fs.inode ip).type = .file then return some ip
      else
        part (iunlockput ip)
        return none
    | none => part (createNew dp name type major minor blocks)

/-- The part of `sys_open` from `filealloc` on. -/
def openFile (p : Slot) (omode : Word) (ip : ℕ) : Op ℤ := do
  match ← part filealloc with
  | none =>
    part (iunlockput ip)
    endOp
    return -1
  | some f =>
    match ← part (fdalloc p f) with
    | none =>
      fileclose f
      part (iunlockput ip)
      endOp
      return -1
    | some fd =>
      part (iunlock ip)
      endOp
      let w ← get
      part (set (w.fs.setFile f { w.fs.file f with
        type := .inode, ip := ip, readable := omode &&& O_WRONLY = 0,
        writable := omode &&& O_WRONLY ≠ 0 ∨ omode &&& O_RDWR ≠ 0 }))
      return fd.val

def sysOpen (p : Slot) : Option (List Char) → Option Word → Bool → Op ℤ
  | some path, some omode, blocks => do
    beginOp
    if omode &&& O_CREATE ≠ 0 then
      match ← create p path .file 0 0 blocks with
      | none =>
        endOp
        return -1
      | some ip => openFile p omode ip
    else
      match ← part (namei p path) with
      | none =>
        endOp
        return -1
      | some ip =>
        part (ilock ip)
        let w ← get
        if (w.fs.inode ip).type = .dir ∧ omode ≠ 0 then
          part (iunlockput ip)
          endOp
          return -1
        else openFile p omode ip
  | _, _, _ => return -1

/-- The part of `sys_mkdir` and `sys_mknod` after the arguments are fetched. -/
def sysMake (p : Slot) (path : List Char) (type : Kind) (major minor : BitVec 16) (blocks : Bool) : Op ℤ := do
  match ← create p path type major minor blocks with
  | none =>
    endOp
    return -1
  | some ip =>
    part (iunlockput ip)
    endOp
    return 0

/-- `sys_mkdir`: the transaction begins before the argument is fetched. -/
def sysMkdir (p : Slot) (path : Option (List Char)) (blocks : Bool) : Op ℤ := do
  beginOp
  match path with
  | some path => sysMake p path .dir 0 0 blocks
  | none =>
    endOp
    return -1

def sysMknod (p : Slot) (path : Option (List Char)) (major minor : Option Word) (blocks : Bool) : Op ℤ := do
  beginOp
  match path, major, minor with
  | some path, some major, some minor => sysMake p path .dev (major.setWidth 16) (minor.setWidth 16) blocks
  | _, _, _ =>
    endOp
    return -1

def sysChdir (p : Slot) (path : Option (List Char)) : Op ℤ := do
  beginOp
  match path with
  | none =>
    endOp
    return -1
  | some path =>
    match ← part (namei p path) with
    | none =>
      endOp
      return -1
    | some ip =>
      part (ilock ip)
      let w ← get
      if (w.fs.inode ip).type ≠ .dir then
        part (iunlockput ip)
        endOp
        return -1
      else
        part (iunlock ip)
        match (w.fs.proc p).cwd with
        | none => throw .noCwd
        | some cwd =>
          part (iput cwd)
          endOp
          part (setCwd p (some ip))
          return 0

end Logged

/-! ## Requests -/

/-- A call with its arguments as they are fetched. -/
inductive Request
  | open (path : Option (List Char)) (omode : Option Word) (blocks : Bool)
  | mkdir (path : Option (List Char)) (blocks : Bool)
  | mknod (path : Option (List Char)) (major minor : Option Word) (blocks : Bool)
  | link (old new : Option (List Char)) (blocks : Bool)
  | unlink (path : Option (List Char))
  | chdir (path : Option (List Char))
  | dup (fd : Option ℤ)
  | pipe (fetched : Bool) (page : Option ℕ)

def Request.run (p : Slot) : Request → Op ℤ
  | .open path omode blocks => Logged.sysOpen p path omode blocks
  | .mkdir path blocks => Logged.sysMkdir p path blocks
  | .mknod path major minor blocks => Logged.sysMknod p path major minor blocks
  | .link old new blocks => Logged.sysLink p old new blocks
  | .unlink path => Logged.sysUnlink p path
  | .chdir path => Logged.sysChdir p path
  | .dup fd => Logged.sysDup p fd
  | .pipe fetched page => Logged.sysPipe p fetched page

end Xv6.Fs
