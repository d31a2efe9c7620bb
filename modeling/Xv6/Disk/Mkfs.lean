import Xv6.Lib.Wp
import Xv6.Disk.Balloc

/-!
# `mkfs`

`mkfs.c`, statement by statement: the image is a file of the host of which `rsect` reads and `wsect` writes one sector.
A run ends before `exit(0)` with `exit(1)` or with an assertion that fails (`Exit`).
-/

namespace Xv6.Disk.Mkfs

open Lib

inductive Exit
  /-- `exit(1)`, after a call of the host has failed -/
  | failed
  /-- an assertion -/
  | aborted

/-- The image, the number of its sectors, and the counters. -/
structure State where
  disk : Image
  sectors : ℕ
  freeblock : ℕ
  usedblocks : ℕ
  freeinode : ℕ

abbrev Prog := StateT State (Except Exit)

def rsect (sec : ℕ) : Prog Sector := do
  let s ← get
  if sec < s.sectors then pure (s.disk sec) else throw .failed

def wsect (sec : ℕ) (buf : Sector) : Prog PUnit := do
  let s ← get
  set { s with disk := Function.update s.disk sec buf, sectors := max s.sectors (sec + 1) }

def i2b (inum : ℕ) : ℕ := inum / IPB + 2

def winode (inum : ℕ) (ip : Dinode) : Prog PUnit := do
  let buf ← rsect (i2b inum)
  wsect (i2b inum) (ip.write buf (64 * (inum % IPB)))

def rinode (inum : ℕ) : Prog Dinode := do
  let buf ← rsect (i2b inum)
  pure (.read buf (64 * (inum % IPB)))

def newInode (type : BitVec 16) : Dinode := { Dinode.zero with type := type, nlink := 1 }

def ialloc (type : BitVec 16) : Prog ℕ := do
  let s ← get
  set { s with freeinode := s.freeinode + 1 }
  winode s.freeinode (newInode type)
  pure s.freeinode

/-- `balloc`: the bitmap. -/
def balloc (used : ℕ) : Prog PUnit :=
  if used < 512 * 8 then wsect (ninodes / IPB + 3) (bitmap used) else throw .aborted

/-! ## `iappend` -/

/-- `freeblock++` and `usedblocks++`. -/
def nextblock : Prog Word := do
  let s ← get
  set { s with freeblock := s.freeblock + 1, usedblocks := s.usedblocks + 1 }
  pure (BitVec.ofNat 32 s.freeblock)

/-- The address `addrs[k]`, of a new block if there was none. -/
def direct (din : Dinode) (k : Fin (NDIRECT + 1)) : Prog Dinode :=
  if din.addrs k = 0 then do
    let x ← nextblock
    pure { din with addrs := Function.update din.addrs k x }
  else pure din

/-- The address of block `fbn`, in which the loop of `iappend` writes. -/
def locate (din : Dinode) (fbn : ℕ) : Prog (Dinode × Word) :=
  if h : fbn < NDIRECT then do
    let din ← direct din ⟨fbn, Nat.lt_succ_of_lt h⟩
    pure (din, din.addrs ⟨fbn, Nat.lt_succ_of_lt h⟩)
  else do
    let din ← direct din (Fin.last NDIRECT)
    let indirect ← rsect (din.addrs (Fin.last NDIRECT)).toNat
    if word32 indirect (4 * (fbn - NDIRECT)) = 0 then do
      let x ← nextblock
      wsect (din.addrs (Fin.last NDIRECT)).toNat (overlay indirect (4 * (fbn - NDIRECT)) 4 (byte x))
      pure (din, x)
    else pure (din, word32 indirect (4 * (fbn - NDIRECT)))

/-- The loop of `iappend`, over the bytes that are left; there are at most `fuel`. -/
def iappendLoop : ℕ → Dinode → ℕ → List Byte → Prog (Dinode × ℕ)
  | 0, din, off, _ => pure (din, off)
  | fuel + 1, din, off, p =>
    if p = [] then pure (din, off)
    else if off / 512 < MAXFILE then do
      let (din, x) ← locate din (off / 512)
      let n1 := min p.length ((off / 512 + 1) * 512 - off)
      let buf ← rsect x.toNat
      wsect x.toNat (overlay buf (off - off / 512 * 512) n1 fun i => p.getD i 0)
      iappendLoop fuel din (off + n1) (p.drop n1)
    else throw .aborted

def iappend (inum : ℕ) (p : List Byte) : Prog PUnit := do
  let din ← rinode inum
  let (din, off) ← iappendLoop p.length din din.size.toNat p
  winode inum { din with size := BitVec.ofNat 32 off }

/-! ## `main` -/

/-- The number of bytes of a name in a directory entry. -/
abbrev DIRSIZ : ℕ := 14

abbrev ROOTINO : ℕ := 1

/-- A string of C: its bytes before the terminating NUL. -/
abbrev CString := { s : List Byte // 0 ∉ s }

/-- An argument of `mkfs`: its name, and what the calls of `read` return for it if it can be opened. -/
structure Arg where
  name : CString
  chunks : Option (List (List Byte))

/-- The name of a file in the image: an argument without a leading underscore. -/
def Arg.stored (f : Arg) : List Byte := if f.name.1.head? = some '_'.toUInt8.toBitVec then f.name.1.tail else f.name.1

/-- `strncpy` into cells that hold 0. -/
def strncpy (s : List Byte) (n : ℕ) : List Byte := (s ++ List.replicate n 0).take n

def dirent (inum : BitVec 16) (name : List Byte) : List Byte := byte inum 0 :: byte inum 1 :: strncpy name DIRSIZ

def dot : List Byte := ['.'.toUInt8.toBitVec]

def dotdot : List Byte := ['.'.toUInt8.toBitVec, '.'.toUInt8.toBitVec]

/-- One round of the loop over the arguments. -/
def addFile (f : Arg) : Prog PUnit :=
  if '/'.toUInt8.toBitVec ∈ f.name.1 then throw .aborted
  else match f.chunks with
    | none => throw .failed
    | some chunks => do
      let inum ← ialloc T_FILE
      iappend ROOTINO (dirent (BitVec.ofNat 16 inum) f.stored)
      chunks.forM (iappend inum)

/-- The loop that fills the image with zeroes. -/
@[irreducible] def zero : Prog PUnit := (List.range (nblocks + metablocks + nlog)).forM fun i => wsect i fun _ => 0

/-- The root directory, in which there are `.` and `..`. -/
def mkroot : Prog PUnit := do
  let rootino ← ialloc T_DIR
  if rootino = ROOTINO then do
    iappend rootino (dirent (BitVec.ofNat 16 rootino) dot)
    iappend rootino (dirent (BitVec.ofNat 16 rootino) dotdot)
  else throw .aborted

/-- An image of zeroes with the super block and the root directory. -/
def format : Prog PUnit := do
  if nblocks + metablocks + nlog = size then do
    zero
    wsect 1 superblock.bytes
    mkroot
  else throw .aborted

/-- What `main` does behind its loop: round the size of the root directory, write the bitmap. -/
def finish : Prog PUnit := do
  let din ← rinode ROOTINO
  winode ROOTINO { din with size := BitVec.ofNat 32 ((din.size.toNat / BSIZE + 1) * BSIZE) }
  let s ← get
  balloc s.usedblocks

def main (files : List Arg) : Prog PUnit := do
  format
  files.forM addFile
  finish

/-- The image has just been created, and `usedblocks` and `freeblock` are set. -/
def boot : State := ⟨fun _ _ => 0, 0, metablocks, metablocks, 1⟩

end Xv6.Disk.Mkfs
