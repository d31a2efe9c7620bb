import Xv6.Lib.Bytes
import Xv6.Param

/-!
# The format of the disk

`fs.h`: a disk is an array of sectors of bytes. The super block is sector 1, the inodes follow (`IBLOCK`), then the
bitmap of the blocks in use (`BBLOCK`), the data and the log.
-/

namespace Xv6.Disk

open Lib

abbrev BSIZE : ℕ := 512

/-- The block addresses in an inode, the indirect block left out. -/
abbrev NDIRECT : ℕ := 12

/-- The block addresses in an indirect block. -/
abbrev NINDIRECT : ℕ := BSIZE / 4

abbrev MAXFILE : ℕ := NDIRECT + NINDIRECT

/-- The inodes of a block; `sizeof(struct dinode)` is 64. -/
abbrev IPB : ℕ := BSIZE / 64

/-- The block that holds inode `i`. -/
abbrev IBLOCK (i : ℕ) : ℕ := i / IPB + 2

abbrev BPB : ℕ := BSIZE * 8

/-- The block that holds the bit of block `b`. -/
abbrev BBLOCK (b ninodes : ℕ) : ℕ := b / BPB + ninodes / IPB + 3

abbrev T_DIR : BitVec 16 := 1

abbrev T_FILE : BitVec 16 := 2

abbrev T_DEV : BitVec 16 := 3

/-- The content of a sector; the cells from `BSIZE` on mean nothing. -/
abbrev Sector := ℕ → Byte

abbrev Image := ℕ → Sector

structure Superblock where
  size : Word
  nblocks : Word
  ninodes : Word
  nlog : Word
  deriving DecidableEq

def Superblock.read (m : Sector) : Superblock := ⟨word32 m 0, word32 m 4, word32 m 8, word32 m 12⟩

def Superblock.bytes (s : Superblock) (j : ℕ) : Byte :=
  if j < 4 then byte s.size j else if j < 8 then byte s.nblocks (j - 4)
  else if j < 12 then byte s.ninodes (j - 8) else byte s.nlog (j - 12)

structure Dinode where
  type : BitVec 16
  major : BitVec 16
  minor : BitVec 16
  nlink : BitVec 16
  size : Word
  addrs : Fin (NDIRECT + 1) → Word

/-- An inode as `bzero` leaves it. -/
def Dinode.zero : Dinode := ⟨0, 0, 0, 0, 0, fun _ => 0⟩

def Dinode.read (m : Sector) (a : ℕ) : Dinode :=
  ⟨word16 m a, word16 m (a + 2), word16 m (a + 4), word16 m (a + 6), word32 m (a + 8),
    fun k => word32 m (a + 12 + 4 * k)⟩

def Dinode.bytes (d : Dinode) (j : ℕ) : Byte :=
  if j < 2 then byte d.type j else if j < 4 then byte d.major (j - 2)
  else if j < 6 then byte d.minor (j - 4) else if j < 8 then byte d.nlink (j - 6)
  else if j < 12 then byte d.size (j - 8)
  else if h : (j - 12) / 4 < NDIRECT + 1 then byte (d.addrs ⟨(j - 12) / 4, h⟩) ((j - 12) % 4) else 0

/-- Store an inode at address `a` of a sector. -/
def Dinode.write (d : Dinode) (m : Sector) (a : ℕ) : Sector := overlay m a 64 d.bytes

def Image.inode (D : Image) (i : ℕ) : Dinode := .read (D (IBLOCK i)) (64 * (i % IPB))

def Image.bit (D : Image) (ninodes b : ℕ) : Bool := (D (BBLOCK b ninodes) (b % BPB / 8)).getLsbD (b % BPB % 8)

/-! ## Reading back -/

theorem Superblock.read_eq {m : Sector} {s : Superblock} (h : ∀ j < 16, m j = s.bytes j) : Superblock.read m = s := by
  have hword : ∀ (a : ℕ) (w : Word), (∀ i < 4, a + i < 16 ∧ s.bytes (a + i) = byte w i) → word32 m a = w :=
    fun a w hw => word32_eq fun i hi => by rw [h _ (hw i hi).1, (hw i hi).2]
  have h0 : word32 m 0 = s.size := hword 0 s.size fun i hi => ⟨by omega, by simp [Superblock.bytes, hi]⟩
  have h4 : word32 m 4 = s.nblocks := hword 4 s.nblocks fun i hi => ⟨by omega, by
    rw [Superblock.bytes, if_neg (by omega), if_pos (by omega), Nat.add_sub_cancel_left]⟩
  have h8 : word32 m 8 = s.ninodes := hword 8 s.ninodes fun i hi => ⟨by omega, by
    rw [Superblock.bytes, if_neg (by omega), if_neg (by omega), if_pos (by omega), Nat.add_sub_cancel_left]⟩
  have h12 : word32 m 12 = s.nlog := hword 12 s.nlog fun i hi => ⟨by omega, by
    rw [Superblock.bytes, if_neg (by omega), if_neg (by omega), if_neg (by omega), Nat.add_sub_cancel_left]⟩
  rw [Superblock.read, h0, h4, h8, h12]

section Dinode

variable {d : Dinode} {m m' : Sector} {a a' : ℕ}

theorem Dinode.read_congr (h : ∀ i < 64, m (a + i) = m' (a' + i)) : Dinode.read m a = Dinode.read m' a' := by
  have h16 : ∀ k, k + 2 ≤ 64 → word16 m (a + k) = word16 m' (a' + k) := fun k hk =>
    word16_congr fun i hi => by
      rw [Nat.add_assoc, Nat.add_assoc]
      exact h (k + i) (by omega)
  have h32 : ∀ k, k + 4 ≤ 64 → word32 m (a + k) = word32 m' (a' + k) := fun k hk =>
    word32_congr fun i hi => by
      rw [Nat.add_assoc, Nat.add_assoc]
      exact h (k + i) (by omega)
  have haddrs : (fun k : Fin (NDIRECT + 1) => word32 m (a + 12 + 4 * k)) =
      fun k : Fin (NDIRECT + 1) => word32 m' (a' + 12 + 4 * k) := by
    funext k
    have hk : (k : ℕ) < 13 := k.isLt
    rw [Nat.add_assoc, Nat.add_assoc]
    exact h32 (12 + 4 * k) (by omega)
  rw [Dinode.read, Dinode.read, show word16 m a = word16 m' a' from h16 0 (by omega), h16 2 (by omega),
    h16 4 (by omega), h16 6 (by omega), h32 8 (by omega), haddrs]

theorem Dinode.read_eq (h : ∀ j < 64, m (a + j) = d.bytes j) : Dinode.read m a = d := by
  have h16 : ∀ (k : ℕ) (w : BitVec 16), k + 2 ≤ 64 → (∀ i < 2, d.bytes (k + i) = byte w i) → word16 m (a + k) = w :=
    fun k w hk hw => word16_eq fun i hi => by rw [Nat.add_assoc, h (k + i) (by omega), hw i hi]
  have h32 : ∀ (k : ℕ) (w : BitVec 32), k + 4 ≤ 64 → (∀ i < 4, d.bytes (k + i) = byte w i) → word32 m (a + k) = w :=
    fun k w hk hw => word32_eq fun i hi => by rw [Nat.add_assoc, h (k + i) (by omega), hw i hi]
  have htype : word16 m a = d.type := h16 0 d.type (by omega) fun i hi => by simp [Dinode.bytes, hi]
  have hmajor : word16 m (a + 2) = d.major := h16 2 d.major (by omega) fun i hi => by
    rw [Dinode.bytes, if_neg (by omega), if_pos (by omega), Nat.add_sub_cancel_left]
  have hminor : word16 m (a + 4) = d.minor := h16 4 d.minor (by omega) fun i hi => by
    rw [Dinode.bytes, if_neg (by omega), if_neg (by omega), if_pos (by omega), Nat.add_sub_cancel_left]
  have hnlink : word16 m (a + 6) = d.nlink := h16 6 d.nlink (by omega) fun i hi => by
    rw [Dinode.bytes, if_neg (by omega), if_neg (by omega), if_neg (by omega), if_pos (by omega),
      Nat.add_sub_cancel_left]
  have hsize : word32 m (a + 8) = d.size := h32 8 d.size (by omega) fun i hi => by
    rw [Dinode.bytes, if_neg (by omega), if_neg (by omega), if_neg (by omega), if_neg (by omega), if_pos (by omega),
      Nat.add_sub_cancel_left]
  have haddrs : (fun k : Fin (NDIRECT + 1) => word32 m (a + 12 + 4 * k)) = d.addrs := by
    funext k
    have hk : (k : ℕ) < 13 := k.isLt
    rw [Nat.add_assoc]
    refine h32 (12 + 4 * k) (d.addrs k) (by omega) fun i hi => ?_
    have hdiv : (12 + 4 * (k : ℕ) + i - 12) / 4 = k := by omega
    have hmod : (12 + 4 * (k : ℕ) + i - 12) % 4 = i := by omega
    rw [Dinode.bytes, if_neg (by omega), if_neg (by omega), if_neg (by omega), if_neg (by omega), if_neg (by omega),
      dif_pos (by rw [hdiv]; exact k.isLt), hmod]
    simp only [hdiv]
  rw [Dinode.read, htype, hmajor, hminor, hnlink, hsize, haddrs]

/-- **An inode read back.** -/
theorem Dinode.read_write : Dinode.read (d.write m a) a = d := Dinode.read_eq fun _ hj => overlay_at hj

theorem Dinode.read_write_other (h : a' + 64 ≤ a ∨ a + 64 ≤ a') : Dinode.read (d.write m a) a' = Dinode.read m a' :=
  Dinode.read_congr fun _ hi => overlay_out (by omega)

end Dinode

end Xv6.Disk
