import Mathlib.Data.List.GetD
import Xv6.Disk.Layout

/-!
# Writing to a file

`writei` of `fs.c` on the blocks of a file. The block `bn` of a file is what `bread(ip->dev, bmap(ip, bn))` gives; that
different blocks of files are different blocks of the disk is part of `Xv6.Disk.Volume`.
-/

namespace Xv6.File

open Lib
open Disk (BSIZE MAXFILE)

/-- The file of an inode: its blocks and its size. -/
structure Inode where
  data : ℕ → ℕ → Byte
  size : ℕ

theorem Inode.ext {ip ip' : Inode} (hdata : ∀ bn x, ip.data bn x = ip'.data bn x) (hsize : ip.size = ip'.size) :
    ip = ip' := by
  obtain ⟨data, size⟩ := ip
  obtain ⟨data', size'⟩ := ip'
  obtain rfl : data = data' := funext fun bn => funext fun x => hdata bn x
  obtain rfl : size = size' := hsize
  rfl

def Inode.byte (ip : Inode) (j : ℕ) : Byte := ip.data (j / BSIZE) (j % BSIZE)

def Inode.content (ip : Inode) : List Byte := (List.range ip.size).map ip.byte

/-! ## `writei` -/

/-- `memmove(bp->data + off%BSIZE, src, m)`. -/
def Inode.put (ip : Inode) (src : ℕ → Byte) (off m : ℕ) : Inode :=
  { ip with data := Function.update ip.data (off / BSIZE) (overlay (ip.data (off / BSIZE)) (off % BSIZE) m src) }

/-- `min(n - tot, BSIZE - off%BSIZE)`. -/
def blockLen (off left : ℕ) : ℕ := min left (BSIZE - off % BSIZE)

/-- The tests at the beginning of `writei`; `off + n` is a `uint`. -/
def Inode.refuses (ip : Inode) (off n : ℕ) : Prop :=
  off > ip.size ∨ (off + n) % 2 ^ 32 < off ∨ (off + n) % 2 ^ 32 > MAXFILE * BSIZE

instance (ip : Inode) (off n : ℕ) : Decidable (ip.refuses off n) := inferInstanceAs (Decidable (_ ∨ _ ∨ _))

/-- The loop over the blocks, which is left with the file and `off`. -/
def Inode.copy (src : ℕ → Byte) (n : ℕ) : ℕ → Inode → (off tot : ℕ) → Inode × ℕ
  | 0, ip, off, _ => (ip, off)
  | fuel + 1, ip, off, tot =>
    if tot < n then
      let m := blockLen off (n - tot)
      copy src n fuel (ip.put (fun j => src (tot + j)) off m) (off + m) (tot + m)
    else (ip, off)

def Inode.grow (ip : Inode) (off n : ℕ) : Inode := if 0 < n ∧ ip.size < off then { ip with size := off } else ip

/-- `writei` to a file: nothing stands for -1, and otherwise it returns `n`. -/
def writei (ip : Inode) (src : ℕ → Byte) (off n : ℕ) : Option Inode :=
  if ip.refuses off n then none
  else
    let (ip, off) := ip.copy src n n off 0
    some (ip.grow off n)

/-! ## What it does -/

/-- The bytes `l` in the place of those from `off` on. -/
def Inode.fill (ip : Inode) (off : ℕ) (l : List Byte) : Inode :=
  { ip with data := fun bn x =>
      if x < BSIZE ∧ off ≤ bn * BSIZE + x ∧ bn * BSIZE + x < off + l.length then l.getD (bn * BSIZE + x - off) 0
      else ip.data bn x }

/-- The bytes `l` in the place of those from `off` on, in a file that is long enough for them. -/
def Inode.write (ip : Inode) (off : ℕ) (l : List Byte) : Inode :=
  { ip.fill off l with size := max ip.size (off + l.length) }

variable {ip : Inode} {src : ℕ → Byte} {off n : ℕ} {l l' : List Byte}

def slice (src : ℕ → Byte) (n : ℕ) : List Byte := (List.range n).map src

@[simp] theorem length_slice : (slice src n).length = n := by simp [slice]

theorem slice_getD {j : ℕ} (h : j < n) : (slice src n).getD j 0 = src j := by simp [slice, h]

theorem slice_add (m : ℕ) : slice src (m + n) = slice src m ++ slice (fun j => src (m + j)) n := by
  simp [slice, List.range_add, Function.comp_def]

theorem fill_nil : ip.fill off [] = ip := by
  refine Inode.ext (fun bn x => ?_) ?_
  · simp only [Inode.fill]
    rw [if_neg (by simp only [List.length_nil]; omega)]
  · rfl

/-- **Two writes, one behind the other.** -/
theorem fill_append : (ip.fill off l).fill (off + l.length) l' = ip.fill off (l ++ l') := by
  refine Inode.ext (fun bn x => ?_) ?_
  · simp only [Inode.fill, List.length_append]
    by_cases hsnd : x < BSIZE ∧ off + l.length ≤ bn * BSIZE + x ∧ bn * BSIZE + x < off + l.length + l'.length
    · rw [if_pos hsnd, if_pos (by omega), List.getD_append_right _ _ _ _ (by omega)]
      congr 1
      omega
    · rw [if_neg hsnd]
      by_cases hfst : x < BSIZE ∧ off ≤ bn * BSIZE + x ∧ bn * BSIZE + x < off + l.length
      · rw [if_pos hfst, if_pos (by omega), List.getD_append _ _ _ _ (by omega)]
      · rw [if_neg hfst, if_neg (by omega)]
  · rfl

theorem write_append : (ip.write off l).write (off + l.length) l' = ip.write off (l ++ l') := by
  refine Inode.ext (fun bn x => ?_) ?_
  · have hfill : (ip.fill off l).fill (off + l.length) l' = ip.fill off (l ++ l') := fill_append
    exact congrFun (congrFun (congrArg Inode.data hfill) bn) x
  · simp only [Inode.write, List.length_append]
    omega

theorem put_eq {m : ℕ} (hm : m ≤ BSIZE - off % BSIZE) : ip.put src off m = ip.fill off (slice src m) := by
  have hmod := Nat.mod_lt off (show 0 < BSIZE by decide)
  have hdiv := Nat.div_add_mod off BSIZE
  refine Inode.ext (fun bn x => ?_) ?_
  · simp only [Inode.put, Inode.fill, length_slice]
    by_cases hbn : bn = off / BSIZE
    · subst hbn
      rw [Function.update_self, overlay, Nat.mul_comm]
      by_cases hx : off % BSIZE ≤ x ∧ x < off % BSIZE + m
      · rw [if_pos hx, if_pos (by omega), slice_getD (by omega)]
        congr 1
        omega
      · rw [if_neg hx, if_neg (by omega)]
    · rw [Function.update_of_ne hbn, if_neg]
      rintro ⟨hx, hle, hlt⟩
      -- the bytes of another block lie elsewhere
      refine hbn ?_
      have hlo : off / BSIZE * BSIZE ≤ bn * BSIZE + x := by
        rw [Nat.mul_comm]
        omega
      have hhi : bn * BSIZE + x < (off / BSIZE + 1) * BSIZE := by
        rw [Nat.add_mul, Nat.mul_comm (off / BSIZE)]
        omega
      have hq : (bn * BSIZE + x) / BSIZE = bn := by
        rw [Nat.mul_comm, Nat.mul_add_div (by decide), Nat.div_eq_of_lt hx, Nat.add_zero]
      rw [← hq]
      exact Nat.div_eq_of_lt_le hlo hhi
  · rfl

theorem blockLen_le {left : ℕ} : blockLen off left ≤ BSIZE - off % BSIZE := min_le_right _ _

theorem blockLen_pos (off : ℕ) {left : ℕ} (h : 0 < left) : 0 < blockLen off left := by
  have := Nat.mod_lt off (show 0 < BSIZE by decide)
  unfold blockLen
  omega

theorem put_fill (src : ℕ → Byte) (tot : ℕ) :
    (ip.fill off (slice src tot)).put (fun j => src (tot + j)) (off + tot) (blockLen (off + tot) (n - tot)) =
      ip.fill off (slice src (tot + blockLen (off + tot) (n - tot))) := by
  rw [put_eq blockLen_le, slice_add, ← fill_append, length_slice]

theorem copy_eq (ip : Inode) (src : ℕ → Byte) (off : ℕ) {fuel tot : ℕ} (htot : tot ≤ n) (hfuel : n - tot ≤ fuel) :
    Inode.copy src n fuel (ip.fill off (slice src tot)) (off + tot) tot = (ip.fill off (slice src n), off + n) := by
  induction fuel generalizing tot with
  | zero =>
    obtain rfl : tot = n := by omega
    rfl
  | succ fuel ih =>
    rw [Inode.copy]
    by_cases hlt : tot < n
    · have hpos := blockLen_pos (off + tot) (show 0 < n - tot by omega)
      have hle : blockLen (off + tot) (n - tot) ≤ n - tot := min_le_left _ _
      rw [if_pos hlt]
      simp only
      rw [put_fill src tot, Nat.add_assoc]
      exact ih (by omega) (by omega)
    · obtain rfl : tot = n := by omega
      rw [if_neg hlt]

theorem not_refuses (hoff : off ≤ ip.size) (hn : off + n ≤ MAXFILE * BSIZE) : ¬ ip.refuses off n := by
  have hmax : MAXFILE * BSIZE < 2 ^ 32 := by decide
  rw [Inode.refuses, Nat.mod_eq_of_lt (by omega)]
  omega

theorem grow_eq (l : List Byte) (hoff : off ≤ ip.size) : (ip.fill off l).grow (off + l.length) l.length = ip.write off l := by
  unfold Inode.grow
  have hsize : (ip.fill off l).size = ip.size := rfl
  split
  · next h =>
    refine Inode.ext (fun bn x => ?_) ?_
    · rfl
    · simp only [Inode.write]
      omega
  · next h =>
    refine Inode.ext (fun bn x => ?_) ?_
    · rfl
    · simp only [Inode.write, hsize]
      omega

/-- **`writei`** puts its bytes at the offset. -/
theorem writei_eq (hoff : off ≤ ip.size) (hn : off + n ≤ MAXFILE * BSIZE) :
    writei ip src off n = some (ip.write off (slice src n)) := by
  have hcopy := copy_eq ip src off (Nat.zero_le n) (Nat.sub_le n 0)
  have hnil : slice src 0 = [] := rfl
  rw [hnil, fill_nil, Nat.add_zero] at hcopy
  rw [writei, if_neg (not_refuses hoff hn), hcopy]
  simp only
  have hgrow := grow_eq (slice src n) hoff
  rw [length_slice] at hgrow
  rw [hgrow]

theorem byte_write {j : ℕ} : (ip.write off l).byte j =
    if off ≤ j ∧ j < off + l.length then l.getD (j - off) 0 else ip.byte j := by
  have hj : j / BSIZE * BSIZE + j % BSIZE = j := by
    rw [Nat.mul_comm]
    exact Nat.div_add_mod j BSIZE
  have hlt := Nat.mod_lt j (show 0 < BSIZE by decide)
  simp only [Inode.byte, Inode.write, Inode.fill, hj, hlt, true_and]

/-- **The content after a write**: what lies before it and what lies behind it stays. -/
theorem content_write (hoff : off ≤ ip.size) :
    (ip.write off l).content = ip.content.take off ++ l ++ ip.content.drop (off + l.length) := by
  have hsize : (ip.write off l).size = max ip.size (off + l.length) := rfl
  refine List.ext_getElem ?_ fun j hj _ => ?_
  · simp only [Inode.content, List.length_append, List.length_take, List.length_drop, List.length_map,
      List.length_range, hsize]
    omega
  · simp only [Inode.content, List.length_map, List.length_range, hsize] at hj
    simp only [Inode.content, List.getElem_append, List.getElem_map, List.getElem_range, List.getElem_take,
      List.getElem_drop, List.length_append, List.length_take, List.length_map, List.length_range, byte_write]
    split_ifs <;> first | rfl | omega | skip
    · rw [List.getD_eq_getElem?_getD, List.getElem?_eq_getElem (by omega), Option.getD_some]
      congr 1
      omega
    · congr 1
      omega

end Xv6.File
