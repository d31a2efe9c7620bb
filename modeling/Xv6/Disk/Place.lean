import Xv6.Lib.Owns
import Xv6.Disk.Layout

/-!
# Where an inode keeps block numbers

An inode has `NDIRECT` direct addresses and the address of an indirect block, and the indirect block has `NINDIRECT`
further addresses: these are the places of the inode (`Place`). `spot word addrs` is what they hold for one inode and
`places word addrs` for all of them, for any way `word` to read a word of a block, so that the same definition serves
for the image of a disk and for what the kernel has in memory.
-/

namespace Xv6.Disk

open Lib
open Function (update update_of_ne update_self)

/-- A place that holds a block number: `addrs[k]` of the inode, or `a[k]` of its indirect block. -/
inductive Place
  | addr (k : Fin (NDIRECT + 1))
  | entry (k : Fin NINDIRECT)
  deriving DecidableEq

namespace Place

/-- The address of the indirect block. -/
abbrev indirect : Place := .addr (Fin.last NDIRECT)

/-- The place of the block number of block `bn` of the file. -/
def ofBlock (bn : ℕ) (h : bn < MAXFILE) : Place :=
  if hd : bn < NDIRECT then .addr ⟨bn, Nat.lt_succ_of_lt hd⟩
  else .entry ⟨bn - NDIRECT, by simp only [MAXFILE] at h; omega⟩

/-- The first byte of the file for which the place is needed. -/
def first : Place → ℕ
  | .addr k => k * BSIZE
  | .entry k => (NDIRECT + k) * BSIZE

theorem first_ofBlock {bn : ℕ} (h : bn < MAXFILE) : (ofBlock bn h).first = bn * BSIZE := by
  unfold ofBlock
  split_ifs with hd
  · rfl
  · simp only [first]
    congr 1
    omega

theorem ofBlock_ne_indirect {bn : ℕ} (h : bn < MAXFILE) : ofBlock bn h ≠ indirect := by
  unfold ofBlock
  split_ifs with hd
  · intro he
    injection he with he
    exact absurd (congrArg Fin.val he) (Nat.ne_of_lt hd)
  · exact Place.noConfusion

theorem eq_ofBlock {p : Place} (hp : p ≠ indirect) : ∃ (bn : ℕ) (h : bn < MAXFILE), p = ofBlock bn h := by
  cases p with
  | addr k =>
    have hk : (k : ℕ) < NDIRECT := by
      have hlt := k.isLt
      have hne : (k : ℕ) ≠ NDIRECT := fun he => hp (congrArg Place.addr (Fin.ext he))
      omega
    exact ⟨k, Nat.lt_add_right _ hk, by rw [ofBlock, dif_pos hk]⟩
  | entry k =>
    refine ⟨NDIRECT + k, Nat.add_lt_add_left k.isLt _, ?_⟩
    rw [ofBlock, dif_neg (by omega)]
    congr 1
    exact Fin.ext (by simp)

theorem first_mod (p : Place) : p.first % 512 = 0 := by
  cases p <;> simp [first]

theorem first_eq {p : Place} {bn : ℕ} (h : bn < MAXFILE) :
    p.first = bn * BSIZE ↔ p = .ofBlock bn h ∨ bn = NDIRECT ∧ p = .indirect := by
  constructor
  · intro hp
    by_cases hi : p = .indirect
    · refine .inr ⟨?_, hi⟩
      rw [hi] at hp
      simp only [first, Fin.val_last, BSIZE, NDIRECT] at hp ⊢
      omega
    · obtain ⟨bn', hbn', rfl⟩ := eq_ofBlock hi
      rw [first_ofBlock] at hp
      obtain rfl : bn' = bn := by simp only [BSIZE] at hp; omega
      exact .inl rfl
  · rintro (rfl | ⟨rfl, rfl⟩)
    · exact first_ofBlock h
    · rfl

end Place

def Image.word (D : Image) (b k : ℕ) : Word := word32 (D b) (4 * k)

/-- What the places of an inode hold; 0 where there is no block. -/
def spot (word : ℕ → ℕ → Word) (addrs : Fin (NDIRECT + 1) → Word) : Place → ℕ
  | .addr k => (addrs k).toNat
  | .entry k => if addrs (Fin.last NDIRECT) = 0 then 0 else (word (addrs (Fin.last NDIRECT)).toNat k).toNat

section Spot

variable {word word' : ℕ → ℕ → Word} {addrs : Fin (NDIRECT + 1) → Word}

theorem spot_congr (h : addrs (Fin.last NDIRECT) ≠ 0 → ∀ k : Fin NINDIRECT,
    word' (addrs (Fin.last NDIRECT)).toNat k = word (addrs (Fin.last NDIRECT)).toNat k) :
    spot word' addrs = spot word addrs := by
  funext p
  cases p with
  | addr k => rfl
  | entry k =>
    simp only [spot]
    split_ifs with h0
    · rfl
    · rw [h h0 k]

theorem spot_addr {k : Fin (NDIRECT + 1)} {w : Word}
    (h : k = Fin.last NDIRECT → addrs k = 0 ∧ ∀ j : Fin NINDIRECT, word w.toNat j = 0) :
    spot word (update addrs k w) = update (spot word addrs) (.addr k) w.toNat := by
  funext p
  cases p with
  | addr l =>
    by_cases hl : l = k
    · rw [hl, update_self]
      simp only [spot, update_self]
    · rw [update_of_ne (by simpa using hl)]
      simp only [spot, update_of_ne hl]
  | entry l =>
    rw [update_of_ne (by simp)]
    by_cases hk : k = Fin.last NDIRECT
    · obtain ⟨h0, hw⟩ := h hk
      subst hk
      simp only [spot, update_self, h0, hw, if_true]
      split_ifs <;> rfl
    · simp only [spot, update_of_ne (Ne.symm hk)]

theorem spot_entry {k : Fin NINDIRECT} {w : Word} (hi : addrs (Fin.last NDIRECT) ≠ 0)
    (hk : word' (addrs (Fin.last NDIRECT)).toNat k = w)
    (hsame : ∀ l : Fin NINDIRECT, l ≠ k →
      word' (addrs (Fin.last NDIRECT)).toNat l = word (addrs (Fin.last NDIRECT)).toNat l) :
    spot word' addrs = update (spot word addrs) (.entry k) w.toNat := by
  funext p
  cases p with
  | addr l => rw [update_of_ne (by simp)]; rfl
  | entry l =>
    by_cases hl : l = k
    · rw [hl, update_self]
      simp only [spot, if_neg hi, hk]
    · rw [update_of_ne (by simpa using hl)]
      simp only [spot, if_neg hi, hsame l hl]

end Spot

variable {ι : Type*}

/-- What the places of all inodes hold. -/
def places (word : ℕ → ℕ → Word) (addrs : ι → Fin (NDIRECT + 1) → Word) (q : ι × Place) : ℕ :=
  spot word (addrs q.1) q.2

section Places

variable {word word' : ℕ → ℕ → Word} {addrs : ι → Fin (NDIRECT + 1) → Word} {i : ι}

theorem places_congr (h : ∀ i, addrs i (Fin.last NDIRECT) ≠ 0 → ∀ k : Fin NINDIRECT,
    word' (addrs i (Fin.last NDIRECT)).toNat k = word (addrs i (Fin.last NDIRECT)).toNat k) :
    places word' addrs = places word addrs := by
  funext q
  rw [places, places, spot_congr (h q.1)]

variable [DecidableEq ι]

theorem places_update {addrs' : ι → Fin (NDIRECT + 1) → Word} {p : Place} {b : ℕ}
    (hi : spot word' (addrs' i) = update (spot word (addrs i)) p b)
    (hne : ∀ j, j ≠ i → spot word' (addrs' j) = spot word (addrs j)) :
    places word' addrs' = update (places word addrs) (i, p) b := by
  funext q
  obtain ⟨j, l⟩ := q
  by_cases hj : j = i
  · subst hj
    rw [places, hi]
    by_cases hl : l = p
    · rw [hl, update_self, update_self]
    · rw [update_of_ne hl, update_of_ne (by simpa using hl)]
      rfl
  · rw [update_of_ne (by simp [hj]), places, hne j hj]
    rfl

/-- Store an address in an inode. -/
def setAddr (addrs : ι → Fin (NDIRECT + 1) → Word) (i : ι) (k : Fin (NDIRECT + 1)) (w : Word) :
    ι → Fin (NDIRECT + 1) → Word :=
  update addrs i (update (addrs i) k w)

theorem places_addr {k : Fin (NDIRECT + 1)} {w : Word}
    (h : k = Fin.last NDIRECT → addrs i k = 0 ∧ ∀ j : Fin NINDIRECT, word w.toNat j = 0) :
    places word (setAddr addrs i k w) = update (places word addrs) (i, .addr k) w.toNat := by
  refine places_update ?_ fun j hj => ?_
  · rw [setAddr, update_self]
    exact spot_addr h
  · rw [setAddr, update_of_ne hj]

theorem places_entry {k : Fin NINDIRECT} {w : Word} (hi : addrs i (Fin.last NDIRECT) ≠ 0)
    (hk : word' (addrs i (Fin.last NDIRECT)).toNat k = w)
    (hsame : ∀ j, addrs j (Fin.last NDIRECT) ≠ 0 → ∀ l : Fin NINDIRECT, (j ≠ i ∨ l ≠ k) →
      word' (addrs j (Fin.last NDIRECT)).toNat l = word (addrs j (Fin.last NDIRECT)).toNat l) :
    places word' addrs = update (places word addrs) (i, .entry k) w.toNat :=
  places_update (spot_entry hi hk fun l hl => hsame i hi l (.inr hl)) fun j hj =>
    spot_congr fun h0 l => hsame j h0 l (.inl hj)

end Places

end Xv6.Disk
