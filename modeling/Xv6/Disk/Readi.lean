import Xv6.Disk.Image
import Xv6.File.Writei

/-!
# The kernel reads an image of `mkfs`

`bmap`, `readi` and `dirlookup` of `fs.c` on the bytes of the disk. `bmap` allocates a block where the file has none;
reading a file of an image of `mkfs` never comes to this, since every block below the end of the file is there.

- `view D ip`: the file of an inode on a disk; `wp_readi`, `wp_dirlookup`: reading it where its blocks are there.
-/

namespace Xv6.Disk

open Lib

/-! ## The functions -/

inductive Panic
  | outOfBlocks
  | outOfRange
  | notDir
  | dirRead
  | dirlink
  | unlink
  | tooBig

abbrev Kernel := StateT Image (Except Panic)

def newBlock : Kernel Word := do
  match balloc (← get) with
  | none => throw .outOfBlocks
  | some (b, D) => do
    set D
    pure (BitVec.ofNat 32 b)

/-- The address `addrs[k]`, of a new block if there was none. -/
def bmapAddr (ip : Dinode) (k : Fin (NDIRECT + 1)) : Kernel Dinode :=
  if ip.addrs k = 0 then do
    let addr ← newBlock
    pure { ip with addrs := Function.update ip.addrs k addr }
  else pure ip

def bmap (ip : Dinode) (bn : ℕ) : Kernel (Dinode × Word) :=
  if h : bn < NDIRECT then do
    let ip ← bmapAddr ip ⟨bn, Nat.lt_succ_of_lt h⟩
    pure (ip, ip.addrs ⟨bn, Nat.lt_succ_of_lt h⟩)
  else if bn - NDIRECT < NINDIRECT then do
    let ip ← bmapAddr ip (Fin.last NDIRECT)
    let D ← get
    let a := D (ip.addrs (Fin.last NDIRECT)).toNat
    if word32 a (4 * (bn - NDIRECT)) = 0 then do
      let addr ← newBlock
      let D ← get
      set (Function.update D (ip.addrs (Fin.last NDIRECT)).toNat (overlay a (4 * (bn - NDIRECT)) 4 (byte addr)))
      pure (ip, addr)
    else pure (ip, word32 a (4 * (bn - NDIRECT)))
  else throw .outOfRange

/-- The loop of `readi` over the `n` bytes that are left; `fuel` is at least `n`. -/
def readiLoop : ℕ → Dinode → ℕ → ℕ → Kernel (Dinode × List Byte)
  | 0, ip, _, _ => pure (ip, [])
  | fuel + 1, ip, off, n =>
    if n = 0 then pure (ip, [])
    else do
      let (ip, addr) ← bmap ip (off / BSIZE)
      let D ← get
      let m := min n (BSIZE - off % BSIZE)
      let (ip, rest) ← readiLoop fuel ip (off + m) (n - m)
      pure (ip, ((List.range m).map fun j => D addr.toNat (off % BSIZE + j)) ++ rest)

abbrev NDEV : ℕ := 10

/-- The `read` functions of the device drivers, by major number. -/
abbrev Devsw := ℕ → Option (Word → Option (List Byte))

/-- `readi`: the bytes read, or -1. -/
def readi (devsw : Devsw) (ip : Dinode) (off n : Word) : Kernel (Dinode × Option (List Byte)) :=
  if ip.type = T_DEV then
    if ip.major.toInt < 0 ∨ NDEV ≤ ip.major.toInt then pure (ip, none)
    else pure (ip, (devsw ip.major.toNat).bind fun read => read n)
  else if ip.size < off ∨ off + n < off then pure (ip, none)
  else do
    let n := if ip.size < off + n then ip.size - off else n
    let (ip, bytes) ← readiLoop n.toNat ip off.toNat n.toNat
    pure (ip, some bytes)

/-- `strncmp` of two strings, from cell `i` on. -/
def strncmp (p q : ℕ → Byte) : ℕ → ℕ → ℤ
  | _, 0 => 0
  | i, n + 1 => if p i ≠ 0 ∧ p i = q i then strncmp p q (i + 1) n else (p i).toNat - (q i).toNat

def namecmp (s t : ℕ → Byte) : ℤ := strncmp s t 0 Mkfs.DIRSIZ

/-- The loop of `dirlookup` from `off` on: the number of the inode, and the place of the entry. -/
def dirlookupLoop (devsw : Devsw) (name : List Byte) : ℕ → Dinode → ℕ → Kernel (Dinode × Option (ℕ × ℕ))
  | 0, dp, _ => pure (dp, none)
  | fuel + 1, dp, off =>
    if off < dp.size.toNat then do
      match ← readi devsw dp (BitVec.ofNat 32 off) 16 with
      | (dp, some de) =>
        if de.length = 16 then
          if word16 (de.getD · 0) 0 ≠ 0 ∧ namecmp (name.getD · 0) ((de.drop 2).getD · 0) = 0 then
            pure (dp, some ((word16 (de.getD · 0) 0).toNat, off))
          else dirlookupLoop devsw name fuel dp (off + 16)
        else throw .dirRead
      | (_, none) => throw .dirRead
    else pure (dp, none)

/-- `dirlookup`, without the `iget` at its end. -/
def dirlookup (devsw : Devsw) (dp : Dinode) (name : List Byte) : Kernel (Dinode × Option (ℕ × ℕ)) :=
  if dp.type ≠ T_DIR then throw .notDir else dirlookupLoop devsw name (dp.size.toNat / 16 + 1) dp 0

/-! ## Reading what is there -/

/-- The file of the inode `ip`: a block that is not there reads as zeros. -/
def view (D : Image) (ip : Dinode) : File.Inode where
  data bn x :=
    if h : bn < MAXFILE then
      if spot D.word ip.addrs (.ofBlock bn h) = 0 then 0 else D (spot D.word ip.addrs (.ofBlock bn h)) x
    else 0
  size := ip.size.toNat

/-- The block of byte `m` of the file is there. -/
def There (D : Image) (ip : Dinode) (m : ℕ) : Prop :=
  ∃ h : m / BSIZE < MAXFILE, spot D.word ip.addrs (.ofBlock _ h) ≠ 0

section Read

variable {D : Image} {bn : ℕ} {ip : Dinode} {E : Panic → Prop}

theorem view_there (h : bn < MAXFILE) (h0 : spot D.word ip.addrs (.ofBlock bn h) ≠ 0) :
    (view D ip).data bn = D (spot D.word ip.addrs (.ofBlock bn h)) := by
  funext x
  simp only [view, dif_pos h, if_neg h0]

theorem wp_bmapAddr {k : Fin (NDIRECT + 1)} {Q : Dinode → Image → Prop} (h : ip.addrs k ≠ 0) :
    wp (bmapAddr ip k) Q E D ↔ Q ip D := by rw [bmapAddr, if_neg h, wp_pure]

theorem wp_bmap {Q : Dinode × Word → Image → Prop} (hbn : bn < MAXFILE)
    (h0 : spot D.word ip.addrs (.ofBlock bn hbn) ≠ 0)
    (hQ : ∀ w : Word, w.toNat = spot D.word ip.addrs (.ofBlock bn hbn) → Q (ip, w) D) : wp (bmap ip bn) Q E D := by
  unfold bmap
  split_ifs with hd hlt
  · have hloc : spot D.word ip.addrs (.ofBlock bn hbn) = (ip.addrs ⟨bn, Nat.lt_succ_of_lt hd⟩).toNat := by
      rw [Place.ofBlock, dif_pos hd]
      rfl
    have hk : ip.addrs ⟨bn, Nat.lt_succ_of_lt hd⟩ ≠ 0 := fun he => h0 (by rw [hloc, he]; rfl)
    rw [wp_bind, wp_bmapAddr hk, wp_pure]
    exact hQ _ hloc.symm
  · have hind : ip.addrs (Fin.last NDIRECT) ≠ 0 := fun he => h0 (by
      rw [Place.ofBlock, dif_neg hd]
      simp only [spot, if_pos he])
    have hloc : spot D.word ip.addrs (.ofBlock bn hbn) =
        (word32 (D (ip.addrs (Fin.last NDIRECT)).toNat) (4 * (bn - NDIRECT))).toNat := by
      rw [Place.ofBlock, dif_neg hd]
      simp only [spot, if_neg hind]
      rfl
    have hk : word32 (D (ip.addrs (Fin.last NDIRECT)).toNat) (4 * (bn - NDIRECT)) ≠ 0 := fun he => h0 (by
      rw [hloc, he]
      rfl)
    rw [wp_bind, wp_bmapAddr hind, wp_bind, wp_get, if_neg hk, wp_pure]
    exact hQ _ hloc.symm
  · simp only [MAXFILE] at hbn
    omega

/-- **The loop of `readi`** over a part of the file all of whose blocks are there. -/
theorem wp_readiLoop {fuel off n : ℕ} (hfuel : n ≤ fuel) (hthere : ∀ m, off ≤ m → m < off + n → There D ip m) :
    wp (readiLoop fuel ip off n)
      (fun r D' => r = (ip, (List.range n).map fun j => (view D ip).byte (off + j)) ∧ D' = D) E D := by
  induction fuel generalizing off n with
  | zero =>
    obtain rfl : n = 0 := Nat.le_zero.mp hfuel
    exact ⟨rfl, rfl⟩
  | succ fuel ih =>
    rw [readiLoop]
    split_ifs with hn
    · subst hn
      exact ⟨rfl, rfl⟩
    · obtain ⟨hbn, h0⟩ := hthere off (Nat.le_refl _) (by omega)
      rw [wp_bind]
      refine wp_bmap hbn h0 fun w hw => ?_
      simp only
      rw [wp_bind, wp_get, wp_bind]
      generalize hm : min n (BSIZE - off % BSIZE) = m
      have hm' : m ≤ n ∧ 0 < m ∧ off % BSIZE + m ≤ BSIZE := by simp only [BSIZE] at hm ⊢; omega
      refine (ih (by omega) fun l hl hlt => hthere l (by omega) (by omega)).mono fun r D' ⟨hr, hD'⟩ => ?_
      subst hr hD'
      rw [wp_pure]
      refine ⟨?_, rfl⟩
      have hhead : ((List.range m).map fun j => D' w.toNat (off % BSIZE + j)) =
          (List.range m).map fun j => (view D' ip).byte (off + j) := by
        refine List.map_congr_left fun j hj => ?_
        have hjm := List.mem_range.mp hj
        have hdiv : (off + j) / BSIZE = off / BSIZE := by simp only [BSIZE] at *; omega
        have hmod : (off + j) % BSIZE = off % BSIZE + j := by simp only [BSIZE] at *; omega
        rw [File.Inode.byte, hdiv, hmod, view_there hbn h0, hw]
      obtain ⟨k, rfl⟩ := Nat.exists_eq_add_of_le hm'.1
      rw [hhead, Nat.add_sub_cancel_left, List.range_add, List.map_append, List.map_map]
      simp only [Function.comp_def, Nat.add_assoc]

/-- **`readi`** of a part of the file all of whose blocks are there. -/
theorem wp_readi {devsw : Devsw} {off n : Word} {k : ℕ} (hdev : ip.type ≠ T_DEV) (hoff : off.toNat ≤ ip.size.toNat)
    (hsum : off.toNat + n.toNat < 2 ^ 32) (hk : k = min n.toNat (ip.size.toNat - off.toNat))
    (hthere : ∀ m, off.toNat ≤ m → m < off.toNat + k → There D ip m) :
    wp (readi devsw ip off n)
      (fun r D' => r = (ip, some ((List.range k).map fun j => (view D ip).byte (off.toNat + j))) ∧ D' = D) E D := by
  have hadd : (off + n).toNat = off.toNat + n.toNat := by rw [BitVec.toNat_add, Nat.mod_eq_of_lt hsum]
  have hclip : (if ip.size < off + n then ip.size - off else n).toNat = k := by
    split_ifs with h
    · rw [BitVec.lt_def, hadd] at h
      rw [BitVec.toNat_sub_of_le hoff, hk]
      omega
    · rw [BitVec.lt_def, hadd] at h
      omega
  rw [readi, if_neg hdev, if_neg (by rw [BitVec.lt_def, BitVec.lt_def, hadd]; omega), wp_bind, hclip]
  refine (wp_readiLoop (Nat.le_refl _) hthere).mono fun r D' ⟨hr, hD'⟩ => ?_
  subst hr hD'
  exact ⟨rfl, rfl⟩

theorem map_getD {l : List Byte} {o k : ℕ} (h : o + k ≤ l.length) :
    ((List.range k).map fun j => l.getD (o + j) 0) = (l.drop o).take k := by
  apply List.ext_getElem
  · simp
    omega
  · intro j h1 h2
    simp only [List.length_map, List.length_range] at h1
    simp only [List.getElem_map, List.getElem_range, List.getElem_take, List.getElem_drop]
    exact List.getD_eq_getElem _ _ (by omega)

/-! ## Names -/

/-- The name in the cells from `i` on: it ends at a 0 or after `n` bytes. -/
def cut (p : ℕ → Byte) : ℕ → ℕ → List Byte
  | _, 0 => []
  | i, n + 1 => if p i = 0 then [] else p i :: cut p (i + 1) n

/-- **`strncmp`** is 0 exactly for cells that hold the same name. -/
theorem strncmp_eq_zero {p q : ℕ → Byte} {i n : ℕ} : strncmp p q i n = 0 ↔ cut p i n = cut q i n := by
  induction n generalizing i with
  | zero => simp [strncmp, cut]
  | succ n ih =>
    rw [strncmp, cut, cut]
    by_cases heq : p i = q i
    · by_cases h0 : p i = 0
      · simp [h0, ← heq]
      · rw [if_pos ⟨h0, heq⟩, ih, if_neg h0, if_neg (heq ▸ h0), heq]
        simp
    · have hne : (p i).toNat ≠ (q i).toNat := fun h => heq (BitVec.eq_of_toNat_eq h)
      rw [if_neg fun h => heq h.2]
      refine ⟨fun h => by omega, fun h => ?_⟩
      split_ifs at h with hp hq hq
      · exact absurd (hp.trans hq.symm) heq
      · exact absurd (List.cons.inj h).1 heq

theorem cut_congr {p q : ℕ → Byte} {i n : ℕ} (h : ∀ j, i ≤ j → j < i + n → p j = q j) : cut p i n = cut q i n := by
  induction n generalizing i with
  | zero => rfl
  | succ n ih => rw [cut, cut, h i (Nat.le_refl _) (by omega), ih fun j hj hlt => h j (by omega) (by omega)]

theorem cut_getD {s : List Byte} (hs : 0 ∉ s) {k n : ℕ} : cut (s.getD · 0) k n = (s.drop k).take n := by
  induction n generalizing k with
  | zero => simp [cut]
  | succ n ih =>
    rw [cut, ih]
    by_cases hk : k < s.length
    · have hsk : s.getD k 0 = s[k] := List.getD_eq_getElem _ _ hk
      have hsk0 : s[k] ≠ 0 := fun h => hs (h ▸ List.getElem_mem hk)
      rw [hsk, if_neg hsk0, List.drop_eq_getElem_cons hk, List.take_succ_cons]
    · have hsk : s.getD k 0 = 0 := List.getD_eq_default _ _ (by omega)
      rw [if_pos hsk, List.drop_eq_nil_of_le (by omega), List.take_nil]

/-- A name up to the first 0 or `DIRSIZ` bytes. -/
def nameOf (name : List Byte) : List Byte := cut (name.getD · 0) 0 Mkfs.DIRSIZ

theorem getD_strncpy {t : List Byte} {n j : ℕ} (h : j < n) : (Mkfs.strncpy t n).getD j 0 = t.getD j 0 := by
  rw [Mkfs.strncpy, List.getD_eq_getElem?_getD, List.getElem?_take_of_lt h, List.getD_eq_getElem?_getD,
    List.getElem?_append]
  split_ifs with hj
  · rfl
  · have htj : t[j]? = none := List.getElem?_eq_none (by omega)
    rw [htj, List.getElem?_replicate]
    split_ifs <;> rfl

theorem inum_dirent {t : List Byte} {inum : BitVec 16} : word16 ((Mkfs.dirent inum t).getD · 0) 0 = inum :=
  word16_eq fun i hi => by
    match i with
    | 0 => rfl
    | 1 => rfl

theorem name_dirent {t : List Byte} {inum : BitVec 16} (ht : 0 ∉ t) :
    cut (((Mkfs.dirent inum t).drop 2).getD · 0) 0 Mkfs.DIRSIZ = t.take Mkfs.DIRSIZ := by
  have hcells : cut (((Mkfs.dirent inum t).drop 2).getD · 0) 0 Mkfs.DIRSIZ = cut (t.getD · 0) 0 Mkfs.DIRSIZ :=
    cut_congr fun j _ hj => getD_strncpy (by omega)
  rw [hcells, cut_getD ht, List.drop_zero]

/-! ## Directories -/

/-- An entry of a directory: the number of the inode, and the name. -/
abbrev Entry := BitVec 16 × List Byte

def Entry.ofBytes (de : List Byte) : Entry := (word16 (de.getD · 0) 0, cut ((de.drop 2).getD · 0) 0 Mkfs.DIRSIZ)

def entryAt (byte : ℕ → Byte) (e : ℕ) : Entry := .ofBytes ((List.range 16).map fun b => byte (16 * e + b))

/-- The entries from `off` on are searched for the name. -/
def search (name : List Byte) : List Entry → ℕ → Option (ℕ × ℕ)
  | [], _ => none
  | x :: es, off => if x.1 ≠ 0 ∧ name = x.2 then some (x.1.toNat, off) else search name es (off + 16)

theorem search_some {name : List Byte} {es : List Entry} {j off : ℕ} {x : Entry} (hj : es[j]? = some x)
    (hx : x.1 ≠ 0 ∧ name = x.2) (hbefore : ∀ k < j, ∀ y, es[k]? = some y → ¬ (y.1 ≠ 0 ∧ name = y.2)) :
    search name es off = some (x.1.toNat, off + 16 * j) := by
  induction es generalizing j off with
  | nil => simp at hj
  | cons y es ih =>
    rw [search]
    cases j with
    | zero =>
      obtain rfl : y = x := by simpa using hj
      rw [if_pos hx, Nat.mul_zero, Nat.add_zero]
    | succ j =>
      rw [if_neg (hbefore 0 (by omega) y rfl), ih (by simpa using hj) fun k hk z hz =>
        hbefore (k + 1) (by omega) z (by simpa using hz)]
      congr 2
      omega

/-- **The loop of `dirlookup`** searches the entries; `es` are the ones from `e` on, all of them if nothing is found. -/
theorem wp_dirlookupLoop {devsw : Devsw} {name : List Byte} (hdev : ip.type ≠ T_DEV) {fuel e : ℕ} {es : List Entry}
    (hthere : ∀ m < 16 * (e + es.length), There D ip m) (hsize : 16 * (e + es.length) ≤ ip.size.toNat)
    (hes : ∀ k (h : k < es.length), es[k] = entryAt (view D ip).byte (e + k))
    (hall : search (nameOf name) es (16 * e) = none → ip.size.toNat = 16 * (e + es.length))
    (hfuel : es.length < fuel) : wp (dirlookupLoop devsw name fuel ip (16 * e))
      (fun r D' => r = (ip, search (nameOf name) es (16 * e)) ∧ D' = D) E D := by
  induction es generalizing fuel e with
  | nil =>
    obtain ⟨fuel, rfl⟩ := Nat.exists_eq_succ_of_ne_zero (Nat.ne_of_gt hfuel)
    have hend := hall rfl
    rw [List.length_nil, Nat.add_zero] at hend
    rw [dirlookupLoop, if_neg (by omega)]
    exact ⟨rfl, rfl⟩
  | cons x es ih =>
    obtain ⟨fuel, rfl⟩ := Nat.exists_eq_succ_of_ne_zero (Nat.ne_of_gt (Nat.zero_lt_of_lt hfuel))
    rw [List.length_cons] at hthere hsize hfuel
    have hlt : ip.size.toNat < 2 ^ 32 := ip.size.isLt
    have hoff : (BitVec.ofNat 32 (16 * e)).toNat = 16 * e := by
      rw [BitVec.toNat_ofNat]
      exact Nat.mod_eq_of_lt (by omega)
    have hsixteen : (16 : Word).toNat = 16 := rfl
    rw [dirlookupLoop, if_pos (by omega), wp_bind]
    refine (wp_readi (k := 16) hdev (by omega) (by omega) (by omega) fun m _ hm => hthere m (by omega)).mono
      fun r D' ⟨hr, hD'⟩ => ?_
    subst hr hD'
    have hx : x = Entry.ofBytes ((List.range 16).map fun b => (view D' ip).byte (16 * e + b)) := hes 0 (by simp)
    simp only [hoff]
    rw [if_pos (by simp)]
    generalize ((List.range 16).map fun b => (view D' ip).byte (16 * e + b)) = de at hx
    have hinum : x.1 = word16 (de.getD · 0) 0 := by rw [hx, Entry.ofBytes]
    have hname : x.2 = cut ((de.drop 2).getD · 0) 0 Mkfs.DIRSIZ := by rw [hx, Entry.ofBytes]
    have hiff : namecmp (name.getD · 0) ((de.drop 2).getD · 0) = 0 ↔ nameOf name = x.2 := by
      rw [namecmp, strncmp_eq_zero, ← hname, nameOf]
    rw [← hinum, search]
    by_cases hmatch : x.1 ≠ 0 ∧ nameOf name = x.2
    · rw [if_pos ⟨hmatch.1, hiff.mpr hmatch.2⟩, if_pos hmatch]
      exact ⟨rfl, rfl⟩
    · rw [search, if_neg hmatch, List.length_cons] at hall
      rw [if_neg fun h => hmatch ⟨h.1, hiff.mp h.2⟩, if_neg hmatch]
      refine ih (e := e + 1) (fun m hm => hthere m (by omega)) (by omega) (fun k hk => ?_) (fun hnone => ?_) (by omega)
      · have := hes (k + 1) (by rw [List.length_cons]; omega)
        rw [List.getElem_cons_succ] at this
        rw [this, Nat.add_assoc, Nat.add_comm 1 k]
      · rw [hall hnone]
        omega

/-- **`dirlookup`** searches the entries of the directory. -/
theorem wp_dirlookup {devsw : Devsw} {name : List Byte} {es : List Entry} (htype : ip.type = T_DIR)
    (hthere : ∀ m < 16 * es.length, There D ip m) (hsize : 16 * es.length ≤ ip.size.toNat)
    (hes : ∀ k (h : k < es.length), es[k] = entryAt (view D ip).byte k)
    (hall : search (nameOf name) es 0 = none → ip.size.toNat = 16 * es.length) :
    wp (dirlookup devsw ip name)
      (fun r D' => r = (ip, search (nameOf name) es 0) ∧ D' = D) E D := by
  rw [dirlookup, if_neg (not_not.mpr htype)]
  refine wp_dirlookupLoop (e := 0) ?_ (by simpa using hthere) (by simpa using hsize) (by simpa using hes)
    (by simpa using hall) (by omega)
  rw [htype]
  decide

end Read

/-! ## Files of an image -/

namespace Mkfs

variable {files : List Arg} {t : State}

theorem getD_flatten {L : List (List Byte)} (hL : ∀ l ∈ L, l.length = 16) {e b : ℕ} (hb : b < 16) :
    L.flatten.getD (16 * e + b) 0 = (L.getD e []).getD b 0 := by
  induction L generalizing e with
  | nil => simp
  | cons l L ih =>
    have hl : l.length = 16 := hL l (by simp)
    rw [List.flatten_cons]
    cases e with
    | zero => rw [List.getD_append _ _ _ _ (by omega), List.getD_cons_zero, Nat.mul_zero, Nat.zero_add]
    | succ e =>
      rw [List.getD_append_right _ _ _ _ (by omega), List.getD_cons_succ, hl,
        show 16 * (e + 1) + b - 16 = 16 * e + b by omega]
      exact ih fun l' hl' => hL l' (List.mem_cons_of_mem _ hl')

def dirents (es : List Entry) : List Byte := (es.map fun e => dirent e.1 e.2).flatten

theorem getD_dirents {es : List Entry} {e : ℕ} {x : Entry} (he : es[e]? = some x) :
    ((List.range 16).map fun b => (dirents es).getD (16 * e + b) 0) = dirent x.1 x.2 := by
  have hlen : (dirent x.1 x.2).length = 16 := length_dirent
  have hget : (es.map fun e => dirent e.1 e.2).getD e [] = dirent x.1 x.2 := by
    rw [List.getD_eq_getElem?_getD, List.getElem?_map, he]
    rfl
  have hall : ∀ l ∈ es.map fun e => dirent e.1 e.2, l.length = 16 := by
    intro l hl
    obtain ⟨y, -, rfl⟩ := List.mem_map.mp hl
    exact length_dirent
  have h := map_getD (l := dirent x.1 x.2) (o := 0) (k := 16) (by omega)
  rw [List.drop_zero, List.take_of_length_le (by omega)] at h
  rw [← h]
  refine List.map_congr_left fun b hb => ?_
  rw [dirents, getD_flatten hall (List.mem_range.mp hb), hget, Nat.zero_add]

def rootEnts (fs : List Arg) : List Entry :=
  (1, dot) :: (1, dotdot) :: fs.mapIdx fun k f => (BitVec.ofNat 16 (k + 2), f.stored)

theorem entries_eq {k : ℕ} {fs : List Arg} :
    entries k fs = dirents (fs.mapIdx fun l f => (BitVec.ofNat 16 (l + k), f.stored)) := by
  induction fs generalizing k with
  | nil => rfl
  | cons f fs ih =>
    rw [entries, ih, List.mapIdx_cons, dirents, dirents, List.map_cons, List.flatten_cons]
    simp only [Nat.zero_add, Nat.add_right_comm _ 1 k, Nat.add_assoc]

theorem rootdir_eq {fs : List Arg} : rootdir fs = dirents (rootEnts fs) := by
  rw [rootdir, entries_eq, rootEnts, dirents, dirents, List.map_cons, List.map_cons, List.flatten_cons,
    List.flatten_cons, List.append_assoc]

theorem zero_notMem_stored {f : Arg} : 0 ∉ f.stored := by
  unfold Arg.stored
  split_ifs
  · exact fun h => f.name.2 (List.mem_of_mem_tail h)
  · exact f.name.2

theorem zero_notMem_rootEnts {y : Entry} (hy : y ∈ rootEnts files) : 0 ∉ y.2 := by
  rcases List.mem_cons.mp hy with rfl | hy
  · decide
  rcases List.mem_cons.mp hy with rfl | hy
  · decide
  obtain ⟨k, hk, rfl⟩ := List.mem_mapIdx.mp hy
  exact zero_notMem_stored

theorem Made.there (h : Made files t) {i m : ℕ} (hi : i < ninodes) (hm : m < (contents files i).length) :
    There t.disk (t.disk.inode i) m := by
  have hshort := h.short i
  have hb : m / BSIZE < MAXFILE := Nat.div_lt_of_lt_mul (Nat.lt_of_lt_of_le hm (by rwa [Nat.mul_comm]))
  have hloc : loc t.disk (tableAddrs t.disk) (i, .ofBlock _ hb) ≠ 0 := by
    refine (h.used i _).mpr ?_
    rw [Place.first_ofBlock]
    exact Nat.lt_of_le_of_lt (Nat.div_mul_le_self m BSIZE) hm
  rw [loc, places, tableAddrs, table, if_pos hi] at hloc
  exact ⟨hb, hloc⟩

theorem Made.byte (h : Made files t) {i m : ℕ} (hi : i < ninodes) (hm : m < (contents files i).length) :
    (view t.disk (t.disk.inode i)).byte m = (contents files i).getD m 0 := by
  obtain ⟨hb, h0⟩ := h.there hi hm
  have hloc : loc t.disk (tableAddrs t.disk) (i, .ofBlock _ hb) =
      spot t.disk.word (t.disk.inode i).addrs (.ofBlock _ hb) := by
    rw [loc, places, tableAddrs, table, if_pos hi]
  have hst := h.filled.stored i _ hb (by rwa [hloc]) (m % BSIZE) (Nat.mod_lt _ (by decide))
  rw [hloc, Nat.mul_comm, Nat.div_add_mod] at hst
  rw [File.Inode.byte, view_there hb h0, hst]

/-- **Lookup in the root directory** of the image. -/
theorem Made.dirlookup (h : Made files t) (devsw : Devsw) {name : List Byte} {j : ℕ} {x : Entry} (hname : 0 ∉ name)
    (hj : (rootEnts files)[j]? = some x) (hx : x.1 ≠ 0 ∧ name.take DIRSIZ = x.2.take DIRSIZ)
    (hbefore : ∀ k < j, ∀ y, (rootEnts files)[k]? = some y → ¬ (y.1 ≠ 0 ∧ name.take DIRSIZ = y.2.take DIRSIZ)) :
    dirlookup devsw (t.disk.inode ROOTINO) name t.disk =
      .ok ((t.disk.inode ROOTINO, some (x.1.toNat, 16 * j)), t.disk) := by
  have hlen : (rootEnts files).length = files.length + 2 := by simp [rootEnts]
  have hroot : (contents files 1).length = 16 * (rootEnts files).length := by
    rw [hlen]
    exact length_rootdir
  have htable : table t.disk 1 = t.disk.inode 1 := if_pos (by decide)
  have hsize : 16 * (rootEnts files).length ≤ (t.disk.inode 1).size.toNat := by
    rw [← htable, h.sizes, if_pos rfl, hlen]
    simp only [BSIZE]
    omega
  have htype : (t.disk.inode 1).type = T_DIR := by
    rw [← htable, h.types 1 (by decide), if_neg (by omega), if_pos rfl]
  generalize hes : (rootEnts files).map (fun y => ((y.1, y.2.take DIRSIZ) : Entry)) = es
  have hleneq : es.length = (rootEnts files).length := by rw [← hes, List.length_map]
  have hget : ∀ k, es[k]? = (rootEnts files)[k]?.map fun y : Entry => (y.1, y.2.take DIRSIZ) := fun k => by
    rw [← hes, List.getElem?_map]
  have hentry : ∀ k (hk : k < es.length), es[k] = entryAt (view t.disk (t.disk.inode 1)).byte k := by
    intro k hk
    have hget' : (rootEnts files)[k]? = some (rootEnts files)[k] := List.getElem?_eq_getElem (by omega)
    have hbytes : ((List.range 16).map fun b => (view t.disk (t.disk.inode 1)).byte (16 * k + b)) =
        dirent (rootEnts files)[k].1 (rootEnts files)[k].2 := by
      rw [← getD_dirents hget', ← rootdir_eq]
      refine List.map_congr_left fun b hb => h.byte (i := 1) (by decide) ?_
      have := List.mem_range.mp hb
      omega
    have hnul := zero_notMem_rootEnts (List.getElem_mem (show k < (rootEnts files).length by omega))
    rw [entryAt, hbytes, Entry.ofBytes, inum_dirent, name_dirent hnul]
    exact Option.some_inj.mp (by rw [← List.getElem?_eq_getElem hk, hget, hget']; rfl)
  have hfound : search (nameOf name) es 0 = some (x.1.toNat, 16 * j) := by
    have hcut : nameOf name = name.take DIRSIZ := by rw [nameOf, cut_getD hname, List.drop_zero]
    rw [hcut, search_some (x := (x.1, x.2.take DIRSIZ)) (j := j) (by rw [hget, hj]; rfl) hx, Nat.zero_add]
    intro k hk y hy
    rw [hget] at hy
    obtain ⟨z, hz, rfl⟩ := Option.map_eq_some_iff.mp hy
    exact hbefore k hk z hz
  have hlook : wp (Disk.dirlookup devsw (t.disk.inode 1) name)
      (fun r D' => r = (t.disk.inode 1, search (nameOf name) es 0) ∧ D' = t.disk) (fun _ => False) t.disk :=
    wp_dirlookup htype (fun m hm => h.there (i := 1) (by decide) (by omega)) (by omega) hentry fun hnone => by
      rw [hfound] at hnone
      cases hnone
  rw [hfound] at hlook
  exact hlook.eq_ok

/-- **Reading a file** of the image. -/
theorem Made.readi (h : Made files t) (devsw : Devsw) {k : ℕ} (hk : k < files.length) (hn : files.length + 2 ≤ ninodes)
    {off n : Word} (hoff : off.toNat ≤ files[k].bytes.length) (hsum : off.toNat + n.toNat < 2 ^ 32) :
    readi devsw (t.disk.inode (k + 2)) off n t.disk =
      .ok ((t.disk.inode (k + 2), some ((files[k].bytes.drop off.toNat).take n.toNat)), t.disk) := by
  have hdata : contents files (k + 2) = files[k].bytes := by simp [contents, hk]
  have htable : table t.disk (k + 2) = t.disk.inode (k + 2) := if_pos (by omega)
  have hsize : (t.disk.inode (k + 2)).size.toNat = files[k].bytes.length := by
    rw [← htable, h.sizes, if_neg (by simp only [ROOTINO]; omega), hdata]
  have htype : (t.disk.inode (k + 2)).type ≠ T_DEV := by
    rw [← htable, h.types _ (by omega), if_neg (by omega), if_neg (by simp only [ROOTINO]; omega)]
    decide
  have hread : wp (Disk.readi devsw (t.disk.inode (k + 2)) off n) _ (fun _ => False) t.disk :=
    wp_readi htype (by omega) hsum rfl fun m _ hm => h.there (by omega) (by rw [hdata]; omega)
  have hbytes : ((List.range (min n.toNat ((t.disk.inode (k + 2)).size.toNat - off.toNat))).map fun j =>
      (view t.disk (t.disk.inode (k + 2))).byte (off.toNat + j)) =
      (List.range (min n.toNat ((t.disk.inode (k + 2)).size.toNat - off.toNat))).map fun j =>
        files[k].bytes.getD (off.toNat + j) 0 := by
    refine List.map_congr_left fun j hj => ?_
    have := List.mem_range.mp hj
    rw [h.byte (by omega) (by rw [hdata]; omega), hdata]
  rw [hread.eq_ok, hbytes, map_getD (by omega), hsize]
  congr 4
  rw [← List.length_drop]
  exact List.take_eq_take_min.symm

/-- **`mkfs` and the kernel agree.** For files with different names other than `.` and `..` that fit into the inode table
and the data area, `mkfs` makes an image in whose root directory `dirlookup` finds each name, and `readi` of the inode
that it finds returns the bytes of the file. -/
theorem mkfs_readback (devsw : Devsw) (hdistinct : (files.map fun f => f.stored.take DIRSIZ).Nodup)
    (hdots : ∀ f ∈ files, f.stored.take DIRSIZ ≠ dot ∧ f.stored.take DIRSIZ ≠ dotdot) (hfine : ∀ f ∈ files, f.Fine)
    (hn : files.length + 2 ≤ ninodes) (hfit : need files ≤ nblocks) :
    ∃ t, main files boot = .ok (⟨⟩, t) ∧ ∀ (k : ℕ) (hk : k < files.length), ∃ inum poff,
      Disk.dirlookup devsw (t.disk.inode ROOTINO) (files[k].stored.take DIRSIZ) t.disk =
        .ok ((t.disk.inode ROOTINO, some (inum, poff)), t.disk) ∧
      ∀ off n : Word, off.toNat ≤ files[k].bytes.length → off.toNat + n.toNat < 2 ^ 32 →
        Disk.readi devsw (t.disk.inode inum) off n t.disk =
          .ok ((t.disk.inode inum, some ((files[k].bytes.drop off.toNat).take n.toNat)), t.disk) := by
  obtain ⟨t, ht, hmade⟩ := main_returns hn hfit hfine
  refine ⟨t, ht, fun k hk => ⟨k + 2, 16 * (k + 2), ?_, fun off n hoff hsum => hmade.readi devsw hk hn hoff hsum⟩⟩
  have hmod : (BitVec.ofNat 16 (k + 2)).toNat = k + 2 := by
    rw [BitVec.toNat_ofNat]
    simp only [ninodes] at hn
    omega
  have hent : ∀ (l : ℕ) (hl : l < files.length), (rootEnts files)[l + 2]? = some (BitVec.ofNat 16 (l + 2), files[l].stored) :=
    fun l hl => by simp [rootEnts, hl]
  have hname0 : 0 ∉ files[k].stored.take DIRSIZ := fun h0 => zero_notMem_stored (List.mem_of_mem_take h0)
  have hfound := hmade.dirlookup devsw hname0 (hent k hk) ?_ ?_
  · rw [hfound, hmod]
  · refine ⟨fun h0 => ?_, ?_⟩
    · have := congrArg BitVec.toNat h0
      rw [hmod] at this
      cases this
    · rw [List.take_take, Nat.min_self]
  · intro l hl y hy hmatch
    have hname := hmatch.2
    rw [List.take_take, Nat.min_self] at hname
    match l with
    | 0 =>
      obtain rfl : (1, dot) = y := Option.some_inj.mp hy
      exact (hdots _ (List.getElem_mem hk)).1 hname
    | 1 =>
      obtain rfl : (1, dotdot) = y := Option.some_inj.mp hy
      exact (hdots _ (List.getElem_mem hk)).2 hname
    | l + 2 =>
      have hlk : l < k := by omega
      rw [hent l (by omega)] at hy
      obtain rfl := Option.some_inj.mp hy
      have hne := List.pairwise_iff_getElem.mp hdistinct l k (by rw [List.length_map]; omega) (by rwa [List.length_map]) hlk
      rw [List.getElem_map, List.getElem_map] at hne
      exact hne hname.symm

theorem mkfs_readback_two : ∃ t, main [letter 0 [1, 2, 3], letter 1 [4]] boot = .ok (⟨⟩, t) ∧
    ∃ inum poff, Disk.dirlookup (fun _ => none) (t.disk.inode ROOTINO) [65] t.disk =
        .ok ((t.disk.inode ROOTINO, some (inum, poff)), t.disk) ∧
      Disk.readi (fun _ => none) (t.disk.inode inum) 1 9 t.disk = .ok ((t.disk.inode inum, some [2, 3]), t.disk) := by
  have hfine : ∀ f ∈ [letter 0 [1, 2, 3], letter 1 [4]], f.Fine := by
    intro f hf
    rcases List.mem_cons.mp hf with rfl | hf
    · exact letter_fine (by decide)
    · obtain rfl := List.mem_singleton.mp hf
      exact letter_fine (by decide)
  obtain ⟨t, ht, hfiles⟩ := mkfs_readback (fun _ => none) (by decide) (by decide) hfine (by decide) (by decide)
  obtain ⟨inum, poff, hfound, hread⟩ := hfiles 0 (by decide)
  exact ⟨t, ht, inum, poff, hfound, hread 1 9 (by decide) (by decide)⟩

/-- A file whose name in the image is `.`. -/
def dotFile : Arg := ⟨⟨'_'.toUInt8.toBitVec :: dot, by decide⟩, some []⟩

/-- **Where the two do not agree**: the entry of a file with the name `.` is never found, since the directory's own `.`
comes first; and `readi` refuses to read when `off + n` does not fit into 32 bits, also in the middle of a file. -/
theorem dot_and_overflow : ∃ t, main [letter 0 [1, 2], dotFile] boot = .ok (⟨⟩, t) ∧
    Disk.dirlookup (fun _ => none) (t.disk.inode ROOTINO) (dotFile.stored.take DIRSIZ) t.disk =
      .ok ((t.disk.inode ROOTINO, some (ROOTINO, 0)), t.disk) ∧
    Disk.readi (fun _ => none) (t.disk.inode 2) 1 0xffffffff t.disk = .ok ((t.disk.inode 2, none), t.disk) := by
  have hfine : ∀ f ∈ [letter 0 [1, 2], dotFile], f.Fine := by
    intro f hf
    rcases List.mem_cons.mp hf with rfl | hf
    · exact letter_fine (by decide)
    · obtain rfl := List.mem_singleton.mp hf
      exact ⟨by decide, rfl, by decide⟩
  obtain ⟨t, ht, hmade⟩ := main_returns (by decide) (by decide) hfine
  have htype : (t.disk.inode 2).type ≠ T_DEV := by
    rw [show t.disk.inode 2 = table t.disk 2 from (if_pos (by decide)).symm, hmade.types 2 (by decide)]
    decide
  refine ⟨t, ht, hmade.dirlookup _ (j := 0) (by decide) rfl ⟨by decide, rfl⟩ (fun k hk => absurd hk (by omega)), ?_⟩
  rw [Disk.readi, if_neg htype, if_pos (.inr (by decide))]
  rfl

end Mkfs

end Xv6.Disk
