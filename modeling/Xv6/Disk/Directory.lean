import Xv6.Disk.Writei
import Xv6.Lib.Slots

/-!
# Directories as finite maps

`dirlink` of `fs.c`, and the part of `sys_unlink` that clears an entry, on the bytes of the disk. A directory is a file
of entries of 16 bytes, and the entries with a number other than 0 are the slots of a map from names to numbers of
inodes; a name ends at a 0 or after `DIRSIZ` bytes (`nameOf`).
-/

namespace Xv6.Disk

open Lib
open Function (update update_eq_self update_of_ne update_self)
open Mkfs (DIRSIZ)

/-! ## The functions -/

/-- `strncpy`: the string in the cells from `i` on, filled up with zeros. -/
def strncpy (t : ℕ → Byte) : ℕ → ℕ → List Byte
  | _, 0 => []
  | i, n + 1 => if t i = 0 then List.replicate (n + 1) 0 else t i :: strncpy t (i + 1) n

/-- The loop of `dirlink` over the entries from `off` on, for an empty one. -/
def emptyLoop (devsw : Devsw) : ℕ → Dinode → ℕ → Kernel (Dinode × ℕ)
  | 0, dp, off => pure (dp, off)
  | fuel + 1, dp, off =>
    if off < dp.size.toNat then do
      match ← readi devsw dp (BitVec.ofNat 32 off) 16 with
      | (dp, some de) =>
        if de.length = 16 then
          if word16 (de.getD · 0) 0 = 0 then pure (dp, off) else emptyLoop devsw fuel dp (off + 16)
        else throw .dirRead
      | (_, none) => throw .dirRead
    else pure (dp, off)

/-- `dirlink` in the directory with the number `i`, without the `iput` of an inode that is found: whether it returns 0. -/
def dirlink (devsw : Devsw) (devswWrite : DevswWrite) (i : ℕ) (dp : Dinode) (name : List Byte) (inum : Word) :
    Kernel (Dinode × Bool) := do
  match ← dirlookup devsw dp name with
  | (dp, some _) => pure (dp, false)
  | (dp, none) => do
    let (dp, off) ← emptyLoop devsw (dp.size.toNat / 16 + 1) dp 0
    let inum := inum.setWidth 16
    let de := byte inum 0 :: byte inum 1 :: strncpy (name.getD · 0) 0 DIRSIZ
    let (dp, r) ← writei devswWrite i dp (de.getD · 0) (BitVec.ofNat 32 off) 16
    if r = some 16 then pure (dp, true) else throw .dirlink

/-- The search and the `memset` and `writei` of `sys_unlink`: whether the name was found. -/
def unlinkEntry (devsw : Devsw) (devswWrite : DevswWrite) (i : ℕ) (dp : Dinode) (name : List Byte) :
    Kernel (Dinode × Bool) := do
  match ← dirlookup devsw dp name with
  | (dp, none) => pure (dp, false)
  | (dp, some (_, off)) => do
    let (dp, r) ← writei devswWrite i dp (fun _ => 0) (BitVec.ofNat 32 off) 16
    if r = some 16 then pure (dp, true) else throw .unlink

/-! ## Names -/

theorem length_strncpy {t : ℕ → Byte} {i n : ℕ} : (strncpy t i n).length = n := by
  induction n generalizing i with
  | zero => rfl
  | succ n ih =>
    rw [strncpy]
    split_ifs
    · exact List.length_replicate
    · rw [List.length_cons, ih]

theorem cut_succ {p : ℕ → Byte} {i n : ℕ} : cut p (i + 1) n = cut (fun j => p (j + 1)) i n := by
  induction n generalizing i with
  | zero => rfl
  | succ n ih => rw [cut, cut, ih]

/-- **What `strncpy` stores** is the name that `strncmp` sees. -/
theorem cut_strncpy {t : ℕ → Byte} {i n : ℕ} : cut ((strncpy t i n).getD · 0) 0 n = cut t i n := by
  induction n generalizing i with
  | zero => rfl
  | succ n ih =>
    rw [strncpy, cut, cut, Nat.zero_add]
    by_cases h0 : t i = 0
    · rw [if_pos h0, if_pos h0, List.replicate_succ, List.getD_cons_zero, if_pos rfl]
    · rw [if_neg h0, if_neg h0, List.getD_cons_zero, if_neg h0, cut_succ]
      simp only [List.getD_cons_succ]
      rw [ih]

/-- The key of an entry in use. -/
def Entry.key (x : Entry) : Option (List Byte) := if x.1 = 0 then none else some x.2

theorem Entry.key_eq_some {x : Entry} {nm : List Byte} : x.key = some nm ↔ x.1 ≠ 0 ∧ nm = x.2 := by
  unfold Entry.key
  split_ifs with h
  · simp [h]
  · exact ⟨fun he => ⟨h, (Option.some_inj.mp he).symm⟩, fun he => by rw [he.2]⟩

theorem entry_ofBytes {inum : BitVec 16} {name : List Byte} :
    Entry.ofBytes (byte inum 0 :: byte inum 1 :: strncpy (name.getD · 0) 0 DIRSIZ) = (inum, nameOf name) := by
  have hinum : word16 ((byte inum 0 :: byte inum 1 :: strncpy (name.getD · 0) 0 DIRSIZ).getD · 0) 0 = inum :=
    word16_eq fun i hi => by
      match i with
      | 0 => rfl
      | 1 => rfl
  rw [Entry.ofBytes, hinum]
  exact congrArg (Prod.mk inum) cut_strncpy

/-! ## The search -/

open Slots (Distinct Holds put)

variable {es es' : List Entry} {nm : List Byte} {k : ℕ} {x : Entry}

theorem search_eq_none {off : ℕ} (h : search nm es off = none) {y : Entry} (hy : y ∈ es) : y.key ≠ some nm := by
  induction es generalizing off with
  | nil => cases hy
  | cons x es ih =>
    rw [search] at h
    split_ifs at h with hx
    rcases List.mem_cons.mp hy with rfl | hy
    · exact fun hk => hx (Entry.key_eq_some.mp hk)
    · exact ih h hy

theorem search_eq_some {off v o : ℕ} (h : search nm es off = some (v, o)) :
    ∃ k x, Holds Entry.key es nm k x ∧ v = x.1.toNat ∧ o = off + 16 * k := by
  induction es generalizing off with
  | nil => cases h
  | cons x es ih =>
    rw [search] at h
    split_ifs at h with hx
    · obtain ⟨rfl, rfl⟩ := Prod.mk.inj (Option.some_inj.mp h)
      exact ⟨0, x, ⟨rfl, Entry.key_eq_some.mpr hx⟩, rfl, rfl⟩
    · obtain ⟨k, y, hk, hv, ho⟩ := ih h
      exact ⟨k + 1, y, ⟨by simpa using hk.1, hk.2⟩, hv, by omega⟩

/-- **The search finds the slot of the name.** -/
theorem search_iff (hd : Distinct Entry.key es) {r : ℕ × ℕ} :
    search nm es 0 = some r ↔ ∃ k x, Holds Entry.key es nm k x ∧ r = (x.1.toNat, 16 * k) := by
  constructor
  · intro h
    obtain ⟨k, x, hk, hv, ho⟩ := search_eq_some (v := r.1) (o := r.2) h
    exact ⟨k, x, hk, Prod.ext hv (by omega)⟩
  · rintro ⟨k, x, hk, rfl⟩
    cases hs : search nm es 0 with
    | none => exact absurd hk.2 (search_eq_none hs (List.mem_of_getElem? hk.1))
    | some r =>
      obtain ⟨j, y, hj, hv, ho⟩ := search_eq_some (v := r.1) (o := r.2) hs
      obtain ⟨rfl, rfl⟩ := hd.unique hk hj
      rw [← hv, Nat.zero_add] at *
      rw [← ho]

theorem search_put_other (hd : Distinct Entry.key es) (hd' : Distinct Entry.key (put es k x)) (hk : k ≤ es.length)
    (hx : x.key ≠ some nm) (hold : ∀ y, es[k]? = some y → y.key ≠ some nm) :
    search nm (put es k x) 0 = search nm es 0 := by
  refine Option.ext fun r => ?_
  rw [search_iff hd', search_iff hd]
  constructor
  · rintro ⟨j, y, hj, hr⟩
    rcases (Slots.holds_put hk).mp hj with ⟨-, -, hc⟩ | ⟨-, hj⟩
    · exact absurd hc hx
    · exact ⟨j, y, hj, hr⟩
  · rintro ⟨j, y, hj, hr⟩
    refine ⟨j, y, (Slots.holds_put hk).mpr (.inr ⟨?_, hj⟩), hr⟩
    rintro rfl
    exact hold y hj.1 hj.2

/-! ## The entries on the disk -/

variable {D D' : Image} {i : ℕ}

/-- The entries of the directory with the number `i`. -/
def Image.dirents (D : Image) (i : ℕ) : List Entry :=
  (List.range ((D.inode i).size.toNat / 16)).map (entryAt (view D (D.inode i)).byte)

/-- The inode `i` of a disk in use is a directory whose blocks are there. -/
structure IsDir (D : Image) (i : ℕ) : Prop where
  volume : Volume D D.inode
  lt : i < D.ninodes
  type : (D.inode i).type = T_DIR
  there : ∀ m < (D.inode i).size.toNat, There D (D.inode i) m
  whole : (D.inode i).size.toNat % 16 = 0

/-- The first free entry, or the end of the directory. -/
def freeEntry (es : List Entry) : ℕ := es.findIdx (·.1 = 0)

theorem length_dirents : (D.dirents i).length = (D.inode i).size.toNat / 16 := by
  rw [Image.dirents, List.length_map, List.length_range]

theorem dirents_getElem? {j : ℕ} : (D.dirents i)[j]? =
    if j < (D.inode i).size.toNat / 16 then some (entryAt (view D (D.inode i)).byte j) else none := by
  rw [Image.dirents, List.getElem?_map]
  split_ifs with h
  · rw [List.getElem?_range h]
    rfl
  · rw [List.getElem?_eq_none (by rw [List.length_range]; omega)]
    rfl

namespace IsDir

variable {devsw : Devsw} {devswWrite : DevswWrite} {E : Panic → Prop}

theorem size_eq (h : IsDir D i) : (D.inode i).size.toNat = 16 * (D.dirents i).length := by
  have := h.whole
  rw [length_dirents]
  omega

/-- **`dirlookup`** searches the entries. -/
theorem dirlookup_eq (h : IsDir D i) (devsw : Devsw) (name : List Byte) : dirlookup devsw (D.inode i) name D =
    .ok ((D.inode i, search (nameOf name) (D.dirents i) 0), D) := by
  have hsize := h.size_eq
  have hes : ∀ k (hk : k < (D.dirents i).length), (D.dirents i)[k] = entryAt (view D (D.inode i)).byte k := by
    intro k hk
    simp only [Image.dirents, List.getElem_map, List.getElem_range]
  have hlook : wp (dirlookup devsw (D.inode i) name)
      (fun r D' => r = (D.inode i, search (nameOf name) (D.dirents i) 0) ∧ D' = D) (fun _ => False) D :=
    wp_dirlookup h.type (fun m hm => h.there m (by omega)) (Nat.le_of_eq hsize.symm) hes fun _ => hsize
  exact hlook.eq_ok

theorem wp_emptyLoop (h : IsDir D i) {fuel e : ℕ} (he : e + es.length = (D.dirents i).length)
    (hes : ∀ k (hk : k < es.length), es[k] = entryAt (view D (D.inode i)).byte (e + k)) (hfuel : es.length < fuel) :
    wp (emptyLoop devsw fuel (D.inode i) (16 * e))
      (fun r D' => r = (D.inode i, 16 * (e + freeEntry es)) ∧ D' = D) E D := by
  have hsize := h.size_eq
  have hlt : (D.inode i).size.toNat < 2 ^ 32 := (D.inode i).size.isLt
  induction es generalizing fuel e with
  | nil =>
    obtain ⟨fuel, rfl⟩ := Nat.exists_eq_succ_of_ne_zero (Nat.ne_of_gt hfuel)
    rw [List.length_nil] at he
    rw [emptyLoop, if_neg (by omega)]
    exact ⟨rfl, rfl⟩
  | cons x es ih =>
    obtain ⟨fuel, rfl⟩ := Nat.exists_eq_succ_of_ne_zero (Nat.ne_of_gt (Nat.zero_lt_of_lt hfuel))
    rw [List.length_cons] at he hfuel
    have hoff : (BitVec.ofNat 32 (16 * e)).toNat = 16 * e := by
      rw [BitVec.toNat_ofNat]
      exact Nat.mod_eq_of_lt (by omega)
    have hsixteen : (16 : Word).toNat = 16 := rfl
    have hdev : (D.inode i).type ≠ T_DEV := by
      rw [h.type]
      decide
    rw [emptyLoop, if_pos (by omega), wp_bind]
    refine (wp_readi (k := 16) hdev (by omega) (by omega) (by omega) fun m _ hm => h.there m (by omega)).mono
      fun r D' ⟨hr, hD'⟩ => ?_
    subst hr hD'
    have hx : x = Entry.ofBytes ((List.range 16).map fun b => (view D' (D'.inode i)).byte (16 * e + b)) :=
      hes 0 (Nat.succ_pos _)
    simp only [hoff]
    rw [if_pos (by simp)]
    generalize ((List.range 16).map fun b => (view D' (D'.inode i)).byte (16 * e + b)) = de at hx
    have hinum : word16 (de.getD · 0) 0 = x.1 := by rw [hx, Entry.ofBytes]
    rw [hinum, freeEntry, List.findIdx_cons]
    by_cases h0 : x.1 = 0
    · rw [if_pos h0, decide_eq_true h0]
      exact ⟨rfl, rfl⟩
    · rw [if_neg h0, decide_eq_false h0, cond_false]
      have hrest : wp (emptyLoop devsw fuel (D'.inode i) (16 * (e + 1)))
          (fun r E => r = (D'.inode i, 16 * (e + 1 + freeEntry es)) ∧ E = D') E D' :=
        ih (by omega) (fun k hk => by
          have := hes (k + 1) (Nat.succ_lt_succ hk)
          rw [List.getElem_cons_succ] at this
          rw [this, Nat.add_assoc, Nat.add_comm 1 k]) (by omega)
      rw [Nat.add_right_comm, Nat.add_assoc] at hrest
      exact hrest

end IsDir

theorem freeEntry_le : freeEntry es ≤ es.length := List.findIdx_le_length

theorem freeEntry_free {y : Entry} (h : es[freeEntry es]? = some y) : y.key = none := by
  obtain ⟨hk, rfl⟩ := List.getElem?_eq_some_iff.mp h
  have := List.findIdx_getElem (p := fun y : Entry => decide (y.1 = 0)) (w := hk)
  exact if_pos (of_decide_eq_true this)

/-- **A write of one entry.** -/
theorem IsDir.wrote (h : IsDir D i) {de : List Byte} (hlen : de.length = 16) (hk : k ≤ (D.dirents i).length)
    (hw : Wrote D i (16 * k) de D') : IsDir D' i ∧ D'.dirents i = put (D.dirents i) k (.ofBytes de) := by
  have hsize : (D'.inode i).size.toNat = max (D.inode i).size.toNat (16 * k + 16) := by
    have := congrArg File.Inode.size hw.file
    rw [File.Inode.write, hlen] at this
    exact this
  have hwhole := h.whole
  rw [length_dirents] at hk
  refine ⟨⟨hw.volume, by rw [hw.ninodes]; exact h.lt, by rw [hw.rest]; exact h.type, hw.there, by omega⟩, ?_⟩
  refine List.ext_getElem? fun j => ?_
  rw [Slots.getElem?_put (by rwa [length_dirents]), dirents_getElem?, dirents_getElem?, hw.file]
  have hbyte : ∀ b, ((view D (D.inode i)).write (16 * k) de).byte b =
      if 16 * k ≤ b ∧ b < 16 * k + 16 then de.getD (b - 16 * k) 0 else (view D (D.inode i)).byte b := fun b => by
    rw [File.byte_write, hlen]
  by_cases hj : j = k
  · have hbytes : ((List.range 16).map fun b => ((view D (D.inode i)).write (16 * k) de).byte (16 * k + b)) = de := by
      refine List.ext_getElem (by simp [hlen]) fun b hb _ => ?_
      rw [List.length_map, List.length_range] at hb
      rw [List.getElem_map, List.getElem_range, hbyte, if_pos (by omega), Nat.add_sub_cancel_left]
      exact List.getD_eq_getElem _ _ (by omega)
    rw [if_pos (by omega), if_pos hj, hj, entryAt, hbytes]
  · have hsame : entryAt ((view D (D.inode i)).write (16 * k) de).byte j = entryAt (view D (D.inode i)).byte j := by
      rw [entryAt, entryAt]
      congr 1
      refine List.map_congr_left fun b hb => ?_
      have := List.mem_range.mp hb
      rw [hbyte, if_neg (by omega)]
    rw [if_neg hj, hsame]
    by_cases hlt : j < (D.inode i).size.toNat / 16
    · rw [if_pos hlt, if_pos (by omega)]
    · rw [if_neg hlt, if_neg (by omega)]

/-! ## What the calls do -/

section Calls

variable {devsw : Devsw} {devswWrite : DevswWrite} {name : List Byte} {inum : Word}

theorem IsDir.wp_write (h : IsDir D i) {de : ℕ → Byte} (hk : k ≤ (D.dirents i).length)
    (hroom : 16 * k + 16 ≤ MAXFILE * BSIZE) : wp (writei devswWrite i (D.inode i) de (BitVec.ofNat 32 (16 * k)) 16)
      (fun r D' => r = (D'.inode i, some 16) ∧ IsDir D' i ∧
        D'.dirents i = put (D.dirents i) k (.ofBytes ((List.range 16).map de))) (· = .outOfBlocks) D := by
  have hmax : MAXFILE * BSIZE < 2 ^ 32 := by decide
  have hoff : (BitVec.ofNat 32 (16 * k)).toNat = 16 * k := by
    rw [BitVec.toNat_ofNat]
    exact Nat.mod_eq_of_lt (by omega)
  have hsixteen : (16 : Word).toNat = 16 := rfl
  have hsize := h.size_eq
  refine (wp_writei h.volume h.lt (by rw [h.type]; decide) (by rw [h.type]; decide) h.there (by omega) (by omega)).mono
    fun r D' ⟨hr, hw⟩ => ?_
  rw [hoff] at hw
  exact ⟨hr, h.wrote File.length_slice hk hw⟩

/-- **`dirlink`**: the name is there, or it gets the first free entry. -/
theorem IsDir.wp_dirlink (h : IsDir D i) : wp (dirlink devsw devswWrite i (D.inode i) name inum)
    (fun r D' => r.1 = D'.inode i ∧ if search (nameOf name) (D.dirents i) 0 = none then r.2 = true ∧ IsDir D' i ∧
        D'.dirents i = put (D.dirents i) (freeEntry (D.dirents i)) (inum.setWidth 16, nameOf name)
      else r.2 = false ∧ D' = D)
    (fun e => e = .outOfBlocks ∨ e = .dirlink ∧ MAXFILE * BSIZE < 16 * freeEntry (D.dirents i) + 16) D := by
  rw [dirlink, wp_bind, wp_of_ok (h.dirlookup_eq devsw name)]
  cases hs : search (nameOf name) (D.dirents i) 0 with
  | some r =>
    refine ⟨rfl, ?_⟩
    rw [if_neg (by simp)]
    exact ⟨rfl, rfl⟩
  | none =>
    simp only
    have hes : ∀ k (hk : k < (D.dirents i).length), (D.dirents i)[k] = entryAt (view D (D.inode i)).byte (0 + k) := by
      intro k hk
      simp only [Image.dirents, List.getElem_map, List.getElem_range, Nat.zero_add]
    rw [wp_bind]
    refine (h.wp_emptyLoop (e := 0) (Nat.zero_add _) hes ?_).mono fun r D' ⟨hr, hD'⟩ => ?_
    · rw [length_dirents]
      exact Nat.lt_succ_self _
    · subst hr hD'
      simp only [Nat.zero_add]
      rw [wp_bind]
      have hbytes : ∀ w : BitVec 16, Entry.ofBytes ((List.range 16).map fun j =>
          (byte w 0 :: byte w 1 :: strncpy (name.getD · 0) 0 DIRSIZ).getD j 0) = (w, nameOf name) := fun w => by
        rw [← entry_ofBytes]
        congr 1
        refine List.ext_getElem ?_ fun j hj _ => ?_
        · simp [length_strncpy]
        · rw [List.getElem_map, List.getElem_range]
          rw [List.length_map, List.length_range] at hj
          exact List.getD_eq_getElem _ _ (by rw [List.length_cons, List.length_cons, length_strncpy]; exact hj)
      by_cases hroom : 16 * freeEntry (D'.dirents i) + 16 ≤ MAXFILE * BSIZE
      · refine ((h.wp_write freeEntry_le hroom).imp (fun r E ⟨hr, hdir, hput⟩ => ?_) fun _ he => .inl he)
        subst hr
        simp only [if_true]
        rw [wp_pure]
        refine ⟨rfl, ?_⟩
        rw [hbytes] at hput
        exact ⟨rfl, hdir, hput⟩
      · rw [wp_of_ok (writei_refuses (by rw [h.type]; decide) fun hfit => ?_)]
        · simp only
          rw [if_neg (by simp), wp_throw]
          exact .inr ⟨rfl, by omega⟩
        · have hle : freeEntry (D'.dirents i) ≤ (D'.dirents i).length := freeEntry_le
          have hsize := h.size_eq
          have hlt := (D'.inode i).size.isLt
          have hoff : (BitVec.ofNat 32 (16 * freeEntry (D'.dirents i))).toNat = 16 * freeEntry (D'.dirents i) := by
            rw [BitVec.toNat_ofNat]
            exact Nat.mod_eq_of_lt (by omega)
          have hsixteen : (16 : Word).toNat = 16 := rfl
          have hmax := hfit.2.2
          omega

/-- **Clearing an entry**: the name is not there, or its entry is cleared. -/
theorem IsDir.wp_unlinkEntry (h : IsDir D i) (hd : Distinct Entry.key (D.dirents i)) :
    wp (unlinkEntry devsw devswWrite i (D.inode i) name)
      (fun r D' => r.1 = D'.inode i ∧ if search (nameOf name) (D.dirents i) 0 = none then r.2 = false ∧ D' = D
        else r.2 = true ∧ IsDir D' i ∧ ∃ k x, Holds Entry.key (D.dirents i) (nameOf name) k x ∧
          D'.dirents i = put (D.dirents i) k (0, [])) (· = .outOfBlocks) D := by
  rw [unlinkEntry, wp_bind, wp_of_ok (h.dirlookup_eq devsw name)]
  cases hs : search (nameOf name) (D.dirents i) 0 with
  | none => exact ⟨rfl, rfl, rfl⟩
  | some r =>
    obtain ⟨k, x, hk, rfl⟩ := (search_iff hd).mp hs
    have hlt : k < (D.dirents i).length := (List.getElem?_eq_some_iff.mp hk.1).1
    have hsize := h.size_eq
    simp only
    rw [wp_bind]
    have hroom : 16 * k + 16 ≤ MAXFILE * BSIZE := by
      have hm : 16 * k + 15 < (D.inode i).size.toNat := by omega
      obtain ⟨hbn, -⟩ := h.there _ hm
      simp only [BSIZE, MAXFILE, NINDIRECT, NDIRECT] at *
      omega
    refine (h.wp_write (Nat.le_of_lt hlt) hroom).mono fun r E ⟨hr, hdir, hput⟩ => ?_
    subst hr
    simp only [if_true]
    rw [wp_pure]
    refine ⟨rfl, ?_⟩
    rw [if_neg (by simp)]
    exact ⟨rfl, hdir, k, x, hk, hput⟩

end Calls

/-! ## Histories -/

inductive Op
  | link (name : List Byte) (inum : Word)
  | unlink (name : List Byte)

namespace Op

def name : Op → List Byte
  | .link name _ => nameOf name
  | .unlink name => nameOf name

/-- The call in the directory with the number `i`. -/
def run (devsw : Devsw) (devswWrite : DevswWrite) (i : ℕ) : Op → Kernel (Dinode × Bool)
  | .link name inum => do dirlink devsw devswWrite i ((← get).inode i) name inum
  | .unlink name => do unlinkEntry devsw devswWrite i ((← get).inode i) name

/-- The numbers of inodes that fit into an entry in use. -/
def Fine : Op → Prop
  | .link _ inum => 1 ≤ inum.toNat ∧ inum.toNat ≤ 65535
  | .unlink _ => True

/-- There is a free entry, or the directory may become longer. -/
def Room (D : Image) (i : ℕ) : Op → Prop
  | .link _ _ => (∃ x ∈ D.dirents i, x.1 = 0) ∨ (D.inode i).size.toNat < MAXFILE * BSIZE
  | .unlink _ => True

/-- **What the call does to the map**; a name that is there is not linked again. -/
def act (m : List Byte → Option ℕ) : Op → List Byte → Option ℕ
  | .link name inum => if m (nameOf name) = none then update m (nameOf name) (some inum.toNat) else m
  | .unlink name => update m (nameOf name) none

/-- The call returns 0: the name is new, or it is there. -/
def succeeds (m : List Byte → Option ℕ) : Op → Bool
  | .link name _ => (m (nameOf name)).isNone
  | .unlink name => (m (nameOf name)).isSome

end Op

/-- The numbers last linked under the names and not removed since. -/
def linked (tr : List (Image × Op)) : List Byte → Option ℕ := tr.foldl (fun m e => e.2.act m) fun _ => none

theorem linked_snoc {tr : List (Image × Op)} {e : Image × Op} : linked (tr ++ [e]) = e.2.act (linked tr) := by
  rw [linked, List.foldl_append]
  rfl

/-- A call that returns. -/
def dirStep (devsw : Devsw) (devswWrite : DevswWrite) (i : ℕ) (D : Image) (op : Op) : Option Image :=
  match op.run devsw devswWrite i D with
  | .ok (_, D') => some D'
  | .error _ => none

/-- The directory is the map `m`. -/
structure IsMap (D : Image) (i : ℕ) (m : List Byte → Option ℕ) : Prop where
  dir : IsDir D i
  distinct : Distinct Entry.key (D.dirents i)
  map : ∀ nm, (search nm (D.dirents i) 0).map Prod.fst = m nm

section Histories

variable {devsw : Devsw} {devswWrite : DevswWrite} {m : List Byte → Option ℕ} {op : Op}

theorem IsMap.none_iff (h : IsMap D i m) : search nm (D.dirents i) 0 = none ↔ m nm = none := by
  rw [← h.map, Option.map_eq_none_iff]

theorem IsMap.put (h : IsMap D i m) (nm : List Byte) (hdir : IsDir D' i) (hput : D'.dirents i = put (D.dirents i) k x)
    (hk : k ≤ (D.dirents i).length) (hnew : ∀ c, x.key = some c → c = nm)
    (hold : ∀ y c, (D.dirents i)[k]? = some y → y.key = some c → c = nm)
    (hone : ∀ j y, Holds Entry.key (D.dirents i) nm j y → j = k) :
    IsMap D' i (update m nm (x.key.map fun _ => x.1.toNat)) ∧
      ∀ c, c ≠ nm → search c (D'.dirents i) 0 = search c (D.dirents i) 0 := by
  have hd : Distinct Entry.key (D'.dirents i) := by
    rw [hput]
    refine h.distinct.put hk fun c j y hc hy => ?_
    obtain rfl := hnew c hc
    exact hone j y hy
  have hother : ∀ c, c ≠ nm → search c (D'.dirents i) 0 = search c (D.dirents i) 0 := fun c hc => by
    rw [hput] at hd ⊢
    exact search_put_other h.distinct hd hk (fun hx => hc (hnew c hx)) fun y hy hyc => hc (hold y c hy hyc)
  refine ⟨⟨hdir, hd, fun c => ?_⟩, hother⟩
  by_cases hc : c = nm
  · subst hc
    rw [update_self]
    cases hx : x.key with
    | none =>
      cases hs : search c (D'.dirents i) 0 with
      | none => rfl
      | some r =>
        -- no slot has the name any more
        obtain ⟨j, y, hj, -⟩ := (search_iff hd).mp hs
        rw [hput] at hj
        rcases (Slots.holds_put hk).mp hj with ⟨-, -, hxc⟩ | ⟨hjk, hy⟩
        · rw [hx] at hxc
          cases hxc
        · exact absurd (hone j y hy) hjk
    | some c' =>
      obtain rfl := hnew c' hx
      rw [(search_iff hd).mpr ⟨k, x, by rw [hput]; exact (Slots.holds_put hk).mpr (.inl ⟨rfl, rfl, hx⟩), rfl⟩]
      rfl
  · rw [update_of_ne hc, hother c hc, h.map]

theorem IsDir.not_room {name : List Byte} {inum : Word} (h : IsDir D i)
    (hfull : MAXFILE * BSIZE < 16 * freeEntry (D.dirents i) + 16) : ¬ (Op.link name inum).Room D i := by
  have hsize := h.size_eq
  rintro (⟨x, hx, h0⟩ | hlt)
  · have hidx : freeEntry (D.dirents i) < (D.dirents i).length :=
      List.findIdx_lt_length_of_exists ⟨x, hx, decide_eq_true h0⟩
    obtain ⟨hbn, -⟩ := h.there (16 * freeEntry (D.dirents i) + 15) (by omega)
    simp only [BSIZE, MAXFILE, NINDIRECT, NDIRECT] at *
    omega
  · have hle : freeEntry (D.dirents i) ≤ (D.dirents i).length := freeEntry_le
    simp only [BSIZE, MAXFILE, NINDIRECT, NDIRECT] at *
    omega

/-- **One call** on a directory that is a map. -/
theorem IsMap.wp_run (h : IsMap D i m) (hfine : op.Fine) : wp (op.run devsw devswWrite i)
    (fun r D' => r = (D'.inode i, op.succeeds m) ∧ IsMap D' i (op.act m) ∧ (op.succeeds m = false → D' = D) ∧
      ∀ c, c ≠ op.name → search c (D'.dirents i) 0 = search c (D.dirents i) 0)
    (fun e => e = .outOfBlocks ∨ e = .dirlink ∧ ¬ op.Room D i) D := by
  cases op with
  | link name inum =>
    rw [Op.run, wp_bind, wp_get]
    refine h.dir.wp_dirlink.imp (fun r D' ⟨hr, hcase⟩ => ?_) fun e he => he.imp_right fun ⟨he, hfull⟩ =>
      ⟨he, h.dir.not_room hfull⟩
    obtain ⟨dp, done⟩ := r
    obtain rfl : dp = D'.inode i := hr
    split_ifs at hcase with hs
    · obtain ⟨rfl, hdir, hput⟩ := hcase
      have hm := h.none_iff.mp hs
      have hwidth : (inum.setWidth 16).toNat = inum.toNat := by
        have := hfine.2
        rw [BitVec.toNat_setWidth]
        exact Nat.mod_eq_of_lt (by omega)
      have hkey : Entry.key (inum.setWidth 16, nameOf name) = some (nameOf name) := by
        rw [Entry.key_eq_some]
        refine ⟨fun h0 => ?_, rfl⟩
        have hzero : (inum.setWidth 16).toNat = 0 := by rw [show inum.setWidth 16 = 0 from h0]; rfl
        have := hfine.1
        omega
      obtain ⟨hmap, hother⟩ := h.put (nameOf name) hdir hput freeEntry_le
        (fun c hc => by rw [hkey] at hc; exact (Option.some_inj.mp hc).symm)
        (fun y c hy hc => by rw [freeEntry_free hy] at hc; cases hc)
        (fun j y hy => absurd hy.2 (search_eq_none hs (List.mem_of_getElem? hy.1)))
      rw [hkey] at hmap
      refine ⟨by simp [Op.succeeds, hm], ?_, ?_, hother⟩
      · simp only [Op.act, if_pos hm]
        rw [← hwidth]
        exact hmap
      · simp [Op.succeeds, hm]
    · obtain ⟨rfl, rfl⟩ := hcase
      obtain ⟨v, hm⟩ := Option.ne_none_iff_exists'.mp fun hm => hs (h.none_iff.mpr hm)
      refine ⟨?_, ?_, fun _ => rfl, fun _ _ => rfl⟩
      · simp [Op.succeeds, hm]
      · simp only [Op.act, hm]
        exact h
  | unlink name =>
    rw [Op.run, wp_bind, wp_get]
    refine (h.dir.wp_unlinkEntry h.distinct).imp (fun r D' ⟨hr, hcase⟩ => ?_) fun e he => .inl he
    obtain ⟨dp, done⟩ := r
    obtain rfl : dp = D'.inode i := hr
    split_ifs at hcase with hs
    · obtain ⟨rfl, rfl⟩ := hcase
      have hm := h.none_iff.mp hs
      refine ⟨?_, ?_, fun _ => rfl, fun _ _ => rfl⟩
      · simp [Op.succeeds, hm]
      · simp only [Op.act]
        rw [← hm, update_eq_self]
        exact h
    · obtain ⟨rfl, hdir, k, x, hk, hput⟩ := hcase
      obtain ⟨v, hm⟩ := Option.ne_none_iff_exists'.mp fun hm => hs (h.none_iff.mpr hm)
      have hlt : k < (D.dirents i).length := (List.getElem?_eq_some_iff.mp hk.1).1
      have hkey : Entry.key (0, []) = none := rfl
      obtain ⟨hmap, hother⟩ := h.put (nameOf name) hdir hput (Nat.le_of_lt hlt)
        (fun c hc => by rw [hkey] at hc; cases hc)
        (fun y c hy hc => by
          obtain rfl := Option.some_inj.mp (hk.1.symm.trans hy)
          exact Option.some_inj.mp (hc.symm.trans hk.2))
        (fun j y hy => (h.distinct.unique hy hk).1)
      rw [hkey] at hmap
      refine ⟨by simp [Op.succeeds, hm], hmap, ?_, hother⟩
      simp [Op.succeeds, hm]

/-- **Directories are finite maps.** After any calls of `dirlink`, with numbers between 1 and 65535, and any removals that
return, from an empty directory: no two entries in use have the same name; `dirlookup` returns the number last linked
under the name and not removed since, and the place of its entry, or 0; and the next call returns 0 exactly if the name
is new, or there, if `balloc` finds a block and the directory has room; otherwise it returns -1 and changes nothing.
It leaves the lookup of every other name as it was. -/
theorem directory_is_map (devsw : Devsw) (devswWrite : DevswWrite) {D₀ : Image} {tr : List (Image × Op)}
    (hv : Volume D₀ D₀.inode) (hi : i < D₀.ninodes) (htype : (D₀.inode i).type = T_DIR) (hempty : (D₀.inode i).size = 0)
    (h : Path (dirStep devsw devswWrite i) (fun _ op => op.Fine) D₀ tr D) :
    (∀ (k l : ℕ) (x y : Entry), (D.dirents i)[k]? = some x → (D.dirents i)[l]? = some y → x.1 ≠ 0 → y.1 ≠ 0 →
      x.2 = y.2 → k = l) ∧
    (∀ name, ∃ r, dirlookup devsw (D.inode i) name D = .ok ((D.inode i, r), D) ∧
      r.map Prod.fst = linked tr (nameOf name) ∧
      ∀ inum off, r = some (inum, off) → ∃ k x, off = 16 * k ∧ (D.dirents i)[k]? = some x ∧ x.1.toNat = inum ∧
        x.1 ≠ 0 ∧ x.2 = nameOf name) ∧
    ∀ op : Op, op.Fine → op.Room D i → op.run devsw devswWrite i D ≠ .error .outOfBlocks →
      ∃ D', op.run devsw devswWrite i D = .ok ((D'.inode i, op.succeeds (linked tr)), D') ∧
        (op.succeeds (linked tr) = false → D' = D) ∧
        ∀ name, nameOf name ≠ op.name → ∃ r, dirlookup devsw (D.inode i) name D = .ok ((D.inode i, r), D) ∧
          dirlookup devsw (D'.inode i) name D' = .ok ((D'.inode i, r), D') := by
  have hinv : IsMap D i (linked tr) := by
    refine h.inv_trace (I := fun tr D => IsMap D i (linked tr)) ?_ fun tr D op D' hmap hfine hs => ?_
    · have hzero : (D₀.inode i).size.toNat = 0 := by rw [hempty]; rfl
      have hnil : D₀.dirents i = [] := List.eq_nil_of_length_eq_zero (by rw [length_dirents, hzero])
      refine ⟨⟨hv, hi, htype, fun m hm => by omega, by rw [hzero]⟩, ?_, ?_⟩
      · rw [hnil]
        intro c j k x y hx
        cases hx
      · rw [hnil]
        exact fun _ => rfl
    · rw [linked_snoc]
      unfold dirStep at hs
      split at hs
      · next r E hrun =>
        cases hs
        exact ((hmap.wp_run hfine).ok hrun).2.1
      · cases hs
  refine ⟨fun k l x y hx hy hx0 hy0 hxy => ?_, fun name => ?_, fun op hfine hroom hballoc => ?_⟩
  · exact hinv.distinct x.2 k l x y hx hy (Entry.key_eq_some.mpr ⟨hx0, rfl⟩) (Entry.key_eq_some.mpr ⟨hy0, hxy⟩)
  · refine ⟨_, hinv.dir.dirlookup_eq devsw name, hinv.map _, fun inum off hr => ?_⟩
    obtain ⟨k, x, hk, hkx⟩ := (search_iff hinv.distinct).mp hr
    obtain ⟨rfl, rfl⟩ := Prod.mk.inj hkx
    have hkey := Entry.key_eq_some.mp hk.2
    exact ⟨k, x, rfl, hk.1, rfl, hkey.1, hkey.2.symm⟩
  · have hrun : wp (op.run devsw devswWrite i) _ (· = .outOfBlocks) D :=
      (hinv.wp_run hfine).imp (fun _ _ h => h) fun e he => he.resolve_right fun hno => hno.2 hroom
    obtain ⟨r, D', hok, rfl, hmap', hsame, hother⟩ := hrun.returns_of_ne (by rintro _ rfl; exact hballoc)
    refine ⟨D', hok, hsame, fun name hne => ⟨_, hinv.dir.dirlookup_eq devsw name, ?_⟩⟩
    rw [hmap'.dir.dirlookup_eq devsw name, hother _ hne]

end Histories

theorem emptyDir_goes (name : List Byte) (inum : Word) : wp ((Op.link name inum).run (fun _ => none) (fun _ => none) 1)
    (fun _ _ => True) (· ≠ .outOfBlocks) (emptyFile T_DIR) := by
  have hsize : ((emptyFile T_DIR).inode 1).size.toNat = 0 := by rw [emptyFile_one]; rfl
  have hdir : IsDir (emptyFile T_DIR) 1 := ⟨emptyFile_volume, by rw [emptyFile_ninodes]; decide, by rw [emptyFile_one],
    fun m hm => by omega, by rw [hsize]⟩
  have hnil : (emptyFile T_DIR).dirents 1 = [] := List.eq_nil_of_length_eq_zero (by rw [length_dirents, hsize])
  have hlook := hdir.dirlookup_eq (fun _ => none) name
  rw [hnil] at hlook
  rw [Op.run, wp_bind, wp_get, dirlink, wp_bind, wp_of_ok hlook]
  simp only [search, hsize]
  rw [wp_bind, emptyLoop, if_neg (by omega), wp_pure]
  simp only
  rw [wp_bind]
  refine (emptyFile_goes _ (by decide) (by decide) (by decide)).mono fun r D' _ => ?_
  obtain ⟨dp, r⟩ := r
  simp only
  split_ifs
  · trivial
  · exact Panic.noConfusion

/-- One name is linked and looked up. -/
theorem directory_is_map_one : ∃ D', Path (dirStep (fun _ => none) (fun _ => none) 1) (fun _ op => op.Fine)
    (emptyFile T_DIR) [(emptyFile T_DIR, .link [97] 5)] D' ∧
      ∃ off, dirlookup (fun _ => none) (D'.inode 1) [97] D' = .ok ((D'.inode 1, some (5, off)), D') := by
  have hv : Volume (emptyFile T_DIR) (emptyFile T_DIR).inode := emptyFile_volume
  have hi : 1 < (emptyFile T_DIR).ninodes := by rw [emptyFile_ninodes]; decide
  have htype : ((emptyFile T_DIR).inode 1).type = T_DIR := by rw [emptyFile_one]
  have hempty : ((emptyFile T_DIR).inode 1).size = 0 := by rw [emptyFile_one]; rfl
  obtain ⟨-, -, hnext⟩ := directory_is_map (fun _ => none) (fun _ => none) hv hi htype hempty .nil
  obtain ⟨D', hrun, -⟩ := hnext (.link [97] 5) ⟨by decide, by decide⟩ (.inr (by rw [hempty]; decide)) fun he =>
    (emptyDir_goes [97] 5).error he rfl
  have hpath : Path (dirStep (fun _ => none) (fun _ => none) 1) (fun _ op => op.Fine)
      (emptyFile T_DIR) [(emptyFile T_DIR, .link [97] 5)] D' :=
    .snoc .nil ⟨by decide, by decide⟩ (by rw [dirStep, hrun])
  refine ⟨D', hpath, ?_⟩
  obtain ⟨-, hlook, -⟩ := directory_is_map _ _ hv hi htype hempty hpath
  obtain ⟨r, hr, hmap, -⟩ := hlook [97]
  have hlinked : linked [(emptyFile T_DIR, .link [97] 5)] (nameOf [97]) = some 5 := by
    simp only [linked, List.foldl_cons, List.foldl_nil, Op.act, if_true, update_self]
    rfl
  rw [hlinked] at hmap
  obtain ⟨⟨x, off⟩, rfl, rfl⟩ := Option.map_eq_some_iff.mp hmap
  exact ⟨off, hr⟩

end Xv6.Disk
