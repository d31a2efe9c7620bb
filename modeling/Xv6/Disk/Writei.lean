import Xv6.Disk.Volume

/-!
# Files as byte arrays

`writei` and `iupdate` of `fs.c` on the bytes of the disk, without the calls of `log_write` and their panic (these are
in `Xv6.Disk.Reserve`). On a disk in use (`Volume`), `writei` to a file whose blocks
below its size are there puts its bytes at the offset and leaves every other file as it is (`wp_writei`); the loop over
the blocks refines the one of `Xv6.File.Writei`, in which the blocks of a file are its own.
-/

namespace Xv6.Disk

open Lib
open Function (update update_eq_self update_of_ne update_self)

def Image.putInode (D : Image) (i : ℕ) (ip : Dinode) : Image :=
  update D (IBLOCK i) (ip.write (D (IBLOCK i)) (64 * (i % IPB)))

def iupdate (i : ℕ) (ip : Dinode) : Kernel PUnit := do
  let D ← get
  set (D.putInode i ip)

/-- The loop of `writei` over the blocks, which is left with the inode and `off`; `fuel` is at least `n - tot`. With
`log_write` it is `Logged.writeiLoop`. -/
def writeiLoop (src : ℕ → Byte) (n : ℕ) : ℕ → Dinode → (off tot : ℕ) → Kernel (Dinode × ℕ)
  | 0, ip, off, _ => pure (ip, off)
  | fuel + 1, ip, off, tot =>
    if tot < n then do
      let (ip, addr) ← bmap ip (off / BSIZE)
      let m := File.blockLen off (n - tot)
      let D ← get
      set (update D addr.toNat (overlay (D addr.toNat) (off % BSIZE) m fun j => src (tot + j)))
      writeiLoop src n fuel ip (off + m) (tot + m)
    else pure (ip, off)

/-- The `write` functions of the device drivers, by major number. -/
abbrev DevswWrite := ℕ → Option ((ℕ → Byte) → Word → Option Word)

/-- `writei` to the inode with the number `i`: what it returns, or nothing for -1. -/
def writei (devsw : DevswWrite) (i : ℕ) (ip : Dinode) (src : ℕ → Byte) (off n : Word) : Kernel (Dinode × Option Word) :=
  if ip.type = T_DEV then
    if ip.major.toInt < 0 ∨ NDEV ≤ ip.major.toInt then pure (ip, none)
    else pure (ip, (devsw ip.major.toNat).bind fun write => write src n)
  else if ip.size < off ∨ off + n < off then pure (ip, none)
  else if MAXFILE * BSIZE < (off + n).toNat then pure (ip, none)
  else do
    let (ip, off) ← writeiLoop src n.toNat n.toNat ip off.toNat 0
    if 0 < n ∧ ip.size.toNat < off then do
      let ip := { ip with size := BitVec.ofNat 32 off }
      iupdate i ip
      pure (ip, some n)
    else pure (ip, some n)

/-! ## The loop -/

variable {D D' : Image} {ino : ℕ → Dinode} {i : ℕ} {ip ip' : Dinode} {src : ℕ → Byte}

/-- **The loop of `writei`** does to the file what it does to a file with blocks of its own. -/
theorem wp_writeiLoop {n fuel off tot : ℕ} (hv : Volume D (update ino i ip)) (hi : i < D.ninodes)
    (ht : ip.type ≠ 0) (hn : off + (n - tot) ≤ MAXFILE * BSIZE) (hfuel : n - tot ≤ fuel) :
    wp (writeiLoop src n fuel ip off tot) (fun r D' => Kept ino i D ip D' r.1 ∧
      (view D' r.1, r.2) = File.Inode.copy src n fuel (view D ip) off tot ∧
      (∀ m, off ≤ m → m < off + (n - tot) → There D' r.1 m) ∧
      ((∀ m, off ≤ m → m < off + (n - tot) → There D ip m) → r.1 = ip)) (· = .outOfBlocks) D := by
  induction fuel generalizing D ip off tot with
  | zero => exact ⟨.refl hv, rfl, fun m h1 h2 => by omega, fun _ => rfl⟩
  | succ fuel ih =>
    rw [writeiLoop, File.Inode.copy]
    by_cases htot : tot < n
    · rw [if_pos htot, if_pos htot]
      simp only
      have hbn : off / BSIZE < MAXFILE := by simp only [BSIZE, MAXFILE, NINDIRECT, NDIRECT] at *; omega
      have hpos := File.blockLen_pos off (show 0 < n - tot by omega)
      have hle : File.blockLen off (n - tot) ≤ n - tot := min_le_left _ _
      have hblock : File.blockLen off (n - tot) ≤ BSIZE - off % BSIZE := File.blockLen_le
      generalize File.blockLen off (n - tot) = m at hpos hle hblock
      rw [wp_bind]
      refine (wp_bmap_new hv hi ht hbn).mono fun r D₁ h => ?_
      obtain ⟨hkept, hview, hw, hw0, hsame⟩ := h
      obtain ⟨ip₁, w⟩ := r
      simp only at hkept hview hw hw0 hsame ⊢
      have h0 : spot D₁.word ip₁.addrs (.ofBlock _ hbn) ≠ 0 := fun he => hw0 (BitVec.eq_of_toNat_eq (hw.trans he))
      rw [wp_bind, wp_get, wp_bind, wp_set, hw]
      generalize hD₂ : update D₁ (spot D₁.word ip₁.addrs (.ofBlock _ hbn))
        (overlay (D₁ (spot D₁.word ip₁.addrs (.ofBlock _ hbn))) (off % BSIZE) m fun j => src (tot + j)) = D₂
      obtain ⟨hkept', hview'⟩ := Kept.put hkept.volume (by rwa [hkept.above.ninodes]) (by rwa [hkept.type_eq]) hbn h0
        hD₂.symm
      have hput : view D₂ ip₁ = (view D ip).put (fun j => src (tot + j)) off m := by
        rw [hview', hview, File.Inode.put, ← hview, view_there hbn h0]
      have hkept₂ := hkept.trans hkept'
      refine (ih hkept'.volume (by rwa [hkept₂.above.ninodes]) (by rwa [hkept₂.type_eq]) (by omega) (by omega)).mono
        fun r D₃ h => ?_
      obtain ⟨hkept₃, hcopy, hthere, hstay⟩ := h
      refine ⟨hkept₂.trans hkept₃, by rw [hcopy, hput], fun l hl hlt => ?_, fun hall => ?_⟩
      · by_cases hlm : l < off + m
        · -- a byte of the block just written
          have hdiv : l / BSIZE = off / BSIZE := by simp only [BSIZE] at *; omega
          refine hkept₃.there (hkept'.there ?_)
          unfold There
          simp only [hdiv]
          exact ⟨hbn, h0⟩
        · exact hthere l (by omega) (by omega)
      · obtain ⟨_, hoff⟩ := hall off (Nat.le_refl _) (by omega)
        obtain rfl : ip₁ = ip := hsame hoff
        exact hstay fun l hl hlt => hkept₂.there (hall l (by omega) (by omega))
    · rw [if_neg htot, if_neg htot]
      exact ⟨.refl hv, rfl, fun m h1 h2 => by omega, fun _ => rfl⟩

/-! ## `iupdate` -/

theorem inode_putInode (j : ℕ) : (D.putInode i ip).inode j = if j = i then ip else D.inode j := by
  rw [Image.inode, Image.inode, Image.putInode]
  by_cases hblock : IBLOCK j = IBLOCK i
  · rw [hblock, update_self]
    split_ifs with hj
    · rw [hj]
      exact Dinode.read_write
    · refine Dinode.read_write_other ?_
      simp only [IBLOCK, IPB, BSIZE] at *
      omega
  · rw [update_of_ne hblock, if_neg fun hj => hblock (by rw [hj])]

theorem Volume.putInode (hv : Volume D ino) (hi : i < D.ninodes) (ip : Dinode) :
    Marks D (D.putInode i ip) ∧ held (D.putInode i ip) ino = held D ino ∧
      ∀ q, held D ino q ≠ 0 → D.putInode i ip (held D ino q) = D (held D ino q) := by
  have hdata : ∀ q, held D ino q ≠ 0 → D.putInode i ip (held D ino q) = D (held D ino q) := fun q h0 =>
    update_of_ne (Nat.ne_of_gt (Nat.lt_of_lt_of_le (table_lt_start hi) (hv.used q h0).1)) ..
  have hmarks : Marks D (D.putInode i ip) := by
    refine ⟨update_of_ne (Nat.ne_of_lt (Nat.succ_lt_succ (Nat.succ_pos _))) .., fun c _ hc => ?_⟩
    rwa [Image.putInode, bit_congr (update_of_ne (Nat.ne_of_gt (table_lt_bitmap hi c)) ..)]
  exact ⟨hmarks, held_congr hmarks.ninodes fun j h0 => hdata _ h0, hdata⟩

/-! ## `writei` -/

/-- What is on the disk after the bytes `l` were written at `off` to the file of inode `i`. -/
structure Wrote (D : Image) (i off : ℕ) (l : List Byte) (D' : Image) : Prop where
  volume : Volume D' D'.inode
  ninodes : D'.ninodes = D.ninodes
  file : view D' (D'.inode i) = (view D (D.inode i)).write off l
  rest : D'.inode i = { D.inode i with size := (D'.inode i).size, addrs := (D'.inode i).addrs }
  there : ∀ m < (D'.inode i).size.toNat, There D' (D'.inode i) m
  inodes : ∀ j < D.ninodes, j ≠ i → D'.inode j = D.inode j
  others : ∀ j < D.ninodes, j ≠ i → (D.inode j).type ≠ 0 → view D' (D'.inode j) = view D (D.inode j)

theorem held_inode_congr {ino' : ℕ → Dinode} (h : ∀ j < D.ninodes, ino' j = ino j) : held D ino' = held D ino := by
  have hlive : live D.ninodes ino' = live D.ninodes ino := by
    funext j
    by_cases hj : j < D.ninodes
    · rw [live, live, h j hj]
    · rw [live, live, if_neg fun hc => hj hc.1, if_neg fun hc => hj hc.1]
  rw [held, held, hlive]

theorem Kept.wrote {off : ℕ} {l : List Byte} (hk : Kept D.inode i D (D.inode i) D' (D.inode i)) (hi : i < D.ninodes)
    (hfile : view D' (D.inode i) = (view D (D.inode i)).write off l)
    (hthere : ∀ m < (D.inode i).size.toNat, There D (D.inode i) m) : Wrote D i off l D' := by
  have hinode : ∀ j < D.ninodes, D'.inode j = D.inode j := fun j hj => hk.above.inode hj
  refine ⟨?_, hk.above.ninodes, by rw [hinode i hi, hfile], by rw [hinode i hi], ?_, fun j hj _ => hinode j hj,
    fun j hj hne htj => by rw [hinode j hj, hk.others j hj hne htj]⟩
  · have hv := hk.volume
    rw [update_eq_self] at hv
    refine hv.same ⟨rfl, fun _ _ h => h⟩ (held_inode_congr fun j hj => ?_)
    exact hinode j (by rwa [← hk.above.ninodes])
  · rw [hinode i hi]
    exact fun m hm => hk.there (hthere m hm)

theorem Kept.wrote_putInode {off size : ℕ} {l : List Byte} {ip : Dinode} (hk : Kept D.inode i D (D.inode i) D' ip)
    (hi : i < D.ninodes) (ht : (D.inode i).type ≠ 0) (hsize : size < 2 ^ 32)
    (hfile : { view D' ip with size := size } = (view D (D.inode i)).write off l)
    (hthere : ∀ m < size, There D' ip m) (ip' : Dinode) (hip' : ip' = { ip with size := BitVec.ofNat 32 size }) :
    Wrote D i off l (D'.putInode i ip') := by
  have hi' : i < D'.ninodes := by rwa [hk.above.ninodes]
  have ht' : ip.type ≠ 0 := by rwa [hk.type_eq]
  obtain ⟨hmarks, hheld, hdata⟩ := hk.volume.putInode hi' ip'
  have hinode : ∀ j, (D'.putInode i ip').inode j = if j = i then ip' else D'.inode j := inode_putInode
  generalize D'.putInode i ip' = D'' at *
  have hself : D''.inode i = ip' := by rw [hinode, if_pos rfl]
  have hother : ∀ j < D.ninodes, j ≠ i → D''.inode j = D.inode j := fun j hj hne => by
    rw [hinode, if_neg hne, hk.above.inode hj]
  have hnat : ip'.size.toNat = size := by
    rw [hip']
    exact (BitVec.toNat_ofNat ..).trans (Nat.mod_eq_of_lt hsize)
  have haddrs : ip'.addrs = ip.addrs := by rw [hip']
  have hplace : ∀ p, held D' (update D.inode i ip) (i, p) = spot D'.word ip.addrs p := held_update hi' ht'
  have hspot : spot D''.word ip'.addrs = spot D'.word ip.addrs := by
    funext p
    rw [haddrs, ← hplace, ← hheld, held_update (by rwa [hmarks.ninodes]) ht']
  have hcell : ∀ (p : Place) (x : ℕ), (if spot D'.word ip.addrs p = 0 then 0 else D'' (spot D'.word ip.addrs p) x) =
      if spot D'.word ip.addrs p = 0 then 0 else D' (spot D'.word ip.addrs p) x := by
    intro p x
    split_ifs with h0
    · rfl
    · rw [← hplace] at h0 ⊢
      rw [hdata _ h0]
  refine ⟨?_, hmarks.ninodes.trans hk.above.ninodes, ?_, ?_, ?_, hother, fun j hj hne htj => ?_⟩
  · refine hk.volume.same hmarks ?_
    rw [← hheld]
    funext q
    obtain ⟨j, p⟩ := q
    by_cases hj : j = i
    · subst hj
      rw [held_update (by rwa [hmarks.ninodes]) ht', held_of_live (by rwa [hmarks.ninodes]) (by rw [hself, hip']; exact ht'),
        hself, haddrs]
    · rw [held, held, places, places, live_update_ne hj, live, live]
      by_cases hlt : j < D.ninodes
      · rw [hother j hlt hj]
      · rw [if_neg fun h => hlt (by rw [← hk.above.ninodes, ← hmarks.ninodes]; exact h.1),
          if_neg fun h => hlt (by rw [← hk.above.ninodes, ← hmarks.ninodes]; exact h.1)]
  · rw [hself, ← hfile]
    refine File.Inode.ext (fun bn x => ?_) hnat
    simp only [view]
    by_cases hbn : bn < MAXFILE
    · rw [dif_pos hbn, dif_pos hbn, hspot, hcell]
    · rw [dif_neg hbn, dif_neg hbn]
  · rw [hself, hip', hk.rest]
  · rw [hself, hnat]
    intro m hm
    obtain ⟨hbn, h0⟩ := hthere m hm
    exact ⟨hbn, by rwa [hspot]⟩
  · rw [hother j hj hne, ← hk.others j hj hne htj]
    have hj' : j < D'.ninodes := by rwa [hk.above.ninodes]
    have hlive : ∀ (E : Image), j < E.ninodes → ∀ p, held E (update D.inode i ip) (j, p) =
        spot E.word (D.inode j).addrs p := fun E hjE p => by
      rw [held, places, live_update_ne hne, live, if_pos ⟨hjE, htj⟩]
    refine view_congr rfl fun bn hbn x => ?_
    rw [← hlive D'' (by rwa [hmarks.ninodes]), hheld, ← hlive D' hj']
    split_ifs with h0
    · rfl
    · rw [hdata _ h0]

/-- **`writei`** to a file whose blocks below its size are there, at an offset and of a length that fit. -/
theorem wp_writei {devsw : DevswWrite} {off n : Word} (hv : Volume D D.inode) (hi : i < D.ninodes)
    (ht : (D.inode i).type ≠ 0) (hdev : (D.inode i).type ≠ T_DEV)
    (hthere : ∀ m < (D.inode i).size.toNat, There D (D.inode i) m) (hoff : off.toNat ≤ (D.inode i).size.toNat)
    (hn : off.toNat + n.toNat ≤ MAXFILE * BSIZE) :
    wp (writei devsw i (D.inode i) src off n) (fun r D' => r = (D'.inode i, some n) ∧
      Wrote D i off.toNat (File.slice src n.toNat) D') (· = .outOfBlocks) D := by
  have hmax : MAXFILE * BSIZE < 2 ^ 32 := by decide
  have hadd : (off + n).toNat = off.toNat + n.toNat := by rw [BitVec.toNat_add, Nat.mod_eq_of_lt (by omega)]
  rw [writei, if_neg hdev, if_neg (by rw [BitVec.lt_def, BitVec.lt_def, hadd]; omega), if_neg (by omega), wp_bind]
  have hv' : Volume D (update D.inode i (D.inode i)) := by rwa [update_eq_self]
  refine (wp_writeiLoop hv' hi ht (by omega) (by omega)).mono
    fun r D' ⟨hkept, hcopy, hnew, hstay⟩ => ?_
  obtain ⟨ip, off'⟩ := r
  have hfill := File.copy_eq (view D (D.inode i)) src off.toNat (Nat.zero_le n.toNat) (Nat.sub_le n.toNat 0)
  rw [show File.slice src 0 = [] from rfl, File.fill_nil, Nat.add_zero] at hfill
  rw [hfill] at hcopy
  obtain ⟨hview, rfl⟩ := Prod.mk.inj hcopy
  have hgrow := File.grow_eq (File.slice src n.toNat) (show off.toNat ≤ (view D (D.inode i)).size from hoff)
  rw [File.length_slice] at hgrow
  rw [Nat.sub_zero] at hnew hstay
  simp only at hkept hview hstay hnew ⊢
  have hsize : ip.size.toNat = (D.inode i).size.toNat := by rw [hkept.size_eq]
  have hpos : 0 < n ↔ 0 < n.toNat := by
    rw [BitVec.lt_def]
    rfl
  split_ifs with hif
  · have hbig : (D.inode i).size.toNat < off.toNat + n.toNat := hsize ▸ hif.2
    rw [iupdate, wp_bind, wp_bind, wp_get, wp_set, wp_pure]
    refine ⟨by rw [inode_putInode, if_pos rfl], hkept.wrote_putInode hi ht (by omega) ?_ (fun m hm => ?_) _ rfl⟩
    · rw [hview, ← hgrow, File.Inode.grow, if_pos ⟨hpos.mp hif.1, hbig⟩]
    · by_cases hlow : m < off.toNat
      · exact hkept.there (hthere m (by omega))
      · exact hnew m (by omega) hm
  · have hle : off.toNat + n.toNat ≤ (D.inode i).size.toNat := by
      by_contra hlt
      exact hif ⟨hpos.mpr (by omega), by omega⟩
    obtain rfl : ip = D.inode i := hstay fun m _ hm => hthere m (by omega)
    rw [wp_pure]
    refine ⟨by rw [hkept.above.inode hi], hkept.wrote hi ?_ hthere⟩
    rw [hview, ← hgrow, File.Inode.grow, if_neg]
    rintro ⟨-, hlt⟩
    have hgt : (D.inode i).size.toNat < off.toNat + n.toNat := hlt
    omega

/-! ## A file is an array of bytes -/

def Image.content (D : Image) (i : ℕ) : List Byte := (view D (D.inode i)).content

theorem length_content : (D.content i).length = (D.inode i).size.toNat := by
  simp [Image.content, File.Inode.content, view]

theorem content_part {off n : ℕ} : ((D.content i).drop off).take n =
    (List.range (min n ((D.inode i).size.toNat - off))).map fun j => (view D (D.inode i)).byte (off + j) := by
  refine List.ext_getElem ?_ fun j _ _ => ?_
  · simp [length_content]
  · simp [Image.content, File.Inode.content]

/-- The tests of `writei`: the bytes start in the file or at its end, and end in the largest file. -/
def Fits (size off n : Word) : Prop :=
  off.toNat ≤ size.toNat ∧ off.toNat + n.toNat < 2 ^ 32 ∧ off.toNat + n.toNat ≤ MAXFILE * BSIZE

instance (size off n : Word) : Decidable (Fits size off n) := inferInstanceAs (Decidable (_ ∧ _ ∧ _))

theorem refused_of_not_fits {size off n : Word} (h : ¬ Fits size off n) :
    (size < off ∨ off + n < off) ∨ MAXFILE * BSIZE < (off + n).toNat := by
  have hn := n.isLt
  have hoff := off.isLt
  unfold Fits at h
  rw [BitVec.lt_def, BitVec.lt_def, BitVec.toNat_add]
  omega

theorem writei_refuses {devsw : DevswWrite} {off n : Word} (hdev : ip.type ≠ T_DEV) (h : ¬ Fits ip.size off n) :
    writei devsw i ip src off n D = .ok ((ip, none), D) := by
  rw [writei, if_neg hdev]
  by_cases hbad : ip.size < off ∨ off + n < off
  · rw [if_pos hbad]
    rfl
  · rw [if_neg hbad, if_pos ((refused_of_not_fits h).resolve_left hbad)]
    rfl

theorem Wrote.content {off n : Word} {D' : Image} (h : Wrote D i off.toNat (File.slice src n.toNat) D')
    (hfit : Fits (D.inode i).size off n) :
    (D'.inode i).size.toNat = max (D.inode i).size.toNat (off.toNat + n.toNat) ∧
      D'.content i = (D.content i).take off.toNat ++ File.slice src n.toNat ++
        (D.content i).drop (off.toNat + n.toNat) := by
  have hlen : (File.slice src n.toNat).length = n.toNat := File.length_slice
  have hsize := congrArg File.Inode.size h.file
  have hcontent := File.content_write (l := File.slice src n.toNat)
    (show off.toNat ≤ (view D (D.inode i)).size from hfit.1)
  rw [File.Inode.write, hlen] at hsize
  rw [← h.file, hlen] at hcontent
  exact ⟨hsize, hcontent⟩

theorem readi_content (devsw : Devsw) (hdev : (D.inode i).type ≠ T_DEV)
    (hthere : ∀ m < (D.inode i).size.toNat, There D (D.inode i) m) (off n : Word) :
    ∃ r, readi devsw (D.inode i) off n D = .ok ((D.inode i, r), D) ∧
      if (D.inode i).size.toNat < off.toNat ∨ 2 ^ 32 ≤ off.toNat + n.toNat then r = none
      else ∃ bytes, r = some bytes ∧ bytes.length = min n.toNat ((D.inode i).size.toNat - off.toNat) ∧
        bytes = ((D.content i).drop off.toNat).take n.toNat := by
  by_cases hbad : (D.inode i).size.toNat < off.toNat ∨ 2 ^ 32 ≤ off.toNat + n.toNat
  · refine ⟨none, ?_, if_pos hbad ▸ rfl⟩
    have hrefuse : (D.inode i).size < off ∨ off + n < off := by
      have hn := n.isLt
      have hoff := off.isLt
      rw [BitVec.lt_def, BitVec.lt_def, BitVec.toNat_add]
      omega
    rw [readi, if_neg hdev, if_pos hrefuse]
    rfl
  · have hread : wp (readi devsw (D.inode i) off n) _ (fun _ => False) D :=
      wp_readi hdev (by omega) (by omega) rfl fun m _ hm => hthere m (by omega)
    refine ⟨_, hread.eq_ok, ?_⟩
    rw [if_neg hbad]
    exact ⟨_, rfl, by simp, content_part.symm⟩

/-! ## A disk with an empty file -/

/-- The disk of `mkfs` with nothing on it but an empty file, with the number 1. -/
@[irreducible] def emptyFile (type : BitVec 16) : Image := (Mkfs.image 30).putInode 1 { Dinode.zero with type := type }

section EmptyFile

variable {type : BitVec 16}

theorem emptyFile_formatted : Mkfs.Formatted (emptyFile type) 30 where
  super := by
    rw [readsb, emptyFile, Image.putInode, update_of_ne (by decide)]
    exact (Mkfs.formatted_image (by decide)).super
  bits j hj := by
    rw [emptyFile, Image.putInode, update_of_ne (by decide)]
    exact (Mkfs.formatted_image (by decide)).bits j hj
  behind := by decide

theorem zero_inode {a : ℕ} : Dinode.read (fun _ => 0) a = Dinode.zero := by
  refine Dinode.read_eq fun j _ => ?_
  unfold Dinode.bytes
  split_ifs <;> simp [Dinode.zero, byte]

theorem emptyFile_inode {j : ℕ} (hj : j < Mkfs.ninodes) :
    (emptyFile type).inode j = if j = 1 then { Dinode.zero with type := type } else Dinode.zero := by
  rw [emptyFile, inode_putInode]
  split_ifs
  · rfl
  · have hblock : Mkfs.image 30 (IBLOCK j) = fun _ => 0 := by
      simp only [Mkfs.ninodes] at hj
      rw [Mkfs.image, if_neg (by simp only [IBLOCK, IPB, BSIZE]; omega), if_neg]
      simp only [IBLOCK, BBLOCK, BPB, IPB, BSIZE, Mkfs.ninodes]
      omega
    rw [Image.inode, hblock]
    exact zero_inode

theorem emptyFile_one : (emptyFile type).inode 1 = { Dinode.zero with type := type } := emptyFile_inode (by decide)

theorem emptyFile_ninodes : (emptyFile type).ninodes = Mkfs.ninodes := by
  rw [Image.ninodes, emptyFile_formatted.super]
  rfl

theorem emptyFile_start : (emptyFile type).start = 29 ∧ (emptyFile type).nblocks = 1024 := by
  rw [Image.start, Image.nblocks, emptyFile_ninodes, emptyFile_formatted.super]
  exact ⟨rfl, rfl⟩

theorem emptyFile_held (q : ℕ × Place) : held (emptyFile type) (emptyFile type).inode q = 0 := by
  have hlive : live (emptyFile type).ninodes (emptyFile type).inode q.1 = fun _ => 0 := by
    rw [live]
    split_ifs with h
    · rw [emptyFile_inode (emptyFile_ninodes ▸ h.1)]
      split_ifs <;> rfl
    · rfl
  rw [held, places, hlive]
  obtain ⟨j, p⟩ := q
  cases p <;> rfl

theorem emptyFile_volume : Volume (emptyFile type) (emptyFile type).inode where
  one p _ h0 := absurd (emptyFile_held p) h0
  used q h0 := absurd (emptyFile_held q) h0
  guarded b hb := by
    rw [emptyFile_start.1] at hb
    rw [emptyFile_ninodes, emptyFile_formatted.bit (by simp only [Mkfs.size]; omega)]
    exact decide_eq_true (by omega)
  fits := by
    rw [emptyFile_start.1, emptyFile_start.2]
    decide

theorem writei_empty {devsw : DevswWrite} {b : ℕ} {n : Word} (hdev : ip.type ≠ T_DEV) (hsize : ip.size = 0)
    (haddr : ∀ k, ip.addrs k = 0) (hb : balloc D = some (b, D')) (hn : 0 < n.toNat) (hle : n.toNat ≤ BSIZE) :
    wp (writei devsw i ip src 0 n) (fun _ _ => True) (· ≠ .outOfBlocks) D := by
  have hzero : (0 : Word).toNat = 0 := rfl
  have hadd : (0 + n).toNat = n.toNat := by
    rw [BitVec.toNat_add, hzero, Nat.zero_add, Nat.mod_eq_of_lt n.isLt]
  have hlen : File.blockLen 0 (n.toNat - 0) = n.toNat := by
    simp only [File.blockLen, Nat.zero_mod, Nat.sub_zero]
    omega
  have hbad : ¬ (ip.size < 0 ∨ 0 + n < 0) := by
    rw [BitVec.lt_def, BitVec.lt_def, hzero]
    omega
  have hmax : ¬ MAXFILE * BSIZE < (0 + n).toNat := by
    rw [hadd]
    simp only [MAXFILE, NINDIRECT, NDIRECT, BSIZE] at *
    omega
  have hloop : ∀ (fuel : ℕ) (jp : Dinode), writeiLoop src n.toNat fuel jp n.toNat n.toNat = pure (jp, n.toNat) := by
    intro fuel jp
    cases fuel with
    | zero => rfl
    | succ fuel => rw [writeiLoop, if_neg (Nat.lt_irrefl _)]
  obtain ⟨k, hk⟩ : ∃ k, n.toNat = k + 1 := ⟨n.toNat - 1, by omega⟩
  have hround : writeiLoop src n.toNat n.toNat ip 0 0 = writeiLoop src n.toNat (k + 1) ip 0 0 := by rw [← hk]
  rw [writei, if_neg hdev, if_neg hbad, if_neg hmax, wp_bind, hzero, hround, writeiLoop, if_pos hn, wp_bind, bmap,
    dif_pos (by decide), wp_bind, bmapAddr, if_pos (haddr _), wp_bind, newBlock, wp_bind, wp_get, hb]
  simp only
  rw [wp_bind, wp_set, wp_pure, wp_pure, wp_pure]
  simp only
  rw [wp_bind, wp_get, wp_bind, wp_set, hlen, Nat.zero_add, hloop, wp_pure]
  simp only [hsize, hzero, hn, and_true]
  rw [if_pos (by rwa [BitVec.lt_def, hzero]), iupdate, wp_bind, wp_bind, wp_get, wp_set, wp_pure]
  trivial

theorem emptyFile_goes (src : ℕ → Byte) (hdev : type ≠ T_DEV) {n : Word} (hn : 0 < n.toNat) (hle : n.toNat ≤ BSIZE) :
    wp (writei (fun _ => none) 1 ((emptyFile type).inode 1) src 0 n) (fun _ _ => True) (· ≠ .outOfBlocks)
      (emptyFile type) := by
  obtain ⟨D', hb, -⟩ := (show Mkfs.Formatted (emptyFile type) 30 from emptyFile_formatted).balloc (by decide)
  rw [emptyFile_one]
  exact writei_empty hdev rfl (fun _ => rfl) hb hn hle

end EmptyFile

end Xv6.Disk
