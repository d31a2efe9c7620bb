import Mathlib.Order.Interval.Finset.Nat
import Xv6.Lib.Zoom
import Xv6.Disk.Writei

/-!
# The sectors that a write logs

`filewrite` of `file.c` cuts a write into chunks, and writes each of them in a transaction of its own, for which
`begin_op` reserves `MAXOPBLOCKS` sectors of the log. `Logged.writei` is `writei` with its calls of `log_write`: the
blocks with the data, the bitmap and the new blocks in `balloc`, the indirect block in `bmap`, and the inode in
`iupdate`; without the record it is `writei` (`Logged.erases_writei`), except that `log_write` panics when the log is full.
So what is known of `writei` holds as long as there is room (`file_is_byte_array`).

- `need`: a bound for the sectors of a chunk, from the inode and the disk before it; `card_le_need`: it is one.
-/

namespace Xv6.Disk

open Lib
open Function (update update_self)

/-- The disk, and the sectors that the transaction has logged so far. -/
structure Logging where
  disk : Image
  logged : List ℕ

/-- A function of the kernel inside a transaction. -/
abbrev Trans := StateT Logging (Except Panic)

/-- A function that logs nothing. -/
def onDisk {α : Type} (m : Kernel α) : Trans α := zoom Logging.disk (fun s D => { s with disk := D }) m

/-- `log_write`, which panics when the log is full: `log.lh.n` is the number of the different sectors. -/
def logWrite (b : ℕ) : Trans PUnit := do
  let s ← get
  if LOGSIZE ≤ s.logged.dedup.length ∨ Mkfs.nlog - 1 ≤ s.logged.dedup.length then throw .tooBig
  else set { s with logged := s.logged ++ [b] }

namespace Logged

/-- `balloc`, with `bzero`. -/
def newBlock : Trans Word := do
  let s ← get
  let addr ← onDisk Disk.newBlock
  logWrite (BBLOCK addr.toNat s.disk.ninodes)
  logWrite addr.toNat
  pure addr

def bmapAddr (ip : Dinode) (k : Fin (NDIRECT + 1)) : Trans Dinode :=
  if ip.addrs k = 0 then do
    let addr ← newBlock
    pure { ip with addrs := update ip.addrs k addr }
  else pure ip

def bmap (ip : Dinode) (bn : ℕ) : Trans (Dinode × Word) :=
  if h : bn < NDIRECT then do
    let ip ← bmapAddr ip ⟨bn, Nat.lt_succ_of_lt h⟩
    pure (ip, ip.addrs ⟨bn, Nat.lt_succ_of_lt h⟩)
  else if bn - NDIRECT < NINDIRECT then do
    let ip ← bmapAddr ip (Fin.last NDIRECT)
    let s ← get
    let a := s.disk (ip.addrs (Fin.last NDIRECT)).toNat
    if word32 a (4 * (bn - NDIRECT)) = 0 then do
      let addr ← newBlock
      let s ← get
      onDisk (set (update s.disk (ip.addrs (Fin.last NDIRECT)).toNat
        (overlay a (4 * (bn - NDIRECT)) 4 (byte addr))))
      logWrite (ip.addrs (Fin.last NDIRECT)).toNat
      pure (ip, addr)
    else pure (ip, word32 a (4 * (bn - NDIRECT)))
  else throw .outOfRange

def writeiLoop (src : ℕ → Byte) (n : ℕ) : ℕ → Dinode → (off tot : ℕ) → Trans (Dinode × ℕ)
  | 0, ip, off, _ => pure (ip, off)
  | fuel + 1, ip, off, tot =>
    if tot < n then do
      let (ip, addr) ← bmap ip (off / BSIZE)
      let m := File.blockLen off (n - tot)
      let s ← get
      onDisk (set (update s.disk addr.toNat
        (overlay (s.disk addr.toNat) (off % BSIZE) m fun j => src (tot + j))))
      logWrite addr.toNat
      writeiLoop src n fuel ip (off + m) (tot + m)
    else pure (ip, off)

def iupdate (i : ℕ) (ip : Dinode) : Trans PUnit := do
  onDisk (Disk.iupdate i ip)
  logWrite (IBLOCK i)

def writei (devsw : DevswWrite) (i : ℕ) (ip : Dinode) (src : ℕ → Byte) (off n : Word) : Trans (Dinode × Option Word) :=
  if ip.type = T_DEV then
    if ip.major.toInt < 0 ∨ NDEV ≤ ip.major.toInt then pure (ip, none)
    else pure (ip, (devsw ip.major.toNat).bind fun write => write src n)
  else if ip.size < off ∨ off + n < off then pure (ip, none)
  else if MAXFILE * BSIZE < (off + n).toNat then pure (ip, none)
  else do
    let (ip, off) ← writeiLoop src n.toNat n.toNat ip off.toNat 0
    if 0 < n ∧ ip.size.toNat < off then do
      let ip := { ip with size := BitVec.ofNat 32 off }
      iupdate i ip
      pure (ip, some n)
    else pure (ip, some n)

/-! ## Without the record -/

/-- Without the record, `m` is `m'`, unless the log is full. -/
abbrev Unlogged {α : Type} (m : Trans α) (m' : Kernel α) : Prop := Erases Logging.disk (· = .tooBig) m m'

theorem erases_onDisk {α : Type} {m : Kernel α} : Unlogged (onDisk m) m := .zoom fun _ _ => rfl

theorem erases_logWrite {β : Type} {b : ℕ} {g : PUnit → Trans β} {g' : Kernel β} (h : Unlogged (g ⟨⟩) g') :
    Unlogged (logWrite b >>= g) g' := by
  intro s
  by_cases hfull : LOGSIZE ≤ s.logged.dedup.length ∨ Mkfs.nlog - 1 ≤ s.logged.dedup.length
  · refine .inr ⟨.tooBig, rfl, ?_⟩
    show ((if _ then throw Panic.tooBig else set _ : Trans PUnit) >>= g) s = _
    rw [if_pos hfull]
    rfl
  · have hrun : (logWrite b >>= g) s = g ⟨⟩ { s with logged := s.logged ++ [b] } := by
      show ((if _ then throw Panic.tooBig else set _ : Trans PUnit) >>= g) s = _
      rw [if_neg hfull]
      rfl
    rw [hrun]
    exact h { s with logged := s.logged ++ [b] }

theorem erases_get {β : Type} {g : Logging → Trans β} {g' : Kernel β} (h : ∀ s, Unlogged (g s) g') :
    Unlogged (get >>= g) g' := fun s => h s s

theorem erases_newBlock : Unlogged newBlock Disk.newBlock := by
  have hpure : Disk.newBlock = (Disk.newBlock >>= pure) := (bind_pure _).symm
  rw [hpure]
  exact erases_get fun s => erases_onDisk.bind fun addr => erases_logWrite (erases_logWrite (.pure _))

theorem erases_bmapAddr (ip : Dinode) (k : Fin (NDIRECT + 1)) : Unlogged (bmapAddr ip k) (Disk.bmapAddr ip k) := by
  unfold bmapAddr Disk.bmapAddr
  split_ifs
  · exact erases_newBlock.bind fun _ => .pure _
  · exact .pure _

theorem erases_bmap (ip : Dinode) (bn : ℕ) : Unlogged (bmap ip bn) (Disk.bmap ip bn) := by
  unfold bmap Disk.bmap
  split_ifs
  · exact (erases_bmapAddr _ _).bind fun _ => .pure _
  · refine (erases_bmapAddr _ _).bind fun ip' => .get_bind fun s => ?_
    simp only
    split_ifs
    · exact erases_newBlock.bind fun addr => .get_bind fun s => erases_onDisk.bind fun _ => erases_logWrite (.pure _)
    · exact .pure _
  · exact .throw _

theorem erases_writeiLoop {src : ℕ → Byte} {n : ℕ} : ∀ (fuel : ℕ) (ip : Dinode) (off tot : ℕ),
    Unlogged (writeiLoop src n fuel ip off tot) (Disk.writeiLoop src n fuel ip off tot)
  | 0, _, _, _ => .pure _
  | fuel + 1, ip, off, tot => by
    unfold writeiLoop Disk.writeiLoop
    split_ifs
    · refine (erases_bmap _ _).bind fun r => .get_bind fun s => erases_onDisk.bind fun _ => erases_logWrite ?_
      exact erases_writeiLoop fuel _ _ _
    · exact .pure _

/-- **Without the record it is `writei`.** -/
theorem erases_writei (devsw : DevswWrite) (i : ℕ) (ip : Dinode) (src : ℕ → Byte) (off n : Word) :
    Unlogged (writei devsw i ip src off n) (Disk.writei devsw i ip src off n) := by
  unfold writei Disk.writei
  split_ifs
  · exact .pure _
  · exact .pure _
  · exact .pure _
  · exact .pure _
  · refine (erases_writeiLoop _ _ _ _).bind fun r => ?_
    simp only
    split_ifs
    · unfold iupdate
      rw [bind_assoc]
      exact erases_onDisk.bind fun _ => erases_logWrite (.pure _)
    · exact .pure _

end Logged

/-! ## The sectors of a chunk -/

/-- The address of block `bn` of the file; 0 if there is none. -/
def blockAt (D : Image) (ip : Dinode) (bn : ℕ) : ℕ :=
  if h : bn < MAXFILE then spot D.word ip.addrs (.ofBlock bn h) else 0

def indirectOf (ip : Dinode) : ℕ := (ip.addrs (Fin.last NDIRECT)).toNat

/-- The blocks of a file that the `n` bytes at `off` lie in. -/
def touched (off n : ℕ) : Finset ℕ := Finset.Ico (off / BSIZE) ((off + n + (BSIZE - 1)) / BSIZE)

/-- Those that the file does not have yet. -/
def missing (D : Image) (ip : Dinode) (off n : ℕ) : Finset ℕ := (touched off n).filter fun bn => blockAt D ip bn = 0

/-- One of them is behind the direct blocks. -/
def Deep (D : Image) (ip : Dinode) (off n : ℕ) : Prop := ∃ bn ∈ missing D ip off n, NDIRECT ≤ bn

/-- **The sectors of a chunk**, the inode apart, in terms of the inode and the disk before and after it: the blocks with
the data; for each new block, that of its bit; and the indirect block when one of its entries is new, with that of its
bit when it is new itself. -/
def Foot (D : Image) (ip : Dinode) (D' : Image) (ip' : Dinode) (off n b : ℕ) : Prop :=
  (∃ bn ∈ touched off n, b = blockAt D' ip' bn) ∨
    (∃ bn ∈ missing D ip off n, b = BBLOCK (blockAt D' ip' bn) D.ninodes) ∨
    Deep D ip off n ∧ (b = indirectOf ip' ∨ indirectOf ip = 0 ∧ b = BBLOCK (indirectOf ip') D.ninodes)

variable {D D' : Image} {ino : ℕ → Dinode} {i : ℕ} {ip ip' : Dinode} {src : ℕ → Byte} {log : List ℕ}

theorem blockAt_of_lt {bn : ℕ} (h : bn < MAXFILE) : blockAt D ip bn = spot D.word ip.addrs (.ofBlock bn h) := dif_pos h

theorem Kept.blockAt_eq (h : Kept ino i D ip D' ip') {bn : ℕ} (h0 : blockAt D ip bn ≠ 0) :
    blockAt D' ip' bn = blockAt D ip bn := by
  unfold blockAt at h0 ⊢
  split_ifs at h0 ⊢ with hbn
  · exact h.keep _ h0
  · rfl

theorem Kept.indirect_eq (h : Kept ino i D ip D' ip') (h0 : indirectOf ip ≠ 0) : indirectOf ip' = indirectOf ip :=
  h.keep .indirect h0

theorem indirect_of_blockAt {bn : ℕ} (hd : NDIRECT ≤ bn) (h0 : blockAt D ip bn ≠ 0) : indirectOf ip ≠ 0 := by
  unfold blockAt at h0
  split_ifs at h0 with hbn
  · intro hz
    have hlast : ip.addrs (Fin.last NDIRECT) = 0 := BitVec.eq_of_toNat_eq hz
    rw [Place.ofBlock, dif_neg (Nat.not_lt.mpr hd), spot, if_pos hlast] at h0
    exact h0 rfl
  · exact absurd rfl h0

section Foot

variable {D₁ D₂ : Image} {ip₁ ip₂ : Dinode} {off n off' n' b bn : ℕ}

theorem touched_head (hn : 0 < n) : off / BSIZE ∈ touched off n := by
  simp only [touched, Finset.mem_Ico, BSIZE]
  omega

theorem touched_tail {m : ℕ} (hm : m ≤ n) : touched (off + m) (n - m) ⊆ touched off n := by
  refine Finset.Ico_subset_Ico ?_ ?_
  · simp only [BSIZE]
    omega
  · rw [show off + m + (n - m) = off + n by omega]

theorem Foot.tail (h : Kept ino i D ip D₁ ip₁) (hsub : touched off' n' ⊆ touched off n)
    (hf : Foot D₁ ip₁ D₂ ip₂ off' n' b) : Foot D ip D₂ ip₂ off n b := by
  have hmiss : missing D₁ ip₁ off' n' ⊆ missing D ip off n := by
    intro bn hbn
    obtain ⟨ht, h0⟩ := Finset.mem_filter.mp hbn
    refine Finset.mem_filter.mpr ⟨hsub ht, ?_⟩
    by_contra hne
    exact hne ((h.blockAt_eq hne).symm.trans h0)
  rcases hf with ⟨bn, hbn, rfl⟩ | ⟨bn, hbn, rfl⟩ | ⟨⟨bn, hbn, hd⟩, hb⟩
  · exact .inl ⟨bn, hsub hbn, rfl⟩
  · exact .inr (.inl ⟨bn, hmiss hbn, by rw [h.above.ninodes]⟩)
  · refine .inr (.inr ⟨⟨bn, hmiss hbn, hd⟩, hb.imp id fun ⟨h0, hb⟩ => ⟨?_, by rw [hb, h.above.ninodes]⟩⟩)
    by_contra hne
    exact hne ((h.indirect_eq hne).symm.trans h0)

theorem Foot.head {w : ℕ} (h : Kept ino i D₁ ip₁ D₂ ip₂) (hbn : bn ∈ touched off n) (hw : w = blockAt D₁ ip₁ bn)
    (hw0 : w ≠ 0) (hb : b = w ∨ blockAt D ip bn = 0 ∧ (b = w ∨ b = BBLOCK w D.ninodes ∨ NDIRECT ≤ bn ∧
      (b = indirectOf ip₁ ∨ indirectOf ip = 0 ∧ b = BBLOCK (indirectOf ip₁) D.ninodes))) :
    Foot D ip D₂ ip₂ off n b := by
  have hat : blockAt D₂ ip₂ bn = w := by
    rw [h.blockAt_eq (hw ▸ hw0), hw]
  have hdata : b = w → Foot D ip D₂ ip₂ off n b := fun he => .inl ⟨bn, hbn, he.trans hat.symm⟩
  rcases hb with hb | ⟨h0, hb | hb | ⟨hd, hb⟩⟩
  · exact hdata hb
  · exact hdata hb
  · exact .inr (.inl ⟨bn, Finset.mem_filter.mpr ⟨hbn, h0⟩, by rw [hb, hat]⟩)
  · have hind := h.indirect_eq (indirect_of_blockAt hd (hw ▸ hw0))
    rw [← hind] at hb
    exact .inr (.inr ⟨⟨bn, Finset.mem_filter.mpr ⟨hbn, h0⟩, hd⟩, hb⟩)

end Foot

namespace Logged

/-- There is no block on the disk, or no room in the log. -/
def Full (e : Panic) : Prop := e = .outOfBlocks ∨ e = .tooBig

theorem wp_logWrite {α : Type} {b : ℕ} {s : Logging} {g : PUnit → Trans α} {Q : α → Logging → Prop}
    (k : wp (g ⟨⟩) Q Full { s with logged := s.logged ++ [b] }) : wp (logWrite b >>= g) Q Full s := by
  unfold logWrite
  rw [wp_bind, wp_bind, wp_get]
  split_ifs
  · exact .inr rfl
  · exact k

/-- What is known of a function without its record. -/
theorem Unlogged.wp {α : Type} {m : Trans α} {m' : Kernel α} {Q : α → Image → Prop} {D : Image}
    (h : Unlogged m m') (log : List ℕ) (hw : Lib.wp m' Q (· = .outOfBlocks) D) : Lib.wp m (fun a t => Q a t.disk) Full ⟨D, log⟩ :=
  Erases.wp h (fun _ => .inr) (hw.imp (fun _ _ hq => hq) fun _ => .inl)

theorem wp_newBlock (hv : Volume D ino) :
    wp newBlock (fun w s => Fresh D s.disk ino w.toNat ∧ s.logged = log ++ [BBLOCK w.toNat D.ninodes, w.toNat])
      Full ⟨D, log⟩ := by
  unfold newBlock
  rw [wp_bind, wp_get, wp_bind]
  refine wp_zoom.mpr ((hv.wp_newBlock fun w D' hf => ?_).imp (fun _ _ hq => hq) fun _ => .inl)
  refine wp_logWrite (wp_logWrite ⟨hf, ?_⟩)
  show (log ++ [_]) ++ [_] = _
  rw [List.append_assoc]
  rfl

theorem wp_bmapAddr (hv : Volume D (update ino i ip)) (hi : i < D.ninodes) (ht : ip.type ≠ 0)
    (k : Fin (NDIRECT + 1)) : wp (bmapAddr ip k) (fun ip' s => Kept ino i D ip s.disk ip' ∧
      (ip.addrs k ≠ 0 ∧ ip' = ip ∧ s = ⟨D, log⟩ ∨
        ip.addrs k = 0 ∧ s.logged = log ++ [BBLOCK (ip'.addrs k).toNat D.ninodes, (ip'.addrs k).toNat]))
      Full ⟨D, log⟩ := by
  have hkept := (erases_bmapAddr ip k).wp log (wp_bmapAddr_new hv hi ht k)
  have hlog : wp (bmapAddr ip k) (fun ip' s => ip.addrs k ≠ 0 ∧ ip' = ip ∧ s = ⟨D, log⟩ ∨
      ip.addrs k = 0 ∧ s.logged = log ++ [BBLOCK (ip'.addrs k).toNat D.ninodes, (ip'.addrs k).toNat])
      Full ⟨D, log⟩ := by
    unfold bmapAddr
    split_ifs with hk
    · rw [wp_bind]
      refine (wp_newBlock hv).mono fun w s ⟨_, hs⟩ => .inr ⟨hk, ?_⟩
      simp only [hs, update_self]
    · exact .inl ⟨hk, rfl, rfl⟩
  exact (hkept.both hlog).mono fun ip' s ⟨⟨hk, _⟩, hl⟩ => ⟨hk, hl⟩

theorem wp_bmap (hv : Volume D (update ino i ip)) (hi : i < D.ninodes) (ht : ip.type ≠ 0) {bn : ℕ}
    (hbn : bn < MAXFILE) : wp (bmap ip bn) (fun r s => ∀ b ∈ s.logged, b ∈ log ∨ blockAt D ip bn = 0 ∧
      (b = r.2.toNat ∨ b = BBLOCK r.2.toNat D.ninodes ∨ NDIRECT ≤ bn ∧
        (b = indirectOf r.1 ∨ indirectOf ip = 0 ∧ b = BBLOCK (indirectOf r.1) D.ninodes)))
      Full ⟨D, log⟩ := by
  rw [blockAt_of_lt hbn]
  unfold bmap
  split_ifs with hd hlt
  · rw [wp_bind]
    refine (wp_bmapAddr hv hi ht _).mono fun ip' s h b hb => ?_
    rcases h.2 with ⟨_, rfl, rfl⟩ | ⟨h0, hs⟩
    · exact .inl hb
    · have hspot : spot D.word ip.addrs (.ofBlock bn hbn) = 0 := by
        rw [Place.ofBlock, dif_pos hd, spot, h0]
        rfl
      rw [hs] at hb
      rcases List.mem_append.mp hb with hb | hb
      · exact .inl hb
      · rcases List.mem_pair.mp hb with rfl | rfl
        · exact .inr ⟨hspot, .inr (.inl rfl)⟩
        · exact .inr ⟨hspot, .inl rfl⟩
  · have hdeep : NDIRECT ≤ bn := Nat.not_lt.mp hd
    rw [wp_bind]
    refine (wp_bmapAddr hv hi ht _).mono fun ip' s h => ?_
    obtain ⟨hkept, hlog⟩ := h
    -- an entry that is 0 now was 0 before
    have hspot : word32 (s.disk (indirectOf ip')) (4 * (bn - NDIRECT)) = 0 →
        spot D.word ip.addrs (.ofBlock bn hbn) = 0 := by
      intro hw
      rw [Place.ofBlock, dif_neg hd, spot]
      rcases hlog with ⟨h0, rfl, rfl⟩ | ⟨h0, _⟩
      · rw [if_neg h0]
        exact congrArg BitVec.toNat hw
      · rw [if_pos h0]
    have hold : ∀ b ∈ s.logged, b ∈ log ∨ spot D.word ip.addrs (.ofBlock bn hbn) = 0 ∧
        (b = indirectOf ip' ∨ indirectOf ip = 0 ∧ b = BBLOCK (indirectOf ip') D.ninodes) := by
      intro b hb
      rcases hlog with ⟨_, _, rfl⟩ | ⟨h0, hs⟩
      · exact .inl hb
      · have hspot0 : spot D.word ip.addrs (.ofBlock bn hbn) = 0 := by
          rw [Place.ofBlock, dif_neg hd, spot, if_pos h0]
        rw [hs] at hb
        rcases List.mem_append.mp hb with hb | hb
        · exact .inl hb
        · rcases List.mem_pair.mp hb with rfl | rfl
          · exact .inr ⟨hspot0, .inr ⟨congrArg BitVec.toNat h0, rfl⟩⟩
          · exact .inr ⟨hspot0, .inl rfl⟩
    rw [wp_bind, wp_get]
    by_cases hk0 : word32 (s.disk (ip'.addrs (Fin.last NDIRECT)).toNat) (4 * (bn - NDIRECT)) = 0
    · simp only [if_pos hk0]
      rw [wp_bind]
      have hfresh : wp newBlock _ _ ⟨s.disk, s.logged⟩ := wp_newBlock hkept.volume
      refine hfresh.mono fun w s' h => ?_
      have hs' := h.2
      rw [wp_bind, wp_get, wp_bind]
      refine wp_zoom.mpr (wp_logWrite fun b hb => ?_)
      replace hb : b ∈ s'.logged ++ [indirectOf ip'] := hb
      rw [hs', hkept.above.ninodes] at hb
      rcases List.mem_append.mp hb with hb | hb
      · rcases List.mem_append.mp hb with hb | hb
        · rcases hold b hb with hb | ⟨hz, hb⟩
          · exact .inl hb
          · exact .inr ⟨hz, .inr (.inr ⟨hdeep, hb⟩)⟩
        · rcases List.mem_pair.mp hb with rfl | rfl
          · exact .inr ⟨hspot hk0, .inr (.inl rfl)⟩
          · exact .inr ⟨hspot hk0, .inl rfl⟩
      · rw [List.mem_singleton.mp hb]
        exact .inr ⟨hspot hk0, .inr (.inr ⟨hdeep, .inl rfl⟩)⟩
    · simp only [if_neg hk0]
      intro b hb
      rcases hold b hb with hb | ⟨hz, hb⟩
      · exact .inl hb
      · exact .inr ⟨hz, .inr (.inr ⟨hdeep, hb⟩)⟩
  · simp only [MAXFILE] at hbn
    omega

/-- **The sectors that the loop of `writei` logs.** -/
theorem wp_writeiLoop {n fuel off tot : ℕ} (hv : Volume D (update ino i ip)) (hi : i < D.ninodes)
    (ht : ip.type ≠ 0) (hn : off + (n - tot) ≤ MAXFILE * BSIZE) :
    wp (writeiLoop src n fuel ip off tot) (fun r s => Kept ino i D ip s.disk r.1 ∧
      ∀ b ∈ s.logged, b ∈ log ∨ Foot D ip s.disk r.1 off (n - tot) b) Full ⟨D, log⟩ := by
  induction fuel generalizing D ip off tot log with
  | zero => exact ⟨.refl hv, fun b hb => .inl hb⟩
  | succ fuel ih =>
    rw [writeiLoop]
    by_cases htot : tot < n
    · rw [if_pos htot]
      have hbn : off / BSIZE < MAXFILE := by simp only [BSIZE, MAXFILE, NINDIRECT, NDIRECT] at *; omega
      have hle : File.blockLen off (n - tot) ≤ n - tot := min_le_left _ _
      have hpos := File.blockLen_pos off (show 0 < n - tot by omega)
      simp only
      generalize File.blockLen off (n - tot) = m at hle hpos
      rw [wp_bind]
      have hnew := (erases_bmap ip (off / BSIZE)).wp log (wp_bmap_new hv hi ht hbn)
      refine (hnew.both (wp_bmap hv hi ht hbn)).mono fun r s₁ h => ?_
      obtain ⟨⟨hkept, -, hw, hw0, -⟩, hlog⟩ := h
      obtain ⟨ip₁, w⟩ := r
      simp only at hkept hw hw0 hlog ⊢
      have h0 : spot s₁.disk.word ip₁.addrs (.ofBlock _ hbn) ≠ 0 := fun he => hw0 (BitVec.eq_of_toNat_eq (hw.trans he))
      rw [wp_bind, wp_get, wp_bind]
      refine wp_zoom.mpr ?_
      rw [wp_set]
      refine wp_logWrite ?_
      rw [hw]
      generalize hD₂ : update s₁.disk (spot s₁.disk.word ip₁.addrs (.ofBlock _ hbn))
        (overlay (s₁.disk (spot s₁.disk.word ip₁.addrs (.ofBlock _ hbn))) (off % BSIZE) m fun j => src (tot + j)) = D₂
      obtain ⟨hput, -⟩ := Kept.put hkept.volume (by rwa [hkept.above.ninodes]) (by rwa [hkept.type_eq]) hbn h0 hD₂.symm
      have hkept₂ := hkept.trans hput
      refine (ih hput.volume (by rwa [hkept₂.above.ninodes]) (by rwa [hkept₂.type_eq]) (by omega)).mono
        fun r s₃ h => ?_
      obtain ⟨hkept₃, hfoot⟩ := h
      refine ⟨hkept₂.trans hkept₃, fun b hb => ?_⟩
      have hhead : ∀ b, (b = w.toNat ∨ blockAt D ip (off / BSIZE) = 0 ∧ (b = w.toNat ∨ b = BBLOCK w.toNat D.ninodes ∨
          NDIRECT ≤ off / BSIZE ∧ (b = indirectOf ip₁ ∨ indirectOf ip = 0 ∧ b = BBLOCK (indirectOf ip₁) D.ninodes))) →
          Foot D ip s₃.disk r.1 off (n - tot) b := fun b hb =>
        .head (hput.trans hkept₃) (touched_head (by omega)) (by rw [hw, blockAt_of_lt hbn])
          (fun hz => hw0 (BitVec.eq_of_toNat_eq hz)) hb
      rcases hfoot b hb with hb | hb
      · rcases List.mem_append.mp hb with hb | hb
        · exact (hlog b hb).imp id fun hb => hhead b (.inr hb)
        · rw [List.mem_singleton.mp hb, ← hw]
          exact .inr (hhead _ (.inl rfl))
      · rw [Nat.sub_add_eq] at hb
        exact .inr (hb.tail hkept₂ (touched_tail hle))
    · rw [if_neg htot]
      exact ⟨.refl hv, fun b hb => .inl hb⟩

end Logged

/-! ## How many they are -/

instance (D : Image) (ip : Dinode) (off n : ℕ) : Decidable (Deep D ip off n) :=
  inferInstanceAs (Decidable (∃ bn ∈ missing D ip off n, NDIRECT ≤ bn))

/-- The blocks that a chunk allocates. -/
def allocs (D : Image) (ip : Dinode) (off n : ℕ) : ℕ :=
  (missing D ip off n).card + if Deep D ip off n ∧ indirectOf ip = 0 then 1 else 0

def Image.nbitmap (D : Image) : ℕ := (D.nblocks + (BPB - 1)) / BPB

/-- **The sectors that a chunk needs**: the blocks of the file that it touches, the indirect block, the bits of new
blocks, and the inode if the file grows. -/
def need (D : Image) (ip : Dinode) (off n : ℕ) : ℕ :=
  (touched off n).card + (if Deep D ip off n then 1 else 0) + min (allocs D ip off n) D.nbitmap +
    if ip.size.toNat < off + n then 1 else 0

section Count

variable {off n : ℕ}

/-- The blocks with the bits of new blocks. -/
def bitmaps (D : Image) (ip : Dinode) (D' : Image) (ip' : Dinode) (off n : ℕ) : Finset ℕ :=
  (missing D ip off n).image (fun bn => BBLOCK (blockAt D' ip' bn) D.ninodes) ∪
    if Deep D ip off n ∧ indirectOf ip = 0 then {BBLOCK (indirectOf ip') D.ninodes} else ∅

theorem card_bitmaps_le_allocs : (bitmaps D ip D' ip' off n).card ≤ allocs D ip off n := by
  refine (Finset.card_union_le _ _).trans (Nat.add_le_add Finset.card_image_le ?_)
  split_ifs
  · exact (Finset.card_singleton _).le
  · exact Finset.card_empty.le

theorem card_bitmaps_le_nbitmap (hblocks : ∀ bn, blockAt D' ip' bn < D.nblocks) (hind : indirectOf ip' < D.nblocks) :
    (bitmaps D ip D' ip' off n).card ≤ D.nbitmap := by
  have hsub : bitmaps D ip D' ip' off n ⊆ (Finset.range D.nbitmap).image (· + (D.ninodes / IPB + 3)) := by
    have hmem : ∀ c < D.nblocks, BBLOCK c D.ninodes ∈ (Finset.range D.nbitmap).image (· + (D.ninodes / IPB + 3)) := by
      intro c hc
      refine Finset.mem_image.mpr ⟨c / BPB, Finset.mem_range.mpr ?_, rfl⟩
      simp only [Image.nbitmap, BPB, BSIZE]
      omega
    intro b hb
    rcases Finset.mem_union.mp hb with hb | hb
    · obtain ⟨bn, -, rfl⟩ := Finset.mem_image.mp hb
      exact hmem _ (hblocks bn)
    · split_ifs at hb
      · rw [Finset.mem_singleton.mp hb]
        exact hmem _ hind
      · exact absurd hb (Finset.notMem_empty b)
  exact (Finset.card_le_card hsub).trans (Finset.card_image_le.trans (Finset.card_range _).le)

/-- **`need` is a bound.** -/
theorem card_le_need {logged : List ℕ} (inode : ℕ) (hblocks : ∀ bn, blockAt D' ip' bn < D.nblocks)
    (hind : indirectOf ip' < D.nblocks)
    (h : ∀ b ∈ logged, Foot D ip D' ip' off n b ∨ ip.size.toNat < off + n ∧ b = inode) :
    logged.toFinset.card ≤ need D ip off n := by
  have hsub : logged.toFinset ⊆ (touched off n).image (blockAt D' ip') ∪ (if Deep D ip off n then {indirectOf ip'} else ∅) ∪
      bitmaps D ip D' ip' off n ∪ if ip.size.toNat < off + n then {inode} else ∅ := by
    intro b hb
    simp only [Finset.mem_union]
    rcases h b (List.mem_toFinset.mp hb) with (⟨bn, hbn, rfl⟩ | ⟨bn, hbn, rfl⟩ | ⟨hdeep, rfl | ⟨h0, rfl⟩⟩) | ⟨hgrow, rfl⟩
    · exact .inl (.inl (.inl (Finset.mem_image_of_mem _ hbn)))
    · exact .inl (.inr (Finset.mem_union_left _ (Finset.mem_image_of_mem _ hbn)))
    · exact .inl (.inl (.inr (by rw [if_pos hdeep]; exact Finset.mem_singleton_self _)))
    · exact .inl (.inr (Finset.mem_union_right _ (by rw [if_pos ⟨hdeep, h0⟩]; exact Finset.mem_singleton_self _)))
    · exact .inr (by rw [if_pos hgrow]; exact Finset.mem_singleton_self _)
  refine (Finset.card_le_card hsub).trans ((Finset.card_union_le _ _).trans (Nat.add_le_add
    ((Finset.card_union_le _ _).trans (Nat.add_le_add ((Finset.card_union_le _ _).trans (Nat.add_le_add
      Finset.card_image_le ?_)) (Nat.le_min.mpr ⟨card_bitmaps_le_allocs, card_bitmaps_le_nbitmap hblocks hind⟩))) ?_))
  · split_ifs <;> simp
  · split_ifs <;> simp

end Count

/-! ## `writei` -/

theorem held_size (size : Word) :
    held D (update ino i { ip with size := size }) = held D (update ino i ip) := by
  have hlive : live D.ninodes (update ino i { ip with size := size }) =
      live D.ninodes (update ino i ip) := by
    funext j
    by_cases hj : j = i
    · rw [hj, live, live, update_self, update_self]
    · rw [live_update_ne hj, live_update_ne hj]
  rw [held, held, hlive]

theorem Volume.blockAt_lt (hv : Volume D (update ino i ip)) (hi : i < D.ninodes) (ht : ip.type ≠ 0) :
    (∀ bn, blockAt D ip bn < D.nblocks) ∧ indirectOf ip < D.nblocks := by
  have hpos : 0 < D.nblocks := Nat.lt_of_lt_of_le (Nat.zero_lt_of_lt one_lt_start) hv.fits
  have hspot : ∀ p, spot D.word ip.addrs p < D.nblocks := by
    intro p
    by_cases h0 : spot D.word ip.addrs p = 0
    · rwa [h0]
    · rw [← held_update hi ht] at h0 ⊢
      exact (hv.used _ h0).2.1
  refine ⟨fun bn => ?_, hspot .indirect⟩
  unfold blockAt
  split_ifs
  · exact hspot _
  · exact hpos

/-- **`writei`** refuses, or has written its bytes and logged no more sectors than it needs. -/
theorem Logged.wp_writei {devsw : DevswWrite} {off n : Word} (hv : Volume D (update ino i ip))
    (hi : i < D.ninodes) (ht : ip.type ≠ 0) (hdev : ip.type ≠ T_DEV) :
    wp (Logged.writei devsw i ip src off n) (fun r s => r = (ip, none) ∧ s = ⟨D, []⟩ ∨
      off.toNat + n.toNat ≤ MAXFILE * BSIZE ∧ r.2 = some n ∧ off.toNat + n.toNat ≤ r.1.size.toNat ∧
        Volume s.disk (update ino i r.1) ∧ s.disk.ninodes = D.ninodes ∧ r.1.type = ip.type ∧
        s.logged.toFinset.card ≤ need D ip off.toNat n.toNat) Logged.Full ⟨D, []⟩ := by
  have hmax : MAXFILE * BSIZE < 2 ^ 32 := by decide
  unfold Logged.writei
  rw [if_neg hdev]
  split_ifs with hbad hbig
  · exact .inl ⟨rfl, rfl⟩
  · exact .inl ⟨rfl, rfl⟩
  have hadd : (off + n).toNat = off.toNat + n.toNat := by
    have hn := n.isLt
    have ho := off.isLt
    rw [BitVec.lt_def, BitVec.lt_def, BitVec.toNat_add] at hbad
    rw [BitVec.toNat_add]
    omega
  have hfit : off.toNat + n.toNat ≤ MAXFILE * BSIZE := by omega
  rw [wp_bind]
  have hplain : wp (Logged.writeiLoop src n.toNat n.toNat ip off.toNat 0) (fun r _ => r.2 = off.toNat + n.toNat)
      Logged.Full ⟨D, []⟩ := by
    refine ((Logged.erases_writeiLoop _ ip off.toNat 0).wp []
      (Disk.wp_writeiLoop hv hi ht hfit (Nat.le_refl _))).mono fun r s ⟨_, hcopy, _⟩ => ?_
    have hfill := File.copy_eq (view D ip) src off.toNat (Nat.zero_le n.toNat) (Nat.sub_le n.toNat 0)
    rw [show File.slice src 0 = [] from rfl, File.fill_nil, Nat.add_zero] at hfill
    exact congrArg Prod.snd (hcopy.trans hfill)
  refine ((Logged.wp_writeiLoop hv hi ht hfit).both hplain).mono fun r s ⟨⟨hkept, hfoot⟩, hend⟩ => ?_
  obtain ⟨ip', off'⟩ := r
  simp only at hkept hfoot hend ⊢
  subst hend
  have hsize : ip'.size.toNat = ip.size.toNat := by rw [hkept.size_eq]
  have hi' : i < s.disk.ninodes := by rwa [hkept.above.ninodes]
  have ht' : ip'.type ≠ 0 := by rwa [hkept.type_eq]
  obtain ⟨hblocks, hind⟩ := hkept.volume.blockAt_lt hi' ht'
  rw [hkept.above.nblocks] at hblocks hind
  have hfoot' : ∀ b ∈ s.logged, Foot D ip s.disk ip' off.toNat n.toNat b := fun b hb =>
    (hfoot b hb).resolve_left List.not_mem_nil
  split_ifs with hgrow
  · -- the inode goes to the disk
    rw [Logged.iupdate, wp_bind, wp_bind]
    refine wp_zoom.mpr ?_
    rw [Disk.iupdate, wp_bind, wp_get, wp_set]
    refine wp_bind.mp (Logged.wp_logWrite ?_)
    obtain ⟨hmarks, hheld, -⟩ := hkept.volume.putInode hi'
      { ip' with size := BitVec.ofNat 32 (off.toNat + n.toNat) }
    have hnat : (BitVec.ofNat 32 (off.toNat + n.toNat)).toNat = off.toNat + n.toNat := by
      rw [BitVec.toNat_ofNat, Nat.mod_eq_of_lt (by omega)]
    refine .inr ⟨hfit, rfl, hnat.ge, ?_, ?_, hkept.type_eq, card_le_need (IBLOCK i) hblocks hind fun b hb => ?_⟩
    · exact hkept.volume.same hmarks ((held_size _).trans hheld)
    · exact hmarks.ninodes.trans hkept.above.ninodes
    · rcases List.mem_append.mp hb with hb | hb
      · exact .inl (hfoot' b hb)
      · exact .inr ⟨by omega, List.mem_singleton.mp hb⟩
  · have hle : off.toNat + n.toNat ≤ ip'.size.toNat := by
      have hzero : (0 : Word).toNat = 0 := rfl
      rw [not_and_or, BitVec.lt_def] at hgrow
      rw [BitVec.lt_def, BitVec.lt_def] at hbad
      omega
    exact .inr ⟨hfit, rfl, hle, hkept.volume, hkept.above.ninodes, hkept.type_eq,
      card_le_need (IBLOCK i) hblocks hind fun b hb => .inl (hfoot' b hb)⟩

/-! ## A file is an array of bytes -/

namespace Logged

/-- `m` logs at most `k` sectors, and the log does not get full if it has room for them. -/
def Adds {α : Type} (k : ℕ) (m : Trans α) : Prop :=
  ∀ s, s.logged.length + k ≤ Mkfs.nlog - 1 → wp m (fun _ t => t.logged.length ≤ s.logged.length + k) (· ≠ .tooBig) s

theorem Adds.mono {α : Type} {m : Trans α} {k l : ℕ} (h : Adds k m) (hkl : k ≤ l) : Adds l m :=
  fun s hs => (h s (by omega)).mono fun _ _ ht => by omega

theorem Adds.bind {α β : Type} {m : Trans α} {f : α → Trans β} {k l : ℕ} (h : Adds k m) (hf : ∀ a, Adds l (f a)) :
    Adds (k + l) (m >>= f) := by
  intro s hs
  rw [wp_bind]
  exact (h s (by omega)).mono fun a t ht => (hf a t (by omega)).mono fun _ _ hu => by omega

theorem adds_pure {α : Type} (a : α) : Adds 0 (pure a) := fun s _ => Nat.le_refl s.logged.length

theorem adds_get {α : Type} {f : Logging → Trans α} {k : ℕ} (hf : ∀ s, Adds k (f s)) : Adds k (get >>= f) :=
  fun s hs => hf s s hs

theorem adds_logWrite (b : ℕ) : Adds 1 (logWrite b) := by
  intro s hs
  have hle := s.logged.dedup_sublist.length_le
  unfold logWrite
  rw [wp_bind, wp_get, if_neg (by simp only [Mkfs.nlog] at hs ⊢; omega), wp_set, List.length_append]
  exact Nat.le_refl _

theorem adds_onDisk {α : Type} {m : Kernel α} (h : ∀ D, wp m (fun _ _ => True) (· ≠ .tooBig) D) : Adds 0 (onDisk m) :=
  fun s _ => wp_zoom.mpr ((h s.disk).mono fun _ _ _ => Nat.le_refl s.logged.length)

theorem adds_set (D : Image) : Adds 0 (onDisk (set D)) := fun s _ => Nat.le_refl s.logged.length

theorem adds_newBlock : Adds 2 newBlock := by
  refine adds_get fun s => ((adds_onDisk fun D => ?_).bind fun _ =>
    (adds_logWrite _).bind fun _ => (adds_logWrite _).bind fun _ => adds_pure _).mono (by decide)
  unfold Disk.newBlock
  rw [wp_bind, wp_get]
  cases balloc D with
  | none => exact nofun
  | some r => trivial

theorem adds_bmapAddr (ip : Dinode) (k : Fin (NDIRECT + 1)) : Adds 2 (bmapAddr ip k) := by
  unfold bmapAddr
  split_ifs
  · exact adds_newBlock.bind fun _ => adds_pure _
  · exact (adds_pure _).mono (by decide)

theorem adds_bmap (ip : Dinode) (bn : ℕ) : Adds 5 (bmap ip bn) := by
  unfold bmap
  split_ifs
  · exact ((adds_bmapAddr _ _).bind fun _ => adds_pure _).mono (by decide)
  · refine ((adds_bmapAddr _ _).bind fun ip' => adds_get (k := 3) fun s => ?_).mono (by decide)
    simp only
    split_ifs
    · exact adds_newBlock.bind fun addr => adds_get fun s => (adds_set _).bind fun _ =>
        (adds_logWrite _).bind fun _ => adds_pure _
    · exact (adds_pure _).mono (by decide)
  · exact fun s _ => nofun

/-- How many blocks `left` bytes at `off` lie in. -/
def blocks (off left : ℕ) : ℕ := if left = 0 then 0 else (off % BSIZE + left + (BSIZE - 1)) / BSIZE

theorem adds_writeiLoop (n : ℕ) : ∀ (fuel : ℕ) (ip : Dinode) (off tot : ℕ),
    Adds (6 * blocks off (n - tot)) (writeiLoop src n fuel ip off tot)
  | 0, _, _, _ => (adds_pure _).mono (Nat.zero_le _)
  | fuel + 1, ip, off, tot => by
    unfold writeiLoop
    split_ifs with hlt
    · have hround : 5 + (0 + (1 + 6 * blocks (off + File.blockLen off (n - tot)) (n - (tot + File.blockLen off (n - tot))))) ≤
          6 * blocks off (n - tot) := by
        unfold blocks File.blockLen
        simp only [BSIZE]
        rcases le_total (n - tot) (512 - off % 512) with hle | hle
        · rw [min_eq_left hle]
          split_ifs <;> omega
        · rw [min_eq_right hle]
          split_ifs <;> omega
      exact ((adds_bmap _ _).bind fun r => adds_get fun s => (adds_set _).bind fun _ =>
        (adds_logWrite _).bind fun _ => adds_writeiLoop n fuel _ _ _).mono hround
    · exact (adds_pure _).mono (Nat.zero_le _)

/-- **A log with room**: six sectors for each block that the bytes lie in, and one. -/
theorem writei_room (devsw : DevswWrite) (ip : Dinode) (off n : Word)
    (h : log.length + (6 * blocks off.toNat n.toNat + 1) ≤ Mkfs.nlog - 1) :
    writei devsw i ip src off n ⟨D, log⟩ ≠ .error .tooBig := by
  have hadds : Adds (6 * blocks off.toNat n.toNat + 1) (writei devsw i ip src off n) := by
    unfold writei
    split_ifs
    · exact (adds_pure _).mono (Nat.zero_le _)
    · exact (adds_pure _).mono (Nat.zero_le _)
    · exact (adds_pure _).mono (Nat.zero_le _)
    · exact (adds_pure _).mono (Nat.zero_le _)
    · refine (adds_writeiLoop n.toNat n.toNat ip off.toNat 0).bind fun r => ?_
      simp only
      split_ifs
      · exact ((adds_onDisk (m := Disk.iupdate i _) fun _ => trivial).bind fun _ => adds_logWrite _).bind fun _ => adds_pure _
      · exact (adds_pure _).mono (Nat.zero_le _)
  exact fun he => (hadds ⟨D, log⟩ h).error he rfl

theorem writei_refuses {devsw : DevswWrite} {off n : Word} (hdev : ip.type ≠ T_DEV)
    (h : ¬ Fits ip.size off n) : writei devsw i ip src off n ⟨D, log⟩ = .ok ((ip, none), ⟨D, log⟩) := by
  rw [writei, if_neg hdev]
  by_cases hbad : ip.size < off ∨ off + n < off
  · rw [if_pos hbad]
    rfl
  · rw [if_neg hbad, if_pos ((refused_of_not_fits h).resolve_left hbad)]
    rfl

end Logged

/-- **A file is an array of bytes.** On a disk in use, for an inode that is not a device and whose blocks below its size
are there, and for all `off` and `n`: if `balloc` finds blocks and `log_write` has room, `writei` returns `n` when the
bytes fit and has put them at the offset, and otherwise returns -1 and changes nothing; the other files stay; and `readi`
returns the bytes of the content from `off` on, or -1 when `off` lies behind the end or `off + n` wraps. -/
theorem file_is_byte_array (devsw : Devsw) (devswWrite : DevswWrite) (hv : Volume D D.inode) (hi : i < D.ninodes)
    (ht : (D.inode i).type ≠ 0) (hdev : (D.inode i).type ≠ T_DEV)
    (hthere : ∀ m < (D.inode i).size.toNat, There D (D.inode i) m) (src : ℕ → Byte) (off n : Word) (log : List ℕ)
    (hballoc : Logged.writei devswWrite i (D.inode i) src off n ⟨D, log⟩ ≠ .error .outOfBlocks)
    (hroom : Logged.writei devswWrite i (D.inode i) src off n ⟨D, log⟩ ≠ .error .tooBig) :
    (∃ r s, Logged.writei devswWrite i (D.inode i) src off n ⟨D, log⟩ = .ok ((s.disk.inode i, r), s) ∧
      (if Fits (D.inode i).size off n then
        r = some n ∧ (s.disk.inode i).size.toNat = max (D.inode i).size.toNat (off.toNat + n.toNat) ∧
          s.disk.content i = (D.content i).take off.toNat ++ File.slice src n.toNat ++
            (D.content i).drop (off.toNat + n.toNat) ∧
          Volume s.disk s.disk.inode ∧ ∀ m < (s.disk.inode i).size.toNat, There s.disk (s.disk.inode i) m
      else r = none ∧ s = ⟨D, log⟩) ∧
      ∀ j < D.ninodes, j ≠ i → (D.inode j).type ≠ 0 →
        s.disk.inode j = D.inode j ∧ s.disk.content j = D.content j) ∧
    ∃ r, readi devsw (D.inode i) off n D = .ok ((D.inode i, r), D) ∧
      if (D.inode i).size.toNat < off.toNat ∨ 2 ^ 32 ≤ off.toNat + n.toNat then r = none
      else ∃ bytes, r = some bytes ∧ bytes.length = min n.toNat ((D.inode i).size.toNat - off.toNat) ∧
        bytes = ((D.content i).drop off.toNat).take n.toNat := by
  refine ⟨?_, readi_content devsw hdev hthere off n⟩
  by_cases hfit : Fits (D.inode i).size off n
  · have hplain := (Logged.erases_writei devswWrite i (D.inode i) src off n).wp log
      (Disk.wp_writei hv hi ht hdev hthere hfit.1 hfit.2.2)
    obtain ⟨r, s, hrun, rfl, hw⟩ := hplain.returns_of_ne fun e he => by
      rcases he with rfl | rfl
      · exact hballoc
      · exact hroom
    obtain ⟨hsize, hcontent⟩ := hw.content hfit
    refine ⟨_, s, hrun, ?_, fun j hj hne htj => ⟨hw.inodes j hj hne, ?_⟩⟩
    · rw [if_pos hfit]
      exact ⟨rfl, hsize, hcontent, hw.volume, hw.there⟩
    · rw [Image.content, hw.others j hj hne htj]
      rfl
  · refine ⟨none, ⟨D, log⟩, Logged.writei_refuses hdev hfit, ?_, fun j _ _ _ => ⟨rfl, rfl⟩⟩
    rw [if_neg hfit]
    exact ⟨rfl, rfl⟩

/-- Three bytes are written to the empty file, in a new block. -/
theorem file_is_byte_array_three : ∃ s, Logged.writei (fun _ => none) 1 ((emptyFile T_FILE).inode 1)
    (fun j => BitVec.ofNat 8 (j + 1)) 0 3 ⟨emptyFile T_FILE, []⟩ = .ok ((s.disk.inode 1, some 3), s) ∧
      s.disk.content 1 = [1, 2, 3] := by
  have hsize : ((emptyFile T_FILE).inode 1).size.toNat = 0 := by rw [emptyFile_one]; rfl
  have hroom : Logged.writei (fun _ => none) 1 ((emptyFile T_FILE).inode 1) (fun j => BitVec.ofNat 8 (j + 1)) 0 3
      ⟨emptyFile T_FILE, []⟩ ≠ .error .tooBig := Logged.writei_room _ _ _ _ (by decide)
  have hballoc : Logged.writei (fun _ => none) 1 ((emptyFile T_FILE).inode 1) (fun j => BitVec.ofNat 8 (j + 1)) 0 3
      ⟨emptyFile T_FILE, []⟩ ≠ .error .outOfBlocks := fun he =>
    (Erases.wp (Logged.erases_writei (fun _ => none) 1 _ _ 0 3) (t := ⟨emptyFile T_FILE, []⟩) (by rintro _ rfl; nofun)
      (emptyFile_goes _ (by decide) (by decide) (by decide))).error he rfl
  obtain ⟨⟨r, s, hrun, hwrote, -⟩, -⟩ := file_is_byte_array (D := emptyFile T_FILE) (i := 1) (fun _ => none) (fun _ => none)
    emptyFile_volume (by rw [emptyFile_ninodes]; decide) (by rw [emptyFile_one]; decide) (by rw [emptyFile_one]; decide)
    (fun m hm => by omega) (fun j => BitVec.ofNat 8 (j + 1)) 0 3 [] hballoc hroom
  rw [if_pos (by unfold Fits; rw [hsize]; decide)] at hwrote
  obtain ⟨rfl, -, hcontent, -⟩ := hwrote
  have hnil : (emptyFile T_FILE).content 1 = [] := List.eq_nil_of_length_eq_zero (by rw [length_content, hsize])
  rw [hnil, List.take_nil, List.drop_nil, List.nil_append, List.append_nil] at hcontent
  exact ⟨s, hrun, hcontent⟩

/-! ## `filewrite` -/

/-- The largest chunk of `filewrite`. -/
def maxChunk : ℕ := ((LOGSIZE - 1 - 1 - 2) / 2) * 512

/-- A process in the loop of `filewrite`: the disk and the inode of the file, `f->off`, the bytes written, whether the
loop was left because `writei` failed, and the sectors that the last chunk has logged. -/
structure Writer where
  disk : Image
  ip : Dinode
  off : Word
  done : ℕ
  failed : Bool
  logged : List ℕ

/-- The steps: other processes change the disk, the file and the offset between two transactions, or the next chunk is
written, from `begin_op` to `end_op`. -/
inductive Move
  | others (disk : Image) (ip : Dinode) (off : Word)
  | chunk

namespace Writer

variable {n : ℕ} {w w' : Writer}

/-- `n1`. -/
def chunkSize (n : ℕ) (w : Writer) : ℕ := min (n - w.done) maxChunk

/-- One round of the loop, for the file with the inode number `i`. -/
def chunk (devsw : DevswWrite) (i : ℕ) (src : ℕ → Byte) (n : ℕ) (w : Writer) : Option Writer :=
  if w.failed ∨ n ≤ w.done then none
  else
    match Logged.writei devsw i w.ip (fun j => src (w.done + j)) w.off (BitVec.ofNat 32 (w.chunkSize n)) ⟨w.disk, []⟩ with
    | .error _ => none
    | .ok ((ip, none), s) => some { w with disk := s.disk, ip := ip, failed := true, logged := s.logged }
    | .ok ((ip, some r), s) =>
      -- otherwise `panic("short filewrite")`
      if r.toNat = w.chunkSize n then some ⟨s.disk, ip, w.off + r, w.done + r.toNat, false, s.logged⟩ else none

def step (devsw : DevswWrite) (i : ℕ) (src : ℕ → Byte) (n : ℕ) (w : Writer) : Move → Option Writer
  | .others disk ip off => some { w with disk := disk, ip := ip, off := off }
  | .chunk => w.chunk devsw i src n

/-- A regular file on a disk in use, and an offset that is not behind its end. -/
def Proper (i : ℕ) (w : Writer) : Prop :=
  (∃ ino, Volume w.disk (update ino i w.ip)) ∧ i < w.disk.ninodes ∧ w.ip.type = T_FILE ∧
    w.off.toNat ≤ w.ip.size.toNat

/-- **The condition**: a chunk that the file has room for needs no more sectors than are reserved. Other processes keep
the file a regular file on a disk in use. -/
def Reserved (i n : ℕ) (w : Writer) : Move → Prop
  | .others disk ip off => Proper i { w with disk := disk, ip := ip, off := off }
  | .chunk => w.off.toNat + w.chunkSize n ≤ MAXFILE * BSIZE →
      need w.disk w.ip w.off.toNat (w.chunkSize n) ≤ MAXOPBLOCKS

theorem chunkSize_toNat : (BitVec.ofNat 32 (w.chunkSize n)).toNat = w.chunkSize n := by
  have hle : w.chunkSize n ≤ maxChunk := Nat.min_le_right _ _
  have hmax : maxChunk < 2 ^ 32 := by decide
  rw [BitVec.toNat_ofNat, Nat.mod_eq_of_lt (by omega)]

theorem chunk_logged {devsw : DevswWrite} (hw : Proper i w) (h : w.chunk devsw i src n = some w') :
    Proper i w' ∧ (w'.logged = [] ∨ w.off.toNat + w.chunkSize n ≤ MAXFILE * BSIZE ∧
      w'.logged.toFinset.card ≤ need w.disk w.ip w.off.toNat (w.chunkSize n)) := by
  obtain ⟨⟨ino, hv⟩, hi, htype, hoff⟩ := hw
  have ht : w.ip.type ≠ 0 := by rw [htype]; decide
  have hdev : w.ip.type ≠ T_DEV := by rw [htype]; decide
  unfold chunk at h
  split_ifs at h
  split at h
  · cases h
  · -- `writei` has refused
    rename_i ip s hrun
    obtain rfl := Option.some_inj.mp h
    rcases (Logged.wp_writei hv hi ht hdev).ok hrun with ⟨hr, rfl⟩ | ⟨_, hr, _⟩
    · obtain rfl : ip = w.ip := congrArg Prod.fst hr
      exact ⟨⟨⟨ino, hv⟩, hi, htype, hoff⟩, .inl rfl⟩
    · cases hr
  · rename_i ip r s hrun
    split_ifs at h with hr'
    obtain rfl := Option.some_inj.mp h
    rcases (Logged.wp_writei hv hi ht hdev).ok hrun with ⟨hr, _⟩ | ⟨hfit, hr, hsize, hvol, hn, hty, hcard⟩
    · cases hr
    · obtain rfl := Option.some_inj.mp hr
      rw [chunkSize_toNat] at hfit hsize hcard
      refine ⟨⟨⟨ino, hvol⟩, by rwa [hn], hty.trans htype, ?_⟩, .inr ⟨hfit, hcard⟩⟩
      have hmax : MAXFILE * BSIZE < 2 ^ 32 := by decide
      show (w.off + BitVec.ofNat 32 (w.chunkSize n)).toNat ≤ ip.size.toNat
      rw [BitVec.toNat_add, chunkSize_toNat, Nat.mod_eq_of_lt (by omega)]
      exact hsize

end Writer

/-- **Each transaction of `filewrite` fits** into what `begin_op` has reserved, in every run of its loop on a regular
file, whatever other processes do in between, in which each chunk that is written needs at most `MAXOPBLOCKS` sectors. -/
theorem write_transaction_fits (devsw : DevswWrite) (i : ℕ) (src : ℕ → Byte) (n : ℕ) {w w' : Writer}
    {tr : List (Writer × Move)} (hw : w.Proper i) (hlog : w.logged = [])
    (h : Path (Writer.step devsw i src n) (Writer.Reserved i n) w tr w') : w'.logged.toFinset.card ≤ MAXOPBLOCKS := by
  have hinv : w'.Proper i ∧ w'.logged.toFinset.card ≤ MAXOPBLOCKS :=
    h.inv (I := fun w => w.Proper i ∧ w.logged.toFinset.card ≤ MAXOPBLOCKS) ⟨hw, by rw [hlog]; simp⟩ <| by
      rintro w move w' ⟨hw, hcard⟩ hok hstep
      cases move with
      | others disk ip off =>
        obtain rfl := Option.some_inj.mp hstep
        exact ⟨hok, hcard⟩
      | chunk =>
        obtain ⟨hw', hempty | ⟨hfit, hle⟩⟩ := Writer.chunk_logged hw hstep
        · exact ⟨hw', by rw [hempty]; simp⟩
        · exact ⟨hw', hle.trans (hok hfit)⟩
  exact hinv.2

/-! ## A file of eleven blocks -/

/-- A disk of 64 blocks, all of them in use, and two inodes. -/
def smallDisk : Image := fun b =>
  if b = 1 then Superblock.bytes ⟨64, 60, 2, 0⟩ else if b = 3 then fun _ => 255 else fun _ => 0

/-- The inode of a file of eleven blocks, from block 10 on. -/
def elevenBlocks : Dinode :=
  ⟨T_FILE, 0, 0, 1, 5632, fun k => if k.val < 11 then BitVec.ofNat 32 (10 + k.val) else 0⟩

/-- A process that is about to write to the beginning of the file. -/
def overwriting : Writer := ⟨smallDisk, elevenBlocks, 0, 0, false, []⟩

theorem smallDisk_super : readsb smallDisk = ⟨64, 60, 2, 0⟩ := Superblock.read_eq fun _ _ => rfl

theorem smallDisk_bit {b : ℕ} (hb : b < 64) : smallDisk.bit 2 b = true := by
  have hblock : BBLOCK b 2 = 3 := by simp only [BBLOCK, BPB, IPB, BSIZE]; omega
  rw [Image.bit, hblock]
  have hbyte : ∀ k < 8, (255 : BitVec 8).getLsbD k = true := by decide
  exact hbyte _ (Nat.mod_lt _ (by decide))

theorem smallDisk_sizes : smallDisk.ninodes = 2 ∧ smallDisk.nblocks = 64 ∧ smallDisk.start = 4 := by
  have hn : smallDisk.ninodes = 2 := by rw [Image.ninodes, smallDisk_super]; rfl
  have hb : smallDisk.nblocks = 64 := by rw [Image.nblocks, smallDisk_super]; rfl
  exact ⟨hn, hb, by rw [Image.start, hn, hb]; rfl⟩

theorem elevenBlocks_held {q : ℕ × Place}
    (h0 : held smallDisk (update (fun _ => Dinode.zero) 1 elevenBlocks) q ≠ 0) :
    ∃ k : Fin (NDIRECT + 1), k.val < 11 ∧ q = (1, .addr k) ∧
      held smallDisk (update (fun _ => Dinode.zero) 1 elevenBlocks) q = 10 + k.val := by
  obtain ⟨j, p⟩ := q
  by_cases hj : j = 1
  · subst hj
    rw [held_update (by rw [smallDisk_sizes.1]; decide) (by decide)] at h0 ⊢
    cases p with
    | addr k =>
      have hspot : spot smallDisk.word elevenBlocks.addrs (.addr k) = if k.val < 11 then 10 + k.val else 0 := by
        have hk := k.isLt
        simp only [spot, elevenBlocks]
        split_ifs
        · rw [BitVec.toNat_ofNat]
          omega
        · rfl
      rw [hspot] at h0 ⊢
      split_ifs at h0 ⊢ with hk
      · exact ⟨k, hk, rfl, rfl⟩
      · exact absurd rfl h0
    | entry k =>
      rw [spot, if_pos (by decide)] at h0
      exact absurd rfl h0
  · refine absurd ?_ h0
    rw [held, places, live_update_ne hj, live, if_neg fun h => h.2 rfl]
    cases p <;> rfl

theorem smallDisk_volume : Volume smallDisk (update (fun _ => Dinode.zero) 1 elevenBlocks) := by
  obtain ⟨hn, hb, hs⟩ := smallDisk_sizes
  refine ⟨fun p q h0 heq => ?_, fun q h0 => ?_, fun b hlt => ?_, by omega⟩
  · obtain ⟨k, -, rfl, hp⟩ := elevenBlocks_held h0
    obtain ⟨l, -, rfl, hq⟩ := elevenBlocks_held (heq ▸ h0)
    have hkl : k = l := Fin.ext (by omega)
    rw [hkl]
  · obtain ⟨k, hk, rfl, hq⟩ := elevenBlocks_held h0
    rw [hq, hs, hb, hn]
    exact ⟨by omega, by omega, smallDisk_bit (by omega)⟩
  · rw [hn]
    exact smallDisk_bit (by omega)

theorem proper_overwriting : overwriting.Proper 1 := by
  refine ⟨⟨_, smallDisk_volume⟩, ?_, rfl, Nat.zero_le _⟩
  show 1 < smallDisk.ninodes
  rw [smallDisk_sizes.1]
  decide

/-- A write of one block. -/
theorem write_transaction_fits_one : ∃ w', overwriting.step (fun _ => none) 1 (fun _ => 7) 512 .chunk = some w' ∧
    w'.logged = [10] ∧ w'.logged.toFinset.card ≤ MAXOPBLOCKS := by
  have hsome : ((overwriting.step (fun _ => none) 1 (fun _ => 7) 512 .chunk).map Writer.logged) = some [10] := by
    decide +kernel
  obtain ⟨w', hstep, hlog⟩ := Option.map_eq_some_iff.mp hsome
  have hneed : need smallDisk elevenBlocks 0 512 ≤ MAXOPBLOCKS := by decide +kernel
  have hok : overwriting.Reserved 1 512 .chunk := fun _ => hneed
  have hpath : Path (Writer.step (fun _ => none) 1 (fun _ => 7) 512) (Writer.Reserved 1 512) overwriting
      [(overwriting, .chunk)] w' := .snoc .nil hok hstep
  exact ⟨w', hstep, hlog, write_transaction_fits _ 1 _ 512 proper_overwriting rfl hpath⟩

/-- **A chunk of `filewrite` can need more than was reserved**: `write` of eleven blocks to a file that has them is one
transaction, and logs eleven sectors. -/
theorem write_transaction_too_large : overwriting.Proper 1 ∧
    ∃ w', overwriting.step (fun _ => none) 1 (fun _ => 7) 5632 .chunk = some w' ∧
      MAXOPBLOCKS < w'.logged.toFinset.card := by
  have hsome : ((overwriting.step (fun _ => none) 1 (fun _ => 7) 5632 .chunk).map fun w => w.logged.toFinset.card) =
      some 11 := by decide +kernel
  obtain ⟨w', hstep, hcard⟩ := Option.map_eq_some_iff.mp hsome
  exact ⟨proper_overwriting, w', hstep, by rw [hcard]; decide⟩

def isTooBig {α : Type} : Except Panic α → Bool
  | .error .tooBig => true
  | _ => false

theorem eq_tooBig {α : Type} {r : Except Panic α} (h : isTooBig r = true) : r = .error .tooBig := by
  unfold isTooBig at h
  split at h
  · rfl
  · cases h

/-- **`writei` does not return when the log is full**: other operations have logged nineteen sectors, and the eleven blocks
of a file that has them are written. The last of them is the thirtieth sector. -/
theorem writei_too_big : (∃ ino, Volume smallDisk (update ino 1 elevenBlocks)) ∧
    (∀ m < elevenBlocks.size.toNat, There smallDisk elevenBlocks m) ∧ Fits elevenBlocks.size 0 5632 ∧
    Logged.writei (fun _ => none) 1 elevenBlocks (fun _ => 7) 0 5632 ⟨smallDisk, List.range' 40 19⟩ =
      .error .tooBig := by
  refine ⟨⟨_, smallDisk_volume⟩, fun m hm => ?_, by decide, ?_⟩
  · have hblocks : ∀ bn < 11, ∃ h : bn < MAXFILE, spot smallDisk.word elevenBlocks.addrs (.ofBlock bn h) ≠ 0 := by
      decide +kernel
    exact hblocks (m / BSIZE) (Nat.div_lt_of_lt_mul hm)
  · exact eq_tooBig (by decide +kernel)

end Xv6.Disk
