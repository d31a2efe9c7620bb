import Xv6.Disk.Readi

/-!
# A disk in use

`Volume D ino`: a block of a file is in one place, it lies behind the super block, the inodes and the bitmap, and its
bit is set, as are the bits of the blocks before it. `ino` are the inodes as the kernel has them; the copy in memory may
be ahead of the disk.
-/

namespace Xv6.Disk

open Lib
open Function (update update_of_ne update_self)

def Image.ninodes (D : Image) : ℕ := (readsb D).ninodes.toNat

def Image.nblocks (D : Image) : ℕ := (readsb D).size.toNat

/-- The first block behind the bitmap. -/
def Image.start (D : Image) : ℕ := (D.nblocks + (BPB - 1)) / BPB + D.ninodes / IPB + 3

/-- The addresses in the inodes in use. -/
def live (n : ℕ) (ino : ℕ → Dinode) (j : ℕ) : Fin (NDIRECT + 1) → Word :=
  if j < n ∧ (ino j).type ≠ 0 then (ino j).addrs else fun _ => 0

/-- The block in each place of each inode in use. -/
def held (D : Image) (ino : ℕ → Dinode) : ℕ × Place → ℕ := places D.word (live D.ninodes ino)

/-- **A disk in use**. -/
structure Volume (D : Image) (ino : ℕ → Dinode) : Prop where
  one : ∀ p q, held D ino p ≠ 0 → held D ino p = held D ino q → p = q
  used : ∀ q, held D ino q ≠ 0 →
    D.start ≤ held D ino q ∧ held D ino q < D.nblocks ∧ D.bit D.ninodes (held D ino q) = true
  guarded : ∀ b < D.start, D.bit D.ninodes b = true
  fits : D.start ≤ D.nblocks

/-- The super block stays, and bits that are set stay set. -/
structure Marks (D D' : Image) : Prop where
  super : D' 1 = D 1
  bits : ∀ c < D.nblocks, D.bit D.ninodes c = true → D'.bit D.ninodes c = true

/-- The inodes on the disk stay too. -/
structure Above (D D' : Image) : Prop extends Marks D D' where
  table : ∀ j < D.ninodes, D' (IBLOCK j) = D (IBLOCK j)

variable {D D' D'' : Image} {ino ino' : ℕ → Dinode} {i j : ℕ} {ip ip' : Dinode}

/-- The bitmap lies in front of the data. -/
theorem bitmap_lt_start {c : ℕ} (h : c < D.nblocks) : BBLOCK c D.ninodes < D.start := by
  simp only [BBLOCK, Image.start, BPB, IPB, BSIZE]
  omega

/-- The inodes lie in front of the bitmap. -/
theorem table_lt_bitmap (hj : j < D.ninodes) (c : ℕ) : IBLOCK j < BBLOCK c D.ninodes := by
  simp only [IBLOCK, BBLOCK, BPB, IPB, BSIZE]
  omega

theorem table_lt_start (hj : j < D.ninodes) : IBLOCK j < D.start := by
  simp only [IBLOCK, Image.start, IPB, BPB, BSIZE]
  omega

theorem one_lt_start : 1 < D.start := Nat.succ_lt_succ (Nat.succ_pos _)

namespace Marks

theorem readsb_eq (h : Marks D D') : readsb D' = readsb D := by rw [readsb, readsb, h.super]

theorem ninodes (h : Marks D D') : D'.ninodes = D.ninodes := by rw [Image.ninodes, Image.ninodes, h.readsb_eq]

theorem nblocks (h : Marks D D') : D'.nblocks = D.nblocks := by rw [Image.nblocks, Image.nblocks, h.readsb_eq]

theorem start (h : Marks D D') : D'.start = D.start := by rw [Image.start, Image.start, h.ninodes, h.nblocks]

theorem trans (h : Marks D D') (h' : Marks D' D'') : Marks D D'' where
  super := h'.super.trans h.super
  bits c hc hb := by
    have := h'.bits c (by rwa [h.nblocks])
    rw [h.ninodes] at this
    exact this (h.bits c hc hb)

end Marks

namespace Above

theorem refl : Above D D := ⟨⟨rfl, fun _ _ h => h⟩, fun _ _ => rfl⟩

theorem inode (h : Above D D') (hj : j < D.ninodes) : D'.inode j = D.inode j := by
  rw [Image.inode, Image.inode, h.table j hj]

theorem trans (h : Above D D') (h' : Above D' D'') : Above D D'' where
  toMarks := h.toMarks.trans h'.toMarks
  table j hj := (h'.table j (by rwa [h.ninodes])).trans (h.table j hj)

/-- A data block can be written. -/
theorem write {b : ℕ} {s : Sector} (hb : D.start ≤ b) : Above D (update D b s) where
  super := update_of_ne (Nat.ne_of_lt (Nat.lt_of_lt_of_le one_lt_start hb)) ..
  bits c hc h := by
    have := bitmap_lt_start hc
    rwa [bit_congr (update_of_ne (by omega) ..)]
  table j hj := update_of_ne (Nat.ne_of_lt (Nat.lt_of_lt_of_le (table_lt_start hj) hb)) ..

end Above

/-! ## The blocks of one inode -/

theorem live_update (hi : i < D.ninodes) (ht : ip.type ≠ 0) : live D.ninodes (update ino i ip) i = ip.addrs := by
  rw [live, update_self, if_pos ⟨hi, ht⟩]

theorem live_update_ne {n : ℕ} (hj : j ≠ i) : live n (update ino i ip) j = live n ino j := by
  rw [live, live, update_of_ne hj]

theorem held_update (hi : i < D.ninodes) (ht : ip.type ≠ 0) (p : Place) :
    held D (update ino i ip) (i, p) = spot D.word ip.addrs p := by
  rw [held, places, live_update hi ht]

theorem held_of_live (hj : j < D.ninodes) (ht : (ino j).type ≠ 0) (p : Place) :
    held D ino (j, p) = spot D.word (ino j).addrs p := by
  rw [held, places, live, if_pos ⟨hj, ht⟩]

theorem live_setAddr {n : ℕ} (hi : i < n) (ht : ip.type ≠ 0) (k : Fin (NDIRECT + 1)) (w : Word) :
    live n (update ino i { ip with addrs := update ip.addrs k w }) =
      setAddr (live n (update ino i ip)) i k w := by
  funext j
  rw [setAddr]
  by_cases hj : j = i
  · subst hj
    rw [update_self, live, live, update_self, update_self, if_pos ⟨hi, ht⟩, if_pos ⟨hi, ht⟩]
  · rw [update_of_ne hj, live_update_ne hj, live_update_ne hj]

/-- The places are the same if the indirect blocks are. -/
theorem held_congr (hn : D'.ninodes = D.ninodes) (h : ∀ j, held D ino (j, .indirect) ≠ 0 →
    D' (held D ino (j, .indirect)) = D (held D ino (j, .indirect))) : held D' ino = held D ino := by
  rw [held, held, hn]
  refine places_congr fun j h0 k => ?_
  have hne : held D ino (j, .indirect) ≠ 0 := fun he => h0 (BitVec.eq_of_toNat_eq he)
  have hsame := h j hne
  rw [Image.word, Image.word]
  exact congrArg (word32 · _) hsame

/-- The content of a file is in its blocks. -/
theorem view_congr (hsize : ip'.size = ip.size) (hspot : ∀ (bn : ℕ) (h : bn < MAXFILE) (x : ℕ),
    (if spot D'.word ip'.addrs (.ofBlock bn h) = 0 then 0 else D' (spot D'.word ip'.addrs (.ofBlock bn h)) x) =
      if spot D.word ip.addrs (.ofBlock bn h) = 0 then 0 else D (spot D.word ip.addrs (.ofBlock bn h)) x) :
    view D' ip' = view D ip := by
  refine File.Inode.ext (fun bn x => ?_) ?_
  · simp only [view]
    by_cases hbn : bn < MAXFILE
    · rw [dif_pos hbn, dif_pos hbn]
      exact hspot bn hbn x
    · rw [dif_neg hbn, dif_neg hbn]
  · rw [view, view, hsize]

/-! ## The volume -/

namespace Volume

theorem one_of_update (hv : Volume D (update ino i ip)) (hi : i < D.ninodes) (ht : ip.type ≠ 0) {p : Place}
    {q : ℕ × Place} (h0 : spot D.word ip.addrs p ≠ 0) (hq : q ≠ (i, p)) :
    held D (update ino i ip) q ≠ spot D.word ip.addrs p := by
  rw [← held_update hi ht] at h0 ⊢
  exact fun he => hq (hv.one _ _ h0 he.symm).symm

theorem start_le (hv : Volume D (update ino i ip)) (hi : i < D.ninodes) (ht : ip.type ≠ 0) {p : Place}
    (h0 : spot D.word ip.addrs p ≠ 0) : D.start ≤ spot D.word ip.addrs p := by
  rw [← held_update hi ht] at h0 ⊢
  exact (hv.used _ h0).1

/-- More bits may be set. -/
theorem same (hv : Volume D ino) (ha : Marks D D') (hheld : held D' ino' = held D ino) : Volume D' ino' where
  one p q := by
    rw [hheld]
    exact hv.one p q
  used q h0 := by
    rw [hheld] at h0 ⊢
    obtain ⟨hlow, hhigh, hbit⟩ := hv.used q h0
    rw [ha.start, ha.nblocks, ha.ninodes]
    exact ⟨hlow, hhigh, ha.bits _ hhigh hbit⟩
  guarded b hb := by
    rw [ha.start] at hb
    rw [ha.ninodes]
    exact ha.bits b (Nat.lt_of_lt_of_le hb hv.fits) (hv.guarded b hb)
  fits := by
    rw [ha.start, ha.nblocks]
    exact hv.fits

/-- **A new block** in one place. -/
theorem take (hv : Volume D ino) (ha : Marks D D') {q : ℕ × Place} {b : ℕ} (hlow : D.start ≤ b) (hhigh : b < D.nblocks)
    (hbit : D'.bit D.ninodes b = true) (hfree : ∀ p, held D ino p ≠ b) (hq : held D ino q = 0)
    (hheld : held D' ino' = update (held D ino) q b) : Volume D' ino' where
  one p r := by
    have hb0 : b ≠ 0 := Nat.ne_of_gt (Nat.zero_lt_of_lt (Nat.lt_of_lt_of_le one_lt_start hlow))
    have hown : Owns (held D ino) {c | c ≠ 0 ∧ ∃ p, held D ino p = c} := ⟨hv.one, fun _ => Iff.rfl⟩
    rw [hheld]
    exact (hown.take hq hb0 fun ⟨_, p, hp⟩ => hfree p hp).inj p r
  used r h0 := by
    rw [ha.start, ha.nblocks, ha.ninodes]
    rw [hheld] at h0 ⊢
    by_cases hr : r = q
    · rw [hr, update_self]
      exact ⟨hlow, hhigh, hbit⟩
    · rw [update_of_ne hr] at h0 ⊢
      obtain ⟨hlow', hhigh', hbit'⟩ := hv.used r h0
      exact ⟨hlow', hhigh', ha.bits _ hhigh' hbit'⟩
  guarded b hb := by
    rw [ha.start] at hb
    rw [ha.ninodes]
    exact ha.bits b (Nat.lt_of_lt_of_le hb hv.fits) (hv.guarded b hb)
  fits := by
    rw [ha.start, ha.nblocks]
    exact hv.fits

end Volume

/-! ## `balloc` -/

/-- A new block `b`, all of zeros. -/
structure Fresh (D D' : Image) (ino : ℕ → Dinode) (b : ℕ) : Prop where
  above : Above D D'
  low : D.start ≤ b
  high : b < D.nblocks
  bit : D'.bit D.ninodes b = true
  free : ∀ q, held D ino q ≠ b
  zero : D' b = fun _ => 0
  rest : ∀ x, D.start ≤ x → x ≠ b → D' x = D x

theorem Fresh.ne_zero {w : Word} (h : Fresh D D' ino w.toNat) : w ≠ 0 := by
  rintro rfl
  exact absurd h.low (Nat.not_le_of_gt (Nat.zero_lt_of_lt one_lt_start))

/-- A new block is in no place yet. -/
theorem Fresh.keeps (h : Fresh D D' ino i) (hv : Volume D ino) {q : ℕ × Place} (h0 : held D ino q ≠ 0) :
    D' (held D ino q) = D (held D ino q) := h.rest _ (hv.used q h0).1 (h.free q)

theorem Fresh.held_eq (h : Fresh D D' ino i) (hv : Volume D ino) : held D' ino = held D ino :=
  held_congr h.above.ninodes fun _ h0 => h.keeps hv h0

/-- **`balloc`** returns a block that nobody has. -/
theorem Volume.balloc {b : ℕ} (hv : Volume D ino) (h : balloc D = some (b, D')) : Fresh D D' ino b := by
  obtain ⟨hscan, rfl⟩ := balloc_some h
  obtain ⟨hhigh, hclear, -⟩ := scan_some hscan
  have hlow : D.start ≤ b := by
    by_contra hlt
    rw [show D.bit (readsb D).ninodes.toNat b = true from hv.guarded b (by omega)] at hclear
    cases hclear
  have hother : ∀ x, x ≠ b → x ≠ BBLOCK b D.ninodes → bzero (D.mark D.ninodes b) b x = D x := by
    intro x hx hbitmap
    rw [bzero, update_of_ne hx]
    exact change_other hbitmap
  have hbitmap : BBLOCK b D.ninodes < D.start := bitmap_lt_start hhigh
  have hbits : ∀ c < D.nblocks, (bzero (D.mark D.ninodes b) b).bit D.ninodes c =
      (D.bit D.ninodes c || decide (c = b)) := by
    intro c hc
    have := bitmap_lt_start hc
    rw [← bit_mark]
    exact bit_congr (update_of_ne (by omega) ..)
  refine ⟨⟨⟨?_, fun c hc hbit => ?_⟩, fun j hj => ?_⟩, hlow, hhigh, ?_, fun q hq => ?_, ?_, fun x hx hxb => ?_⟩
  · have hone : 1 < D.start := one_lt_start
    exact hother 1 (by omega) (Nat.ne_of_lt (Nat.succ_lt_succ (Nat.succ_pos _)))
  · exact (hbits c hc).trans (by rw [hbit, Bool.true_or])
  · have := table_lt_start hj
    exact hother _ (by omega) (Nat.ne_of_lt (table_lt_bitmap hj b))
  · exact (hbits b hhigh).trans (by simp)
  · have hused := (hv.used q (by rw [hq]; exact Nat.ne_of_gt (Nat.zero_lt_of_lt (Nat.lt_of_lt_of_le one_lt_start hlow)))).2.2
    rw [hq, show D.bit D.ninodes b = false from hclear] at hused
    cases hused
  · exact update_self ..
  · exact hother x hxb (by omega)

/-- **`balloc`** and `bzero` find a block that nobody has. -/
theorem Volume.wp_newBlock (hv : Volume D ino) {Q : Word → Image → Prop}
    (hQ : ∀ (w : Word) (D' : Image), Fresh D D' ino w.toNat → Q w D') : wp newBlock Q (· = .outOfBlocks) D := by
  unfold newBlock
  rw [wp_bind, wp_get]
  cases hb : Disk.balloc D with
  | none => exact rfl
  | some r =>
    obtain ⟨b, D'⟩ := r
    have hfresh := hv.balloc hb
    have hlt : b < 2 ^ 32 := Nat.lt_trans hfresh.high (readsb D).size.isLt
    simp only
    rw [wp_bind, wp_set, wp_pure]
    refine hQ _ _ ?_
    rwa [BitVec.toNat_ofNat, Nat.mod_eq_of_lt hlt]

/-! ## What stays when one file is changed -/

/-- Inode `i` gets blocks and its blocks are written; the other files stay. -/
structure Kept (ino : ℕ → Dinode) (i : ℕ) (D : Image) (ip : Dinode) (D' : Image) (ip' : Dinode) : Prop where
  volume : Volume D' (update ino i ip')
  above : Above D D'
  rest : ip' = { ip with addrs := ip'.addrs }
  others : ∀ j < D.ninodes, j ≠ i → (ino j).type ≠ 0 → view D' (ino j) = view D (ino j)
  keep : ∀ p, spot D.word ip.addrs p ≠ 0 → spot D'.word ip'.addrs p = spot D.word ip.addrs p

namespace Kept

theorem refl (hv : Volume D (update ino i ip)) : Kept ino i D ip D ip :=
  ⟨hv, .refl, rfl, fun _ _ _ _ => rfl, fun _ _ => rfl⟩

theorem trans {ip'' : Dinode} (h : Kept ino i D ip D' ip') (h' : Kept ino i D' ip' D'' ip'') : Kept ino i D ip D'' ip'' where
  volume := h'.volume
  above := h.above.trans h'.above
  rest := by rw [h'.rest, h.rest]
  others j hj hne ht := (h'.others j (by rwa [h.above.ninodes]) hne ht).trans (h.others j hj hne ht)
  keep p h0 := (h'.keep p (by rwa [h.keep p h0])).trans (h.keep p h0)

theorem type_eq (h : Kept ino i D ip D' ip') : ip'.type = ip.type := by rw [h.rest]

theorem size_eq (h : Kept ino i D ip D' ip') : ip'.size = ip.size := by rw [h.rest]

theorem there (h : Kept ino i D ip D' ip') {m : ℕ} (hm : There D ip m) : There D' ip' m := by
  obtain ⟨hbn, h0⟩ := hm
  exact ⟨hbn, by rwa [h.keep _ h0]⟩

/-- The new block goes to a place of this inode. -/
theorem take {p : Place} {w : ℕ} (hv : Volume D (update ino i ip)) (hi : i < D.ninodes) (ht : ip.type ≠ 0)
    (ha : Above D D') (hrest : ip' = { ip with addrs := ip'.addrs }) (hlow : D.start ≤ w) (hhigh : w < D.nblocks)
    (hbit : D'.bit D.ninodes w = true) (hfree : ∀ q, held D (update ino i ip) q ≠ w)
    (hp : spot D.word ip.addrs p = 0)
    (hheld : held D' (update ino i ip') = update (held D (update ino i ip)) (i, p) w)
    (hzero : p ≠ .indirect → D' w = fun _ => 0)
    (hdata : ∀ q, held D (update ino i ip) q ≠ 0 → q.2 ≠ .indirect →
      D' (held D (update ino i ip) q) = D (held D (update ino i ip) q)) :
    Kept ino i D ip D' ip' ∧ view D' ip' = view D ip := by
  have ht' : ip'.type ≠ 0 := by rwa [hrest]
  have hi' : i < D'.ninodes := by rwa [ha.ninodes]
  have hspot : spot D'.word ip'.addrs = update (spot D.word ip.addrs) p w := by
    funext r
    rw [← held_update hi' ht', hheld]
    by_cases hr : r = p
    · rw [hr, update_self, update_self]
    · rw [update_of_ne (by simpa using hr), update_of_ne hr, held_update hi ht]
  have hw0 : w ≠ 0 := Nat.ne_of_gt (Nat.zero_lt_of_lt (Nat.lt_of_lt_of_le one_lt_start hlow))
  refine ⟨⟨hv.take ha.toMarks hlow hhigh hbit hfree (by rwa [held_update hi ht]) hheld, ha, hrest, fun j hj hne htj => ?_,
    fun r h0 => ?_⟩, ?_⟩
  · have hjp : ∀ r, held D' (update ino i ip') (j, r) = held D (update ino i ip) (j, r) := fun r => by
      rw [hheld, update_of_ne (by simp [hne])]
    have hold : ∀ r, held D (update ino i ip) (j, r) = spot D.word (ino j).addrs r := fun r => by
      rw [held, places, live_update_ne hne, live, if_pos ⟨hj, htj⟩]
    have hnew : ∀ r, held D' (update ino i ip') (j, r) = spot D'.word (ino j).addrs r := fun r => by
      rw [held, places, live_update_ne hne, live, if_pos ⟨by rwa [ha.ninodes], htj⟩]
    refine view_congr rfl fun bn hbn x => ?_
    rw [← hnew, hjp, ← hold]
    split_ifs with h0
    · rfl
    · rw [hdata _ h0 (Place.ofBlock_ne_indirect hbn)]
  · rw [hspot, update_of_ne]
    rintro rfl
    exact h0 hp
  · refine view_congr (by rw [hrest]) fun bn hbn x => ?_
    rw [hspot]
    by_cases hr : .ofBlock bn hbn = p
    · have hne : p ≠ .indirect := hr ▸ Place.ofBlock_ne_indirect hbn
      rw [hr, update_self, if_neg hw0, if_pos hp, hzero hne]
    · rw [update_of_ne hr]
      split_ifs with h0
      · rfl
      · rw [← held_update hi ht] at h0 ⊢
        rw [hdata _ h0 (Place.ofBlock_ne_indirect hbn)]

/-- A block of the file is written, and no other file sees it. -/
theorem put {bn : ℕ} {s : Sector} (hv : Volume D (update ino i ip)) (hi : i < D.ninodes) (ht : ip.type ≠ 0)
    (hbn : bn < MAXFILE) (h0 : spot D.word ip.addrs (.ofBlock bn hbn) ≠ 0)
    (hD' : D' = update D (spot D.word ip.addrs (.ofBlock bn hbn)) s) :
    Kept ino i D ip D' ip ∧ view D' ip = { view D ip with data := update (view D ip).data bn s } := by
  have ha : Above D D' := hD' ▸ .write (hv.start_le hi ht h0)
  have hother : ∀ q, q ≠ (i, .ofBlock bn hbn) → D' (held D (update ino i ip) q) =
      D (held D (update ino i ip) q) := fun q hq => by
    rw [hD', update_of_ne (hv.one_of_update hi ht h0 hq)]
  have hheld : held D' (update ino i ip) = held D (update ino i ip) :=
    held_congr ha.ninodes fun j _ => hother _ fun he => Place.ofBlock_ne_indirect hbn (Prod.mk.inj he).2.symm
  have hspot : spot D'.word ip.addrs = spot D.word ip.addrs := by
    funext r
    rw [← held_update hi ht, ← hheld, held_update (by rwa [ha.ninodes]) ht]
  refine ⟨⟨hv.same ha.toMarks hheld, ha, rfl, fun j hj hne htj => ?_, fun r _ => by rw [hspot]⟩, ?_⟩
  · have hold : ∀ r, held D (update ino i ip) (j, r) = spot D.word (ino j).addrs r := fun r => by
      rw [held, places, live_update_ne hne, live, if_pos ⟨hj, htj⟩]
    have hnew : ∀ r, held D' (update ino i ip) (j, r) = spot D'.word (ino j).addrs r := fun r => by
      rw [held, places, live_update_ne hne, live, if_pos ⟨by rwa [ha.ninodes], htj⟩]
    refine view_congr rfl fun bn' hbn' x => ?_
    rw [← hnew, hheld, ← hold, hother _ (by simp [hne])]
  · refine File.Inode.ext (fun bn' x => ?_) rfl
    simp only [view, hspot]
    by_cases hb : bn' = bn
    · subst hb
      rw [update_self, dif_pos hbn, if_neg h0, hD', update_self]
    · rw [update_of_ne hb]
      split_ifs with hbn' hz
      · rfl
      · have hne : Place.ofBlock bn' hbn' ≠ .ofBlock bn hbn := fun he => hb (by
          have := congrArg Place.first he
          rw [Place.first_ofBlock, Place.first_ofBlock] at this
          exact Nat.eq_of_mul_eq_mul_right (by decide) this)
        rw [← held_update hi ht, hother _ (by simpa using hne)]
      · rfl

end Kept

/-! ## `bmap` -/

theorem wp_bmapAddr_new (hv : Volume D (update ino i ip)) (hi : i < D.ninodes) (ht : ip.type ≠ 0)
    (k : Fin (NDIRECT + 1)) : wp (bmapAddr ip k)
      (fun ip' D' => Kept ino i D ip D' ip' ∧ view D' ip' = view D ip ∧ ip'.addrs k ≠ 0) (· = .outOfBlocks) D := by
  by_cases hk : ip.addrs k = 0
  · rw [bmapAddr, if_pos hk, wp_bind]
    refine hv.wp_newBlock fun w D' hf => ?_
    rw [wp_pure]
    have hw0 : w ≠ 0 := hf.ne_zero
    have hheld : held D' (update ino i { ip with addrs := update ip.addrs k w }) =
        update (held D (update ino i ip)) (i, .addr k) w.toNat := by
      rw [← hf.held_eq hv, held, held, hf.above.ninodes, live_setAddr hi ht]
      refine places_addr fun hlast => ⟨?_, fun l => ?_⟩
      · rw [live_update hi ht, hk]
      · rw [Image.word, hf.zero]
        exact word32_eq fun _ _ => by simp [byte]
    obtain ⟨hkept, hview⟩ := Kept.take (p := .addr k) hv hi ht hf.above rfl hf.low hf.high hf.bit hf.free
      (by rw [spot, hk]; rfl) hheld (fun _ => hf.zero) fun q h0 _ => hf.keeps hv h0
    exact ⟨hkept, hview, by simpa using hw0⟩
  · rw [wp_bmapAddr hk]
    exact ⟨.refl hv, rfl, hk⟩

/-- An entry of the indirect block is set. -/
theorem Kept.entry {k : ℕ} {w : Word} (hv : Volume D (update ino i ip)) (hi : i < D.ninodes) (ht : ip.type ≠ 0)
    (hind : ip.addrs (Fin.last NDIRECT) ≠ 0) (hk : k < NINDIRECT)
    (hk0 : word32 (D (ip.addrs (Fin.last NDIRECT)).toNat) (4 * k) = 0)
    (hf : Fresh D D' (update ino i ip) w.toNat)
    (hD'' : D'' = update D' (ip.addrs (Fin.last NDIRECT)).toNat
      (overlay (D (ip.addrs (Fin.last NDIRECT)).toNat) (4 * k) 4 (byte w))) :
    (Kept ino i D ip D'' ip ∧ view D'' ip = view D ip) ∧ spot D''.word ip.addrs (.entry ⟨k, hk⟩) = w.toNat := by
  generalize hb : (ip.addrs (Fin.last NDIRECT)).toNat = b at *
  have hspotb : spot D.word ip.addrs .indirect = b := hb
  have hb0 : spot D.word ip.addrs .indirect ≠ 0 := fun he => hind (BitVec.eq_of_toNat_eq (hb.trans (hspotb.symm.trans he)))
  have hlowb : D.start ≤ b := hspotb ▸ hv.start_le hi ht hb0
  have ha : Above D D'' := hf.above.trans (hD'' ▸ .write (by rwa [hf.above.start]))
  have hbw : b ≠ w.toNat := by
    rw [← hspotb, ← held_update hi ht]
    exact hf.free _
  have hother : ∀ q, held D (update ino i ip) q ≠ 0 → q ≠ (i, .indirect) →
      D'' (held D (update ino i ip) q) = D (held D (update ino i ip) q) := fun q h0 hq => by
    rw [hD'', update_of_ne (hspotb ▸ hv.one_of_update hi ht hb0 hq), hf.keeps hv h0]
  have hwordb : ∀ l : Fin NINDIRECT, l ≠ ⟨k, hk⟩ → D''.word b l = D.word b l := fun l hl => by
    have hne : (l : ℕ) ≠ k := fun he => hl (Fin.ext he)
    rw [Image.word, Image.word, hD'', update_self]
    exact word32_congr fun x hx => overlay_out (by omega)
  have hheld : held D'' (update ino i ip) =
      update (held D (update ino i ip)) (i, .entry ⟨k, hk⟩) w.toNat := by
    rw [held, held, ha.ninodes]
    refine places_entry ?_ ?_ fun j h0 l hjl => ?_
    · rwa [live_update hi ht]
    · rw [live_update hi ht, hb, Image.word, hD'', update_self]
      exact word32_eq fun x hx => overlay_at hx
    · by_cases hj : j = i
      · subst hj
        rw [live_update hi ht, hb]
        exact hwordb l (hjl.resolve_left fun hne => hne rfl)
      · have hne : held D (update ino i ip) (j, .indirect) ≠ 0 := fun he => h0 (BitVec.eq_of_toNat_eq he)
        rw [Image.word, Image.word]
        exact congrArg (word32 · _) (hother (j, .indirect) hne (by simp [hj]))
  refine ⟨Kept.take (p := .entry ⟨k, hk⟩) hv hi ht ha rfl hf.low hf.high ?_ hf.free ?_ hheld (fun _ => ?_)
    fun q h0 hq => ?_, ?_⟩
  · have := bitmap_lt_start hf.high
    rw [hD'', bit_congr (update_of_ne (by omega) ..)]
    exact hf.bit
  · rw [spot, if_neg hind, hb, Image.word, hk0]
    rfl
  · rw [hD'', update_of_ne (Ne.symm hbw), hf.zero]
  · exact hother q h0 fun he => hq (by rw [he])
  · rw [← held_update (by rwa [ha.ninodes]) ht, hheld, update_self]

/-- **`bmap`**: the block is there, and the file reads as before. -/
theorem wp_bmap_new (hv : Volume D (update ino i ip)) (hi : i < D.ninodes) (ht : ip.type ≠ 0) {bn : ℕ}
    (hbn : bn < MAXFILE) : wp (bmap ip bn) (fun r D' => Kept ino i D ip D' r.1 ∧ view D' r.1 = view D ip ∧
      r.2.toNat = spot D'.word r.1.addrs (.ofBlock bn hbn) ∧ r.2 ≠ 0 ∧
      (spot D.word ip.addrs (.ofBlock bn hbn) ≠ 0 → r.1 = ip)) (· = .outOfBlocks) D := by
  by_cases hthere : spot D.word ip.addrs (.ofBlock bn hbn) ≠ 0
  · refine wp_bmap hbn hthere fun w hw => ⟨.refl hv, rfl, hw, ?_, fun _ => rfl⟩
    rintro rfl
    exact hthere hw.symm
  suffices h : wp (bmap ip bn) (fun r D' => Kept ino i D ip D' r.1 ∧ view D' r.1 = view D ip ∧
      r.2.toNat = spot D'.word r.1.addrs (.ofBlock bn hbn) ∧ r.2 ≠ 0) (· = .outOfBlocks) D from
    h.mono fun r D' h => ⟨h.1, h.2.1, h.2.2.1, h.2.2.2, fun he => absurd he hthere⟩
  unfold bmap
  split_ifs with hd hlt
  · rw [wp_bind]
    refine (wp_bmapAddr_new hv hi ht _).mono fun ip' D' h => ?_
    obtain ⟨hkept, hview, h0⟩ := h
    rw [wp_pure, Place.ofBlock, dif_pos hd]
    exact ⟨hkept, hview, rfl, h0⟩
  · rw [wp_bind]
    refine (wp_bmapAddr_new hv hi ht _).mono fun ip' D' h => ?_
    obtain ⟨hkept, hview, hind⟩ := h
    have hi' : i < D'.ninodes := by rwa [hkept.above.ninodes]
    have ht' : ip'.type ≠ 0 := by rwa [hkept.type_eq]
    rw [wp_bind, wp_get, Place.ofBlock, dif_neg hd]
    by_cases hk0 : word32 (D' (ip'.addrs (Fin.last NDIRECT)).toNat) (4 * (bn - NDIRECT)) = 0
    · rw [if_pos hk0, wp_bind]
      refine hkept.volume.wp_newBlock fun w D'' hf => ?_
      rw [wp_bind, wp_get, wp_bind, wp_set, wp_pure]
      obtain ⟨⟨hkept', hview'⟩, hspot⟩ := Kept.entry hkept.volume hi' ht' hind hlt hk0 hf rfl
      have hw0 : w ≠ 0 := hf.ne_zero
      exact ⟨hkept.trans hkept', hview'.trans hview, hspot.symm, hw0⟩
    · rw [if_neg hk0, wp_pure]
      refine ⟨hkept, hview, ?_, hk0⟩
      rw [spot, if_neg hind]
      rfl
  · simp only [MAXFILE] at hbn
    omega

end Xv6.Disk
