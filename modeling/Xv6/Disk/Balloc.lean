import Mathlib.Data.List.Range
import Xv6.Lib.Turns
import Xv6.Disk.Layout

/-!
# The block allocator

`balloc` and `bfree` of `fs.c` on the bitmap of the disk, and the bitmap that `balloc` of `mkfs.c` writes: the first
`used` bits. `balloc` takes the first clear bit below `sb.size` (`scan_some`, `scan_none`).
-/

namespace Xv6.Disk

open Lib
open Function (update update_of_ne update_self)

/-! ## `balloc` and `bfree` -/

def readsb (D : Image) : Superblock := .read (D 1)

def bzero (D : Image) (b : ℕ) : Image := update D b fun _ => 0

/-- Change the byte of the bitmap that has the bit of block `b`. -/
def Image.change (D : Image) (ninodes b : ℕ) (f : Byte → Byte) : Image :=
  update D (BBLOCK b ninodes)
    (update (D (BBLOCK b ninodes)) (b % BPB / 8) (f (D (BBLOCK b ninodes) (b % BPB / 8))))

def Image.mark (D : Image) (ninodes b : ℕ) : Image := D.change ninodes b (· ||| BitVec.twoPow 8 (b % BPB % 8))

def Image.clear (D : Image) (ninodes b : ℕ) : Image := D.change ninodes b (· &&& ~~~ BitVec.twoPow 8 (b % BPB % 8))

/-- The inner loop of `balloc`, over the bitmap block of the blocks from `b` on. -/
def scanBlock (D : Image) (sb : Superblock) (b : ℕ) : Option ℕ :=
  ((List.range (min BPB (sb.size.toNat - b))).find? fun bi =>
    (D (BBLOCK b sb.ninodes.toNat) (bi / 8)).getLsbD (bi % 8) = false).map (b + ·)

/-- The outer loop of `balloc`: the first free block. -/
def scan (D : Image) (sb : Superblock) : Option ℕ :=
  (List.range ((sb.size.toNat + (BPB - 1)) / BPB)).findSome? fun q => scanBlock D sb (q * BPB)

/-- `balloc`, or a panic. -/
def balloc (D : Image) : Option (ℕ × Image) :=
  (scan D (readsb D)).map fun b => (b, bzero (D.mark (readsb D).ninodes.toNat b) b)

/-- `bfree`, or a panic. -/
def bfree (D : Image) (b : ℕ) : Option Image :=
  if D.bit (readsb D).ninodes.toNat b = false then none else some (D.clear (readsb D).ninodes.toNat b)

/-! ## Bits -/

section Bits

variable {D : Image} {n b c : ℕ}

theorem bit_change {f : Byte → Byte} : (D.change n b f).bit n c =
    if c / 8 = b / 8 then (f (D (BBLOCK b n) (b % BPB / 8))).getLsbD (c % BPB % 8) else D.bit n c := by
  unfold Image.bit Image.change
  by_cases hblock : BBLOCK c n = BBLOCK b n
  · rw [hblock, update_self]
    by_cases hbyte : c % BPB / 8 = b % BPB / 8
    · rw [hbyte, update_self, if_pos (by simp only [BBLOCK, BPB, BSIZE] at *; omega)]
    · rw [update_of_ne hbyte, if_neg (by simp only [BBLOCK, BPB, BSIZE] at *; omega)]
  · rw [update_of_ne hblock, if_neg (by simp only [BBLOCK, BPB, BSIZE] at *; omega)]

theorem same_byte (h : c / 8 = b / 8) : BBLOCK c n = BBLOCK b n ∧ c % BPB / 8 = b % BPB / 8 := by
  simp only [BBLOCK, BPB, BSIZE]
  omega

theorem bit_mark : (D.mark n b).bit n c = (D.bit n c || decide (c = b)) := by
  rw [Image.mark, bit_change]
  split_ifs with h
  · obtain ⟨h1, h2⟩ := same_byte (n := n) h
    have hb : b % 8 < 8 := Nat.mod_lt _ (by decide)
    have hiff : b % 8 = c % 8 ↔ c = b := by omega
    rw [BitVec.getLsbD_or, BitVec.getLsbD_twoPow, Image.bit, h1, h2]
    simp [hb, hiff]
  · have hne : c ≠ b := fun hcb => h (hcb ▸ rfl)
    simp [hne]

theorem bit_clear : (D.clear n b).bit n c = (D.bit n c && decide (c ≠ b)) := by
  rw [Image.clear, bit_change]
  split_ifs with h
  · obtain ⟨h1, h2⟩ := same_byte (n := n) h
    have hb : b % 8 < 8 := Nat.mod_lt _ (by decide)
    have hc : c % 8 < 8 := Nat.mod_lt _ (by decide)
    have hiff : b % 8 = c % 8 ↔ c = b := by omega
    rw [BitVec.getLsbD_and, BitVec.getLsbD_not, BitVec.getLsbD_twoPow, Image.bit, h1, h2]
    simp [hb, hc, hiff]
  · have hne : c ≠ b := fun hcb => h (hcb ▸ rfl)
    simp [hne]

theorem change_other {f : Byte → Byte} {x : ℕ} (h : x ≠ BBLOCK b n) : D.change n b f x = D x :=
  update_of_ne h ..

theorem bit_congr {D' : Image} (h : D' (BBLOCK c n) = D (BBLOCK c n)) : D'.bit n c = D.bit n c := by
  rw [Image.bit, Image.bit, h]

end Bits

/-! ## What `balloc` returns -/

section Scan

variable {D D' : Image} {sb : Superblock} {b : ℕ}

theorem scanBlock_bit {q bi : ℕ} (h : bi < BPB) :
    (D (BBLOCK (q * BPB) sb.ninodes.toNat) (bi / 8)).getLsbD (bi % 8) = D.bit sb.ninodes.toNat (q * BPB + bi) := by
  have h1 : (q * BPB + bi) / BPB = q * BPB / BPB := by simp only [BPB, BSIZE] at *; omega
  have h2 : (q * BPB + bi) % BPB = bi := by simp only [BPB, BSIZE] at *; omega
  rw [Image.bit, BBLOCK, BBLOCK, h1, h2]

theorem mem_of_range {n q c : ℕ} {as bs : List ℕ} (h : List.range n = as ++ q :: bs) (hc : c < q) : c ∈ as := by
  have hq : q < n ∧ as.length = q := by
    have hget := congrArg (fun l : List ℕ => l[as.length]?) h
    simp only [List.getElem?_append_right (Nat.le_refl _), Nat.sub_self, List.getElem?_cons_zero] at hget
    obtain ⟨hlt, heq⟩ := List.getElem?_eq_some_iff.mp hget
    rw [List.length_range] at hlt
    rw [List.getElem_range] at heq
    omega
  have hget := congrArg (fun l : List ℕ => l[c]?) h
  simp only [List.getElem?_append_left (show c < as.length by omega)] at hget
  rw [List.getElem?_range (by omega)] at hget
  exact List.mem_of_getElem? hget.symm

theorem scanBlock_some {q : ℕ} (h : scanBlock D sb (q * BPB) = some b) :
    q * BPB ≤ b ∧ b < sb.size.toNat ∧ D.bit sb.ninodes.toNat b = false ∧
      ∀ c, q * BPB ≤ c → c < b → D.bit sb.ninodes.toNat c = true := by
  obtain ⟨bi, hbi, rfl⟩ := Option.map_eq_some_iff.mp h
  obtain ⟨hclear, as, bs, hsplit, has⟩ := List.find?_eq_some_iff_append.mp hbi
  have hmem : bi ∈ List.range (min BPB (sb.size.toNat - q * BPB)) := List.mem_of_find?_eq_some hbi
  rw [List.mem_range] at hmem
  have hlt : bi < BPB := by omega
  rw [scanBlock_bit hlt] at hclear
  refine ⟨by omega, by omega, by simpa using hclear, fun c hc hcb => ?_⟩
  obtain ⟨ci, rfl⟩ := Nat.exists_eq_add_of_le hc
  have hci : ci ∈ as := mem_of_range hsplit (by omega)
  have := has ci hci
  rw [scanBlock_bit (by omega)] at this
  simpa using this

theorem scanBlock_none {q c : ℕ} (h : scanBlock D sb (q * BPB) = none) (hc : q * BPB ≤ c) (hq : c < (q + 1) * BPB)
    (hs : c < sb.size.toNat) : D.bit sb.ninodes.toNat c = true := by
  obtain ⟨ci, rfl⟩ := Nat.exists_eq_add_of_le hc
  have hci : ci < BPB := by simp only [BPB, BSIZE] at *; omega
  have hn := List.find?_eq_none.mp (Option.map_eq_none_iff.mp h) ci (List.mem_range.mpr (by omega))
  rw [scanBlock_bit hci] at hn
  simpa using hn

theorem lt_next_block (c : ℕ) : c < (c / BPB + 1) * BPB := by
  simp only [BPB, BSIZE]
  omega

/-- **`balloc` takes the first free block.** -/
theorem scan_some (h : scan D sb = some b) :
    b < sb.size.toNat ∧ D.bit sb.ninodes.toNat b = false ∧ ∀ c < b, D.bit sb.ninodes.toNat c = true := by
  obtain ⟨as, q, bs, hsplit, hq, has⟩ := List.findSome?_eq_some_iff.mp h
  obtain ⟨hle, hlt, hbit, hbefore⟩ := scanBlock_some hq
  refine ⟨hlt, hbit, fun c hc => ?_⟩
  by_cases hcq : q * BPB ≤ c
  · exact hbefore c hcq hc
  · -- an earlier block of the bitmap, in which nothing was free
    have hmem : c / BPB ∈ as := mem_of_range hsplit (by simp only [BPB, BSIZE] at *; omega)
    exact scanBlock_none (has _ hmem) (Nat.div_mul_le_self c BPB) (lt_next_block c) (by omega)

theorem scan_none (h : scan D sb = none) {c : ℕ} (hc : c < sb.size.toNat) : D.bit sb.ninodes.toNat c = true := by
  have hn := List.findSome?_eq_none_iff.mp h (c / BPB) (List.mem_range.mpr (by simp only [BPB, BSIZE]; omega))
  exact scanBlock_none hn (Nat.div_mul_le_self c BPB) (lt_next_block c) hc

theorem balloc_some (h : balloc D = some (b, D')) :
    scan D (readsb D) = some b ∧ D' = bzero (D.mark (readsb D).ninodes.toNat b) b := by
  obtain ⟨b', hb, he⟩ := Option.map_eq_some_iff.mp h
  obtain ⟨rfl, rfl⟩ := Prod.mk.inj he
  exact ⟨hb, rfl⟩

end Scan

/-! ## The image of `mkfs` -/

namespace Mkfs

abbrev size : ℕ := 1024

abbrev ninodes : ℕ := 200

abbrev nlog : ℕ := LOGSIZE

abbrev nblocks : ℕ := 995 - LOGSIZE

abbrev bitblocks : ℕ := size / (512 * 8) + 1

/-- The blocks before the data area: the first value of `usedblocks` and `freeblock`. -/
abbrev metablocks : ℕ := ninodes / IPB + 3 + bitblocks

/-- The super block that `mkfs` writes. -/
def superblock : Superblock := ⟨size, nblocks, ninodes, nlog⟩

theorem ninodes_toNat : superblock.ninodes.toNat = ninodes := rfl

/-- The bitmap that `balloc` writes: a loop sets the first `used` bits. -/
def bitmap (used : ℕ) : Sector :=
  (List.range used).foldl (fun buf i => update buf (i / 8) (buf (i / 8) ||| BitVec.twoPow 8 (i % 8)))
    fun _ => 0

theorem bitmap_succ (used : ℕ) : bitmap (used + 1) =
    update (bitmap used) (used / 8) (bitmap used (used / 8) ||| BitVec.twoPow 8 (used % 8)) := by
  rw [bitmap, List.range_succ, List.foldl_append]
  rfl

theorem bitmap_bit (used j k : ℕ) (hk : k < 8) : (bitmap used j).getLsbD k = decide (8 * j + k < used) := by
  induction used with
  | zero => simp [bitmap]
  | succ used ih =>
    rw [bitmap_succ]
    by_cases hj : j = used / 8
    · have hmod : used % 8 < 8 := Nat.mod_lt _ (by decide)
      have hiff : used % 8 = k ↔ 8 * j + k = used := by omega
      rw [← hj, update_self, BitVec.getLsbD_or, ih, BitVec.getLsbD_twoPow]
      simp only [hmod, decide_true, Bool.true_and, hiff]
      rw [← Bool.decide_or, decide_eq_decide]
      omega
    · rw [update_of_ne hj, ih, decide_eq_decide]
      omega

/-- An image with the super block of `mkfs` and the bitmap of `used` blocks. -/
structure Formatted (D : Image) (used : ℕ) : Prop where
  super : readsb D = superblock
  bits : ∀ j < BSIZE, D (BBLOCK 0 ninodes) j = bitmap used j
  behind : metablocks ≤ used

theorem super_ne_bitmap {b : ℕ} : 1 ≠ BBLOCK b ninodes := by
  simp only [BBLOCK, BPB, BSIZE, ninodes, IPB]
  omega

/-- The blocks of files: behind the metadata, before the log. -/
def DataBlock (b : ℕ) : Prop := metablocks ≤ b ∧ b < size - nlog

theorem Formatted.bit {D : Image} {used b : ℕ} (h : Formatted D used) (hb : b < size) :
    D.bit ninodes b = decide (b < used) := by
  have hblock : BBLOCK b ninodes = BBLOCK 0 ninodes := by simp only [BBLOCK, BPB, BSIZE, size] at *; omega
  have hmod : b % BPB = b := Nat.mod_eq_of_lt (by simp only [BPB, BSIZE, size] at *; omega)
  have hlt : b / 8 < BSIZE := by simp only [BSIZE, size] at *; omega
  rw [Image.bit, hblock, hmod, h.bits _ hlt, bitmap_bit _ _ _ (Nat.mod_lt _ (by decide)), decide_eq_decide]
  omega

/-- **`balloc` on an image of `mkfs`** takes the first block behind those in use. -/
theorem Formatted.balloc {D : Image} {used : ℕ} (h : Formatted D used) (hlt : used < size) :
    ∃ D', balloc D = some (used, D') ∧ Formatted D' (used + 1) := by
  have hmeta : metablocks = 29 := rfl
  have hbehind := h.behind
  have hsize : superblock.size.toNat = size := rfl
  have hscan : scan D superblock = some used := by
    cases hs : scan D superblock with
    | none =>
      have := scan_none hs (hsize ▸ hlt)
      rw [ninodes_toNat, h.bit hlt] at this
      simp at this
    | some b =>
      obtain ⟨hb, hclear, hbefore⟩ := scan_some hs
      rw [ninodes_toNat] at hclear hbefore
      rw [h.bit (hsize ▸ hb)] at hclear
      have hle : used ≤ b := by simpa using hclear
      by_contra hne
      have := hbefore used (by rw [Option.some_inj] at hne; omega)
      rw [h.bit hlt] at this
      simp at this
  refine ⟨bzero (D.mark ninodes used) used, ?_, ?_, fun j hj => ?_, by omega⟩
  · rw [Disk.balloc, h.super, hscan, ninodes_toNat, Option.map_some]
  · have h1 : D.mark ninodes used 1 = D 1 := change_other super_ne_bitmap
    rw [readsb, bzero, update_of_ne (by omega), h1]
    exact h.super
  · have hblock : BBLOCK used ninodes = BBLOCK 0 ninodes := by simp only [BBLOCK, BPB, BSIZE, size] at *; omega
    have hmod : used % BPB = used := Nat.mod_eq_of_lt (by simp only [BPB, BSIZE, size] at *; omega)
    have hne : BBLOCK 0 ninodes ≠ used := by have : BBLOCK 0 ninodes = 28 := rfl; omega
    rw [bzero, update_of_ne hne, bitmap_succ, Image.mark, Image.change, hblock, hmod, update_self]
    by_cases hu : j = used / 8
    · rw [← hu, update_self, update_self, h.bits j hj]
    · rw [update_of_ne hu, update_of_ne hu, h.bits j hj]

/-- The image with nothing in it but the super block and the bitmap. -/
def image (used : ℕ) : Image := fun x =>
  if x = 1 then superblock.bytes else if x = BBLOCK 0 ninodes then bitmap used else fun _ => 0

theorem formatted_image {used : ℕ} (h : metablocks ≤ used) : Formatted (image used) used where
  super := Superblock.read_eq fun _ _ => rfl
  bits _ _ := rfl
  behind := h

end Mkfs

/-! ## Runs -/

inductive Label
  | balloc
  | bfree (b : ℕ)

/-- A call that returns. -/
def step (D : Image) : Label → Option Image
  | .balloc => (balloc D).map (·.2)
  | .bfree b => bfree D b

open Mkfs

/-- `balloc` is called while a block of the data area is free, and `bfree` never for the metadata. -/
def HasRoom (D : Image) : Label → Prop
  | .balloc => ∃ b, DataBlock b ∧ D.bit ninodes b = false
  | .bfree b => metablocks ≤ b

/-- The super block is there, and the bits of the metadata are set. -/
structure Guarded (D : Image) : Prop where
  super : readsb D = superblock
  bits : ∀ b < metablocks, D.bit ninodes b = true

variable {D D' : Image} {b used : ℕ}

/-- **One call of `balloc`** while a block of the data area is free. -/
theorem Guarded.balloc (h : Guarded D) (hroom : HasRoom D .balloc) (hb : balloc D = some (b, D')) :
    DataBlock b ∧ Guarded D' := by
  obtain ⟨hscan, rfl⟩ := balloc_some hb
  rw [h.super] at hscan ⊢
  obtain ⟨hlt, hclear, hbefore⟩ := scan_some hscan
  rw [ninodes_toNat] at hclear hbefore ⊢
  obtain ⟨c, hc, hcb⟩ := hroom
  have hdata : DataBlock b := by
    refine ⟨?_, ?_⟩
    · by_contra hlow
      rw [h.bits b (by omega)] at hclear
      cases hclear
    · by_contra hhigh
      have := hbefore c (by have := hc.2; omega)
      rw [hcb] at this
      cases this
  -- the block that is zeroed holds neither the super block nor the bitmap
  have hsector : ∀ x, x < metablocks → bzero (D.mark ninodes b) b x = D.mark ninodes b x := fun x hx =>
    update_of_ne (by have := hdata.1; omega) ..
  refine ⟨hdata, ⟨?_, fun e he => ?_⟩⟩
  · have h1 : D.mark ninodes b 1 = D 1 := change_other super_ne_bitmap
    rw [readsb, hsector 1 (by decide), h1]
    exact h.super
  · have hblock : BBLOCK e ninodes < metablocks := by
      simp only [BBLOCK, BPB, BSIZE, metablocks, ninodes, IPB, bitblocks, size] at *
      omega
    rw [bit_congr (hsector _ hblock), bit_mark, h.bits e he, Bool.true_or]

theorem Guarded.bfree (h : Guarded D) (hdata : metablocks ≤ b) (hb : bfree D b = some D') : Guarded D' := by
  unfold Disk.bfree at hb
  split_ifs at hb
  cases hb
  rw [h.super, ninodes_toNat]
  refine ⟨?_, fun e he => ?_⟩
  · rw [readsb, show D.clear ninodes b 1 = D 1 from change_other super_ne_bitmap]
    exact h.super
  · have hne : e ≠ b := by omega
    rw [bit_clear, h.bits e he]
    simp [hne]

/-- **The allocator stays in the data area** of an image of `mkfs`, in every run of `balloc` and `bfree` in which
`bfree` gets no metadata and `balloc` is called while a block of the data area is free: it never returns the boot block, the super
block, a block of inodes or of the bitmap, or a block of the log. -/
theorem balloc_in_data_area {D₀ : Image} {tr : List (Image × Label)} (h0 : Formatted D₀ used)
    (h : Path step HasRoom D₀ tr D) (hroom : HasRoom D .balloc) (hb : balloc D = some (b, D')) :
    b ≠ 0 ∧ b ≠ 1 ∧ (∀ i < ninodes, b ≠ IBLOCK i) ∧ (∀ c < size, b ≠ BBLOCK c ninodes) ∧
      ¬ (size - nlog ≤ b ∧ b < size) := by
  have hinv : Guarded D := by
    refine h.inv ⟨h0.super, fun e he => ?_⟩ fun D l D' hg hok hs => ?_
    · have := h0.behind
      have hmeta : metablocks = 29 := rfl
      rw [h0.bit (by simp only [size]; omega)]
      simp only [decide_eq_true_eq]
      omega
    · cases l with
      | balloc =>
        obtain ⟨⟨c, E⟩, hc, rfl⟩ := Option.map_eq_some_iff.mp hs
        exact (hg.balloc hok hc).2
      | bfree c => exact hg.bfree hok hs
  obtain ⟨⟨hlow, hhigh⟩, -⟩ := hinv.balloc hroom hb
  simp only [metablocks, ninodes, IPB, BSIZE, bitblocks, size, nlog, LOGSIZE, MAXOPBLOCKS] at *
  refine ⟨by omega, by omega, fun i hi => ?_, fun c hc => ?_, by omega⟩
  · simp only [IBLOCK, IPB, BSIZE]
    omega
  · simp only [BBLOCK, BPB, IPB, BSIZE]
    omega

/-- The second block of a new image. -/
theorem balloc_in_data_area_again : ∃ tr D b D', Path step HasRoom (image 30) tr D ∧ HasRoom D .balloc ∧
    balloc D = some (b, D') ∧ b ≠ 0 ∧ b ≠ 1 ∧ (∀ i < ninodes, b ≠ IBLOCK i) ∧ (∀ c < size, b ≠ BBLOCK c ninodes) ∧
      ¬ (size - nlog ≤ b ∧ b < size) := by
  have h0 : Formatted (image 30) 30 := formatted_image (by decide)
  obtain ⟨D, hD, hd⟩ := h0.balloc (by decide)
  obtain ⟨D', hD', -⟩ := hd.balloc (by decide)
  have hroom : ∀ {used E}, Formatted E used → used < size - nlog → HasRoom E .balloc := fun {used} _ he hu =>
    ⟨used, ⟨he.behind, hu⟩, by rw [he.bit (by simp only [size, nlog] at *; omega)]; simp⟩
  have hpath : Path step HasRoom (image 30) [(image 30, .balloc)] D :=
    .snoc (.nil) (hroom h0 (by decide)) (by rw [step, hD]; rfl)
  have hroom' := hroom hd (by decide)
  exact ⟨_, D, _, D', hpath, hroom', hD', balloc_in_data_area h0 hpath hroom' hD'⟩

theorem Mkfs.Formatted.ballocs (h : Formatted D used) (n : ℕ) (hn : used + n ≤ size) :
    ∃ tr D', Path step free D tr D' ∧ Formatted D' (used + n) := by
  induction n with
  | zero => exact ⟨[], D, .nil, h⟩
  | succ n ih =>
    obtain ⟨tr, E, hpath, hE⟩ := ih (by omega)
    obtain ⟨E', hb, hE'⟩ := hE.balloc (by omega)
    exact ⟨_, E', hpath.snoc trivial (by rw [step, hb]; rfl), hE'⟩

/-- **The log is handed out**: on an image that `mkfs` made of no files, the 965th call of `balloc` returns the first
block of the log. -/
theorem balloc_takes_log : ∃ D₀ tr D b D', Formatted D₀ 30 ∧ Path step free D₀ tr D ∧ balloc D = some (b, D') ∧
    size - nlog ≤ b ∧ b < size := by
  have h0 : Formatted (image 30) 30 := formatted_image (by decide)
  obtain ⟨tr, D, hpath, hD⟩ := h0.ballocs 964 (by decide)
  obtain ⟨D', hb, -⟩ := hD.balloc (by decide)
  exact ⟨_, tr, D, _, D', h0, hpath, hb, by decide, by decide⟩

/-! ## Turns -/

theorem Mkfs.Formatted.guarded (h : Formatted D used) : Guarded D where
  super := h.super
  bits e he := by
    have hlt : e < size := lt_trans he (by decide)
    have := h.behind
    rw [h.bit hlt, decide_eq_true_eq]
    omega

/-- No metadata is freed. -/
def SparesMeta (_ : Image) : Label → Prop
  | .balloc => True
  | .bfree b => metablocks ≤ b

theorem Guarded.take (h : Guarded D) (hb : Disk.balloc D = some (b, D')) : b < size ∧ D.bit ninodes b = false ∧
    Guarded D' ∧ ∀ c < size, D'.bit ninodes c = (D.bit ninodes c || decide (c = b)) := by
  obtain ⟨hscan, rfl⟩ := balloc_some hb
  rw [h.super] at hscan ⊢
  obtain ⟨hlt, hclear, -⟩ := scan_some hscan
  rw [ninodes_toNat] at hclear ⊢
  have hlow : metablocks ≤ b := by
    by_contra hlow
    rw [h.bits b (by omega)] at hclear
    cases hclear
  -- the block that is zeroed is behind the super block and the bitmap
  have hbit : ∀ c < size, (bzero (D.mark ninodes b) b).bit ninodes c = (D.bit ninodes c || decide (c = b)) := by
    intro c hc
    have hne : BBLOCK c ninodes ≠ b := by
      simp only [BBLOCK, BPB, BSIZE, metablocks, ninodes, IPB, bitblocks, size] at *
      omega
    rw [bzero, bit_congr (update_of_ne hne ..), bit_mark]
  refine ⟨hlt, hclear, ⟨?_, fun e he => ?_⟩, hbit⟩
  · have h1 : D.mark ninodes b 1 = D 1 := change_other super_ne_bitmap
    have hne : 1 ≠ b := fun hb1 => absurd (hb1 ▸ hlow) (by decide)
    rw [readsb, bzero, update_of_ne hne, h1]
    exact h.super
  · rw [hbit e (lt_trans he (by decide)), h.bits e he, Bool.true_or]

theorem Guarded.step {l : Label} (h : Guarded D) (hok : SparesMeta D l) (hs : step D l = some D') : Guarded D' := by
  cases l with
  | balloc =>
    obtain ⟨⟨c, E⟩, hc, rfl⟩ := Option.map_eq_some_iff.mp hs
    exact (h.take hc).2.2.1
  | bfree c => exact h.bfree hok hs

/-- A call of `balloc` that returns `b`. -/
def Takes (b : ℕ) (x : Image × Label) : Prop := x.2 = .balloc ∧ ∃ D', balloc x.1 = some (b, D')

/-- **No block is handed out twice.** In every run of `balloc` and `bfree` on an image of `mkfs` in which no metadata is
freed, there is a `bfree` of the block between any two calls of `balloc` that return it. -/
theorem balloc_given_between {D₀ : Image} {tr xs ys zs : List (Image × Label)} {x y : Image × Label}
    (h0 : Formatted D₀ used) (h : Path step SparesMeta D₀ tr D) (htr : tr = xs ++ x :: (ys ++ y :: zs))
    (hx : Takes b x) (hy : Takes b y) : ∃ z ∈ ys, z.2 = .bfree b := by
  let busy (D : Image) := b < size ∧ D.bit ninodes b = true
  have htake : ∀ D l D', SparesMeta D l ∧ Guarded D → step D l = some D' → Takes b (D, l) → ¬ busy D ∧ busy D' := by
    rintro D l D' ⟨-, hg⟩ hs ⟨rfl, E, hE⟩
    obtain rfl : E = D' := by simpa [step, show balloc D = some (b, E) from hE] using hs
    obtain ⟨hlt, hclear, -, hset⟩ := hg.take hE
    simp [busy, hclear, hset b hlt, hlt]
  have hkeep : ∀ D l D', SparesMeta D l ∧ Guarded D → step D l = some D' → busy D → ¬ l = .bfree b → busy D' := by
    rintro D l D' ⟨-, hg⟩ hs ⟨hlt, hbusy⟩ hgive
    refine ⟨hlt, ?_⟩
    cases l with
    | balloc =>
      obtain ⟨⟨c, E⟩, hc, rfl⟩ := Option.map_eq_some_iff.mp hs
      rw [(hg.take hc).2.2.2 b hlt, hbusy, Bool.true_or]
    | bfree c =>
      have hne : b ≠ c := fun he => hgive (he ▸ rfl)
      simp only [step, bfree, hg.super, ninodes_toNat] at hs
      split_ifs at hs
      cases hs
      rw [bit_clear, hbusy, decide_eq_true hne, Bool.and_self]
  exact (h.and_inv h0.guarded fun _ _ _ => Guarded.step).given_between htake hkeep htr hx hy

/-- A block is handed out, given back and handed out again. -/
theorem balloc_given_between_again : ∃ D E F G, Path step SparesMeta D [(D, .balloc), (E, .bfree 30), (F, .balloc)] G ∧
    Takes 30 (D, .balloc) ∧ Takes 30 (F, .balloc) ∧ ∃ z ∈ [(E, Label.bfree 30)], z.2 = .bfree 30 := by
  have hballoc : ∀ {D : Image}, scan D (readsb D) = some 30 →
      balloc D = some (30, bzero (D.mark (readsb D).ninodes.toNat 30) 30) := fun h => by rw [balloc, h]; rfl
  obtain ⟨E, hD, F, hE, G, hF⟩ : ∃ E, balloc (image 30) = some (30, E) ∧ ∃ F, bfree E 30 = some F ∧
      ∃ G, balloc F = some (30, G) :=
    ⟨_, hballoc (by decide +kernel), _, if_neg (by decide +kernel), _, hballoc (by decide +kernel)⟩
  have hfree : SparesMeta E (.bfree 30) := show metablocks ≤ 30 by decide
  have hstep : ∀ {D E : Image}, balloc D = some (30, E) → step D .balloc = some E := fun h => by rw [step, h]; rfl
  have hpath : Path step SparesMeta (image 30) [(image 30, .balloc), (E, .bfree 30), (F, .balloc)] G :=
    .snoc (.snoc (.snoc .nil trivial (hstep hD)) hfree hE) trivial (hstep hF)
  have htr : [(image 30, .balloc), (E, .bfree 30), (F, .balloc)] =
    [] ++ (image 30, .balloc) :: ([(E, .bfree 30)] ++ (F, Label.balloc) :: []) := rfl
  have h1 : Takes 30 (image 30, .balloc) := ⟨rfl, E, hD⟩
  have h2 : Takes 30 (F, .balloc) := ⟨rfl, G, hF⟩
  exact ⟨_, E, F, G, hpath, h1, h2, balloc_given_between (formatted_image (by decide)) hpath htr h1 h2⟩

end Xv6.Disk
