import Mathlib.Data.List.GetD
import Mathlib.Order.Interval.Set.Basic
import Xv6.Disk.Mkfs
import Xv6.Disk.Place

/-!
# What `iappend` keeps

The blocks that the inodes own are those from the metadata to `freeblock`, and a block that an inode owns holds the part
of the file that belongs there, with zeroes behind the end of the file (`Filled`). The three writes of `iappend` keep
this: an address in the inode (`Filled.addr`), an address in the indirect block (`Filled.entry`), and the data
(`Filled.write`).
-/

namespace Xv6.Disk.Mkfs

open Lib
open Function (update update_eq_self update_idem update_of_ne update_self)

/-- The places of the inodes `addrs` on the disk. -/
abbrev loc (D : Image) (addrs : ℕ → Fin (NDIRECT + 1) → Word) : ℕ × Place → ℕ := places D.word addrs

/-- **The inodes own the blocks before `fb`, and their blocks hold `data`.** -/
structure Filled (D : Image) (addrs : ℕ → Fin (NDIRECT + 1) → Word) (data : ℕ → List Byte) (fb : ℕ) : Prop where
  own : Owns (loc D addrs) (Set.Ico metablocks fb)
  stored : ∀ (i bn : ℕ) (h : bn < MAXFILE), loc D addrs (i, .ofBlock bn h) ≠ 0 →
    ∀ j < BSIZE, D (loc D addrs (i, .ofBlock bn h)) j = (data i).getD (bn * BSIZE + j) 0
  clean : ∀ b, fb ≤ b → D b = fun _ => 0

namespace Filled

variable {D D' : Image} {addrs : ℕ → Fin (NDIRECT + 1) → Word} {data : ℕ → List Byte} {fb i : ℕ}

theorem lt (h : Filled D addrs data fb) {q : ℕ × Place} (hq : loc D addrs q ≠ 0) :
    metablocks ≤ loc D addrs q ∧ loc D addrs q < fb := h.own.held hq

theorem ne_zero (hfb : metablocks ≤ fb) : fb ≠ 0 := fun h => absurd hfb (by rw [h]; decide)

theorem insert_Ico (hfb : metablocks ≤ fb) : insert fb (Set.Ico metablocks fb) = Set.Ico metablocks (fb + 1) := by
  ext b
  simp only [Set.mem_insert_iff, Set.mem_Ico]
  omega

theorem word_clean (h : Filled D addrs data fb) (k : ℕ) : D.word fb k = 0 := by
  rw [Image.word, h.clean fb (Nat.le_refl _), word32, word16, word16]
  decide

theorem ne_indirect (h : Filled D addrs data fb) (hi : addrs i (Fin.last NDIRECT) ≠ 0) {q : ℕ × Place}
    (hq : q ≠ (i, .indirect)) : loc D addrs q ≠ (addrs i (Fin.last NDIRECT)).toNat := by
  intro he
  have h0 : loc D addrs (i, .indirect) ≠ 0 := fun h0 => hi (BitVec.eq_of_toNat_eq h0)
  exact hq (h.own.inj _ _ h0 he.symm).symm

theorem congr (h : Filled D addrs data fb) (hfb : metablocks ≤ fb) (hD : ∀ b, metablocks ≤ b → D' b = D b) :
    Filled D' addrs data fb ∧ loc D' addrs = loc D addrs := by
  have hloc : loc D' addrs = loc D addrs := places_congr fun j hj k => by
    have h0 : loc D addrs (j, .indirect) ≠ 0 := fun h0 => hj (BitVec.eq_of_toNat_eq h0)
    rw [Image.word, Image.word, hD (addrs j (Fin.last NDIRECT)).toNat (h.lt h0).1]
  refine ⟨⟨?_, ?_, ?_⟩, hloc⟩
  · rw [hloc]
    exact h.own
  · intro j bn hbn h0
    rw [hloc] at h0 ⊢
    rw [hD _ (h.lt h0).1]
    exact h.stored j bn hbn h0
  · intro b hb
    rw [hD b (by omega)]
    exact h.clean b hb

theorem stored_take (h : Filled D addrs data fb) {p : Place} {bn : ℕ} (hbn : bn < MAXFILE) {j k : ℕ}
    (hlen : p = .ofBlock bn hbn → (data i).length ≤ bn * BSIZE)
    (h0 : update (loc D addrs) (i, p) fb (j, .ofBlock bn hbn) ≠ 0) (hk : k < BSIZE) :
    D (update (loc D addrs) (i, p) fb (j, .ofBlock bn hbn)) k = (data j).getD (bn * BSIZE + k) 0 := by
  by_cases hq : (j, Place.ofBlock bn hbn) = (i, p)
  · obtain ⟨rfl, rfl⟩ := Prod.mk.inj hq
    rw [update_self, h.clean fb (Nat.le_refl _), List.getD_eq_default _ _ (Nat.le_add_right_of_le (hlen rfl))]
  · rw [update_of_ne hq] at h0 ⊢
    exact h.stored j bn hbn h0 k hk

theorem addr (h : Filled D addrs data fb) (hfb : metablocks ≤ fb) (hlt : fb < 2 ^ 32) {k : Fin (NDIRECT + 1)}
    (h0 : addrs i k = 0) (hlen : k ≠ Fin.last NDIRECT → (data i).length ≤ k * BSIZE) :
    Filled D (setAddr addrs i k (BitVec.ofNat 32 fb)) data (fb + 1) ∧
      loc D (setAddr addrs i k (BitVec.ofNat 32 fb)) = update (loc D addrs) (i, .addr k) fb := by
  have hnat : (BitVec.ofNat 32 fb).toNat = fb := by rw [BitVec.toNat_ofNat, Nat.mod_eq_of_lt hlt]
  have hloc : places D.word (setAddr addrs i k (BitVec.ofNat 32 fb)) =
      update (places D.word addrs) (i, .addr k) (BitVec.ofNat 32 fb).toNat :=
    places_addr fun _ => ⟨h0, fun j => by rw [hnat]; exact h.word_clean j⟩
  rw [hnat] at hloc
  refine ⟨⟨?_, ?_, fun b hb => h.clean b (by omega)⟩, hloc⟩
  · rw [loc, hloc, ← insert_Ico hfb]
    exact h.own.take (by simp [loc, places, spot, h0]) (ne_zero hfb) (by simp)
  · intro j bn hbn hj l hl
    rw [loc, hloc] at hj ⊢
    refine h.stored_take hbn (fun hp => ?_) hj hl
    have hk : k ≠ Fin.last NDIRECT := fun hk => Place.ofBlock_ne_indirect hbn (by rw [← hp, hk])
    have hfirst := Place.first_ofBlock hbn
    rw [← hp] at hfirst
    rw [← hfirst]
    exact hlen hk

theorem entry (h : Filled D addrs data fb) (hfb : metablocks ≤ fb) (hlt : fb < 2 ^ 32) {k : Fin NINDIRECT}
    (hi : addrs i (Fin.last NDIRECT) ≠ 0) (h0 : D.word (addrs i (Fin.last NDIRECT)).toNat k = 0)
    (hlen : (data i).length ≤ (NDIRECT + k) * BSIZE)
    (hD : D' = update D (addrs i (Fin.last NDIRECT)).toNat
      (overlay (D (addrs i (Fin.last NDIRECT)).toNat) (4 * k) 4 (byte (BitVec.ofNat 32 fb)))) :
    Filled D' addrs data (fb + 1) ∧ loc D' addrs = update (loc D addrs) (i, .entry k) fb := by
  have hnat : (BitVec.ofNat 32 fb).toNat = fb := by rw [BitVec.toNat_ofNat, Nat.mod_eq_of_lt hlt]
  have hind : loc D addrs (i, .indirect) ≠ 0 := fun h0 => hi (BitVec.eq_of_toNat_eq h0)
  have hlow : (addrs i (Fin.last NDIRECT)).toNat < fb := (h.lt hind).2
  have hother : ∀ b, b ≠ (addrs i (Fin.last NDIRECT)).toNat → D' b = D b := fun b hb => by
    rw [hD, update_of_ne hb]
  have hloc : loc D' addrs = update (loc D addrs) (i, .entry k) fb := by
    rw [← hnat]
    refine places_entry hi ?_ fun j hj l hjl => ?_
    · rw [Image.word, hD, update_self]
      exact word32_eq fun m hm => overlay_at hm
    · by_cases hji : j = i
      · subst hji
        have hkl : (l : ℕ) ≠ k := fun he => hjl.elim (fun hne => hne rfl) fun hne => hne (Fin.ext he)
        rw [Image.word, hD, update_self]
        exact word32_congr fun m hm => overlay_out (by omega)
      · rw [Image.word, Image.word, hother]
        exact h.ne_indirect hi (q := (j, .indirect)) (by simpa using hji)
  refine ⟨⟨?_, ?_, fun b hb => ?_⟩, hloc⟩
  · rw [hloc, ← insert_Ico hfb]
    refine h.own.take ?_ (ne_zero hfb) (by simp)
    simp only [loc, places, spot, if_neg hi, h0]
    rfl
  · intro j bn hbn hj l hl
    rw [hloc] at hj ⊢
    rw [hother]
    · refine h.stored_take hbn (fun hp => ?_) hj hl
      have hfirst := Place.first_ofBlock hbn
      rw [← hp] at hfirst
      rw [← hfirst]
      exact hlen
    · by_cases hq : (j, Place.ofBlock bn hbn) = (i, .entry k)
      · rw [hq, update_self]
        omega
      · rw [update_of_ne hq]
        exact h.ne_indirect hi fun he => Place.ofBlock_ne_indirect hbn (Prod.mk.inj he).2
  · rw [hother b (by omega)]
    exact h.clean b (by omega)

theorem getD_append_take {l p : List Byte} {n m : ℕ} :
    (l ++ p.take n).getD m 0 = if m < l.length then l.getD m 0 else if m < l.length + n then p.getD (m - l.length) 0
      else 0 := by
  simp only [List.getD_eq_getElem?_getD]
  split_ifs with h1 h2
  · rw [List.getElem?_append_left h1]
  · rw [List.getElem?_append_right (by omega), List.getElem?_take_of_lt (by omega)]
  · rw [List.getElem?_append_right (by omega), List.getElem?_take_eq_none (by omega)]
    rfl

/-- **Data is written** behind the end of a file, in the block there. -/
theorem write (h : Filled D addrs data fb) {bn n : ℕ} (hbn : bn < MAXFILE) {p : List Byte}
    (hx : loc D addrs (i, .ofBlock bn hbn) ≠ 0) (hlo : bn * BSIZE ≤ (data i).length)
    (hhi : (data i).length + n ≤ (bn + 1) * BSIZE)
    (hD : D' = update D (loc D addrs (i, .ofBlock bn hbn))
      (overlay (D (loc D addrs (i, .ofBlock bn hbn))) ((data i).length - bn * BSIZE) n fun j => p.getD j 0)) :
    Filled D' addrs (update data i (data i ++ p.take n)) fb ∧ loc D' addrs = loc D addrs := by
  have hother : ∀ b, b ≠ loc D addrs (i, .ofBlock bn hbn) → D' b = D b := fun b hb => by
    rw [hD, update_of_ne hb]
  have hloc : loc D' addrs = loc D addrs := places_congr fun j hj k => by
    rw [Image.word, Image.word, hother]
    intro he
    have := h.ne_indirect hj (q := (i, .ofBlock bn hbn)) fun hq => Place.ofBlock_ne_indirect hbn (Prod.mk.inj hq).2
    exact this he.symm
  refine ⟨⟨?_, ?_, fun b hb => ?_⟩, hloc⟩
  · rw [hloc]
    exact h.own
  · intro j bn' hbn' h0 k hk
    rw [hloc] at h0 ⊢
    have hold := h.stored j bn' hbn' h0 k hk
    by_cases hji : j = i
    · subst hji
      rw [update_self, getD_append_take]
      by_cases hb : bn' = bn
      · subst hb
        rw [hD, update_self]
        simp only [overlay]
        split_ifs with h1 h2 h3 h4 h5
        · omega
        · congr 1
          omega
        · omega
        · exact hold
        · omega
        · rw [hold, List.getD_eq_default _ _ (by omega)]
      · rw [hother, hold]
        · split_ifs with h1 h2
          · rfl
          · simp only [BSIZE] at *
            omega
          · rw [List.getD_eq_default _ _ (by omega)]
        · intro he
          have hp := (Prod.mk.inj (h.own.inj _ _ h0 he)).2
          have hf := Place.first_ofBlock hbn'
          rw [hp, Place.first_ofBlock hbn] at hf
          simp only [BSIZE] at hf
          omega
    · rw [update_of_ne hji, hother, hold]
      intro he
      exact hji (Prod.mk.inj (h.own.inj _ _ h0 he)).1
  · rw [hother b (by have := (h.lt hx).2; omega)]
    exact h.clean b hb

end Filled

/-! ## Lengths -/

/-- The blocks of a file of `len` bytes, its indirect block included. -/
def blocks (len : ℕ) : ℕ := (len + (BSIZE - 1)) / BSIZE + if NDIRECT * BSIZE < len then 1 else 0

theorem blocks_congr {m n : ℕ} (h : (n + 511) / 512 = (m + 511) / 512) : blocks n = blocks m := by
  simp only [blocks, BSIZE, NDIRECT]
  split_ifs <;> omega

theorem blocks_mono {m n : ℕ} (h : m ≤ n) : blocks m ≤ blocks n := by
  simp only [blocks, BSIZE, NDIRECT]
  split_ifs <;> omega

/-- The places in use are those that files of these lengths need. -/
def Used (loc : ℕ × Place → ℕ) (len : ℕ → ℕ) : Prop := ∀ i p, loc (i, p) ≠ 0 ↔ p.first < len i

namespace Used

variable {loc loc' : ℕ × Place → ℕ} {len : ℕ → ℕ} {i : ℕ}

theorem congr (h : Used loc len) {n : ℕ} (hn : (n + 511) / 512 = (len i + 511) / 512) :
    Used loc (update len i n) := by
  intro j p
  rw [h j p]
  by_cases hj : j = i
  · have hp := Place.first_mod p
    rw [hj, update_self]
    omega
  · rw [update_of_ne hj]

theorem grow (h : Used loc len) {bn : ℕ} (hbn : bn < MAXFILE) (hlen : len i = bn * BSIZE)
    (hloc : ∀ q, loc' q ≠ 0 ↔ loc q ≠ 0 ∨ q = (i, .ofBlock bn hbn) ∨ bn = NDIRECT ∧ q = (i, .indirect)) :
    Used loc' (update len i (len i + 1)) := by
  intro j p
  rw [hloc, h j p]
  by_cases hj : j = i
  · subst hj
    have hfirst := Place.first_eq (p := p) hbn
    rw [← hlen] at hfirst
    rw [update_self]
    simp only [Prod.mk.injEq, true_and, ← hfirst]
    omega
  · rw [update_of_ne hj]
    simp [hj]

end Used

/-! ## The primitives -/

section Primitives

variable {s : State} {E : Exit → Prop} {sec : ℕ} {buf : Sector} {din : Dinode} {k : Fin (NDIRECT + 1)}

theorem wp_rsect {Q : Sector → State → Prop} (h : sec < s.sectors) : wp (rsect sec) Q E s ↔ Q (s.disk sec) s := by
  rw [rsect, wp_bind, wp_get, if_pos h, wp_pure]

theorem wp_wsect {Q : PUnit → State → Prop} : wp (wsect sec buf) Q E s ↔
    Q ⟨⟩ { s with disk := update s.disk sec buf, sectors := max s.sectors (sec + 1) } := by
  rw [wsect, wp_bind, wp_get, wp_set]

theorem wp_nextblock {Q : Word → State → Prop} : wp nextblock Q E s ↔
    Q (BitVec.ofNat 32 s.freeblock)
      { s with freeblock := s.freeblock + 1, usedblocks := s.usedblocks + 1 } := by
  rw [nextblock, wp_bind, wp_get, wp_bind, wp_set, wp_pure]

theorem wp_direct_old {Q : Dinode → State → Prop} (h : din.addrs k ≠ 0) : wp (direct din k) Q E s ↔ Q din s := by
  rw [direct, if_neg h, wp_pure]

theorem wp_direct_new {Q : Dinode → State → Prop} (h : din.addrs k = 0) : wp (direct din k) Q E s ↔
    Q { din with addrs := update din.addrs k (BitVec.ofNat 32 s.freeblock) }
      { s with freeblock := s.freeblock + 1, usedblocks := s.usedblocks + 1 } := by
  rw [direct, if_pos h, wp_bind, wp_nextblock, wp_pure]

end Primitives

/-! ## The loop -/

/-- The state in the loop of `iappend`, with the addresses that the inodes have by now. -/
structure Holds (s : State) (addrs : ℕ → Fin (NDIRECT + 1) → Word) (data : ℕ → List Byte) (len : ℕ → ℕ) : Prop where
  filled : Filled s.disk addrs data s.freeblock
  used : Used (loc s.disk addrs) len
  behind : metablocks ≤ s.freeblock
  count : s.usedblocks = s.freeblock
  sectors : s.sectors = size

/-- The metadata is as before. -/
structure Same (s t : State) : Prop where
  freeinode : t.freeinode = s.freeinode
  low : ∀ b < metablocks, t.disk b = s.disk b

/-- What the search for a block finds: the block `r.2`, and the state and the inode `r.1` with the block in them. -/
structure Located (s : State) (addrs : ℕ → Fin (NDIRECT + 1) → Word) (data : ℕ → List Byte) (inum : ℕ) (din : Dinode)
    (bn : ℕ) (r : Dinode × Word) (t : State) : Prop where
  head : r.1 = { din with addrs := r.1.addrs }
  holds : Holds t (update addrs inum r.1.addrs) data
    (update (fun i => (data i).length) inum ((data inum).length + 1))
  found : ∀ h : bn < MAXFILE, r.2.toNat = loc t.disk (update addrs inum r.1.addrs) (inum, .ofBlock bn h)
  same : Same s t
  room : t.freeblock + blocks (data inum).length = s.freeblock + blocks ((data inum).length + 1)

section Loop

variable {s : State} {addrs : ℕ → Fin (NDIRECT + 1) → Word} {data : ℕ → List Byte} {inum bn : ℕ} {din : Dinode}
  {E : Exit → Prop}

theorem wp_indirect (h : Holds s addrs data fun i => (data i).length) (hdin : din.addrs = addrs inum)
    (hbn : (data inum).length / 512 = bn) (hge : NDIRECT ≤ bn) (hlt : s.freeblock < 2 ^ 32) :
    wp (direct din (Fin.last NDIRECT)) (fun d t => d = { din with addrs := d.addrs } ∧ d.addrs (Fin.last NDIRECT) ≠ 0 ∧
      Filled t.disk (update addrs inum d.addrs) data t.freeblock ∧
      (∀ q, loc t.disk (update addrs inum d.addrs) q ≠ 0 ↔
        loc s.disk addrs q ≠ 0 ∨ bn = NDIRECT ∧ q = (inum, .indirect)) ∧
      ∃ n, n = (if (data inum).length = NDIRECT * BSIZE then 1 else 0) ∧
        t = { s with freeblock := s.freeblock + n, usedblocks := s.usedblocks + n }) E s := by
  have hused : loc s.disk addrs (inum, .indirect) ≠ 0 ↔ NDIRECT * BSIZE < (data inum).length := h.used inum .indirect
  by_cases h0 : din.addrs (Fin.last NDIRECT) = 0
  · have hloc0 : loc s.disk addrs (inum, .indirect) = 0 := by simp [loc, places, spot, ← hdin, h0]
    have hlen : (data inum).length = NDIRECT * BSIZE := by
      simp only [hloc0, ne_eq, not_true, false_iff, NDIRECT, BSIZE] at hused hge ⊢
      omega
    have hfb : s.freeblock ≠ 0 := Filled.ne_zero h.behind
    obtain ⟨hf, hl⟩ := h.filled.addr h.behind hlt (i := inum) (k := Fin.last NDIRECT) (by rw [← hdin, h0])
      fun hne => absurd rfl hne
    rw [setAddr, ← hdin] at hf hl
    rw [wp_direct_new h0]
    refine ⟨rfl, ?_, hf, fun q => ?_, 1, by rw [if_pos hlen], rfl⟩
    · simp only [update_self]
      intro he
      have := congrArg BitVec.toNat he
      rw [BitVec.toNat_ofNat, Nat.mod_eq_of_lt hlt] at this
      exact hfb this
    · rw [hl]
      have hbn' : bn = NDIRECT := by simp only [NDIRECT, BSIZE] at *; omega
      by_cases hq : q = (inum, .indirect)
      · subst hq
        simp [hbn', hfb]
      · rw [update_of_ne hq]
        simp [hq]
  · have hold : loc s.disk addrs (inum, .indirect) ≠ 0 := fun he => h0 (by rw [hdin]; exact BitVec.eq_of_toNat_eq he)
    have hlen := hused.mp hold
    have hself : update addrs inum din.addrs = addrs := by rw [hdin, update_eq_self]
    rw [wp_direct_old h0, hself]
    refine ⟨rfl, h0, h.filled, fun q => ?_, 0, by rw [if_neg (by omega)], rfl⟩
    constructor
    · exact .inl
    · rintro (hq | ⟨-, rfl⟩)
      · exact hq
      · exact hold

theorem same_block (hbn : (data inum).length / 512 = bn) (h : bn * BSIZE < (data inum).length) :
    ((data inum).length + 1 + 511) / 512 = ((data inum).length + 511) / 512 := by
  simp only [BSIZE] at h
  omega

theorem wp_locate_direct (h : Holds s addrs data fun i => (data i).length) (hdin : din.addrs = addrs inum)
    (hbn : (data inum).length / 512 = bn) (hmax : bn < MAXFILE) (hd : bn < NDIRECT) (hlt : s.freeblock < 2 ^ 32) :
    wp (locate din bn) (Located s addrs data inum din bn) E s := by
  have hused := h.used inum (.ofBlock bn hmax)
  have hplace : Place.ofBlock bn hmax = .addr ⟨bn, Nat.lt_succ_of_lt hd⟩ := by rw [Place.ofBlock, dif_pos hd]
  rw [Place.first_ofBlock] at hused
  rw [locate, dif_pos hd, wp_bind]
  by_cases h0 : din.addrs ⟨bn, Nat.lt_succ_of_lt hd⟩ = 0
  · have hloc0 : loc s.disk addrs (inum, .ofBlock bn hmax) = 0 := by rw [hplace]; simp [loc, places, spot, ← hdin, h0]
    have hlen : (data inum).length = bn * BSIZE := by
      simp only [hloc0, ne_eq, not_true, false_iff, BSIZE] at hused ⊢
      omega
    have hb : blocks ((data inum).length + 1) = blocks (data inum).length + 1 := by
      rw [hlen]
      simp only [blocks, BSIZE, NDIRECT] at hd ⊢
      split_ifs <;> omega
    obtain ⟨hf, hl⟩ := h.filled.addr h.behind hlt (i := inum) (k := ⟨bn, Nat.lt_succ_of_lt hd⟩) (by rw [← hdin, h0])
      fun _ => Nat.le_of_eq hlen
    rw [setAddr, ← hdin] at hf hl
    rw [wp_direct_new h0, wp_pure]
    refine ⟨rfl, ⟨hf, ?_, Nat.le_succ_of_le h.behind, congrArg (· + 1) h.count, h.sectors⟩, fun _ => ?_,
      ⟨rfl, fun _ _ => rfl⟩, by show s.freeblock + 1 + _ = _; omega⟩
    · refine h.used.grow hmax hlen fun q => ?_
      rw [hl, hplace]
      have hfb := Filled.ne_zero h.behind
      by_cases hq : q = (inum, .addr ⟨bn, Nat.lt_succ_of_lt hd⟩)
      · simp [hq, hfb]
      · rw [update_of_ne hq]
        simp [hq, Nat.ne_of_lt hd]
    · rw [hl, hplace]
      simp only [update_self, BitVec.toNat_ofNat]
      exact Nat.mod_eq_of_lt hlt
  · have hself : update addrs inum din.addrs = addrs := by rw [hdin, update_eq_self]
    have hold : loc s.disk addrs (inum, .ofBlock bn hmax) ≠ 0 := by
      rw [hplace]
      intro he
      exact h0 (by rw [hdin]; exact BitVec.eq_of_toNat_eq he)
    have hend := same_block hbn (hused.mp hold)
    rw [wp_direct_old h0, wp_pure]
    refine ⟨rfl, ⟨?_, ?_, h.behind, h.count, h.sectors⟩, fun _ => ?_, ⟨rfl, fun _ _ => rfl⟩, by
      rw [blocks_congr hend]⟩
    · rw [hself]
      exact h.filled
    · rw [hself]
      exact h.used.congr hend
    · rw [hself, hplace, hdin]
      rfl

theorem wp_locate_entry (h : Holds s addrs data fun i => (data i).length) (hdin : din.addrs = addrs inum)
    (hbn : (data inum).length / 512 = bn) (hmax : bn < MAXFILE) (hge : NDIRECT ≤ bn)
    (hroom : s.freeblock + blocks ((data inum).length + 1) ≤ size + blocks (data inum).length) :
    wp (locate din bn) (Located s addrs data inum din bn) E s := by
  have hk : bn - NDIRECT < NINDIRECT := by simp only [MAXFILE] at hmax; omega
  have hplace : Place.ofBlock bn hmax = .entry ⟨bn - NDIRECT, hk⟩ := by rw [Place.ofBlock, dif_neg (by omega)]
  have hsize : s.freeblock + blocks ((data inum).length + 1) ≤ 1024 + blocks (data inum).length := hroom
  have hmono := blocks_mono (Nat.le_add_right (data inum).length 1)
  have hcount := h.count
  rw [locate, dif_neg (by omega), wp_bind]
  refine (wp_indirect h hdin hbn hge (by omega)).mono fun d t hd => ?_
  obtain ⟨hhead, hind, hf, hl, n, hn, ht⟩ := hd
  subst ht
  have hb : blocks ((data inum).length + 1) = blocks (data inum).length + n +
      if (data inum).length = bn * BSIZE then 1 else 0 := by
    rw [hn]
    simp only [blocks, BSIZE, NDIRECT] at hge ⊢
    split_ifs <;> omega
  have hlocind : loc s.disk (update addrs inum d.addrs) (inum, .indirect) =
      (d.addrs (Fin.last NDIRECT)).toNat := by simp only [loc, places, spot, update_self]
  have hbounds : metablocks ≤ (d.addrs (Fin.last NDIRECT)).toNat ∧
      (d.addrs (Fin.last NDIRECT)).toNat < s.freeblock + n := by
    rw [← hlocind]
    exact hf.lt (hlocind ▸ fun h0 => hind (BitVec.eq_of_toNat_eq h0))
  have hloc : loc s.disk (update addrs inum d.addrs) (inum, .ofBlock bn hmax) =
      (word32 (s.disk (d.addrs (Fin.last NDIRECT)).toNat) (4 * (bn - NDIRECT))).toNat := by
    rw [hplace]
    simp only [loc, places, spot, update_self, if_neg hind]
    rfl
  have hentry : loc s.disk (update addrs inum d.addrs) (inum, .ofBlock bn hmax) ≠ 0 ↔
      bn * BSIZE < (data inum).length := by
    have hused := h.used inum (.ofBlock bn hmax)
    rw [Place.first_ofBlock] at hused
    rw [hl, hused]
    simp [Place.ofBlock_ne_indirect hmax]
  have hsec : (d.addrs (Fin.last NDIRECT)).toNat < 1024 := by omega
  rw [wp_bind, wp_rsect]
  swap
  · rw [h.sectors]
    exact hsec
  split_ifs with h0
  · have hlen : (data inum).length = bn * BSIZE := by
      rw [hloc, h0] at hentry
      simp only [BSIZE] at hentry ⊢
      have : ¬ bn * 512 < (data inum).length := fun hlt => absurd (hentry.mpr hlt) (fun h => h rfl)
      omega
    rw [if_pos hlen] at hb
    have hself : update addrs inum d.addrs inum = d.addrs := update_self ..
    obtain ⟨hf', hl'⟩ := hf.entry (i := inum) (k := ⟨bn - NDIRECT, hk⟩) (Nat.le_add_right_of_le h.behind)
      (by show s.freeblock + n < _; omega) (by rw [hself]; exact hind) (by rw [hself]; exact h0)
      (by rw [hlen]; exact Nat.mul_le_mul_right _ (by simp only; omega)) rfl
    simp only [hself] at hf' hl'
    rw [wp_bind, wp_nextblock, wp_bind, wp_wsect, wp_pure]
    refine ⟨hhead, ⟨hf', ?_, ?_, ?_, ?_⟩, fun _ => ?_, ⟨rfl, fun b hb => ?_⟩, ?_⟩
    · refine h.used.grow hmax hlen fun q => ?_
      rw [hl', hplace]
      have hfb := Filled.ne_zero h.behind
      by_cases hq : q = (inum, .entry ⟨bn - NDIRECT, hk⟩)
      · simp [hq, hfb]
      · rw [update_of_ne hq, hl]
        simp [hq]
    · show metablocks ≤ s.freeblock + n + 1
      have := h.behind
      omega
    · show s.usedblocks + n + 1 = s.freeblock + n + 1
      omega
    · show max s.sectors _ = size
      rw [h.sectors]
      exact Nat.max_eq_left hsec
    · rw [hl', hplace, update_self]
      exact (BitVec.toNat_ofNat ..).trans (Nat.mod_eq_of_lt (by show s.freeblock + n < _; omega))
    · exact update_of_ne (by omega) ..
    · show s.freeblock + n + 1 + _ = _
      omega
  · have hlen : bn * BSIZE < (data inum).length := hentry.mp (by
      rw [hloc]
      exact fun he => h0 (BitVec.eq_of_toNat_eq he))
    have hend := same_block hbn hlen
    rw [blocks_congr hend] at hb
    obtain rfl : n = 0 := by omega
    rw [wp_pure]
    refine ⟨hhead, ⟨hf, fun j p => ?_, h.behind, h.count, h.sectors⟩, fun _ => hloc.symm, ⟨rfl, fun _ _ => rfl⟩, by
      rw [blocks_congr hend]; rfl⟩
    rw [← (h.used.congr hend) j p, hl]
    constructor
    · rintro (hq | ⟨-, hq⟩)
      · exact hq
      · rw [hq, h.used]
        exact Nat.lt_of_le_of_lt (Nat.mul_le_mul_right BSIZE hge) hlen
    · exact .inl

/-- **The block in which the loop writes.** -/
theorem wp_locate (h : Holds s addrs data fun i => (data i).length) (hdin : din.addrs = addrs inum)
    (hbn : (data inum).length / 512 = bn) (hmax : bn < MAXFILE)
    (hroom : s.freeblock + blocks ((data inum).length + 1) ≤ size + blocks (data inum).length) :
    wp (locate din bn) (Located s addrs data inum din bn) E s := by
  have hmono := blocks_mono (Nat.le_add_right (data inum).length 1)
  have hlt : s.freeblock < 2 ^ 32 := by simp only [size] at hroom; omega
  rcases Nat.lt_or_ge bn NDIRECT with hd | hge
  · exact wp_locate_direct h hdin hbn hmax hd hlt
  · exact wp_locate_entry h hdin hbn hmax hge hroom

theorem length_update {l : List Byte} :
    (fun i => (update data inum l i).length) = update (fun i => (data i).length) inum l.length := by
  funext i
  by_cases hi : i = inum
  · rw [hi, update_self, update_self]
  · rw [update_of_ne hi, update_of_ne hi]

/-- **One round of the loop** puts `n` bytes at the end of the file, in the block that it has found. -/
theorem Located.write {t : State} {d : Dinode} {x : Word} {n : ℕ} {p : List Byte}
    (h : Located s addrs data inum din bn (d, x) t) (hbn : (data inum).length / 512 = bn) (hmax : bn < MAXFILE)
    (hn : 0 < n ∧ n ≤ p.length ∧ (data inum).length + n ≤ (bn + 1) * 512) (hroom : t.freeblock ≤ size) :
    x.toNat < t.sectors ∧ metablocks ≤ x.toNat ∧
      Holds { t with
          disk := update t.disk x.toNat
            (overlay (t.disk x.toNat) ((data inum).length - bn * 512) n fun i => p.getD i 0)
          sectors := max t.sectors (x.toNat + 1) }
        (update addrs inum d.addrs) (update data inum (data inum ++ p.take n))
        fun i => (update data inum (data inum ++ p.take n) i).length := by
  obtain ⟨-, hholds, hfound, -, -⟩ := h
  have hx := hfound hmax
  have hlo : bn * BSIZE ≤ (data inum).length := by simp only [BSIZE]; omega
  have hx0 : loc t.disk (update addrs inum d.addrs) (inum, .ofBlock bn hmax) ≠ 0 := by
    rw [hholds.used, Place.first_ofBlock, update_self]
    exact Nat.lt_succ_of_le hlo
  obtain ⟨hlow, hlt⟩ := hholds.filled.lt hx0
  obtain ⟨hf, hl⟩ := hholds.filled.write (n := n) (p := p) hmax hx0 hlo hn.2.2 rfl
  simp only at hx
  rw [← hx] at hf hl hlow hlt
  have hsec : x.toNat < t.sectors := by rw [hholds.sectors]; omega
  refine ⟨hsec, hlow, hf, ?_, hholds.behind, hholds.count, ?_⟩
  · have hlen : (data inum ++ p.take n).length = (data inum).length + n := by
      rw [List.length_append, List.length_take]
      omega
    rw [length_update, hlen]
    have hused := hholds.used.congr (i := inum) (n := (data inum).length + n) (by
      rw [update_self]
      omega)
    rw [update_idem, ← hl] at hused
    exact hused
  · show max t.sectors _ = size
    rw [Nat.max_eq_left hsec]
    exact hholds.sectors

/-- **The loop of `iappend`.** It stops only when the file gets too long. -/
theorem wp_iappendLoop {fuel : ℕ} {p : List Byte} (hfuel : p.length ≤ fuel)
    (h : Holds s (update addrs inum din.addrs) data fun i => (data i).length)
    (hle : (data inum).length ≤ MAXFILE * BSIZE)
    (hroom : s.freeblock + blocks ((data inum).length + p.length) ≤ size + blocks (data inum).length)
    (hE : MAXFILE * BSIZE < (data inum).length + p.length → ∀ e, E e) :
    wp (iappendLoop fuel din (data inum).length p) (fun r t =>
      r.1 = { din with addrs := r.1.addrs } ∧ r.2 = (data inum).length + p.length ∧ r.2 ≤ MAXFILE * BSIZE ∧
      Holds t (update addrs inum r.1.addrs) (update data inum (data inum ++ p))
        (fun i => (update data inum (data inum ++ p) i).length) ∧
      Same s t ∧ t.freeblock + blocks (data inum).length = s.freeblock + blocks ((data inum).length + p.length)) E s := by
  induction fuel generalizing s din data p with
  | zero =>
    obtain rfl := List.length_eq_zero_iff.mp (Nat.le_zero.mp hfuel)
    rw [iappendLoop, wp_pure, List.append_nil, update_eq_self]
    exact ⟨rfl, rfl, hle, h, ⟨rfl, fun _ _ => rfl⟩, rfl⟩
  | succ fuel ih =>
    rw [iappendLoop]
    split_ifs with hp hmax
    · subst hp
      rw [wp_pure, List.append_nil, update_eq_self]
      exact ⟨rfl, rfl, hle, h, ⟨rfl, fun _ _ => rfl⟩, rfl⟩
    · have hpos : 0 < p.length := List.length_pos_iff.mpr hp
      rw [wp_bind]
      have hmono := blocks_mono (show (data inum).length + 1 ≤ (data inum).length + p.length by omega)
      refine (wp_locate h (by rw [update_self]) rfl hmax (by omega)).mono fun r t hr => ?_
      obtain ⟨d, x⟩ := r
      have hsame := hr.same
      have hcount := hr.room
      have hhead := hr.head
      simp only at hhead ⊢
      generalize hn1 : min p.length (((data inum).length / 512 + 1) * 512 - (data inum).length) = n1
      have hn1' : 0 < n1 ∧ n1 ≤ p.length ∧ (data inum).length + n1 ≤ ((data inum).length / 512 + 1) * 512 := by omega
      obtain ⟨hsec, hlow, hholds⟩ := hr.write rfl hmax hn1' (by omega)
      rw [update_idem] at hholds
      rw [wp_bind, wp_rsect hsec, wp_bind, wp_wsect]
      -- the rest of the loop works on the longer file
      have hlen : (update data inum (data inum ++ p.take n1) inum).length = (data inum).length + n1 := by
        rw [update_self, List.length_append, List.length_take]
        omega
      have hrest : (data inum).length + n1 + (p.drop n1).length = (data inum).length + p.length := by
        rw [List.length_drop]
        omega
      have hblocks : blocks ((data inum).length + n1) = blocks ((data inum).length + 1) := blocks_congr (by omega)
      have := ih (p := p.drop n1) (by rw [List.length_drop]; omega) hholds
        (by
          rw [hlen]
          exact Nat.le_trans hn1'.2.2 (Nat.mul_le_mul_right 512 hmax))
        (by
          rw [hlen, hrest, hblocks]
          show t.freeblock + _ ≤ _
          omega)
        (by rw [hlen, hrest]; exact hE)
      rw [hlen, hrest, hblocks, update_self, update_idem, List.append_assoc,
        List.take_append_drop] at this
      refine this.mono fun r u ⟨hh, hr2, hm, hu, hs, hc⟩ => ⟨?_, hr2, hm, hu, ⟨?_, fun b hb => ?_⟩, ?_⟩
      · rw [hh, hhead]
      · rw [hs.freeinode]
        exact hsame.freeinode
      · rw [hs.low b hb]
        exact (update_of_ne (by omega) ..).trans (hsame.low b hb)
      · have hc' : u.freeblock + blocks ((data inum).length + 1) = t.freeblock + blocks ((data inum).length + p.length) := hc
        omega
    · rw [wp_throw]
      apply hE
      simp only [MAXFILE, NDIRECT, NINDIRECT, BSIZE] at hmax ⊢
      have := List.length_pos_iff.mpr hp
      omega

end Loop

end Xv6.Disk.Mkfs
