import Xv6.Paging.Tables

/-!
# `mappages` and `setupkvm`

One round of the loop of `mappages` maps one page (`Grows`, `translate_setEntry`), and the loop ends at its last page,
also when that is the last page of the address space (`wp_mapFrom`).

- `wp_mappages`: pages that were not mapped are mapped as asked, and no others are touched;
- `wp_mapKernel`: regions that do not overlap are mapped one after the other;
- `wp_setupkvm`: a new directory has the four regions of the kernel.
-/

namespace Xv6.Paging

open Lib
open Vm (Frame PGSIZE NPTENTRIES KERNBASE PHYSTOP DEVSPACE pgroundup pgrounddown pdx)

variable {s t : State} {d va size pa perm a last data : ℕ} {l l' : List ℕ} {E : Stop → Prop}

/-! ## `mappages` -/

/-- The translation of the pages from `a` up to `last`, mapped to the memory from `pa` on. -/
def Mapped (s : State) (d a last pa perm : ℕ) (t : State) : Prop :=
  ∀ x < 2 ^ 32, t.translate d x =
    if a ≤ x ∧ x < last + PGSIZE then some ((pa + (pgrounddown x - a)) % 2 ^ 32 / PGSIZE, perm ||| PTE_P)
    else s.translate d x

/-- No page from `a` up to `last` is present. -/
def Vacant (s : State) (d a last : ℕ) : Prop := ∀ x, a ≤ x → x < last + PGSIZE → s.translate d x = none

theorem Mapped.cons {u : State} (ha : a % PGSIZE = 0) (hlast : last % PGSIZE = 0) (hlt : a < last)
    (hpa : pa % PGSIZE = 0) (h : Mapped s d a a pa perm u)
    (h' : Mapped u d (a + PGSIZE) last ((pa + PGSIZE) % 2 ^ 32) perm t) : Mapped s d a last pa perm t := by
  intro x hx
  have hle : a + PGSIZE ≤ last := by
    simp only [PGSIZE] at ha hlast ⊢
    omega
  rw [h' x hx, h x hx]
  by_cases hx1 : a + PGSIZE ≤ x ∧ x < last + PGSIZE
  · have hx2 : a ≤ x ∧ x < last + PGSIZE := ⟨by omega, hx1.2⟩
    have hsum : ((pa + PGSIZE) % 2 ^ 32 + (pgrounddown x - (a + PGSIZE))) % 2 ^ 32 =
        (pa + (pgrounddown x - a)) % 2 ^ 32 := by
      simp only [pgrounddown, PGSIZE] at ha hpa hx1 ⊢
      omega
    rw [if_pos hx1, if_pos hx2, hsum]
  · rw [if_neg hx1]
    by_cases hx2 : a ≤ x ∧ x < a + PGSIZE
    · rw [if_pos hx2, if_pos ⟨hx2.1, by omega⟩]
    · rw [if_neg hx2, if_neg (by omega)]

theorem wp_mapFrom (hperm : perm < PGSIZE) (hlast : last % PGSIZE = 0) (hlt : last < 2 ^ 32) :
    ∀ (fuel a pa : ℕ) (s : State) (l : List ℕ), Good s l d → a % PGSIZE = 0 → a ≤ last → pa % PGSIZE = 0 →
      pa < 2 ^ 32 → last / PGSIZE - a / PGSIZE < fuel → Vacant s d a last →
      wp (mapFrom d perm last fuel a pa)
        (fun ok t => ∃ l', Grows l d s l' t ∧ (ok = true → Mapped s d a last pa perm t) ∧
          (ok = false → s.fails = [] → l.length < missing s d)) E s := by
  intro fuel
  induction fuel with
  | zero => intro a pa s l _ _ _ _ _ hfuel; omega
  | succ fuel ih =>
    intro a pa s l hs ha hle hpa hpalt hfuel hvac
    have halt : a < 2 ^ 32 := by omega
    unfold mapFrom
    rw [wp_bind]
    refine wp_walkpgdir hs halt (fun t ht hfew => ⟨l, ht, fun hok => absurd hok Bool.false_ne_true, fun _ => hfew⟩)
      fun f i l' t ht hw hsame => ?_
    simp only
    rw [wp_bind, wp_get]
    -- the entry is not present, as the page is not mapped
    have hnone : t.translate d a = none := by
      rw [hsame a halt]
      exact hvac a le_rfl (by simp only [PGSIZE]; omega)
    have hfree : present (t.word f i) = false := by
      rw [State.translate, entry_of_walk hw] at hnone
      by_contra hp
      simp [hp] at hnone
    have hset : Grows l' d t l' (t.setWord f i (pte pa perm)) := ht.good.setEntry halt hw
    have hone : Mapped s d a a pa perm (t.setWord f i (pte pa perm)) := by
      intro x hx
      rw [translate_setEntry ht.good.dir halt hw hx, present_pte hpa hpalt hperm, frame_pte hpa hpalt hperm,
        pteFlags_pte hpa hpalt hperm, hsame x hx]
      by_cases hpage : x / PGSIZE = a / PGSIZE
      · have hin : a ≤ x ∧ x < a + PGSIZE := by
          simp only [PGSIZE] at *
          omega
        have hdown : pgrounddown x - a = 0 := by
          simp only [pgrounddown, PGSIZE] at *
          omega
        rw [if_pos hpage, if_pos hin, hdown, Nat.add_zero, Nat.mod_eq_of_lt hpalt, if_pos rfl]
      · rw [if_neg hpage, if_neg]
        simp only [PGSIZE] at *
        omega
    rw [hfree, if_neg Bool.false_ne_true, wp_bind, wp_set]
    by_cases heq : a = last
    · rw [if_pos heq, wp_pure]
      exact ⟨l', ht.trans hset, fun _ => heq ▸ hone, fun hok => absurd hok (by decide)⟩
    · have hnext : (a + PGSIZE) % 2 ^ 32 = a + PGSIZE := by
        refine Nat.mod_eq_of_lt ?_
        simp only [PGSIZE] at *
        omega
      rw [if_neg heq, hnext]
      refine (ih _ _ _ l' hset.good ?_ ?_ ?_ (Nat.mod_lt _ (by simp)) ?_ fun x hx hx' => ?_).mono fun ok u hu => ?_
      · simp only [PGSIZE] at *
        omega
      · simp only [PGSIZE] at *
        omega
      · simp only [PGSIZE] at *
        omega
      · simp only [PGSIZE] at *
        omega
      · have hxlt : x < 2 ^ 32 := by
          simp only [PGSIZE] at *
          omega
        rw [hone x hxlt, if_neg (by omega)]
        exact hvac x (by omega) hx'
      · obtain ⟨l'', hu1, hu2, hu3⟩ := hu
        refine ⟨l'', (ht.trans hset).trans hu1, fun hok => hone.cons ha hlast (by omega) hpa (hu2 hok),
          fun hok he => ?_⟩
        have hcount := (ht.trans hset).count
        have := hu3 hok ((ht.trans hset).fails he)
        omega

/-- **`mappages`**: the pages that hold the `size` bytes from `va` on. -/
theorem wp_mappages (hs : Good s l d) (hsize : 0 < size) (hva : va + size ≤ 2 ^ 32) (hpa : pa % PGSIZE = 0)
    (hpalt : pa < 2 ^ 32) (hperm : perm < PGSIZE) (hvac : Vacant s d (pgrounddown va) (pgrounddown (va + size - 1))) :
    wp (mappages d va size pa perm) (fun ok t => ∃ l', Grows l d s l' t ∧
      (ok = true → Mapped s d (pgrounddown va) (pgrounddown (va + size - 1)) pa perm t) ∧
      (ok = false → s.fails = [] → l.length < missing s d)) E s := by
  have hend : (va + size + (2 ^ 32 - 1)) % 2 ^ 32 = va + size - 1 := by omega
  unfold mappages
  rw [hend]
  refine wp_mapFrom hperm ?_ ?_ _ _ _ s l hs ?_ ?_ hpa hpalt ?_ hvac
  · exact Nat.mul_mod_left _ _
  · simp only [pgrounddown, PGSIZE]
    omega
  · exact Nat.mul_mod_left _ _
  · simp only [pgrounddown, PGSIZE]
    omega
  · simp only [pgrounddown, NPAGES, PGSIZE]
    omega

/-! ## `setupkvm` -/

def Kmap.Covers (k : Kmap) (a : ℕ) : Prop := k.virt ≤ a ∧ a < k.virt + k.size

/-- Where the address is mapped to. -/
def Kmap.target (k : Kmap) (a : ℕ) : ℕ × ℕ := ((k.physStart + (a - k.virt)) / PGSIZE, k.perm ||| PTE_P)

/-- A region of whole pages that is not empty and lies in the address space. -/
structure Kmap.Fits (k : Kmap) : Prop where
  virt : k.virt % PGSIZE = 0
  phys : k.physStart % PGSIZE = 0
  size : k.size % PGSIZE = 0
  pos : 0 < k.size
  virtEnd : k.virt + k.size ≤ 2 ^ 32
  physEnd : k.physStart + k.size ≤ 2 ^ 32
  perm : k.perm < PGSIZE

/-- What the regions are mapped to, and nothing besides. -/
structure Regions (ks : List Kmap) (s : State) (d : ℕ) (t : State) : Prop where
  covered : ∀ k ∈ ks, ∀ a, k.Covers a → t.translate d a = some (k.target a)
  other : ∀ a < 2 ^ 32, (∀ k ∈ ks, ¬ k.Covers a) → t.translate d a = s.translate d a

theorem Kmap.Fits.mapped {k : Kmap} (h : k.Fits)
    (hm : Mapped s d (pgrounddown k.virt) (pgrounddown (k.virt + k.size - 1)) k.physStart k.perm t) :
    Regions [k] s d t := by
  obtain ⟨hv, hp, hsz, hpos, hve, hpe, -⟩ := h
  have hdown : pgrounddown k.virt = k.virt := by
    simp only [pgrounddown, PGSIZE] at hv ⊢
    omega
  have hlast : pgrounddown (k.virt + k.size - 1) + PGSIZE = k.virt + k.size := by
    simp only [pgrounddown, PGSIZE] at hv hsz ⊢
    omega
  rw [Mapped, hdown, hlast] at hm
  constructor
  · intro k' hk' a ha
    obtain rfl : k = k' := (List.mem_singleton.mp hk').symm
    obtain ⟨h1, h2⟩ := ha
    have hpage : (k.physStart + (pgrounddown a - k.virt)) % 2 ^ 32 / PGSIZE =
        (k.physStart + (a - k.virt)) / PGSIZE := by
      simp only [pgrounddown, PGSIZE] at hv hp hsz ⊢
      omega
    rw [hm a (by omega), if_pos ⟨h1, h2⟩, Kmap.target, hpage]
  · intro a ha hno
    have hnot : ¬ (k.virt ≤ a ∧ a < k.virt + k.size) := hno k List.mem_cons_self
    rw [hm a ha, if_neg hnot]

theorem Regions.cons {u : State} {k : Kmap} {ks : List Kmap} (hsep : ∀ k' ∈ ks, ∀ a, k.Covers a → ¬ k'.Covers a)
    (hlt : k.virt + k.size ≤ 2 ^ 32) (h : Regions [k] s d u) (h' : Regions ks u d t) : Regions (k :: ks) s d t := by
  constructor
  · intro k' hk' a ha
    rcases List.mem_cons.mp hk' with rfl | hk'
    · rw [h'.other a (by have := ha.2; omega) fun k'' hk'' => hsep k'' hk'' a ha]
      exact h.covered _ List.mem_cons_self a ha
    · exact h'.covered k' hk' a ha
  · intro a ha hno
    rw [h'.other a ha fun k' hk' => hno k' (List.mem_cons_of_mem _ hk')]
    exact h.other a ha fun k' hk' => by
      rw [List.mem_singleton.mp hk']
      exact hno k List.mem_cons_self

/-- **The loop of `setupkvm`** over regions that do not overlap. -/
theorem wp_mapKernel : ∀ (ks : List Kmap) (s : State) (l : List ℕ), Good s l d → (∀ k ∈ ks, k.Fits) →
    ks.Pairwise (fun k k' => ∀ a, k.Covers a → ¬ k'.Covers a) →
    (∀ k ∈ ks, ∀ a, k.Covers a → s.translate d a = none) →
    wp (mapKernel d ks) (fun ok t => ∃ l', Grows l d s l' t ∧ (ok = true → Regions ks s d t) ∧
      (ok = false → s.fails = [] → l.length < missing s d)) E s
  | [], s, l, hs, _, _, _ => ⟨l, .rfl hs, fun _ => ⟨nofun, fun _ _ _ => rfl⟩, nofun⟩
  | k :: ks, s, l, hs, hfits, hsep, hvac => by
    have hk := hfits k List.mem_cons_self
    obtain ⟨hk1, hk2⟩ := List.pairwise_cons.mp hsep
    have hphys : k.physStart < 2 ^ 32 := by
      have := hk.physEnd
      have := hk.pos
      omega
    have hvack : Vacant s d (pgrounddown k.virt) (pgrounddown (k.virt + k.size - 1)) := by
      intro x hx hx'
      refine hvac k List.mem_cons_self x ?_
      obtain ⟨hv, hp, hsz, hpos, hve, hpe, -⟩ := hk
      simp only [Kmap.Covers, pgrounddown, PGSIZE] at *
      omega
    unfold mapKernel
    rw [wp_bind]
    refine (wp_mappages hs hk.pos hk.virtEnd hk.phys hphys hk.perm hvack).mono fun ok t ⟨l', ht, hmap, hfew⟩ => ?_
    split_ifs with hok
    · have hone := hk.mapped (hmap hok)
      refine (wp_mapKernel ks t l' ht.good (fun k' h => hfits k' (List.mem_cons_of_mem _ h)) hk2 fun k' h a ha => ?_).mono
        fun ok' u ⟨l'', hu, hall, hfew'⟩ => ⟨l'', ht.trans hu, fun hok' => hone.cons hk1 hk.virtEnd (hall hok'),
          fun hok' he => ?_⟩
      swap
      · have hcount := ht.count
        have := hfew' hok' (ht.fails he)
        omega
      have halt : a < 2 ^ 32 := by
        have := ha.2
        have := (hfits k' (List.mem_cons_of_mem _ h)).virtEnd
        omega
      rw [hone.other a halt fun k'' h'' => by
        rw [List.mem_singleton.mp h'']
        exact fun hc => hk1 k' h a hc ha]
      exact hvac k' (List.mem_cons_of_mem _ h) a ha
    · exact ⟨l', ht, nofun, fun _ => hfew (Bool.eq_false_iff.mpr hok)⟩

/-- The address of the kernel's data is that of a page between the kernel's text and the end of memory. -/
structure Linked (data : ℕ) : Prop where
  page : data % PGSIZE = 0
  low : KERNLINK < data
  high : data < KERNBASE + PHYSTOP

theorem kmap_fits (h : Linked data) : ∀ k ∈ kmap data, k.Fits := by
  obtain ⟨hpage, hlow, hhigh⟩ := h
  simp only [kmap, List.mem_cons, List.not_mem_nil, or_false, forall_eq_or_imp, forall_eq]
  simp only [KERNLINK, KERNBASE, PHYSTOP, EXTMEM, PGSIZE, DEVSPACE, PTE_W] at *
  refine ⟨?_, ?_, ?_, ?_⟩ <;>
    · constructor <;> simp only [Kmap.size, PGSIZE] <;> omega

theorem kmap_apart (h : Linked data) : (kmap data).Pairwise fun k k' => ∀ a, k.Covers a → ¬ k'.Covers a := by
  obtain ⟨hpage, hlow, hhigh⟩ := h
  simp only [kmap, List.pairwise_cons, List.mem_cons, List.not_mem_nil, or_false, forall_eq_or_imp, forall_eq,
    Kmap.Covers, Kmap.size]
  simp only [KERNLINK, KERNBASE, PHYSTOP, EXTMEM, PGSIZE, DEVSPACE] at *
  refine ⟨⟨?_, ?_, ?_⟩, ⟨?_, ?_⟩, ?_, nofun, .nil⟩ <;> intro a <;> omega

/-- A cleared page is a directory that maps nothing. -/
structure Clear (s : State) (l : List ℕ) (f : ℕ) : Prop where
  good : Good s l f
  part : ∀ g, Part s f g ↔ g = f
  translate : ∀ a, s.translate f a = none
  missing : missing s f = NPTENTRIES

theorem Free.clear {f : ℕ} (h : Free s l) (hf : f ∉ l) : Clear (s.setPage f fun _ => 0) l f := by
  have hword : ∀ i, present ((s.setPage f fun _ => 0).word f i) = false := fun i => by
    rw [State.word, mem_setPage_self, word32_zero]
    rfl
  have hpart : ∀ g, Part (s.setPage f fun _ => 0) f g ↔ g = f := by
    intro g
    simp only [Part, hword, Bool.false_eq_true, false_and, and_false, exists_false, or_false]
  refine ⟨⟨h.congr rfl fun g hg => mem_setPage_ne fun he => hf (he ▸ hg), ⟨fun i _ hp => ?_, fun i _ j _ hp => ?_⟩,
    fun g hg hp => hf ((hpart g).mp hp ▸ hg)⟩, hpart, fun a => ?_, ?_⟩
  · rw [hword] at hp
    cases hp
  · rw [hword] at hp
    cases hp
  · rw [State.translate, State.entry, State.walk, hword]
    rfl
  · simp only [Paging.missing, hword, Finset.filter_true, Finset.card_range]

/-- **A new directory** with the regions of the kernel. All that has been written are pages from the free list. -/
structure Kernel (data : ℕ) (s : State) (l : List ℕ) (d : ℕ) (l' : List ℕ) (t : State) : Prop where
  good : Good t l' d
  sub : l' ⊆ l
  part : ∀ g, Part t d g → g ∈ l ∧ g ∉ l'
  mem : ∀ g ∉ l, t.mem g = s.mem g
  covered : ∀ k ∈ kmap data, ∀ a, k.Covers a → t.translate d a = some (k.target a)
  other : ∀ a < 2 ^ 32, (∀ k ∈ kmap data, ¬ k.Covers a) → t.translate d a = none
  fails : s.fails = [] → t.fails = []
  count : NPTENTRIES + 1 + l'.length = Paging.missing t d + l.length

/-- **`setupkvm`** fails for want of a page only. -/
theorem wp_setupkvm {Q : Option ℕ → State → Prop} (h : Free s l) (hdata : Linked data)
    (knone : ∀ t, (s.fails = [] → l.length < NPTENTRIES + 1) → Q none t)
    (ksome : ∀ d l' t, Kernel data s l d l' t → Q (some d) t) : wp (setupkvm data) Q E s := by
  unfold setupkvm
  rw [wp_bind]
  refine wp_kalloc h (fun t _ _ hnil => knone t fun he => ?_) fun f l' t hl hb hf => ?_
  · rw [hnil he]
    exact Nat.succ_pos _
  subst hl
  have hnotin : f ∉ l' := (List.nodup_cons.mp h.nodup).1
  have hclear := hf.clear hnotin
  have hmissing := hclear.missing
  simp only [memset]
  rw [wp_bind, wp_modify, if_neg (by simp [KERNBASE, PHYSTOP, DEVSPACE]), wp_bind]
  refine (wp_mapKernel (kmap data) _ l' hclear.good (kmap_fits hdata) (kmap_apart hdata)
    fun _ _ a _ => hclear.translate a).mono fun ok u h => ?_
  obtain ⟨l'', hu, hall, hfew⟩ := h
  rw [wp_pure]
  split_ifs with hok
  · have hreg := hall hok
    have hcount := hu.count
    refine ksome f l'' u ⟨hu.good, fun g hg => List.mem_cons_of_mem _ (hu.subset hg), fun g hg => ?_, fun g hg => ?_,
      hreg.covered, fun a ha hno => ?_, fun he => hu.fails (hb.fails he), ?_⟩
    · rcases hu.part g hg with hg | ⟨hg, hg'⟩
      · rw [(hclear.part g).mp hg]
        exact ⟨List.mem_cons_self, fun hm => hnotin (hu.subset hm)⟩
      · exact ⟨List.mem_cons_of_mem _ hg, hg'⟩
    · obtain ⟨hgf, hgl⟩ := not_or.mp (fun hm => hg (List.mem_cons.mpr hm))
      rw [hu.mem g hgl fun hp => hgf ((hclear.part g).mp hp), mem_setPage_ne hgf, hb.page g]
    · rw [hreg.other a ha hno, hclear.translate a]
    · rw [List.length_cons]
      omega
  · refine knone u fun he => ?_
    have := hfew (Bool.eq_false_iff.mpr hok) (hb.fails he)
    rw [List.length_cons]
    omega

/-- **`mappages` builds the translation that is asked for** and changes no other, up to the top of the address space; it
always returns, and fails for want of a page only. **`setupkvm`** maps the four regions of the kernel and never maps a
page twice. -/
theorem mappages_exact :
    (∀ (s : State) (l : List ℕ) (d va size pa perm : ℕ), Good s l d → 1 ≤ size → va + size ≤ 2 ^ 32 →
      pa % PGSIZE = 0 → pa < 2 ^ 32 → perm < PGSIZE →
      (∀ a, a % PGSIZE = 0 → pgrounddown va ≤ a → a ≤ pgrounddown (va + size - 1) → s.translate d a = none) →
      ∃ ok t, mappages d va size pa perm s = .ok (ok, t) ∧ (s.fails = [] → missing s d ≤ l.length → ok = true) ∧
        (ok = true →
          (∀ a, a % PGSIZE = 0 → pgrounddown va ≤ a → a ≤ pgrounddown (va + size - 1) →
            t.translate d a = some ((pa + (a - pgrounddown va)) % 2 ^ 32 / PGSIZE, perm ||| PTE_P)) ∧
          ∀ a < 2 ^ 32, a % PGSIZE = 0 → ¬ (pgrounddown va ≤ a ∧ a ≤ pgrounddown (va + size - 1)) →
            t.translate d a = s.translate d a)) ∧
    ∀ (s : State) (l : List ℕ) (data : ℕ), Free s l → Linked data → ∃ r t, setupkvm data s = .ok (r, t) ∧
      (s.fails = [] → NPTENTRIES + 1 ≤ l.length → r ≠ none) ∧
      ∀ d ∈ r, (∀ k ∈ kmap data, ∀ a, k.Covers a → t.translate d a = some (k.target a)) ∧
        ∀ a < 2 ^ 32, (∀ k ∈ kmap data, ¬ k.Covers a) → t.translate d a = none := by
  constructor
  · intro s l d va size pa perm hs hsize hva hpa hpalt hperm hnone
    have hvac : Vacant s d (pgrounddown va) (pgrounddown (va + size - 1)) := by
      intro x hx hx'
      have hpage : x / PGSIZE = pgrounddown x / PGSIZE := (Nat.mul_div_cancel _ (by decide)).symm
      rw [translate_page hpage]
      refine hnone _ (Nat.mul_mod_left _ _) ?_ ?_
      · simp only [pgrounddown, PGSIZE] at hx ⊢
        omega
      · simp only [pgrounddown, PGSIZE] at hx' ⊢
        omega
    obtain ⟨ok, t, hrun, l', -, hmap, hfew⟩ := (wp_mappages hs hsize hva hpa hpalt hperm hvac).returns
    refine ⟨ok, t, hrun, fun he hle => ?_, fun hok => ⟨fun a ha hlow hhigh => ?_, fun a ha hpage hout => ?_⟩⟩
    · by_contra hok
      exact absurd (hfew (Bool.eq_false_iff.mpr hok) he) (not_lt.mpr hle)
    · have hlast : pgrounddown (va + size - 1) < 2 ^ 32 := by
        simp only [pgrounddown, PGSIZE]
        omega
      have hdown : pgrounddown a = a := by
        simp only [pgrounddown, PGSIZE] at ha ⊢
        omega
      rw [hmap hok a (by omega), if_pos ⟨hlow, by simp only [PGSIZE]; omega⟩, hdown]
    · rw [hmap hok a ha, if_neg]
      simp only [pgrounddown, PGSIZE] at hpage hout ⊢
      omega
  · intro s l data hs hdata
    have h := wp_setupkvm (E := fun _ => False) (Q := fun r t =>
      (s.fails = [] → NPTENTRIES + 1 ≤ l.length → r ≠ none) ∧ ∀ d ∈ r,
        (∀ k ∈ kmap data, ∀ a, k.Covers a → t.translate d a = some (k.target a)) ∧
          ∀ a < 2 ^ 32, (∀ k ∈ kmap data, ¬ k.Covers a) → t.translate d a = none) hs hdata
      (fun _ hfew => ⟨fun he hle => absurd (hfew he) (not_lt.mpr hle), nofun⟩) fun f l' t hk => by
        refine ⟨nofun, fun d hd => ?_⟩
        cases hd
        exact ⟨hk.covered, hk.other⟩
    exact h.returns

/-! ## Memories with free pages -/

theorem setPage_eq_self {f : ℕ} {m : ℕ → Byte} (h : s.mem f = m) : s.setPage f m = s := by
  unfold State.setPage
  rw [← h, Function.update_eq_self]

/-- A memory in which the `n` pages from `lo` on are free. -/
def pool (m : Frame → ℕ → Byte) (lo n : ℕ) : State where
  mem f := if lo ≤ f ∧ f < lo + n then byte (p2v (if f + 1 < lo + n then some (f + 1) else none)) else m f
  first := 0
  freelist := if n = 0 then none else some lo
  fails := []

theorem mem_pool {m : Frame → ℕ → Byte} {lo n f : ℕ} (h : f < lo) : (pool m lo n).mem f = m f :=
  if_neg fun hc => absurd hc.1 (not_le.mpr h)

theorem free_pool (m : Frame → ℕ → Byte) {lo n : ℕ} (h : lo + n ≤ 2 ^ 15) : Free (pool m lo n) (List.range' lo n) := by
  have hrange : ∀ f, f < lo + n → f * PGSIZE < PHYSTOP := fun f hf => by
    simp only [PHYSTOP, PGSIZE]
    omega
  have hnext : ∀ f, lo ≤ f → f < lo + n → (pool m lo n).next f = if f + 1 < lo + n then some (f + 1) else none := by
    intro f hlo hhi
    have hword : (pool m lo n).word f 0 = p2v (if f + 1 < lo + n then some (f + 1) else none) := by
      refine word32_eq fun i _ => ?_
      simp only [pool]
      rw [if_pos ⟨hlo, hhi⟩, Nat.mul_zero, Nat.zero_add]
    rw [State.next, hword]
    refine v2p_p2v fun g hg => ?_
    split_ifs at hg with hlt
    · cases hg
      exact hrange _ hlt
    · cases hg
  -- the list is followed from its end
  have hchain : ∀ k ≤ n, Chain (pool m lo n).next (if k = 0 then none else some (lo + n - k)) (List.range' (lo + n - k) k) := by
    intro k
    induction k with
    | zero => exact fun _ => rfl
    | succ k ih =>
      intro hk
      have hstep : lo + n - (k + 1) + 1 = lo + n - k := by omega
      refine ⟨if_neg (Nat.succ_ne_zero k), ?_⟩
      rw [hnext _ (by omega) (by omega), hstep]
      have hih := ih (by omega)
      by_cases hk0 : k = 0
      · rw [if_pos hk0] at hih
        rw [if_neg (by omega)]
        exact hih
      · rw [if_neg hk0] at hih
        rw [if_pos (by omega)]
        exact hih
  refine ⟨?_, List.nodup_range', fun f hf => ?_⟩
  · have h := hchain n le_rfl
    rwa [Nat.add_sub_cancel] at h
  · rw [List.mem_range'_1] at hf
    exact hrange f hf.2

/-- Page 99 is a directory that maps nothing, and the 1100 pages behind it are free. -/
def spacious : State := pool (fun _ _ => 0) 100 1100

theorem clear_spacious : Clear spacious (List.range' 100 1100) 99 := by
  have hfree : Free spacious (List.range' 100 1100) := free_pool _ (by decide)
  have h := hfree.clear (f := 99) (by simp [List.mem_range'_1])
  rwa [spacious, setPage_eq_self (mem_pool (by decide))] at h

/-- The last page of the address space is mapped, and nothing else; and a directory is made for the kernel. -/
theorem mappages_exact_top :
    (∃ t, mappages 99 (2 ^ 32 - 1) 1 0 PTE_W spacious = .ok (true, t) ∧
      t.translate 99 (2 ^ 32 - PGSIZE) = some (0, PTE_W ||| PTE_P) ∧
      ∀ a < 2 ^ 32, a % PGSIZE = 0 → a ≠ 2 ^ 32 - PGSIZE → t.translate 99 a = none) ∧
    ∃ d t, setupkvm 0x80108000 spacious = .ok (some d, t) ∧
      t.translate d 0x80108000 = some (0x108, PTE_W ||| PTE_P) ∧ t.translate d 0 = none := by
  obtain ⟨ok, t, h, hok, hmap⟩ := mappages_exact.1 spacious _ 99 (2 ^ 32 - 1) 1 0 PTE_W clear_spacious.good le_rfl
    le_rfl rfl (by simp) (by decide) fun a _ _ _ => clear_spacious.translate a
  obtain ⟨r, u, h', hr, hall⟩ := mappages_exact.2 spacious _ 0x80108000 clear_spacious.good.free
    ⟨rfl, by decide, by decide⟩
  obtain rfl : ok = true := hok rfl (by rw [clear_spacious.missing, List.length_range']; decide)
  obtain ⟨d, rfl⟩ := Option.ne_none_iff_exists'.mp (hr rfl (by rw [List.length_range']; decide))
  obtain ⟨hin, hout⟩ := hmap rfl
  obtain ⟨hcov, hno⟩ := hall d rfl
  have hdown : pgrounddown (2 ^ 32 - 1) = 2 ^ 32 - PGSIZE := by decide
  refine ⟨⟨t, h, ?_, fun a ha hpage hne => ?_⟩, d, u, h', ?_, hno 0 (by simp) ?_⟩
  · have htop := hin (2 ^ 32 - PGSIZE) (by decide) hdown.le hdown.ge
    rwa [hdown, Nat.sub_self] at htop
  · rw [hout a ha hpage, clear_spacious.translate a]
    rw [Nat.add_sub_cancel, hdown]
    exact fun hc => hne (le_antisymm hc.2 hc.1)
  · exact hcov ⟨0x80108000, 0x108000, PHYSTOP, PTE_W⟩ (by simp [kmap, KERNBASE]) _ ⟨le_rfl, by decide⟩
  · simp [kmap, Kmap.Covers, KERNLINK, KERNBASE, DEVSPACE]

end Xv6.Paging
