import Mathlib.Algebra.BigOperators.Fin
import Mathlib.Data.Nat.Init
import Xv6.Lib.Tally
import Xv6.Vm.Exec

/-!
# Every page is in one place

Each page of physical memory is on the free list, or used by the directory that a call works on, or used elsewhere, and
never twice (`Sound`). Here is one rule for each function of `vm.c`: what it does to the entries and the page tables of
the directory, and how often each page is then on the free list or in the directory (`Mem.total`). That the account is
kept, and that nothing is lost, both follow from the latter.
-/

namespace Xv6.Vm

open Lib
open Function (update update_of_ne update_self)

variable {s t u : Mem} {rest : Frame → ℕ} {d d' : Pgdir} {E : Stop → Prop} {fails : List Use} {f g : Frame} {va n : ℕ}

/-! ## The account -/

/-- The page that an entry maps. -/
def Pte.target (e : Pte) : Option Frame := if e.present then some e.frame else none

theorem Pte.present_iff {e : Pte} : e.present = true ↔ e.target ≠ none := by
  unfold Pte.target
  cases e.present <;> simp

theorem Pte.not_present {e : Pte} (h : e.target = none) : ¬ e.present = true := fun hp => Pte.present_iff.mp hp h

theorem Pte.target_eq_some {e : Pte} : e.target = some f ↔ e.present = true ∧ e.frame = f := by
  unfold Pte.target
  cases e.present <;> simp

@[simp] theorem Pte.target_zero : Pte.zero.target = none := rfl

/-- The place of a page in the list that `kinit1` and `kinit2` have made. -/
def Kmem.place (k : Kmem) (f : ℕ) : ℕ := if f < NPAGES then NPAGES - 1 - f else f - k.first

/-- How often a page is on the free list; the pages that have never been handed out are on it. -/
def Kmem.avail (k : Kmem) (f : ℕ) : ℕ := k.free.count f + if k.first ≤ f ∧ k.next ≤ k.place f then 1 else 0

/-- How often a directory uses a page. -/
def Pgdir.holds (d : Pgdir) (f : Frame) : ℕ :=
  d.page.toList.count f + d.kernel.count f + refs (fun i : Fin NUTABLES => d.table i) f +
    refs (fun v : Fin NUPAGES => (d.pte v).target) f

/-- How often a page is on the free list or in the directory. -/
def Mem.total (s : Mem) (f : Frame) : ℕ := s.kmem.avail f + s.pgdir.holds f

/-- One use, of `f`. -/
def one (f g : Frame) : ℕ := if f = g then 1 else 0

@[simp] theorem one_self : one f f = 1 := if_pos rfl

/-- One more use of `f`. -/
def plus (rest : Frame → ℕ) (f g : Frame) : ℕ := rest g + one f g

/-- **The account**: every page behind the kernel is in at most one place, and no other page is in any. Besides the
directory there are the uses `rest`. -/
structure Sound (rest : Frame → ℕ) (s : Mem) : Prop where
  once : ∀ f, s.total f + rest f ≤ if s.kmem.first ≤ f then 1 else 0
  first : 0 < s.kmem.first

/-- **A directory in order**: a page that is mapped has a page table, and an entry that maps no page is cleared. -/
structure Tidy (d : Pgdir) : Prop where
  tabled : ∀ v < NUPAGES, (d.pte v).target ≠ none → (d.table (v / NPTENTRIES)).isSome
  cleared : ∀ v, (d.pte v).target = none → d.pte v = .zero

/-- **The first `n` pages are mapped** and no others. -/
def Filled (n : ℕ) (d : Pgdir) : Prop := ∀ v < NUPAGES, (d.pte v).target ≠ none ↔ v < n

/-- The first `lo` pages are mapped, and none from page `k` on. -/
def Spans (lo k : ℕ) (d : Pgdir) : Prop :=
  ∀ v < NUPAGES, (v < lo → (d.pte v).target ≠ none) ∧ ((d.pte v).target ≠ none → v < k)

theorem Filled.spans {lo : ℕ} (h : Filled n d) (hlo : lo ≤ n) : Spans lo n d :=
  fun v hv => ⟨fun hlt => (h v hv).mpr (by omega), (h v hv).mp⟩

theorem Sound.le_one (h : Sound rest s) (f : Frame) : s.total f + rest f ≤ 1 := by
  refine (h.once f).trans ?_
  split_ifs
  · exact le_rfl
  · exact Nat.zero_le _

theorem Sound.first_le (h : Sound rest s) (hpos : 0 < s.total f + rest f) : s.kmem.first ≤ f := by
  by_contra hlt
  have := h.once f
  rw [if_neg hlt] at this
  omega

theorem Sound.of_le {rest' : Frame → ℕ} (h : Sound rest s) (hf : t.kmem.first = s.kmem.first)
    (hle : ∀ g, t.total g + rest' g ≤ s.total g + rest g) : Sound rest' t := by
  refine ⟨fun g => (hle g).trans ?_, by rw [hf]; exact h.first⟩
  rw [hf]
  exact h.once g

theorem Sound.mono {rest' : Frame → ℕ} (h : Sound rest s) (hle : ∀ f, rest' f ≤ rest f) : Sound rest' s :=
  h.of_le rfl fun g => Nat.add_le_add_left (hle g) _

theorem Sound.drop (h : Sound (plus rest f) s) : Sound rest s := h.mono fun _ => Nat.le_add_right _ _

theorem Sound.zero (h : Sound (plus rest f) s) : rest f = 0 := by
  have := h.le_one f
  rw [plus, one_self] at this
  omega

theorem holds_pos {v : ℕ} (hv : v < NUPAGES) (ht : (d.pte v).target = some f) : 0 < d.holds f := by
  have hpos : 0 < refs (fun v : Fin NUPAGES => (d.pte v).target) f := refs_pos.mpr ⟨⟨v, hv⟩, ht⟩
  unfold Pgdir.holds
  omega

theorem Sound.rest_zero {v : ℕ} (h : Sound rest s) (hv : v < NUPAGES) (ht : (s.pgdir.pte v).target = some f) :
    rest f = 0 := by
  have hone := h.le_one f
  have hpos := holds_pos hv ht
  unfold Mem.total at hone
  omega

theorem Sound.target_first {v : ℕ} (h : Sound rest s) (hv : v < NUPAGES) (ht : (s.pgdir.pte v).target = some f) :
    s.kmem.first ≤ f := by
  have hpos := holds_pos hv ht
  refine h.first_le ?_
  unfold Mem.total
  omega

theorem Sound.target_inj {v w : ℕ} (h : Sound rest s) (hv : v < NUPAGES) (hw : w < NUPAGES)
    (hpv : (s.pgdir.pte v).target = some f) (hpw : (s.pgdir.pte w).target = some f) : v = w := by
  have hle : refs (fun v : Fin NUPAGES => (s.pgdir.pte v).target) f ≤ 1 := by
    have := h.le_one f
    simp only [Mem.total, Pgdir.holds] at this
    omega
  exact congrArg Fin.val (refs_inj hle (i := ⟨v, hv⟩) (j := ⟨w, hw⟩) hpv hpw)

/-- No use elsewhere has the null page. -/
theorem Sound.rest_null (h : Sound rest s) : rest 0 = 0 := by
  have hone := h.once 0
  rw [if_neg (not_le.mpr h.first)] at hone
  omega

theorem pdx_eq (va : ℕ) : pdx va = va / PGSIZE / NPTENTRIES := by
  rw [pdx, Nat.div_div_eq_div_mul, Nat.mul_comm]

theorem page_mul (k : ℕ) : k * PGSIZE / PGSIZE = k := Nat.mul_div_cancel k (by decide)

theorem page_lt (h : va < KERNBASE) : va / PGSIZE < NUPAGES := by
  simp only [KERNBASE, NUPAGES, PGSIZE] at *
  omega

theorem pdx_lt (h : va < KERNBASE) : pdx va < NUTABLES := by
  simp only [pdx, KERNBASE, NUTABLES, PGSIZE, NPTENTRIES] at *
  omega

theorem pte_setPte {e : Pte} (v : ℕ) : (d.setPte va e).pte v = if v = va / PGSIZE then e else d.pte v :=
  Function.update_apply _ _ _ _

theorem target_setPte {e : Pte} (v : ℕ) :
    ((d.setPte va e).pte v).target = if v = va / PGSIZE then e.target else (d.pte v).target := by
  rw [pte_setPte, apply_ite Pte.target]

theorem Pgdir.holds_setPte {e : Pte} (hva : va < KERNBASE) :
    (d.setPte va e).holds f + (if (d.pte (va / PGSIZE)).target = some f then 1 else 0) =
      d.holds f + if e.target = some f then 1 else 0 := by
  have hfun : (fun v : Fin NUPAGES => ((d.setPte va e).pte v).target) =
      update (fun v : Fin NUPAGES => (d.pte v).target) ⟨va / PGSIZE, page_lt hva⟩ e.target := by
    funext v
    rw [target_setPte]
    by_cases hv : v = ⟨va / PGSIZE, page_lt hva⟩
    · rw [hv, update_self, if_pos rfl]
    · rw [update_of_ne hv, if_neg fun he => hv (Fin.ext he)]
  have h := refs_update (fun v : Fin NUPAGES => (d.pte v).target) ⟨va / PGSIZE, page_lt hva⟩ e.target f
  rw [← hfun] at h
  simp only [Pgdir.holds]
  simp only [Pgdir.setPte] at h ⊢
  omega

theorem Tidy.zero {v : ℕ} (h : Tidy d) (hv : v < NUPAGES) (ht : d.table (v / NPTENTRIES) = none) : d.pte v = .zero := by
  refine h.cleared v (not_not.mp fun hne => ?_)
  have := h.tabled v hv hne
  rw [ht] at this
  cases this

/-- A new page table changes no entry. -/
theorem Tidy.pte_addTable {i : ℕ} (h : Tidy d) (hi : d.table i = none) (hlt : i < NUTABLES) :
    (d.addTable i f).pte = d.pte := by
  funext v
  unfold Pgdir.addTable
  simp only
  split_ifs with hv
  · have hv' : v < NUPAGES := by
      simp only [NUTABLES, NUPAGES, KERNBASE, PGSIZE, NPTENTRIES] at *
      omega
    exact (h.zero hv' (hv ▸ hi)).symm
  · rfl

theorem Tidy.holds_addTable {i : ℕ} (h : Tidy d) (hi : d.table i = none) (hlt : i < NUTABLES) :
    (d.addTable i g).holds f = d.holds f + one g f := by
  have htable : (fun j : Fin NUTABLES => (d.addTable i g).table j) =
      update (fun j : Fin NUTABLES => d.table j) ⟨i, hlt⟩ (some g) := by
    funext j
    by_cases hj : j = ⟨i, hlt⟩
    · rw [hj, update_self]
      simp [Pgdir.addTable]
    · have hne : j.val ≠ i := fun he => hj (Fin.ext he)
      rw [update_of_ne hj]
      simp [Pgdir.addTable, hne]
  have hrefs := refs_update (fun j : Fin NUTABLES => d.table j) ⟨i, hlt⟩ (some g) f
  rw [← htable] at hrefs
  simp only [hi, reduceCtorEq, if_false, Option.some.injEq] at hrefs
  simp only [Pgdir.holds, h.pte_addTable hi hlt, one]
  simp only [Pgdir.addTable] at hrefs ⊢
  omega

theorem Pgdir.holds_empty : Pgdir.empty.holds f = 0 := by
  simp [Pgdir.holds, Pgdir.empty, refs, Pte.zero, Pte.target]

theorem tidy_of_cleared (h : ∀ v, d.pte v = .zero) : Tidy d := by
  refine ⟨fun v _ hne => absurd ?_ hne, fun v _ => h v⟩
  rw [h v]
  rfl

theorem Tidy.setPte_zero (h : Tidy d) : Tidy (d.setPte va .zero) := by
  refine ⟨fun v hv hne => ?_, fun v hnone => ?_⟩
  · rw [target_setPte] at hne
    split_ifs at hne
    · exact absurd rfl hne
    · exact h.tabled v hv hne
  · rw [pte_setPte] at hnone ⊢
    split_ifs at hnone ⊢
    · rfl
    · exact h.cleared v hnone

/-! ## One page -/

/-- Only the allocator has changed. -/
structure Beside (s t : Mem) : Prop where
  pgdir : t.pgdir = s.pgdir
  mapped : t.mapped = s.mapped
  stores : t.stores = s.stores
  first : t.kmem.first = s.kmem.first

theorem place_eq {k : Kmem} {g i : ℕ} (hg : k.first ≤ g) : k.place g = i ↔ fresh k.first i = g := by
  unfold Kmem.place fresh
  generalize NPAGES = n
  split_ifs <;> omega

theorem le_fresh (first i : ℕ) : first ≤ fresh first i := by
  unfold fresh
  generalize NPAGES = n
  split_ifs <;> omega

theorem avail_next (k : Kmem) (g : ℕ) :
    ({ k with next := k.next + 1 } : Kmem).avail g + one (fresh k.first k.next) g = k.avail g := by
  unfold Kmem.avail
  have hplace : ({ k with next := k.next + 1 } : Kmem).place g = k.place g := rfl
  rw [hplace]
  by_cases hg : k.first ≤ g
  · have hplace := place_eq (i := k.next) hg
    simp only [hg, true_and, one, ← hplace]
    split_ifs <;> omega
  · have hne : fresh k.first k.next ≠ g := fun he => hg (he ▸ le_fresh _ _)
    simp [hg, hne, one]

theorem avail_cons (k : Kmem) (f g : Frame) :
    ({ k with free := f :: k.free } : Kmem).avail g = k.avail g + one f g := by
  have hplace : ({ k with free := f :: k.free } : Kmem).place g = k.place g := rfl
  simp only [Kmem.avail, hplace, List.count_cons, beq_iff_eq, one]
  omega

/-- **`kalloc`** takes a page off the free list. -/
theorem wp_kalloc {u : Use} {Q : Option Frame → Mem → Prop} (knone : u ∈ fails → Q none s)
    (ksome : ∀ f t, u ∉ fails → Beside s t → (∀ g, t.kmem.avail g + one f g = s.kmem.avail g) → Q (some f) t) :
    wp (kalloc fails u) Q E s := by
  unfold kalloc
  rw [wp_bind, wp_get]
  split_ifs with hu
  · exact knone hu
  split
  · rename_i f free hfree
    rw [wp_bind, wp_set, wp_pure]
    refine ksome f _ hu ⟨rfl, rfl, rfl, rfl⟩ fun g => ?_
    have := avail_cons { s.kmem with free := free } f g
    rw [← hfree] at this
    exact this.symm
  · rw [wp_bind, wp_set, wp_pure]
    exact ksome _ _ hu ⟨rfl, rfl, rfl, rfl⟩ fun g => avail_next s.kmem g

theorem Beside.total (h : Beside s t) (ha : ∀ g, t.kmem.avail g + one f g = s.kmem.avail g) (g : Frame) :
    t.total g + one f g = s.total g := by
  have := ha g
  rw [Mem.total, Mem.total, h.pgdir]
  omega

theorem Sound.take (h : Sound rest s) (hb : Beside s t) (ha : ∀ g, t.kmem.avail g + one f g = s.kmem.avail g) :
    Sound (plus rest f) t := by
  refine h.of_le hb.first fun g => ?_
  have := hb.total ha g
  rw [plus]
  omega

theorem wp_kfree {Q : Unit → Mem → Prop} (hf : s.kmem.first ≤ f)
    (k : ∀ t, Beside s t → (∀ g, t.kmem.avail g = s.kmem.avail g + one f g) → Q () t) : wp (kfree f) Q E s := by
  unfold kfree
  rw [wp_bind, wp_get, if_neg (not_lt.mpr hf), wp_set]
  exact k _ ⟨rfl, rfl, rfl, rfl⟩ fun g => avail_cons s.kmem f g

/-- The page of the directory, the stores and the end of the kernel are as before. -/
structure Steady (s t : Mem) : Prop where
  page : t.pgdir.page = s.pgdir.page
  stores : t.stores = s.stores
  first : t.kmem.first = s.kmem.first

theorem Steady.rfl : Steady s s := ⟨Eq.refl _, Eq.refl _, Eq.refl _⟩

theorem Steady.trans (h : Steady s t) (h' : Steady t u) : Steady s u :=
  ⟨h'.page.trans h.page, h'.stores.trans h.stores, h'.first.trans h.first⟩

theorem Beside.steady (h : Beside s t) : Steady s t := ⟨by rw [h.pgdir], h.stores, h.first⟩

/-- `t` is `s` with a page table for `va`. -/
structure Tabled (va : ℕ) (s t : Mem) : Prop extends Steady s t where
  pte : t.pgdir.pte = s.pgdir.pte
  table : ∀ i, t.pgdir.table i = none ↔ s.pgdir.table i = none ∧ i ≠ pdx va
  mapped : t.mapped = s.mapped
  total : ∀ g, t.total g = s.total g

theorem wp_walkpgdir {Q : Option Pte → Mem → Prop} (ht : Tidy s.pgdir) (hva : va < KERNBASE)
    (knone : s.pgdir.table (pdx va) = none → .table va ∈ fails → Q none s)
    (k : (s.pgdir.table (pdx va) = none → .table va ∉ fails) → ∀ t, Tabled va s t →
      Q (some (s.pgdir.pte (va / PGSIZE))) t) : wp (walkpgdir fails va) Q E s := by
  unfold walkpgdir
  rw [wp_bind, wp_get]
  split
  · rename_i g hsome
    have hne : s.pgdir.table (pdx va) ≠ none := by
      rw [hsome]
      nofun
    refine k (fun h => absurd h hne) s ⟨.rfl, rfl, fun i => ⟨fun hi => ⟨hi, ?_⟩, And.left⟩, rfl, fun _ => rfl⟩
    rintro rfl
    exact hne hi
  · rename_i hnone
    rw [wp_bind]
    refine wp_kalloc (fun hu => knone hnone hu) fun g u hu hb ha => ?_
    simp only
    rw [wp_bind, wp_get, wp_bind, wp_set, wp_pure]
    have hpte : (u.pgdir.addTable (pdx va) g).pte = s.pgdir.pte := by
      rw [hb.pgdir]
      exact ht.pte_addTable hnone (pdx_lt hva)
    rw [← ht.zero (page_lt hva) (by rw [← pdx_eq]; exact hnone)]
    refine k (fun _ => hu) _ ⟨⟨?_, hb.stores, hb.first⟩, hpte, fun i => ?_, hb.mapped, fun e => ?_⟩
    · rw [hb.pgdir]
      rfl
    · unfold Pgdir.addTable
      rw [hb.pgdir]
      by_cases hi : i = pdx va
      · simp [hi]
      · simp [hi]
    · have := ha e
      simp only [Mem.total, hb.pgdir, ht.holds_addTable hnone (pdx_lt hva)]
      omega

/-- `t` is `s` with the page of `va` mapped to `f`. -/
structure Adds (va : ℕ) (f : Frame) (user : Bool) (s t : Mem) : Prop extends Steady s t where
  pte : t.pgdir.pte = update s.pgdir.pte (va / PGSIZE) ⟨f, true, user⟩
  table : ∀ i, t.pgdir.table i = none ↔ s.pgdir.table i = none ∧ i ≠ pdx va
  mapped : t.mapped = f :: s.mapped
  total : ∀ g, t.total g = s.total g + one f g

theorem Adds.tidy {user : Bool} (h : Adds va f user s t) (ht : Tidy s.pgdir) : Tidy t.pgdir := by
  refine ⟨fun v hv hne => ?_, fun v hnone => ?_⟩
  · rw [← Option.ne_none_iff_isSome, Ne, h.table]
    rintro ⟨hnone, hi⟩
    have hva : v ≠ va / PGSIZE := fun he => hi (by rw [he, pdx_eq])
    rw [h.pte, update_of_ne hva, ht.zero hv hnone] at hne
    exact hne rfl
  · rw [h.pte] at hnone ⊢
    by_cases hv : v = va / PGSIZE
    · rw [hv, update_self] at hnone
      cases hnone
    · rw [update_of_ne hv] at hnone ⊢
      exact ht.cleared v hnone

/-- **`mappages`** of one page. -/
theorem wp_mappages {user : Bool} {Q : Bool → Mem → Prop} (ht : Tidy s.pgdir) (hva : va < KERNBASE)
    (kfail : s.pgdir.table (pdx va) = none → .table va ∈ fails → Q false s)
    (kremap : (s.pgdir.pte (va / PGSIZE)).target ≠ none → E .remap)
    (kok : (s.pgdir.table (pdx va) = none → .table va ∉ fails) → (s.pgdir.pte (va / PGSIZE)).target = none →
      ∀ t, Adds va f user s t → Q true t) : wp (mappages fails va f user) Q E s := by
  unfold mappages
  rw [wp_bind]
  refine wp_walkpgdir ht hva kfail fun hfound t h => ?_
  simp only
  split_ifs with hpresent
  · exact kremap (Pte.present_iff.mp hpresent)
  · have hnone : (s.pgdir.pte (va / PGSIZE)).target = none := not_not.mp fun hne => hpresent (Pte.present_iff.mpr hne)
    rw [wp_bind, wp_get, wp_bind, wp_set, wp_pure]
    refine kok hfound hnone _ ⟨⟨h.page, h.stores, h.first⟩, ?_, h.table, by rw [h.mapped], fun g => ?_⟩
    · simp only [Pgdir.setPte, h.pte]
    · have htotal := h.total g
      have hset := Pgdir.holds_setPte (d := t.pgdir) (f := g) (e := ⟨f, true, user⟩) hva
      rw [h.pte, hnone] at hset
      simp only [reduceCtorEq, if_false, Pte.target, if_true, Option.some.injEq] at hset
      simp only [Mem.total, one] at htotal ⊢
      omega

/-! ## User memory -/

/-- The number of pages of a memory of `sz` bytes. -/
def npages (sz : ℕ) : ℕ := (sz + (PGSIZE - 1)) / PGSIZE

theorem pgroundup_eq {sz : ℕ} (h : sz ≤ KERNBASE) : pgroundup sz = npages sz * PGSIZE := by
  have hlt : sz + (PGSIZE - 1) < 2 ^ 32 := by
    simp only [KERNBASE, PGSIZE] at *
    omega
  rw [pgroundup, npages, Nat.mod_eq_of_lt hlt]

theorem lt_npages {v sz : ℕ} : v < npages sz ↔ v * PGSIZE < sz := by
  simp only [npages, PGSIZE]
  omega

theorem npages_mono {sz sz' : ℕ} (h : sz ≤ sz') : npages sz ≤ npages sz' :=
  Nat.div_le_div_right (Nat.add_le_add_right h _)

theorem npages_le {sz : ℕ} (h : sz ≤ KERNBASE) : npages sz ≤ NUPAGES := by
  simp only [npages, NUPAGES, KERNBASE, PGSIZE] at *
  omega

theorem page_lt_npages {sz : ℕ} (h : va < sz) : va / PGSIZE < npages sz :=
  lt_npages.mpr (lt_of_le_of_lt (Nat.div_mul_le_self _ _) h)

theorem walk_user (hva : va < KERNBASE) :
    d.walk va = if (d.table (va / PGSIZE / NPTENTRIES)).isSome then some (d.pte (va / PGSIZE)) else none := by
  rw [Pgdir.walk, if_pos hva, pdx_eq]
  cases d.table (va / PGSIZE / NPTENTRIES) <;> rfl

/-- What `deallocuvm` has done with the pages from `k` up to `n`: it has cleared entries, and if it does not start inside
of the range of a missing page table then none of these pages is left. -/
structure Freed (n k : ℕ) (s t : Mem) : Prop extends Steady s t where
  pte : ∀ v, t.pgdir.pte v = s.pgdir.pte v ∨ (k ≤ v ∧ v < NUPAGES) ∧ t.pgdir.pte v = .zero
  table : t.pgdir.table = s.pgdir.table
  mapped : t.mapped = s.mapped
  total : ∀ g, t.total g = s.total g
  gone : k % NPTENTRIES = 0 ∨ (s.pgdir.table (k / NPTENTRIES)).isSome →
    ∀ v, k ≤ v → v < n → (t.pgdir.pte v).target = none

theorem Freed.target_none {k v : ℕ} (h : Freed n k s t) (hv : (s.pgdir.pte v).target = none) :
    (t.pgdir.pte v).target = none := by
  rcases h.pte v with he | ⟨-, he⟩
  · rw [he]
    exact hv
  · rw [he]
    rfl

theorem Freed.tidy {k : ℕ} (h : Freed n k s t) (ht : Tidy s.pgdir) : Tidy t.pgdir := by
  refine ⟨fun v hv hne => ?_, fun v hnone => ?_⟩
  · rcases h.pte v with he | ⟨-, he⟩
    · rw [h.table]
      exact ht.tabled v hv (he ▸ hne)
    · rw [he] at hne
      exact absurd rfl hne
  · rcases h.pte v with he | ⟨-, he⟩
    · rw [he] at hnone ⊢
      exact ht.cleared v hnone
    · exact he

theorem Freed.sound {k : ℕ} (h : Freed n k s t) (hs : Sound rest s) : Sound rest t :=
  hs.of_le h.first fun g => by rw [h.total g]

/-- **The memory is cut off** at page `k`, if the pages below were mapped and none from `n` on. -/
theorem Freed.filled {k : ℕ} (h : Freed n k s t) (ht : Tidy s.pgdir) (hs : Spans k n s.pgdir) : Filled k t.pgdir := by
  intro v hv
  by_cases hvk : v < k
  · rw [(h.pte v).resolve_right fun hcut => by omega]
    exact ⟨fun _ => hvk, (hs v hv).1⟩
  -- the page table for page `k` is there, since that for the page before is
  have hstart : k % NPTENTRIES = 0 ∨ (s.pgdir.table (k / NPTENTRIES)).isSome := by
    refine or_iff_not_imp_left.mpr fun hmod => ?_
    have htable := ht.tabled (k - 1) (by omega) ((hs (k - 1) (by omega)).1 (by simp only [NPTENTRIES] at hmod; omega))
    rwa [show (k - 1) / NPTENTRIES = k / NPTENTRIES by simp only [NPTENTRIES] at hmod ⊢; omega] at htable
  refine ⟨fun hne => absurd ?_ hne, fun hlt => absurd hlt hvk⟩
  by_cases hvn : v < n
  · exact h.gone hstart v (not_lt.mp hvk) hvn
  · exact h.target_none (not_not.mp fun hm => hvn ((hs v hv).2 hm))

theorem next_page (k : ℕ) : k * PGSIZE + PGSIZE = (k + 1) * PGSIZE := (Nat.succ_mul k PGSIZE).symm

theorem fuel_next {fuel sz k P : ℕ} (ha : k * P < sz) (h : sz ≤ k * P + (fuel + 1 - 1) * P) :
    0 < fuel ∧ ∀ j, 0 < j → sz ≤ (k + j) * P + (fuel - 1) * P := by
  cases fuel with
  | zero => omega
  | succ n =>
    refine ⟨n.succ_pos, fun j hj => ?_⟩
    have hj' : P ≤ j * P := Nat.le_mul_of_pos_left _ hj
    simp only [Nat.add_sub_cancel, Nat.add_mul, Nat.one_mul] at h ⊢
    omega

/-- The entry of page `k` is cleared and its page freed. -/
theorem wp_unmap {k : ℕ} {Q : Mem → Prop} (hs : Sound rest s) (hk : k < NUPAGES) (ht : (s.pgdir.pte k).target = some f)
    (kont : ∀ t, t.pgdir = s.pgdir.setPte (k * PGSIZE) .zero → t.mapped = s.mapped → Steady s t →
      (∀ g, t.total g = s.total g) → Q t) :
    wp (kfree f) (fun _ u => Q { u with pgdir := u.pgdir.setPte (k * PGSIZE) .zero }) E s := by
  have hva : k * PGSIZE < KERNBASE := by
    simp only [NUPAGES, KERNBASE, PGSIZE] at hk ⊢
    omega
  refine wp_kfree (hs.target_first hk ht) fun u hb ha => ?_
  refine kont _ (by rw [hb.pgdir]) hb.mapped ⟨by rw [hb.pgdir]; rfl, hb.stores, hb.first⟩ fun g => ?_
  have hset := Pgdir.holds_setPte (d := s.pgdir) (f := g) (e := .zero) hva
  have hone := ha g
  rw [page_mul, ht] at hset
  simp only [Pte.target_zero, reduceCtorEq, if_false, Option.some.injEq] at hset
  simp only [Mem.total, hb.pgdir, one] at hone ⊢
  omega

theorem wp_deallocFrom {oldsz : ℕ} (hold : oldsz ≤ KERNBASE) :
    ∀ (fuel k : ℕ) (s : Mem), Sound rest s → Tidy s.pgdir → 0 < fuel → oldsz ≤ k * PGSIZE + (fuel - 1) * PGSIZE →
      wp (deallocFrom oldsz fuel (k * PGSIZE)) (fun _ t => Freed (npages oldsz) k s t) E s := by
  intro fuel
  induction fuel with
  | zero => intro k s _ _ hfuel; omega
  | succ fuel ih =>
    intro k s hs ht _ hfuel
    have hdiv := page_mul k
    have hn := npages_le hold
    -- the loop goes on at page `j`, and there is nothing to free before
    have hskip : ∀ j, k < j → oldsz ≤ j * PGSIZE + (fuel - 1) * PGSIZE → 0 < fuel →
        (k % NPTENTRIES = 0 ∨ (s.pgdir.table (k / NPTENTRIES)).isSome →
          (j % NPTENTRIES = 0 ∨ (s.pgdir.table (j / NPTENTRIES)).isSome) ∧
          ∀ v < NUPAGES, k ≤ v → v < j → (s.pgdir.pte v).target = none) →
        wp (deallocFrom oldsz fuel (j * PGSIZE)) (fun _ t => Freed (npages oldsz) k s t) E s := by
      intro j hj hfuel' hpos hnext
      refine (ih j s hs ht hpos hfuel').mono fun _ t h => ?_
      refine ⟨h.toSteady, fun v => (h.pte v).imp_right fun hv => ⟨⟨by omega, hv.1.2⟩, hv.2⟩, h.table, h.mapped, h.total,
        fun hstart v hv hlt => ?_⟩
      obtain ⟨hstart', hnone⟩ := hnext hstart
      by_cases hvj : v < j
      · exact h.target_none (hnone v (by omega) hv hvj)
      · exact h.gone hstart' v (by omega) hlt
    unfold deallocFrom
    by_cases ha : k * PGSIZE < oldsz
    · have hva : k * PGSIZE < KERNBASE := by omega
      have hk : k < NUPAGES := by simpa only [hdiv] using page_lt hva
      obtain ⟨hpos, hfuel'⟩ := fuel_next ha hfuel
      rw [if_pos ha, wp_bind, wp_get, walk_user hva, hdiv]
      by_cases htab : (s.pgdir.table (k / NPTENTRIES)).isSome
      · have hstart' : ∀ tb : ℕ → Option Frame, tb = s.pgdir.table →
            (k + 1) % NPTENTRIES = 0 ∨ (tb ((k + 1) / NPTENTRIES)).isSome := by
          rintro _ rfl
          refine or_iff_not_imp_left.mpr fun hmod => ?_
          rwa [show (k + 1) / NPTENTRIES = k / NPTENTRIES by simp only [NPTENTRIES] at hmod ⊢; omega]
        rw [if_pos htab]
        simp only [next_page]
        cases htarget : (s.pgdir.pte k).target with
        | none =>
          rw [if_neg (Pte.not_present htarget)]
          refine hskip (k + 1) (by omega) (hfuel' 1 one_pos) hpos fun _ => ⟨hstart' _ rfl, fun v _ hv hlt => ?_⟩
          rwa [show v = k by omega]
        | some f =>
          obtain ⟨hpresent, hframe⟩ := Pte.target_eq_some.mp htarget
          have hzero : f ≠ 0 := fun h0 => absurd (hs.target_first hk htarget) (by rw [h0]; exact not_le.mpr hs.first)
          rw [if_pos hpresent, hframe, if_neg hzero]
          simp only [wp_bind, wp_get, wp_set]
          refine wp_unmap (Q := fun u => wp (deallocFrom oldsz fuel ((k + 1) * PGSIZE)) _ E u) hs hk htarget
            fun u hu hmu hst htotal => ?_
          refine (ih (k + 1) u (hs.of_le hst.first fun g => by rw [htotal g]) (hu ▸ ht.setPte_zero) hpos
            (hfuel' 1 one_pos)).mono fun _ t h => ?_
          refine ⟨hst.trans h.toSteady, fun v => ?_, by rw [h.table, hu]; rfl, h.mapped.trans hmu,
            fun g => (h.total g).trans (htotal g), fun _ v hv hlt => ?_⟩
          · rcases h.pte v with he | ⟨hv, he⟩
            · rw [he, hu, pte_setPte, hdiv]
              split_ifs with hvk
              · exact .inr ⟨⟨hvk.ge, hvk ▸ hk⟩, rfl⟩
              · exact .inl rfl
            · exact .inr ⟨⟨by omega, hv.2⟩, he⟩
          · by_cases hvk : v = k
            · refine h.target_none ?_
              rw [hu, target_setPte, hdiv, if_pos hvk]
              rfl
            · exact h.gone (hstart' _ (by rw [hu]; rfl)) v (by omega) hlt
      · -- the loop goes on behind the missing page table, and there is nothing there
        have hjump : k * PGSIZE + (NPTENTRIES - 1) * PGSIZE + PGSIZE = (k + NPTENTRIES) * PGSIZE := by
          simp only [NPTENTRIES, PGSIZE]
          omega
        rw [if_neg htab]
        simp only [hjump]
        refine hskip _ (Nat.lt_add_of_pos_right (by decide)) (hfuel' _ (by decide)) hpos fun hstart => ?_
        have hmod := hstart.resolve_right htab
        refine ⟨.inl (by rw [Nat.add_mod_right]; exact hmod), fun v hlt hv hvj => not_not.mp fun hne => htab ?_⟩
        have htable := ht.tabled v hlt hne
        rwa [show v / NPTENTRIES = k / NPTENTRIES by simp only [NPTENTRIES] at hmod hvj ⊢; omega] at htable
    · rw [if_neg ha, wp_pure]
      refine ⟨.rfl, fun _ => .inl rfl, rfl, rfl, fun _ => rfl, fun _ v hv hlt => ?_⟩
      exact absurd (lt_npages.mp (lt_of_le_of_lt hv hlt)) ha

theorem wp_deallocuvm {oldsz newsz : ℕ} {Q : ℕ → Mem → Prop} (h : Sound rest s) (ht : Tidy s.pgdir)
    (hold : oldsz ≤ KERNBASE) (ksame : oldsz ≤ newsz → Q oldsz s)
    (k : newsz < oldsz → ∀ t, Freed (npages oldsz) (npages newsz) s t → Q newsz t) :
    wp (deallocuvm oldsz newsz) Q E s := by
  unfold deallocuvm
  split_ifs with hle
  · exact ksame hle
  · rw [pgroundup_eq (by omega), wp_bind]
    refine (wp_deallocFrom hold _ _ s h ht (Nat.succ_pos _) ?_).mono fun _ t hf => k (by omega) t hf
    simp only [PGSIZE]
    omega

/-! ### Growing -/

/-- `kalloc` finds a page for each user page from `k` up to `n`. -/
def PagesFound (fails : List Use) (k n : ℕ) : Prop := ∀ v, k ≤ v → v < n → Use.page (v * PGSIZE) ∉ fails

/-- **Page `v` has a page table** when a loop that maps the pages from `k` on comes to it: it was there, or `kalloc` has
found a page for it, for `v` or a page before. -/
def Has (fails : List Use) (d : Pgdir) (k v : ℕ) : Prop :=
  d.table (v / NPTENTRIES) ≠ none ∨ ∃ w ≤ v, k ≤ w ∧ w / NPTENTRIES = v / NPTENTRIES ∧ Use.table (w * PGSIZE) ∉ fails

/-- **Each page** from `k` up to `n` for which `kalloc` is called and finds one **has a page table**. -/
def TablesFound (fails : List Use) (d : Pgdir) (k n : ℕ) : Prop :=
  ∀ v, k ≤ v → v < n → PagesFound fails k (v + 1) → Has fails d k v

instance (k n : ℕ) : Decidable (PagesFound fails k n) := inferInstanceAs (Decidable (∀ v, k ≤ v → v < n → _))

instance (k v : ℕ) : Decidable (Has fails d k v) := inferInstanceAs (Decidable (_ ∨ ∃ w ≤ v, _))

instance (k n : ℕ) : Decidable (TablesFound fails d k n) := inferInstanceAs (Decidable (∀ v, k ≤ v → v < n → _))

theorem pagesFound_iff {k : ℕ} (hpage : Use.page (k * PGSIZE) ∉ fails) :
    PagesFound fails k n ↔ PagesFound fails (k + 1) n := by
  refine ⟨fun h v hv => h v (by omega), fun h v hv hlt => ?_⟩
  by_cases hvk : v = k
  · exact hvk ▸ hpage
  · exact h v (by omega) hlt

theorem PagesFound.here {k : ℕ} (hpage : Use.page (k * PGSIZE) ∉ fails) : PagesFound fails k (k + 1) := by
  intro v hv hlt
  rwa [show v = k by omega]

theorem has_self {k : ℕ} : Has fails d k k ↔ d.table (k / NPTENTRIES) ≠ none ∨ Use.table (k * PGSIZE) ∉ fails := by
  refine or_congr_right ⟨?_, fun h => ⟨k, le_rfl, le_rfl, rfl, h⟩⟩
  rintro ⟨w, hle, hge, -, hw⟩
  rwa [show w = k by omega] at hw

/-- **One round** of a loop that maps pages: `d'` is `d` when page `k` is done. -/
structure Round (fails : List Use) (k : ℕ) (d d' : Pgdir) : Prop where
  pte : ∀ v, v ≠ k → d'.pte v = d.pte v
  table : ∀ i, d'.table i ≠ none ↔ d.table i ≠ none ∨ i = k / NPTENTRIES ∧ Use.table (k * PGSIZE) ∉ fails
  here : (d'.pte k).target ≠ none ↔ Has fails d k k

theorem Adds.round {k : ℕ} {user : Bool} (h : Adds (k * PGSIZE) f user s t)
    (hfound : s.pgdir.table (pdx (k * PGSIZE)) = none → Use.table (k * PGSIZE) ∉ fails) :
    Round fails k s.pgdir t.pgdir := by
  rw [pdx_eq, page_mul] at hfound
  refine ⟨fun v hv => ?_, fun i => ?_, ?_⟩
  · rw [h.pte, page_mul, update_of_ne hv]
  · rw [Ne, h.table, pdx_eq, page_mul, not_and_or, not_not]
    refine or_congr_right' fun hi => ?_
    rw [not_not] at hi
    refine ⟨?_, And.left⟩
    rintro rfl
    exact ⟨rfl, hfound hi⟩
  · rw [h.pte, page_mul, update_self, has_self]
    refine iff_of_true nofun ?_
    by_cases hnone : s.pgdir.table (k / NPTENTRIES) = none
    · exact .inr (hfound hnone)
    · exact .inl hnone

/-- A page that finds no page table is not mapped. -/
theorem Round.lost {k : ℕ} (ht : Tidy d) (hk : k < NUPAGES) (hnone : d.table (k / NPTENTRIES) = none)
    (hfail : Use.table (k * PGSIZE) ∈ fails) : Round fails k d d := by
  refine ⟨fun _ _ => rfl, fun i => (or_iff_left fun h => h.2 hfail).symm, iff_of_false ?_ ?_⟩
  · rw [ht.zero hk hnone]
    exact fun h => h rfl
  · rw [has_self]
    exact not_or.mpr ⟨not_not.mpr hnone, not_not.mpr hfail⟩

/-- **All rounds** from page `k` up to `n`: what is mapped, and which page tables there are, follows from `fails`. -/
structure Made (fails : List Use) (k n : ℕ) (d d' : Pgdir) : Prop where
  kept : ∀ v < k, d'.pte v = d.pte v
  table : ∀ i, d'.table i ≠ none ↔
    d.table i ≠ none ∨ ∃ w < n, k ≤ w ∧ w / NPTENTRIES = i ∧ Use.table (w * PGSIZE) ∉ fails
  entry : Spans 0 k d → ∀ v < NUPAGES, k ≤ v → ((d'.pte v).target ≠ none ↔ v < n ∧ Has fails d k v)

theorem Made.none (h : Spans 0 n d → ∀ v < NUPAGES, n ≤ v → (d'.pte v).target = none) (hpte : ∀ v < n, d'.pte v = d.pte v)
    (htable : ∀ i, d'.table i ≠ none ↔ d.table i ≠ none) : Made fails n n d d' := by
  refine ⟨hpte, fun i => ?_, fun hs v hv hle => ?_⟩
  · rw [htable]
    exact (or_iff_left fun ⟨w, hlt, hge, _⟩ => by omega).symm
  · rw [h hs v hv hle]
    exact iff_of_false (fun h => h rfl) fun h => by omega

theorem Made.refl : Made fails n n d d :=
  .none (fun hs v hv hle => not_not.mp fun hne => absurd ((hs v hv).2 hne) (not_lt.mpr hle)) (fun _ _ => rfl) fun _ => Iff.rfl

theorem Round.made {k : ℕ} (h : Round fails k d d') : Made fails k (k + 1) d d' := by
  refine ⟨fun v hv => h.pte v hv.ne, fun i => ?_, fun hs v hv hle => ?_⟩
  · rw [h.table]
    refine or_congr_right ⟨?_, ?_⟩
    · rintro ⟨rfl, hfound⟩
      exact ⟨k, k.lt_succ_self, le_rfl, rfl, hfound⟩
    · rintro ⟨w, hlt, hge, rfl, hfound⟩
      obtain rfl : w = k := by omega
      exact ⟨rfl, hfound⟩
  · rcases hle.eq_or_lt with rfl | hkv
    · rw [h.here, and_iff_right k.lt_succ_self]
    · rw [h.pte v hkv.ne']
      exact iff_of_false (fun hne => absurd ((hs v hv).2 hne) (not_lt.mpr hle)) fun h => by omega

theorem Made.has {k j v : ℕ} (h : Made fails j k d d') (hj : j ≤ k) (hv : k ≤ v) :
    Has fails d' k v ↔ Has fails d j v := by
  unfold Has
  rw [h.table, or_assoc]
  refine or_congr_right ⟨?_, ?_⟩
  · rintro (⟨w, hlt, hge, hw⟩ | ⟨w, hle, hge, hw⟩)
    · exact ⟨w, by omega, hge, hw⟩
    · exact ⟨w, hle, by omega, hw⟩
  · rintro ⟨w, hle, hge, hw⟩
    by_cases hlt : w < k
    · exact .inl ⟨w, hlt, hge, hw⟩
    · exact .inr ⟨w, hle, not_lt.mp hlt, hw⟩

theorem Made.spans {k lo : ℕ} (h : Made fails k n d d') (hs : Spans lo k d) (hlo : lo ≤ k) (hk : k ≤ n) : Spans lo n d' := by
  intro v hv
  by_cases hvk : v < k
  · rw [h.kept v hvk]
    exact ⟨(hs v hv).1, fun _ => by omega⟩
  · have hs0 : Spans 0 k d := fun w hw => ⟨nofun, (hs w hw).2⟩
    exact ⟨fun hlt => by omega, fun hne => ((h.entry hs0 v hv (not_lt.mp hvk)).mp hne).1⟩

theorem Made.trans {j k : ℕ} {d'' : Pgdir} (h : Made fails j k d d') (h' : Made fails k n d' d'') (hj : j ≤ k)
    (hk : k ≤ n) : Made fails j n d d'' := by
  refine ⟨fun v hv => ?_, fun i => ?_, fun hs v hv hle => ?_⟩
  · rw [h'.kept v (by omega), h.kept v hv]
  · rw [h'.table, h.table, or_assoc]
    refine or_congr_right ⟨?_, ?_⟩
    · rintro (⟨w, hlt, hge, hw⟩ | ⟨w, hlt, hge, hw⟩)
      · exact ⟨w, by omega, hge, hw⟩
      · exact ⟨w, hlt, by omega, hw⟩
    · rintro ⟨w, hlt, hge, hw⟩
      by_cases hwk : w < k
      · exact .inl ⟨w, hwk, hge, hw⟩
      · exact .inr ⟨w, hlt, not_lt.mp hwk, hw⟩
  · by_cases hvk : v < k
    · rw [h'.kept v hvk, h.entry hs v hv hle, and_iff_right hvk, and_iff_right (show v < n by omega)]
    · rw [h'.entry (h.spans hs (Nat.zero_le _) hj) v hv (not_lt.mp hvk), h.has hj (not_lt.mp hvk)]

theorem Round.tablesFound {k : ℕ} (h : Round fails k d d') (hk : k < n) (hpage : Use.page (k * PGSIZE) ∉ fails) :
    TablesFound fails d k n ↔ Has fails d k k ∧ TablesFound fails d' (k + 1) n := by
  refine ⟨fun hf => ⟨hf k le_rfl hk (PagesFound.here hpage), fun v hv hlt hp => ?_⟩, fun hf v hv hlt hp => ?_⟩
  · exact (h.made.has k.le_succ hv).mpr (hf v (by omega) hlt ((pagesFound_iff hpage).mpr hp))
  · rcases hv.eq_or_lt with rfl | hkv
    · exact hf.1
    · exact (h.made.has k.le_succ hkv).mp (hf.2 v hkv hlt ((pagesFound_iff hpage).mp hp))

/-- **The memory grows without a gap** if each page has a page table. -/
theorem Made.filled {k : ℕ} (h : Made fails k n d d') (hf : Filled k d) (hk : k ≤ n) (hn : n ≤ NUPAGES) :
    Filled n d' ↔ ∀ v, k ≤ v → v < n → Has fails d k v := by
  have hentry := h.entry (hf.spans (Nat.zero_le _))
  constructor
  · intro hf' v hv hlt
    exact ((hentry v (by omega) hv).mp ((hf' v (by omega)).mpr hlt)).2
  · intro hhas v hv
    by_cases hvk : v < k
    · rw [h.kept v hvk, hf v hv]
      omega
    · rw [hentry v hv (not_lt.mp hvk)]
      exact ⟨And.left, fun hlt => ⟨hlt, hhas v (not_lt.mp hvk) hlt⟩⟩

theorem Adds.filled {k : ℕ} {user : Bool} (h : Adds (k * PGSIZE) f user s t) (hf : Filled k s.pgdir) :
    Filled (k + 1) t.pgdir := by
  intro v hv
  rw [h.pte, page_mul]
  by_cases hvk : v = k
  · rw [hvk, update_self]
    simp [Pte.target]
  · rw [update_of_ne hvk, hf v hv]
    omega

/-- The pages that are mapped are among those that have been mapped. -/
def Listed (s : Mem) : Prop := ∀ v < NUPAGES, ∀ f, (s.pgdir.pte v).target = some f → f ∈ s.mapped

theorem Freed.listed {k : ℕ} (h : Freed n k s t) (hl : Listed s) : Listed t := by
  intro v hv f hf
  rw [h.mapped]
  rcases h.pte v with he | ⟨-, he⟩
  · exact hl v hv f (he ▸ hf)
  · rw [he] at hf
    cases hf

theorem Adds.listed {user : Bool} (h : Adds va f user s t) (hl : Listed s) : Listed t := by
  intro v hv g hg
  rw [h.mapped]
  rw [h.pte] at hg
  by_cases hva : v = va / PGSIZE
  · rw [hva, update_self] at hg
    cases hg
    exact List.mem_cons_self
  · rw [update_of_ne hva] at hg
    exact List.mem_cons_of_mem _ (hl v hv g hg)

/-- The pages that are mapped are for users. -/
def AllUser (d : Pgdir) : Prop := ∀ v, (d.pte v).target ≠ none → (d.pte v).user = true

theorem Freed.allUser {k : ℕ} (h : Freed n k s t) (hu : AllUser s.pgdir) : AllUser t.pgdir := by
  intro v hne
  rcases h.pte v with he | ⟨-, he⟩
  · rw [he] at hne ⊢
    exact hu v hne
  · rw [he] at hne
    exact absurd rfl hne

theorem Adds.allUser (h : Adds va f true s t) (hu : AllUser s.pgdir) : AllUser t.pgdir := by
  intro v hne
  rw [h.pte] at hne ⊢
  by_cases hv : v = va / PGSIZE
  · rw [hv, update_self]
  · rw [update_of_ne hv] at hne ⊢
    exact hu v hne

/-- What the loop of `allocuvm` has done from page `k` on when it returns `r`. A page that has no page table is lost. When
no page is found for one, the memory is cut off again. -/
structure Grown (rest : Frame → ℕ) (fails : List Use) (k oldsz newsz : ℕ) (s : Mem) (r : ℕ) (t : Mem) : Prop
    extends Steady s t where
  tidy : Tidy t.pgdir
  low : ∀ v < npages oldsz, t.pgdir.pte v = s.pgdir.pte v
  mapped : s.mapped ⊆ t.mapped
  listed : Listed s → Listed t
  own : (∀ f ∈ s.mapped, rest f = 0) → ∀ f ∈ t.mapped, rest f = 0
  null : 0 ∉ s.mapped → 0 ∉ t.mapped
  allUser : AllUser s.pgdir → AllUser t.pgdir
  value : r = if PagesFound fails k (npages newsz) then newsz else 0
  total_le : ∀ g, t.total g ≤ s.total g
  total : TablesFound fails s.pgdir k (npages newsz) → ∀ g, t.total g = s.total g
  lost : ¬ TablesFound fails s.pgdir k (npages newsz) → ∃ g, t.total g < s.total g
  cut : ¬ PagesFound fails k (npages newsz) → Spans (npages oldsz) k s.pgdir → Filled (npages oldsz) t.pgdir
  made : PagesFound fails k (npages newsz) → Made fails k (npages newsz) s.pgdir t.pgdir

/-- One round before the others; `u` is the state when `kalloc` has found page `k`. -/
theorem Grown.round {k oldsz newsz r : ℕ} {w : Mem} (hs : Sound rest s) (hb : Beside s u)
    (havail : ∀ g, u.kmem.avail g + one f g = s.kmem.avail g) (hst : Steady u w)
    (hmapped : w.mapped = u.mapped ∨ w.mapped = f :: u.mapped) (hlisted : Listed u → Listed w)
    (huser : AllUser u.pgdir → AllUser w.pgdir) (hfound : Use.page (k * PGSIZE) ∉ fails)
    (hround : Round fails k u.pgdir w.pgdir) (hk : npages oldsz ≤ k) (hlt : k < npages newsz) (htotal : ∀ g, w.total g ≤ s.total g)
    (hhas : Has fails u.pgdir k k → ∀ g, w.total g = s.total g)
    (hlost : ¬ Has fails u.pgdir k k → ∃ g, w.total g < s.total g)
    (hg : Grown rest fails (k + 1) oldsz newsz w r t) : Grown rest fails k oldsz newsz s r t := by
  have hpages := pagesFound_iff (n := npages newsz) hfound
  have htables := hround.tablesFound hlt hfound
  have hf : Sound (plus rest f) u := hs.take hb havail
  rw [hb.pgdir] at hround htables hhas hlost huser
  have hcases : ∀ P : Frame → Prop, P f → (∀ g ∈ s.mapped, P g) → ∀ g ∈ w.mapped, P g := by
    intro P hPf hP
    rw [hb.mapped] at hmapped
    rcases hmapped with he | he
    · rwa [he]
    · rw [he]
      exact List.forall_mem_cons.mpr ⟨hPf, hP⟩
  refine ⟨(hb.steady.trans hst).trans hg.toSteady, hg.tidy, fun v hv => ?_, fun g hg' => hg.mapped ?_,
    fun hl => hg.listed (hlisted ?_), fun hown => hg.own (hcases _ hf.zero hown), fun hnull => hg.null ?_,
    fun hu => hg.allUser (huser hu), by simp only [hg.value, hpages], fun g => (hg.total_le g).trans (htotal g),
    fun h g => ?_, fun h => ?_, fun h hsp => ?_, fun h => ?_⟩
  · rw [hg.low v hv, hround.pte v (by omega)]
  · rw [← hb.mapped] at hg'
    rcases hmapped with he | he
    · rwa [he]
    · rw [he]
      exact List.mem_cons_of_mem _ hg'
  · unfold Listed
    rw [hb.pgdir, hb.mapped]
    exact hl
  · have hne : f ≠ 0 := fun h0 => by
      have := hf.rest_null
      rw [plus, h0, one_self] at this
      omega
    exact fun h0 => hcases (· ≠ 0) hne (fun g hg e => hnull (e ▸ hg)) 0 h0 rfl
  · obtain ⟨hself, hrest⟩ := htables.mp h
    exact (hg.total hrest g).trans (hhas hself g)
  · by_cases hself : Has fails s.pgdir k k
    · refine (hg.lost fun hrest => h (htables.mpr ⟨hself, hrest⟩)).imp fun g hg => ?_
      rwa [hhas hself g] at hg
    · exact (hlost hself).imp fun g => (hg.total_le g).trans_lt
  · exact hg.cut (fun hp => h (hpages.mpr hp)) (hround.made.spans hsp hk k.le_succ)
  · exact hround.made.trans (hg.made (hpages.mp h)) k.le_succ hlt

theorem wp_allocFrom {oldsz newsz : ℕ} (hnew : newsz < KERNBASE) :
    ∀ (fuel k : ℕ) (s : Mem), Sound rest s → Tidy s.pgdir → 0 < fuel → newsz ≤ k * PGSIZE + (fuel - 1) * PGSIZE →
      npages oldsz ≤ k → k ≤ npages newsz → (E .remap ∨ Spans 0 k s.pgdir) →
      wp (allocFrom fails oldsz newsz fuel (k * PGSIZE)) (Grown rest fails k oldsz newsz s) E s := by
  intro fuel
  induction fuel with
  | zero => intro k s _ _ hfuel; omega
  | succ fuel ih =>
    intro k s hs ht _ hfuel hk hkn hE
    have hdiv := page_mul k
    unfold allocFrom
    by_cases ha : k * PGSIZE < newsz
    · have hva : k * PGSIZE < KERNBASE := by omega
      have hpage : k < NUPAGES := by simpa only [hdiv] using page_lt hva
      have hlt : k < npages newsz := lt_npages.mpr ha
      have hold : oldsz < newsz := by
        have : ¬ k < npages oldsz := by omega
        rw [lt_npages] at this
        omega
      obtain ⟨hpos, hfuel'⟩ := fuel_next ha hfuel
      rw [if_pos ha, wp_bind]
      refine wp_kalloc (fun hfail => ?_) fun f u hfound hb havail => ?_
      · -- what has been mapped is freed
        have hno : ¬ PagesFound fails k (npages newsz) := fun h => h k le_rfl hlt hfail
        have htables : TablesFound fails s.pgdir k (npages newsz) := fun v hv _ hp => absurd hfail (hp k le_rfl (by omega))
        simp only
        rw [wp_bind]
        refine wp_deallocuvm hs ht (by omega) (fun hle => by omega) fun _ t hfreed => ?_
        refine ⟨hfreed.toSteady, hfreed.tidy ht, fun v hv => ?_, by rw [hfreed.mapped]; exact List.Subset.refl _,
          hfreed.listed, by rw [hfreed.mapped]; exact id, by rw [hfreed.mapped]; exact id, hfreed.allUser,
          (if_neg hno).symm, fun g => (hfreed.total g).le, fun _ => hfreed.total, fun h => absurd htables h,
          fun _ hsp => hfreed.filled ht ?_, fun h => absurd h hno⟩
        · exact (hfreed.pte v).resolve_right fun h => by omega
        · exact fun v hv => ⟨(hsp v hv).1, fun hne => ((hsp v hv).2 hne).trans hlt⟩
      · simp only
        rw [wp_bind]
        have htotal := hb.total havail
        rw [← hb.pgdir] at hE ht
        refine wp_mappages ht hva (fun hnone hfail => ?_) (fun hmapped => ?_) fun htable _ w hadds => ?_
        · -- the page is lost, and there is a gap
          rw [pdx_eq, hdiv] at hnone
          have hround := Round.lost ht hpage hnone hfail
          have hno : ¬ Has fails u.pgdir k k := fun h => (has_self.mp h).elim (fun h => h hnone) fun h => h hfail
          simp only [next_page]
          refine (ih (k + 1) u (hs.take hb havail).drop ht hpos (hfuel' 1 one_pos) (by omega) hlt
            (hE.imp_right fun h => hround.made.spans h (Nat.zero_le _) k.le_succ)).mono fun r t hg => ?_
          refine hg.round hs hb havail .rfl (.inl rfl) id id hfound hround hk hlt (fun g => ?_) (fun h => absurd h hno)
            fun _ => ⟨f, ?_⟩
          · have := htotal g
            omega
          · have := htotal f
            rw [one_self] at this
            omega
        · refine hE.resolve_right fun h => ?_
          rw [hdiv] at hmapped
          exact absurd ((h k hpage).2 hmapped) (lt_irrefl k)
        · have hsame : ∀ g, w.total g = s.total g := fun g => (hadds.total g).trans (htotal g)
          have hw : Sound rest w := hs.of_le (hadds.first.trans hb.first) fun g => by rw [hsame g]
          have hround := hadds.round htable
          simp only [next_page]
          refine (ih (k + 1) w hw (hadds.tidy ht) hpos (hfuel' 1 one_pos) (by omega) hlt
            (hE.imp_right fun h => hround.made.spans h (Nat.zero_le _) k.le_succ)).mono fun r t hg => ?_
          have hhas : Has fails u.pgdir k k := by
            rw [← hround.here, hadds.pte, hdiv, update_self]
            nofun
          exact hg.round hs hb havail hadds.toSteady (.inr hadds.mapped) hadds.listed hadds.allUser hfound hround hk
            hlt (fun g => (hsame g).le) (fun _ => hsame) fun h => absurd hhas h
    · have hend : npages newsz = k := le_antisymm (not_lt.mp fun hlt => ha (lt_npages.mp hlt)) hkn
      rw [if_neg ha, wp_pure, ← hend]
      have hpages : PagesFound fails (npages newsz) (npages newsz) := fun v hv hlt => absurd hv (not_le.mpr hlt)
      have htables : TablesFound fails s.pgdir (npages newsz) (npages newsz) := fun v hv hlt => absurd hv (not_le.mpr hlt)
      exact ⟨.rfl, ht, fun _ _ => rfl, List.Subset.refl _, id, id, id, id, (if_pos hpages).symm, fun _ => le_rfl,
        fun _ _ => rfl, fun h => absurd htables h, fun h => absurd hpages h, fun _ => .refl⟩

/-- **`allocuvm`.** -/
theorem wp_allocuvm {oldsz newsz : ℕ} {Q : ℕ → Mem → Prop} (h : Sound rest s) (ht : Tidy s.pgdir)
    (hE : E .remap ∨ Spans 0 (npages oldsz) s.pgdir)
    (kbig : KERNBASE ≤ newsz → Q 0 s) (kold : newsz < KERNBASE → newsz < oldsz → Q oldsz s)
    (k : newsz < KERNBASE → oldsz ≤ newsz → ∀ r t, Grown rest fails (npages oldsz) oldsz newsz s r t → Q r t) :
    wp (allocuvm fails oldsz newsz) Q E s := by
  unfold allocuvm
  split_ifs with hbig hold
  · exact kbig hbig
  · exact kold (by omega) hold
  · rw [pgroundup_eq (by omega)]
    refine (wp_allocFrom (by omega) _ _ s h ht (Nat.succ_pos _) ?_ le_rfl (npages_mono (by omega)) hE).mono
      fun r t hg => k (by omega) (by omega) r t hg
    simp only [PGSIZE]
    omega

/-! ## Directories -/

theorem count_filterMap_range {g : ℕ → Option Frame} :
    ∀ n : ℕ, ((List.range n).filterMap g).count f = refs (fun i : Fin n => g i) f
  | 0 => rfl
  | n + 1 => by
    rw [List.range_succ, List.filterMap_append, List.count_append, count_filterMap_range n, refs, refs,
      Fin.sum_univ_castSucc]
    congr 1
    cases hg : g n with
    | none => simp [hg]
    | some a => simp [hg, List.count_singleton]

theorem Pgdir.holds_eq (d : Pgdir) (f : Frame) :
    d.holds f = d.pages.count f + refs (fun v : Fin NUPAGES => (d.pte v).target) f := by
  unfold Pgdir.pages Pgdir.holds
  rw [List.count_append, List.count_append, count_filterMap_range]
  omega

theorem wp_kfree_all : ∀ (l : List Frame) (s : Mem), (∀ f ∈ l, s.kmem.first ≤ f) →
    wp (l.forM kfree) (fun _ t => Beside s t ∧ ∀ g, t.kmem.avail g = s.kmem.avail g + l.count g) E s
  | [], s, _ => ⟨⟨rfl, rfl, rfl, rfl⟩, fun _ => rfl⟩
  | f :: l, s, h => by
    show wp (kfree f >>= fun _ => l.forM kfree) _ E s
    rw [wp_bind]
    refine wp_kfree (h f List.mem_cons_self) fun t hb ha => ?_
    refine (wp_kfree_all l t fun g hg => by rw [hb.first]; exact h g (List.mem_cons_of_mem _ hg)).mono fun _ u hu => ?_
    refine ⟨⟨hu.1.pgdir.trans hb.pgdir, hu.1.mapped.trans hb.mapped, hu.1.stores.trans hb.stores,
      hu.1.first.trans hb.first⟩, fun g => ?_⟩
    have h1 := hu.2 g
    have h2 := ha g
    simp only [List.count_cons, beq_iff_eq, one] at h2 ⊢
    omega

/-- The directory has been given up: it is empty, and its pages are free. -/
structure GivenUp (s t : Mem) : Prop where
  pgdir : t.pgdir = .empty
  mapped : t.mapped = s.mapped
  stores : t.stores = s.stores
  first : t.kmem.first = s.kmem.first
  total : ∀ g, t.total g = s.total g

theorem GivenUp.sound (h : GivenUp s t) (hs : Sound rest s) : Sound rest t :=
  hs.of_le h.first fun g => by rw [h.total g]

/-- **`freevm`.** -/
theorem wp_freevm {Q : Unit → Mem → Prop} (h : Sound rest s) (ht : Tidy s.pgdir) (hpage : s.pgdir.page ≠ none)
    (k : ∀ t, GivenUp s t → Q () t) : wp freevm Q E s := by
  have hall : npages KERNBASE = NUPAGES := by decide
  have hzero : npages 0 = 0 := by decide
  unfold freevm
  rw [wp_bind, wp_get, if_neg hpage, wp_bind]
  refine wp_deallocuvm h ht le_rfl (fun hle => by simp at hle) fun _ t hf => ?_
  rw [hall, hzero] at hf
  have hsound := hf.sound h
  have hpos : ∀ f ∈ t.pgdir.pages, t.kmem.first ≤ f := by
    intro f hmem
    have := List.count_pos_iff.mpr hmem
    refine hsound.first_le ?_
    rw [Mem.total, Pgdir.holds_eq]
    omega
  rw [wp_bind, wp_get, wp_bind, wp_set]
  have hcount := fun g => t.pgdir.holds_eq g
  generalize t.pgdir.pages = l at hpos hcount ⊢
  refine (wp_kfree_all l { t with pgdir := .empty } hpos).mono fun _ u hu => k u ?_
  refine ⟨hu.1.pgdir, hu.1.mapped.trans hf.mapped, hu.1.stores.trans hf.stores, hu.1.first.trans hf.first, fun g => ?_⟩
  have hnone : refs (fun v : Fin NUPAGES => (t.pgdir.pte v).target) g = 0 := by
    refine Nat.eq_zero_of_not_pos fun hpos => ?_
    obtain ⟨v, hv⟩ := refs_pos.mp hpos
    rw [hf.gone (.inl rfl) v (Nat.zero_le _) v.isLt] at hv
    cases hv
  have h1 := hf.total g
  have h2 := hcount g
  have h3 := hu.2 g
  rw [Mem.total] at h1
  rw [Mem.total, hu.1.pgdir, Pgdir.holds_empty]
  simp only at h3
  omega

/-- `kalloc` finds the pages for the directory and the page tables of the kernel part. -/
def KernelFound (fails : List Use) : Prop := Use.dir ∉ fails ∧ ∀ i ∈ kernelTables, Use.ktable i ∉ fails

instance : Decidable (KernelFound fails) := inferInstanceAs (Decidable (_ ∧ _))

/-- The directory that `setupkvm` makes: nothing is mapped in its user part, and no page is lost. -/
structure Fresh (s t : Mem) : Prop where
  table : ∀ i, t.pgdir.table i = none
  pte : ∀ v, t.pgdir.pte v = .zero
  page : t.pgdir.page ≠ none
  mapped : t.mapped = s.mapped
  stores : t.stores = s.stores
  first : t.kmem.first = s.kmem.first
  total : ∀ g, t.total g = s.kmem.avail g

theorem Fresh.tidy (h : Fresh s t) : Tidy t.pgdir := tidy_of_cleared h.pte

theorem Fresh.filled (h : Fresh s t) : Filled 0 t.pgdir := by
  intro v _
  rw [h.pte v]
  simp

/-- The user part of a new directory is empty. -/
theorem Fresh.made (h : Fresh s t) : Made fails 0 0 .empty t.pgdir := by
  refine .none (fun _ v _ _ => ?_) nofun fun i => ?_
  · rw [h.pte v]
    rfl
  · rw [h.table]
    rfl

theorem Fresh.sound (h : Fresh s t) (hs : Sound rest s) : Sound rest t := by
  refine hs.of_le h.first fun g => ?_
  rw [h.total g, Mem.total]
  omega

/-- The pages of a new directory are no longer free. -/
theorem Fresh.taken (h : Fresh s t) : ∃ f, t.kmem.avail f < s.kmem.avail f := by
  obtain ⟨f, hf⟩ := Option.ne_none_iff_exists'.mp h.page
  refine ⟨f, ?_⟩
  rw [← h.total f, Mem.total]
  simp [Pgdir.holds, hf]

theorem wp_mapKernel : ∀ (is : List ℕ) (u : Mem), Fresh s u →
    wp (mapKernel fails is) (fun ok t => Fresh s t ∧ (ok = true ↔ ∀ i ∈ is, Use.ktable i ∉ fails)) E u
  | [], _, h => ⟨h, by simp⟩
  | i :: is, u, h => by
    unfold mapKernel
    rw [wp_bind]
    refine wp_kalloc (fun hfail => ⟨h, by simp [hfail]⟩) fun f w hfound hb ha => ?_
    simp only
    rw [wp_bind, wp_get, wp_bind, wp_set]
    have hfresh : Fresh s { w with pgdir := { w.pgdir with kernel := w.pgdir.kernel ++ [f] } } := by
      refine ⟨?_, ?_, ?_, hb.mapped.trans h.mapped, hb.stores.trans h.stores, hb.first.trans h.first, fun g => ?_⟩
      · rw [hb.pgdir]
        exact h.table
      · rw [hb.pgdir]
        exact h.pte
      · rw [hb.pgdir]
        exact h.page
      · have h1 := h.total g
        have h2 := ha g
        rw [← h1, Mem.total, Mem.total, hb.pgdir]
        simp only [Pgdir.holds, List.count_append, List.count_singleton, beq_iff_eq, one] at h2 ⊢
        omega
    exact (wp_mapKernel is _ hfresh).mono fun ok t ht => ⟨ht.1, by simp [ht.2, hfound]⟩

/-- **`setupkvm`.** When it fails for want of a page table, what it has allocated is nobody's: a page of the directory is
lost. -/
theorem wp_setupkvm {Q : Bool → Mem → Prop}
    (kdir : Use.dir ∈ fails → Q false s)
    (kfail : Use.dir ∉ fails → ¬ KernelFound fails → ∀ t, Fresh s t → Q false t)
    (kok : KernelFound fails → ∀ t, Fresh s t → Q true t) : wp (setupkvm fails) Q E s := by
  unfold setupkvm
  rw [wp_bind]
  refine wp_kalloc kdir fun f u hfound hb ha => ?_
  simp only
  have hfresh : Fresh s { u with pgdir := { Pgdir.empty with page := some f } } := by
    refine ⟨fun _ => rfl, fun _ => rfl, nofun, hb.mapped, hb.stores, hb.first, fun g => ?_⟩
    have hone : ({ Pgdir.empty with page := some f } : Pgdir).holds g = one f g := by
      simp [Pgdir.holds, Pgdir.empty, refs, List.count_singleton, one]
    rw [Mem.total, hone]
    exact ha g
  rw [wp_bind, wp_get, wp_bind, wp_set]
  refine (wp_mapKernel kernelTables _ hfresh).mono fun ok t ht => ?_
  cases ok with
  | false => exact kfail hfound (fun h => by cases ht.2.mpr h.2) t ht.1
  | true => exact kok ⟨hfound, ht.2.mp rfl⟩ t ht.1

/-- A directory with the first `n` pages mapped. -/
structure Whole (n : ℕ) (d : Pgdir) : Prop where
  tidy : Tidy d
  filled : Filled n d
  page : d.page ≠ none

theorem Fresh.whole (h : Fresh s t) : Whole 0 t.pgdir := ⟨h.tidy, h.filled, h.page⟩

theorem Whole.walk (h : Whole n d) (hn : n ≤ NUPAGES) (hva : va / PGSIZE < n) :
    d.walk va = some (d.pte (va / PGSIZE)) ∧ (d.pte (va / PGSIZE)).target ≠ none := by
  have hmapped := (h.filled (va / PGSIZE) (by omega)).mpr hva
  have hlt : va < KERNBASE := by
    simp only [NUPAGES, KERNBASE, PGSIZE] at hva hn ⊢
    omega
  rw [walk_user hlt, if_pos (h.tidy.tabled _ (by omega) hmapped)]
  exact ⟨rfl, hmapped⟩

theorem Whole.next {k : ℕ} {user : Bool} (h : Whole k s.pgdir) (ha : Adds (k * PGSIZE) f user s t) :
    Whole (k + 1) t.pgdir :=
  ⟨ha.tidy h.tidy, ha.filled h.filled, by rw [ha.page]; exact h.page⟩

/-- The pages from `k` up to `n` of a new directory have page tables, as far as they are found. -/
abbrev NewTables (fails : List Use) (k n : ℕ) : Prop :=
  ∀ v, k ≤ v → v < n → PagesFound fails k (v + 1) → Has fails .empty 0 v

theorem Made.newTables {k : ℕ} (h : Made fails 0 k .empty d) : TablesFound fails d k n ↔ NewTables fails k n :=
  forall₃_congr fun _ hv _ => imp_congr_right fun _ => h.has (Nat.zero_le _) hv

/-! ### Copying -/

/-- What `copyuvm` reads of the parent: every page of its memory, or it may stop. -/
def Copyable (E : Stop → Prop) (parent : Pgdir) (sz : ℕ) : Prop :=
  Whole (npages sz) parent ∨ E .copyExist ∧ E .copyPresent

/-- What the loop of `copyuvm` has done with `n` pages. It loses a page when it asks for a page table in vain, and only
then. -/
structure Copied (fails : List Use) (n : ℕ) (s : Mem) (ok : Bool) (t : Mem) : Prop where
  first : t.kmem.first = s.kmem.first
  total_le : ∀ g, t.total g ≤ s.total g
  whole : ok = true → Whole n t.pgdir
  empty : ok = false → t.pgdir = .empty
  total : NewTables fails 0 n → ∀ g, t.total g = s.total g
  lost : ¬ NewTables fails 0 n → ∃ g, t.total g < s.total g

theorem Copied.sound {ok : Bool} (h : Copied fails n s ok t) (hs : Sound rest s) : Sound rest t :=
  hs.of_le h.first fun g => Nat.add_le_add_right (h.total_le g) _

/-- Whether every page table is found shows at the first page that is not. -/
theorem newTables_of_found {k : ℕ} (hhas : ∀ v < k, Has fails .empty 0 v)
    (hk : k < n → Use.page (k * PGSIZE) ∈ fails) : NewTables fails 0 n := by
  intro v _ hlt hp
  by_cases hvk : v < k
  · exact hhas v hvk
  · exact absurd (hk (by omega)) (hp k (Nat.zero_le _) (by omega))

theorem PagesFound.next {j k : ℕ} (h : PagesFound fails j k) (hpage : Use.page (k * PGSIZE) ∉ fails) :
    PagesFound fails j (k + 1) := by
  intro v hv hlt
  by_cases hvk : v = k
  · exact hvk ▸ hpage
  · exact h v hv (by omega)

theorem wp_copyFrom {parent : Pgdir} {sz : ℕ} (hsz : sz ≤ KERNBASE) (hp : Copyable E parent sz) :
    ∀ (fuel k : ℕ) (s : Mem), Sound rest s → Whole k s.pgdir → Made fails 0 k .empty s.pgdir → PagesFound fails 0 k →
      (∀ v < k, Has fails .empty 0 v) → 0 < fuel → sz ≤ k * PGSIZE + (fuel - 1) * PGSIZE → k ≤ npages sz →
      wp (copyFrom fails parent sz fuel (k * PGSIZE)) (Copied fails (npages sz) s) E s := by
  intro fuel
  induction fuel with
  | zero => intro k s _ _ _ _ _ hfuel; omega
  | succ fuel ih =>
    intro k s hs hw hmade hpages hhas _ hfuel hk
    have hdiv := page_mul k
    unfold copyFrom
    by_cases ha : k * PGSIZE < sz
    · have hlt : k < npages sz := lt_npages.mpr ha
      have hva : k * PGSIZE < KERNBASE := by omega
      obtain ⟨hpos, hfuel'⟩ := fuel_next ha hfuel
      have hpage : k < NUPAGES := by simpa only [hdiv] using page_lt hva
      have hparent : ∀ h : Whole (npages sz) parent, _ := fun h =>
        h.walk (npages_le hsz) (by rw [hdiv]; exact hlt : k * PGSIZE / PGSIZE < npages sz)
      rw [if_pos ha]
      split
      · rename_i hnone
        rcases hp with hp | hE
        · rw [(hparent hp).1] at hnone
          cases hnone
        · exact hE.1
      rename_i e hwalk
      split_ifs with hpresent
      swap
      · rcases hp with hp | hE
        · rw [(hparent hp).1] at hwalk
          cases hwalk
          exact absurd (Pte.present_iff.mpr (hparent hp).2) hpresent
        · exact hE.2
      rw [wp_bind]
      refine wp_kalloc (fun hfail => ?_) fun f u hfound hb havail => ?_
      · -- what is copied so far is freed
        have hnew := newTables_of_found (n := npages sz) hhas fun _ => hfail
        simp only
        rw [wp_bind]
        refine wp_freevm hs hw.tidy hw.page fun t ht => ?_
        exact ⟨ht.first, fun g => (ht.total g).le, nofun, fun _ => ht.pgdir, fun _ => ht.total, fun h => absurd hnew h⟩
      have htotal := hb.total havail
      have hu : Sound rest u := (hs.take hb havail).drop
      simp only
      rw [wp_bind]
      rw [← hb.pgdir] at hw hmade
      have hself := hmade.has (Nat.zero_le _) (le_refl k)
      refine wp_mappages hw.tidy hva (fun hnone hfail => ?_) (fun hmapped => ?_) fun htable _ t hadds => ?_
      · -- the page that is not mapped is lost
        rw [pdx_eq, hdiv] at hnone
        have hno : ¬ Has fails u.pgdir k k := fun h => (has_self.mp h).elim (fun h => h hnone) fun h => h hfail
        have hnew : ¬ NewTables fails 0 (npages sz) := fun h =>
          hno (hself.mpr (h k (Nat.zero_le _) hlt (hpages.next hfound)))
        simp only [Bool.false_eq_true, if_false]
        rw [wp_bind]
        refine wp_freevm hu hw.tidy hw.page fun t ht => ?_
        refine ⟨ht.first.trans hb.first, fun g => ?_, nofun, fun _ => ht.pgdir, fun h => absurd h hnew, fun _ => ⟨f, ?_⟩⟩
        · have h1 := ht.total g
          have h2 := htotal g
          omega
        · have h1 := ht.total f
          have h2 := htotal f
          rw [one_self] at h2
          omega
      · rw [hdiv] at hmapped
        have := (hw.filled k hpage).mp hmapped
        omega
      · have hsame : ∀ g, t.total g = s.total g := fun g => (hadds.total g).trans (htotal g)
        have hround := hadds.round htable
        have hk' : Has fails .empty 0 k := by
          rw [← hself, ← hround.here, hadds.pte, hdiv, update_self]
          nofun
        simp only [if_true, next_page]
        refine (ih (k + 1) t (hs.of_le (hadds.first.trans hb.first) fun g => by rw [hsame g]) (hw.next hadds)
          (hmade.trans hround.made (Nat.zero_le _) k.le_succ) (hpages.next hfound) (fun v hv => ?_) hpos
          (hfuel' 1 one_pos) hlt).mono fun ok v hv => ?_
        · rcases Nat.lt_succ_iff_lt_or_eq.mp hv with hv | rfl
          · exact hhas v hv
          · exact hk'
        exact ⟨hv.first.trans (hadds.first.trans hb.first), fun g => (hv.total_le g).trans (hsame g).le, hv.whole, hv.empty,
          fun h g => (hv.total h g).trans (hsame g), fun h => (hv.lost h).imp fun g hg => hg.trans_le (hsame g).le⟩
    · have hend : npages sz = k := le_antisymm (not_lt.mp fun hlt => ha (lt_npages.mp hlt)) hk
      have hnew : NewTables fails 0 (npages sz) := newTables_of_found hhas fun hlt => by omega
      rw [if_neg ha, wp_pure]
      exact ⟨rfl, fun _ => le_rfl, fun _ => hend ▸ hw, nofun, fun _ _ => rfl, fun h => absurd hnew h⟩

/-- **`copyuvm`.** -/
theorem wp_copyuvm {parent : Pgdir} {sz : ℕ} {Q : Bool → Mem → Prop} (h : Sound rest s) (hsz : sz ≤ KERNBASE)
    (hp : Copyable E parent sz) (kdir : Use.dir ∈ fails → Q false s)
    (kfail : Use.dir ∉ fails → ¬ KernelFound fails → ∀ t, Fresh s t → Q false t)
    (k : KernelFound fails → ∀ t, Fresh s t → ∀ ok u, Copied fails (npages sz) t ok u → Q ok u) :
    wp (copyuvm fails parent sz) Q E s := by
  unfold copyuvm
  rw [wp_bind]
  refine wp_setupkvm kdir kfail fun hkernel t ht => ?_
  simp only [if_true]
  have hfuel : sz ≤ 0 * PGSIZE + (sz / PGSIZE + 2 - 1) * PGSIZE := by
    simp only [PGSIZE]
    omega
  have hloop : wp (copyFrom fails parent sz (sz / PGSIZE + 2) (0 * PGSIZE)) _ E t :=
    wp_copyFrom hsz hp _ 0 t (ht.sound h) ht.whole ht.made nofun nofun (Nat.succ_pos _) hfuel (Nat.zero_le _)
  rw [Nat.zero_mul] at hloop
  exact hloop.mono fun ok u hu => k hkernel t ht ok u hu

end Xv6.Vm
