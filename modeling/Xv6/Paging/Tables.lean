import Mathlib.Data.Nat.Bitwise
import Xv6.Paging.Memory

/-!
# Page directories in memory

`Free s l` says that the free list has the pages `l`, and `Dir s d` that the page `d` holds a page directory: its page
tables are in pages of their own. `translate` is what the hardware makes of an address.

- `Grows`: what a function may do that takes pages for a directory from the free list;
- `wp_kalloc`, `wp_walkpgdir`: the rules for the two functions that do it.
-/

namespace Xv6.Paging

open Lib
open Vm (Frame PGSIZE NPTENTRIES KERNBASE PHYSTOP DEVSPACE pgroundup pgrounddown pdx)

variable {s t : State} {f g d i j va va' : ℕ} {w e : Word} {l l' : List ℕ} {E : Stop → Prop}

/-! ## Words -/

theorem mem_setPage_ne {m : ℕ → Byte} (h : g ≠ f) : (s.setPage f m).mem g = s.mem g := Function.update_of_ne h ..

theorem mem_setPage_self {m : ℕ → Byte} : (s.setPage f m).mem f = m := Function.update_self ..

theorem mem_setWord_ne (h : g ≠ f) : (s.setWord f i w).mem g = s.mem g := mem_setPage_ne h

theorem word_congr (h : t.mem f = s.mem f) : t.word f i = s.word f i := by rw [State.word, State.word, h]

theorem word_setWord_self : (s.setWord f i w).word f i = w := by
  unfold State.word State.setWord
  rw [mem_setPage_self]
  exact word32_eq fun k hk => overlay_at hk

theorem word_setWord_ne (h : g ≠ f ∨ j ≠ i) : (s.setWord f i w).word g j = s.word g j := by
  by_cases hg : g = f
  · subst hg
    have hij : j ≠ i := h.resolve_left (· rfl)
    unfold State.word State.setWord
    rw [mem_setPage_self]
    exact word32_congr fun k hk => overlay_out (by omega)
  · exact word_congr (mem_setWord_ne hg)

theorem word32_zero : word32 (fun _ => 0) i = 0 := word32_eq fun k _ => by simp [byte]

/-! ## Entries -/

theorem frame_eq (e : Word) : frame e = e.toNat / PGSIZE := Nat.mul_div_cancel _ (by decide)

theorem present_iff : present e = true ↔ e.toNat % 2 = 1 := by
  rw [present, BitVec.getLsbD, Nat.testBit_zero, decide_eq_true_eq]

theorem or_flags {pa x : ℕ} (hpa : pa % PGSIZE = 0) (hx : x < PGSIZE) : pa ||| x = pa + x := by
  have h := Nat.two_pow_add_eq_or_of_lt (i := 12) hx (pa / PGSIZE)
  rw [show 2 ^ 12 * (pa / PGSIZE) = pa by simp only [PGSIZE] at *; omega] at h
  exact h.symm

theorem or_lt {x y : ℕ} (hx : x < PGSIZE) (hy : y < PGSIZE) : x ||| y < PGSIZE := Nat.or_lt_two_pow (n := 12) hx hy

section Pte

variable {pa perm : ℕ}

theorem toNat_pte (hpa : pa % PGSIZE = 0) (hlt : pa < 2 ^ 32) (hperm : perm < PGSIZE) :
    (pte pa perm).toNat = pa + (perm ||| PTE_P) := by
  have hor : perm ||| PTE_P < PGSIZE := or_lt hperm (by decide)
  rw [pte, Nat.or_assoc, or_flags hpa hor, BitVec.toNat_ofNat, Nat.mod_eq_of_lt]
  simp only [PGSIZE] at *
  omega

theorem frame_pte (hpa : pa % PGSIZE = 0) (hlt : pa < 2 ^ 32) (hperm : perm < PGSIZE) :
    frame (pte pa perm) = pa / PGSIZE := by
  have hor : perm ||| PTE_P < PGSIZE := or_lt hperm (by decide)
  rw [frame_eq, toNat_pte hpa hlt hperm]
  generalize perm ||| PTE_P = x at hor
  simp only [PGSIZE] at *
  omega

theorem pteFlags_pte (hpa : pa % PGSIZE = 0) (hlt : pa < 2 ^ 32) (hperm : perm < PGSIZE) :
    pteFlags (pte pa perm) = perm ||| PTE_P := by
  have hor : perm ||| PTE_P < PGSIZE := or_lt hperm (by decide)
  rw [pteFlags, toNat_pte hpa hlt hperm]
  simp only [PGSIZE] at *
  omega

theorem present_pte (hpa : pa % PGSIZE = 0) (hlt : pa < 2 ^ 32) (hperm : perm < PGSIZE) :
    present (pte pa perm) = true := by
  have hodd : (perm ||| PTE_P) % 2 = 1 := by
    have := Nat.testBit_or perm PTE_P 0
    simp only [Nat.testBit_zero, PTE_P, decide_true, Bool.or_true, decide_eq_true_eq] at this
    exact this
  rw [present_iff, toNat_pte hpa hlt hperm]
  simp only [PGSIZE] at *
  omega

end Pte

theorem table_entry (hf : f * PGSIZE < PHYSTOP) :
    present (.ofNat 32 (f * PGSIZE ||| PTE_P ||| PTE_W ||| PTE_U)) = true ∧
      frame (.ofNat 32 (f * PGSIZE ||| PTE_P ||| PTE_W ||| PTE_U)) = f := by
  have hpa : f * PGSIZE % PGSIZE = 0 := Nat.mul_mod_left _ _
  have hlt : f * PGSIZE + 7 < 2 ^ 32 := by
    generalize f * PGSIZE = pa at hf ⊢
    simp only [PHYSTOP] at hf
    omega
  have hflags : PTE_P ||| (PTE_W ||| PTE_U) = 7 := by decide
  have hnat : f * PGSIZE ||| PTE_P ||| PTE_W ||| PTE_U = f * PGSIZE + 7 := by
    rw [Nat.or_assoc, Nat.or_assoc, hflags, or_flags hpa (by decide)]
  rw [present_iff, frame_eq, hnat, BitVec.toNat_ofNat, Nat.mod_eq_of_lt hlt]
  simp only [PGSIZE] at *
  omega

/-! ## The free list -/

/-- **The free list** has the pages `l`. -/
structure Free (s : State) (l : List ℕ) : Prop where
  chain : Chain s.next s.freelist l
  nodup : l.Nodup
  range : ∀ f ∈ l, f * PGSIZE < PHYSTOP

theorem Free.lt (h : Free s l) (hf : f ∈ l) : f < 2 ^ 16 := by
  have hlt := h.range f hf
  simp only [PHYSTOP, PGSIZE] at hlt
  omega

theorem Free.congr (h : Free s l) (hf : t.freelist = s.freelist) (hm : ∀ f ∈ l, t.mem f = s.mem f) : Free t l := by
  refine ⟨?_, h.nodup, h.range⟩
  rw [hf]
  refine h.chain.congr fun j hj => ?_
  rw [State.next, State.next, word_congr (hm j hj)]

/-- Only the allocator has changed. -/
structure Beside (s t : State) : Prop where
  mem : t.mem = s.mem
  first : t.first = s.first
  fails : s.fails = [] → t.fails = []

/-- **`kalloc`** fails where the input says so, or when there is no page. -/
theorem wp_kalloc {Q : Option ℕ → State → Prop} (h : Free s l)
    (knone : ∀ t, Beside s t → Free t l → (s.fails = [] → l = []) → Q none t)
    (ksome : ∀ f l' t, l = f :: l' → Beside s t → Free t l' → Q (some f) t) : wp kalloc Q E s := by
  have htail : s.fails = [] → s.fails.tail = [] := fun he => by rw [he, List.tail_nil]
  unfold kalloc
  rw [wp_bind, wp_get]
  split
  · rename_i r _ hr
    have hc := h.chain
    rw [hr] at hc
    obtain ⟨l', rfl, hc'⟩ := hc.of_some
    rw [wp_bind, wp_set, wp_pure]
    exact ksome r l' _ rfl ⟨rfl, rfl, htail⟩
      ⟨hc', (List.nodup_cons.mp h.nodup).2, fun f hf => h.range f (List.mem_cons_of_mem _ hf)⟩
  · rename_i hno
    rw [wp_bind, wp_set, wp_pure]
    refine knone _ ⟨rfl, rfl, htail⟩ (h.congr rfl fun _ _ => rfl) fun he => ?_
    have hnone : s.freelist = none := by
      cases hfl : s.freelist with
      | none => rfl
      | some r => exact (hno r (by rw [he]; rfl) hfl).elim
    have hc := h.chain
    rw [hnone] at hc
    exact hc.of_none

theorem v2p_p2v {o : Option ℕ} (h : ∀ f ∈ o, f * PGSIZE < PHYSTOP) : v2p (p2v o) = o := by
  cases o with
  | none => rfl
  | some f =>
    have hf := h f rfl
    have hnat : (p2v (some f)).toNat = KERNBASE + f * PGSIZE := by
      rw [p2v, BitVec.toNat_ofNat, Nat.mod_eq_of_lt]
      simp only [KERNBASE, PHYSTOP, PGSIZE] at *
      omega
    have hne : p2v (some f) ≠ 0 := fun h0 => by
      rw [h0] at hnat
      simp only [KERNBASE] at hnat
      exact absurd hnat (by simp; omega)
    have hback : (KERNBASE + f * PGSIZE + 2 ^ 32 - KERNBASE) % 2 ^ 32 / PGSIZE = f := by
      simp only [KERNBASE, PHYSTOP, PGSIZE] at *
      omega
    rw [v2p, if_neg hne, hnat, hback]

/-- **`kfree`** of a page that is not free. -/
theorem wp_kfree {Q : Unit → State → Prop} (h : Free s l) (hf : f ∉ l) (hfirst : s.first ≤ f)
    (hlt : f * PGSIZE < PHYSTOP)
    (k : ∀ t, t.first = s.first → (∀ g, g ≠ f → t.mem g = s.mem g) → Free t (f :: l) → Q () t) :
    wp (kfree f) Q E s := by
  unfold kfree memset
  rw [wp_bind, wp_get, if_neg (not_or.mpr ⟨not_lt.mpr hfirst, not_le.mpr hlt⟩), wp_bind, wp_modify, wp_bind, wp_get,
    wp_set]
  have hmem : ∀ g, g ≠ f → ((s.setPage f fun _ => 1).setWord f 0 (p2v s.freelist)).mem g = s.mem g := fun g hg => by
    rw [mem_setWord_ne hg, mem_setPage_ne hg]
  refine k _ rfl hmem ⟨⟨rfl, ?_⟩, List.nodup_cons.mpr ⟨hf, h.nodup⟩, List.forall_mem_cons.mpr ⟨hlt, h.range⟩⟩
  -- the page points to the old list, and the other pages are as they were
  have hhead : ∀ r ∈ s.freelist, r * PGSIZE < PHYSTOP := by
    intro r hr
    have hc := h.chain
    rw [hr] at hc
    obtain ⟨l', rfl, -⟩ := hc.of_some
    exact h.range r List.mem_cons_self
  have hnext : v2p (((s.setPage f fun _ => 1).setWord f 0 (p2v s.freelist)).word f 0) = s.freelist := by
    rw [word_setWord_self, v2p_p2v hhead]
  show Chain _ (v2p (((s.setPage f fun _ => 1).setWord f 0 (p2v s.freelist)).word f 0)) l
  rw [hnext]
  refine h.chain.congr fun j hj => ?_
  show v2p (((s.setPage f fun _ => 1).setWord f 0 (p2v s.freelist)).word j 0) = _
  rw [word_congr (hmem j fun he => hf (he ▸ hj))]
  rfl

/-! ## Directories -/

/-- **A page directory**: its page tables are in different pages, and none of them is the directory. -/
structure Dir (s : State) (d : ℕ) : Prop where
  ne : ∀ i < NPTENTRIES, present (s.word d i) → frame (s.word d i) ≠ d
  inj : ∀ i < NPTENTRIES, ∀ j < NPTENTRIES, present (s.word d i) → present (s.word d j) →
    frame (s.word d i) = frame (s.word d j) → i = j

/-- The page is the directory or one of its page tables. -/
def Part (s : State) (d f : ℕ) : Prop := f = d ∨ ∃ i < NPTENTRIES, present (s.word d i) ∧ frame (s.word d i) = f

/-- The entry for an address, if it has a page table. -/
def State.entry (s : State) (d va : ℕ) : Option Word := (s.walk d va).map fun q => s.word q.1 q.2

/-- **The translation** of an address: the page and its flags. -/
def State.translate (s : State) (d va : ℕ) : Option (ℕ × ℕ) :=
  (s.entry d va).bind fun e => if present e then some (frame e, pteFlags e) else none

theorem pdx_lt (h : va < 2 ^ 32) : pdx va < NPTENTRIES := by
  simp only [pdx, NPTENTRIES, PGSIZE]
  omega

/-- **The two indices** determine the page. -/
theorem page_eq (h : pdx va = pdx va') (h' : ptx va = ptx va') : va / PGSIZE = va' / PGSIZE := by
  simp only [pdx, ptx, NPTENTRIES, PGSIZE] at *
  omega

theorem indices_eq (h : va / PGSIZE = va' / PGSIZE) : pdx va = pdx va' ∧ ptx va = ptx va' := by
  simp only [pdx, ptx, NPTENTRIES, PGSIZE] at *
  omega

theorem walk_some (h : s.walk d va = some (f, i)) :
    present (s.word d (pdx va)) = true ∧ frame (s.word d (pdx va)) = f ∧ ptx va = i := by
  unfold State.walk at h
  split_ifs at h with hp
  obtain ⟨rfl, rfl⟩ := by simpa using h
  exact ⟨hp, rfl, rfl⟩

theorem walk_none (h : s.walk d va = none) : present (s.word d (pdx va)) = false := by
  unfold State.walk at h
  split_ifs at h with hp
  exact Bool.eq_false_iff.mpr hp

theorem entry_of_walk (h : s.walk d va = some (f, i)) : s.entry d va = some (s.word f i) := by
  rw [State.entry, h]
  rfl

theorem entry_page (h : va / PGSIZE = va' / PGSIZE) : s.entry d va = s.entry d va' := by
  obtain ⟨h1, h2⟩ := indices_eq h
  rw [State.entry, State.entry, State.walk, State.walk, h1, h2]

theorem translate_page (h : va / PGSIZE = va' / PGSIZE) : s.translate d va = s.translate d va' := by
  rw [State.translate, State.translate, entry_page h]

theorem Dir.congr (h : Dir s d) (hm : t.mem d = s.mem d) : Dir t d := by
  refine ⟨fun i hi => ?_, fun i hi j hj => ?_⟩
  · rw [word_congr hm]
    exact h.ne i hi
  · rw [word_congr hm, word_congr hm]
    exact h.inj i hi j hj

theorem part_congr (hm : t.mem d = s.mem d) : Part t d g ↔ Part s d g := by
  unfold Part
  simp only [word_congr hm]

theorem part_of_walk (h : s.walk d va = some (f, i)) (hva : va < 2 ^ 32) : Part s d f := by
  obtain ⟨hp, hf, -⟩ := walk_some h
  exact .inr ⟨_, pdx_lt hva, hp, hf⟩

theorem entry_congr (hm : ∀ g, Part s d g → t.mem g = s.mem g) (hva : va < 2 ^ 32) : t.entry d va = s.entry d va := by
  have hw : t.walk d va = s.walk d va := by rw [State.walk, State.walk, word_congr (hm d (.inl rfl))]
  rw [State.entry, State.entry, hw]
  cases hq : s.walk d va with
  | none => simp only [Option.map_none]
  | some q => exact congrArg some (word_congr (hm q.1 (part_of_walk hq hva)))

theorem translate_congr (hm : ∀ g, Part s d g → t.mem g = s.mem g) (hva : va < 2 ^ 32) :
    t.translate d va = s.translate d va := by
  rw [State.translate, State.translate, entry_congr hm hva]

/-- The number of page tables that the directory does not have. -/
def missing (s : State) (d : ℕ) : ℕ := ((Finset.range NPTENTRIES).filter fun i => present (s.word d i) = false).card

theorem missing_congr (hm : t.mem d = s.mem d) : missing t d = missing s d := by
  unfold missing
  simp only [word_congr hm]

/-! ## Writing an entry -/

section SetWord

variable (hd : Dir s d) (hva : va < 2 ^ 32) (hw : s.walk d va = some (f, i))

include hd hva hw

theorem Dir.table_ne : f ≠ d := by
  obtain ⟨hp, rfl, -⟩ := walk_some hw
  exact hd.ne _ (pdx_lt hva) hp

theorem word_setEntry (j : ℕ) : (s.setWord f i w).word d j = s.word d j :=
  word_setWord_ne (.inl (hd.table_ne hva hw).symm)

theorem dir_setEntry : Dir (s.setWord f i w) d := hd.congr (mem_setWord_ne (hd.table_ne hva hw).symm)

theorem part_setEntry : Part (s.setWord f i w) d g ↔ Part s d g :=
  part_congr (mem_setWord_ne (hd.table_ne hva hw).symm)

/-- **One entry is written**: that of no other page changes. -/
theorem entry_setEntry (hva' : va' < 2 ^ 32) :
    (s.setWord f i w).entry d va' = if va' / PGSIZE = va / PGSIZE then some w else s.entry d va' := by
  have hwalk : (s.setWord f i w).walk d va' = s.walk d va' := by
    rw [State.walk, State.walk, word_setEntry hd hva hw]
  split_ifs with hpage
  · obtain ⟨h1, h2⟩ := indices_eq hpage
    rw [State.entry, hwalk, show s.walk d va' = s.walk d va by rw [State.walk, State.walk, h1, h2], hw]
    exact congrArg some word_setWord_self
  · rw [State.entry, State.entry, hwalk]
    cases hq : s.walk d va' with
    | none => simp only [Option.map_none]
    | some q =>
      obtain ⟨g, j⟩ := q
      obtain ⟨hp, hf, hi⟩ := walk_some hw
      obtain ⟨hp', hf', hi'⟩ := walk_some hq
      refine congrArg some (word_setWord_ne ?_)
      -- the same place would be the same page
      by_contra hne
      obtain ⟨hgf, hji⟩ : g = f ∧ j = i := by simpa using hne
      have hpdx : pdx va' = pdx va := hd.inj _ (pdx_lt hva') _ (pdx_lt hva) hp' hp (by rw [hf, hf', hgf])
      exact hpage (page_eq hpdx (by rw [hi, hi', hji]))

theorem translate_setEntry (hva' : va' < 2 ^ 32) :
    (s.setWord f i w).translate d va' =
      if va' / PGSIZE = va / PGSIZE then (if present w then some (frame w, pteFlags w) else none)
      else s.translate d va' := by
  rw [State.translate, entry_setEntry hd hva hw hva']
  split_ifs <;> simp_all [State.translate]

end SetWord

/-! ## A new page table -/

/-- A page table is added: a cleared page, and its entry in the directory. -/
def State.addTable (s : State) (d f i : ℕ) : State :=
  (s.setPage f fun _ => 0).setWord d i (.ofNat 32 (f * PGSIZE ||| PTE_P ||| PTE_W ||| PTE_U))

section AddTable

variable (hd : Dir s d) (hva : va < 2 ^ 32) (hw : s.walk d va = none) (hf : ¬ Part s d f) (hlt : f * PGSIZE < PHYSTOP)

include hf in
theorem word_addTable_ne (h : j ≠ pdx va) : (s.addTable d f (pdx va)).word d j = s.word d j := by
  rw [State.addTable, word_setWord_ne (.inr h)]
  exact word_congr (mem_setPage_ne fun he => hf (.inl he.symm))

theorem word_addTable_self :
    (s.addTable d f (pdx va)).word d (pdx va) = .ofNat 32 (f * PGSIZE ||| PTE_P ||| PTE_W ||| PTE_U) :=
  word_setWord_self

include hlt in
theorem walk_addTable : (s.addTable d f (pdx va)).walk d va = some (f, ptx va) := by
  rw [State.walk, word_addTable_self, if_pos (table_entry hlt).1, (table_entry hlt).2]

include hd hf hlt in
theorem dir_addTable : Dir (s.addTable d f (pdx va)) d := by
  refine ⟨fun i hi hp => ?_, fun i hi j hj hpi hpj he => ?_⟩
  · by_cases hiv : i = pdx va
    · rw [hiv, word_addTable_self, (table_entry hlt).2]
      exact fun h => hf (.inl h)
    · rw [word_addTable_ne hf hiv] at hp ⊢
      exact hd.ne i hi hp
  · by_cases hiv : i = pdx va
    · by_cases hjv : j = pdx va
      · rw [hiv, hjv]
      · rw [hiv, word_addTable_self, (table_entry hlt).2, word_addTable_ne hf hjv] at he
        rw [word_addTable_ne hf hjv] at hpj
        exact absurd (.inr ⟨j, hj, hpj, he.symm⟩) hf
    · rw [word_addTable_ne hf hiv] at hpi he
      by_cases hjv : j = pdx va
      · rw [hjv, word_addTable_self, (table_entry hlt).2] at he
        exact absurd (.inr ⟨i, hi, hpi, he⟩) hf
      · rw [word_addTable_ne hf hjv] at hpj he
        exact hd.inj i hi j hj hpi hpj he

include hva hw hf hlt in
theorem part_addTable : Part (s.addTable d f (pdx va)) d g ↔ Part s d g ∨ g = f := by
  unfold Part
  constructor
  · rintro (h | ⟨i, hi, hp, he⟩)
    · exact .inl (.inl h)
    · by_cases hiv : i = pdx va
      · rw [hiv, word_addTable_self, (table_entry hlt).2] at he
        exact .inr he.symm
      · rw [word_addTable_ne hf hiv] at hp he
        exact .inl (.inr ⟨i, hi, hp, he⟩)
  · rintro ((h | ⟨i, hi, hp, he⟩) | h)
    · exact .inl h
    · have hiv : i ≠ pdx va := fun h => by
        rw [h, walk_none hw] at hp
        cases hp
      exact .inr ⟨i, hi, by rwa [word_addTable_ne hf hiv], by rwa [word_addTable_ne hf hiv]⟩
    · refine .inr ⟨pdx va, pdx_lt hva, ?_⟩
      rw [word_addTable_self, (table_entry hlt).2]
      exact ⟨(table_entry hlt).1, h.symm⟩

include hva hw hf hlt in
theorem missing_addTable : missing (s.addTable d f (pdx va)) d + 1 = missing s d := by
  have hin : pdx va ∈ (Finset.range NPTENTRIES).filter fun i => present (s.word d i) = false :=
    Finset.mem_filter.mpr ⟨Finset.mem_range.mpr (pdx_lt hva), walk_none hw⟩
  have herase : (Finset.range NPTENTRIES).filter (fun i => present ((s.addTable d f (pdx va)).word d i) = false) =
      ((Finset.range NPTENTRIES).filter fun i => present (s.word d i) = false).erase (pdx va) := by
    ext i
    by_cases hi : i = pdx va
    · simp only [hi, word_addTable_self, (table_entry hlt).1, Finset.mem_filter, Finset.mem_erase]
      simp
    · simp only [word_addTable_ne hf hi, Finset.mem_filter, Finset.mem_erase, ne_eq, hi, not_false_eq_true, true_and]
  rw [missing, herase, missing]
  exact Finset.card_erase_add_one hin

include hd hw hf hlt in
/-- **A new page table translates nothing.** -/
theorem translate_addTable (hva' : va' < 2 ^ 32) :
    (s.addTable d f (pdx va)).translate d va' = s.translate d va' := by
  by_cases hp : pdx va' = pdx va
  · have hfd : f ≠ d := fun h => hf (.inl h)
    have hzero : (s.addTable d f (pdx va)).word f (ptx va') = 0 := by
      rw [State.addTable, word_setWord_ne (.inl hfd), State.word, mem_setPage_self, word32_zero]
    have hnew : (s.addTable d f (pdx va)).entry d va' = some 0 := by
      rw [State.entry, State.walk, hp, word_addTable_self, if_pos (table_entry hlt).1, (table_entry hlt).2]
      exact congrArg some hzero
    have hold : s.entry d va' = none := by
      rw [State.entry, State.walk, hp, walk_none hw]
      rfl
    rw [State.translate, State.translate, hnew, hold]
    rfl
  · have hwalk : (s.addTable d f (pdx va)).walk d va' = s.walk d va' := by
      rw [State.walk, State.walk, word_addTable_ne hf hp]
    rw [State.translate, State.translate, State.entry, State.entry, hwalk]
    cases hq : s.walk d va' with
    | none => simp only [Option.map_none]
    | some q =>
      have hg : q.1 ≠ f := fun h => hf (h ▸ part_of_walk hq hva')
      have hword : (s.addTable d f (pdx va)).word q.1 q.2 = s.word q.1 q.2 := by
        rw [State.addTable, word_setWord_ne (.inl (hd.table_ne hva' hq))]
        exact word_congr (mem_setPage_ne hg)
      simp only [Option.map_some, hword]

end AddTable

/-! ## A directory and the free list -/

/-- **A directory beside the free list** `l`: no page of it is free. -/
structure Good (s : State) (l : List ℕ) (d : ℕ) : Prop where
  free : Free s l
  dir : Dir s d
  apart : ∀ f ∈ l, ¬ Part s d f

theorem Beside.page (h : Beside s t) (g : ℕ) : t.mem g = s.mem g := congrFun h.mem g

theorem Beside.part (h : Beside s t) : Part t d g ↔ Part s d g := part_congr (h.page d)

theorem Good.beside (h : Good s l d) (hb : Beside s t) (hf : Free t l') (hsub : l' ⊆ l) : Good t l' d :=
  ⟨hf, h.dir.congr (hb.page d), fun f hl hp => h.apart f (hsub hl) (hb.part.mp hp)⟩

/-- What is done with pages from the free list `l`, of which `l'` is left: they are taken for the directory, and only
the directory changes. -/
structure Grows (l : List ℕ) (d : ℕ) (s : State) (l' : List ℕ) (t : State) : Prop where
  good : Good t l' d
  suffix : l' <:+ l
  count : missing s d + l'.length = missing t d + l.length
  first : t.first = s.first
  fails : s.fails = [] → t.fails = []
  part : ∀ g, Part t d g → Part s d g ∨ g ∈ l ∧ g ∉ l'
  mem : ∀ g, g ∉ l → ¬ Part s d g → t.mem g = s.mem g

theorem Grows.subset (h : Grows l d s l' t) : l' ⊆ l := h.suffix.subset

theorem Grows.rfl (h : Good s l d) : Grows l d s l s :=
  ⟨h, List.suffix_refl l, Eq.refl _, Eq.refl _, id, fun _ hg => .inl hg, fun _ _ _ => Eq.refl _⟩

theorem Grows.trans {u : State} {l'' : List ℕ} (h : Grows l d s l' t) (h' : Grows l' d t l'' u) :
    Grows l d s l'' u := by
  have h1 := h.count
  have h2 := h'.count
  refine ⟨h'.good, h'.suffix.trans h.suffix, by omega, h'.first.trans h.first, fun he => h'.fails (h.fails he),
    fun g hg => ?_, fun g hl hp => ?_⟩
  · rcases h'.part g hg with hg | ⟨hl, hl'⟩
    · rcases h.part g hg with hg | ⟨hl, hl'⟩
      · exact .inl hg
      · exact .inr ⟨hl, fun hm => hl' (h'.subset hm)⟩
    · exact .inr ⟨h.subset hl, hl'⟩
  · have hp' : ¬ Part t d g := fun hg => (h.part g hg).elim hp fun hm => hl hm.1
    rw [h'.mem g (fun hm => hl (h.subset hm)) hp', h.mem g hl hp]

/-- **One entry of the directory is written.** -/
theorem Good.setEntry (h : Good s l d) (hva : va < 2 ^ 32) (hw : s.walk d va = some (f, i)) :
    Grows l d s l (s.setWord f i w) := by
  have hpart := part_of_walk hw hva
  have hmem : ∀ g, ¬ Part s d g → (s.setWord f i w).mem g = s.mem g := fun g hg =>
    mem_setWord_ne fun he => hg (he ▸ hpart)
  refine ⟨⟨h.free.congr rfl fun g hg => hmem g (h.apart g hg), dir_setEntry h.dir hva hw, fun g hg => ?_⟩,
    List.suffix_refl l, ?_, rfl, id, fun g hg => .inl ((part_setEntry h.dir hva hw).mp hg), fun g _ hg => hmem g hg⟩
  · rw [part_setEntry h.dir hva hw]
    exact h.apart g hg
  · rw [missing_congr (mem_setWord_ne (h.dir.table_ne hva hw).symm)]

/-- **`walkpgdir`** with `alloc` finds the page table or makes one, or there is no page for it. -/
theorem wp_walkpgdir {Q : Option (ℕ × ℕ) → State → Prop} (h : Good s l d) (hva : va < 2 ^ 32)
    (knone : ∀ t, Grows l d s l t → (s.fails = [] → l.length < missing s d) → Q none t)
    (ksome : ∀ f i l' t, Grows l d s l' t → t.walk d va = some (f, i) →
      (∀ va' < 2 ^ 32, t.translate d va' = s.translate d va') → Q (some (f, i)) t) :
    wp (walkpgdir d va) Q E s := by
  unfold walkpgdir
  rw [wp_bind, wp_get]
  split
  · rename_i q hq
    exact ksome q.1 q.2 l s (.rfl h) hq fun _ _ => rfl
  rename_i hnone
  rw [wp_bind]
  refine wp_kalloc h.free (fun t hb hf hnil => ?_) fun f l' t hl hb hf => ?_
  · refine knone t ⟨h.beside hb hf (List.Subset.refl l), List.suffix_refl l, by rw [missing_congr (hb.page d)],
      hb.first, hb.fails, fun g hg => .inl (hb.part.mp hg), fun g _ _ => hb.page g⟩ fun he => ?_
    rw [hnil he]
    exact Finset.card_pos.mpr ⟨pdx va, Finset.mem_filter.mpr ⟨Finset.mem_range.mpr (pdx_lt hva), walk_none hnone⟩⟩
  · subst hl
    have hnotin : f ∉ l' := (List.nodup_cons.mp h.free.nodup).1
    have hlt : f * PGSIZE < PHYSTOP := h.free.range f List.mem_cons_self
    have hgood : Good t l' d := h.beside hb hf (List.subset_cons_self f l')
    have hw : t.walk d va = none := by
      rw [State.walk, word_congr (hb.page d)]
      exact hnone
    have hpart : ¬ Part t d f := fun hp => h.apart f List.mem_cons_self (hb.part.mp hp)
    simp only [memset]
    rw [wp_bind, wp_modify, wp_bind, wp_get, wp_bind, wp_set, wp_pure]
    have hmem : ∀ g, g ≠ f → g ≠ d → (t.addTable d f (pdx va)).mem g = s.mem g := fun g hf hd => by
      rw [State.addTable, mem_setWord_ne hd, mem_setPage_ne hf, hb.page g]
    refine ksome f (ptx va) l' (t.addTable d f (pdx va)) ⟨⟨?_, dir_addTable hgood.dir hpart hlt, fun g hg => ?_⟩,
      List.suffix_cons f l', ?_, hb.first, hb.fails, fun g hg => ?_, fun g hg hd => ?_⟩ (walk_addTable hlt)
      fun va' hva' => ?_
    · refine hf.congr rfl fun g hg => ?_
      rw [hmem g (fun he => hnotin (he ▸ hg)) fun he => hgood.apart g hg (.inl he), hb.page g]
    · rw [part_addTable hva hw hpart hlt]
      exact not_or.mpr ⟨hgood.apart g hg, fun he => hnotin (he ▸ hg)⟩
    · have hone := missing_addTable hva hw hpart hlt
      rw [missing_congr (hb.page d)] at hone
      rw [List.length_cons]
      omega
    · rw [part_addTable hva hw hpart hlt, hb.part] at hg
      refine hg.imp_right fun he => ?_
      rw [he]
      exact ⟨List.mem_cons_self, hnotin⟩
    · exact hmem g (fun he => hg (he ▸ List.mem_cons_self)) fun he => hd (.inl he)
    · rw [translate_addTable hgood.dir hw hpart hlt hva']
      exact translate_congr (fun g _ => hb.page g) hva'

end Xv6.Paging
