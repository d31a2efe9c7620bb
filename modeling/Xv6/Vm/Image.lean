import Xv6.Vm.Fits

/-!
# The directory that `exec` builds

Whatever `kalloc` does, the directory that `exec` builds is in order and its pages are in one place (`Kept`). Which pages
are mapped in it, and which page tables it has, follows from the calls of `kalloc` that fail (`Stage`). If no bytes go
through the mappings of the kernel, then each store goes to a page that has been mapped, or through a cleared entry to
page 0. So for each part of `exec` it is known when a byte goes to page 0, when a page is lost, and when the kernel stops
(`Passes`), and for `exec` as a whole (`wp_exec`).
-/

namespace Xv6.Vm

open Lib
open Function (update update_of_ne update_self)

variable {s t u : Mem} {rest : Frame → ℕ} {fails : List Use} {va n sz r guard : ℕ} {c : Content} {d : Pgdir} {f : Frame}
  {fits fits' tables tables' : Prop}

/-- A stop says nothing. -/
abbrev anyStop (_ : Stop) : Prop := True

/-! ## The new directory -/

/-- **A directory in order**, beside the uses `rest`. What has been stored went to page 0 or to pages that have been
mapped, which nobody used. -/
structure Kept (rest : Frame → ℕ) (s : Mem) : Prop where
  sound : Sound rest s
  tidy : Tidy s.pgdir
  page : s.pgdir.page ≠ none
  own : ∀ f ∈ s.mapped, rest f = 0
  null : 0 ∉ s.mapped
  stored : ∀ f ∈ s.stores, f = 0 ∨ f ∈ s.mapped

/-- **`exec` has a memory of `n` pages**, without those for which there is no page table. -/
structure Stage (fails : List Use) (rest : Frame → ℕ) (n : ℕ) (s : Mem) : Prop extends Kept rest s where
  made : Made fails 0 n .empty s.pgdir
  listed : Listed s

/-- **A part of `exec`**: a page is lost unless `tables` holds, and a byte is stored to page 0 unless `fits` holds. -/
structure Passes (fits tables : Prop) (s t : Mem) : Prop where
  le : ∀ g, t.total g ≤ s.total g
  same : (∀ g, t.total g = s.total g) ↔ tables
  null : 0 ∉ t.stores ↔ 0 ∉ s.stores ∧ fits

theorem Passes.rfl : Passes True True s s := ⟨fun _ => le_rfl, by simp, by simp⟩

theorem Passes.congr (h : Passes fits tables s t) (hf : fits ↔ fits') (ht : tables ↔ tables') : Passes fits' tables' s t :=
  ⟨h.le, h.same.trans ht, by rw [h.null, hf]⟩

theorem Passes.trans (h : Passes fits tables s t) (h' : Passes fits' tables' t u) :
    Passes (fits ∧ fits') (tables ∧ tables') s u := by
  refine ⟨fun g => (h'.le g).trans (h.le g), ?_, by rw [h'.null, h.null, and_assoc]⟩
  rw [← h.same, ← h'.same]
  refine ⟨fun hu => ⟨fun g => ?_, fun g => ?_⟩, fun hu g => (hu.2 g).trans (hu.1 g)⟩
  all_goals
    have h1 := h.le g
    have h2 := h'.le g
    have h3 := hu g
    omega

theorem spans_empty : Spans 0 0 .empty := fun _ _ => ⟨nofun, fun hne => absurd rfl hne⟩

theorem Stage.mapped_iff {v : ℕ} (h : Stage fails rest n s) (hv : v < NUPAGES) :
    (s.pgdir.pte v).target ≠ none ↔ v < n ∧ Has fails .empty 0 v :=
  h.made.entry spans_empty v hv (Nat.zero_le _)

theorem Stage.walk_iff (h : Stage fails rest n s) : s.pgdir.walk va ≠ none ↔ Walked fails n va := by
  unfold Walked Pgdir.walk
  split_ifs
  · rw [Ne, Option.map_eq_none_iff, ← Ne, h.made.table]
    simp [Pgdir.empty]
  · exact Option.isSome_iff_ne_none.symm

/-- A new directory has no memory. -/
theorem Fresh.stage (fails : List Use) (h : Fresh s t) (hs : Sound rest s) (hm : s.mapped = []) (hst : s.stores = []) :
    Stage fails rest (npages 0) t ∧ AllUser t.pgdir := by
  refine ⟨⟨⟨h.sound hs, h.tidy, h.page, ?_, ?_, ?_⟩, h.made, fun v _ f hf => ?_⟩, fun v hne => ?_⟩
  · rw [h.mapped, hm]
    nofun
  · rw [h.mapped, hm]
    nofun
  · rw [h.stores, hst]
    nofun
  · rw [h.pte v] at hf
    cases hf
  · rw [h.pte v] at hne
    exact absurd rfl hne

/-- **`allocuvm`** as `exec` calls it. -/
theorem Stage.allocuvm {newsz : ℕ} (h : Stage fails rest (npages sz) s) (hsz : sz < KERNBASE ∨ sz ≤ newsz) :
    wp (allocuvm fails sz newsz) (fun r t => r = allocates fails sz newsz ∧ r < KERNBASE ∧ Kept rest t ∧
      Passes True (AllocTables fails sz newsz) s t ∧
      (r ≠ 0 → Stage fails rest (npages r) t ∧ (AllUser s.pgdir → AllUser t.pgdir))) (fun _ => False) s := by
  unfold allocates AllocTables
  refine wp_allocuvm h.sound h.tidy (.inr (h.made.spans spans_empty le_rfl (Nat.zero_le _))) (fun hbig => ?_)
    (fun hnew hlt => ?_) fun hnew hold r t hg => ?_
  · rw [if_pos hbig]
    refine ⟨rfl, by decide, h.toKept, Passes.rfl.congr Iff.rfl ?_, fun h0 => absurd rfl h0⟩
    exact iff_of_true trivial fun hlt => absurd hlt (not_lt.mpr hbig)
  · rw [if_neg (by omega), if_pos hlt]
    refine ⟨rfl, by omega, h.toKept, Passes.rfl.congr Iff.rfl (iff_of_true trivial fun _ v hv hv' => ?_), fun _ => ⟨h, id⟩⟩
    have := npages_mono hlt.le
    omega
  · rw [if_neg (by omega), if_neg (by omega)]
    have hkept : Kept rest t := by
      refine ⟨h.sound.of_le hg.first fun g => Nat.add_le_add_right (hg.total_le g) _, hg.tidy, by rw [hg.page]; exact h.page,
        hg.own h.own, hg.null h.null, ?_⟩
      rw [hg.stores]
      exact fun f hf => (h.stored f hf).imp_right fun hm => hg.mapped hm
    have hpasses : Passes True (newsz < KERNBASE → NewTables fails (npages sz) (npages newsz)) s t := by
      refine ⟨hg.total_le, ?_, by rw [hg.stores, and_true]⟩
      rw [imp_iff_right hnew, ← h.made.newTables]
      refine ⟨fun hsame => not_not.mp fun hno => ?_, hg.total⟩
      obtain ⟨g, hlt⟩ := hg.lost hno
      exact absurd (hsame g) hlt.ne
    refine ⟨hg.value, ?_, hkept, hpasses, fun hne => ?_⟩
    · rw [hg.value]
      split_ifs
      · exact hnew
      · decide
    · have hpages : PagesFound fails (npages sz) (npages newsz) := by
        by_contra hno
        rw [hg.value, if_neg hno] at hne
        exact hne rfl
      rw [hg.value, if_pos hpages]
      exact ⟨⟨hkept, h.made.trans (hg.made hpages) (Nat.zero_le _) (npages_mono hold), hg.listed h.listed⟩, hg.allUser⟩

/-! ## Stores -/

theorem Stage.store (h : Stage fails rest n s) (hf : f = 0 ∨ f ∈ s.mapped) :
    Stage fails rest n { s with stores := f :: s.stores } :=
  ⟨⟨h.sound.of_le rfl fun _ => le_rfl, h.tidy, h.page, h.own, h.null, List.forall_mem_cons.mpr ⟨hf, h.stored⟩⟩, h.made,
    h.listed⟩

theorem Passes.store (hf : f ≠ 0 ↔ fits) : Passes fits True s { s with stores := f :: s.stores } := by
  refine ⟨fun _ => le_rfl, iff_of_true (fun _ => Eq.refl _) trivial, ?_⟩
  rw [List.mem_cons, not_or, and_comm, ← hf, ne_comm]

/-- **An entry of the user part** is for a page that has been mapped, or is cleared. -/
theorem Stage.frame {e : Pte} (h : Stage fails rest n s) (hva : va < KERNBASE) (hw : s.pgdir.walk va = some e) :
    (e.frame = 0 ∨ e.frame ∈ s.mapped) ∧ (e.frame ≠ 0 ↔ Backed fails n va) := by
  have hpage := page_lt hva
  rw [walk_user hva] at hw
  split_ifs at hw
  cases hw
  unfold Backed
  rw [and_iff_right hva, ← h.mapped_iff hpage]
  by_cases hnone : (s.pgdir.pte (va / PGSIZE)).target = none
  · rw [h.tidy.cleared _ hnone]
    exact ⟨.inl rfl, iff_of_false (fun h => h rfl) fun h => h rfl⟩
  · have hmem := h.listed _ hpage _ (Pte.target_eq_some.mpr ⟨Pte.present_iff.mpr hnone, rfl⟩)
    exact ⟨.inr hmem, iff_of_true (fun h0 => h.null (h0 ▸ hmem)) hnone⟩

theorem Content.readi_eq {off m : ℕ} {bs : List Byte} (h : c.readi off m = some bs) :
    bs = (c.bytes.drop off).take m := by
  unfold Content.readi at h
  split_ifs at h
  exact (Option.some.inj h).symm

theorem Content.readi_of_le {off m : ℕ} (h : off + m ≤ c.bytes.length) :
    c.readi off m = some ((c.bytes.drop off).take m) := by
  have hbound : off + m < 2 ^ 32 := lt_of_le_of_lt (h.trans c.bound) (by decide)
  exact if_neg (by rw [Nat.mod_eq_of_lt hbound]; omega)

theorem Content.readi_full {off m : ℕ} {bs : List Byte} (h : c.readi off m = some bs) (hm : 0 < m) :
    bs.length = m ↔ off + m ≤ c.bytes.length := by
  rw [readi_eq h, List.length_take, List.length_drop]
  omega

theorem Content.readi_nonempty {off m : ℕ} {bs : List Byte} (h : c.readi off m = some bs) (hm : 0 < m) :
    bs ≠ [] ↔ off < c.bytes.length := by
  rw [← List.length_pos_iff, readi_eq h, List.length_take, List.length_drop]
  omega

theorem Content.readi_none {off m : ℕ} (h : c.readi off m = none) (hm : m ≤ PGSIZE) : c.bytes.length ≤ off := by
  have hbound := c.bound
  unfold Content.readi at h
  split_ifs at h with hout
  simp only [MAXSIZE, PGSIZE] at hbound hm
  omega

theorem Proghdr.Comes.end_le {ph : Proghdr} {j : ℕ} (h : ph.Comes c j) (hpos : 0 < j) : j * PGSIZE ≤ c.bytes.length :=
  (Nat.le_add_left _ _).trans (h.2 hpos)

theorem Proghdr.Comes.off_lt {ph : Proghdr} {j : ℕ} (h : ph.Comes c j) (hoff : ph.off < 2 ^ 32) :
    ph.off + j * PGSIZE < 2 ^ 32 := by
  rcases Nat.eq_zero_or_pos j with rfl | hpos
  · rwa [Nat.zero_mul, Nat.add_zero]
  · exact lt_of_le_of_lt ((h.2 hpos).trans c.bound) (by decide)

/-- The pages of a segment from `j` on fit. -/
def Proghdr.FitsFrom (ph : Proghdr) (fails : List Use) (c : Content) (n q j : ℕ) : Prop :=
  ∀ i ≤ q, j ≤ i → ph.Comes c i → Walked fails n (ph.addr i) ∧ (ph.Stores c i → Backed fails n (ph.addr i))

theorem Proghdr.fitsFrom_iff {ph : Proghdr} {q j : ℕ} (fails : List Use) (n : ℕ) (hj : j ≤ q) (hcomes : ph.Comes c j) :
    ph.FitsFrom fails c n q j ↔ (Walked fails n (ph.addr j) ∧ (ph.Stores c j → Backed fails n (ph.addr j))) ∧
      ph.FitsFrom fails c n q (j + 1) := by
  refine ⟨fun h => ⟨h j hj le_rfl hcomes, fun i hi hle => h i hi (by omega)⟩, fun h i hi hle => ?_⟩
  rcases hle.eq_or_lt with rfl | hlt
  · exact fun _ => h.1
  · exact h.2 i hi hlt

theorem Proghdr.fitsFrom_end {ph : Proghdr} {q j : ℕ} (h : ph.filesz ≤ j * PGSIZE) : ph.FitsFrom fails c n q j :=
  fun _ _ hle hcomes => absurd hcomes.1 (not_lt.mpr (h.trans (Nat.mul_le_mul_right _ hle)))

/-- `loaduvm` comes to no page behind one that is not all in the file. -/
theorem Proghdr.not_read {ph : Proghdr} {j : ℕ} (fails : List Use) (n q : ℕ) (hj : j * PGSIZE < ph.filesz)
    (hend : ¬ ph.off + j * PGSIZE + min (ph.filesz - j * PGSIZE) PGSIZE ≤ c.bytes.length) :
    ph.FitsFrom fails c n q (j + 1) ∧ ¬ ph.Read c := by
  refine ⟨fun i _ hle hcomes => ?_, fun hread => ?_⟩
  · obtain ⟨hi, hoff⟩ := hcomes
    have hmul : (j + 1) * PGSIZE ≤ i * PGSIZE := Nat.mul_le_mul_right _ hle
    rw [← next_page] at hmul
    have := hoff (by omega)
    omega
  · unfold Proghdr.Read at hread
    omega

/-- **The loop of `loaduvm`**, at page `j`. -/
theorem Stage.loadFrom {ph : Proghdr} {q : ℕ} (hoff : ph.off < 2 ^ 32) (hq : q = c.bytes.length / PGSIZE)
    (hspare : ∀ j ≤ q, ph.Stores c j → KERNBASE ≤ ph.addr j → kernelPte (ph.addr j) = none) :
    ∀ (fuel j : ℕ) (s : Mem), Stage fails rest n s → q + 2 ≤ j + fuel → j ≤ q + 1 →
      (0 < j → ph.off + min ph.filesz (j * PGSIZE) ≤ c.bytes.length) →
      wp (loadFrom c ph.vaddr ph.off ph.filesz fuel (j * PGSIZE)) (fun ok t => Stage fails rest n t ∧ t.pgdir = s.pgdir ∧
        Passes (ph.FitsFrom fails c n q j) True s t ∧ (ok = true ↔ ph.Read c)) (fun _ => ¬ ph.FitsFrom fails c n q j) s := by
  have hbound := c.bound
  intro fuel
  induction fuel with
  | zero => intro j s _ h0 h1; omega
  | succ fuel ih =>
    intro j s hs hfuel hj hdone
    unfold Vm.loadFrom
    by_cases hi : j * PGSIZE < ph.filesz
    swap
    · -- all is read
      rw [if_neg hi]
      refine ⟨hs, rfl, Passes.rfl.congr (iff_of_true trivial (ph.fitsFrom_end (not_lt.mp hi))) Iff.rfl, iff_of_true rfl ?_⟩
      rcases Nat.eq_zero_or_pos j with rfl | hpos
      · exact .inl (by omega)
      · have := hdone hpos
        rw [min_eq_left (not_lt.mp hi)] at this
        exact .inr this
    have hcomes : ph.Comes c j := ⟨hi, fun hpos => by have := hdone hpos; rwa [min_eq_right hi.le] at this⟩
    have hjq : j ≤ q := by
      rcases Nat.eq_zero_or_pos j with rfl | hpos
      · exact Nat.zero_le _
      · rw [hq, Nat.le_div_iff_mul_le (by decide)]
        exact hcomes.end_le hpos
    have hlen : 0 < min (ph.filesz - j * PGSIZE) PGSIZE := lt_min (by omega) (by decide)
    have hsplit := ph.fitsFrom_iff fails n hjq hcomes
    have haddr : (ph.vaddr + j * PGSIZE) % 2 ^ 32 = ph.addr j := rfl
    rw [if_pos hi, wp_bind, wp_get, Nat.mod_eq_of_lt (hcomes.off_lt hoff), haddr]
    split
    · -- there is no page table
      rename_i hnone
      exact fun h => hs.walk_iff.mpr (hsplit.mp h).1.1 hnone
    rename_i e hwalk
    have hwalked : Walked fails n (ph.addr j) := hs.walk_iff.mp (by rw [hwalk]; exact Option.some_ne_none e)
    -- nothing is stored and the loop ends
    have hnothing : ¬ ph.Stores c j →
        ¬ ph.off + j * PGSIZE + min (ph.filesz - j * PGSIZE) PGSIZE ≤ c.bytes.length →
        Stage fails rest n s ∧ s.pgdir = s.pgdir ∧ Passes (ph.FitsFrom fails c n q j) True s s ∧
          (false = true ↔ ph.Read c) := by
      intro hstores hend
      obtain ⟨hrest, hread⟩ := ph.not_read fails n q hi hend
      refine ⟨hs, rfl, Passes.rfl.congr (iff_of_true trivial ?_) Iff.rfl, iff_of_false Bool.false_ne_true hread⟩
      exact hsplit.mpr ⟨⟨hwalked, fun h => absurd h hstores⟩, hrest⟩
    split
    · rename_i hnone
      refine hnothing (fun h => not_le.mpr h.2 (Content.readi_none hnone (min_le_right _ _))) fun h => ?_
      rw [Content.readi_of_le h] at hnone
      cases hnone
    rename_i bs hbs
    have hfulliff := Content.readi_full hbs hlen
    have hsomeiff := Content.readi_nonempty hbs hlen
    split_ifs with hempty hfull
    · refine hnothing (fun h => hsomeiff.mpr h.2 hempty) fun h => ?_
      rw [hempty, List.length_nil] at hfulliff
      have := hfulliff.mpr h
      omega
    all_goals
      have hstores : ph.Stores c j := ⟨hcomes, hsomeiff.mp hempty⟩
      have huser : ph.addr j < KERNBASE := by
        by_contra hle
        rw [Pgdir.walk, if_neg hle, hspare j hjq hstores (not_lt.mp hle)] at hwalk
        cases hwalk
      obtain ⟨hframe, hbacked⟩ := hs.frame huser hwalk
      have hstage := hs.store hframe
      have hpasses : Passes _ True s _ := Passes.store hbacked
      rw [wp_bind, wp_set]
    · -- the next page
      have hend := hfulliff.mp hfull
      have hnext : (j * PGSIZE + PGSIZE) % 2 ^ 32 = (j + 1) * PGSIZE := by
        rw [← next_page]
        have hle : j * PGSIZE ≤ MAXSIZE := (Nat.le_add_left _ _).trans (hstores.2.le.trans hbound)
        exact Nat.mod_eq_of_lt (lt_of_le_of_lt (Nat.add_le_add_right hle PGSIZE) (by decide))
      rw [hnext]
      refine (ih (j + 1) _ hstage (by omega) (by omega) fun _ => ?_).imp (fun ok t ht => ?_) fun _ hno h => ?_
      · rw [← next_page]
        omega
      · refine ⟨ht.1, ht.2.1, (hpasses.trans ht.2.2.1).congr ?_ (and_self_iff), ht.2.2.2⟩
        rw [hsplit]
        simp [hwalked, hstores]
      · exact hno (hsplit.mp h).2
    · obtain ⟨hrest, hread⟩ := ph.not_read fails n q hi (hfulliff.not.mp hfull)
      refine ⟨hstage, rfl, hpasses.congr ?_ Iff.rfl, iff_of_false Bool.false_ne_true hread⟩
      rw [hsplit]
      simp [hwalked, hstores, hrest]

/-- **`loaduvm`** of a segment. -/
theorem Stage.loaduvm {ph : Proghdr} (hs : Stage fails rest n s) (hoff : ph.off < 2 ^ 32) (hspare : ph.Spares c) :
    wp (loaduvm c ph.vaddr ph.off ph.filesz) (fun ok t => Stage fails rest n t ∧ t.pgdir = s.pgdir ∧
      Passes (ph.SegmentFits fails c n) True s t ∧ (ok = true ↔ ph.Read c)) (fun _ => ¬ ph.SegmentFits fails c n) s := by
  unfold Vm.loaduvm Proghdr.SegmentFits
  split_ifs with haddr
  · exact fun h => haddr h.1
  · have hspare := hspare (not_not.mp haddr)
    generalize hq : c.bytes.length / PGSIZE = q at hspare ⊢
    have hfits : ph.FitsFrom fails c n q 0 ↔ ph.vaddr % PGSIZE = 0 ∧ ∀ j ≤ q, ph.Comes c j →
        Walked fails n (ph.addr j) ∧ (ph.Stores c j → Backed fails n (ph.addr j)) := by
      unfold Proghdr.FitsFrom
      simp only [Nat.zero_le, forall_const, not_not.mp haddr, true_and]
    rw [← hfits, ← Nat.zero_mul PGSIZE]
    exact Stage.loadFrom hoff hq.symm hspare (q + 2) 0 s hs (by omega) (by omega) nofun

/-! ## The stack -/

theorem total_setUser (hva : va < KERNBASE) (g : Frame) :
    ({ s with pgdir := s.pgdir.setPte va { s.pgdir.pte (va / PGSIZE) with user := false } } : Mem).total g =
      s.total g := by
  have hset := Pgdir.holds_setPte (d := s.pgdir) (f := g) (e := { s.pgdir.pte (va / PGSIZE) with user := false }) hva
  have htarget : ({ s.pgdir.pte (va / PGSIZE) with user := false } : Pte).target = (s.pgdir.pte (va / PGSIZE)).target := rfl
  rw [htarget] at hset
  rw [Mem.total, Mem.total, Nat.add_right_cancel hset]

theorem target_setUser (v : ℕ) : ((d.setPte va { d.pte (va / PGSIZE) with user := false }).pte v).target =
    (d.pte v).target := by
  rw [target_setPte]
  split_ifs with hv
  · rw [hv]
    rfl
  · rfl

theorem Tidy.setUser (h : Tidy d) : Tidy (d.setPte va { d.pte (va / PGSIZE) with user := false }) := by
  refine ⟨fun v hv hne => ?_, fun v hnone => ?_⟩
  · rw [target_setUser] at hne
    exact h.tabled v hv hne
  · rw [target_setUser] at hnone
    rw [pte_setPte]
    split_ifs with hv
    · rw [hv] at hnone
      rw [h.cleared _ hnone]
      rfl
    · exact h.cleared v hnone

theorem Made.setUser (h : Made fails 0 n .empty d) :
    Made fails 0 n .empty (d.setPte va { d.pte (va / PGSIZE) with user := false }) := by
  refine ⟨nofun, h.table, fun hs v hv hle => ?_⟩
  rw [target_setUser]
  exact h.entry hs v hv hle

/-- The pages that are mapped are for users, all but one. -/
def Guards (guard : ℕ) (d : Pgdir) : Prop := ∀ v, (d.pte v).target ≠ none → ((d.pte v).user = true ↔ v ≠ guard)

/-- **`clearpteu`** of the page below the stack. -/
theorem Stage.clearpteu (h : Stage fails rest n s) (hlt : va < KERNBASE) (hu : AllUser s.pgdir) :
    wp (clearpteu va) (fun _ t => Stage fails rest n t ∧ Guards (va / PGSIZE) t.pgdir ∧ Walked fails n va ∧
      Passes True True s t) (fun _ => ¬ Walked fails n va) s := by
  unfold Vm.clearpteu
  rw [wp_bind, wp_get]
  split
  · rename_i hnone
    exact fun hw => h.walk_iff.mpr hw hnone
  rename_i e hwalk
  have hwalked : Walked fails n va := h.walk_iff.mp (by rw [hwalk]; nofun)
  rw [walk_user hlt] at hwalk
  split_ifs at hwalk
  cases hwalk
  rw [wp_set]
  refine ⟨⟨⟨h.sound.of_le rfl fun g => by rw [total_setUser hlt], h.tidy.setUser, h.page, h.own, h.null, h.stored⟩,
    h.made.setUser, fun v hv f hf => ?_⟩, fun v hne => ?_, hwalked, fun g => (total_setUser hlt g).le,
    iff_of_true (fun g => total_setUser hlt g) trivial, (and_iff_left trivial).symm⟩
  · rw [target_setUser] at hf
    exact h.listed v hv f hf
  · rw [target_setUser] at hne
    rw [pte_setPte]
    split_ifs with hv
    · simp [hv]
    · exact iff_of_true (hu v hne) hv

theorem wp_uva2ka {E : Stop → Prop} {Q : Option Frame → Mem → Prop} (knull : s.pgdir.walk va = none → E .nullPte)
    (knone : ∀ e, s.pgdir.walk va = some e → ¬ (e.present = true ∧ e.user = true) → Q none s)
    (k : ∀ e, s.pgdir.walk va = some e → e.present = true ∧ e.user = true → Q (some e.frame) s) :
    wp (uva2ka va) Q E s := by
  unfold uva2ka
  rw [wp_bind, wp_get]
  split
  · rename_i hnone
    exact knull hnone
  · rename_i e he
    rw [wp_pure]
    split_ifs with hflags
    · exact k e he hflags
    · exact knone e he hflags

/-- The pages of the kernel are not for users. -/
theorem not_user_kernel {e : Pte} (hva : KERNBASE ≤ va) (h : d.walk va = some e) : e.user = false := by
  rw [Pgdir.walk, if_neg (not_lt.mpr hva), kernelPte] at h
  split_ifs at h
  · cases h
    rfl
  · cases h
    rfl

theorem Stage.open_iff {e : Pte} (h : Stage fails rest n s) (hg : Guards guard s.pgdir) (hw : s.pgdir.walk va = some e) :
    e.present = true ∧ e.user = true ↔ Open fails n guard va := by
  unfold Open Backed
  by_cases hva : va < KERNBASE
  · rw [walk_user hva] at hw
    split_ifs at hw
    cases hw
    rw [Pte.present_iff, and_iff_right hva, ← h.mapped_iff (page_lt hva)]
    exact and_congr_right (hg _)
  · rw [not_user_kernel (not_lt.mp hva) hw]
    exact iff_of_false (fun h => Bool.false_ne_true h.2) fun h => hva h.1.1

/-- One page, and the bytes behind it. -/
theorem copy_next {len : ℕ} (hva : va < 2 ^ 32) (hlen : 0 < len) :
    pageAt va 0 = pgrounddown va ∧
    (∀ i, pageAt va (i + 1) = pageAt ((pgrounddown va + PGSIZE) % 2 ^ 32) i) ∧
    npages (va % PGSIZE + len) = npages ((pgrounddown va + PGSIZE) % 2 ^ 32 % PGSIZE +
      (len - min len (PGSIZE - (va - pgrounddown va)))) + 1 := by
  simp only [pageAt, pgrounddown, npages, PGSIZE]
  refine ⟨by omega, fun i => ?_, by omega⟩
  omega

theorem copyFits_next {len : ℕ} (fails : List Use) (n guard : ℕ) (hva : va < 2 ^ 32) (hlen : 0 < len) :
    CopyFits fails n guard va len ↔ Walked fails n (pgrounddown va) ∧ (Open fails n guard (pgrounddown va) →
      CopyFits fails n guard ((pgrounddown va + PGSIZE) % 2 ^ 32) (len - min len (PGSIZE - (va - pgrounddown va)))) := by
  obtain ⟨h0, hnext, hpages⟩ := copy_next hva hlen
  unfold CopyFits
  rw [hpages, Nat.forall_lt_succ_left, h0]
  refine and_congr (by simp) ?_
  simp only [Nat.forall_lt_succ_left, h0, hnext, and_imp]
  exact ⟨fun h hopen i hi => h i hi hopen, fun h i hi hopen => h hopen i hi⟩

theorem copies_next {len : ℕ} (fails : List Use) (n guard : ℕ) (hva : va < 2 ^ 32) (hlen : 0 < len) :
    Copies fails n guard va len ↔ Open fails n guard (pgrounddown va) ∧
      Copies fails n guard ((pgrounddown va + PGSIZE) % 2 ^ 32) (len - min len (PGSIZE - (va - pgrounddown va))) := by
  obtain ⟨h0, hnext, hpages⟩ := copy_next hva hlen
  unfold Copies
  rw [hpages, Nat.forall_lt_succ_left, h0]
  simp only [hnext]

theorem copyout_fuel {P va len fuel : ℕ} (hP : 0 < P) (hlen : 0 < len) (hfuel : va % P + len ≤ fuel * P) :
    0 < fuel ∧ len - min len (P - (va - va / P * P)) ≤ (fuel - 1) * P := by
  have hva := Nat.div_add_mod' va P
  have hmod := Nat.mod_lt va hP
  cases fuel with
  | zero => omega
  | succ fuel =>
    rw [Nat.succ_mul] at hfuel
    rw [Nat.add_sub_cancel]
    omega

theorem Stage.copyoutFrom : ∀ (fuel va len : ℕ) (s : Mem), Stage fails rest n s → Guards guard s.pgdir → va < 2 ^ 32 →
    (0 < len ∨ va % PGSIZE = 0) → 0 < fuel → va % PGSIZE + len ≤ (fuel - 1) * PGSIZE →
    wp (copyoutFrom fuel va len) (fun ok t => CopyFits fails n guard va len ∧ Stage fails rest n t ∧ t.pgdir = s.pgdir ∧
      Passes True True s t ∧ (ok = true ↔ Copies fails n guard va len)) (fun _ => ¬ CopyFits fails n guard va len) s := by
  intro fuel
  induction fuel with
  | zero => intro va len s _ _ _ _ hpos; omega
  | succ fuel ih =>
    intro va len s hs hg hva hstart _ hfuel
    unfold Vm.copyoutFrom
    rw [Nat.add_sub_cancel] at hfuel
    by_cases hlen : 0 < len
    swap
    · have hnone : npages (va % PGSIZE + len) = 0 := by
        rw [hstart.resolve_left hlen, Nat.eq_zero_of_not_pos hlen]
        decide
      rw [if_neg hlen, wp_pure]
      unfold CopyFits Copies
      rw [hnone]
      exact ⟨nofun, hs, rfl, .rfl, iff_of_true rfl nofun⟩
    have hfits := copyFits_next fails n guard hva hlen
    have hcopies := copies_next fails n guard hva hlen
    rw [if_pos hlen, wp_bind]
    refine wp_uva2ka (fun hnone h => ?_) (fun e he hno => ?_) fun e he hflags => ?_
    · exact hs.walk_iff.mpr (hfits.mp h).1 hnone
    · have hwalked : Walked fails n (pgrounddown va) := hs.walk_iff.mp (by rw [he]; nofun)
      rw [hs.open_iff hg he] at hno
      exact ⟨hfits.mpr ⟨hwalked, fun h => absurd h hno⟩, hs, rfl, .rfl,
        iff_of_false Bool.false_ne_true fun h => hno (hcopies.mp h).1⟩
    · have hwalked : Walked fails n (pgrounddown va) := hs.walk_iff.mp (by rw [he]; nofun)
      have hopen := (hs.open_iff hg he).mp hflags
      obtain ⟨hframe, hbacked⟩ := hs.frame hopen.1.1 he
      obtain ⟨hpos, hfuel'⟩ := copyout_fuel (by decide) hlen hfuel
      have hzero : (pgrounddown va + PGSIZE) % 2 ^ 32 % PGSIZE = 0 := by
        simp only [pgrounddown, PGSIZE]
        omega
      simp only
      rw [wp_bind, wp_get, wp_bind, wp_set]
      refine (ih _ _ _ (hs.store hframe) hg (Nat.mod_lt _ (by decide)) (.inr hzero) hpos
        (by rw [hzero, Nat.zero_add]; exact hfuel')).imp (fun ok t ht => ?_) fun _ hno h => hno ((hfits.mp h).2 hopen)
      obtain ⟨hrest, hstage, hpgdir, hpasses, hok⟩ := ht
      refine ⟨hfits.mpr ⟨hwalked, fun _ => hrest⟩, hstage, hpgdir, ?_, by rw [hok, hcopies, and_iff_right hopen]⟩
      exact ((Passes.store (iff_of_true (hbacked.mpr hopen.1) trivial)).trans hpasses).congr and_self_iff and_self_iff

/-- **`copyout`.** -/
theorem Stage.copyout {len : ℕ} (h : Stage fails rest n s) (hg : Guards guard s.pgdir) (hva : va < 2 ^ 32) (hlen : 0 < len) :
    wp (copyout va len) (fun ok t => CopyFits fails n guard va len ∧ Stage fails rest n t ∧ t.pgdir = s.pgdir ∧
      Passes True True s t ∧ (ok = true ↔ Copies fails n guard va len)) (fun _ => ¬ CopyFits fails n guard va len) s := by
  refine Stage.copyoutFrom _ va len s h hg hva (.inl hlen) (Nat.succ_pos _) ?_
  simp only [PGSIZE]
  omega

theorem pushed_lt (sp len : ℕ) : pushed sp len < 2 ^ 32 :=
  (Nat.div_mul_le_self _ _).trans_lt (Nat.mod_lt _ (by decide))

theorem Stage.pushArgs : ∀ (argv : List (List Byte)) (argc sp : ℕ) (s : Mem), Stage fails rest n s →
    Guards guard s.pgdir →
    wp (pushArgs argv argc sp) (fun r t => Stage fails rest n t ∧ Guards guard t.pgdir ∧ Passes True True s t ∧
      (r = none → ArgsFit fails n guard argv argc sp) ∧ ∀ q ∈ r, (ArgsFit fails n guard argv argc sp ↔
        CopyFits fails n guard (framed q.2 q.1) ((3 + q.1 + 1) * 4)))
      (fun _ => ¬ ArgsFit fails n guard argv argc sp) s
  | [], argc, sp, s, hs, hg => by
    refine ⟨hs, hg, .rfl, nofun, fun q hq => ?_⟩
    cases hq
    exact Iff.rfl
  | arg :: argv, argc, sp, s, hs, hg => by
    unfold Vm.pushArgs ArgsFit
    split_ifs with hmax
    · exact ⟨hs, hg, .rfl, fun _ hlt => by omega, nofun⟩
    rw [imp_iff_right (by omega : argc < MAXARG)]
    simp only [wp_bind]
    refine (hs.copyout hg (pushed_lt sp arg.length) (Nat.succ_pos _)).imp (fun ok t ht => ?_) fun _ hno h => hno h.1
    obtain ⟨hfits, hstage, hpgdir, hpasses, hok⟩ := ht
    have hg' : Guards guard t.pgdir := by rwa [hpgdir]
    rw [and_iff_right hfits]
    split_ifs with hcopied
    · rw [imp_iff_right (hok.mp hcopied)]
      refine (Stage.pushArgs argv (argc + 1) _ t hstage hg').mono fun r u hu => ?_
      exact ⟨hu.1, hu.2.1, (hpasses.trans hu.2.2.1).congr and_self_iff and_self_iff, hu.2.2.2⟩
    · exact ⟨hstage, hg', hpasses, fun _ h => absurd (hok.mpr h) hcopied, nofun⟩

theorem npages_pgroundup (hsz : sz ≤ KERNBASE) : npages (pgroundup sz) = npages sz := by
  rw [pgroundup_eq hsz]
  simp only [npages, PGSIZE]
  omega

theorem allocates_stack (fails : List Use) (sz : ℕ) (h : allocates fails (pgroundup sz) (stackEnd sz) ≠ 0) :
    allocates fails (pgroundup sz) (stackEnd sz) = stackEnd sz := by
  have hle : pgroundup sz ≤ stackEnd sz := Nat.le_add_right _ _
  unfold allocates at h ⊢
  split_ifs at h ⊢
  · exact absurd rfl h
  · omega
  · rfl
  · exact absurd rfl h

/-- **The part of `exec` after the program is loaded.** -/
theorem Stage.makeStack {argv : List (List Byte)} {entry : ℕ} (h : Stage fails rest (npages sz) s) (hsz : sz < KERNBASE)
    (hu : AllUser s.pgdir) :
    wp (makeStack fails argv entry sz) (fun r t => Kept rest t ∧
      Passes (StackFits fails argv sz) (AllocTables fails (pgroundup sz) (stackEnd sz)) s t ∧
      ∀ im ∈ r, im.sz = stackEnd sz ∧ allocates fails (pgroundup sz) (stackEnd sz) ≠ 0 ∧ im.sz < KERNBASE ∧
        Stage fails rest (npages im.sz) t) (fun _ => ¬ StackFits fails argv sz) s := by
  have hround : stackEnd sz < 2 ^ 32 := by
    simp only [stackEnd, pgroundup, KERNBASE, PGSIZE] at hsz ⊢
    omega
  have hlow : stackEnd sz - 2 * PGSIZE = pgroundup sz := Nat.add_sub_cancel _ _
  have hle : pgroundup sz ≤ stackEnd sz := Nat.le_add_right _ _
  have hstack := allocates_stack fails sz
  rw [← npages_pgroundup hsz.le] at h
  unfold Vm.makeStack StackFits
  have htop : (pgroundup sz + 2 * PGSIZE) % 2 ^ 32 = stackEnd sz := Nat.mod_eq_of_lt hround
  rw [wp_bind, htop]
  generalize stackEnd sz = top at *
  refine (h.allocuvm (.inr hle)).imp (fun r t ht => ?_) fun _ => False.elim
  obtain ⟨hr, hlt, hkept, hpasses, hstage⟩ := ht
  split_ifs with hzero
  · refine ⟨hkept, hpasses.congr (iff_of_true trivial fun hne => ?_) Iff.rfl, forall_mem_none⟩
    exact absurd (hr.symm.trans hzero) hne
  have hne : allocates fails (pgroundup sz) top ≠ 0 := by rwa [← hr]
  have ht := (hstage hzero).1
  have hut := (hstage hzero).2
  rw [imp_iff_right hne]
  rw [hstack hne] at hr
  subst hr
  rw [wp_bind, hlow]
  refine (ht.clearpteu (by omega) (hut hu)).imp (fun _ u hu => ?_) fun _ hno h => hno h.1
  obtain ⟨hstage, hg, hwalked, hpu⟩ := hu
  rw [and_iff_right hwalked, wp_bind]
  refine (Stage.pushArgs argv 0 _ u hstage hg).imp (fun q v hv => ?_) fun _ hno => hno
  obtain ⟨hstage, hg, hpv, hnone, hsome⟩ := hv
  have hpv := ((hpasses.trans hpu).trans hpv).congr (iff_of_true ⟨⟨trivial, trivial⟩, trivial⟩ trivial)
    (Iff.trans (and_iff_left trivial) (and_iff_left trivial))
  cases q with
  | none => exact ⟨hstage.toKept, hpv.congr (iff_of_true trivial (hnone rfl)) Iff.rfl, forall_mem_none⟩
  | some q =>
    have hargs := hsome q rfl
    simp only [wp_bind]
    show wp (Vm.copyout (framed q.2 q.1) _) _ _ v
    refine (hstage.copyout hg (Nat.mod_lt _ (by decide)) (by omega)).imp (fun ok w hw => ?_) fun _ hno h =>
      hno (hargs.mp h)
    obtain ⟨hfits, hstage, -, hpw, -⟩ := hw
    rw [wp_pure]
    refine ⟨hstage.toKept, (hpv.trans hpw).congr (iff_of_true ⟨trivial, trivial⟩ (hargs.mpr hfits)) (and_iff_left trivial),
      fun im him => ?_⟩
    split_ifs at him
    · cases him
      exact ⟨rfl, hne, hlt, hstage⟩
    · cases him

/-! ## `exec` -/

theorem Content.proghdr_off_lt {off : ℕ} {ph : Proghdr} (h : c.proghdr off = some ph) : ph.off < 2 ^ 32 := by
  unfold Content.proghdr at h
  obtain ⟨bs, -, h⟩ := Option.bind_eq_some_iff.mp h
  split_ifs at h
  cases h
  exact BitVec.isLt _

/-- **The loop over the program headers.** -/
theorem Stage.loadSegments : ∀ (k off sz : ℕ) (s : Mem), Stage fails rest (npages sz) s → AllUser s.pgdir →
    sz < KERNBASE → (∀ x ∈ (c.loads fails k off sz).1, allocates fails x.1 x.2.newsz ≠ 0 → x.2.Spares c) →
    wp (loadSegments fails c k off sz) (fun r t => r = (c.loads fails k off sz).2 ∧ Kept rest t ∧
      Passes (∀ x ∈ (c.loads fails k off sz).1, x.2.Fits fails c x.1)
        (∀ x ∈ (c.loads fails k off sz).1, AllocTables fails x.1 x.2.newsz) s t ∧
      ∀ a ∈ r, a < KERNBASE ∧ Stage fails rest (npages a) t ∧ AllUser t.pgdir)
      (fun _ => ¬ ∀ x ∈ (c.loads fails k off sz).1, x.2.Fits fails c x.1) s := by
  intro k
  induction k with
  | zero =>
    intro off sz s hs hu hsz _
    refine ⟨rfl, hs.toKept, Passes.rfl.congr (by simp [Content.loads]) (by simp [Content.loads]), fun a ha => ?_⟩
    cases ha
    exact ⟨hsz, hs, hu⟩
  | succ k ih =>
    intro off sz s hs hu hsz hstraight
    unfold Vm.loadSegments
    -- `exec` gives up before it loads something
    have hnothing : c.loads fails (k + 1) off sz = ([], none) → none = (c.loads fails (k + 1) off sz).2 ∧ Kept rest s ∧
        Passes (∀ x ∈ (c.loads fails (k + 1) off sz).1, x.2.Fits fails c x.1)
          (∀ x ∈ (c.loads fails (k + 1) off sz).1, AllocTables fails x.1 x.2.newsz) s s ∧
        ∀ a ∈ (none : Option ℕ), a < KERNBASE ∧ Stage fails rest (npages a) s ∧ AllUser s.pgdir := by
      intro hloads
      rw [hloads]
      exact ⟨rfl, hs.toKept, Passes.rfl.congr (by simp) (by simp), nofun⟩
    cases hph : c.proghdr off with
    | none => exact hnothing (by simp only [Content.loads, hph])
    | some ph =>
      simp only
      split_ifs with hload hmem
      · have hloads : c.loads fails (k + 1) off sz = c.loads fails k ((off + PHSIZE) % 2 ^ 32) sz := by
          simp only [Content.loads, hph, if_pos hload]
        rw [hloads] at hstraight ⊢
        exact ih _ sz s hs hu hsz hstraight
      · exact hnothing (by simp only [Content.loads, hph, if_neg hload, if_pos hmem])
      rw [wp_bind]
      show wp (Vm.allocuvm fails sz ph.newsz) _ _ s
      refine (hs.allocuvm (.inl hsz)).imp (fun r t ht => ?_) fun _ => False.elim
      obtain ⟨hr, hlt, hkept, hpasses, hstage⟩ := ht
      have hfits : r ≠ 0 → (ph.Fits fails c sz ↔ ph.SegmentFits fails c (npages r)) := by
        rw [hr]
        exact fun hne => imp_iff_right hne
      by_cases hgoes : r ≠ 0 ∧ ph.Read c
      · -- the segment is loaded, and the loop goes on
        have hloads : c.loads fails (k + 1) off sz = ((sz, ph) :: (c.loads fails k ((off + PHSIZE) % 2 ^ 32) r).1,
            (c.loads fails k ((off + PHSIZE) % 2 ^ 32) r).2) := by
          simp only [Content.loads, hph, if_neg hload, if_neg hmem, ← hr, if_pos hgoes]
        rw [hloads] at hstraight ⊢
        obtain ⟨hthis, hrest⟩ := List.forall_mem_cons.mp hstraight
        obtain ⟨ht, hut⟩ := hstage hgoes.1
        rw [if_neg hgoes.1, wp_bind]
        simp only [List.forall_mem_cons, hfits hgoes.1]
        refine (ht.loaduvm (Content.proghdr_off_lt hph) (hthis (hr ▸ hgoes.1))).imp (fun ok u hu' => ?_) fun _ hno h =>
          hno h.1
        obtain ⟨hstage, hpgdir, hpu, hok⟩ := hu'
        rw [if_pos (hok.mpr hgoes.2)]
        refine (ih _ _ u hstage (by rw [hpgdir]; exact hut hu) hlt hrest).imp (fun r v hv => ?_) fun _ hno h => hno h.2
        exact ⟨hv.1, hv.2.1, ((hpasses.trans hpu).trans hv.2.2.1).congr (by rw [true_and]) (by rw [and_true]), hv.2.2.2⟩
      · -- `exec` gives up
        have hloads : c.loads fails (k + 1) off sz = ([(sz, ph)], none) := by
          simp only [Content.loads, hph, if_neg hload, if_neg hmem, ← hr, if_neg hgoes]
        rw [hloads] at hstraight ⊢
        have hthis := hstraight (sz, ph) List.mem_cons_self
        simp only [List.mem_singleton, forall_eq]
        split_ifs with hzero
        · refine ⟨rfl, hkept, hpasses.congr (iff_of_true trivial fun hne => ?_) Iff.rfl, nofun⟩
          exact absurd (hr.symm.trans hzero) hne
        obtain ⟨ht, -⟩ := hstage hzero
        rw [wp_bind, hfits hzero]
        refine (ht.loaduvm (Content.proghdr_off_lt hph) (hthis (hr ▸ hzero))).imp (fun ok u hu' => ?_) fun _ hno => hno
        obtain ⟨hstage, -, hpu, hok⟩ := hu'
        rw [if_neg fun h => hgoes ⟨hzero, hok.mp h⟩]
        exact ⟨rfl, hstage.toKept, (hpasses.trans hpu).congr (by rw [true_and]) (by rw [and_true]), nofun⟩

/-- A file that fits is not stored through the mappings of the kernel. -/
theorem ExecFits.straight {file : Option Content} {argv : List (List Byte)} (h : ExecFits fails file argv) :
    ∀ c ∈ file, c.Straight fails := by
  intro c hc x hx hne _ j hj hstores hle
  have hbacked := (((h c hc).1 x hx hne).2 j hj hstores.1).2 hstores
  exact absurd hbacked.1 (not_lt.mpr hle)

/-- **What is known when `exec` returns** `r`. -/
structure Installs (fails : List Use) (file : Option Content) (argv : List (List Byte)) (rest : Frame → ℕ) (s : Mem)
    (r : Option Image) (t : Mem) : Prop where
  sound : Sound rest t
  own : ∀ f ∈ t.mapped, rest f = 0
  stored : t.stores ⊆ t.mapped ↔ ExecFits fails file argv
  failed : r = none → ((∀ g, t.kmem.avail g = s.kmem.avail g) ↔ ExecTables fails file)
  image : ∀ im ∈ r, im.sz < KERNBASE ∧ Tidy t.pgdir ∧ t.pgdir.page ≠ none ∧
    (ExecFills fails file → Filled (npages im.sz) t.pgdir)

theorem Kept.stored_iff (h : Kept rest s) : s.stores ⊆ s.mapped ↔ 0 ∉ s.stores := by
  refine ⟨fun hsub h0 => h.null (hsub h0), fun h0 f hf => (h.stored f hf).resolve_left ?_⟩
  rintro rfl
  exact h0 hf

/-- `exec` gives up before it comes to a header. -/
theorem Installs.nothing {file : Option Content} {argv : List (List Byte)} (h : Sound rest t) (hm : t.mapped = [])
    (hst : t.stores = []) (hfits : ExecFits fails file argv)
    (htables : (∀ g, t.kmem.avail g = s.kmem.avail g) ↔ ExecTables fails file) :
    Installs fails file argv rest s none t := by
  refine ⟨h, ?_, iff_of_true ?_ hfits, fun _ => htables, nofun⟩
  · rw [hm]
    nofun
  · rw [hst]
    exact List.nil_subset _

/-- **`exec` gives up** when it has built a directory. -/
theorem Kept.freevm {file : Option Content} {argv : List (List Byte)} {E : Stop → Prop} {s₀ : Mem} (h : Kept rest s)
    (h0 : 0 ∉ s.stores ↔ ExecFits fails file argv)
    (htables : (∀ g, s.total g = s₀.kmem.avail g) ↔ ExecTables fails file) :
    wp (do freevm; return none) (Installs fails file argv rest s₀) E s := by
  rw [wp_bind]
  refine wp_freevm h.sound h.tidy h.page fun t ht => ⟨ht.sound h.sound, ?_, ?_, fun _ => ?_, nofun⟩
  · rw [ht.mapped]
    exact h.own
  · rw [ht.stores, ht.mapped, h.stored_iff, h0]
  · rw [← htables]
    have havail : ∀ g, t.kmem.avail g = s.total g := fun g => by
      rw [← ht.total g, Mem.total, ht.pgdir, Pgdir.holds_empty, Nat.add_zero]
    simp only [havail]

/-- **`exec`**, if it does not store through the mappings of the kernel. -/
theorem wp_exec {file : Option Content} {argv : List (List Byte)} (hstraight : ∀ c ∈ file, c.Straight fails)
    (hs : Sound rest s) (hm : s.mapped = []) (hst : s.stores = []) :
    wp (exec fails file argv) (Installs fails file argv rest s) (fun _ => ¬ ExecFits fails file argv) s := by
  unfold exec
  split
  · exact .nothing hs hm hst nofun (iff_of_true (fun _ => rfl) nofun)
  rename_i c
  have hfits : ∀ P : Content → Prop, (∀ c' ∈ some c, P c') ↔ P c := fun P => by simp
  have hstraight := hstraight c rfl
  unfold Content.Straight at hstraight
  split
  · rename_i helf
    have hloaded : c.loaded fails = ([], none) := by simp only [Content.loaded, helf]
    refine .nothing hs hm hst ((hfits _).mpr ?_) (iff_of_true (fun _ => rfl) ((hfits _).mpr ?_))
    · simp [hloaded]
    · simp [hloaded, helf]
  rename_i elf helf
  have hloaded : c.loaded fails = if KernelFound fails then c.loads fails elf.phnum elf.phoff 0 else ([], none) := by
    simp only [Content.loaded, helf]
  rw [wp_bind]
  refine wp_setupkvm (fun hfail => ?_) (fun hdir hno t ht => ?_) fun hkernel t ht => ?_
  · rw [if_neg fun h : KernelFound fails => h.1 hfail] at hloaded
    refine .nothing hs hm hst ((hfits _).mpr ?_) (iff_of_true (fun _ => rfl) ((hfits _).mpr ?_))
    · simp [hloaded]
    · simp [hloaded, hfail]
  · -- the directory is lost
    rw [if_neg hno] at hloaded
    refine .nothing (ht.sound hs) (ht.mapped.trans hm) (ht.stores.trans hst) ((hfits _).mpr (by simp [hloaded]))
      (iff_of_false (fun hsame => ?_) ?_)
    · obtain ⟨f, hf⟩ := ht.taken
      exact absurd (hsame f) hf.ne
    · exact fun h => hno (((hfits _).mp h).1 (by rw [helf]; nofun) hdir)
  rw [if_pos hkernel] at hloaded
  rw [hloaded] at hstraight
  obtain ⟨hstage, huser⟩ := ht.stage fails hs hm hst
  have h0 : 0 ∉ t.stores := by
    rw [ht.stores, hst]
    nofun
  have hfile : (ExecFits fails (some c) argv ↔ (∀ x ∈ (c.loads fails elf.phnum elf.phoff 0).1, x.2.Fits fails c x.1) ∧
      ∀ sz ∈ (c.loads fails elf.phnum elf.phoff 0).2, StackFits fails argv sz) ∧
      (ExecTables fails (some c) ↔ (∀ x ∈ (c.loads fails elf.phnum elf.phoff 0).1, AllocTables fails x.1 x.2.newsz) ∧
      ∀ sz ∈ (c.loads fails elf.phnum elf.phoff 0).2, AllocTables fails (pgroundup sz) (stackEnd sz)) := by
    unfold ExecFits ExecTables
    rw [hfits, hfits, hloaded]
    exact ⟨Iff.rfl, and_iff_right fun _ _ => hkernel⟩
  simp only [if_true, wp_bind]
  refine (Stage.loadSegments elf.phnum elf.phoff 0 t hstage huser (by decide) hstraight).imp (fun r u hu => ?_)
    fun _ hno h => hno (hfile.1.mp h).1
  obtain ⟨rfl, hkept, hpasses, hall⟩ := hu
  cases hr : (c.loads fails elf.phnum elf.phoff 0).2 with
  | none =>
    rw [hr] at hfile
    refine hkept.freevm ?_ ?_
    · rw [hpasses.null, and_iff_right h0, hfile.1]
      simp
    · rw [hfile.2, ← hpasses.same]
      simp [ht.total]
  | some sz =>
    rw [hr] at hfile hall
    obtain ⟨hsz, hsegs, huser⟩ := hall sz rfl
    simp only [wp_bind]
    refine (hsegs.makeStack hsz huser).imp (fun r v hv => ?_) fun _ hno h =>
      hno ((hfile.1.mp h).2 sz rfl)
    obtain ⟨hkept, hpv, himage⟩ := hv
    have hpv := hpasses.trans hpv
    have hstored : 0 ∉ v.stores ↔ ExecFits fails (some c) argv := by
      rw [hpv.null, and_iff_right h0, hfile.1]
      simp
    cases r with
    | none =>
      refine hkept.freevm hstored ?_
      rw [hfile.2]
      simp only [Option.mem_def, Option.some.injEq, forall_eq']
      rw [← hpv.same]
      simp [ht.total]
    | some im =>
      obtain ⟨him, hne, hlt, hstage⟩ := himage im rfl
      refine ⟨hkept.sound, hkept.own, by rw [hkept.stored_iff, hstored], nofun, fun im' h' => ?_⟩
      cases h'
      refine ⟨hlt, hkept.tidy, hkept.page, fun hfill => ?_⟩
      have hfill := hfill c rfl sz (by rw [hloaded, hr]; rfl) hne
      have hempty : Filled 0 .empty := fun v _ => iff_of_false (fun h => h rfl) (Nat.not_lt_zero v)
      refine (hstage.made.filled hempty (Nat.zero_le _) (npages_le hlt.le)).mpr fun v _ hv => hfill v ?_
      rwa [← him]

end Xv6.Vm
