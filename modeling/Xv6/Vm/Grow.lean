import Xv6.Lib.Zoom
import Xv6.Vm.System

/-!
# The contents of user memory, and `sbrk`

The functions that `growproc` calls, with the bytes of the pages: `kfree` fills the page with junk and `allocuvm` clears
the pages that it maps. Without the bytes they are the functions of `Xv6.Vm` (`erases_deallocuvm`, `erases_allocuvm`),
so that here only the bytes are followed:

- `Takes`, `wp_deallocFrom`: only bytes of pages that are taken out change;
- `Gains`, `wp_allocFrom`: pages that were mapped keep their bytes, and the new ones are zero.
-/

namespace Xv6.Vm

open Lib
open Function (update update_of_ne update_self)

/-- The state of a call, and the bytes of all pages. -/
structure Ram where
  mem : Mem
  data : Frame → ℕ → Byte

abbrev Ram.pte (R : Ram) (v : ℕ) : Pte := R.mem.pgdir.pte v

def Ram.byte (R : Ram) (a : ℕ) : Option Byte :=
  if (R.pte (a / PGSIZE)).present then some (R.data (R.pte (a / PGSIZE)).frame (a % PGSIZE)) else none

/-- The mapping of the user page `v`. -/
def Ram.entry (R : Ram) (v : ℕ) : Option Pte := if (R.pte v).present then some (R.pte v) else none

theorem Sound.target_ne {s : Mem} {rest : Frame → ℕ} {p : Frame} {v : ℕ} (h : Sound (plus rest p) s) (hv : v < NUPAGES) :
    (s.pgdir.pte v).target ≠ some p := by
  intro ht
  have := h.rest_zero hv ht
  rw [plus, one_self] at this
  omega

namespace Bytes

abbrev Prog := StateT Ram (Except Stop)

/-- A function that does not touch the bytes. -/
def part {α : Type} (m : Vm.Prog α) : Prog α := zoom Ram.mem (fun R s => { R with mem := s }) m

def memset (f : Frame) (b : Byte) : Prog Unit := modify fun R => { R with data := update R.data f fun _ => b }

def deallocFrom (oldsz : ℕ) : ℕ → ℕ → Prog Unit
  | 0, _ => throw .fuel
  | fuel + 1, a =>
    if a < oldsz then do
      let R ← get
      match R.mem.pgdir.walk a with
      | none => deallocFrom oldsz fuel (a + (NPTENTRIES - 1) * PGSIZE + PGSIZE)
      | some e =>
        if e.present then
          if e.frame = 0 then throw .kfree
          else do
            part (kfree e.frame)
            memset e.frame 1
            part (do let s ← get; set { s with pgdir := s.pgdir.setPte a .zero })
            deallocFrom oldsz fuel (a + PGSIZE)
        else deallocFrom oldsz fuel (a + PGSIZE)
    else return ()

def deallocuvm (oldsz newsz : ℕ) : Prog ℕ := do
  if oldsz ≤ newsz then return oldsz
  else
    deallocFrom oldsz (oldsz / PGSIZE + 2) (pgroundup newsz)
    return newsz

def allocFrom (fails : List Use) (oldsz newsz : ℕ) : ℕ → ℕ → Prog ℕ
  | 0, _ => throw .fuel
  | fuel + 1, a =>
    if a < newsz then do
      match ← part (kalloc fails (.page a)) with
      | none =>
        let _ ← deallocuvm newsz oldsz
        return 0
      | some f =>
        memset f 0
        let _ ← part (mappages fails a f true)
        allocFrom fails oldsz newsz fuel (a + PGSIZE)
    else return newsz

def allocuvm (fails : List Use) (oldsz newsz : ℕ) : Prog ℕ :=
  if KERNBASE ≤ newsz then return 0
  else if newsz < oldsz then return oldsz
  else allocFrom fails oldsz newsz (newsz / PGSIZE + 2) (pgroundup oldsz)

def growproc (fails : List Use) (sz : ℕ) (n : Word) : Prog (Option ℕ) := do
  if 0 < n.toInt then
    let r ← allocuvm fails sz ((sz + n.toNat) % 2 ^ 32)
    return if r = 0 then none else some r
  else if n.toInt < 0 then
    let r ← deallocuvm sz ((sz + n.toNat) % 2 ^ 32)
    return if r = 0 then none else some r
  else return some sz

/-! ## Without the bytes -/

variable {α β : Type} {m : Vm.Prog α} {f : α → Prog β} {f' : α → Vm.Prog β}

theorem erases_part_bind (h : ∀ a, Erases Ram.mem never (f a) (f' a)) : Erases Ram.mem never (part m >>= f) (m >>= f') :=
  (Erases.zoom fun _ _ => rfl).bind h

theorem erases_memset {g : Unit → Prog β} {g' : Vm.Prog β} {p : Frame} {b : Byte} (h : Erases Ram.mem never (g ()) g') :
    Erases Ram.mem never (memset p b >>= g) g' := .silent (fun _ => rfl) h

theorem erases_deallocFrom (oldsz : ℕ) :
    ∀ fuel a, Erases Ram.mem never (deallocFrom oldsz fuel a) (Vm.deallocFrom oldsz fuel a) := by
  intro fuel
  induction fuel with
  | zero => exact fun _ => .throw _
  | succ fuel ih =>
    intro a
    unfold deallocFrom Vm.deallocFrom
    split_ifs with ha
    · refine .get_bind fun R => ?_
      cases R.mem.pgdir.walk a with
      | none => exact ih _
      | some e =>
        simp only
        split_ifs
        · exact .throw _
        · refine erases_part_bind fun _ => erases_memset ?_
          have hbind := erases_part_bind (m := do let s ← get; set { s with pgdir := s.pgdir.setPte a .zero })
            fun _ : PUnit => ih (a + PGSIZE)
          simpa only [bind_assoc] using hbind
        · exact ih _
    · exact .pure _

theorem erases_deallocuvm (oldsz newsz : ℕ) : Erases Ram.mem never (deallocuvm oldsz newsz) (Vm.deallocuvm oldsz newsz) := by
  unfold deallocuvm Vm.deallocuvm
  split_ifs
  · exact .pure _
  · exact (erases_deallocFrom _ _ _).bind fun _ => .pure _

theorem erases_allocFrom (fails : List Use) (oldsz newsz : ℕ) :
    ∀ fuel a, Erases Ram.mem never (allocFrom fails oldsz newsz fuel a) (Vm.allocFrom fails oldsz newsz fuel a) := by
  intro fuel
  induction fuel with
  | zero => exact fun _ => .throw _
  | succ fuel ih =>
    intro a
    unfold allocFrom Vm.allocFrom
    split_ifs with ha
    · refine erases_part_bind fun r => ?_
      cases r with
      | none => exact (erases_deallocuvm _ _).bind fun _ => .pure _
      | some f => exact erases_memset (erases_part_bind fun _ => ih _)
    · exact .pure _

theorem erases_allocuvm (fails : List Use) (oldsz newsz : ℕ) :
    Erases Ram.mem never (allocuvm fails oldsz newsz) (Vm.allocuvm fails oldsz newsz) := by
  unfold allocuvm Vm.allocuvm
  split_ifs
  · exact .pure _
  · exact .pure _
  · exact erases_allocFrom _ _ _ _ _

theorem erases_growproc (fails : List Use) (sz : ℕ) (n : Word) :
    Erases Ram.mem never (growproc fails sz n) (Vm.growproc fails sz n) := by
  unfold growproc Vm.growproc
  split_ifs
  · exact (erases_allocuvm _ _ _).bind fun _ => .pure _
  · exact (erases_deallocuvm _ _).bind fun _ => .pure _
  · exact .pure _

/-! ## Rules for the bytes -/

variable {R T : Ram} {rest : Frame → ℕ} {fails : List Use} {E : Stop → Prop} {p : Frame} {v w va k : ℕ} {s : Mem}

theorem wp_part {Q : α → Ram → Prop} : wp (part m) Q E R ↔ wp m (fun a s => Q a { R with mem := s }) E R.mem := wp_zoom

theorem wp_memset {Q : Unit → Ram → Prop} {b : Byte} :
    wp (memset p b) Q E R ↔ Q () { R with data := update R.data p fun _ => b } := Iff.rfl

/-! ### Taking pages out -/

/-- What happens to the entries and bytes when the pages from `k` on are taken out. -/
structure Takes (k : ℕ) (R T : Ram) : Prop where
  pte : ∀ v < k, T.pte v = R.pte v
  data : ∀ p, T.data p = R.data p ∨ ∃ v, k ≤ v ∧ v < NUPAGES ∧ (R.pte v).target = some p

theorem Takes.later (h : Takes w R T) (hk : k ≤ w) : Takes k R T := by
  refine ⟨fun v hv => h.pte v (by omega), fun p => (h.data p).imp_right ?_⟩
  rintro ⟨v, hv, hlt, ht⟩
  exact ⟨v, by omega, hlt, ht⟩

theorem wp_kfree_pgdir : wp (kfree p) (fun _ t => t.pgdir = s.pgdir) (fun _ => True) s := by
  unfold kfree
  rw [wp_bind, wp_get]
  split_ifs
  · trivial
  · exact rfl

theorem wp_deallocFrom {oldsz : ℕ} (hold : oldsz ≤ KERNBASE) : ∀ (fuel k : ℕ) (R : Ram),
    wp (deallocFrom oldsz fuel (k * PGSIZE)) (fun _ T => Takes k R T) (fun _ => True) R := by
  intro fuel
  induction fuel with
  | zero => exact fun _ _ => trivial
  | succ fuel ih =>
    intro k R
    have hdiv := page_mul k
    unfold deallocFrom
    by_cases ha : k * PGSIZE < oldsz
    · have hk : k < NUPAGES := by simpa only [hdiv] using page_lt (ha.trans_le hold)
      rw [if_pos ha, wp_bind, wp_get, walk_user (by omega), hdiv]
      split_ifs with htab
      · simp only [next_page]
        split_ifs with hpresent hzero
        · exact trivial
        · have htarget : (R.pte k).target = some (R.pte k).frame := by simp [Pte.target, hpresent]
          rw [wp_bind, wp_part]
          refine wp_kfree_pgdir.mono fun _ u hu => ?_
          rw [wp_bind, wp_memset, wp_bind, wp_part, wp_bind, wp_get, wp_set]
          refine (ih (k + 1) _).mono fun _ T h => ⟨fun v hv => ?_, fun p => ?_⟩
          · rw [h.pte v (by omega)]
            simp only [Ram.pte, hu, Pgdir.setPte, hdiv]
            exact update_of_ne (by omega) _ _
          · by_cases hp : p = (R.pte k).frame
            · exact .inr ⟨k, le_rfl, hk, hp ▸ htarget⟩
            · rcases h.data p with hd | ⟨v, hv, hlt, ht⟩
              · exact .inl (hd.trans (update_of_ne hp _ _))
              · refine .inr ⟨v, by omega, hlt, ?_⟩
                simp only [Ram.pte, hu, target_setPte, hdiv] at ht
                rwa [if_neg (by omega)] at ht
        · exact (ih (k + 1) R).mono fun _ T h => h.later (by omega)
      · have hjump : k * PGSIZE + (NPTENTRIES - 1) * PGSIZE + PGSIZE = (k + NPTENTRIES) * PGSIZE := by
          simp only [NPTENTRIES, PGSIZE]
          omega
        simp only [hjump]
        exact (ih (k + NPTENTRIES) R).mono fun _ T h => h.later (by omega)
    · rw [if_neg ha, wp_pure]
      exact ⟨fun _ _ => rfl, fun _ => .inl rfl⟩

theorem wp_deallocuvm {oldsz newsz : ℕ} (hold : oldsz ≤ KERNBASE) :
    wp (deallocuvm oldsz newsz) (fun _ T => Takes (npages newsz) R T) (fun _ => True) R := by
  unfold deallocuvm
  split_ifs with hle
  · exact ⟨fun _ _ => rfl, fun _ => .inl rfl⟩
  · rw [pgroundup_eq (by omega), wp_bind]
    exact wp_deallocFrom hold _ _ R

/-! ### Adding pages -/

/-- The page `v` is as it was, if it was mapped. -/
structure Same (v : ℕ) (R T : Ram) : Prop where
  pte : (R.pte v).target ≠ none → T.pte v = R.pte v
  data : ∀ p, (R.pte v).target = some p → T.data p = R.data p

theorem Same.rfl : Same v R R := ⟨fun _ => Eq.refl _, fun _ _ => Eq.refl _⟩

theorem Same.trans {U : Ram} (h : Same v R T) (h' : Same v T U) : Same v R U := by
  refine ⟨fun hne => ?_, fun p hp => ?_⟩
  · have hT := h.pte hne
    rw [h'.pte (by rw [hT]; exact hne), hT]
  · have hT := h.pte (by simp [hp])
    rw [h'.data p (by rw [hT]; exact hp), h.data p hp]

theorem Takes.same (h : Takes k R T) (hs : Sound rest R.mem) (hv : v < k) (hlt : v < NUPAGES) : Same v R T := by
  refine ⟨fun _ => h.pte v hv, fun p hp => ?_⟩
  rcases h.data p with hd | ⟨w, hw, hlt', hpw⟩
  · exact hd
  · have := hs.target_inj hlt hlt' hp hpw
    omega

theorem Takes.other (h : Takes k R T) (hs : Sound rest R.mem) (hp : 0 < rest p) : T.data p = R.data p := by
  rcases h.data p with hd | ⟨w, hw, hlt, hpw⟩
  · exact hd
  · have := hs.rest_zero hlt hpw
    omega

/-- The page `v` is as it was, or it is new and cleared. -/
def Cleared (v : ℕ) (R T : Ram) : Prop :=
  (R.pte v).target = none → ∀ p, (T.pte v).target = some p → T.data p = (fun _ => 0) ∧ (T.pte v).user = true

theorem Cleared.trans {U : Ram} (h : Cleared v R T) (h' : Cleared v T U) (hs' : Same v T U) : Cleared v R U := by
  intro hnone q hq
  cases ht : (T.pte v).target with
  | none => exact h' ht q hq
  | some p =>
    have hpte := hs'.pte (by simp [ht])
    rw [hpte] at hq
    obtain ⟨hd, hu⟩ := h hnone q hq
    exact ⟨(hs'.data q hq).trans hd, by rw [hpte]; exact hu⟩

/-- The pages that were mapped are as before, and the new ones are cleared. -/
def Grows (R T : Ram) : Prop := ∀ v < NUPAGES, Same v R T ∧ Cleared v R T

theorem Grows.trans {U : Ram} (h : Grows R T) (h' : Grows T U) : Grows R U := by
  intro v hv
  obtain ⟨hs, hc⟩ := h v hv
  obtain ⟨hs', hc'⟩ := h' v hv
  exact ⟨hs.trans hs', hc.trans hc' hs'⟩

theorem Grows.rfl : Grows R R := by
  refine fun v _ => ⟨.rfl, fun hnone p hp => ?_⟩
  simp [hp] at hnone

/-- What the loop of `allocuvm` has done when it returns `r`. -/
structure Gains (rest : Frame → ℕ) (lo : ℕ) (R : Ram) (r : ℕ) (T : Ram) : Prop where
  low : ∀ v < lo, v < NUPAGES → Same v R T
  all : r ≠ 0 → Grows R T
  other : ∀ p, 0 < rest p → T.data p = R.data p

theorem same_memset {u : Mem} {b : Byte} (hu : Sound (plus rest p) u) (hb : u.pgdir = R.mem.pgdir)
    (hv : v < NUPAGES) : Same v R ⟨u, update R.data p fun _ => b⟩ := by
  refine ⟨fun _ => by simp only [Ram.pte, hb], fun q hq => update_of_ne (fun e => ?_) _ _⟩
  rw [e, Ram.pte, ← hb] at hq
  exact hu.target_ne hv hq

theorem same_adds {u : Mem} (h : Adds (k * PGSIZE) p true R.mem u) (hfree : (R.pte k).target = none) :
    Same v R { R with mem := u } := by
  refine ⟨fun hne => ?_, fun _ _ => rfl⟩
  have hvk : v ≠ k := fun e => hne (e ▸ hfree)
  show u.pgdir.pte v = R.pte v
  rw [h.pte, page_mul, update_of_ne hvk]

theorem cleared_adds {u : Mem} (h : Adds (k * PGSIZE) p true R.mem u) (hd : R.data p = fun _ => 0) :
    Cleared v R { R with mem := u } := by
  intro hnone q hq
  simp only [Ram.pte, h.pte, page_mul] at hnone hq ⊢
  by_cases hvk : v = k
  · rw [hvk, update_self] at hq ⊢
    cases hq
    exact ⟨hd, rfl⟩
  · rw [update_of_ne hvk, hnone] at hq
    cases hq

theorem Grows.gains {r lo : ℕ} (h : Grows R T) (ho : ∀ q, 0 < rest q → T.data q = R.data q) {U : Ram}
    (hg : Gains rest lo T r U) : Gains rest lo R r U := by
  refine ⟨fun v hv hlt => (h v hlt).1.trans (hg.low v hv hlt), fun hr => h.trans (hg.all hr), fun q hq => ?_⟩
  rw [hg.other q hq, ho q hq]

/-- A page that `kalloc` has found is cleared. -/
theorem grows_memset {u : Mem} (hu : Sound (plus rest p) u) (hb : u.pgdir = R.mem.pgdir) :
    Grows R ⟨u, update R.data p fun _ => 0⟩ := by
  refine fun v hv => ⟨same_memset hu hb hv, fun hnone q hq => ?_⟩
  simp only [Ram.pte, hb] at hq
  simp [Ram.pte, hq] at hnone

theorem wp_allocFrom {oldsz newsz : ℕ} (hnew : newsz < KERNBASE) :
    ∀ (fuel k : ℕ) (R : Ram), Sound rest R.mem → Tidy R.mem.pgdir → npages oldsz ≤ k →
      wp (allocFrom fails oldsz newsz fuel (k * PGSIZE)) (Gains rest (npages oldsz) R) (fun _ => True) R := by
  intro fuel
  induction fuel with
  | zero => exact fun _ _ _ _ _ => trivial
  | succ fuel ih =>
    intro k R hs ht hk
    unfold allocFrom
    by_cases ha : k * PGSIZE < newsz
    · rw [if_pos ha, wp_bind, wp_part]
      refine wp_kalloc (fun _ => ?_) fun p u _ hb havail => ?_
      · simp only
        rw [wp_bind]
        refine (wp_deallocuvm (by omega)).mono fun _ T h => ?_
        rw [wp_pure]
        exact ⟨fun v hv hlt => h.same hs hv hlt, by simp, fun p hp => h.other hs hp⟩
      · have hu : Sound (plus rest p) u := hs.take hb havail
        have hmemset := grows_memset hu hb.pgdir
        have hother : ∀ q, 0 < rest q → update R.data p (fun _ => 0) q = R.data q := by
          intro q hq
          refine update_of_ne (fun e => ?_) _ _
          rw [e, hu.zero] at hq
          omega
        rw [← hb.pgdir] at ht
        simp only [next_page]
        rw [wp_bind, wp_memset, wp_bind, wp_part]
        refine wp_mappages ht (by omega) (fun _ _ => ?_) (fun _ => trivial) fun _ hfree t hadds => ?_
        · exact (ih (k + 1) _ hu.drop ht (by omega)).mono fun r T hg => hmemset.gains hother hg
        · rw [page_mul] at hfree
          have htotal := hb.total havail
          have hsound : Sound rest t := hs.of_le (hadds.first.trans hb.first) fun g => by rw [hadds.total g, htotal g]
          have hgrows : Grows ⟨u, update R.data p fun _ => 0⟩ ⟨t, update R.data p fun _ => 0⟩ := fun v _ =>
            ⟨same_adds hadds hfree, cleared_adds hadds (update_self _ _ _)⟩
          exact (ih (k + 1) _ hsound (hadds.tidy ht) (by omega)).mono fun r T hg =>
            (hmemset.trans hgrows).gains hother hg
    · rw [if_neg ha, wp_pure]
      exact ⟨fun _ _ _ => .rfl, fun _ => Grows.rfl, fun _ _ => rfl⟩

/-! ## `growproc` -/

theorem Same.entry_eq (h : Same v R T) (hnone : (R.pte v).target = none → (T.pte v).target = none) :
    T.entry v = R.entry v := by
  unfold Ram.entry
  by_cases hp : (R.pte v).target = none
  · rw [if_neg (Pte.not_present (hnone hp)), if_neg (Pte.not_present hp)]
  · rw [h.pte hp]

theorem Same.byte_eq {a : ℕ} (h : Same (a / PGSIZE) R T)
    (hnone : (R.pte (a / PGSIZE)).target = none → (T.pte (a / PGSIZE)).target = none) : T.byte a = R.byte a := by
  unfold Ram.byte
  by_cases hp : (R.pte (a / PGSIZE)).target = none
  · rw [if_neg (Pte.not_present (hnone hp)), if_neg (Pte.not_present hp)]
  · rw [h.pte hp]
    split_ifs with hpresent
    · rw [h.data _ (by simp [Pte.target, hpresent])]
    · rfl

/-- **The condition**: the memory grows without a gap, and does not shrink to nothing or less. -/
structure Fits (fails : List Use) (d : Pgdir) (sz : ℕ) (n : Word) : Prop where
  tables : 0 < n.toInt → GrowsWhole fails d sz ((sz + n.toNat) % 2 ^ 32)
  shrink : n.toInt < 0 → 0 < (sz : ℤ) + n.toInt ∨ sz = 0

/-- What `growproc` should do: the new size is the sum, exactly the pages below it are mapped, the bytes below both sizes
are as before and those of new pages are zero; or the memory is as before. -/
def Exact (R : Ram) (sz : ℕ) (n : Word) : Option ℕ → Ram → Prop
  | some sz', T => (sz' : ℤ) = sz + n.toInt ∧ sz' < KERNBASE ∧
      (∀ v < NUPAGES, (T.entry v).isSome ↔ v * PGSIZE < sz') ∧ (∀ a < min sz sz', T.byte a = R.byte a) ∧
      ∀ a, npages sz * PGSIZE ≤ a → a < npages sz' * PGSIZE → T.byte a = some 0
  | none, T => (∀ v < NUPAGES, T.entry v = R.entry v) ∧ ∀ a < KERNBASE, T.byte a = R.byte a

theorem entry_isSome : (R.entry v).isSome ↔ (R.pte v).target ≠ none := by
  rw [← Pte.present_iff, Ram.entry]
  split_ifs with h <;> simp [h]

theorem filled_entry {n : ℕ} (h : Filled n R.mem.pgdir) (hv : v < NUPAGES) : (R.entry v).isSome ↔ v < n :=
  entry_isSome.trans (h v hv)

variable {sz newsz : ℕ} {n : Word}

theorem exact_none (hfill : Filled (npages sz) R.mem.pgdir) (hfill' : Filled (npages sz) T.mem.pgdir)
    (hlow : ∀ v < npages sz, v < NUPAGES → Same v R T) : Exact R sz n none T := by
  have hsame : ∀ v < NUPAGES, Same v R T ∧ ((R.pte v).target = none → (T.pte v).target = none) := by
    intro v hv
    by_cases hlt : v < npages sz
    · exact ⟨hlow v hlt hv, fun hnone => absurd hnone ((hfill v hv).mpr hlt)⟩
    · have hR : (R.pte v).target = none := not_not.mp ((hfill v hv).not.mpr hlt)
      have hT : (T.pte v).target = none := not_not.mp ((hfill' v hv).not.mpr hlt)
      exact ⟨⟨fun hne => absurd hR hne, fun p hp => by simp [hR] at hp⟩, fun _ => hT⟩
  exact ⟨fun v hv => (hsame v hv).1.entry_eq (hsame v hv).2,
    fun a ha => (hsame _ (page_lt ha)).1.byte_eq (hsame _ (page_lt ha)).2⟩

theorem exact_some (hnew : (newsz : ℤ) = sz + n.toInt) (hlt : newsz < KERNBASE) (hfill : Filled (npages sz) R.mem.pgdir)
    (hfill' : Filled (npages newsz) T.mem.pgdir) (hlow : ∀ v < npages (min sz newsz), v < NUPAGES → Same v R T)
    (hclear : ∀ v < NUPAGES, npages sz ≤ v → v < npages newsz → Cleared v R T) : Exact R sz n (some newsz) T := by
  refine ⟨hnew, hlt, fun v hv => (filled_entry hfill' hv).trans lt_npages, fun a ha => ?_, fun a hlo hhi => ?_⟩
  · have hpage := page_lt_npages ha
    have hv : a / PGSIZE < NUPAGES := page_lt (by omega)
    refine (hlow _ hpage hv).byte_eq fun hnone => absurd hnone ((hfill _ hv).mpr ?_)
    exact page_lt_npages (by omega)
  · have hnp : npages newsz ≤ NUPAGES := npages_le hlt.le
    have hva : a / PGSIZE < npages newsz := Nat.div_lt_of_lt_mul (by rwa [Nat.mul_comm])
    have hvlo : npages sz ≤ a / PGSIZE := (Nat.le_div_iff_mul_le (by decide)).mpr hlo
    have hv : a / PGSIZE < NUPAGES := by omega
    have hnone : (R.pte (a / PGSIZE)).target = none := not_not.mp ((hfill _ hv).not.mpr (by omega))
    have hpresent := Pte.present_iff.mpr ((hfill' _ hv).mpr hva)
    obtain ⟨hd, -⟩ := hclear _ hv hvlo hva hnone (T.pte (a / PGSIZE)).frame (by simp [Pte.target, hpresent])
    rw [Ram.byte, if_pos hpresent, hd]

theorem wp_allocuvm (h : Sound rest R.mem) (ht : Tidy R.mem.pgdir) (hfill : Filled (npages sz) R.mem.pgdir)
    (hle : sz ≤ newsz) :
    wp (allocuvm fails sz newsz) (fun r T => Gains rest (npages sz) R r T ∧
      (r = 0 ∧ Filled (npages sz) T.mem.pgdir ∧ GrowsWhole fails R.mem.pgdir sz newsz ∨
        r = newsz ∧ newsz < KERNBASE ∧ (Filled (npages newsz) T.mem.pgdir ↔ GrowsWhole fails R.mem.pgdir sz newsz)))
      (fun _ => False) R := by
  unfold GrowsWhole allocuvm
  split_ifs with hbig hold
  · exact ⟨⟨fun _ _ _ => .rfl, by simp, fun _ _ => rfl⟩, .inl ⟨rfl, hfill, fun hlt => by omega⟩⟩
  · omega
  · have hround : pgroundup sz = npages sz * PGSIZE := pgroundup_eq (by omega)
    have hmem : wp (Vm.allocFrom fails sz newsz (newsz / PGSIZE + 2) (pgroundup sz))
        (Grown rest fails (npages sz) sz newsz R.mem) (fun _ => False) R.mem := by
      rw [hround]
      refine Vm.wp_allocFrom (by omega) _ _ _ h ht (Nat.succ_pos _) ?_ le_rfl (npages_mono hle)
        (.inr (hfill.spans (Nat.zero_le _)))
      simp only [PGSIZE]
      omega
    have hbytes : wp (allocFrom fails sz newsz (newsz / PGSIZE + 2) (pgroundup sz)) (Gains rest (npages sz) R)
        (fun _ => True) R := by
      rw [hround]
      exact wp_allocFrom (by omega) _ _ R h ht le_rfl
    refine (((erases_allocFrom _ _ _ _ _).wp nofun hmem).and hbytes).imp (fun r T hT => ⟨hT.2, ?_⟩) fun _ he => he.1
    obtain ⟨hg, -⟩ := hT
    by_cases hpages : PagesFound fails (npages sz) (npages newsz)
    · refine .inr ⟨by rw [hg.value, if_pos hpages], by omega, ?_⟩
      rw [(hg.made hpages).filled hfill (npages_mono hle) (npages_le (by omega)), imp_iff_right (by omega),
        imp_iff_right hpages]
      exact forall₃_congr fun v _ hlt => (imp_iff_right fun w hw hw' => hpages w hw (by omega)).symm
    · exact .inl ⟨by rw [hg.value, if_neg hpages], hg.cut hpages (hfill.spans le_rfl), fun _ h => absurd h hpages⟩

theorem wp_deallocuvm_exact (h : Sound rest R.mem) (ht : Tidy R.mem.pgdir) (hfill : Filled (npages sz) R.mem.pgdir)
    (hsz : sz < KERNBASE) (hlt : newsz < sz) :
    wp (deallocuvm sz newsz) (fun r T => r = newsz ∧ Takes (npages newsz) R T ∧ Filled (npages newsz) T.mem.pgdir)
      (fun _ => False) R := by
  have hmem : wp (Vm.deallocuvm sz newsz) (fun r t => r = newsz ∧ Filled (npages newsz) t.pgdir) (fun _ => False) R.mem :=
    Vm.wp_deallocuvm h ht hsz.le (fun hle => by omega) fun _ t hfreed =>
      ⟨rfl, hfreed.filled ht (hfill.spans (npages_mono hlt.le))⟩
  exact (((erases_deallocuvm _ _).wp nofun hmem).and (wp_deallocuvm hsz.le)).imp
    (fun r T hT => ⟨hT.1.1, hT.2, hT.1.2⟩) fun _ he => he.1

theorem sum_pos (hsz : sz < KERNBASE) (hn : 0 < n.toInt) :
    (((sz + n.toNat) % 2 ^ 32 : ℕ) : ℤ) = sz + n.toInt ∧ sz < (sz + n.toNat) % 2 ^ 32 := by
  have := n.isLt
  rw [BitVec.toInt_eq_toNat_cond] at hn ⊢
  simp only [KERNBASE] at hsz
  split_ifs at hn ⊢ <;> omega

theorem sum_neg (hsz : sz < KERNBASE) (hn : n.toInt < 0) (hs : 0 < (sz : ℤ) + n.toInt) :
    (((sz + n.toNat) % 2 ^ 32 : ℕ) : ℤ) = sz + n.toInt ∧ (sz + n.toNat) % 2 ^ 32 < sz := by
  have := n.isLt
  rw [BitVec.toInt_eq_toNat_cond] at hn hs ⊢
  simp only [KERNBASE] at hsz
  split_ifs at hn hs ⊢ <;> omega

theorem sum_wraps (hsz : sz < KERNBASE) (hn : n.toInt < 0) (hs : (sz : ℤ) + n.toInt < 0) :
    sz ≤ (sz + n.toNat) % 2 ^ 32 := by
  have := n.isLt
  rw [BitVec.toInt_eq_toNat_cond] at hn hs
  simp only [KERNBASE] at hsz
  split_ifs at hn hs <;> omega

/-- **`sbrk` returns**, and what it does is exact on the condition and only then. -/
theorem wp_growproc_exact (fails : List Use) (n : Word) (h : Sound rest R.mem) (ht : Tidy R.mem.pgdir) (hsz : sz < KERNBASE)
    (hfill : Filled (npages sz) R.mem.pgdir) :
    wp (growproc fails sz n) (fun r T => (Exact R sz n r T ↔ Fits fails R.mem.pgdir sz n) ∧
      ∀ p, 0 < rest p → T.data p = R.data p) (fun _ => False) R := by
  have hkeep : Exact R sz n none R := exact_none hfill hfill fun _ _ _ => .rfl
  unfold growproc
  split_ifs with hpos hneg
  · obtain ⟨hsum, hlt⟩ := sum_pos hsz hpos
    have hfits : Fits fails R.mem.pgdir sz n ↔ GrowsWhole fails R.mem.pgdir sz ((sz + n.toNat) % 2 ^ 32) :=
      ⟨fun h => h.tables hpos, fun h => ⟨fun _ => h, fun hneg => by omega⟩⟩
    rw [hfits]
    generalize (sz + n.toNat) % 2 ^ 32 = newsz at hsum hlt ⊢
    rw [wp_bind]
    refine (wp_allocuvm h ht hfill hlt.le).mono fun r T hT => ?_
    rw [wp_pure]
    refine ⟨?_, hT.1.other⟩
    rcases hT.2 with ⟨rfl, hfill', hfits⟩ | ⟨rfl, hbound, hfill'⟩
    · exact iff_of_true (exact_none hfill hfill' hT.1.low) hfits
    · rw [if_neg (by omega), ← hfill']
      have hall := hT.1.all (by omega)
      refine ⟨fun hex v hv => ?_, fun hf => ?_⟩
      · rw [← entry_isSome, hex.2.2.1 v hv, lt_npages]
      · exact exact_some hsum hbound hfill hf (fun v _ hv => (hall v hv).1) fun v hv _ _ => (hall v hv).2
  · have hfits : Fits fails R.mem.pgdir sz n ↔ 0 < (sz : ℤ) + n.toInt ∨ sz = 0 :=
      ⟨fun h => h.shrink hneg, fun h => ⟨fun hpos => by omega, fun _ => h⟩⟩
    rw [hfits, wp_bind]
    rcases lt_trichotomy 0 ((sz : ℤ) + n.toInt) with hs | hs | hs
    · -- the memory shrinks
      obtain ⟨hsum, hlt⟩ := sum_neg hsz hneg hs
      generalize (sz + n.toNat) % 2 ^ 32 = newsz at hsum hlt ⊢
      refine (wp_deallocuvm_exact h ht hfill hsz hlt).mono fun r T hT => ?_
      obtain ⟨rfl, htakes, hfill'⟩ := hT
      rw [wp_pure, if_neg (by omega)]
      refine ⟨iff_of_true (exact_some hsum (by omega) hfill hfill' (fun v hv hlt' => ?_) fun v _ hlo hhi => ?_) (.inl hs),
        fun p hp => htakes.other h hp⟩
      · rw [min_eq_right hlt.le] at hv
        exact htakes.same h hv hlt'
      · have := npages_mono hlt.le
        omega
    · -- it shrinks to nothing, which is reported as a failure
      have hzero := (sum_eq_zero hsz hneg).mpr hs.symm
      generalize (sz + n.toNat) % 2 ^ 32 = newsz at hzero ⊢
      subst hzero
      have hlt : 0 < sz := by omega
      refine (wp_deallocuvm_exact h ht hfill hsz hlt).mono fun r T hT => ?_
      obtain ⟨rfl, htakes, hfill'⟩ := hT
      rw [wp_pure, if_pos rfl]
      refine ⟨iff_of_false (fun hex => ?_) (by omega), fun p hp => htakes.other h hp⟩
      have hpages : 0 < NUPAGES := by decide
      have hmapped := (filled_entry hfill hpages).mpr (lt_npages.mpr (by omega))
      rw [← hex.1 0 hpages] at hmapped
      exact absurd ((filled_entry hfill' hpages).mp hmapped) (by decide)
    · -- the new size wraps around, and nothing happens
      unfold deallocuvm
      rw [if_pos (sum_wraps hsz hneg hs), wp_pure, wp_pure]
      refine ⟨?_, fun _ _ => rfl⟩
      split_ifs with hz
      · exact iff_of_true hkeep (.inr hz)
      · refine iff_of_false (fun hex => ?_) (by omega)
        have := hex.1
        omega
  · have hz : n.toInt = 0 := by omega
    refine ⟨iff_of_true ?_ ⟨fun hpos => by omega, fun hneg => by omega⟩, fun _ _ => rfl⟩
    exact exact_some (by omega) hsz hfill hfill (fun _ _ _ => .rfl) fun v hv hlo hhi => by omega

/-- **`sbrk` is exact and atomic** if the memory grows without a gap and does not shrink to nothing or less, and only
then; pages in other uses keep their bytes. -/
theorem growproc_exact (h : Sound rest R.mem) (ht : Tidy R.mem.pgdir) (hsz : sz < KERNBASE)
    (hfill : Filled (npages sz) R.mem.pgdir) :
    (∃ r T, growproc fails sz n R = .ok (r, T) ∧ Exact R sz n r T ∧ ∀ p, 0 < rest p → T.data p = R.data p) ↔
      Fits fails R.mem.pgdir sz n := by
  obtain ⟨r, T, hr, hexact, hother⟩ := (wp_growproc_exact fails n h ht hsz hfill).returns
  constructor
  · rintro ⟨r', T', hr', hexact', -⟩
    rw [hr] at hr'
    cases hr'
    exact hexact.mp hexact'
  · exact fun hfits => ⟨r, T, hr, hexact.mpr hfits, hother⟩

/-- The first process, with sevens in its page. -/
def booted : Ram := ⟨⟨(boot 256).kmem, (Proc.boot 256).pgdir, [fresh 256 66], []⟩, fun _ _ => 7⟩

theorem growproc_exact_page : ∃ r T, growproc [] PGSIZE 5000 booted = .ok (r, T) ∧ Exact booted PGSIZE 5000 r T ∧
    ∀ p, 0 < plus (fun _ => 0) (fresh 256 0) p → T.data p = booted.data p := by
  have hboot : Sound (plus (fun _ => 0) (fresh 256 0)) booted.mem ∧ Whole (npages PGSIZE) booted.mem.pgdir :=
    boot_sound (by decide)
  obtain ⟨hs, hw⟩ := hboot
  refine (growproc_exact hs hw.tidy (by simp [PGSIZE, KERNBASE]) hw.filled).mpr ⟨fun _ _ _ => ?_, fun hneg => ?_⟩
  · exact fun v _ _ _ => .inr ⟨v, le_rfl, by assumption, rfl, by simp⟩
  · simp at hneg

/-- A directory without user memory. -/
def bare : Ram := ⟨⟨⟨256, [], 66⟩, .boot 256, [], []⟩, fun _ _ => 7⟩

/-- **Three failures.** Shrinking to nothing returns -1 but the page is gone; shrinking below nothing returns 0 and
changes nothing; and without a page for the page table the memory grows by a page that is not mapped. -/
theorem growproc_inexact :
    (∃ T, growproc [] PGSIZE (-4096) booted = .ok (none, T) ∧ ¬ Exact booted PGSIZE (-4096) none T) ∧
    (∃ T, growproc [] PGSIZE (-8192) booted = .ok (some PGSIZE, T) ∧ ¬ Exact booted PGSIZE (-8192) (some PGSIZE) T) ∧
    ∃ T, growproc [.table 0] 0 4096 bare = .ok (some PGSIZE, T) ∧ ¬ Exact bare 0 4096 (some PGSIZE) T := by
  refine ⟨?_, ?_, ?_⟩
  · obtain ⟨r, T, heq, rfl, hentry⟩ := returns_of_toOption (m := growproc [] PGSIZE (-4096)) (s := booted)
      (Q := fun r T => r = none ∧ T.entry 0 ≠ booted.entry 0) (by decide +kernel)
    exact ⟨T, heq, fun h => hentry (h.1 0 (by simp [NUPAGES, KERNBASE, PGSIZE]))⟩
  · obtain ⟨r, T, heq, rfl⟩ := returns_of_toOption (m := growproc [] PGSIZE (-8192)) (s := booted)
      (Q := fun r _ => r = some PGSIZE) (by decide +kernel)
    exact ⟨T, heq, fun h => absurd h.1 (by decide)⟩
  · obtain ⟨r, T, heq, rfl, hentry⟩ := returns_of_toOption (m := growproc [.table 0] 0 4096) (s := bare)
      (Q := fun r T => r = some PGSIZE ∧ T.entry 0 = none) (by decide +kernel)
    refine ⟨T, heq, fun h => ?_⟩
    have := (h.2.2.1 0 (by simp [NUPAGES, KERNBASE, PGSIZE])).mpr (by simp [PGSIZE])
    simp [hentry] at this

end Bytes

end Xv6.Vm
