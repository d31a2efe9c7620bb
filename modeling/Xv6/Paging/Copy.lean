import Xv6.Paging.Map

/-!
# `copyuvm`

The directory of a child is built from pages of the free list only, so that nothing of the parent changes. `Copied` is
the invariant of the loop: the pages so far have the bytes and the flags of the parent's, each is a page of its own that
was free, and the rest of the directory is as `setupkvm` has made it.
-/

namespace Xv6.Paging

open Lib
open Vm (Frame PGSIZE NPTENTRIES KERNBASE PHYSTOP DEVSPACE pgroundup pgrounddown pdx)

variable {s s₀ t u : State} {d parent sz data i : ℕ} {l l₀ l' : List ℕ} {E : Stop → Prop}

theorem or_one {x : ℕ} (h : x % 2 = 1) : x ||| 1 = x := by
  apply Nat.eq_of_testBit_eq
  intro i
  rw [Nat.testBit_or]
  cases i with
  | zero => simp [h]
  | succ i => simp [Nat.testBit_one_eq_true_iff_self_eq_zero]

/-- The user memory of the parent: every page below the size is mapped, and no page of it is free. -/
structure Parent (s : State) (l : List ℕ) (p sz : ℕ) : Prop where
  present : ∀ a < sz, s.translate p a ≠ none
  part : ∀ g, Part s p g → g ∉ l
  page : ∀ a < sz, ∀ f fl, s.translate p a = some (f, fl) → f ∉ l

/-- **The state of the copy** up to the address `i`: the pages come from `l₀`, of which `l` is left. -/
structure Copied (s₀ : State) (l₀ : List ℕ) (p : ℕ) (u : State) (d i : ℕ) (l : List ℕ) (s : State) : Prop where
  good : Good s l d
  fails : s₀.fails = [] → s.fails = []
  count : NPTENTRIES + 1 + l.length + i / PGSIZE = missing s d + l₀.length
  sub : l ⊆ l₀
  part : ∀ g, Part s d g → g ∈ l₀
  mem : ∀ g ∉ l₀, s.mem g = s₀.mem g
  page : ∀ a < i, ∃ f g fl, s₀.translate p a = some (f, fl) ∧ s.translate d a = some (g, fl) ∧
    s.mem g = s₀.mem f ∧ g ∈ l₀ ∧ g ∉ l ∧ ¬ Part s d g
  inj : ∀ a < i, ∀ b < i, ∀ g x y, s.translate d a = some (g, x) → s.translate d b = some (g, y) →
    a / PGSIZE = b / PGSIZE
  rest : ∀ a < 2 ^ 32, i ≤ a → s.translate d a = u.translate d a

theorem translate_walk {va f fl : ℕ} (h : s.translate d va = some (f, fl)) :
    ∃ t i, s.walk d va = some (t, i) ∧ present (s.word t i) = true ∧ frame (s.word t i) = f ∧
      pteFlags (s.word t i) = fl := by
  unfold State.translate State.entry at h
  cases hw : s.walk d va with
  | none => simp [hw] at h
  | some q =>
    simp only [hw, Option.map_some, Option.bind_some] at h
    split_ifs at h with hp
    obtain ⟨rfl, rfl⟩ := by simpa using h
    exact ⟨q.1, q.2, rfl, hp, rfl, rfl⟩

/-- A page from the free list is filled with bytes; the directory does not see it. -/
structure Filled (s : State) (d g : ℕ) (m : ℕ → Byte) (l' : List ℕ) (v : State) : Prop where
  good : Good v l' d
  fails : s.fails = [] → v.fails = []
  missing : missing v d = missing s d
  part : ∀ x, Part v d x ↔ Part s d x
  translate : ∀ a < 2 ^ 32, v.translate d a = s.translate d a
  here : v.mem g = m
  other : ∀ x, x ≠ g → v.mem x = s.mem x

theorem Good.fill {g : ℕ} (h : Good s (g :: l') d) (hb : Beside s t) (hf : Free t l') (m : ℕ → Byte) :
    Filled s d g m l' (t.setPage g m) := by
  have hg : ¬ Part s d g := h.apart g List.mem_cons_self
  have hother : ∀ x, x ≠ g → (t.setPage g m).mem x = s.mem x := fun x hx => by rw [mem_setPage_ne hx, hb.page x]
  have hpart : ∀ x, Part (t.setPage g m) d x ↔ Part s d x := fun x =>
    part_congr (hother d fun he => hg (.inl he.symm))
  have hnotin : g ∉ l' := (List.nodup_cons.mp h.free.nodup).1
  refine ⟨⟨hf.congr rfl fun x hx => mem_setPage_ne fun he => hnotin (he ▸ hx),
    h.dir.congr (hother d fun he => hg (.inl he.symm)), fun x hx hp => ?_⟩, hb.fails,
    missing_congr (hother d fun he => hg (.inl he.symm)), hpart,
    fun a ha => translate_congr (fun x hx => hother x fun he => hg (he ▸ hx)) ha, mem_setPage_self, hother⟩
  exact h.apart x (List.mem_cons_of_mem _ hx) ((hpart x).mp hp)

theorem Copied.next {f g fl : ℕ} {l'' : List ℕ} {v w : State} (h : Copied s₀ l₀ parent u d i (g :: l') s)
    (hparent : s₀.translate parent (i) = some (f, fl)) (hodd : fl % 2 = 1) (hi : i % PGSIZE = 0) (hk : i < 2 ^ 31)
    (hv : Filled s d g (s₀.mem f) l' v) (hw : Grows l' d v l'' w)
    (hmap : Mapped v d (i) (i) (g * PGSIZE) fl w) : Copied s₀ l₀ parent u d (i + PGSIZE) l'' w := by
  have hg : g ∈ g :: l' := List.mem_cons_self
  have hgl : g ∉ l' := (List.nodup_cons.mp h.good.free.nodup).1
  have hgp : ¬ Part s d g := h.good.apart g hg
  have hrange : g < 2 ^ 16 := h.good.free.lt hg
  -- a page that is neither free nor of the directory keeps its bytes
  have hmem : ∀ x, x ∉ l' → ¬ Part s d x → w.mem x = v.mem x := fun x hx hp =>
    hw.mem x hx fun hp' => hp ((hv.part x).mp hp')
  have hnotpart : ∀ x, x ∉ l' → ¬ Part s d x → ¬ Part w d x := fun x hx hp hp' =>
    (hw.part x hp').elim (fun hq => hp ((hv.part x).mp hq)) fun hq => hx hq.1
  have hold : ∀ a < 2 ^ 32, ¬ (i ≤ a ∧ a < i + PGSIZE) → w.translate d a = s.translate d a := by
    intro a ha hout
    rw [hmap a ha, if_neg hout, hv.translate a ha]
  have hnew : ∀ a, i ≤ a → a < i + PGSIZE → w.translate d a = some (g, fl) := by
    intro a ha ha'
    have hvalue : (g * PGSIZE + (pgrounddown a - i)) % 2 ^ 32 / PGSIZE = g := by
      simp only [pgrounddown, PGSIZE] at *
      omega
    rw [hmap a (by simp only [PGSIZE] at *; omega), if_pos ⟨ha, ha'⟩, hvalue, or_one hodd]
  have hcount : NPTENTRIES + 1 + l''.length + (i + PGSIZE) / PGSIZE = missing w d + l₀.length := by
    have h1 := h.count
    have h2 := hw.count
    rw [hv.missing] at h2
    rw [Nat.add_div_right i (by decide)]
    rw [List.length_cons] at h1
    omega
  refine ⟨hw.good, fun he => hw.fails (hv.fails (h.fails he)), hcount,
    fun x hx => h.sub (List.mem_cons_of_mem _ (hw.subset hx)), fun x hx => ?_, fun x hx => ?_, ?_, ?_, ?_⟩
  · rcases hw.part x hx with hp | ⟨hl, -⟩
    · exact h.part x ((hv.part x).mp hp)
    · exact h.sub (List.mem_cons_of_mem _ hl)
  · have hxg : x ≠ g := fun he => hx (he ▸ h.sub hg)
    rw [hmem x (fun hl => hx (h.sub (List.mem_cons_of_mem _ hl))) fun hp => hx (h.part x hp), hv.other x hxg, h.mem x hx]
  · intro a ha
    by_cases hak : a < i
    · obtain ⟨f', g', fl', h1, h2, h3, h4, h5, h6⟩ := h.page a hak
      have hgl' : g' ∉ l' := fun hl => h5 (List.mem_cons_of_mem _ hl)
      refine ⟨f', g', fl', h1, ?_, ?_, h4, fun hl => hgl' (hw.subset hl), hnotpart g' hgl' h6⟩
      · rw [hold a (by omega) (by omega), h2]
      · rw [hmem g' hgl' h6, hv.other g' fun he => h5 (he ▸ hg), h3]
    · refine ⟨f, g, fl, ?_, hnew a (by omega) (by omega), ?_, h.sub hg, fun hl => hgl (hw.subset hl), hnotpart g hgl hgp⟩
      · rw [← hparent]
        refine translate_page ?_
        simp only [PGSIZE] at *
        omega
      · rw [hmem g hgl hgp, hv.here]
  · -- the new page is none of the earlier ones
    have hne : ∀ a < i, ∀ x y, w.translate d a = some (g, x) → a / PGSIZE = y / PGSIZE := by
      intro a ha x y hx
      rw [hold a (by omega) (by omega)] at hx
      obtain ⟨f', g', fl', h1, h2, h3, h4, h5, h6⟩ := h.page a ha
      rw [h2] at hx
      obtain ⟨rfl, -⟩ := by simpa using hx
      exact absurd hg h5
    intro a ha b hb g' x y hx hy
    by_cases hak : a < i
    · by_cases hbk : b < i
      · rw [hold a (by omega) (by omega)] at hx
        rw [hold b (by omega) (by omega)] at hy
        exact h.inj a hak b hbk g' x y hx hy
      · rw [hnew b (by omega) (by omega)] at hy
        obtain ⟨rfl, -⟩ := by simpa using hy
        exact hne a hak x b hx
    · rw [hnew a (by omega) (by omega)] at hx
      obtain ⟨rfl, -⟩ := by simpa using hx
      by_cases hbk : b < i
      · exact (hne b hbk y a hy).symm
      · simp only [PGSIZE] at *
        omega
  · intro a ha hka
    rw [hold a ha (by omega)]
    exact h.rest a ha (by omega)

theorem page_lt {g : ℕ} (h : g < 2 ^ 16) : g * PGSIZE < 2 ^ 32 := by
  simp only [PGSIZE]
  omega

theorem Copied.parent_word (h : Copied s₀ l₀ parent u d i l s) (hp : Parent s₀ l₀ parent sz) {a : ℕ} (ha : a < 2 ^ 32) :
    s.translate parent a = s₀.translate parent a :=
  translate_congr (fun g hg => h.mem g (hp.part g hg)) ha

theorem wp_of_forall {α : Type} {m : Prog α} {Q : α → State → Prop} (hQ : ∀ a t, Q a t) (hE : ∀ e, E e) :
    wp m Q E s := by
  unfold wp
  split
  · exact hQ _ _
  · exact hE _

/-- No call of `kalloc` fails, and there are pages for the directory, all page tables and the memory. -/
def Enough (s : State) (l : List ℕ) (sz : ℕ) : Prop :=
  s.fails = [] ∧ NPTENTRIES + 1 + pgroundup sz / PGSIZE ≤ l.length

/-- What `copyuvm` ends with: the directory `d` with the whole copy, or nothing if there were not enough pages. -/
def Copies (s₀ : State) (l₀ : List ℕ) (parent sz : ℕ) (u : State) (d : ℕ) (r : Option ℕ) (t : State) : Prop :=
  match r with
  | none => ¬ Enough s₀ l₀ sz
  | some d' => d' = d ∧ ∃ n l', sz ≤ n ∧ n < sz + PGSIZE ∧ n % PGSIZE = 0 ∧ Copied s₀ l₀ parent u d n l' t

theorem wp_copyFrom (hp : Parent s₀ l₀ parent sz) (hsz : sz < KERNBASE)
    (hempty : ∀ a < KERNBASE, u.translate d a = none) :
    ∀ (fuel i : ℕ) (s : State) (l : List ℕ), Copied s₀ l₀ parent u d i l s → i % PGSIZE = 0 → i < sz + PGSIZE →
      sz ≤ i + (fuel - 1) * 4096 → 0 < fuel →
      wp (copyFrom parent d sz fuel i) (Copies s₀ l₀ parent sz u d)
        (fun _ => ¬ Enough s₀ l₀ sz) s := by
  intro fuel
  induction fuel with
  | zero => intro i s l _ _ _ _ h; omega
  | succ fuel ih =>
    intro i s l h hmod hk hfuel _
    -- what is copied so far is freed, and there were not enough pages
    have hbad : ∀ v : State, ¬ Enough s₀ l₀ sz →
        wp (do freevm d; return none) (Copies s₀ l₀ parent sz u d)
          (fun _ => ¬ Enough s₀ l₀ sz) v := by
      intro v hfew
      rw [wp_bind]
      exact wp_of_forall (fun _ _ => hfew) fun _ => hfew
    unfold copyFrom
    by_cases hlt : i < sz
    · have hklt : i < 2 ^ 31 := by
        simp only [KERNBASE] at hsz
        omega
      have hnext : (i + PGSIZE) % 2 ^ 32 = i + PGSIZE := Nat.mod_eq_of_lt (by simp only [PGSIZE]; omega)
      have hleft : i / PGSIZE < pgroundup sz / PGSIZE := by
        simp only [pgroundup, KERNBASE, PGSIZE] at hmod hsz ⊢
        omega
      obtain ⟨⟨f, fl⟩, htr⟩ := Option.ne_none_iff_exists'.mp (hp.present _ hlt)
      have hsame := htr
      rw [← h.parent_word hp (by omega)] at hsame
      obtain ⟨t, j, hw, hpr, hfr, hfl⟩ := translate_walk hsame
      rw [if_pos hlt, wp_bind, wp_get, hw]
      simp only [hpr, not_true_eq_false, if_false]
      rw [wp_bind]
      refine wp_kalloc h.good.free (fun v _ _ hnil => hbad v fun hmany => ?_) fun g l' v hl hb hfree => ?_
      · obtain ⟨he, hle⟩ := hmany
        have hcount := h.count
        rw [hnil (h.fails he), List.length_nil] at hcount
        omega
      subst hl
      have hodd : fl % 2 = 1 := by
        rw [present_iff] at hpr
        rw [← hfl, pteFlags]
        simp only [PGSIZE]
        omega
      have hfill := h.good.fill hb hfree (s₀.mem f)
      have hbytes : v.mem (frame (s.word t j)) = s₀.mem f := by
        rw [hb.page, hfr, h.mem f (hp.page _ hlt f fl htr)]
      have hvac : Vacant (v.setPage g (s₀.mem f)) d (pgrounddown i) (pgrounddown (i + PGSIZE - 1)) := by
        intro x hx hx'
        have hx1 : i ≤ x ∧ x < KERNBASE := by
          simp only [pgrounddown, PGSIZE, KERNBASE] at *
          omega
        have hx2 : x < 2 ^ 32 := by
          simp only [KERNBASE] at hx1
          omega
        rw [hfill.translate x hx2, h.rest x hx2 hx1.1]
        exact hempty x hx1.2
      rw [wp_bind, wp_modify, hbytes, hfl, wp_bind]
      have hflt : fl < PGSIZE := by
        rw [← hfl]
        exact Nat.mod_lt _ (by decide)
      have hglt : g * PGSIZE < 2 ^ 32 := page_lt (h.good.free.lt List.mem_cons_self)
      refine (wp_mappages hfill.good (by decide) (by simp only [PGSIZE]; omega) (Nat.mul_mod_left _ _) hglt hflt
        hvac).mono fun ok w hmapped => ?_
      obtain ⟨l'', hgrow, hmap, hfew⟩ := hmapped
      split_ifs with hok
      · have hdown : pgrounddown i = i ∧ pgrounddown (i + PGSIZE - 1) = i := by
          simp only [pgrounddown, PGSIZE] at hmod ⊢
          omega
        have hmap' := hmap hok
        rw [hdown.1, hdown.2] at hmap'
        rw [hnext]
        refine ih (i + PGSIZE) w l'' (h.next htr hodd hmod hklt hfill hgrow hmap') ?_ (by omega) ?_ ?_
        · rw [Nat.add_mod_right, hmod]
        · simp only [PGSIZE]
          omega
        · omega
      · refine hbad w fun hmany => ?_
        obtain ⟨he, hle⟩ := hmany
        have hcount := h.count
        have hlen := hfew (Bool.eq_false_iff.mpr hok) (hfill.fails (h.fails he))
        rw [hfill.missing] at hlen
        rw [List.length_cons] at hcount
        omega
    · rw [if_neg hlt, wp_pure]
      exact ⟨rfl, i, l, by omega, hk, hmod, h⟩

theorem kmap_low {a : ℕ} (hdata : Linked data) (ha : a < KERNBASE) : ∀ k ∈ kmap data, ¬ k.Covers a := by
  have hlow := hdata.low
  intro k hk hc
  have hvirt : KERNBASE ≤ k.virt := by
    simp only [kmap, List.mem_cons, List.not_mem_nil, or_false] at hk
    rcases hk with rfl | rfl | rfl | rfl
    · exact le_rfl
    · exact Nat.le_add_right _ _
    · exact (Nat.le_add_right _ _).trans hlow.le
    · simp only [KERNBASE, DEVSPACE]
      omega
  exact absurd (hvirt.trans hc.1) (not_le.mpr ha)

/-- **`copyuvm` copies the memory of the parent**: every byte and every page's flags; the pages of the copy were free and
are all different, nothing of the parent has changed, and the kernel part of the new directory is that of `setupkvm`. It
succeeds when there are enough free pages. -/
theorem copyuvm_exact {p : ℕ} (hfree : Free s l) (hdata : Linked data) (hp : Parent s l p sz) (hsz : sz < KERNBASE) :
    (Enough s l sz → ∃ d t, copyuvm data p sz s = .ok (some d, t)) ∧
    ∀ d t, copyuvm data p sz s = .ok (some d, t) →
      (∀ a < pgroundup sz, ∃ f g fl, s.translate p a = some (f, fl) ∧ t.translate d a = some (g, fl) ∧
        t.mem g (a % PGSIZE) = s.mem f (a % PGSIZE) ∧ g ∈ l) ∧
      (∀ a < pgroundup sz, ∀ b < pgroundup sz, ∀ g x y, t.translate d a = some (g, x) → t.translate d b = some (g, y) →
        a / PGSIZE = b / PGSIZE) ∧
      (∀ a < 2 ^ 32, t.translate p a = s.translate p a) ∧ (∀ g ∉ l, t.mem g = s.mem g) ∧
      ∃ u, setupkvm data s = .ok (some d, u) ∧ ∀ a < 2 ^ 32, KERNBASE ≤ a → t.translate d a = u.translate d a := by
  have hset := wp_setupkvm (E := fun _ => False) (Q := fun r u => match r with
    | none => ¬ Enough s l sz
    | some d => ∃ l', Kernel data s l d l' u) hfree hdata
    (fun _ hfew he => absurd (hfew he.1) (not_lt.mpr ((Nat.le_add_right _ _).trans he.2))) fun d l' u hk => ⟨l', hk⟩
  obtain ⟨r, u, hrun, hr⟩ := hset.returns
  cases r with
  | none =>
    have hcopy : copyuvm data p sz s = .ok (none, u) := by
      unfold copyuvm
      exact wp.eq_ok (by rw [wp_bind, wp_of_ok hrun]; exact ⟨rfl, rfl⟩)
    refine ⟨fun he => absurd he hr, fun d t h => ?_⟩
    rw [hcopy] at h
    cases h
  | some d =>
    obtain ⟨l', hk⟩ := hr
    have hstart : Copied s l p u d 0 l' u := by
      refine ⟨hk.good, hk.fails, hk.count, hk.sub, fun g hg => (hk.part g hg).1, hk.mem, nofun, nofun, fun _ _ _ => rfl⟩
    have hloop := wp_copyFrom hp hsz (fun a ha => hk.other a (by simp only [KERNBASE] at ha; omega) (kmap_low hdata ha))
      (NPAGES + 1) 0 u l' hstart rfl (by simp only [PGSIZE]; omega)
      (by simp only [NPAGES, PGSIZE, KERNBASE] at hsz ⊢; omega) (Nat.succ_pos _)
    have hcopy : wp (copyuvm data p sz) (Copies s l p sz u d) (fun _ => ¬ Enough s l sz) s := by
      unfold copyuvm
      rw [wp_bind, wp_of_ok hrun]
      exact hloop
    constructor
    · intro he
      obtain ⟨r, t, h, hr⟩ := (hcopy.imp (fun _ _ h => h) fun _ h => h he).returns
      cases r with
      | none => exact absurd he hr
      | some d' => exact ⟨d', t, h⟩
    · intro d' t h
      obtain ⟨rfl, n, l'', hn, hnlt, hnmod, hc⟩ := hcopy.ok h
      have hround : pgroundup sz ≤ n := by
        simp only [pgroundup, KERNBASE, PGSIZE] at hsz hnmod ⊢
        omega
      refine ⟨fun a ha => ?_, fun a ha b hb => hc.inj a (by omega) b (by omega), fun a ha => hc.parent_word hp ha, hc.mem,
        u, hrun, fun a ha hka => ?_⟩
      · obtain ⟨f, g, fl, h1, h2, h3, h4, -⟩ := hc.page a (by omega)
        exact ⟨f, g, fl, h1, h2, by rw [h3], h4⟩
      · refine hc.rest a ha (le_trans ?_ hka)
        simp only [KERNBASE, PGSIZE] at hsz hnlt hnmod ⊢
        omega

/-- A page whose first word is `w`. -/
def wordPage (w : Word) : ℕ → Byte := overlay (fun _ => 0) 0 4 (byte w)

/-- Page 10 is the directory of a process, 11 its page table and 12 its memory; the pages from 100 on are free. -/
def family : State :=
  pool (fun f => if f = 10 then wordPage (pte (11 * PGSIZE) 6) else if f = 11 then wordPage (pte (12 * PGSIZE) 6)
    else fun _ => 42) 100 1100

theorem word_family {i : ℕ} (h : present (family.word 10 i)) : i = 0 ∧ frame (family.word 10 i) = 11 := by
  by_cases h0 : i = 0
  · subst h0
    exact ⟨rfl, by decide +kernel⟩
  · have hword : family.word 10 i = 0 := by
      rw [State.word, family, mem_pool (by decide)]
      exact (word32_congr fun k _ => overlay_out (.inr (by omega))).trans word32_zero
    rw [hword] at h
    cases h

theorem part_family {g : ℕ} (h : Part family 10 g) : g = 10 ∨ g = 11 := by
  rcases h with rfl | ⟨i, -, hi, rfl⟩
  · exact .inl rfl
  · exact .inr (word_family hi).2

theorem parent_family : Parent family (List.range' 100 1100) 10 PGSIZE := by
  have hfirst : family.translate 10 0 = some (12, 7) := by decide +kernel
  have hall : ∀ a < PGSIZE, family.translate 10 a = some (12, 7) := fun a ha => by
    rw [← hfirst]
    refine translate_page ?_
    simp only [PGSIZE] at ha ⊢
    omega
  refine ⟨fun a ha => ?_, fun g hg => ?_, fun a ha f fl h => ?_⟩
  · rw [hall a ha]
    exact nofun
  · rcases part_family hg with rfl | rfl <;> simp [List.mem_range'_1]
  · rw [hall a ha] at h
    cases h
    simp [List.mem_range'_1]

/-- A process with one page is copied. -/
theorem copyuvm_exact_family : ∃ d t g, copyuvm 0x80108000 10 PGSIZE family = .ok (some d, t) ∧
    t.translate d 0 = some (g, 7) ∧ t.mem g 0 = 42 ∧ g ≠ 12 ∧ t.mem 12 = family.mem 12 := by
  have hfree : Free family (List.range' 100 1100) := free_pool _ (by decide)
  have hdata : Linked 0x80108000 := ⟨rfl, by decide, by decide⟩
  obtain ⟨hrun, hall⟩ := copyuvm_exact hfree hdata parent_family (by decide)
  obtain ⟨d, t, h⟩ := hrun ⟨rfl, by rw [List.length_range']; decide⟩
  obtain ⟨hbytes, -, -, hsame, -⟩ := hall d t h
  obtain ⟨f, g, fl, h1, h2, h3, h4⟩ := hbytes 0 (by decide)
  have hfirst : family.translate 10 0 = some (12, 7) := by decide +kernel
  rw [hfirst] at h1
  cases h1
  rw [List.mem_range'_1] at h4
  refine ⟨d, t, g, h, h2, ?_, by omega, hsame 12 (by simp [List.mem_range'_1])⟩
  exact h3.trans (by decide +kernel)

end Xv6.Paging
