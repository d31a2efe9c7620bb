import Xv6.Paging.Copy

/-!
# `deallocuvm` and the loop without the skip

`deallocuvm` goes on 4 MB behind the address where it finds no page table. `plainDealloc` is the loop that looks at
every page.

- `wp_clearPage`, `wp_clearPages`: the plain loop frees the pages that are mapped, and unmaps them;
- `deallocFrom_eq`: the loop with the skip is the plain one if the skips pass over no mapped page;
- `deallocFrom_skip`: otherwise the loop goes on behind a mapped page.
-/

namespace Xv6.Paging

open Lib
open Vm (Frame PGSIZE NPTENTRIES KERNBASE PHYSTOP DEVSPACE pgroundup pgrounddown pdx)

variable {s t : State} {d a hi n : ℕ} {l : List ℕ} {E : Stop → Prop}

/-! ## The plain loop -/

/-- What the loop does at one address. -/
def clearPage (d : Frame) (a : ℕ) : Prog Unit := do
  let s ← get
  match s.walk d a with
  | none => pure ()
  | some (t, i) => unmap t i

/-- The `n` page addresses from `a` on. -/
def pagesFrom : ℕ → ℕ → List ℕ
  | 0, _ => []
  | n + 1, a => a :: pagesFrom n (a + PGSIZE)

/-- The number of page addresses from `a` on, up to but not including `hi`. -/
def pagesBelow (hi a : ℕ) : ℕ := (hi - a + (PGSIZE - 1)) / PGSIZE

/-- The page addresses from the end of a memory of `newsz` bytes up to but not including `oldsz`. -/
def pagesBetween (newsz oldsz : ℕ) : List ℕ := pagesFrom (pagesBelow oldsz (pgroundup newsz)) (pgroundup newsz)

/-- `deallocuvm` without the skip: a loop over all pages. -/
def plainDealloc (d : Frame) (oldsz newsz : ℕ) : Prog ℕ := do
  if oldsz ≤ newsz then return oldsz
  else
    (pagesBetween newsz oldsz).forM (clearPage d)
    return newsz

/-- The pages to which the addresses are mapped. -/
def State.targets (s : State) (d : Frame) (as : List ℕ) : List ℕ := as.filterMap fun a => (s.translate d a).map Prod.fst

/-- **The pages of a part of user memory**: they are mapped once, they are not free and not pages of the directory, and
`kfree` takes them. -/
structure Users (s : State) (l : List ℕ) (d : ℕ) (as : List ℕ) : Prop where
  good : Good s l d
  lt : ∀ a ∈ as, a < 2 ^ 32
  page : ∀ f ∈ s.targets d as, f ∉ l ∧ ¬ Part s d f ∧ s.first ≤ f ∧ 0 < f ∧ f * PGSIZE < PHYSTOP
  once : (s.targets d as).Nodup
  apart : as.Pairwise fun a b => a / PGSIZE ≠ b / PGSIZE

/-- The pages of the addresses are gone, and they are free. -/
structure Gone (s : State) (l : List ℕ) (d : ℕ) (as : List ℕ) (t : State) : Prop where
  good : Good t ((s.targets d as).reverse ++ l) d
  part : ∀ g, Part t d g ↔ Part s d g
  word : ∀ i, t.word d i = s.word d i
  translate : ∀ x < 2 ^ 32, t.translate d x = if ∃ a ∈ as, x / PGSIZE = a / PGSIZE then none else s.translate d x
  mem : ∀ g, g ∉ s.targets d as → ¬ Part s d g → t.mem g = s.mem g
  first : t.first = s.first

theorem translate_none_of_walk {va : ℕ} (h : s.walk d va = none) : s.translate d va = none := by
  rw [State.translate, State.entry, h]
  rfl

theorem translate_of_walk {va f i : ℕ} (h : s.walk d va = some (f, i)) :
    s.translate d va = if present (s.word f i) then some (frame (s.word f i), pteFlags (s.word f i)) else none := by
  rw [State.translate, entry_of_walk h]
  rfl

theorem wp_clearPage (h : Users s l d [a]) : wp (clearPage d a) (fun _ t => Gone s l d [a] t) E s := by
  have ha : a < 2 ^ 32 := h.lt a List.mem_cons_self
  -- nothing is done when nothing is mapped
  have hsame : s.translate d a = none → Gone s l d [a] s := by
    intro hnone
    have htargets : s.targets d [a] = [] := by simp [State.targets, hnone]
    refine ⟨by rw [htargets]; exact h.good, fun _ => Iff.rfl, fun _ => rfl, fun x hx => ?_, fun _ _ _ => rfl, rfl⟩
    split_ifs with hp
    · obtain ⟨b, hb, hp⟩ := hp
      rw [List.mem_singleton.mp hb] at hp
      rw [translate_page hp, hnone]
    · rfl
  unfold clearPage
  rw [wp_bind, wp_get]
  split
  · rename_i hw
    exact hsame (translate_none_of_walk hw)
  rename_i f i hw
  have htr := translate_of_walk hw
  unfold unmap
  rw [wp_bind, wp_get]
  split_ifs with hp hzero
  · -- the page is not page 0
    have hg := (h.page (frame (s.word f i)) (by simp [State.targets, htr, hp])).2.2.2.1
    exact absurd hg (by rw [frame, hzero]; decide)
  · generalize hgdef : frame (s.word f i) = g at htr ⊢
    rw [if_pos hp] at htr
    have htargets : s.targets d [a] = [g] := by simp [State.targets, htr]
    obtain ⟨hgl, hgp, hfirst, -, hrange⟩ := h.page g (by rw [htargets]; exact List.mem_cons_self)
    have hdg : d ≠ g := fun he => hgp (.inl he.symm)
    rw [wp_bind]
    refine wp_kfree h.good.free hgl hfirst hrange fun t ht hmem hfree => ?_
    rw [wp_bind, wp_get, wp_set]
    have hpart : ∀ x, Part t d x ↔ Part s d x := fun x => part_congr (hmem d hdg)
    have hgood : Good t (g :: l) d := by
      refine ⟨hfree, h.good.dir.congr (hmem d hdg), fun x hx hpx => ?_⟩
      rw [hpart] at hpx
      rcases List.mem_cons.mp hx with rfl | hx
      · exact hgp hpx
      · exact h.good.apart x hx hpx
    have hwt : t.walk d a = some (f, i) := by
      rw [State.walk, word_congr (hmem d hdg)]
      exact hw
    have hset : Grows (g :: l) d t (g :: l) (t.setWord f i 0) := hgood.setEntry ha hwt
    refine ⟨by rw [htargets]; exact hset.good, fun x => ?_, fun j => ?_, fun x hx => ?_, fun x hx hpx => ?_, ht⟩
    · rw [part_setEntry hgood.dir ha hwt, hpart]
    · rw [word_setEntry hgood.dir ha hwt, word_congr (hmem d hdg)]
    · rw [translate_setEntry hgood.dir ha hwt hx]
      simp only [List.mem_singleton, exists_eq_left]
      refine if_congr Iff.rfl rfl ?_
      exact translate_congr (fun y hy => hmem y fun he => hgp (he ▸ hy)) hx
    · rw [htargets, List.mem_singleton] at hx
      rw [mem_setWord_ne, hmem x hx]
      exact fun he => hpx (he ▸ part_of_walk hw ha)
  · rw [wp_pure]
    exact hsame (by rw [htr, if_neg hp])

theorem targets_cons (as : List ℕ) :
    s.targets d (a :: as) = ((s.translate d a).map Prod.fst).toList ++ s.targets d as := by
  unfold State.targets
  rw [List.filterMap_cons]
  cases (s.translate d a).map Prod.fst with
  | none => rfl
  | some f => rfl

theorem targets_singleton : s.targets d [a] = ((s.translate d a).map Prod.fst).toList := by
  rw [targets_cons]
  exact List.append_nil _

theorem Gone.targets {as : List ℕ} (h : Gone s l d [a] t) (hu : Users s l d (a :: as)) :
    t.targets d as = s.targets d as := by
  unfold State.targets
  refine List.filterMap_congr fun b hb => ?_
  rw [h.translate b (hu.lt b (List.mem_cons_of_mem _ hb)), if_neg]
  simp only [List.mem_singleton, exists_eq_left]
  exact fun he => (List.pairwise_cons.mp hu.apart).1 b hb he.symm

theorem Users.head {as : List ℕ} (h : Users s l d (a :: as)) : Users s l d [a] := by
  have hsub : s.targets d [a] ⊆ s.targets d (a :: as) := by
    rw [targets_singleton, targets_cons]
    exact List.subset_append_left _ _
  refine ⟨h.good, fun b hb => ?_, fun f hf => h.page f (hsub hf), ?_, List.pairwise_singleton _ _⟩
  · rw [List.mem_singleton.mp hb]
    exact h.lt a List.mem_cons_self
  · rw [targets_singleton]
    cases (s.translate d a).map Prod.fst <;> simp

theorem Users.tail {as : List ℕ} (h : Users s l d (a :: as)) (ht : Gone s l d [a] t) :
    Users t ((s.targets d [a]).reverse ++ l) d as := by
  have htargets := ht.targets h
  have honce := h.once
  rw [targets_cons, List.nodup_append] at honce
  refine ⟨ht.good, fun b hb => h.lt b (List.mem_cons_of_mem _ hb), fun f hf => ?_, ?_,
    (List.pairwise_cons.mp h.apart).2⟩
  · rw [htargets] at hf
    obtain ⟨h1, h2, h3, h4, h5⟩ := h.page f (by rw [targets_cons]; exact List.mem_append_right _ hf)
    refine ⟨?_, by rwa [ht.part], by rwa [ht.first], h4, h5⟩
    rw [List.mem_append, List.mem_reverse, targets_singleton]
    exact not_or.mpr ⟨fun hm => honce.2.2 f hm f hf rfl, h1⟩
  · rw [htargets]
    exact honce.2.1

theorem wp_clearPages : ∀ (as : List ℕ) (s : State) (l : List ℕ), Users s l d as →
    wp (as.forM (clearPage d)) (fun _ t => Gone s l d as t) E s
  | [], s, l, h => by
    refine ⟨h.good, fun _ => Iff.rfl, fun _ => rfl, fun x _ => ?_, fun _ _ _ => rfl, rfl⟩
    simp
  | a :: as, s, l, h => by
    show wp (clearPage d a >>= fun _ => as.forM (clearPage d)) _ E s
    rw [wp_bind]
    refine (wp_clearPage h.head).mono fun _ t ht => ?_
    have htargets := ht.targets h
    refine (wp_clearPages as t _ (h.tail ht)).mono fun _ u hu => ?_
    have hlist : (s.targets d (a :: as)).reverse ++ l =
        (t.targets d as).reverse ++ ((s.targets d [a]).reverse ++ l) := by
      rw [htargets, targets_cons, targets_singleton, List.reverse_append, List.append_assoc]
    refine ⟨by rw [hlist]; exact hu.good, fun g => (hu.part g).trans (ht.part g), fun i => (hu.word i).trans (ht.word i),
      fun x hx => ?_, fun g hg hp => ?_, hu.first.trans ht.first⟩
    · rw [hu.translate x hx, ht.translate x hx]
      have hone : (∃ b ∈ [a], x / PGSIZE = b / PGSIZE) ↔ x / PGSIZE = a / PGSIZE := by simp
      have hcons : (∃ b ∈ a :: as, x / PGSIZE = b / PGSIZE) ↔
          x / PGSIZE = a / PGSIZE ∨ ∃ b ∈ as, x / PGSIZE = b / PGSIZE := by simp
      simp only [hone, hcons]
      by_cases h1 : x / PGSIZE = a / PGSIZE
      · simp only [h1, true_or, if_true, ite_self]
      · simp only [h1, false_or, if_false]
    · rw [targets_cons, List.mem_append, not_or] at hg
      rw [hu.mem g (by rw [htargets]; exact hg.2) (by rwa [ht.part]), ht.mem g (by rw [targets_singleton]; exact hg.1) hp]

/-! ## The skip -/

/-- **The condition** on the mapped pages from `a` up to `hi`: if there is no page table from that of `a` up to the one of
the page, then the page lies in its 4 MB not in front of where `a` lies in its own. -/
def Starts (s : State) (d a hi : ℕ) : Prop :=
  ∀ x, x % PGSIZE = 0 → a ≤ x → x < hi → s.translate d x ≠ none →
    (∀ j, pdx a ≤ j → j < pdx x → present (s.word d j) = false) →
    pdx x = pdx a ∨ a % (NPTENTRIES * PGSIZE) ≤ x % (NPTENTRIES * PGSIZE)

theorem pagesFrom_succ (n a : ℕ) : pagesFrom (n + 1) a = a :: pagesFrom n (a + PGSIZE) := rfl

theorem clearPages_cons (as : List ℕ) :
    (a :: as).forM (clearPage d) s = (clearPage d a >>= fun _ => as.forM (clearPage d)) s := rfl

theorem pagesFrom_append (m n a : ℕ) : pagesFrom (m + n) a = pagesFrom m a ++ pagesFrom n (a + m * PGSIZE) := by
  induction m generalizing a with
  | zero => rw [Nat.zero_add, Nat.zero_mul]; rfl
  | succ m ih =>
    rw [Nat.succ_add, pagesFrom_succ, pagesFrom_succ, List.cons_append, ih, Nat.succ_mul, Nat.add_assoc,
      Nat.add_comm PGSIZE]

theorem mem_pagesFrom {m x : ℕ} : x ∈ pagesFrom m a ↔ a ≤ x ∧ x < a + m * PGSIZE ∧ x % PGSIZE = a % PGSIZE := by
  induction m generalizing a with
  | zero =>
    rw [Nat.zero_mul]
    exact ⟨nofun, fun h => by omega⟩
  | succ m ih =>
    rw [pagesFrom_succ, List.mem_cons, ih, Nat.succ_mul, Nat.add_mod_right]
    generalize m * PGSIZE = k
    simp only [PGSIZE]
    omega

theorem clearPages_absent (bs : List ℕ) : ∀ as : List ℕ, (∀ b ∈ as, s.translate d b = none) →
    (as ++ bs).forM (clearPage d) s = bs.forM (clearPage d) s
  | [], _ => rfl
  | b :: as, h => by
    have hb : clearPage d b s = .ok ((), s) := by
      refine wp.eq_ok ?_
      unfold clearPage
      rw [wp_bind, wp_get]
      split
      · exact ⟨rfl, rfl⟩
      · rename_i f i hw
        have hnone := h b List.mem_cons_self
        rw [translate_of_walk hw] at hnone
        unfold unmap
        rw [wp_bind, wp_get]
        split_ifs at hnone ⊢
        exact ⟨rfl, rfl⟩
    rw [List.cons_append, clearPages_cons, bind_of_ok hb]
    exact clearPages_absent bs as fun c hc => h c (List.mem_cons_of_mem _ hc)

theorem walk_pdx {b : ℕ} (hw : s.walk d a = none) (h : pdx b = pdx a) : s.walk d b = none := by
  rw [State.walk, h, walk_none hw]
  rfl

/-- Nothing is mapped in the 4 MB that a skip passes over. -/
theorem Starts.passed {b : ℕ} (h : Starts s d a hi) (hw : s.walk d a = none) (hb : b % PGSIZE = 0) (hab : a ≤ b)
    (hlt : b < a + NPTENTRIES * PGSIZE) (hhi : b < hi) : s.translate d b = none := by
  by_cases hpdx : pdx b = pdx a
  · exact translate_none_of_walk (walk_pdx hw hpdx)
  by_contra hne
  have hclose : ∀ j, pdx a ≤ j → j < pdx b → j = pdx a := by
    simp only [pdx, NPTENTRIES, PGSIZE] at hlt ⊢
    omega
  rcases h b hb hab hhi hne fun j h1 h2 => by rw [hclose j h1 h2]; exact walk_none hw with heq | hle
  · exact hpdx heq
  · simp only [pdx, NPTENTRIES, PGSIZE] at hpdx hlt hle
    omega

theorem pagesBelow_split (hi a n : ℕ) : pagesFrom (pagesBelow hi a) a =
    pagesFrom (min n (pagesBelow hi a)) a ++ pagesFrom (pagesBelow hi (a + n * PGSIZE)) (a + n * PGSIZE) := by
  by_cases hle : hi ≤ a + n * PGSIZE
  · have hmin : min n (pagesBelow hi a) = pagesBelow hi a := by
      simp only [pagesBelow, PGSIZE] at hle ⊢
      omega
    have hzero : pagesBelow hi (a + n * PGSIZE) = 0 := by
      simp only [pagesBelow, PGSIZE] at hle ⊢
      omega
    rw [hmin, hzero]
    exact (List.append_nil _).symm
  · have hmore : pagesBelow hi a = n + pagesBelow hi (a + n * PGSIZE) := by
      simp only [pagesBelow, PGSIZE] at hle ⊢
      omega
    rw [Nat.min_eq_left (by omega), ← pagesFrom_append, hmore]

theorem Starts.absent (ha : a % PGSIZE = 0) (hstart : Starts s d a hi) (hw : s.walk d a = none) :
    ∀ b ∈ pagesFrom (min NPTENTRIES (pagesBelow hi a)) a, s.translate d b = none := by
  intro b hb
  obtain ⟨h1, h2, h3⟩ := mem_pagesFrom.mp hb
  refine hstart.passed hw (h3.trans ha) h1 (h2.trans_le ?_) ?_
  · exact Nat.add_le_add_left (Nat.mul_le_mul_right _ (Nat.min_le_left _ _)) _
  · simp only [pagesBelow, PGSIZE] at h2 h3
    omega

theorem Users.right {xs ys : List ℕ} (h : Users s l d (xs ++ ys)) : Users s l d ys := by
  have happend : s.targets d (xs ++ ys) = s.targets d xs ++ s.targets d ys := List.filterMap_append ..
  have honce := h.once
  rw [happend, List.nodup_append] at honce
  exact ⟨h.good, fun a ha => h.lt a (List.mem_append_right _ ha),
    fun f hf => h.page f (by rw [happend]; exact List.mem_append_right _ hf), honce.2.1,
    (List.pairwise_append.mp h.apart).2.1⟩

theorem pagesBelow_pos (h : a < hi) : pagesBelow hi a = pagesBelow hi (a + PGSIZE) + 1 := by
  simp only [pagesBelow, PGSIZE]
  omega

theorem pagesBelow_skip_lt (h : a < hi) : pagesBelow hi (a + NPTENTRIES * PGSIZE) < pagesBelow hi a := by
  simp only [pagesBelow, NPTENTRIES, PGSIZE]
  omega

theorem skip_eq (h : a < 2 ^ 31) :
    ((a + (NPTENTRIES - 1) * PGSIZE) % 2 ^ 32 + PGSIZE) % 2 ^ 32 = a + NPTENTRIES * PGSIZE := by
  simp only [NPTENTRIES, PGSIZE]
  omega

theorem next_eq (h : a < 2 ^ 31) : (a + PGSIZE) % 2 ^ 32 = a + PGSIZE := by
  simp only [PGSIZE]
  omega

theorem Starts.of_table (h : present (s.word d (pdx a)) = true) : Starts s d a hi := by
  intro x _ hax _ _ habsent
  by_cases hlt : pdx a < pdx x
  · have hfalse := habsent (pdx a) le_rfl hlt
    rw [h] at hfalse
    cases hfalse
  · have hle : pdx a ≤ pdx x := Nat.div_le_div_right hax
    exact .inl (by omega)

theorem Starts.next {i : ℕ} (hw : s.walk d a = some (i, n)) (ha : a % PGSIZE = 0)
    (hword : ∀ j, t.word d j = s.word d j) : Starts t d (a + PGSIZE) hi := by
  by_cases hnext : (a + PGSIZE) % (NPTENTRIES * PGSIZE) = 0
  · exact fun x _ _ _ _ _ => .inr (by rw [hnext]; exact Nat.zero_le _)
  · refine .of_table ?_
    have hpdx : pdx (a + PGSIZE) = pdx a := by
      simp only [pdx, NPTENTRIES, PGSIZE] at ha hnext ⊢
      omega
    rw [hpdx, hword]
    exact (walk_some hw).1

theorem pdx_skip : pdx (a + NPTENTRIES * PGSIZE) = pdx a + 1 := by
  simp only [pdx, NPTENTRIES, PGSIZE]
  omega

theorem Starts.skip (h : Starts s d a hi) (hw : s.walk d a = none) : Starts s d (a + NPTENTRIES * PGSIZE) hi := by
  intro x hx hax hhi hmapped habsent
  rw [pdx_skip] at habsent
  refine .inr ?_
  rw [Nat.add_mod_right]
  have hfar : pdx a < pdx x := by
    have hle := Nat.div_le_div_right (c := PGSIZE * NPTENTRIES) hax
    simp only [pdx, NPTENTRIES, PGSIZE] at hax ⊢
    omega
  refine (h x hx ((Nat.le_add_right _ _).trans hax) hhi hmapped fun j h1 h2 => ?_).resolve_left hfar.ne'
  rcases h1.eq_or_lt with rfl | hlt
  · exact walk_none hw
  · exact habsent j hlt h2

/-- **The loop with the skip is the plain one.** -/
theorem deallocFrom_eq (hhi : hi ≤ 2 ^ 31) : ∀ (fuel a : ℕ) (s : State) (l : List ℕ), a % PGSIZE = 0 →
    Starts s d a hi → Users s l d (pagesFrom (pagesBelow hi a) a) → pagesBelow hi a < fuel →
    deallocFrom d hi fuel a s = (pagesFrom (pagesBelow hi a) a).forM (clearPage d) s := by
  intro fuel
  induction fuel with
  | zero => intro a s l _ _ _ h; omega
  | succ fuel ih =>
    intro a s l ha hstart hu hfuel
    have hget : ∀ g : State → Prog Unit, ((get : Prog State) >>= g) s = g s s := fun _ => rfl
    unfold deallocFrom
    by_cases hlt : a < hi
    · have hsmall : a < 2 ^ 31 := lt_of_lt_of_le hlt hhi
      rw [if_pos hlt, hget]
      cases hw : s.walk d a with
      | none =>
        -- nothing is mapped up to the address of the next round
        have hless := pagesBelow_skip_lt hlt
        rw [pagesBelow_split hi a NPTENTRIES] at hu ⊢
        rw [clearPages_absent _ _ (hstart.absent ha hw)]
        show deallocFrom d hi fuel _ s = _
        rw [skip_eq hsmall]
        refine ih _ s l ?_ (hstart.skip hw) hu.right (by omega)
        rw [Nat.add_mul_mod_self_right]
        exact ha
      | some q =>
        obtain ⟨f, i⟩ := q
        have hpages := pagesBelow_pos hlt
        rw [hpages, pagesFrom_succ] at hu
        rw [hpages, pagesFrom_succ, clearPages_cons]
        obtain ⟨⟨⟩, t, hrun, ht⟩ := (wp_clearPage hu.head).returns
        have hunmap : unmap f i s = .ok ((), t) := by
          rw [← hrun, clearPage, hget, hw]
        have hrest := ih (a + PGSIZE) t _ (by rwa [Nat.add_mod_right]) (.next hw ha ht.word) (hu.tail ht) (by omega)
        rw [bind_of_ok hrun, ← hrest]
        show (unmap f i >>= fun _ => deallocFrom d hi fuel ((a + PGSIZE) % 2 ^ 32)) s = _
        rw [bind_of_ok hunmap, next_eq hsmall]
    · rw [if_neg hlt]
      have hzero : pagesBelow hi a = 0 := by
        simp only [pagesBelow, PGSIZE]
        omega
      rw [hzero]
      rfl

theorem mem_pagesBetween {newsz oldsz : ℕ} :
    a ∈ pagesBetween newsz oldsz ↔ a % PGSIZE = 0 ∧ pgroundup newsz ≤ a ∧ a < oldsz := by
  rw [pagesBetween, mem_pagesFrom]
  simp only [pagesBelow, pgroundup, PGSIZE]
  omega

theorem in_pagesBetween {newsz oldsz x : ℕ} : (∃ a ∈ pagesBetween newsz oldsz, x / PGSIZE = a / PGSIZE) ↔
    pgroundup newsz ≤ x ∧ pgrounddown x < oldsz := by
  simp only [mem_pagesBetween]
  constructor
  · rintro ⟨a, ⟨h1, h2, h3⟩, h4⟩
    simp only [pgroundup, pgrounddown, PGSIZE] at h1 h2 h4 ⊢
    omega
  · rintro ⟨h1, h2⟩
    refine ⟨pgrounddown x, ⟨?_, ?_, h2⟩, ?_⟩ <;> simp only [pgroundup, pgrounddown, PGSIZE] at h1 ⊢ <;> omega

/-- **The skips**: while there is no page table, every round goes on by 4 MB. -/
theorem deallocFrom_skip (hhi : hi ≤ 2 ^ 31) (fuel : ℕ) : ∀ k a : ℕ,
    (∀ i < k, a + i * (NPTENTRIES * PGSIZE) < hi ∧ present (s.word d (pdx a + i)) = false) →
    deallocFrom d hi (fuel + k) a s = deallocFrom d hi fuel (a + k * (NPTENTRIES * PGSIZE)) s := by
  intro k
  induction k with
  | zero =>
    intro a _
    rw [Nat.zero_mul]
    rfl
  | succ k ih =>
    intro a h
    obtain ⟨hlt, habsent⟩ := h 0 (Nat.succ_pos k)
    rw [Nat.zero_mul, Nat.add_zero] at hlt
    have hw : s.walk d a = none := if_neg (by rw [show pdx a = pdx a + 0 from rfl, habsent]; exact Bool.false_ne_true)
    have hround : deallocFrom d hi (fuel + k + 1) a s = deallocFrom d hi (fuel + k) (a + NPTENTRIES * PGSIZE) s := by
      conv => lhs; unfold deallocFrom
      rw [if_pos hlt]
      show (match s.walk d a with | none => _ | some (t, i) => _ : Prog Unit) s = _
      rw [hw, skip_eq (hlt.trans_le hhi)]
    rw [← Nat.add_assoc, hround, ih, Nat.succ_mul k, Nat.add_assoc, Nat.add_comm (NPTENTRIES * PGSIZE)]
    intro i hi'
    obtain ⟨h1, h2⟩ := h (i + 1) (by omega)
    rw [Nat.succ_mul] at h1
    rw [pdx_skip, show pdx a + 1 + i = pdx a + (i + 1) by omega]
    exact ⟨by omega, h2⟩

/-- **Where the condition fails** the loop leaves a mapped page behind. -/
theorem deallocFrom_misses (hold : hi ≤ KERNBASE) (ha : a % PGSIZE = 0)
    (hu : Users s l d (pagesFrom (pagesBelow hi a) a)) (h : ¬ Starts s d a hi) :
    ∃ x t, a ≤ x ∧ x < hi ∧ deallocFrom d hi (NPAGES + 1) a s = .ok ((), t) ∧ t.translate d x ≠ none := by
  unfold Starts at h
  push Not at h
  obtain ⟨x, hx, hax, hxhi, hmapped, habsent, hpdx, hplace⟩ := h
  have hle : pdx a ≤ pdx x := Nat.div_le_div_right hax
  -- the round that comes to the table of `x` starts behind `x`
  obtain ⟨k, hk⟩ : ∃ k, pdx x = pdx a + k := ⟨pdx x - pdx a, by omega⟩
  have hbelow : ∀ i < k, a + i * (NPTENTRIES * PGSIZE) < hi := by
    intro i hi'
    simp only [pdx, NPTENTRIES, PGSIZE] at hk hplace ⊢
    omega
  have hbehind : x < a + k * (NPTENTRIES * PGSIZE) ∧ pdx (a + k * (NPTENTRIES * PGSIZE)) = pdx x := by
    simp only [pdx, NPTENTRIES, PGSIZE] at hk hplace ⊢
    omega
  have hkfuel : k ≤ NPAGES := by
    simp only [KERNBASE, pdx, NPTENTRIES, PGSIZE, NPAGES] at hold hk ⊢
    omega
  have hskip := deallocFrom_skip (s := s) (d := d) hold (NPAGES + 1 - k) k a fun i hi' =>
    ⟨hbelow i hi', habsent _ (Nat.le_add_right _ _) (by omega)⟩
  rw [show NPAGES + 1 - k + k = NPAGES + 1 by omega] at hskip
  have htable : present (s.word d (pdx (a + k * (NPTENTRIES * PGSIZE)))) = true := by
    rw [hbehind.2]
    by_contra hno
    refine hmapped (translate_none_of_walk ?_)
    exact if_neg hno
  rw [pagesBelow_split hi a (k * NPTENTRIES), Nat.mul_assoc] at hu
  have haligned : (a + k * (NPTENTRIES * PGSIZE)) % PGSIZE = 0 := by
    rw [← Nat.mul_assoc, Nat.add_mul_mod_self_right]
    exact ha
  have hfew : pagesBelow hi (a + k * (NPTENTRIES * PGSIZE)) < NPAGES + 1 - k := by
    simp only [KERNBASE] at hold
    simp only [pagesBelow, pdx, NPTENTRIES, PGSIZE, NPAGES] at hk ⊢
    omega
  have hplain := deallocFrom_eq hold (NPAGES + 1 - k) _ s l haligned (.of_table htable) hu.right hfew
  obtain ⟨⟨⟩, t, hrun, ht⟩ := (wp_clearPages _ s l hu.right).returns
  refine ⟨x, t, hax, hxhi, hskip.trans (hplain.trans hrun), ?_⟩
  rw [ht.translate x (hxhi.trans_le (hold.trans (by decide))), if_neg]
  · exact hmapped
  · rintro ⟨b, hb, hsame⟩
    have hle' := (mem_pagesFrom.mp hb).1
    have hdiv := Nat.div_le_div_right (c := PGSIZE) hle'
    have hbefore := hbehind.1
    simp only [PGSIZE] at hx haligned hsame hdiv hbefore
    omega

/-- **What `deallocuvm` should do**: it does the same as the loop over all pages, which returns, frees the mapped pages from
`newsz` up to `oldsz`, each once, and unmaps them; nothing else changes. -/
structure Deallocates (s : State) (l : List ℕ) (d oldsz newsz : ℕ) : Prop where
  plain : deallocuvm d oldsz newsz s = plainDealloc d oldsz newsz s
  exact : ∃ t, deallocuvm d oldsz newsz s = .ok (newsz, t) ∧
    Free t ((s.targets d (pagesBetween newsz oldsz)).reverse ++ l) ∧
    (∀ x < 2 ^ 32, t.translate d x =
      if pgroundup newsz ≤ x ∧ pgrounddown x < oldsz then none else s.translate d x) ∧
    ∀ g, g ∉ s.targets d (pagesBetween newsz oldsz) → ¬ Part s d g → t.mem g = s.mem g

/-- **`deallocuvm` is the page-by-page loop** exactly if its skips pass over no mapped page. -/
theorem deallocuvm_exact_iff {newsz oldsz : ℕ} (hlt : newsz < oldsz) (hold : oldsz ≤ KERNBASE)
    (hu : Users s l d (pagesBetween newsz oldsz)) :
    Deallocates s l d oldsz newsz ↔ Starts s d (pgroundup newsz) oldsz := by
  have halign : pgroundup newsz % PGSIZE = 0 := by
    simp only [pgroundup, PGSIZE]
    omega
  have hdealloc {t : State} (h : deallocFrom d oldsz (NPAGES + 1) (pgroundup newsz) s = .ok ((), t)) :
      deallocuvm d oldsz newsz s = .ok (newsz, t) := by
    rw [deallocuvm, if_neg (not_le.mpr hlt), bind_of_ok h]
    rfl
  constructor
  · rintro ⟨-, t, ht, -, htranslate, -⟩
    by_contra hstart
    obtain ⟨x, t', hle, hxhi, hrun, hleft⟩ := deallocFrom_misses hold halign hu hstart
    rw [hdealloc hrun] at ht
    obtain rfl := (Prod.ext_iff.mp (Except.ok.inj ht)).2
    refine hleft ?_
    rw [htranslate x (hxhi.trans_le (hold.trans (by decide))), if_pos]
    refine ⟨hle, lt_of_le_of_lt ?_ hxhi⟩
    simp only [pgrounddown, PGSIZE]
    omega
  · intro hstart
    have hfuel : pagesBelow oldsz (pgroundup newsz) < NPAGES + 1 := by
      simp only [KERNBASE] at hold
      simp only [pagesBelow, NPAGES, PGSIZE]
      omega
    have hloop := deallocFrom_eq hold (NPAGES + 1) _ s l halign hstart hu hfuel
    obtain ⟨⟨⟩, t, hrun, ht⟩ := (wp_clearPages _ s l hu).returns
    have hplain : plainDealloc d oldsz newsz s = .ok (newsz, t) := by
      rw [plainDealloc, if_neg (not_le.mpr hlt), bind_of_ok hrun]
      rfl
    have hrun' := hdealloc (hloop.trans hrun)
    refine ⟨hrun'.trans hplain.symm, t, hrun', ht.good.free, fun x hx => ?_, ht.mem⟩
    rw [ht.translate x hx]
    exact if_congr in_pagesBetween rfl rfl

theorem users_family : Users family (List.range' 100 1100) 10 (pagesBetween 0 PGSIZE) := by
  have htargets : family.targets 10 (pagesBetween 0 PGSIZE) = [12] := by decide +kernel
  refine ⟨⟨free_pool _ (by decide), ⟨fun i _ hp => ?_, fun i _ j _ hi hj _ => ?_⟩, fun f hf hp => ?_⟩, by decide +kernel,
    fun f hf => ?_, ?_, by decide +kernel⟩
  · rw [(word_family hp).2]
    decide
  · rw [(word_family hi).1, (word_family hj).1]
  · rw [List.mem_range'_1] at hf
    rcases part_family hp with rfl | rfl <;> omega
  · rw [htargets, List.mem_singleton] at hf
    subst hf
    refine ⟨by simp [List.mem_range'_1], fun hp => ?_, by decide, by decide, by decide⟩
    rcases part_family hp with h | h <;> cases h
  · rw [htargets]
    exact List.nodup_singleton _

/-- The page of a process is freed. -/
theorem deallocuvm_exact_family : ∃ t, deallocuvm 10 PGSIZE 0 family = .ok (0, t) ∧ t.freelist = some 12 ∧
    t.translate 10 0 = none := by
  obtain ⟨-, t, hrun, hfree, htranslate, -⟩ := (deallocuvm_exact_iff (by decide) (by decide) users_family).mpr
    fun x _ _ _ _ _ => .inr (Nat.zero_le _)
  refine ⟨t, hrun, ?_, htranslate 0 (by decide)⟩
  have htargets : family.targets 10 (pagesBetween 0 PGSIZE) = [12] := by decide +kernel
  have hchain := hfree.chain
  rw [htargets] at hchain
  exact hchain.1

/-- Page 10 is a directory, 11 its page table for the second 4 MB and 12 the page at 4 MB; nothing is below. -/
def sparse : State :=
  pool (fun f => if f = 10 then overlay (fun _ => 0) 4 4 (byte (pte (11 * PGSIZE) 6)) else
    if f = 11 then wordPage (pte (12 * PGSIZE) 6) else fun _ => 0) 100 1

/-- What is left at 4 MB, and the first free page. -/
def leaves (r : Except Stop (ℕ × State)) : Option (ℕ × Option (ℕ × ℕ) × Option ℕ) :=
  match r with
  | .ok (n, t) => some (n, t.translate 10 0x400000, t.freelist)
  | .error _ => none

/-- The skip from the second page of the missing table leads behind the page at 4 MB, which stays. -/
theorem deallocuvm_skips : leaves (deallocuvm 10 0x402000 0x1000 sparse) = some (0x1000, some (12, 7), some 100) ∧
    leaves (plainDealloc 10 0x402000 0x1000 sparse) = some (0x1000, none, some 12) := by
  decide +kernel

end Xv6.Paging
