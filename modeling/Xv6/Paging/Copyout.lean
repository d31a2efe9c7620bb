import Xv6.Paging.Copy

/-!
# `copyout`

`copyout` writes page by page; the addresses behind `2 ^ 32 - 1` are those from 0 on. `uva2ka` reads the entry of an
address through the pointer that `walkpgdir` returns, so an address without a page table makes it read at address 0.
-/

namespace Xv6.Paging

open Lib
open Vm (Frame PGSIZE NPTENTRIES KERNBASE PHYSTOP pgroundup pgrounddown)

variable {s t : State} {d va n k : ℕ} {buf : List Byte} {ok : Bool} {E : Stop → Prop}

/-- The page of a user address: present and with `PTE_U`. -/
def State.userPage (s : State) (d va : ℕ) : Option ℕ :=
  (s.entry d va).bind fun e => if present e ∧ user e then some (frame e) else none

/-- The address `i` bytes behind `va`. -/
def behind (va i : ℕ) : ℕ := (va + i) % 2 ^ 32

/-- The user pages among the `n` addresses from `va` on are pages of memory that are mapped once and do not belong to the
directory. -/
structure Apart (s : State) (d va n : ℕ) : Prop where
  page : ∀ i < n, ∀ f, s.userPage d (behind va i) = some f → ¬ Part s d f ∧ f * PGSIZE < PHYSTOP
  once : ∀ i < n, ∀ j < n, ∀ f, s.userPage d (behind va i) = some f → s.userPage d (behind va j) = some f →
    behind va i / PGSIZE = behind va j / PGSIZE

/-- **The condition** on the `n` addresses from `va` on: up to and including the first one that is not in a user page, they
have page tables. -/
def Tables (s : State) (d va n : ℕ) : Prop :=
  ∀ i < n, (∀ j < i, s.userPage d (behind va j) ≠ none) → s.entry d (behind va i) ≠ none

/-- **What `copyout` does**: it succeeds if all pages are user pages, and then the bytes are there; it writes at no other
place. -/
structure Wrote (s : State) (d va : ℕ) (buf : List Byte) (ok : Bool) (t : State) : Prop where
  ok_iff : ok = true ↔ ∀ i < buf.length, s.userPage d (behind va i) ≠ none
  bytes : ok = true → ∀ i < buf.length, ∀ f, s.userPage d (behind va i) = some f →
    t.mem f (behind va i % PGSIZE) = buf.getD i 0
  frame : ∀ g o, (∀ i < buf.length, s.userPage d (behind va i) = some g → behind va i % PGSIZE ≠ o) →
    t.mem g o = s.mem g o
  rest : t = { s with mem := t.mem }

/-! ## Addresses -/

theorem behind_lt (va i : ℕ) : behind va i < 2 ^ 32 := Nat.mod_lt _ (by decide)

theorem behind_add (va k i : ℕ) : behind (behind va k) i = behind va (k + i) := by
  rw [behind, behind, behind, Nat.mod_add_mod, Nat.add_assoc]

theorem behind_inj {i j : ℕ} (hi : i < 2 ^ 32) (hj : j < 2 ^ 32) (h : behind va i = behind va j) : i = j := by
  simp only [behind] at h
  omega

theorem userPage_page {a b : ℕ} (h : a / PGSIZE = b / PGSIZE) : s.userPage d a = s.userPage d b := by
  rw [State.userPage, State.userPage, entry_page h]

theorem userPage_congr (hm : ∀ g, Part s d g → t.mem g = s.mem g) {a : ℕ} (ha : a < 2 ^ 32) :
    t.userPage d a = s.userPage d a := by
  rw [State.userPage, State.userPage, entry_congr hm ha]

/-! ## One page -/

/-- The number of bytes that go to the first page. -/
def chunk (va n : ℕ) : ℕ := min (PGSIZE - (va - pgrounddown va)) n

theorem chunk_le : chunk va n ≤ n := Nat.min_le_right _ _

theorem offset_eq (va : ℕ) : va - pgrounddown va = va % PGSIZE := by
  simp only [pgrounddown, PGSIZE]
  omega

theorem behind_chunk {i : ℕ} (hva : va < 2 ^ 32) (hi : i < chunk va n) :
    behind va i = va + i ∧ (va + i) / PGSIZE = va / PGSIZE ∧ (va + i) % PGSIZE = va % PGSIZE + i := by
  simp only [chunk, offset_eq, behind, PGSIZE] at hi ⊢
  omega

theorem behind_next (hn : chunk va n < n) : behind va (chunk va n) = (pgrounddown va + PGSIZE) % 2 ^ 32 := by
  have hchunk : chunk va n = PGSIZE - va % PGSIZE := by
    rw [chunk, offset_eq] at hn ⊢
    omega
  have hsum : va + (PGSIZE - va % PGSIZE) = pgrounddown va + PGSIZE := by
    simp only [pgrounddown, PGSIZE]
    omega
  rw [behind, hchunk, hsum]

theorem wp_uva2ka (htable : s.entry d va ≠ none)
    (hpage : ∀ f, s.userPage d va = some f → f * PGSIZE < PHYSTOP) :
    wp (uva2ka d va) (fun r t => t = s ∧ r = s.userPage d va) E s := by
  unfold uva2ka
  rw [wp_bind, wp_get]
  split
  · rename_i hw
    rw [State.entry, hw] at htable
    exact absurd rfl htable
  · rename_i f i hw
    rw [wp_pure]
    refine ⟨rfl, ?_⟩
    rw [State.userPage, entry_of_walk hw] at hpage ⊢
    simp only [Option.bind_some] at hpage ⊢
    split_ifs at hpage ⊢ with hu
    · exact v2p_p2v fun g hg => hpage g hg
    · rfl

/-- The memory with the bytes of one page written. -/
def State.fill (s : State) (f va : ℕ) (buf : List Byte) : State :=
  s.setPage f (overlay (s.mem f) (va - pgrounddown va) (chunk va buf.length) fun i => buf.getD i 0)

theorem fill_ne {f g : ℕ} (h : g ≠ f) : (s.fill f va buf).mem g = s.mem g := mem_setPage_ne h

theorem fill_at {f i : ℕ} (hva : va < 2 ^ 32) (hi : i < chunk va buf.length) :
    (s.fill f va buf).mem f (behind va i % PGSIZE) = buf.getD i 0 := by
  obtain ⟨h1, -, h3⟩ := behind_chunk hva hi
  rw [State.fill, mem_setPage_self, h1, h3, offset_eq]
  exact overlay_at hi

theorem fill_out {f g o : ℕ} (hva : va < 2 ^ 32) (h : ∀ i < chunk va buf.length, g = f → behind va i % PGSIZE ≠ o) :
    (s.fill f va buf).mem g o = s.mem g o := by
  by_cases hg : g = f
  · subst hg
    rw [State.fill, mem_setPage_self, overlay, if_neg]
    rintro ⟨h1, h2⟩
    rw [offset_eq] at h1 h2
    have hi : o - va % PGSIZE < chunk va buf.length := by omega
    obtain ⟨h3, -, h4⟩ := behind_chunk hva hi
    refine h _ hi rfl ?_
    rw [h3, h4]
    omega
  · rw [fill_ne hg]

theorem Apart.first {f : ℕ} (buf : List Byte) (h : Apart s d va n) (hva : va < 2 ^ 32) (hn : 0 < n) (hf : s.userPage d va = some f) :
    ∀ g, Part s d g → (s.fill f va buf).mem g = s.mem g := by
  intro g hg
  have hzero : behind va 0 = va := Nat.mod_eq_of_lt hva
  refine fill_ne fun he => ?_
  exact (h.page 0 hn f (by rw [hzero]; exact hf)).1 (he ▸ hg)

theorem Apart.next (h : Apart s d va n) (hm : ∀ g, Part s d g → t.mem g = s.mem g) :
    Apart t d (behind va k) (n - k) := by
  have hpart : ∀ g, Part t d g ↔ Part s d g := fun g => part_congr (hm d (.inl rfl))
  constructor
  · intro i hi f hf
    rw [userPage_congr hm (behind_lt _ _), behind_add] at hf
    rw [hpart]
    exact h.page (k + i) (by omega) f hf
  · intro i hi j hj f hif hjf
    rw [userPage_congr hm (behind_lt _ _), behind_add] at hif hjf
    rw [behind_add, behind_add]
    exact h.once (k + i) (by omega) (k + j) (by omega) f hif hjf

/-- The addresses of the first page. -/
theorem userPage_chunk {f i : ℕ} (hva : va < 2 ^ 32) (hf : s.userPage d va = some f) (hi : i < chunk va n) :
    s.userPage d (behind va i) = some f := by
  obtain ⟨h1, h2, -⟩ := behind_chunk hva hi
  rw [h1, userPage_page h2, hf]

/-- The condition is one on the rest when the first page is a user page. -/
theorem tables_next {f : ℕ} (hva : va < 2 ^ 32) (hf : s.userPage d va = some f)
    (hm : ∀ g, Part s d g → t.mem g = s.mem g) :
    Tables t d (behind va (chunk va n)) (n - chunk va n) ↔ Tables s d va n := by
  have huser : ∀ j, t.userPage d (behind (behind va (chunk va n)) j) = s.userPage d (behind va (chunk va n + j)) := by
    intro j
    rw [userPage_congr hm (behind_lt _ _), behind_add]
  constructor
  · intro h i hi hbefore
    by_cases hlt : i < chunk va n
    · intro hnone
      have hpage := userPage_chunk hva hf hlt
      rw [State.userPage, hnone] at hpage
      cases hpage
    · obtain ⟨j, rfl⟩ : ∃ j, i = chunk va n + j := ⟨i - chunk va n, by omega⟩
      have hrest := h j (by omega) fun k hk => by
        rw [huser]
        exact hbefore _ (by omega)
      rwa [entry_congr hm (behind_lt _ _), behind_add] at hrest
  · intro h j hj hbefore
    rw [entry_congr hm (behind_lt _ _), behind_add]
    refine h _ (by omega) fun i hi => ?_
    by_cases hlt : i < chunk va n
    · rw [userPage_chunk hva hf hlt]
      exact nofun
    · obtain ⟨k, rfl⟩ : ∃ k, i = chunk va n + k := ⟨i - chunk va n, by omega⟩
      rw [← huser]
      exact hbefore k (by omega)

/-- **A page, and then the rest.** -/
theorem Wrote.cons {f va' : ℕ} (h : Apart s d va buf.length) (hva : va < 2 ^ 32) (hlen : buf.length < 2 ^ 32)
    (hn : 0 < buf.length) (hf : s.userPage d va = some f)
    (hnext : chunk va buf.length < buf.length → va' = behind va (chunk va buf.length))
    (hw : Wrote (s.fill f va buf) d va' (buf.drop (chunk va buf.length)) ok t) : Wrote s d va buf ok t := by
  have hm := h.first buf hva hn hf
  have hlast : ∀ j < (buf.drop (chunk va buf.length)).length, chunk va buf.length + j < buf.length ∧
      behind va' j = behind va (chunk va buf.length + j) := by
    intro j hj
    rw [List.length_drop] at hj
    rw [hnext (by omega), behind_add]
    exact ⟨by omega, rfl⟩
  have hsame : ∀ j, (s.fill f va buf).userPage d (behind va' j) = s.userPage d (behind va' j) := fun j =>
    userPage_congr hm (behind_lt _ _)
  have hin : ∀ i < chunk va buf.length, s.userPage d (behind va i) = some f := fun i hi => userPage_chunk hva hf hi
  -- an index is one of the first page or one of the rest
  have hsplit : ∀ i < buf.length, i < chunk va buf.length ∨
      ∃ j < (buf.drop (chunk va buf.length)).length, i = chunk va buf.length + j := by
    intro i hi
    rw [List.length_drop]
    by_cases hlt : i < chunk va buf.length
    · exact .inl hlt
    · exact .inr ⟨i - chunk va buf.length, by omega, by omega⟩
  refine ⟨?_, fun hok i hi g hg => ?_, fun g o hout => ?_, ?_⟩
  · rw [hw.ok_iff]
    constructor
    · intro hall i hi
      rcases hsplit i hi with hlt | ⟨j, hj, rfl⟩
      · rw [hin i hlt]
        exact nofun
      · rw [← (hlast j hj).2, ← hsame]
        exact hall j hj
    · intro hall j hj
      rw [hsame, (hlast j hj).2]
      exact hall _ (hlast j hj).1
  · rcases hsplit i hi with hlt | ⟨j, hj, rfl⟩
    · obtain rfl : f = g := Option.some.inj ((hin i hlt).symm.trans hg)
      rw [← fill_at (s := s) (f := f) hva hlt]
      refine hw.frame _ _ fun j hj hjf heq => ?_
      obtain ⟨hlt', hbehind⟩ := hlast j hj
      rw [hsame, hbehind] at hjf
      rw [hbehind] at heq
      have hpage := h.once _ hi _ hlt' f hg hjf
      have haddr : behind va i = behind va (chunk va buf.length + j) := by
        rw [← Nat.div_add_mod (behind va i) PGSIZE, hpage, ← heq, Nat.div_add_mod]
      have := behind_inj (by omega) (by omega) haddr
      omega
    · obtain ⟨-, hbehind⟩ := hlast j hj
      rw [← hbehind] at hg ⊢
      rw [hw.bytes hok j hj g (by rw [hsame]; exact hg), List.getD_eq_getElem?_getD, List.getElem?_drop,
        List.getD_eq_getElem?_getD]
  · rw [hw.frame g o fun j hj hj' => ?_]
    · refine fill_out hva fun i hi hgf => hout i (hi.trans_le chunk_le) ?_
      rw [hin i hi, hgf]
    · obtain ⟨hlt, hbehind⟩ := hlast j hj
      rw [hsame, hbehind] at hj'
      rw [hbehind]
      exact hout _ hlt hj'
  · rw [hw.rest]
    rfl

theorem Wrote.nil : Wrote s d va [] true s :=
  ⟨⟨fun _ _ hi => absurd hi (Nat.not_lt_zero _), fun _ => rfl⟩, fun _ _ hi => absurd hi (Nat.not_lt_zero _), fun _ _ _ => rfl,
    rfl⟩

/-- The number of pages that `n` bytes from `va` on can touch. -/
def rounds (va n : ℕ) : ℕ := (va % PGSIZE + n + (PGSIZE - 1)) / PGSIZE

theorem rounds_next (hn : 0 < n) : rounds ((pgrounddown va + PGSIZE) % 2 ^ 32) (n - chunk va n) < rounds va n := by
  rw [rounds, rounds, chunk, offset_eq]
  simp only [pgrounddown, PGSIZE]
  omega

/-- The first round, and then the rest. -/
theorem copyoutFrom_succ {fuel f : ℕ} (h : Apart s d va buf.length) (hva : va < 2 ^ 32) (hn : 0 < buf.length)
    (hf : s.userPage d va = some f) : copyoutFrom d (fuel + 1) va buf s =
      copyoutFrom d fuel ((pgrounddown va + PGSIZE) % 2 ^ 32) (buf.drop (chunk va buf.length)) (s.fill f va buf) := by
  have hpage : pgrounddown va / PGSIZE = va / PGSIZE := Nat.mul_div_cancel _ (by decide)
  have hzero : behind va 0 = va := Nat.mod_eq_of_lt hva
  have hentry : s.entry d (pgrounddown va) ≠ none := by
    rw [entry_page hpage]
    intro hnone
    rw [State.userPage, hnone] at hf
    cases hf
  have huva : uva2ka d (pgrounddown va) s = .ok (some f, s) := by
    refine wp.eq_ok ((wp_uva2ka hentry fun g hg => ?_).mono fun r t hr => ?_)
    · rw [userPage_page hpage, ← hzero] at hg
      exact (h.page 0 hn g hg).2
    · rw [userPage_page hpage, hf] at hr
      exact ⟨hr.2, hr.1⟩
  conv => lhs; unfold copyoutFrom
  rw [if_pos hn, bind_of_ok huva]
  rfl

/-- The rest of the buffer and its place. -/
theorem rest_of_copyout {fuel f : ℕ} (h : Apart s d va buf.length) (hva : va < 2 ^ 32) (hn : 0 < buf.length)
    (hf : s.userPage d va = some f) (hfuel : rounds va buf.length < fuel + 1) :
    rounds ((pgrounddown va + PGSIZE) % 2 ^ 32) (buf.drop (chunk va buf.length)).length < fuel ∧
      Apart (s.fill f va buf) d ((pgrounddown va + PGSIZE) % 2 ^ 32) (buf.drop (chunk va buf.length)).length ∧
      (Tables (s.fill f va buf) d ((pgrounddown va + PGSIZE) % 2 ^ 32) (buf.drop (chunk va buf.length)).length ↔
        Tables s d va buf.length) := by
  have hm := h.first buf hva hn hf
  rw [List.length_drop]
  refine ⟨lt_of_lt_of_le (rounds_next hn) (Nat.le_of_lt_succ hfuel), ?_⟩
  by_cases hlt : chunk va buf.length < buf.length
  · rw [← behind_next hlt]
    exact ⟨h.next hm, tables_next hva hf hm⟩
  · rw [← tables_next (n := buf.length) hva hf hm, Nat.sub_eq_zero_of_le (not_lt.mp hlt)]
    exact ⟨⟨nofun, nofun⟩, iff_of_true nofun nofun⟩

theorem wp_copyoutFrom : ∀ (fuel va : ℕ) (buf : List Byte) (s : State), va < 2 ^ 32 → buf.length < 2 ^ 32 →
    rounds va buf.length < fuel → Apart s d va buf.length → Tables s d va buf.length →
    wp (copyoutFrom d fuel va buf) (Wrote s d va buf) E s := by
  intro fuel
  induction fuel with
  | zero => intro va buf s _ _ hfuel; omega
  | succ fuel ih =>
    intro va buf s hva hlen hfuel h htables
    by_cases hn : 0 < buf.length
    · have hzero : behind va 0 = va := Nat.mod_eq_of_lt hva
      have hpage : pgrounddown va / PGSIZE = va / PGSIZE := Nat.mul_div_cancel _ (by decide)
      cases hf : s.userPage d va with
      | none =>
        have hentry : s.entry d (pgrounddown va) ≠ none := by
          rw [entry_page hpage, ← hzero]
          exact htables 0 hn nofun
        unfold copyoutFrom
        rw [if_pos hn, wp_bind]
        refine (wp_uva2ka hentry fun f hf' => ?_).mono ?_
        · rw [userPage_page hpage, hf] at hf'
          cases hf'
        · rintro r t ⟨rfl, rfl⟩
          rw [userPage_page hpage, hf]
          refine ⟨⟨nofun, fun hall => absurd ?_ (hall 0 hn)⟩, nofun, fun _ _ _ => rfl, rfl⟩
          rw [hzero, hf]
      | some f =>
        obtain ⟨hrounds, hapart, hiff⟩ := rest_of_copyout h hva hn hf hfuel
        have hrest := ih _ (buf.drop (chunk va buf.length)) _ (Nat.mod_lt _ (by decide))
          (by rw [List.length_drop]; omega) hrounds hapart (hiff.mpr htables)
        unfold wp at hrest ⊢
        rw [copyoutFrom_succ h hva hn hf]
        exact wp.mono hrest fun ok u hu => hu.cons h hva hlen hn hf fun hlt => (behind_next hlt).symm
    · obtain rfl : buf = [] := List.eq_nil_of_length_eq_zero (by omega)
      unfold copyoutFrom
      rw [if_neg hn]
      exact .nil

/-- **A missing page table that is reached** makes `copyout` read through the null pointer. -/
theorem copyoutFrom_null : ∀ (fuel va : ℕ) (buf : List Byte) (s : State), va < 2 ^ 32 →
    rounds va buf.length < fuel → Apart s d va buf.length → ¬ Tables s d va buf.length →
    copyoutFrom d fuel va buf s = .error .nullPte := by
  intro fuel
  induction fuel with
  | zero => intro va buf s _ hfuel; omega
  | succ fuel ih =>
    intro va buf s hva hfuel h hnot
    have hn : 0 < buf.length := by
      by_contra hzero
      exact hnot fun i hi => absurd hi (by omega)
    cases hf : s.userPage d va with
    | some f =>
      obtain ⟨hrounds, hapart, hiff⟩ := rest_of_copyout h hva hn hf hfuel
      rw [copyoutFrom_succ h hva hn hf]
      exact ih _ _ _ (Nat.mod_lt _ (by decide)) hrounds hapart fun ht => hnot (hiff.mp ht)
    | none =>
      -- the first address is the last one that is looked at
      have hzero : behind va 0 = va := Nat.mod_eq_of_lt hva
      have hentry : s.entry d va = none := by
        by_contra hne
        refine hnot fun i _ hbefore => ?_
        cases i with
        | zero => rwa [hzero]
        | succ i => exact absurd (by rw [hzero, hf]) (hbefore 0 (Nat.succ_pos i))
      have hpage : pgrounddown va / PGSIZE = va / PGSIZE := Nat.mul_div_cancel _ (by decide)
      rw [← entry_page hpage, State.entry, Option.map_eq_none_iff] at hentry
      refine wp.eq_error ?_
      unfold copyoutFrom
      rw [if_pos hn, wp_bind]
      unfold uva2ka
      rw [wp_bind, wp_get, hentry]
      exact wp_throw.mpr rfl

/-- **What `copyout` should do**: return, with success exactly when all the pages are present and user pages, and then the
bytes of the buffer are there and nothing else has changed; otherwise it has written to such pages only. -/
def CopiesOut (s : State) (d va : ℕ) (buf : List Byte) : Prop :=
  ∃ ok t, copyout d va buf s = .ok (ok, t) ∧ Wrote s d va buf ok t ∧
    ∀ g, (∀ i < buf.length, s.userPage d (behind va i) ≠ some g) → t.mem g = s.mem g

/-- **`copyout` is exact** exactly if every address that it comes to has a page table. -/
theorem copyout_exact_iff (hva : va < 2 ^ 32) (hlen : buf.length < 2 ^ 32) (h : Apart s d va buf.length) :
    CopiesOut s d va buf ↔ Tables s d va buf.length := by
  have hrounds : rounds va buf.length < NPAGES + 2 := by
    simp only [rounds, NPAGES, PGSIZE]
    omega
  constructor
  · rintro ⟨ok, t, hrun, -⟩
    by_contra hnot
    have hnull : copyout d va buf s = .error .nullPte := copyoutFrom_null (NPAGES + 2) va buf s hva hrounds h hnot
    rw [hnull] at hrun
    cases hrun
  · intro htables
    obtain ⟨ok, t, hrun, hw⟩ := (wp_copyoutFrom (NPAGES + 2) va buf s hva hlen hrounds h htables).returns
    exact ⟨ok, t, hrun, hw, fun g hg => funext fun o => hw.frame g o fun i hi hu => absurd hu (hg i hi)⟩

theorem apart_family (va n : ℕ) (hp : ∀ i < n, ∀ f ∈ family.userPage 10 (behind va i), f = 12 ∧ behind va i / PGSIZE = 0) :
    Apart family 10 va n := by
  refine ⟨fun i hi f hf => ?_, fun i hi j hj f hif hjf => ?_⟩
  · obtain ⟨rfl, -⟩ := hp i hi f hf
    refine ⟨fun h => ?_, by decide⟩
    rcases part_family h with h | h <;> cases h
  · rw [(hp i hi f hif).2, (hp j hj f hjf).2]

/-- Two bytes go to the page of a process; and one byte in front of its end and one behind it do not. -/
theorem copyout_exact_family : (∃ t, copyout 10 8 [1, 2] family = .ok (true, t) ∧ t.mem 12 8 = 1 ∧ t.mem 12 9 = 2 ∧
    t.mem 12 10 = 42) ∧ ∃ t, copyout 10 4095 [1, 2] family = .ok (false, t) := by
  have htables : ∀ i < 2, family.entry 10 (behind 8 i) ≠ none ∧ family.entry 10 (behind 4095 i) ≠ none := by
    decide +kernel
  obtain ⟨ok, t, hrun, hw, -⟩ : CopiesOut family 10 8 [1, 2] := (copyout_exact_iff (by decide) (by decide)
    (apart_family 8 2 (by decide +kernel))).mpr fun i hi _ => (htables i hi).1
  obtain ⟨ok', t', hrun', hw', -⟩ : CopiesOut family 10 4095 [1, 2] := (copyout_exact_iff (by decide) (by decide)
    (apart_family 4095 2 (by decide +kernel))).mpr fun i hi _ => (htables i hi).2
  have hall : ∀ i < 2, family.userPage 10 (behind 8 i) = some 12 := by decide +kernel
  obtain rfl : ok = true := hw.ok_iff.mpr fun i hi => by rw [hall i hi]; exact nofun
  obtain rfl : ok' = false := by
    refine Bool.eq_false_iff.mpr fun hok => hw'.ok_iff.mp hok 1 (by decide) ?_
    decide +kernel
  refine ⟨⟨t, hrun, hw.bytes rfl 0 (by decide) 12 (hall 0 (by decide)), hw.bytes rfl 1 (by decide) 12 (hall 1 (by decide)), ?_⟩,
    t', hrun'⟩
  rw [hw.frame 12 10 (by decide)]
  decide +kernel

/-- A directory without page tables. -/
theorem copyout_null : copyout 99 0 [1] spacious = .error .nullPte := by
  rfl

end Xv6.Paging
