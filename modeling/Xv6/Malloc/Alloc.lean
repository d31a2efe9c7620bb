import Xv6.Malloc.Free

/-!
# `malloc`

`malloc` walks around the list of the free blocks. If one is large enough it is found before the walk is back at its
start (`mallocFrom_found`); if none is, the walk comes back and `morecore` asks for more (`morecore_ok`), and then one
is.
-/

namespace Xv6.Malloc

open Lib
open Vm (KERNBASE)

variable {base nunits k : ℕ} {s t : State} {fs us A B : List Block} {q x : Block} {sbrk : ℕ → Prog (Option ℕ)}

/-- What `sbrk` can answer: it fails, or there is a new region above the memory there was. -/
structure Answer (s : State) (n : ℕ) (r : Option ℕ) (t : State) : Prop where
  mem : t.mem = s.mem
  freep : t.freep = s.freep
  grant : match r with
    | none => t.sz = s.sz ∧ t.regions = s.regions
    | some a => s.sz ≤ a ∧ a + n ≤ t.sz ∧ t.sz ≤ KERNBASE ∧ t.regions = s.regions ++ [(a, n)]

/-- **The contract of `sbrk`** for requests below 2 GB. -/
def Fresh (sbrk : ℕ → Prog (Option ℕ)) : Prop :=
  ∀ (s : State) (n : ℕ), s.sz ≤ KERNBASE → 0 < n → n < 2 ^ 31 → ∃ r t, sbrk n s = .ok (r, t) ∧ Answer s n r t

/-! ## Taking a block -/

theorem Heap.congr (h : Heap base s fs us) (hm : t.mem = s.mem) (hf : t.freep = s.freep) (hz : t.sz = s.sz)
    (hr : t.regions = s.regions) : Heap base t fs us := by
  have hptr : t.ptr = s.ptr := funext fun a => by rw [State.ptr, State.ptr, hm]
  have hsize : t.size = s.size := funext fun a => by rw [State.size, State.size, hm]
  refine ⟨?_, h.low, ?_, ?_, ?_, ?_, ?_⟩
  · rw [hz, hr]
    exact h.layout
  · rw [hz]
    exact h.room
  · rw [hz]
    exact h.limit
  · rw [hptr]
    exact h.ring
  · rw [hsize]
    exact h.size
  · rw [hf]
    exact h.freep

theorem exists_tail (hs : nodes base fs = A ++ q :: x :: B) : ∃ lo, A ++ [q] = ⟨base, 0⟩ :: lo ∧ fs = lo ++ x :: B := by
  cases A with
  | nil => exact ⟨[], by rw [(List.cons.inj hs).1]; rfl, (List.cons.inj hs).2⟩
  | cons a A =>
    refine ⟨A ++ [q], by rw [(List.cons.inj hs).1]; rfl, ?_⟩
    rw [(List.cons.inj hs).2, List.append_assoc]
    rfl

/-- **`malloc` takes a block**, or the end of it. -/
theorem take_ok (h : Heap base s fs us) (hs : nodes base fs = A ++ q :: x :: B) (hpos : 0 < nunits) (hle : nunits ≤ x.units) :
    ∃ a m fs', s.take nunits q.addr x.addr = (plus a 1, { s with mem := m, freep := q.addr }) ∧
      Heap base { s with mem := m, freep := q.addr } fs' (⟨a, nunits⟩ :: us) := by
  obtain ⟨lo, hlo, rfl⟩ := exists_tail hs
  have hq : q ∈ nodes base (lo ++ x :: B) := hs ▸ by simp
  have hx : x ∈ nodes base (lo ++ x :: B) := hs ▸ by simp
  have hxsize := h.size x (Heap.mem_free hx)
  have hqlo : q ∈ nodes base lo := by
    rw [nodes, ← hlo]
    simp
  unfold State.take
  rw [hxsize]
  by_cases heq : x.units = nunits
  · rw [if_pos heq]
    subst heq
    have hl : Layout base s.sz s.regions (lo ++ B) (x :: us) := h.layout.hand
    have hmem : ∀ b, b ∈ nodes base (lo ++ B ++ x :: us) ↔ b ∈ nodes base (lo ++ x :: B ++ us) := by
      intro b
      simp only [mem_nodes, List.mem_append, List.mem_cons]
      tauto
    have hnodes : nodes base (lo ++ B) = A ++ q :: ([] ++ B) := by
      rw [nodes, ← List.cons_append, ← hlo, List.append_assoc]
      rfl
    have hptr : ∀ c ∈ nodes base (lo ++ x :: B), (s.setPtr q.addr (s.ptr x.addr)).ptr c.addr =
        if c.addr = q.addr then s.ptr x.addr else s.ptr c.addr := fun c hc =>
      ptr_setPtr (ptr_lt _ _) (h.off (Heap.mem_free hq) (Heap.mem_free hc))
    have hnodup := h.addr_sorted
    rw [hs] at hnodup
    obtain ⟨-, hqB, hcross⟩ := List.pairwise_append.mp hnodup
    have hkeep : ∀ c ∈ A ++ B, (s.setPtr q.addr (s.ptr x.addr)).ptr c.addr = s.ptr c.addr := by
      intro c hc
      have hcn : c ∈ nodes base (lo ++ x :: B) ∧ c.addr ≠ q.addr := by
        rw [hs]
        rcases List.mem_append.mp hc with hc | hc
        · have := hcross c hc q List.mem_cons_self
          exact ⟨List.mem_append_left _ hc, by omega⟩
        · have := (List.pairwise_cons.mp hqB).1 c (List.mem_cons_of_mem _ hc)
          exact ⟨List.mem_append_right _ (by simp [hc]), by omega⟩
      rw [hptr c hcn.1, if_neg hcn.2]
    refine ⟨x.addr, (s.setPtr q.addr (s.ptr x.addr)).mem, lo ++ B, rfl, hl, h.low, h.room, h.limit, ?_, fun b hb => ?_, ?_⟩
    · have hring := h.ring
      rw [hs, List.map_append, List.map_cons] at hring
      rw [hnodes, List.map_append, List.map_cons, List.map_append]
      refine hring.splice (M := [x.addr]) (fun a ha => ?_) (fun a ha => ?_) fun c hc => ?_
      · obtain ⟨b, hb, rfl⟩ := List.mem_map.mp ha
        exact hkeep b (List.mem_append_left _ hb)
      · obtain ⟨b, hb, rfl⟩ := List.mem_map.mp ha
        exact hkeep b (List.mem_append_right _ hb)
      · have hptrq := hptr q hq
        rw [if_pos rfl] at hptrq
        exact hptrq.trans hc.2
    · have hb' := (hmem b).mp hb
      exact (size_setPtr (h.off (Heap.mem_free hq) hb')).trans (h.size b hb')
    · rw [hnodes]
      exact List.mem_map_of_mem (by simp)
  · rw [if_neg heq]
    have hfin := (h.fin_lt (Heap.mem_free hx)).1
    have hlt : nunits < x.units := by omega
    have hl := h.layout.cut hpos hlt
    have hsmall : x.units - nunits < 2 ^ 32 ∧ nunits < 2 ^ 32 := by
      simp only [Block.fin, HDR] at hfin
      omega
    have hsize : (s.setSize x.addr (x.units - nunits)).size x.addr = x.units - nunits := by
      rw [size_setSize hsmall.1 (.inl rfl), if_pos rfl]
    have hplus : plus x.addr (x.units - nunits) = x.addr + HDR * (x.units - nunits) := by
      refine Nat.mod_eq_of_lt ?_
      simp only [Block.fin, HDR] at hfin ⊢
      omega
    dsimp only
    rw [hsize, hplus]
    generalize hydef : x.addr + HDR * (x.units - nunits) = y at hl
    have hfs : (nodes base (lo ++ ⟨x.addr, x.units - nunits⟩ :: B)).map Block.addr = (nodes base (lo ++ x :: B)).map Block.addr := by
      simp [nodes]
    -- the headers of the two parts do not overlap the others
    have hx' : (⟨x.addr, x.units - nunits⟩ : Block) ∈ nodes base (lo ++ ⟨x.addr, x.units - nunits⟩ :: B ++ ⟨y, nunits⟩ :: us) := by
      simp [mem_nodes]
    have hy' : (⟨y, nunits⟩ : Block) ∈ nodes base (lo ++ ⟨x.addr, x.units - nunits⟩ :: B ++ ⟨y, nunits⟩ :: us) := by
      simp [mem_nodes]
    have hoff : ∀ c ∈ nodes base (lo ++ ⟨x.addr, x.units - nunits⟩ :: B ++ ⟨y, nunits⟩ :: us),
        Off x.addr c.addr ∧ Off y c.addr := by
      intro c hc
      have h1 := hl.off_addr hx' hc
      have h2 := hl.off_addr hy' hc
      exact ⟨h1, h2⟩
    refine ⟨y, ((s.setSize x.addr (x.units - nunits)).setSize y nunits).mem, lo ++ ⟨x.addr, x.units - nunits⟩ :: B, rfl, hl,
      h.low, h.room, h.limit, ?_, fun b hb => ?_, ?_⟩
    · rw [hfs]
      refine h.ring.congr fun a ha => ?_
      rw [← hfs] at ha
      obtain ⟨c, hc, rfl⟩ := List.mem_map.mp ha
      obtain ⟨h1, h2⟩ := hoff c (Heap.mem_free hc)
      exact (ptr_setSize h2).trans (ptr_setSize h1)
    · obtain ⟨h1, h2⟩ := hoff b hb
      show ((s.setSize x.addr (x.units - nunits)).setSize y nunits).size b.addr = b.units
      rw [size_setSize hsmall.2 h2, size_setSize hsmall.1 h1]
      split_ifs with hby hbx
      · rw [hl.eq_of_addr hb hy' hby]
      · rw [hl.eq_of_addr hb hx' hbx]
      · refine h.size b ?_
        simp only [mem_nodes, List.mem_append, List.mem_cons] at hb ⊢
        rcases hb with hb | (hb | rfl | hb) | rfl | hb
        · exact .inl hb
        · exact .inr (.inl (.inl hb))
        · exact absurd rfl hbx
        · exact .inr (.inl (.inr (.inr hb)))
        · exact absurd rfl hby
        · exact .inr (.inr hb)
    · rw [hfs]
      exact List.mem_map_of_mem hq

/-! ## The walk -/

theorem mallocFrom_skip : ∀ (k fuel prevp : ℕ), k < fuel →
    (∀ j < k, ¬ nunits ≤ s.size (s.ptr^[j + 1] prevp) ∧ s.ptr^[j + 1] prevp ≠ s.freep) →
    mallocFrom sbrk nunits fuel prevp (s.ptr prevp) s =
      mallocFrom sbrk nunits (fuel - k) (s.ptr^[k] prevp) (s.ptr^[k + 1] prevp) s := by
  intro k
  induction k with
  | zero => exact fun _ _ _ _ => rfl
  | succ k ih =>
    intro fuel prevp hk hskip
    obtain ⟨fuel, rfl⟩ : ∃ f, fuel = f + 1 := ⟨fuel - 1, by omega⟩
    have hstep : mallocFrom sbrk nunits (fuel + 1) prevp (s.ptr prevp) s =
        mallocFrom sbrk nunits fuel (s.ptr prevp) (s.ptr (s.ptr prevp)) s := by
      obtain ⟨h1, h2⟩ : ¬ nunits ≤ s.size (s.ptr prevp) ∧ s.ptr prevp ≠ s.freep := hskip 0 (by omega)
      have hget : ∀ g : State → Prog ℕ, ((get : Prog State) >>= g) s = g s s := fun _ => rfl
      conv_lhs => unfold mallocFrom
      rw [hget, if_neg h1, if_neg h2]
    rw [hstep, ih fuel (s.ptr prevp) (by omega) fun j hj => hskip (j + 1) (by omega), Nat.add_sub_add_right]
    rfl

/-- **A block that is large enough is found.** -/
theorem mallocFrom_found (sbrk : ℕ → Prog (Option ℕ)) (fuel : ℕ) (h : Heap base s fs us) (hpos : 0 < nunits)
    (hx : x ∈ fs) (hle : nunits ≤ x.units) (hfuel : 2 ^ 32 ≤ fuel) : ∃ a m p fs', mallocFrom sbrk nunits fuel s.freep (s.ptr s.freep) s =
      .ok (plus a 1, { s with mem := m, freep := p }) ∧
      Heap base { s with mem := m, freep := p } fs' (⟨a, nunits⟩ :: us) := by
  have hxn : x ∈ nodes base fs := mem_nodes.mpr (.inr hx)
  obtain ⟨y, hy, hyx⟩ := h.ring.pred (List.mem_map_of_mem hxn)
  have hfits : nunits ≤ s.size (s.ptr y) := by
    rw [hyx, h.size x (Heap.mem_free hxn)]
    exact hle
  obtain ⟨k, hk, hfound, hfirst⟩ := h.ring.search (P := fun y => nunits ≤ s.size (s.ptr y)) h.freep hy hfits
  have hlen := h.length_le
  have hskip : ∀ j < k, ¬ nunits ≤ s.size (s.ptr^[j + 1] s.freep) ∧ s.ptr^[j + 1] s.freep ≠ s.freep := by
    intro j hj
    refine ⟨?_, iterate_ne_of_first (P := fun y => nunits ≤ s.size (s.ptr y)) hfound hfirst hj⟩
    rw [Function.iterate_succ_apply']
    exact hfirst j hj
  rw [mallocFrom_skip k fuel s.freep (by omega) hskip, Function.iterate_succ_apply']
  -- the block behind `q` is not the static header, which is empty
  obtain ⟨q, hq, hqa⟩ := List.mem_map.mp (h.ring.iterate_mem h.freep k)
  rw [← hqa] at hfound ⊢
  obtain ⟨A, R, hs⟩ := List.append_of_mem hq
  obtain ⟨x, B, rfl⟩ : ∃ x B, R = x :: B := by
    cases R with
    | cons x B => exact ⟨x, B, rfl⟩
    | nil =>
      rw [h.ptr_eq hs, List.map_nil, List.headD_nil, h.size ⟨base, 0⟩ (mem_nodes.mpr (.inl rfl))] at hfound
      exact absurd hfound (not_le.mpr hpos)
  have hptr : s.ptr q.addr = x.addr := by rw [h.ptr_eq hs, List.map_cons, List.headD_cons]
  rw [hptr] at hfound ⊢
  have hxm : x ∈ nodes base fs := hs ▸ by simp
  have hsize := h.size x (Heap.mem_free hxm)
  rw [hsize] at hfound
  obtain ⟨a, m, fs', htake, hheap⟩ := take_ok h hs hpos hfound
  refine ⟨a, m, q.addr, fs', wp.eq_ok ?_, hheap⟩
  obtain ⟨f, hf⟩ : ∃ f, fuel - k = f + 1 := ⟨fuel - k - 1, by omega⟩
  rw [hf]
  unfold mallocFrom
  rw [wp_bind, wp_get, if_pos (by rw [hsize]; exact hfound), htake]
  exact ⟨rfl, rfl⟩

/-! ## More memory -/

theorem Heap.grow {a n : ℕ} (h : Heap base s fs us) (ht : Answer s (n * HDR) (some a) t) (hn : 0 < n) (hsmall : n < 2 ^ 32) :
    Heap base (t.setSize a n) fs (⟨a, n⟩ :: us) := by
  obtain ⟨ha, hend, hlimit, hregions⟩ := ht.grant
  rw [Nat.mul_comm] at hend hregions
  have hptr : t.ptr = s.ptr := funext fun b => by rw [State.ptr, State.ptr, ht.mem]
  have hsize : t.size = s.size := funext fun b => by rw [State.size, State.size, ht.mem]
  have hoff : ∀ c ∈ nodes base (fs ++ us), Apart a c.addr := by
    intro c hc
    refine .inr ?_
    rcases mem_nodes.mp hc with rfl | hc
    · exact le_trans h.room ha
    · have h1 := h.layout.below c hc
      have h2 := h.layout.pos c hc
      simp only [Block.fin, HDR] at h1 h2 ⊢
      omega
  refine ⟨?_, h.low, ?_, hlimit, ?_, fun b hb => ?_, ?_⟩
  · show Layout base t.sz t.regions fs (⟨a, n⟩ :: us)
    rw [hregions]
    exact h.layout.grow h.room hn ha hend
  · have := h.room
    show base + HDR ≤ t.sz
    omega
  · refine h.ring.congr fun b hb => ?_
    obtain ⟨c, hc, rfl⟩ := List.mem_map.mp hb
    rw [ptr_setSize (.inr (hoff c (Heap.mem_free hc))), hptr]
  · have hb' : b = ⟨a, n⟩ ∨ b ∈ nodes base (fs ++ us) := by
      simp only [mem_nodes, List.mem_append, List.mem_cons] at hb ⊢
      tauto
    rcases hb' with rfl | hb'
    · rw [size_setSize hsmall (.inl rfl), if_pos rfl]
    · have hapart := hoff b hb'
      rw [size_setSize hsmall (.inr hapart), if_neg, hsize, h.size b hb']
      simp only [Apart, HDR] at hapart
      omega
  · show t.freep ∈ _
    rw [ht.freep]
    exact h.freep

/-- **`morecore`**: it fails, or there is a free block that is large enough. -/
theorem morecore_ok (hsbrk : Fresh sbrk) (h : Heap base s fs us) (hpos : 0 < nunits) (hsmall : nunits * HDR < 2 ^ 31) :
    ∃ r t fs', morecore sbrk nunits s = .ok (r, t) ∧ Heap base t fs' us ∧
      (r = 0 ∨ r = t.freep ∧ r ≠ 0 ∧ ∃ b ∈ fs', nunits ≤ b.units) := by
  generalize hnu : (if nunits < 4096 then 4096 else nunits) = nu
  have hbounds : nunits ≤ nu ∧ 0 < nu ∧ nu * HDR < 2 ^ 31 := by
    simp only [HDR] at hsmall ⊢
    split_ifs at hnu <;> omega
  obtain ⟨hle, hnupos, hnusmall⟩ := hbounds
  have hmod : nu * HDR % 2 ^ 32 = nu * HDR := Nat.mod_eq_of_lt (by omega)
  have hhdr : 0 < nu * HDR := by
    simp only [HDR]
    omega
  obtain ⟨r, t, hrun, hanswer⟩ := hsbrk s (nu * HDR) h.limit hhdr hnusmall
  cases r with
  | none =>
    refine ⟨0, t, fs, wp.eq_ok ?_, h.congr hanswer.mem hanswer.freep hanswer.grant.1 hanswer.grant.2, .inl rfl⟩
    unfold morecore
    simp only [hnu, hmod]
    rw [wp_bind, wp_of_ok hrun]
    exact ⟨rfl, rfl⟩
  | some a =>
    have hgrown := h.grow hanswer hnupos (by simp only [HDR] at hnusmall; omega)
    obtain ⟨m, p, fs', hfree, hheap, b, hb, hbig⟩ := free_ok hgrown
    refine ⟨p, _, fs', wp.eq_ok ?_, hheap, .inr ⟨rfl, ?_, b, hb, by omega⟩⟩
    · unfold morecore
      simp only [hnu, hmod]
      rw [wp_bind, wp_of_ok hrun]
      show wp (modify _ >>= _) _ _ _
      rw [wp_bind, wp_modify, wp_bind, wp_of_ok hfree]
      exact ⟨rfl, rfl⟩
    · obtain ⟨c, hc, hca⟩ := List.mem_map.mp hheap.freep
      have := (hheap.fin_lt (Heap.mem_free hc)).2
      rw [hca] at this
      exact Nat.pos_iff_ne_zero.mp this

/-! ## The whole of `malloc` -/

/-- What `malloc` returns: nothing, or a used block of `nunits` units. -/
def Result (base : ℕ) (us : List Block) (nunits r : ℕ) (t : State) : Prop :=
  ∃ fs', r = 0 ∧ Heap base t fs' us ∨ ∃ a, r = plus a 1 ∧ Heap base t fs' (⟨a, nunits⟩ :: us)

theorem mallocFrom_ok (hsbrk : Fresh sbrk) (h : Heap base s fs us) (hpos : 0 < nunits) (hsmall : nunits * HDR < 2 ^ 31) :
    ∃ r t, mallocFrom sbrk nunits FUEL s.freep (s.ptr s.freep) s = .ok (r, t) ∧ Result base us nunits r t := by
  have hfuel : FUEL = 2 ^ 33 := rfl
  by_cases hex : ∃ x ∈ fs, nunits ≤ x.units
  · obtain ⟨x, hx, hle⟩ := hex
    obtain ⟨a, m, p, fs', hrun, hheap⟩ := mallocFrom_found sbrk FUEL h hpos hx hle (by omega)
    exact ⟨_, _, hrun, fs', .inr ⟨a, rfl, hheap⟩⟩
  -- no block is large enough, so the walk comes back to `freep`
  have hsize : ∀ a ∈ (nodes base fs).map Block.addr, ¬ nunits ≤ s.size a := by
    intro a ha hle
    obtain ⟨b, hb, rfl⟩ := List.mem_map.mp ha
    rw [h.size b (Heap.mem_free hb)] at hle
    rcases mem_nodes.mp hb with rfl | hb
    · exact absurd hle (not_le.mpr hpos)
    · exact hex ⟨b, hb, hle⟩
  obtain ⟨y, hy, hyf⟩ := h.ring.pred h.freep
  obtain ⟨k, hk, hback, hfirst⟩ := h.ring.search (P := fun y => s.ptr y = s.freep) h.freep hy hyf
  have hlen := h.length_le
  have hskip : ∀ j < k, ¬ nunits ≤ s.size (s.ptr^[j + 1] s.freep) ∧ s.ptr^[j + 1] s.freep ≠ s.freep := by
    intro j hj
    refine ⟨hsize _ (h.ring.iterate_mem h.freep _), ?_⟩
    rw [Function.iterate_succ_apply']
    exact hfirst j hj
  obtain ⟨f, hf⟩ : ∃ f, FUEL - k = f + 1 := ⟨FUEL - k - 1, by omega⟩
  obtain ⟨r, t, fs', hmore, hheap, hr⟩ := morecore_ok hsbrk h hpos hsmall
  have hcall : ∀ {Q : ℕ → State → Prop}, wp (if r = 0 then pure 0 else do
      let s ← get
      mallocFrom sbrk nunits f r (s.ptr r)) Q (fun _ => False) t →
      wp (mallocFrom sbrk nunits FUEL s.freep (s.ptr s.freep)) Q (fun _ => False) s := by
    intro Q hQ
    rw [wp_congr (mallocFrom_skip k FUEL s.freep (by omega) hskip)]
    rw [hf, Function.iterate_succ_apply', hback]
    unfold mallocFrom
    rw [wp_bind, wp_get, if_neg (hsize _ h.freep), if_pos rfl, wp_bind, wp_of_ok hmore]
    exact hQ
  rcases hr with rfl | ⟨hrf, hr0, x, hx, hle⟩
  · refine ⟨0, t, wp.eq_ok (hcall ?_), fs', .inl ⟨rfl, hheap⟩⟩
    rw [if_pos rfl]
    exact ⟨rfl, rfl⟩
  · subst hrf
    obtain ⟨a, m, p, fs'', hrun, hheap'⟩ := mallocFrom_found sbrk f hheap hpos hx hle (by omega)
    refine ⟨_, _, wp.eq_ok (hcall ?_), fs'', .inr ⟨a, rfl, hheap'⟩⟩
    rw [if_neg hr0, wp_bind, wp_get, wp_of_ok hrun]
    exact ⟨rfl, rfl⟩

theorem units_bounds {nbytes : ℕ} (h : nbytes ≤ 2 ^ 31 - 16) :
    0 < units nbytes ∧ nbytes + HDR ≤ HDR * units nbytes ∧ units nbytes * HDR < 2 ^ 31 := by
  simp only [units, HDR]
  omega

/-- **`malloc`** returns, and its result is null or a block with room for the request. -/
theorem malloc_ok {nbytes : ℕ} (hsbrk : Fresh sbrk) (h : Heap base (s.init base) fs us) (hn : nbytes ≤ 2 ^ 31 - 16) :
    ∃ r t, malloc sbrk base nbytes s = .ok (r, t) ∧ Result base us (units nbytes) r t := by
  obtain ⟨hpos, -, hsmall⟩ := units_bounds hn
  obtain ⟨r, t, hrun, hr⟩ := mallocFrom_ok hsbrk h hpos hsmall
  refine ⟨r, t, wp.eq_ok ?_, hr⟩
  unfold malloc
  rw [wp_bind, wp_modify, wp_bind, wp_get, wp_of_ok hrun]
  exact ⟨rfl, rfl⟩

theorem Heap.init (hlow : 0 < base) (hroom : base + HDR ≤ s.sz) (hlimit : s.sz ≤ KERNBASE) (hf : s.freep = 0)
    (hr : s.regions = []) : Heap base (s.init base) [] [] := by
  have hbase : base < 2 ^ 32 := by
    simp only [KERNBASE, HDR] at hlimit hroom
    omega
  have hself : Off base base := .inl rfl
  rw [State.init, if_pos hf]
  refine ⟨?_, hlow, hroom, hlimit, ⟨rfl, ?_⟩, fun b hb => ?_, List.mem_cons_self⟩
  · show Layout base s.sz s.regions [] []
    rw [hr]
    exact .nil
  · show ((s.setPtr base base).setSize base 0).ptr base = base
    rw [ptr_setSize hself, ptr_setPtr hbase hself, if_pos rfl]
  · rw [List.mem_singleton.mp hb]
    show ((s.setPtr base base).setSize base 0).size base = 0
    rw [size_setSize (by decide) hself, if_pos rfl]

end Xv6.Malloc
