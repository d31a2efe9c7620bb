import Xv6.Malloc.Layout
import Xv6.Lib.Loop

/-!
# `free`

`Heap`: the headers in memory form the circular list of the free blocks. The loop of `free` finds the block behind which
the new one belongs (`freeFrom_ok`), and the two `if`s join it with its neighbours, or with one or none of them
(`free_ok`).
-/

namespace Xv6.Malloc

open Lib
open Vm (KERNBASE)

variable {base : ℕ} {s t : State} {fs us A B R : List Block} {p b c : Block} {bp n : ℕ}

/-- **The heap of a process**: the free blocks `fs` and the used blocks `us`. -/
structure Heap (base : ℕ) (s : State) (fs us : List Block) : Prop where
  layout : Layout base s.sz s.regions fs us
  low : 0 < base
  room : base + HDR ≤ s.sz
  limit : s.sz ≤ KERNBASE
  ring : Segment s.ptr base ((nodes base fs).map Block.addr) base
  size : ∀ b ∈ nodes base (fs ++ us), s.size b.addr = b.units
  freep : s.freep ∈ (nodes base fs).map Block.addr

theorem Heap.perm {us' : List Block} (h : Heap base s fs us) (hp : us.Perm us') : Heap base s fs us' := by
  refine ⟨h.layout.perm hp, h.low, h.room, h.limit, h.ring, fun b hb => h.size b ?_, h.freep⟩
  simp only [mem_nodes, List.mem_append, hp.mem_iff] at hb ⊢
  exact hb

theorem Heap.fin_lt (h : Heap base s fs us) (hb : b ∈ nodes base (fs ++ us)) : b.fin < 2 ^ 32 ∧ 0 < b.addr := by
  have hlimit := h.limit
  have hroom := h.room
  have hlow := h.low
  simp only [KERNBASE] at hlimit
  rcases mem_nodes.mp hb with rfl | hb
  · simp only [Block.fin, HDR] at hroom ⊢
    omega
  · have h1 := h.layout.below b hb
    have h2 := h.layout.above b hb
    simp only [HDR] at h2
    omega

theorem plus_eq (h : b.fin < 2 ^ 32) : plus b.addr b.units = b.fin := Nat.mod_eq_of_lt h

theorem Heap.ptr_eq (h : Heap base s fs us) (hs : nodes base fs = A ++ p :: R) :
    s.ptr p.addr = (R.map Block.addr).headD base := by
  have hring := h.ring
  rw [hs, List.map_append, List.map_cons] at hring
  obtain ⟨c, -, rfl, hR⟩ := segment_append.mp hring
  cases R with
  | nil => exact hR
  | cons r R => exact hR.1

/-! ## The loop -/

/-- The loop of `free` ends at this block. -/
def Stops (s : State) (bp p : ℕ) : Prop := p < bp ∧ bp < s.ptr p ∨ s.ptr p ≤ p ∧ (p < bp ∨ bp < s.ptr p)

theorem freeFrom_eq {bp : ℕ} : ∀ (k fuel p : ℕ), k < fuel → Stops s bp (s.ptr^[k] p) →
    (∀ j < k, ¬ Stops s bp (s.ptr^[j] p)) → freeFrom bp fuel p s = .ok (s.ptr^[k] p, s) := by
  intro k
  induction k with
  | zero =>
    intro fuel p hk hstop _
    obtain ⟨fuel, rfl⟩ := Nat.exists_eq_add_of_lt hk
    refine wp.eq_ok ?_
    unfold freeFrom
    rw [wp_bind, wp_get]
    split_ifs with h1 h2
    · exact ⟨rfl, rfl⟩
    · exact ⟨rfl, rfl⟩
    · exact absurd hstop (not_or.mpr ⟨h1, h2⟩)
  | succ k ih =>
    intro fuel p hk hstop hfirst
    obtain ⟨fuel, rfl⟩ : ∃ f, fuel = f + 1 := ⟨fuel - 1, by omega⟩
    have hp : ¬ (p < bp ∧ bp < s.ptr p) ∧ ¬ (s.ptr p ≤ p ∧ (p < bp ∨ bp < s.ptr p)) := not_or.mp (hfirst 0 (by omega))
    refine wp.eq_ok ?_
    unfold freeFrom
    rw [wp_bind, wp_get, if_neg hp.1, if_neg hp.2,
      wp_of_ok (ih fuel (s.ptr p) (by omega) hstop fun j hj => hfirst (j + 1) (by omega))]
    exact ⟨rfl, rfl⟩

theorem exists_place : ∀ (l : List Block) (b : Block), (b :: l).Pairwise (fun b c => b.addr < c.addr) → b.addr < bp →
    (∀ c ∈ l, c.addr ≠ bp) → ∃ A p R, b :: l = A ++ p :: R ∧ p.addr < bp ∧ ∀ r ∈ R, bp < r.addr := by
  intro l
  induction l with
  | nil => exact fun b _ hb _ => ⟨[], b, [], rfl, hb, nofun⟩
  | cons c l ih =>
    intro b hsorted hb hne
    obtain ⟨-, hl⟩ := List.pairwise_cons.mp hsorted
    by_cases hc : c.addr < bp
    · obtain ⟨A, p, R, hs, hp, hR⟩ := ih c hl hc fun d hd => hne d (List.mem_cons_of_mem _ hd)
      exact ⟨b :: A, p, R, by rw [hs, List.cons_append], hp, hR⟩
    · have hlt : bp < c.addr := by
        have := hne c List.mem_cons_self
        omega
      refine ⟨[], b, c :: l, rfl, hb, fun r hr => ?_⟩
      rcases List.mem_cons.mp hr with rfl | hr
      · exact hlt
      · exact Nat.lt_trans hlt ((List.pairwise_cons.mp hl).1 r hr)

theorem Heap.addr_sorted (h : Heap base s fs us) : (nodes base fs).Pairwise fun b c => b.addr < c.addr :=
  h.layout.nodes_sorted.imp fun hlt => by
    simp only [Block.fin, HDR] at hlt
    omega

theorem Heap.length_le (h : Heap base s fs us) : ((nodes base fs).map Block.addr).length ≤ 2 ^ 32 := by
  have hsub : (nodes base fs).map Block.addr ⊆ List.range (2 ^ 32) := by
    intro a ha
    obtain ⟨b, hb, rfl⟩ := List.mem_map.mp ha
    have hb' : b ∈ nodes base (fs ++ us) := by
      simp only [mem_nodes, List.mem_append] at hb ⊢
      tauto
    have := (h.fin_lt hb').1
    simp only [Block.fin, HDR] at this
    rw [List.mem_range]
    omega
  have hlen := (List.subperm_of_subset h.layout.nodup hsub).length_le
  rwa [List.length_range] at hlen

theorem Heap.stops_iff (h : Heap base s fs us) (hbase : base < bp) (hs : nodes base fs = A ++ p :: R) :
    Stops s bp p.addr ↔ p.addr < bp ∧ ∀ r ∈ R, bp < r.addr := by
  have hsorted := h.addr_sorted
  have hlow : base ≤ p.addr := by
    have hp : p ∈ nodes base fs := hs ▸ List.mem_append_right _ List.mem_cons_self
    rcases List.mem_cons.mp hp with rfl | hp
    · exact le_rfl
    · exact Nat.le_of_lt ((List.pairwise_cons.mp hsorted).1 p hp)
  rw [hs] at hsorted
  obtain ⟨hpR, hR⟩ := List.pairwise_cons.mp (List.pairwise_append.mp hsorted).2.1
  rw [Stops, h.ptr_eq hs]
  cases R with
  | nil =>
    rw [List.map_nil, List.headD_nil]
    refine ⟨fun hstop => ⟨by omega, nofun⟩, fun hp => .inr ⟨hlow, .inl hp.1⟩⟩
  | cons r R =>
    rw [List.map_cons, List.headD_cons]
    have hpr := hpR r List.mem_cons_self
    constructor
    · intro hstop
      refine ⟨by omega, fun r' hr' => ?_⟩
      rcases List.mem_cons.mp hr' with rfl | hr'
      · omega
      · have := (List.pairwise_cons.mp hR).1 r' hr'
        omega
    · exact fun hp => .inl ⟨hp.1, hp.2 r List.mem_cons_self⟩

/-- **The loop of `free`** finds the place of the block. -/
theorem freeFrom_ok (h : Heap base s fs (⟨bp, n⟩ :: us)) : ∃ A p R, nodes base fs = A ++ p :: R ∧ p.addr < bp ∧
    (∀ r ∈ R, bp < r.addr) ∧ freeFrom bp FUEL s.freep s = .ok (p.addr, s) := by
  have hbase : base < bp := by
    have habove := h.layout.above ⟨bp, n⟩ (by simp)
    simp only [HDR] at habove
    omega
  have hne : ∀ c ∈ fs, c.addr ≠ bp := by
    intro c hc he
    have hpos := Block.has_addr (h.layout.pos ⟨bp, n⟩ (by simp))
    refine h.layout.clear c hc ⟨bp, n⟩ List.mem_cons_self bp ?_ hpos
    rw [← he]
    exact Block.has_addr (h.layout.pos c (List.mem_append_left _ hc))
  obtain ⟨A, p, R, hs, hp, hR⟩ := exists_place fs ⟨base, 0⟩ h.addr_sorted hbase hne
  have hmem : p.addr ∈ (nodes base fs).map Block.addr := by
    rw [nodes, hs]
    exact List.mem_map_of_mem (List.mem_append_right _ List.mem_cons_self)
  -- the walk from `freep` comes to such a place, and every such place is right
  obtain ⟨k, hk, hfound, hfirst⟩ := h.ring.search h.freep hmem ((h.stops_iff hbase hs).mpr ⟨hp, hR⟩)
  have hfuel : k < FUEL := by
    have := h.length_le
    simp only [FUEL]
    omega
  have hrun := freeFrom_eq k FUEL s.freep hfuel hfound hfirst
  obtain ⟨q, hq, hqa⟩ := List.mem_map.mp (h.ring.iterate_mem h.freep k)
  rw [← hqa] at hfound hrun
  obtain ⟨A', R', hs'⟩ := List.append_of_mem hq
  obtain ⟨hq, hR'⟩ := (h.stops_iff hbase hs').mp hfound
  exact ⟨A', q, R', hs', hq, hR', hrun⟩

/-! ## Joining -/

theorem Heap.mem_free (hb : b ∈ nodes base fs) : b ∈ nodes base (fs ++ us) := by
  simp only [mem_nodes, List.mem_append] at hb ⊢
  tauto

theorem Heap.off (h : Heap base s fs us) (hb : b ∈ nodes base (fs ++ us)) (hc : c ∈ nodes base (fs ++ us)) :
    Off b.addr c.addr := h.layout.off_addr hb hc

/-- What the first `if` of `free` does: the block takes over `M`, and `B` is behind it. -/
structure Upper (base : ℕ) (s : State) (fs us : List Block) (bp n : ℕ) (R : List Block) (t : State) (M B : List Block)
    (n' : ℕ) : Prop where
  split : R = M ++ B
  upper : M = [] ∧ n' = n ∨ ∃ u, M = [u] ∧ u.addr = bp + HDR * n ∧ n' = n + u.units
  gap : ∀ r ∈ B, bp + HDR * n' < r.addr
  ptr : ∀ c ∈ nodes base (fs ++ ⟨bp, n⟩ :: us), t.ptr c.addr =
    if c.addr = bp then (B.map Block.addr).headD base else s.ptr c.addr
  size : ∀ c ∈ nodes base (fs ++ ⟨bp, n⟩ :: us), t.size c.addr = if c.addr = bp then n' else s.size c.addr
  small : bp + HDR * n' < 2 ^ 32
  rest : t = { s with mem := t.mem }

theorem Heap.joinUpper (h : Heap base s fs (⟨bp, n⟩ :: us)) (hs : nodes base fs = A ++ p :: R) (hR : ∀ r ∈ R, bp < r.addr) :
    ∃ M B n', Upper base s fs us bp n R (s.joinUpper p.addr bp) M B n' := by
  have hbp : (⟨bp, n⟩ : Block) ∈ nodes base (fs ++ ⟨bp, n⟩ :: us) := by simp [mem_nodes]
  have hfs : ∀ b ∈ p :: R, b ∈ nodes base fs := fun b hb => hs ▸ List.mem_append_right _ hb
  have hsize : s.size bp = n := h.size ⟨bp, n⟩ hbp
  have hfin := (h.fin_lt hbp).1
  have hplus : plus bp n = bp + HDR * n := plus_eq hfin
  have hpos := h.layout.pos ⟨bp, n⟩ (by simp)
  have habove := h.layout.above ⟨bp, n⟩ (by simp)
  have hsorted := h.layout.nodes_sorted
  rw [hs] at hsorted
  obtain ⟨-, hsortedR⟩ := List.pairwise_cons.mp (List.pairwise_append.mp hsorted).2.1
  simp only [Block.fin] at hfin hpos habove
  unfold State.joinUpper
  rw [hsize, hplus]
  split_ifs with hjoin
  · -- the block behind is adjacent
    obtain ⟨u, B, rfl⟩ : ∃ u B, R = u :: B := by
      cases R with
      | cons u B => exact ⟨u, B, rfl⟩
      | nil =>
        rw [h.ptr_eq hs, List.map_nil, List.headD_nil] at hjoin
        simp only [HDR] at habove hjoin
        omega
    have hsu : nodes base fs = (A ++ [p]) ++ u :: B := by rw [hs, List.append_assoc]; rfl
    have hu : u ∈ nodes base (fs ++ ⟨bp, n⟩ :: us) := Heap.mem_free (hfs u (by simp))
    have hpu : s.ptr p.addr = u.addr := by rw [h.ptr_eq hs, List.map_cons, List.headD_cons]
    have hufin := (h.fin_lt hu).1
    simp only [Block.fin] at hufin
    rw [hpu] at hjoin ⊢
    rw [h.size u hu]
    have hfit : bp + HDR * (n + u.units) < 2 ^ 32 := by
      rw [Nat.mul_add]
      omega
    have hsmall : n + u.units < 2 ^ 32 := by
      simp only [HDR] at hfit
      omega
    have hp : p ∈ nodes base (fs ++ ⟨bp, n⟩ :: us) := Heap.mem_free (hfs p List.mem_cons_self)
    have hptr : (s.setSize bp (n + u.units)).ptr ((s.setSize bp (n + u.units)).ptr p.addr) = s.ptr u.addr := by
      rw [ptr_setSize (h.off hbp hp), hpu, ptr_setSize (h.off hbp hu)]
    dsimp only
    refine ⟨[u], B, n + u.units, rfl, .inr ⟨u, rfl, hjoin.symm, rfl⟩, fun r hr => ?_, fun c hc => ?_, fun c hc => ?_, hfit, rfl⟩
    · have := (List.pairwise_cons.mp hsortedR).1 r hr
      simp only [Block.fin, HDR] at this hjoin ⊢
      omega
    · rw [hptr, h.ptr_eq hsu, ptr_setPtr (by rw [← h.ptr_eq hsu]; exact ptr_lt _ _) (h.off hbp hc), ptr_setSize (h.off hbp hc)]
    · rw [size_setPtr (h.off hbp hc), size_setSize hsmall (h.off hbp hc)]
  · refine ⟨[], R, n, rfl, .inl ⟨rfl, rfl⟩, fun r hr => ?_, fun c hc => ?_, fun c hc => ?_, hfin, rfl⟩
    · -- the next free block is behind the end, and not at it
      have hle : ∀ r ∈ R, bp + HDR * n ≤ r.addr := by
        intro r hr
        have hlt := hR r hr
        have hrfs : r ∈ fs := by
          refine (mem_nodes.mp (hfs r (List.mem_cons_of_mem _ hr))).resolve_left ?_
          rintro rfl
          simp only [HDR] at habove hlt
          omega
        have hclear := (h.layout.clear r hrfs ⟨bp, n⟩ List.mem_cons_self).apart
          (h.layout.pos r (List.mem_append_left _ hrfs)) hpos
        simp only [Block.fin] at hclear
        omega
      cases R with
      | nil => cases hr
      | cons u B =>
        have hu := hle u List.mem_cons_self
        rw [h.ptr_eq hs, List.map_cons, List.headD_cons] at hjoin
        rcases List.mem_cons.mp hr with rfl | hr
        · omega
        · have := (List.pairwise_cons.mp hsortedR).1 r hr
          simp only [Block.fin] at this
          omega
    · rw [ptr_setPtr (ptr_lt _ _) (h.off hbp hc), h.ptr_eq hs]
    · rw [size_setPtr (h.off hbp hc)]
      split_ifs with hcb
      · rw [hcb, hsize]
      · rfl

theorem Heap.joinLower {M : List Block} {n' : ℕ} (h : Heap base s fs (⟨bp, n⟩ :: us)) (hp : p ∈ nodes base fs) (hlt : p.addr < bp)
    (hu : Upper base s fs us bp n R t M B n') :
    (∀ c ∈ nodes base (fs ++ ⟨bp, n⟩ :: us), (t.joinLower p.addr bp).ptr c.addr =
      if c.addr = p.addr then (if p.fin = bp then (B.map Block.addr).headD base else bp)
      else if c.addr = bp then (B.map Block.addr).headD base else s.ptr c.addr) ∧
    (∀ c ∈ nodes base (fs ++ ⟨bp, n⟩ :: us), (t.joinLower p.addr bp).size c.addr =
      if c.addr = p.addr then (if p.fin = bp then p.units + n' else p.units)
      else if c.addr = bp then n' else s.size c.addr) ∧
    t.joinLower p.addr bp = { s with mem := (t.joinLower p.addr bp).mem } := by
  have hbp : (⟨bp, n⟩ : Block) ∈ nodes base (fs ++ ⟨bp, n⟩ :: us) := by simp [mem_nodes]
  have hp' : p ∈ nodes base (fs ++ ⟨bp, n⟩ :: us) := Heap.mem_free hp
  have hne : p.addr ≠ bp := by omega
  have hpsize : t.size p.addr = p.units := by rw [hu.size p hp', if_neg hne, h.size p hp']
  have hbsize : t.size bp = n' := by rw [hu.size ⟨bp, n⟩ hbp, if_pos rfl]
  have hbptr : t.ptr bp = (B.map Block.addr).headD base := by rw [hu.ptr ⟨bp, n⟩ hbp, if_pos rfl]
  have hnext : (B.map Block.addr).headD base < 2 ^ 32 := hbptr ▸ ptr_lt t bp
  unfold State.joinLower
  rw [hpsize, plus_eq (h.fin_lt hp').1, hbsize]
  by_cases hjoin : p.fin = bp
  · have hsmall : p.units + n' < 2 ^ 32 := by
      have := hu.small
      simp only [Block.fin, HDR] at this hjoin
      omega
    simp only [hjoin, if_true]
    rw [ptr_setSize (h.off hp' hbp), hbptr]
    refine ⟨fun c hc => ?_, fun c hc => ?_, ?_⟩
    · rw [ptr_setPtr hnext (h.off hp' hc), ptr_setSize (h.off hp' hc), hu.ptr c hc]
    · rw [size_setPtr (h.off hp' hc), size_setSize hsmall (h.off hp' hc), hu.size c hc]
    · rw [hu.rest]
      rfl
  · simp only [hjoin, if_false]
    have hbplt : bp < 2 ^ 32 := by
      have := hu.small
      omega
    refine ⟨fun c hc => ?_, fun c hc => ?_, ?_⟩
    · rw [ptr_setPtr hbplt (h.off hp' hc), hu.ptr c hc]
    · rw [size_setPtr (h.off hp' hc), hu.size c hc]
      by_cases hcp : c.addr = p.addr
      · rw [if_pos hcp, hcp, if_neg hne, h.size p hp']
      · rw [if_neg hcp]
    · rw [hu.rest]
      rfl

/-- **What `free` does**: the list `A`, `p`, `M`, `B` of the free blocks, the block `bp` that belongs behind `p`, and the
headers in the end. -/
structure Joined (base : ℕ) (s : State) (fs us : List Block) (bp n : ℕ) (A : List Block) (p : Block) (M B : List Block)
    (n' : ℕ) (t : State) : Prop where
  heap : Heap base s fs (⟨bp, n⟩ :: us)
  nodes : nodes base fs = A ++ p :: (M ++ B)
  lt : p.addr < bp
  upper : M = [] ∧ n' = n ∨ ∃ u, M = [u] ∧ u.addr = bp + HDR * n ∧ n' = n + u.units
  gap : ∀ r ∈ B, bp + HDR * n' < r.addr
  same : ∀ c ∈ A ++ (M ++ B) ++ us, t.ptr c.addr = s.ptr c.addr ∧ t.size c.addr = c.units
  ptr : t.ptr p.addr = if p.fin = bp then (B.map Block.addr).headD base else bp
  size : t.size p.addr = if p.fin = bp then p.units + n' else p.units
  ptrNew : t.ptr bp = (B.map Block.addr).headD base
  sizeNew : t.size bp = n'

theorem free_joined (h : Heap base s fs (⟨bp, n⟩ :: us)) : ∃ A p M B n' t, Joined base s fs us bp n A p M B n' t ∧
    free (plus bp 1) s = .ok ((), { s with mem := t.mem, freep := p.addr }) := by
  obtain ⟨A, p, R, hs, hp, hR, hloop⟩ := freeFrom_ok h
  obtain ⟨M, B, n', hu⟩ := h.joinUpper hs hR
  have hpn : p ∈ nodes base fs := hs ▸ List.mem_append_right _ List.mem_cons_self
  obtain ⟨hptr, hsize, hrest⟩ := h.joinLower hpn hp hu
  have hbp : (⟨bp, n⟩ : Block) ∈ nodes base (fs ++ ⟨bp, n⟩ :: us) := by simp [mem_nodes]
  have hpos := h.layout.pos ⟨bp, n⟩ (by simp)
  have hback : (plus bp 1 + (2 ^ 32 - HDR)) % 2 ^ 32 = bp := by
    have hfin := (h.fin_lt hbp).1
    simp only [Block.fin, plus, HDR] at hfin hpos ⊢
    omega
  have hrun : free (plus bp 1) s = .ok ((), { (s.joinUpper p.addr bp).joinLower p.addr bp with freep := p.addr }) := by
    refine wp.eq_ok ?_
    unfold free
    rw [hback, wp_bind, wp_get, wp_bind, wp_of_ok hloop, wp_modify]
    exact ⟨rfl, rfl⟩
  have hsplit := hu.split
  subst hsplit
  refine ⟨A, p, M, B, n', (s.joinUpper p.addr bp).joinLower p.addr bp,
    ⟨h, hs, hp, hu.upper, hu.gap, fun c hc => ?_, ?_, ?_, ?_, ?_⟩, ?_⟩
  · -- the other headers are not touched
    have hmem : c ∈ nodes base (fs ++ ⟨bp, n⟩ :: us) ∧ c.addr ≠ p.addr ∧ c.addr ≠ bp := by
      rcases List.mem_append.mp hc with hc | hc
      · have hcn : c ∈ nodes base fs := by
          rw [hs]
          rcases List.mem_append.mp hc with hc | hc
          · exact List.mem_append_left _ hc
          · exact List.mem_append_right _ (List.mem_cons_of_mem _ hc)
        refine ⟨Heap.mem_free hcn, ?_⟩
        rcases List.mem_append.mp hc with hc | hc
        · have hsorted := h.addr_sorted
          rw [hs] at hsorted
          have := (List.pairwise_append.mp hsorted).2.2 c hc p List.mem_cons_self
          omega
        · have := hR c hc
          omega
      · have hcn : c ∈ nodes base (fs ++ ⟨bp, n⟩ :: us) := by simp [mem_nodes, hc]
        have hcpos := h.layout.pos c (by simp [hc])
        have hclear := (List.pairwise_cons.mp h.layout.used).1 c hc
        refine ⟨hcn, fun he => ?_, fun he => ?_⟩
        · obtain rfl := h.layout.eq_of_addr hcn (Heap.mem_free hpn) he
          rcases mem_nodes.mp hpn with rfl | hpf
          · exact absurd hcpos (lt_irrefl 0)
          · exact h.layout.clear c hpf c (List.mem_cons_of_mem _ hc) _ (Block.has_addr hcpos) (Block.has_addr hcpos)
        · obtain rfl := h.layout.eq_of_addr hcn hbp he
          exact hclear _ (Block.has_addr hcpos) (Block.has_addr hcpos)
    obtain ⟨hcn, hcp, hcb⟩ := hmem
    rw [hptr c hcn, hsize c hcn, if_neg hcp, if_neg hcb, if_neg hcp, if_neg hcb, h.size c hcn]
    exact ⟨rfl, rfl⟩
  · rw [hptr p (Heap.mem_free hpn), if_pos rfl]
  · rw [hsize p (Heap.mem_free hpn), if_pos rfl]
  · rw [hptr ⟨bp, n⟩ hbp, if_neg (by show bp ≠ p.addr; omega), if_pos rfl]
  · rw [hsize ⟨bp, n⟩ hbp, if_neg (by show bp ≠ p.addr; omega), if_pos rfl]
  · rw [hrun, hrest]

/-- The new list of free blocks: `p` has taken over the block, or it comes behind `p`. -/
def Placed (bp n' : ℕ) (p q : Block) (N : List Block) : Prop :=
  p.fin = bp ∧ q = ⟨p.addr, p.units + n'⟩ ∧ N = [] ∨ p.fin ≠ bp ∧ q = p ∧ N = [⟨bp, n'⟩]

theorem Joined.repr {fs' M N : List Block} {n' : ℕ} {q : Block} (h : Joined base s fs us bp n A p M B n' t)
    (hq : Placed bp n' p q N) (hfs : Malloc.nodes base fs' = A ++ q :: (N ++ B)) (hl : Layout base s.sz s.regions fs' us) :
    Heap base { s with mem := t.mem, freep := p.addr } fs' us := by
  have hqa : q.addr = p.addr := by
    rcases hq with ⟨-, rfl, -⟩ | ⟨-, rfl, -⟩ <;> rfl
  have hkeep : ∀ L : List Block, (∀ c ∈ L, c ∈ A ++ (M ++ B)) → ∀ a ∈ L.map Block.addr, t.ptr a = s.ptr a := by
    intro L hL a ha
    obtain ⟨c, hc, rfl⟩ := List.mem_map.mp ha
    exact (h.same c (List.mem_append_left _ (hL c hc))).1
  have hend : ∀ c, Segment s.ptr (s.ptr p.addr) (M.map Block.addr) c → c = (B.map Block.addr).headD base := by
    intro c hc
    rcases h.upper with ⟨rfl, -⟩ | ⟨u, rfl, -⟩
    · rw [← show s.ptr p.addr = c from hc, h.heap.ptr_eq h.nodes]
      rfl
    · rw [← show s.ptr u.addr = c from hc.2]
      refine h.heap.ptr_eq (A := A ++ [p]) (p := u) ?_
      rw [h.nodes, List.append_assoc]
      rfl
  refine ⟨hl, h.heap.low, h.heap.room, h.heap.limit, ?_, fun b hb => ?_, ?_⟩
  · have hring := h.heap.ring
    rw [h.nodes, List.map_append, List.map_cons, List.map_append] at hring
    rw [hfs, List.map_append, List.map_cons, List.map_append, hqa]
    refine hring.splice (hkeep A fun c hc => List.mem_append_left _ hc)
      (hkeep B fun c hc => List.mem_append_right _ (List.mem_append_right _ hc)) fun c hc => ?_
    rcases hq with ⟨hj, -, rfl⟩ | ⟨hj, -, rfl⟩
    · exact (h.ptr.trans (if_pos hj)).trans (hend c hc).symm
    · exact ⟨h.ptr.trans (if_neg hj), h.ptrNew.trans (hend c hc).symm⟩
  · show t.size b.addr = b.units
    have hb' : b ∈ A ++ (M ++ B) ++ us ∨ b = q ∨ b ∈ N := by
      have : b ∈ Malloc.nodes base fs' ∨ b ∈ us := by
        simpa only [mem_nodes, List.mem_append, or_assoc] using hb
      rw [hfs] at this
      simp only [List.mem_append, List.mem_cons] at this ⊢
      tauto
    rcases hb' with hb | rfl | hb
    · exact (h.same b hb).2
    · rw [hqa, h.size]
      rcases hq with ⟨hj, rfl, -⟩ | ⟨hj, rfl, -⟩
      · rw [if_pos hj]
      · rw [if_neg hj]
    · rcases hq with ⟨-, -, rfl⟩ | ⟨-, -, rfl⟩
      · cases hb
      · rw [List.mem_singleton.mp hb]
        exact h.sizeNew
  · rw [hfs]
    exact List.mem_map.mpr ⟨q, List.mem_append_right _ List.mem_cons_self, hqa⟩

theorem Joined.layout {M : List Block} {n' : ℕ} (h : Joined base s fs us bp n A p M B n' t) :
    ∃ q N fs', Placed bp n' p q N ∧ Malloc.nodes base fs' = A ++ q :: (N ++ B) ∧ Layout base s.sz s.regions fs' us ∧
      ∃ b ∈ fs', n ≤ b.units := by
  have hl := h.heap.layout
  have hs := h.nodes
  have hpos : 0 < n := hl.pos ⟨bp, n⟩ (by simp)
  have habove : base + HDR ≤ bp := hl.above ⟨bp, n⟩ (by simp)
  have hn' : n ≤ n' := by
    rcases h.upper with ⟨-, rfl⟩ | ⟨u, -, -, rfl⟩
    · exact le_rfl
    · exact Nat.le_add_right _ _
  have hsorted := hl.nodes_sorted
  rw [hs] at hsorted
  obtain ⟨-, -, hcross⟩ := List.pairwise_append.mp hsorted
  -- the bytes of the block and of the one that it has taken over
  have hbytes : ∀ y, (bp ≤ y ∧ y < bp + HDR * n') ↔ ∃ b ∈ ⟨bp, n⟩ :: M, b.Has y := by
    intro y
    rcases h.upper with ⟨rfl, rfl⟩ | ⟨u, rfl, hu, rfl⟩
    · simp [Block.Has, Block.fin]
    · simp only [List.mem_cons, List.not_mem_nil, or_false, exists_eq_or_imp, exists_eq_left, Block.Has, Block.fin, hu, HDR]
      omega
  by_cases hjoin : p.fin = bp
  · obtain ⟨A, rfl, rfl⟩ : ∃ A', A = ⟨base, 0⟩ :: A' ∧ fs = A' ++ p :: (M ++ B) := by
      cases A with
      | nil =>
        rw [← (List.cons.inj hs).1] at hjoin
        simp only [Block.fin, HDR] at hjoin habove
        omega
      | cons a A => exact ⟨A, by rw [(List.cons.inj hs).1], (List.cons.inj hs).2⟩
    have hfin : (⟨p.addr, p.units + n'⟩ : Block).fin = bp + HDR * n' := by
      simp only [Block.fin, HDR] at hjoin ⊢
      omega
    refine ⟨⟨p.addr, p.units + n'⟩, [], A ++ ⟨p.addr, p.units + n'⟩ :: B, .inl ⟨hjoin, rfl, rfl⟩, rfl, ?_,
      ⟨p.addr, p.units + n'⟩, by simp, by show n ≤ p.units + n'; omega⟩
    refine hl.join (P := [p]) (Q := M) (by show 0 < p.units + n'; omega) (fun b hb => ?_) (fun b hb => ?_) fun y => ?_
    · exact hcross b (List.mem_cons_of_mem _ hb) p List.mem_cons_self
    · rw [hfin]
      exact h.gap b hb
    · have hp : (⟨p.addr, p.units + n'⟩ : Block).Has y ↔ p.Has y ∨ bp ≤ y ∧ y < bp + HDR * n' := by
        simp only [Block.Has, hfin]
        simp only [Block.fin, HDR] at hjoin ⊢
        omega
      rw [hp, hbytes]
      simp only [List.singleton_append, List.mem_cons, exists_eq_or_imp]
      tauto
  · obtain ⟨lo, hlo, rfl⟩ : ∃ lo, A ++ [p] = ⟨base, 0⟩ :: lo ∧ fs = lo ++ (M ++ B) := by
      cases A with
      | nil => exact ⟨[], by rw [(List.cons.inj hs).1]; rfl, (List.cons.inj hs).2⟩
      | cons a A =>
        refine ⟨A ++ [p], by rw [(List.cons.inj hs).1]; rfl, ?_⟩
        rw [(List.cons.inj hs).2, List.append_assoc]
        rfl
    refine ⟨p, [⟨bp, n'⟩], lo ++ ⟨bp, n'⟩ :: B, .inr ⟨hjoin, rfl, rfl⟩, ?_, ?_, ⟨bp, n'⟩, by simp, hn'⟩
    · rw [Malloc.nodes, ← List.cons_append, ← hlo, List.append_assoc]
      rfl
    · refine hl.join (P := []) (Q := M) (lt_of_lt_of_le hpos hn') (fun b hb => ?_) h.gap fun y => ?_
      · have hbA : b ∈ A ++ [p] := hlo ▸ List.mem_cons_of_mem _ hb
        rcases List.mem_append.mp hbA with hb' | hb'
        · have h1 := hcross b hb' p List.mem_cons_self
          have h2 := h.lt
          show b.fin < bp
          omega
        · obtain rfl := List.mem_singleton.mp hb'
          have hbf : b ∈ lo ++ (M ++ B) := List.mem_append_left _ hb
          have h1 := (hl.clear b hbf ⟨bp, n⟩ List.mem_cons_self).apart (hl.pos b (List.mem_append_left _ hbf)) hpos
          have h2 := h.lt
          simp only [Block.fin] at h1 hjoin ⊢
          omega
      · exact hbytes y

/-- **`free`** gives a used block back; it is part of a free block then. -/
theorem free_ok (h : Heap base s fs (⟨bp, n⟩ :: us)) : ∃ m p fs', free (plus bp 1) s = .ok ((), { s with mem := m, freep := p }) ∧
    Heap base { s with mem := m, freep := p } fs' us ∧ ∃ b ∈ fs', n ≤ b.units := by
  obtain ⟨A, p, M, B, n', t, hj, hrun⟩ := free_joined h
  obtain ⟨q, N, fs', hq, hfs, hl, hbig⟩ := hj.layout
  exact ⟨t.mem, p.addr, fs', hrun, hj.repr hq hfs hl, hbig⟩

end Xv6.Malloc
