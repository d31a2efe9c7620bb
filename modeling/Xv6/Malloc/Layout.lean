import Xv6.Malloc.Heap
import Mathlib.Data.List.Pairwise

/-!
# The blocks of the heap

`Layout`: the free and the used blocks are disjoint and cover what `sbrk` has added, and the free ones are in order and
not adjacent. It is a fact about lists of blocks; the memory comes in with `Heap`.
-/

namespace Xv6.Malloc

open Lib
open Vm (KERNBASE)

/-- A block: the address of its header, and its size in units with the header. -/
structure Block where
  addr : ℕ
  units : ℕ
deriving DecidableEq

namespace Block

/-- The address behind the block. -/
def fin (b : Block) : ℕ := b.addr + HDR * b.units

def Has (b : Block) (y : ℕ) : Prop := b.addr ≤ y ∧ y < b.fin

def Clear (b c : Block) : Prop := ∀ y, b.Has y → ¬ c.Has y

variable {b c : Block}

theorem Clear.symm (h : Clear b c) : Clear c b := fun y hc hb => h y hb hc

theorem has_addr (h : 0 < b.units) : b.Has b.addr := by
  simp only [Has, fin, HDR]
  omega

theorem has_last (h : 0 < b.units) : b.Has (b.fin - 1) := by
  simp only [Has, fin, HDR]
  omega

theorem Clear.apart (h : Clear b c) (hb : 0 < b.units) (hc : 0 < c.units) : b.fin ≤ c.addr ∨ c.fin ≤ b.addr := by
  have h1 := h b.addr (has_addr hb)
  have h2 := h c.addr
  simp only [Has, fin, HDR] at h1 h2 ⊢
  omega

theorem clear_of_fin_le (h : b.fin ≤ c.addr) : Clear b c := fun y hb hc => by
  simp only [Has] at hb hc
  omega

end Block

/-- The byte has been added by `sbrk`. -/
def Granted (regions : List (ℕ × ℕ)) (y : ℕ) : Prop := ∃ r ∈ regions, r.1 ≤ y ∧ y < r.1 + r.2

/-- **The blocks of the heap**: the free ones `fs` and the used ones `us`. -/
structure Layout (base sz : ℕ) (regions : List (ℕ × ℕ)) (fs us : List Block) : Prop where
  pos : ∀ b ∈ fs ++ us, 0 < b.units
  above : ∀ b ∈ fs ++ us, base + HDR ≤ b.addr
  below : ∀ b ∈ fs ++ us, b.fin ≤ sz
  sorted : fs.Pairwise fun b c => b.fin < c.addr
  used : us.Pairwise Block.Clear
  clear : ∀ b ∈ fs, ∀ c ∈ us, b.Clear c
  cover : ∀ y, (∃ b ∈ fs ++ us, b.Has y) ↔ Granted regions y

variable {base sz : ℕ} {regions : List (ℕ × ℕ)} {fs us lo hi P Q : List Block} {b c x : Block}

theorem Layout.perm {us' : List Block} (h : Layout base sz regions fs us) (hp : us.Perm us') :
    Layout base sz regions fs us' := by
  have hmem : ∀ b, b ∈ fs ++ us' ↔ b ∈ fs ++ us := fun b => by rw [List.mem_append, List.mem_append, hp.mem_iff]
  refine ⟨fun b hb => h.pos b ((hmem b).mp hb), fun b hb => h.above b ((hmem b).mp hb),
    fun b hb => h.below b ((hmem b).mp hb), h.sorted, (hp.pairwise_iff Block.Clear.symm).mp h.used,
    fun b hb c hc => h.clear b hb c (hp.mem_iff.mpr hc), fun y => ?_⟩
  rw [← h.cover y]
  simp only [hmem]

theorem Layout.nil : Layout base sz [] [] [] :=
  ⟨nofun, nofun, nofun, .nil, .nil, nofun, fun _ => ⟨nofun, nofun⟩⟩

/-! ## Headers -/

/-- The list with the static header. -/
def nodes (base : ℕ) (fs : List Block) : List Block := ⟨base, 0⟩ :: fs

theorem mem_nodes : b ∈ nodes base fs ↔ b = ⟨base, 0⟩ ∨ b ∈ fs := List.mem_cons

theorem Layout.nodes_sorted (h : Layout base sz regions fs us) : (nodes base fs).Pairwise fun b c => b.fin < c.addr := by
  refine List.pairwise_cons.mpr ⟨fun c hc => ?_, h.sorted⟩
  have := h.above c (List.mem_append_left _ hc)
  simp only [Block.fin, HDR] at this ⊢
  omega

theorem Layout.clear_of_ne (h : Layout base sz regions fs us) (hb : b ∈ fs ++ us) (hc : c ∈ fs ++ us) (hne : b ≠ c) :
    b.Clear c := by
  have hsymm : Std.Symm Block.Clear := ⟨fun _ _ => Block.Clear.symm⟩
  have hall : (fs ++ us).Pairwise Block.Clear := List.pairwise_append.mpr
    ⟨h.sorted.imp fun hlt => Block.clear_of_fin_le (Nat.le_of_lt hlt), h.used, h.clear⟩
  exact hall.forall hb hc hne

theorem Layout.off (h : Layout base sz regions fs us) (hb : b ∈ nodes base (fs ++ us)) (hc : c ∈ nodes base (fs ++ us)) :
    b = c ∨ Apart b.addr c.addr := by
  have hbase : ∀ b ∈ fs ++ us, Apart base b.addr := fun b hb => .inl (h.above b hb)
  rcases mem_nodes.mp hb with rfl | hb <;> rcases mem_nodes.mp hc with rfl | hc
  · exact .inl rfl
  · exact .inr (hbase c hc)
  · exact .inr (Or.symm (hbase b hb))
  · by_cases heq : b = c
    · exact .inl heq
    · have h1 := h.pos b hb
      have h2 := h.pos c hc
      have h3 := (h.clear_of_ne hb hc heq).apart h1 h2
      simp only [Apart, Block.fin, HDR] at h3 ⊢
      omega

theorem Layout.off_addr (h : Layout base sz regions fs us) (hb : b ∈ nodes base (fs ++ us))
    (hc : c ∈ nodes base (fs ++ us)) : Off b.addr c.addr := (h.off hb hc).imp (congrArg Block.addr) id

theorem Layout.eq_of_addr (h : Layout base sz regions fs us) (hb : b ∈ nodes base (fs ++ us))
    (hc : c ∈ nodes base (fs ++ us)) (he : b.addr = c.addr) : b = c := by
  refine (h.off hb hc).resolve_right fun hapart => ?_
  simp only [Apart, HDR] at hapart
  omega

theorem Layout.nodup (h : Layout base sz regions fs us) : ((nodes base fs).map Block.addr).Nodup := by
  refine List.pairwise_map.mpr (h.nodes_sorted.imp fun hlt he => ?_)
  simp only [Block.fin, HDR] at hlt
  omega

/-! ## What happens to the blocks -/

/-- **Joining**: the used block `c` becomes free, together with its neighbours `P` and `Q`. -/
theorem Layout.join (h : Layout base sz regions (lo ++ (P ++ (Q ++ hi))) (c :: us)) (hx : 0 < x.units)
    (hlo : ∀ b ∈ lo, b.fin < x.addr) (hhi : ∀ b ∈ hi, x.fin < b.addr)
    (hhas : ∀ y, x.Has y ↔ ∃ b ∈ c :: (P ++ Q), b.Has y) : Layout base sz regions (lo ++ x :: hi) us := by
  -- the parts of the new block are old ones
  have hpart : ∀ b ∈ c :: (P ++ Q), b ∈ lo ++ (P ++ (Q ++ hi)) ++ c :: us := by
    intro b hb
    simp only [List.mem_append, List.mem_cons] at hb ⊢
    tauto
  have hold : ∀ b ∈ lo ++ hi ++ us, b ∈ lo ++ (P ++ (Q ++ hi)) ++ c :: us := by
    intro b hb
    simp only [List.mem_append, List.mem_cons] at hb ⊢
    tauto
  have hmem : ∀ b, b ∈ lo ++ x :: hi ++ us ↔ b = x ∨ b ∈ lo ++ hi ++ us := by
    intro b
    simp only [List.mem_append, List.mem_cons]
    tauto
  have hsub : (lo ++ hi).Sublist (lo ++ (P ++ (Q ++ hi))) := List.Sublist.append_left
    ((List.sublist_append_right Q hi).trans (List.sublist_append_right P _)) lo
  have hsorted := List.pairwise_append.mp (h.sorted.sublist hsub)
  refine ⟨fun b hb => ?_, fun b hb => ?_, fun b hb => ?_, ?_, (List.pairwise_cons.mp h.used).2, fun b hb d hd => ?_,
    fun y => ?_⟩
  · rcases (hmem b).mp hb with rfl | hb
    · exact hx
    · exact h.pos b (hold b hb)
  · rcases (hmem b).mp hb with rfl | hb
    · obtain ⟨d, hd, hy⟩ := (hhas _).mp (Block.has_addr hx)
      exact le_trans (h.above d (hpart d hd)) hy.1
    · exact h.above b (hold b hb)
  · rcases (hmem b).mp hb with rfl | hb
    · obtain ⟨d, hd, hy⟩ := (hhas _).mp (Block.has_last hx)
      have hle := h.below d (hpart d hd)
      have hlt := hy.2
      omega
    · exact h.below b (hold b hb)
  · refine List.pairwise_append.mpr ⟨hsorted.1, List.pairwise_cons.mpr ⟨hhi, hsorted.2.1⟩, fun b hb d hd => ?_⟩
    rcases List.mem_cons.mp hd with rfl | hd
    · exact hlo b hb
    · exact hsorted.2.2 b hb d hd
  · have hclear : ∀ b ∈ lo ++ (P ++ (Q ++ hi)), b.Clear d := fun b hb => h.clear b hb d (List.mem_cons_of_mem _ hd)
    by_cases hbx : b = x
    · subst hbx
      intro y hy
      obtain ⟨e, he, hey⟩ := (hhas y).mp hy
      rcases List.mem_cons.mp he with rfl | he
      · exact (List.pairwise_cons.mp h.used).1 d hd y hey
      · refine hclear e ?_ y hey
        simp only [List.mem_append] at he ⊢
        tauto
    · refine hclear b ?_
      simp only [List.mem_append, List.mem_cons] at hb ⊢
      tauto
  · rw [← h.cover y]
    constructor
    · rintro ⟨b, hb, hy⟩
      rcases (hmem b).mp hb with rfl | hb
      · obtain ⟨d, hd, hdy⟩ := (hhas y).mp hy
        exact ⟨d, hpart d hd, hdy⟩
      · exact ⟨b, hold b hb, hy⟩
    · rintro ⟨b, hb, hy⟩
      by_cases hbp : b ∈ c :: (P ++ Q)
      · exact ⟨x, (hmem x).mpr (.inl rfl), (hhas y).mpr ⟨b, hbp, hy⟩⟩
      · refine ⟨b, (hmem b).mpr (.inr ?_), hy⟩
        simp only [List.mem_append, List.mem_cons] at hb hbp ⊢
        tauto

/-- **Handing out** a whole block. -/
theorem Layout.hand (h : Layout base sz regions (lo ++ x :: hi) us) : Layout base sz regions (lo ++ hi) (x :: us) := by
  have hmem : ∀ b, b ∈ lo ++ hi ++ x :: us ↔ b ∈ lo ++ x :: hi ++ us := by
    intro b
    simp only [List.mem_append, List.mem_cons]
    tauto
  have hsub : (lo ++ hi).Sublist (lo ++ x :: hi) := List.Sublist.append_left (List.sublist_cons_self x hi) lo
  have hx : x ∈ lo ++ x :: hi := List.mem_append_right _ List.mem_cons_self
  have hsorted := List.pairwise_append.mp h.sorted
  refine ⟨fun b hb => h.pos b ((hmem b).mp hb), fun b hb => h.above b ((hmem b).mp hb),
    fun b hb => h.below b ((hmem b).mp hb), h.sorted.sublist hsub,
    List.pairwise_cons.mpr ⟨fun c hc => h.clear x hx c hc, h.used⟩, fun b hb c hc => ?_, fun y => ?_⟩
  · rcases List.mem_cons.mp hc with rfl | hc
    · rcases List.mem_append.mp hb with hb | hb
      · exact Block.clear_of_fin_le (Nat.le_of_lt (hsorted.2.2 b hb c List.mem_cons_self))
      · exact (Block.clear_of_fin_le (Nat.le_of_lt ((List.pairwise_cons.mp hsorted.2.1).1 b hb))).symm
    · exact h.clear b (hsub.subset hb) c hc
  · rw [← h.cover y]
    simp only [hmem]

/-- **Cutting off** the end of a block. -/
theorem Layout.cut {k : ℕ} (h : Layout base sz regions (lo ++ x :: hi) us) (hk : 0 < k) (hlt : k < x.units) :
    Layout base sz regions (lo ++ ⟨x.addr, x.units - k⟩ :: hi) (⟨x.addr + HDR * (x.units - k), k⟩ :: us) := by
  have hx : x ∈ lo ++ x :: hi := List.mem_append_right _ List.mem_cons_self
  have hxu : x ∈ lo ++ x :: hi ++ us := List.mem_append_left _ hx
  have hhas : ∀ z, x.Has z ↔ (⟨x.addr, x.units - k⟩ : Block).Has z ∨ (⟨x.addr + HDR * (x.units - k), k⟩ : Block).Has z := by
    intro z
    simp only [Block.Has, Block.fin, HDR]
    omega
  have hfin : (⟨x.addr + HDR * (x.units - k), k⟩ : Block).fin = x.fin := by
    simp only [Block.fin, HDR]
    omega
  generalize hydef : (⟨x.addr + HDR * (x.units - k), k⟩ : Block) = y at hhas hfin ⊢
  generalize hwdef : (⟨x.addr, x.units - k⟩ : Block) = w at hhas ⊢
  have hy : y.addr = x.addr + HDR * (x.units - k) ∧ y.units = k := by rw [← hydef]; exact ⟨rfl, rfl⟩
  have hw : w.addr = x.addr ∧ w.units = x.units - k ∧ w.fin = y.addr := by
    rw [← hwdef, ← hydef]
    exact ⟨rfl, rfl, rfl⟩
  have hwfin : w.fin < x.fin := by
    rw [hw.2.2, ← hfin, Block.fin, hy.2, HDR]
    omega
  have hmem : ∀ b, b ∈ lo ++ w :: hi ++ y :: us ↔ b = w ∨ b = y ∨ b ∈ lo ++ hi ++ us := by
    intro b
    simp only [List.mem_append, List.mem_cons]
    tauto
  have hold : ∀ b, b ∈ lo ++ x :: hi ++ us ↔ b = x ∨ b ∈ lo ++ hi ++ us := by
    intro b
    simp only [List.mem_append, List.mem_cons]
    tauto
  obtain ⟨hslo, hsx, hcross⟩ := List.pairwise_append.mp h.sorted
  obtain ⟨hxhi, hshi⟩ := List.pairwise_cons.mp hsx
  refine ⟨fun b hb => ?_, fun b hb => ?_, fun b hb => ?_, ?_, ?_, fun b hb d hd => ?_, fun z => ?_⟩
  · rcases (hmem b).mp hb with rfl | rfl | hb
    · rw [hw.2.1]
      omega
    · rw [hy.2]
      exact hk
    · exact h.pos b ((hold b).mpr (.inr hb))
  · have habove := h.above x hxu
    rcases (hmem b).mp hb with rfl | rfl | hb
    · rw [hw.1]
      exact habove
    · rw [hy.1]
      omega
    · exact h.above b ((hold b).mpr (.inr hb))
  · have hbelow := h.below x hxu
    rcases (hmem b).mp hb with rfl | rfl | hb
    · omega
    · rw [hfin]
      exact hbelow
    · exact h.below b ((hold b).mpr (.inr hb))
  · refine List.pairwise_append.mpr ⟨hslo, List.pairwise_cons.mpr ⟨fun c hc => Nat.lt_trans hwfin (hxhi c hc), hshi⟩,
      fun b hb c hc => ?_⟩
    rcases List.mem_cons.mp hc with rfl | hc
    · rw [hw.1]
      exact hcross b hb x List.mem_cons_self
    · exact hcross b hb c (List.mem_cons_of_mem _ hc)
  · exact List.pairwise_cons.mpr ⟨fun c hc z hz => h.clear x hx c hc z ((hhas z).mpr (.inr hz)), h.used⟩
  · have hb' : b ∈ lo ∨ b = w ∨ b ∈ hi := by
      simpa only [List.mem_append, List.mem_cons] using hb
    rcases List.mem_cons.mp hd with rfl | hd
    · rcases hb' with hb | rfl | hb
      · have hlt := hcross b hb x List.mem_cons_self
        exact Block.clear_of_fin_le (by rw [hy.1]; omega)
      · exact Block.clear_of_fin_le (Nat.le_of_eq hw.2.2)
      · have hlt := hxhi b hb
        exact (Block.clear_of_fin_le (by rw [hfin]; omega)).symm
    · rcases hb' with hb | rfl | hb
      · exact h.clear b (List.mem_append_left _ hb) d hd
      · exact fun z hz => h.clear x hx d hd z ((hhas z).mpr (.inl hz))
      · exact h.clear b (List.mem_append_right _ (List.mem_cons_of_mem _ hb)) d hd
  · rw [← h.cover z]
    simp only [hmem, hold, or_and_right, exists_or, exists_eq_left]
    rw [hhas z, or_assoc]

/-- **Getting more**: the new memory is a used block. -/
theorem Layout.grow {a n sz' : ℕ} (h : Layout base sz regions fs us) (hbase : base + HDR ≤ sz) (hn : 0 < n) (ha : sz ≤ a)
    (hsz : a + HDR * n ≤ sz') : Layout base sz' (regions ++ [(a, HDR * n)]) fs (⟨a, n⟩ :: us) := by
  have hmem : ∀ b, b ∈ fs ++ ⟨a, n⟩ :: us ↔ b = ⟨a, n⟩ ∨ b ∈ fs ++ us := by
    intro b
    simp only [List.mem_append, List.mem_cons]
    tauto
  have hclear : ∀ b ∈ fs ++ us, b.Clear ⟨a, n⟩ := fun b hb => Block.clear_of_fin_le (le_trans (h.below b hb) ha)
  refine ⟨fun b hb => ?_, fun b hb => ?_, fun b hb => ?_, h.sorted, ?_, fun b hb c hc => ?_, fun y => ?_⟩
  · rcases (hmem b).mp hb with rfl | hb
    · exact hn
    · exact h.pos b hb
  · rcases (hmem b).mp hb with rfl | hb
    · exact le_trans hbase ha
    · exact h.above b hb
  · rcases (hmem b).mp hb with rfl | hb
    · exact hsz
    · have hle := h.below b hb
      omega
  · exact List.pairwise_cons.mpr ⟨fun c hc => (hclear c (List.mem_append_right _ hc)).symm, h.used⟩
  · rcases List.mem_cons.mp hc with rfl | hc
    · exact hclear b (List.mem_append_left _ hb)
    · exact h.clear b hb c hc
  · have hcover := h.cover y
    simp only [Granted, hmem, List.mem_append, List.mem_singleton, or_and_right, exists_or, exists_eq_left] at hcover ⊢
    rw [hcover, or_comm]
    rfl

/-- Free blocks that make up one piece of memory are one block, since no two of them are adjacent. -/
theorem Layout.single {lo hi : ℕ} (h : Layout base sz regions fs []) (hlt : lo < hi)
    (hg : ∀ y, Granted regions y ↔ lo ≤ y ∧ y < hi) : ∃ b, fs = [b] ∧ ∀ y, b.Has y ↔ lo ≤ y ∧ y < hi := by
  have hcover : ∀ y, (∃ b ∈ fs, b.Has y) ↔ lo ≤ y ∧ y < hi := fun y => by simpa [hg] using h.cover y
  cases fs with
  | nil => simpa using (hcover lo).mpr ⟨le_rfl, hlt⟩
  | cons b fs =>
    obtain ⟨hb, -⟩ := List.pairwise_cons.mp h.sorted
    cases fs with
    | nil => exact ⟨b, rfl, fun y => by simpa using hcover y⟩
    | cons c fs =>
      have hbc : b.fin < c.addr := hb c List.mem_cons_self
      have h1 := (hcover b.addr).mp ⟨b, by simp, Block.has_addr (h.pos b (by simp))⟩
      have h2 := (hcover c.addr).mp ⟨c, by simp, Block.has_addr (h.pos c (by simp))⟩
      -- the byte behind the first block is in no block
      have hle : b.addr ≤ b.fin := Nat.le_add_right ..
      obtain ⟨d, hd, hdy⟩ := (hcover b.fin).mpr ⟨by omega, by omega⟩
      rcases List.mem_cons.mp hd with rfl | hd
      · exact absurd hdy.2 (lt_irrefl _)
      · exact absurd (hb d hd) (not_lt.mpr hdy.1)

end Xv6.Malloc
