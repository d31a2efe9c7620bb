import Xv6.Malloc.Alloc
import Xv6.Lib.Transition

/-!
# The heap of a process over its whole run

A process calls `malloc` and `free` in any order, and writes to the bytes that it has asked for. `sbrk` fails, or
returns any region above the ones before (`sbrk`).
-/

namespace Xv6.Malloc

open Lib
open Function (update update_of_ne)
open Vm (KERNBASE)

/-! ## The machine -/

/-- A block that the process has: its header, its size in units, and the number of bytes asked for. -/
structure Live where
  hdr : ℕ
  units : ℕ
  n : ℕ
deriving DecidableEq

def Live.block (l : Live) : Block := ⟨l.hdr, l.units⟩

structure Process where
  heap : State
  live : List Live

inductive Call where
  | malloc (n : ℕ) (answers : List (Option ℕ))
  | free (ap : ℕ)
  | store (y : ℕ) (b : Byte)

/-- `sbrk` as the environment: each answer is a failure, or the distance of the new region to the memory there is. -/
def sbrk (n : ℕ) : Prog (Option ℕ) := do
  let s ← get
  match s.answers with
  | some gap :: rest =>
    if s.sz + gap + n ≤ KERNBASE then
      set { s with sz := s.sz + gap + n, answers := rest, regions := s.regions ++ [(s.sz + gap, n)] }
      return some (s.sz + gap)
    else return none
  | _ => return none

/-- The answers that `sbrk` will have in a call. -/
def State.expect (s : State) (answers : List (Option ℕ)) : State := { s with answers := answers }

/-- The process behind a call that returns. -/
def behind {α : Type} (run : Except Stop (α × State)) (f : α → State → Process) : Option Process :=
  match run with
  | .ok (a, t) => some (f a t)
  | .error _ => none

section

variable (sbrk : ℕ → Prog (Option ℕ)) (base : ℕ)

/-- One call. A block is freed once, and the process writes to its own bytes only. -/
def step (s : Process) : Call → Option Process
  | .malloc n answers =>
    behind (malloc sbrk base n (s.heap.expect answers)) fun r t =>
      ⟨t, if r = 0 then s.live else ⟨r - HDR, t.size (r - HDR), n⟩ :: s.live⟩
  | .free ap =>
    (s.live.find? fun l => l.hdr + HDR = ap).bind fun l => behind (free ap s.heap) fun _ t => ⟨t, s.live.erase l⟩
  | .store y b =>
    if ∃ l ∈ s.live, l.hdr + HDR ≤ y ∧ y < l.hdr + HDR + l.n then
      some { s with heap := { s.heap with mem := update s.heap.mem y b } }
    else none

end

/-- The start of a process of size `sz`: nothing has been asked for. -/
def boot (mem : ℕ → Byte) (sz : ℕ) : Process := ⟨⟨mem, 0, sz, [], []⟩, []⟩

/-! ## The invariant -/

variable {base : ℕ} {s t : Process} {c : Call} {sb : ℕ → Prog (Option ℕ)}

/-- The free list is in memory, or it has not been made yet. -/
inductive Listed (base : ℕ) (s : Process) : List Block → Prop
  | empty : s.heap.freep = 0 → s.heap.regions = [] → s.live = [] → Listed base s []
  | heap {fs : List Block} : Heap base s.heap fs (s.live.map Live.block) → Listed base s fs

/-- **The invariant.** -/
structure Good (base : ℕ) (s : Process) : Prop where
  low : 0 < base
  room : base + HDR ≤ s.heap.sz
  limit : s.heap.sz ≤ KERNBASE
  listed : ∃ fs, Listed base s fs
  fits : ∀ l ∈ s.live, l.n + HDR ≤ HDR * l.units

/-- Requests of which the size does not overflow. -/
def Small (_ : Process) : Call → Prop
  | .malloc n _ => n ≤ 2 ^ 31 - 16
  | _ => True

theorem Good.init (h : Good base s) (answers : List (Option ℕ)) :
    ∃ fs, Heap base ((s.heap.expect answers).init base) fs (s.live.map Live.block) := by
  obtain ⟨fs, hl⟩ := h.listed
  cases hl with
  | empty hf hr hlive =>
    refine ⟨[], ?_⟩
    rw [hlive]
    exact .init h.low h.room h.limit hf hr
  | heap hh =>
    refine ⟨fs, ?_⟩
    obtain ⟨b, hb, hba⟩ := List.mem_map.mp hh.freep
    have hne : s.heap.freep ≠ 0 := by
      rw [← hba]
      exact Nat.pos_iff_ne_zero.mp (hh.fin_lt (Heap.mem_free hb)).2
    rw [State.init, if_neg (show (s.heap.expect answers).freep ≠ 0 from hne)]
    exact hh.congr rfl rfl rfl rfl

theorem Good.of_heap (fs : List Block) (hh : Heap base s.heap fs (s.live.map Live.block))
    (hfits : ∀ l ∈ s.live, l.n + HDR ≤ HDR * l.units) : Good base s :=
  ⟨hh.low, hh.room, hh.limit, ⟨fs, .heap hh⟩, hfits⟩

theorem Heap.plus_units {t : State} {fs us : List Block} {a n : ℕ} (h : Heap base t fs (⟨a, units n⟩ :: us))
    (hn : n ≤ 2 ^ 31 - 16) : plus a 1 = a + HDR ∧ n + HDR ≤ HDR * units n := by
  have hfin := (h.fin_lt (b := ⟨a, units n⟩) (by simp [mem_nodes])).1
  obtain ⟨hpos, hbytes, -⟩ := units_bounds hn
  refine ⟨?_, hbytes⟩
  simp only [Block.fin, plus, HDR] at hfin hpos ⊢
  omega

theorem Good.malloc {n : ℕ} (hsb : Fresh sb) (h : Good base s) (hn : n ≤ 2 ^ 31 - 16) (answers : List (Option ℕ)) :
    ∃ t, step sb base s (.malloc n answers) = some t ∧ Good base t := by
  obtain ⟨fs, hh⟩ := h.init answers
  obtain ⟨r, t, hrun, fs', hr⟩ := malloc_ok hsb hh hn
  refine ⟨⟨t, if r = 0 then s.live else ⟨r - HDR, t.size (r - HDR), n⟩ :: s.live⟩, by rw [Malloc.step, hrun]; rfl, ?_⟩
  rcases hr with ⟨rfl, ht⟩ | ⟨a, rfl, ht⟩
  · exact .of_heap fs' ht h.fits
  · have hmem : (⟨a, units n⟩ : Block) ∈ nodes base (fs' ++ ⟨a, units n⟩ :: s.live.map Live.block) := by simp [mem_nodes]
    obtain ⟨hplus, hbytes⟩ := ht.plus_units hn
    have hne : plus a 1 ≠ 0 := by
      rw [hplus]
      simp only [HDR]
      omega
    have hhdr : plus a 1 - HDR = a := by
      rw [hplus]
      exact Nat.add_sub_cancel ..
    rw [if_neg hne, hhdr, ht.size _ hmem]
    refine .of_heap fs' ht fun l hl => ?_
    rcases List.mem_cons.mp hl with rfl | hl
    · exact hbytes
    · exact h.fits l hl

theorem Good.free {l : Live} (h : Good base s) (hl : l ∈ s.live) :
    ∃ t, Malloc.free (l.hdr + HDR) s.heap = .ok ((), t) ∧ Good base ⟨t, s.live.erase l⟩ := by
  obtain ⟨fs, hlisted⟩ := h.listed
  cases hlisted with
  | empty _ _ hlive =>
    rw [hlive] at hl
    cases hl
  | heap hh =>
    have hperm := (List.perm_cons_erase hl).map Live.block
    have hh := hh.perm hperm
    have hplus : plus l.hdr 1 = l.hdr + HDR := by
      have hfin := (hh.fin_lt (b := l.block) (by simp [mem_nodes])).1
      have hpos := hh.layout.pos l.block (by simp)
      simp only [Live.block, Block.fin, plus, HDR] at hfin hpos ⊢
      omega
    obtain ⟨m, p, fs', hrun, hheap, -⟩ := free_ok hh
    rw [← hplus]
    exact ⟨_, hrun, .of_heap fs' hheap fun l' hl' => h.fits l' (List.mem_of_mem_erase hl')⟩

theorem Heap.store {s : State} {fs us : List Block} {u : Block} {y : ℕ} (b : Byte) (h : Heap base s fs us) (hu : u ∈ us)
    (hlo : u.addr + HDR ≤ y) (hhi : y < u.fin) : Heap base { s with mem := update s.mem y b } fs us := by
  have hout : ∀ c ∈ nodes base (fs ++ us), y < c.addr ∨ c.addr + HDR ≤ y := by
    intro c hc
    rcases mem_nodes.mp hc with rfl | hc
    · have habove := h.layout.above u (List.mem_append_right _ hu)
      exact .inr (by show base + HDR ≤ y; omega)
    · by_cases hcu : c = u
      · exact .inr (hcu ▸ hlo)
      · have h1 := h.layout.pos c hc
        have h2 := (h.layout.clear_of_ne hc (List.mem_append_right _ hu) hcu).apart h1
          (h.layout.pos u (List.mem_append_right _ hu))
        simp only [Block.fin, HDR] at h1 h2 hlo hhi ⊢
        omega
  have hword : ∀ a, (y < a ∨ a + 4 ≤ y) → word32 (update s.mem y b) a = word32 s.mem a := by
    intro a ha
    exact word32_congr fun i hi => update_of_ne (by omega) ..
  have hptr : ∀ c ∈ nodes base (fs ++ us), (State.ptr { s with mem := update s.mem y b } c.addr) = s.ptr c.addr := by
    intro c hc
    have := hout c hc
    simp only [HDR] at this
    rw [State.ptr, hword _ (by omega)]
    rfl
  have hsize : ∀ c ∈ nodes base (fs ++ us), (State.size { s with mem := update s.mem y b } c.addr) = s.size c.addr := by
    intro c hc
    have := hout c hc
    simp only [HDR] at this
    rw [State.size, hword _ (by omega)]
    rfl
  refine ⟨h.layout, h.low, h.room, h.limit, h.ring.congr fun a ha => ?_, fun c hc => (hsize c hc).trans (h.size c hc), h.freep⟩
  obtain ⟨c, hc, rfl⟩ := List.mem_map.mp ha
  exact hptr c (Heap.mem_free hc)

theorem small_malloc {n : ℕ} {answers : List (Option ℕ)} : Small s (.malloc n answers) ↔ n ≤ 2 ^ 31 - 16 := Iff.rfl

theorem Good.step (hsb : Fresh sb) (h : Good base s) (hc : Small s c) (hs : step sb base s c = some t) : Good base t := by
  cases c with
  | malloc n answers =>
    obtain ⟨u, hu, hgood⟩ := h.malloc hsb (small_malloc.mp hc) answers
    rw [hs] at hu
    cases hu
    exact hgood
  | free ap =>
    cases hfind : s.live.find? fun l => l.hdr + HDR = ap with
    | none =>
      rw [Malloc.step, hfind] at hs
      cases hs
    | some l =>
      have hl : l ∈ s.live := List.mem_of_find?_eq_some hfind
      have hap : l.hdr + HDR = ap := by simpa using List.find?_some hfind
      obtain ⟨u, hrun, hgood⟩ := h.free hl
      rw [hap] at hrun
      rw [Malloc.step, hfind, Option.bind_some, hrun] at hs
      cases hs
      exact hgood
  | store y b =>
    unfold Malloc.step at hs
    by_cases hy : ∃ l ∈ s.live, l.hdr + HDR ≤ y ∧ y < l.hdr + HDR + l.n
    · simp only [hy, if_true, Option.some.injEq] at hs
      obtain ⟨l, hl, hlo, hhi⟩ := hy
      obtain ⟨fs, hlisted⟩ := h.listed
      cases hlisted with
      | empty _ _ hlive =>
        rw [hlive] at hl
        cases hl
      | heap hh =>
        have hfit := h.fits l hl
        have hheap := hh.store b (List.mem_map_of_mem hl) hlo (by simp only [Live.block, Block.fin]; omega)
        rw [← hs]
        exact .of_heap fs hheap h.fits
    · simp only [hy, if_false] at hs
      cases hs

theorem fresh_sbrk : Fresh sbrk := by
  intro s n hlimit _ _
  have hfail : Answer s n none s := ⟨rfl, rfl, rfl, rfl⟩
  cases hans : s.answers with
  | nil =>
    refine ⟨none, s, wp.eq_ok ?_, hfail⟩
    rw [sbrk, wp_bind, wp_get, hans]
    exact ⟨rfl, rfl⟩
  | cons r rest =>
    cases r with
    | none =>
      refine ⟨none, s, wp.eq_ok ?_, hfail⟩
      rw [sbrk, wp_bind, wp_get, hans]
      exact ⟨rfl, rfl⟩
    | some gap =>
      by_cases hfit : s.sz + gap + n ≤ KERNBASE
      · refine ⟨some (s.sz + gap),
          { s with sz := s.sz + gap + n, answers := rest, regions := s.regions ++ [(s.sz + gap, n)] }, wp.eq_ok ?_,
          rfl, rfl, Nat.le_add_right _ _, le_rfl, hfit, rfl⟩
        rw [sbrk, wp_bind, wp_get, hans]
        show wp (if s.sz + gap + n ≤ KERNBASE then _ else _) _ _ s
        rw [if_pos hfit]
        exact ⟨rfl, rfl⟩
      · refine ⟨none, s, wp.eq_ok ?_, hfail⟩
        rw [sbrk, wp_bind, wp_get, hans]
        show wp (if s.sz + gap + n ≤ KERNBASE then _ else _) _ _ s
        rw [if_neg hfit]
        exact ⟨rfl, rfl⟩

/-! ## Runs -/

theorem good_boot {mem : ℕ → Byte} {sz : ℕ} (hlow : 0 < base) (hroom : base + HDR ≤ sz) (hlimit : sz ≤ KERNBASE) :
    Good base (boot mem sz) := ⟨hlow, hroom, hlimit, ⟨[], .empty rfl rfl rfl⟩, nofun⟩

theorem Good.layout (h : Good base s) :
    ∃ fs, Listed base s fs ∧ Layout base s.heap.sz s.heap.regions fs (s.live.map Live.block) := by
  obtain ⟨fs, hlisted⟩ := h.listed
  refine ⟨fs, hlisted, ?_⟩
  cases hlisted with
  | empty _ hr hl =>
    rw [hr, hl]
    exact .nil
  | heap hh => exact hh.layout

theorem Good.usable {l : Live} (h : Good base s) (hl : l ∈ s.live) :
    s.heap.size l.hdr = l.units ∧ l.n ≤ HDR * (l.units - 1) := by
  have hfit := h.fits l hl
  obtain ⟨fs, hlisted⟩ := h.listed
  cases hlisted with
  | empty _ _ hlive =>
    rw [hlive] at hl
    cases hl
  | heap hh =>
    refine ⟨hh.size l.block ?_, by simp only [HDR] at hfit ⊢; omega⟩
    exact mem_nodes.mpr (.inr (List.mem_append_right _ (List.mem_map_of_mem hl)))

theorem Good.freed {l : Live} (h : Good base s) (hl : l ∈ s.live) :
    ∃ t, Malloc.step sb base s (.free (l.hdr + HDR)) = some t := by
  cases hfind : s.live.find? fun l' => l'.hdr + HDR = l.hdr + HDR with
  | none => exact absurd (List.find?_eq_none.mp hfind l hl) (by simp)
  | some l' =>
    have hl' : l' ∈ s.live := List.mem_of_find?_eq_some hfind
    have hap : l'.hdr + HDR = l.hdr + HDR := by simpa using List.find?_some hfind
    obtain ⟨u, hrun, -⟩ := h.free hl'
    refine ⟨⟨u, s.live.erase l'⟩, ?_⟩
    rw [Malloc.step, hfind, Option.bind_some, ← hap, hrun]
    rfl

/-- Requests of at most 256 MB. -/
def Moderate (_ : Process) : Call → Prop
  | .malloc n _ => n ≤ 2 ^ 28
  | _ => True

theorem Moderate.small (h : Moderate s c) : Small s c := by
  cases c with
  | malloc n answers => exact le_trans (show n ≤ 2 ^ 28 from h) (by decide)
  | free ap => trivial
  | store y b => trivial

/-- **The heap keeps its integrity** in every run: the free list is a circle through `base` in increasing order, the free
and the used blocks are disjoint and make up the memory that `sbrk` has added, no two free blocks are adjacent, each block
has room for what was asked for, and every call returns. -/
theorem heap_integrity {mem : ℕ → Byte} {sz : ℕ} {tr : List (Process × Call)} (hlow : 0 < base) (hroom : base + HDR ≤ sz)
    (hlimit : sz ≤ KERNBASE) (h : Path (step sbrk base) Moderate (boot mem sz) tr s) :
    (∃ fs, Listed base s fs ∧ Layout base s.heap.sz s.heap.regions fs (s.live.map Live.block)) ∧
    (∀ l ∈ s.live, s.heap.size l.hdr = l.units ∧ l.n ≤ HDR * (l.units - 1)) ∧
    (∀ n ≤ 2 ^ 28, ∀ answers, ∃ t, step sbrk base s (.malloc n answers) = some t) ∧
    ∀ l ∈ s.live, ∃ t, step sbrk base s (.free (l.hdr + HDR)) = some t := by
  have hgood : Good base s := h.inv (good_boot hlow hroom hlimit) fun _ _ _ hg hc hs => hg.step fresh_sbrk hc.small hs
  refine ⟨hgood.layout, fun l hl => hgood.usable hl, fun n hn answers => ?_, fun l hl => hgood.freed hl⟩
  obtain ⟨t, ht, -⟩ := hgood.malloc fresh_sbrk (le_trans hn (by decide)) answers
  exact ⟨t, ht⟩

instance (s : Process) (c : Call) : Decidable (Moderate s c) :=
  match c with
  | .malloc n _ => inferInstanceAs (Decidable (n ≤ 2 ^ 28))
  | .free _ => .isTrue trivial
  | .store _ _ => .isTrue trivial

/-- Two blocks from one region, of which the first is freed again. -/
theorem heap_integrity_two : ∃ s tr fs, Path (step sbrk 0x1000) Moderate (boot (fun _ => 0) 0x3000) tr s ∧
    s.live = [⟨44936, 14, 100⟩] ∧ Listed 0x1000 s fs ∧
    Layout 0x1000 s.heap.sz s.heap.regions fs [⟨44936, 14⟩] := by
  obtain ⟨s, hpath, hlive⟩ := exists_path (step sbrk 0x1000) Moderate (boot (fun _ => 0) 0x3000)
    [.malloc 10 [some 16], .malloc 100 [], .free 45056] (fun s => s.live = [⟨44936, 14, 100⟩]) (by decide +kernel)
  obtain ⟨⟨fs, hlisted, hlayout⟩, -⟩ := heap_integrity (by decide) (by decide) (by decide) hpath
  rw [hlive] at hlayout
  exact ⟨s, _, fs, hpath, hlive, hlisted, hlayout⟩

/-- **Nothing is left in pieces.** In every run, when the process has freed all its blocks and what `sbrk` has added is
one piece of memory, the free list is one block with all of it. -/
theorem heap_whole_again {mem : ℕ → Byte} {sz : ℕ} {tr : List (Process × Call)} {lo hi : ℕ} (hlow : 0 < base)
    (hroom : base + HDR ≤ sz) (hlimit : sz ≤ KERNBASE) (h : Path (step sbrk base) Moderate (boot mem sz) tr s)
    (hfree : s.live = []) (hlt : lo < hi) (hg : ∀ y, Granted s.heap.regions y ↔ lo ≤ y ∧ y < hi) :
    s.heap.ptr base = lo ∧ s.heap.ptr lo = base ∧ HDR * s.heap.size lo = hi - lo := by
  have hgood : Good base s := h.inv (good_boot hlow hroom hlimit) fun _ _ _ hg hc hs => hg.step fresh_sbrk hc.small hs
  obtain ⟨fs, hlisted, hlayout⟩ := hgood.layout
  rw [hfree] at hlayout
  obtain ⟨b, rfl, hb⟩ := hlayout.single hlt hg
  have hpos := hlayout.pos b (by simp)
  have hfirst := (hb b.addr).mp (Block.has_addr hpos)
  have hlast := (hb (b.fin - 1)).mp (Block.has_last hpos)
  have hlo := (hb lo).mpr ⟨le_rfl, hlt⟩
  have hhi := (hb (hi - 1)).mpr ⟨by omega, by omega⟩
  obtain rfl : b.addr = lo := le_antisymm hlo.1 hfirst.1
  cases hlisted with
  | heap hh =>
    have hsize := hh.size b (by simp [mem_nodes])
    have hbase := hh.ptr_eq (A := []) (p := ⟨base, 0⟩) (R := [b]) rfl
    have hback := hh.ptr_eq (A := [⟨base, 0⟩]) (p := b) (R := []) rfl
    refine ⟨hbase, hback, ?_⟩
    rw [hsize]
    simp only [Block.Has, Block.fin, HDR] at hlast hhi ⊢
    omega

/-- Three blocks are freed in another order. -/
theorem heap_whole_again_three : ∃ s tr, Path (step sbrk 0x1000) Moderate (boot (fun _ => 0) 0x3000) tr s ∧
    s.heap.ptr 0x1000 = 0x3000 ∧ s.heap.ptr 0x3000 = 0x1000 ∧ HDR * s.heap.size 0x3000 = 0xb000 - 0x3000 := by
  obtain ⟨s, hpath, hlive, hregions⟩ := exists_path (step sbrk 0x1000) Moderate (boot (fun _ => 0) 0x3000)
    [.malloc 10 [some 0], .malloc 100 [], .malloc 20 [], .free 44928, .free 44896, .free 45040]
    (fun s => s.live = [] ∧ s.heap.regions = [(0x3000, 0x8000)]) (by decide +kernel)
  refine ⟨s, _, hpath, heap_whole_again (by decide) (by decide) (by decide) hpath hlive (by decide) fun y => ?_⟩
  simp [Granted, hregions]

end Xv6.Malloc
