import Xv6.Vm.Image
import Xv6.Vm.System

/-!
# Failure and the free list

When `setupkvm`, `copyuvm`, `fork` or `exec` fails, the free list has the pages that it had before if every page table is
found that the call asks for, and only then: `setupkvm` does not free what it has allocated when one is missing, `copyuvm`
does not free the page that it could not map, and `allocuvm` does not look at the result of `mappages`.
-/

namespace Xv6.Vm

open Lib

variable {s t : Mem} {rest : Frame → ℕ} {fails : List Use} {sz : ℕ}

/-- `setupkvm` finds the page tables of the kernel part, or no page for the directory. -/
def DirTables (fails : List Use) : Prop := Use.dir ∉ fails → KernelFound fails

/-- `copyuvm` finds the page tables that it asks for. -/
def CopyTables (fails : List Use) (sz : ℕ) : Prop :=
  DirTables fails ∧ (KernelFound fails → NewTables fails 0 (npages sz))

theorem wp_setupkvm_free : wp (setupkvm fails)
    (fun ok t => ok = false → ((∀ g, t.kmem.avail g = s.kmem.avail g) ↔ DirTables fails)) anyStop s := by
  refine wp_setupkvm (fun hfail _ => iff_of_true (fun _ => rfl) fun h => absurd hfail h) (fun hdir hno t ht _ => ?_) nofun
  obtain ⟨f, hf⟩ := ht.taken
  exact iff_of_false (fun hsame => hf.ne (hsame f)) fun h => hno (h hdir)

theorem wp_copyuvm_free {parent : Pgdir} (hs : Sound rest s) (hsz : sz ≤ KERNBASE) :
    wp (copyuvm fails parent sz) (fun ok t => t.kmem.first = s.kmem.first ∧
      (ok = false → ((∀ g, t.kmem.avail g = s.kmem.avail g) ↔ CopyTables fails sz))) anyStop s := by
  refine wp_copyuvm hs hsz (.inr ⟨trivial, trivial⟩) (fun hfail => ⟨rfl, fun _ => ?_⟩) (fun hdir hno t ht => ?_)
    fun hkernel t ht ok u hu => ?_
  · exact iff_of_true (fun _ => rfl) ⟨fun h => absurd hfail h, fun h => absurd hfail h.1⟩
  · obtain ⟨f, hf⟩ := ht.taken
    exact ⟨ht.first, fun _ => iff_of_false (fun hsame => hf.ne (hsame f)) fun h => hno (h.1 hdir)⟩
  · refine ⟨hu.first.trans ht.first, fun hok => ?_⟩
    have havail : ∀ g, u.kmem.avail g = u.total g := fun g => by
      rw [Mem.total, hu.empty hok, Pgdir.holds_empty, Nat.add_zero]
    have htables : CopyTables fails sz ↔ NewTables fails 0 (npages sz) :=
      ⟨fun h => h.2 hkernel, fun h => ⟨fun _ => hkernel, fun _ => h⟩⟩
    rw [htables]
    constructor
    · intro hsame
      by_contra hno
      obtain ⟨g, hg⟩ := hu.lost hno
      rw [ht.total g, ← havail g, hsame g] at hg
      exact lt_irrefl _ hg
    · intro h g
      rw [havail g, hu.total h g, ht.total g]

theorem wp_fork_free {P : Proc} (hs : Sound rest s) (hsz : P.sz ≤ KERNBASE) :
    wp (fork fails P) (fun r t => r = none → ((∀ g, t.kmem.avail g = s.kmem.avail g) ↔
      (Use.kstack ∉ fails → CopyTables fails P.sz))) anyStop s := by
  unfold fork
  rw [wp_bind]
  refine wp_kalloc (fun hfail _ => iff_of_true (fun _ => rfl) fun h => absurd hfail h) fun kstack u hfound hb ha => ?_
  have hu : Sound (plus rest kstack) u := hs.take hb ha
  have hfirst : u.kmem.first ≤ kstack := hu.first_le (by simp [plus])
  simp only [wp_bind]
  refine (wp_copyuvm_free hu hsz).mono fun ok v hv => ?_
  cases ok with
  | true =>
    intro h
    cases h
  | false =>
    simp only [Bool.false_eq_true, if_false, wp_bind]
    refine wp_kfree (by rw [hv.1]; exact hfirst) fun w _ hw _ => ?_
    rw [imp_iff_right hfound, ← hv.2 rfl]
    -- the kernel stack is given back
    refine forall_congr' fun g => ?_
    have h1 := ha g
    have h2 := hw g
    omega

/-- The same pages are free, each of them once. -/
def SameFree (s t : Mem) : Prop := ∀ f, t.kmem.avail f = s.kmem.avail f ∧ t.kmem.avail f ≤ 1

theorem sameFree_iff (hs : Sound rest s) : SameFree s t ↔ ∀ g, t.kmem.avail g = s.kmem.avail g := by
  refine forall_congr' fun g => and_iff_left_of_imp fun h => ?_
  have := hs.le_one g
  rw [Mem.total] at this
  omega

/-- The memory beside the first process. -/
def Mem.boot (first : Frame) : Mem := ⟨(Vm.boot first).kmem, .empty, [], []⟩

theorem sound_boot {first : Frame} (h : 0 < first) : Sound (fun _ => 0) (.boot first) := by
  refine (boot_good h : Good False (boot first)).sound.of_le rfl fun f => ?_
  rw [Sys.total_mem, Mem.total]
  simp [Mem.boot, Pgdir.holds_empty]

end Xv6.Vm
