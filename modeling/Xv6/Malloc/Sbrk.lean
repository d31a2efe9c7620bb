import Xv6.Malloc.Integrity

/-!
# `malloc` on the kernel's `sbrk`

`sys_sbrk` takes a signed number of 32 bits. For a request of 2 GB or more `malloc` asks for a negative number, which
`growproc` takes as a success without any growth when the size of the process wraps around; and the rounding of a
request close to 4 GB wraps around to one unit.

- `fresh_sysSbrk`: for positive numbers `sys_sbrk` meets the contract of `sbrk`.
-/

namespace Xv6.Malloc

open Lib
open Vm (KERNBASE)

/-- What is left of the regions when the process ends at `sz`. -/
def cutAt (sz : ℕ) (regions : List (ℕ × ℕ)) : List (ℕ × ℕ) := regions.map fun r => (r.1, min r.2 (sz - r.1))

/-- `growproc`, as far as the size of the process goes: `n` is a signed number of 32 bits, and the next answer says whether
there is enough memory. -/
def growproc (n : ℕ) : Prog Bool := do
  let s ← get
  let newsz := (s.sz + n) % 2 ^ 32
  if n = 0 then return true
  else if n < 2 ^ 31 then
    -- `allocuvm`
    if KERNBASE ≤ newsz then return false
    else if newsz < s.sz then return true
    else
      match s.answers with
      | some _ :: rest =>
        set { s with sz := newsz, answers := rest, regions := s.regions ++ [(s.sz, newsz - s.sz)] }
        return true
      | _ => return false
  else
    -- `deallocuvm`
    if s.sz ≤ newsz then return true
    else if newsz = 0 then
      set { s with regions := cutAt 0 s.regions }
      return false
    else
      set { s with sz := newsz, regions := cutAt newsz s.regions }
      return true

def sysSbrk (n : ℕ) : Prog (Option ℕ) := do
  let s ← get
  if ← growproc n then return some s.sz else return none

theorem growproc_ok {s : State} {n : ℕ} (hlimit : s.sz ≤ KERNBASE) (hpos : 0 < n) (hsmall : n < 2 ^ 31) :
    ∃ ok t, growproc n s = .ok (ok, t) ∧ Answer s n (if ok then some s.sz else none) t := by
  have hnew : (s.sz + n) % 2 ^ 32 = s.sz + n := Nat.mod_eq_of_lt (by simp only [KERNBASE] at hlimit; omega)
  by_cases hlim : KERNBASE ≤ s.sz + n
  · refine ⟨false, s, wp.eq_ok ?_, rfl, rfl, rfl, rfl⟩
    rw [growproc, wp_bind, wp_get, hnew, if_neg (by omega), if_pos hsmall, if_pos hlim]
    exact ⟨rfl, rfl⟩
  have hpart : ¬s.sz + n < s.sz := by omega
  cases hans : s.answers with
  | nil =>
    refine ⟨false, s, wp.eq_ok ?_, rfl, rfl, rfl, rfl⟩
    rw [growproc, wp_bind, wp_get, hnew, if_neg (by omega), if_pos hsmall, if_neg hlim, if_neg hpart, hans]
    exact ⟨rfl, rfl⟩
  | cons r rest =>
    cases r with
    | none =>
      refine ⟨false, s, wp.eq_ok ?_, rfl, rfl, rfl, rfl⟩
      rw [growproc, wp_bind, wp_get, hnew, if_neg (by omega), if_pos hsmall, if_neg hlim, if_neg hpart, hans]
      exact ⟨rfl, rfl⟩
    | some gap =>
      refine ⟨true, { s with sz := s.sz + n, answers := rest, regions := s.regions ++ [(s.sz, n)] }, wp.eq_ok ?_,
        rfl, rfl, le_rfl, le_rfl, Nat.le_of_lt (Nat.not_le.mp hlim), rfl⟩
      rw [growproc, wp_bind, wp_get, hnew, if_neg (by omega), if_pos hsmall, if_neg hlim, if_neg hpart, hans,
        Nat.add_sub_cancel_left]
      exact ⟨rfl, rfl⟩

theorem fresh_sysSbrk : Fresh sysSbrk := by
  intro s n hlimit hpos hsmall
  obtain ⟨ok, t, hgrow, hanswer⟩ := growproc_ok hlimit hpos hsmall
  refine ⟨if ok then some s.sz else none, t, wp.eq_ok ?_, hanswer⟩
  rw [sysSbrk, wp_bind, wp_get, wp_bind, wp_of_ok hgrow]
  cases ok <;> exact ⟨rfl, rfl⟩

variable {base : ℕ} {s : Process}

instance (s : Process) (c : Call) : Decidable (Small s c) :=
  match c with
  | .malloc n _ => inferInstanceAs (Decidable (n ≤ 2 ^ 31 - 16))
  | .free _ => .isTrue trivial
  | .store _ _ => .isTrue trivial

/-- **`malloc` never returns less than asked for**: the bytes are in one block, and all of it has been added by `sbrk`. -/
theorem malloc_enough {mem : ℕ → Byte} {sz n r : ℕ} {tr : List (Process × Call)} {answers : List (Option ℕ)} {t : State}
    (hlow : 0 < base) (hroom : base + HDR ≤ sz) (hlimit : sz ≤ KERNBASE)
    (h : Path (step sysSbrk base) Small (boot mem sz) tr s) (hn : n ≤ 2 ^ 31 - 16)
    (hrun : malloc sysSbrk base n (s.heap.expect answers) = .ok (r, t)) (hr : r ≠ 0) :
    ∃ b : Block, r = b.addr + HDR ∧ r + n ≤ b.fin ∧ ∀ y, b.Has y → Granted t.regions y ∧ y < t.sz := by
  have hgood : Good base s := h.inv (good_boot hlow hroom hlimit) fun _ _ _ hg hc hs => hg.step fresh_sysSbrk hc hs
  obtain ⟨fs, hheap⟩ := hgood.init answers
  obtain ⟨r', t', hrun', fs', hres⟩ := malloc_ok fresh_sysSbrk hheap hn
  rw [hrun] at hrun'
  cases hrun'
  rcases hres with ⟨rfl, -⟩ | ⟨a, rfl, ht⟩
  · exact absurd rfl hr
  have hmem : (⟨a, units n⟩ : Block) ∈ fs' ++ ⟨a, units n⟩ :: s.live.map Live.block := by simp
  obtain ⟨hplus, hbytes⟩ := ht.plus_units hn
  refine ⟨⟨a, units n⟩, hplus, ?_, fun y hy => ⟨(ht.layout.cover y).mp ⟨_, hmem, hy⟩, ?_⟩⟩
  · show plus a 1 + n ≤ a + HDR * units n
    omega
  · exact lt_of_lt_of_le hy.2 (ht.layout.below _ hmem)

/-- A block of some bytes behind one of 40000. -/
theorem malloc_enough_second : ∃ s tr r t, Path (step sysSbrk 0x1000) Small (boot (fun _ => 0) 0x3000) tr s ∧
    malloc sysSbrk 0x1000 100 (s.heap.expect [some 0]) = .ok (r, t) ∧ r = 84960 ∧
    ∃ b : Block, r = b.addr + HDR ∧ r + 100 ≤ b.fin ∧ ∀ y, b.Has y → Granted t.regions y ∧ y < t.sz := by
  obtain ⟨s, hpath, hres⟩ := exists_path (step sysSbrk 0x1000) Small (boot (fun _ => 0) 0x3000)
    [.malloc 40000 [some 0], .malloc 10 []]
    (fun s => ∃ x ∈ (malloc sysSbrk 0x1000 100 (s.heap.expect [some 0])).toOption, x.1 = 84960) (by decide +kernel)
  obtain ⟨r, t, hrun, rfl⟩ := returns_of_toOption (Q := fun r _ => r = 84960) hres
  exact ⟨s, _, 84960, t, hpath, hrun, rfl,
    malloc_enough (by decide) (by decide) (by decide) hpath (by decide) hrun (by decide)⟩

/-- After the calls of a process of size 0x3000 not even the first byte of the last block has been added. -/
def Short (calls : List Call) : Prop :=
  ∃ s l, run (step sysSbrk 0x1000) (boot (fun _ => 0) 0x3000) calls = some s ∧ s.live.head? = some l ∧ 0 < l.n ∧
    ¬ Granted s.heap.regions (l.hdr + HDR)

theorem short_of_run {calls : List Call}
    (h : (run (step sysSbrk 0x1000) (boot (fun _ => 0) 0x3000) calls).any (fun s => s.live.head?.any fun l =>
      0 < l.n ∧ ∀ r ∈ s.heap.regions, ¬(r.1 ≤ l.hdr + HDR ∧ l.hdr + HDR < r.1 + r.2)) = true) : Short calls := by
  obtain ⟨s, hs, hl⟩ := (Option.any_eq_true _ _).mp h
  obtain ⟨l, hl, hbytes⟩ := (Option.any_eq_true _ _).mp hl
  obtain ⟨hn, hout⟩ := of_decide_eq_true hbytes
  exact ⟨s, l, hs, hl, hn, fun ⟨r, hr, hin⟩ => hout r hr hin⟩

/-- A request of 4 GB less a byte is rounded to one unit, a header without any bytes behind it. And with a size that is not
a whole number of pages, `sbrk` takes a request for 2 GB as a negative number, and succeeds without adding anything. -/
theorem malloc_short : Short [.malloc (2 ^ 32 - 1) [some 0]] ∧ Short [.malloc 40000 [some 0], .malloc (2 ^ 31) []] :=
  ⟨short_of_run (by decide +kernel), short_of_run (by decide +kernel)⟩

end Xv6.Malloc
