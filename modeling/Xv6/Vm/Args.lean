import Xv6.Lib.Cells
import Xv6.Vm.Spare

/-!
# The arguments of a new program

`exec` pushes the strings downwards from the end of memory, and then the array of their addresses with three words in
front of it. Below the page of the stack there is a page without `PTE_U`, and a `copyout` that touches it fails
(`Copies.touches`).
-/

namespace Xv6.Vm

open Lib
open Function (update update_of_ne update_self)

namespace Bytes

variable {R T U : Ram} {rest : Frame → ℕ} {fails : List Use} {va sp sz n : ℕ} {d : Pgdir} {buf : List Byte}

/-! ## `copyout` -/

/-- **What a `copyout` that succeeds has touched** is there for users. -/
theorem Copies.touches {guard len i : ℕ} (h : Copies fails n guard va len) (hi : i < len) :
    (va + i) % 2 ^ 32 < KERNBASE ∧ (va + i) % 2 ^ 32 / PGSIZE ≠ guard := by
  have hpage : (va % PGSIZE + i) / PGSIZE < npages (va % PGSIZE + len) := by
    simp only [npages, PGSIZE]
    omega
  obtain ⟨⟨hlt, -, -⟩, hne⟩ := h _ hpage
  simp only [pageAt, pgrounddown, PGSIZE, KERNBASE] at hlt hne ⊢
  omega

theorem copyout_stores (hpage : va - pgrounddown va + buf.length ≤ PGSIZE) (hpos : 0 < buf.length) :
    wp (copyout va buf) (fun ok T => ok = true → ∃ e, R.mem.pgdir.walk (pgrounddown va) = some e ∧ e.present = true ∧
      T = R.store e.frame (va - pgrounddown va) buf) anyStop R := by
  have hmin : min buf.length (PGSIZE - (va - pgrounddown va)) = buf.length := by omega
  obtain ⟨fuel, hfuel⟩ : ∃ fuel, buf.length / PGSIZE + 3 = fuel + 2 := ⟨buf.length / PGSIZE + 1, by omega⟩
  unfold copyout
  rw [hfuel]
  unfold copyoutFrom
  rw [if_pos hpos, wp_bind, wp_part, hmin, List.take_length, List.drop_length]
  refine wp_uva2ka (fun _ => trivial) (fun _ _ _ h => by cases h) fun e he hflags => ?_
  simp only
  rw [wp_bind, wp_get, wp_bind, wp_set]
  unfold copyoutFrom
  rw [if_neg (by simp), wp_pure]
  exact fun _ => ⟨e, he, hflags.1, rfl⟩

/-! ## The guard page -/

/-- **The memory in which the arguments are pushed**: its last page is the stack, and the page below is not for users.
-/
structure Ready (fails : List Use) (rest : Frame → ℕ) (sz : ℕ) (R : Ram) : Prop where
  stage : Stage fails rest (npages sz) R.mem
  guards : Guards (sz / PGSIZE - 2) R.mem.pgdir
  low : 2 * PGSIZE ≤ sz
  high : sz < KERNBASE
  aligned : sz % PGSIZE = 0

theorem walk_pgrounddown {e : Pte} (hva : va < KERNBASE) (h : d.walk (pgrounddown va) = some e) :
    d.pte (va / PGSIZE) = e := by
  have hdiv : pgrounddown va / PGSIZE = va / PGSIZE := Nat.mul_div_cancel _ (by decide)
  have hlt : pgrounddown va < KERNBASE := lt_of_le_of_lt (Nat.div_mul_le_self va PGSIZE) hva
  rw [walk_user hlt, hdiv] at h
  split_ifs at h
  exact Option.some.inj h

/-- **A range that ends at the stack pointer** and touches neither the page below the stack nor the kernel lies in the
page of the stack. -/
theorem below_guard {base len y : ℕ} (hbase : 4096 ≤ base) (hlim : base + 4096 < 2 ^ 31) (hlo : base ≤ sp)
    (hhi : sp ≤ base + 4096) (hlen : 0 < len) (hy : y ≤ (sp + 2 ^ 32 - len % 2 ^ 32) % 2 ^ 32)
    (hy' : (sp + 2 ^ 32 - len % 2 ^ 32) % 2 ^ 32 < y + 4)
    (htouch : ∀ i < len, (y + i) % 2 ^ 32 < 2 ^ 31 ∧ ((y + i) % 2 ^ 32 < base - 4096 ∨ base ≤ (y + i) % 2 ^ 32)) :
    base ≤ y ∧ y + len ≤ sp := by
  by_cases hlong : sp < len
  · -- the range runs over the end of the address space
    have hend := htouch (2 ^ 32 - 1 - y)
    omega
  · have hlast := htouch (len - 1)
    have hedge := htouch (base - 1 - y)
    omega

/-- **A store into a mapped page** changes the bytes at one place of user memory. -/
theorem byte_store {e : Pte} {a : ℕ} (hs : Sound rest R.mem) (hva : va < KERNBASE)
    (he : R.mem.pgdir.walk (pgrounddown va) = some e) (hpresent : e.present = true)
    (hpage : va - pgrounddown va + buf.length ≤ PGSIZE) (ha : a < KERNBASE) :
    (R.store e.frame (va - pgrounddown va) buf).byte a =
      if va ≤ a ∧ a < va + buf.length then buf[a - va]? else R.byte a := by
  have hpte : R.pte (va / PGSIZE) = e := walk_pgrounddown hva he
  have htarget : ∀ v, (R.pte v).present = true → (R.pte v).frame = e.frame → v < NUPAGES → v = va / PGSIZE := by
    intro v hv hf hlt
    refine hs.target_inj hlt (page_lt hva) (Pte.target_eq_some.mpr ⟨hv, hf⟩) (Pte.target_eq_some.mpr ⟨?_, ?_⟩)
    · rw [← hpresent, ← hpte]
    · rw [← hpte]
  have hdiv : va ≤ a → a < va + buf.length → a / PGSIZE = va / PGSIZE := by
    intro hle hlt
    simp only [pgrounddown, PGSIZE] at *
    omega
  have hsame : (R.store e.frame (va - pgrounddown va) buf).pte = R.pte := rfl
  unfold Ram.byte
  rw [hsame]
  split_ifs with hp hin hin
  · have hoff : a % PGSIZE = va - pgrounddown va + (a - va) := by
      have := hdiv hin.1 hin.2
      simp only [pgrounddown, PGSIZE] at *
      omega
    have hlt : a - va < buf.length := by omega
    rw [hdiv hin.1 hin.2, hpte, hoff]
    show some (update R.data e.frame _ e.frame _) = _
    rw [update_self, overlay_at hlt, List.getD_eq_getElem?_getD, List.getElem?_eq_getElem hlt]
    rfl
  · show some (update R.data e.frame _ (R.pte (a / PGSIZE)).frame _) = _
    by_cases hf : (R.pte (a / PGSIZE)).frame = e.frame
    · have hva' := htarget _ hp hf (page_lt ha)
      rw [hf, update_self, overlay_out]
      simp only [pgrounddown, PGSIZE] at *
      omega
    · rw [update_of_ne hf]
  · rw [hdiv hin.1 hin.2, hpte, hpresent] at hp
    exact absurd rfl hp
  · rfl

/-! ## Pushing -/

/-- The memory `T` is `R` with `bs` at `a`. -/
structure Wrote (fails : List Use) (rest : Frame → ℕ) (sz : ℕ) (R : Ram) (a : ℕ) (bs : List Byte) (T : Ram) : Prop where
  ready : Ready fails rest sz T
  byte : ∀ x < KERNBASE, T.byte x = if a ≤ x ∧ x < a + bs.length then bs[x - a]? else R.byte x

/-- **A `copyout` below the stack pointer** that succeeds has stayed in the page of the stack. -/
theorem Ready.push (y : ℕ) (buf : List Byte) (h : Ready fails rest sz R) (hlo : sz - PGSIZE ≤ sp) (hhi : sp ≤ sz)
    (hpos : 0 < buf.length) (hy : y ≤ (sp + 2 ^ 32 - buf.length % 2 ^ 32) % 2 ^ 32)
    (hy' : (sp + 2 ^ 32 - buf.length % 2 ^ 32) % 2 ^ 32 < y + 4) :
    wp (copyout y buf) (fun ok T => ok = true → sz - PGSIZE ≤ y ∧ y + buf.length ≤ sp ∧ Wrote fails rest sz R y buf T)
      anyStop R := by
  have h1 := h.low
  have h2 := h.high
  have h3 := h.aligned
  have hlt : y < 2 ^ 32 := lt_of_le_of_lt hy (Nat.mod_lt _ (by decide))
  have hspares := copyout_spares h.stage h.guards hlt hpos
  by_cases hin : sz - PGSIZE ≤ y ∧ y + buf.length ≤ sp
  · have hpage : y - pgrounddown y + buf.length ≤ PGSIZE := by
      simp only [pgrounddown, PGSIZE] at *
      omega
    refine (hspares.both (copyout_stores hpage hpos)).mono fun ok T hT hok => ⟨hin.1, hin.2, ?_⟩
    obtain ⟨⟨-, hstage, hguards, -⟩, hstore⟩ := hT
    obtain ⟨e, he, hpresent, rfl⟩ := hstore hok
    exact ⟨⟨hstage, hguards, h1, h2, h3⟩, fun x hx => byte_store h.stage.sound (by omega) he hpresent hpage hx⟩
  · refine hspares.mono fun ok T hT hok => absurd ?_ hin
    refine below_guard (by simp only [PGSIZE] at *; omega) (by simp only [KERNBASE, PGSIZE] at *; omega) hlo
      (by simp only [PGSIZE] at *; omega) hpos hy hy' fun i hi => ?_
    have htouch := Copies.touches (hT.2.2.2 hok) hi
    simp only [PGSIZE, KERNBASE] at *
    omega

def Holds (R : Ram) (a : ℕ) (bs : List Byte) : Prop := Cells R.byte a (bs.map some)

theorem Wrote.holds {a : ℕ} (h : Wrote fails rest sz R a buf T) (ha : a + buf.length ≤ KERNBASE) : Holds T a buf := by
  refine cells_of_get fun i hi => ?_
  rw [List.length_map] at hi
  rw [h.byte (a + i) (by omega), if_pos (by omega), Nat.add_sub_cancel_left, List.getElem?_eq_getElem hi,
    List.getElem_map]

theorem Holds.congr {a : ℕ} (h : Holds R a buf) (hbyte : ∀ x, a ≤ x → x < a + buf.length → T.byte x = R.byte x) :
    Holds T a buf := by
  refine Cells.congr h fun x hlo hhi => hbyte x hlo ?_
  rwa [List.length_map] at hhi

theorem holds_append {a : ℕ} {bs : List Byte} :
    Holds R a (buf ++ bs) ↔ Holds R a buf ∧ Holds R (a + buf.length) bs := by
  rw [Holds, List.map_append, cells_append, List.length_map]
  rfl

/-- The words that are pushed last, from the stack pointer `esp` on. -/
def frameBytes (ptrs : List ℕ) (esp : ℕ) : List Byte := wordBytes ([0xffffffff, ptrs.length, esp + 12] ++ ptrs ++ [0])

theorem length_frameBytes (ptrs : List ℕ) (esp : ℕ) : (frameBytes ptrs esp).length = (ptrs.length + 4) * 4 := by
  rw [frameBytes, length_wordBytes, List.length_append, List.length_append]
  simp only [List.length_cons, List.length_nil]
  omega

theorem Ready.pushFrame {ptrs : List ℕ} (h : Ready fails rest sz R) (hlo : sz - PGSIZE ≤ sp) (hhi : sp ≤ sz)
    (hptrs : ptrs.length ≤ MAXARG) :
    wp (pushFrame ptrs sp) (fun r T => ∀ esp ∈ r, sz - PGSIZE ≤ esp ∧ esp + (ptrs.length + 4) * 4 ≤ sp ∧
      Wrote fails rest sz R esp (frameBytes ptrs esp) T) anyStop R := by
  have h1 := h.low
  have h2 := h.high
  generalize hesp : (sp + 2 ^ 32 - (3 + ptrs.length + 1) * 4) % 2 ^ 32 = esp
  generalize hbuf : wordBytes
    ([0xffffffff, ptrs.length, (sp + 2 ^ 32 - (ptrs.length + 1) * 4) % 2 ^ 32] ++ ptrs ++ [0]) = buf
  have hlen : buf.length = (ptrs.length + 4) * 4 := by
    rw [← hbuf, length_wordBytes, List.length_append, List.length_append]
    simp only [List.length_cons, List.length_nil]
    omega
  have hsmall : (ptrs.length + 4) * 4 % 2 ^ 32 = (ptrs.length + 4) * 4 := by
    simp only [MAXARG] at hptrs
    omega
  have heq : (sp + 2 ^ 32 - buf.length % 2 ^ 32) % 2 ^ 32 = esp := by
    rw [hlen, hsmall, ← hesp]
    congr 2
    omega
  have hpush := h.push esp buf hlo hhi (by omega) (by omega) (by omega)
  unfold Bytes.pushFrame
  simp only
  rw [hesp, hbuf, wp_bind]
  refine hpush.mono fun ok T hT => ?_
  cases ok with
  | false => exact nofun
  | true =>
    obtain ⟨hlow, hhigh, hw⟩ := hT rfl
    rintro esp' hesp'
    cases hesp'
    have hthird : (sp + 2 ^ 32 - (ptrs.length + 1) * 4) % 2 ^ 32 = esp + 12 := by
      simp only [PGSIZE, KERNBASE] at *
      omega
    rw [hthird] at hbuf
    rw [hlen] at hhigh
    rw [frameBytes, hbuf]
    exact ⟨hlow, hhigh, hw⟩

/-- **What has been pushed** for the arguments `argv`: their addresses are `ps`, and `ptrs` are those of the arguments
before. The stack pointer was `sp`, and is `esp` at the end. -/
structure Stacked (sz : ℕ) (R : Ram) (argv : List (List Byte)) (ptrs ps : List ℕ) (sp esp : ℕ) (T : Ram) : Prop where
  length : ps.length = argv.length
  count : (ptrs ++ ps).length ≤ MAXARG
  low : sz - PGSIZE ≤ esp
  high : esp + ((ptrs ++ ps).length + 4) * 4 ≤ sp
  frame : Holds T esp (frameBytes (ptrs ++ ps) esp)
  place : ∀ q ∈ ps.zip argv, esp + ((ptrs ++ ps).length + 4) * 4 ≤ q.1 ∧ q.1 + (q.2.length + 1) ≤ sp
  string : ∀ q ∈ ps.zip argv, Holds T q.1 (q.2 ++ [0])
  apart : (ps.zip argv).Pairwise fun q q' => q'.1 + (q'.2.length + 1) ≤ q.1
  rest : ∀ x < KERNBASE, ¬(esp ≤ x ∧ x < esp + ((ptrs ++ ps).length + 4) * 4) →
    (∀ q ∈ ps.zip argv, ¬(q.1 ≤ x ∧ x < q.1 + (q.2.length + 1))) → T.byte x = R.byte x

theorem Stacked.cons {arg : List Byte} {argv : List (List Byte)} {ptrs ps : List ℕ} {y esp : ℕ}
    (hw : Wrote fails rest sz R y (arg ++ [0]) U) (hy : y + (arg.length + 1) ≤ sp) (hsp : sp ≤ KERNBASE)
    (h : Stacked sz U argv (ptrs ++ [y]) ps y esp T) : Stacked sz R (arg :: argv) ptrs (y :: ps) sp esp T := by
  have hlist : ptrs ++ [y] ++ ps = ptrs ++ y :: ps := by simp
  have hlen : (arg ++ [0]).length = arg.length + 1 := by simp
  obtain ⟨hlength, hcount, hlow, hhigh, hframe, hplace, hstring, hapart, hrest⟩ := h
  rw [hlist] at hcount hhigh hframe hplace hrest
  -- what follows is stored below the argument
  have hkeep : ∀ x, y ≤ x → x < KERNBASE → T.byte x = U.byte x := by
    intro x hx hlt
    refine hrest x hlt (by omega) fun q hq => ?_
    have := (hplace q hq).2
    omega
  refine ⟨?_, hcount, hlow, ?_, hframe, ?_, ?_, ?_, fun x hx hout hqs => ?_⟩
  · rw [List.length_cons, List.length_cons, hlength]
  · omega
  · rw [List.zip_cons_cons]
    refine List.forall_mem_cons.mpr ⟨⟨by omega, hy⟩, fun q hq => ?_⟩
    have := hplace q hq
    omega
  · rw [List.zip_cons_cons]
    refine List.forall_mem_cons.mpr ⟨?_, hstring⟩
    refine (hw.holds (by omega)).congr fun x hlo hhi => hkeep x hlo (by omega)
  · rw [List.zip_cons_cons]
    refine List.pairwise_cons.mpr ⟨fun q hq => ?_, hapart⟩
    exact (hplace q hq).2
  · rw [List.zip_cons_cons] at hqs
    obtain ⟨hhead, htail⟩ := List.forall_mem_cons.mp hqs
    rw [hrest x hx hout htail, hw.byte x hx, hlen, if_neg hhead]

theorem pushArgs_stacked : ∀ (argv : List (List Byte)) (ptrs : List ℕ) (sp : ℕ) (R : Ram), Ready fails rest sz R →
    sz - PGSIZE ≤ sp → sp ≤ sz → ptrs.length ≤ MAXARG →
    wp (pushArgs argv ptrs sp) (fun r T => ∀ esp ∈ r, ∃ ps, Stacked sz R argv ptrs ps sp esp T) anyStop R := by
  intro argv
  induction argv with
  | nil =>
    intro ptrs sp R h hlo hhi hptrs
    refine (h.pushFrame hlo hhi hptrs).mono fun r T hT esp hesp => ⟨[], ?_⟩
    obtain ⟨hlow, hhigh, hw⟩ := hT esp hesp
    have hlimit := h.high
    have hnil : ptrs ++ [] = ptrs := List.append_nil ptrs
    refine ⟨rfl, ?_, hlow, ?_, ?_, nofun, nofun, .nil, fun x hx hout _ => ?_⟩
    · rw [hnil]
      exact hptrs
    · rw [hnil]
      exact hhigh
    · rw [hnil]
      refine hw.holds ?_
      rw [length_frameBytes]
      omega
    · rw [hw.byte x hx, length_frameBytes]
      rw [hnil] at hout
      rw [if_neg hout]
  | cons arg argv ih =>
    intro ptrs sp R h hlo hhi hptrs
    unfold pushArgs
    split_ifs with hmax
    · exact nofun
    rw [wp_bind]
    have hlen : (arg ++ [0]).length = arg.length + 1 := by simp
    have hpush := h.push (pushed sp arg.length) (arg ++ [0]) hlo hhi (by rw [hlen]; omega)
      (by rw [hlen]; exact Nat.div_mul_le_self _ _) (by rw [hlen, pushed]; omega)
    refine hpush.mono fun ok U hU => ?_
    cases ok with
    | false => exact nofun
    | true =>
      obtain ⟨hlow, hhigh, hw⟩ := hU rfl
      rw [hlen] at hhigh
      have hlimit := h.high
      refine (ih (ptrs ++ [_]) _ U hw.ready hlow (by omega) ?_).mono fun r T hT esp hesp => ?_
      · rw [List.length_append, List.length_singleton]
        omega
      · obtain ⟨ps, hps⟩ := hT esp hesp
        exact ⟨_ :: ps, hps.cons hw hhigh (by omega)⟩

/-! ## The image -/

theorem stackPages_ready (h : Stage fails rest (npages sz) R.mem) (hu : AllUser R.mem.pgdir) (hsz : sz < KERNBASE) :
    wp (stackPages fails sz) (fun r U => Spared rest R U ∧ Kept rest U.mem ∧ ∀ a ∈ r, Ready fails rest a U) anyStop R := by
  have hround : stackEnd sz < 2 ^ 32 := by
    simp only [stackEnd, pgroundup, KERNBASE, PGSIZE] at hsz ⊢
    omega
  have halign : pgroundup sz % PGSIZE = 0 := Nat.mul_mod_left _ _
  have htop : (pgroundup sz + 2 * PGSIZE) % 2 ^ 32 = stackEnd sz := Nat.mod_eq_of_lt hround
  have hle : pgroundup sz ≤ stackEnd sz := Nat.le_add_right _ _
  have hlow : stackEnd sz - 2 * PGSIZE = pgroundup sz := Nat.add_sub_cancel _ _
  have hstack := allocates_stack fails sz
  have hend : stackEnd sz = pgroundup sz + 2 * PGSIZE := rfl
  rw [← npages_pgroundup hsz.le] at h
  unfold stackPages
  rw [wp_bind, htop]
  generalize stackEnd sz = top at *
  refine (allocuvm_spares h (.inr hle)).mono fun r U hU => ?_
  obtain ⟨hspared, hr, hlt, hkept, hstage⟩ := hU
  split_ifs with hzero
  · exact ⟨hspared, hkept, forall_mem_none⟩
  rw [hstack (hr ▸ hzero)] at hr
  subst hr
  have hU := (hstage hzero).1
  have hut := (hstage hzero).2
  rw [wp_bind, wp_part, hlow]
  refine (hU.clearpteu (by omega) (hut hu)).imp (fun _ t ht => ?_) fun _ _ => trivial
  refine ⟨hspared, ht.1.toKept, ?_⟩
  rintro a ⟨rfl⟩
  have hindex : r / PGSIZE - 2 = pgroundup sz / PGSIZE := by
    simp only [PGSIZE] at hend halign ⊢
    omega
  refine ⟨ht.1, hindex ▸ ht.2.1, by omega, hlt, ?_⟩
  simp only [PGSIZE] at hend halign ⊢
  omega

/-! ## The stack of the new program -/

/-- The places of what is pushed: the three words, the array, and the strings, each with its length. -/
def regions (esp : ℕ) (ps : List ℕ) (argv : List (List Byte)) : List (ℕ × ℕ) :=
  (esp, 12) :: (esp + 12, (ps.length + 1) * 4) :: (ps.zip argv).map fun q => (q.1, q.2.length + 1)

/-- **The arguments have arrived**: `U` is the memory with the loaded image, `T` the one of the new program, and `ps`
are the addresses of the strings. -/
structure Intact (U : Ram) (argv : List (List Byte)) (ps : List ℕ) (im : Image) (T : Ram) : Prop where
  length : ps.length = argv.length
  words : Holds T im.esp (wordBytes [0xffffffff, argv.length, im.esp + 12])
  array : Holds T (im.esp + 12) (wordBytes (ps ++ [0]))
  strings : ∀ q ∈ ps.zip argv, Holds T q.1 (q.2 ++ [0])
  aligned : im.sz % PGSIZE = 0
  page : ∀ r ∈ regions im.esp ps argv, im.sz - PGSIZE ≤ r.1 ∧ r.1 + r.2 ≤ im.sz
  apart : (regions im.esp ps argv).Pairwise fun r r' => r.1 + r.2 ≤ r'.1 ∨ r'.1 + r'.2 ≤ r.1
  rest : ∀ x < KERNBASE, (∀ r ∈ regions im.esp ps argv, ¬(r.1 ≤ x ∧ x < r.1 + r.2)) → T.byte x = U.byte x

theorem Stacked.intact {argv : List (List Byte)} {ps : List ℕ} {esp entry : ℕ} (hr : Ready fails rest sz U)
    (h : Stacked sz U argv [] ps sz esp T) : Intact U argv ps ⟨sz, entry, esp⟩ T := by
  obtain ⟨hlength, hcount, hlow, hhigh, hframe, hplace, hstring, hapart, hrest⟩ := h
  rw [List.nil_append] at hcount hhigh hframe hplace hrest
  have hpage := hr.low
  have hsplit : frameBytes ps esp = wordBytes [0xffffffff, ps.length, esp + 12] ++ wordBytes (ps ++ [0]) := by
    rw [frameBytes, List.append_assoc]
    exact List.flatMap_append
  rw [hsplit, holds_append, length_wordBytes, hlength] at hframe
  refine ⟨hlength, hframe.1, hframe.2, hstring, hr.aligned, ?_, ?_, fun x hx hout => ?_⟩
  · refine List.forall_mem_cons.mpr ⟨⟨hlow, ?_⟩, List.forall_mem_cons.mpr ⟨⟨?_, ?_⟩, ?_⟩⟩
    · show esp + 12 ≤ sz
      omega
    · show sz - PGSIZE ≤ esp + 12
      omega
    · show esp + 12 + (ps.length + 1) * 4 ≤ sz
      omega
    · intro r hr
      obtain ⟨q, hq, rfl⟩ := List.mem_map.mp hr
      have := hplace q hq
      exact ⟨by show sz - PGSIZE ≤ q.1; omega, this.2⟩
  · refine List.pairwise_cons.mpr ⟨List.forall_mem_cons.mpr ⟨.inl le_rfl, fun r hr => .inl ?_⟩,
      List.pairwise_cons.mpr ⟨fun r hr => .inl ?_, List.pairwise_map.mpr (hapart.imp fun hq => .inr hq)⟩⟩
    · obtain ⟨q, hq, rfl⟩ := List.mem_map.mp hr
      have := (hplace q hq).1
      show esp + 12 ≤ q.1
      omega
    · obtain ⟨q, hq, rfl⟩ := List.mem_map.mp hr
      have := (hplace q hq).1
      show esp + 12 + (ps.length + 1) * 4 ≤ q.1
      omega
  · obtain ⟨hwords, hout⟩ := List.forall_mem_cons.mp hout
    obtain ⟨harray, hstrings⟩ := List.forall_mem_cons.mp hout
    refine hrest x hx ?_ fun q hq => hstrings _ (List.mem_map_of_mem hq)
    simp only at hwords harray
    omega

theorem Intact.congr {V : Ram} {argv : List (List Byte)} {ps : List ℕ} {im : Image} (h : Intact U argv ps im T)
    (hsz : im.sz ≤ KERNBASE) (hbyte : ∀ a < KERNBASE, V.byte a = T.byte a) : Intact U argv ps im V := by
  have hkeep : ∀ r ∈ regions im.esp ps argv, ∀ bs : List Byte, bs.length = r.2 → Holds T r.1 bs → Holds V r.1 bs := by
    intro r hr bs hlen hbs
    refine hbs.congr fun x _ hhi => hbyte x ?_
    have := (h.page r hr).2
    omega
  refine ⟨h.length, hkeep (im.esp, 12) ?_ _ ?_ h.words, hkeep (im.esp + 12, (ps.length + 1) * 4) ?_ _ ?_ h.array,
    fun q hq => hkeep (q.1, q.2.length + 1) ?_ _ ?_ (h.strings q hq), h.aligned, h.page, h.apart,
    fun x hx hout => (hbyte x hx).trans (h.rest x hx hout)⟩
  · exact List.mem_cons_self
  · rw [length_wordBytes]
    rfl
  · exact List.mem_cons_of_mem _ List.mem_cons_self
  · rw [length_wordBytes, List.length_append, List.length_singleton]
  · exact List.mem_cons_of_mem _ (List.mem_cons_of_mem _ (List.mem_map_of_mem hq))
  · rw [List.length_append, List.length_singleton]

end Bytes

end Xv6.Vm
