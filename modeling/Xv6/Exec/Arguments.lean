import Xv6.Exec.Failure

/-!
# The arguments that a new program gets

While a file is loaded of which nothing is stored through the mappings of the kernel, the strings of the arguments are
in pages in use and do not change.
So the strings that are pushed are those of the call (`pushArgs_reads`), and what is pushed for them is what
`Xv6.Vm.Args` says.
-/

namespace Xv6.Exec

open Lib

variable {M T U : Machine} {rest : Vm.Frame → ℕ} {p : Slot} {path : List Char} {fails : List Vm.Use}
  {n guard : ℕ}

/-! ## The strings -/

theorem stringFrom_congr {R S : Vm.Ram} (h : ∀ a < Vm.KERNBASE, S.byte a = R.byte a) : ∀ fuel a,
    a + fuel ≤ Vm.KERNBASE → S.stringFrom fuel a = R.stringFrom fuel a := by
  intro fuel
  induction fuel with
  | zero => exact fun _ _ => rfl
  | succ fuel ih =>
    intro a ha
    unfold Vm.Ram.stringFrom
    rw [h a (by omega), ih (a + 1) (by omega)]

theorem string_congr {R S : Vm.Ram} (h : ∀ a < Vm.KERNBASE, S.byte a = R.byte a) (a : ℕ) : S.string a = R.string a := by
  unfold Vm.Ram.string
  by_cases ha : a ≤ Vm.KERNBASE
  · exact stringFrom_congr h _ _ (by omega)
  · rw [Nat.sub_eq_zero_of_le (by omega)]
    rfl

theorem Within.string {P : Vm.Mem → Prop} {k : ℕ} {held locked : List ℕ} (h : Within rest M P k held locked T)
    (ha : Account rest M) (a : ℕ) : T.user.string a = M.user.string a :=
  string_congr (fun _ hb => h.byte ha hb) a

/-- The entries of `argv` up to the null that ends it. -/
def entries (argv : List ℕ) : List ℕ := argv.takeWhile (· ≠ 0)

/-- **The strings that are pushed** are those of the call. -/
theorem pushArgs_reads (ha : Account rest M) : ∀ (argv ptrs : List ℕ) (sp : ℕ) (T : Machine),
    Within rest M (Pushing fails rest n guard) 0 [] [] T →
    wp (pushArgs argv ptrs sp) (fun r U => r ≠ none → ∃ strs, (entries argv).map M.user.string = strs.map some ∧
      Vm.Bytes.pushArgs strs ptrs sp T.ram = .ok (r, U.ram)) anyStop T := by
  intro argv
  induction argv with
  | nil =>
    intro ptrs sp T _
    exact wp_onRam.mpr (wp_intro (fun _ R hR _ => ⟨[], rfl, hR⟩) fun _ _ => trivial)
  | cons a argv ih =>
    intro ptrs sp T hT
    unfold pushArgs
    split_ifs with hnull hmax
    · have hend : entries (a :: argv) = [] := by
        unfold entries
        rw [List.takeWhile_cons_of_neg (by simpa using hnull)]
      exact wp_onRam.mpr (wp_intro (fun _ R hR _ => ⟨[], by rw [hend]; rfl, hR⟩) fun _ _ => trivial)
    · exact fun hne => absurd rfl hne
    rw [wp_bind, wp_get]
    split
    · trivial
    rename_i arg hread
    rw [hT.string ha] at hread
    simp only
    rw [wp_bind, wp_onRam]
    refine wp_intro (fun ok R hcopy => ?_) fun _ _ => trivial
    have hR := (Vm.Bytes.copyout_spares hT.mem.1 hT.mem.2 (Vm.pushed_lt _ _) (by simp)).ok hcopy
    cases ok with
    | false => exact fun hne => absurd rfl hne
    | true =>
      refine (ih _ _ _ (hT.ram hR.1 ⟨hR.2.1, hR.2.2.1⟩)).mono fun r U hU hne => ?_
      obtain ⟨strs, hstrs, hpush⟩ := hU hne
      refine ⟨arg :: strs, ?_, ?_⟩
      · have hmore : entries (a :: argv) = a :: entries argv := List.takeWhile_cons_of_pos (by simpa using hnull)
        rw [hmore, List.map_cons, List.map_cons, hread, hstrs]
      · unfold Vm.Bytes.pushArgs
        rw [if_neg hmax]
        exact (bind_of_ok hcopy).trans hpush

/-! ## The old directory is freed -/

theorem commit_keeps {entry sz sp : ℕ} (ha : Account rest M) (h : Within rest M (Vm.Kept rest) 0 [] [] T) :
    wp (commit path entry sz sp) (fun _ U => U.task.sz = sz ∧ U.task.tf.esp = BitVec.ofNat 32 sp ∧
      ∀ a < Vm.KERNBASE, U.user.byte a = T.ram.byte a) anyStop T := by
  unfold commit
  rw [wp_bind, wp_get, wp_bind, wp_set, wp_onRam]
  have hold : T.task.pgdir = M.task.pgdir := by rw [h.task]
  have hsound : Vm.Sound (fun f => T.ram.mem.pgdir.holds f + (rest f - M.task.pgdir.holds f))
      (T.ram.under T.task.pgdir).mem := by
    refine h.mem.sound.of_le rfl fun f => ?_
    have hle := ha.own f
    show T.ram.mem.kmem.avail f + T.task.pgdir.holds f + _ ≤ T.ram.mem.kmem.avail f + T.ram.mem.pgdir.holds f + _
    rw [hold]
    omega
  have htidy : Vm.Tidy (T.ram.under T.task.pgdir).mem.pgdir := by
    show Vm.Tidy T.task.pgdir
    rw [hold]
    exact ha.tidy
  refine (Vm.Bytes.freevm_spares hsound htidy).mono fun _ R hR => ⟨rfl, rfl, fun a hlt => ?_⟩
  exact user_byte (fun f => Nat.le_add_right _ _) hR hlt

/-! ## The new program -/

/-- **The new program finds its arguments**: `U` is the machine when the image has been loaded, `strs` are the strings
of the call and `ps` their addresses in the new program. -/
structure Passed (p : Slot) (fails : List Vm.Use) (path : List Char) (argv : List ℕ) (M : Machine)
    (strs : List (List Byte)) (ps : List ℕ) (U T : Machine) : Prop where
  strings : (entries argv).map M.user.string = strs.map some
  image : ∃ entry, loadImage p fails path M = .ok (some (entry, T.task.sz), U)
  intact : Vm.Bytes.Intact U.ram strs ps ⟨T.task.sz, T.task.tf.eip.toNat, T.task.tf.esp.toNat⟩ T.user

theorem Passed.of_pushArgs {strs : List (List Byte)} {V : Machine} {argv : List ℕ} {entry sz sp : ℕ}
    (hload : loadImage p fails path M = .ok (some (entry, sz), U)) (hready : Vm.Bytes.Ready fails rest sz U.ram)
    (hstrs : (entries argv).map M.user.string = strs.map some)
    (hpush : Vm.Bytes.pushArgs strs [] sz U.ram = .ok (some sp, V.ram)) (hsz : T.task.sz = sz)
    (hesp : T.task.tf.esp = BitVec.ofNat 32 sp) (hbyte : ∀ a < Vm.KERNBASE, T.user.byte a = V.ram.byte a) :
    ∃ ps, Passed p fails path argv M strs ps U T := by
  obtain ⟨ps, hps⟩ := (Vm.Bytes.pushArgs_stacked strs [] sz U.ram hready (Nat.sub_le _ _) le_rfl (Nat.zero_le _)).ok
    hpush sp rfl
  have hlt : sp < 2 ^ 32 := by
    have h1 := hps.high
    have h2 := hready.high
    simp only [Vm.KERNBASE] at h2
    omega
  refine ⟨ps, hstrs, ⟨entry, by rw [hsz]; exact hload⟩, ?_⟩
  rw [hsz, hesp, BitVec.toNat_ofNat, Nat.mod_eq_of_lt hlt]
  exact (hps.intact hready).congr hready.high.le hbyte

/-- The first word of the array that the stack pointer leads to. -/
def Machine.argv0 (T : Machine) : ℕ := (word32 (fun a => (T.user.byte a).getD 0) (T.task.tf.esp.toNat + 12)).toNat

theorem Passed.first {a q : ℕ} {arg : List Byte} {b : Byte} (h : Passed p fails path [a] M [b :: arg] [q] U T)
    (hsz : T.task.sz ≤ Vm.KERNBASE) : T.user.byte T.argv0 = some b := by
  have hword : ∀ i < 4, ((T.user.byte (T.task.tf.esp.toNat + 12 + i)).getD 0) = byte (BitVec.ofNat 32 q) i := by
    intro i hi
    have hget := Cells.get h.intact.array (i := i) (by rw [List.length_map, Vm.Bytes.length_wordBytes]; simp; omega)
    rw [hget]
    simp [Vm.Bytes.wordBytes, hi]
  have hq : q < 2 ^ 32 := by
    have hpage := h.intact.page (q, (b :: arg).length + 1) (by simp [Vm.Bytes.regions])
    simp only [Vm.KERNBASE] at hsz hpage
    omega
  have hfirst := Cells.get (h.intact.strings (q, b :: arg) (by simp)) (i := 0) (by simp)
  unfold Machine.argv0
  rw [word32_eq hword, BitVec.toNat_ofNat, Nat.mod_eq_of_lt hq]
  simpa using hfirst

theorem not_passed {a : ℕ} {arg : List Byte} {b : Byte} (hne : a ≠ 0) (hM : M.user.string a = some (b :: arg))
    (hsz : T.task.sz ≤ Vm.KERNBASE) (hT : T.user.byte T.argv0 ≠ some b) (strs : List (List Byte)) (ps : List ℕ)
    (U : Machine) : ¬ Passed p fails path [a] M strs ps U T := by
  intro h
  have hone : entries [a] = [a] := List.takeWhile_cons_of_pos (by simpa using hne)
  have hstrs := h.strings
  rw [hone, List.map_singleton, hM, ← List.map_singleton] at hstrs
  obtain rfl := List.map_injective_iff.mpr (Option.some_injective _) hstrs
  obtain ⟨q, rfl⟩ := List.length_eq_one_iff.mp h.intact.length
  exact hT (h.first hsz)

end Xv6.Exec
