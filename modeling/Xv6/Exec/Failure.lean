import Xv6.Exec.Program

/-!
# An `exec` that fails

`Within` says where `exec` stands on its way: the references and the locks that it holds, the transactions that it is
in, and that neither the process nor the bytes of pages in use have changed. There is one rule for each part of the
program, and `exec` returns -1 only when it stands at its start again.
-/

namespace Xv6.Exec

open Lib

variable {M T : Machine} {rest : Vm.Frame → ℕ} {k x : ℕ} {held locked : List ℕ} {p : Slot} {path : List Char}
  {fails : List Vm.Use} {P Q : Vm.Mem → Prop} {n guard : ℕ}

/-! ## On the way -/

/-- **Where `exec` stands** that started in `M`: it is inside `k` transactions, has the references `held` and the locks
`locked`, and the pages in use have their bytes. `P` is what holds of the memory. -/
structure Within (rest : Vm.Frame → ℕ) (M : Machine) (P : Vm.Mem → Prop) (k : ℕ) (held locked : List ℕ) (T : Machine) :
    Prop where
  fs : Fs.At M.whole k M.whole.fs.inode held [] T.whole
  locks : Fs.Locks locked T.whole.fs
  task : T.task = M.task
  data : ∀ f, 0 < rest f → T.ram.data f = M.ram.data f
  mem : P T.ram.mem

/-- **`exec` stands at its start** again, whatever has become of the free list. -/
abbrev AtStart (rest : Vm.Frame → ℕ) (M : Machine) : Machine → Prop := Within rest M (fun _ => True) 0 [] []

namespace Within

theorem start (ha : Account rest M) (hl : Fs.Ledger M.whole.fs) (hu : Fs.Locks [] M.whole.fs) :
    Within rest M (fun s => Vm.Sound rest s ∧ s.mapped = [] ∧ s.stores = []) 0 [] [] M :=
  ⟨.start hl, hu, rfl, fun _ _ => rfl, ha.sound, ha.mapped, ha.stores⟩

theorem ram {R : Vm.Ram} (h : Within rest M P k held locked T) (hR : Vm.Bytes.Spared rest T.ram R)
    (hQ : Q R.mem) : Within rest M Q k held locked { T with ram := R } :=
  ⟨h.fs, h.locks, h.task, fun f hf => (hR f hf).trans (h.data f hf), hQ⟩

theorem whole {w : Fs.Whole} {k' : ℕ} {held' locked' : List ℕ} (h : Within rest M P k held locked T)
    (hw : Fs.At M.whole k' M.whole.fs.inode held' [] w) (hl : Fs.Locks locked' w.fs) :
    Within rest M P k' held' locked' { T with whole := w } := ⟨hw, hl, h.task, h.data, h.mem⟩

theorem imp (h : Within rest M P k held locked T) (hPQ : P T.ram.mem → Q T.ram.mem) : Within rest M Q k held locked T :=
  ⟨h.fs, h.locks, h.task, h.data, hPQ h.mem⟩

theorem forget (h : Within rest M P k held locked T) : Within rest M (fun _ => True) k held locked T :=
  h.imp fun _ => trivial

/-! ### The file system -/

theorem beginOp (h : Within rest M P k held locked T) :
    wp (onFs Fs.beginOp) (fun _ => Within rest M P (k + 1) held locked) anyStop T :=
  wp_onFs.mpr (h.whole (h.fs.beginOp (Q := fun _ => Fs.At _ _ _ _ _) fun _ hu => hu) h.locks)

theorem endOp (h : Within rest M P (k + 1) held locked T) :
    wp (onFs Fs.endOp) (fun _ => Within rest M P k held locked) anyStop T :=
  wp_onFs.mpr (h.whole (h.fs.endOp (Q := fun _ => Fs.At _ _ _ _ _) fun _ hu => hu) h.locks)

theorem part {α : Type} {m : Fs.Prog α} {held' locked' : α → List ℕ} {F : α → Prop}
    (h : Within rest M P k held locked T)
    (hat : wp (Fs.part m) (fun a w => F a ∧ Fs.At M.whole k M.whole.fs.inode (held' a) [] w) Fs.anyStop T.whole)
    (hlock : Fs.Locking locked m locked') :
    wp (onFs (Fs.part m)) (fun a U => F a ∧ Within rest M P k (held' a) (locked' a) U) anyStop T := by
  have hlocks : wp (Fs.part m) (fun a w => Fs.Locks (locked' a) w.fs) Fs.anyStop T.whole :=
    wp_zoom.mpr (hlock _ h.locks)
  exact wp_onFs.mpr ((hat.both hlocks).mono fun a w hw => ⟨hw.1.1, h.whole hw.1.2 hw.2⟩)

theorem namei (h : Within rest M P k held locked T) (hl : Fs.Ledger M.whole.fs) :
    wp (onFs (Fs.part (Fs.namei p path))) (fun r U => (∀ y ∈ r, M.whole.fs.named p path = some y) ∧
      Within rest M P k (r.toList ++ held) locked U) anyStop T := by
  refine h.part (h.fs.namei hl (fun u hu => ⟨nofun, hu⟩) fun y name u hfound hu => ⟨?_, hu⟩) Fs.locking_namei
  rintro z ⟨rfl⟩
  rw [Fs.State.named, hfound]
  rfl

theorem ilock (h : Within rest M P k held locked T) :
    wp (onFs (Fs.part (Fs.ilock x))) (fun _ U => U.whole.content x = M.whole.content x ∧
      Within rest M P k held (x :: locked) U) anyStop T := by
  have hat : wp (Fs.part (Fs.ilock x)) (fun _ w => (M.whole.fs.inode x).type ≠ .free ∧
      Fs.At M.whole k M.whole.fs.inode held [] w) Fs.anyStop T.whole := by
    refine wp_zoom.mpr (Fs.wp_ilock h.fs.mid Fs.tame_anyStop (fun _ => trivial) fun t hq hm hfree _ => ?_)
    rw [h.fs.inode] at hfree
    exact ⟨hfree, h.fs.quiet hq hm⟩
  refine (h.part hat Fs.locking_ilock).mono fun _ U hU => ⟨?_, hU.2⟩
  unfold Fs.Whole.content
  simp only [hU.2.fs.data x hU.1]

theorem iunlockput (h : Within rest M P k (x :: held) (x :: locked) T) :
    wp (onFs (Fs.part (Fs.iunlockput x))) (fun _ => Within rest M P k held locked) anyStop T := by
  have hat : wp (Fs.part (Fs.iunlockput x)) (fun _ w => True ∧ Fs.At M.whole k M.whole.fs.inode held [] w) Fs.anyStop
      T.whole := h.fs.iunlockput fun _ hu => ⟨trivial, hu⟩
  exact (h.part hat Fs.locking_iunlockput).mono fun _ U hU => hU.2

theorem close (h : Within rest M P 1 [x] [x] T) :
    wp (do onFs (Fs.part (Fs.iunlockput x)); onFs Fs.endOp) (fun _ => Within rest M P 0 [] []) anyStop T := by
  rw [wp_bind]
  exact h.iunlockput.mono fun _ U hU => hU.endOp

/-! ### The memory -/

theorem byte (h : Within rest M P k held locked T) (ha : Account rest M) {a : ℕ} (hlt : a < Vm.KERNBASE) :
    T.user.byte a = M.user.byte a := by
  unfold Machine.user
  rw [h.task]
  exact user_byte ha.own h.data hlt

theorem build {α : Type} {m : Vm.Bytes.Prog α} {F : α → Vm.Ram → Prop} (h : Within rest M P k held locked T)
    (hm : wp m (fun a R => Vm.Bytes.Spared rest T.ram R ∧ Q R.mem ∧ F a R) Vm.anyStop T.ram) :
    wp (onRam m) (fun a U => F a U.ram ∧ Within rest M Q k held locked U) anyStop T :=
  wp_onRam.mpr (hm.mono fun _ _ hR => ⟨hR.2.2, h.ram hR.1 hR.2.1⟩)

theorem freevm (h : Within rest M (Vm.Kept rest) k held locked T) :
    wp (onRam Vm.Bytes.freevm) (fun _ U => Within rest M (fun _ => True) k held locked U) anyStop T :=
  wp_onRam.mpr ((Vm.Bytes.freevm_spares h.mem.sound h.mem.tidy).mono fun _ _ hR => h.ram hR trivial)

/-! ### The label `bad` -/

theorem bad_inode (h : Within rest M P 1 [x] [x] T) :
    wp (bad false (some x)) (fun _ => AtStart rest M) anyStop T := h.forget.close

theorem bad_both (h : Within rest M (Vm.Kept rest) 1 [x] [x] T) :
    wp (bad true (some x)) (fun _ => AtStart rest M) anyStop T := by
  show wp (do onRam Vm.Bytes.freevm; onFs (Fs.part (Fs.iunlockput x)); onFs Fs.endOp) _ _ _
  rw [wp_bind]
  exact h.freevm.mono fun _ U hU => hU.close

theorem bad_dir (h : Within rest M (Vm.Kept rest) 0 [] [] T) :
    wp (bad true none) (fun _ => AtStart rest M) anyStop T := by
  show wp (do onRam Vm.Bytes.freevm; return PUnit.unit) _ _ _
  rw [wp_bind]
  exact h.freevm.mono fun _ U hU => hU

end Within

/-! ## The two halves -/

/-- What has been done when the arguments are to be pushed, or when nothing is to be done any more. -/
def Loaded (fails : List Vm.Use) (rest : Vm.Frame → ℕ) (M : Machine) : Option (ℕ × ℕ) → Machine → Prop
  | none, T => AtStart rest M T
  | some (_, sz), T => Within rest M (Vm.Kept rest) 0 [] [] T ∧ Vm.Bytes.Ready fails rest sz T.ram

/-- **The condition**: no bytes of the file that the path names are stored through the mappings of the kernel. -/
def StraightFile (M : Machine) (p : Slot) (path : List Char) (fails : List Vm.Use) : Prop :=
  ∀ x ∈ M.whole.fs.named p path, (M.whole.content x).Straight fails

theorem loaded_of_bad {m : Prog PUnit} (h : wp m (fun _ => AtStart rest M) anyStop T) :
    wp (do m; return none) (Loaded fails rest M) anyStop T := by
  rw [wp_bind]
  exact h.mono fun _ U hU => hU

theorem loadImage_within (ha : Account rest M) (hl : Fs.Ledger M.whole.fs) (hu : Fs.Locks [] M.whole.fs)
    (hfile : StraightFile M p path fails) : wp (loadImage p fails path) (Loaded fails rest M) anyStop M := by
  unfold loadImage
  rw [wp_bind]
  refine (Within.start ha hl hu).beginOp.mono fun _ T hT => ?_
  rw [wp_bind]
  refine (hT.namei hl).mono fun r T hT => ?_
  obtain ⟨hfound, hT⟩ := hT
  cases r with
  | none => exact loaded_of_bad hT.forget.endOp
  | some x =>
    simp only
    rw [wp_bind]
    refine hT.ilock.mono fun _ T hT => ?_
    obtain ⟨hcontent, hT⟩ := hT
    have hstraight := hfile x (hfound x rfl)
    rw [wp_bind, wp_get, hcontent]
    generalize M.whole.content x = c at hstraight
    split
    · exact loaded_of_bad hT.bad_inode
    rename_i elf helf
    obtain ⟨hsound, hmapped, hstores⟩ := hT.mem
    have hlost : ∀ t, wp (do bad false (some x); return none) (Loaded fails rest M) anyStop
        { T with ram := ⟨t, T.ram.data⟩ } := fun t =>
      loaded_of_bad (hT.ram (R := ⟨t, T.ram.data⟩) (Q := fun _ => True) Vm.Bytes.Spared.rfl trivial).bad_inode
    rw [wp_bind, wp_onRam, Vm.Bytes.wp_part]
    refine Vm.wp_setupkvm (fun _ => hlost _) (fun _ _ t _ => hlost t) fun hkernel t ht => ?_
    obtain ⟨hstage, huser⟩ := ht.stage fails hsound hmapped hstores
    unfold Vm.Content.Straight Vm.Content.loaded at hstraight
    simp only [helf, if_pos hkernel] at hstraight
    simp only [if_true]
    rw [wp_bind]
    have hdir := hT.ram (R := ⟨t, T.ram.data⟩) Vm.Bytes.Spared.rfl hstage
    refine (hdir.build (Vm.Bytes.loadSegments_spares _ _ 0 _ hstage huser (by decide) hstraight)).mono fun r T hT => ?_
    obtain ⟨hall, hT⟩ := hT
    cases r with
    | none => exact loaded_of_bad hT.bad_both
    | some sz =>
      obtain ⟨hsz, hstage, huser⟩ := hall sz rfl
      have hT := hT.imp (Q := fun s => Vm.Stage fails rest (Vm.npages sz) s ∧ Vm.AllUser s.pgdir) fun _ => ⟨hstage, huser⟩
      simp only
      rw [wp_bind]
      refine hT.iunlockput.mono fun _ T hT => ?_
      rw [wp_bind]
      refine hT.endOp.mono fun _ T hT => ?_
      rw [wp_bind]
      refine (hT.build (Vm.Bytes.stackPages_ready hT.mem.1 hT.mem.2 hsz)).mono fun r T hT => ?_
      cases r with
      | none => exact loaded_of_bad hT.2.bad_dir
      | some sz => exact ⟨hT.2, hT.1 sz rfl⟩

/-- **The memory while the arguments are pushed.** -/
abbrev Pushing (fails : List Vm.Use) (rest : Vm.Frame → ℕ) (n guard : ℕ) (s : Vm.Mem) : Prop :=
  Vm.Stage fails rest n s ∧ Vm.Guards guard s.pgdir

theorem pushFrame_spares {ptrs : List ℕ} {sp : ℕ} {R : Vm.Ram} (h : Pushing fails rest n guard R.mem) :
    wp (Vm.Bytes.pushFrame ptrs sp) (fun _ S => Vm.Bytes.Spared rest R S ∧ Pushing fails rest n guard S.mem)
      Vm.anyStop R := by
  unfold Vm.Bytes.pushFrame
  simp only
  rw [wp_bind]
  refine (Vm.Bytes.copyout_spares h.1 h.2 (Nat.mod_lt _ (by decide)) ?_).mono fun _ _ hS => ⟨hS.1, hS.2.1, hS.2.2.1⟩
  rw [Vm.Bytes.length_wordBytes]
  simp

/-- **The second half** stores into pages of the new directory only. -/
theorem pushArgs_within : ∀ (argv ptrs : List ℕ) (sp : ℕ) (T : Machine),
    Within rest M (Pushing fails rest n guard) 0 [] [] T →
    wp (pushArgs argv ptrs sp) (fun _ => Within rest M (Pushing fails rest n guard) 0 [] []) anyStop T := by
  intro argv
  have hframe : ∀ (ptrs : List ℕ) (sp : ℕ) (T : Machine), Within rest M (Pushing fails rest n guard) 0 [] [] T →
      wp (onRam (Vm.Bytes.pushFrame ptrs sp)) (fun _ => Within rest M (Pushing fails rest n guard) 0 [] []) anyStop T :=
    fun ptrs sp T h => wp_onRam.mpr ((pushFrame_spares h.mem).mono fun _ _ hS => h.ram hS.1 hS.2)
  induction argv with
  | nil => exact hframe
  | cons a argv ih =>
    intro ptrs sp T h
    unfold pushArgs
    split_ifs
    · exact hframe ptrs sp T h
    · exact h
    rw [wp_bind, wp_get]
    split
    · trivial
    rename_i arg _
    simp only
    rw [wp_bind, wp_onRam]
    refine (Vm.Bytes.copyout_spares h.mem.1 h.mem.2 (Vm.pushed_lt _ _) (by simp)).mono fun ok R hR => ?_
    have hnext := h.ram (Q := Pushing fails rest n guard) hR.1 ⟨hR.2.1, hR.2.2.1⟩
    split_ifs
    · exact ih _ _ _ hnext
    · exact hnext

theorem exec_within {argv : List ℕ} (ha : Account rest M) (hl : Fs.Ledger M.whole.fs) (hu : Fs.Locks [] M.whole.fs)
    (hfile : StraightFile M p path fails) :
    wp (exec p fails path argv) (fun r T => r = -1 → AtStart rest M T) anyStop M := by
  unfold exec
  rw [wp_bind]
  refine (loadImage_within ha hl hu hfile).mono fun r T hT => ?_
  match r, hT with
  | none, hT => exact fun _ => hT
  | some (entry, sz), hT =>
    simp only
    rw [wp_bind]
    have hpushing := hT.1.imp (Q := Pushing fails rest _ _) fun _ => ⟨hT.2.stage, hT.2.guards⟩
    refine (pushArgs_within argv [] sz T hpushing).mono fun r T hT => ?_
    cases r with
    | none =>
      simp only
      rw [wp_bind]
      exact (hT.imp fun h => h.1.toKept).bad_dir.mono fun _ U hU _ => hU
    | some sp =>
      simp only
      rw [wp_bind]
      exact wp_intro (fun _ _ _ => nofun) fun _ _ => trivial

/-! ## Nothing has changed -/

/-- **The process, its memory, the inodes and the log are as before.** -/
structure Untouched (M T : Machine) : Prop where
  task : T.task = M.task
  memory : ∀ a < Vm.KERNBASE, T.user.byte a = M.user.byte a
  ref : ∀ x, (T.whole.fs.icache x).ref = (M.whole.fs.icache x).ref
  busy : ∀ x, (T.whole.fs.icache x).busy = (M.whole.fs.icache x).busy
  outstanding : T.whole.outstanding = M.whole.outstanding

theorem Within.untouched (h : AtStart rest M T) (ha : Account rest M) (hl : Fs.Ledger M.whole.fs)
    (hu : Fs.Locks [] M.whole.fs) : Untouched M T := by
  have hunchanged := h.fs.unchanged hl
  refine ⟨h.task, fun a hlt => ?_, hunchanged.icache, fun x => ?_, hunchanged.outstanding⟩
  · unfold Machine.user
    rw [h.task]
    exact user_byte ha.own h.data hlt
  · rw [h.locks.not_busy x, hu.not_busy x]

/-- The machine after booting, with a file `f` and with `page` in the memory of the first process. -/
def Machine.boot (file : Vm.Content) (page : ℕ → Byte) : Machine where
  whole := ⟨Fs.boot Fs.oneFile, fun _ => file.bytes, 0⟩
  ram := ⟨(Vm.boot 256).mem .empty, fun _ => page⟩
  task := ⟨(Vm.Proc.boot 256).pgdir, Vm.PGSIZE, .zero, "initcode".toList, DEFSIG_HENDLER⟩

theorem reached_boot (file : Vm.Content) (page : ℕ → Byte) : Reached Vm.initproc (.boot file page) :=
  ⟨⟨Fs.oneFile, [], .nil⟩, 256, [], Vm.boot 256, .boot 256, by decide, .nil, rfl, rfl, rfl, rfl⟩

instance (M : Machine) (p : Slot) (path : List Char) : Decidable (StraightFile M p path fails) :=
  inferInstanceAs (Decidable (∀ x ∈ M.whole.fs.named p path, _))

end Xv6.Exec
