import Xv6.Fs.Logged
import Xv6.Fs.Run

/-!
# Calls that fail

A call that returns -1 leaves the file system as it was, with one exception: `open` makes the new file before it looks
for a `struct file` and a descriptor, and the file stays when there is none.
-/

namespace Xv6.Fs

open Lib

variable {w v : Whole} {t : State} {p : Slot} {k x : ℕ} {τ : Tree} {held : List ℕ} {extra : List (Fin NFILE)}

/-- **Nothing has changed**: the directories, the link counts and the bytes of the files, the descriptors and the
working directory of every process, the counts of the files and of the cached inodes, and the count of the log. -/
structure Unchanged (w v : Whole) : Prop where
  inode : v.fs.inode = w.fs.inode
  data : ∀ x, (w.fs.inode x).type ≠ .free → v.data x = w.data x
  proc : v.fs.proc = w.fs.proc
  file : ∀ f, (v.fs.file f).ref = (w.fs.file f).ref
  icache : ∀ x, (v.fs.icache x).ref = (w.fs.icache x).ref
  outstanding : v.outstanding = w.outstanding

/-- A call that fails changes nothing. -/
def Fails (w : Whole) (r : ℤ) (v : Whole) : Prop := r = -1 → Unchanged w v

/-- A call may stop in any way: it does not return -1 then. -/
def anyStop : Stop → Prop := fun _ => True

theorem tame_anyStop : Tame anyStop := fun _ _ => trivial

theorem wp_anyStop {α σ : Type} {m : StateT σ (Except Stop) α} {Q : α → σ → Prop} {s : σ} (h : ∀ a t, Q a t) :
    wp m Q anyStop s := by
  unfold wp
  split
  · exact h _ _
  · trivial

theorem wp_bind_anyStop {α β σ : Type} {m : StateT σ (Except Stop) α} {f : α → StateT σ (Except Stop) β}
    {R : β → σ → Prop} {s : σ} (h : ∀ a t, wp (f a) R anyStop t) : wp (m >>= f) R anyStop s :=
  wp_bind.mpr (wp_anyStop h)

/-- A step that leaves the inodes alone leaves the bytes alone. -/
theorem Whole.after_after {u : State} (h : t.inode = v.fs.inode) : (v.after t).after u = v.after u := by
  have hdata : ((v.after t).after u).data = (v.after u).data := by
    funext x
    show (if (t.inode x).type = .free ∨ (u.inode x).type = .free then []
      else if (v.fs.inode x).type = .free ∨ (t.inode x).type = .free then [] else v.data x) =
        if (v.fs.inode x).type = .free ∨ (u.inode x).type = .free then [] else v.data x
    rw [h]
    by_cases hv : (v.fs.inode x).type = .free <;> simp [hv]
  exact congrArg (fun d => Whole.mk u d v.outstanding) hdata

/-- **Where a call stands** that started in `w`: the inode table is `τ`, it holds the references `held`, the files
`extra` are its own, and it is inside `k` transactions. -/
structure At (w : Whole) (k : ℕ) (τ : Tree) (held : List ℕ) (extra : List (Fin NFILE)) (v : Whole) : Prop where
  inode : v.fs.inode = τ
  type : ∀ x, (τ x).type = (w.fs.inode x).type
  data : ∀ x, (w.fs.inode x).type ≠ .free → v.data x = w.data x
  proc : v.fs.proc = w.fs.proc
  count : ∀ f, (v.fs.file f).ref = (w.fs.file f).ref + extra.count f
  idle : ∀ f, (v.fs.file f).ref = 0 → (v.fs.file f).type = .none
  fresh : ∀ f ∈ extra, (v.fs.file f).ref = 1 ∧ (v.fs.file f).type ≠ .inode
  mid : Mid w.fs.owners held [] v.fs
  outstanding : v.outstanding = w.outstanding + k

namespace At

theorem start (h : Ledger w.fs) : At w 0 w.fs.inode [] [] w :=
  ⟨rfl, fun _ => rfl, fun _ _ => rfl, rfl, fun _ => rfl, h.idle, nofun, h.mid, rfl⟩

/-- At the end, with everything given back, all is as before. -/
theorem unchanged (h : At w 0 w.fs.inode [] [] v) (hl : Ledger w.fs) : Unchanged w v := by
  refine ⟨h.inode, h.data, h.proc, h.count, fun x => ?_, h.outstanding⟩
  have hx : (w.fs.icache x).ref = w.fs.owners x + ([] : List ℕ).count x := hl.mid.count x
  rw [h.mid.count, hx]

/-! ## Steps of a call -/

/-- No bytes change as long as every inode keeps its type. -/
theorem data_after (h : At w k τ held extra v) (ht : ∀ x, (t.inode x).type = (w.fs.inode x).type) (x : ℕ)
    (hx : (w.fs.inode x).type ≠ .free) : (v.after t).data x = w.data x := by
  have hv : (v.fs.inode x).type ≠ .free := by
    rw [h.inode, h.type]
    exact hx
  have ht' : (t.inode x).type ≠ .free := by
    rw [ht]
    exact hx
  exact (if_neg (not_or.mpr ⟨hv, ht'⟩)).trans (h.data x hx)

/-- A step of the file system inside the call. -/
theorem still {τ' : Tree} {held' : List ℕ} (h : At w k τ held extra v) (hst : Still v.fs t) (hi : t.inode = τ')
    (ht : ∀ x, (τ' x).type = (τ x).type) (hm : Mid w.fs.owners held' [] t) : At w k τ' held' extra (v.after t) := by
  have htype : ∀ x, (τ' x).type = (w.fs.inode x).type := fun x => (ht x).trans (h.type x)
  refine ⟨hi, htype, h.data_after fun x => by rw [hi]; exact htype x, hst.proc.trans h.proc, ?_, ?_, ?_, hm, h.outstanding⟩
  · show ∀ f, (t.file f).ref = _
    rw [hst.file]
    exact h.count
  · show ∀ f, (t.file f).ref = 0 → (t.file f).type = .none
    rw [hst.file]
    exact h.idle
  · show ∀ f ∈ extra, (t.file f).ref = 1 ∧ (t.file f).type ≠ .inode
    rw [hst.file]
    exact h.fresh

theorem quiet {held' : List ℕ} (h : At w k τ held extra v) (hq : Quiet v.fs t) (hm : Mid w.fs.owners held' [] t) :
    At w k τ held' extra (v.after t) :=
  h.still hq.toStill (hq.inode.trans h.inode) (fun _ => rfl) hm

/-- A step that changes only the table of open files. -/
theorem files {extra' : List (Fin NFILE)} (h : At w k τ held extra v) (hi : t.inode = v.fs.inode)
    (hc : t.icache = v.fs.icache) (hp : t.proc = w.fs.proc)
    (hn : ∀ f, (t.file f).ref = (w.fs.file f).ref + extra'.count f)
    (hidle : ∀ f, (t.file f).ref = 0 → (t.file f).type = .none)
    (hfresh : ∀ f ∈ extra', (t.file f).ref = 1 ∧ (t.file f).type ≠ .inode) : At w k τ held extra' (v.after t) :=
  ⟨hi.trans h.inode, h.type, h.data_after fun x => by rw [hi, h.inode, h.type], hp, hn, hidle, hfresh,
    h.mid.of_eq hi hc, h.outstanding⟩

theorem setPipe {y : ℕ} {q : Option Pipe} (h : At w k τ held extra v) : At w k τ held extra (v.after (v.fs.setPipe y q)) :=
  h.files rfl rfl h.proc h.count h.idle h.fresh

theorem setFile {f : Fin NFILE} {u : File} {extra' : List (Fin NFILE)} (h : At w k τ held extra v)
    (hn : ∀ g, (w.fs.file g).ref + extra'.count g = if g = f then u.ref else (v.fs.file g).ref)
    (hidle : u.ref = 0 → u.type = .none) (hfresh : f ∈ extra' → u.ref = 1 ∧ u.type ≠ .inode)
    (hsub : ∀ g ∈ extra', g ≠ f → g ∈ extra) : At w k τ held extra' (v.after (v.fs.setFile f u)) := by
  refine h.files rfl rfl h.proc (fun g => ?_) (fun g => ?_) fun g hg => ?_
  · rw [hn]
    split_ifs with hgf
    · rw [hgf, setFile_self]
    · rw [setFile_other hgf]
  · by_cases hgf : g = f
    · rw [hgf, setFile_self]
      exact hidle
    · rw [setFile_other hgf]
      exact h.idle g
  · by_cases hgf : g = f
    · rw [hgf, setFile_self]
      exact hfresh (hgf ▸ hg)
    · rw [setFile_other hgf]
      exact h.fresh g (hsub g hg hgf)

theorem swap {f g : Fin NFILE} (h : At w k τ held [f, g] v) : At w k τ held [g, f] v := by
  refine ⟨h.inode, h.type, h.data, h.proc, fun e => ?_, h.idle, fun e he => h.fresh e ?_, h.mid, h.outstanding⟩
  · rw [h.count, (List.Perm.swap f g []).count_eq]
  · simpa [or_comm] using he

theorem beginOp {Q : PUnit → Whole → Prop} (h : At w k τ held extra v) (hQ : ∀ u, At w (k + 1) τ held extra u → Q ⟨⟩ u) :
    wp beginOp Q anyStop v :=
  hQ _ ⟨h.inode, h.type, h.data, h.proc, h.count, h.idle, h.fresh, h.mid, by
    show v.outstanding + 1 = _
    rw [h.outstanding]
    rfl⟩

theorem endOp {Q : PUnit → Whole → Prop} (h : At w (k + 1) τ held extra v) (hQ : ∀ u, At w k τ held extra u → Q ⟨⟩ u) :
    wp endOp Q anyStop v :=
  hQ _ ⟨h.inode, h.type, h.data, h.proc, h.count, h.idle, h.fresh, h.mid, by
    show v.outstanding - 1 = _
    rw [h.outstanding]
    rfl⟩

/-- The way out with -1 at the end of a transaction. -/
theorem fail (h : At w 1 w.fs.inode [] [] v) (hl : Ledger w.fs) :
    wp (do Fs.endOp; return -1) (Fails w) anyStop v := by
  rw [wp_bind]
  exact h.endOp fun u hu _ => hu.unchanged hl

theorem ilock {Q : Unit → Whole → Prop} (h : At w k τ held extra v) (hQ : ∀ u, At w k τ held extra u → Q () u) :
    wp (part (ilock x)) Q anyStop v :=
  wp_zoom.mpr (wp_ilock h.mid tame_anyStop (fun _ => trivial) fun _ hq hm _ _ => hQ _ (h.quiet hq hm))

theorem iunlock {Q : Unit → Whole → Prop} (h : At w k τ held extra v) (hQ : ∀ u, At w k τ held extra u → Q () u) :
    wp (part (iunlock x)) Q anyStop v :=
  wp_zoom.mpr (wp_iunlock h.mid tame_anyStop fun _ hq hm _ => hQ _ (h.quiet hq hm))

theorem iunlockput {Q : Unit → Whole → Prop} (h : At w k τ (x :: held) extra v)
    (hQ : ∀ u, At w k τ held extra u → Q () u) : wp (part (iunlockput x)) Q anyStop v :=
  wp_zoom.mpr (wp_iunlockput h.mid tame_anyStop (by simp) fun _ hq hm _ => hQ _ (h.quiet hq hm))

theorem dirlookup {d : ℕ} {name : Name} {Q : Option (ℕ × ℕ) → Whole → Prop} (h : At w k τ held extra v)
    (hd : (τ d).type = .dir) (knone : find name (τ d).ents = none → ∀ u, At w k τ held extra u → Q none u)
    (ksome : ∀ y off u, At w k τ (y :: held) extra u → Q (some (y, off)) u) :
    wp (part (dirlookup d name)) Q anyStop v := by
  rw [← h.inode] at hd knone
  refine wp_zoom.mpr (wp_dirlookup h.mid tame_anyStop hd (fun hf => ?_) fun y off t _ hq hm _ => ?_)
  · refine knone hf _ ?_
    rw [h.inode]
    exact h.quiet .rfl h.mid
  · exact ksome y off _ (h.quiet hq hm)

theorem start_eq {path : List Char} (h : At w k τ held extra v) : v.fs.start p path = w.fs.start p path := by
  rw [State.start, h.proc]
  rfl

theorem namex {path : List Char} {parent : Bool} {Q : Option (ℕ × Name) → Whole → Prop} (h : At w k τ held extra v)
    (hl : Ledger w.fs) (knone : ∀ u, At w k τ held extra u → Q none u)
    (ksome : ∀ y name u, ((w.fs.start p path).bind fun ip => τ.walk parent ip (elements path)) = some (y, name) →
      At w k τ (y :: held) extra u → Q (some (y, name)) u) :
    wp (part (namex p path parent)) Q anyStop v := by
  refine wp_zoom.mpr (wp_namex tame_anyStop h.mid (by rw [h.proc]; exact hl.owns_cwd) (fun _ _ _ => trivial)
    (fun _ t hq hm => knone _ (h.quiet hq hm)) fun y name hfound _ t hq hm => ?_)
  rw [h.start_eq, h.inode] at hfound
  exact ksome y name _ hfound (h.quiet hq hm)

theorem namei {path : List Char} {Q : Option ℕ → Whole → Prop} (h : At w k τ held extra v) (hl : Ledger w.fs)
    (knone : ∀ u, At w k τ held extra u → Q none u)
    (ksome : ∀ y name u, ((w.fs.start p path).bind fun ip => τ.walk false ip (elements path)) = some (y, name) →
      At w k τ (y :: held) extra u → Q (some y) u) : wp (part (namei p path)) Q anyStop v := by
  refine wp_zoom.mpr ?_
  unfold Fs.namei
  rw [wp_bind]
  refine wp_namex tame_anyStop h.mid (by rw [h.proc]; exact hl.owns_cwd) (fun _ _ _ => trivial)
    (fun _ t hq hm => knone _ (h.quiet hq hm)) fun y name hfound _ t hq hm => ?_
  rw [h.start_eq, h.inode] at hfound
  exact ksome y name _ hfound (h.quiet hq hm)

/-! ## Files -/

theorem count_cons {f : Fin NFILE} (g : Fin NFILE) :
    (f :: extra).count g = extra.count g + if g = f then 1 else 0 := by
  rw [List.count_cons]
  by_cases hg : g = f
  · simp [hg]
  · simp [hg, Ne.symm hg]

theorem filealloc {Q : Option (Fin NFILE) → Whole → Prop} (h : At w k τ held extra v)
    (knone : (∀ f, (v.fs.file f).ref ≠ 0) → ∀ u, At w k τ held extra u → Q none u)
    (ksome : ∀ f u, At w k τ held (f :: extra) u → Q (some f) u) : wp (part filealloc) Q anyStop v := by
  refine wp_zoom.mpr (wp_filealloc_table (fun hfull => knone hfull _ (h.quiet .rfl h.mid)) fun f hf => ?_)
  have hnone := h.idle f hf
  refine ksome f _ (h.setFile (fun g => ?_) nofun (fun _ => ⟨rfl, by simp [hnone]⟩) fun g hg hgf => ?_)
  · have hcount := h.count g
    rw [count_cons]
    split_ifs with hgf
    · subst hgf
      simp only
      omega
    · omega
  · exact (List.mem_cons.mp hg).resolve_left hgf

/-- The file that the call has opened is closed again. -/
theorem fileclose {f : Fin NFILE} {Q : Unit → Whole → Prop} (h : At w k τ held (f :: extra) v)
    (hQ : ∀ u, At w k τ held extra u → Q () u) : wp (Logged.fileclose f) Q anyStop v := by
  obtain ⟨hone, hnot⟩ := h.fresh f List.mem_cons_self
  have hf := h.count f
  rw [count_cons, if_pos rfl] at hf
  have hclosed : At w k τ held extra (v.after (v.fs.setFile f { v.fs.file f with ref := 0, type := .none })) := by
    refine h.setFile (fun g => ?_) (fun _ => rfl) (fun hmem => ?_) fun g hg _ => List.mem_cons_of_mem _ hg
    · have hg := h.count g
      rw [count_cons] at hg
      split_ifs at hg ⊢ with hgf
      · subst hgf
        simp only
        omega
      · omega
    · have := List.count_pos_iff.mpr hmem
      omega
  unfold Logged.fileclose
  rw [wp_bind, wp_get, if_neg (by omega), if_neg (by omega), wp_bind]
  refine wp_zoom.mpr ?_
  rw [wp_set]
  split
  · refine wp_zoom.mpr ?_
    unfold pipeclose
    rw [wp_bind, wp_get]
    split
    · trivial
    · exact hQ _ hclosed.setPipe
  · rename_i hinode
    exact absurd hinode hnot
  · exact hQ _ hclosed

end At

/-! ## The calls -/

section Calls

theorem dup_fails {fd : Option ℤ} (h : Ledger w.fs) : wp (Logged.sysDup p fd) (Fails w) anyStop w := by
  cases fd with
  | none => exact fun _ => (At.start h).unchanged h
  | some fd =>
    have hsame : Fails w (-1) (w.after w.fs) := fun _ => ((At.start h).quiet .rfl h.mid).unchanged h
    refine wp_zoom.mpr ?_
    unfold sysDup
    rw [wp_bind, wp_get]
    split
    · exact hsame
    · rw [wp_bind]
      refine wp_fdalloc (fun _ => hsame) fun fd' _ => ?_
      simp only
      refine wp_bind_anyStop fun _ t => ?_
      intro hneg
      omega

/-- `pipealloc` gives the first file back if there is no second one, or no page. -/
theorem At.pipealloc {page : Option ℕ} {Q : Option (Fin NFILE × Fin NFILE) → Whole → Prop}
    (h : At w k τ held [] v) (knone : ∀ u, At w k τ held [] u → Q none u)
    (ksome : ∀ f g u, At w k τ held [f, g] u → Q (some (f, g)) u) : wp (Logged.pipealloc page) Q anyStop v := by
  unfold Logged.pipealloc
  rw [wp_bind]
  refine h.filealloc (fun _ => knone) fun f0 u hu => ?_
  simp only
  rw [wp_bind]
  refine hu.filealloc (fun _ u hu => ?_) fun f1 u hu => ?_
  · simp only
    rw [wp_bind]
    exact hu.fileclose knone
  simp only
  rw [wp_bind, wp_get]
  split
  · rw [wp_bind]
    refine hu.swap.fileclose fun u hu => ?_
    rw [wp_bind]
    exact hu.fileclose knone
  · -- the page and the two files
    have hfresh := hu.fresh
    rw [wp_bind]
    refine wp_zoom.mpr ?_
    rw [wp_set, wp_bind, wp_get, wp_bind]
    refine wp_zoom.mpr ?_
    rw [wp_set, wp_bind, wp_get, wp_bind]
    refine wp_zoom.mpr ?_
    rw [wp_set]
    refine ksome f0 f1 _ (At.swap ?_)
    have hopen : ∀ {v : Whole} {f : Fin NFILE} {u : File}, At w k τ held [f1, f0] v → f ∈ [f1, f0] →
        u.ref = (v.fs.file f).ref → u.type = .pipe → At w k τ held [f1, f0] (v.after (v.fs.setFile f u)) := by
      intro v f u hv hf href htype
      have hone := (hv.fresh f hf).1
      refine hv.setFile (fun g => ?_) (fun h0 => by omega) (fun _ => ⟨by omega, by simp [htype]⟩) fun g hg _ => hg
      rw [← hv.count]
      split_ifs with hgf
      · rw [hgf, href]
      · rfl
    exact hopen (hopen hu.setPipe (by simp) rfl rfl) (by simp) rfl rfl

theorem pipe_fails {fetched : Bool} {page : Option ℕ} (h : Ledger w.fs) :
    wp (Logged.sysPipe p fetched page) (Fails w) anyStop w := by
  have hend : ∀ {rf wf v}, At w 0 w.fs.inode [] [rf, wf] v →
      wp (do Logged.fileclose rf; Logged.fileclose wf; return -1) (Fails w) anyStop v := by
    intro rf wf v hv
    rw [wp_bind]
    refine hv.fileclose fun u hu => ?_
    rw [wp_bind]
    exact hu.fileclose fun u hu _ => hu.unchanged h
  unfold Logged.sysPipe
  split_ifs
  swap
  · exact fun _ => (At.start h).unchanged h
  rw [wp_bind]
  refine (At.start h).pipealloc (fun u hu _ => hu.unchanged h) fun rf wf u hu => ?_
  simp only
  rw [wp_bind]
  refine wp_zoom.mpr (wp_fdalloc (fun _ => hend (hu.quiet .rfl hu.mid)) fun fd0 hnone => ?_)
  simp only
  rw [wp_bind]
  refine wp_zoom.mpr (wp_fdalloc (fun _ => ?_) fun fd1 _ => nofun)
  -- the first descriptor is given back
  simp only
  rw [wp_bind]
  refine wp_zoom.mpr ?_
  have hback : (u.fs.givenBack p fd0 rf).proc = w.fs.proc := by rw [givenBack_proc hnone, hu.proc]
  have hat : At w 0 w.fs.inode [] [rf, wf] (u.after (u.fs.givenBack p fd0 rf)) :=
    hu.files rfl rfl hback hu.count hu.idle hu.fresh
  have hparts : ∀ s1 s2 : State, s1.inode = u.fs.inode → At w 0 w.fs.inode [] [rf, wf] (u.after s2) →
      wp (do Logged.fileclose rf; Logged.fileclose wf; return -1) (Fails w) anyStop (((u.after s1).after s1).after s2) := by
    intro s1 s2 hi hat
    rw [Whole.after_after hi, Whole.after_after hi]
    exact hend hat
  exact hparts _ _ rfl hat

theorem chdir_fails {path : Option (List Char)} (h : Ledger w.fs) :
    wp (Logged.sysChdir p path) (Fails w) anyStop w := by
  unfold Logged.sysChdir
  rw [wp_bind]
  refine (At.start h).beginOp fun u hu => ?_
  split
  · exact hu.fail h
  rw [wp_bind]
  refine hu.namei h (fun u hu => hu.fail h) fun x _ u _ hu => ?_
  simp only
  rw [wp_bind]
  refine hu.ilock fun u hu => ?_
  rw [wp_bind, wp_get]
  split_ifs
  · rw [wp_bind]
    exact hu.iunlockput fun u hu => hu.fail h
  refine wp_bind_anyStop fun _ _ => ?_
  split
  · trivial
  · exact wp_bind_anyStop fun _ _ => wp_bind_anyStop fun _ _ => wp_bind_anyStop fun _ _ => nofun

theorem At.unlinkBad {d : ℕ} (hu : At w 1 w.fs.inode [d] [] v) (h : Ledger w.fs) :
    wp (Logged.unlinkBad d) (Fails w) anyStop v := by
  unfold Logged.unlinkBad
  rw [wp_bind]
  exact hu.iunlockput fun u hu => hu.fail h

theorem unlink_fails {path : Option (List Char)} (h : Ledger w.fs) :
    wp (Logged.sysUnlink p path) (Fails w) anyStop w := by
  cases path with
  | none => exact fun _ => (At.start h).unchanged h
  | some path =>
    unfold Logged.sysUnlink
    simp only
    rw [wp_bind]
    refine (At.start h).beginOp fun u hu => ?_
    rw [wp_bind]
    refine hu.namex h (fun u hu => hu.fail h) fun d name u hfound hu => ?_
    obtain ⟨ip, -, hwalk⟩ := Option.bind_eq_some_iff.mp hfound
    have hdir := Tree.walk_dir hwalk
    simp only
    rw [wp_bind]
    refine hu.ilock fun u hu => ?_
    split_ifs
    · exact hu.unlinkBad h
    rw [wp_bind]
    refine hu.dirlookup hdir (fun _ u hu => hu.unlinkBad h) fun x off u hu => ?_
    simp only
    rw [wp_bind]
    refine hu.ilock fun u hu => ?_
    rw [wp_bind, wp_get]
    split_ifs
    · trivial
    · rw [wp_bind]
      exact hu.iunlockput fun u hu => hu.unlinkBad h
    · exact wp_bind_anyStop fun _ _ => wp_bind_anyStop fun _ _ => wp_bind_anyStop fun _ _ => wp_bind_anyStop fun _ _ =>
        wp_bind_anyStop fun _ _ => wp_bind_anyStop fun _ _ => nofun
    · exact wp_bind_anyStop fun _ _ => wp_bind_anyStop fun _ _ => wp_bind_anyStop fun _ _ => wp_bind_anyStop fun _ _ =>
        wp_bind_anyStop fun _ _ => nofun

/-- **`create`**, told apart by what it finds. -/
theorem At.create {path : List Char} {kind : Kind} {major minor : BitVec 16} {blocks : Bool}
    {Q : Option ℕ → Whole → Prop} (hu : At w k w.fs.inode [] [] v) (h : Ledger w.fs) (hs : Shape w.fs.inode)
    (hk : kind ≠ .free) (knone : ∀ u, At w k w.fs.inode [] [] u → Q none u)
    (kold : ∀ x u, At w k w.fs.inode [x] [] u → Q (some x) u)
    (knew : ∀ d name x u, w.fs.parentOf p path = some (d, name) → find name (w.fs.inode d).ents = none →
      (∀ f, (u.fs.file f).ref = (w.fs.file f).ref) → u.fs.proc = w.fs.proc → Q (some x) u) :
    wp (Logged.create p path kind major minor blocks) Q anyStop v := by
  unfold Logged.create
  rw [wp_bind]
  refine hu.namex h knone fun d name u hfound hu => ?_
  obtain ⟨ip, -, hwalk⟩ := Option.bind_eq_some_iff.mp hfound
  have hdir := Tree.walk_dir hwalk
  simp only
  rw [wp_bind]
  refine hu.ilock fun u hu => ?_
  rw [wp_bind]
  refine hu.dirlookup hdir (fun hf u hu => ?_) fun x off u hu => ?_
  · simp only
    refine wp_zoom.mpr (wp_createNew tame_anyStop hu.mid (by rw [hu.inode]; exact hs) (by rw [hu.inode]; exact hdir) hk
      fun x t _ hst _ _ => ?_)
    refine knew d name x _ hfound hf (fun f => ?_) (hst.proc.trans hu.proc)
    show (t.file f).ref = _
    rw [hst.file]
    exact hu.count f
  · simp only
    rw [wp_bind]
    refine At.iunlockput ⟨hu.inode, hu.type, hu.data, hu.proc, hu.count, hu.idle, hu.fresh, hu.mid.swap, hu.outstanding⟩
      fun u hu => ?_
    rw [wp_bind]
    refine hu.ilock fun u hu => ?_
    rw [wp_bind, wp_get]
    split_ifs
    · exact kold x u hu
    · rw [wp_bind]
      exact hu.iunlockput knone

/-- **`mkdir` and `mknod`** do not fail once `create` has succeeded. -/
theorem At.make {path : List Char} {kind : Kind} {major minor : BitVec 16} {blocks : Bool}
    (hu : At w 1 w.fs.inode [] [] v) (h : Ledger w.fs) (hs : Shape w.fs.inode) (hk : kind ≠ .free) :
    wp (Logged.sysMake p path kind major minor blocks) (Fails w) anyStop v := by
  have hdone : ∀ x u, wp (do part (Fs.iunlockput x); Fs.endOp; return 0) (Fails w) anyStop u := fun x u =>
    wp_bind_anyStop fun _ _ => wp_bind_anyStop fun _ _ => nofun
  unfold Logged.sysMake
  rw [wp_bind]
  exact hu.create h hs hk (fun u hu => hu.fail h) (fun x u _ => hdone x u) fun _ _ x u _ _ _ _ => hdone x u

theorem mkdir_fails {path : Option (List Char)} {blocks : Bool} (h : Ledger w.fs) (hs : Shape w.fs.inode) :
    wp (Logged.sysMkdir p path blocks) (Fails w) anyStop w := by
  unfold Logged.sysMkdir
  rw [wp_bind]
  refine (At.start h).beginOp fun u hu => ?_
  split
  · exact hu.make h hs (by decide)
  · exact hu.fail h

theorem mknod_fails {path : Option (List Char)} {major minor : Option Word} {blocks : Bool} (h : Ledger w.fs)
    (hs : Shape w.fs.inode) : wp (Logged.sysMknod p path major minor blocks) (Fails w) anyStop w := by
  unfold Logged.sysMknod
  rw [wp_bind]
  refine (At.start h).beginOp fun u hu => ?_
  split
  · exact hu.make h hs (by decide)
  · exact hu.fail h

/-- Without room for the descriptor the inode is put, and an old file is as before. -/
theorem At.openFile {omode : Word} (hu : At w 1 w.fs.inode [x] [] v) (h : Ledger w.fs) :
    wp (Logged.openFile p omode x) (Fails w) anyStop v := by
  unfold Logged.openFile
  rw [wp_bind]
  refine hu.filealloc (fun _ u hu => ?_) fun f u hu => ?_
  · simp only
    rw [wp_bind]
    exact hu.iunlockput fun u hu => hu.fail h
  simp only
  rw [wp_bind]
  refine wp_zoom.mpr (wp_fdalloc (fun _ => ?_) fun fd _ => ?_)
  · simp only
    rw [wp_bind]
    refine (hu.quiet .rfl hu.mid).fileclose fun u hu => ?_
    rw [wp_bind]
    exact hu.iunlockput fun u hu => hu.fail h
  · simp only
    refine wp_bind_anyStop fun _ _ => wp_bind_anyStop fun _ _ => ?_
    rw [wp_bind, wp_get]
    refine wp_bind_anyStop fun _ _ hneg => ?_
    omega

/-- With room for it `open` does not fail any more. -/
theorem openFile_returns {omode : Word} (hf : ∃ f, (v.fs.file f).ref = 0) (hfd : ∃ fd, (v.fs.proc p).ofile fd = none) :
    wp (Logged.openFile p omode x) (Fails w) anyStop v := by
  obtain ⟨f, hf⟩ := hf
  obtain ⟨fd, hfd⟩ := hfd
  unfold Logged.openFile
  rw [wp_bind]
  refine wp_zoom.mpr (wp_filealloc_table (fun hfull => absurd hf (hfull f)) fun f _ => ?_)
  simp only
  rw [wp_bind]
  refine wp_zoom.mpr (wp_fdalloc (fun hfull => absurd hfd (hfull fd)) fun fd _ => ?_)
  simp only
  refine wp_bind_anyStop fun _ _ => wp_bind_anyStop fun _ _ => ?_
  rw [wp_bind, wp_get]
  refine wp_bind_anyStop fun _ _ hneg => ?_
  omega

/-- **Room for a new file**: an `open` that makes one finds a `struct file` and a descriptor. -/
def Request.Room (s : State) (p : Slot) : Request → Prop
  | .open (some path) (some omode) _ => omode &&& O_CREATE ≠ 0 → ∀ d name, s.parentOf p path = some (d, name) →
      find name (s.inode d).ents = none → (∃ f, (s.file f).ref = 0) ∧ ∃ fd, (s.proc p).ofile fd = none
  | _ => True

theorem open_fails {path : Option (List Char)} {omode : Option Word} {blocks : Bool} (h : Ledger w.fs)
    (hs : Shape w.fs.inode) (hroom : (Request.open path omode blocks).Room w.fs p) :
    wp (Logged.sysOpen p path omode blocks) (Fails w) anyStop w := by
  unfold Logged.sysOpen
  split
  · rename_i path omode _
    rw [wp_bind]
    refine (At.start h).beginOp fun u hu => ?_
    split_ifs with hcreate
    · rw [wp_bind]
      refine hu.create h hs (by decide) (fun u hu => hu.fail h) (fun x u hu => hu.openFile h)
        fun d name x u hpar hf hfile hproc => ?_
      obtain ⟨⟨f, hf⟩, hfd⟩ := hroom hcreate d name hpar hf
      exact openFile_returns ⟨f, (hfile f).trans hf⟩ (by rw [hproc]; exact hfd)
    · rw [wp_bind]
      refine hu.namei h (fun u hu => hu.fail h) fun x _ u _ hu => ?_
      simp only
      rw [wp_bind]
      refine hu.ilock fun u hu => ?_
      rw [wp_bind, wp_get]
      split_ifs
      · rw [wp_bind]
        exact hu.iunlockput fun u hu => hu.fail h
      · exact hu.openFile h
  · exact fun _ => (At.start h).unchanged h

/-- The link is taken back. -/
theorem At.linkBad (hu : At w 1 (Function.update w.fs.inode x (w.fs.inode x).addLink) [x] [] v) (h : Ledger w.fs)
    (hx : (w.fs.inode x).type ≠ .free) : wp (Logged.linkBad x) (Fails w) anyStop v := by
  unfold Logged.linkBad
  rw [wp_bind]
  refine wp_zoom.mpr (wp_ilock hu.mid tame_anyStop (fun _ => trivial) fun t hq hm _ hv => ?_)
  have hut := hu.quiet hq hm
  rw [wp_bind]
  refine wp_zoom.mpr (wp_iupdate hm.loosen rfl (fun _ => .inl List.mem_cons_self) fun t' hst hi hc hm' => ?_)
  have hback : t'.inode = w.fs.inode := by
    have hfields : { (w.fs.inode x).addLink with nlink := (w.fs.inode x).addLink.nlink - 1 } = w.fs.inode x := by
      simp [Inode.addLink]
    rw [hi, hut.inode, Function.update_self, Function.update_idem, hfields, Function.update_eq_self]
  have hmt : Mid w.fs.owners [x] [] t' := by
    refine hm'.tighten ?_
    by_cases hn : (w.fs.inode x).nlink = 0
    · exact .inr ⟨(h.mid.kept x (by simp) hx hn).1, by rw [hc]; exact hv x (.inl rfl)⟩
    · exact .inl (by rw [hback]; exact hn)
  have hat := hut.still hst hback (fun y => (hu.type y).symm) hmt
  rw [wp_bind]
  exact hat.iunlockput fun u hu => hu.fail h

theorem link_fails {old new : Option (List Char)} {blocks : Bool} (h : Ledger w.fs) (hs : Shape w.fs.inode) :
    wp (Logged.sysLink p old new blocks) (Fails w) anyStop w := by
  unfold Logged.sysLink
  split
  · rw [wp_bind]
    refine (At.start h).beginOp fun u hu => ?_
    rw [wp_bind]
    refine hu.namei h (fun u hu => hu.fail h) fun x _ u _ hu => ?_
    simp only
    rw [wp_bind]
    refine wp_zoom.mpr (wp_ilock hu.mid tame_anyStop (fun _ => trivial) fun t hq hm hfree _ => ?_)
    rw [hu.inode] at hfree
    replace hu := hu.quiet hq hm
    rw [wp_bind, wp_get]
    split_ifs
    · rw [wp_bind]
      exact hu.iunlockput fun u hu => hu.fail h
    have hx0 : x ≠ 0 := fun h0 => hfree (h0 ▸ hs.zero)
    have hn := hs.nlink_nonneg hx0
    rw [wp_bind]
    refine wp_zoom.mpr (wp_iupdate hu.mid rfl (fun h0 => ?_) fun t' hst hi _ hm' => ?_)
    · rw [hu.inode] at h0
      simp only at h0
      omega
    rw [hu.inode] at hi
    have hlinked := hu.still hst hi (fun y => by by_cases hy : y = x <;> simp [hy]) hm'
    rw [wp_bind]
    refine hlinked.iunlock fun u hu => ?_
    rw [wp_bind]
    refine hu.namex h (fun u hu => hu.linkBad h hfree) fun d name u hfound hu => ?_
    obtain ⟨ip, -, hwalk⟩ := Option.bind_eq_some_iff.mp hfound
    have hdir := Tree.walk_dir hwalk
    simp only
    rw [wp_bind]
    refine hu.ilock fun u hu => ?_
    rw [wp_bind]
    refine wp_zoom.mpr (wp_dirlink hu.mid tame_anyStop (by rw [hu.inode]; exact hdir) (fun _ t hq hm => ?_)
      fun _ t _ _ _ => ?_)
    · simp only [Bool.false_eq_true, if_false]
      rw [wp_bind]
      exact (hu.quiet hq hm).iunlockput fun u hu => hu.linkBad h hfree
    · simp only [if_true]
      exact wp_bind_anyStop fun _ _ => wp_bind_anyStop fun _ _ => wp_bind_anyStop fun _ _ => nofun
  · exact fun _ => (At.start h).unchanged h

theorem Request.fails (r : Request) (h : Sound w.fs) (hroom : r.Room w.fs p) : wp (r.run p) (Fails w) anyStop w := by
  obtain ⟨hl, hs⟩ := h
  cases r with
  | «open» path omode blocks => exact open_fails hl hs hroom
  | mkdir path blocks => exact mkdir_fails hl hs
  | mknod path major minor blocks => exact mknod_fails hl hs
  | link old new blocks => exact link_fails hl hs
  | unlink path => exact unlink_fails hl
  | chdir path => exact chdir_fails hl
  | dup fd => exact dup_fails hl
  | pipe fetched page => exact pipe_fails hl

end Calls

/-- **A call that fails changes nothing**, in every state that calls of any processes reach, whatever the files hold and
whoever is inside a transaction: if `open`, `mkdir`, `mknod`, `link`, `unlink`, `chdir`, `dup` or `pipe` returns -1 then
the inode table with the entries and the link counts, the bytes of the files, the descriptors and working directories,
the counts of open files and cached inodes and the count of the log are as before. The condition is on `open` of a new
name with `O_CREATE`. -/
theorem failed_call_changes_nothing {args : Files} {tr : List (State × Label)} {s : State}
    (h : Path step free (boot args) tr s) (data : ℕ → List Byte) (n : ℕ) (p : Slot) (r : Request) (hroom : r.Room s p)
    {v : Whole} (hrun : r.run p ⟨s, data, n⟩ = .ok (-1, v)) : Unchanged ⟨s, data, n⟩ v :=
  (r.fails (w := ⟨s, data, n⟩) (sound_of_path h) hroom).ok hrun rfl

/-- The request fails. -/
def Request.fail (r : Request) (p : Slot) (w : Whole) : Option Whole :=
  match r.run p w with
  | .ok (a, v) => if a = -1 then some v else none
  | .error _ => none

theorem Request.run_of_fail {r : Request} (h : r.fail p w = some v) : r.run p w = .ok (-1, v) := by
  unfold Request.fail at h
  split at h
  · rename_i a u hrun
    split_ifs at h with ha
    cases h
    rw [hrun, ha]
  · cases h

/-- An image with the file `f`. -/
def oneFile : Files := ⟨[['f']], by decide⟩

/-- A `link` whose second path leads nowhere has taken its link back. -/
theorem failed_call_changes_nothing_link : ∃ v, (Request.link (some ['f']) (some ['d', '/', 'g']) true).run 0
      ⟨boot oneFile, fun _ => [], 0⟩ = .ok (-1, v) ∧ Unchanged ⟨boot oneFile, fun _ => [], 0⟩ v := by
  have hsome : ((Request.link (some ['f']) (some ['d', '/', 'g']) true).fail 0 ⟨boot oneFile, fun _ => [], 0⟩).isSome := by
    decide +kernel
  obtain ⟨v, hv⟩ := Option.isSome_iff_exists.mp hsome
  have hrun := Request.run_of_fail hv
  have hpath : Path step free (boot oneFile) [] (boot oneFile) := .nil
  exact ⟨v, hrun, failed_call_changes_nothing hpath _ _ 0 _ (by trivial) hrun⟩

/-- **A new file stays behind** when `open` finds no descriptor: the process has all of its descriptors in use, `open`
with `O_CREATE` returns -1, and the directory has a new entry. -/
theorem open_leaves_new_file : ∃ tr s v, Path step free (boot ∅) tr s ∧
    (Request.open (some ['a']) (some O_CREATE) true).run 0 ⟨s, fun _ => [], 0⟩ = .ok (-1, v) ∧
    find ['a'] (s.inode ROOTINO).ents = none ∧ find ['a'] (v.fs.inode ROOTINO).ents ≠ none ∧
    ¬ Unchanged ⟨s, fun _ => [], 0⟩ v := by
  obtain ⟨s, hp, hs⟩ := Lib.exists_path step free (boot ∅)
    (⟨0, .open ['/'] 0 true⟩ :: List.replicate 15 ⟨0, .dup 0⟩)
    (fun s => find ['a'] (s.inode ROOTINO).ents = none ∧
      ∃ v ∈ (Request.open (some ['a']) (some O_CREATE) true).fail 0 ⟨s, fun _ => [], 0⟩,
        find ['a'] (v.fs.inode ROOTINO).ents ≠ none) (by decide +kernel)
  obtain ⟨hnone, v, hv, hsome⟩ := hs
  refine ⟨_, s, v, hp, Request.run_of_fail hv, hnone, hsome, fun hsame => hsome ?_⟩
  rw [hsame.inode]
  exact hnone

end Xv6.Fs
