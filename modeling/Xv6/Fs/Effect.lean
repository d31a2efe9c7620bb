import Xv6.Fs.Books

/-!
# What a call does

Every call keeps the books and does one thing to the directory tree, or nothing: it makes an inode with a name, gives a
file a name, or takes a name out (`Change`); then it gives back inodes that have lost their last link and their last
owner (`Reaped`). A call stops with `ilock: no type` only if an inode that can be named is free (`Blame`).
-/

namespace Xv6.Fs

open Lib
open Function (update update_eq_self update_idem update_of_ne update_self)

variable {s t : State} {p : Slot} {c : Call}

/-- **The books between two calls.** -/
structure Ledger (s : State) : Prop extends Books s.cwds s.fds [] s where
  /-- a process without a working directory has nothing open -/
  vacant : ∀ p, (s.proc p).cwd = none → ∀ fd, (s.proc p).ofile fd = none

/-- The references to inodes that processes and open files own. -/
def State.owners (s : State) (x : ℕ) : ℕ := s.cwds x + s.opens x

/-- The path and the kind of the inode that a call may make. -/
def Call.makes : Call → Option (List Char × Kind)
  | .open path omode _ => if omode &&& O_CREATE ≠ 0 then some (path, .file) else none
  | .mkdir path _ => some (path, .dir)
  | .mknod path _ _ _ => some (path, .dev)
  | _ => none

/-- **The change of the tree** that a call makes. -/
inductive Change (s : State) (p : Slot) : Call → Tree → Prop
  | same {c : Call} : Change s p c s.inode
  | made {c : Call} {path : List Char} {kind : Kind} {major minor : BitVec 16} {d x : ℕ} {name : Name} :
      c.makes = some (path, kind) → s.parentOf p path = some (d, name) → find name (s.inode d).ents = none →
      CanMake s.inode d x kind → Change s p c (s.inode.make d (name.take DIRSIZ) x kind major minor)
  | linked {old new : List Char} {blocks : Bool} {d x : ℕ} {name : Name} :
      s.parentOf p new = some (d, name) → find name (s.inode d).ents = none → CanLink s.inode d x →
      Change s p (.link old new blocks) (s.inode.link d (name.take DIRSIZ) x)
  | removed {path : List Char} {d x k : ℕ} {name : Name} :
      s.parentOf p path = some (d, name) → find name (s.inode d).ents = some (x, k) → CanRemove s.inode d k x →
      Change s p (.unlink path) (s.inode.remove d k x)

/-- A state after a call. -/
def Outcome (s : State) (p : Slot) (c : Call) (t : State) : Prop :=
  Ledger t ∧ ∃ τ, Change s p c τ ∧ Reaped τ t.inode

/-- The ways in which a call may stop. -/
def Blame (s : State) (e : Stop) : Prop := e.tame ∨ e = .noType ∧ ∃ x, Near s x ∧ (s.inode x).type = .free

theorem tame_blame : Tame (Blame s) := fun _ he => .inl he

theorem blame_near (x : ℕ) (hx : Near s x) (hf : (s.inode x).type = .free) : Blame s .noType := .inr ⟨rfl, x, hx, hf⟩

theorem Ledger.owns_cwd (_ : Ledger s) (x : ℕ) (hx : (s.proc p).cwd = some x) : 0 < s.owners x := by
  have : 0 < s.cwds x := refs_pos.mpr ⟨p, hx⟩
  unfold State.owners
  omega

theorem Ledger.owns_file (_ : Ledger s) {f : Fin NFILE} {x : ℕ} (hx : (s.file f).points = some x) :
    0 < s.owners x := by
  have : 0 < s.opens x := refs_pos.mpr ⟨f, hx⟩
  unfold State.owners
  omega

theorem cwds_congr (h : t.proc = s.proc) : t.cwds = s.cwds := by
  funext x
  rw [State.cwds, h]
  rfl

theorem fds_congr (h : t.proc = s.proc) : t.fds = s.fds := by
  funext x
  rw [State.fds, h]
  rfl

theorem Ledger.of_proc (h : Ledger s) (hp : t.proc = s.proc) (hb : Books s.cwds s.fds [] t) : Ledger t :=
  ⟨by rw [cwds_congr hp, fds_congr hp]; exact hb, by rw [hp]; exact h.vacant⟩

theorem Ledger.still (h : Ledger s) (hst : Still s t) (hm : Mid s.owners [] [] t)
    (ht : ∀ x, (s.inode x).type ≠ .free → (t.inode x).type ≠ .free → (t.inode x).type = (s.inode x).type) :
    Ledger t := h.of_proc hst.proc (h.toBooks.still hst hm ht)

theorem Ledger.quiet (h : Ledger s) (hq : Quiet s t) (hm : Mid s.owners [] [] t) : Outcome s p c t :=
  ⟨h.still hq.toStill hm fun x _ _ => by rw [hq.inode], s.inode, .same, by rw [hq.inode]; exact .refl⟩

theorem Ledger.same (h : Ledger s) : Outcome s p c s := ⟨h, s.inode, .same, .refl⟩

theorem wp_namei {path : List Char} {Q : Option ℕ → State → Prop} (h : Ledger s)
    (knone : ∀ t, Quiet s t → Mid s.owners [] [] t → Q none t)
    (ksome : ∀ x, Near s x → ∀ t, Quiet s t → Mid s.owners [x] [] t → Q (some x) t) :
    wp (namei p path) Q (Blame s) s := by
  unfold namei
  rw [wp_bind]
  exact wp_namex tame_blame h.mid h.owns_cwd blame_near (fun _ t hq hm => knone t hq hm)
    fun x _ _ hx t hq hm => ksome x hx t hq hm

theorem wp_ilock_near {x : ℕ} {own : ℕ → ℕ} {held loose : List ℕ} {Q : Unit → State → Prop} (hx : Near s x)
    (hi : (t.inode x).type = (s.inode x).type) (hm : Mid own held loose t)
    (k : ∀ u, Quiet t u → Mid own held loose u → (t.inode x).type ≠ .free →
      (∀ y, y = x ∨ (t.icache y).valid → (u.icache y).valid) → Q () u) : wp (ilock x) Q (Blame s) t :=
  wp_ilock hm tame_blame (fun hf => blame_near x hx (by rw [← hi]; exact hf)) k

/-! ## Calls that leave the tree alone -/

theorem exec_spec {path : List Char} (h : Ledger s) : wp (sysExec p path) (fun _ => Outcome s p c) (Blame s) s := by
  unfold sysExec
  rw [wp_bind]
  refine wp_namei h (fun t hq hm => h.quiet hq hm) fun x hx t hq hm => ?_
  simp only
  rw [wp_bind]
  refine wp_ilock_near hx (by rw [hq.inode]) hm fun u hq' hm' _ _ => ?_
  rw [wp_bind]
  refine wp_iunlockput hm' tame_blame (by simp) fun v hq'' hm'' _ => ?_
  exact h.quiet ((hq.trans hq').trans hq'') hm''

theorem setProc_cwd {v : Option ℕ} {q : Slot} :
    ((s.setProc p { s.proc p with cwd := v }).proc q).cwd = if q = p then v else (s.proc q).cwd := by
  by_cases hq : q = p
  · subst hq
    simp [State.setProc]
  · simp [State.setProc, hq]

theorem setProc_ofile {v : Option ℕ} {q : Slot} :
    ((s.setProc p { s.proc p with cwd := v }).proc q).ofile = (s.proc q).ofile := by
  by_cases hq : q = p
  · subst hq
    simp [State.setProc]
  · simp [State.setProc, hq]

theorem Ledger.setCwd (h : Ledger s) {v : Option ℕ} (hst : Still s t)
    (hm : Mid (fun x => (t.setProc p { t.proc p with cwd := v }).cwds x + s.opens x) [] [] t)
    (ht : ∀ x, (s.inode x).type ≠ .free → (t.inode x).type ≠ .free → (t.inode x).type = (s.inode x).type)
    (hv : v = none → ∀ fd, (s.proc p).ofile fd = none) : Ledger (t.setProc p { t.proc p with cwd := v }) := by
  have hfd : (t.setProc p { t.proc p with cwd := v }).fds = s.fds := fds_setCwd.trans (fds_congr hst.proc)
  refine ⟨by rw [hfd]; exact (h.toBooks.still hst hm ht).setProc, fun q hq fd => ?_⟩
  rw [setProc_ofile, hst.proc]
  rw [setProc_cwd, hst.proc] at hq
  split_ifs at hq with hqp
  · rw [hqp]
    exact hv hq fd
  · exact h.vacant q hq fd

/-- The references that are left when a process gives up its working directory `x`. -/
def State.without (s : State) (x y : ℕ) : ℕ := s.owners y - if x = y then 1 else 0

theorem wp_iput_cwd {u : State} {x : ℕ} {held : List ℕ} {Q : Unit → State → Prop} {E : Stop → Prop} (h : Ledger s)
    (hE : Tame E) (hq : Quiet s u) (hm : Mid s.owners held [] u) (hcwd : (s.proc p).cwd = some x) (hheld : x ∉ held)
    (k : ∀ t, Still s t → Mid (s.without x) held [] t → Reap (s.without x) x s.inode t.inode → Q () t) :
    wp (iput x) Q E u := by
  have hown := h.owns_cwd x hcwd
  have hsplit : ∀ y, s.owners y = s.without x y + if x = y then 1 else 0 := by
    intro y
    unfold State.without
    split_ifs with hy
    · subst hy
      omega
    · omega
  refine wp_iput_last (hm.take hsplit) hE hheld (hm.valid_of_own (by simp) hown) fun t hst hmt hreap _ => ?_
  rw [hq.inode] at hreap
  exact k t (hq.toStill.trans hst) hmt hreap

theorem cwds_moved {x y : ℕ} {v : Option ℕ} (h : Ledger s) (hst : Still s t) (hcwd : (s.proc p).cwd = some x) :
    (t.setProc p { t.proc p with cwd := v }).cwds y + s.opens y =
      s.without x y + if v = some y then 1 else 0 := by
  have h1 := cwds_setCwd (s := t) (p := p) (v := v) y
  have h2 := h.owns_cwd x hcwd
  rw [cwds_congr hst.proc, hst.proc, hcwd] at h1
  rw [hst.proc]
  have h3 : 0 < s.cwds x := refs_pos.mpr ⟨p, hcwd⟩
  simp only [Option.some.injEq] at h1
  unfold State.without State.owners
  by_cases hxy : x = y
  · subst hxy
    simp only [if_true] at h1 ⊢
    omega
  · simp only [if_neg hxy] at h1 ⊢
    omega

theorem chdir_spec {path : List Char} (h : Ledger s) : wp (sysChdir p path) (fun _ => Outcome s p c) (Blame s) s := by
  unfold sysChdir
  rw [wp_bind]
  refine wp_namei h (fun t hq hm => h.quiet hq hm) fun x hx t hq hm => ?_
  simp only
  rw [wp_bind]
  refine wp_ilock_near hx (by rw [hq.inode]) hm fun u hq' hm' hfree _ => ?_
  have hqu := hq.trans hq'
  rw [wp_bind, wp_get]
  split_ifs with hdir
  · rw [wp_bind]
    exact wp_iunlockput hm' tame_blame (by simp) fun v hq'' hm'' _ => h.quiet (hqu.trans hq'') hm''
  · rw [wp_bind]
    refine wp_iunlock hm' tame_blame fun v hq'' hm'' _ => ?_
    have hqv := hqu.trans hq''
    split
    · exact tame_blame _ rfl
    · rename_i cwd hcwd
      rw [hqu.proc] at hcwd
      by_cases hx' : x = cwd
      · -- the reference that goes and the one that comes are to the same inode
        subst hx'
        rw [wp_bind]
        refine wp_iput hm'' (by simp) fun w hqw hmw _ => ?_
        have hqw' := hqv.trans hqw
        have hsame : ∀ y, (w.setProc p { w.proc p with cwd := some x }).cwds y + s.opens y = s.owners y := by
          intro y
          have h1 := h.owns_cwd x hcwd
          rw [cwds_moved h hqw'.toStill hcwd, State.without]
          simp only [Option.some.injEq]
          split_ifs with hy
          · subst hy
            omega
          · omega
        refine ⟨h.setCwd hqw'.toStill (by simp only [hsame]; exact hmw) (fun y _ _ => by rw [hqw'.inode])
          (fun h0 => by cases h0), s.inode, .same, ?_⟩
        rw [show (w.setProc p { w.proc p with cwd := some x }).inode = s.inode from hqw'.inode]
        exact .refl
      · rw [wp_bind]
        refine wp_iput_cwd h tame_blame hqv hm'' hcwd (by simpa using fun h0 => hx' h0.symm) fun w hst hmw hreap => ?_
        have hwx : (w.inode x).type ≠ .free := by
          rw [hreap.other hx']
          rwa [hq.inode] at hfree
        have hgive : Mid (fun y => (w.setProc p { w.proc p with cwd := some x }).cwds y + s.opens y) [] [] w :=
          hmw.give (fun y => by rw [cwds_moved h hst hcwd]; simp only [Option.some.injEq]) hwx
        exact ⟨h.setCwd hst hgive (fun y _ hy => hreap.reaped.type y hy) (fun h0 => by cases h0), s.inode, .same,
          hreap.reaped⟩

/-! ## Descriptors -/

theorem argfd_some {fd : ℤ} {i : Fin NOFILE} {f : Fin NFILE} (h : s.argfd p fd = some (i, f)) :
    (s.proc p).ofile i = some f := by
  unfold State.argfd at h
  split_ifs at h with hr
  obtain ⟨g, hg, he⟩ := Option.map_eq_some_iff.mp h
  obtain ⟨rfl, rfl⟩ := Prod.mk.inj he
  exact hg

theorem Ledger.fds_pos (_ : Ledger s) {i : Fin NOFILE} {f : Fin NFILE} (hf : (s.proc p).ofile i = some f) :
    0 < s.fds f := refs_pos.mpr ⟨(p, i), hf⟩

theorem Ledger.ref_pos (h : Ledger s) {i : Fin NOFILE} {f : Fin NFILE} (hf : (s.proc p).ofile i = some f) :
    0 < (s.file f).ref := by
  rw [h.count]
  exact h.fds_pos hf

theorem Ledger.points (h : Ledger s) {i : Fin NOFILE} {f : Fin NFILE} (hf : (s.proc p).ofile i = some f)
    (ht : (s.file f).type = .inode) : (s.file f).points = some (s.file f).ip :=
  if_pos ⟨h.ref_pos hf, ht⟩

theorem touch_spec {x : ℕ} {r : ℤ} (h : Ledger s) (hx : Near s x) :
    wp (do ilock x; iunlock x; return r) (fun _ => Outcome s p c) (Blame s) s := by
  rw [wp_bind]
  refine wp_ilock_near hx rfl h.mid fun t hq hm _ _ => ?_
  rw [wp_bind]
  exact wp_iunlock hm tame_blame fun u hq' hm' _ => h.quiet (hq.trans hq') hm'

theorem read_spec {fd : ℤ} (h : Ledger s) : wp (sysRead p fd) (fun _ => Outcome s p c) (Blame s) s := by
  unfold sysRead
  rw [wp_bind, wp_get]
  split
  · exact h.same
  · rename_i i f hfd
    have hf := argfd_some hfd
    split_ifs
    · split
      · exact tame_blame _ rfl
      · exact h.same
      · rename_i ht
        exact touch_spec h (.file (h.points hf ht))
    · exact h.same

theorem fstat_spec {fd : ℤ} (h : Ledger s) : wp (sysFstat p fd) (fun _ => Outcome s p c) (Blame s) s := by
  unfold sysFstat
  rw [wp_bind, wp_get]
  split
  · exact h.same
  · rename_i i f hfd
    have hf := argfd_some hfd
    split_ifs with ht
    · exact touch_spec h (.file (h.points hf ht))
    · exact h.same

theorem write_spec {fd : ℤ} {chunks : List (List Dirent)} (h : Ledger s) :
    wp (sysWrite p fd chunks) (fun _ => Outcome s p c) (Blame s) s := by
  unfold sysWrite
  rw [wp_bind, wp_get]
  split
  · exact h.same
  · rename_i i f hfd
    have hf := argfd_some hfd
    split_ifs with hw
    · split
      · exact tame_blame _ rfl
      · exact h.same
      · rename_i ht
        have hp := h.points hf ht
        have hdir := h.mode f _ hp hw
        rw [wp_bind]
        -- no round of the loop writes to a directory
        refine (wp_forM (I := fun _ t => Quiet s t ∧ Mid s.owners [] [] t) (fun es rest t ht => ?_) chunks s
          ⟨.rfl, h.mid⟩).mono fun _ t ht => h.quiet ht.1 ht.2
        unfold writeChunk
        rw [wp_bind]
        refine wp_ilock_near (.file hp) (by rw [ht.1.inode]) ht.2 fun u hq hm _ _ => ?_
        have hqu := ht.1.trans hq
        rw [wp_bind, wp_get, if_neg (by rw [hqu.inode]; exact hdir)]
        exact wp_iunlock hm tame_blame fun v hq' hm' _ => ⟨hqu.trans hq', hm'⟩
    · exact h.same

theorem wp_fdalloc {f : Fin NFILE} {Q : Option (Fin NOFILE) → State → Prop} {E : Stop → Prop}
    (knone : (∀ fd, (s.proc p).ofile fd ≠ none) → Q none s)
    (ksome : ∀ fd, (s.proc p).ofile fd = none →
      Q (some fd) (s.setProc p { s.proc p with ofile := update (s.proc p).ofile fd (some f) })) :
    wp (fdalloc p f) Q E s := by
  unfold fdalloc
  rw [wp_bind, wp_get]
  split
  · rename_i hfd
    exact knone fun fd => of_decide_eq_false (Bool.eq_false_iff.mpr (List.find?_eq_none.mp hfd fd (List.mem_finRange fd)))
  · rename_i fd hfd
    have hnone : (s.proc p).ofile fd = none :=
      of_decide_eq_true (List.find?_some (p := fun fd => decide ((s.proc p).ofile fd = none)) hfd)
    exact ksome fd hnone

theorem fds_alloc {f : Fin NFILE} {fd : Fin NOFILE} (h : (s.proc p).ofile fd = none) :
    (s.setProc p { s.proc p with ofile := update (s.proc p).ofile fd (some f) }).fds = bump s.fds f := by
  funext g
  have := fds_setOfile s p fd (some f) g
  rw [h] at this
  simp only [reduceCtorEq, if_false, Option.some.injEq] at this
  rw [bump]
  omega

theorem fds_release {f : Fin NFILE} {fd : Fin NOFILE} (h : (s.proc p).ofile fd = some f) :
    bump (s.setProc p { s.proc p with ofile := update (s.proc p).ofile fd none }).fds f = s.fds := by
  funext g
  have := fds_setOfile s p fd none g
  rw [h] at this
  simp only [reduceCtorEq, if_false, Option.some.injEq] at this
  rw [bump]
  omega

theorem setOfile_cwd {o : Fin NOFILE → Option (Fin NFILE)} {q : Slot} :
    ((s.setProc p { s.proc p with ofile := o }).proc q).cwd = (s.proc q).cwd := by
  by_cases hq : q = p
  · subst hq
    simp [State.setProc]
  · simp [State.setProc, hq]

theorem setOfile_other {o : Fin NOFILE → Option (Fin NFILE)} {q : Slot} (hq : q ≠ p) :
    (s.setProc p { s.proc p with ofile := o }).proc q = s.proc q := update_of_ne hq ..

theorem Ledger.of_descriptors (h : Ledger s) (hcwd : (s.proc p).cwd ≠ none)
    (hc : ∀ q, (t.proc q).cwd = (s.proc q).cwd) (ho : ∀ q, q ≠ p → (t.proc q).ofile = (s.proc q).ofile)
    (hb : Books s.cwds t.fds [] t) : Ledger t := by
  have hcw : t.cwds = s.cwds := by
    funext x
    simp only [State.cwds, hc]
  refine ⟨by rw [hcw]; exact hb, fun q hq fd => ?_⟩
  rw [hc] at hq
  have hqp : q ≠ p := fun he => hcwd (he ▸ hq)
  rw [ho q hqp]
  exact h.vacant q hq fd

theorem Ledger.of_ofile (h : Ledger s) {o : Fin NOFILE → Option (Fin NFILE)} (hcwd : (s.proc p).cwd ≠ none)
    (hp : t.proc = (s.setProc p { s.proc p with ofile := o }).proc) {n : Fin NFILE → ℕ}
    (hn : (s.setProc p { s.proc p with ofile := o }).fds = n) (hb : Books s.cwds n [] t) : Ledger t := by
  have hfd : t.fds = n := (fds_congr hp).trans hn
  refine h.of_descriptors hcwd (fun q => by rw [hp]; exact setOfile_cwd) (fun q hq => ?_) (by rw [hfd]; exact hb)
  rw [hp, setOfile_other hq]

theorem Ledger.cwd_of_ofile (h : Ledger s) {i : Fin NOFILE} {f : Fin NFILE} (hf : (s.proc p).ofile i = some f) :
    (s.proc p).cwd ≠ none := by
  intro hc
  rw [h.vacant p hc i] at hf
  cases hf

theorem dup_spec {fd : ℤ} (h : Ledger s) : wp (sysDup p fd) (fun _ => Outcome s p c) (Blame s) s := by
  unfold sysDup
  rw [wp_bind, wp_get]
  split
  · exact h.same
  · rename_i i f hfd
    have hf := argfd_some hfd
    rw [wp_bind]
    refine wp_fdalloc (fun _ => h.same) fun fd' hnone => ?_
    simp only
    rw [wp_bind]
    refine wp_filedup h.toBooks.setProc (h.fds_pos hf) fun t ho hb => ?_
    exact ⟨h.of_ofile (h.cwd_of_ofile hf) ho.proc (fds_alloc hnone) hb, s.inode, .same, by rw [ho.inode]; exact .refl⟩

theorem close_spec {fd : ℤ} (h : Ledger s) : wp (sysClose p fd) (fun _ => Outcome s p c) (Blame s) s := by
  unfold sysClose
  rw [wp_bind, wp_get]
  split
  · exact h.same
  · rename_i i f hfd
    have hf := argfd_some hfd
    have hb := h.toBooks.setProc (p := p) (v := { s.proc p with ofile := update (s.proc p).ofile i none })
    rw [← fds_release hf] at hb
    rw [wp_bind]
    show wp (fileclose f >>= fun _ => pure 0) _ _ (s.setProc p { s.proc p with ofile := update (s.proc p).ofile i none })
    rw [wp_bind]
    refine wp_fileclose hb tame_blame (by simp) fun t hp hbt hr => ?_
    exact ⟨h.of_ofile (h.cwd_of_ofile hf) hp rfl hbt, s.inode, .same, hr⟩

/-! ## Pipes -/

theorem bump_comm {n : Fin NFILE → ℕ} (f g : Fin NFILE) : bump (bump n f) g = bump (bump n g) f := by
  funext i
  simp only [bump]
  omega

/-- The two files of a new pipe. -/
def State.piped (s : State) (k : ℕ) (f0 f1 : Fin NFILE) : State :=
  let s := s.setPipe k (some ⟨true, true⟩)
  let s := s.setFile f0 { s.file f0 with type := .pipe, readable := true, writable := false, pipe := k }
  s.setFile f1 { s.file f1 with type := .pipe, readable := false, writable := true, pipe := k }

section Piped

variable {cw : ℕ → ℕ} {n : Fin NFILE → ℕ} {k : ℕ} {f0 f1 : Fin NFILE}

theorem piped_fst (hne : f0 ≠ f1) : (s.piped k f0 f1).file f0 =
    { s.file f0 with type := .pipe, readable := true, writable := false, pipe := k } := by
  rw [State.piped, setFile_other hne, setFile_self]
  rfl

theorem piped_snd (hne : f0 ≠ f1) : (s.piped k f0 f1).file f1 =
    { s.file f1 with type := .pipe, readable := false, writable := true, pipe := k } := by
  rw [State.piped, setFile_self, setFile_other hne.symm]
  rfl

theorem piped_other {g : Fin NFILE} (h0 : g ≠ f0) (h1 : g ≠ f1) : (s.piped k f0 f1).file g = s.file g := by
  rw [State.piped, setFile_other h1, setFile_other h0]
  rfl

/-- **A new pipe**: both its ends are open, on a file each. -/
theorem Books.piped (h : Books cw n [] s) (hne : f0 ≠ f1) (h0 : (s.file f0).type = .none) (h1 : (s.file f1).type = .none)
    (hr0 : (s.file f0).ref = 1) (hr1 : (s.file f1).ref = 1) (hk : s.pipe k = none) :
    Books cw n [] (s.piped k f0 f1) := by
  have hn0 := File.not_open h0
  have hn1 := File.not_open h1
  have hother : ∀ g, g ≠ f0 → g ≠ f1 → (s.piped k f0 f1).file g = s.file g := fun g => piped_other
  have hpoints : ∀ g, ((s.piped k f0 f1).file g).points = (s.file g).points := by
    intro g
    by_cases hg0 : g = f0
    · subst hg0
      rw [piped_fst hne, hn0.1]
      simp [File.points]
    by_cases hg1 : g = f1
    · subst hg1
      rw [piped_snd hne, hn1.1]
      simp [File.points]
    · rw [hother g hg0 hg1]
  have hopens : (s.piped k f0 f1).opens = s.opens := by
    funext x
    simp only [State.opens, hpoints]
  have href : ∀ g, ((s.piped k f0 f1).file g).ref = (s.file g).ref := by
    intro g
    by_cases hg0 : g = f0
    · subst hg0
      rw [piped_fst hne]
    by_cases hg1 : g = f1
    · subst hg1
      rw [piped_snd hne]
    · rw [hother g hg0 hg1]
  refine ⟨⟨fun g => by rw [href]; exact h.count g, fun g hg => ?_, fun e => ?_, fun j q hj => ?_⟩,
    by rw [hopens]; exact h.mid.of_eq rfl rfl, fun g x hp hw => ?_⟩
  · rw [href] at hg
    have hg0 : g ≠ f0 := fun he => by rw [he] at hg; omega
    have hg1 : g ≠ f1 := fun he => by rw [he] at hg; omega
    rw [hother g hg0 hg1]
    exact h.idle g hg
  · have he1 := ends_setFile (s := (s.setPipe k (some ⟨true, true⟩)).setFile f0
      { s.file f0 with type := .pipe, readable := true, writable := false, pipe := k }) (f := f1)
      (v := { s.file f1 with type := .pipe, readable := false, writable := true, pipe := k }) e
    have he0 := ends_setFile (s := s.setPipe k (some ⟨true, true⟩)) (f := f0)
      (v := { s.file f0 with type := .pipe, readable := true, writable := false, pipe := k }) e
    rw [setFile_other hne.symm, show (s.setPipe k (some ⟨true, true⟩)).file f1 = s.file f1 from rfl, hn1.2] at he1
    rw [show (s.setPipe k (some ⟨true, true⟩)).file f0 = s.file f0 from rfl, hn0.2] at he0
    have hend0 : ({ s.file f0 with type := .pipe, readable := true, writable := false, pipe := k } : File).pipeEnd =
        some (k, false) := by simp [File.pipeEnd, hr0]
    have hend1 : ({ s.file f1 with type := .pipe, readable := false, writable := true, pipe := k } : File).pipeEnd =
        some (k, true) := by simp [File.pipeEnd, hr1]
    rw [hend0] at he0
    rw [hend1] at he1
    have hopen : (s.piped k f0 f1).endOpen e = if e.1 = k then true else s.endOpen e := by
      show (s.setPipe k (some ⟨true, true⟩)).endOpen e = _
      rw [endOpen_setPipe]
      obtain ⟨j, b⟩ := e
      cases b <;> rfl
    have hold := h.ends e
    have hz : e.1 = k → s.endOpen e = false := fun hj => by simp [State.endOpen, hj, hk]
    rw [hopen, show (s.piped k f0 f1).ends e = ((s.setPipe k (some ⟨true, true⟩)).setFile f0
      { s.file f0 with type := .pipe, readable := true, writable := false, pipe := k } |>.setFile f1
      { s.file f1 with type := .pipe, readable := false, writable := true, pipe := k }).ends e by
        rw [State.piped]
        simp only [setFile_other hne.symm]
        rfl]
    have hs : (s.setPipe k (some ⟨true, true⟩)).ends e = s.ends e := rfl
    obtain ⟨j, b⟩ := e
    simp only [Option.some.injEq, Prod.mk.injEq, reduceCtorEq, if_false] at he0 he1 hz ⊢
    by_cases hj : j = k
    · subst hj
      rw [hz rfl, Bool.toNat_false] at hold
      rw [if_pos rfl, Bool.toNat_true]
      cases b with
      | false => simp at he0 he1; omega
      | true => simp at he0 he1; omega
    · have hkj : k ≠ j := Ne.symm hj
      rw [if_neg hj]
      simp only [hkj, false_and, if_false] at he0 he1
      omega
  · by_cases hjk : j = k
    · subst hjk
      have : q = ⟨true, true⟩ := by simpa [State.piped, State.setFile, State.setPipe] using hj.symm
      rw [this]
      exact .inl rfl
    · have : s.pipe j = some q := by simpa [State.piped, State.setFile, State.setPipe, hjk] using hj
      exact h.pages j q this
  · rw [hpoints] at hp
    have hg0 : g ≠ f0 := fun he => by rw [he, hn0.1] at hp; cases hp
    have hg1 : g ≠ f1 := fun he => by rw [he, hn1.1] at hp; cases hp
    rw [hother g hg0 hg1] at hw
    exact h.mode g x hp hw

theorem pipealloc_spec {page : Option ℕ} {Q : Option (Fin NFILE × Fin NFILE) → State → Prop} {E : Stop → Prop}
    (hE : Tame E) (h : Books cw n [] s)
    (knone : ∀ t, t.proc = s.proc → Books cw n [] t → Reaped s.inode t.inode → Q none t)
    (ksome : ∀ f0 f1 t, t.proc = s.proc → t.inode = s.inode → Books cw (bump (bump n f0) f1) [] t → Q (some (f0, f1)) t) :
    wp (pipealloc page) Q E s := by
  unfold pipealloc
  rw [wp_bind]
  refine wp_filealloc h (knone s rfl h .refl) fun f0 t hz0 ho0 hb0 ht0 hr0 => ?_
  simp only
  rw [wp_bind]
  refine wp_filealloc hb0 ?_ fun f1 u hz1 ho1 hb1 ht1 hr1 => ?_
  · simp only
    rw [wp_bind]
    refine wp_fileclose hb0 hE (by simp) fun u hp hb hr => ?_
    exact knone u (hp.trans ho0.proc) hb (by rw [← ho0.inode]; exact hr)
  · have hne : f0 ≠ f1 := by
      rintro rfl
      omega
    have hproc := ho1.proc.trans ho0.proc
    have hinode := ho1.inode.trans ho0.inode
    simp only
    rw [wp_bind, wp_get]
    split
    · rw [bump_comm] at hb1
      rw [wp_bind]
      refine wp_fileclose hb1 hE (by simp) fun v hp hb hr => ?_
      rw [wp_bind]
      refine wp_fileclose hb hE (by simp) fun w hp' hb' hr' => ?_
      exact knone w ((hp'.trans hp).trans hproc) hb' (by rw [← hinode]; exact hr.trans hr')
    · rename_i k hk
      have hfree : u.pipe k = none := by simpa using (Option.filter_eq_some_iff.mp hk).2
      have hpiped := hb1.piped (k := k) hne (by rw [ho1.other f0 hne]; exact ht0) ht1
        (by rw [ho1.other f0 hne]; exact hr0) hr1 hfree
      exact ksome f0 f1 (u.piped k f0 f1) hproc hinode hpiped

end Piped

/-- A descriptor taken and given back. -/
def State.givenBack (s : State) (p : Slot) (fd : Fin NOFILE) (f : Fin NFILE) : State :=
  let s := s.setProc p { s.proc p with ofile := update (s.proc p).ofile fd (some f) }
  s.setProc p { s.proc p with ofile := update (s.proc p).ofile fd none }

theorem givenBack_proc {fd : Fin NOFILE} {f : Fin NFILE} (h : (s.proc p).ofile fd = none) :
    (s.givenBack p fd f).proc = s.proc := by
  funext q
  by_cases hq : q = p
  · subst hq
    simp only [State.givenBack, State.setProc, update_self, update_idem]
    rw [← h, update_eq_self]
  · simp [State.givenBack, State.setProc, hq]

theorem pipe_spec {page : Option ℕ} (h : Ledger s) (hcwd : (s.proc p).cwd ≠ none) :
    wp (sysPipe p page) (fun _ => Outcome s p c) (Blame s) s := by
  unfold sysPipe
  rw [wp_bind]
  refine pipealloc_spec tame_blame h.toBooks (fun t hp hb hr => ⟨h.of_proc hp hb, s.inode, .same, hr⟩)
    fun rf wf t hp hi hb => ?_
  simp only
  rw [wp_bind]
  refine wp_fdalloc (fun _ => ?_) fun fd0 hnone => ?_
  · rw [bump_comm] at hb
    simp only
    rw [wp_bind]
    refine wp_fileclose hb tame_blame (by simp) fun u hpu hbu hru => ?_
    rw [wp_bind]
    refine wp_fileclose hbu tame_blame (by simp) fun v hpv hbv hrv => ?_
    exact ⟨h.of_proc ((hpv.trans hpu).trans hp) hbv, s.inode, .same, by rw [← hi]; exact hru.trans hrv⟩
  · simp only
    rw [wp_bind]
    refine wp_fdalloc (fun _ => ?_) fun fd1 hnone1 => ?_
    · -- the first descriptor is given back, and then both files
      rw [bump_comm] at hb
      simp only
      rw [wp_bind]
      show wp (fileclose rf >>= fun _ => fileclose wf >>= fun _ => pure (-1)) _ _ (t.givenBack p fd0 rf)
      have hback : (t.givenBack p fd0 rf).proc = s.proc := by rw [givenBack_proc hnone, hp]
      rw [wp_bind]
      refine wp_fileclose (hb.setProc.setProc : Books _ _ _ (t.givenBack p fd0 rf)) tame_blame (by simp)
        fun u hpu hbu hru => ?_
      rw [wp_bind]
      refine wp_fileclose hbu tame_blame (by simp) fun v hpv hbv hrv => ?_
      refine ⟨h.of_proc ((hpv.trans hpu).trans hback) hbv, s.inode, .same, ?_⟩
      rw [← hi]
      exact hru.trans hrv
    · rw [← fds_congr hp] at hb
      refine ⟨h.of_descriptors hcwd (fun q => ?_) (fun q hq => ?_) ?_, s.inode, .same, ?_⟩
      · rw [setOfile_cwd, setOfile_cwd, hp]
      · rw [setOfile_other hq, setOfile_other hq, hp]
      · rw [fds_alloc hnone1, fds_alloc hnone]
        exact hb.setProc.setProc
      · show Reaped s.inode t.inode
        rw [hi]
        exact .refl

/-! ## Processes -/

/-- The descriptors of a child while `fork` copies them. -/
structure Forking (s : State) (p np : Slot) (left : List (Fin NOFILE)) (t : State) : Prop where
  books : Books s.cwds t.fds [] t
  inode : t.inode = s.inode
  cwd : ∀ q, (t.proc q).cwd = (s.proc q).cwd
  ofile : ∀ q, q ≠ np → (t.proc q).ofile = (s.proc q).ofile
  none : ∀ fd ∈ left, (t.proc np).ofile fd = none
  nodup : left.Nodup

theorem fork_round {np : Slot} {fd : Fin NOFILE} {left : List (Fin NOFILE)} {E : Stop → Prop}
    (h : Forking s p np (fd :: left) t) : wp (forkFile p np fd) (fun _ => Forking s p np left) E t := by
  have hnd := List.nodup_cons.mp h.nodup
  unfold forkFile
  rw [wp_bind, wp_get]
  split
  · exact ⟨h.books, h.inode, h.cwd, h.ofile, fun g hg => h.none g (List.mem_cons_of_mem _ hg), hnd.2⟩
  · rename_i f hf
    rw [wp_bind]
    refine wp_filedup h.books (refs_pos.mpr ⟨(p, fd), hf⟩) fun u ho hb => ?_
    have hnone : (u.proc np).ofile fd = none := by rw [ho.proc]; exact h.none fd List.mem_cons_self
    have hfd : u.fds = t.fds := fds_congr ho.proc
    show Forking s p np left
      (u.setProc np { u.proc np with ofile := update (u.proc np).ofile fd (some f) })
    refine ⟨by rw [fds_alloc hnone, hfd]; exact hb.setProc, ho.inode.trans h.inode, fun q => ?_, fun q hq => ?_,
      fun g hg => ?_, hnd.2⟩
    · rw [setOfile_cwd, ho.proc]
      exact h.cwd q
    · rw [setOfile_other hq, ho.proc]
      exact h.ofile q hq
    · have hgf : g ≠ fd := fun he => hnd.1 (he ▸ hg)
      simp only [State.setProc, update_self, update_of_ne hgf, ho.proc]
      exact h.none g (List.mem_cons_of_mem _ hg)

theorem fork_spec {np : Slot} (h : Ledger s) : wp (sysFork p np) (fun _ => Outcome s p c) (Blame s) s := by
  unfold sysFork
  rw [wp_bind, wp_get]
  split
  · exact h.same
  · exact tame_blame _ rfl
  · rename_i cwd hnp hp
    rw [wp_bind]
    refine (wp_forM (I := Forking s p np) (fun fd left t ht => fork_round ht) _ s
      ⟨h.toBooks, rfl, fun _ => rfl, fun _ _ => rfl, fun fd _ => h.vacant np hnp fd, List.nodup_finRange _⟩).mono
      fun _ t ht => ?_
    have hpt : (t.proc p).cwd = some cwd := by rw [ht.cwd]; exact hp
    have hcw : t.cwds = s.cwds := by funext x; simp only [State.cwds, ht.cwd]
    have hown : 0 < s.cwds cwd := refs_pos.mpr ⟨p, hp⟩
    rw [wp_bind]
    refine wp_idup ht.books.mid (by omega) fun u hq hm => ?_
    have hnone : (u.proc np).cwd = none := by rw [hq.proc, ht.cwd]; exact hnp
    have hfd : (u.setProc np { u.proc np with cwd := some cwd }).fds = t.fds := fds_setCwd.trans (fds_congr hq.proc)
    have hcws : ∀ y, (u.setProc np { u.proc np with cwd := some cwd }).cwds y =
        s.cwds y + if cwd = y then 1 else 0 := by
      intro y
      have h1 := cwds_setCwd (s := u) (p := np) (v := some cwd) y
      rw [hnone, cwds_congr hq.proc, hcw] at h1
      simpa using h1
    have hgive : Mid (fun y => (u.setProc np { u.proc np with cwd := some cwd }).cwds y + t.opens y) [] [] u :=
      hm.give (fun y => by rw [hcws]; omega) (by rw [hq.inode]; exact ht.books.mid.used cwd (by omega))
    have hbooks := (ht.books.still hq.toStill hgive fun y _ _ => by rw [hq.inode]).setProc
      (p := np) (v := { u.proc np with cwd := some cwd })
    show Outcome s p c (u.setProc np { u.proc np with cwd := some cwd })
    refine ⟨⟨by rw [hfd]; exact hbooks, fun q hqn fd => ?_⟩, s.inode, .same, ?_⟩
    · rw [setProc_cwd] at hqn
      split_ifs at hqn with hqnp
      rw [hq.proc, ht.cwd] at hqn
      rw [setProc_ofile, hq.proc, ht.ofile q hqnp]
      exact h.vacant q hqn fd
    · show Reaped s.inode u.inode
      rw [hq.inode, ht.inode]
      exact .refl

/-- The descriptors of a process while `exit` closes them. -/
structure Exiting (s : State) (p : Slot) (left : List (Fin NOFILE)) (t : State) : Prop where
  books : Books s.cwds t.fds [] t
  reaped : Reaped s.inode t.inode
  cwd : ∀ q, (t.proc q).cwd = (s.proc q).cwd
  ofile : ∀ q, q ≠ p → (t.proc q).ofile = (s.proc q).ofile
  none : ∀ fd, fd ∉ left → (t.proc p).ofile fd = none

theorem exit_round {fd : Fin NOFILE} {left : List (Fin NOFILE)} {E : Stop → Prop} (hE : Tame E)
    (h : Exiting s p (fd :: left) t) : wp (exitFile p fd) (fun _ => Exiting s p left) E t := by
  unfold exitFile
  rw [wp_bind, wp_get]
  split
  · rename_i hf
    refine ⟨h.books, h.reaped, h.cwd, h.ofile, fun g hg => ?_⟩
    by_cases hgf : g = fd
    · rw [hgf]
      exact hf
    · exact h.none g (by simp [hgf, hg])
  · rename_i f hf
    have hb := h.books
    rw [← fds_release hf] at hb
    rw [wp_bind]
    refine wp_fileclose hb hE (by simp) fun u hp hbu hr => ?_
    show Exiting s p left (u.setProc p { u.proc p with ofile := update (u.proc p).ofile fd none })
    have hproc : (u.setProc p { u.proc p with ofile := update (u.proc p).ofile fd none }).proc =
        (t.setProc p { t.proc p with ofile := update (t.proc p).ofile fd none }).proc := by
      simp only [State.setProc, hp]
    refine ⟨by rw [fds_congr hproc]; exact hbu.setProc, h.reaped.trans hr, fun q => ?_, fun q hq => ?_, fun g hg => ?_⟩
    · rw [setOfile_cwd, hp]
      exact h.cwd q
    · rw [setOfile_other hq, hp]
      exact h.ofile q hq
    · by_cases hgf : g = fd
      · subst hgf
        simp [State.setProc]
      · simp only [State.setProc, update_self, update_of_ne hgf, hp]
        exact h.none g (by simp [hgf, hg])

theorem exit_spec (h : Ledger s) (hcwd : (s.proc p).cwd ≠ none) :
    wp (sysExit p) (fun _ => Outcome s p c) (Blame s) s := by
  unfold sysExit
  split_ifs
  · exact tame_blame _ rfl
  · rw [wp_bind]
    refine (wp_forM (I := Exiting s p) (fun fd left t ht => exit_round tame_blame ht) _ s
      ⟨h.toBooks, .refl, fun _ => rfl, fun _ _ => rfl, fun fd hfd => absurd (List.mem_finRange fd) hfd⟩).mono
      fun _ t ht => ?_
    have hl : Ledger t := h.of_descriptors hcwd ht.cwd ht.ofile ht.books
    rw [wp_bind, wp_get]
    split
    · exact tame_blame _ rfl
    · rename_i cwd hc
      rw [wp_bind]
      refine wp_iput_cwd hl tame_blame .rfl hl.mid hc (by simp) fun u hst hm hreap => ?_
      have hown : ∀ y, (u.setProc p { u.proc p with cwd := none }).cwds y + t.opens y = t.without cwd y := by
        intro y
        rw [cwds_moved hl hst hc]
        simp
      refine ⟨hl.setCwd hst (by simp only [hown]; exact hm) (fun y _ hy => hreap.reaped.type y hy)
        (fun _ fd => ht.none fd (by simp)), s.inode, .same, ht.reaped.trans hreap.reaped⟩

end Xv6.Fs
