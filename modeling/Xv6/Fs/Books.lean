import Xv6.Fs.Hold
import Xv6.Fs.Syscall

/-!
# The books of the open files

Working directories and open files own references to inodes, and descriptors own references to open files. `Books` says
that the counts in the inode cache and in the file table are these, that an end of a pipe is open exactly when one file
is open on it, and that no file is open for writing on a directory.
-/

namespace Xv6.Fs

open Lib
open Function (update update_of_ne update_self)

variable {cw : ℕ → ℕ} {n : Fin NFILE → ℕ} {held : List ℕ} {s t : State} {f : Fin NFILE} {E : Stop → Prop}

/-! ## Owners -/

/-- The processes that have inode `x` as their working directory. -/
def State.cwds (s : State) (x : ℕ) : ℕ := refs (fun p => (s.proc p).cwd) x

def State.opens (s : State) (x : ℕ) : ℕ := refs (fun f => (s.file f).points) x

/-- The descriptors of all processes that refer to the file `f`. -/
def State.fds (s : State) (f : Fin NFILE) : ℕ :=
  refs (fun q : Slot × Fin NOFILE => (s.proc q.1).ofile q.2) f

/-- The end of a pipe that an open file is: the page of the pipe, and whether it is the end for writing. -/
def File.pipeEnd (f : File) : Option (ℕ × Bool) :=
  if 0 < f.ref ∧ f.type = .pipe then some (f.pipe, f.writable) else none

/-- The open files that are the end `e` of a pipe. -/
def State.ends (s : State) (e : ℕ × Bool) : ℕ := refs (fun f => (s.file f).pipeEnd) e

/-- `readopen` or `writeopen`. -/
def Pipe.isOpen (p : Pipe) (writable : Bool) : Bool := if writable then p.writeopen else p.readopen

def State.endOpen (s : State) (e : ℕ × Bool) : Bool := (s.pipe e.1).elim false (·.isOpen e.2)

/-- The file table: the counts, the files that are not open, and the ends of pipes. -/
structure Table (n : Fin NFILE → ℕ) (s : State) : Prop where
  count : ∀ f, (s.file f).ref = n f
  idle : ∀ f, (s.file f).ref = 0 → (s.file f).type = .none
  ends : ∀ e, s.ends e = (s.endOpen e).toNat
  pages : ∀ k p, s.pipe k = some p → p.readopen ∨ p.writeopen

/-- **The books.** -/
structure Books (cw : ℕ → ℕ) (n : Fin NFILE → ℕ) (held : List ℕ) (s : State) : Prop extends Table n s where
  mid : Mid (fun x => cw x + s.opens x) held [] s
  mode : ∀ f x, (s.file f).points = some x → (s.file f).writable → (s.inode x).type ≠ .dir

/-- The count with one more reference to `f`. -/
def bump (n : Fin NFILE → ℕ) (f g : Fin NFILE) : ℕ := n g + if f = g then 1 else 0

/-! ## Changes of the state -/

theorem opens_setFile {v : File} (x : ℕ) :
    (s.setFile f v).opens x + (if (s.file f).points = some x then 1 else 0) =
      s.opens x + if v.points = some x then 1 else 0 := by
  have h := refs_update (fun g => (s.file g).points) f v.points x
  rw [show update (fun g => (s.file g).points) f v.points = fun g => ((s.setFile f v).file g).points from
    funext fun g => by
      by_cases hg : g = f
      · subst hg
        simp [State.setFile]
      · simp [State.setFile, hg]] at h
  exact h

theorem ends_setFile {v : File} (e : ℕ × Bool) :
    (s.setFile f v).ends e + (if (s.file f).pipeEnd = some e then 1 else 0) =
      s.ends e + if v.pipeEnd = some e then 1 else 0 := by
  have h := refs_update (fun g => (s.file g).pipeEnd) f v.pipeEnd e
  rw [show update (fun g => (s.file g).pipeEnd) f v.pipeEnd = fun g => ((s.setFile f v).file g).pipeEnd from
    funext fun g => by
      by_cases hg : g = f
      · subst hg
        simp [State.setFile]
      · simp [State.setFile, hg]] at h
  exact h

theorem fds_setOfile (s : State) (p : Slot) (fd : Fin NOFILE) (v : Option (Fin NFILE)) (g : Fin NFILE) :
    (s.setProc p { s.proc p with ofile := update (s.proc p).ofile fd v }).fds g +
        (if (s.proc p).ofile fd = some g then 1 else 0) = s.fds g + if v = some g then 1 else 0 := by
  have h := refs_update (fun q : Slot × Fin NOFILE => (s.proc q.1).ofile q.2) (p, fd) v g
  rw [show update (fun q : Slot × Fin NOFILE => (s.proc q.1).ofile q.2) (p, fd) v = fun q =>
      ((s.setProc p { s.proc p with ofile := update (s.proc p).ofile fd v }).proc q.1).ofile q.2 from
    funext fun q => by
      obtain ⟨p', fd'⟩ := q
      by_cases hp : p' = p
      · subst hp
        by_cases hfd : fd' = fd
        · subst hfd
          simp [State.setProc]
        · simp [State.setProc, hfd]
      · simp [State.setProc, hp]] at h
  exact h

theorem fds_setCwd {p : Slot} {v : Option ℕ} : (s.setProc p { s.proc p with cwd := v }).fds = s.fds := by
  funext g
  unfold State.fds
  congr 1
  funext q
  by_cases hp : q.1 = p
  · rw [hp]
    simp [State.setProc]
  · simp [State.setProc, hp]

theorem cwds_setCwd {p : Slot} {v : Option ℕ} (x : ℕ) :
    (s.setProc p { s.proc p with cwd := v }).cwds x + (if (s.proc p).cwd = some x then 1 else 0) =
      s.cwds x + if v = some x then 1 else 0 := by
  have h := refs_update (fun q => (s.proc q).cwd) p v x
  rw [show update (fun q => (s.proc q).cwd) p v =
      fun q => ((s.setProc p { s.proc p with cwd := v }).proc q).cwd from
    funext fun q => by
      by_cases hq : q = p
      · subst hq
        simp [State.setProc]
      · simp [State.setProc, hq]] at h
  exact h

theorem Mid.of_eq {own : ℕ → ℕ} {loose : List ℕ} (h : Mid own held loose s) (hi : t.inode = s.inode)
    (hc : t.icache = s.icache) : Mid own held loose t :=
  ⟨by rw [hc]; exact h.count, by rw [hi, hc]; exact h.kept, by rw [hi]; exact h.used, by rw [hi, hc]; exact h.real⟩

theorem Books.setProc {p : Slot} {v : Proc} (h : Books cw n held s) : Books cw n held (s.setProc p v) :=
  ⟨⟨h.count, h.idle, h.ends, h.pages⟩, h.mid.of_eq rfl rfl, h.mode⟩

theorem Table.still (h : Table n s) (hst : Still s t) : Table n t := by
  have he : t.ends = s.ends := by funext x; rw [State.ends, hst.file]; rfl
  have hend : t.endOpen = s.endOpen := by funext x; rw [State.endOpen, hst.pipe]; rfl
  exact ⟨by rw [hst.file]; exact h.count, by rw [hst.file]; exact h.idle, by rw [he, hend]; exact h.ends,
    by rw [hst.pipe]; exact h.pages⟩

theorem Books.still {cw' : ℕ → ℕ} {held' : List ℕ} (h : Books cw n held s) (hst : Still s t)
    (hm : Mid (fun x => cw' x + s.opens x) held' [] t)
    (ht : ∀ x, (s.inode x).type ≠ .free → (t.inode x).type ≠ .free → (t.inode x).type = (s.inode x).type) :
    Books cw' n held' t := by
  have ho : t.opens = s.opens := by funext x; rw [State.opens, hst.file]; rfl
  refine ⟨h.toTable.still hst, by rw [ho]; exact hm, fun f x hp hw => ?_⟩
  rw [hst.file] at hp hw
  have hx : 0 < s.opens x := refs_pos.mpr ⟨f, hp⟩
  rw [ht x (h.mid.used x (by omega)) (hm.used x (by omega))]
  exact h.mode f x hp hw

theorem Books.quiet {held' : List ℕ} (h : Books cw n held s) (hq : Quiet s t)
    (hm : Mid (fun x => cw x + s.opens x) held' [] t) : Books cw n held' t :=
  h.still hq.toStill hm fun x _ _ => by rw [hq.inode]

section SetFile

variable {n' : Fin NFILE → ℕ} {v : File}

theorem setFile_self : (s.setFile f v).file f = v := update_self ..

theorem setFile_other {g : Fin NFILE} (hg : g ≠ f) : (s.setFile f v).file g = s.file g := update_of_ne hg ..

theorem Table.setFile (h : Table n s) (hn : ∀ g, n' g = if f = g then v.ref else n g)
    (hi : v.ref = 0 → v.type = .none) (he : ∀ e, (s.setFile f v).ends e = (s.endOpen e).toNat) :
    Table n' (s.setFile f v) := by
  refine ⟨fun g => ?_, fun g hg => ?_, he, h.pages⟩
  · by_cases hgf : g = f
    · subst hgf
      rw [setFile_self, hn, if_pos rfl]
    · rw [setFile_other hgf, hn, if_neg (Ne.symm hgf)]
      exact h.count g
  · by_cases hgf : g = f
    · subst hgf
      rw [setFile_self] at hg ⊢
      exact hi hg
    · rw [setFile_other hgf] at hg ⊢
      exact h.idle g hg

theorem Books.setFile (h : Books cw n held s) (hn : ∀ g, n' g = if f = g then v.ref else n g)
    (hp : v.points = (s.file f).points) (he : v.pipeEnd = (s.file f).pipeEnd) (hi : v.ref = 0 → v.type = .none)
    (hw : v.writable = (s.file f).writable) : Books cw n' held (s.setFile f v) := by
  have ho : (s.setFile f v).opens = s.opens := by
    funext x
    have := opens_setFile (s := s) (f := f) (v := v) x
    rw [hp] at this
    omega
  refine ⟨h.toTable.setFile hn hi fun e => ?_, by rw [ho]; exact h.mid.of_eq rfl rfl, fun g x hpg hwg => ?_⟩
  · have := ends_setFile (s := s) (f := f) (v := v) e
    rw [he] at this
    have := h.ends e
    omega
  · by_cases hgf : g = f
    · subst hgf
      rw [setFile_self, hp] at hpg
      rw [setFile_self, hw] at hwg
      exact h.mode g x hpg hwg
    · rw [setFile_other hgf] at hpg hwg
      exact h.mode g x hpg hwg

end SetFile

/-! ## The file table -/

/-- Only the file table has changed, and in it only the file `f`. -/
structure OnlyFile (f : Fin NFILE) (s t : State) : Prop where
  inode : t.inode = s.inode
  icache : t.icache = s.icache
  pipe : t.pipe = s.pipe
  proc : t.proc = s.proc
  other : ∀ g, g ≠ f → t.file g = s.file g

theorem onlyFile_setFile {v : File} : OnlyFile f s (s.setFile f v) :=
  ⟨rfl, rfl, rfl, rfl, fun _ hg => setFile_other hg⟩

theorem File.not_open {v : File} (h : v.type = .none) : v.points = none ∧ v.pipeEnd = none := by
  simp [File.points, File.pipeEnd, h]

theorem wp_filealloc_table {Q : Option (Fin NFILE) → State → Prop} (knone : (∀ f, (s.file f).ref ≠ 0) → Q none s)
    (ksome : ∀ f, (s.file f).ref = 0 → Q (some f) (s.setFile f { s.file f with ref := 1 })) : wp filealloc Q E s := by
  unfold filealloc
  rw [wp_bind, wp_get]
  split
  · rename_i hf
    exact knone fun f => of_decide_eq_false (Bool.eq_false_iff.mpr (List.find?_eq_none.mp hf f (List.mem_finRange f)))
  · rename_i f hf
    rw [wp_bind, wp_set, wp_pure]
    exact ksome f (of_decide_eq_true (List.find?_some (p := fun f => decide ((s.file f).ref = 0)) hf))

theorem wp_filealloc {Q : Option (Fin NFILE) → State → Prop} (h : Books cw n held s) (knone : Q none s)
    (ksome : ∀ f t, (s.file f).ref = 0 → OnlyFile f s t → Books cw (bump n f) held t → (t.file f).type = .none →
      (t.file f).ref = 1 → Q (some f) t) : wp filealloc Q E s := by
  refine wp_filealloc_table (fun _ => knone) fun f hr => ?_
  have htype := h.idle f hr
  have hold := File.not_open htype
  have hnew := File.not_open (v := { s.file f with ref := 1 }) htype
  refine ksome f _ hr onlyFile_setFile (h.setFile (fun g => ?_) ?_ ?_ ?_ rfl) (by rw [setFile_self]; exact htype)
    (by rw [setFile_self])
  · have := h.count f
    unfold bump
    split_ifs with hg
    · subst hg
      simp only
      omega
    · omega
  · rw [hold.1, hnew.1]
  · rw [hold.2, hnew.2]
  · simp

theorem wp_filedup {Q : Fin NFILE → State → Prop} (h : Books cw n held s) (hn : 0 < n f)
    (k : ∀ t, OnlyFile f s t → Books cw (bump n f) held t → Q f t) : wp (filedup f) Q E s := by
  have hr := h.count f
  unfold filedup
  rw [wp_bind, wp_get, if_neg (by omega), wp_bind, wp_set, wp_pure]
  refine k _ onlyFile_setFile (h.setFile (fun g => ?_) ?_ ?_ (by simp) rfl)
  · unfold bump
    split_ifs with hg
    · subst hg
      simp only
      omega
    · omega
  · have h1 : 0 < (s.file f).ref := by omega
    simp [File.points, h1]
  · have h1 : 0 < (s.file f).ref := by omega
    simp [File.pipeEnd, h1]

/-- What a call does to the inode table at its end: it gives back inodes without links. -/
inductive Reaped (τ : Tree) : Tree → Prop
  | refl : Reaped τ τ
  | free {τ' : Tree} {x : ℕ} : Reaped τ τ' → (τ' x).nlink = 0 → Reaped τ (τ'.free x)

theorem Reap.reaped {own : ℕ → ℕ} {x : ℕ} {τ τ' : Tree} (h : Reap own x τ τ') : Reaped τ τ' := by
  cases h with
  | kept => exact .refl
  | freed _ hn => exact .free .refl hn

theorem Reaped.trans {τ τ' τ'' : Tree} (h : Reaped τ τ') (h' : Reaped τ' τ'') : Reaped τ τ'' := by
  induction h' with
  | refl => exact h
  | free _ hn ih => exact .free ih hn

theorem Reaped.type {τ τ' : Tree} (h : Reaped τ τ') (x : ℕ) (hx : (τ' x).type ≠ .free) :
    (τ' x).type = (τ x).type := by
  induction h with
  | refl => rfl
  | @free τ' y _ _ ih =>
    by_cases hxy : x = y
    · subst hxy
      rw [free_self] at hx
      exact absurd rfl hx
    · rw [free_other hxy] at hx ⊢
      exact ih hx

section Close

/-- A file whose last reference is gone. -/
def File.closed (v : File) : File := { v with ref := 0, type := .none }

theorem bump_last (hlast : n f = 0) (g : Fin NFILE) : n g = if f = g then 0 else bump n f g := by
  unfold bump
  split_ifs with hg
  · rw [← hg, hlast]
  · omega

theorem Books.close_inode {x : ℕ} (h : Books cw (bump n f) held s) (hlast : n f = 0)
    (hp : (s.file f).points = some x) :
    Mid (fun y => cw y + (s.setFile f (s.file f).closed).opens y) (x :: held) [x] (s.setFile f (s.file f).closed) ∧
      (∀ t, Still (s.setFile f (s.file f).closed) t →
        Mid (fun y => cw y + (s.setFile f (s.file f).closed).opens y) held [] t → Reaped s.inode t.inode →
        Books cw n held t) := by
  have hclosed := File.not_open (v := (s.file f).closed) rfl
  have hend : (s.file f).pipeEnd = none := by
    unfold File.points at hp
    split_ifs at hp with h1
    simp [File.pipeEnd, h1.2]
  have htable : Table n (s.setFile f (s.file f).closed) := by
    refine h.toTable.setFile (fun g => bump_last hlast g) (fun _ => rfl) fun e => ?_
    have := ends_setFile (s := s) (f := f) (v := (s.file f).closed) e
    rw [hclosed.2, hend] at this
    have := h.ends e
    omega
  refine ⟨(h.mid.of_eq (t := s.setFile f (s.file f).closed) rfl rfl).take fun y => ?_, fun t hst hm hr => ?_⟩
  · have := opens_setFile (s := s) (f := f) (v := (s.file f).closed) y
    rw [hclosed.1, hp] at this
    simp only [Option.some.injEq, reduceCtorEq, if_false] at this
    omega
  · have ho : t.opens = (s.setFile f (s.file f).closed).opens := by funext y; rw [State.opens, hst.file]; rfl
    refine ⟨htable.still hst, by rw [ho]; exact hm, fun g y hpg hwg => ?_⟩
    have hy : 0 < cw y + (s.setFile f (s.file f).closed).opens y := by
      have : 0 < t.opens y := refs_pos.mpr ⟨g, hpg⟩
      rw [ho] at this
      omega
    rw [hst.file] at hpg hwg
    have hgf : g ≠ f := by
      rintro rfl
      rw [setFile_self, hclosed.1] at hpg
      cases hpg
    rw [setFile_other hgf] at hpg hwg
    rw [hr.type y (hm.used y hy)]
    exact h.mode g y hpg hwg

theorem endOpen_iff {k : ℕ} {w : Bool} : s.endOpen (k, w) = true ↔ ∃ p, s.pipe k = some p ∧ p.isOpen w = true := by
  unfold State.endOpen
  cases s.pipe k with
  | none => simp
  | some p => simp

theorem Pipe.isOpen_close (p : Pipe) (w b : Bool) : (p.close w).isOpen b = (p.isOpen b && b != w) := by
  cases w <;> cases b <;> simp [Pipe.close, Pipe.isOpen]

theorem endOpen_setPipe {k : ℕ} {v : Option Pipe} (e : ℕ × Bool) :
    (s.setPipe k v).endOpen e = if e.1 = k then v.elim false (·.isOpen e.2) else s.endOpen e := by
  unfold State.endOpen
  split_ifs with h
  · simp [State.setPipe, h]
  · simp [State.setPipe, h]

/-- What is left of a pipe after `pipeclose`, if anything. -/
def Pipe.left (p : Pipe) : Option Pipe := if ¬ p.readopen ∧ ¬ p.writeopen then none else some p

theorem Pipe.left_isOpen (p : Pipe) (b : Bool) : p.left.elim false (·.isOpen b) = p.isOpen b := by
  unfold Pipe.left
  split_ifs with h
  · cases b <;> simp_all [Pipe.isOpen]
  · rfl

theorem wp_pipeclose {k : ℕ} {w : Bool} {Q : Unit → State → Prop} (h : Books cw (bump n f) held s) (hlast : n f = 0)
    (hp : (s.file f).pipeEnd = some (k, w))
    (hk : ∀ t, t.inode = s.inode → t.proc = s.proc → Books cw n held t → Q () t) :
    wp (pipeclose k w) Q E (s.setFile f (s.file f).closed) := by
  have hclosed := File.not_open (v := (s.file f).closed) rfl
  have hpoints : (s.file f).points = none := by
    unfold File.pipeEnd at hp
    split_ifs at hp with h1
    simp [File.points, h1.2]
  have hopen : s.endOpen (k, w) = true := by
    have h1 := h.ends (k, w)
    have h2 : 0 < s.ends (k, w) := refs_pos.mpr ⟨f, hp⟩
    cases hb : s.endOpen (k, w) with
    | true => rfl
    | false => rw [hb] at h1; simp at h1; omega
  obtain ⟨p, hpk, hpo⟩ := endOpen_iff.mp hopen
  have hsum : ∀ e, (s.setFile f (s.file f).closed).ends e + (if (k, w) = e then 1 else 0) = s.ends e := by
    intro e
    have := ends_setFile (s := s) (f := f) (v := (s.file f).closed) e
    rw [hclosed.2, hp] at this
    simpa using this
  have ho : (s.setFile f (s.file f).closed).opens = s.opens := by
    funext x
    have := opens_setFile (s := s) (f := f) (v := (s.file f).closed) x
    rw [hclosed.1, hpoints] at this
    omega
  have hbase := h.toTable
  unfold pipeclose
  rw [wp_bind, wp_get]
  split
  · rename_i hnone
    exact absurd (hpk.symm.trans hnone) (by simp)
  · rename_i q hq
    obtain rfl : p = q := Option.some.inj (hpk.symm.trans hq)
    rw [wp_set]
    refine hk _ rfl rfl ⟨⟨fun g => ?_, fun g hg => ?_, fun e => ?_, fun j q hj => ?_⟩, ?_, fun g x hpg hwg => ?_⟩
    · by_cases hgf : g = f
      · subst hgf
        show ((s.setFile g (s.file g).closed).file g).ref = n g
        rw [setFile_self, hlast]
        rfl
      · show ((s.setFile f (s.file f).closed).file g).ref = n g
        rw [setFile_other hgf, h.count g, bump, if_neg (Ne.symm hgf), Nat.add_zero]
    · by_cases hgf : g = f
      · subst hgf
        show ((s.setFile g (s.file g).closed).file g).type = .none
        rw [setFile_self]
        rfl
      · change ((s.setFile f (s.file f).closed).file g).ref = 0 at hg
        show ((s.setFile f (s.file f).closed).file g).type = .none
        rw [setFile_other hgf] at hg ⊢
        exact h.idle g hg
    · -- the end is open no more, and no file is open on it
      rw [endOpen_setPipe]
      show (s.setFile f (s.file f).closed).ends e = _
      have h1 := hsum e
      have h2 := h.ends e
      obtain ⟨j, b⟩ := e
      by_cases hj : j = k
      · subst hj
        rw [if_pos rfl]
        show _ = (((p.close w).left).elim false (·.isOpen b)).toNat
        rw [Pipe.left_isOpen, Pipe.isOpen_close]
        have h3 : s.endOpen (j, b) = p.isOpen b := by simp [State.endOpen, hpk]
        rw [h3] at h2
        by_cases hb : b = w
        · subst hb
          rw [hpo, Bool.toNat_true] at h2
          rw [if_pos rfl] at h1
          rw [bne_self_eq_false, Bool.and_false, Bool.toNat_false]
          omega
        · have hne : (j, w) ≠ (j, b) := fun he => hb (by simpa using he.symm)
          rw [if_neg hne] at h1
          rw [bne_iff_ne.mpr hb, Bool.and_true]
          omega
      · have hne : (k, w) ≠ (j, b) := fun he => hj (by simpa using (Prod.mk.inj he).1.symm)
        rw [if_neg hne] at h1
        rw [if_neg hj]
        show _ = (s.endOpen (j, b)).toNat
        omega
    · by_cases hjk : j = k
      · subst hjk
        have hj' : (p.close w).left = some q := by simpa [State.setPipe, Pipe.left] using hj
        unfold Pipe.left at hj'
        split_ifs at hj' with hc
        obtain rfl := Option.some.inj hj'
        by_contra hno
        rw [not_or] at hno
        exact hc hno
      · have hj' : s.pipe j = some q := by simpa [State.setPipe, State.setFile, hjk] using hj
        exact h.pages j q hj'
    · show Mid (fun x => cw x + (s.setFile f (s.file f).closed).opens x) held [] _
      rw [ho]
      exact h.mid.of_eq rfl rfl
    · change ((s.setFile f (s.file f).closed).file g).points = some x at hpg
      change ((s.setFile f (s.file f).closed).file g).writable = true at hwg
      have hgf : g ≠ f := by
        rintro rfl
        rw [setFile_self, hclosed.1] at hpg
        cases hpg
      rw [setFile_other hgf] at hpg hwg
      exact h.mode g x hpg hwg

/-- **`fileclose`**: the last reference closes the pipe end or puts the inode. -/
theorem wp_fileclose {Q : Unit → State → Prop} (h : Books cw (bump n f) held s) (hE : Tame E)
    (hheld : ∀ x, (s.file f).points = some x → x ∉ held)
    (k : ∀ t, t.proc = s.proc → Books cw n held t → Reaped s.inode t.inode → Q () t) : wp (fileclose f) Q E s := by
  have hr : (s.file f).ref = n f + 1 := by rw [h.count, bump, if_pos rfl]
  unfold fileclose
  rw [wp_bind, wp_get, if_neg (by omega)]
  by_cases hlast : n f = 0
  · rw [if_neg (by omega), wp_bind, wp_set]
    have hpos : 0 < (s.file f).ref := by omega
    split
    · rename_i ht
      have hp : (s.file f).pipeEnd = some ((s.file f).pipe, (s.file f).writable) := if_pos ⟨hpos, ht⟩
      exact wp_pipeclose h hlast hp fun t hi hpr hb => k t hpr hb (by rw [hi]; exact .refl)
    · rename_i ht
      have hp : (s.file f).points = some (s.file f).ip := if_pos ⟨hpos, ht⟩
      obtain ⟨hm, hb⟩ := h.close_inode hlast hp
      have hopen : 0 < s.opens (s.file f).ip := refs_pos.mpr ⟨f, hp⟩
      refine wp_iput_last hm hE (hheld _ hp) (fun hn => ?_) fun t hst hm' hreap _ => ?_
      · exact h.mid.valid_of_own (x := (s.file f).ip) (by simp) (by omega) hn
      · exact k t hst.proc (hb t hst hm' hreap.reaped) hreap.reaped
    · rename_i ht
      have hold := File.not_open ht
      have hnew := File.not_open (v := (s.file f).closed) rfl
      rw [wp_pure]
      exact k _ rfl (h.setFile (v := (s.file f).closed) (bump_last hlast) (by rw [hold.1, hnew.1])
        (by rw [hold.2, hnew.2]) (fun _ => rfl) rfl) .refl
  · rw [if_pos (by omega), wp_set]
    refine k _ rfl (h.setFile (fun g => ?_) ?_ ?_ ?_ rfl) .refl
    · unfold bump
      split_ifs with hg
      · subst hg
        simp only
        omega
      · omega
    · have h1 : 0 < (s.file f).ref - 1 := by omega
      have h2 : 0 < (s.file f).ref := by omega
      simp only [File.points, h1, h2]
    · have h1 : 0 < (s.file f).ref - 1 := by omega
      have h2 : 0 < (s.file f).ref := by omega
      simp only [File.pipeEnd, h1, h2]
    · simp only
      omega

end Close

end Xv6.Fs
