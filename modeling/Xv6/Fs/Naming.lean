import Xv6.Fs.Effect

/-!
# The calls that change the tree

`create` for `open`, `mkdir` and `mknod`, and `link` and `unlink`: each of them does one operation of `Xv6.Fs.Tree` on
the inode table or leaves it as it was, also when it takes back what it had begun. With these all calls have their
specification.

- `call_spec`: every call, from a state with the books in order and a tree in shape;
- `step_spec`, `Sound.step`: the same for a step of the system.
-/

namespace Xv6.Fs

open Lib
open Function (update update_comm update_eq_self update_idem update_of_ne update_self)

variable {s t : State} {p : Slot} {c : Call} {path : List Char} {blocks : Bool}

/-! ## Changes of the tree -/

theorem make_type {τ : Tree} {d x e : ℕ} {name : Name} {kind : Kind} {major minor : BitVec 16}
    (hc : CanMake τ d x kind) (he : (τ e).type ≠ .free) : (τ.make d name x kind major minor e).type = (τ e).type := by
  by_cases hed : e = d
  · rw [hed, make_dir]
    rfl
  · have hex : e ≠ x := fun hex => he (hex ▸ hc.unused)
    rw [make_other hed hex]

/-- No call changes the type of an inode in use. -/
theorem Change.type {τ : Tree} (h : Change s p c τ) {e : ℕ} (he : (s.inode e).type ≠ .free) :
    (τ e).type = (s.inode e).type := by
  cases h with
  | same => rfl
  | made _ _ _ hc => exact make_type hc he
  | linked _ _ hc => exact link_type hc e
  | removed _ _ hc => exact remove_type hc e

/-- **Every change keeps the shape.** -/
theorem Change.shape {τ : Tree} (h : Change s p c τ) (hs : Shape s.inode) : Shape τ := by
  cases h with
  | same => exact hs
  | made _ _ _ hc => exact hs.make hc
  | linked _ _ hc => exact hs.link hc
  | removed _ _ hc => exact hs.remove hc

/-- Inodes without links may be given back. -/
theorem Reaped.shape {τ τ' : Tree} (h : Reaped τ τ') (hs : Shape τ) : Shape τ' := by
  induction h with
  | refl => exact hs
  | free _ hn ih => exact ih.free hn

theorem Ledger.changed {τ : Tree} (h : Ledger s) (hc : Change s p c τ) (hr : Reaped τ t.inode) (hst : Still s t)
    (hm : Mid s.owners [] [] t) : Outcome s p c t := by
  refine ⟨h.still hst hm fun e he he' => ?_, τ, hc, hr⟩
  rw [hr.type e he']
  exact hc.type he

/-! ## New inodes -/

section Create

variable {own : ℕ → ℕ} {held : List ℕ} {E : Stop → Prop} {d x : ℕ} {name : Name} {kind : Kind} {major minor : BitVec 16}

/-- The table `τ` with `i` at `x` and `j` at `d`. -/
def Tree.both (τ : Tree) (x : ℕ) (i : Inode) (d : ℕ) (j : Inode) : Tree := update (update τ x i) d j

section Both

variable {τ : Tree} {i j : Inode}

theorem both_fst (h : x ≠ d) : τ.both x i d j x = i := by
  rw [Tree.both, update_of_ne h, update_self]

theorem both_snd : τ.both x i d j d = j := update_self ..

theorem entered_fst {y : ℕ} (h : x ≠ d) : (τ.both x i d j).entered x name y =
    τ.both x { i with ents := put i.ents (freeSlot i.ents) ⟨y, name.take DIRSIZ⟩ } d j := by
  rw [Tree.entered, both_fst h, Tree.both, Tree.both, update_comm h.symm, update_idem]

theorem entered_snd {y : ℕ} : (τ.both x i d j).entered d name y =
    τ.both x i d { j with ents := put j.ents (freeSlot j.ents) ⟨y, name.take DIRSIZ⟩ } := by
  rw [Tree.entered, both_snd, Tree.both, Tree.both, update_idem]

end Both

/-- The end of `create`: the entry in the parent, and the parent put. -/
theorem wp_enter {i j : Inode} {τ : Tree} {Q : Option ℕ → State → Prop} (hE : Tame E) (h : Mid own (x :: d :: held) [] s)
    (hi : s.inode = τ.both x i d j) (hd : j.type = .dir)
    (k : ∀ t, Still s t →
      t.inode = τ.both x i d { j with ents := put j.ents (freeSlot j.ents) ⟨x, name.take DIRSIZ⟩ } →
      Mid own (x :: held) [] t → Q (some x) t) :
    wp (do
      let linked ← dirlink d name x blocks
      if linked then
        iunlockput d
        return some x
      else throw .createDirlink) Q E s := by
  rw [wp_bind]
  refine wp_dirlink h hE (by rw [hi, both_snd]; exact hd) (fun _ t _ _ => hE _ rfl) fun _ t hst ht hm => ?_
  simp only [if_true]
  rw [wp_bind]
  refine wp_iunlockput hm.swap hE (by simp) fun u hq hm' _ => ?_
  exact k u (hst.trans hq.toStill) (by rw [hq.inode, ht, hi, entered_snd]) hm'

/-- The part of `create` for a name that is not there, with the dots of a new directory. -/
theorem wp_createNew {Q : Option ℕ → State → Prop} (hE : Tame E) (h : Mid own (d :: held) [] s) (hs : Shape s.inode)
    (hd : (s.inode d).type = .dir) (hk : kind ≠ .free)
    (k : ∀ x t, CanMake s.inode d x kind → Still s t →
      t.inode = s.inode.make d (name.take DIRSIZ) x kind major minor → Mid own (x :: held) [] t → Q (some x) t) :
    wp (createNew d name kind major minor blocks) Q E s := by
  unfold createNew
  rw [wp_bind]
  refine wp_ialloc h hE fun x t hfree hx0 hxN hi hst hm => ?_
  have hc : CanMake s.inode d x kind := ⟨hd, hfree, hx0, hxN, hk⟩
  have hdx : d ≠ x := hc.ne.symm
  have htx : t.inode x = { Inode.zero with type := kind } := by rw [hi, update_self]
  rw [wp_bind]
  refine wp_ilock hm hE (fun hf => absurd hf (by rw [htx]; exact hk)) fun u hq hm' _ _ => ?_
  have hiu := hq.inode.trans hi
  rw [wp_bind]
  refine wp_iupdate hm' rfl (fun hn => by simp at hn) fun v hst' hi' _ hm'' => ?_
  have hiv : v.inode = update s.inode x ⟨kind, major, minor, 1, []⟩ := by
    rw [hi', hiu, update_self, update_idem]
    rfl
  have hmv : Mid own (x :: d :: held) [] v := hm''.tighten (.inl (by rw [hiv, update_self]; simp))
  have hsv := (hst.trans hq.toStill).trans hst'
  have hdv : v.inode d = s.inode d := by rw [hiv, update_of_ne hdx]
  by_cases hkd : kind = .dir
  · simp only [if_pos hkd]
    rw [wp_bind]
    refine wp_iupdate hmv rfl (fun hn => ?_) fun w hsw hiw _ hmw => ?_
    · have := hs.nlink_nonneg (hs.bound d hd).1
      rw [hdv] at hn
      simp only at hn
      omega
    rw [hdv, hiv] at hiw
    change w.inode = s.inode.both x ⟨kind, major, minor, 1, []⟩ d { s.inode d with nlink := (s.inode d).nlink + 1 } at hiw
    rw [wp_bind]
    refine wp_dirlink hmw hE (by rw [hiw, both_fst hc.ne]; exact hkd) (fun _ _ _ _ => ?_) fun _ w1 hs1 hi1 hm1 => ?_
    · exact hE .createDots rfl
    rw [hiw, entered_fst hc.ne] at hi1
    simp only [if_true]
    rw [wp_bind]
    refine wp_dirlink hm1 hE (by rw [hi1, both_fst hc.ne]; exact hkd) (fun _ _ _ _ => ?_) fun _ w2 hs2 hi2 hm2 => ?_
    · exact hE .createDots rfl
    rw [hi1, entered_fst hc.ne] at hi2
    refine wp_enter hE hm2 hi2 hd fun t' hst' hi' hmt => ?_
    refine k x t' hc (((hsv.trans hsw).trans (hs1.trans hs2)).trans hst') ?_ hmt
    have hdots : put (put [] (freeSlot []) ⟨x, dot.take DIRSIZ⟩) (freeSlot (put [] (freeSlot []) ⟨x, dot.take DIRSIZ⟩))
        ⟨d, dotdot.take DIRSIZ⟩ = [⟨x, dot⟩, ⟨d, dotdot⟩] := by
      simp [put, freeSlot, List.findIdx_cons, hx0]
    rw [hi', hdots, Tree.make, newInode, Inode.enter, if_pos hkd, if_pos hkd]
    rfl
  · simp only [if_neg hkd]
    have hiv' : v.inode = s.inode.both x ⟨kind, major, minor, 1, []⟩ d (s.inode d) := by
      rw [hiv, Tree.both, ← hdv, hiv, update_eq_self]
    refine wp_enter hE hmv hiv' hd fun t' hst' hi' hmt => ?_
    refine k x t' hc (hsv.trans hst') ?_ hmt
    rw [hi', Tree.make, newInode, Inode.enter, if_neg hkd, if_neg hkd, Int.add_zero]
    rfl

/-- **`create`.** The inode is locked and the call has a reference to it. -/
theorem wp_create {Q : Option ℕ → State → Prop} (h : Ledger s) (hs : Shape s.inode) (hk : kind ≠ .free)
    (knone : ∀ t, Quiet s t → Mid s.owners [] [] t → Q none t)
    (kold : ∀ x t, Quiet s t → Mid s.owners [x] [] t → (s.inode x).type = .file → Q (some x) t)
    (knew : ∀ d name x t, s.parentOf p path = some (d, name) → find name (s.inode d).ents = none →
      CanMake s.inode d x kind → Still s t → t.inode = s.inode.make d (name.take DIRSIZ) x kind major minor →
      Mid s.owners [x] [] t → Q (some x) t) :
    wp (create p path kind major minor blocks) Q (Blame s) s := by
  unfold create
  rw [wp_bind]
  refine wp_namex tame_blame h.mid h.owns_cwd blame_near (fun _ t hq hm => knone t hq hm)
    fun d name hpar hd t hq hm => ?_
  obtain ⟨ip, -, hwalk⟩ := Option.bind_eq_some_iff.mp hpar
  have hdir := Tree.walk_dir hwalk
  simp only
  rw [wp_bind]
  refine wp_ilock_near hd (by rw [hq.inode]) hm fun u hq' hm' _ _ => ?_
  have hqu := hq.trans hq'
  rw [wp_bind]
  refine wp_dirlookup hm' tame_blame (by rw [hqu.inode]; exact hdir) (fun hf => ?_) fun x off v hf hqv hmv _ => ?_
  · rw [hqu.inode] at hf
    refine wp_createNew tame_blame hm' (by rw [hqu.inode]; exact hs) (by rw [hqu.inode]; exact hdir) hk
      fun x w hc hst hi hmw => ?_
    rw [hqu.inode] at hc hi
    exact knew d name x w hpar hf hc (hqu.toStill.trans hst) hi hmw
  · rw [hqu.inode] at hf
    have hnear := near_of_find hdir hf
    simp only
    rw [wp_bind]
    refine wp_iunlockput hmv.swap tame_blame (by simp) fun w hqw hmw _ => ?_
    have hqw' := (hqu.trans hqv).trans hqw
    rw [wp_bind]
    refine wp_ilock_near hnear (by rw [hqw'.inode]) hmw fun y hqy hmy _ _ => ?_
    have hq := hqw'.trans hqy
    rw [wp_bind, wp_get]
    split_ifs with hfile
    · rw [hq.inode] at hfile
      exact kold x y hq hmy hfile.2
    · rw [wp_bind]
      exact wp_iunlockput hmy tame_blame (by simp) fun z hqz hmz _ => knone z (hq.trans hqz) hmz

theorem make_spec (h : Ledger s) (hs : Shape s.inode) (hk : kind ≠ .free) (hc : c.makes = some (path, kind)) :
    wp (sysMake p path kind major minor blocks) (fun _ => Outcome s p c) (Blame s) s := by
  unfold sysMake
  rw [wp_bind]
  refine wp_create h hs hk (fun t hq hm => h.quiet hq hm) (fun x t hq hm _ => ?_)
    fun d name x t hpar hf hcan hst hi hm => ?_
  · simp only
    rw [wp_bind]
    exact wp_iunlockput hm tame_blame (by simp) fun u hq' hm' _ => h.quiet (hq.trans hq') hm'
  · simp only
    rw [wp_bind]
    refine wp_iunlockput hm tame_blame (by simp) fun u hq hm' _ => ?_
    have hchange : Change s p c u.inode := by
      rw [hq.inode, hi]
      exact .made hc hpar hf hcan
    exact h.changed hchange .refl (hst.trans hq.toStill) hm'

end Create

section Open

variable {omode : Word}

/-- The inode that `open` opens, found or new. -/
theorem wp_openInode {Q : Option ℕ → State → Prop} (h : Ledger s) (hs : Shape s.inode)
    (knone : ∀ t, Quiet s t → Mid s.owners [] [] t → Q none t)
    (ksome : ∀ x t, Still s t → Change s p (.open path omode blocks) t.inode → Mid s.owners [x] [] t →
      (t.inode x).type ≠ .free → ((t.inode x).type = .dir → omode = 0) → Q (some x) t) :
    wp (openInode p path omode blocks) Q (Blame s) s := by
  unfold openInode
  split_ifs with hcreate
  · refine wp_create h hs (by decide) knone (fun x t hq hm hfile => ?_) fun d name x t hpar hf hcan hst hi hm => ?_
    · have hsame : t.inode x = s.inode x := by rw [hq.inode]
      refine ksome x t hq.toStill (by rw [hq.inode]; exact .same) hm ?_ ?_
      · rw [hsame, hfile]
        decide
      · rw [hsame, hfile]
        exact fun h0 => by cases h0
    · have htype : (t.inode x).type = .file := by rw [hi, make_new hcan.ne]; rfl
      refine ksome x t hst ?_ hm (by rw [htype]; decide) fun h0 => by rw [htype] at h0; cases h0
      rw [hi]
      exact .made (if_pos hcreate) hpar hf hcan
  · rw [wp_bind]
    refine wp_namei h knone fun x hx t hq hm => ?_
    simp only
    rw [wp_bind]
    refine wp_ilock_near hx (by rw [hq.inode]) hm fun u hq' hm' hfree _ => ?_
    have hqu := hq.trans hq'
    rw [wp_bind, wp_get]
    split_ifs with hdir
    · rw [wp_bind]
      exact wp_iunlockput hm' tame_blame (by simp) fun v hq'' hm'' _ => knone v (hqu.trans hq'') hm''
    · refine ksome x u hqu.toStill (by rw [hqu.inode]; exact .same) hm' (by rw [hq'.inode]; exact hfree) fun hd => ?_
      exact not_not.mp fun ho => hdir ⟨hd, ho⟩

/-- **A file opened on an inode**: the reference that the call has is the file's. -/
theorem Books.open_inode {cw : ℕ → ℕ} {n : Fin NFILE → ℕ} {f : Fin NFILE} {v : File} {x : ℕ} (h : Books cw n [x] s)
    (hf : (s.file f).type = .none) (href : (s.file f).ref = v.ref) (hpos : 0 < v.ref) (ht : v.type = .inode)
    (hip : v.ip = x) (hfree : (s.inode x).type ≠ .free) (hw : v.writable → (s.inode x).type ≠ .dir) :
    Books cw n [] (s.setFile f v) := by
  have hold := File.not_open hf
  have hpoints : v.points = some x := by rw [File.points, if_pos ⟨hpos, ht⟩, hip]
  have hend : v.pipeEnd = none := by simp [File.pipeEnd, ht]
  have hopens : ∀ y, (s.setFile f v).opens y = s.opens y + if x = y then 1 else 0 := by
    intro y
    have := opens_setFile (s := s) (f := f) (v := v) y
    rw [hold.1, hpoints] at this
    simpa using this
  refine ⟨h.toTable.setFile (fun g => ?_) (fun h0 => by omega) fun e => ?_, ?_, fun g y hg hwg => ?_⟩
  · split_ifs with hg
    · rw [← hg, ← h.count, href]
    · rfl
  · have := ends_setFile (s := s) (f := f) (v := v) e
    rw [hold.2, hend] at this
    rw [← h.ends e]
    simpa using this
  · have hm : Mid (fun y => cw y + s.opens y) [x] [] (s.setFile f v) := h.mid.of_eq rfl rfl
    exact hm.give (fun y => by simp only [hopens]; omega) hfree
  · by_cases hgf : g = f
    · subst hgf
      rw [setFile_self] at hg hwg
      rw [hpoints] at hg
      obtain rfl := by simpa using hg
      exact hw hwg
    · rw [setFile_other hgf] at hg hwg
      exact h.mode g y hg hwg

theorem open_spec (h : Ledger s) (hs : Shape s.inode) (hcwd : (s.proc p).cwd ≠ none) :
    wp (sysOpen p path omode blocks) (fun _ => Outcome s p (.open path omode blocks)) (Blame s) s := by
  unfold sysOpen
  rw [wp_bind]
  refine wp_openInode h hs (fun t hq hm => h.quiet hq hm) fun x t hst hc hm hfree hmode => ?_
  have hb : Books s.cwds s.fds [x] t := h.toBooks.still hst hm fun e he _ => hc.type he
  simp only
  rw [wp_bind]
  refine wp_filealloc hb ?_ fun f u hf0 ho hbu htype href => ?_
  · simp only
    rw [wp_bind]
    refine wp_iunlockput hm tame_blame (by simp) fun v hq hmv _ => ?_
    exact h.changed hc (by rw [hq.inode]; exact .refl) (hst.trans hq.toStill) hmv
  simp only
  rw [wp_bind]
  refine wp_fdalloc (fun _ => ?_) fun fd hnone => ?_
  · -- the file is closed again, and then the inode put
    simp only
    rw [wp_bind]
    have hnot := File.not_open htype
    refine wp_fileclose hbu tame_blame (fun y hy => by rw [hnot.1] at hy; cases hy) fun v hp hbv hr => ?_
    rw [wp_bind]
    refine wp_iunlockput hbv.mid tame_blame (by simp) fun w hq hmw _ => ?_
    have hproc : w.proc = s.proc := ((hq.proc.trans hp).trans ho.proc).trans hst.proc
    refine ⟨h.of_proc hproc (hbv.quiet hq hmw), t.inode, hc, ?_⟩
    rw [hq.inode, ← ho.inode]
    exact hr
  · simp only
    rw [wp_bind]
    refine wp_iunlock hbu.setProc.mid tame_blame fun v hq hmv _ => ?_
    have hbv := hbu.setProc.quiet hq hmv
    have hfile : v.file f = u.file f := by rw [hq.file]; rfl
    have hinode : v.inode = t.inode := hq.inode.trans ho.inode
    rw [wp_bind, wp_get, wp_bind, wp_set, wp_pure]
    have hup : u.proc = s.proc := ho.proc.trans hst.proc
    have hproc : v.proc = (u.setProc p { u.proc p with ofile := update (u.proc p).ofile fd (some f) }).proc :=
      hq.proc
    have hfds : v.fds = bump s.fds f := by rw [fds_congr hproc, fds_alloc hnone, fds_congr hup]
    refine ⟨h.of_descriptors (p := p) hcwd (fun q => ?_) (fun q hqp => ?_) ?_, t.inode, hc, ?_⟩
    · show (v.proc q).cwd = _
      rw [hproc, setOfile_cwd, hup]
    · show (v.proc q).ofile = _
      rw [hproc, setOfile_other hqp, hup]
    · show Books s.cwds v.fds [] _
      rw [hfds]
      refine hbv.open_inode (x := x) (by rw [hfile]; exact htype) rfl (by rw [hfile]; show 0 < (u.file f).ref; omega) rfl
        rfl (by rw [hinode]; exact hfree) fun hw hd => ?_
      rw [hinode] at hd
      rw [hmode hd] at hw
      simp at hw
    · show Reaped t.inode v.inode
      rw [hinode]
      exact .refl

end Open

/-! ## `link` -/

section Link

variable {x : ℕ}

/-- Paths lead where they did if types and entries are the same. -/
theorem walk_congr {τ τ' : Tree} {parent : Bool} (h : ∀ y, (τ' y).type = (τ y).type ∧ (τ' y).ents = (τ y).ents) :
    ∀ (names : List Name) (ip : ℕ), τ'.walk parent ip names = τ.walk parent ip names
  | [], _ => rfl
  | name :: rest, ip => by
    simp only [Tree.walk, (h ip).1, (h ip).2]
    split_ifs
    · rfl
    · rfl
    · split
      · rfl
      · exact walk_congr h rest _

/-- The inode `x` of `s` has got the link for its new name. -/
structure Linking (s : State) (x : ℕ) (t : State) : Prop extends Still s t where
  inode : t.inode = update s.inode x (s.inode x).addLink
  notDir : (s.inode x).type ≠ .dir
  used : (s.inode x).type ≠ .free

theorem Linking.quiet {u : State} (h : Linking s x t) (hq : Quiet t u) : Linking s x u :=
  ⟨h.toStill.trans hq.toStill, hq.inode.trans h.inode, h.notDir, h.used⟩

theorem Linking.same (h : Linking s x t) (y : ℕ) :
    (t.inode y).type = (s.inode y).type ∧ (t.inode y).ents = (s.inode y).ents := by
  rw [h.inode]
  by_cases hy : y = x
  · subst hy
    rw [update_self]
    exact ⟨rfl, rfl⟩
  · rw [update_of_ne hy]
    exact ⟨rfl, rfl⟩

theorem Linking.near {y : ℕ} (h : Linking s x t) (hy : Near t y) : Near s y := by
  cases hy with
  | root => exact .root
  | cwd hc => exact .cwd (by rw [← h.proc]; exact hc)
  | file hf => exact .file (by rw [← h.file]; exact hf)
  | entry hd hm hx h0 => exact .entry (by rw [← (h.same _).1]; exact hd) (by rw [← (h.same _).2]; exact hm) hx h0

/-- **The label `bad` of `link`** takes the link back, and the tree is as before. -/
theorem linkBad_spec (h : Ledger s) (hl : Linking s x t) (hm : Mid s.owners [x] [] t) :
    wp (linkBad x) (fun _ => Outcome s p c) (Blame s) t := by
  unfold linkBad
  rw [wp_bind]
  refine wp_ilock hm tame_blame (fun hf => absurd hf (by rw [(hl.same x).1]; exact hl.used)) fun u hq hm' _ hv => ?_
  have hlu := hl.quiet hq
  rw [wp_bind]
  refine wp_iupdate hm'.loosen rfl (fun _ => .inl List.mem_cons_self) fun v hst hi hc hm'' => ?_
  have hiv : v.inode = s.inode := by
    have hback : { (s.inode x).addLink with nlink := (s.inode x).addLink.nlink - 1 } = s.inode x := by
      simp [Inode.addLink]
    rw [hi, hlu.inode, update_self, update_idem, hback, update_eq_self]
  have hmv : Mid s.owners [x] [] v := by
    refine hm''.tighten ?_
    by_cases hn : (s.inode x).nlink = 0
    · exact .inr ⟨(h.mid.kept x (by simp) hl.used hn).1, by rw [hc]; exact hv x (.inl rfl)⟩
    · exact .inl (by rw [hiv]; exact hn)
  rw [wp_bind]
  refine wp_iunlockput hmv tame_blame (by simp) fun w hqw hmw _ => ?_
  exact h.quiet ⟨(hlu.toStill.trans hst).trans hqw.toStill, hqw.inode.trans hiv⟩ hmw

theorem link_spec {old new : List Char} (h : Ledger s) (hs : Shape s.inode) :
    wp (sysLink p old new blocks) (fun _ => Outcome s p (.link old new blocks)) (Blame s) s := by
  unfold sysLink
  rw [wp_bind]
  refine wp_namei h (fun t hq hm => h.quiet hq hm) fun x hx t hq hm => ?_
  simp only
  rw [wp_bind]
  refine wp_ilock_near hx (by rw [hq.inode]) hm fun u hq' hm' hfree _ => ?_
  have hqu := hq.trans hq'
  rw [hq.inode] at hfree
  have hx0 : x ≠ 0 := fun h0 => hfree (h0 ▸ hs.zero)
  rw [wp_bind, wp_get]
  split_ifs with hdir
  · rw [wp_bind]
    exact wp_iunlockput hm' tame_blame (by simp) fun v hq'' hm'' _ => h.quiet (hqu.trans hq'') hm''
  rw [hqu.inode] at hdir
  rw [wp_bind]
  refine wp_iupdate hm' rfl (fun hn => ?_) fun v hst hi _ hmv => ?_
  · have := hs.nlink_nonneg hx0
    rw [hqu.inode] at hn
    simp only at hn
    omega
  have hlv : Linking s x v := ⟨hqu.toStill.trans hst, by rw [hi, hqu.inode]; rfl, hdir, hfree⟩
  rw [wp_bind]
  refine wp_iunlock hmv tame_blame fun w hqw hmw _ => ?_
  have hlw := hlv.quiet hqw
  have hwalk : ∀ ip, w.inode.walk true ip (elements new) = s.inode.walk true ip (elements new) :=
    walk_congr hlw.same _
  have hstart : w.start p new = s.start p new := by rw [State.start, hlw.proc]; rfl
  rw [wp_bind]
  refine wp_namex tame_blame hmw (by rw [hlw.proc]; exact h.owns_cwd)
    (fun y hy hf => blame_near y (hlw.near hy) (by rw [← (hlw.same y).1]; exact hf))
    (fun _ y hqy hmy => linkBad_spec h (hlw.quiet hqy) hmy) fun d name hpar hd y hqy hmy => ?_
  simp only [hwalk, hstart] at hpar
  obtain ⟨ip, -, hfound⟩ := Option.bind_eq_some_iff.mp hpar
  have hddir := Tree.walk_dir hfound
  have hly := hlw.quiet hqy
  have hc : CanLink s.inode d x := ⟨hddir, hdir, hfree, hx0⟩
  simp only
  rw [wp_bind]
  refine wp_ilock_near (hlw.near hd) (hly.same d).1 hmy fun z hqz hmz _ _ => ?_
  have hlz := hly.quiet hqz
  rw [wp_bind]
  refine wp_dirlink hmz tame_blame (by rw [(hlz.same d).1]; exact hddir) (fun _ a hqa hma => ?_) fun hf a hsa hia hma => ?_
  · simp only [Bool.false_eq_true, if_false]
    rw [wp_bind]
    exact wp_iunlockput hma tame_blame (by simp) fun b hqb hmb _ => linkBad_spec h ((hlz.quiet hqa).quiet hqb) hmb
  · rw [(hlz.same d).2] at hf
    simp only [if_true]
    rw [wp_bind]
    refine wp_iunlockput hma tame_blame (by simp) fun b hqb hmb _ => ?_
    rw [wp_bind]
    refine wp_iput hmb (by simp) fun e hqe hme _ => ?_
    have hie : e.inode = s.inode.link d (name.take DIRSIZ) x := by
      rw [hqe.inode, hqb.inode, hia, hlz.inode, Tree.entered, update_of_ne hc.ne.symm, Tree.link, Inode.enter]
      simp
    have hchange : Change s p (.link old new blocks) e.inode := by
      rw [hie]
      exact .linked hpar hf hc
    exact h.changed hchange .refl ((hlz.toStill.trans hsa).trans (hqb.toStill.trans hqe.toStill)) hme

end Link

/-! ## `unlink` -/

section Unlink

variable {d x k : ℕ} {name : Name}

/-- A name other than the dots is found behind them. -/
theorem two_le_of_find {i : Inode} (hdots : i.Dots d) (hname : ¬ (namecmp name dot || namecmp name dotdot) = true)
    (hf : find name i.ents = some (x, k)) : 2 ≤ k := by
  obtain ⟨de, hde, -, -, hcmp⟩ := find_some hf
  obtain ⟨rest, he, -⟩ := hdots.ents
  rw [Bool.or_eq_true, not_or] at hname
  match k with
  | 0 =>
    rw [he] at hde
    obtain rfl := by simpa using hde
    exact absurd hcmp hname.1
  | 1 =>
    rw [he] at hde
    obtain rfl := by simpa using hde
    exact absurd hcmp hname.2
  | k + 2 => omega

theorem names_of_isdirempty {τ : Tree} (h : isdirempty (τ x).ents = true) {c : ℕ} (hc : c ≠ 0) : τ.names x c = 0 := by
  unfold Tree.names named
  split_ifs
  · rw [List.countP_eq_zero]
    intro de hde hdc
    have := List.all_eq_true.mp h de hde
    simp only [decide_eq_true_eq] at this hdc
    omega
  · rfl

/-- The end of `unlink`: entry, parent and inode, which may both have lost their last link. -/
theorem wp_unlinked {own : ℕ → ℕ} {E : Stop → Prop} {Q : ℤ → State → Prop} (hE : Tame E)
    (hc : CanRemove s.inode d k x) (hm : Mid own [x, d] [] s) (hvd : (s.icache d).valid) (hvx : (s.icache x).valid)
    (kq : ∀ t, Still s t → Reaped (s.inode.remove d k x) t.inode → Mid own [] [] t → Q 0 t) :
    wp (do
      iupdate d fun i => { i with ents := i.ents.set k .zero }
      if (s.inode x).type = .dir then iupdate d fun i => { i with nlink := i.nlink - 1 } else pure ()
      iunlockput d
      iupdate x fun i => { i with nlink := i.nlink - 1 }
      iunlockput x
      return 0) Q E s := by
  have hdx : d ≠ x := hc.ne.symm
  rw [wp_bind]
  refine wp_iupdate (hm.loosen (x := d)) rfl .inr fun t hst hi hic hmt => ?_
  -- the directory loses the link that the `..` of a subdirectory was
  have hcut : ∀ {R : Unit → State → Prop}, (∀ u, Still s u →
      u.inode = update s.inode d ((s.inode d).leave k (s.inode x).type) → u.icache = s.icache →
      Mid own [x, d] [d] u → R () u) →
      wp (if (s.inode x).type = .dir then iupdate d fun i => { i with nlink := i.nlink - 1 } else pure ()) R E t := by
    intro R hR
    split_ifs with hdir
    · refine wp_iupdate hmt rfl (fun _ => .inl List.mem_cons_self) fun u hst' hi' hic' hmu => ?_
      refine hR u (hst.trans hst') ?_ (hic'.trans hic) hmu
      rw [hi', hi, update_self, update_idem, Inode.leave, if_pos hdir]
    · refine hR t hst ?_ hic hmt
      rw [hi, Inode.leave, if_neg hdir, Int.sub_zero]
  have hrest : ∀ u, Still s u → u.inode = update s.inode d ((s.inode d).leave k (s.inode x).type) →
      u.icache = s.icache → Mid own [x, d] [d] u →
      wp (do
        iunlockput d
        iupdate x fun i => { i with nlink := i.nlink - 1 }
        iunlockput x
        return 0) Q E u := by
    intro u hsu hiu hcu hmu
    rw [wp_bind]
    refine wp_iunlockput_last hmu.swap hE (by simp [hdx]) (by rw [hcu]; exact hvd) fun v hsv hmv hreap hvv => ?_
    have hvx' : (v.icache x).valid := by rw [hvv x hc.ne, hcu]; exact hvx
    have hix : v.inode x = s.inode x := by rw [hreap.other hc.ne, hiu, update_of_ne hc.ne]
    rw [wp_bind]
    refine wp_iupdate (hmv.loosen (x := x)) rfl (fun _ => .inl List.mem_cons_self) fun w hsw hiw hcw hmw => ?_
    have hrem : Reaped (s.inode.remove d k x) w.inode := by
      rw [hix] at hiw
      generalize hvi : v.inode = τ at hreap hiw
      cases hreap with
      | kept =>
        rw [hiw, hiu]
        exact .refl
      | freed _ hn =>
        have hcomm : w.inode = (s.inode.remove d k x).free d := by
          rw [hiw, hiu, Tree.free, Tree.free, remove_dir hc.ne, update_self, Tree.remove,
            update_comm hdx]
          rfl
        rw [hcomm]
        refine .free .refl ?_
        rw [hiu, update_self] at hn
        rw [remove_dir hc.ne]
        exact hn
    rw [wp_bind]
    refine wp_iunlockput_last hmw hE (by simp) (by rw [hcw]; exact hvx') fun y hsy hmy hreap' _ => ?_
    exact kq y ((hsu.trans hsv).trans (hsw.trans hsy)) (hrem.trans hreap'.reaped) hmy
  have hend := hcut (R := fun _ u => wp _ Q E u) hrest
  split_ifs at hend ⊢ with hdir
  · rw [wp_bind]
    exact hend
  · exact hend

theorem unlink_spec (h : Ledger s) (hs : Shape s.inode) :
    wp (sysUnlink p path) (fun _ => Outcome s p (.unlink path)) (Blame s) s := by
  unfold sysUnlink
  rw [wp_bind]
  refine wp_namex tame_blame h.mid h.owns_cwd blame_near (fun _ t hq hm => h.quiet hq hm)
    fun d name hpar hd t hq hm => ?_
  obtain ⟨ip, -, hwalk⟩ := Option.bind_eq_some_iff.mp hpar
  have hdir := Tree.walk_dir hwalk
  simp only
  rw [wp_bind]
  refine wp_ilock_near hd (by rw [hq.inode]) hm fun u hq' hm' _ hvu => ?_
  have hqu := hq.trans hq'
  split_ifs with hname
  · rw [wp_bind]
    exact wp_iunlockput hm' tame_blame (by simp) fun v hqv hmv _ => h.quiet (hqu.trans hqv) hmv
  rw [wp_bind]
  refine wp_dirlookup hm' tame_blame (by rw [hqu.inode]; exact hdir) (fun _ => ?_) fun x k v hf hqv hmv hvv => ?_
  · simp only
    rw [wp_bind]
    exact wp_iunlockput hm' tame_blame (by simp) fun v hqv hmv _ => h.quiet (hqu.trans hqv) hmv
  rw [hqu.inode] at hf
  have hqv' := hqu.trans hqv
  have hvd : (v.icache d).valid := by
    rw [hvv d (by rw [hm'.count]; simp)]
    exact hvu d (.inl rfl)
  simp only
  rw [wp_bind]
  refine wp_ilock_near (near_of_find hdir hf) (by rw [hqv'.inode]) hmv fun w hqw hmw _ hvw => ?_
  have hqw' := hqv'.trans hqw
  rw [wp_bind, wp_get]
  by_cases hlink : (w.inode x).nlink < 1
  · rw [if_pos hlink]
    exact tame_blame _ rfl
  rw [if_neg hlink]
  by_cases hfull : (w.inode x).type = .dir ∧ ¬ isdirempty (w.inode x).ents
  · rw [if_pos hfull, wp_bind]
    refine wp_iunlockput hmw tame_blame (by simp) fun y hqy hmy _ => ?_
    rw [wp_bind]
    exact wp_iunlockput hmy tame_blame (by simp) fun z hqz hmz _ => h.quiet ((hqw'.trans hqy).trans hqz) hmz
  · rw [if_neg hfull]
    rw [hqw'.inode] at hlink
    obtain ⟨de, hde, hdx, hx0, -⟩ := find_some hf
    have hc : CanRemove s.inode d k x := by
      refine ⟨hdir, two_le_of_find (hs.dots d hdir) hname hf, ⟨de, hde, hdx⟩, hx0, by omega, fun hxd e he => ?_⟩
      refine names_of_isdirempty (not_not.mp fun hne => hfull ?_) he
      rw [hqw'.inode]
      exact ⟨hxd, hne⟩
    refine wp_unlinked tame_blame (by rw [hqw'.inode]; exact hc) hmw (hvw d (.inr hvd)) (hvw x (.inl rfl))
      fun y hsy hr hmy => ?_
    rw [hqw'.inode] at hr
    exact h.changed (.removed hpar hf hc) hr (hqw'.toStill.trans hsy) hmy

end Unlink

/-! ## All calls -/

/-- **All calls** keep the books and make one change of the tree at most. -/
theorem call_spec (h : Ledger s) (hs : Shape s.inode) (hcwd : (s.proc p).cwd ≠ none) (c : Call) :
    wp (c.run p) (fun _ => Outcome s p c) (Blame s) s := by
  cases c with
  | «open» path omode blocks => exact open_spec h hs hcwd
  | mkdir path blocks => exact make_spec h hs (by decide) rfl
  | mknod path major minor blocks => exact make_spec h hs (by decide) rfl
  | link old new blocks => exact link_spec h hs
  | unlink path => exact unlink_spec h hs
  | chdir path => exact chdir_spec h
  | exec path => exact exec_spec h
  | close fd => exact close_spec h
  | dup fd => exact dup_spec h
  | read fd => exact read_spec h
  | write fd chunks => exact write_spec h
  | fstat fd => exact fstat_spec h
  | pipe page => exact pipe_spec h hcwd
  | fork np => exact fork_spec h
  | exit => exact exit_spec h hcwd
  | fault => exact h.same

/-- **The state between two calls**: the books are in order and the tree is in shape. -/
structure Sound (s : State) : Prop where
  ledger : Ledger s
  shape : Shape s.inode

theorem step_some {l : Label} (h : step s l = some t) :
    (s.proc l.proc).cwd ≠ none ∧ ∃ r, l.call.run l.proc s = .ok (r, t) := by
  unfold step at h
  split_ifs at h with hcwd
  split at h
  · rename_i r u hrun
    cases h
    exact ⟨hcwd, r, hrun⟩
  · cases h

theorem step_spec {l : Label} (h : Sound s) (hstep : step s l = some t) : Outcome s l.proc l.call t := by
  obtain ⟨hcwd, r, hrun⟩ := step_some hstep
  exact (call_spec h.ledger h.shape hcwd l.call).ok hrun

theorem Sound.step {l : Label} (h : Sound s) (hstep : step s l = some t) : Sound t := by
  obtain ⟨hl, τ, hc, hr⟩ := step_spec h hstep
  exact ⟨hl, hr.shape (hc.shape h.shape)⟩

end Xv6.Fs
