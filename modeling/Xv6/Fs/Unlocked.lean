import Xv6.Fs.Failed

/-!
# No call leaves an inode locked

`Locking L m L'` says that the program `m`, started with at most the inodes of `L` locked, returns with at most those of
`L' a` locked, where `a` is its result. `ilock` adds an inode, `iunlock` takes it out, and everything else leaves the
locks alone; every call that returns has given back the locks that it took (`Call.locking`), and so no inode is locked
between two calls (`unlocked_of_path`).
-/

namespace Xv6.Fs

open Lib

variable {α β : Type} {s t : State} {L : List ℕ} {x d : ℕ} {p : Slot} {name : Name} {path : List Char} {f : Fin NFILE}
  {kind : Kind} {major minor : BitVec 16} {blocks parent : Bool}

/-- Only inodes of `L` are locked. -/
def Locks (L : List ℕ) (s : State) : Prop := ∀ x, (s.icache x).busy = true → x ∈ L

/-- **The locks that a program takes and gives back.** -/
def Locking (L : List ℕ) (m : Prog α) (L' : α → List ℕ) : Prop :=
  ∀ s, Locks L s → wp m (fun a => Locks (L' a)) anyStop s

namespace Locking

/-- **Sequence**: the locks after one part are those before the next. -/
theorem bind {m : Prog α} {k : α → Prog β} {L' : α → List ℕ} {L'' : β → List ℕ} (hm : Locking L m L')
    (hk : ∀ a, Locking (L' a) (k a) L'') : Locking L (m >>= k) L'' := fun s h =>
  wp_bind.mpr ((hm s h).mono fun a t ht => hk a t ht)

theorem ret {a : α} {L' : α → List ℕ} (h : L' a = L) : Locking L (pure a) L' := fun s hs => by
  rw [wp_pure, h]
  exact hs

theorem stop {e : Stop} {L' : α → List ℕ} : Locking L (throw e) L' := fun _ _ => trivial

theorem get {k : State → Prog β} {L' : β → List ℕ} (h : ∀ s, Locking L (k s) L') : Locking L (get >>= k) L' :=
  fun s hs => h s s hs

/-- A loop whose body gives back what it locks. -/
theorem loop {γ : Type} {body : γ → Prog PUnit} (h : ∀ c, Locking L (body c) fun _ => L) (l : List γ) :
    Locking L (l.forM body) fun _ => L := by
  induction l with
  | nil => exact ret rfl
  | cons c l ih => exact (h c).bind fun _ => ih

end Locking

/-- Only the one entry can become busy. -/
theorem Locks.setCached {L' : List ℕ} {c : Cached} (h : Locks L s) (hc : c.busy = true → x ∈ L')
    (hL : ∀ y ∈ L, y ≠ x → y ∈ L') : Locks L' (s.setCached x c) := by
  intro y hy
  by_cases hyx : y = x
  · subst hyx
    exact hc (by simpa [State.setCached] using hy)
  · exact hL y (h y (by simpa [State.setCached, hyx] using hy)) hyx

/-! ## The inode protocol -/

theorem locking_iget : Locking L (iget x) fun _ => L := by
  intro s h
  unfold iget
  rw [wp_bind, wp_get]
  split_ifs
  · exact h.setCached (h x) fun y hy _ => hy
  · exact h.setCached nofun fun y hy _ => hy
  · trivial

theorem locking_idup : Locking L (idup x) fun _ => L := fun _ h => h.setCached (h x) fun _ hy _ => hy

/-- `ilock` is the function that leaves a lock. -/
theorem locking_ilock : Locking L (ilock x) fun _ => x :: L := by
  intro s h
  unfold ilock
  rw [wp_bind, wp_get]
  split_ifs
  · trivial
  · trivial
  · trivial
  · exact h.setCached (fun _ => List.mem_cons_self) fun y hy _ => List.mem_cons_of_mem _ hy

theorem locking_iunlock : Locking (x :: L) (iunlock x) fun _ => L := by
  intro s h
  unfold iunlock
  rw [wp_bind, wp_get]
  split_ifs
  · trivial
  · exact h.setCached nofun fun y hy hne => (List.mem_cons.mp hy).resolve_left hne

/-- `iput` locks the inode that it frees, and unlocks it again. -/
theorem locking_iput : Locking L (iput x) fun _ => L := by
  intro s h
  unfold iput
  rw [wp_bind, wp_get]
  split_ifs
  · trivial
  · have hset : Locks L (s.setInode x { s.inode x with type := .free, ents := [] }) := h
    exact hset.setCached nofun fun y hy _ => hy
  · exact h.setCached (h x) fun y hy _ => hy

theorem locking_iunlockput : Locking (x :: L) (iunlockput x) fun _ => L :=
  locking_iunlock.bind fun _ => locking_iput

theorem locking_iunlockput_snd : Locking (x :: d :: L) (iunlockput d) fun _ => x :: L := fun s h =>
  locking_iunlockput s fun y hy => (List.Perm.swap d x L).mem_iff.mp (h y hy)

theorem locking_iupdate {g : Inode → Inode} : Locking L (iupdate x g) fun _ => L := fun _ h => h

theorem locking_ialloc : Locking L (ialloc kind) fun _ => L := by
  intro s h
  unfold ialloc
  rw [wp_bind, wp_get]
  split
  · trivial
  · rw [wp_bind, wp_set]
    exact locking_iget _ h

theorem locking_dirlookup : Locking L (dirlookup d name) fun _ => L := by
  refine .get fun s => ?_
  split_ifs
  · exact .stop
  split
  · exact .ret rfl
  · exact locking_iget.bind fun _ => .ret rfl

theorem locking_dirlink : Locking L (dirlink d name x blocks) fun _ => L := by
  refine locking_dirlookup.bind fun r => ?_
  split
  · exact locking_iput.bind fun _ => .ret rfl
  · refine .get fun s => ?_
    simp only
    split_ifs
    · exact .stop
    · exact .stop
    · exact locking_iupdate.bind fun _ => .ret rfl

/-- **The walk** locks one directory at a time. -/
theorem locking_namexFrom : ∀ (fuel : ℕ) (ip : ℕ) (path : List Char),
    Locking L (namexFrom parent fuel ip path) fun _ => L
  | 0, _, _ => .stop
  | fuel + 1, ip, path => by
    unfold namexFrom
    split
    · split_ifs
      · exact locking_iput.bind fun _ => .ret rfl
      · exact .ret rfl
    · refine locking_ilock.bind fun _ => .get fun s => ?_
      split_ifs
      · exact locking_iunlockput.bind fun _ => .ret rfl
      · exact locking_iunlock.bind fun _ => .ret rfl
      · refine locking_dirlookup.bind fun r => ?_
        split
        · exact locking_iunlockput.bind fun _ => .ret rfl
        · exact locking_iunlockput.bind fun _ => locking_namexFrom fuel _ _

theorem locking_namex : Locking L (namex p path parent) fun _ => L := by
  unfold namex
  split_ifs
  · exact locking_iget.bind fun _ => locking_namexFrom _ _ _
  · refine .get fun s => ?_
    split
    · exact .stop
    · exact locking_idup.bind fun _ => locking_namexFrom _ _ _

theorem locking_namei : Locking L (namei p path) fun _ => L := locking_namex.bind fun _ => .ret rfl

/-! ## The calls -/

/-- `link` has unlocked the file before it locks the directory. -/
theorem locking_link {old new : List Char} : Locking L (sysLink p old new blocks) fun _ => L := by
  have hbad : ∀ ip, Locking L (linkBad ip) fun _ => L := fun ip =>
    locking_ilock.bind fun _ => locking_iupdate.bind fun _ => locking_iunlockput.bind fun _ => .ret rfl
  refine locking_namei.bind fun r => ?_
  split
  · exact .ret rfl
  refine locking_ilock.bind fun _ => .get fun s => ?_
  split_ifs
  · exact locking_iunlockput.bind fun _ => .ret rfl
  refine locking_iupdate.bind fun _ => locking_iunlock.bind fun _ => ?_
  refine Locking.bind (m := nameiparent p new) locking_namex fun r => ?_
  split
  · exact hbad _
  refine locking_ilock.bind fun _ => locking_dirlink.bind fun linked => ?_
  split_ifs
  · exact locking_iunlockput.bind fun _ => locking_iput.bind fun _ => .ret rfl
  · exact locking_iunlockput.bind fun _ => hbad _

/-- `unlink` gives both locks back, on every way out. -/
theorem locking_unlink : Locking L (sysUnlink p path) fun _ => L := by
  refine Locking.bind (m := nameiparent p path) locking_namex fun r => ?_
  split
  · exact .ret rfl
  refine locking_ilock.bind fun _ => ?_
  split_ifs
  · exact locking_iunlockput.bind fun _ => .ret rfl
  refine locking_dirlookup.bind fun r => ?_
  split
  · exact locking_iunlockput.bind fun _ => .ret rfl
  refine locking_ilock.bind fun _ => .get fun s => ?_
  split_ifs
  · exact .stop
  · exact locking_iunlockput.bind fun _ => locking_iunlockput.bind fun _ => .ret rfl
  · exact locking_iupdate.bind fun _ => locking_iupdate.bind fun _ => locking_iunlockput_snd.bind fun _ =>
      locking_iupdate.bind fun _ => locking_iunlockput.bind fun _ => .ret rfl
  · exact locking_iupdate.bind fun _ => locking_iunlockput_snd.bind fun _ => locking_iupdate.bind fun _ =>
      locking_iunlockput.bind fun _ => .ret rfl

/-- The new inode stays locked. -/
theorem locking_createNew : Locking (d :: L) (createNew d name kind major minor blocks) fun r => r.toList ++ L := by
  have hend : ∀ ip, Locking (ip :: d :: L) (do
      let linked ← dirlink d name ip blocks
      if linked then
        iunlockput d
        return some ip
      else throw .createDirlink) fun r => r.toList ++ L := by
    intro ip
    refine locking_dirlink.bind fun linked => ?_
    split_ifs
    · exact locking_iunlockput_snd.bind fun _ => .ret rfl
    · exact .stop
  refine locking_ialloc.bind fun ip => locking_ilock.bind fun _ => locking_iupdate.bind fun _ => ?_
  split_ifs
  · refine locking_iupdate.bind fun _ => locking_dirlink.bind fun one => ?_
    split_ifs
    · refine locking_dirlink.bind fun two => ?_
      split_ifs
      · exact hend ip
      · exact .stop
    · exact .stop
  · exact hend ip

/-- **`create`** returns a locked inode, or none and no lock. -/
theorem locking_create : Locking L (create p path kind major minor blocks) fun r => r.toList ++ L := by
  refine Locking.bind (m := nameiparent p path) locking_namex fun r => ?_
  split
  · exact .ret rfl
  refine locking_ilock.bind fun _ => locking_dirlookup.bind fun r => ?_
  split
  · refine locking_iunlockput.bind fun _ => locking_ilock.bind fun _ => .get fun s => ?_
    split_ifs
    · exact .ret rfl
    · exact locking_iunlockput.bind fun _ => .ret rfl
  · exact locking_createNew

theorem locking_make : Locking L (sysMake p path kind major minor blocks) fun _ => L := by
  refine locking_create.bind fun r => ?_
  split
  · exact .ret rfl
  · exact locking_iunlockput.bind fun _ => .ret rfl

/-! ## Files -/

theorem locking_pipeclose {k : ℕ} {writable : Bool} : Locking L (pipeclose k writable) fun _ => L := by
  intro s h
  unfold pipeclose
  rw [wp_bind, wp_get]
  split
  · trivial
  · exact h

theorem locking_fileclose : Locking L (fileclose f) fun _ => L := by
  intro s h
  unfold fileclose
  rw [wp_bind, wp_get]
  split_ifs
  · trivial
  · exact h
  · have hset : Locks L (s.setFile f { s.file f with ref := 0, type := .none }) := h
    rw [wp_bind, wp_set]
    split
    · exact locking_pipeclose _ hset
    · exact locking_iput _ hset
    · exact hset

theorem locking_filealloc : Locking L filealloc fun _ => L := fun _ h =>
  wp_filealloc_table (fun _ => h) fun _ _ => h

theorem locking_fdalloc : Locking L (fdalloc p f) fun _ => L := fun _ h => wp_fdalloc (fun _ => h) fun _ _ => h

theorem locking_filedup : Locking L (filedup f) fun _ => L := by
  intro s h
  unfold filedup
  rw [wp_bind, wp_get]
  split_ifs
  · trivial
  · exact h

theorem locking_setOfile {fd : Fin NOFILE} {v : Option (Fin NFILE)} : Locking L (setOfile p fd v) fun _ => L :=
  fun _ h => h

theorem locking_setCwd {v : Option ℕ} : Locking L (setCwd p v) fun _ => L := fun _ h => h

theorem locking_openInode {omode : Word} : Locking L (openInode p path omode blocks) fun r => r.toList ++ L := by
  unfold openInode
  split_ifs
  · exact locking_create
  refine locking_namei.bind fun r => ?_
  split
  · exact .ret rfl
  refine locking_ilock.bind fun _ => .get fun s => ?_
  split_ifs
  · exact locking_iunlockput.bind fun _ => .ret rfl
  · exact .ret rfl

/-- `open` unlocks the inode also when there is no file or descriptor for it. -/
theorem locking_open {omode : Word} : Locking L (sysOpen p path omode blocks) fun _ => L := by
  refine locking_openInode.bind fun r => ?_
  split
  · exact .ret rfl
  refine locking_filealloc.bind fun r => ?_
  split
  · exact locking_iunlockput.bind fun _ => .ret rfl
  refine locking_fdalloc.bind fun r => ?_
  split
  · exact locking_fileclose.bind fun _ => locking_iunlockput.bind fun _ => .ret rfl
  · exact locking_iunlock.bind fun _ => fun _ h => h

theorem locking_pipealloc {page : Option ℕ} : Locking L (pipealloc page) fun _ => L := by
  refine locking_filealloc.bind fun r => ?_
  split
  · exact .ret rfl
  refine locking_filealloc.bind fun r => ?_
  split
  · exact locking_fileclose.bind fun _ => .ret rfl
  intro s h
  rw [wp_bind, wp_get]
  split
  · exact Locking.bind locking_fileclose (fun _ => locking_fileclose.bind fun _ => .ret rfl) s h
  · exact h

theorem locking_pipe {page : Option ℕ} : Locking L (sysPipe p page) fun _ => L := by
  refine locking_pipealloc.bind fun r => ?_
  split
  · exact .ret rfl
  refine locking_fdalloc.bind fun r => ?_
  split
  · exact locking_fileclose.bind fun _ => locking_fileclose.bind fun _ => .ret rfl
  refine locking_fdalloc.bind fun r => ?_
  split
  · exact locking_setOfile.bind fun _ => locking_fileclose.bind fun _ => locking_fileclose.bind fun _ => .ret rfl
  · exact .ret rfl

theorem locking_write {fd : ℤ} {chunks : List (List Dirent)} : Locking L (sysWrite p fd chunks) fun _ => L := by
  refine .get fun s => ?_
  split
  · exact .ret rfl
  split_ifs
  swap
  · exact .ret rfl
  split
  · exact .stop
  · exact .ret rfl
  refine Locking.bind (.loop (fun es => ?_) chunks) fun _ => .ret rfl
  refine locking_ilock.bind fun _ => .get fun s => ?_
  split_ifs
  · exact locking_iupdate.bind fun _ => locking_iunlock
  · exact locking_iunlock

/-- `fork` locks nothing. -/
theorem locking_fork {np : Slot} : Locking L (sysFork p np) fun _ => L := by
  refine .get fun s => ?_
  split
  · exact .ret rfl
  · exact .stop
  refine Locking.bind (.loop (fun fd => ?_) _) fun _ => locking_idup.bind fun _ => locking_setCwd.bind fun _ => .ret rfl
  refine .get fun s => ?_
  split
  · exact .ret rfl
  · exact locking_filedup.bind fun _ => locking_setOfile

theorem locking_exit : Locking L (sysExit p) fun _ => L := by
  unfold sysExit
  split_ifs
  · exact .stop
  refine Locking.bind (.loop (fun fd => ?_) _) fun _ => .get fun s => ?_
  · refine .get fun s => ?_
    split
    · exact .ret rfl
    · exact locking_fileclose.bind fun _ => locking_setOfile
  · split
    · exact .stop
    · exact locking_iput.bind fun _ => locking_setCwd.bind fun _ => .ret rfl

/-- **Every call gives its locks back.** -/
theorem Call.locking (c : Call) : Locking L (c.run p) fun _ => L := by
  cases c with
  | «open» path omode blocks => exact locking_open
  | mkdir path blocks => exact locking_make
  | mknod path major minor blocks => exact locking_make
  | link old new blocks => exact locking_link
  | unlink path => exact locking_unlink
  | chdir path =>
    refine locking_namei.bind fun r => ?_
    split
    · exact .ret rfl
    refine locking_ilock.bind fun _ => .get fun s => ?_
    split_ifs
    · exact locking_iunlockput.bind fun _ => .ret rfl
    refine locking_iunlock.bind fun _ => ?_
    split
    · exact .stop
    · exact locking_iput.bind fun _ => locking_setCwd.bind fun _ => .ret rfl
  | exec path =>
    refine locking_namei.bind fun r => ?_
    split
    · exact .ret rfl
    · exact locking_ilock.bind fun _ => locking_iunlockput.bind fun _ => .ret rfl
  | close fd =>
    refine .get fun s => ?_
    split
    · exact .ret rfl
    · exact locking_setOfile.bind fun _ => locking_fileclose.bind fun _ => .ret rfl
  | dup fd =>
    refine .get fun s => ?_
    split
    · exact .ret rfl
    refine locking_fdalloc.bind fun r => ?_
    split
    · exact .ret rfl
    · exact locking_filedup.bind fun _ => .ret rfl
  | read fd =>
    refine .get fun s => ?_
    split
    · exact .ret rfl
    split_ifs
    swap
    · exact .ret rfl
    split
    · exact .stop
    · exact .ret rfl
    · exact locking_ilock.bind fun _ => locking_iunlock.bind fun _ => .ret rfl
  | write fd chunks => exact locking_write
  | fstat fd =>
    refine .get fun s => ?_
    split
    · exact .ret rfl
    split_ifs
    · exact locking_ilock.bind fun _ => locking_iunlock.bind fun _ => .ret rfl
    · exact .ret rfl
  | pipe page => exact locking_pipe
  | fork np => exact locking_fork
  | exit => exact locking_exit
  | fault => exact .ret rfl

/-- **Between two calls no inode is locked.** -/
theorem unlocked_of_path {args : Files} {ok : State → Label → Prop} {tr : List (State × Label)}
    (h : Path step ok (boot args) tr s) (x : ℕ) : (s.icache x).busy = false := by
  have hboot : Locks [] (boot args) := by
    intro y hy
    by_cases hroot : y = ROOTINO
    · rw [hroot] at hy
      cases hy
    · simp [boot, hroot] at hy
  have hlocks : Locks [] s := h.inv hboot fun s l t hs _ hstep => by
    obtain ⟨-, r, hrun⟩ := step_some hstep
    exact (l.call.locking s hs).ok hrun
  exact Bool.eq_false_iff.mpr fun hb => List.not_mem_nil (hlocks x hb)

/-- **Open files stay good.** After every sequence of calls of any processes, an inode is allocated exactly as long as
it has a link or somebody holds it, as a working directory or in an open file; no directory is open for writing; and no
inode is locked. -/
theorem inode_allocated_iff {args : Files} {tr : List (State × Label)} (h : Path step free (boot args) tr s) :
    (∀ x, (s.inode x).type ≠ .free ↔ (s.inode x).nlink ≠ 0 ∨ 0 < s.cwds x + s.opens x) ∧
      (∀ f x, (s.file f).points = some x → (s.file f).writable → (s.inode x).type ≠ .dir) ∧
      ∀ x, (s.icache x).busy = false := by
  obtain ⟨hl, hs⟩ := sound_of_path h
  refine ⟨fun x => ⟨fun hx => ?_, ?_⟩, hl.mode, unlocked_of_path h⟩
  · by_cases hn : (s.inode x).nlink = 0
    · exact .inr (hl.mid.kept x (by simp) hx hn).1
    · exact .inl hn
  · rintro (hn | ho) hfree
    · exact hn (hs.unused x hfree)
    · exact hl.mid.used x ho hfree

/-- A file that has been removed while it is open. -/
theorem inode_allocated_iff_removed : ∃ tr s, Path step free (boot ∅) tr s ∧
    (s.inode 2).nlink = 0 ∧ 0 < s.cwds 2 + s.opens 2 ∧ (s.inode 2).type ≠ .free := by
  obtain ⟨s, hp, hn, ht⟩ := Lib.exists_path step free (boot ∅) [⟨0, .open ['f'] 0x202 true⟩, ⟨0, .unlink ['f']⟩]
    (fun s => (s.inode 2).nlink = 0 ∧ (s.inode 2).type ≠ .free) (by decide +kernel)
  exact ⟨_, s, hp, hn, (((inode_allocated_iff hp).1 2).mp ht).resolve_left (not_not.mpr hn), ht⟩

end Xv6.Fs
