import Xv6.Fs.Run

/-!
# Link counts

The links of an inode, counted over the entries of the directories that have links themselves (`Tree.links`), every name
but `.` taken. `nlink` is this number as long as nothing is made in a removed directory (`InLive`): then a directory
without links is empty, one with links is named by its parent (`Exact`), and the `..` of the directories with links are
the `..` of subdirectories.
-/

namespace Xv6.Fs

open Lib

/-- The entries with the number `x` and a name other than `.`, in directories that have links. -/
def Tree.links (τ : Tree) (x : ℕ) : ℕ :=
  ∑ d ∈ Finset.range NINODES,
    if (τ d).type = .dir ∧ 0 < (τ d).nlink then (τ d).ents.countP (fun de => de.inum = x ∧ de.name ≠ dot) else 0

/-- What the tree keeps as long as directories without links get no entries. -/
structure Exact (τ : Tree) : Prop where
  /-- a directory with links is named by its parent -/
  parent : ∀ c, (τ c).type = .dir → 0 < (τ c).nlink → c ≠ ROOTINO → τ.names (τ c).up c ≠ 0
  /-- a directory without links is empty -/
  dead : ∀ d, (τ d).nlink = 0 → ∀ x, x ≠ 0 → τ.names d x = 0
  full : ∀ x, x ≠ 0 → (τ x).nlink = τ.held x
  nodot : ∀ d, (τ d).type = .dir → ∀ de ∈ (τ d).ents.drop 2, de.inum ≠ 0 → de.name ≠ dot

section Count

variable {τ : Tree} {d x : ℕ}

theorem Exact.up_eq (h : Exact τ) (hs : Shape τ) {c : ℕ} (hc : (τ c).type = .dir) (x : ℕ) :
    (if 0 < (τ c).nlink ∧ (τ c).up = x then 1 else 0) = τ.names x c + if c = ROOTINO ∧ x = ROOTINO then 1 else 0 := by
  by_cases hr : c = ROOTINO
  · subst hr
    have hz : τ.names x ROOTINO = 0 := by
      by_contra hn
      exact (hs.child x ROOTINO hc hn).2.1 rfl
    rw [hz, hs.root.2]
    simp only [hs.root_linked, true_and, Nat.zero_add]
    simp only [eq_comm]
  · rw [if_neg (c := c = ROOTINO ∧ x = ROOTINO) fun hh => hr hh.1, Nat.add_zero]
    by_cases hn : τ.names x c = 0
    · rw [hn, if_neg]
      rintro ⟨hl, rfl⟩
      exact h.parent c hc hl hr hn
    · obtain ⟨-, -, hup, hone⟩ := hs.child x c hc hn
      have hle := hs.names_le_nlink (d := x) (hs.bound c hc).1
      rw [hone, if_pos ⟨by omega, hup⟩]

theorem Exact.countP_ents (h : Exact τ) (hs : Shape τ) (hd : (τ d).type = .dir) (hx : x ≠ 0) :
    (τ d).ents.countP (fun de => de.inum = x ∧ de.name ≠ dot) = τ.names d x + if (τ d).up = x then 1 else 0 := by
  obtain ⟨rest, he, -⟩ := (hs.dots d hd).ents
  have hrest : rest.countP (fun de => de.inum = x ∧ de.name ≠ dot) = rest.countP (·.inum = x) := by
    refine List.countP_congr fun de hde => ?_
    have hname := h.nodot d hd de (by rw [he]; exact hde)
    simp only [decide_eq_true_eq]
    exact ⟨fun hh => hh.1, fun hh => ⟨hh, hname (by rw [hh]; exact hx)⟩⟩
  rw [names_of_dir hd, named, he]
  simp only [List.drop_succ_cons, List.drop_zero, List.countP_cons, hrest]
  simp

/-- **The links that the entries count are those that an inode needs.** -/
theorem Exact.links_eq_held (h : Exact τ) (hs : Shape τ) (hx : x ≠ 0) : τ.links x = τ.held x := by
  have hterm : ∀ d, (if (τ d).type = .dir ∧ 0 < (τ d).nlink then
        (τ d).ents.countP (fun de => de.inum = x ∧ de.name ≠ dot) else 0) =
      τ.names d x + (if (τ d).type = .dir then τ.names x d else 0) + if d = ROOTINO ∧ x = ROOTINO then 1 else 0 := by
    intro d
    by_cases hd : (τ d).type = .dir
    · have hup := h.up_eq hs hd x
      by_cases hl : 0 < (τ d).nlink
      · rw [if_pos ⟨hd, hl⟩, h.countP_ents hs hd hx, if_pos hd]
        simp only [hl, true_and] at hup
        omega
      · have hz := hs.nlink_nonneg (hs.bound d hd).1
        rw [if_neg fun hh => hl hh.2, h.dead d (by omega) x hx, if_pos hd]
        simp only [hl, false_and, if_false] at hup
        omega
    · have hr : d ≠ ROOTINO := fun hr => hd (hr ▸ hs.root.1)
      rw [if_neg fun hh => hd hh.1, names_of_not_dir hd, if_neg hd, if_neg fun hh => hr hh.1]
  have hroot : (∑ d ∈ Finset.range NINODES, if d = ROOTINO ∧ x = ROOTINO then 1 else 0) =
      if x = ROOTINO then 1 else 0 := by
    rw [Finset.sum_eq_single ROOTINO (fun d _ hd => if_neg fun hh => hd hh.1)
      (fun h => absurd (Finset.mem_range.mpr (by decide)) h)]
    simp
  unfold Tree.links Tree.held Tree.namedBy Tree.subdirs
  rw [Finset.sum_congr rfl fun d _ => hterm d, Finset.sum_add_distrib, Finset.sum_add_distrib, hroot]

end Count

/-! ## The operations -/

theorem ne_dot_of_find {i : Inode} {d : ℕ} {name : Name} (hdots : i.Dots d) (hd : d ≠ 0)
    (hf : find name i.ents = none) : name.take DIRSIZ ≠ dot := by
  obtain ⟨rest, he, -⟩ := hdots.ents
  have hmem : (⟨d, dot⟩ : Dirent) ∈ i.ents := by rw [he]; exact List.mem_cons_self
  have hcmp := find_none hf hmem hd
  intro hname
  exact hcmp (by simp [namecmp, hname])

/-- **One entry more**, in a directory with links. -/
theorem Exact.add {τ τ' : Tree} {d x : ℕ} (h : Exact τ) (hs : Shape τ) (he : Entry τ τ' d x)
    (hd : (τ d).type = .dir) (hl : 0 < (τ d).nlink) (hx : x ≠ 0) (hne : x ≠ d) (hold : (τ x).type ≠ .dir)
    (hnew : (τ' x).type = .dir → x < NINODES ∧ (τ' x).up = d ∧ (τ' x).ents.drop 2 = [])
    (hents : ∀ e, e ≠ x → ∀ de ∈ (τ' e).ents.drop 2, de.inum ≠ 0 → de ∈ (τ e).ents.drop 2 ∨ de.name ≠ dot) :
    Exact τ' where
  parent c hc hlc hr := by
    by_cases hcx : c = x
    · subst hcx
      rw [(hnew hc).2.1, he.names d c hx, if_pos ⟨rfl, rfl⟩]
      omega
    · rw [he.type c hcx] at hc
      rw [Inode.up_congr (he.head c hcx), he.names _ c (hs.bound c hc).1]
      have hold' : 0 < (τ c).nlink := by
        have := he.nlink c
        rw [if_neg (Ne.symm hcx)] at this
        split_ifs at this with hdc
        · rw [← hdc.2]
          exact hl
        · omega
      have := h.parent c hc hold' hr
      omega
  dead e hle y hy := by
    have hnl := he.nlink e
    have hed : e ≠ d := by
      rintro rfl
      split_ifs at hnl <;> omega
    rw [he.names e y hy, if_neg fun hh => hed hh.1, Nat.add_zero]
    by_cases hex : e = x
    · subst hex
      exact names_of_not_dir hold
    · rw [if_neg (Ne.symm hex), if_neg fun hh => hed hh.2.symm] at hnl
      exact h.dead e (by omega) y hy
  full y hy := by
    have := he.balance (hs.bound d hd).2 hs.zero_not_dir hx (fun hc => (hnew hc).1) hy
    have := h.full y hy
    omega
  nodot e hdir de hde hi := by
    by_cases hex : e = x
    · subst hex
      rw [(hnew hdir).2.2] at hde
      cases hde
    · rcases hents e hex de hde hi with hm | hn
      · rw [he.type e hex] at hdir
        exact h.nodot e hdir de hm hi
      · exact hn

theorem mem_put {es : List Dirent} {de new : Dirent} {k : ℕ} (hl : 2 ≤ es.length) (h : de ∈ (put es k new).drop 2) :
    de ∈ es.drop 2 ∨ de = new := by
  unfold put at h
  split_ifs at h with hk
  · rw [List.drop_set] at h
    split_ifs at h
    · exact .inl h
    · exact List.mem_or_eq_of_mem_set h
  · rw [List.drop_append_of_le_length hl] at h
    rcases List.mem_append.mp h with h | h
    · exact .inl h
    · exact .inr (List.mem_singleton.mp h)

section Operations

variable {τ : Tree} {d k x : ℕ} {name : Name} {kind : Kind} {major minor : BitVec 16}

theorem Shape.length_ents (hs : Shape τ) (hd : (τ d).type = .dir) : 2 ≤ (τ d).ents.length := by
  obtain ⟨rest, he, -⟩ := (hs.dots d hd).ents
  rw [he]
  simp

theorem Shape.mem_enter (hs : Shape τ) (hd : (τ d).type = .dir) (hf : find name (τ d).ents = none) {de : Dirent}
    (hde : de ∈ (put (τ d).ents (freeSlot (τ d).ents) ⟨x, name.take DIRSIZ⟩).drop 2) :
    de ∈ (τ d).ents.drop 2 ∨ de.name ≠ dot := by
  rcases mem_put (hs.length_ents hd) hde with hm | rfl
  · exact .inl hm
  · exact .inr (ne_dot_of_find (hs.dots d hd) (hs.bound d hd).1 hf)

theorem Exact.make (h : Exact τ) (hs : Shape τ) (hc : CanMake τ d x kind) (hl : 0 < (τ d).nlink)
    (hf : find name (τ d).ents = none) : Exact (τ.make d (name.take DIRSIZ) x kind major minor) := by
  refine h.add hs (hs.entry_make hc) hc.dir hl hc.pos hc.ne (by rw [hc.unused]; decide) (fun hk => ?_)
    fun e hex de hde _ => ?_
  · rw [make_new hc.ne] at hk ⊢
    exact ⟨hc.bound, newInode_up hk, by rw [newInode_ents hk]; rfl⟩
  · by_cases hed : e = d
    · subst hed
      rw [make_dir] at hde
      exact hs.mem_enter hc.dir hf hde
    · rw [make_other hed hex] at hde
      exact .inl hde

theorem Exact.link (h : Exact τ) (hs : Shape τ) (hc : CanLink τ d x) (hl : 0 < (τ d).nlink)
    (hf : find name (τ d).ents = none) : Exact (τ.link d (name.take DIRSIZ) x) := by
  refine h.add hs (hs.entry_link hc) hc.dir hl hc.pos hc.ne hc.file (fun hk => ?_) fun e hex de hde _ => ?_
  · rw [link_type hc] at hk
    exact absurd hk hc.file
  · by_cases hed : e = d
    · subst hed
      rw [link_dir] at hde
      exact hs.mem_enter hc.dir hf hde
    · rw [link_other hed hex] at hde
      exact .inl hde

theorem Shape.remove_dead (hs : Shape τ) (hc : CanRemove τ d k x) (hx : (τ x).type = .dir) :
    (τ.remove d k x x).nlink = 0 := by
  have hex := (hs.remove hc).exact x (by rw [remove_type hc]; exact hx)
  obtain ⟨-, hroot, hup, hone⟩ := hs.child d x hx hc.names
  have hnames := fun e => (entry_remove hc).names e x hc.pos
  have h1 : (τ.remove d k x).namedBy x = 0 := Finset.sum_eq_zero fun e _ => by
    have hn := hnames e
    by_cases he : τ.names e x = 0
    · omega
    · obtain ⟨-, -, hup', hone'⟩ := hs.child e x hx he
      rw [if_pos ⟨hup'.symm.trans hup, rfl⟩] at hn
      omega
  have h2 : (τ.remove d k x).subdirs x = 0 := Finset.sum_eq_zero fun c _ => by
    split_ifs with hcd
    · rw [remove_type hc] at hcd
      have hn := (entry_remove hc).names x c (hs.bound c hcd).1
      have := hc.empty hx c (hs.bound c hcd).1
      omega
    · rfl
  rw [hex, Tree.held, h1, h2, if_neg hroot]
  rfl

theorem Exact.remove (h : Exact τ) (hs : Shape τ) (hc : CanRemove τ d k x) : Exact (τ.remove d k x) := by
  have hshape := hs.remove hc
  have hentry := entry_remove hc
  have hlive : 0 < (τ d).nlink := by
    have h0 := hs.nlink_nonneg (hs.bound d hc.dir).1
    have : (τ d).nlink ≠ 0 := fun hz => hc.names (h.dead d hz x hc.pos)
    omega
  have hparent : ∀ c, (τ c).type = .dir → 0 < (τ c).nlink → c ≠ ROOTINO → c ≠ x →
      (τ.remove d k x).names (τ c).up c ≠ 0 := by
    intro c hcd hl hr hcx
    have hn := hentry.names (τ c).up c (hs.bound c hcd).1
    rw [if_neg fun hh => hcx hh.2.symm, Nat.add_zero] at hn
    rw [← hn]
    exact h.parent c hcd hl hr
  refine ⟨fun c hcd hl hr => ?_, fun e hl y hy => ?_, fun y hy => ?_, fun e hdir de hde hi => ?_⟩
  · rw [remove_type hc] at hcd
    rw [Inode.up_congr (remove_head hc c)]
    have hcx : c ≠ x := by
      rintro rfl
      have := hs.remove_dead hc hcd
      omega
    by_cases hcd' : c = d
    · subst hcd'
      exact hparent c hcd hlive hr hcx
    · rw [remove_other hcd' hcx] at hl
      exact hparent c hcd hl hr hcx
  · have hn := hentry.names e y hy
    by_cases hex : e = x
    · subst hex
      by_cases hdir : (τ e).type = .dir
      · have := hc.empty hdir y hy
        omega
      · exact names_of_not_dir (by rw [remove_type hc]; exact hdir)
    by_cases hed : e = d
    · -- the directory itself has its own name, or is the root
      subst hed
      have hex' := hshape.exact e (by rw [remove_type hc]; exact hc.dir)
      rw [hl, Tree.held] at hex'
      by_cases hr : e = ROOTINO
      · rw [if_pos hr] at hex'
        omega
      · have hnp := hparent e hc.dir hlive hr hex
        have hup := dir_of_names (h.parent e hc.dir hlive hr)
        have := names_le_namedBy (τ.remove e k x) e (hs.bound _ hup).2
        omega
    · rw [remove_other hed hex] at hl
      have := h.dead e hl y hy
      omega
  · have := hentry.balance (hs.bound d hc.dir).2 (by rw [remove_type hc]; exact hs.zero_not_dir) hc.pos
      (fun hx => (hs.bound x hx).2) hy
    have := h.full y hy
    omega
  · rw [remove_type hc] at hdir
    by_cases hex : e = x
    · subst hex
      rw [remove_self] at hde
      exact h.nodot e hdir de hde hi
    by_cases hed : e = d
    · subst hed
      rw [remove_dir hc.ne] at hde
      simp only [Inode.leave, List.drop_set] at hde
      split_ifs at hde
      · exact h.nodot e hdir de hde hi
      · rcases List.mem_or_eq_of_mem_set hde with hm | rfl
        · exact h.nodot e hdir de hm hi
        · exact absurd rfl hi
    · rw [remove_other hed hex] at hde
      exact h.nodot e hdir de hde hi

theorem Exact.free (h : Exact τ) (hs : Shape τ) (hl : (τ x).nlink = 0) : Exact (τ.free x) := by
  have hnames : ∀ e y, y ≠ 0 → (τ.free x).names e y = τ.names e y := by
    intro e y hy
    rw [free_names]
    split_ifs with hex
    · rw [hex, h.dead x hl y hy]
    · rfl
  refine ⟨fun c hcd hlc hr => ?_, fun e hle y hy => ?_, fun y hy => ?_, fun e hdir de hde hi => ?_⟩
  · have hcx := free_dir hcd
    rw [free_other hcx] at hcd hlc ⊢
    rw [hnames _ c (hs.bound c hcd).1]
    exact h.parent c hcd hlc hr
  · rw [free_nlink] at hle
    rw [hnames e y hy]
    exact h.dead e hle y hy
  · have h1 := (hs.free hl).enough y hy
    have hsum : (τ.free x).namedBy y = τ.namedBy y := Finset.sum_congr rfl fun e _ => hnames e y hy
    have hfull := h.full y hy
    rw [free_nlink] at h1 ⊢
    by_cases hdir : (τ.free x y).type = .dir
    · have := (hs.free hl).exact y hdir
      rwa [free_nlink] at this
    · -- an inode that is no directory has no subdirectories
      have hsub : (τ.free x).subdirs y = 0 := Finset.sum_eq_zero fun c _ => by
        split_ifs
        · exact names_of_not_dir hdir
        · rfl
      by_cases hyx : y = x
      · subst hyx
        omega
      · rw [free_other hyx] at hdir
        have hsub' : τ.subdirs y = 0 := Finset.sum_eq_zero fun c _ => by
          split_ifs
          · exact names_of_not_dir hdir
          · rfl
        rw [hfull, Tree.held, Tree.held, hsum, hsub, hsub']
  · have hex := free_dir hdir
    rw [free_other hex] at hdir hde
    exact h.nodot e hdir de hde hi

end Operations

/-! ## Runs -/

section Run

variable {args : List (List Char)} {s t : State} {l : Label}

/-- The path of the name that a call may enter in a directory. -/
def Call.enters : Call → Option (List Char)
  | .link _ new _ => some new
  | c => c.makes.map (·.1)

/-- The call enters no name in a directory without links. -/
def InLive (s : State) (l : Label) : Prop :=
  ∀ path ∈ l.call.enters, ∀ r ∈ s.parentOf l.proc path,
    0 < (s.inode r.1).nlink ∨ (find r.2 (s.inode r.1).ents).isSome

instance (s : State) (l : Label) : Decidable (InLive s l) :=
  inferInstanceAs (Decidable (∀ path ∈ l.call.enters, ∀ r ∈ s.parentOf l.proc path, _))

theorem InLive.linked {path : List Char} {d : ℕ} {name : Name} (h : InLive s l) (hc : l.call.enters = some path)
    (hp : s.parentOf l.proc path = some (d, name)) (hf : find name (s.inode d).ents = none) :
    0 < (s.inode d).nlink := by
  rcases h path hc (d, name) hp with hl | hsome
  · exact hl
  · rw [hf] at hsome
    cases hsome

theorem enters_of_makes {c : Call} {path : List Char} {kind : Kind} (h : c.makes = some (path, kind)) :
    c.enters = some path := by
  cases c with
  | link old new blocks => cases h
  | _ => simp [Call.enters, h]

theorem Exact.change {τ : Tree} (h : Exact s.inode) (hs : Shape s.inode) (hok : InLive s l)
    (hc : Change s l.proc l.call τ) : Exact τ := by
  obtain ⟨p, c⟩ := l
  cases hc with
  | same => exact h
  | made hm hp hf hcan => exact h.make hs hcan (hok.linked (enters_of_makes hm) hp hf) hf
  | linked hp hf hcan => exact h.link hs hcan (hok.linked rfl hp hf) hf
  | removed _ _ hcan => exact h.remove hs hcan

theorem Exact.reaped {τ τ' : Tree} (h : Exact τ) (hs : Shape τ) (hr : Reaped τ τ') : Exact τ' := by
  have hboth : Shape τ' ∧ Exact τ' := by
    induction hr with
    | refl => exact ⟨hs, h⟩
    | free _ hn ih => exact ⟨ih.1.free hn, ih.2.free ih.1 hn⟩
  exact hboth.2

theorem mem_mkfsEnts {de : Dirent} : ∀ {args : List (List Char)} {i : ℕ}, de ∈ mkfsEnts i args →
    ∃ arg ∈ args, de.name = mkfsName arg
  | arg :: args, i, h => by
    rcases List.mem_cons.mp h with rfl | h
    · exact ⟨arg, List.mem_cons_self, rfl⟩
    · obtain ⟨a, ha, he⟩ := mem_mkfsEnts h
      exact ⟨a, List.mem_cons_of_mem _ ha, he⟩

theorem Exact.mkfs (hargs : ∀ arg ∈ args, mkfsName arg ≠ dot) : Exact (mkfs args) where
  parent c hc _ hr := absurd (mkfs_dir hc) hr
  dead d hl x hx := by
    rw [mkfs_names hx, if_neg]
    rintro ⟨rfl, -⟩
    cases hl
  full x hx := by
    rw [mkfs_nlink hx, mkfs_held hx]
    split_ifs <;> rfl
  nodot d hd de hde hi := by
    obtain ⟨n, he⟩ := mkfs_root_ents args
    rw [mkfs_dir hd, he] at hde
    rcases List.mem_append.mp hde with hm | hm
    · obtain ⟨arg, ha, hn⟩ := mem_mkfsEnts hm
      rw [hn]
      exact hargs arg ha
    · rw [List.eq_of_mem_replicate hm] at hi
      exact absurd rfl hi

/-- **Link counts are exact** in every run in which no name is entered in a directory without links, on an image that
stores no file under the name `.`: `nlink` is the number of the entries that name the inode, other than `.`, in
directories with links, and an allocated inode that no such entry names is in use by a process. -/
theorem links_exact {args : Files} {tr : List (State × Label)} (hargs : ∀ arg ∈ args.list, mkfsName arg ≠ dot)
    (h : Path step InLive (boot args) tr s) :
    (∀ x, (s.inode x).type ≠ .free → (s.inode x).nlink = s.inode.links x) ∧
    ∀ x, (s.inode x).type ≠ .free → s.inode.links x = 0 →
      (∃ p, (s.proc p).cwd = some x) ∨ ∃ p fd f, (s.proc p).ofile fd = some f ∧ (s.file f).points = some x := by
  have hinv : Sound s ∧ Exact s.inode :=
    h.inv (I := fun s => Sound s ∧ Exact s.inode) ⟨⟨.boot args, .mkfs args.list⟩, .mkfs hargs⟩ fun s l t ⟨hs, he⟩ hok hstep => by
      obtain ⟨-, τ, hc, hr⟩ := step_spec hs hstep
      exact ⟨hs.step hstep, (he.change hs.shape hok hc).reaped (hc.shape hs.shape) hr⟩
  obtain ⟨hs, he⟩ := hinv
  have hlinks : ∀ x, (s.inode x).type ≠ .free → (s.inode x).nlink = s.inode.links x := by
    intro x hx
    have hx0 : x ≠ 0 := fun h0 => hx (h0 ▸ hs.shape.zero)
    rw [he.links_eq_held hs.shape hx0]
    exact he.full x hx0
  refine ⟨hlinks, fun x hx hz => ?_⟩
  have hn : (s.inode x).nlink = 0 := by rw [hlinks x hx, hz]; rfl
  have hown := (hs.ledger.mid.kept x (by simp) hx hn).1
  rcases Nat.eq_zero_or_pos (s.cwds x) with hc | hc
  · have hpos : 0 < s.opens x := by omega
    obtain ⟨f, hf⟩ := refs_pos.mp hpos
    have href : 0 < (s.file f).ref := by
      unfold File.points at hf
      split_ifs at hf with hh
      exact hh.1
    rw [hs.ledger.count] at href
    obtain ⟨⟨p, fd⟩, hfd⟩ := refs_pos.mp href
    exact .inr ⟨p, fd, f, hfd, hf⟩
  · exact .inl (refs_pos.mp hc)

/-- A directory with a subdirectory that has been removed while it is the working directory. -/
theorem links_exact_removed : ∃ tr s, Path step InLive (boot ∅) tr s ∧ (s.inode 3).type = .dir ∧
    s.inode.links 2 = 2 ∧ s.inode.links 3 = 0 ∧ (s.inode 3).nlink = 0 := by
  obtain ⟨s, hp, ht, h2, hn, h3⟩ := Lib.exists_path step InLive (boot ∅)
    [⟨0, .mkdir ['a'] true⟩, ⟨0, .mkdir ['a', '/', 'b'] true⟩, ⟨0, .chdir ['a', '/', 'b']⟩,
      ⟨0, .mkdir ['.', '.', '/', 'c'] true⟩, ⟨0, .unlink ['/', 'a', '/', 'b']⟩]
    (fun s => (s.inode 3).type = .dir ∧ (s.inode 2).type = .dir ∧ (s.inode 2).nlink = 2 ∧ (s.inode 3).nlink = 0)
    (by decide +kernel)
  obtain ⟨hlinks, -⟩ := links_exact (fun _ h => absurd h List.not_mem_nil) hp
  have h2' := hlinks 2 (by rw [h2]; decide)
  have h3' := hlinks 3 (by rw [ht]; decide)
  exact ⟨_, s, hp, ht, by omega, by omega, h3⟩

/-- **A file made in a removed directory** has a link that nothing counts. -/
theorem made_in_removed_directory : ∃ tr s, Path step free (boot ∅) tr s ∧
    (s.inode 3).type = .file ∧ (s.inode 3).nlink = 1 ∧ s.inode.links 3 = 0 := by
  obtain ⟨s, hp, hs⟩ := Lib.exists_path step free (boot ∅)
    [⟨0, .mkdir ['a'] true⟩, ⟨0, .chdir ['a']⟩, ⟨0, .unlink ['/', 'a']⟩, ⟨0, .open ['f'] O_CREATE true⟩]
    (fun s => (s.inode 3).type = .file ∧ (s.inode 3).nlink = 1 ∧ s.inode.links 3 = 0) (by decide +kernel)
  exact ⟨_, s, hp, hs⟩

end Run

end Xv6.Fs
