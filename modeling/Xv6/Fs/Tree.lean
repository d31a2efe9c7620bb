import Xv6.Lib.Tally
import Xv6.Fs.Inode

/-!
# The directory tree

What the calls do to the inode table, as operations on the table alone: a new inode with its entry (`Tree.make`), a new
entry for a file (`Tree.link`), an entry taken out (`Tree.remove`), and an inode without links given back (`Tree.free`).
`Shape` is what the table keeps in every run: every directory has its dots, a directory is named by at most one entry,
which is in the directory that its `..` names, the links of a directory are its name and the names of its
subdirectories, and those of any other inode are at least its names (`Tree.held`).
-/

namespace Xv6.Fs

open Lib
open Function (update update_of_ne update_self)

/-! ## Counting -/

/-- The inode that `..` names. -/
def Inode.up (i : Inode) : ℕ := (i.ents[1]?).elim 0 (·.inum)

/-- The entries behind the dots of the directory `d` that name `x`. -/
def Tree.names (τ : Tree) (d x : ℕ) : ℕ := if (τ d).type = .dir then named (τ d).ents x else 0

def Tree.namedBy (τ : Tree) (x : ℕ) : ℕ := ∑ d ∈ Finset.range NINODES, τ.names d x

def Tree.subdirs (τ : Tree) (d : ℕ) : ℕ :=
  ∑ c ∈ Finset.range NINODES, if (τ c).type = .dir then τ.names d c else 0

/-- The links that `x` needs: its names, the `..` of its subdirectories, and for the root its own `..`. -/
def Tree.held (τ : Tree) (x : ℕ) : ℕ := τ.namedBy x + τ.subdirs x + if x = ROOTINO then 1 else 0

section Count

variable {τ : Tree} {d x : ℕ}

theorem names_of_dir (h : (τ d).type = .dir) : τ.names d x = named (τ d).ents x := if_pos h

theorem names_of_not_dir (h : (τ d).type ≠ .dir) : τ.names d x = 0 := if_neg h

theorem dir_of_names (h : τ.names d x ≠ 0) : (τ d).type = .dir := by
  by_contra hd
  exact h (names_of_not_dir hd)

theorem names_congr {τ' : Tree} (h : τ' d = τ d) : τ'.names d x = τ.names d x := by rw [Tree.names, Tree.names, h]

theorem names_le_namedBy (τ : Tree) (x : ℕ) (hd : d < NINODES) : τ.names d x ≤ τ.namedBy x :=
  Finset.single_le_sum (f := fun e => τ.names e x) (fun _ _ => Nat.zero_le _) (Finset.mem_range.mpr hd)

theorem names_le_subdirs (hx : x < NINODES) (ht : (τ x).type = .dir) : τ.names d x ≤ τ.subdirs d := by
  have h := Finset.single_le_sum (f := fun c => if (τ c).type = .dir then τ.names d c else 0)
    (fun _ _ => Nat.zero_le _) (Finset.mem_range.mpr hx)
  rw [if_pos ht] at h
  exact h

end Count

/-! ## The dots -/

/-- The directory `d` begins with `.` and `..`. -/
def Inode.Dots (i : Inode) (d : ℕ) : Prop := ∃ u, i.ents.take 2 = [⟨d, dot⟩, ⟨u, dotdot⟩] ∧ u ≠ 0

section Dots

variable {i j : Inode} {d k : ℕ}

theorem Inode.up_congr (h : j.ents.take 2 = i.ents.take 2) : j.up = i.up := by
  have hget : ∀ l : List Dirent, l[1]? = (l.take 2)[1]? := fun l => by rw [List.getElem?_take]; rfl
  rw [Inode.up, Inode.up, hget i.ents, hget j.ents, h]

theorem Inode.Dots.congr (hi : i.Dots d) (h : j.ents.take 2 = i.ents.take 2) : j.Dots d := by
  rwa [Inode.Dots, h]

theorem Inode.Dots.ents (h : i.Dots d) : ∃ rest, i.ents = ⟨d, dot⟩ :: ⟨i.up, dotdot⟩ :: rest ∧ i.up ≠ 0 := by
  obtain ⟨u, he, hu⟩ := h
  have hcons : i.ents = ⟨d, dot⟩ :: ⟨u, dotdot⟩ :: i.ents.drop 2 := by
    have h := List.take_append_drop 2 i.ents
    rw [he] at h
    exact h.symm
  have hup : i.up = u := by
    rw [Inode.up, hcons]
    rfl
  exact ⟨i.ents.drop 2, by rw [hup]; exact hcons, by rwa [hup]⟩

theorem Inode.Dots.freeSlot (h : i.Dots d) (hd : d ≠ 0) : 2 ≤ freeSlot i.ents := by
  obtain ⟨rest, he, hu⟩ := h.ents
  rw [he]
  exact two_le_freeSlot hd hu

theorem take_put {es : List Dirent} {de : Dirent} (hk : 2 ≤ k) (hl : 2 ≤ es.length) :
    (put es k de).take 2 = es.take 2 := by
  unfold put
  split_ifs
  · rw [List.take_set_of_le hk]
  · rw [List.take_append_of_le_length hl]

end Dots

/-! ## The operations -/

/-- An inode given back: `itrunc` and `type = 0`. -/
def Inode.freed (i : Inode) : Inode := { i with type := .free, ents := [] }

def Inode.addLink (i : Inode) : Inode := { i with nlink := i.nlink + 1 }

def Inode.dropLink (i : Inode) : Inode := { i with nlink := i.nlink - 1 }

def Tree.free (τ : Tree) (x : ℕ) : Tree := update τ x (τ x).freed

/-- The inode that `create` writes: a directory has its dots. -/
def newInode (d x : ℕ) (kind : Kind) (major minor : BitVec 16) : Inode :=
  ⟨kind, major, minor, 1, if kind = .dir then [⟨x, dot⟩, ⟨d, dotdot⟩] else []⟩

/-- A directory with a new entry; a new subdirectory names it in its `..`. -/
def Inode.enter (i : Inode) (name : Name) (x : ℕ) (kind : Kind) : Inode :=
  { i with nlink := i.nlink + (if kind = .dir then 1 else 0), ents := put i.ents (freeSlot i.ents) ⟨x, name⟩ }

/-- Make the inode `x` under a new name in `d`. -/
def Tree.make (τ : Tree) (d : ℕ) (name : Name) (x : ℕ) (kind : Kind) (major minor : BitVec 16) : Tree :=
  update (update τ x (newInode d x kind major minor)) d ((τ d).enter name x kind)

/-- Give the file `x` a new name in `d`. -/
def Tree.link (τ : Tree) (d : ℕ) (name : Name) (x : ℕ) : Tree :=
  update (update τ x (τ x).addLink) d ((τ d).enter name x .file)

/-- A directory without its entry at `k`, which names an inode of the given kind. -/
def Inode.leave (i : Inode) (k : ℕ) (kind : Kind) : Inode :=
  { i with nlink := i.nlink - (if kind = .dir then 1 else 0), ents := i.ents.set k .zero }

/-- Take the entry at `k`, which names `x`, out of `d`. -/
def Tree.remove (τ : Tree) (d k x : ℕ) : Tree :=
  update (update τ d ((τ d).leave k (τ x).type)) x (τ x).dropLink

/-! ## One entry more -/

/-- `τ'` has the entries and links of `τ` and one entry more, for `x` in `d`. -/
structure Entry (τ τ' : Tree) (d x : ℕ) : Prop where
  names : ∀ e y, y ≠ 0 → τ'.names e y = τ.names e y + if e = d ∧ x = y then 1 else 0
  nlink : ∀ e, (τ' e).nlink =
    (τ e).nlink + (if x = e then 1 else 0) + if (τ' x).type = .dir ∧ d = e then 1 else 0
  type : ∀ c, c ≠ x → (τ' c).type = (τ c).type
  head : ∀ c, c ≠ x → (τ' c).ents.take 2 = (τ c).ents.take 2
  /-- the target may be new, and nothing names it then -/
  target : (τ' x).type = (τ x).type ∨ ∀ e, τ.names e x = 0

namespace Entry

variable {τ τ' : Tree} {d x y : ℕ}

theorem namedBy (h : Entry τ τ' d x) (hd : d < NINODES) (hy : y ≠ 0) :
    τ'.namedBy y = τ.namedBy y + if x = y then 1 else 0 := by
  have hsum := sum_change (S := Finset.range NINODES) (f := fun e => τ.names e y) (g := fun e => τ'.names e y)
    (.inl (Finset.mem_range.mpr hd)) fun e he => by rw [h.names e y hy, if_neg fun hh => he hh.1, Nat.add_zero]
  have hdy := h.names d y hy
  simp only [true_and] at hdy
  unfold Tree.namedBy
  omega

theorem subdirs (h : Entry τ τ' d x) (hz : (τ 0).type ≠ .dir) (hx : x ≠ 0) (hb : (τ' x).type = .dir → x < NINODES) :
    τ'.subdirs y = τ.subdirs y + if (τ' x).type = .dir ∧ d = y then 1 else 0 := by
  have hat : (if (τ' x).type = .dir then τ'.names y x else 0) =
      (if (τ x).type = .dir then τ.names y x else 0) + if (τ' x).type = .dir ∧ d = y then 1 else 0 := by
    have hyx := h.names y x hx
    simp only [and_true, eq_comm (a := y)] at hyx
    rcases h.target with ht | ht
    · rw [ht]
      by_cases hdir : (τ x).type = .dir
      · simp only [hdir, if_true, true_and]
        exact hyx
      · simp [hdir]
    · rw [ht y] at hyx ⊢
      by_cases hdir : (τ' x).type = .dir
      · simpa [hdir] using hyx
      · simp [hdir]
  have hother : ∀ c, c ≠ x →
      (if (τ' c).type = .dir then τ'.names y c else 0) = if (τ c).type = .dir then τ.names y c else 0 := by
    intro c hc
    rw [h.type c hc]
    split_ifs with hdir
    · have hc0 : c ≠ 0 := fun h0 => hz (h0 ▸ hdir)
      rw [h.names y c hc0, if_neg fun hh => hc hh.2.symm, Nat.add_zero]
    · rfl
  have hmem : x ∈ Finset.range NINODES ∨ (if (τ x).type = .dir then τ.names y x else 0) =
      if (τ' x).type = .dir then τ'.names y x else 0 := by
    by_cases hdir : (τ' x).type = .dir
    · exact .inl (Finset.mem_range.mpr (hb hdir))
    · exact .inr (by rw [hat]; simp [hdir])
  have hsum := sum_change (S := Finset.range NINODES) (f := fun c => if (τ c).type = .dir then τ.names y c else 0)
    (g := fun c => if (τ' c).type = .dir then τ'.names y c else 0) hmem hother
  unfold Tree.subdirs
  omega

/-- **Links and names keep their difference.** -/
theorem balance (h : Entry τ τ' d x) (hd : d < NINODES) (hz : (τ 0).type ≠ .dir) (hx : x ≠ 0)
    (hb : (τ' x).type = .dir → x < NINODES) (hy : y ≠ 0) :
    (τ' y).nlink - τ'.held y = (τ y).nlink - τ.held y := by
  have h1 := h.namedBy hd hy
  have h2 := h.subdirs (y := y) hz hx hb
  have h3 := h.nlink y
  unfold Tree.held
  split_ifs at h1 h2 h3 ⊢ <;> push_cast <;> omega

end Entry

/-! ## The shape -/

/-- **The shape of the tree.** -/
structure Shape (τ : Tree) : Prop where
  root : (τ ROOTINO).type = .dir ∧ (τ ROOTINO).up = ROOTINO
  /-- directories are inodes that `ialloc` hands out -/
  bound : ∀ d, (τ d).type = .dir → d ≠ 0 ∧ d < NINODES
  dots : ∀ d, (τ d).type = .dir → (τ d).Dots d
  zero : (τ 0).type = .free
  unused : ∀ x, (τ x).type = .free → (τ x).nlink = 0
  /-- a directory is named once behind the dots, by its parent -/
  child : ∀ d c, (τ c).type = .dir → τ.names d c ≠ 0 →
    d ≠ c ∧ c ≠ ROOTINO ∧ (τ c).up = d ∧ τ.names d c = 1
  exact : ∀ x, (τ x).type = .dir → (τ x).nlink = τ.held x
  enough : ∀ x, x ≠ 0 → (τ.held x : ℤ) ≤ (τ x).nlink

namespace Shape

variable {τ : Tree} {d x : ℕ}

theorem zero_not_dir (h : Shape τ) : (τ 0).type ≠ .dir := by
  rw [h.zero]
  decide

theorem nlink_nonneg (h : Shape τ) (hx : x ≠ 0) : 0 ≤ (τ x).nlink := by
  have := h.enough x hx
  omega

theorem names_le_nlink (h : Shape τ) (hx : x ≠ 0) : (τ.names d x : ℤ) ≤ (τ x).nlink := by
  by_cases hd : (τ d).type = .dir
  · have h1 := names_le_namedBy τ x (h.bound d hd).2
    have h2 := h.enough x hx
    unfold Tree.held at h2
    omega
  · rw [names_of_not_dir hd]
    exact h.nlink_nonneg hx

theorem names_eq_zero (h : Shape τ) (hx : x ≠ 0) (hl : (τ x).nlink = 0) : τ.names d x = 0 := by
  have := h.names_le_nlink (d := d) hx
  omega

theorem names_free (h : Shape τ) (hx : x ≠ 0) (hf : (τ x).type = .free) : τ.names d x = 0 :=
  h.names_eq_zero hx (h.unused x hf)

theorem used_of_names (h : Shape τ) (hx : x ≠ 0) (hn : τ.names d x ≠ 0) : (τ x).type ≠ .free :=
  fun hf => hn (h.names_free hx hf)

theorem nlink_pos_of_child (h : Shape τ) (hx : (τ x).type = .dir) (hn : τ.names d x ≠ 0) : 0 < (τ d).nlink := by
  have hd := dir_of_names hn
  have h1 := names_le_subdirs (d := d) (h.bound x hx).2 hx
  have h2 := h.exact d hd
  unfold Tree.held at h2
  omega

theorem root_linked (h : Shape τ) : 0 < (τ ROOTINO).nlink := by
  have := h.exact ROOTINO h.root.1
  unfold Tree.held at this
  rw [if_pos rfl] at this
  omega

end Shape

/-- **One entry more**, for a new inode or for one that is no directory. -/
theorem Shape.add {τ τ' : Tree} {d x : ℕ} (h : Shape τ) (he : Entry τ τ' d x) (hd : (τ d).type = .dir) (hx : x ≠ 0)
    (hne : x ≠ d) (hold : (τ x).type ≠ .dir) (hused : (τ' x).type ≠ .free)
    (hnew : (τ' x).type = .dir → (τ x).type = .free ∧ x < NINODES ∧ (τ' x).Dots x ∧ (τ' x).up = d) : Shape τ' where
  root := by
    have hr : ROOTINO ≠ x := fun hr => hold (hr ▸ h.root.1)
    rw [he.type _ hr, Inode.up_congr (he.head _ hr)]
    exact h.root
  bound e hdir := by
    by_cases hex : e = x
    · subst hex
      exact ⟨hx, (hnew hdir).2.1⟩
    · exact h.bound e (by rwa [he.type e hex] at hdir)
  dots e hdir := by
    by_cases hex : e = x
    · subst hex
      exact (hnew hdir).2.2.1
    · exact (h.dots e (by rwa [he.type e hex] at hdir)).congr (he.head e hex)
  zero := by
    rw [he.type 0 hx.symm]
    exact h.zero
  unused e hf := by
    have hex : e ≠ x := fun hex => hused (hex ▸ hf)
    rw [he.type e hex] at hf
    have hed : d ≠ e := fun hed => by rw [← hed, hd] at hf; cases hf
    rw [he.nlink, if_neg (Ne.symm hex), if_neg fun hh => hed hh.2, h.unused e hf]
    rfl
  child e c hdir hn := by
    by_cases hcx : c = x
    · subst hcx
      obtain ⟨hfree, -, -, hup⟩ := hnew hdir
      -- only the new entry names the new directory
      rw [he.names e c hx, h.names_free hx hfree] at hn ⊢
      have hed : e = d := by
        by_contra hed
        exact hn (by rw [if_neg fun hh => hed hh.1])
      subst hed
      exact ⟨hne.symm, fun hr => hold (hr ▸ h.root.1), hup, by simp⟩
    · rw [he.type c hcx] at hdir
      rw [he.names e c (h.bound c hdir).1, if_neg fun hh => hcx hh.2.symm, Nat.add_zero] at hn ⊢
      rw [Inode.up_congr (he.head c hcx)]
      exact h.child e c hdir hn
  exact e hdir := by
    have hb := he.balance (h.bound d hd).2 h.zero_not_dir hx (fun hh => (hnew hh).2.1) (y := e)
    by_cases hex : e = x
    · subst hex
      have h1 := h.unused e (hnew hdir).1
      have h2 := h.enough e hx
      have h3 := hb hx
      omega
    · rw [he.type e hex] at hdir
      have h1 := h.exact e hdir
      have h2 := hb (h.bound e hdir).1
      omega
  enough e he0 := by
    have hb := he.balance (h.bound d hd).2 h.zero_not_dir hx (fun hh => (hnew hh).2.1) he0
    have := h.enough e he0
    omega

theorem Shape.names_enter {τ τ' : Tree} {d x y : ℕ} {name : Name} (h : Shape τ) (hd : (τ d).type = .dir)
    (ht : (τ' d).type = .dir) (he : (τ' d).ents = put (τ d).ents (freeSlot (τ d).ents) ⟨x, name⟩) (hy : y ≠ 0) :
    τ'.names d y = τ.names d y + if x = y then 1 else 0 := by
  rw [names_of_dir hd, names_of_dir ht, he]
  exact named_put ((h.dots d hd).freeSlot (h.bound d hd).1) hy

theorem Shape.head_enter {τ : Tree} {d : ℕ} {de : Dirent} (h : Shape τ) (hd : (τ d).type = .dir) :
    (put (τ d).ents (freeSlot (τ d).ents) de).take 2 = (τ d).ents.take 2 := by
  have hslot := (h.dots d hd).freeSlot (h.bound d hd).1
  exact take_put hslot (Nat.le_trans hslot List.findIdx_le_length)

section Make

variable {τ : Tree} {d x : ℕ} {name : Name} {kind : Kind} {major minor : BitVec 16}

theorem make_dir : τ.make d name x kind major minor d = (τ d).enter name x kind := update_self ..

theorem make_new (h : x ≠ d) : τ.make d name x kind major minor x = newInode d x kind major minor := by
  rw [Tree.make, update_of_ne h, update_self]

theorem make_other {e : ℕ} (hd : e ≠ d) (hx : e ≠ x) : τ.make d name x kind major minor e = τ e := by
  rw [Tree.make, update_of_ne hd, update_of_ne hx]

theorem newInode_ents (h : (newInode d x kind major minor).type = .dir) :
    (newInode d x kind major minor).ents = [⟨x, dot⟩, ⟨d, dotdot⟩] := if_pos h

theorem newInode_up (h : (newInode d x kind major minor).type = .dir) : (newInode d x kind major minor).up = d := by
  rw [Inode.up, newInode_ents h]
  rfl

/-- The inode `x` can be made in the directory `d`. -/
structure CanMake (τ : Tree) (d x : ℕ) (kind : Kind) : Prop where
  dir : (τ d).type = .dir
  unused : (τ x).type = .free
  pos : x ≠ 0
  bound : x < NINODES
  used : kind ≠ .free

theorem CanMake.ne (hc : CanMake τ d x kind) : x ≠ d := by
  rintro rfl
  have h1 := hc.dir
  rw [hc.unused] at h1
  cases h1

theorem Shape.entry_make (h : Shape τ) (hc : CanMake τ d x kind) :
    Entry τ (τ.make d name x kind major minor) d x where
  names e y hy := by
    by_cases hed : e = d
    · subst hed
      simp only [true_and]
      exact h.names_enter hc.dir (by rw [make_dir]; exact hc.dir) (by rw [make_dir]; rfl) hy
    rw [if_neg fun hh => hed hh.1, Nat.add_zero]
    by_cases hex : e = x
    · subst hex
      rw [show τ.names e y = 0 from names_of_not_dir (by rw [hc.unused]; decide), Tree.names, make_new hc.ne]
      by_cases hk : kind = .dir
      · simp [newInode, named, hk]
      · simp [newInode, hk]
    · exact names_congr (make_other hed hex)
  nlink e := by
    rw [make_new hc.ne, show (newInode d x kind major minor).type = kind from rfl]
    by_cases hed : e = d
    · subst hed
      rw [make_dir, if_neg hc.ne]
      simp [Inode.enter]
    by_cases hex : e = x
    · subst hex
      simp [make_new hc.ne, h.unused e hc.unused, newInode, Ne.symm hed]
    · rw [make_other hed hex, if_neg (Ne.symm hex), if_neg fun hh => hed hh.2.symm]
      simp
  type c hcx := by
    by_cases hcd : c = d
    · rw [hcd, make_dir]
      rfl
    · rw [make_other hcd hcx]
  head c hcx := by
    by_cases hcd : c = d
    · rw [hcd, make_dir]
      exact h.head_enter hc.dir
    · rw [make_other hcd hcx]
  target := .inr fun e => h.names_free hc.pos hc.unused

/-- **A new inode** keeps the shape. -/
theorem Shape.make (h : Shape τ) (hc : CanMake τ d x kind) : Shape (τ.make d name x kind major minor) := by
  refine h.add (h.entry_make hc) hc.dir hc.pos hc.ne (by rw [hc.unused]; decide) ?_ fun hk => ?_
  · rw [make_new hc.ne]
    exact hc.used
  · rw [make_new hc.ne] at hk ⊢
    exact ⟨hc.unused, hc.bound, ⟨d, by rw [newInode_ents hk]; rfl, (h.bound d hc.dir).1⟩, newInode_up hk⟩

end Make

section Link

variable {τ : Tree} {d x : ℕ} {name : Name}

/-- The file `x` can be given a name in the directory `d`. -/
structure CanLink (τ : Tree) (d x : ℕ) : Prop where
  dir : (τ d).type = .dir
  file : (τ x).type ≠ .dir
  used : (τ x).type ≠ .free
  pos : x ≠ 0

theorem CanLink.ne (hc : CanLink τ d x) : x ≠ d := by
  rintro rfl
  exact hc.file hc.dir

theorem link_dir : τ.link d name x d = (τ d).enter name x .file := update_self ..

theorem link_file (h : x ≠ d) : τ.link d name x x = (τ x).addLink := by
  rw [Tree.link, update_of_ne h, update_self]

theorem link_other {e : ℕ} (hd : e ≠ d) (hx : e ≠ x) : τ.link d name x e = τ e := by
  rw [Tree.link, update_of_ne hd, update_of_ne hx]

theorem link_type (hc : CanLink τ d x) (e : ℕ) : (τ.link d name x e).type = (τ e).type := by
  by_cases hed : e = d
  · rw [hed, link_dir]
    rfl
  by_cases hex : e = x
  · rw [hex, link_file hc.ne]
    rfl
  · rw [link_other hed hex]

theorem Shape.entry_link (h : Shape τ) (hc : CanLink τ d x) : Entry τ (τ.link d name x) d x where
  names e y hy := by
    by_cases hed : e = d
    · subst hed
      simp only [true_and]
      exact h.names_enter hc.dir (by rw [link_dir]; exact hc.dir) (by rw [link_dir]; rfl) hy
    rw [if_neg fun hh => hed hh.1, Nat.add_zero]
    by_cases hex : e = x
    · subst hex
      rw [names_of_not_dir hc.file, names_of_not_dir (by rw [link_type hc]; exact hc.file)]
    · exact names_congr (link_other hed hex)
  nlink e := by
    rw [link_type hc]
    by_cases hed : e = d
    · subst hed
      simp [link_dir, Inode.enter, hc.ne, hc.file]
    by_cases hex : e = x
    · subst hex
      simp [link_file hc.ne, Inode.addLink, hc.file]
    · simp [link_other hed hex, Ne.symm hex, hc.file]
  type c _ := link_type hc c
  head c hcx := by
    by_cases hcd : c = d
    · rw [hcd, link_dir]
      exact h.head_enter hc.dir
    · rw [link_other hcd hcx]
  target := .inl (link_type hc x)

/-- **A new name of a file** keeps the shape. -/
theorem Shape.link (h : Shape τ) (hc : CanLink τ d x) : Shape (τ.link d name x) := by
  refine h.add (h.entry_link hc) hc.dir hc.pos hc.ne hc.file ?_ fun hdir => ?_
  · rw [link_type hc]
    exact hc.used
  · rw [link_type hc] at hdir
    exact absurd hdir hc.file

end Link

section Remove

variable {τ : Tree} {d k x : ℕ}

/-- The entry at `k` of the directory `d`, which names `x`, can be taken out. -/
structure CanRemove (τ : Tree) (d k x : ℕ) : Prop where
  dir : (τ d).type = .dir
  behind : 2 ≤ k
  entry : ∃ de, (τ d).ents[k]? = some de ∧ de.inum = x
  pos : x ≠ 0
  linked : 1 ≤ (τ x).nlink
  empty : (τ x).type = .dir → ∀ c, c ≠ 0 → τ.names x c = 0

theorem CanRemove.names (hc : CanRemove τ d k x) : τ.names d x ≠ 0 := by
  obtain ⟨de, hde, hx⟩ := hc.entry
  have := named_clear hc.behind hde hc.pos
  rw [if_pos hx] at this
  rw [names_of_dir hc.dir]
  omega

theorem CanRemove.ne (hc : CanRemove τ d k x) : x ≠ d := by
  rintro rfl
  exact hc.names (hc.empty hc.dir x hc.pos)

theorem remove_dir (h : x ≠ d) : τ.remove d k x d = (τ d).leave k (τ x).type := by
  rw [Tree.remove, update_of_ne h.symm, update_self]

theorem remove_self : τ.remove d k x x = (τ x).dropLink := update_self ..

theorem remove_other {e : ℕ} (hd : e ≠ d) (hx : e ≠ x) : τ.remove d k x e = τ e := by
  rw [Tree.remove, update_of_ne hx, update_of_ne hd]

theorem remove_type (hc : CanRemove τ d k x) (e : ℕ) : (τ.remove d k x e).type = (τ e).type := by
  by_cases hex : e = x
  · rw [hex, remove_self]
    rfl
  by_cases hed : e = d
  · rw [hed, remove_dir hc.ne]
    rfl
  · rw [remove_other hed hex]

theorem remove_head (hc : CanRemove τ d k x) (e : ℕ) : (τ.remove d k x e).ents.take 2 = (τ e).ents.take 2 := by
  by_cases hex : e = x
  · rw [hex, remove_self]
    rfl
  by_cases hed : e = d
  · rw [hed, remove_dir hc.ne]
    exact List.take_set_of_le hc.behind
  · rw [remove_other hed hex]

theorem entry_remove (hc : CanRemove τ d k x) : Entry (τ.remove d k x) τ d x where
  names e y hy := by
    by_cases hed : e = d
    · subst hed
      obtain ⟨de, hde, hdx⟩ := hc.entry
      have h1 := named_clear hc.behind hde hy
      rw [names_of_dir hc.dir, names_of_dir (by rw [remove_type hc]; exact hc.dir), remove_dir hc.ne]
      simp only [true_and]
      rw [hdx] at h1
      exact h1.symm
    rw [if_neg fun hh => hed hh.1, Nat.add_zero]
    by_cases hex : e = x
    · subst hex
      rw [Tree.names, Tree.names, remove_self]
      rfl
    · exact (names_congr (remove_other hed hex)).symm
  nlink e := by
    by_cases hex : e = x
    · subst hex
      rw [remove_self, if_pos rfl, if_neg fun hh => hc.ne hh.2.symm]
      simp [Inode.dropLink]
    by_cases hed : e = d
    · subst hed
      rw [remove_dir hc.ne, if_neg hc.ne]
      simp [Inode.leave]
    · rw [remove_other hed hex, if_neg (Ne.symm hex), if_neg fun hh => hed hh.2.symm]
      simp
  type c _ := (remove_type hc c).symm
  head c _ := (remove_head hc c).symm
  target := .inl (remove_type hc x).symm

/-- **An entry taken out** keeps the shape. -/
theorem Shape.remove (h : Shape τ) (hc : CanRemove τ d k x) : Shape (τ.remove d k x) where
  root := by
    rw [remove_type hc, Inode.up_congr (remove_head hc _)]
    exact h.root
  bound e he := h.bound e (by rwa [remove_type hc] at he)
  dots e he := (h.dots e (by rwa [remove_type hc] at he)).congr (remove_head hc e)
  zero := (remove_type hc 0).trans h.zero
  unused e he := by
    rw [remove_type hc] at he
    have hed : e ≠ d := fun hed => by rw [hed, hc.dir] at he; cases he
    have hex : e ≠ x := by
      rintro rfl
      have h1 := h.unused e he
      have h2 := hc.linked
      omega
    rw [remove_other hed hex]
    exact h.unused e he
  child e c hdir hn := by
    rw [remove_type hc] at hdir
    have hnames := (entry_remove hc).names e c (h.bound c hdir).1
    obtain ⟨h1, h2, h3, h4⟩ := h.child e c hdir (by omega)
    exact ⟨h1, h2, by rw [Inode.up_congr (remove_head hc c)]; exact h3, by omega⟩
  exact e hdir := by
    rw [remove_type hc] at hdir
    have hb := (entry_remove hc).balance (h.bound d hc.dir).2 (by rw [remove_type hc]; exact h.zero_not_dir) hc.pos
      (fun hx => (h.bound x hx).2) (h.bound e hdir).1
    have := h.exact e hdir
    omega
  enough e he := by
    have hb := (entry_remove hc).balance (h.bound d hc.dir).2 (by rw [remove_type hc]; exact h.zero_not_dir) hc.pos
      (fun hx => (h.bound x hx).2) he
    have := h.enough e he
    omega

end Remove

section Free

variable {τ : Tree} {x : ℕ}

theorem free_self : τ.free x x = (τ x).freed := update_self ..

theorem free_other {e : ℕ} (h : e ≠ x) : τ.free x e = τ e := update_of_ne h ..

theorem free_nlink {e : ℕ} : (τ.free x e).nlink = (τ e).nlink := by
  by_cases hex : e = x
  · rw [hex, free_self]
    rfl
  · rw [free_other hex]

theorem free_dir {e : ℕ} (he : (τ.free x e).type = .dir) : e ≠ x := by
  rintro rfl
  rw [free_self] at he
  cases he

theorem free_names {e y : ℕ} : (τ.free x).names e y = if e = x then 0 else τ.names e y := by
  split_ifs with hex
  · rw [hex]
    exact names_of_not_dir (by rw [free_self]; simp [Inode.freed])
  · exact names_congr (free_other hex)

theorem Shape.no_subdirs (h : Shape τ) (hl : (τ x).nlink = 0) {c : ℕ} (hc : (τ c).type = .dir) : τ.names x c = 0 := by
  by_contra hn
  have := h.nlink_pos_of_child hc hn
  omega

theorem free_namedBy_le (τ : Tree) (x y : ℕ) : (τ.free x).namedBy y ≤ τ.namedBy y :=
  Finset.sum_le_sum fun e _ => by
    rw [free_names]
    split_ifs
    · exact Nat.zero_le _
    · exact Nat.le_refl _

theorem free_subdirs_le (τ : Tree) (x y : ℕ) : (τ.free x).subdirs y ≤ τ.subdirs y :=
  Finset.sum_le_sum fun c _ => by
    split_ifs with h1 h2
    · rw [free_names]
      split_ifs
      · exact Nat.zero_le _
      · exact Nat.le_refl _
    · exact absurd (by rwa [free_other (free_dir h1)] at h1) h2
    · exact Nat.zero_le _
    · exact Nat.le_refl _

theorem Shape.free_held (h : Shape τ) (hl : (τ x).nlink = 0) {y : ℕ} (hy : (τ y).type = .dir) (hyx : y ≠ x) :
    (τ.free x).held y = τ.held y := by
  have h1 : (τ.free x).namedBy y = τ.namedBy y := Finset.sum_congr rfl fun e _ => by
    rw [free_names]
    split_ifs with hex
    · rw [hex, h.no_subdirs hl hy]
    · rfl
  have h2 : (τ.free x).subdirs y = τ.subdirs y := Finset.sum_congr rfl fun c _ => by
    rw [free_names, if_neg hyx]
    by_cases hcx : c = x
    · subst hcx
      rw [free_self]
      split_ifs with h3 h4
      · cases h3
      · cases h3
      · rw [h.names_eq_zero (h.bound c ‹_›).1 hl]
      · rfl
    · rw [free_other hcx]
  rw [Tree.held, h1, h2]
  rfl

/-- **An inode without links given back** keeps the shape. -/
theorem Shape.free (h : Shape τ) (hl : (τ x).nlink = 0) : Shape (τ.free x) where
  root := by
    have hr : ROOTINO ≠ x := by
      rintro rfl
      have := h.root_linked
      omega
    rw [free_other hr]
    exact h.root
  bound e he := h.bound e (by rwa [free_other (free_dir he)] at he)
  dots e he := by
    have hex := free_dir he
    rw [free_other hex] at he ⊢
    exact h.dots e he
  zero := by
    by_cases hx : 0 = x
    · rw [hx, free_self]
      rfl
    · rw [free_other hx]
      exact h.zero
  unused e he := by
    rw [free_nlink]
    by_cases hex : e = x
    · rw [hex]
      exact hl
    · rw [free_other hex] at he
      exact h.unused e he
  child e c hc hn := by
    have hcx := free_dir hc
    rw [free_other hcx] at hc ⊢
    rw [free_names] at hn ⊢
    split_ifs at hn ⊢ with hex
    · exact absurd rfl hn
    · exact h.child e c hc hn
  exact e he := by
    have hex := free_dir he
    rw [free_other hex] at he
    rw [free_nlink, h.free_held hl he hex]
    exact h.exact e he
  enough e he := by
    have h1 := free_namedBy_le τ x e
    have h2 := free_subdirs_le τ x e
    have h3 := h.enough e he
    rw [free_nlink]
    unfold Tree.held at h3 ⊢
    omega

end Free

end Xv6.Fs
