import Xv6.Fs.Run

/-!
# Path resolution

`components path` are the maximal runs of characters other than `/` in a path, each cut to `DIRSIZ`; they are what
`skipelem` cuts off (`elements_eq`). `Tree.resolve` looks names up one after the other.
-/

namespace Xv6.Fs

open Lib

/-! ## The elements of a path -/

/-- The maximal runs of characters other than `/`, each cut to `DIRSIZ`. -/
def components (path : List Char) : List Name :=
  ((path.splitOnP (· = '/')).filter (· ≠ [])).map (·.take DIRSIZ)

theorem components_slash (path : List Char) : components ('/' :: path) = components path := by
  rw [components, components, List.splitOnP_cons_eq_if_modifyHead, if_pos (by simp)]
  rfl

theorem components_dropWhile (path : List Char) : components (path.dropWhile (· = '/')) = components path := by
  induction path with
  | nil => rfl
  | cons c path ih =>
    by_cases hc : c = '/'
    · rw [List.dropWhile_cons_of_pos (by simpa using hc), ih, hc, components_slash]
    · rw [List.dropWhile_cons_of_neg (by simpa using hc)]

theorem components_run {run rest : List Char} (hne : run ≠ []) (hrun : ∀ c ∈ run, c ≠ '/')
    (hrest : rest = [] ∨ rest.head? = some '/') : components (run ++ rest) = run.take DIRSIZ :: components rest := by
  have hno : ∀ c ∈ run, decide (c = '/') = false := fun c hc => by simpa using hrun c hc
  rcases hrest with rfl | hhead
  · rw [List.append_nil, components, List.splitOnP_eq_singleton hno]
    simp [components, hne]
  · obtain ⟨rest, rfl⟩ : ∃ l, rest = '/' :: l := by
      cases rest with
      | nil => simp at hhead
      | cons c l => exact ⟨l, by simpa using hhead⟩
    rw [components_slash, components, List.splitOnP_append_cons_of_forall_mem hno _ (by simp), components]
    simp [hne]

theorem components_skipelem {path rest : List Char} {name : Name} (h : skipelem path = some (name, rest)) :
    components path = name :: components rest := by
  unfold skipelem at h
  split at h
  · cases h
  · rename_i c cs hd
    have hc : c ≠ '/' := by
      have := List.head?_dropWhile_not (· = '/') path
      simpa [hd] using this
    obtain ⟨rfl, rfl⟩ := Prod.mk.inj (Option.some_inj.mp h)
    rw [← components_dropWhile path, hd, components_dropWhile]
    have hsplit := List.takeWhile_append_dropWhile (p := (· ≠ '/')) (l := c :: cs)
    conv_lhs => rw [← hsplit]
    refine components_run ?_ (fun x hx => by simpa using List.mem_takeWhile_imp hx) ?_
    · rw [List.takeWhile_cons_of_pos (by simpa using hc)]
      exact List.cons_ne_nil _ _
    · cases hr : (c :: cs).dropWhile (· ≠ '/') with
      | nil => exact .inl rfl
      | cons x l =>
        right
        have := List.head?_dropWhile_not (· ≠ '/') (c :: cs)
        rw [hr] at this
        simpa using this

theorem components_none {path : List Char} (h : skipelem path = none) : components path = [] := by
  unfold skipelem at h
  split at h
  · rename_i hd
    rw [← components_dropWhile, hd]
    rfl
  · cases h

/-- **`skipelem` cuts off the runs.** -/
theorem elements_eq (path : List Char) : elements path = components path := by
  induction hn : path.length using Nat.strong_induction_on generalizing path with
  | _ n ih =>
    cases hs : skipelem path with
    | none => rw [elements_of_none hs, components_none hs]
    | some r =>
      have hlt : r.2.length < path.length := skipelem_length hs
      rw [elements_of_skipelem hs, components_skipelem hs, ih _ (hn ▸ hlt) _ rfl]

/-! ## Lookups -/

/-- One lookup: nothing in what is not a directory. -/
def Tree.lookup (τ : Tree) (ip : ℕ) (name : Name) : Option ℕ :=
  if (τ ip).type = .dir then (find name (τ ip).ents).map Prod.fst else none

/-- The names looked up one after the other. -/
def Tree.resolve (τ : Tree) (ip : ℕ) (names : List Name) : Option ℕ := names.foldlM τ.lookup ip

/-- The directory that the names but the last one lead to, and the last name. -/
def Tree.resolveParent (τ : Tree) (ip : ℕ) (names : List Name) : Option (ℕ × Name) := do
  let name ← names.getLast?
  let dp ← τ.resolve ip names.dropLast
  if (τ dp).type = .dir then some (dp, name) else none

theorem walk_eq_resolve {τ : Tree} {names : List Name} {ip : ℕ} :
    τ.walk false ip names = (τ.resolve ip names).map (·, []) := by
  induction names generalizing ip with
  | nil => rfl
  | cons name rest ih =>
    rw [Tree.walk, Tree.resolve, List.foldlM_cons, Tree.lookup]
    by_cases hdir : (τ ip).type = .dir
    · rw [if_neg (not_not.mpr hdir), if_pos hdir, Bool.false_and, if_neg (by simp)]
      cases hf : find name (τ ip).ents with
      | none => rfl
      | some r => exact ih
    · rw [if_pos hdir, if_neg hdir]
      rfl

theorem walk_eq_resolveParent {τ : Tree} {names : List Name} {ip : ℕ} :
    τ.walk true ip names = τ.resolveParent ip names := by
  induction names generalizing ip with
  | nil => rfl
  | cons name rest ih =>
    rw [Tree.walk]
    cases rest with
    | nil =>
      by_cases hdir : (τ ip).type = .dir
      · simp [Tree.resolveParent, Tree.resolve, hdir]
      · simp [Tree.resolveParent, Tree.resolve, hdir]
    | cons name' rest =>
      have hlast : (name :: name' :: rest).getLast? = (name' :: rest).getLast? := List.getLast?_cons_cons
      have hdrop : (name :: name' :: rest).dropLast = name :: (name' :: rest).dropLast := rfl
      rw [Tree.resolveParent, hlast, hdrop, Tree.resolve, List.foldlM_cons, Tree.lookup]
      by_cases hdir : (τ ip).type = .dir
      · rw [if_neg (not_not.mpr hdir), if_pos hdir, if_neg (by simp)]
        cases hf : find name (τ ip).ents with
        | none => simp
        | some r =>
          simp only
          rw [ih, Tree.resolveParent]
          rfl
      · rw [if_pos hdir, if_neg hdir]
        simp

/-! ## References during a lookup -/

/-- The state `t` in the middle of a call that began in `s`: it holds the references `held`, and the locks of `locked`. -/
structure Carry (s : State) (held locked : List ℕ) (t : State) : Prop extends Quiet s t where
  ref : ∀ x, (t.icache x).ref = (s.icache x).ref + held.count x
  busy : ∀ x, (t.icache x).busy = true ↔ x ∈ locked
  mine : ∀ x ∈ locked, x ∈ held

variable {s t : State} {held locked : List ℕ} {x : ℕ}

theorem Carry.cached_le (h : Carry s held locked t) : t.cached ≤ s.cached + held.length := by
  have hsplit : t.cached ≤ s.cached + (List.range NINODES).countP (· ∈ held) := by
    unfold State.cached
    generalize List.range NINODES = l
    induction l with
    | nil => simp
    | cons y l ih =>
      have href := h.ref y
      simp only [List.countP_cons, decide_eq_true_eq]
      by_cases hy : y ∈ held
      · rw [if_pos hy]
        split_ifs <;> omega
      · rw [List.count_eq_zero.mpr hy, Nat.add_zero] at href
        rw [href, if_neg hy]
        omega
  have hheld : (List.range NINODES).countP (· ∈ held) ≤ held.length := by
    rw [List.countP_eq_length_filter]
    refine (List.subperm_of_subset (List.nodup_range.filter _) fun y hy => ?_).length_le
    simpa using (List.mem_filter.mp hy).2
  omega

theorem Carry.setCached {held' locked' : List ℕ} {c : Cached} (h : Carry s held locked t)
    (href : c.ref = (s.icache x).ref + held'.count x) (hcount : ∀ y, y ≠ x → held'.count y = held.count y)
    (hbusy : c.busy = true ↔ x ∈ locked') (hlocked : ∀ y, y ≠ x → (y ∈ locked' ↔ y ∈ locked))
    (hmine : ∀ y ∈ locked', y ∈ held') : Carry s held' locked' (t.setCached x c) where
  toQuiet := h.toQuiet.trans quiet_setCached
  ref y := by
    by_cases hy : y = x
    · subst hy
      simpa [State.setCached] using href
    · simpa [State.setCached, hy, hcount y hy] using h.ref y
  busy y := by
    by_cases hy : y = x
    · subst hy
      simpa [State.setCached] using hbusy
    · simpa [State.setCached, hy, hlocked y hy] using h.busy y
  mine := hmine

variable {Q : ℕ → State → Prop} {R : Unit → State → Prop} {E : Stop → Prop}

theorem Carry.wp_iget (h : Carry s held locked t) (hroom : 0 < (t.icache x).ref ∨ t.cached < NINODE)
    (k : ∀ u, Carry s (x :: held) locked u → Q x u) : wp (iget x) Q E t := by
  have href := h.ref x
  unfold iget
  rw [wp_bind, wp_get]
  split_ifs with h1 h2
  · rw [wp_bind, wp_set, wp_pure]
    refine k _ (h.setCached (by simp only [List.count_cons_self]; omega) (fun y hy => ?_) (h.busy x) (fun _ _ => Iff.rfl) fun y hy =>
      List.mem_cons_of_mem _ (h.mine y hy))
    exact List.count_cons_of_ne (Ne.symm hy)
  · rw [wp_bind, wp_set, wp_pure]
    refine k _ (h.setCached (by simp only [List.count_cons_self]; omega) (fun y hy => ?_) ?_ (fun _ _ => Iff.rfl) fun y hy =>
      List.mem_cons_of_mem _ (h.mine y hy))
    · exact List.count_cons_of_ne (Ne.symm hy)
    · refine ⟨fun hb => absurd hb Bool.false_ne_true, fun hl => ?_⟩
      have := List.count_pos_iff.mpr (h.mine x hl)
      omega
  · exact absurd (hroom.resolve_left h1) h2

theorem Carry.wp_idup (h : Carry s held locked t) (k : ∀ u, Carry s (x :: held) locked u → Q x u) :
    wp (idup x) Q E t := by
  have href := h.ref x
  unfold idup
  rw [wp_bind, wp_get, wp_bind, wp_set, wp_pure]
  refine k _ (h.setCached (by simp only [List.count_cons_self]; omega) (fun y hy => ?_) (h.busy x) (fun _ _ => Iff.rfl) fun y hy =>
    List.mem_cons_of_mem _ (h.mine y hy))
  exact List.count_cons_of_ne (Ne.symm hy)

theorem Carry.wp_ilock (h : Carry s held locked t) (hx : x ∈ held) (hl : x ∉ locked) (ht : (s.inode x).type ≠ .free)
    (k : ∀ u, Carry s held (x :: locked) u → R () u) : wp (ilock x) R E t := by
  have href := h.ref x
  have hpos := List.count_pos_iff.mpr hx
  have hbusy : ¬ (t.icache x).busy = true := fun hb => hl ((h.busy x).mp hb)
  unfold ilock
  rw [wp_bind, wp_get, if_neg (by omega), if_neg hbusy, if_neg (by rw [h.inode]; exact fun hc => ht hc.2), wp_set]
  refine k _ (h.setCached href (fun _ _ => rfl) (by simp) (fun y hy => by simp [hy]) fun y hy => ?_)
  rcases List.mem_cons.mp hy with rfl | hy
  · exact hx
  · exact h.mine y hy

theorem Carry.wp_iunlock (h : Carry s held (x :: locked) t) (hl : x ∉ locked) (k : ∀ u, Carry s held locked u → R () u) :
    wp (iunlock x) R E t := by
  have href := h.ref x
  have hpos := List.count_pos_iff.mpr (h.mine x List.mem_cons_self)
  have hbusy : (t.icache x).busy = true := (h.busy x).mpr List.mem_cons_self
  unfold iunlock
  rw [wp_bind, wp_get, if_neg (by simp only [hbusy, not_true, false_or]; omega), wp_set]
  exact k _ (h.setCached href (fun _ _ => rfl) (by simpa using hl) (fun y hy => by simp [hy]) fun y hy =>
    h.mine y (List.mem_cons_of_mem _ hy))

theorem Carry.wp_iput (h : Carry s (x :: held) locked t) (hm : ∀ y ∈ locked, y ∈ held)
    (hx : (s.inode x).nlink = 0 → 0 < (s.icache x).ref) (k : ∀ u, Carry s held locked u → R () u) :
    wp (iput x) R E t := by
  have href := h.ref x
  rw [List.count_cons_self] at href
  have hkeep : ¬ ((t.icache x).ref = 1 ∧ (t.icache x).valid ∧ (t.inode x).nlink = 0) := by
    rintro ⟨hone, -, hn⟩
    rw [h.inode] at hn
    have := hx hn
    omega
  unfold iput
  rw [wp_bind, wp_get, if_neg hkeep, wp_set]
  refine k _ (h.setCached (by simp only; omega) (fun y hy => ?_) (h.busy x) (fun _ _ => Iff.rfl) hm)
  exact (List.count_cons_of_ne (Ne.symm hy)).symm

theorem Carry.swap {y : ℕ} (h : Carry s (x :: y :: held) locked t) : Carry s (y :: x :: held) locked t :=
  ⟨h.toQuiet, fun z => by rw [h.ref, List.Perm.count_eq (List.Perm.swap y x held)], h.busy, fun z hz =>
    (List.Perm.swap y x held).mem_iff.mp (h.mine z hz)⟩

theorem Carry.wp_iunlockput (h : Carry s (x :: held) (x :: locked) t) (hl : x ∉ locked) (hm : ∀ y ∈ locked, y ∈ held)
    (hx : (s.inode x).nlink = 0 → 0 < (s.icache x).ref) (k : ∀ u, Carry s held locked u → R () u) :
    wp (iunlockput x) R E t := by
  rw [iunlockput, wp_bind]
  exact h.wp_iunlock hl fun u hu => hu.wp_iput hm hx k

/-! ## `namex` -/

/-- An inode that a lookup may come to: it is allocated, and it has a link or is in use already. -/
def State.Solid (s : State) (x : ℕ) : Prop := (s.inode x).type ≠ .free ∧ ((s.inode x).nlink = 0 → 0 < (s.icache x).ref)

/-- A directory tree that nobody is changing: no inode is locked, and the root, the working directory and every entry
name inodes that are there. -/
structure Settled (s : State) (cwd : ℕ) : Prop where
  idle : ∀ x, (s.icache x).busy = false
  root : s.Solid ROOTINO
  cwd : s.Solid cwd
  entry : ∀ d de, (s.inode d).type = .dir → de ∈ (s.inode d).ents → de.inum ≠ 0 → s.Solid de.inum

theorem Settled.carry {cwd : ℕ} (h : Settled s cwd) : Carry s [] [] s :=
  ⟨.rfl, fun _ => rfl, fun x => by simp [h.idle x], nofun⟩

/-- **The loop of `namex`** returns. -/
theorem wp_namexFrom_room {cwd : ℕ} {parent : Bool} {P : Option (ℕ × Name) → State → Prop} (hs : Settled s cwd)
    (hroom : s.cached + 2 ≤ NINODE) : ∀ (fuel : ℕ) (t : State) (ip : ℕ) (path : List Char), path.length < fuel →
      Carry s [ip] [] t → s.Solid ip →
      (∀ u, Carry s (((s.inode.walk parent ip (elements path)).map Prod.fst).toList) [] u →
        P (s.inode.walk parent ip (elements path)) u) → wp (namexFrom parent fuel ip path) P E t
  | 0, _, _, _, hlen, _, _, _ => absurd hlen (Nat.not_lt_zero _)
  | fuel + 1, t, ip, path, hlen, h, hip, k => by
    unfold namexFrom
    cases hskip : skipelem path with
    | none =>
      rw [elements_of_none hskip] at k
      simp only
      by_cases hp : parent
      · rw [if_pos hp, wp_bind]
        refine h.wp_iput (List.forall_mem_nil _) hip.2 fun u hu => ?_
        simp only [Tree.walk, if_pos hp] at k
        exact k u hu
      · rw [if_neg hp, wp_pure]
        simp only [Tree.walk, if_neg hp] at k
        exact k t h
    | some r =>
      obtain ⟨name, rest⟩ := r
      have hrest := skipelem_length hskip
      rw [elements_of_skipelem hskip] at k
      simp only [Tree.walk, isEmpty_elements hskip] at k
      simp only
      rw [wp_bind]
      refine h.wp_ilock (List.mem_singleton_self ip) List.not_mem_nil hip.1 fun u hu => ?_
      rw [wp_bind, wp_get, hu.inode]
      by_cases hdir : (s.inode ip).type = .dir
      · rw [if_neg (not_not.mpr hdir)] at k ⊢
        by_cases hlast : (parent && rest.isEmpty) = true
        · -- stop one level early
          rw [if_pos hlast] at k ⊢
          rw [wp_bind]
          exact hu.wp_iunlock List.not_mem_nil fun v hv => k v hv
        · rw [if_neg hlast] at k ⊢
          rw [wp_bind, dirlookup, wp_bind, wp_get, hu.inode, if_neg (not_not.mpr hdir)]
          cases hf : find name (s.inode ip).ents with
          | none =>
            rw [hf] at k
            simp only at k ⊢
            rw [wp_pure, wp_bind]
            exact hu.wp_iunlockput List.not_mem_nil (List.forall_mem_nil _) hip.2 fun w hw => k w hw
          | some r =>
            obtain ⟨next, off⟩ := r
            rw [hf] at k
            simp only at k ⊢
            obtain ⟨de, hde, hinum, hne, -⟩ := find_some hf
            have hnext : s.Solid next := hinum ▸ hs.entry ip de hdir (List.mem_of_getElem? hde) (hinum ▸ hne)
            have hle : u.cached ≤ s.cached + 1 := hu.cached_le
            rw [wp_bind]
            refine hu.wp_iget (.inr (by omega)) fun v hv => ?_
            rw [wp_pure]
            simp only
            rw [wp_bind]
            refine hv.swap.wp_iunlockput List.not_mem_nil (List.forall_mem_nil _) hip.2 fun w hw => ?_
            exact wp_namexFrom_room hs hroom fuel w next rest (by omega) hw hnext k
      · rw [if_pos hdir] at k ⊢
        rw [wp_bind]
        exact hu.wp_iunlockput List.not_mem_nil (List.forall_mem_nil _) hip.2 fun w hw => k w hw

/-- The inode at which the lookup of a path starts. -/
def startOf (cwd : ℕ) (path : List Char) : ℕ := if path.head? = some '/' then ROOTINO else cwd

theorem wp_namex_room {cwd : ℕ} {parent : Bool} {p : Slot} {path : List Char} (hs : Settled s cwd)
    (hcwd : (s.proc p).cwd = some cwd) (hroom : s.cached + 2 ≤ NINODE) :
    wp (namex p path parent) (fun r t => r = s.inode.walk parent (startOf cwd path) (components path) ∧
      Carry s (r.map Prod.fst).toList [] t) E s := by
  have key : ∀ (ip : ℕ) (t : State), startOf cwd path = ip → s.Solid ip → Carry s [ip] [] t →
      wp (namexFrom parent (path.length + 1) ip path) (fun r t =>
        r = s.inode.walk parent (startOf cwd path) (components path) ∧ Carry s (r.map Prod.fst).toList [] t) E t := by
    rintro ip t rfl hip ht
    refine wp_namexFrom_room hs hroom _ t _ path (Nat.lt_succ_self _) ht hip fun u hu => ?_
    rw [elements_eq] at hu ⊢
    exact ⟨rfl, hu⟩
  unfold namex
  split_ifs with hslash
  · rw [wp_bind]
    exact hs.carry.wp_iget (.inr (by omega)) fun u hu => key _ u (if_pos hslash) hs.root hu
  · rw [wp_bind, wp_get, hcwd]
    simp only
    rw [wp_bind]
    exact hs.carry.wp_idup fun u hu => key _ u (if_neg hslash) hs.cwd hu

theorem Carry.ref_eq {r : Option ℕ} (h : Carry s r.toList [] t) (x : ℕ) :
    (t.icache x).ref = (s.icache x).ref + if r = some x then 1 else 0 := by
  rw [h.ref]
  cases r with
  | none => simp
  | some y =>
    by_cases hy : y = x
    · simp [hy]
    · simp [hy]

/-- **Path resolution is the fold of the lookups.** On a directory tree that nobody is changing, by a process with working
directory `cwd`, and with room for two more inodes in the cache: `namei` returns the inode reached from the root or
from `cwd` by the components of the path, or 0 if a lookup fails; `nameiparent` returns the directory reached by all
components but the last one, with that one; and only the inode that is returned has one more reference. -/
theorem path_resolution {s : State} {p : Slot} {cwd : ℕ} (hs : Settled s cwd) (hcwd : (s.proc p).cwd = some cwd)
    (hroom : s.cached + 2 ≤ NINODE) (path : List Char) :
    (∃ t, namei p path s = .ok (s.inode.resolve (startOf cwd path) (components path), t) ∧ Quiet s t ∧
      ∀ x, (t.icache x).ref = (s.icache x).ref +
        if s.inode.resolve (startOf cwd path) (components path) = some x then 1 else 0) ∧
    ∃ t, nameiparent p path s = .ok (s.inode.resolveParent (startOf cwd path) (components path), t) ∧ Quiet s t ∧
      ∀ x, (t.icache x).ref = (s.icache x).ref +
        if (s.inode.resolveParent (startOf cwd path) (components path)).map Prod.fst = some x then 1 else 0 := by
  constructor
  · have hwp : wp (namei p path) (fun r t => r = s.inode.resolve (startOf cwd path) (components path) ∧
        Carry s r.toList [] t) (fun _ => False) s := by
      rw [namei, wp_bind]
      refine (wp_namex_room hs hcwd hroom).mono fun r t ⟨hr, ht⟩ => ⟨?_, ht⟩
      rw [hr, walk_eq_resolve, Option.map_map]
      exact Option.map_id'
    obtain ⟨r, t, hrun, rfl, ht⟩ := hwp.returns
    exact ⟨t, hrun, ht.toQuiet, ht.ref_eq⟩
  · have hwp : wp (nameiparent p path) _ (fun _ => False) s := wp_namex_room hs hcwd hroom
    obtain ⟨r, t, hrun, rfl, ht⟩ := hwp.returns
    rw [walk_eq_resolveParent] at hrun ht
    exact ⟨t, hrun, ht.toQuiet, ht.ref_eq⟩

theorem settled_mkfs {args : List (List Char)} (hinode : s.inode = mkfs args) (hidle : ∀ x, (s.icache x).busy = false) :
    Settled s ROOTINO := by
  have hsolid : ∀ x, (mkfs args x).type ≠ .free → s.Solid x := fun x hx => by
    refine ⟨by rwa [hinode], fun h0 => ?_⟩
    rw [hinode, mkfs_linked hx] at h0
    cases h0
  refine ⟨hidle, hsolid _ Kind.noConfusion, hsolid _ Kind.noConfusion, fun d de hd hde hne => hsolid _ ?_⟩
  rw [hinode] at hd hde
  obtain rfl := mkfs_dir hd
  obtain ⟨n, hents⟩ := mkfs_root_ents args
  rw [hents] at hde
  rcases List.mem_cons.mp hde with rfl | hde
  · exact Kind.noConfusion
  rcases List.mem_cons.mp hde with rfl | hde
  · exact Kind.noConfusion
  rcases List.mem_append.mp hde with hde | hde
  · have hpos : 0 < (mkfsEnts 2 args).countP (·.inum = de.inum) := List.countP_pos_iff.mpr ⟨de, hde, by simp⟩
    rw [countP_mkfsEnts] at hpos
    split_ifs at hpos with hrange
    · rw [mkfs, if_neg (by simp only [ROOTINO]; omega), if_pos hrange]
      exact Kind.noConfusion
    · omega
  · rw [List.eq_of_mem_replicate hde] at hne
    exact absurd rfl hne

/-- The dots of the root lead to the root. -/
theorem path_resolution_dots : ∃ t, namei initproc ['/', '.', '.', '/', '.'] (boot ∅) = .ok (some ROOTINO, t) ∧
    (t.icache ROOTINO).ref = 2 := by
  have hs : Settled (boot ∅) ROOTINO := settled_mkfs rfl fun x => by
    by_cases hx : x = ROOTINO
    · rw [hx]
      rfl
    · simp [boot, hx]
  obtain ⟨⟨t, hrun, -, href⟩, -⟩ := path_resolution (p := initproc) hs rfl (by decide) ['/', '.', '.', '/', '.']
  have hres : (boot ∅).inode.resolve (startOf ROOTINO ['/', '.', '.', '/', '.']) (components ['/', '.', '.', '/', '.']) =
      some ROOTINO := by decide
  rw [hres] at hrun href
  exact ⟨t, hrun, href ROOTINO⟩

/-! ## A full cache -/

/-- A disk with 50 files; the root and the first 49 of them are in use, which fills the cache. -/
def crowded : State :=
  { boot ⟨(List.range 50).map fun k => [Char.ofNat (65 + k)], by decide⟩ with
    icache := fun x => if 1 ≤ x ∧ x ≤ NINODE then ⟨1, false, true⟩ else ⟨0, false, false⟩
    file := fun f => if f.val < 49 then ⟨.inode, 1, true, false, 0, f.val + 2⟩ else ⟨.none, 0, false, false, 0, 0⟩ }

/-- **Without room in the cache there is no answer**: the last file is in its directory, but `namei` of it panics in
`iget`. -/
theorem resolution_needs_room : ∃ (s : State) (p : Slot) (cwd : ℕ) (path : List Char), Settled s cwd ∧
    (s.proc p).cwd = some cwd ∧ (∃ x, s.inode.resolve (startOf cwd path) (components path) = some x) ∧
    namei p path s = .error .igetNoInodes := by
  have hidle : ∀ x, (crowded.icache x).busy = false := fun x => by
    simp only [crowded]
    split_ifs <;> rfl
  have hstop : (match namei initproc ['/', 'r'] crowded with
      | .ok _ => none
      | .error e => some e) = some Stop.igetNoInodes := by decide +kernel
  have hfound : crowded.inode.resolve (startOf ROOTINO ['/', 'r']) (components ['/', 'r']) = some 51 := by decide +kernel
  refine ⟨crowded, initproc, ROOTINO, ['/', 'r'], settled_mkfs rfl hidle, rfl, ⟨51, hfound⟩, ?_⟩
  cases hrun : namei initproc ['/', 'r'] crowded with
  | ok r =>
    rw [hrun] at hstop
    cases hstop
  | error e =>
    rw [hrun] at hstop
    rw [Option.some_inj.mp hstop]

end Xv6.Fs
