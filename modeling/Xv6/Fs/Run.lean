import Xv6.Lib.Transition
import Xv6.Fs.Naming

/-!
# Runs from a new image

The state after `userinit`, on an image of `mkfs`, has its books in order and its tree in shape, so every state that a
sequence of calls reaches has (`sound_of_path`). For open files this says that their reference counts are exact: the
count of a file is the number of its descriptors, every open file holds one reference to its inode or one end of its
pipe, and a file that is not open holds nothing.
-/

namespace Xv6.Fs

open Lib

variable {args : List (List Char)} {s t : State}

/-! ## The image -/

theorem countP_mkfsEnts (x : ℕ) : ∀ (args : List (List Char)) (i : ℕ),
    (mkfsEnts i args).countP (·.inum = x) = if i ≤ x ∧ x < i + args.length then 1 else 0
  | [], i => by simp [mkfsEnts]
  | arg :: args, i => by
    rw [mkfsEnts, List.countP_cons, countP_mkfsEnts x args (i + 1)]
    simp only [List.length_cons, decide_eq_true_eq]
    split_ifs
    all_goals omega

theorem mkfs_root_ents (args : List (List Char)) : ∃ n, (mkfs args ROOTINO).ents =
    ⟨ROOTINO, dot⟩ :: ⟨ROOTINO, dotdot⟩ :: (mkfsEnts 2 args ++ .replicate n .zero) := ⟨_, rfl⟩

theorem mkfs_dir {d : ℕ} (h : (mkfs args d).type = .dir) : d = ROOTINO := by
  by_contra hd
  simp only [mkfs, if_neg hd] at h
  split_ifs at h
  cases h

theorem mkfs_names {d x : ℕ} (hx : x ≠ 0) :
    (mkfs args).names d x = if d = ROOTINO ∧ 2 ≤ x ∧ x < 2 + args.length then 1 else 0 := by
  by_cases hd : d = ROOTINO
  · obtain ⟨n, he⟩ := mkfs_root_ents args
    have hz : (List.replicate n Dirent.zero).countP (·.inum = x) = 0 := by
      rw [List.countP_eq_zero]
      intro de hde
      rw [List.eq_of_mem_replicate hde]
      simp [Dirent.zero, Ne.symm hx]
    rw [hd, names_of_dir (by rfl), he, named]
    simp only [List.drop_succ_cons, List.drop_zero, true_and]
    rw [List.countP_append, hz, countP_mkfsEnts, Nat.add_zero]
  · rw [if_neg fun hh => hd hh.1]
    exact names_of_not_dir fun h => hd (mkfs_dir h)

theorem mkfs_nlink {x : ℕ} (hx : x ≠ 0) :
    (mkfs args x).nlink = if x < 2 + args.length then 1 else 0 := by
  by_cases hr : x = ROOTINO
  · rw [hr, if_pos (by simp only [ROOTINO]; omega)]
    rfl
  · simp only [mkfs, if_neg hr]
    by_cases hlt : x < 2 + args.length
    · rw [if_pos hlt, if_pos ⟨by simp only [ROOTINO] at hr; omega, hlt⟩]
    · rw [if_neg hlt, if_neg fun hh => hlt hh.2]
      rfl

theorem mkfs_linked {x : ℕ} (h : (mkfs args x).type ≠ .free) : (mkfs args x).nlink = 1 := by
  unfold mkfs at h ⊢
  split_ifs at h ⊢
  · rfl
  · rfl
  · exact absurd rfl h

theorem mkfs_held {x : ℕ} (hx : x ≠ 0) : (mkfs args).held x = if x < 2 + args.length then 1 else 0 := by
  have hnamed : (mkfs args).namedBy x = if 2 ≤ x ∧ x < 2 + args.length then 1 else 0 := by
    unfold Tree.namedBy
    simp only [mkfs_names hx]
    rw [Finset.sum_eq_single ROOTINO (fun d _ hd => if_neg fun hh => hd hh.1)
      (fun h => absurd (Finset.mem_range.mpr (by decide)) h)]
    simp
  have hsub : (mkfs args).subdirs x = 0 := Finset.sum_eq_zero fun c _ => by
    split_ifs with hc
    · rw [mkfs_dir hc, mkfs_names (by decide), if_neg fun hh => by simp only [ROOTINO] at hh; omega]
    · rfl
  unfold Tree.held
  rw [hnamed, hsub]
  simp only [ROOTINO]
  split_ifs
  all_goals omega

theorem Shape.mkfs (args : List (List Char)) : Shape (mkfs args) where
  root := ⟨rfl, rfl⟩
  bound d hd := by
    rw [mkfs_dir hd]
    decide
  dots d hd := by
    rw [mkfs_dir hd]
    exact ⟨ROOTINO, rfl, by decide⟩
  zero := rfl
  unused x hx := by
    unfold Fs.mkfs at hx ⊢
    split_ifs at hx ⊢
    rfl
  child d c hc hn := by
    rw [mkfs_dir hc, mkfs_names (by decide), if_neg fun hh => by simp only [ROOTINO] at hh; omega] at hn
    exact absurd rfl hn
  exact x hx := by
    have hx0 : x ≠ 0 := by
      rw [mkfs_dir hx]
      decide
    rw [mkfs_nlink hx0, mkfs_held hx0]
    split_ifs <;> rfl
  enough x hx := by
    rw [mkfs_nlink hx, mkfs_held hx]
    split_ifs <;> simp

/-! ## The first state -/

variable {files : Files}

theorem boot_cwds (x : ℕ) : (boot files).cwds x = if x = ROOTINO then 1 else 0 := by
  rw [State.cwds, refs, Finset.sum_eq_single initproc]
  · simp [boot, eq_comm]
  · intro p _ hp
    simp [boot, hp]
  · exact fun h => absurd (Finset.mem_univ _) h

theorem Ledger.boot (files : Files) : Ledger (boot files) := by
  have hnone : ∀ p fd, ((Fs.boot files).proc p).ofile fd = none := by
    intro p fd
    by_cases hp : p = initproc
    · simp [Fs.boot, hp]
    · simp [Fs.boot, hp]
  have hopens : ∀ x, (Fs.boot files).opens x = 0 := fun x => by simp [State.opens, refs, Fs.boot, File.points]
  refine ⟨⟨⟨fun f => ?_, fun f _ => rfl, fun e => ?_, fun k p hp => ?_⟩, ⟨fun x => ?_, fun x _ ht hn => ?_, fun x hx => ?_,
    fun x _ hv => ?_⟩, fun f x hp => ?_⟩, fun p _ => hnone p⟩
  · simp [State.fds, refs, hnone]
    rfl
  · simp [State.ends, refs, Fs.boot, File.pipeEnd, State.endOpen]
  · cases hp
  · rw [boot_cwds, hopens]
    by_cases hx : x = ROOTINO
    · simp [Fs.boot, hx]
    · simp [Fs.boot, hx]
  · have := mkfs_linked (x := x) ht
    change (mkfs files.list x).nlink = 0 at hn
    omega
  · rw [boot_cwds, hopens] at hx
    have hr : x = ROOTINO := by
      by_contra hr
      rw [if_neg hr] at hx
      omega
    rw [hr]
    exact fun h0 => by cases h0
  · by_cases hx : x = ROOTINO
    · simp [Fs.boot, hx] at hv
    · simp [Fs.boot, hx] at hv
  · cases hp

/-- **Every state that is reached** has its books in order and its tree in shape. -/
theorem sound_of_path {ok : State → Label → Prop} {tr : List (State × Label)} (h : Path step ok (boot files) tr t) :
    Sound t :=
  h.inv ⟨.boot files, .mkfs files.list⟩ fun _ _ _ hs _ hstep => hs.step hstep

/-! ## Open files -/

theorem filealloc_unused {f : Fin NFILE} (h : filealloc s = .ok (some f, t)) : (s.file f).ref = 0 := by
  have hwp : wp filealloc (fun r _ => ∀ f, r = some f → (s.file f).ref = 0) (fun _ => True) s := by
    refine wp_filealloc_table (fun _ => nofun) fun f hf => ?_
    rintro _ ⟨⟩
    exact hf
  exact hwp.ok h f rfl

theorem Ledger.pipe_iff (h : Ledger s) (k : ℕ) : s.pipe k ≠ none ↔ 0 < s.ends (k, false) + s.ends (k, true) := by
  rw [h.ends, h.ends]
  simp only [State.endOpen, Pipe.isOpen]
  cases hk : s.pipe k with
  | none => simp
  | some p => rcases h.pages k p hk with hp | hp <;> simp [hp]

/-- **Reference counts of open files are exact**, in every state that calls of any processes reach: the count of a
file is the number of its descriptors, `filealloc` hands out files that are not open, an inode has one reference from
every process whose working directory it is and one from every open file on it, an end of a pipe is open as long as
one open file is this end, and the pipe is given back when neither end is open. No call finds a file that it
duplicates or closes not open, or a pipe gone. -/
theorem file_refs_exact {tr : List (State × Label)} (h : Path step free (boot files) tr s) :
    (∀ f, (s.file f).ref = s.fds f) ∧
    (∀ u v f, filealloc u = .ok (some f, v) → (u.file f).ref = 0) ∧
    (∀ x, (s.icache x).ref = s.cwds x + s.opens x) ∧
    (∀ e, s.ends e = (s.endOpen e).toNat) ∧
    (∀ k, s.pipe k ≠ none ↔ 0 < s.ends (k, false) + s.ends (k, true)) ∧
    ∀ p (c : Call) e, (s.proc p).cwd ≠ none → c.run p s = .error e → e ≠ .filedup ∧ e ≠ .fileclose ∧ e ≠ .pipeFreed := by
  obtain ⟨hl, hs⟩ := sound_of_path h
  refine ⟨hl.count, fun u v f hf => filealloc_unused hf, fun x => ?_, hl.ends, hl.pipe_iff, fun p c e hcwd he => ?_⟩
  · simpa using hl.mid.count x
  · rcases (call_spec hl hs hcwd c).error he with ht | ⟨rfl, -⟩
    · refine ⟨?_, ?_, ?_⟩ <;> rintro rfl <;> cases ht
    · simp

/-- A file and a pipe shared by two processes, after the first has closed its descriptors. -/
theorem file_refs_exact_shared : ∃ tr s, Path step free (boot ∅) tr s ∧
    (s.file 0).ref = 1 ∧ s.fds 0 = 1 ∧ (s.icache 2).ref = 1 ∧ s.opens 2 = 1 ∧ s.ends (7, false) = 1 := by
  obtain ⟨s, hp, hr, hi, hc, he⟩ := Lib.exists_path step free (boot ∅)
    [⟨0, .open ['f'] 0x202 true⟩, ⟨0, .pipe (some 7)⟩, ⟨0, .fork 5⟩, ⟨0, .close 0⟩, ⟨0, .close 1⟩, ⟨0, .close 2⟩]
    (fun s => (s.file 0).ref = 1 ∧ (s.icache 2).ref = 1 ∧ s.cwds 2 = 0 ∧ s.endOpen (7, false)) (by decide +kernel)
  obtain ⟨hfds, -, hopens, hends, -⟩ := file_refs_exact hp
  have h2 := hopens 2
  exact ⟨_, s, hp, hr, by rw [← hfds, hr], hi, by omega, by rw [hends, he]; rfl⟩

/-! ## Names -/

/-- The calls that count a link up. -/
def Call.addsLink : Call → Bool
  | .link _ _ _ | .mkdir _ _ => true
  | _ => false

/-- A call that adds a link finds every count below the largest `short`. -/
def Countable (s : State) (l : Label) : Prop :=
  l.call.addsLink → ∀ x ∈ List.range NINODES, (s.inode x).nlink < 2 ^ 15 - 1

instance (s : State) (l : Label) : Decidable (Countable s l) :=
  inferInstanceAs (Decidable (l.call.addsLink → ∀ x ∈ List.range NINODES, _))

theorem Countable.made {c : Call} {p : Slot} {path : List Char} (h : Countable s ⟨p, c⟩)
    (hm : c.makes = some (path, .dir)) {x : ℕ} (hx : x < NINODES) : (s.inode x).nlink < 2 ^ 15 - 1 := by
  cases c with
  | mkdir path blocks => exact h rfl x (List.mem_range.mpr hx)
  | «open» path omode blocks =>
    simp only [Call.makes] at hm
    split_ifs at hm
    cases hm
  | _ => cases hm

theorem Change.nlink_lt {p : Slot} {c : Call} {τ : Tree} (h : Change s p c τ) (hs : Shape s.inode)
    (hok : Countable s ⟨p, c⟩) {e : ℕ} (he : e < NINODES) (hlt : (s.inode e).nlink < 2 ^ 15) : (τ e).nlink < 2 ^ 15 := by
  cases h with
  | same => exact hlt
  | made hm _ _ hc =>
    rw [(hs.entry_make hc).nlink e, make_new hc.ne]
    split_ifs with hx hd hd
    · exact absurd (hx.trans hd.2.symm) hc.ne
    · -- the new inode has one link
      rw [← hx, hs.unused _ hc.unused]
      decide
    · -- only a new directory adds a link to its parent
      obtain rfl := hd.1
      have := hok.made hm he
      omega
    · omega
  | linked _ _ hc =>
    have := hok rfl e (List.mem_range.mpr he)
    rw [(hs.entry_link hc).nlink e]
    split_ifs with hx hd
    · exact absurd (hx.trans hd.2.symm) hc.ne
    all_goals omega
  | removed _ _ hc =>
    have hnl := (entry_remove hc).nlink e
    split_ifs at hnl <;> omega

theorem Reaped.nlink {τ τ' : Tree} (h : Reaped τ τ') (x : ℕ) : (τ' x).nlink = (τ x).nlink := by
  induction h with
  | refl => rfl
  | free _ _ ih => rw [free_nlink, ih]

/-- **The link counts fit into their `short`**, so that the source has the same. -/
theorem nlink_fits {ok : State → Label → Prop} {tr : List (State × Label)} (hok : ∀ s l, ok s l → Countable s l)
    (h : Path step ok (boot files) tr s) {x : ℕ} (hx : x < NINODES) : 0 ≤ (s.inode x).nlink ∧ (s.inode x).nlink < 2 ^ 15 := by
  have hinv : Sound s ∧ (s.inode x).nlink < 2 ^ 15 := by
    refine h.inv (I := fun s => Sound s ∧ (s.inode x).nlink < 2 ^ 15) ⟨⟨.boot files, .mkfs files.list⟩, ?_⟩
      fun s l t ⟨hs, hlt⟩ hl hstep => ?_
    · show (mkfs files.list x).nlink < 2 ^ 15
      by_cases ht : (mkfs files.list x).type = .free
      · rw [(Shape.mkfs _).unused x ht]
        decide
      · rw [mkfs_linked ht]
        decide
    · obtain ⟨-, τ, hc, hr⟩ := step_spec hs hstep
      refine ⟨hs.step hstep, ?_⟩
      rw [hr.nlink]
      exact hc.nlink_lt hs.shape (hok s l hl) hx hlt
  refine ⟨?_, hinv.2⟩
  have hs := hinv.1.shape
  by_cases hx0 : x = 0
  · rw [hx0, hs.unused 0 hs.zero]
  · exact hs.nlink_nonneg hx0

/-- **Link counts never fall short.** After every sequence of calls of any processes that keep them in a `short`, also
calls in removed directories, `nlink` is at least the number of names that the inode has behind the dots and of its
subdirectories, for a directory exactly that, so that an inode with a name left is never freed. -/
theorem links_never_short {tr : List (State × Label)} (h : Path step Countable (boot files) tr s) {x : ℕ} (hx : x ≠ 0) :
    (s.inode.held x : ℤ) ≤ (s.inode x).nlink ∧ ((s.inode x).type = .dir → (s.inode x).nlink = s.inode.held x) ∧
      (∀ d, s.inode.names d x ≠ 0 → (s.inode x).type ≠ .free) ∧ (x < NINODES → (s.inode x).nlink < 2 ^ 15) := by
  have hs := (sound_of_path h).shape
  exact ⟨hs.enough x hx, hs.exact x, fun d hd => hs.used_of_names hx hd,
    fun hlt => (nlink_fits (fun _ _ hok => hok) h hlt).2⟩

/-- A file made in a directory that has been removed. -/
theorem links_never_short_removed : ∃ tr s, Path step Countable (boot ∅) tr s ∧ (s.inode 2).nlink = 0 ∧
    s.inode.held 2 = 0 ∧ (s.inode 3).type ≠ .free := by
  obtain ⟨s, hp, hn, ht, hd⟩ := Lib.exists_path step Countable (boot ∅)
    [⟨0, .mkdir ['a'] true⟩, ⟨0, .chdir ['a']⟩, ⟨0, .unlink ['/', 'a']⟩, ⟨0, .open ['f'] O_CREATE true⟩]
    (fun s => (s.inode 2).nlink = 0 ∧ (s.inode 2).type = .dir ∧ s.inode.names 2 3 ≠ 0) (by decide +kernel)
  obtain ⟨-, hdir, -⟩ := links_never_short hp (x := 2) (by decide)
  exact ⟨_, s, hp, hn, by rw [hdir ht] at hn; exact_mod_cast hn, (links_never_short hp (by decide)).2.2.1 2 hd⟩

/-- **A directory has one name.** After every sequence of calls of any processes that keep the link counts in a `short`,
behind the dots a directory is named by one entry of one directory at most, the one that its `..` names; the root is not
named at all. -/
theorem directory_named_once {tr : List (State × Label)} (h : Path step Countable (boot files) tr s) {d c : ℕ}
    (hc : (s.inode c).type = .dir) (hd : s.inode.names d c ≠ 0) :
    c ≠ ROOTINO ∧ s.inode.names d c = 1 ∧ (s.inode c).up = d ∧ ∀ d', s.inode.names d' c ≠ 0 → d' = d := by
  have hs := (sound_of_path h).shape
  obtain ⟨-, hroot, hup, hone⟩ := hs.child d c hc hd
  exact ⟨hroot, hone, hup, fun d' hd' => (hs.child d' c hc hd').2.2.1.symm.trans hup⟩

theorem directory_named_once_nested : ∃ tr s, Path step Countable (boot ∅) tr s ∧ (s.inode 3).up = 2 ∧
    ∀ d, s.inode.names d 3 ≠ 0 → d = 2 := by
  obtain ⟨s, hp, ht, hd⟩ := Lib.exists_path step Countable (boot ∅)
    [⟨0, .mkdir ['a'] true⟩, ⟨0, .mkdir ['a', '/', 'b'] true⟩]
    (fun s => (s.inode 3).type = .dir ∧ s.inode.names 2 3 ≠ 0) (by decide +kernel)
  obtain ⟨-, -, hup, hall⟩ := directory_named_once hp ht hd
  exact ⟨_, s, hp, hup, hall⟩

end Xv6.Fs
