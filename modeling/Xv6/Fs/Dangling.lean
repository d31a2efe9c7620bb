import Xv6.Fs.Run

/-!
# Dangling directory entries

The entries of a directory behind its dots name inodes that have a link, and so are allocated. The `..` of a removed
directory has no link: `unlink` lets go of a directory that is still the parent of a removed directory in use, and then
`..` names a free inode, on which `ilock` panics.
-/

namespace Xv6.Fs

open Lib

variable {args : Files} {s t : State} {l : Label} {τ τ' : Tree}

/-- The parent of every directory is a directory with links. -/
def Anchored (τ : Tree) : Prop := ∀ c, (τ c).type = .dir → (τ (τ c).up).type = .dir ∧ 0 < (τ (τ c).up).nlink

/-- The path of the name that a call may take out. -/
def Call.removes : Call → Option (List Char)
  | .unlink path => some path
  | _ => none

/-- A call that takes out a directory leaves its parent a link, and the directory is the parent of no other. -/
def KeepsParents (s : State) (l : Label) : Prop :=
  ∀ path ∈ l.call.removes, ∀ r ∈ s.parentOf l.proc path, ∀ e ∈ find r.2 (s.inode r.1).ents, (s.inode e.1).type = .dir →
    1 < (s.inode r.1).nlink ∧ ∀ c ∈ List.range NINODES, (s.inode c).type = .dir → (s.inode c).up ≠ e.1

instance (s : State) (l : Label) : Decidable (KeepsParents s l) :=
  inferInstanceAs (Decidable (∀ path ∈ l.call.removes, ∀ r ∈ s.parentOf l.proc path, _))

/-! ## The operations -/

theorem Anchored.add {d x : ℕ} (h : Anchored τ) (hs : Shape τ) (he : Entry τ τ' d x) (hd : (τ d).type = .dir)
    (hne : x ≠ d) (hold : (τ x).type ≠ .dir) (hnew : (τ' x).type = .dir → (τ' x).up = d) : Anchored τ' := by
  have hkeep : ∀ u, (τ u).type = .dir → 0 < (τ u).nlink → (τ' u).type = .dir ∧ 0 < (τ' u).nlink := by
    intro u hu hl
    have hux : u ≠ x := fun hux => hold (hux ▸ hu)
    refine ⟨by rw [he.type u hux]; exact hu, ?_⟩
    have hnl := he.nlink u
    split_ifs at hnl <;> omega
  intro c hc
  by_cases hcx : c = x
  · subst hcx
    rw [hnew hc, he.type d hne.symm]
    refine ⟨hd, ?_⟩
    have hnl := he.nlink d
    have h0 := hs.nlink_nonneg (hs.bound d hd).1
    rw [if_neg hne, if_pos ⟨hc, rfl⟩] at hnl
    omega
  · rw [he.type c hcx] at hc
    rw [Inode.up_congr (he.head c hcx)]
    exact hkeep _ (h c hc).1 (h c hc).2

theorem Anchored.remove {d k x : ℕ} (h : Anchored τ) (hc : CanRemove τ d k x)
    (hok : (τ x).type = .dir → 1 < (τ d).nlink ∧ ∀ c, (τ c).type = .dir → (τ c).up ≠ x) :
    Anchored (τ.remove d k x) := by
  intro c hcd
  rw [remove_type hc] at hcd
  rw [Inode.up_congr (remove_head hc c), remove_type hc]
  obtain ⟨hu, hl⟩ := h c hcd
  refine ⟨hu, ?_⟩
  have hux : (τ c).up ≠ x := fun hux => (hok (hux ▸ hu)).2 c hcd hux
  by_cases hud : (τ c).up = d
  · rw [hud, remove_dir hc.ne, Inode.leave]
    rw [hud] at hl
    simp only
    split_ifs with hx
    · have := (hok hx).1
      omega
    · omega
  · rw [remove_other hud hux]
    exact hl

theorem Anchored.reaped (h : Anchored τ) (hr : Reaped τ τ') : Anchored τ' := by
  induction hr with
  | refl => exact h
  | @free τ' x _ hn ih =>
    intro c hc
    have hcx := free_dir hc
    rw [free_other hcx] at hc ⊢
    obtain ⟨hu, hl⟩ := ih c hc
    have hux : (τ' c).up ≠ x := by
      intro hux
      rw [hux] at hl
      omega
    rw [free_other hux]
    exact ⟨hu, hl⟩

theorem Anchored.change (h : Anchored s.inode) (hs : Shape s.inode) (hok : KeepsParents s l)
    (hc : Change s l.proc l.call τ) : Anchored τ := by
  obtain ⟨p, c⟩ := l
  cases hc with
  | same => exact h
  | made _ _ _ hcan =>
    refine h.add hs (hs.entry_make hcan) hcan.dir hcan.ne (by rw [hcan.unused]; decide) fun hk => ?_
    rw [make_new hcan.ne] at hk ⊢
    exact newInode_up hk
  | linked _ _ hcan =>
    refine h.add hs (hs.entry_link hcan) hcan.dir hcan.ne hcan.file fun hk => ?_
    rw [link_type hcan] at hk
    exact absurd hk hcan.file
  | removed hp hf hcan =>
    refine h.remove hcan fun hx => ?_
    obtain ⟨hl, hup⟩ := hok _ rfl _ hp _ hf hx
    exact ⟨hl, fun c hcd => hup c (List.mem_range.mpr (hs.bound c hcd).2) hcd⟩

/-! ## Runs -/

/-- The way in which a call stops, if it does not return. -/
def State.stops (s : State) (p : Slot) (c : Call) : Option Stop :=
  match c.run p s with
  | .ok _ => none
  | .error e => some e

theorem Shape.entry_used (hs : Shape τ) (h : Anchored τ) {d : ℕ} (hd : (τ d).type = .dir) {de : Dirent}
    (hde : de ∈ (τ d).ents) (hi : de.inum ≠ 0) : (τ de.inum).type ≠ .free := by
  obtain ⟨rest, he, -⟩ := (hs.dots d hd).ents
  rw [he] at hde
  rcases List.mem_cons.mp hde with rfl | hde
  · rw [hd]
    decide
  rcases List.mem_cons.mp hde with rfl | hde
  · rw [(h d hd).1]
    decide
  · refine hs.used_of_names (d := d) hi ?_
    rw [names_of_dir hd, named, he]
    have : 0 < rest.countP (·.inum = de.inum) := List.countP_pos_iff.mpr ⟨de, hde, by simp⟩
    simp only [List.drop_succ_cons, List.drop_zero]
    omega

/-- **No entry dangles** in a run in which `unlink` keeps the parents of directories and the link counts stay in a
`short`: every entry in use of every directory names an allocated inode, and no call of any process stops with
`ilock: no type`. -/
theorem entries_allocated {tr : List (State × Label)}
    (h : Path step (fun s l => KeepsParents s l ∧ Countable s l) (boot args) tr s) :
    (∀ d, (s.inode d).type = .dir → ∀ de ∈ (s.inode d).ents, de.inum ≠ 0 → (s.inode de.inum).type ≠ .free) ∧
    (∀ p c, (s.proc p).cwd ≠ none → s.stops p c ≠ some .noType) ∧
    ∀ x < NINODES, 0 ≤ (s.inode x).nlink ∧ (s.inode x).nlink < 2 ^ 15 := by
  have hinv : Sound s ∧ Anchored s.inode :=
    h.inv (I := fun s => Sound s ∧ Anchored s.inode)
      ⟨⟨.boot args, .mkfs args.list⟩, fun c hc => by
        obtain rfl := mkfs_dir hc
        exact ⟨rfl, Int.zero_lt_one⟩⟩
      fun s l t ⟨hs, ha⟩ hok hstep => by
        obtain ⟨-, τ, hc, hr⟩ := step_spec hs hstep
        exact ⟨hs.step hstep, (ha.change hs.shape hok.1 hc).reaped hr⟩
  obtain ⟨hs, ha⟩ := hinv
  refine ⟨fun d hd de hde hi => hs.shape.entry_used ha hd hde hi, fun p c hcwd hstop => ?_,
    fun x hx => nlink_fits (fun _ _ hok => hok.2) h hx⟩
  have hrun : c.run p s = .error .noType := by
    unfold State.stops at hstop
    split at hstop
    · cases hstop
    · rename_i e he
      cases hstop
      exact he
  rcases (call_spec hs.ledger hs.shape hcwd c).error hrun with ht | ⟨-, x, hnear, hfree⟩
  · cases ht
  cases hnear with
  | root =>
    rw [hs.shape.root.1] at hfree
    cases hfree
  | cwd hx => exact hs.ledger.mid.used x (hs.ledger.owns_cwd x hx) hfree
  | file hx => exact hs.ledger.mid.used x (hs.ledger.owns_file hx) hfree
  | entry hd hde hx h0 => exact hs.shape.entry_used ha hd hde (by rw [hx]; exact h0) (by rw [hx]; exact hfree)

/-- A removed directory that is the working directory: its `..` names the directory that it was in. -/
theorem entries_allocated_removed :
    ∃ tr s, Path step (fun s l => KeepsParents s l ∧ Countable s l) (boot ∅) tr s ∧
    (s.proc 0).cwd = some 3 ∧ (s.inode 3).nlink = 0 ∧ (s.inode 3).ents[1]? = some ⟨2, dotdot⟩ ∧
      (s.inode 2).type ≠ .free ∧ s.stops 0 (.chdir dotdot) ≠ some .noType := by
  obtain ⟨s, hp, hcwd, ht, hn, hup⟩ := Lib.exists_path step (fun s l => KeepsParents s l ∧ Countable s l) (boot ∅)
    [⟨0, .mkdir ['a'] true⟩, ⟨0, .mkdir ['a', '/', 'b'] true⟩, ⟨0, .chdir ['a', '/', 'b']⟩,
      ⟨0, .unlink ['/', 'a', '/', 'b']⟩]
    (fun s => (s.proc 0).cwd = some 3 ∧ (s.inode 3).type = .dir ∧ (s.inode 3).nlink = 0 ∧
      (s.inode 3).ents[1]? = some ⟨2, dotdot⟩) (by decide +kernel)
  obtain ⟨hentry, hstop, -⟩ := entries_allocated hp
  exact ⟨_, s, hp, hcwd, hn, hup, hentry 3 ht ⟨2, dotdot⟩ (List.mem_of_getElem? hup) (by decide),
    hstop 0 _ (by rw [hcwd]; simp)⟩

/-- **The parent of a removed directory is freed**: `..` names a free inode, and a call that uses it panics. -/
theorem parent_of_removed_directory_freed : ∃ tr s, Path step free (boot ∅) tr s ∧
    (s.proc 0).cwd = some 3 ∧ (s.inode 3).type = .dir ∧ (s.inode 3).ents[1]? = some ⟨2, dotdot⟩ ∧
      (s.inode 2).type = .free ∧ s.stops 0 (.chdir dotdot) = some .noType := by
  obtain ⟨s, hp, hs⟩ := Lib.exists_path step free (boot ∅)
    [⟨0, .mkdir ['a'] true⟩, ⟨0, .mkdir ['a', '/', 'b'] true⟩, ⟨0, .chdir ['a', '/', 'b']⟩,
      ⟨0, .unlink ['/', 'a', '/', 'b']⟩, ⟨0, .unlink ['/', 'a']⟩]
    (fun s => (s.proc 0).cwd = some 3 ∧ (s.inode 3).type = .dir ∧ (s.inode 3).ents[1]? = some ⟨2, dotdot⟩ ∧
      (s.inode 2).type = .free ∧ s.stops 0 (.chdir dotdot) = some .noType) (by decide +kernel)
  exact ⟨_, s, hp, hs⟩

end Xv6.Fs
