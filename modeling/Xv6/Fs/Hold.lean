import Xv6.Fs.Tree

/-!
# What the functions on inodes do with references

While a call runs, every inode has the references that processes and open files own (`own`) and those that the call
holds (`held`). `Mid` says that the reference counts of the cache are these, and that an allocated inode without links
is owned by someone and valid, so that no `iput` of the call can free it; the inodes in `loose` are excepted, because
the call itself is about to give them up.

- `wp_namex`: a path lookup returns what `Tree.walk` finds, changes nothing, and fails with `ilock: no type` only if
  an inode that can be named is free (`Near`).
-/

namespace Xv6.Fs

open Lib
open Function (update update_of_ne update_self)

variable {own : ℕ → ℕ} {held loose : List ℕ} {s t : State} {x : ℕ} {E : Stop → Prop}

/-- The ways to stop that say nothing about references: all but `ilock: no type`, the panics of the file table on a file
that is not open, and the use of a pipe that is gone. -/
def Stop.tame : Stop → Bool
  | .noType | .filedup | .fileclose | .pipeFreed => false
  | _ => true

/-- A condition on the way to stop that allows all tame ones. -/
def Tame (E : Stop → Prop) : Prop := ∀ e, e.tame → E e

/-- **The references in the middle of a call.** -/
structure Mid (own : ℕ → ℕ) (held loose : List ℕ) (s : State) : Prop where
  count : ∀ x, (s.icache x).ref = own x + held.count x
  kept : ∀ x, x ∉ loose → (s.inode x).type ≠ .free → (s.inode x).nlink = 0 → 0 < own x ∧ (s.icache x).valid
  used : ∀ x, 0 < own x → (s.inode x).type ≠ .free
  real : ∀ x, 0 < (s.icache x).ref → (s.icache x).valid → (s.inode x).type ≠ .free

/-- Files, pipes and processes have not changed. -/
structure Still (s t : State) : Prop where
  file : t.file = s.file
  pipe : t.pipe = s.pipe
  proc : t.proc = s.proc

/-- Only the inode cache has changed. -/
structure Quiet (s t : State) : Prop extends Still s t where
  inode : t.inode = s.inode

theorem Still.rfl : Still s s := ⟨Eq.refl _, Eq.refl _, Eq.refl _⟩

theorem Still.trans {u : State} (h : Still s t) (h' : Still t u) : Still s u :=
  ⟨h'.file.trans h.file, h'.pipe.trans h.pipe, h'.proc.trans h.proc⟩

theorem Quiet.rfl : Quiet s s := ⟨.rfl, Eq.refl _⟩

theorem Quiet.trans {u : State} (h : Quiet s t) (h' : Quiet t u) : Quiet s u :=
  ⟨h.toStill.trans h'.toStill, h'.inode.trans h.inode⟩

theorem Quiet.symm (h : Quiet s t) : Quiet t s := ⟨⟨h.file.symm, h.pipe.symm, h.proc.symm⟩, h.inode.symm⟩

/-! ## Changes of the state -/

theorem quiet_setCached {c : Cached} : Quiet s (s.setCached x c) := ⟨⟨rfl, rfl, rfl⟩, rfl⟩

theorem valid_setCached {c : Cached} (h : c.valid = (s.icache x).valid) (y : ℕ) :
    ((s.setCached x c).icache y).valid = (s.icache y).valid := by
  by_cases hy : y = x
  · subst hy
    simpa [State.setCached] using h
  · simp [State.setCached, hy]

theorem Mid.setCached {held' : List ℕ} {c : Cached} (h : Mid own held loose s)
    (hcount : ∀ y, own y + held'.count y = if y = x then c.ref else (s.icache y).ref)
    (hvalid : 0 < (s.icache x).ref → (s.icache x).valid → c.valid)
    (hreal : 0 < c.ref → c.valid → (s.inode x).type ≠ .free) : Mid own held' loose (s.setCached x c) where
  count y := by
    by_cases hy : y = x
    · subst hy
      simpa [State.setCached] using (hcount y).symm
    · simpa [State.setCached, hy] using (hcount y).symm
  kept y hl ht hn := by
    obtain ⟨ho, hv⟩ := h.kept y hl ht hn
    refine ⟨ho, ?_⟩
    by_cases hy : y = x
    · subst hy
      simpa [State.setCached] using hvalid (by rw [h.count]; omega) hv
    · simpa [State.setCached, hy] using hv
  used := h.used
  real y hr hv := by
    by_cases hy : y = x
    · subst hy
      simp only [State.setCached, update_self] at hr hv
      exact hreal hr hv
    · simp only [State.setCached, update_of_ne hy] at hr hv
      exact h.real y hr hv

theorem Mid.setInode {i : Inode} (h : Mid own held loose s) (ht : i.type = (s.inode x).type)
    (hn : i.nlink = 0 → x ∈ loose ∨ (s.inode x).nlink = 0) : Mid own held loose (s.setInode x i) := by
  have htype : ∀ y, ((s.setInode x i).inode y).type = (s.inode y).type := by
    intro y
    by_cases hy : y = x
    · subst hy
      simpa [State.setInode] using ht
    · simp [State.setInode, hy]
  refine ⟨h.count, fun y hl hty hny => ?_, fun y hy => by rw [htype]; exact h.used y hy,
    fun y hr hv => by rw [htype]; exact h.real y hr hv⟩
  rw [htype] at hty
  by_cases hy : y = x
  · subst hy
    simp only [State.setInode, update_self] at hny
    exact h.kept y hl hty ((hn hny).resolve_left hl)
  · simp only [State.setInode, update_of_ne hy] at hny
    exact h.kept y hl hty hny

theorem Mid.loosen (h : Mid own held loose s) : Mid own held (x :: loose) s :=
  ⟨h.count, fun y hl => h.kept y fun hm => hl (List.mem_cons_of_mem _ hm), h.used, h.real⟩

theorem Mid.tighten (h : Mid own held (x :: loose) s)
    (hx : (s.inode x).nlink ≠ 0 ∨ 0 < own x ∧ (s.icache x).valid) : Mid own held loose s := by
  refine ⟨h.count, fun y hl ht hn => ?_, h.used, h.real⟩
  by_cases hy : y = x
  · subst hy
    exact hx.resolve_left fun hne => hne hn
  · exact h.kept y (by simp [hy, hl]) ht hn

theorem count_cons_eq (x y : ℕ) (l : List ℕ) : (x :: l).count y = l.count y + if y = x then 1 else 0 := by
  rw [List.count_cons]
  by_cases h : y = x
  · simp [h]
  · simp [h, Ne.symm h]

theorem Mid.swap {y : ℕ} (h : Mid own (x :: y :: held) loose s) : Mid own (y :: x :: held) loose s :=
  ⟨fun z => by rw [h.count, count_cons_eq, count_cons_eq, count_cons_eq, count_cons_eq]; omega, h.kept, h.used, h.real⟩

theorem Mid.give {own' : ℕ → ℕ} (h : Mid own (x :: held) loose s) (ho : ∀ y, own' y = own y + if x = y then 1 else 0)
    (hx : (s.inode x).type ≠ .free) : Mid own' held loose s where
  count y := by
    rw [h.count, count_cons_eq, ho]
    simp only [eq_comm (a := y)]
    omega
  kept y hl ht hn := by
    obtain ⟨hp, hv⟩ := h.kept y hl ht hn
    exact ⟨by rw [ho]; omega, hv⟩
  used y hy := by
    rw [ho] at hy
    by_cases hxy : x = y
    · exact hxy ▸ hx
    · exact h.used y (by rw [if_neg hxy] at hy; omega)
  real := h.real

theorem Mid.take {own' : ℕ → ℕ} (h : Mid own held loose s) (ho : ∀ y, own y = own' y + if x = y then 1 else 0) :
    Mid own' (x :: held) (x :: loose) s where
  count y := by
    rw [h.count, count_cons_eq, ho]
    simp only [eq_comm (a := y)]
    omega
  kept y hl ht hn := by
    obtain ⟨hp, hv⟩ := h.kept y (fun hm => hl (List.mem_cons_of_mem _ hm)) ht hn
    have hxy : x ≠ y := fun he => hl (he ▸ List.mem_cons_self)
    rw [ho, if_neg hxy] at hp
    exact ⟨hp, hv⟩
  used y hy := h.used y (by rw [ho]; omega)
  real := h.real

theorem Mid.valid_of_own (h : Mid own held loose s) (hl : x ∉ loose) (ho : 0 < own x) (hn : (s.inode x).nlink = 0) :
    (s.icache x).valid :=
  (h.kept x hl (h.used x ho) hn).2

/-! ## The inode protocol -/

theorem wp_iget {Q : ℕ → State → Prop} (h : Mid own held loose s) (hE : Tame E)
    (k : ∀ t, Quiet s t → Mid own (x :: held) loose t →
      (∀ y, 0 < (s.icache y).ref → (t.icache y).valid = (s.icache y).valid) → Q x t) : wp (iget x) Q E s := by
  have hc := h.count
  unfold iget
  rw [wp_bind, wp_get]
  split_ifs with h1 h2
  · rw [wp_bind, wp_set, wp_pure]
    refine k _ quiet_setCached (h.setCached (fun y => ?_) (fun _ hv => hv) fun _ hv => h.real x h1 hv)
      fun y _ => valid_setCached (by rfl) y
    rw [count_cons_eq]
    split_ifs with hy
    · subst hy
      simp only
      rw [hc]
      omega
    · rw [hc]
      omega
  · rw [wp_bind, wp_set, wp_pure]
    refine k _ quiet_setCached (h.setCached (fun y => ?_) (fun hr => absurd hr h1) fun _ hv => by cases hv)
      fun y hy => ?_
    · have hy0 := hc x
      rw [count_cons_eq]
      split_ifs with hy
      · subst hy
        simp only
        omega
      · rw [hc]
        omega
    · have hyx : y ≠ x := fun he => h1 (he ▸ hy)
      simp [State.setCached, hyx]
  · exact hE _ rfl

theorem wp_idup {Q : ℕ → State → Prop} (h : Mid own held loose s) (hx : 0 < own x)
    (k : ∀ t, Quiet s t → Mid own (x :: held) loose t → Q x t) : wp (idup x) Q E s := by
  have hc := h.count
  have href : 0 < (s.icache x).ref := by rw [hc]; omega
  unfold idup
  rw [wp_bind, wp_get, wp_bind, wp_set, wp_pure]
  refine k _ quiet_setCached (h.setCached (fun y => ?_) (fun _ hv => hv) fun _ hv => h.real x href hv)
  rw [count_cons_eq]
  split_ifs with hy
  · subst hy
    simp only
    rw [hc]
    omega
  · rw [hc]
    omega

theorem wp_ilock {Q : Unit → State → Prop} (h : Mid own held loose s) (hE : Tame E)
    (hfree : (s.inode x).type = .free → E .noType)
    (k : ∀ t, Quiet s t → Mid own held loose t → (s.inode x).type ≠ .free →
      (∀ y, y = x ∨ (s.icache y).valid → (t.icache y).valid) → Q () t) : wp (ilock x) Q E s := by
  unfold ilock
  rw [wp_bind, wp_get]
  split_ifs with h1 h2 h3
  · exact hE _ rfl
  · exact hE _ rfl
  · exact hfree h3.2
  · rw [wp_set]
    have ht : (s.inode x).type ≠ .free := by
      by_cases hv : (s.icache x).valid
      · exact h.real x (by omega) hv
      · exact fun ht => h3 ⟨hv, ht⟩
    refine k _ quiet_setCached (h.setCached (fun y => ?_) (fun _ _ => rfl) fun _ _ => ht) ht fun y hy => ?_
    · rw [← h.count]
      split_ifs with hy
      · rw [hy]
      · rfl
    · by_cases hyx : y = x
      · simp [State.setCached, hyx]
      · simpa [State.setCached, hyx] using hy.resolve_left hyx

theorem wp_iunlock {Q : Unit → State → Prop} (h : Mid own held loose s) (hE : Tame E)
    (k : ∀ t, Quiet s t → Mid own held loose t → (∀ y, (t.icache y).valid = (s.icache y).valid) → Q () t) :
    wp (iunlock x) Q E s := by
  unfold iunlock
  rw [wp_bind, wp_get]
  split_ifs with h1
  · exact hE _ rfl
  · rw [wp_set]
    refine k _ quiet_setCached (h.setCached (fun y => ?_) (fun _ hv => hv) fun hr hv => h.real x hr hv)
      (valid_setCached rfl)
    rw [← h.count]
    split_ifs with hy
    · rw [hy]
    · rfl

theorem Mid.drop (h : Mid own (x :: held) loose s) :
    Mid own held loose (s.setCached x { s.icache x with ref := (s.icache x).ref - 1 }) := by
  have hc := h.count
  have hx := hc x
  rw [count_cons_eq, if_pos rfl] at hx
  refine h.setCached (fun y => ?_) (fun _ hv => hv) fun hr hv => h.real x (by simp only at hr; omega) hv
  have hy := hc y
  rw [count_cons_eq] at hy
  split_ifs at hy ⊢ with hyx
  · subst hyx
    simp only
    omega
  · omega

theorem wp_iput {Q : Unit → State → Prop} (h : Mid own (x :: held) loose s) (hx : x ∉ loose)
    (k : ∀ t, Quiet s t → Mid own held loose t → (∀ y, (t.icache y).valid = (s.icache y).valid) → Q () t) :
    wp (iput x) Q E s := by
  unfold iput
  rw [wp_bind, wp_get]
  have hnot : ¬ ((s.icache x).ref = 1 ∧ (s.icache x).valid ∧ (s.inode x).nlink = 0) := by
    rintro ⟨hr, hv, hn⟩
    have ho := (h.kept x hx (h.real x (by omega) hv) hn).1
    have hc := h.count x
    rw [count_cons_eq, if_pos rfl] at hc
    omega
  rw [if_neg hnot, wp_set]
  exact k _ quiet_setCached h.drop (valid_setCached rfl)

/-- What `iput` does to the inode table: nothing, or it gives back an inode that nobody owns and nothing links. -/
inductive Reap (own : ℕ → ℕ) (x : ℕ) (τ : Tree) : Tree → Prop
  | kept : Reap own x τ τ
  | freed : own x = 0 → (τ x).nlink = 0 → Reap own x τ (τ.free x)

theorem Reap.other {τ τ' : Tree} {y : ℕ} (h : Reap own x τ τ') (hy : y ≠ x) : τ' y = τ y := by
  cases h with
  | kept => rfl
  | freed => exact free_other hy

/-- **The last `iput`** of a call on an inode that may have lost its links or its owner. -/
theorem wp_iput_last {Q : Unit → State → Prop} (h : Mid own (x :: held) (x :: loose) s) (hE : Tame E)
    (hheld : x ∉ held) (hvalid : (s.inode x).nlink = 0 → (s.icache x).valid)
    (k : ∀ t, Still s t → Mid own held loose t → Reap own x s.inode t.inode →
      (∀ y, y ≠ x → (t.icache y).valid = (s.icache y).valid) → Q () t) :
    wp (iput x) Q E s := by
  have hc := h.count x
  rw [count_cons_eq, if_pos rfl, List.count_eq_zero.mpr hheld] at hc
  unfold iput
  rw [wp_bind, wp_get]
  split_ifs with h1 h2
  · exact hE _ rfl
  · rw [wp_set]
    have hother : ∀ y, y ≠ x → (update s.inode x (s.inode x).freed y) = s.inode y := fun y hy =>
      update_of_ne hy ..
    refine k _ ⟨rfl, rfl, rfl⟩ ⟨fun y => ?_, fun y hl ht hn => ?_, fun y hy => ?_, fun y hr hv => ?_⟩
      (.freed (by omega) h1.2.2) fun y hy => by simp [State.setCached, State.setInode, hy]
    · have hcy := h.count y
      rw [count_cons_eq] at hcy
      by_cases hy : y = x
      · subst hy
        simp only [State.setCached, update_self]
        rw [List.count_eq_zero.mpr hheld]
        omega
      · rw [if_neg hy] at hcy
        simp only [State.setCached, update_of_ne hy]
        exact hcy
    · by_cases hy : y = x
      · subst hy
        exact absurd (by simp [State.setCached, State.setInode]) ht
      · simp only [State.setCached, State.setInode, update_of_ne hy] at ht hn ⊢
        exact h.kept y (by simp [hy, hl]) ht hn
    · have hy : y ≠ x := by
        rintro rfl
        omega
      simp only [State.setCached, State.setInode, update_of_ne hy]
      exact h.used y ‹_›
    · by_cases hy : y = x
      · subst hy
        simp [State.setCached] at hr
      · simp only [State.setCached, State.setInode, update_of_ne hy] at hr hv ⊢
        exact h.real y hr hv
  · rw [wp_set]
    refine k _ ⟨rfl, rfl, rfl⟩ (h.drop.tighten ?_) .kept fun y _ => valid_setCached (by rfl) y
    by_cases hn : (s.inode x).nlink = 0
    · -- others refer to it, and as the call has no other reference it has an owner
      have hv := hvalid hn
      refine .inr ⟨?_, by simpa [State.setCached] using hv⟩
      have : (s.icache x).ref ≠ 1 := fun hr => h1 ⟨hr, hv, hn⟩
      omega
    · exact .inl hn

theorem wp_iunlockput {Q : Unit → State → Prop} (h : Mid own (x :: held) loose s) (hE : Tame E) (hx : x ∉ loose)
    (k : ∀ t, Quiet s t → Mid own held loose t → (∀ y, (t.icache y).valid = (s.icache y).valid) → Q () t) :
    wp (iunlockput x) Q E s := by
  unfold iunlockput
  rw [wp_bind]
  refine wp_iunlock h hE fun t hq hm hv => ?_
  exact wp_iput hm hx fun u hq' hm' hv' => k u (hq.trans hq') hm' fun y => (hv' y).trans (hv y)

theorem wp_iunlockput_last {Q : Unit → State → Prop} (h : Mid own (x :: held) (x :: loose) s) (hE : Tame E)
    (hheld : x ∉ held) (hvalid : (s.icache x).valid)
    (k : ∀ t, Still s t → Mid own held loose t → Reap own x s.inode t.inode →
      (∀ y, y ≠ x → (t.icache y).valid = (s.icache y).valid) → Q () t) :
    wp (iunlockput x) Q E s := by
  unfold iunlockput
  rw [wp_bind]
  refine wp_iunlock h hE fun t hq hm hv => ?_
  refine wp_iput_last hm hE hheld (fun _ => by rw [hv]; exact hvalid) fun u hst hm' hr hvu => ?_
  rw [hq.inode] at hr
  exact k u (hq.toStill.trans hst) hm' hr fun y hy => (hvu y hy).trans (hv y)

theorem wp_iupdate {f : Inode → Inode} {Q : Unit → State → Prop} (h : Mid own held loose s)
    (ht : (f (s.inode x)).type = (s.inode x).type)
    (hn : (f (s.inode x)).nlink = 0 → x ∈ loose ∨ (s.inode x).nlink = 0)
    (k : ∀ t, Still s t → t.inode = update s.inode x (f (s.inode x)) → t.icache = s.icache →
      Mid own held loose t → Q () t) : wp (iupdate x f) Q E s :=
  k _ ⟨rfl, rfl, rfl⟩ rfl rfl (h.setInode ht hn)

theorem freeInode_some {τ : Tree} (h : τ.freeInode = some x) : (τ x).type = .free ∧ x ≠ 0 ∧ x < NINODES := by
  have hmem : 1 ≤ x ∧ x < 1 + (NINODES - 1) := List.mem_range'_1.mp (List.mem_of_find?_eq_some h)
  refine ⟨of_decide_eq_true (List.find?_some (p := fun i => decide ((τ i).type = .free)) h), by omega, ?_⟩
  simp only [NINODES] at *
  omega

theorem wp_ialloc {kind : Kind} {Q : ℕ → State → Prop} (h : Mid own held loose s) (hE : Tame E)
    (k : ∀ x t, (s.inode x).type = .free → x ≠ 0 → x < NINODES →
      t.inode = update s.inode x { Inode.zero with type := kind } → Still s t →
      Mid own (x :: held) (x :: loose) t → Q x t) : wp (ialloc kind) Q E s := by
  unfold ialloc
  rw [wp_bind, wp_get]
  split
  · exact hE _ rfl
  · rename_i x hx
    obtain ⟨hfree, hpos, hlt⟩ := freeInode_some hx
    have htype : ∀ y, (s.inode y).type ≠ .free →
        ((s.setInode x { Inode.zero with type := kind }).inode y).type ≠ .free := by
      intro y hy
      have hyx : y ≠ x := fun he => hy (he ▸ hfree)
      simpa [State.setInode, hyx] using hy
    have hm : Mid own held (x :: loose) (s.setInode x { Inode.zero with type := kind }) := by
      refine ⟨h.count, fun y hl ht hn => ?_, fun y hy => htype y (h.used y hy), fun y hr hv => htype y (h.real y hr hv)⟩
      have hy : y ≠ x := fun he => hl (he ▸ List.mem_cons_self)
      simp only [State.setInode, update_of_ne hy] at ht hn
      exact h.kept y (fun hmem => hl (List.mem_cons_of_mem _ hmem)) ht hn
    rw [wp_bind, wp_set]
    exact wp_iget hm hE fun t hq hm' _ => k x t hfree hpos hlt hq.inode ⟨hq.file, hq.pipe, hq.proc⟩ hm'

/-! ## Directories -/

theorem wp_dirlookup {dp : ℕ} {name : Name} {Q : Option (ℕ × ℕ) → State → Prop} (h : Mid own held loose s)
    (hE : Tame E) (hdir : (s.inode dp).type = .dir)
    (knone : find name (s.inode dp).ents = none → Q none s)
    (ksome : ∀ x off t, find name (s.inode dp).ents = some (x, off) → Quiet s t → Mid own (x :: held) loose t →
      (∀ y, 0 < (s.icache y).ref → (t.icache y).valid = (s.icache y).valid) → Q (some (x, off)) t) : wp (dirlookup dp name) Q E s := by
  unfold dirlookup
  rw [wp_bind, wp_get, if_neg fun hne => hne hdir]
  split
  · rename_i hf
    exact knone hf
  · rename_i x off hf
    rw [wp_bind]
    exact wp_iget h hE fun t hq hm hv => ksome x off t hf hq hm hv

/-- The table in which `dirlink` has written the new entry. -/
def Tree.entered (τ : Tree) (d : ℕ) (name : Name) (x : ℕ) : Tree :=
  update τ d { τ d with ents := put (τ d).ents (freeSlot (τ d).ents) ⟨x, name.take DIRSIZ⟩ }

theorem wp_dirlink {dp : ℕ} {name : Name} {blocks : Bool} {Q : Bool → State → Prop} (h : Mid own held [] s)
    (hE : Tame E) (hdir : (s.inode dp).type = .dir)
    (kfalse : find name (s.inode dp).ents ≠ none → ∀ t, Quiet s t → Mid own held [] t → Q false t)
    (ktrue : find name (s.inode dp).ents = none → ∀ t, Still s t → t.inode = s.inode.entered dp name x →
      Mid own held [] t → Q true t) :
    wp (dirlink dp name x blocks) Q E s := by
  unfold dirlink
  rw [wp_bind]
  refine wp_dirlookup h hE hdir (fun hf => ?_) fun y off t hf hq hm _ => ?_
  · simp only
    rw [wp_bind, wp_get]
    split_ifs
    · exact hE _ rfl
    · exact hE _ rfl
    · rw [wp_bind]
      exact wp_iupdate h rfl .inr fun t hst hi _ hm => ktrue hf t hst hi hm
  · simp only
    rw [wp_bind]
    exact wp_iput hm (by simp) fun u hq' hm' _ => kfalse (by rw [hf]; simp) u (hq.trans hq') hm'

/-! ## Paths -/

/-- The lookup of a path: the inode reached from `ip`, or with `parent` the directory of the last element and its
name. -/
def Tree.walk (τ : Tree) (parent : Bool) : ℕ → List Name → Option (ℕ × Name)
  | ip, [] => if parent then none else some (ip, [])
  | ip, name :: rest =>
    if (τ ip).type ≠ .dir then none
    else if parent && rest.isEmpty then some (ip, name)
    else
      match find name (τ ip).ents with
      | none => none
      | some (next, _) => τ.walk parent next rest

theorem Tree.walk_dir {τ : Tree} {name : Name} : ∀ {names : List Name} {ip d : ℕ},
    τ.walk true ip names = some (d, name) → (τ d).type = .dir
  | [], ip, d, h => by simp [Tree.walk] at h
  | n :: rest, ip, d, h => by
    simp only [Tree.walk] at h
    split_ifs at h with h1 h2
    · obtain ⟨rfl, -⟩ := by simpa using h
      exact not_not.mp h1
    · split at h
      · cases h
      · exact Tree.walk_dir h

/-- The inode at which the lookup of a path starts. -/
def State.start (s : State) (p : Slot) (path : List Char) : Option ℕ :=
  if path.head? = some '/' then some ROOTINO else (s.proc p).cwd

/-- The directory in which a path has its last element, and that element. -/
def State.parentOf (s : State) (p : Slot) (path : List Char) : Option (ℕ × Name) :=
  (s.start p path).bind fun ip => s.inode.walk true ip (elements path)

/-- The inode that an open file refers to. -/
def File.points (f : File) : Option ℕ := if 0 < f.ref ∧ f.type = .inode then some f.ip else none

/-- The inodes that a call can come to: the root, those in use, and those that directories name. -/
inductive Near (s : State) : ℕ → Prop
  | root : Near s ROOTINO
  | cwd {p : Slot} {x : ℕ} : (s.proc p).cwd = some x → Near s x
  | file {f : Fin NFILE} {x : ℕ} : (s.file f).points = some x → Near s x
  | entry {d x : ℕ} {de : Dirent} : (s.inode d).type = .dir → de ∈ (s.inode d).ents → de.inum = x → x ≠ 0 → Near s x

theorem Near.quiet (h : Near s x) (hq : Quiet s t) : Near t x := by
  cases h with
  | root => exact .root
  | cwd h => exact .cwd (by rw [hq.proc]; exact h)
  | file h => exact .file (by rw [hq.file]; exact h)
  | entry hd hm hx h0 => exact .entry (by rw [hq.inode]; exact hd) (by rw [hq.inode]; exact hm) hx h0

theorem near_of_find {name : Name} {d off : ℕ} (hd : (s.inode d).type = .dir)
    (h : find name (s.inode d).ents = some (x, off)) : Near s x := by
  obtain ⟨de, hde, hx, h0, -⟩ := find_some h
  exact .entry hd (List.mem_of_getElem? hde) hx h0

theorem wp_namexFrom {parent : Bool} {Q : Option (ℕ × Name) → State → Prop} (hE : Tame E) :
    ∀ (fuel : ℕ) (s : State) (ip : ℕ) (path : List Char), path.length < fuel → Mid own (ip :: held) [] s →
      Near s ip → (∀ x, Near s x → (s.inode x).type = .free → E .noType) →
      (s.inode.walk parent ip (elements path) = none → ∀ t, Quiet s t → Mid own held [] t → Q none t) →
      (∀ x name, s.inode.walk parent ip (elements path) = some (x, name) → Near s x →
        ∀ t, Quiet s t → Mid own (x :: held) [] t → Q (some (x, name)) t) →
      wp (namexFrom parent fuel ip path) Q E s
  | 0, _, _, _, hlen, _, _, _, _, _ => absurd hlen (Nat.not_lt_zero _)
  | fuel + 1, s, ip, path, hlen, h, hnear, hfree, knone, ksome => by
    unfold namexFrom
    split
    · rename_i hs
      rw [elements_of_none hs] at knone ksome
      by_cases hp : parent
      · rw [if_pos hp, wp_bind]
        exact wp_iput h (by simp) fun t hq hm _ => knone (by simp [Tree.walk, hp]) t hq hm
      · rw [if_neg hp, wp_pure]
        exact ksome ip [] (by simp [Tree.walk, hp]) hnear s .rfl h
    · rename_i name rest hs
      rw [elements_of_skipelem hs] at knone ksome
      have hrest := skipelem_length hs
      simp only [Tree.walk, isEmpty_elements hs] at knone ksome
      rw [wp_bind]
      refine wp_ilock h hE (hfree ip hnear) fun t hq hm _ _ => ?_
      rw [wp_bind, wp_get, hq.inode]
      by_cases hdir : (s.inode ip).type = .dir
      · rw [if_neg fun hne => hne hdir] at knone ksome ⊢
        by_cases hlast : (parent && rest.isEmpty) = true
        · rw [if_pos hlast] at knone ksome ⊢
          rw [wp_bind]
          exact wp_iunlock hm hE fun u hq' hm' _ => ksome ip name rfl hnear u (hq.trans hq') hm'
        · rw [if_neg hlast] at knone ksome ⊢
          rw [wp_bind]
          refine wp_dirlookup hm hE (by rw [hq.inode]; exact hdir) (fun hf => ?_) fun next off u hf hq' hm' _ => ?_
          · rw [hq.inode] at hf
            rw [hf] at knone
            simp only
            rw [wp_bind]
            exact wp_iunlockput hm hE (by simp) fun u hq' hm' _ => knone rfl u (hq.trans hq') hm'
          · rw [hq.inode] at hf
            rw [hf] at knone ksome
            simp only at knone ksome ⊢
            rw [wp_bind]
            -- the reference to the directory goes, the one to the entry's inode stays
            refine wp_iunlockput hm'.swap hE (by simp) fun v hq'' hm'' _ => ?_
            have hqv := (hq.trans hq').trans hq''
            have hback : ∀ y, Near v y → Near s y := fun y hy => hy.quiet hqv.symm
            refine wp_namexFrom hE fuel v next rest (by omega) hm'' ((near_of_find hdir hf).quiet hqv)
              (fun y hy ht => hfree y (hback y hy) (by rw [← hqv.inode]; exact ht)) (fun hw w hqw hmw => ?_)
              fun y n hw hy w hqw hmw => ?_
            · rw [hqv.inode] at hw
              exact knone hw w (hqv.trans hqw) hmw
            · rw [hqv.inode] at hw
              exact ksome y n hw (hback y hy) w (hqv.trans hqw) hmw
      · rw [if_pos hdir] at knone ksome ⊢
        rw [wp_bind]
        exact wp_iunlockput hm hE (by simp) fun u hq' hm' _ => knone rfl u (hq.trans hq') hm'

theorem wp_namex {p : Slot} {path : List Char} {parent : Bool} {Q : Option (ℕ × Name) → State → Prop}
    (hE : Tame E) (h : Mid own held [] s) (hown : ∀ x, (s.proc p).cwd = some x → 0 < own x)
    (hfree : ∀ x, Near s x → (s.inode x).type = .free → E .noType)
    (knone : ((s.start p path).bind fun ip => s.inode.walk parent ip (elements path)) = none →
      ∀ t, Quiet s t → Mid own held [] t → Q none t)
    (ksome : ∀ x name, ((s.start p path).bind fun ip => s.inode.walk parent ip (elements path)) = some (x, name) →
      Near s x → ∀ t, Quiet s t → Mid own (x :: held) [] t → Q (some (x, name)) t) :
    wp (namex p path parent) Q E s := by
  have key : ∀ (ip : ℕ) (t : State), s.start p path = some ip → Near s ip → Quiet s t → Mid own (ip :: held) [] t →
      wp (namexFrom parent (path.length + 1) ip path) Q E t := by
    intro ip t hstart hnear hq hm
    rw [hstart] at knone ksome
    have hback : ∀ y, Near t y → Near s y := fun y hy => hy.quiet hq.symm
    refine wp_namexFrom hE _ t ip path (Nat.lt_succ_self _) hm (hnear.quiet hq)
      (fun y hy ht => hfree y (hback y hy) (by rw [← hq.inode]; exact ht)) (fun hw u hqu hmu => ?_)
      fun y n hw hy u hqu hmu => ?_
    · rw [hq.inode] at hw
      exact knone hw u (hq.trans hqu) hmu
    · rw [hq.inode] at hw
      exact ksome y n hw (hback y hy) u (hq.trans hqu) hmu
  unfold namex
  split_ifs with hslash
  · rw [wp_bind]
    exact wp_iget h hE fun t hq hm _ => key ROOTINO t (if_pos hslash) .root hq hm
  · rw [wp_bind, wp_get]
    split
    · exact hE _ rfl
    · rename_i cwd hcwd
      rw [wp_bind]
      exact wp_idup h (hown cwd hcwd) fun t hq hm => key cwd t ((if_neg hslash).trans hcwd) (.cwd hcwd) hq hm

end Xv6.Fs
