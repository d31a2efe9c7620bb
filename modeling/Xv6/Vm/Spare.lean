import Xv6.Vm.Loader

/-!
# What `exec` leaves alone

While `exec` builds a directory, pages are in use elsewhere (`rest`), among them those of the process that calls it. If no
bytes of the file go through the mappings of the kernel then no function stores into one of them. What is stored goes to
pages that are known from `Xv6.Vm.Image` (`Stored`), so that only the bytes that `allocuvm` and `freevm` overwrite are
left.
-/

namespace Xv6.Vm.Bytes

open Lib

variable {R T U : Ram} {rest : Frame → ℕ} {fails : List Use} {c : Content} {n sz : ℕ}

/-- The pages that are in use elsewhere have their bytes. -/
def Spared (rest : Frame → ℕ) (R T : Ram) : Prop := ∀ p, 0 < rest p → T.data p = R.data p

theorem Spared.rfl : Spared rest R R := fun _ _ => Eq.refl _

theorem Spared.trans (h : Spared rest R T) (h' : Spared rest T U) : Spared rest R U :=
  fun p hp => (h' p hp).trans (h p hp)

/-! ## Stores -/

/-- Only pages that have been stored to have changed. -/
structure Stored (R T : Ram) : Prop where
  stores : R.mem.stores ⊆ T.mem.stores
  data : ∀ p, T.data p = R.data p ∨ p ∈ T.mem.stores

theorem Stored.rfl : Stored R R := ⟨List.Subset.refl _, fun _ => .inl (Eq.refl _)⟩

theorem Stored.next {f : Frame} {off : ℕ} {bs : List Byte} (h : Stored (R.store f off bs) T) : Stored R T := by
  refine ⟨fun p hp => h.stores (List.mem_cons_of_mem _ hp), fun p => ?_⟩
  by_cases hp : p = f
  · exact .inr (h.stores (hp ▸ List.mem_cons_self))
  · refine (h.data p).imp_left fun hd => hd.trans (Function.update_of_ne hp _ _)

theorem Stored.spared (h : Stored R T) (hk : Kept rest T.mem) : Spared rest R T := by
  refine fun p hp => (h.data p).resolve_right fun hmem => ?_
  rcases hk.stored p hmem with rfl | hmapped
  · exact absurd hk.sound.rest_null hp.ne'
  · exact absurd (hk.own p hmapped) hp.ne'

theorem loadFrom_stores {addr offset len : ℕ} : ∀ (fuel i : ℕ) (R : Ram),
    wp (loadFrom c addr offset len fuel i) (fun _ T => Stored R T) anyStop R := by
  intro fuel
  induction fuel with
  | zero => exact fun _ _ => trivial
  | succ fuel ih =>
    intro i R
    unfold loadFrom
    split_ifs
    swap
    · exact .rfl
    rw [wp_bind, wp_get]
    split
    · trivial
    split
    · exact .rfl
    split_ifs
    · exact .rfl
    · rw [wp_bind, wp_set]
      exact (ih _ _).mono fun _ T hT => hT.next
    · rw [wp_bind, wp_set]
      exact Stored.next .rfl

theorem copyoutFrom_stores : ∀ (fuel va : ℕ) (buf : List Byte) (R : Ram),
    wp (copyoutFrom fuel va buf) (fun _ T => Stored R T) anyStop R := by
  intro fuel
  induction fuel with
  | zero => exact fun _ _ _ => trivial
  | succ fuel ih =>
    intro va buf R
    unfold copyoutFrom
    split_ifs
    swap
    · exact .rfl
    rw [wp_bind, wp_part]
    refine wp_uva2ka (fun _ => trivial) (fun _ _ _ => .rfl) fun e _ _ => ?_
    simp only
    rw [wp_bind, wp_get, wp_bind, wp_set]
    exact (ih _ _ _).mono fun _ T hT => hT.next

/-! ## The program -/

theorem allocuvm_spares {newsz : ℕ} (h : Stage fails rest (npages sz) R.mem) (hsz : sz < KERNBASE ∨ sz ≤ newsz) :
    wp (allocuvm fails sz newsz) (fun r T => Spared rest R T ∧ r = allocates fails sz newsz ∧ r < KERNBASE ∧
      Kept rest T.mem ∧ (r ≠ 0 → Stage fails rest (npages r) T.mem ∧ (AllUser R.mem.pgdir → AllUser T.mem.pgdir)))
      anyStop R := by
  have hdata : wp (Bytes.allocuvm fails sz newsz) (fun _ T => Spared rest R T) anyStop R := by
    unfold Bytes.allocuvm
    split_ifs with hbig hle
    · exact .rfl
    · exact .rfl
    · rw [pgroundup_eq (by omega)]
      exact (wp_allocFrom (not_le.mp hbig) _ _ R h.sound h.tidy le_rfl).mono fun _ T hT => hT.other
  refine (((erases_allocuvm _ _ _).wp nofun (h.allocuvm hsz)).imp (fun _ _ hT => hT) fun _ => False.elim).both hdata |>.mono
    fun r T hT => ⟨hT.2, hT.1.1, hT.1.2.1, hT.1.2.2.1, hT.1.2.2.2.2⟩

theorem loaduvm_spares {ph : Proghdr} (h : Stage fails rest n R.mem) (hoff : ph.off < 2 ^ 32) (hspare : ph.Spares c) :
    wp (loaduvm c ph.vaddr ph.off ph.filesz) (fun ok T => Spared rest R T ∧ Stage fails rest n T.mem ∧
      T.mem.pgdir = R.mem.pgdir ∧ (ok = true ↔ ph.Read c)) anyStop R := by
  have hdata : wp (Bytes.loaduvm c ph.vaddr ph.off ph.filesz) (fun _ T => Stored R T) anyStop R := by
    unfold Bytes.loaduvm
    split_ifs
    · trivial
    · exact loadFrom_stores _ _ R
  exact (((erases_loaduvm _ _ _).wp nofun (h.loaduvm hoff hspare)).imp (fun _ _ hT => hT) fun _ _ => trivial).both hdata |>.mono
    fun ok T hT => ⟨hT.2.spared hT.1.1.toKept, hT.1.1, hT.1.2.1, hT.1.2.2.2⟩

/-- **A straight file** is loaded into pages of the new directory. -/
theorem loadSegments_spares : ∀ (k off sz : ℕ) (R : Ram), Stage fails rest (npages sz) R.mem → AllUser R.mem.pgdir →
    sz < KERNBASE → (∀ x ∈ (c.loads fails k off sz).1, allocates fails x.1 x.2.newsz ≠ 0 → x.2.Spares c) →
    wp (loadSegments fails c k off sz) (fun r T => Spared rest R T ∧ Kept rest T.mem ∧
      ∀ a ∈ r, a < KERNBASE ∧ Stage fails rest (npages a) T.mem ∧ AllUser T.mem.pgdir) anyStop R := by
  intro k
  induction k with
  | zero =>
    intro off sz R hs hu hsz _
    refine ⟨.rfl, hs.toKept, fun a ha => ?_⟩
    cases ha
    exact ⟨hsz, hs, hu⟩
  | succ k ih =>
    intro off sz R hs hu hsz hstraight
    unfold Bytes.loadSegments
    cases hph : c.proghdr off with
    | none => exact ⟨.rfl, hs.toKept, forall_mem_none⟩
    | some ph =>
      simp only
      simp only [Content.loads, hph] at hstraight
      split_ifs with hload hmem
      · exact ih _ sz R hs hu hsz (by rwa [if_pos hload] at hstraight)
      · exact ⟨.rfl, hs.toKept, forall_mem_none⟩
      rw [if_neg hload, if_neg hmem] at hstraight
      rw [wp_bind]
      refine (allocuvm_spares hs (.inl hsz)).mono fun r T hT => ?_
      obtain ⟨hspared, hr, hlt, hkept, hstage⟩ := hT
      split_ifs with hzero
      · exact ⟨hspared, hkept, forall_mem_none⟩
      have hr : r = allocates fails sz ph.newsz := hr
      obtain ⟨hT, hut⟩ := hstage hzero
      have hthis : ph.Spares c := by
        rw [← hr] at hstraight
        refine hstraight (sz, ph) ?_ (hr ▸ hzero)
        split_ifs
        · exact List.mem_cons_self
        · exact List.mem_cons_self
      rw [wp_bind]
      refine (loaduvm_spares hT (Content.proghdr_off_lt hph) hthis).mono fun ok U hU => ?_
      obtain ⟨hspared', hU, hpgdir, hok⟩ := hU
      split_ifs with hread
      · rw [← hr, if_pos ⟨hzero, hok.mp hread⟩] at hstraight
        refine (ih _ r U hU (by rw [hpgdir]; exact hut hu) hlt fun x hx => hstraight x (List.mem_cons_of_mem _ hx)).mono
          fun q V hV => ⟨(hspared.trans hspared').trans hV.1, hV.2⟩
      · exact ⟨hspared.trans hspared', hU.toKept, forall_mem_none⟩

/-! ## The stack -/

theorem copyout_spares {guard va : ℕ} {buf : List Byte} (h : Stage fails rest n R.mem) (hg : Guards guard R.mem.pgdir)
    (hva : va < 2 ^ 32) (hlen : 0 < buf.length) :
    wp (copyout va buf) (fun ok T => Spared rest R T ∧ Stage fails rest n T.mem ∧ Guards guard T.mem.pgdir ∧
      (ok = true → Copies fails n guard va buf.length)) anyStop R := by
  refine (((erases_copyout rfl).wp nofun (h.copyout hg hva hlen)).imp (fun _ _ hT => hT) fun _ _ => trivial).both
    (copyoutFrom_stores _ _ _ R) |>.mono fun ok T hT => ?_
  obtain ⟨⟨-, hstage, hpgdir, -, hok⟩, hstored⟩ := hT
  exact ⟨hstored.spared hstage.toKept, hstage, by rwa [hpgdir], hok.mp⟩

/-! ## The end of a directory -/

theorem freePages_spares : ∀ (l : List Frame) (R : Ram), (∀ f ∈ l, rest f = 0) →
    wp (l.forM fun f => do part (kfree f); memset f 1) (fun _ T => Spared rest R T) anyStop R := by
  intro l
  induction l with
  | nil => exact fun R _ => .rfl
  | cons f l ih =>
    intro R h
    unfold List.forM
    rw [wp_bind, wp_bind, wp_part]
    refine wp_intro (fun _ t _ => ?_) fun _ _ => trivial
    rw [wp_memset]
    refine (ih _ fun g hg => h g (List.mem_cons_of_mem _ hg)).mono fun _ T hT p hp => (hT p hp).trans ?_
    refine Function.update_of_ne (fun e => ?_) _ _
    rw [e, h f List.mem_cons_self] at hp
    omega

/-- **`freevm`** touches pages of its directory only. -/
theorem freevm_spares (h : Sound rest R.mem) (ht : Tidy R.mem.pgdir) :
    wp freevm (fun _ T => Spared rest R T) anyStop R := by
  have hmem : wp (Vm.deallocuvm KERNBASE 0) (fun _ t => Sound rest t) anyStop R.mem :=
    Vm.wp_deallocuvm h ht le_rfl (fun _ => h) fun _ t hf => hf.sound h
  unfold Bytes.freevm
  rw [wp_bind, wp_get]
  split_ifs
  · trivial
  rw [wp_bind]
  refine (((erases_deallocuvm _ _).wp nofun hmem).both (wp_deallocuvm le_rfl)).mono fun _ T hT => ?_
  have hpages : ∀ f ∈ T.mem.pgdir.pages, rest f = 0 := by
    intro f hf
    have hcount := List.count_pos_iff.mpr hf
    have hone := hT.1.le_one f
    rw [Mem.total, Pgdir.holds_eq] at hone
    omega
  rw [wp_bind, wp_get, wp_bind, wp_set]
  generalize T.mem.pgdir.pages = l at hpages ⊢
  exact (freePages_spares l _ hpages).mono fun _ U hU p hp => (hU p hp).trans (hT.2.other h hp)

end Xv6.Vm.Bytes
