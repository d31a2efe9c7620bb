import Xv6.Lib.Transition
import Xv6.Vm.Image

/-!
# User memory over whole runs

The processes and the free list share the pages of physical memory: no page is in two places (`Good`). This holds in
every state that a run reaches, whatever `kalloc` does, as long as `exec` does not store bytes of a file through the
mappings of the kernel (`ExecGuard`): such an `exec` may store anywhere.
-/

namespace Xv6.Vm

open Lib
open Function (update update_of_ne update_self)

variable {s t : Sys} {full : Prop} {p : Slot} {P : Proc} {fails : List Use} {m : Mem} {rest : Frame → ℕ} {n : Word} {sz : ℕ}
  {E : Stop → Prop}

/-! ## The account of the system -/

/-- The process that runs or has exited. -/
def Status.proc : Status → Option Proc
  | .unused => none
  | .live P => some P
  | .zombie P => some P

def Proc.holds (P : Proc) : Frame → ℕ := plus P.pgdir.holds P.kstack

def Status.holds (st : Status) (f : Frame) : ℕ := (st.proc.map fun P => P.holds f).getD 0

def Sys.uses (s : Sys) (f : Frame) : ℕ := ∑ q, (s.proc q).holds f

/-- The uses by all processes but `p`. -/
def Sys.others (s : Sys) (p : Slot) (f : Frame) : ℕ := ∑ q ∈ Finset.univ.erase p, (s.proc q).holds f

theorem Sys.uses_eq (s : Sys) (p : Slot) (f : Frame) : s.uses f = (s.proc p).holds f + s.others p f :=
  (Finset.add_sum_erase _ _ (Finset.mem_univ p)).symm

theorem Sys.uses_update (s : Sys) (k : Kmem) (p : Slot) (st : Status) (f : Frame) :
    Sys.uses ⟨k, update s.proc p st⟩ f = st.holds f + s.others p f := by
  rw [Sys.uses_eq _ p]
  congr 1
  · simp
  · refine Finset.sum_congr rfl fun q hq => ?_
    simp only [update_of_ne (Finset.ne_of_mem_erase hq)]

theorem Status.holds_of {st : Status} (h : st.proc = some P) (f : Frame) :
    st.holds f = P.pgdir.holds f + one P.kstack f := by
  rw [Status.holds, h]
  rfl

/-- What holds of each process; with `full` also that exactly the pages of its memory are mapped. -/
structure Proc.Good (full : Prop) (P : Proc) : Prop where
  tidy : Tidy P.pgdir
  page : P.pgdir.page ≠ none
  size : P.sz < KERNBASE
  filled : full → Filled (npages P.sz) P.pgdir

/-- **The invariant.** -/
structure Good (full : Prop) (s : Sys) : Prop where
  sound : Sound s.uses (s.mem .empty)
  procs : ∀ p P, (s.proc p).proc = some P → P.Good full

theorem Sys.total_mem (s : Sys) (f : Frame) : (s.mem .empty).total f = s.kmem.avail f := by
  rw [Mem.total, Sys.mem, Pgdir.holds_empty, Nat.add_zero]

theorem Good.enter (h : Good full s) (hp : (s.proc p).proc = some P) :
    Sound (plus (s.others p) P.kstack) (s.mem P.pgdir) := by
  refine h.sound.of_le rfl fun f => ?_
  rw [s.total_mem, s.uses_eq p, Status.holds_of hp, Mem.total, plus]
  simp only [Sys.mem]
  omega

theorem Good.update {st : Status} (h : Good full s) (hs : Sound rest m)
    (hle : ∀ f, st.holds f + s.others p f ≤ m.pgdir.holds f + rest f) (hst : ∀ P, st.proc = some P → P.Good full) :
    Good full ⟨m.kmem, update s.proc p st⟩ := by
  refine ⟨hs.of_le rfl fun f => ?_, fun q Q hq => ?_⟩
  · have := hle f
    rw [Sys.total_mem, Sys.uses_update, Mem.total]
    simp only
    omega
  · by_cases hqp : q = p
    · subst hqp
      simp only [update_self] at hq
      exact hst Q hq
    · simp only [update_of_ne hqp] at hq
      exact h.procs q Q hq

theorem Good.kept (h : Good full s) (hs : Sound s.uses m) : Good full ⟨m.kmem, s.proc⟩ := by
  refine ⟨hs.of_le rfl fun f => ?_, h.procs⟩
  rw [Sys.total_mem, Mem.total]
  exact Nat.add_le_add_right (Nat.le_add_right _ _) _

/-! ## `sbrk` -/

/-- A memory of `oldsz` bytes grows without a gap: if a page is found for each page, then it gets a page table. -/
def GrowsWhole (fails : List Use) (d : Pgdir) (oldsz newsz : ℕ) : Prop :=
  newsz < KERNBASE → PagesFound fails (npages oldsz) (npages newsz) →
    TablesFound fails d (npages oldsz) (npages newsz)

instance (d : Pgdir) (oldsz newsz : ℕ) : Decidable (GrowsWhole fails d oldsz newsz) :=
  inferInstanceAs (Decidable (_ → _ → _))

/-- **The condition of `sbrk`**: the memory grows without a gap, and does not shrink to nothing. -/
structure GrowFits (fails : List Use) (P : Proc) (n : Word) : Prop where
  tables : 0 < n.toInt → GrowsWhole fails P.pgdir P.sz ((P.sz + n.toNat) % 2 ^ 32)
  nonzero : n.toInt < 0 → (P.sz : ℤ) + n.toInt ≠ 0

theorem sum_eq_zero (hsz : sz < KERNBASE) (hn : n.toInt < 0) :
    (sz + n.toNat) % 2 ^ 32 = 0 ↔ (sz : ℤ) + n.toInt = 0 := by
  have := n.isLt
  rw [BitVec.toInt_eq_toNat_cond] at hn ⊢
  simp only [KERNBASE] at hsz
  split_ifs at hn ⊢ <;> omega

/-- What `growproc` leaves. -/
structure Grows (full : Prop) (rest : Frame → ℕ) (s t : Mem) (sz : ℕ) : Prop where
  sound : Sound rest t
  tidy : Tidy t.pgdir
  page : t.pgdir.page = s.pgdir.page
  size : sz < KERNBASE
  filled : full → Filled (npages sz) t.pgdir

theorem wp_growproc {s : Mem} (h : Sound rest s) (hd : s.pgdir = P.pgdir) (hP : P.Good full)
    (hfit : full → GrowFits fails P n) :
    wp (growproc fails P.sz n) (fun r t => Grows full rest s t (r.getD P.sz)) (fun _ => True) s := by
  have htidy : Tidy s.pgdir := hd ▸ hP.tidy
  have hfull : full → Filled (npages P.sz) s.pgdir := fun hf => hd ▸ hP.filled hf
  have hsame : Grows full rest s s P.sz := ⟨h, htidy, rfl, hP.size, hfull⟩
  have hkeep : Grows full rest s s ((if P.sz = 0 then none else some P.sz).getD P.sz) := by
    split_ifs
    · exact hsame
    · exact hsame
  unfold growproc
  split_ifs with hpos hneg
  · rw [wp_bind]
    refine wp_allocuvm h htidy (.inl trivial) (fun _ => hsame) (fun _ _ => hkeep) fun hnew hold r t hg => ?_
    rw [wp_pure]
    refine ⟨h.of_le hg.first fun g => Nat.add_le_add_right (hg.total_le g) _, hg.tidy, hg.page, ?_, fun hf => ?_⟩
    · split_ifs
      · exact hP.size
      · rw [Option.getD_some, hg.value]
        split_ifs
        · exact hnew
        · decide
    · by_cases hpages : PagesFound fails (npages P.sz) (npages ((P.sz + n.toNat) % 2 ^ 32))
      · have htables := (hfit hf).tables hpos hnew hpages
        have hfill : Filled (npages ((P.sz + n.toNat) % 2 ^ 32)) t.pgdir :=
          ((hg.made hpages).filled (hfull hf) (npages_mono hold) (npages_le hnew.le)).mpr fun v hv hlt =>
            hd ▸ htables v hv hlt fun w hw hw' => hpages w hw (by omega)
        rw [hg.value, if_pos hpages]
        split_ifs with hzero
        · rw [Option.getD_none]
          rwa [show P.sz = (P.sz + n.toNat) % 2 ^ 32 by omega]
        · exact hfill
      · rw [hg.value, if_neg hpages, if_pos rfl]
        exact hg.cut hpages ((hfull hf).spans le_rfl)
  · rw [wp_bind]
    refine wp_deallocuvm h htidy hP.size.le (fun _ => hkeep) fun hlt t hfreed => ?_
    rw [wp_pure]
    refine ⟨hfreed.sound h, hfreed.tidy htidy, hfreed.page, ?_, fun hf => ?_⟩
    · split_ifs
      · exact hP.size
      · exact hlt.trans hP.size
    · rw [if_neg fun hz => (hfit hf).nonzero hneg ((sum_eq_zero hP.size hneg).mp hz)]
      exact hfreed.filled htidy ((hfull hf).spans (npages_mono hlt.le))
  · exact hsame

theorem Sys.sbrk_good (h : Good full s) (hp : s.proc p = .live P) (hfit : full → GrowFits fails P n)
    (hr : s.sbrk fails p P n = .ok t) : Good full t := by
  have hproc : (s.proc p).proc = some P := by rw [hp]; rfl
  have hP := h.procs p P hproc
  have hwp := wp_growproc (h.enter hproc) rfl hP hfit
  unfold Sys.sbrk at hr
  split at hr
  · cases hr
  rename_i r m hm
  cases hr
  have hg := hwp.ok hm
  refine h.update hg.sound (fun f => ?_) fun Q hQ => ?_
  · rw [Status.holds_of rfl, plus]
    simp only
    omega
  · cases hQ
    exact ⟨hg.tidy, by rw [hg.page]; exact hP.page, hg.size, hg.filled⟩

/-! ## `fork` -/

/-- What `fork` leaves: nothing, or the memory of the child beside its kernel stack. -/
def Forked (rest : Frame → ℕ) (P : Proc) : Option Proc → Mem → Prop
  | none, t => Sound rest t
  | some Q, t => Sound (plus rest Q.kstack) t ∧ t.pgdir = Q.pgdir ∧ Q.sz = P.sz ∧ Whole (npages P.sz) Q.pgdir

theorem wp_fork {s : Mem} (h : Sound rest s) (hsz : P.sz ≤ KERNBASE) (hc : Copyable E P.pgdir P.sz) :
    wp (fork fails P) (Forked rest P) E s := by
  unfold fork
  rw [wp_bind]
  refine wp_kalloc (fun _ => h) fun kstack u _ hb ha => ?_
  have hu := h.take hb ha
  have hfree : ∀ t, Sound (plus rest kstack) t → wp (do kfree kstack; return none) (Forked rest P) E t := by
    intro t ht
    rw [wp_bind]
    refine wp_kfree (ht.first_le (by simp [plus])) fun v hbv hav => ht.of_le hbv.first fun g => ?_
    have := hav g
    rw [Mem.total, Mem.total, hbv.pgdir, plus]
    omega
  simp only [wp_bind]
  refine wp_copyuvm hu hsz hc (fun _ => hfree u hu) (fun _ _ t ht => hfree t (ht.sound hu))
    fun _ t ht ok v hv => ?_
  have hsound := hv.sound (ht.sound hu)
  cases ok with
  | false => exact hfree v hsound
  | true =>
    simp only [if_true, wp_bind, wp_get]
    exact ⟨hsound, rfl, rfl, hv.whole rfl⟩

theorem Sys.fork_good {np : Slot} (h : Good full s) (hp : s.proc p = .live P)
    (hr : s.fork fails P np = .ok t) : Good full t := by
  have hP := h.procs p P (by rw [hp]; rfl)
  have hwp : wp (Vm.fork fails P) _ (fun _ => True) (s.mem .empty) := wp_fork h.sound hP.size.le (.inr ⟨trivial, trivial⟩)
  unfold Sys.fork at hr
  split at hr
  · rename_i hunused
    split at hr
    · cases hr
    · rename_i m hm
      cases hr
      exact h.kept (hwp.ok hm)
    · rename_i Q m hm
      cases hr
      obtain ⟨hs, hd, hQ, hw⟩ := hwp.ok hm
      refine h.update hs (fun f => ?_) fun R hR => ?_
      · rw [Status.holds_of rfl, hd, plus, s.uses_eq np]
        omega
      · cases hR
        exact ⟨hw.tidy, hw.page, by rw [hQ]; exact hP.size, fun _ => by rw [hQ]; exact hw.filled⟩
  · cases hr
    exact h

/-! ## `exec` -/

/-- What `exec` has built becomes the memory of the process, and the old directory is freed. -/
theorem Sys.exec_installs {file : Option Content} {argv : List (List Byte)} {r : Option Image} (h : Good full s)
    (hp : s.proc p = .live P) (hm : Vm.exec fails file argv (s.mem .empty) = .ok (r, m))
    (hi : Installs fails file argv s.uses (s.mem .empty) r m) (hfill : full → ExecFills fails file) :
    ∃ t, s.exec fails p P file argv = .ok t ∧ Good full t ∧
      t.proc = r.elim s.proc fun image => update s.proc p (.live ⟨m.pgdir, image.sz, P.kstack⟩) := by
  have hproc : (s.proc p).proc = some P := by rw [hp]; rfl
  have hP := h.procs p P hproc
  unfold Sys.exec
  rw [hm]
  cases r with
  | none => exact ⟨_, rfl, h.kept hi.sound, rfl⟩
  | some image =>
    obtain ⟨hsz, htidy, hpage, hfilled⟩ := hi.image image rfl
    -- the old directory is freed while the new one is in use
    have hs : Sound (fun f => s.others p f + one P.kstack f + m.pgdir.holds f) { m with pgdir := P.pgdir } := by
      refine hi.sound.of_le rfl fun f => ?_
      rw [s.uses_eq p, Status.holds_of hproc, Mem.total, Mem.total]
      simp only
      omega
    obtain ⟨_, m', hm', hs'⟩ := (wp_freevm (Q := fun _ => Sound _) (E := fun _ => False) hs hP.tidy hP.page
      fun t ht => ht.sound hs).returns
    refine ⟨⟨m'.kmem, update s.proc p (.live ⟨m.pgdir, image.sz, P.kstack⟩)⟩, by simp only [hm'], ?_, rfl⟩
    refine h.update hs' (fun f => ?_) fun Q hQ => ?_
    · rw [Status.holds_of rfl]
      simp only
      omega
    · cases hQ
      exact ⟨htidy, hpage, hsz, fun hf => hfilled (hfill hf)⟩

/-- **`exec` in the system** keeps the invariant if it returns. -/
theorem Sys.exec_good {file : Option Content} {argv : List (List Byte)} (h : Good full s) (hp : s.proc p = .live P)
    (hstraight : ∀ c ∈ file, c.Straight fails) (hfill : full → ExecFills fails file)
    (hr : s.exec fails p P file argv = .ok t) : Good full t := by
  cases hm : Vm.exec fails file argv (s.mem .empty) with
  | error e =>
    rw [Sys.exec, hm] at hr
    cases hr
  | ok x =>
    obtain ⟨u, hu, hgood, -⟩ := Sys.exec_installs h hp hm ((wp_exec hstraight h.sound rfl rfl).ok hm) hfill
    rw [hu] at hr
    cases hr
    exact hgood

/-! ## `exit` and the scheduler -/

theorem Sys.exit_good (h : Good full s) (hp : s.proc p = .live P) (hr : s.exit p P = .ok t) : Good full t := by
  have hproc : (s.proc p).proc = some P := by rw [hp]; rfl
  unfold Sys.exit at hr
  split_ifs at hr
  cases hr
  refine h.update h.sound (fun f => ?_) fun Q hQ => ?_
  · rw [Status.holds_of rfl, s.uses_eq p, Status.holds_of hproc]
    omega
  · cases hQ
    exact h.procs p P hproc

theorem Sys.reap_good (h : Good full s) (hp : s.proc p = .zombie P) (hr : s.reap p P = .ok t) : Good full t := by
  have hproc : (s.proc p).proc = some P := by rw [hp]; rfl
  have hP := h.procs p P hproc
  have hwp : wp (freeproc P.kstack) (fun _ t => Sound (s.others p) t) (fun _ => True) (s.mem P.pgdir) := by
    have henter := h.enter hproc
    unfold freeproc
    rw [wp_bind]
    refine wp_kfree (henter.first_le (by simp [plus])) fun u hb ha => ?_
    have hu : Sound (s.others p) u := by
      refine henter.of_le hb.first fun g => ?_
      have := ha g
      rw [Mem.total, Mem.total, hb.pgdir, plus]
      omega
    exact wp_freevm hu (by rw [hb.pgdir]; exact hP.tidy) (by rw [hb.pgdir]; exact hP.page) fun v hv => hv.sound hu
  unfold Sys.reap at hr
  split at hr
  · cases hr
  rename_i m hm
  cases hr
  refine h.update (hwp.ok hm) (fun f => ?_) fun Q hQ => ?_
  · exact Nat.add_le_add_right (Nat.zero_le _) _
  · cases hQ

/-! ## Runs -/

/-- The guard of `exec`: it does not store bytes of the file through the mappings of the kernel. Every other step meets
it. -/
def ExecGuard (_ : Sys) (l : Label) : Prop :=
  match l.call with
  | .exec file _ => ∀ c ∈ file, c.Straight l.fails
  | _ => True

/-- The guard for the memory of each process: `sbrk` and `exec` leave no gap in it, and it does not shrink to nothing. -/
def MemoryFits (fails : List Use) : Status → Call → Prop
  | .live P, .sbrk n => GrowFits fails P n
  | _, .exec file _ => ExecFills fails file
  | _, _ => True

def Guard (s : Sys) (l : Label) : Prop := ExecGuard s l ∧ MemoryFits l.fails (s.proc l.proc) l.call

instance (s : Sys) : ∀ l : Label, Decidable (ExecGuard s l)
  | ⟨_, fails, .exec file _⟩ => inferInstanceAs (Decidable (∀ c ∈ file, c.Straight fails))
  | ⟨_, _, .sbrk _⟩ | ⟨_, _, .fork _⟩ | ⟨_, _, .exit⟩ | ⟨_, _, .reap⟩ => .isTrue trivial

instance : Decidable (GrowFits fails P n) :=
  decidable_of_iff ((0 < n.toInt → GrowsWhole fails P.pgdir P.sz ((P.sz + n.toNat) % 2 ^ 32)) ∧
    (n.toInt < 0 → (P.sz : ℤ) + n.toInt ≠ 0))
    ⟨fun h => ⟨h.1, h.2⟩, fun h => ⟨h.tables, h.nonzero⟩⟩

instance : ∀ (st : Status) (call : Call), Decidable (MemoryFits fails st call)
  | .live P, .sbrk n => inferInstanceAs (Decidable (GrowFits fails P n))
  | .live _, .exec file _ | .unused, .exec file _ | .zombie _, .exec file _ =>
    inferInstanceAs (Decidable (ExecFills fails file))
  | .live _, .fork _ | .live _, .exit | .live _, .reap => .isTrue trivial
  | .unused, .sbrk _ | .unused, .fork _ | .unused, .exit | .unused, .reap => .isTrue trivial
  | .zombie _, .sbrk _ | .zombie _, .fork _ | .zombie _, .exit | .zombie _, .reap => .isTrue trivial

instance (s : Sys) (l : Label) : Decidable (Guard s l) := inferInstanceAs (Decidable (_ ∧ _))

theorem Good.step {l : Label} (h : Good full s) (hexec : ExecGuard s l) (hguard : full → Guard s l)
    (hr : step s l = some t) : Good full t := by
  unfold Vm.step at hr
  split at hr
  · rename_i P n hp hcall
    exact Sys.sbrk_good h hp (fun hf => by simpa only [MemoryFits, hp, hcall] using (hguard hf).2) (of_toOption hr)
  · rename_i P np hp hcall
    exact Sys.fork_good h hp (of_toOption hr)
  · rename_i P file argv hp hcall
    exact Sys.exec_good h hp (by simpa only [ExecGuard, hcall] using hexec)
      (fun hf => by simpa only [MemoryFits, hp, hcall] using (hguard hf).2) (of_toOption hr)
  · rename_i P hp hcall
    exact Sys.exit_good h hp (of_toOption hr)
  · rename_i P hp hcall
    exact Sys.reap_good h hp (of_toOption hr)
  · cases hr

/-! ## The first process -/

theorem mapKernel_start (first : Frame) (mapped stores : List Frame) :
    ∀ (is : List ℕ) (next : ℕ) (d : Pgdir), mapKernel [] is ⟨⟨first, [], next⟩, d, mapped, stores⟩ =
      .ok (true, ⟨⟨first, [], next + is.length⟩,
        { d with kernel := d.kernel ++ (List.range' next is.length).map (fresh first) }, mapped, stores⟩)
  | [], next, d => by
    rw [List.length_nil, List.range'_zero, List.map_nil, List.append_nil, Nat.add_zero]
    rfl
  | i :: is, next, d => by
    show mapKernel [] is ⟨⟨first, [], next + 1⟩, { d with kernel := d.kernel ++ [fresh first next] }, mapped, stores⟩ = _
    rw [mapKernel_start first mapped stores is]
    simp only [List.length_cons, List.range'_succ, List.map_cons, List.append_assoc, List.singleton_append, Nat.add_assoc,
      Nat.add_comm 1]

theorem kalloc_start {first next : ℕ} {d : Pgdir} {mapped stores : List Frame} {u : Use} :
    kalloc [] u ⟨⟨first, [], next⟩, d, mapped, stores⟩ =
      .ok (some (fresh first next), ⟨⟨first, [], next + 1⟩, d, mapped, stores⟩) := rfl

theorem Sound.kalloc_start {first next : ℕ} {d : Pgdir} {mapped stores : List Frame}
    (h : Sound rest ⟨⟨first, [], next⟩, d, mapped, stores⟩) :
    Sound (plus rest (fresh first next)) ⟨⟨first, [], next + 1⟩, d, mapped, stores⟩ :=
  h.take ⟨rfl, rfl, rfl, rfl⟩ (avail_next ⟨first, [], next⟩)

/-- The directory that `setupkvm` makes for the first process. -/
def Pgdir.boot (first : Frame) : Pgdir :=
  ⟨some (fresh first 1), (List.range' 2 64).map (fresh first), fun _ => none, fun _ => .zero⟩

theorem setupkvm_start (first : Frame) : setupkvm [] ⟨⟨first, [], 1⟩, .empty, [], []⟩ =
    .ok (true, ⟨⟨first, [], 66⟩, .boot first, [], []⟩) := by
  have hlen : kernelTables.length = 64 := by decide +kernel
  apply wp.eq_ok
  unfold setupkvm
  rw [wp_bind, wp_of_ok kalloc_start]
  simp only [wp_bind, wp_get, wp_set]
  rw [wp_of_ok (mapKernel_start first [] [] kernelTables _ _), hlen]
  exact ⟨rfl, rfl⟩

theorem mappages_start (first : Frame) :
    mappages [] 0 (fresh first 66) true ⟨⟨first, [], 67⟩, .boot first, [], []⟩ =
      .ok (true, ⟨(boot first).kmem, (Proc.boot first).pgdir, [fresh first 66], []⟩) := by
  have hd : (Proc.boot first).pgdir =
      ((Pgdir.boot first).addTable (pdx 0) (fresh first 67)).setPte 0 ⟨fresh first 66, true, true⟩ := by
    simp [Proc.boot, Pgdir.boot, Pgdir.addTable, Pgdir.setPte, pdx]
  rw [hd]
  rfl

/-- What `userinit` does: a kernel stack, a directory, and one page. -/
theorem boot_sound {first : ℕ} (h : 0 < first) :
    Sound (plus (fun _ => 0) (fresh first 0)) ⟨(boot first).kmem, (Proc.boot first).pgdir, [fresh first 66], []⟩ ∧
      Whole (npages PGSIZE) (Proc.boot first).pgdir := by
  have h0 : Sound (fun _ => 0) ⟨⟨first, [], 0⟩, .empty, [], []⟩ := by
    refine ⟨fun f => ?_, h⟩
    rw [Mem.total, Pgdir.holds_empty]
    simp [Kmem.avail]
  have h1 := h0.kalloc_start
  have hfresh : Fresh ⟨⟨first, [], 1⟩, .empty, [], []⟩ ⟨⟨first, [], 66⟩, .boot first, [], []⟩ :=
    (wp_setupkvm (Q := fun r t => r = true → Fresh _ t) (E := fun _ => False) (fun _ h => by cases h)
      (fun _ _ _ _ h => by cases h) fun _ t ht _ => ht).ok (setupkvm_start first) rfl
  have h2 := hfresh.sound h1
  have h3 : Sound _ ⟨⟨first, [], 67⟩, .boot first, [], []⟩ := h2.kalloc_start
  have hmap : wp (mappages [] (0 * PGSIZE) (fresh first 66) true)
      (fun r t => r = true → Adds (0 * PGSIZE) (fresh first 66) true ⟨⟨first, [], 67⟩, .boot first, [], []⟩ t)
      (fun _ => True) ⟨⟨first, [], 67⟩, .boot first, [], []⟩ :=
    wp_mappages hfresh.tidy (by simp [KERNBASE]) (fun _ _ h => by cases h) (fun _ => trivial) fun _ _ t hadds _ => hadds
  have hadds := hmap.ok (mappages_start first) rfl
  have hw : Whole 0 (Pgdir.boot first) := hfresh.whole
  refine ⟨h3.of_le hadds.first fun g => ?_, Whole.next (s := ⟨⟨first, [], 67⟩, .boot first, [], []⟩) hw hadds⟩
  have := hadds.total g
  simp only [plus]
  omega

theorem boot_good {first : ℕ} (h : 0 < first) : Good full (boot first) := by
  obtain ⟨hs, hw⟩ := boot_sound h
  have hnone : Good full ⟨(boot first).kmem, fun _ => .unused⟩ := by
    refine ⟨hs.of_le rfl fun f => ?_, nofun⟩
    rw [Sys.total_mem]
    simp [Mem.total, Sys.uses, Status.holds, Status.proc, Nat.add_assoc]
  refine hnone.update hs (fun f => ?_) fun P hP => ?_
  · rw [Status.holds_of rfl]
    simp only [Sys.others, Status.holds, Status.proc, plus, Proc.boot, Option.map_none, Option.getD_none,
      Finset.sum_const_zero, Nat.add_zero, Nat.zero_add]
    exact le_rfl
  · cases hP
    exact ⟨hw.tidy, hw.page, by simp [Proc.boot, PGSIZE, KERNBASE], fun _ => hw.filled⟩

/-! ## Runs -/

theorem good_of_path {first : ℕ} {tr : List (Sys × Label)} (hfirst : 0 < first)
    (hpath : Path step ExecGuard (boot first) tr s) : Good False s :=
  hpath.inv (boot_good hfirst) fun _ _ _ h hg hr => h.step hg False.elim hr

/-- **`exec` works**: it returns -1, or installs the new image; what it stores goes to pages that it has mapped into the
user part of the new directory, and that nobody used before. -/
def ExecWorks (s : Sys) (fails : List Use) (p : Slot) (P : Proc) (file : Option Content) (argv : List (List Byte)) : Prop :=
  ∃ r m t, Vm.exec fails file argv (s.mem .empty) = .ok (r, m) ∧ s.exec fails p P file argv = .ok t ∧
    (t.proc = r.elim s.proc fun image => update s.proc p (.live ⟨m.pgdir, image.sz, P.kstack⟩)) ∧
    ∀ f ∈ m.stores, f ∈ m.mapped ∧ s.uses f = 0

/-- **`exec` on any state that a run reaches** works if the file and the arguments fit. If they do not then it does not
work, unless it stores through the mappings of the kernel: where these bytes go depends on the pages that `kalloc` has
found for it. -/
theorem exec_returns {first : Frame} {tr : List (Sys × Label)} {file : Option Content} {argv : List (List Byte)}
    (hfirst : 0 < first) (hpath : Path step ExecGuard (boot first) tr s) (hp : s.proc p = .live P) :
    (ExecFits fails file argv → ExecWorks s fails p P file argv) ∧
      (ExecWorks s fails p P file argv → (∀ c ∈ file, c.Straight fails) → ExecFits fails file argv) := by
  have hgood := good_of_path hfirst hpath
  have hwp : (∀ c ∈ file, c.Straight fails) → wp (Vm.exec fails file argv) _ _ (s.mem .empty) := fun hstraight =>
    wp_exec hstraight hgood.sound rfl rfl
  constructor
  · intro hfits
    obtain ⟨r, m, hm, hi⟩ := ((hwp hfits.straight).imp (fun _ _ h => h) fun _ h => h hfits).returns
    obtain ⟨t, ht, -, hproc⟩ := Sys.exec_installs hgood hp hm hi False.elim
    have hstored := hi.stored.mpr hfits
    exact ⟨r, m, t, hm, ht, hproc, fun f hf => ⟨hstored hf, hi.own f (hstored hf)⟩⟩
  · rintro ⟨r, m, -, hm, -, -, hstored⟩ hstraight
    exact ((hwp hstraight).ok hm).stored.mp fun f hf => (hstored f hf).1

/-- A program of one segment with four bytes in the file, for `memsz` bytes at `vaddr`. -/
def program (vaddr memsz : Word) : Content where
  bytes := [0x7F, 0x45, 0x4C, 0x46] ++ List.replicate 24 0 ++ [52, 0, 0, 0] ++ List.replicate 12 0 ++ [1, 0] ++
    List.replicate 6 0 ++ [1, 0, 0, 0] ++ List.replicate 4 0 ++ (List.range 4).map (byte vaddr) ++ List.replicate 4 0 ++
    [4, 0, 0, 0] ++ (List.range 4).map (byte memsz) ++ List.replicate 8 0
  bound := by simp [MAXSIZE]

/-- The process that runs, if one does. -/
def Status.live? : Status → Option Proc
  | .live P => some P
  | _ => none

theorem Status.of_live? {st : Status} (h : st.live? = some P) : st = .live P := by
  cases st with
  | live Q =>
    cases h
    rfl
  | unused | zombie => cases h

/-- A program and an argument, after `sbrk`, `fork` and a failed `sbrk`. -/
theorem exec_returns_program : ∃ tr s P, Path step ExecGuard (boot 256) tr s ∧ s.proc 1 = .live P ∧
    ExecWorks s [] 1 P (some (program 0 4)) [[97]] := by
  obtain ⟨s, hpath, hlive⟩ := exists_path step ExecGuard (boot 256)
    [⟨initproc, [], .sbrk 4096⟩, ⟨initproc, [], .fork 1⟩, ⟨initproc, [.page 8192], .sbrk 4096⟩]
    (fun s => (s.proc 1).live?.isSome) (by decide +kernel)
  obtain ⟨P, hP⟩ := Option.isSome_iff_exists.mp hlive
  have hp := Status.of_live? hP
  exact ⟨_, s, P, hpath, hp, (exec_returns (by decide) hpath hp).1 (by decide +kernel)⟩

/-- Why a call did not return. -/
def stopOf {α : Type} : Except Stop α → Option Stop
  | .ok _ => none
  | .error e => some e

/-- A segment that does not start at a page stops the kernel. One for which `vaddr + memsz` passes 2^32 is loaded
through the mappings of the kernel, here to the first page of physical memory, which is not one of the new directory. -/
theorem exec_unaligned_or_wrapping :
    stopOf ((boot 256).exec [] initproc (.boot 256) (some (program 1 4)) []) = some .loadAligned ∧
      ∃ r m, Vm.exec [] (some (program 0x80000000 0x80001000)) [] ((boot 256).mem .empty) = .ok (some r, m) ∧
        0 ∈ m.stores ∧ 0 ∉ m.mapped := by
  refine ⟨by decide +kernel, ?_⟩
  obtain ⟨r, m, hr, hsome, hm⟩ := returns_of_toOption (m := Vm.exec [] (some (program 0x80000000 0x80001000)) [])
    (s := (boot 256).mem .empty) (Q := fun r m => r.isSome ∧ 0 ∈ m.stores ∧ 0 ∉ m.mapped) (by decide +kernel)
  obtain ⟨image, rfl⟩ := Option.isSome_iff_exists.mp hsome
  exact ⟨image, m, hr, hm⟩

/-! ## Address spaces -/

/-- The user page at `b` of process `q` is mapped to `f`. -/
def Sys.Maps (s : Sys) (q : Slot) (b : ℕ) (f : Frame) : Prop :=
  ∃ Q e, (s.proc q).proc = some Q ∧ b < KERNBASE ∧ b % PGSIZE = 0 ∧ Q.pgdir.walk b = some e ∧ e.present = true ∧ e.frame = f

/-- The page is on the free list. -/
def Kmem.Free (k : Kmem) (f : Frame) : Prop := 0 < k.avail f

theorem Sys.Maps.target {q : Slot} {b : ℕ} {f : Frame} (h : s.Maps q b f) :
    ∃ Q, (s.proc q).proc = some Q ∧ b / PGSIZE < NUPAGES ∧ (Q.pgdir.pte (b / PGSIZE)).target = some f := by
  obtain ⟨Q, e, hQ, hb, -, hwalk, hpresent, hf⟩ := h
  rw [walk_user hb] at hwalk
  split_ifs at hwalk
  cases hwalk
  exact ⟨Q, hQ, page_lt hb, Pte.target_eq_some.mpr ⟨hpresent, hf⟩⟩

theorem Sys.Maps.holds_pos {q : Slot} {b : ℕ} {f : Frame} (h : s.Maps q b f) : 0 < (s.proc q).holds f := by
  obtain ⟨Q, hQ, hb, ht⟩ := h.target
  have := Vm.holds_pos hb ht
  rw [Status.holds_of hQ]
  omega

theorem Good.once (h : Good full s) (f : Frame) : s.kmem.avail f + s.uses f ≤ 1 := by
  have hone := h.sound.le_one f
  rwa [s.total_mem] at hone

theorem Good.maps_used {q : Slot} {b : ℕ} {f : Frame} (h : Good full s) (hq : s.Maps q b f) : ¬ s.kmem.Free f := by
  have hpos := hq.holds_pos
  have hone := h.once f
  rw [s.uses_eq q] at hone
  unfold Kmem.Free
  omega

/-- **No page is mapped twice.** -/
theorem Good.maps_unique {q : Slot} {a b : ℕ} {f : Frame} (h : Good full s) (hp : s.Maps p a f) (hq : s.Maps q b f) :
    q = p ∧ b = a := by
  have hone := h.once f
  have hpos := hp.holds_pos
  rw [s.uses_eq p] at hone
  by_cases hqp : q = p
  · subst hqp
    refine ⟨rfl, ?_⟩
    obtain ⟨Q, hQ, ha, hta⟩ := hp.target
    obtain ⟨Q', hQ', hb, htb⟩ := hq.target
    rw [hQ] at hQ'
    cases hQ'
    have heq : b / PGSIZE = a / PGSIZE := (h.enter hQ).target_inj hb ha htb hta
    obtain ⟨-, -, -, -, ha', -⟩ := hp
    obtain ⟨-, -, -, -, hb', -⟩ := hq
    rw [← Nat.div_add_mod b PGSIZE, ← Nat.div_add_mod a PGSIZE, heq, ha', hb']
  · have hle : (s.proc q).holds f ≤ s.others p f :=
      Finset.single_le_sum (f := fun q => (s.proc q).holds f) (fun _ _ => Nat.zero_le _)
        (Finset.mem_erase.mpr ⟨hqp, Finset.mem_univ q⟩)
    have := hq.holds_pos
    omega

end Xv6.Vm
