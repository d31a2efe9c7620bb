import Xv6.Trap.Frame

/-!
# Where `fix_tf` writes

`FixTf.stores` are the addresses to which one statement of `fix_tf` writes through `proc->tf->esp`, and `fixTfStores`
those of the whole function; no other byte changes (`fixTf_frame`). A delivery writes the 19 bytes below the stack
pointer (`mem_fixTfStores`), wherever that is: `fix_tf` looks neither at `esp` nor at `proc->sz`.
-/

namespace Xv6.Trap

/-- The addresses of `n` bytes from `a` on. -/
def span (a : Word) (n : ℕ) : List Word := (List.range n).map fun k => a + BitVec.ofNat 32 k

theorem mem_span {a x : Word} {n : ℕ} (hn : n ≤ 2 ^ 32) : x ∈ span a n ↔ (x - a).toNat < n := by
  simp only [span, List.mem_map, List.mem_range]
  constructor
  · rintro ⟨k, hk, rfl⟩
    rw [BitVec.add_comm, BitVec.add_sub_cancel, BitVec.toNat_ofNat, Nat.mod_eq_of_lt (by omega)]
    exact hk
  · intro h
    refine ⟨_, h, ?_⟩
    rw [BitVec.ofNat_toNat, BitVec.setWidth_eq]
    bv_omega

/-- The addresses to which a statement of `fix_tf` writes through `proc->tf->esp`. -/
def FixTf.stores (t : Task) : FixTf → List Word
  | .code _ => span t.tf.esp trampoline.length
  | .value _ | .sender _ | .ret => span t.tf.esp 4
  | _ => []

theorem FixTf.frame (t : Task) (pc : FixTf) {a : Word} (ha : a ∉ pc.stores t) : (pc.step t).1.mem a = t.mem a := by
  have hword (w : Word) (h : a ∉ span t.tf.esp 4) : storeWord t.mem t.tf.esp w a = t.mem a := by
    rw [mem_span (by decide), Nat.not_lt] at h
    exact storeBytes_of_le h
  cases pc with
  | code i =>
    rw [FixTf.stores, mem_span (by decide), Nat.not_lt] at ha
    exact storeBytes_of_le ha
  | value i => exact hword _ ha
  | sender i => exact hword _ ha
  | ret => exact hword _ ha
  | cs | handling | handler i =>
    simp only [FixTf.step]
    split <;> rfl
  | pop pc | save i | set i | used i | espCode i | espValue i | espSender i | espRet | eip => rfl

/-- The addresses to which statements write, one after the other. -/
def storesOf (t : Task) : List FixTf → List Word
  | [] => []
  | pc :: pcs => pc.stores t ++ storesOf (pc.step t).1 pcs

theorem storesOf_frame (t : Task) (pcs : List FixTf) {a : Word} (ha : a ∉ storesOf t pcs) :
    (pcs.foldl (fun t pc => (pc.step t).1) t).mem a = t.mem a := by
  induction pcs generalizing t with
  | nil => rfl
  | cons pc pcs ih =>
    rw [storesOf, List.mem_append, not_or] at ha
    rw [List.foldl_cons, ih _ ha.2, pc.frame t ha.1]

/-- The addresses to which `fix_tf` writes through `proc->tf->esp`. -/
def fixTfStores (t : Task) : List Word :=
  if rpl t.tf.cs ≠ DPL_USER then []
  else if t.handlingSignal then []
  else
    match t.pending.pop with
    | (_, none) => []
    | (cs, some i) =>
      if t.sighandler = DEFSIG_HENDLER then [] else storesOf { t with pending := cs } (FixTf.delivery i)

/-- **`fix_tf` changes no other byte.** -/
theorem fixTf_frame (t : Task) {a : Word} (ha : a ∉ fixTfStores t) : (fixTf t).mem a = t.mem a := by
  unfold fixTfStores at ha
  unfold fixTf
  split
  · rfl
  · rename_i hcs
    split
    · rfl
    · rename_i hh
      simp only [if_neg hcs, if_neg hh] at ha
      cases hpop : t.pending.pop with
      | mk cs r =>
        cases r with
        | none => rfl
        | some i =>
          rw [hpop] at ha
          simp only at ha ⊢
          split
          · rfl
          · rename_i hd
            rw [if_neg hd] at ha
            exact storesOf_frame _ _ ha

theorem mem_fixTfStores {t : Task} (h : t.Delivers) {a : Word} :
    a ∈ fixTfStores t ↔ (a - (t.tf.esp - 19)).toNat < 19 := by
  obtain ⟨hcs, hh, hp, hd⟩ := h
  obtain ⟨i, hi⟩ := Option.ne_none_iff_exists'.mp hp
  simp only [fixTfStores, hcs, hh, Task.pop_some hi, hd, ne_eq, not_true_eq_false, Bool.false_eq_true, ↓reduceIte]
  simp only [FixTf.delivery, storesOf, FixTf.stores, FixTf.step, Task.subEsp, Task.storeEsp, List.nil_append,
    List.append_nil, List.mem_append]
  rw [mem_span (by decide), mem_span (by decide), mem_span (by decide), mem_span (by decide)]
  have hlen : trampoline.length = 7 := rfl
  rw [hlen]
  bv_omega

/-- **The exact condition**: all bytes of a delivery are below `proc->sz` if and only if the 19 bytes below the stack
pointer do not wrap around and end at or below `proc->sz`. -/
theorem fixTfStores_below_iff {t : Task} (h : t.Delivers) :
    (∀ a ∈ fixTfStores t, a < t.sz) ↔ 19 ≤ t.tf.esp ∧ t.tf.esp ≤ t.sz := by
  constructor
  · intro hall
    constructor
    · -- otherwise the last byte of the address space is among them
      by_contra hlow
      have hmem : (-1 : Word) ∈ fixTfStores t := by
        rw [mem_fixTfStores h]
        bv_omega
      have := hall _ hmem
      bv_omega
    · have hmem : t.tf.esp - 1 ∈ fixTfStores t := by
        rw [mem_fixTfStores h]
        bv_omega
      have := hall _ hmem
      bv_omega
  · rintro ⟨hlow, hhigh⟩ a ha
    rw [mem_fixTfStores h] at ha
    bv_omega

/-- **Signal delivery writes only user memory**, if the stack pointer is at least 19 and at most `proc->sz`. -/
theorem delivery_in_user_memory {t : Task} (h : t.Delivers) (hlow : 19 ≤ t.tf.esp) (hhigh : t.tf.esp ≤ t.sz) :
    (∀ a ∈ fixTfStores t, a < t.sz) ∧ ∀ a, a ∉ fixTfStores t → (fixTf t).mem a = t.mem a := by
  constructor
  · exact (fixTfStores_below_iff h).mpr ⟨hlow, hhigh⟩
  · intro a ha
    exact fixTf_frame t ha

/-- A process with 4096 bytes of memory and a pending signal, in user mode with the stack pointer `esp`. -/
def signalled (esp : Word) : Task where
  ctl := .fix .cs
  tf := { Trapframe.zero with cs := 0x23, esp := esp }
  oldTf := .zero
  handlingSignal := false
  sighandler := 64
  pending := (Cstack.empty.push ⟨3, 2, 9⟩).1
  sz := 4096
  mem := fun _ => 0

/-- The stack pointer is the end of the memory of the process. -/
theorem delivery_in_user_memory_top :
    (signalled 4096).Delivers ∧ (∀ a ∈ fixTfStores (signalled 4096), a < 4096) ∧
      ∀ a, a ∉ fixTfStores (signalled 4096) → (fixTf (signalled 4096)).mem a = 0 :=
  have hd : (signalled 4096).Delivers := by decide
  ⟨hd, delivery_in_user_memory hd (by decide) (by decide)⟩

/-- **`fix_tf` writes to the kernel**: with the stack pointer 19 bytes above `KERNBASE` the return address of the handler
is stored at `KERNBASE`. -/
theorem delivery_writes_kernel :
    (signalled 0x80000013).Delivers ∧ 0x80000000 ∈ fixTfStores (signalled 0x80000013) ∧
      ¬ 0x80000000 < (signalled 0x80000013).sz ∧
      (fixTf (signalled 0x80000013)).mem 0x80000000 ≠ (signalled 0x80000013).mem 0x80000000 := by
  decide +kernel

end Xv6.Trap
