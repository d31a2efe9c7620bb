import Xv6.Param

/-!
# The buffer cache

`bget`, `bread`, `bwrite` and `brelse` of `bio.c` over the disk of `memide.c`. The buffers are the entries of
`bcache.buf`, the linked list is the list `lru` of them from `head.next` on.

- `bread_spec`: `bread` returns a buffer with what `v` has for the sector, and changes neither `v` nor the disk;
- `modify_spec`: a change of the data marked `B_DIRTY` changes `v` only; `bwrite_spec`: `bwrite` brings it to the disk;
- `Fetched`: no dirty buffer is recycled.
-/

namespace Xv6.Bio

open Function (update update_of_ne)

abbrev ROOTDEV : ℕ := 1

/-- The contents of a sector: 128 words. -/
abbrev Block := Fin 128 → ℕ

/-- `struct buf`, with the flags `B_BUSY`, `B_VALID` and `B_DIRTY`. -/
structure Buf where
  busy : Bool
  valid : Bool
  dirty : Bool
  dev : ℕ
  sector : ℕ
  data : Block

abbrev BufIx := Fin NBUF

structure Io where
  buf : BufIx → Buf
  lru : List BufIx
  disk : ℕ → Block

/-- `binit`: no buffer is in use, the last one is first in the list. -/
def binit (disk : ℕ → Block) : Io :=
  ⟨fun _ => ⟨false, false, false, 0xFFFFFFFF, 0, fun _ => 0⟩, (List.finRange NBUF).reverse, disk⟩

def Io.set (m : Io) (i : BufIx) (b : Buf) : Io := { m with buf := update m.buf i b }

/-- `memmove(b->data, ...)`. -/
def Io.modify (m : Io) (i : BufIx) (d : Block) : Io := m.set i { m.buf i with data := d }

/-- `b->flags |= B_DIRTY`. -/
def Io.mark (m : Io) (i : BufIx) : Io := m.set i { m.buf i with dirty := true }

/-- The first loop of `bget`. -/
def Io.cached (m : Io) (dev sector : ℕ) : Option BufIx :=
  m.lru.find? fun i => decide ((m.buf i).dev = dev ∧ (m.buf i).sector = sector)

/-- The second loop of `bget`. -/
def Io.victim (m : Io) : Option BufIx := m.lru.reverse.find? fun i => !(m.buf i).busy && !(m.buf i).dirty

def bget (m : Io) (dev sector : ℕ) : Option (Io × BufIx) :=
  match m.cached dev sector with
  | some i => if (m.buf i).busy then none else some (m.set i { m.buf i with busy := true }, i)
  | none => m.victim.map fun i => (m.set i ⟨true, false, false, dev, sector, (m.buf i).data⟩, i)

def iderw (disksize : ℕ) (m : Io) (i : BufIx) : Option Io :=
  let b := m.buf i
  if b.busy = false then none
  else if b.valid ∧ ¬ b.dirty then none
  else if b.dev ≠ ROOTDEV then none
  else if b.sector ≥ disksize then none
  else if b.dirty then
    some { m.set i { b with dirty := false, valid := true } with disk := update m.disk b.sector b.data }
  else some (m.set i { b with data := m.disk b.sector, valid := true })

def bread (disksize : ℕ) (m : Io) (dev sector : ℕ) : Option (Io × BufIx) :=
  (bget m dev sector).bind fun (m, i) =>
    if (m.buf i).valid then some (m, i) else (iderw disksize m i).map (·, i)

def bwrite (disksize : ℕ) (m : Io) (i : BufIx) : Option Io :=
  if (m.buf i).busy = false then none else iderw disksize (m.mark i) i

def brelse (m : Io) (i : BufIx) : Option Io :=
  if (m.buf i).busy = false then none
  else some { m.set i { m.buf i with busy := false } with lru := i :: m.lru.erase i }

variable {m m' : Io} {v v' : ℕ → Block} {i j : BufIx} {x dev disksize : ℕ} {d : Block}

@[simp] theorem Io.set_buf_self (m : Io) (i : BufIx) (b : Buf) : (m.set i b).buf i = b := by simp [Io.set]

@[simp] theorem Io.set_buf_ne (m : Io) (b : Buf) (h : j ≠ i) : (m.set i b).buf j = m.buf j := by simp [Io.set, h]

/-! ## Coherence -/

/-- A buffer holds a change of the sector `x` that is not on the disk. -/
def Io.Dirty (m : Io) (x : ℕ) : Prop := ∃ i, (m.buf i).dirty = true ∧ (m.buf i).sector = x

/-- The cache and the disk show the map `v`. -/
structure Coherent (m : Io) (v : ℕ → Block) : Prop where
  lru : ∀ i, i ∈ m.lru
  dev : ∀ i, (m.buf i).valid = true → (m.buf i).dev = ROOTDEV
  dirty : ∀ i, (m.buf i).dirty = true → (m.buf i).valid = true
  uniq : ∀ i j, (m.buf i).dev = ROOTDEV → (m.buf j).dev = ROOTDEV → (m.buf i).sector = (m.buf j).sector → i = j
  data : ∀ i, (m.buf i).valid = true → (m.buf i).data = v (m.buf i).sector
  disk : ∀ x, ¬ m.Dirty x → m.disk x = v x

theorem coherent_binit (disk : ℕ → Block) : Coherent (binit disk) disk where
  lru i := by simp [binit]
  dev i h := by simp [binit] at h
  dirty i h := by simp [binit] at h
  uniq i j h := absurd h (by simp [binit, ROOTDEV])
  data i h := by simp [binit] at h
  disk x _ := rfl

theorem not_dirty_binit (disk : ℕ → Block) (x : ℕ) : ¬ (binit disk).Dirty x := by
  simp [Io.Dirty, binit]

/-- A held buffer with the contents `d` of the sector `x`. -/
structure Holds (m : Io) (i : BufIx) (x : ℕ) (d : Block) : Prop where
  busy : (m.buf i).busy = true
  valid : (m.buf i).valid = true
  dev : (m.buf i).dev = ROOTDEV
  sector : (m.buf i).sector = x
  data : (m.buf i).data = d

theorem Coherent.set (hc : Coherent m v) (b : Buf)
    (hval : b.valid = true → b.dev = ROOTDEV ∧ b.data = v' b.sector) (hdirty : b.dirty = true → b.valid = true)
    (huniq : b.dev = ROOTDEV → ∀ j, j ≠ i → (m.buf j).dev = ROOTDEV → (m.buf j).sector ≠ b.sector)
    (hv : ∀ j, j ≠ i → (m.buf j).valid = true → v (m.buf j).sector = v' (m.buf j).sector)
    (disk' : ℕ → Block) (hdisk : ∀ x, ¬ (m.set i b).Dirty x → disk' x = v' x) :
    Coherent { m.set i b with disk := disk' } v' where
  lru := hc.lru
  dev j h := by
    by_cases hj : j = i
    · subst hj
      simp only [Io.set_buf_self] at h ⊢
      exact (hval h).1
    · simp only [Io.set_buf_ne _ _ hj] at h ⊢
      exact hc.dev j h
  dirty j h := by
    by_cases hj : j = i
    · subst hj
      simp only [Io.set_buf_self] at h ⊢
      exact hdirty h
    · simp only [Io.set_buf_ne _ _ hj] at h ⊢
      exact hc.dirty j h
  uniq j k h h' hs := by
    by_cases hj : j = i <;> by_cases hk : k = i
    · exact hj.trans hk.symm
    · subst hj
      simp only [Io.set_buf_self, Io.set_buf_ne _ _ hk] at h h' hs
      exact absurd hs.symm (huniq h k hk h')
    · subst hk
      simp only [Io.set_buf_self, Io.set_buf_ne _ _ hj] at h h' hs
      exact absurd hs (huniq h' j hj h)
    · simp only [Io.set_buf_ne _ _ hj, Io.set_buf_ne _ _ hk] at h h' hs
      exact hc.uniq j k h h' hs
  data j h := by
    by_cases hj : j = i
    · subst hj
      simp only [Io.set_buf_self] at h ⊢
      exact (hval h).2
    · simp only [Io.set_buf_ne _ _ hj] at h ⊢
      rw [hc.data j h, hv j hj h]
  disk := hdisk

theorem Io.dirty_set (b : Buf) :
    (m.set i b).Dirty x ↔ (b.dirty = true ∧ b.sector = x) ∨ ∃ j, j ≠ i ∧ (m.buf j).dirty = true ∧ (m.buf j).sector = x := by
  constructor
  · rintro ⟨j, hd, hs⟩
    by_cases hj : j = i
    · subst hj
      exact .inl ⟨by simpa using hd, by simpa using hs⟩
    · exact .inr ⟨j, hj, by simpa [hj] using hd, by simpa [hj] using hs⟩
  · rintro (h | ⟨j, hj, h⟩)
    · exact ⟨i, by simpa using h⟩
    · exact ⟨j, by simpa [hj] using h⟩

theorem Io.dirty_set_same (b : Buf) (hd : b.dirty = (m.buf i).dirty) (hs : b.dirty = true → b.sector = (m.buf i).sector) :
    (m.set i b).Dirty x ↔ m.Dirty x := by
  rw [Io.dirty_set]
  constructor
  · rintro (⟨h, hx⟩ | ⟨j, -, h⟩)
    · exact ⟨i, hd ▸ h, (hs h) ▸ hx⟩
    · exact ⟨j, h⟩
  · rintro ⟨j, h, hx⟩
    by_cases hj : j = i
    · subst hj
      have hb : b.dirty = true := hd.trans h
      exact .inl ⟨hb, (hs hb).trans hx⟩
    · exact .inr ⟨j, hj, h, hx⟩

/-! ## Getting a buffer -/

/-- What `bget` and `bread` do to the buffers: only the one they return changes. It was free, and if it was dirty it is
the same buffer still; nothing is written. -/
structure Fetched (m m' : Io) (i : BufIx) : Prop where
  disk : m'.disk = m.disk
  other : ∀ j, j ≠ i → m'.buf j = m.buf j
  free : (m.buf i).busy = false
  busy : (m'.buf i).busy = true
  dirty : (m.buf i).dirty = true → m'.buf i = { m.buf i with busy := true }
  clean : (m.buf i).dirty = false → (m'.buf i).dirty = false

theorem Fetched.dirty_iff (h : Fetched m m' i) : m'.Dirty x ↔ m.Dirty x := by
  constructor
  · rintro ⟨j, hd, hs⟩
    by_cases hj : j = i
    · subst hj
      cases hb : (m.buf j).dirty with
      | true => exact ⟨j, hb, by simpa [h.dirty hb] using hs⟩
      | false => simp [h.clean hb] at hd
    · exact ⟨j, by rw [← h.other j hj]; exact ⟨hd, hs⟩⟩
  · rintro ⟨j, hd, hs⟩
    by_cases hj : j = i
    · subst hj
      exact ⟨j, by rw [h.dirty hd]; exact ⟨hd, hs⟩⟩
    · exact ⟨j, by rw [h.other j hj]; exact ⟨hd, hs⟩⟩

theorem Io.cached_some (h : m.cached dev x = some i) : (m.buf i).dev = dev ∧ (m.buf i).sector = x := by
  simpa using List.find?_some h

theorem Io.cached_none (hl : ∀ i, i ∈ m.lru) (h : m.cached dev x = none) (i : BufIx) (hd : (m.buf i).dev = dev) :
    (m.buf i).sector ≠ x := by
  intro hs
  have := List.find?_eq_none.mp h i (hl i)
  simp [hd, hs] at this

theorem Io.victim_some (h : m.victim = some i) : (m.buf i).busy = false ∧ (m.buf i).dirty = false := by
  simpa using List.find?_some h

theorem bget_spec (hc : Coherent m v) (h : bget m dev x = some (m', i)) :
    Coherent m' v ∧ Fetched m m' i ∧ (m'.buf i).dev = dev ∧ (m'.buf i).sector = x := by
  unfold bget at h
  split at h
  · rename_i k hk
    obtain ⟨hdev, hsec⟩ := Io.cached_some hk
    obtain ⟨hbusy, rfl, rfl⟩ := by simpa using h
    refine ⟨hc.set { m.buf k with busy := true } (fun hv => ⟨hc.dev k hv, hc.data k hv⟩) (hc.dirty k) ?_
      (fun _ _ _ => rfl) m.disk fun y hy => ?_, ⟨rfl, fun j hj => by simp [hj], hbusy, by simp, fun _ => by simp,
      fun hb => by simpa using hb⟩, by simpa using hdev, by simpa using hsec⟩
    · intro hd j hj hdj hs
      exact hj (hc.uniq j k hdj hd hs)
    · exact hc.disk y fun hdy => hy ((Io.dirty_set_same { m.buf k with busy := true } rfl fun _ => rfl).mpr hdy)
  · rename_i hnone
    obtain ⟨k, hk, hm⟩ := Option.map_eq_some_iff.mp h
    obtain ⟨rfl, rfl⟩ := Prod.mk.injEq .. ▸ hm
    obtain ⟨hbusy, hclean⟩ := Io.victim_some hk
    refine ⟨hc.set ⟨true, false, false, dev, x, (m.buf k).data⟩ (by simp) (by simp) ?_ (fun _ _ _ => rfl) m.disk
      fun y hy => ?_, ⟨rfl, fun j hj => by simp [hj], hbusy, by simp, fun hb => by simp [hclean] at hb, by simp⟩,
      by simp, by simp⟩
    · intro hd j _ hdj
      exact Io.cached_none hc.lru hnone j (hdj.trans hd.symm)
    · exact hc.disk y fun hdy => hy ((Io.dirty_set_same _ hclean.symm (by simp)).mpr hdy)

theorem iderw_inv (h : iderw disksize m i = some m') :
    (m.buf i).dev = ROOTDEV ∧ (m.buf i).sector < disksize ∧
      ((m.buf i).dirty = true ∧ m' = { m.set i { m.buf i with dirty := false, valid := true } with
          disk := update m.disk (m.buf i).sector (m.buf i).data } ∨
        (m.buf i).dirty = false ∧
          m' = m.set i { m.buf i with data := m.disk (m.buf i).sector, valid := true }) := by
  simp only [iderw] at h
  split_ifs at h with _ _ hdev hsize hdirty
  · exact ⟨by simpa using hdev, by simpa using hsize, .inl ⟨hdirty, by simpa using h.symm⟩⟩
  · exact ⟨by simpa using hdev, by simpa using hsize, .inr ⟨by simpa using hdirty, by simpa using h.symm⟩⟩

/-- **`bread`** returns the buffer of its sector with what `v` has for it. -/
theorem bread_spec (hc : Coherent m v) (h : bread disksize m dev x = some (m', i)) :
    Coherent m' v ∧ Fetched m m' i ∧ Holds m' i x (v x) := by
  simp only [bread, Option.bind_eq_some_iff] at h
  obtain ⟨⟨m₁, k⟩, hget, h⟩ := h
  obtain ⟨hc₁, hf, hdev, hsec⟩ := bget_spec hc hget
  simp only at h
  split_ifs at h with hval
  · obtain ⟨rfl, rfl⟩ : m₁ = m' ∧ k = i := by simpa using h
    exact ⟨hc₁, hf, hf.busy, hval, hc₁.dev _ hval, hsec, hsec ▸ hc₁.data _ hval⟩
  · obtain ⟨m₂, hide, hm⟩ := Option.map_eq_some_iff.mp h
    obtain ⟨rfl, rfl⟩ : m₂ = m' ∧ k = i := by simpa using hm
    have hclean : (m₁.buf k).dirty = false := by
      by_contra hd
      exact hval (hc₁.dirty k (by simpa using hd))
    obtain ⟨hroot, -, ⟨hd, -⟩ | ⟨-, rfl⟩⟩ := iderw_inv hide
    · simp [hclean] at hd
    -- the sector is on the disk: the only buffer for it is this one
    have hnd : ¬ m₁.Dirty x := by
      rintro ⟨j, hd, hs⟩
      have hj : j = k := hc₁.uniq j k (hc₁.dev j (hc₁.dirty j hd)) hroot (hs.trans hsec.symm)
      simp [hj, hclean] at hd
    have hdisk : m₁.disk (m₁.buf k).sector = v x := hsec ▸ hc₁.disk x hnd
    have hold : (m.buf k).dirty = false := by
      by_contra hd
      have hk := hf.dirty (by simpa using hd)
      rw [hk] at hval
      exact hval (hc.dirty k (by simpa using hd))
    refine ⟨hc₁.set { m₁.buf k with data := m₁.disk (m₁.buf k).sector, valid := true }
      (fun _ => ⟨hroot, by rw [hdisk, hsec]⟩) (fun _ => rfl) ?_ (fun _ _ _ => rfl) m₁.disk fun y hy => ?_,
      ⟨hf.disk, fun j hj => by simp [hj, hf.other j hj], hf.free, by simpa using hf.busy,
      fun hd => by simp [hold] at hd, fun _ => by simpa using hclean⟩, by simpa using hf.busy, by simp, by simpa using hroot,
      by simpa using hsec, by simpa using hdisk⟩
    · intro _ j hj hdj hs
      exact hj (hc₁.uniq j k hdj hroot hs)
    · refine hc₁.disk y fun hdy => hy ((Io.dirty_set_same _ ?_ fun _ => ?_).mpr hdy) <;> rfl

/-! ## Changing, writing and releasing a held buffer -/

theorem Coherent.other_sector (hc : Coherent m v) (hi : Holds m i x d) (hj : j ≠ i) (hd : (m.buf j).dev = ROOTDEV) :
    (m.buf j).sector ≠ x := fun hs => hj (hc.uniq j i hd hi.dev (hs.trans hi.sector.symm))

theorem modify_spec (hc : Coherent m v) {d₀ : Block} (hi : Holds m i x d₀) (d : Block) :
    Coherent ((m.modify i d).mark i) (update v x d) ∧ ((m.modify i d).mark i).disk = m.disk ∧
      ∀ y, ((m.modify i d).mark i).Dirty y ↔ y = x ∨ m.Dirty y := by
  have heq : (m.modify i d).mark i = m.set i { m.buf i with data := d, dirty := true } := by
    simp [Io.modify, Io.mark, Io.set]
  have hdirty (y : ℕ) : (m.set i { m.buf i with data := d, dirty := true }).Dirty y ↔ y = x ∨ m.Dirty y := by
    rw [Io.dirty_set, hi.sector]
    constructor
    · rintro (⟨-, h⟩ | ⟨j, -, h⟩)
      · exact .inl h.symm
      · exact .inr ⟨j, h⟩
    · rintro (rfl | ⟨j, h, hs⟩)
      · exact .inl ⟨rfl, rfl⟩
      · by_cases hj : j = i
        · exact .inl ⟨rfl, by rw [← hs, hj, hi.sector]⟩
        · exact .inr ⟨j, hj, h, hs⟩
  rw [heq]
  refine ⟨hc.set { m.buf i with data := d, dirty := true } (fun _ => ⟨hi.dev, by simp [hi.sector]⟩)
    (fun _ => hi.valid) ?_ ?_ m.disk fun y hy => ?_, rfl, hdirty⟩
  · intro _ j hj hdj hs
    exact hc.other_sector hi hj hdj (hs.trans hi.sector)
  · intro j hj hv
    rw [update_of_ne (hc.other_sector hi hj (hc.dev j hv))]
  · rw [hdirty] at hy
    rw [update_of_ne fun h => hy (.inl h)]
    exact hc.disk y fun h => hy (.inr h)

/-- **`bwrite`** after a change of the data. -/
theorem bwrite_spec (hc : Coherent m v) {d₀ : Block} (hi : Holds m i x d₀)
    (h : bwrite disksize (m.modify i d) i = some m') :
    Coherent m' (update v x d) ∧ m'.disk = update m.disk x d ∧
      (∀ y, m'.Dirty y ↔ y ≠ x ∧ m.Dirty y) ∧ (∀ j, j ≠ i → m'.buf j = m.buf j) ∧ (m'.buf i).busy = true := by
  have heq : (m.modify i d).mark i = m.set i { m.buf i with data := d, dirty := true } := by
    simp [Io.modify, Io.mark, Io.set]
  simp only [bwrite, heq] at h
  split_ifs at h
  obtain ⟨-, -, ⟨-, hm⟩ | ⟨hd, -⟩⟩ := iderw_inv h
  swap
  · simp at hd
  obtain rfl : m' = { m.set i { m.buf i with data := d, dirty := false, valid := true } with
      disk := update m.disk x d } := by
    rw [hm]
    simp [Io.set, hi.sector]
  have hdirty (y : ℕ) : (m.set i { m.buf i with data := d, dirty := false, valid := true }).Dirty y ↔
      y ≠ x ∧ m.Dirty y := by
    rw [Io.dirty_set]
    constructor
    · rintro (⟨hd, -⟩ | ⟨j, hj, hd, hs⟩)
      · simp at hd
      · exact ⟨fun hy => hc.other_sector hi hj (hc.dev j (hc.dirty j hd)) (hs.trans hy), j, hd, hs⟩
    · rintro ⟨hy, j, hd, hs⟩
      exact .inr ⟨j, fun hj => hy (by rw [← hs, hj, hi.sector]), hd, hs⟩
  refine ⟨hc.set { m.buf i with data := d, dirty := false, valid := true }
    (fun _ => ⟨hi.dev, by simp [hi.sector]⟩) (by simp) ?_ ?_ _ fun y hy => ?_, rfl, fun y => hdirty y,
    fun j hj => by simp [hj], by simpa using hi.busy⟩
  · intro _ j hj hdj hs
    exact hc.other_sector hi hj hdj (hs.trans hi.sector)
  · intro j hj hv
    rw [update_of_ne (hc.other_sector hi hj (hc.dev j hv))]
  · by_cases hyx : y = x
    · subst hyx
      simp
    · rw [update_of_ne hyx, update_of_ne hyx]
      exact hc.disk y fun hd => hy ((hdirty y).mpr ⟨hyx, hd⟩)

theorem brelse_spec (hc : Coherent m v) (h : brelse m i = some m') :
    Coherent m' v ∧ m'.disk = m.disk ∧ (∀ y, m'.Dirty y ↔ m.Dirty y) ∧ ∀ j, j ≠ i → m'.buf j = m.buf j := by
  simp only [brelse] at h
  split_ifs at h
  obtain rfl := by simpa using h
  have hset := hc.set (i := i) { m.buf i with busy := false } (fun hv => ⟨hc.dev i hv, hc.data i hv⟩) (hc.dirty i)
    (fun hd j hj hdj hs => hj (hc.uniq j i hdj hd hs)) (fun _ _ _ => rfl) m.disk fun y hy =>
      hc.disk y fun hdy => hy ((Io.dirty_set_same { m.buf i with busy := false } rfl fun _ => rfl).mpr hdy)
  refine ⟨⟨fun j => ?_, hset.dev, hset.dirty, hset.uniq, hset.data, hset.disk⟩, rfl,
    fun y => Io.dirty_set_same { m.buf i with busy := false } rfl fun _ => rfl, fun j hj => by simp [hj]⟩
  by_cases hj : j = i
  · simp [hj]
  · simp [List.mem_erase_of_ne hj, hc.lru j]

end Xv6.Bio
