import Xv6.Pipes.Machine

/-!
# Pipes are first-in first-out

- `Fifo`: the ring holds the bytes stored and not yet handed out, and the wrapping counters count both;
- `Pc.Fits`: what a call knows about the pipe at its control points; a `pipewrite` that sleeps knows only what it has
  stored itself, and that nobody stores under its number.
-/

namespace Xv6.Pipes

open Lib

theorem Buffer.prefix_bytes (b : Buffer) {i : ℕ} (hi : i ≤ b.n.toNat) : (List.range i).map b.addr <+: b.bytes := by
  obtain ⟨d, hd⟩ := Nat.exists_eq_add_of_le hi
  rw [Buffer.bytes, hd, List.range_add, List.map_append]
  exact List.prefix_append _ _

/-! ## The pipe -/

/-- What has gone through the pipe, and the pipe. -/
structure Fifo (o : Obj) : Prop where
  holds : Ring.Holds o.pipe.data o.bytes o.handed.length
  nread : o.pipe.nread = BitVec.ofNat 32 o.handed.length
  nwrite : o.pipe.nwrite = BitVec.ofNat 32 o.bytes.length
  handed : o.handed <+: o.bytes
  numbered : ∀ x ∈ o.stored, x.1 < o.calls.length
  kept : ∀ {k b}, o.calls[k]? = some b → o.bytesOf k <+: b.bytes

theorem Fifo.alloc (data : Fin PIPESIZE → Byte) : Fifo (.alloc data) where
  holds := .nil data
  nread := rfl
  nwrite := rfl
  handed := List.nil_prefix
  numbered x hx := by simp [Obj.alloc] at hx
  kept {k b} hk := by simp [Obj.alloc] at hk

section

variable {o : Obj}

theorem Fifo.empty_iff (h : Fifo o) : o.pipe.nread = o.pipe.nwrite ↔ o.handed.length = o.bytes.length := by
  have hfits : o.bytes.length ≤ o.handed.length + 512 := h.holds.fits
  rw [h.nread, h.nwrite, ofNat_eq_iff h.holds.le (by omega)]

theorem Fifo.full_iff (h : Fifo o) :
    o.pipe.nwrite = o.pipe.nread + BitVec.ofNat 32 PIPESIZE ↔ o.bytes.length = o.handed.length + PIPESIZE := by
  have hle := h.holds.le
  have hfits : o.bytes.length ≤ o.handed.length + 512 := h.holds.fits
  rw [h.nread, h.nwrite, ← BitVec.ofNat_add, ofNat_eq_iff hfits (by omega)]

theorem cell_nwrite (h : Fifo o) : Ring.cell PIPESIZE o.pipe.nwrite.toNat = Ring.cell PIPESIZE o.bytes.length := by
  rw [h.nwrite]
  exact Ring.cell_toNat (by decide)

theorem Fifo.front_eq (h : Fifo o) (hne : o.handed.length < o.bytes.length) : o.front = o.bytes[o.handed.length] := by
  unfold Obj.front
  rw [h.nread, Ring.cell_toNat (by decide)]
  exact h.holds.get hne le_rfl

@[simp] theorem store_bytes (k : ℕ) (c : Byte) : (o.store k c).bytes = o.bytes ++ [c] := by
  simp [Obj.store, Obj.bytes]

theorem store_bytesOf (k j : ℕ) (c : Byte) :
    (o.store k c).bytesOf j = if k = j then o.bytesOf j ++ [c] else o.bytesOf j := by
  unfold Obj.bytesOf
  split
  · next h => simp [Obj.store, h]
  · next h => simp [Obj.store, h]

theorem Fifo.store (h : Fifo o) {b : Buffer} {k i : ℕ} (hk : o.calls[k]? = some b)
    (hroom : o.pipe.nwrite ≠ o.pipe.nread + BitVec.ofNat 32 PIPESIZE) (hi : i < b.n.toNat)
    (hof : o.bytesOf k = (List.range i).map b.addr) : Fifo (o.store k (b.addr i)) where
  holds := by
    have hlt : o.bytes.length < o.handed.length + PIPESIZE :=
      lt_of_le_of_ne h.holds.fits (mt h.full_iff.mpr hroom)
    rw [store_bytes]
    have := h.holds.push hlt (b.addr i)
    rwa [← cell_nwrite h] at this
  nread := h.nread
  nwrite := by
    rw [store_bytes, List.length_append, List.length_singleton, ofNat_succ, ← h.nwrite]
    rfl
  handed := by
    rw [store_bytes]
    exact h.handed.trans (List.prefix_append _ _)
  numbered x hx := by
    rcases List.mem_append.mp hx with hx | hx
    · exact h.numbered x hx
    · obtain rfl := List.mem_singleton.mp hx
      exact (List.getElem?_eq_some_iff.mp hk).1
  kept {j b'} hj := by
    rw [store_bytesOf]
    split
    · next e =>
      subst e
      obtain rfl : b = b' := by
        rw [show (o.store k (b.addr i)).calls = o.calls from rfl, hk] at hj
        simpa using hj
      -- the byte stored is the next one of the buffer
      have hnext : o.bytesOf k ++ [b.addr i] = (List.range (i + 1)).map b.addr := by
        rw [hof, List.range_succ, List.map_append]
        rfl
      rw [hnext]
      exact b.prefix_bytes hi
    · exact h.kept hj

theorem Fifo.take (h : Fifo o) (hne : o.pipe.nread ≠ o.pipe.nwrite) : Fifo o.take := by
  have hlt : o.handed.length < o.bytes.length := lt_of_le_of_ne h.holds.le (mt h.empty_iff.mpr hne)
  have hlen : o.take.handed.length = o.handed.length + 1 := by simp [Obj.take]
  constructor
  · rw [hlen]
    exact h.holds.pop hlt
  · rw [hlen, ofNat_succ, ← h.nread]
    rfl
  · exact h.nwrite
  · show o.handed ++ [o.front] <+: o.bytes
    have hpre := List.prefix_iff_eq_take.mp h.handed
    rw [h.front_eq hlt, List.prefix_iff_eq_take]
    rw [List.length_append, List.length_singleton, List.take_succ_eq_append_getElem hlt, ← hpre]
  · exact h.numbered
  · exact h.kept

end

/-! ## The calls -/

/-- What `pipewrite` knows about the number `i` of its bytes that are stored; before it stores one there is room. -/
def WriteAt.Fits (o : Obj) (b : Buffer) (i : ℕ) : WriteAt → Prop
  | .loop | .done => i ≤ b.n.toNat
  | .store => i < b.n.toNat ∧ o.pipe.nwrite ≠ o.pipe.nread + BitVec.ofNat 32 PIPESIZE
  | .full | .check | .fail | .sleep | .asleep => i < b.n.toNat

/-- What `piperead` knows: there is a byte to take, and it gets past an empty pipe only if the write end is closed. -/
def ReadAt.Fits (o : Obj) (n : ℤ) (got : List Byte) : ReadAt → Prop
  | .take => o.pipe.nread ≠ o.pipe.nwrite
  | .loop => got = [] → o.pipe.nread ≠ o.pipe.nwrite ∨ o.pipe.writeopen = false
  | .done => got = [] → 0 < n → o.pipe.nread = o.pipe.nwrite ∧ o.pipe.writeopen = false
  | .empty | .check | .fail | .sleep | .asleep => True

/-- What a call knows about the pipe. -/
def Pc.Fits (o : Obj) : Pc → Prop
  | .write b k i pc => o.calls[k]? = some b ∧ o.bytesOf k = (List.range i).map b.addr ∧ pc.Fits o b i
  | .read n got pc => pc.Fits o n got
  | .idle | .startWrite _ | .startRead _ | .startClose _ | .close _ _ => True

def Pc.number : Pc → Option ℕ
  | .write _ k _ _ => some k
  | _ => none

/-- Different threads are in different `pipewrite` calls. -/
def Apart (t u : Pc) : Prop := ∀ k, t.number = some k → u.number ≠ some k

section

variable {o : Obj} {killed : Bool}

theorem Fifo.bytesOf_new (h : Fifo o) : o.bytesOf o.calls.length = [] := by
  simp only [Obj.bytesOf, List.map_eq_nil_iff, List.filter_eq_nil_iff, decide_eq_true_eq]
  intro x hx e
  exact absurd (h.numbered x hx) (by omega)

theorem Fifo.call (h : Fifo o) (b : Buffer) : Fifo { o with calls := o.calls ++ [b] } where
  holds := h.holds
  nread := h.nread
  nwrite := h.nwrite
  handed := h.handed
  numbered x hx := by
    have := h.numbered x hx
    simp only [List.length_append, List.length_singleton]
    omega
  kept {k b'} hk := by
    show o.bytesOf k <+: b'.bytes
    rcases Nat.lt_trichotomy k o.calls.length with hlt | rfl | hgt
    · exact h.kept (by simpa [List.getElem?_append_left hlt] using hk)
    · rw [h.bytesOf_new]
      exact List.nil_prefix
    · rw [List.getElem?_eq_none (by simp; omega)] at hk
      simp at hk

theorem WriteAt.step_fits (h : Fifo o) {b : Buffer} {k i : ℕ} {pc : WriteAt} (ht : (Pc.write b k i pc).Fits o) :
    Fifo (pc.step killed o b k i).1 ∧ (pc.step killed o b k i).2.Fits (pc.step killed o b k i).1 := by
  obtain ⟨hk, hof, hpc⟩ := ht
  cases pc with
  | loop =>
    refine ⟨h, hk, hof, ?_⟩
    split
    · next hlt => exact Int.lt_toNat.mpr hlt
    · exact hpc
  | full =>
    refine ⟨h, hk, hof, ?_⟩
    split
    · exact hpc
    · next hroom => exact ⟨hpc, hroom⟩
  | check =>
    refine ⟨h, hk, hof, ?_⟩
    split <;> exact hpc
  | sleep | asleep => exact ⟨h, hk, hof, hpc⟩
  | store =>
    refine ⟨h.store hk hpc.2 hpc.1 hof, hk, ?_, hpc.1⟩
    rw [WriteAt.step, store_bytesOf, if_pos rfl, hof, List.range_succ, List.map_append]
    rfl
  | fail | done => exact ⟨h, trivial⟩

theorem ReadAt.step_fits (h : Fifo o) {n : ℤ} {got : List Byte} {pc : ReadAt} (ht : pc.Fits o n got) :
    Fifo (pc.step killed o n got).1 ∧ (pc.step killed o n got).2.Fits (pc.step killed o n got).1 := by
  cases pc with
  | empty =>
    refine ⟨h, ?_⟩
    simp only [ReadAt.step, Pc.Fits]
    split
    · trivial
    · next hne =>
      intro _
      cases hw : o.pipe.writeopen with
      | false => exact .inr rfl
      | true => exact .inl fun e => hne ⟨e, hw⟩
  | check =>
    refine ⟨h, ?_⟩
    simp only [ReadAt.step, Pc.Fits]
    split <;> trivial
  | loop =>
    refine ⟨h, ?_⟩
    simp only [ReadAt.step, Pc.Fits]
    split
    · next hne => exact hne.2
    · next hend =>
      rintro rfl hn
      have heq : o.pipe.nread = o.pipe.nwrite := by
        by_contra hne
        exact hend ⟨by simpa using hn, hne⟩
      exact ⟨heq, (ht rfl).resolve_left fun hne => hne heq⟩
  | take => exact ⟨h.take ht, fun e => by simp at e⟩
  | fail | sleep | asleep | done => exact ⟨h, trivial⟩

theorem CloseAt.step_fits (h : Fifo o) {w : Bool} {pc : CloseAt} :
    Fifo (pc.step o w).1 ∧ (pc.step o w).2.Fits (pc.step o w).1 := by
  cases pc with
  | flag => cases w <;> exact ⟨⟨h.holds, h.nread, h.nwrite, h.handed, h.numbered, h.kept⟩, trivial⟩
  | kfree => exact ⟨⟨h.holds, h.nread, h.nwrite, h.handed, h.numbered, h.kept⟩, trivial⟩
  | test | last | release => exact ⟨h, trivial⟩

/-- **One step of a call**: the pipe stays in order, and the call knows what it has to. -/
theorem Pc.next_fits (h : Fifo o) {t : Pc} (ht : t.Fits o) :
    Fifo (t.next killed o).1 ∧ (t.next killed o).2.Fits (t.next killed o).1 := by
  cases t with
  | idle => exact ⟨h, trivial⟩
  | startWrite b => exact ⟨h.call b, by simp [Pc.next], h.bytesOf_new, Nat.zero_le _⟩
  | write b k i pc => exact WriteAt.step_fits h ht
  | startRead n => exact ⟨h, trivial⟩
  | read n got pc => exact ReadAt.step_fits h ht
  | startClose w => exact ⟨h, trivial⟩
  | close w pc => exact CloseAt.step_fits h

/-! ## The other calls -/

theorem Pc.next_calls (t : Pc) (killed : Bool) (o : Obj) : o.calls <+: (t.next killed o).1.calls := by
  cases t with
  | startWrite b => exact List.prefix_append _ _
  | write b k i pc => cases pc <;> exact List.prefix_rfl
  | read n got pc => cases pc <;> exact List.prefix_rfl
  | close w pc => cases pc <;> cases w <;> exact List.prefix_rfl
  | _ => exact List.prefix_rfl

theorem Pc.next_bytesOf {t : Pc} {k : ℕ} (hk : t.number ≠ some k) : (t.next killed o).1.bytesOf k = o.bytesOf k := by
  cases t with
  | write b j i pc =>
    cases pc with
    | store =>
      rw [Pc.next, WriteAt.step, store_bytesOf, if_neg]
      rintro rfl
      exact hk rfl
    | _ => rfl
  | read n got pc => cases pc <;> rfl
  | close w pc => cases pc <;> cases w <;> rfl
  | _ => rfl

theorem Pc.next_pipe {t : Pc} (h : t.locks = false) (h' : (t.next killed o).2.locks = false) :
    (t.next killed o).1.pipe = o.pipe := by
  cases t with
  | write b k i pc =>
    obtain rfl : pc = .asleep := by simpa [Pc.locks] using h
    rfl
  | read n got pc =>
    obtain rfl : pc = .asleep := by simpa [Pc.locks] using h
    rfl
  | close w pc =>
    obtain rfl : pc = .kfree := by simpa [Pc.locks] using h
    rfl
  | _ => rfl

theorem Pc.next_frame {t u : Pc} (hu : u.Fits o) (hd : Apart t u)
    (hx : u.locks = true → t.locks = false ∧ (t.next killed o).2.locks = false) : u.Fits (t.next killed o).1 := by
  have hpipe : u.locks = true → (t.next killed o).1.pipe = o.pipe := fun h => Pc.next_pipe (hx h).1 (hx h).2
  cases u with
  | write b k i pc =>
    obtain ⟨hk, hof, hpc⟩ := hu
    refine ⟨?_, ?_, ?_⟩
    · obtain ⟨l, hl⟩ := t.next_calls killed o
      rw [← hl, List.getElem?_append_left (List.getElem?_eq_some_iff.mp hk).1]
      exact hk
    · rw [Pc.next_bytesOf fun e => hd k e rfl]
      exact hof
    · cases pc with
      | store => simpa only [WriteAt.Fits, hpipe rfl] using hpc
      | _ => exact hpc
  | read n got pc =>
    cases pc with
    | take | loop | done => simpa only [Pc.Fits, ReadAt.Fits, hpipe rfl] using hu
    | _ => trivial
  | _ => trivial

theorem Pc.Fits.number_lt {u : Pc} (hu : u.Fits o) {k : ℕ} (hk : u.number = some k) : k < o.calls.length := by
  cases u with
  | write b j i pc =>
    obtain rfl : j = k := by simpa [Pc.number] using hk
    exact (List.getElem?_eq_some_iff.mp hu.1).1
  | _ => simp [Pc.number] at hk

theorem Pc.next_number {t : Pc} {k : ℕ} (h : (t.next killed o).2.number = some k) :
    t.number = some k ∨ k = o.calls.length := by
  cases t with
  | startWrite b => exact .inr (by simpa [Pc.next, Pc.number] using h.symm)
  | write b j i pc => cases pc <;> first | exact .inl h | simp [Pc.next, WriteAt.step, Pc.number] at h
  | read n got pc => cases pc <;> simp [Pc.next, ReadAt.step, Pc.number] at h
  | close w pc => cases pc <;> simp [Pc.next, CloseAt.step, Pc.number] at h
  | _ => simp [Pc.next, Pc.number] at h

theorem Pc.next_apart {t u : Pc} (hu : u.Fits o) (hd : Apart t u) : Apart (t.next killed o).2 u := by
  intro k hk huk
  obtain hk | rfl := Pc.next_number hk
  · exact hd k hk huk
  · exact absurd (hu.number_lt huk) (by omega)

end

/-! ## Every interleaving -/

theorem Label.start_fits {l : Label} {t : Pc} (h : l.start = some t) (o : Obj) : t.Fits o ∧ t.number = none := by
  cases l with
  | go => simp [Label.start] at h
  | _ =>
    obtain rfl := by simpa [Label.start] using h
    exact ⟨trivial, rfl⟩

variable {P : Type*} [DecidableEq P] {s : State P}

/-- **Every reachable state** has the pipe in order, and every call knows what it has to. -/
theorem sound {data : Fin PIPESIZE → Byte} {tr : List (State P × P × Label)} (h : Path step free (init data) tr s) :
    Monitor.Sound Pc.locks Fifo Pc.Fits Apart s := by
  refine Monitor.sound_of_path h ⟨fun p => ?_, .alloc data, fun p => trivial, fun _ k hk => ?_⟩ ?_ ?_ ?_
  · simp [init, Pc.locks]
  · simp [init, Pc.number] at hk
  · intro t u hd k hu ht
    exact hd k ht hu
  · intro s p a o t hs _ hact
    obtain ⟨-, ⟨-, hst, rfl⟩ | ⟨-, killed, rfl, rfl⟩⟩ := act_inv hact
    · exact ⟨hs.obj, (Label.start_fits hst _).1⟩
    · exact Pc.next_fits hs.obj (hs.thread p)
  · intro s p a o t q hs _ hact hq hx
    obtain ⟨-, ⟨-, hst, rfl⟩ | ⟨-, killed, rfl, rfl⟩⟩ := act_inv hact
    · exact ⟨hs.thread q, fun k hk => by simp [(Label.start_fits hst s.obj).2] at hk⟩
    · exact ⟨Pc.next_frame (hs.thread q) (hs.apart hq.symm) hx, Pc.next_apart (hs.thread q) (hs.apart hq.symm)⟩

/-- `piperead` with `n > 0` is about to return 0. -/
def Pc.endOfFile : Pc → Bool
  | .read n [] .done => 0 < n
  | _ => false

/-- **Pipes are loss-free FIFOs**: at most PIPESIZE bytes are in the pipe, the bytes handed to readers are the first of
those stored, every byte stored belongs to a call of `pipewrite`, which stores the first bytes of its buffer in order,
and `piperead` with `n > 0` returns 0 only when every byte stored has been read and the write end is closed. -/
theorem pipe_is_fifo {data : Fin PIPESIZE → Byte} {tr : List (State P × P × Label)}
    (h : Path step free (init data) tr s) :
    (s.obj.pipe.nwrite - s.obj.pipe.nread).toNat ≤ PIPESIZE ∧ s.obj.handed <+: s.obj.bytes ∧
      (∀ x ∈ s.obj.stored, x.1 < s.obj.calls.length) ∧
      (∀ k b, s.obj.calls[k]? = some b → s.obj.bytesOf k <+: b.bytes) ∧
      ∀ p, (s.thread p).endOfFile = true → s.obj.handed = s.obj.bytes ∧ s.obj.pipe.writeopen = false := by
  have hs := sound h
  refine ⟨?_, hs.obj.handed, hs.obj.numbered, fun k b hk => hs.obj.kept hk, fun p hp => ?_⟩
  · have hfits : s.obj.bytes.length ≤ s.obj.handed.length + 512 := hs.obj.holds.fits
    rw [hs.obj.nread, hs.obj.nwrite, toNat_ofNat_sub hs.obj.holds.le (by omega)]
    simp only [PIPESIZE]
    omega
  · have ht := hs.thread p
    generalize s.thread p = t at hp ht
    unfold Pc.endOfFile at hp
    split at hp
    · obtain ⟨heq, hclosed⟩ := ht rfl (by simpa using hp)
      exact ⟨hs.obj.handed.eq_of_length (hs.obj.empty_iff.mp heq), hclosed⟩
    · simp at hp

/-- Two bytes go through a pipe, the write end is closed, and the next `piperead` is about to return 0. -/
theorem pipe_is_fifo_two : ∃ (tr : List (State (Fin 2) × Fin 2 × Label)) (s : State (Fin 2)),
    Path step free (init fun _ => 0) tr s ∧ s.obj.handed = [65, 66] ∧ (s.thread 1).endOfFile = true ∧
      s.obj.handed = s.obj.bytes ∧ s.obj.pipe.writeopen = false := by
  obtain ⟨s, hs, hhanded, heof⟩ := exists_path step free (init fun _ => 0)
    ([((0 : Fin 2), .pipewrite ⟨fun i => BitVec.ofNat 8 (65 + i), 2⟩)] ++ go 0 9 ++ [(1, .piperead 5)] ++ go 1 8 ++
      [(0, .pipeclose true)] ++ go 0 4 ++ [(1, .piperead 5)] ++ go 1 3)
    (fun s => s.obj.handed = [65, 66] ∧ (s.thread 1).endOfFile = true) (by decide +kernel)
  exact ⟨_, s, hs, hhanded, heof, (pipe_is_fifo hs).2.2.2.2 1 heof⟩

end Xv6.Pipes
