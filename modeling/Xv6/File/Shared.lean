import Mathlib.Algebra.BigOperators.Fin
import Mathlib.Algebra.Order.BigOperators.Group.Finset
import Xv6.File.Writei
import Xv6.Pipes.Machine

/-!
# Writes through a shared open file

`filewrite` of `file.c` on a file of the disk, called by any number of threads with one `struct file`. A control point
names the next statement; `writei` is executed block by block, between `ilock` and `iunlock`, where `f->off` is read and
advanced.
-/

namespace Xv6.File

open Lib
open Disk (BSIZE MAXFILE)
open Pipes (Buffer)

/-- The largest chunk: `max` in `filewrite`. -/
abbrev maxChunk : ℕ := (LOGSIZE - 1 - 1 - 2) / 2 * 512

/-- A file and the `struct file` through which it is written. -/
structure Obj where
  ip : Inode
  off : ℕ
  /-- The `filewrite` calls so far. -/
  calls : List Buffer
  /-- The chunks written so far, with the number of the call. -/
  chunks : List (ℕ × List Byte)
  /-- What the calls have returned. -/
  returned : List (ℕ × ℤ)

def bytesOf (chunks : List (ℕ × List Byte)) : List Byte := (chunks.map Prod.snd).flatten

/-- The chunks of the call with the number `k`. -/
def chunksOf (chunks : List (ℕ × List Byte)) (k : ℕ) : List (ℕ × List Byte) := chunks.filter fun c => c.1 = k

def total (calls : List Buffer) : ℕ := (calls.map fun b => b.n.toNat).sum

/-! ## `filewrite` -/

/-- Statements of `filewrite`, and of `writei` in it. -/
inductive At
  /-- `i < n`. -/
  | loop
  /-- `begin_op(); ilock(f->ip)`. -/
  | ilock (n1 : ℕ)
  /-- The tests of `writei`. -/
  | test (n1 : ℕ)
  /-- The loop of `writei`. -/
  | copy (n1 off tot : ℕ)
  /-- `if(n > 0 && off > ip->size)`. -/
  | grow (n1 off : ℕ)
  /-- `if(r > 0) f->off += r`. -/
  | advance (n1 : ℕ) (r : ℤ)
  /-- `iunlock(f->ip); end_op()`. -/
  | iunlock (n1 : ℕ) (r : ℤ)
  /-- `r < 0`, and then `r != n1`. -/
  | check (n1 : ℕ) (r : ℤ)
  /-- `return i == n ? n : -1`. -/
  | done
  /-- `panic("short filewrite")`. -/
  | panic

/-- The next statement of the call with the number `k`: the new `i` and what comes then, or the value returned. -/
def At.step (b : Buffer) (k : ℕ) (o : Obj) : ℕ × At → Obj × (ℕ × At ⊕ ℤ)
  | (i, .loop) => (o, .inl (i, if (i : ℤ) < b.n then .ilock (min (b.n - i).toNat maxChunk) else .done))
  | (i, .ilock n1) => (o, .inl (i, .test n1))
  | (i, .test n1) => (o, .inl (i, if o.ip.refuses o.off n1 then .advance n1 (-1) else .copy n1 o.off 0))
  | (i, .copy n1 off tot) =>
    if tot < n1 then
      let m := blockLen off (n1 - tot)
      ({ o with ip := o.ip.put (fun j => b.addr (i + (tot + j))) off m }, .inl (i, .copy n1 (off + m) (tot + m)))
    else (o, .inl (i, .grow n1 off))
  | (i, .grow n1 off) => ({ o with ip := o.ip.grow off n1 }, .inl (i, .advance n1 n1))
  | (i, .advance n1 r) =>
    (if 0 < r then
      { o with
        off := (o.off + r.toNat) % 2 ^ 32
        chunks := o.chunks ++ [(k, slice (fun j => b.addr (i + j)) n1)] }
      else o, .inl (i, .iunlock n1 r))
  | (i, .iunlock n1 r) => (o, .inl (i, .check n1 r))
  | (i, .check n1 r) =>
    (o, .inl (if r < 0 then (i, .done) else if r ≠ n1 then (i, .panic) else (i + r.toNat, .loop)))
  | (i, .done) => (o, .inr (if (i : ℤ) = b.n then b.n else -1))
  | (i, .panic) => (o, .inl (i, .panic))

/-- A thread: outside of `filewrite`, or in the call with the number `k`. -/
inductive Pc
  | idle
  | write (b : Buffer) (k i : ℕ) (pc : At)

/-- Control points with the lock of the inode. -/
def Pc.locks : Pc → Bool
  | .write _ _ _ (.test _) | .write _ _ _ (.copy _ _ _) | .write _ _ _ (.grow _ _) | .write _ _ _ (.advance _ _)
  | .write _ _ _ (.iunlock _ _) => true
  | _ => false

/-- The labels of steps: a call, or the next statement. -/
inductive Label
  | filewrite (b : Buffer)
  | go

/-- A statement, or the return. -/
def Pc.next (b : Buffer) (k : ℕ) : Obj × (ℕ × At ⊕ ℤ) → Obj × Pc
  | (o, .inl (i, pc)) => (o, .write b k i pc)
  | (o, .inr r) => ({ o with returned := o.returned ++ [(k, r)] }, .idle)

/-- One step of a thread. -/
def act (o : Obj) : Pc → Label → Option (Obj × Pc)
  | .idle, .filewrite b => some ({ o with calls := o.calls ++ [b] }, .write b o.calls.length 0 .loop)
  | .write b k i pc, .go => some (Pc.next b k (At.step b k o (i, pc)))
  | _, _ => none

abbrev State (P : Type*) := Monitor.State P Obj Pc

/-- One step of one thread, with `ilock` and `iunlock`. -/
def step {P : Type*} [DecidableEq P] : State P → P × Label → Option (State P) := Monitor.step act Pc.locks

/-- A file that is open at an offset. No offset is behind the end: it is advanced by what `readi` and `writei` return,
and a file does not get shorter while it is open. -/
structure Opened where
  ip : Inode
  off : ℕ
  off_le : off ≤ ip.size

/-- An open file before the first call. -/
def start {P : Type*} (f : Opened) : State P := ⟨⟨f.ip, f.off, [], [], []⟩, none, fun _ => .idle⟩

/-- All calls together stay within the largest size of a file. -/
def Within {P : Type*} (off : ℕ) (s : State P) : P × Label → Prop
  | (_, .filewrite b) => off + total (s.obj.calls ++ [b]) ≤ MAXFILE * BSIZE
  | (_, .go) => True

instance {P : Type*} (off : ℕ) (s : State P) : ∀ l, Decidable (Within off s l)
  | (_, .filewrite _) => inferInstanceAs (Decidable (_ ≤ _))
  | (_, .go) => .isTrue trivial

/-! ## Chunks and calls -/

section Chunks

variable {cs : List (ℕ × List Byte)} {k j : ℕ} {l : List Byte}

theorem bytesOf_append : bytesOf (cs ++ [(k, l)]) = bytesOf cs ++ l := by simp [bytesOf]

theorem chunksOf_append_self : bytesOf (chunksOf (cs ++ [(k, l)]) k) = bytesOf (chunksOf cs k) ++ l := by
  simp [bytesOf, chunksOf, List.filter_append]

theorem chunksOf_append_of_ne (h : j ≠ k) : chunksOf (cs ++ [(k, l)]) j = chunksOf cs j := by
  simp [chunksOf, List.filter_append, h.symm]

theorem chunksOf_eq_nil (h : ∀ c ∈ cs, c.1 ≠ k) : chunksOf cs k = [] :=
  List.filter_eq_nil_iff.mpr fun c hc => by simpa using h c hc

theorem length_bytesOf {N : ℕ} (h : ∀ c ∈ cs, c.1 < N) :
    (bytesOf cs).length = ∑ k : Fin N, (bytesOf (chunksOf cs k)).length := by
  induction cs using List.reverseRecOn with
  | nil => simp [bytesOf, chunksOf]
  | append_singleton cs c ih =>
    obtain ⟨i, l⟩ := c
    have hi : i < N := h (i, l) (by simp)
    have hlen : ∀ k : Fin N, (bytesOf (chunksOf (cs ++ [(i, l)]) k)).length =
        (bytesOf (chunksOf cs k)).length + if k = ⟨i, hi⟩ then l.length else 0 := by
      intro k
      by_cases hk : k = ⟨i, hi⟩
      · subst hk
        rw [chunksOf_append_self, List.length_append, if_pos rfl]
      · rw [chunksOf_append_of_ne fun e => hk (Fin.ext e), if_neg hk, Nat.add_zero]
    rw [bytesOf_append, List.length_append, ih fun c hc => h c (List.mem_append_left _ hc),
      Finset.sum_congr rfl fun k _ => hlen k, Finset.sum_add_distrib]
    simp

theorem total_eq (calls : List Buffer) : total calls = ∑ k : Fin calls.length, calls[k].bytes.length := by
  simp [total, Buffer.bytes, Fin.sum_univ_fun_getElem calls fun b => b.n.toNat]

end Chunks

/-! ## What the calls know -/

section Invariant

variable (ip : Inode) (off : ℕ)

/-- What holds at any time, for a file that was `ip` and open at `off` in the beginning. -/
structure Kept (o : Obj) : Prop where
  advanced : o.off = off + (bytesOf o.chunks).length
  numbered : ∀ c ∈ o.chunks, c.1 < o.calls.length ∧ c.2.length ≤ maxChunk
  ordered : ∀ k b, o.calls[k]? = some b → bytesOf (chunksOf o.chunks k) <+: b.bytes
  returned : ∀ x ∈ o.returned, x.1 < o.calls.length ∧ ∀ b, o.calls[x.1]? = some b →
    bytesOf (chunksOf o.chunks x.1) = b.bytes
  within : o.calls ≠ [] → off + total o.calls ≤ MAXFILE * BSIZE

/-- The file, when no call is at work on it. -/
def Written (o : Obj) : Prop := o.ip = ip.write off (bytesOf o.chunks)

/-- A chunk of a call that has written `i` bytes. -/
def Chunk (b : Buffer) (i n1 : ℕ) : Prop := 0 < n1 ∧ n1 ≤ maxChunk ∧ i + n1 ≤ b.n.toNat

/-- What a call knows at a statement. -/
def At.Fits (o : Obj) (b : Buffer) (i : ℕ) : At → Prop
  | .loop => i ≤ b.n.toNat
  | .ilock n1 => Chunk b i n1
  | .test n1 => Chunk b i n1 ∧ Written ip off o
  | .copy n1 off' tot => Chunk b i n1 ∧ tot ≤ n1 ∧ off' = o.off + tot ∧
      o.ip = (ip.write off (bytesOf o.chunks)).fill o.off (slice (fun j => b.addr (i + j)) tot)
  | .grow n1 off' => Chunk b i n1 ∧ off' = o.off + n1 ∧
      o.ip = (ip.write off (bytesOf o.chunks)).fill o.off (slice (fun j => b.addr (i + j)) n1)
  | .advance n1 r => Chunk b i n1 ∧ r = n1 ∧
      o.ip = (ip.write off (bytesOf o.chunks)).write o.off (slice (fun j => b.addr (i + j)) n1)
  | .iunlock n1 r => Chunk b i n1 ∧ r = n1 ∧ Written ip off o
  | .check n1 r => Chunk b i n1 ∧ r = n1
  | .done => i = b.n.toNat
  | .panic => False

def At.written (i : ℕ) : At → ℕ
  | .iunlock n1 _ | .check n1 _ => i + n1
  | _ => i

/-- What a thread knows. -/
def Pc.Fits (o : Obj) : Pc → Prop
  | .idle => True
  | .write b k i pc => o.calls[k]? = some b ∧
      bytesOf (chunksOf o.chunks k) = b.bytes.take (pc.written i) ∧ pc.Fits ip off o b i

def Pc.number : Pc → Option ℕ
  | .idle => none
  | .write _ k _ _ => some k

/-- Two threads are in different calls. -/
def Apart (t u : Pc) : Prop := ∀ k, t.number = some k → u.number ≠ some k

variable {ip off} {o : Obj} {b : Buffer} {k i n1 : ℕ}

theorem take_bytes (h : i + n1 ≤ b.n.toNat) :
    b.bytes.take (i + n1) = b.bytes.take i ++ slice (fun j => b.addr (i + j)) n1 := by
  simp only [Buffer.bytes, ← List.map_take, List.take_range, slice]
  rw [min_eq_left h, min_eq_left (by omega), List.range_add]
  simp [Function.comp_def]

theorem length_bytes : b.bytes.length = b.n.toNat := by simp [Buffer.bytes]

/-- **There is room for the next chunk.** -/
theorem Kept.room (h : Kept off o) (hk : o.calls[k]? = some b)
    (hb : bytesOf (chunksOf o.chunks k) = b.bytes.take i) (hi : i + n1 ≤ b.n.toNat) :
    o.off + n1 ≤ MAXFILE * BSIZE := by
  obtain ⟨hlt, rfl⟩ := List.getElem?_eq_some_iff.mp hk
  have hle : ∀ j : Fin o.calls.length, (bytesOf (chunksOf o.chunks j)).length +
      (if j = ⟨k, hlt⟩ then n1 else 0) ≤ o.calls[j].bytes.length := by
    intro j
    split
    · next hj =>
      subst hj
      simp only [hb, List.length_take, Fin.getElem_fin, length_bytes]
      omega
    · exact (h.ordered j _ (List.getElem?_eq_getElem j.isLt)).length_le
  have hsum := Finset.sum_le_sum fun j (_ : j ∈ Finset.univ) => hle j
  rw [Finset.sum_add_distrib, ← length_bytesOf fun c hc => (h.numbered c hc).1, ← total_eq] at hsum
  have hone : (∑ j : Fin o.calls.length, if j = ⟨k, hlt⟩ then n1 else 0) = n1 := by simp
  have hw := h.within (List.ne_nil_of_length_pos (by omega))
  have hadv := h.advanced
  omega

theorem Kept.advance (h : Kept off o) (hk : o.calls[k]? = some b)
    (hb : bytesOf (chunksOf o.chunks k) = b.bytes.take i) (hc : Chunk b i n1) :
    Kept off { o with
      off := (o.off + n1) % 2 ^ 32
      chunks := o.chunks ++ [(k, slice (fun j => b.addr (i + j)) n1)] } := by
  have hlt := (List.getElem?_eq_some_iff.mp hk).1
  have hroom := h.room hk hb hc.2.2
  have hown : bytesOf (chunksOf (o.chunks ++ [(k, slice (fun j => b.addr (i + j)) n1)]) k) = b.bytes.take (i + n1) := by
    rw [chunksOf_append_self, hb, take_bytes hc.2.2]
  refine ⟨?_, ?_, ?_, ?_, h.within⟩
  · have hmax : MAXFILE * BSIZE < 2 ^ 32 := by decide
    have hadv := h.advanced
    simp only [bytesOf_append, List.length_append, length_slice]
    rw [Nat.mod_eq_of_lt (by omega)]
    omega
  · intro c hc'
    rcases List.mem_append.mp hc' with hc' | hc'
    · exact h.numbered c hc'
    · obtain rfl := List.mem_singleton.mp hc'
      exact ⟨hlt, by simpa using hc.2.1⟩
  · intro j b' hj
    by_cases hjk : j = k
    · subst hjk
      obtain rfl : b = b' := Option.some.inj (hk.symm.trans hj)
      simp only [hown]
      exact List.take_prefix _ _
    · simp only [chunksOf_append_of_ne hjk]
      exact h.ordered j b' hj
  · intro x hx
    refine ⟨(h.returned x hx).1, fun b' hb' => ?_⟩
    by_cases hjk : x.1 = k
    · -- a call that has returned has no bytes left
      exfalso
      rw [hjk, hk] at hb'
      obtain rfl : b = b' := Option.some.inj hb'
      have hfull := (h.returned x hx).2 b (hjk ▸ hk)
      rw [hjk, hb] at hfull
      have hlen := congrArg List.length hfull
      rw [List.length_take, length_bytes] at hlen
      have := hc.1
      have := hc.2.2
      omega
    · simp only [chunksOf_append_of_ne hjk]
      exact (h.returned x hx).2 b' hb'

theorem Kept.ret (h : Kept off o) (hk : o.calls[k]? = some b) (hb : bytesOf (chunksOf o.chunks k) = b.bytes) (r : ℤ) :
    Kept off { o with returned := o.returned ++ [(k, r)] } := by
  refine ⟨h.advanced, h.numbered, h.ordered, fun x hx => ?_, h.within⟩
  rcases List.mem_append.mp hx with hx | hx
  · exact h.returned x hx
  · obtain rfl := List.mem_singleton.mp hx
    refine ⟨(List.getElem?_eq_some_iff.mp hk).1, fun b' hb' => ?_⟩
    obtain rfl : b = b' := Option.some.inj (hk.symm.trans hb')
    exact hb

theorem Kept.call (h : Kept off o) (hw : off + total (o.calls ++ [b]) ≤ MAXFILE * BSIZE) :
    Kept off { o with calls := o.calls ++ [b] } := by
  have hnew : chunksOf o.chunks o.calls.length = [] :=
    chunksOf_eq_nil fun c hc => (h.numbered c hc).1.ne
  refine ⟨h.advanced, fun c hc => ?_, fun j b' hj => ?_, fun x hx => ?_, fun _ => hw⟩
  · have := h.numbered c hc
    simp only [List.length_append]
    omega
  · by_cases hlt : j < o.calls.length
    · rw [List.getElem?_append_left hlt] at hj
      exact h.ordered j b' hj
    · obtain ⟨hlt', -⟩ := List.getElem?_eq_some_iff.mp hj
      obtain rfl : j = o.calls.length := by
        simp only [List.length_append, List.length_singleton] at hlt'
        omega
      simp only [hnew]
      exact List.nil_prefix
  · obtain ⟨hlt, hret⟩ := h.returned x hx
    refine ⟨by simp only [List.length_append]; omega, fun b' hb' => ?_⟩
    rw [List.getElem?_append_left hlt] at hb'
    exact hret b' hb'

/-! ## Steps -/

theorem next_fits (h : Kept off o) {pc : At} (ht : (Pc.write b k i pc).Fits ip off o)
    (htake : (Pc.write b k i pc).locks = false → (Pc.next b k (At.step b k o (i, pc))).2.locks = true →
      Written ip off o) :
    Kept off (Pc.next b k (At.step b k o (i, pc))).1 ∧
      (Pc.next b k (At.step b k o (i, pc))).2.Fits ip off (Pc.next b k (At.step b k o (i, pc))).1 ∧
      ((Pc.next b k (At.step b k o (i, pc))).2.locks = false →
        ((Pc.write b k i pc).locks = false → Written ip off o) →
          Written ip off (Pc.next b k (At.step b k o (i, pc))).1) := by
  obtain ⟨hk, hb, hpc⟩ := ht
  cases pc with
  | loop =>
    refine ⟨h, ⟨hk, ?_, ?_⟩, fun _ hw => hw rfl⟩
    · split <;> exact hb
    · simp only [At.Fits] at hpc
      split
      · next hlt =>
        refine ⟨?_, min_le_right _ _, ?_⟩
        · have : 0 < maxChunk := by decide
          omega
        · omega
      · next hlt =>
        simp only [At.Fits]
        omega
  | ilock n1 => exact ⟨h, ⟨hk, hb, hpc, htake rfl rfl⟩, fun hl => by simp [Pc.next, At.step, Pc.locks] at hl⟩
  | test n1 =>
    obtain ⟨hc, hw⟩ := hpc
    have hin : o.off ≤ o.ip.size := by
      rw [hw, h.advanced]
      exact le_max_right _ _
    have hroom : ¬ o.ip.refuses o.off n1 := not_refuses hin (h.room hk hb hc.2.2)
    simp only [At.step, if_neg hroom, Pc.next]
    refine ⟨h, ⟨hk, hb, hc, Nat.zero_le _, rfl, ?_⟩, fun hl => by simp [Pc.locks] at hl⟩
    rw [show slice (fun j => b.addr (i + j)) 0 = [] from rfl, fill_nil]
    exact hw
  | copy n1 off' tot =>
    obtain ⟨hc, htot, rfl, hip⟩ := hpc
    by_cases hlt : tot < n1
    · have hle : blockLen (o.off + tot) (n1 - tot) ≤ n1 - tot := min_le_left _ _
      simp only [At.step, if_pos hlt, Pc.next]
      refine ⟨⟨h.advanced, h.numbered, h.ordered, h.returned, h.within⟩,
        ⟨hk, hb, hc, by omega, by simp only; omega, ?_⟩, fun hl => by simp [Pc.locks] at hl⟩
      simp only [hip]
      exact put_fill (fun j => b.addr (i + j)) tot
    · obtain rfl : tot = n1 := by omega
      simp only [At.step, if_neg hlt, Pc.next]
      exact ⟨h, ⟨hk, hb, hc, rfl, hip⟩, fun hl => by simp [Pc.locks] at hl⟩
  | grow n1 off' =>
    obtain ⟨hc, rfl, hip⟩ := hpc
    refine ⟨⟨h.advanced, h.numbered, h.ordered, h.returned, h.within⟩, ⟨hk, hb, hc, rfl, ?_⟩,
      fun hl => by simp [Pc.next, At.step, Pc.locks] at hl⟩
    have hin : o.off ≤ (ip.write off (bytesOf o.chunks)).size := by
      rw [h.advanced]
      exact le_max_right _ _
    have hgrow := grow_eq (slice (fun j => b.addr (i + j)) n1) hin
    rw [length_slice] at hgrow
    simp only [At.step, Pc.next, hip]
    exact hgrow
  | advance n1 r =>
    obtain ⟨hc, rfl, hip⟩ := hpc
    have hpos : (0 : ℤ) < n1 := by exact_mod_cast hc.1
    simp only [At.step, if_pos hpos, Int.toNat_natCast, Pc.next]
    refine ⟨h.advance hk hb hc, ⟨hk, ?_, hc, rfl, ?_⟩, fun hl => by simp [Pc.locks] at hl⟩
    · simp only [At.written]
      rw [chunksOf_append_self, hb, take_bytes hc.2.2]
      rfl
    · simp only [Written]
      rw [hip, bytesOf_append, h.advanced, write_append]
  | iunlock n1 r =>
    obtain ⟨hc, hr, hw⟩ := hpc
    exact ⟨h, ⟨hk, hb, hc, hr⟩, fun _ _ => hw⟩
  | check n1 r =>
    obtain ⟨hc, rfl⟩ := hpc
    have hneg : ¬ ((n1 : ℤ) < 0) := by omega
    simp only [At.step, if_neg hneg, ne_eq, not_true_eq_false, if_false, Int.toNat_natCast, Pc.next]
    exact ⟨h, ⟨hk, hb, hc.2.2⟩, fun _ hw => hw rfl⟩
  | done =>
    obtain rfl : i = b.n.toNat := hpc
    have hfull : bytesOf (chunksOf o.chunks k) = b.bytes := by
      rw [hb]
      exact List.take_of_length_le (by rw [length_bytes]; rfl)
    exact ⟨h.ret hk hfull _, trivial, fun _ hw => hw rfl⟩
  | panic => exact hpc.elim

/-- What a step changes for another call. -/
structure Mild (t : Pc) (o o' : Obj) : Prop where
  calls : o.calls <+: o'.calls
  chunks : ∀ k, t.number ≠ some k → k < o.calls.length → chunksOf o'.chunks k = chunksOf o.chunks k
  file : t.locks = false → o'.ip = o.ip ∧ o'.off = o.off ∧ o'.chunks = o.chunks

theorem next_mild {pc : At} : Mild (.write b k i pc) o (Pc.next b k (At.step b k o (i, pc))).1 := by
  cases pc with
  | copy n1 off' tot =>
    simp only [At.step]
    split
    · exact ⟨List.prefix_rfl, fun _ _ _ => rfl, fun hl => by simp [Pc.locks] at hl⟩
    · exact ⟨List.prefix_rfl, fun _ _ _ => rfl, fun _ => ⟨rfl, rfl, rfl⟩⟩
  | grow n1 off' => exact ⟨List.prefix_rfl, fun _ _ _ => rfl, fun hl => by simp [Pc.locks] at hl⟩
  | advance n1 r =>
    simp only [At.step]
    split
    · refine ⟨List.prefix_rfl, fun j hj _ => ?_, fun hl => by simp [Pc.locks] at hl⟩
      exact chunksOf_append_of_ne fun e => hj (by rw [e]; rfl)
    · exact ⟨List.prefix_rfl, fun _ _ _ => rfl, fun _ => ⟨rfl, rfl, rfl⟩⟩
  | _ => exact ⟨List.prefix_rfl, fun _ _ _ => rfl, fun _ => ⟨rfl, rfl, rfl⟩⟩

theorem Mild.fits {t u : Pc} {o' : Obj} (h : Mild t o o') (hd : Apart t u)
    (hx : u.locks = true → t.locks = false) (hu : u.Fits ip off o) : u.Fits ip off o' := by
  cases u with
  | idle => trivial
  | write b k i pc =>
    obtain ⟨hk, hb, hpc⟩ := hu
    have hlt := (List.getElem?_eq_some_iff.mp hk).1
    refine ⟨?_, ?_, ?_⟩
    · obtain ⟨l, hl⟩ := h.calls
      rw [← hl, List.getElem?_append_left hlt]
      exact hk
    · rw [h.chunks k (fun e => hd k e rfl) hlt]
      exact hb
    · cases pc with
      | test | copy | grow | advance | iunlock =>
        obtain ⟨hip, ho, hc⟩ := h.file (hx rfl)
        simpa only [At.Fits, Written, hip, ho, hc] using hpc
      | _ => exact hpc

theorem Pc.Fits.number_lt {u : Pc} (hu : u.Fits ip off o) {k : ℕ} (hk : u.number = some k) :
    k < o.calls.length := by
  cases u with
  | idle => simp [Pc.number] at hk
  | write b j i pc =>
    obtain rfl : j = k := by simpa [Pc.number] using hk
    exact (List.getElem?_eq_some_iff.mp hu.1).1

theorem next_number {x : Obj × (ℕ × At ⊕ ℤ)} {j : ℕ} (h : (Pc.next b k x).2.number = some j) : k = j := by
  obtain ⟨o, ⟨i, pc⟩ | r⟩ := x
  · simpa [Pc.next, Pc.number] using h
  · simp [Pc.next, Pc.number] at h

end Invariant

/-! ## Every interleaving -/

section Runs

variable {P : Type*} [DecidableEq P] {s : State P} {f : Opened} {tr : List (State P × P × Label)}

theorem act_inv {o o' : Obj} {t t' : Pc} {l : Label} (h : act o t l = some (o', t')) :
    (∃ b, l = .filewrite b ∧ t = .idle ∧ o' = { o with calls := o.calls ++ [b] } ∧
      t' = .write b o.calls.length 0 .loop) ∨
    ∃ b k i pc, l = .go ∧ t = .write b k i pc ∧ (o', t') = Pc.next b k (At.step b k o (i, pc)) := by
  unfold act at h
  split at h
  · next b =>
    obtain ⟨rfl, rfl⟩ := by simpa using h
    exact .inl ⟨b, rfl, rfl, rfl, rfl⟩
  · next b k i pc => exact .inr ⟨b, k, i, pc, rfl, rfl, (Option.some.inj h).symm⟩
  · simp at h

/-- **Every reachable state** has the chunks in the file. -/
theorem guarded (h : Path step (Within f.off) (start f) tr s) :
    Monitor.Guarded Pc.locks (Kept f.off) (Written f.ip f.off) (Pc.Fits f.ip f.off) Apart s := by
  refine Monitor.guarded_of_path h ⟨⟨fun p => ?_, ?_, fun p => trivial, fun _ k hk => ?_⟩, fun _ => ?_⟩ ?_ ?_ ?_
  · simp [start, Pc.locks]
  · exact ⟨rfl, by simp [start], by simp [start], by simp [start], by simp [start]⟩
  · simp [start, Pc.number] at hk
  · refine Inode.ext (fun bn x => ?_) ?_
    · exact (congrFun (congrFun (congrArg Inode.data fill_nil) bn) x).symm
    · exact (max_eq_left (by simpa [start, bytesOf] using f.off_le)).symm
  · intro t u hd k hu ht
    exact hd k ht hu
  · intro s p a o t hs hok hact htake
    obtain ⟨b, rfl, hidle, rfl, rfl⟩ | ⟨b, k, i, pc, rfl, ht, hnext⟩ := act_inv hact
    · refine ⟨hs.obj.call hok, ⟨by simp, ?_, Nat.zero_le _⟩, fun _ hw => hw (by rw [hidle]; rfl)⟩
      simp only [At.written, List.take_zero]
      rw [chunksOf_eq_nil fun c hc => (hs.obj.numbered c hc).1.ne]
      rfl
    · have hfit := hs.thread p
      rw [ht] at hfit htake ⊢
      have hstep := next_fits hs.obj hfit
      rw [← hnext] at hstep
      exact hstep htake
  · intro s p a o t q hs _ hact _ hq hx
    have hd := hs.apart hq.symm
    obtain ⟨b, rfl, hidle, rfl, rfl⟩ | ⟨b, k, i, pc, rfl, ht, hnext⟩ := act_inv hact
    · have hmild : Mild (.idle : Pc) s.obj { s.obj with calls := s.obj.calls ++ [b] } :=
        ⟨List.prefix_append _ _, fun _ _ _ => rfl, fun _ => ⟨rfl, rfl, rfl⟩⟩
      refine ⟨hmild.fits (hidle ▸ hd) (fun _ => rfl) (hs.thread q), fun k hk hqk => ?_⟩
      obtain rfl : s.obj.calls.length = k := by simpa [Pc.number] using hk
      exact absurd ((hs.thread q).number_lt hqk) (by omega)
    · rw [ht] at hd hx
      obtain ⟨rfl, rfl⟩ : o = _ ∧ t = _ := Prod.mk.injEq .. ▸ hnext
      refine ⟨next_mild.fits hd (fun hl => (hx hl).1) (hs.thread q), fun j hj => ?_⟩
      obtain rfl := next_number hj
      exact hd k rfl

theorem returned (h : Path step (Within f.off) (start f) tr s) :
    ∀ k < s.obj.calls.length, (∃ p, (s.thread p).number = some k) ∨ ∃ r, (k, r) ∈ s.obj.returned := by
  refine (h.inv (I := fun s => Monitor.Locked Pc.locks s ∧ ∀ k < s.obj.calls.length,
    (∃ p, (s.thread p).number = some k) ∨ ∃ r, (k, r) ∈ s.obj.returned) ?_ ?_).2
  · exact ⟨fun p => by simp [start, Pc.locks], fun k hk => by simp [start] at hk⟩
  rintro s ⟨p, a⟩ s' ⟨hl, hs⟩ - hst
  obtain ⟨o, t, hact, rfl, hth, hl', -⟩ := Monitor.step_inv hl hst
  refine ⟨hl', fun k hk => ?_⟩
  -- another call stays where it is
  have hother : ∀ q, q ≠ p → (s.thread q).number = some k → ∃ p, (s'.thread p).number = some k := fun q hq hqk =>
    ⟨q, by rw [hth, Function.update_of_ne hq]; exact hqk⟩
  have hself : t.number = some k → ∃ p, (s'.thread p).number = some k := fun ht =>
    ⟨p, by rw [hth, Function.update_self]; exact ht⟩
  obtain ⟨b, rfl, hidle, ho, rfl⟩ | ⟨b, j, i, pc, rfl, ht, hnext⟩ := act_inv hact
  · rw [ho] at hk ⊢
    obtain rfl | hne := eq_or_ne k s.obj.calls.length
    · exact .inl (hself rfl)
    · have hlt : k < s.obj.calls.length := by
        simp only [List.length_append, List.length_singleton] at hk
        omega
      obtain ⟨q, hqk⟩ | hr := hs k hlt
      · refine .inl (hother q ?_ hqk)
        rintro rfl
        simp [hidle, Pc.number] at hqk
      · exact .inr hr
  · have hstay : s'.obj.calls = s.obj.calls ∧ (t.number = some j ∧ s'.obj.returned = s.obj.returned ∨
        ∃ r, s'.obj.returned = s.obj.returned ++ [(j, r)]) := by
      obtain ⟨ho, rfl⟩ : s'.obj = _ ∧ t = _ := Prod.mk.injEq .. ▸ hnext
      rw [ho]
      cases pc with
      | copy n1 off' tot => by_cases hlt : tot < n1 <;> simp [At.step, hlt, Pc.number]
      | advance n1 r => by_cases hr : 0 < r <;> simp [At.step, hr, Pc.number]
      | done => exact ⟨rfl, .inr ⟨_, rfl⟩⟩
      | _ => exact ⟨rfl, .inl ⟨rfl, rfl⟩⟩
    rw [hstay.1] at hk
    obtain ⟨q, hqk⟩ | ⟨r, hr⟩ := hs k hk
    · obtain rfl | hq := eq_or_ne q p
      · obtain rfl : j = k := by simpa [ht, Pc.number] using hqk
        obtain ⟨hn, -⟩ | ⟨r, hr⟩ := hstay.2
        · exact .inl (hself hn)
        · exact .inr ⟨r, by simp [hr]⟩
      · exact .inl (hother q hq hqk)
    · refine .inr ⟨r, ?_⟩
      obtain ⟨-, he⟩ | ⟨r', he⟩ := hstay.2
      · rw [he]
        exact hr
      · rw [he]
        exact List.mem_append_left _ hr

end Runs

/-! ## A call that is alone -/

section Alone

variable {b : Buffer} {k i : ℕ} {o : Obj}

theorem finishes_copy {ip : Inode} {off n1 tot : ℕ} {o' : Obj} {r : ℤ} (htot : tot ≤ n1)
    (h : Finishes (At.step b k) { o with ip := ip.fill off (slice (fun j => b.addr (i + j)) n1) }
      (i, .grow n1 (off + n1)) o' r) :
    Finishes (At.step b k) { o with ip := ip.fill off (slice (fun j => b.addr (i + j)) tot) }
      (i, .copy n1 (off + tot) tot) o' r := by
  by_cases hlt : tot < n1
  · have hpos := blockLen_pos (off + tot) (show 0 < n1 - tot by omega)
    have hle : blockLen (off + tot) (n1 - tot) ≤ n1 - tot := min_le_left _ _
    have hnext : tot + blockLen (off + tot) (n1 - tot) ≤ n1 := by omega
    refine .next ?_ (finishes_copy hnext h)
    simp only [At.step, if_pos hlt]
    rw [put_fill fun j => b.addr (i + j), Nat.add_assoc]
  · obtain rfl : tot = n1 := by omega
    exact .next (by simp only [At.step, if_neg hlt]) h
termination_by n1 - tot

/-- **The rest of a call**, from the byte `i` on. -/
theorem finishes_loop (hi : (i : ℤ) ≤ b.n) (hoff : o.off ≤ o.ip.size)
    (hmax : o.off + (b.n.toNat - i) ≤ MAXFILE * BSIZE) :
    ∃ o', Finishes (At.step b k) o (i, .loop) o' b.n ∧
      o'.ip = o.ip.write o.off (slice (fun j => b.addr (i + j)) (b.n.toNat - i)) ∧
      o'.off = o.off + (b.n.toNat - i) := by
  induction hm : b.n.toNat - i using Nat.strong_induction_on generalizing i o with | _ m ih => ?_
  subst hm
  by_cases hlt : (i : ℤ) < b.n
  · obtain ⟨n1, hn1⟩ : ∃ n1, n1 = min (b.n - i).toNat maxChunk := ⟨_, rfl⟩
    have hchunk : 0 < maxChunk := by decide
    have hbound : MAXFILE * BSIZE < 2 ^ 32 := by decide
    have hpos : 0 < n1 ∧ i + n1 ≤ b.n.toNat := by omega
    -- the state after this chunk
    let o₁ : Obj :=
      { o with
        ip := o.ip.write o.off (slice (fun j => b.addr (i + j)) n1)
        off := o.off + n1
        chunks := o.chunks ++ [(k, slice (fun j => b.addr (i + j)) n1)] }
    have hsize : o₁.off ≤ o₁.ip.size := by
      simp only [o₁, Inode.write, length_slice]
      omega
    obtain ⟨o', hfin, hip, ho⟩ := ih _ (by omega) (o := o₁) (i := i + n1) (by omega) hsize (by simp only [o₁]; omega) rfl
    have hrest : b.n.toNat - i = n1 + (b.n.toNat - (i + n1)) := by omega
    have hr : (0 : ℤ) < n1 := by omega
    have hcheck : Finishes (At.step b k) o₁ (i, .check n1 n1) o' b.n := by
      refine .next ?_ hfin
      simp only [At.step, if_neg hr.not_gt, ne_eq, not_true_eq_false, if_false, Int.toNat_natCast]
    have hadvance : Finishes (At.step b k) { o with ip := o.ip.write o.off (slice (fun j => b.addr (i + j)) n1) }
        (i, .advance n1 n1) o' b.n := by
      have hunlock : Finishes (At.step b k) o₁ (i, .iunlock n1 n1) o' b.n := .next rfl hcheck
      refine .next ?_ hunlock
      simp only [At.step, if_pos hr, Int.toNat_natCast, Nat.mod_eq_of_lt (show o.off + n1 < 2 ^ 32 by omega), o₁]
    have hgrow : Finishes (At.step b k) { o with ip := o.ip.fill o.off (slice (fun j => b.addr (i + j)) n1) }
        (i, .grow n1 (o.off + n1)) o' b.n := by
      have heq := grow_eq (slice (fun j => b.addr (i + j)) n1) hoff
      rw [length_slice] at heq
      refine .next ?_ hadvance
      simp only [At.step, heq]
    have hcopy : Finishes (At.step b k) o (i, .copy n1 o.off 0) o' b.n := by
      have h := finishes_copy (Nat.zero_le n1) hgrow
      rw [show slice (fun j => b.addr (i + j)) 0 = [] from rfl, fill_nil] at h
      exact h
    have htest : Finishes (At.step b k) o (i, .test n1) o' b.n := by
      refine .next ?_ hcopy
      simp only [At.step, if_neg (not_refuses hoff (show o.off + n1 ≤ MAXFILE * BSIZE by omega))]
    have hlock : Finishes (At.step b k) o (i, .ilock n1) o' b.n := .next rfl htest
    refine ⟨o', .next ?_ hlock, ?_, ?_⟩
    · simp only [At.step, if_pos hlt, ← hn1]
    · rw [hip, hrest, slice_add, ← write_append, length_slice]
      simp only [o₁, Nat.add_assoc]
    · rw [ho]
      simp only [o₁]
      omega
  · have hie : (i : ℤ) = b.n := by omega
    refine ⟨o, .next (by simp only [At.step, if_neg hlt]; rfl) (.ret (by simp only [At.step, if_pos hie])), ?_, ?_⟩
    · rw [show b.n.toNat - i = 0 by omega]
      refine Inode.ext (fun bn x => ?_) ?_
      · exact (congrFun (congrFun (congrArg Inode.data fill_nil) bn) x).symm
      · exact (max_eq_left hoff).symm
    · omega

end Alone

/-! ## Shared files -/

section Shared

variable {P : Type*} [DecidableEq P] {s : State P} {f : Opened} {tr : List (State P × P × Label)}

/-- **Writes through a shared open file neither overlap nor get lost**: when all calls have returned, the file is the old
one with the chunks of the calls, one behind the other, from the initial offset on up to the offset reached, which is
the initial one and all lengths together; the chunks of a call are its bytes in order, each of at most `maxChunk`. A
call that is alone returns `n` and does what one `writei` of its bytes does. -/
theorem shared_writes (h : Path step (Within f.off) (start f) tr s) (hidle : ∀ p, s.thread p = .idle) :
    (∃ chunks : List (ℕ × List Byte),
      (∀ c ∈ chunks, c.1 < s.obj.calls.length ∧ c.2.length ≤ maxChunk) ∧
      (∀ k b, s.obj.calls[k]? = some b → bytesOf (chunksOf chunks k) = b.bytes) ∧
      s.obj.ip.content = f.ip.content.take f.off ++ bytesOf chunks ++ f.ip.content.drop s.obj.off) ∧
    s.obj.off = f.off + total s.obj.calls ∧
    ∀ (b : Buffer) (k : ℕ) (o : Obj), 0 ≤ b.n → o.off ≤ o.ip.size → o.off + b.n.toNat ≤ MAXFILE * BSIZE →
      ∃ o', Finishes (At.step b k) o (0, .loop) o' b.n ∧
        writei o.ip b.addr o.off b.n.toNat = some o'.ip ∧ o'.off = o.off + b.n.toNat := by
  have hg := guarded h
  have hall : ∀ k b, s.obj.calls[k]? = some b → bytesOf (chunksOf s.obj.chunks k) = b.bytes := by
    intro k b hk
    obtain ⟨p, hp⟩ | ⟨r, hr⟩ := returned h k (List.getElem?_eq_some_iff.mp hk).1
    · simp [hidle p, Pc.number] at hp
    · exact (hg.obj.returned (k, r) hr).2 b hk
  have hfree : s.lock = none := by
    cases hl : s.lock with
    | none => rfl
    | some p =>
      have := (hg.locked p).mpr hl
      simp [hidle p, Pc.locks] at this
  refine ⟨⟨s.obj.chunks, hg.obj.numbered, hall, ?_⟩, ?_, fun b k o hn hoff hmax => ?_⟩
  · rw [hg.free hfree, content_write f.off_le, hg.obj.advanced]
  · rw [hg.obj.advanced, length_bytesOf fun c hc => (hg.obj.numbered c hc).1, total_eq]
    congr 1
    refine Finset.sum_congr rfl fun k _ => ?_
    rw [hall k _ (List.getElem?_eq_getElem k.isLt)]
    rfl
  · obtain ⟨o', hfin, hip, ho⟩ := finishes_loop (b := b) (k := k) (i := 0) (o := o) hn hoff hmax
    refine ⟨o', hfin, ?_, ho⟩
    rw [writei_eq hoff hmax, hip]
    simp only [Nat.zero_add, Nat.sub_zero]

/-- A file of two bytes that is open at the beginning. -/
def short : Opened := ⟨⟨fun _ x => BitVec.ofNat 8 (97 + x), 2⟩, 0, by decide⟩

/-- Two calls, of one byte and of two bytes; the second one comes in before the first has written. -/
def twoCalls : List (Fin 2 × Label) :=
  [(0, .filewrite ⟨fun _ => 65, 1⟩), (0, .go), (1, .filewrite ⟨fun j => BitVec.ofNat 8 (66 + j), 2⟩)] ++
    List.replicate 11 (1, .go) ++ List.replicate 10 (0, .go)

theorem shared_writes_two : ∃ (tr : List (State (Fin 2) × Fin 2 × Label)) (s : State (Fin 2)),
    Path step (Within short.off) (start short) tr s ∧ s.obj.calls.length = 2 ∧ s.obj.ip.content = [66, 67, 65] ∧
      s.obj.off = 0 + total s.obj.calls := by
  obtain ⟨s, hs, hidle, hlen, hc⟩ := exists_path step (Within short.off) (start short) twoCalls
    (fun s => (∀ p, (s.thread p).number = none) ∧ s.obj.calls.length = 2 ∧ s.obj.ip.content = [66, 67, 65])
    (by decide +kernel)
  refine ⟨_, s, hs, hlen, hc, (shared_writes hs fun p => ?_).2.1⟩
  have hp := hidle p
  generalize s.thread p = t at hp
  cases t with
  | idle => rfl
  | write b k i pc => simp [Pc.number] at hp

/-- **The rest of the file stays**: after a call that writes one byte over the first of two, the content from the initial
offset on is longer than what has been written. -/
theorem tail_stays : ∃ (tr : List (State Unit × Unit × Label)) (s : State Unit),
    Path step (Within short.off) (start short) tr s ∧ (∀ p, (s.thread p).number = none) ∧
      total s.obj.calls = 1 ∧ s.obj.ip.content.drop short.off = [65, 98] := by
  obtain ⟨s, hs, h⟩ := exists_path step (Within short.off) (start short)
    ([((), .filewrite ⟨fun _ => 65, 1⟩)] ++ List.replicate 11 ((), Label.go))
    (fun s => (∀ p, (s.thread p).number = none) ∧ total s.obj.calls = 1 ∧ s.obj.ip.content.drop short.off = [65, 98])
    (by decide +kernel)
  exact ⟨_, s, hs, h⟩

end Shared

end Xv6.File
