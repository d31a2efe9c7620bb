import Xv6.Lib.Bytes
import Xv6.Param

/-!
# The multiprocessor table

`mp.c`: the search for the MP structure, the checks of the configuration table and the loop of `mpinit` over its
entries, on memory with 32-bit addresses that wrap around. The loop is executed for a number of rounds; the addresses of
the types it reads and the entries of `cpus` that it sets are recorded.
-/

namespace Xv6.Mp

open Lib

/-! ## `mpconfig` -/

abbrev Memory := Word → Byte

abbrev NCPU : ℕ := 8

/-- The kernel's address of physical memory. -/
def p2v (a : Word) : Word := a + 0x80000000

def Memory.half (m : Memory) (a : Word) : BitVec 16 := m (a + 1) ++ m a

def Memory.word (m : Memory) (a : Word) : Word := m.half (a + 2) ++ m.half a

/-- `memcmp(a, s, n) == 0` -/
def Memory.hasText (m : Memory) (a : Word) (s : List Byte) : Bool :=
  s.zipIdx.all fun c => m (a + BitVec.ofNat 32 c.2) == c.1

/-- `sum`: a `uchar`. -/
def sum (m : Memory) (addr : Word) (len : ℕ) : Byte :=
  (List.range len).foldl (fun sum i => sum + m (addr + BitVec.ofNat 32 i)) 0

/-- The loop of `mpsearch1`, for a number of rounds. -/
def mpsearch1Loop (m : Memory) (e : Word) : ℕ → Word → Option Word
  | 0, _ => none
  | n + 1, p =>
    if p < e then
      if m.hasText p [0x5F, 0x4D, 0x50, 0x5F] ∧ sum m p 16 = 0 then some p else mpsearch1Loop m e n (p + 16)
    else none

/-- `mpsearch1`: a structure takes 16 bytes. -/
def mpsearch1 (m : Memory) (a : Word) (len : ℕ) : Option Word :=
  mpsearch1Loop m (p2v a + BitVec.ofNat 32 len) (len / 16 + 1) (p2v a)

/-- `mpsearch`: in the EBDA or else at the end of base memory, and in the BIOS ROM. -/
def mpsearch (m : Memory) : Option Word :=
  let bda := p2v 0x400
  let p : Word := (((m (bda + 0x0F)).setWidth 32 <<< 8) ||| (m (bda + 0x0E)).setWidth 32) <<< 4
  let near :=
    if p ≠ 0 then mpsearch1 m p 1024
    else mpsearch1 m ((((m (bda + 0x14)).setWidth 32 <<< 8) ||| (m (bda + 0x13)).setWidth 32) * 1024 - 1024) 1024
  near.or (mpsearch1 m 0xF0000 0x10000)

def Memory.length (m : Memory) (conf : Word) : BitVec 16 := m.half (conf + 4)

/-- `mpconfig`: the MP structure and the table, if the table passes the checks. -/
def mpconfig (m : Memory) : Option (Word × Word) :=
  (mpsearch m).bind fun mp =>
    let physaddr := m.word (mp + 4)
    if physaddr = 0 then none
    else
      let conf := p2v physaddr
      let version := m (conf + 6)
      if ¬ m.hasText conf [0x50, 0x43, 0x4D, 0x50] then none
      else if version ≠ 1 ∧ version ≠ 4 then none
      else if sum m conf (m.length conf).toNat ≠ 0 then none
      else some (mp, conf)

section Search

variable {m : Memory} {p e : Word} {n : ℕ}

theorem mpsearch1Loop_ends (he : e.toNat + 16 ≤ 2 ^ 32) (hn : e.toNat < p.toNat + 16 * n) (k : ℕ) :
    mpsearch1Loop m e (n + k) p = mpsearch1Loop m e n p := by
  induction n generalizing p with
  | zero =>
    cases k with
    | zero => rfl
    | succ k =>
      have hend : ¬ p < e := by
        rw [BitVec.lt_def]
        omega
      rw [Nat.zero_add]
      exact if_neg hend
  | succ n ih =>
    rw [Nat.add_right_comm, mpsearch1Loop, mpsearch1Loop]
    by_cases hlt : p < e
    · have hnext : (p + 16).toNat = p.toNat + 16 := by
        rw [BitVec.lt_def] at hlt
        rw [BitVec.toNat_add]
        exact Nat.mod_eq_of_lt (show p.toNat + 16 < 2 ^ 32 by omega)
      rw [ih (by omega)]
    · rw [if_neg hlt, if_neg hlt]

theorem mpsearch1_ends {a : Word} {len : ℕ} (hlen : (p2v a).toNat + len + 16 ≤ 2 ^ 32) (k : ℕ) :
    mpsearch1Loop m (p2v a + BitVec.ofNat 32 len) (len / 16 + 1 + k) (p2v a) = mpsearch1 m a len := by
  have hend : (p2v a + BitVec.ofNat 32 len).toNat = (p2v a).toNat + len := by
    rw [BitVec.toNat_add, BitVec.toNat_ofNat]
    omega
  exact mpsearch1Loop_ends (by omega) (by omega) k

end Search

/-! ## `mpinit` -/

inductive Entry
  | proc
  | bus
  | ioapic
  | iointr
  | lintr
  deriving DecidableEq, Repr

def Entry.ofType (type : Byte) : Option Entry :=
  if type = 0 then some .proc
  else if type = 1 then some .bus
  else if type = 2 then some .ioapic
  else if type = 3 then some .iointr
  else if type = 4 then some .lintr
  else none

def Entry.size : Entry → ℕ
  | .proc => 20
  | .bus | .ioapic | .iointr | .lintr => 8

inductive Message
  /-- `mpinit: ncpu=%d apicid=%d` -/
  | order (ncpu : ℕ) (apicid : Byte)
  /-- `mpinit: unknown config type %x` -/
  | unknown (type : Byte)
  deriving DecidableEq, Repr

structure Machine where
  ismp : Bool
  ncpu : ℕ
  /-- The index of the boot processor in `cpus`. -/
  bcpu : ℕ
  /-- The field `id` of `cpus`. -/
  id : ℕ → Byte
  ioapicid : Byte
  lapic : Word
  ports : ℕ → Byte
  printed : List Message
  /-- The addresses from which types have been read. -/
  types : List Word
  /-- The indices of `cpus` that have been set. -/
  set : List ℕ

/-- The variables at the start. -/
def Machine.boot (ports : ℕ → Byte) : Machine :=
  { ismp := false, ncpu := 0, bcpu := 0, id := fun _ => 0, ioapicid := 0, lapic := 0, ports, printed := [], types := [],
    set := [] }

/-- `case MPPROC`: the entry is at `p`. -/
def addCpu (m : Memory) (p : Word) (s : Machine) : Machine :=
  let apicid := m (p + 1)
  let flags := m (p + 3)
  let s := if s.ncpu ≠ apicid.toNat then
      { s with printed := s.printed ++ [.order s.ncpu apicid], ismp := false }
    else s
  let s := if flags &&& 2 ≠ 0 then { s with bcpu := s.ncpu } else s
  { s with
    id := Function.update s.id s.ncpu (BitVec.ofNat 8 s.ncpu)
    set := s.set ++ [s.ncpu]
    ncpu := s.ncpu + 1 }

/-- One round of the loop of `mpinit`. An unknown type leaves `p` where it is. -/
def round (m : Memory) (p : Word) (s : Machine) : Word × Machine :=
  let s := { s with types := s.types ++ [p] }
  match Entry.ofType (m p) with
  | some .proc => (p + 20, addCpu m p s)
  | some .ioapic => (p + 8, { s with ioapicid := m (p + 1) })
  | some .bus | some .iointr | some .lintr => (p + 8, s)
  | none => (p, { s with printed := s.printed ++ [.unknown (m p)], ismp := false })

/-- The loop of `mpinit`, for a number of rounds; `error` if it has not ended. -/
def mpinitLoop (m : Memory) (e : Word) : ℕ → Word → Machine → Except Machine Machine
  | 0, _, s => .error s
  | n + 1, p, s => if p < e then mpinitLoop m e n (round m p s).1 (round m p s).2 else .ok s

/-- `mpinit` behind the loop. -/
def finish (m : Memory) (mp : Word) (s : Machine) : Machine :=
  if ¬ s.ismp then { s with ncpu := 1, lapic := 0, ioapicid := 0 }
  else if m (mp + 12) ≠ 0 then
    let ports := Function.update s.ports 0x22 0x70
    { s with ports := Function.update ports 0x23 (ports 0x23 ||| 1) }
  else s

/-- `mpinit`, with a number of rounds for its loop. -/
def mpinit (fuel : ℕ) (m : Memory) (s : Machine) : Except Machine Machine :=
  let s := { s with bcpu := 0 }
  match mpconfig m with
  | none => .ok s
  | some (mp, conf) =>
    let s := { s with ismp := true, lapic := m.word (conf + 36) }
    (mpinitLoop m (conf + (m.length conf).setWidth 32) fuel (conf + 44) s).map (finish m mp)

/-! ## A table in order -/

/-- `Entries table len o es`: from `o` on the bytes are the entries `es`, the last of which reaches `len`. -/
inductive Entries (table : ℕ → Byte) (len : ℕ) : ℕ → List Entry → Prop
  | done {o : ℕ} : len ≤ o → Entries table len o []
  | entry {o : ℕ} {t : Entry} {es : List Entry} : o < len → Entry.ofType (table o) = some t →
      Entries table len (o + t.size) es → Entries table len o (t :: es)

/-- A table of at most NCPU processors and other known entries, the last of which ends in the address space. -/
structure Proper (m : Memory) (conf : Word) (es : List Entry) : Prop where
  entries : Entries (fun o => m (conf + BitVec.ofNat 32 o)) (m.length conf).toNat 44 es
  cpus : es.count .proc ≤ NCPU
  fits : (conf + 44).toNat + (es.map Entry.size).sum < 2 ^ 32

variable {m : Memory} {p e conf mp : Word} {s : Machine} {t : Entry} {es : List Entry} {fuel : ℕ}

theorem addCpu_ncpu : (addCpu m p s).ncpu = s.ncpu + 1 := by
  unfold addCpu
  dsimp only
  split <;> split <;> rfl

theorem addCpu_set : (addCpu m p s).set = s.set ++ [s.ncpu] := by
  unfold addCpu
  dsimp only
  split <;> split <;> rfl

theorem addCpu_types : (addCpu m p s).types = s.types := by
  unfold addCpu
  dsimp only
  split <;> split <;> rfl

/-- **One round on a known entry**: on to the next one, and a processor sets the next entry of `cpus`. -/
theorem round_known (ht : Entry.ofType (m p) = some t) :
    (round m p s).1 = p + BitVec.ofNat 32 t.size ∧ (round m p s).2.types = s.types ++ [p] ∧
      (round m p s).2.ncpu = s.ncpu + [t].count .proc ∧
      ∀ i ∈ (round m p s).2.set, i ∈ s.set ∨ i = s.ncpu ∧ t = .proc := by
  unfold round
  rw [ht]
  cases t with
  | proc =>
    refine ⟨rfl, addCpu_types, addCpu_ncpu, fun i hi => ?_⟩
    rw [addCpu_set] at hi
    simpa using hi
  | bus | ioapic | iointr | lintr => exact ⟨rfl, rfl, rfl, fun i hi => .inl hi⟩

theorem round_unknown (ht : Entry.ofType (m p) = none) : (round m p s).1 = p := by
  unfold round
  rw [ht]

theorem count_proc_cons : (t :: es).count .proc = [t].count .proc + es.count .proc := by
  rw [← List.count_append, List.singleton_append]

theorem toNat_add_ofNat {o : ℕ} (h : conf.toNat + o < 2 ^ 32) :
    (conf + BitVec.ofNat 32 o).toNat = conf.toNat + o := by
  rw [BitVec.toNat_add, BitVec.toNat_ofNat]
  omega

/-- The address of the entry at `o`, seen from the first one. -/
theorem toNat_entry {o : ℕ} (ho : 44 ≤ o) (h : (conf + 44).toNat + (o - 44) < 2 ^ 32) :
    (conf + BitVec.ofNat 32 o).toNat = (conf + 44).toNat + (o - 44) := by
  have hsplit : conf + BitVec.ofNat 32 o = conf + 44 + BitVec.ofNat 32 (o - 44) := by
    rw [BitVec.add_assoc, show (44 : Word) = BitVec.ofNat 32 44 from rfl, ← BitVec.ofNat_add, Nat.add_sub_cancel' ho]
  rw [hsplit]
  exact toNat_add_ofNat h

theorem toNat_entry_sub {o : ℕ} (ho : o < 2 ^ 32) : (conf + BitVec.ofNat 32 o - conf).toNat = o := by
  rw [BitVec.add_comm, BitVec.add_sub_cancel, BitVec.toNat_ofNat]
  exact Nat.mod_eq_of_lt ho

theorem finish_types : (finish m mp s).types = s.types := by
  unfold finish
  split <;> [rfl; split <;> rfl]

theorem finish_set : (finish m mp s).set = s.set := by
  unfold finish
  split <;> [rfl; split <;> rfl]

/-- **The loop on a table in order**: it ends behind the last entry. -/
theorem mpinitLoop_walk {len o : ℕ} (hes : Entries (fun o => m (conf + BitVec.ofNat 32 o)) len o es) (ho : 44 ≤ o)
    (hlen : len < 2 ^ 16) (hfits : (conf + 44).toNat + (o - 44) + (es.map Entry.size).sum < 2 ^ 32)
    (he : e.toNat = (conf + 44).toNat + (len - 44)) :
    ∀ s, ∃ s', mpinitLoop m e (es.length + 1) (conf + BitVec.ofNat 32 o) s = .ok s' ∧
      (∀ a ∈ s'.types, a ∈ s.types ∨ 44 ≤ (a - conf).toNat ∧ (a - conf).toNat < len) ∧
      ∀ i ∈ s'.set, i ∈ s.set ∨ i < s.ncpu + es.count .proc := by
  induction hes with
  | @done o hle =>
    intro s
    have hend : ¬ conf + BitVec.ofNat 32 o < e := by
      rw [BitVec.lt_def, toNat_entry ho (by simpa using hfits)]
      omega
    exact ⟨s, if_neg hend, fun a ha => .inl ha, fun i hi => .inl hi⟩
  | @entry o t es hlt ht hes ih =>
    intro s
    rw [List.map_cons, List.sum_cons] at hfits
    have hgo : conf + BitVec.ofNat 32 o < e := by
      rw [BitVec.lt_def, toNat_entry ho (by omega)]
      omega
    obtain ⟨hnext, htypes, hncpu, hset⟩ := round_known (s := s) ht
    obtain ⟨s', hs', htypes', hset'⟩ := ih (by omega) (by omega) (round m (conf + BitVec.ofNat 32 o) s).2
    refine ⟨s', ?_, fun a ha => ?_, fun i hi => ?_⟩
    · rw [List.length_cons, mpinitLoop, if_pos hgo, hnext, BitVec.add_assoc, ← BitVec.ofNat_add]
      exact hs'
    · rcases htypes' a ha with h | h
      · rw [htypes, List.mem_append, List.mem_singleton] at h
        rcases h with h | rfl
        · exact .inl h
        · rw [toNat_entry_sub (by omega)]
          exact .inr ⟨ho, hlt⟩
      · exact .inr h
    · rw [count_proc_cons]
      rcases hset' i hi with h | h
      · rcases hset i h with h | ⟨rfl, rfl⟩
        · exact .inl h
        · exact .inr (by rw [List.count_singleton_self]; omega)
      · exact .inr (by omega)

/-! ## What a run says about the table -/

theorem mpinitLoop_stuck (hp : p < e) (ht : Entry.ofType (m p) = none) :
    ∀ fuel s, ∃ s', mpinitLoop m e fuel p s = .error s' := by
  intro fuel
  induction fuel with
  | zero => exact fun s => ⟨s, rfl⟩
  | succ fuel ih =>
    intro s
    rw [mpinitLoop, if_pos hp, round_unknown ht]
    exact ih _

/-- What a round records. -/
theorem round_records : p ∈ (round m p s).2.types ∧ (∀ a ∈ s.types, a ∈ (round m p s).2.types) ∧
    (∀ i ∈ s.set, i ∈ (round m p s).2.set) ∧ (Entry.ofType (m p) = some .proc → s.ncpu ∈ (round m p s).2.set) := by
  unfold round
  split <;> simp_all [addCpu_types, addCpu_set]

theorem mpinitLoop_records {s' : Machine} : ∀ fuel p s, mpinitLoop m e fuel p s = .ok s' →
    (∀ a ∈ s.types, a ∈ s'.types) ∧ (∀ i ∈ s.set, i ∈ s'.set) ∧ (p < e → p ∈ s'.types) := by
  intro fuel
  induction fuel with
  | zero => exact fun p s h => nomatch h
  | succ fuel ih =>
    intro p s h
    rw [mpinitLoop] at h
    split_ifs at h with hlt
    · obtain ⟨htypes, hset, -⟩ := ih _ _ h
      obtain ⟨hp, hold, hset', -⟩ := round_records (m := m) (p := p) (s := s)
      exact ⟨fun a ha => htypes a (hold a ha), fun i hi => hset i (hset' i hi), fun _ => htypes p hp⟩
    · obtain rfl := Except.ok.inj h
      exact ⟨fun _ => id, fun _ => id, fun hp => absurd hp hlt⟩

/-- **A run in bounds walks over a table in order**: a run that ends has found no unknown type, and one that has read
types in the table only has not wrapped around. -/
theorem entries_of_mpinitLoop {len : ℕ} {s' : Machine} (hlen : len < 2 ^ 16)
    (he : e.toNat = (conf + 44).toNat + (len - 44))
    (htypes : ∀ a ∈ s'.types, 44 ≤ (a - conf).toNat ∧ (a - conf).toNat < len) (hset : ∀ i ∈ s'.set, i < NCPU) :
    ∀ fuel o s, 44 ≤ o → (conf + 44).toNat + (o - 44) < 2 ^ 32 → s.ncpu ≤ NCPU →
      mpinitLoop m e fuel (conf + BitVec.ofNat 32 o) s = .ok s' →
      ∃ es, Entries (fun o => m (conf + BitVec.ofNat 32 o)) len o es ∧ s.ncpu + es.count .proc ≤ NCPU ∧
        (conf + 44).toNat + (o - 44) + (es.map Entry.size).sum < 2 ^ 32 := by
  intro fuel
  induction fuel with
  | zero => exact fun o s _ _ _ h => nomatch h
  | succ fuel ih =>
    intro o s ho hfit hn h
    have hat := toNat_entry ho hfit
    rw [mpinitLoop] at h
    split_ifs at h with hlt
    · rw [BitVec.lt_def, hat] at hlt
      cases ht : Entry.ofType (m (conf + BitVec.ofNat 32 o)) with
      | none =>
        rw [round_unknown ht] at h
        obtain ⟨s'', hstuck⟩ := mpinitLoop_stuck (e := e) (by rw [BitVec.lt_def, hat]; exact hlt) ht fuel
          (round m (conf + BitVec.ofNat 32 o) s).2
        rw [hstuck] at h
        cases h
      | some t =>
        obtain ⟨hnext, -, hncpu, -⟩ := round_known (s := s) ht
        rw [hnext, BitVec.add_assoc, ← BitVec.ofNat_add] at h
        obtain ⟨-, hsets, hread⟩ := mpinitLoop_records _ _ _ h
        have hcpu : s.ncpu + [t].count .proc ≤ NCPU := by
          by_cases hproc : t = .proc
          · subst hproc
            have hmem := hset _ (hsets _ (round_records.2.2.2 ht))
            rw [List.count_singleton_self]
            exact hmem
          · rw [List.count_singleton, if_neg (by simpa using hproc)]
            exact hn
        have hsize : t.size ≤ 20 := by cases t <;> decide
        have hin : (conf + 44).toNat + (o + t.size - 44) < 2 ^ 32 := by
          -- the next type would be read at the start of the address space, which is not in the table
          by_contra hwrap
          have hlow : (conf + BitVec.ofNat 32 (o + t.size)).toNat < e.toNat := by
            have hsum : (conf + BitVec.ofNat 32 (o + t.size)).toNat
                = ((conf + BitVec.ofNat 32 o).toNat + t.size) % 2 ^ 32 := by
              rw [BitVec.ofNat_add, ← BitVec.add_assoc, BitVec.toNat_add, BitVec.toNat_ofNat]
              omega
            omega
          have hoff := htypes _ (hread (BitVec.lt_def.mpr hlow))
          rw [toNat_entry_sub (by omega)] at hoff
          have hend := e.isLt
          omega
        obtain ⟨es, hes, hcount, hfits⟩ := ih (o + t.size) _ (by omega) hin (by rw [hncpu]; exact hcpu) h
        refine ⟨t :: es, .entry (by omega) ht hes, ?_, ?_⟩
        · rw [hncpu] at hcount
          rw [count_proc_cons]
          omega
        · rw [List.map_cons, List.sum_cons]
          omega
    · rw [BitVec.lt_def, hat] at hlt
      exact ⟨[], .done (by omega), by simpa using hn, by simpa using hfit⟩

/-! ## `mpinit` on tables in and out of order -/

def Memory.put (m : Memory) (a : Word) (l : List Byte) : Memory := fun x => l.getD (x - a).toNat (m x)

/-- A table with these entries and the right length and checksum. -/
def tableOf (entries : List Byte) : List Byte :=
  let head (checksum : Byte) : List Byte :=
    [0x50, 0x43, 0x4D, 0x50, BitVec.ofNat 8 (44 + entries.length), 0, 4, checksum] ++ List.replicate 36 0
  head (0 - (head 0 ++ entries).sum) ++ entries

/-- A memory with an MP structure in the EBDA, which points to a table. -/
def firmware (physaddr : Word) (entries : List Byte) : Memory :=
  let floating (checksum : Byte) : List Byte :=
    [0x5F, 0x4D, 0x50, 0x5F, byte physaddr 0, byte physaddr 1, byte physaddr 2, byte physaddr 3, 1, 4, checksum, 0] ++
      List.replicate 4 0
  Memory.put (Memory.put (Memory.put (fun _ => 0) (p2v 0x40E) [0, 0x10]) (p2v 0x10000)
    (floating (0 - (floating 0).sum))) (p2v physaddr) (tableOf entries)

/-- **In bounds**: `mpinit` returns, has read types in the table only and has set entries of `cpus` only. -/
def InBounds (m : Memory) (conf : Word) (ports : ℕ → Byte) : Prop :=
  ∃ fuel s, mpinit fuel m (.boot ports) = .ok s ∧
    (∀ a ∈ s.types, 44 ≤ (a - conf).toNat ∧ (a - conf).toNat < (m.length conf).toNat) ∧ ∀ i ∈ s.set, i < NCPU

/-- The loop decides: behind it no type is read and no entry of `cpus` is set. -/
theorem inBounds_iff_loop (hconf : mpconfig m = some (mp, conf)) (ports : ℕ → Byte) :
    InBounds m conf ports ↔ ∃ fuel s, mpinitLoop m (conf + (m.length conf).setWidth 32) fuel (conf + 44)
        { Machine.boot ports with ismp := true, lapic := m.word (conf + 36) } = .ok s ∧
      (∀ a ∈ s.types, 44 ≤ (a - conf).toNat ∧ (a - conf).toNat < (m.length conf).toNat) ∧ ∀ i ∈ s.set, i < NCPU := by
  unfold InBounds mpinit
  rw [hconf]
  simp only
  constructor
  · rintro ⟨fuel, s, hs, htypes, hset⟩
    generalize hloop : mpinitLoop m _ fuel _ _ = r at hs
    cases r with
    | error s' => cases hs
    | ok s' =>
      obtain rfl := Except.ok.inj hs
      rw [finish_types] at htypes
      rw [finish_set] at hset
      exact ⟨fuel, s', hloop, htypes, hset⟩
  · rintro ⟨fuel, s, hs, htypes, hset⟩
    refine ⟨fuel, finish m mp s, congrArg (Except.map (finish m mp)) hs, ?_, ?_⟩
    · rwa [finish_types]
    · rwa [finish_set]

/-- The end of a table that is entered. -/
theorem toNat_end (h44 : 44 ≤ (m.length conf).toNat) (henter : conf + 44 < conf + (m.length conf).setWidth 32) :
    (conf + (m.length conf).setWidth 32).toNat = (conf + 44).toNat + ((m.length conf).toNat - 44) := by
  have hlt := (m.length conf).isLt
  have hlen : ((m.length conf).setWidth 32).toNat = (m.length conf).toNat := by
    rw [BitVec.toNat_setWidth]
    omega
  have hstart : (conf + 44).toNat = (conf.toNat + 44) % 2 ^ 32 := BitVec.toNat_add _ _
  rw [BitVec.lt_def, BitVec.toNat_add conf (BitVec.setWidth _ _), hlen] at henter
  rw [BitVec.toNat_add conf (BitVec.setWidth _ _), hlen]
  omega

/-- **`mpinit` stays in bounds exactly on tables in order**, and on those whose end, computed with 32 bits, is not behind
the header: its loop is not entered then. -/
theorem mpinit_in_bounds_iff (hconf : mpconfig m = some (mp, conf)) (ports : ℕ → Byte) :
    InBounds m conf ports ↔
      (conf + 44 < conf + (m.length conf).setWidth 32 → ∃ es, es ≠ [] ∧ Proper m conf es) := by
  have hlt16 : (m.length conf).toNat < 2 ^ 16 := (m.length conf).isLt
  rw [inBounds_iff_loop hconf]
  constructor
  · rintro ⟨fuel, s, hloop, htypes, hset⟩ henter
    -- the first type is read behind the header
    have hfirst := htypes _ ((mpinitLoop_records _ _ _ hloop).2.2 henter)
    rw [show conf + 44 - conf = 44 by rw [BitVec.add_comm, BitVec.add_sub_cancel]] at hfirst
    have h44 : 44 < (m.length conf).toNat := hfirst.2
    obtain ⟨es, hes, hcpus, hfits⟩ := entries_of_mpinitLoop hlt16 (toNat_end h44.le henter) htypes hset fuel 44 _ le_rfl
      (by simpa using (conf + 44).isLt) (Nat.zero_le _) hloop
    refine ⟨es, ?_, hes, by simpa [Machine.boot] using hcpus, by simpa using hfits⟩
    rintro rfl
    cases hes
    omega
  · intro h
    by_cases henter : conf + 44 < conf + (m.length conf).setWidth 32
    · obtain ⟨es, hne, hes, hcpus, hfits⟩ := h henter
      have h44 : 44 < (m.length conf).toNat := by
        cases hes with
        | done => exact absurd rfl hne
        | entry hlt => exact hlt
      obtain ⟨s, hs, htypes, hset⟩ := mpinitLoop_walk hes le_rfl hlt16 (by simpa using hfits) (toNat_end h44.le henter)
        { Machine.boot ports with ismp := true, lapic := m.word (conf + 36) }
      refine ⟨es.length + 1, s, hs, fun a ha => (htypes a ha).resolve_left List.not_mem_nil, fun i hi => ?_⟩
      have hlt : i < 0 + es.count .proc := (hset i hi).resolve_left List.not_mem_nil
      omega
    · exact ⟨1, _, if_neg henter, fun a ha => absurd ha List.not_mem_nil, fun i hi => absurd hi List.not_mem_nil⟩

/-- The entries of a processor and an I/O APIC. -/
def cpuAndApic : List Byte := List.replicate 20 0 ++ 2 :: List.replicate 7 0

/-- `mpinit` on a processor and an I/O APIC. -/
theorem mpinit_in_bounds_two :
    mpconfig (firmware 0x20000 cpuAndApic) = some (0x80010000, 0x80020000) ∧
      InBounds (firmware 0x20000 cpuAndApic) 0x80020000 fun _ => 0 := by
  have hconf : mpconfig (firmware 0x20000 cpuAndApic) = some (0x80010000, 0x80020000) := by decide +kernel
  have hproper : Proper (firmware 0x20000 cpuAndApic) 0x80020000 [.proc, .ioapic] := by
    have hlen : (Memory.length (firmware 0x20000 cpuAndApic) 0x80020000).toNat = 72 := by decide +kernel
    refine ⟨?_, by decide, by decide⟩
    rw [hlen]
    exact .entry (by decide) (by decide +kernel) (.entry (by decide) (by decide +kernel) (.done (by decide)))
  exact ⟨hconf, (mpinit_in_bounds_iff hconf _).mpr fun _ => ⟨_, by decide, hproper⟩⟩

/-- The state that `mpinit` has come to, whether it has returned or not. -/
def Machine.reached : Except Machine Machine → Machine
  | .ok s => s
  | .error s => s

/-- **`mpinit` goes astray** on tables that pass the checks: it does not return if the only entry has the type 255; it
sets `cpus[8]` if there are nine processors; and if a processor entry reaches over the end of the address space it goes
on reading at address 4. -/
theorem mpinit_astray :
    (mpconfig (firmware 0x20000 [255]) = some (0x80010000, 0x80020000) ∧
      ∀ fuel, ∃ s, mpinit fuel (firmware 0x20000 [255]) (.boot fun _ => 0) = .error s) ∧
    (mpinit 10 (firmware 0x20000 (List.replicate 180 0)) (.boot fun _ => 0)).toOption.map Machine.set =
      some [0, 1, 2, 3, 4, 5, 6, 7, 8] ∧
    mpconfig (firmware 0x7FFFFFC4 (List.replicate 8 0)) = some (0x80010000, 0xFFFFFFC4) ∧
      (Machine.reached (mpinit 2 (firmware 0x7FFFFFC4 (List.replicate 8 0)) (.boot fun _ => 0))).types =
        [0xFFFFFFF0, 4] := by
  have hconf : mpconfig (firmware 0x20000 [255]) = some (0x80010000, 0x80020000) := by decide +kernel
  refine ⟨⟨hconf, fun fuel => ?_⟩, by decide +kernel, by decide +kernel, by decide +kernel⟩
  have hlt : (0x80020000 : Word) + 44 <
      0x80020000 + (Memory.length (firmware 0x20000 [255]) 0x80020000).setWidth 32 := by decide +kernel
  have htype : Entry.ofType (firmware 0x20000 [255] (0x80020000 + 44)) = none := by decide +kernel
  unfold mpinit
  rw [hconf]
  obtain ⟨s, hs⟩ := mpinitLoop_stuck hlt htype fuel
    { Machine.boot (fun _ => 0) with ismp := true, lapic := Memory.word (firmware 0x20000 [255]) (0x80020000 + 36) }
  exact ⟨s, congrArg (Except.map _) hs⟩

end Xv6.Mp
