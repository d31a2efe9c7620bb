import Xv6.Lib.Turns
import Xv6.Proc.Effect

/-!
# `allocproc` and `allocpid` under contention

Any number of threads are in `allocproc`, each at a control point of `fork` that belongs to it; everything else in the
kernel may store any state into any entry of the table at any time. Both loops of the source work by `cas` and give no
other protection.

- `pids_of_path`: the pids that `allocpid` returns are the numbers after the first `nextpid`, in the order in which the
  calls of `cas` succeed;
- `step_claims`, with `Path.given_between`: an entry is claimed again only after it has been UNUSED again.
-/

namespace Xv6.Alloc

open Lib

variable {T : Type*}

/-- The process table and where each thread is in `allocproc`, if it is there. -/
structure State (T : Type*) where
  mem : Mem
  thread : T → Option Fork

/-- A call of `allocproc`, the next statement of one (`kalloc` returns `page`), or a store of a state by other code. -/
inductive Label (T : Type*)
  | call (t : T)
  | go (t : T) (page : Option Page)
  | store (p : Slot) (v : ProcState)

/-- Where `fork` goes on after `allocproc`, the call is over. -/
def inside : Pc → Option Fork
  | .fork (.copyuvm _) | .fork (.ret _) => none
  | .fork pc => some pc
  | _ => none

/-- The next statement of `allocproc`. It does not use the calling process, which is `initproc` here. -/
def next (m : Mem) (page : Option Page) : Fork → Option (Mem × Option Fork)
  | .kalloc p => (m.alloc page).map fun m' => (m', some (.setKstack p page))
  | pc => some ((pc.step initproc m).1, inside (pc.step initproc m).2)

variable [DecidableEq T]

def step (s : State T) : Label T → Option (State T)
  | .call t =>
    match s.thread t with
    | none => some { s with thread := Function.update s.thread t (some (.scan 0)) }
    | some _ => none
  | .go t page =>
    match s.thread t with
    | none => none
    | some pc => (next s.mem page pc).map fun x => ⟨x.1, Function.update s.thread t x.2⟩
  | .store p v => some { s with mem := s.mem.setState p v }

def start (m : Mem) : State T := ⟨m, fun _ => none⟩

/-! ## Pids -/

/-- The pid that the call of `allocpid` at this control point returns, if its `cas` succeeds. -/
def returned (m : Mem) : Fork → Option Word
  | .casPid _ k => if m.nextpid = k then some (k + 1) else none
  | _ => none

def pid : State T × Label T → Option Word
  | (s, .go t _) => (s.thread t).bind (returned s.mem)
  | _ => none

def pids (tr : List (State T × Label T)) : List Word := tr.filterMap pid

omit [DecidableEq T] in
theorem pids_snoc (tr : List (State T × Label T)) (e : State T × Label T) :
    pids (tr ++ [e]) = pids tr ++ (pid e).toList := by
  cases h : pid e <;> simp [pids, h]

variable {m m' : Mem} {page : Option Page} {pc : Fork} {pc' : Option Fork}

theorem next_cases (h : next m page pc = some (m', pc')) :
    m' = (pc.step initproc m).1 ∧ pc' = inside (pc.step initproc m).2 ∨ ∃ p, pc = .kalloc p ∧ m.alloc page = some m' := by
  cases pc with
  | kalloc p =>
    obtain ⟨u, hu, h⟩ := Option.map_eq_some_iff.mp h
    cases h
    exact .inr ⟨p, rfl, hu⟩
  | _ =>
    cases h
    exact .inl ⟨rfl, rfl⟩

theorem next_nextpid (h : next m page pc = some (m', pc')) :
    returned m pc = none ∧ m'.nextpid = m.nextpid ∨ returned m pc = some (m.nextpid + 1) ∧ m'.nextpid = m.nextpid + 1 := by
  rcases next_cases h with ⟨rfl, -⟩ | ⟨p, rfl, halloc⟩
  · cases pc with
    | casPid p k =>
      by_cases hk : m.nextpid = k
      · subst hk
        exact .inr ⟨by simp [returned], by simp [Fork.step]⟩
      · exact .inl ⟨by simp [returned, hk], by simp [Fork.step, hk]⟩
    | _ =>
      rcases (Store.fork (m := m) (q := initproc) _).nextpid_cases with hsame | ⟨⟨x, r, hk⟩, -⟩
      · exact .inl ⟨rfl, hsame⟩
      · cases hk
  · rcases Mem.alloc_some halloc with ⟨-, rfl⟩ | ⟨d, -, -, rfl⟩
    · exact .inl ⟨rfl, rfl⟩
    · exact .inl ⟨rfl, rfl⟩

variable {s s' : State T} {l : Label T} {tr : List (State T × Label T)}

theorem step_nextpid (h : step s l = some s') :
    pid (s, l) = none ∧ s'.mem.nextpid = s.mem.nextpid ∨
      pid (s, l) = some (s.mem.nextpid + 1) ∧ s'.mem.nextpid = s.mem.nextpid + 1 := by
  cases l with
  | call t =>
    simp only [step] at h
    split at h
    · cases h
      exact .inl ⟨rfl, rfl⟩
    · cases h
  | go t page =>
    simp only [step] at h
    split at h
    · cases h
    · rename_i pc hpc
      obtain ⟨⟨m', pc'⟩, hnext, h⟩ := Option.map_eq_some_iff.mp h
      cases h
      simpa only [pid, hpc, Option.bind_some] using next_nextpid hnext
  | store p v =>
    cases h
    exact .inl ⟨rfl, rfl⟩

/-- **The pids** are the numbers after the first `nextpid`. -/
theorem pids_of_path (h : Path step free (start m : State T) tr s) :
    pids tr = (List.range (pids tr).length).map (fun i => m.nextpid + 1 + BitVec.ofNat 32 i) ∧
      s.mem.nextpid = m.nextpid + BitVec.ofNat 32 (pids tr).length := by
  induction h with
  | nil => exact ⟨rfl, by simp [pids, start]⟩
  | @snoc tr s s' l _ _ hstep ih =>
    rw [pids_snoc]
    rcases step_nextpid hstep with ⟨hpid, hnext⟩ | ⟨hpid, hnext⟩
    · rw [hpid, hnext]
      simpa using ih
    · have hlen : (pids tr ++ [s.mem.nextpid + 1]).length = (pids tr).length + 1 := by simp
      rw [hpid, Option.toList_some, hlen, hnext, List.range_succ, List.map_append, ← ih.1, ih.2]
      constructor
      · simp only [List.map_cons, List.map_nil]
        congr 2
        bv_omega
      · bv_omega

/-! ## Slots -/

def Claims (p : Slot) : State T × Label T → Prop
  | (s, .go t _) => s.thread t = some (.scan p) ∧ s.mem.state p = .unused
  | _ => False

/-- The step makes the slot `p` UNUSED again. -/
def Frees (p : Slot) (e : State T × Label T) : Prop :=
  e.1.mem.state p ≠ .unused ∧ ∃ s', step e.1 e.2 = some s' ∧ s'.mem.state p = .unused

theorem step_claims {p : Slot} (h : step s l = some s') (hc : Claims p (s, l)) :
    s.mem.state p = .unused ∧ s'.mem.state p = .embryo := by
  cases l with
  | go t page =>
    obtain ⟨ht, hu⟩ := hc
    simp only [step, ht, next, Fork.step, hu, if_true, Option.map_some, Option.some.injEq] at h
    subst h
    exact ⟨hu, by simp [Mem.setState]⟩
  | call t | store q v => cases hc

/-- **Pids and slots.** The calls of `allocpid` that return, in the order of their successful `cas`, return 2, 3, 4 and
so on; and between two claims of a slot it has been UNUSED again. -/
theorem pids_distinct_slots_exclusive (hm : m.nextpid = 1) (h : Path step free (start m : State T) tr s)
    (hlt : (pids tr).length < 2 ^ 31 - 1) :
    (pids tr).Nodup ∧
      (pids tr).map BitVec.toInt = (List.range (pids tr).length).map (fun i : ℕ => m.nextpid.toInt + 1 + i) ∧
      ∀ p xs x ys y zs, tr = xs ++ x :: (ys ++ y :: zs) → Claims p x → Claims p y → ∃ z ∈ ys, Frees p z := by
  have hmap : (pids tr).map BitVec.toInt = (List.range (pids tr).length).map (fun i : ℕ => m.nextpid.toInt + 1 + i) := by
    conv_lhs => rw [(pids_of_path h).1]
    rw [List.map_map]
    refine List.map_congr_left fun i hi => ?_
    have hi := List.mem_range.mp hi
    have hnat : ((1 : Word) + 1 + BitVec.ofNat 32 i).toNat = 2 + i := by
      rw [BitVec.toNat_add, BitVec.toNat_ofNat, show ((1 : Word) + 1).toNat = 2 from rfl]
      omega
    simp only [Function.comp_apply, hm]
    rw [BitVec.toInt_eq_toNat_of_lt (by rw [hnat]; omega), hnat]
    rw [show (1 : Word).toInt = 1 from rfl]
    omega
  refine ⟨?_, hmap, fun p xs x ys y zs htr hx hy => ?_⟩
  · refine List.Nodup.of_map BitVec.toInt ?_
    rw [hmap]
    refine List.Nodup.map (fun i j hij => ?_) List.nodup_range
    omega
  · have htake : ∀ (s : State T) l s', free s l → step s l = some s' → Claims p (s, l) →
        ¬ s.mem.state p ≠ .unused ∧ s'.mem.state p ≠ .unused := by
      intro s l s' _ hstep hc
      obtain ⟨hu, he⟩ := step_claims hstep hc
      exact ⟨not_not.mpr hu, by rw [he]; nofun⟩
    have hkeep : ∀ (s : State T) l s', free s l → step s l = some s' → s.mem.state p ≠ .unused → ¬ Frees p (s, l) →
        s'.mem.state p ≠ .unused :=
      fun s l s' _ hstep hbusy hno hfree => hno ⟨hbusy, s', hstep, hfree⟩
    exact h.given_between htake hkeep htr hx hy

/-- An empty table before the first `allocproc`. -/
def empty : Mem := { Mem.boot with state := fun _ => .unused, nextpid := 1 }

/-- Two calls of `allocpid` in which the first `cas` of one fails, and a slot that is given back because there is no
kernel stack and claimed again. -/
def contention : List (Label (Fin 2)) :=
  [.call 0, .call 1, .go 0 none, .go 1 none, .go 1 none, .go 0 none, .go 1 none, .go 0 none, .go 1 none, .go 1 none,
    .go 1 none, .go 0 none, .go 0 none, .go 0 none, .go 0 none, .call 0, .go 0 none]

theorem pids_distinct_slots_exclusive_contention : ∃ tr s, Path step free (start empty : State (Fin 2)) tr s ∧
    (pids tr) = [2, 3] ∧ (pids tr).Nodup ∧
    (pids tr).map BitVec.toInt = (List.range (pids tr).length).map (fun i : ℕ => empty.nextpid.toInt + 1 + i) ∧
    ∀ p xs x ys y zs, tr = xs ++ x :: (ys ++ y :: zs) → Claims p x → Claims p y → ∃ z ∈ ys, Frees p z := by
  obtain ⟨s, hpath, -⟩ := exists_path step free (start empty : State (Fin 2)) contention (fun _ => True) (by decide +kernel)
  have hpids : pids (trace (guarded step free) (start empty : State (Fin 2)) contention) = [2, 3] := by decide +kernel
  refine ⟨_, s, hpath, hpids, pids_distinct_slots_exclusive rfl hpath ?_⟩
  rw [hpids]
  decide

end Xv6.Alloc
