import Mathlib.Data.List.Nodup

/-!
# The in-memory log header

`struct logheader` of `log.c`: a counter and an array of sector numbers, of which the first `n` are in use
(`Logheader.sectors`). `log_write` looks a sector up (`Logheader.Scanned` is what its loop has established) and then
stores and counts it (`Logheader.store`, `Logheader.count`); a sector that was already there is absorbed
(`sectors_count`).
-/

namespace Xv6.Log

structure Logheader where
  n : ℕ
  sector : ℕ → ℕ

namespace Logheader

variable {lh : Logheader} {b c i : ℕ}

def empty : Logheader := ⟨0, fun _ => 0⟩

/-- The entries in use. -/
def sectors (lh : Logheader) : List ℕ := (List.range lh.n).map lh.sector

def store (lh : Logheader) (b i : ℕ) : Logheader := { lh with sector := Function.update lh.sector i b }

def count (lh : Logheader) (i : ℕ) : Logheader := if i = lh.n then { lh with n := lh.n + 1 } else lh

@[simp] theorem length_sectors (lh : Logheader) : lh.sectors.length = lh.n := by simp [sectors]

theorem mem_sectors : b ∈ lh.sectors ↔ ∃ j < lh.n, lh.sector j = b := by simp [sectors]

@[simp] theorem sectors_empty : empty.sectors = [] := rfl

@[simp] theorem sectors_zero (sector : ℕ → ℕ) : (⟨0, sector⟩ : Logheader).sectors = [] := rfl

@[simp] theorem store_n (lh : Logheader) (b i : ℕ) : (lh.store b i).n = lh.n := rfl

/-- What the loop of `log_write` knows of the entries before `i`. -/
structure Scanned (lh : Logheader) (b i : ℕ) : Prop where
  le : i ≤ lh.n
  before : ∀ j < i, lh.sector j ≠ b

/-- What it knows when it ends: `i` is the entry of `b`, or `b` has none. -/
structure Found (lh : Logheader) (b i : ℕ) : Prop extends lh.Scanned b i where
  here : i < lh.n → lh.sector i = b

/-- The entry stored, and not counted yet. -/
structure Stored (lh : Logheader) (b i : ℕ) : Prop extends lh.Scanned b i where
  here : lh.sector i = b

theorem scanned_zero : lh.Scanned b 0 := ⟨Nat.zero_le _, fun j hj => absurd hj (Nat.not_lt_zero j)⟩

theorem Scanned.succ (h : lh.Scanned b i) (hi : i < lh.n) (hb : lh.sector i ≠ b) : lh.Scanned b (i + 1) := by
  refine ⟨hi, fun j hj => ?_⟩
  rcases Nat.lt_succ_iff_lt_or_eq.mp hj with hj | rfl
  · exact h.before j hj
  · exact hb

theorem Found.sector_store (h : lh.Found b i) {j : ℕ} (hj : j < lh.n) : (lh.store b i).sector j = lh.sector j := by
  by_cases he : j = i
  · subst he
    simp [store, h.here hj]
  · simp [store, he]

theorem Found.sectors_store (h : lh.Found b i) : (lh.store b i).sectors = lh.sectors :=
  List.map_congr_left fun _ hj => h.sector_store (List.mem_range.mp hj)

theorem Found.stored (h : lh.Found b i) : (lh.store b i).Stored b i where
  le := h.le
  before j hj := by simpa [store, Nat.ne_of_lt hj] using h.before j hj
  here := by simp [store]

theorem Stored.sectors_count (h : lh.Stored b i) :
    (lh.count i).sectors = if i = lh.n then lh.sectors ++ [b] else lh.sectors := by
  by_cases hi : i = lh.n
  · simp [count, sectors, hi, List.range_succ, hi ▸ h.here]
  · simp [count, hi]

theorem Stored.mem_count (h : lh.Stored b i) : c ∈ (lh.count i).sectors ↔ c = b ∨ c ∈ lh.sectors := by
  rw [h.sectors_count]
  split
  · simp [or_comm]
  · rename_i hi
    have hb : b ∈ lh.sectors := mem_sectors.mpr ⟨i, Nat.lt_of_le_of_ne h.le hi, h.here⟩
    constructor
    · exact Or.inr
    · rintro (rfl | hc)
      · exact hb
      · exact hc

theorem Stored.not_mem (h : lh.Stored b i) (hi : i = lh.n) : b ∉ lh.sectors := by
  intro hb
  obtain ⟨j, hj, he⟩ := mem_sectors.mp hb
  exact h.before j (hi ▸ hj) he

/-- The loop of `log_write`, executed to its end: the entry of `b`, or the first free one. -/
def find (lh : Logheader) (b : ℕ) : ℕ := ((List.range lh.n).find? fun i => decide (lh.sector i = b)).getD lh.n

/-- `log_write` on the header, executed to its end. -/
def absorb (lh : Logheader) (b : ℕ) : Logheader := (lh.store b (lh.find b)).count (lh.find b)

theorem found_find (lh : Logheader) (b : ℕ) : lh.Found b (lh.find b) := by
  unfold find
  cases h : (List.range lh.n).find? fun i => decide (lh.sector i = b) with
  | none =>
    have hno := List.find?_eq_none.mp h
    refine ⟨⟨Nat.le_refl _, fun j hj he => ?_⟩, fun h => absurd h (Nat.lt_irrefl _)⟩
    simpa [he] using hno j (List.mem_range.mpr hj)
  | some i =>
    obtain ⟨hi, hlt, hbefore⟩ := List.find?_range_eq_some.mp h
    exact ⟨⟨Nat.le_of_lt (List.mem_range.mp hlt), fun j hj => by simpa using hbefore j hj⟩, fun _ => by simpa using hi⟩

theorem mem_absorb : c ∈ (lh.absorb b).sectors ↔ c = b ∨ c ∈ lh.sectors := by
  have h := lh.found_find b
  rw [absorb, h.stored.mem_count, h.sectors_store]

theorem nodup_absorb (h : lh.sectors.Nodup) : (lh.absorb b).sectors.Nodup := by
  have hf := lh.found_find b
  rw [absorb, hf.stored.sectors_count, hf.sectors_store]
  split
  · rename_i hi
    have hb := hf.stored.not_mem hi
    rw [hf.sectors_store] at hb
    exact List.nodup_append.mpr ⟨h, List.nodup_singleton b, by rintro c hc d hd rfl; simp at hd; exact hb (hd ▸ hc)⟩
  · exact h

theorem sector_inj (h : lh.sectors.Nodup) {i j : ℕ} (hi : i < lh.n) (hj : j < lh.n) (he : lh.sector i = lh.sector j) :
    i = j :=
  List.inj_on_of_nodup_map h (List.mem_range.mpr hi) (List.mem_range.mpr hj) he

theorem absorb_n_le (lh : Logheader) (b : ℕ) : (lh.absorb b).n ≤ lh.n + 1 := by
  rw [absorb]
  unfold count
  split <;> simp

theorem count_n (lh : Logheader) (i : ℕ) : (lh.count i).n = if i = lh.n then lh.n + 1 else lh.n := by
  unfold count
  split <;> rfl

end Logheader

end Xv6.Log
