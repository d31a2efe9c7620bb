import Mathlib.Data.List.Nodup
import Mathlib.Data.Nat.Find
import Mathlib.Logic.Function.Iterate

/-!
# Circular lists with one pointer

`Segment next a l b`: following `next` from `a` visits the cells of `l` and then comes to `b`. A circular list is a
segment from a cell back to itself.
-/

namespace Lib

variable {ν : Type*} {next next' : ν → ν} {a b c h p q x : ν} {l A B M N : List ν}

/-- Following `next` from `a` visits the cells of the list and comes to `b`. -/
def Segment (next : ν → ν) : ν → List ν → ν → Prop
  | a, [], b => a = b
  | a, x :: l, b => a = x ∧ Segment next (next x) l b

theorem segment_append : Segment next a (A ++ B) b ↔ ∃ c, Segment next a A c ∧ Segment next c B b := by
  induction A generalizing a with
  | nil => exact ⟨fun h => ⟨a, rfl, h⟩, fun ⟨c, hc, h⟩ => by rwa [show a = c from hc]⟩
  | cons x A ih =>
    rw [List.cons_append, Segment, ih]
    exact ⟨fun ⟨h, c, h1, h2⟩ => ⟨c, ⟨h, h1⟩, h2⟩, fun ⟨c, ⟨h, h1⟩, h2⟩ => ⟨h, c, h1, h2⟩⟩

theorem Segment.congr (hs : Segment next a l b) (hn : ∀ x ∈ l, next' x = next x) : Segment next' a l b := by
  induction l generalizing a with
  | nil => exact hs
  | cons x l ih =>
    refine ⟨hs.1, ?_⟩
    rw [hn x List.mem_cons_self]
    exact ih hs.2 fun y hy => hn y (List.mem_cons_of_mem _ hy)

theorem Segment.iterate (hs : Segment next a l b) : next^[l.length] a = b := by
  induction l generalizing a with
  | nil => exact hs
  | cons x l ih =>
    obtain ⟨rfl, hs⟩ := hs
    exact ih hs

/-- **Replacing a part**: the cells `M` behind `p` give way to `N`. -/
theorem Segment.splice (hs : Segment next a (A ++ p :: (M ++ B)) b) (hA : ∀ x ∈ A, next' x = next x)
    (hB : ∀ x ∈ B, next' x = next x) (hN : ∀ c, Segment next (next p) M c → Segment next' (next' p) N c) :
    Segment next' a (A ++ p :: (N ++ B)) b := by
  obtain ⟨c, h1, rfl, h2⟩ := segment_append.mp hs
  obtain ⟨d, h3, h4⟩ := segment_append.mp h2
  exact segment_append.mpr ⟨c, h1.congr hA, rfl, segment_append.mpr ⟨d, hN d h3, h4.congr hB⟩⟩

/-! ## Walking around -/

theorem Segment.rotate (hs : Segment next h (A ++ q :: B) h) : Segment next q (q :: B ++ A) q := by
  obtain ⟨c, h1, rfl, h2⟩ := segment_append.mp hs
  exact segment_append.mpr ⟨h, ⟨rfl, h2⟩, h1⟩

theorem Segment.next_mem (hs : Segment next h l h) (hq : q ∈ l) : next q ∈ l := by
  obtain ⟨A, B, rfl⟩ := List.append_of_mem hq
  obtain ⟨-, hr⟩ : q = q ∧ Segment next (next q) (B ++ A) q := hs.rotate
  cases hBA : B ++ A with
  | nil =>
    rw [hBA] at hr
    rw [show next q = q from hr]
    exact hq
  | cons y C =>
    rw [hBA] at hr
    have hy : y ∈ B ++ A := hBA ▸ List.mem_cons_self
    rw [hr.1]
    rcases List.mem_append.mp hy with hy | hy
    · exact List.mem_append_right _ (List.mem_cons_of_mem _ hy)
    · exact List.mem_append_left _ hy

theorem Segment.reach (hs : Segment next h l h) (hq : q ∈ l) (hx : x ∈ l) : ∃ k < l.length, next^[k] q = x := by
  obtain ⟨A, B, rfl⟩ := List.append_of_mem hq
  have hx' : x ∈ q :: B ++ A := by
    simp only [List.mem_append, List.mem_cons, List.cons_append] at hx ⊢
    tauto
  obtain ⟨C, D, hCD⟩ := List.append_of_mem hx'
  have hr := hs.rotate
  have hlen : (q :: B ++ A).length = C.length + (x :: D).length := by rw [hCD, List.length_append]
  rw [hCD] at hr
  obtain ⟨c, h1, rfl, -⟩ := segment_append.mp hr
  refine ⟨C.length, ?_, h1.iterate⟩
  simp only [List.length_append, List.length_cons] at hlen ⊢
  omega

theorem Segment.iterate_mem (hs : Segment next h l h) (hq : q ∈ l) (k : ℕ) : next^[k] q ∈ l := by
  induction k with
  | zero => exact hq
  | succ k ih =>
    rw [Function.iterate_succ_apply']
    exact hs.next_mem ih

theorem Segment.pred (hs : Segment next h l h) (hx : x ∈ l) : ∃ y ∈ l, next y = x := by
  obtain ⟨k, -, hk⟩ := hs.reach (hs.next_mem hx) hx
  refine ⟨next^[k] x, hs.iterate_mem hx k, ?_⟩
  rw [← Function.iterate_succ_apply' next, Function.iterate_succ_apply, hk]

/-- **Searching**: the first cell from `q` on that has the property. -/
theorem Segment.search {P : ν → Prop} (hs : Segment next h l h) (hq : q ∈ l) (hx : x ∈ l) (hP : P x) :
    ∃ k < l.length, P (next^[k] q) ∧ ∀ j < k, ¬ P (next^[j] q) := by
  classical
  obtain ⟨n, hn, hnx⟩ := hs.reach hq hx
  have hex : ∃ k, P (next^[k] q) := ⟨n, hnx ▸ hP⟩
  exact ⟨Nat.find hex, lt_of_le_of_lt (Nat.find_min' hex (hnx ▸ hP)) hn, Nat.find_spec hex, fun j hj => Nat.find_min hex hj⟩

theorem iterate_ne_of_first {P : ν → Prop} {k : ℕ} (hP : P (next^[k] q)) (hfirst : ∀ j < k, ¬ P (next^[j] q)) {j : ℕ}
    (hj : j < k) : next^[j + 1] q ≠ q := by
  intro hback
  refine hfirst (k - (j + 1)) (by omega) ?_
  have hk : next^[k] q = next^[k - (j + 1)] q := by
    conv_lhs => rw [show k = k - (j + 1) + (j + 1) by omega, Function.iterate_add_apply, hback]
  rwa [hk] at hP

end Lib
