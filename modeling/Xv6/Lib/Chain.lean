import Mathlib.Tactic.Common

/-!
# Linked lists stored in an array of `next` fields

`Chain next h l`: following `next` from the pointer `h` visits exactly the cells of `l` and ends in the null pointer. A
chain does not see cells outside it (`Chain.update`), and a cell that is not in it can be put in front (`Chain.push`).
-/

namespace Lib

variable {ι : Type*}

/-- Following `next` from `h` visits the cells of `l` and ends in `none`. -/
def Chain (next : ι → Option ι) : Option ι → List ι → Prop
  | h, [] => h = none
  | h, i :: l => h = some i ∧ Chain next (next i) l

variable {next : ι → Option ι} {h : Option ι} {i : ι} {l l' : List ι}

@[simp] theorem chain_nil : Chain next h [] ↔ h = none := Iff.rfl

@[simp] theorem chain_cons : Chain next h (i :: l) ↔ h = some i ∧ Chain next (next i) l := Iff.rfl

theorem Chain.of_some (hc : Chain next (some i) l) : ∃ l', l = i :: l' ∧ Chain next (next i) l' := by
  cases l with
  | nil => simp at hc
  | cons j l' =>
    obtain ⟨e, hc⟩ := hc
    obtain rfl : i = j := by simpa using e
    exact ⟨l', rfl, hc⟩

theorem Chain.of_none (hc : Chain next none l) : l = [] := by
  cases l with
  | nil => rfl
  | cons j l' => simp at hc

theorem Chain.congr {next' : ι → Option ι} : ∀ {l : List ι} {h : Option ι}, Chain next h l →
    (∀ j ∈ l, next' j = next j) → Chain next' h l
  | [], _, hc, _ => hc
  | j :: l, _, ⟨e, hc⟩, he => by
    refine ⟨e, ?_⟩
    rw [he j List.mem_cons_self]
    exact hc.congr fun k hk => he k (List.mem_cons_of_mem _ hk)

theorem Chain.update [DecidableEq ι] {v : Option ι} (hc : Chain next h l) (hi : i ∉ l) :
    Chain (Function.update next i v) h l :=
  hc.congr fun j hj => Function.update_of_ne (fun e : j = i => hi (e ▸ hj)) _ _

theorem Chain.push (hc : Chain next h l) (hn : next i = h) : Chain next (some i) (i :: l) :=
  ⟨rfl, hn ▸ hc⟩

end Lib
