import Mathlib.Data.List.DropRight

/-!
# Path names and directories

`skipelem` of `fs.c` cuts the elements of a path off one by one; `elements` is the list of the names that it cuts off. A
directory is the list of its entries (`struct dirent`), the used and the free ones; `find` is the search of `dirlookup`,
`freeSlot` and `put` are the search for an empty entry and the write of `dirlink`.
-/

namespace Xv6.Fs

/-- The number of bytes of a name in a directory entry. -/
abbrev DIRSIZ : ℕ := 14

/-- A name: the bytes before its terminating NUL, at most `DIRSIZ` of them in a directory entry. -/
abbrev Name := List Char

abbrev dot : Name := ['.']

abbrev dotdot : Name := ['.', '.']

/-! ## Paths -/

/-- `skipelem`: the next path element, cut to `DIRSIZ` bytes, and the path after it without leading slashes. -/
def skipelem (path : List Char) : Option (Name × List Char) :=
  match path.dropWhile (· = '/') with
  | [] => none
  | c :: cs =>
    some (((c :: cs).takeWhile (· ≠ '/')).take DIRSIZ, ((c :: cs).dropWhile (· ≠ '/')).dropWhile (· = '/'))

/-- The names that `n` calls of `skipelem` cut off. -/
def cut : ℕ → List Char → List Name
  | 0, _ => []
  | n + 1, path =>
    match skipelem path with
    | none => []
    | some (name, rest) => name :: cut n rest

def elements (path : List Char) : List Name := cut path.length path

theorem length_dropWhile_le (p : Char → Bool) (l : List Char) : (l.dropWhile p).length ≤ l.length :=
  (List.dropWhile_sublist p).length_le

theorem skipelem_length {path rest : List Char} {name : Name} (h : skipelem path = some (name, rest)) :
    rest.length < path.length := by
  unfold skipelem at h
  have h0 := length_dropWhile_le (· = '/') path
  split at h
  · cases h
  · rename_i c cs hd
    have hc : c ≠ '/' := by
      have := List.head?_dropWhile_not (· = '/') path
      simpa [hd] using this
    simp only [Option.some.injEq, Prod.mk.injEq] at h
    obtain ⟨-, rfl⟩ := h
    have h1 := length_dropWhile_le (· = '/') ((c :: cs).dropWhile (· ≠ '/'))
    have h2 := length_dropWhile_le (· ≠ '/') cs
    rw [List.dropWhile_cons_of_pos (by simpa using hc)] at h1 ⊢
    rw [hd] at h0
    simp only [List.length_cons] at h0
    omega

theorem skipelem_rest {path rest : List Char} {name : Name} (h : skipelem path = some (name, rest)) :
    skipelem rest = none ↔ rest = [] := by
  unfold skipelem at h
  split at h
  · cases h
  · rename_i c cs hd
    simp only [Option.some.injEq, Prod.mk.injEq] at h
    obtain ⟨-, rfl⟩ := h
    constructor
    · intro hn
      unfold skipelem at hn
      split at hn
      · rename_i hd'
        rwa [List.dropWhile_idempotent] at hd'
      · cases hn
    · intro hn
      rw [hn]
      rfl

theorem cut_eq : ∀ {n : ℕ} {path : List Char}, path.length ≤ n → cut n path = elements path := by
  have key : ∀ (n m : ℕ) (path : List Char), path.length ≤ n → path.length ≤ m → cut n path = cut m path := by
    intro n
    induction n with
    | zero =>
      intro m path hn _
      obtain rfl := List.length_eq_zero_iff.mp (Nat.le_zero.mp hn)
      cases m <;> rfl
    | succ n ih =>
      intro m path hn hm
      cases m with
      | zero =>
        obtain rfl := List.length_eq_zero_iff.mp (Nat.le_zero.mp hm)
        rfl
      | succ m =>
        cases hs : skipelem path with
        | none => simp only [cut, hs]
        | some r =>
          have hl : r.2.length < path.length := skipelem_length hs
          simp only [cut, hs]
          rw [ih m r.2 (by omega) (by omega)]
  exact fun {n path} hn => key _ _ _ hn (Nat.le_refl _)

theorem elements_of_none {path : List Char} (h : skipelem path = none) : elements path = [] := by
  rw [← cut_eq (Nat.le_succ path.length)]
  simp only [cut, h]

theorem elements_of_skipelem {path rest : List Char} {name : Name} (h : skipelem path = some (name, rest)) :
    elements path = name :: elements rest := by
  have hl := skipelem_length h
  rw [← cut_eq (Nat.le_succ path.length)]
  simp only [cut, h]
  rw [cut_eq (by omega)]

theorem isEmpty_elements {path rest : List Char} {name : Name} (h : skipelem path = some (name, rest)) :
    (elements rest).isEmpty = rest.isEmpty := by
  cases hs : skipelem rest with
  | none =>
    rw [(skipelem_rest h).mp hs]
    rfl
  | some r =>
    have hne : rest ≠ [] := fun h0 => by rw [(skipelem_rest h).mpr h0] at hs; cases hs
    rw [show elements rest = r.1 :: elements r.2 from elements_of_skipelem hs]
    cases rest with
    | nil => exact absurd rfl hne
    | cons c cs => rfl

/-! ## Directory entries -/

/-- `struct dirent`; an entry is free when its `inum` is 0. -/
structure Dirent where
  inum : ℕ
  name : Name
  deriving DecidableEq

/-- A free entry, as `memset` leaves it. -/
def Dirent.zero : Dirent := ⟨0, []⟩

/-- `namecmp(s, t) == 0`. -/
def namecmp (s t : Name) : Bool := s.take DIRSIZ == t.take DIRSIZ

/-- The search of `dirlookup`: the inode that the name stands for, and the place of its entry. -/
def find (name : Name) : List Dirent → Option (ℕ × ℕ)
  | [] => none
  | de :: es =>
    if de.inum ≠ 0 ∧ namecmp name de.name then some (de.inum, 0) else (find name es).map fun r => (r.1, r.2 + 1)

/-- The first free entry, or the end of the directory. -/
def freeSlot (es : List Dirent) : ℕ := es.findIdx (·.inum = 0)

/-- Write an entry; at the end of the directory this makes it longer. -/
def put (es : List Dirent) (k : ℕ) (de : Dirent) : List Dirent := if k < es.length then es.set k de else es ++ [de]

/-- The entries of a directory that name an inode, the first two (`.` and `..`) left out. -/
def named (es : List Dirent) (x : ℕ) : ℕ := (es.drop 2).countP (·.inum = x)

theorem find_some {name : Name} {es : List Dirent} {x k : ℕ} (h : find name es = some (x, k)) :
    ∃ de, es[k]? = some de ∧ de.inum = x ∧ x ≠ 0 ∧ namecmp name de.name := by
  induction es generalizing k with
  | nil => cases h
  | cons de es ih =>
    simp only [find] at h
    split_ifs at h with hde
    · obtain ⟨rfl, rfl⟩ := by simpa using h
      exact ⟨de, rfl, rfl, hde.1, hde.2⟩
    · obtain ⟨⟨y, j⟩, hf, he⟩ := Option.map_eq_some_iff.mp h
      obtain ⟨rfl, rfl⟩ := by simpa using he
      obtain ⟨de', hk, hx⟩ := ih hf
      exact ⟨de', by simpa using hk, hx⟩

theorem find_none {name : Name} {es : List Dirent} (h : find name es = none) {de : Dirent} (hde : de ∈ es)
    (hi : de.inum ≠ 0) : ¬ namecmp name de.name := by
  induction es with
  | nil => cases hde
  | cons e es ih =>
    simp only [find] at h
    split_ifs at h with he
    rcases List.mem_cons.mp hde with rfl | hm
    · exact fun hc => he ⟨hi, hc⟩
    · exact ih (by simpa using h) hm

theorem freeSlot_getElem? {es : List Dirent} {de : Dirent} (h : es[freeSlot es]? = some de) : de.inum = 0 := by
  obtain ⟨hk, rfl⟩ := List.getElem?_eq_some_iff.mp h
  have := List.findIdx_getElem (p := fun de : Dirent => decide (de.inum = 0)) (w := hk)
  exact of_decide_eq_true this

theorem two_le_freeSlot {a b : Dirent} {es : List Dirent} (ha : a.inum ≠ 0) (hb : b.inum ≠ 0) :
    2 ≤ freeSlot (a :: b :: es) := by
  simp only [freeSlot, List.findIdx_cons, ha, hb]
  simp

theorem named_set {es : List Dirent} {k : ℕ} {old : Dirent} (de : Dirent) (y : ℕ) (hk : 2 ≤ k) (ho : es[k]? = some old) :
    named (es.set k de) y + (if old.inum = y then 1 else 0) = named es y + (if de.inum = y then 1 else 0) := by
  obtain ⟨hlt, rfl⟩ := List.getElem?_eq_some_iff.mp ho
  have hk' : k - 2 < (es.drop 2).length := by rw [List.length_drop]; omega
  have hget : (es.drop 2)[k - 2] = es[k] := by rw [List.getElem_drop]; congr 1; omega
  have hpos : 0 < (es.drop 2).countP (·.inum = y) ∨ es[k].inum ≠ y := by
    by_cases h : es[k].inum = y
    · exact .inl (List.countP_pos_iff.mpr ⟨es[k], hget ▸ List.getElem_mem hk', by simpa using h⟩)
    · exact .inr h
  unfold named
  rw [List.drop_set, if_neg (by omega), List.countP_set hk', hget]
  simp only [decide_eq_true_eq]
  split_ifs <;> omega

/-- **A new entry** in the first free place behind the dots. -/
theorem named_put {es : List Dirent} {x y : ℕ} {name : Name} (hk : 2 ≤ freeSlot es) (hy : y ≠ 0) :
    named (put es (freeSlot es) ⟨x, name⟩) y = named es y + (if x = y then 1 else 0) := by
  by_cases hlt : freeSlot es < es.length
  · rw [put, if_pos hlt]
    have ho := List.getElem?_eq_getElem hlt
    have hz := freeSlot_getElem? ho
    have := named_set ⟨x, name⟩ y hk ho
    rw [hz, if_neg hy.symm] at this
    simpa using this
  · have hle : 2 ≤ es.length := Nat.le_trans hk List.findIdx_le_length
    rw [put, if_neg hlt]
    unfold named
    rw [List.drop_append_of_le_length hle, List.countP_append]
    simp [List.countP_cons]

/-- **A cleared entry** behind the dots. -/
theorem named_clear {es : List Dirent} {k y : ℕ} {old : Dirent} (hk : 2 ≤ k) (ho : es[k]? = some old) (hy : y ≠ 0) :
    named (es.set k Dirent.zero) y + (if old.inum = y then 1 else 0) = named es y := by
  have := named_set Dirent.zero y hk ho
  rwa [show Dirent.zero.inum = 0 from rfl, if_neg hy.symm, Nat.add_zero] at this

end Xv6.Fs
