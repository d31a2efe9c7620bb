import Xv6.Lib.Bytes

/-!
# The two `memmove`s

`memmove` of `string.c` copies backward when the destination begins inside the source, and forward otherwise; the one of
`ulib.c` always copies forward. Addresses are below 2^32 and wrap around there.
-/

namespace Xv6.Memmove

open Lib
open Function (update update_of_ne update_self)

abbrev Memory := ℕ → Byte

/-- The end of the address space. -/
abbrev TOP : ℕ := 2 ^ 32

/-- `while(n-- > 0) *d++ = *s++;` -/
def forward (m : Memory) (s d : ℕ) : ℕ → Memory
  | 0 => m
  | n + 1 => forward (update m d (m s)) ((s + 1) % TOP) ((d + 1) % TOP) n

/-- `while(n-- > 0) *--d = *--s;` -/
def backward (m : Memory) (s d : ℕ) : ℕ → Memory
  | 0 => m
  | n + 1 =>
    let s := (s + TOP - 1) % TOP
    let d := (d + TOP - 1) % TOP
    backward (update m d (m s)) s d n

/-- `memmove` of `string.c`: the memory, and the result. -/
def memmove (m : Memory) (dst src n : ℕ) : Memory × ℕ :=
  if src < dst ∧ dst < (src + n) % TOP then (backward m ((src + n) % TOP) ((dst + n) % TOP) n, dst)
  else (forward m src dst n, dst)

namespace Ulib

/-- `memmove` of `ulib.c`; a negative `n` is no bytes. -/
def memmove (m : Memory) (dst src : ℕ) (n : ℤ) : Memory × ℕ := (forward m src dst n.toNat, dst)

end Ulib

/-- **What `memmove` should do**: the destination has the bytes that the source had, and nothing else has changed. -/
def Moves (m : Memory) (dst src n : ℕ) (m' : Memory) : Prop :=
  (∀ i < n, m' (dst + i) = m (src + i)) ∧ ∀ a < TOP, ¬(dst ≤ a ∧ a < dst + n) → m' a = m a

variable {m : Memory} {n : ℕ}

/-- **The forward loop**: a byte that has been stored is not read later. -/
theorem forward_moves : ∀ (n : ℕ) (m : Memory) (s d : ℕ), s + n ≤ TOP → d + n ≤ TOP → (d ≤ s ∨ s + n ≤ d) →
    Moves m d s n (forward m s d n) := by
  intro n
  induction n with
  | zero => exact fun m s d _ _ _ => ⟨fun i hi => absurd hi (Nat.not_lt_zero i), fun _ _ _ => rfl⟩
  | succ n ih =>
    intro m s d hs hd hover
    unfold forward
    have hrest : Moves (update m d (m s)) (d + 1) (s + 1) n
        (forward (update m d (m s)) ((s + 1) % TOP) ((d + 1) % TOP) n) := by
      cases n with
      | zero => exact ⟨fun i hi => absurd hi (Nat.not_lt_zero i), fun _ _ _ => rfl⟩
      | succ n =>
        rw [Nat.mod_eq_of_lt (by omega), Nat.mod_eq_of_lt (by omega)]
        exact ih _ (s + 1) (d + 1) (by omega) (by omega) (by omega)
    obtain ⟨hcopied, hkept⟩ := hrest
    constructor
    · intro i hi
      cases i with
      | zero =>
        exact (hkept d (by omega) (by omega)).trans (update_self d (m s) m)
      | succ i =>
        have hread : s + 1 + i ≠ d := by omega
        rw [show d + (i + 1) = d + 1 + i by omega, hcopied i (by omega), update_of_ne hread,
          show s + 1 + i = s + (i + 1) by omega]
    · intro a ha hout
      rw [hkept a ha (by omega), update_of_ne (by omega)]

/-- **The backward loop**, from the ends of the two regions: a byte that has been stored is not read later. -/
theorem backward_moves : ∀ (n : ℕ) (m : Memory) (s d : ℕ), s ≤ d → d + n ≤ TOP →
    Moves m d s n (backward m ((s + n) % TOP) ((d + n) % TOP) n) := by
  intro n
  induction n with
  | zero => exact fun m s d _ _ => ⟨fun i hi => absurd hi (Nat.not_lt_zero i), fun _ _ _ => rfl⟩
  | succ n ih =>
    intro m s d hsd hd
    have hdec : ∀ x, x + (n + 1) ≤ TOP → ((x + (n + 1)) % TOP + TOP - 1) % TOP = x + n := by
      intro x hx
      simp only [TOP] at hx ⊢
      omega
    unfold backward
    simp only [hdec s (by omega), hdec d hd]
    obtain ⟨hcopied, hkept⟩ := ih (update m (d + n) (m (s + n))) s d hsd (by omega)
    rw [Nat.mod_eq_of_lt (by omega), Nat.mod_eq_of_lt (by omega)] at hcopied hkept
    constructor
    · intro i hi
      by_cases hlast : i = n
      · subst hlast
        rw [hkept (d + i) (by omega) (by omega)]
        exact update_self _ _ _
      · rw [hcopied i (by omega), update_of_ne (by omega)]
    · intro a ha hout
      rw [hkept a ha (by omega), update_of_ne (by omega)]

theorem memmove_moves {dst src : ℕ} (hsrc : src + n ≤ TOP) (hdst : dst + n ≤ TOP) :
    Moves m dst src n (memmove m dst src n).1 := by
  unfold memmove
  split_ifs with hover
  · exact backward_moves n m src dst (Nat.le_of_lt hover.1) hdst
  · refine forward_moves n m src dst hsrc hdst ?_
    by_contra hne
    -- the source ends before the destination, and so inside the address space
    have hend : (src + n) % TOP = src + n := Nat.mod_eq_of_lt (by omega)
    rw [hend] at hover
    omega

/-- The forward loop stores in the destination only, also if the two regions overlap. -/
theorem forward_kept : ∀ (n : ℕ) (m : Memory) (s d : ℕ), d + n ≤ TOP →
    ∀ a < TOP, ¬(d ≤ a ∧ a < d + n) → forward m s d n a = m a := by
  intro n
  induction n with
  | zero => exact fun _ _ _ _ _ _ _ => rfl
  | succ n ih =>
    intro m s d hd a ha hout
    unfold forward
    cases n with
    | zero => exact update_of_ne (by omega) _ _
    | succ n =>
      rw [Nat.mod_eq_of_lt (a := d + 1) (by omega), ih _ _ (d + 1) (by omega) a ha (by omega), update_of_ne (by omega)]

/-- The loop in two parts. -/
theorem forward_add (k : ℕ) : ∀ (n : ℕ) (m : Memory) (s d : ℕ), s + n < TOP → d + n < TOP →
    forward m s d (n + k) = forward (forward m s d n) (s + n) (d + n) k := by
  intro n
  induction n with
  | zero => exact fun m s d _ _ => by rw [Nat.zero_add]; rfl
  | succ n ih =>
    intro m s d hs hd
    rw [show n + 1 + k = n + k + 1 by omega]
    simp only [forward]
    rw [Nat.mod_eq_of_lt (a := s + 1) (by omega), Nat.mod_eq_of_lt (a := d + 1) (by omega),
      ih _ (s + 1) (d + 1) (by omega) (by omega), show s + 1 + n = s + (n + 1) by omega,
      show d + 1 + n = d + (n + 1) by omega]

/-- **The smear**: where the destination begins inside the source, the byte at distance `dst - src` of the destination
becomes the first byte of the source. -/
theorem forward_smears {dst src : ℕ} (hlt : src < dst) (hin : dst < src + n) (hdst : dst + n ≤ TOP) :
    forward m src dst n (dst + (dst - src)) = m src := by
  obtain ⟨d, rfl⟩ := Nat.exists_eq_add_of_lt hlt
  obtain ⟨k, rfl⟩ : ∃ k, n = (d + 1) + (k + 1) := ⟨n - d - 2, by omega⟩
  have hfirst : Moves m (src + d + 1) src (d + 1) (forward m src (src + d + 1) (d + 1)) :=
    forward_moves _ _ _ _ (by omega) (by omega) (.inr (by omega))
  rw [forward_add _ _ _ _ _ (by omega) (by omega), show src + d + 1 - src = d + 1 by omega]
  unfold forward
  -- what has been stored at the start of the destination is read as the source now, and stored for good
  have hread := hfirst.1 0 (by omega)
  cases k with
  | zero => exact (update_self _ _ _).trans hread
  | succ k =>
    rw [Nat.mod_eq_of_lt (a := src + d + 1 + (d + 1) + 1) (by omega), forward_kept _ _ _ _ (by omega) _ (by omega) (by omega)]
    exact (update_self _ _ _).trans hread

theorem Moves.unique {dst src : ℕ} {m₁ m₂ : Memory} (h₁ : Moves m dst src n m₁) (h₂ : Moves m dst src n m₂) :
    ∀ a < TOP, m₁ a = m₂ a := by
  intro a ha
  by_cases hin : dst ≤ a ∧ a < dst + n
  · obtain ⟨i, rfl⟩ := Nat.exists_eq_add_of_le hin.1
    rw [h₁.1 i (by omega), h₂.1 i (by omega)]
  · rw [h₁.2 a ha hin, h₂.2 a ha hin]

/-- **The two `memmove`s**, for regions that end in the address space: the one of `string.c` leaves the bytes of the source
in the destination and changes nothing else, for every memory. The one of `ulib.c` does so for every memory, and then the
two memories are the same, exactly if the destination does not begin inside the source. -/
theorem memmoves_agree (dst src n : ℕ) (hsrc : src + n ≤ TOP) (hdst : dst + n ≤ TOP) :
    (∀ m, Moves m dst src n (memmove m dst src n).1) ∧
      ((∀ m, Moves m dst src n (Ulib.memmove m dst src n).1 ∧
          ∀ a < TOP, (Ulib.memmove m dst src n).1 a = (memmove m dst src n).1 a) ↔
        ¬(src < dst ∧ dst < src + n)) := by
  refine ⟨fun m => memmove_moves hsrc hdst, fun h hover => ?_, fun hover m => ?_⟩
  · -- the first byte of the source differs from all others
    have hbyte := (h (update (fun _ => 0) src 1)).1.1 (dst - src) (by omega)
    rw [show src + (dst - src) = dst by omega, update_of_ne hover.1.ne'] at hbyte
    have hfirst : (Ulib.memmove (update (fun _ => 0) src 1) dst src n).1 (dst + (dst - src)) = 1 :=
      (forward_smears hover.1 hover.2 hdst).trans (update_self _ _ _)
    exact absurd (hfirst.symm.trans hbyte) (by decide)
  · have huser : Moves m dst src n (Ulib.memmove m dst src n).1 := forward_moves n m src dst hsrc hdst (by omega)
    exact ⟨huser, huser.unique (memmove_moves hsrc hdst)⟩

/-- Three bytes are moved down by one. -/
theorem memmoves_agree_down :
    Moves (.ofNat 8) 8 9 3 (memmove (.ofNat 8) 8 9 3).1 ∧ Moves (.ofNat 8) 8 9 3 (Ulib.memmove (.ofNat 8) 8 9 3).1 := by
  obtain ⟨hkernel, huser⟩ := memmoves_agree 8 9 3 (by decide) (by decide)
  exact ⟨hkernel _, (huser.mpr (by decide) _).1⟩

/-- **`memmove` of `ulib.c` smears the source** over a destination that begins inside it: of two bytes that are moved up
by one, the second has become the first. -/
theorem ulib_memmove_smears :
    (memmove (.ofNat 8) 9 8 2).1 10 = 9 ∧ (Ulib.memmove (.ofNat 8) 9 8 2).1 10 = 8 ∧
      ¬ Moves (.ofNat 8) 9 8 2 (Ulib.memmove (.ofNat 8) 9 8 2).1 := by
  refine ⟨by decide, by decide, fun h => ?_⟩
  have hsecond := h.1 1 (by decide)
  revert hsecond
  decide

end Xv6.Memmove
