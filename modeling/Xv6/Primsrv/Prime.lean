import Mathlib.NumberTheory.LucasLehmer
import Mathlib.Tactic.NormNum.Prime
import Xv6.Primsrv.Machine

/-!
# The primes of the prime server

`is_prime` divides by the numbers whose square is below its argument, so it takes the square of a prime for a prime, and
1 too. The square of 46341 is not an `int`, so a prime beyond 46340^2 makes `i*i` overflow.

- `isPrime_exact`: what `is_prime` says up to 46340^2.
-/

namespace Xv6.Primsrv

/-! ## `int` arithmetic -/

/-- The `int` of a number. -/
abbrev int (k : ℕ) : Word := BitVec.ofNat 32 k

variable {a b i k number fuel : ℕ}

theorem toNat_int (h : a < 2 ^ 31) : (int a).toNat = a := by
  rw [BitVec.toNat_ofNat]
  exact Nat.mod_eq_of_lt (by omega)

theorem toInt_int (h : a < 2 ^ 31) : (int a).toInt = a := by
  have hsmall : 2 * (int a).toNat < 2 ^ 32 := by
    rw [toNat_int h]
    omega
  rw [BitVec.toInt_eq_toNat_of_lt hsmall, toNat_int h]

theorem slt_int (ha : a < 2 ^ 31) (hb : b < 2 ^ 31) : (int a).slt (int b) = decide (a < b) := by
  rw [BitVec.slt_eq_decide, toInt_int ha, toInt_int hb]
  simp

theorem srem_int (ha : a < 2 ^ 31) (hb : b < 2 ^ 31) : (int a).srem (int b) = 0 ↔ b ∣ a := by
  have hzero : (0 : Word).toInt = 0 := rfl
  rw [← BitVec.toInt_inj, BitVec.toInt_srem, toInt_int ha, toInt_int hb, hzero]
  rw [← Int.dvd_iff_tmod_eq_zero, Int.natCast_dvd_natCast]

theorem int_mul (a b : ℕ) : int a * int b = int (a * b) := (BitVec.ofNat_mul a b).symm

theorem int_succ (a : ℕ) : int a + 1 = int (a + 1) := (BitVec.ofNat_add a 1).symm

/-! ## The loop of `is_prime` -/

/-- The numbers `i` whose square the loop of `is_prime` computes. -/
def isPrimeTried (number : Word) : ℕ → Word → List Word
  | 0, _ => []
  | fuel + 1, i =>
    i :: if (i * i).slt number then
      if number.srem i = 0 ∧ i ≠ number then [] else isPrimeTried number fuel (i + 1)
    else []

/-- The same for `next_pr`, whose loop is at `i`. -/
def nextPrTried (fuel : ℕ) : ℕ → Word → List Word
  | 0, _ => []
  | k + 1, i => isPrimeTried i fuel 2 ++ if isPrime fuel i = some false then nextPrTried fuel k (i + 1) else []

theorem below_int (hsq : i * i < 2 ^ 31) (hn : number < 2 ^ 31) :
    (int i * int i).slt (int number) = true ↔ i * i < number := by
  rw [int_mul, slt_int hsq hn, decide_eq_true_eq]

theorem divides_int (hi : 2 ≤ i) (hlt : i * i < number) (hn : number < 2 ^ 31) :
    (int number).srem (int i) = 0 ∧ int i ≠ int number ↔ i ∣ number := by
  have hsmall : i < number := by nlinarith
  have hne : int i ≠ int number := by
    intro he
    have hnat := congrArg BitVec.toNat he
    rw [toNat_int (hsmall.trans hn), toNat_int hn] at hnat
    omega
  rw [srem_int hn (hsmall.trans hn)]
  exact and_iff_left hne

/-- `d` is a divisor of the number that the loop of `is_prime` finds. -/
def Divisor (number d : ℕ) : Prop := d * d < number ∧ d ∣ number

/-- **The loop of `is_prime`**: it looks for a divisor from `i` on, and computes no square beyond 46340^2. -/
theorem isPrimeLoop_spec (hn : number ≤ 46340 * 46340) (hi : 2 ≤ i) (hle : i ≤ 46340) (hf : 46340 < i + fuel) :
    (∃ b, isPrimeLoop (int number) fuel (int i) = some b ∧ (b = true ↔ ∀ d, i ≤ d → ¬ Divisor number d)) ∧
      ∀ j ∈ isPrimeTried (int number) fuel (int i), j.toNat ≤ 46340 := by
  have hsq : i * i ≤ 46340 * 46340 := Nat.mul_le_mul hle hle
  have hi31 : i * i < 2 ^ 31 := by omega
  have hn31 : number < 2 ^ 31 := by omega
  have hhead : (int i).toNat ≤ 46340 := by rwa [toNat_int (by omega)]
  induction fuel generalizing i with
  | zero => omega
  | succ fuel ih =>
    rw [isPrimeLoop, isPrimeTried, int_succ]
    have hgo := below_int hi31 hn31
    by_cases hlt : i * i < number
    · rw [if_pos (hgo.mpr hlt), if_pos (hgo.mpr hlt)]
      have htest := divides_int hi hlt hn31
      by_cases hd : i ∣ number
      · rw [if_pos (htest.mpr hd), if_pos (htest.mpr hd)]
        refine ⟨⟨false, rfl, ?_⟩, by simpa using hhead⟩
        have hfound : ¬ ∀ d, i ≤ d → ¬ Divisor number d := fun h => h i le_rfl ⟨hlt, hd⟩
        simpa using hfound
      · rw [if_neg (mt htest.mp hd), if_neg (mt htest.mp hd)]
        have hnext : i + 1 ≤ 46340 := by nlinarith
        have hsq' : (i + 1) * (i + 1) ≤ 46340 * 46340 := Nat.mul_le_mul hnext hnext
        obtain ⟨⟨b, hb, hiff⟩, htried⟩ := ih (by omega) hnext (by omega) hsq' (by omega)
          (by rwa [toNat_int (by omega)])
        refine ⟨⟨b, hb, hiff.trans ⟨fun h d hid => ?_, fun h d hid => h d (by omega)⟩⟩, ?_⟩
        · rcases Nat.eq_or_lt_of_le hid with rfl | hid
          · exact fun hdiv => hd hdiv.2
          · exact h d hid
        · simpa using ⟨hhead, htried⟩
    · rw [if_neg (mt hgo.mp hlt), if_neg (mt hgo.mp hlt)]
      refine ⟨⟨true, rfl, ?_⟩, by simpa using hhead⟩
      have hnone : ∀ d, i ≤ d → ¬ Divisor number d := by
        intro d hid hdiv
        exact hlt ((Nat.mul_le_mul hid hid).trans_lt hdiv.1)
      simpa using hnone

theorem no_divisor_iff (hn : 2 ≤ number) :
    (∀ d, 2 ≤ d → ¬ Divisor number d) ↔ number.Prime ∨ ∃ q, q.Prime ∧ number = q * q := by
  constructor
  · intro h
    by_cases hp : number.Prime
    · exact .inl hp
    · have hq := Nat.minFac_prime (n := number) (by omega)
      have hle := Nat.minFac_sq_le_self (by omega) hp
      have hge := h _ hq.two_le
      refine .inr ⟨number.minFac, hq, ?_⟩
      have : ¬ number.minFac * number.minFac < number := fun hlt => hge ⟨hlt, Nat.minFac_dvd number⟩
      rw [pow_two] at hle
      omega
  · rintro (hp | ⟨q, hq, rfl⟩) d hd ⟨hlt, hdvd⟩
    · rcases (Nat.dvd_prime hp).mp hdvd with rfl | rfl
      · omega
      · nlinarith
    · have hdq : d < q := Nat.mul_self_lt_mul_self_iff.mp hlt
      have hcop : d.Coprime q := (Nat.coprime_of_lt_prime (by omega) hdq hq).symm
      rcases (Nat.dvd_prime hq).mp (hcop.dvd_of_dvd_mul_left hdvd) with rfl | rfl <;> omega

/-- **What `is_prime` says** up to 46340^2: it takes the square of a prime for a prime. -/
theorem isPrime_exact (h2 : 2 ≤ number) (hn : number ≤ 46340 * 46340) (hf : 46340 ≤ fuel) :
    (∃ b, isPrime fuel (int number) = some b ∧ (b = true ↔ number.Prime ∨ ∃ q, q.Prime ∧ number = q * q)) ∧
      ∀ j ∈ isPrimeTried (int number) fuel 2, j.toNat ≤ 46340 := by
  have hloop := isPrimeLoop_spec hn le_rfl (by omega) (show 46340 < 2 + fuel by omega)
  rwa [no_divisor_iff h2] at hloop

/-! ## `next_pr` -/

theorem nextPrLoop_spec {r : ℕ} (hi : 2 ≤ i) (hir : i ≤ r) (hr : r.Prime) (hleast : ∀ p, p.Prime → i ≤ p → r ≤ p)
    (htop : r < 46340 * 46340) (hsq : ∀ q, q.Prime → i ≤ q * q → r < q * q) (hf : 46340 ≤ fuel) (hk : r < i + k) :
    nextPrLoop fuel k (int i) = some (int r) ∧ ∀ j ∈ nextPrTried fuel k (int i), j.toNat ≤ 46340 := by
  induction k generalizing i with
  | zero => omega
  | succ k ih =>
    obtain ⟨⟨b, hb, hiff⟩, htried⟩ := isPrime_exact hi (show i ≤ 46340 * 46340 by omega) hf
    rw [nextPrLoop, nextPrTried, hb, Option.bind_some]
    rcases Nat.eq_or_lt_of_le hir with rfl | hlt
    · have hyes : b = true := hiff.mpr (.inl hr)
      simpa [hyes] using htried
    · have hno : b = false := by
        refine Bool.eq_false_iff.mpr fun hyes => ?_
        rcases hiff.mp hyes with hp | ⟨q, hq, he⟩
        · have := hleast i hp le_rfl
          omega
        · have := hsq q hq he.le
          omega
      obtain ⟨hres, hrest⟩ := ih (by omega) hlt (fun p hp h => hleast p hp (by omega))
        (fun q hq h => hsq q hq (by omega)) (by omega)
      simp only [hno, int_succ, List.forall_mem_append, if_true]
      exact ⟨by simpa using hres, htried, hrest⟩

/-- **`next_pr` returns the next prime**, and no square overflows, if neither the square of a prime nor 46340^2 comes
before that prime and the argument is not 0. -/
theorem next_pr_least {n r : ℕ} (hn : 1 ≤ n) (hr : IsLeast {p : ℕ | p.Prime ∧ n < p} r) (htop : r < 46340 * 46340)
    (hsq : ∀ q : ℕ, q.Prime → n < q * q → r < q * q) :
    ∀ fuel, 46340 ≤ fuel → r ≤ n + fuel →
      nextPr fuel (int n) = some (int r) ∧
        ∀ i ∈ nextPrTried fuel fuel (int n + 1), i.toNat * i.toNat < 2 ^ 31 := by
  intro fuel hf hk
  obtain ⟨⟨hprime, hlt⟩, hleast⟩ := hr
  have hloop := nextPrLoop_spec (i := n + 1) (k := fuel) (by omega) hlt hprime (fun p hp h => hleast ⟨hp, h⟩) htop hsq hf
    (by omega)
  rw [nextPr, int_succ]
  refine ⟨hloop.1, fun i hi => ?_⟩
  have hle := Nat.mul_le_mul (hloop.2 i hi) (hloop.2 i hi)
  omega

/-- 16 comes between 13 and 17, and it is not the square of a prime. -/
theorem next_pr_least_thirteen :
    IsLeast {p : ℕ | p.Prime ∧ 13 < p} 17 ∧ nextPr 46340 (int 13) = some (int 17) := by
  have hleast : IsLeast {p : ℕ | p.Prime ∧ 13 < p} 17 := by
    refine ⟨⟨by norm_num, by norm_num⟩, fun p ⟨hp, hlt⟩ => ?_⟩
    by_contra! hle
    interval_cases p <;> revert hp <;> norm_num
  have hsq : ∀ q : ℕ, q.Prime → 13 < q * q → 17 < q * q := by
    intro q hq hlt
    have h4 : 4 ≤ q := by nlinarith
    have hne : q ≠ 4 := by
      rintro rfl
      revert hq
      norm_num
    have h5 : 5 ≤ q := by omega
    nlinarith
  exact ⟨hleast, (next_pr_least (by norm_num) hleast (by norm_num) hsq 46340 le_rfl (by norm_num)).1⟩

theorem tried_overflow (hp : number.Prime) (hlo : 46340 * 46340 < number) (hn : number < 2 ^ 31) (hi : 2 ≤ i)
    (hle : i ≤ 46341) (hf : 46341 < i + fuel) : int 46341 ∈ isPrimeTried (int number) fuel (int i) := by
  induction fuel generalizing i with
  | zero => omega
  | succ fuel ih =>
    rw [isPrimeTried, int_succ]
    rcases Nat.eq_or_lt_of_le hle with rfl | hlt
    · exact List.mem_cons_self
    · have hsq : i * i ≤ 46340 * 46340 := Nat.mul_le_mul (by omega) (by omega)
      have hbelow : i * i < number := by omega
      have hnot : ¬ i ∣ number := by
        intro hd
        rcases (Nat.dvd_prime hp).mp hd with rfl | rfl <;> omega
      rw [if_pos ((below_int (by omega) hn).mpr hbelow), if_neg (mt (divides_int hi hbelow hn).mp hnot)]
      exact List.mem_cons_of_mem _ (ih (by omega) hlt (by omega))

/-- **The server's primes are not all primes**: after 3 it gives 4, after 0 it gives 1, and on the way from 2147483646 to
the prime 2147483647 it squares 46341. -/
theorem next_pr_wrong :
    (IsLeast {p : ℕ | p.Prime ∧ 3 < p} 5 ∧ Computes 3 4) ∧ (IsLeast {p : ℕ | p.Prime ∧ 0 < p} 2 ∧ Computes 0 1) ∧
      IsLeast {p : ℕ | p.Prime ∧ 2147483646 < p} 2147483647 ∧
        ∃ fuel, ∃ i ∈ nextPrTried fuel fuel (int 2147483646 + 1), 2 ^ 31 ≤ i.toNat * i.toNat := by
  have hmersenne : (2147483647 : ℕ).Prime := lucas_lehmer_sufficiency 31 (by norm_num) (by norm_num)
  refine ⟨⟨⟨⟨by norm_num, by norm_num⟩, fun p ⟨hp, hlt⟩ => ?_⟩, 2, by decide⟩,
    ⟨⟨⟨by norm_num, by norm_num⟩, fun p ⟨hp, _⟩ => hp.two_le⟩, 1, by decide⟩,
    ⟨⟨hmersenne, by norm_num⟩, fun p ⟨_, hlt⟩ => hlt⟩, 46341, int 46341, ?_, by decide⟩
  · by_contra! hle
    interval_cases p
    revert hp
    norm_num
  · rw [int_succ, nextPrTried]
    exact List.mem_append_left _ (tried_overflow hmersenne (by norm_num) (by norm_num) le_rfl (by norm_num) (by norm_num))

end Xv6.Primsrv
