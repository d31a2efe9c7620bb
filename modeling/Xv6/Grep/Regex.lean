import Mathlib.Computability.Language
import Xv6.Lib.Bytes

/-!
# The language of a pattern

A pattern is an optional `^`, a list of items and an optional final `$`; an item is a character, or a character with a
star. The items are a language (`Pattern.lang`), and the pattern matches a text that has a part in it
(`Pattern.Matches`). `matchhere`, `matchstar` and `matchLine` (`match` in the source) are the matcher on a text given as
a list of bytes without the NUL at its end.

- `matchhere_iff`, `matchLine_iff`: the matcher on lists decides this;
- `Mem.matchText`: the matcher with pointers into memory, which says the same as the one on lists (`Mem.matchText_eq`).
-/

namespace Xv6.Grep

open Lib

def ch (c : Char) : Byte := .ofNat 8 c.toNat

/-! ## Patterns -/

/-- A character, or a character and `*`. -/
inductive Item
  | one (c : Byte)
  | star (c : Byte)

/-- The items of a pattern, and whether it ends in `$`. -/
def itemsOf : List Byte → List Item × Bool
  | [] => ([], false)
  | [c] => if c = ch '$' then ([], true) else ([.one c], false)
  | c :: d :: re =>
    if d = ch '*' then (.star c :: (itemsOf re).1, (itemsOf re).2)
    else (.one c :: (itemsOf (d :: re)).1, (itemsOf (d :: re)).2)

structure Pattern where
  /-- it starts with `^` -/
  anchored : Bool
  items : List Item
  /-- it ends in `$` -/
  final : Bool

/-- How a pattern is read. -/
def Pattern.ofBytes (re : List Byte) : Pattern :=
  if re.head? = some (ch '^') then ⟨true, (itemsOf re.tail).1, (itemsOf re.tail).2⟩
  else ⟨false, (itemsOf re).1, (itemsOf re).2⟩

/-- The character `b` of a text is one that `c` stands for. -/
def Fits (c b : Byte) : Prop := c = ch '.' ∨ c = b

/-- The texts of an item. -/
def Item.lang : Item → Language Byte
  | .one c => {l | ∃ b, l = [b] ∧ Fits c b}
  | .star c => {l | ∀ b ∈ l, Fits c b}

/-- The texts of some items, one after the other. -/
def langOf (items : List Item) : Language Byte := (items.map Item.lang).prod

/-- **The pattern matches**: a part of the text is in the language of the items, at its beginning if there is a `^` and at
its end if there is a `$`. -/
def Pattern.Matches (P : Pattern) (text : List Byte) : Prop :=
  ∃ pre mid post, text = pre ++ mid ++ post ∧ mid ∈ langOf P.items ∧ (P.anchored → pre = []) ∧ (P.final → post = [])

/-! ## The matcher on lists -/

/-- `matchstar`, with `matchhere` for the rest of the pattern. -/
def matchstar (here : List Byte → Bool) (c : Byte) : List Byte → Bool
  | [] => here []
  | t :: text => here (t :: text) || (t == c || c == ch '.') && matchstar here c text

/-- The last case of `matchhere`: one character, and then the rest of the pattern. -/
def matchchar (here : List Byte → Bool) (c : Byte) : List Byte → Bool
  | [] => false
  | t :: text => (c == ch '.' || c == t) && here text

def matchhere : List Byte → List Byte → Bool
  | [], _ => true
  | [c], text => if c = ch '$' then text.isEmpty else matchchar (matchhere []) c text
  | c :: d :: re, text => if d = ch '*' then matchstar (matchhere re) c text else matchchar (matchhere (d :: re)) c text

def matchFrom (re : List Byte) : List Byte → Bool
  | [] => matchhere re []
  | t :: text => matchhere re (t :: text) || matchFrom re text

def matchLine (re text : List Byte) : Bool :=
  if re.head? = some (ch '^') then matchhere re.tail text else matchFrom re text

variable {c : Byte} {here : List Byte → Bool}

/-- The items are at the beginning of the text. -/
def Begins (r : List Item × Bool) (text : List Byte) : Prop :=
  ∃ mid post, text = mid ++ post ∧ mid ∈ langOf r.1 ∧ (r.2 → post = [])

theorem begins_nil {text : List Byte} : Begins ([], false) text := ⟨[], text, rfl, rfl, nofun⟩

theorem begins_final {text : List Byte} : Begins ([], true) text ↔ text = [] := by
  constructor
  · rintro ⟨mid, post, rfl, hmid, hpost⟩
    rw [hpost rfl, List.append_nil]
    exact hmid
  · rintro rfl
    exact ⟨[], [], rfl, rfl, fun _ => rfl⟩

theorem begins_cons {i : Item} {is : List Item} {final : Bool} {text : List Byte} :
    Begins (i :: is, final) text ↔ ∃ l rest, text = l ++ rest ∧ l ∈ i.lang ∧ Begins (is, final) rest := by
  constructor
  · rintro ⟨mid, post, rfl, hmid, hpost⟩
    obtain ⟨l, hl, mid', hmid', rfl⟩ := Language.mem_mul.mp hmid
    exact ⟨l, mid' ++ post, List.append_assoc _ _ _, hl, mid', post, rfl, hmid', hpost⟩
  · rintro ⟨l, rest, rfl, hl, mid, post, rfl, hmid, hpost⟩
    exact ⟨l ++ mid, post, (List.append_assoc _ _ _).symm, Language.append_mem_mul hl hmid, hpost⟩

theorem matchchar_iff {text : List Byte} :
    matchchar here c text = true ↔ ∃ l rest, text = l ++ rest ∧ l ∈ (Item.one c).lang ∧ here rest = true := by
  constructor
  · intro h
    cases text with
    | nil => cases h
    | cons t text =>
      obtain ⟨hc, hrest⟩ := Bool.and_eq_true_iff.mp h
      exact ⟨[t], text, rfl, ⟨t, rfl, by simpa [Fits] using hc⟩, hrest⟩
  · rintro ⟨_, rest, rfl, ⟨b, rfl, hb⟩, hrest⟩
    exact Bool.and_eq_true_iff.mpr ⟨by simpa [Fits] using hb, hrest⟩

/-- **`matchstar`** finds the number of characters to take, whatever it is. -/
theorem matchstar_iff {text : List Byte} :
    matchstar here c text = true ↔ ∃ l rest, text = l ++ rest ∧ l ∈ (Item.star c).lang ∧ here rest = true := by
  induction text with
  | nil =>
    constructor
    · intro h
      exact ⟨[], [], rfl, nofun, h⟩
    · rintro ⟨l, rest, hnil, -, hrest⟩
      obtain ⟨rfl, rfl⟩ := List.append_eq_nil_iff.mp hnil.symm
      exact hrest
  | cons t text ih =>
    unfold matchstar
    rw [Bool.or_eq_true, Bool.and_eq_true, ih]
    constructor
    · rintro (h | ⟨ht, l, rest, rfl, hl, hrest⟩)
      · exact ⟨[], t :: text, rfl, nofun, h⟩
      · have hfit : Fits c t := by
          rcases Bool.or_eq_true _ _ ▸ ht with ht | ht
          · exact .inr (beq_iff_eq.mp ht).symm
          · exact .inl (beq_iff_eq.mp ht)
        exact ⟨t :: l, rest, rfl, List.forall_mem_cons.mpr ⟨hfit, hl⟩, hrest⟩
    · rintro ⟨l, rest, heq, hl, hrest⟩
      cases l with
      | nil =>
        rw [List.nil_append] at heq
        exact .inl (heq ▸ hrest)
      | cons b l =>
        obtain ⟨rfl, rfl⟩ := List.cons.inj heq
        obtain ⟨hb, hl⟩ := List.forall_mem_cons.mp hl
        refine .inr ⟨?_, l, rest, rfl, hl, hrest⟩
        rcases hb with rfl | rfl
        · simp
        · simp

/-- **`matchhere`** says whether the items are at the beginning of the text. The induction follows the pattern. -/
theorem matchhere_iff : ∀ (re text : List Byte), matchhere re text = true ↔ Begins (itemsOf re) text
  | [], text => by
    unfold matchhere itemsOf
    exact ⟨fun _ => begins_nil, fun _ => rfl⟩
  | [c], text => by
    unfold matchhere itemsOf
    split_ifs with hc
    · rw [begins_final, List.isEmpty_iff]
    · rw [begins_cons, matchchar_iff]
      exact exists₂_congr fun l rest => and_congr_right fun _ => and_congr_right fun _ =>
        ⟨fun _ => begins_nil, fun _ => rfl⟩
  | c :: d :: re, text => by
    unfold matchhere itemsOf
    split_ifs with hd
    · rw [begins_cons, matchstar_iff]
      exact exists₂_congr fun l rest => and_congr_right fun _ => and_congr_right fun _ => matchhere_iff re rest
    · rw [begins_cons, matchchar_iff]
      exact exists₂_congr fun l rest => and_congr_right fun _ => and_congr_right fun _ => matchhere_iff (d :: re) rest

theorem matchFrom_iff {re text : List Byte} :
    matchFrom re text = true ↔ ∃ pre rest, text = pre ++ rest ∧ matchhere re rest = true := by
  induction text with
  | nil =>
    constructor
    · intro h
      exact ⟨[], [], rfl, h⟩
    · rintro ⟨pre, rest, hnil, hrest⟩
      obtain ⟨rfl, rfl⟩ := List.append_eq_nil_iff.mp hnil.symm
      exact hrest
  | cons t text ih =>
    unfold matchFrom
    rw [Bool.or_eq_true, ih]
    constructor
    · rintro (h | ⟨pre, rest, rfl, hrest⟩)
      · exact ⟨[], t :: text, rfl, h⟩
      · exact ⟨t :: pre, rest, rfl, hrest⟩
    · rintro ⟨pre, rest, heq, hrest⟩
      cases pre with
      | nil =>
        rw [List.nil_append] at heq
        exact .inl (heq ▸ hrest)
      | cons b pre =>
        obtain ⟨rfl, rfl⟩ := List.cons.inj heq
        exact .inr ⟨pre, rest, rfl, hrest⟩

/-- **The matcher on lists decides the language of the pattern.** -/
theorem matchLine_iff (re text : List Byte) : matchLine re text = true ↔ (Pattern.ofBytes re).Matches text := by
  unfold matchLine Pattern.ofBytes
  split_ifs with hc
  · rw [matchhere_iff]
    constructor
    · rintro ⟨mid, post, rfl, hmid, hpost⟩
      exact ⟨[], mid, post, rfl, hmid, fun _ => rfl, hpost⟩
    · rintro ⟨pre, mid, post, rfl, hmid, hpre, hpost⟩
      obtain rfl := hpre rfl
      exact ⟨mid, post, rfl, hmid, hpost⟩
  · rw [matchFrom_iff]
    constructor
    · rintro ⟨pre, rest, rfl, hrest⟩
      obtain ⟨mid, post, rfl, hmid, hpost⟩ := (matchhere_iff re rest).mp hrest
      exact ⟨pre, mid, post, (List.append_assoc _ _ _).symm, hmid, nofun, hpost⟩
    · rintro ⟨pre, mid, post, rfl, hmid, -, hpost⟩
      exact ⟨pre, mid ++ post, List.append_assoc _ _ _, (matchhere_iff re _).mpr ⟨mid, post, rfl, hmid, hpost⟩⟩

/-! ## The matcher in memory -/

namespace Mem

mutual

/-- `matchhere`, with the pattern and the text in the memory `m`; `none` is a call that needs more `fuel`. -/
def matchhere (m : ℕ → Byte) : ℕ → ℕ → ℕ → Option Bool
  | 0, _, _ => none
  | fuel + 1, re, text =>
    if m re = 0 then some true
    else if m (re + 1) = ch '*' then matchstar m fuel (m re) (re + 2) text
    else if m re = ch '$' ∧ m (re + 1) = 0 then some (m text = 0)
    else if m text ≠ 0 ∧ (m re = ch '.' ∨ m re = m text) then matchhere m fuel (re + 1) (text + 1)
    else some false

def matchstar (m : ℕ → Byte) : ℕ → Byte → ℕ → ℕ → Option Bool
  | 0, _, _, _ => none
  | fuel + 1, c, re, text =>
    match matchhere m fuel re text with
    | none => none
    | some true => some true
    | some false =>
      if m text ≠ 0 ∧ (m text = c ∨ c = ch '.') then matchstar m fuel c re (text + 1) else some false

end

def matchFrom (m : ℕ → Byte) (re : ℕ) : ℕ → ℕ → Option Bool
  | 0, _ => none
  | fuel + 1, text =>
    match matchhere m fuel re text with
    | none => none
    | some true => some true
    | some false => if m text ≠ 0 then matchFrom m re fuel (text + 1) else some false

def matchText (m : ℕ → Byte) (fuel re text : ℕ) : Option Bool :=
  if m re = ch '^' then matchhere m fuel (re + 1) text else matchFrom m re fuel text

variable {m : ℕ → Byte} {p q fuel : ℕ} {re text : List Byte}

/-- The string at `p` is `l`, which has no NUL. -/
def IsString (m : ℕ → Byte) : ℕ → List Byte → Prop
  | p, [] => m p = 0
  | p, b :: l => m p = b ∧ b ≠ 0 ∧ IsString m (p + 1) l

instance decidableIsString : ∀ (p : ℕ) (l : List Byte), Decidable (IsString m p l)
  | p, [] => inferInstanceAs (Decidable (m p = 0))
  | p, b :: l =>
    have := decidableIsString (p + 1) l
    inferInstanceAs (Decidable (m p = b ∧ b ≠ 0 ∧ IsString m (p + 1) l))

theorem star_ne_nul : (0 : Byte) ≠ ch '*' := by decide

theorem matchchar_eq {c : Byte} {k : Option Bool} {here : List Byte → Bool} (ht : IsString m q text)
    (hk : ∀ t rest, text = t :: rest → k = some (here rest)) :
    (if m q ≠ 0 ∧ (c = ch '.' ∨ c = m q) then k else some false) = some (matchchar here c text) := by
  cases text with
  | nil =>
    have hq : m q = 0 := ht
    rw [if_neg (by simp [hq])]
    rfl
  | cons t text =>
    obtain ⟨hq, hne, -⟩ := ht
    have hcons : matchchar here c (t :: text) = ((c == ch '.' || c == t) && here text) := rfl
    rw [hq, hk t text rfl, hcons]
    by_cases hc : c = ch '.' ∨ c = t
    · have hb : (c == ch '.' || c == t) = true := by simpa using hc
      rw [if_pos ⟨hne, hc⟩, hb, Bool.true_and]
    · have hb : (c == ch '.' || c == t) = false := by simpa using hc
      rw [if_neg fun h => hc h.2, hb, Bool.false_and]

/-- **The two functions in memory**, by induction on the fuel: each call takes a character of the pattern or of the text,
or has just taken a `*`. -/
theorem matchhere_matchstar_eq : ∀ fuel : ℕ,
    (∀ re text p q, IsString m p re → IsString m q text → re.length + text.length < fuel →
      matchhere m fuel p q = some (Grep.matchhere re text)) ∧
    ∀ c re text p q, IsString m p re → IsString m q text → re.length + text.length + 1 < fuel →
      matchstar m fuel c p q = some (Grep.matchstar (Grep.matchhere re) c text) := by
  intro fuel
  induction fuel with
  | zero => exact ⟨fun _ _ _ _ _ _ h => absurd h (Nat.not_lt_zero _), fun _ _ _ _ _ _ _ h => absurd h (Nat.not_lt_zero _)⟩
  | succ fuel ih =>
    obtain ⟨ihhere, ihstar⟩ := ih
    constructor
    · intro re text p q hre ht hlen
      unfold matchhere
      match re, hre with
      | [], hre =>
        have hp : m p = 0 := hre
        rw [if_pos hp]
        rfl
      | [c], ⟨hp, hne, hend⟩ =>
        have hend : m (p + 1) = 0 := hend
        rw [hp, hend, if_neg hne, if_neg star_ne_nul]
        unfold Grep.matchhere
        by_cases hc : c = ch '$'
        · rw [if_pos ⟨hc, rfl⟩, if_pos hc]
          cases text with
          | nil =>
            have hq : m q = 0 := ht
            simp [hq]
          | cons t text =>
            have hne : t ≠ 0 := ht.2.1
            rw [ht.1, decide_eq_false hne]
            rfl
        · rw [if_neg fun h => hc h.1, if_neg hc]
          refine matchchar_eq ht fun t rest heq => ihhere [] rest _ _ hend ?_ ?_
          · subst heq
            exact ht.2.2
          · subst heq
            simp only [List.length_cons, List.length_nil] at hlen ⊢
            omega
      | c :: d :: re, ⟨hp, hne, hd, hdne, hrest⟩ =>
        rw [hp, hd, if_neg hne]
        unfold Grep.matchhere
        simp only [List.length_cons] at hlen
        by_cases hstar : d = ch '*'
        · rw [if_pos hstar, if_pos hstar]
          exact ihstar c re text _ _ hrest ht (by omega)
        · rw [if_neg hstar, if_neg fun h => hdne h.2, if_neg hstar]
          refine matchchar_eq ht fun t rest heq => ihhere (d :: re) rest _ _ ⟨hd, hdne, hrest⟩ ?_ ?_
          · subst heq
            exact ht.2.2
          · subst heq
            simp only [List.length_cons] at hlen ⊢
            omega
    · intro c re text p q hre ht hlen
      unfold matchstar
      rw [ihhere re text p q hre ht (by omega)]
      cases text with
      | nil =>
        have hq : m q = 0 := ht
        unfold Grep.matchstar
        cases Grep.matchhere re [] with
        | true => rfl
        | false => simp [hq]
      | cons t text =>
        obtain ⟨hq, hne, hrest⟩ := ht
        rw [List.length_cons] at hlen
        unfold Grep.matchstar
        cases Grep.matchhere re (t :: text) with
        | true => rfl
        | false =>
          simp only [hq]
          by_cases hc : t = c ∨ c = ch '.'
          · have hb : (t == c || c == ch '.') = true := by simpa using hc
            rw [if_pos ⟨hne, hc⟩, hb, ihstar c re text p (q + 1) hre hrest (by omega)]
            rfl
          · have hb : (t == c || c == ch '.') = false := by simpa using hc
            rw [if_neg fun h => hc h.2, hb]
            rfl

theorem matchFrom_eq (hre : IsString m p re) : ∀ (text : List Byte) (fuel q : ℕ), IsString m q text →
    re.length + text.length + 1 < fuel → matchFrom m p fuel q = some (Grep.matchFrom re text) := by
  intro text
  induction text with
  | nil =>
    intro fuel q ht hlen
    obtain ⟨fuel, rfl⟩ : ∃ f, fuel = f + 1 := ⟨fuel - 1, by omega⟩
    have hq : m q = 0 := ht
    unfold matchFrom Grep.matchFrom
    rw [(matchhere_matchstar_eq fuel).1 re [] p q hre ht (by omega)]
    cases Grep.matchhere re [] with
    | true => rfl
    | false => simp [hq]
  | cons t text ih =>
    intro fuel q ht hlen
    obtain ⟨fuel, rfl⟩ : ∃ f, fuel = f + 1 := ⟨fuel - 1, by omega⟩
    unfold matchFrom Grep.matchFrom
    rw [(matchhere_matchstar_eq fuel).1 re (t :: text) p q hre ht (by omega)]
    obtain ⟨hq, hne, hrest⟩ := ht
    rw [List.length_cons] at hlen
    cases Grep.matchhere re (t :: text) with
    | true => rfl
    | false =>
      simp only [hq]
      rw [if_pos hne, ih fuel (q + 1) hrest (by omega)]
      rfl

/-- **The matcher in memory** says what the one on lists says. -/
theorem matchText_eq (hre : IsString m p re) (ht : IsString m q text) (hfuel : re.length + text.length + 1 < fuel) :
    matchText m fuel p q = some (matchLine re text) := by
  unfold matchText matchLine
  cases re with
  | nil =>
    have hp : m p = 0 := hre
    rw [if_neg (by rw [hp]; decide), if_neg (by simp)]
    exact matchFrom_eq hre text fuel q ht hfuel
  | cons c re =>
    have hp := hre.1
    rw [List.length_cons] at hfuel
    by_cases hc : c = ch '^'
    · rw [if_pos (hp.trans hc), if_pos (by rw [hc]; rfl)]
      exact (matchhere_matchstar_eq fuel).1 re text _ q hre.2.2 ht (by omega)
    · rw [if_neg (by rw [hp]; exact hc), if_neg (by simpa using hc)]
      exact matchFrom_eq hre text fuel q ht (by rw [List.length_cons]; omega)

end Mem

/-- **The matcher is correct**: for a pattern and a text anywhere in memory, of any lengths, `match` returns, and it
returns 1 exactly when the pattern matches. -/
theorem match_decides_language {m : ℕ → Byte} {p q : ℕ} {re text : List Byte} (hre : Mem.IsString m p re)
    (ht : Mem.IsString m q text) : ∃ r, (∀ fuel, re.length + text.length + 1 < fuel → Mem.matchText m fuel p q = some r) ∧
      (r = true ↔ (Pattern.ofBytes re).Matches text) :=
  ⟨matchLine re text, fun _ hfuel => Mem.matchText_eq hre ht hfuel, matchLine_iff re text⟩

/-- The pattern `^a*.$` and the text `aab`. -/
theorem match_decides_language_star :
    ∃ r, (∀ fuel, [ch '^', ch 'a', ch '*', ch '.', ch '$'].length + [ch 'a', ch 'a', ch 'b'].length + 1 < fuel →
      Mem.matchText (fun i => ("^a*.$\x00aab".toList.map ch).getD i 0) fuel 0 6 = some r) ∧
      (r = true ↔ (Pattern.ofBytes [ch '^', ch 'a', ch '*', ch '.', ch '$']).Matches [ch 'a', ch 'a', ch 'b']) :=
  match_decides_language (by decide) (by decide)

end Xv6.Grep
