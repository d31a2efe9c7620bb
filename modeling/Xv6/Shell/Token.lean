import Mathlib.Data.List.DropRight
import Xv6.Lib.Wp

/-!
# The tokens of a command line

`gettoken` and `peek` of `sh.c`. A pointer into the command line is the rest of the line from there on, and the end of
the list is the terminating NUL.
-/

namespace Xv6.Shell

open Lib

def whitespace : List Char := [' ', '\t', '\r', '\n', '\x0b']

def symbols : List Char := ['<', '|', '>', '&', ';', '(', ')']

/-- What `gettoken` returns; `append` is `'+'`, for `>>`, and `word` is `'a'`, with the characters from `q` to `eq`. -/
inductive Tok
  | bar
  | lparen
  | rparen
  | semi
  | amp
  | lt
  | gt
  | append
  | word (text : List Char)
  deriving DecidableEq

/-- The tokens of one character, `>` apart. -/
def single (c : Char) : Option Tok :=
  if c = '|' then some .bar
  else if c = '(' then some .lparen
  else if c = ')' then some .rparen
  else if c = ';' then some .semi
  else if c = '&' then some .amp
  else if c = '<' then some .lt
  else none

/-- `while(s < es && strchr(whitespace, *s)) s++`. -/
def skipSpace (p : List Char) : List Char := p.dropWhile fun c => whitespace.contains c

/-- `!strchr(whitespace, *s) && !strchr(symbols, *s)`. -/
def inWord (c : Char) : Bool := !whitespace.contains c && !symbols.contains c

/-- `gettoken`: the token, or nothing at the end, and the new `*ps`. -/
def gettoken (p : List Char) : Option Tok × List Char :=
  match skipSpace p with
  | [] => (none, [])
  | c :: rest =>
    match single c with
    | some tok => (some tok, skipSpace rest)
    | none =>
      if c = '>' then
        if rest.head? = some '>' then (some .append, skipSpace rest.tail) else (some .gt, skipSpace rest)
      else (some (.word ((c :: rest).takeWhile inWord)), skipSpace ((c :: rest).dropWhile inWord))

/-- `peek`: the new `*ps` is without leading whitespace. -/
def peek (p toks : List Char) : Bool × List Char := ((skipSpace p).head?.any toks.contains, skipSpace p)

/-! ## Tokens -/

theorem length_skipSpace (p : List Char) : (skipSpace p).length ≤ p.length := List.length_dropWhile_le _ p

theorem skipSpace_skipSpace (p : List Char) : skipSpace (skipSpace p) = skipSpace p := List.dropWhile_idempotent _ p

theorem gettoken_skipSpace (p : List Char) : gettoken (skipSpace p) = gettoken p := by
  unfold gettoken
  rw [skipSpace_skipSpace]

/-- The first character of a token that is no word. -/
def Tok.char : Tok → Option Char
  | .bar => some '|'
  | .lparen => some '('
  | .rparen => some ')'
  | .semi => some ';'
  | .amp => some '&'
  | .lt => some '<'
  | .gt | .append => some '>'
  | .word _ => none

theorem skipSpace_head {p rest : List Char} {c : Char} (h : skipSpace p = c :: rest) : c ∉ whitespace := by
  induction p with
  | nil => simp [skipSpace] at h
  | cons d p ih =>
    by_cases hd : d ∈ whitespace
    · exact ih (by simpa [skipSpace, hd] using h)
    · obtain ⟨rfl, -⟩ : d = c ∧ p = rest := by simpa [skipSpace, hd] using h
      exact hd

theorem char_of_single {c : Char} {tok : Tok} (h : single c = some tok) : tok.char = some c := by
  unfold single at h
  split_ifs at h with h1 h2 h3 h4 h5 h6 <;> obtain rfl := Option.some.inj h
  · exact congrArg some h1.symm
  · exact congrArg some h2.symm
  · exact congrArg some h3.symm
  · exact congrArg some h4.symm
  · exact congrArg some h5.symm
  · exact congrArg some h6.symm

theorem not_symbol {c : Char} (h : single c = none) (hgt : c ≠ '>') : c ∉ symbols := by
  unfold single at h
  split_ifs at h with h1 h2 h3 h4 h5 h6
  simp [symbols, h1, h2, h3, h4, h5, h6, hgt]

/-- What `gettoken` takes. -/
inductive Cut (p : List Char) : Option Tok × List Char → Prop
  | done : skipSpace p = [] → Cut p (none, [])
  | symbol {c : Char} {rest : List Char} {tok : Tok} {n : ℕ} : skipSpace p = c :: rest → tok.char = some c →
      Cut p (some tok, skipSpace (rest.drop n))
  | word {c : Char} {rest : List Char} : skipSpace p = c :: rest → c ∉ symbols →
      Cut p (some (.word (c :: rest.takeWhile inWord)), skipSpace (rest.dropWhile inWord))

theorem cut_gettoken (p : List Char) : Cut p (gettoken p) := by
  unfold gettoken
  cases hp : skipSpace p with
  | nil => exact .done hp
  | cons c rest =>
    cases hs : single c with
    | some tok =>
      simp only [hs]
      exact .symbol (n := 0) hp (char_of_single hs)
    | none =>
      simp only [hs]
      split_ifs with hgt happ
      · rw [← List.drop_one]
        exact .symbol hp (congrArg some hgt.symm)
      · exact .symbol (n := 0) hp (congrArg some hgt.symm)
      · have hsym := not_symbol hs hgt
        have hin : inWord c = true := by simp [inWord, skipSpace_head hp, hsym]
        rw [List.takeWhile_cons_of_pos hin, List.dropWhile_cons_of_pos hin]
        exact .word hp hsym

theorem length_gettoken {p p' : List Char} {tok : Tok} (h : gettoken p = (some tok, p')) : p'.length < p.length := by
  have hcut := cut_gettoken p
  have hskip := length_skipSpace p
  rw [h] at hcut
  cases hcut with
  | @symbol c rest _ n hp _ =>
    have := length_skipSpace (rest.drop n)
    rw [hp] at hskip
    simp only [List.length_cons, List.length_drop] at *
    omega
  | @word c rest hp _ =>
    have h1 := length_skipSpace (rest.dropWhile inWord)
    have h2 := List.length_dropWhile_le inWord rest
    rw [hp, List.length_cons] at hskip
    omega

/-- The tokens that `gettoken` cuts off one after the other. -/
def tokens (p : List Char) : List Tok :=
  match _h : gettoken p with
  | (none, _) => []
  | (some tok, p') => tok :: tokens p'
termination_by p.length
decreasing_by exact length_gettoken _h

theorem tokens_eq (p : List Char) : tokens p = match gettoken p with
    | (none, _) => []
    | (some tok, p') => tok :: tokens p' := by
  rw [tokens]
  split
  · next h => rw [h]
  · next h => rw [h]

theorem tokens_skipSpace (p : List Char) : tokens (skipSpace p) = tokens p := by
  rw [tokens_eq, tokens_eq p, gettoken_skipSpace]

theorem length_tokens (p : List Char) : (tokens p).length ≤ p.length := by
  induction hn : p.length using Nat.strong_induction_on generalizing p with | _ n ih => ?_
  rw [tokens_eq]
  split
  · exact Nat.zero_le _
  · next tok p' h =>
    have hlt := length_gettoken h
    have := ih p'.length (hn ▸ hlt) p' rfl
    rw [List.length_cons]
    omega

theorem tokens_eq_nil {p : List Char} : tokens p = [] ↔ skipSpace p = [] := by
  have hcut := cut_gettoken p
  rw [tokens_eq]
  generalize gettoken p = r at hcut
  cases hcut with
  | done hp => simp [hp]
  | symbol hp => simp [hp]
  | word hp => simp [hp]

/-! ## The parser's view -/

/-- Why parsing stops: a panic, or not enough fuel. -/
inductive Err
  | missingFile
  | parseblock
  | missingParen
  | badToken
  | tooManyArgs
  | leftovers
  | outOfFuel
  deriving DecidableEq

/-- A function of the parser, with `*ps` as its state. -/
abbrev Parser := StateT (List Char) (Except Err)

def peekp (toks : List Char) : Parser Bool := do
  let p ← get
  set (peek p toks).2
  return (peek p toks).1

def gettokenp : Parser (Option Tok) := do
  let p ← get
  set (gettoken p).2
  return (gettoken p).1

/-- The first of the tokens starts with one of the characters. -/
def starts (toks : List Char) (ts : List Tok) : Bool := ts.head?.any fun t => t.char.any toks.contains

variable {p toks : List Char} {E : Err → Prop}

theorem peek_eq (h : toks.all symbols.contains = true) : (peek p toks).1 = starts toks (tokens p) := by
  have hcut := cut_gettoken p
  rw [tokens_eq, peek, starts]
  generalize gettoken p = r at hcut
  cases hcut with
  | done hp => simp [hp]
  | symbol hp hc => simp [hp, hc]
  | @word c rest hp hc =>
    simp only [hp, List.head?_cons, Option.any_some, Tok.char, Option.any_none]
    by_contra hmem
    exact hc (by simpa using List.all_eq_true.mp h c (by simpa using hmem))

/-- **`peek`** looks at the first token. -/
theorem wp_peekp {Q : Bool → List Char → Prop} (h : toks.all symbols.contains = true)
    (hQ : ∀ p', tokens p' = tokens p → Q (starts toks (tokens p)) p') : wp (peekp toks) Q E p := by
  rw [peekp, wp_bind, wp_get, wp_bind, wp_set, wp_pure, peek_eq h]
  exact hQ _ (tokens_skipSpace p)

/-- **`gettoken`** takes the first token. -/
theorem wp_gettokenp {Q : Option Tok → List Char → Prop}
    (hQ : ∀ p', tokens p' = (tokens p).tail → Q (tokens p).head? p') : wp gettokenp Q E p := by
  rw [gettokenp, wp_bind, wp_get, wp_bind, wp_set, wp_pure]
  have htok := tokens_eq p
  cases hr : gettoken p with
  | mk tok p' =>
    rw [hr] at htok
    cases tok with
    | none =>
      have hcut := cut_gettoken p
      rw [hr] at hcut
      cases hcut
      simpa [htok] using hQ [] (by rw [htok]; exact tokens_eq_nil.mpr rfl)
    | some tok => simpa [htok] using hQ p' (by rw [htok]; rfl)

end Xv6.Shell
