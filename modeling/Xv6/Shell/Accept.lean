import Xv6.Shell.Parse

/-!
# The shell parser accepts its grammar

- `parse_sound`: what is parsed has a derivation with the tree that is returned, and with enough fuel parsing ends;
- `parse_complete`: what has a derivation is parsed, by induction on the derivation; what follows it must not be taken for
  a part of it (`Nt.Follow`).
-/

namespace Xv6.Shell

open Lib

/-! ## Rules for `peek` and `gettoken` -/

section Rules

variable {p toks : List Char} {Q : Cmd → List Char → Prop} {E : Err → Prop} {m n : Parser Cmd} {tok : Tok}
  {us : List Tok} {c : Char}

/-- A token of one character, `>` apart. -/
theorem eq_of_char (op : Tok) (htok : tok.char = some c) (hgt : c ≠ '>') (h : op.char = some c) : op = tok := by
  cases tok <;> cases htok <;> cases op <;> simp [Tok.char] at h hgt ⊢

theorem starts_one {ts : List Tok} (htok : tok.char = some c) (hgt : c ≠ '>') (h : starts [c] ts = true) :
    ∃ us, ts = tok :: us := by
  cases ts with
  | nil => simp [starts] at h
  | cons op us =>
    refine ⟨us, ?_⟩
    rw [eq_of_char op htok hgt]
    cases ho : op.char with
    | none => simp [starts, ho] at h
    | some d =>
      obtain rfl : d = c := by simpa [starts, ho] using h
      rfl

theorem wp_peek_no (hall : toks.all symbols.contains = true) (h : starts toks (tokens p) = false)
    (k : ∀ p', tokens p' = tokens p → wp n Q E p') : wp (peekp toks >>= fun b => if b = true then m else n) Q E p := by
  rw [wp_bind]
  refine wp_peekp hall fun p' hp' => ?_
  rw [h, if_neg Bool.false_ne_true]
  exact k p' hp'

theorem wp_peek_yes (hall : toks.all symbols.contains = true) (h : starts toks (tokens p) = true)
    (k : ∀ p', tokens p' = tokens p → wp m Q E p') : wp (peekp toks >>= fun b => if b = true then m else n) Q E p := by
  rw [wp_bind]
  refine wp_peekp hall fun p' hp' => ?_
  rw [if_pos h]
  exact k p' hp'

theorem wp_token {f : Option Tok → Parser Cmd} (h : tokens p = tok :: us)
    (k : ∀ p', tokens p' = us → wp (f (some tok)) Q E p') : wp (gettokenp >>= f) Q E p := by
  rw [wp_bind]
  refine wp_gettokenp fun p' hp' => ?_
  rw [h] at hp' ⊢
  exact k p' hp'

/-- The token that is asked for comes, and is taken. -/
theorem wp_symbol_yes (htok : tok.char = some c) (h : tokens p = tok :: us)
    (k : ∀ p', tokens p' = us → wp m Q E p') :
    wp (peekp [c] >>= fun b => if b = true then gettokenp >>= fun _ => m else n) Q E p := by
  refine wp_peek_yes ?_ ?_ fun p₁ h₁ => wp_token (h₁.trans h) k
  · cases tok <;> cases htok <;> rfl
  · rw [h]
    simp [starts, htok]

/-- The token that is asked for is taken if it comes. -/
theorem wp_symbol (tok : Tok) (htok : tok.char = some c) (hgt : c ≠ '>')
    (kyes : ∀ us, tokens p = tok :: us → ∀ p', tokens p' = us → wp m Q E p')
    (kno : ∀ p', tokens p' = tokens p → wp n Q E p') :
    wp (peekp [c] >>= fun b => if b = true then gettokenp >>= fun _ => m else n) Q E p := by
  cases hs : starts [c] (tokens p) with
  | true =>
    obtain ⟨us, hus⟩ := starts_one htok hgt hs
    exact wp_symbol_yes htok hus (kyes us hus)
  | false => exact wp_peek_no (by cases tok <;> cases htok <;> rfl) hs kno

theorem length_split {ts us vs : List Tok} (h : ts = us ++ vs) : ts.length = us.length + vs.length := by
  rw [h, List.length_append]

end Rules

/-! ## Soundness -/

section Sound

variable {p : List Char} {fuel : ℕ}

/-- The error of a function that needs `n` calls at most. -/
def Ends (n fuel : ℕ) (e : Err) : Prop := n ≤ fuel → e ≠ .outOfFuel

theorem Ends.of_lt {n fuel : ℕ} {e : Err} (h : fuel < n) : Ends n fuel e := fun hle => absurd hle (by omega)

theorem Ends.of_ne {n fuel : ℕ} {e : Err} (h : e ≠ .outOfFuel) : Ends n fuel e := fun _ => h

theorem Ends.mono {n n' fuel fuel' : ℕ} {e : Err} (h : Ends n' fuel' e) (hle : n ≤ fuel → n' ≤ fuel') :
    Ends n fuel e := fun hn => h (hle hn)

theorem starts_redir {ts : List Tok} (h : starts ['<', '>'] ts = true) :
    ∃ op ∈ [Tok.lt, .gt, .append], ∃ us, ts = op :: us := by
  cases ts with
  | nil => simp [starts] at h
  | cons op us =>
    refine ⟨op, ?_, us, rfl⟩
    cases op <;> simp [starts, Tok.char] at h ⊢

theorem wrap_cons (cmd : Cmd) (op : Tok) (file : List Char) (rs : List (Tok × List Char)) :
    wrap cmd ((op, file) :: rs) = wrap (redirect (some op) cmd file) rs := rfl

theorem parseredirs_sound (cmd : Cmd) : wp (parseredirs fuel cmd)
    (fun t p' => ∃ ts rs, tokens p = ts ++ tokens p' ∧ Redirs ts rs ∧ t = wrap cmd rs)
    (Ends ((tokens p).length + 1) fuel) p := by
  induction fuel generalizing cmd p with
  | zero => exact Ends.of_lt (by omega)
  | succ fuel ih =>
    rw [parseredirs]
    cases hs : starts ['<', '>'] (tokens p) with
    | false => exact wp_peek_no rfl hs fun p₁ h₁ => ⟨[], [], h₁.symm, .nil, rfl⟩
    | true =>
      obtain ⟨op, hop, us, hts⟩ := starts_redir hs
      refine wp_peek_yes rfl hs fun p₁ h₁ => ?_
      refine wp_token (h₁.trans hts) fun p₂ h₂ => ?_
      rw [wp_bind]
      refine wp_gettokenp fun p₃ h₃ => ?_
      rw [h₂] at h₃ ⊢
      split
      · next file hfile =>
        obtain ⟨vs, rfl⟩ := List.head?_eq_some_iff.mp hfile
        refine (ih (redirect (some op) cmd file)).imp ?_ fun e he => he.mono ?_
        · rintro t p' ⟨ts, rs, ht, hrs, rfl⟩
          refine ⟨op :: .word file :: ts, (op, file) :: rs, ?_, .cons hop hrs, rfl⟩
          rw [hts, show vs = (Tok.word file :: vs).tail from rfl, ← h₃, ht]
          rfl
        · rw [h₃, hts]
          simp only [List.length_cons, List.tail_cons]
          omega
      · exact Ends.of_ne nofun

theorem redirect_arg (op : Tok) (cmd : Cmd) (file w : List Char) :
    (redirect (some op) cmd file).arg w = redirect (some op) (cmd.arg w) file := by
  cases op <;> rfl

theorem wrap_arg (cmd : Cmd) (rs : List (Tok × List Char)) (w : List Char) :
    (wrap cmd rs).arg w = wrap (cmd.arg w) rs := by
  induction rs generalizing cmd with
  | nil => rfl
  | cons r rs ih =>
    rw [wrap_cons, wrap_cons, ih, redirect_arg]

theorem wrap_append (cmd : Cmd) (rs rs' : List (Tok × List Char)) : wrap cmd (rs ++ rs') = wrap (wrap cmd rs) rs' :=
  List.foldl_append

theorem parseargs_sound {ws₀ : List (List Char)} {rs₀ : List (Tok × List Char)} (hws : ws₀.length < MAXARGS) :
    wp (parseargs fuel ws₀.length (wrap (.exec ws₀) rs₀))
      (fun t p' => ∃ ts ws rs, tokens p = ts ++ tokens p' ∧ Args ts ws rs ∧ (ws₀ ++ ws).length < MAXARGS ∧
        t = wrap (.exec (ws₀ ++ ws)) (rs₀ ++ rs))
      (Ends ((tokens p).length + 1) fuel) p := by
  induction fuel generalizing ws₀ rs₀ p with
  | zero => exact Ends.of_lt (by omega)
  | succ fuel ih =>
    rw [parseargs, wp_bind]
    refine wp_peekp rfl fun p₁ h₁ => ?_
    split
    · exact ⟨[], [], [], h₁.symm, .nil, by simpa using hws, by simp⟩
    rw [wp_bind]
    refine wp_gettokenp fun p₂ h₂ => ?_
    rw [h₁] at h₂ ⊢
    cases hts : tokens p with
    | nil =>
      rw [hts, List.tail_nil] at h₂
      exact ⟨[], [], [], by rw [h₂]; rfl, .nil, by simpa using hws, by simp⟩
    | cons tok us =>
      rw [hts, List.tail_cons] at h₂
      cases tok with
      | word w =>
        simp only [List.head?_cons]
        split
        · exact Ends.of_ne nofun
        · next hargc =>
          rw [wp_bind, wrap_arg]
          refine (parseredirs_sound _).imp ?_ fun e he => he.mono ?_
          · rintro t p₃ ⟨vs, rs, hvs, hrs, rfl⟩
            rw [← wrap_append]
            have hlen : (ws₀ ++ [w]).length = ws₀.length + 1 := by simp
            have hrest : wp (parseargs fuel (ws₀ ++ [w]).length (wrap (.exec (ws₀ ++ [w])) (rs₀ ++ rs))) _ _ p₃ :=
              ih (by omega)
            rw [hlen] at hrest
            refine hrest.imp ?_ fun e he => he.mono ?_
            · rintro t p' ⟨ts, ws, rs', hts', hargs, hle, rfl⟩
              refine ⟨.word w :: (vs ++ ts), w :: ws, rs ++ rs', ?_, .cons hrs hargs, ?_, ?_⟩
              · rw [← h₂, hvs, hts']
                simp
              · simpa using hle
              · simp
            · rw [← h₂, hvs]
              simp only [List.length_cons, List.length_append]
              omega
          · rw [h₂]
            simp only [List.length_cons]
            omega
      | _ => exact Ends.of_ne nofun

theorem parsebacks_sound (cmd : Cmd) : wp (parsebacks fuel cmd)
    (fun t p' => ∃ n, tokens p = List.replicate n .amp ++ tokens p' ∧ t = backs cmd n)
    (Ends ((tokens p).length + 1) fuel) p := by
  induction fuel generalizing cmd p with
  | zero => exact Ends.of_lt (by omega)
  | succ fuel ih =>
    rw [parsebacks]
    refine wp_symbol .amp rfl (by decide) (fun us hts p₁ h₁ => ?_) fun p₁ h₁ => ⟨0, h₁.symm, rfl⟩
    refine (ih (.back cmd)).imp ?_ fun e he => he.mono ?_
    · rintro t p' ⟨n, hn, rfl⟩
      exact ⟨n + 1, by rw [hts, ← h₁, hn]; rfl, rfl⟩
    · rw [h₁, hts, List.length_cons]
      omega

/-- The tokens from `p` to `p'` derive from the nonterminal. -/
def Nt.Spans (nt : Nt) (p : List Char) (t : Cmd) (p' : List Char) : Prop :=
  ∃ ts, tokens p = ts ++ tokens p' ∧ Derives nt ts t

/-- **Soundness**: what is parsed has a derivation with that tree; and with enough fuel parsing ends. -/
theorem parse_sound (fuel : ℕ) :
    (∀ p, wp (parseline fuel) (Nt.line.Spans p) (Ends (4 * (tokens p).length + 4) fuel) p) ∧
    (∀ p, wp (parsepipe fuel) (Nt.pipe.Spans p) (Ends (4 * (tokens p).length + 3) fuel) p) ∧
    (∀ p, wp (parseblock fuel) (Nt.exec.Spans p) (Ends (4 * (tokens p).length + 1) fuel) p) ∧
    ∀ p, wp (parseexec fuel) (Nt.exec.Spans p) (Ends (4 * (tokens p).length + 2) fuel) p := by
  induction fuel with
  | zero =>
    refine ⟨fun p => ?_, fun p => ?_, fun p => ?_, fun p => ?_⟩
    all_goals exact Ends.of_lt (by omega)
  | succ fuel ih =>
    obtain ⟨ihline, ihpipe, ihblock, ihexec⟩ := ih
    refine ⟨fun p => ?_, fun p => ?_, fun p => ?_, fun p => ?_⟩
    · rw [parseline, wp_bind]
      refine (ihpipe p).imp ?_ fun e he => he.mono (by omega)
      rintro c p₁ ⟨ts, h₁, hc⟩
      have hlen₁ := length_split h₁
      rw [wp_bind]
      refine (parsebacks_sound c).imp ?_ fun e he => he.mono (by omega)
      rintro t p₂ ⟨n, h₂, rfl⟩
      have hlen₂ := length_split h₂
      refine wp_symbol .semi rfl (by decide) (fun us hus p₃ h₃ => ?_) fun p₃ h₃ => ?_
      · rw [hus, List.length_cons] at hlen₂
        rw [wp_bind]
        refine (ihline p₃).imp ?_ fun e he => he.mono (by rw [h₃]; omega)
        rintro d p₄ ⟨vs, h₄, hd⟩
        refine ⟨ts ++ (List.replicate n .amp ++ .semi :: vs), ?_, .seq n hc hd⟩
        rw [h₁, h₂, hus, ← h₃, h₄]
        simp
      · exact ⟨ts ++ List.replicate n .amp, by rw [h₁, h₂, h₃, List.append_assoc], .line n hc⟩
    · rw [parsepipe, wp_bind]
      refine (ihexec p).imp ?_ fun e he => he.mono (by omega)
      rintro c p₁ ⟨ts, h₁, hc⟩
      have hlen₁ := length_split h₁
      refine wp_symbol .bar rfl (by decide) (fun us hus p₂ h₂ => ?_) fun p₂ h₂ => ?_
      · rw [hus, List.length_cons] at hlen₁
        rw [wp_bind]
        refine (ihpipe p₂).imp ?_ fun e he => he.mono (by rw [h₂]; omega)
        rintro d p₃ ⟨vs, h₃, hd⟩
        refine ⟨ts ++ .bar :: vs, ?_, .pipe hc hd⟩
        rw [h₁, hus, ← h₂, h₃]
        simp
      · exact ⟨ts, by rw [h₁, h₂], .one hc⟩
    · rw [parseblock]
      refine wp_symbol .lparen rfl (by decide) (fun us hus p₁ h₁ => ?_) fun _ _ => Ends.of_ne nofun
      rw [wp_bind]
      refine (ihline p₁).imp ?_ fun e he => he.mono (by rw [h₁, hus, List.length_cons]; omega)
      rintro c p₂ ⟨ts, h₂, hc⟩
      have hlen₂ := length_split h₂
      refine wp_symbol .rparen rfl (by decide) (fun vs hvs p₃ h₃ => ?_) fun _ _ => Ends.of_ne nofun
      rw [hvs, List.length_cons, h₁] at hlen₂
      refine (parseredirs_sound c).imp ?_ fun e he => he.mono ?_
      · rintro t p' ⟨rts, rs, h₄, hrs, rfl⟩
        refine ⟨.lparen :: (ts ++ .rparen :: rts), ?_, .block hc hrs⟩
        rw [hus, ← h₁, h₂, hvs, ← h₃, h₄]
        simp
      · rw [h₃, hus, List.length_cons]
        omega
    · rw [parseexec]
      cases hs : starts ['('] (tokens p) with
      | true =>
        refine wp_peek_yes rfl hs fun p₁ h₁ => ?_
        refine (ihblock p₁).imp ?_ fun e he => he.mono (by rw [h₁]; omega)
        rintro t p' ⟨ts, h₂, ht⟩
        exact ⟨ts, h₁ ▸ h₂, ht⟩
      | false =>
        refine wp_peek_no rfl hs fun p₁ h₁ => ?_
        rw [wp_bind]
        refine (parseredirs_sound (.exec [])).imp ?_ fun e he => he.mono (by rw [h₁]; omega)
        rintro t p₂ ⟨ts, rs, h₂, hrs, rfl⟩
        have hlen₂ := length_split h₂
        rw [h₁] at hlen₂
        have hargs : wp (parseargs fuel ([] : List (List Char)).length (wrap (.exec []) rs)) _ _ p₂ :=
          parseargs_sound (by decide)
        refine hargs.imp ?_ fun e he => he.mono (by omega)
        rintro t p' ⟨us, ws, rs', h₃, hargs, hlt, rfl⟩
        exact ⟨ts ++ us, by rw [← h₁, h₂, h₃, List.append_assoc], .exec hrs hargs hlt⟩

end Sound

/-! ## Completeness -/

section Complete

variable {p : List Char} {fuel : ℕ} {r : List Tok}

/-- What can come after what a nonterminal derives. -/
def Nt.follow : Nt → List Tok
  | .line => [.rparen]
  | .pipe => [.rparen, .amp, .semi]
  | .exec => [.rparen, .amp, .semi, .bar]

/-- The rest of the tokens can come after the nonterminal. -/
def Nt.Follow (nt : Nt) (r : List Tok) : Prop := ∀ tok ∈ r.head?, tok ∈ nt.follow

theorem parseredirs_complete {ts : List Tok} {rs : List (Tok × List Char)} (h : Redirs ts rs) (cmd : Cmd)
    (hp : tokens p = ts ++ r) (hr : starts ['<', '>'] r = false) (hfuel : (tokens p).length + 1 ≤ fuel) :
    wp (parseredirs fuel cmd) (fun t p' => t = wrap cmd rs ∧ tokens p' = r) (fun _ => False) p := by
  induction h generalizing cmd p fuel with
  | nil =>
    obtain ⟨fuel, rfl⟩ : ∃ n, fuel = n + 1 := ⟨fuel - 1, by omega⟩
    rw [parseredirs]
    exact wp_peek_no rfl (by rw [hp]; exact hr) fun p₁ h₁ => ⟨rfl, by rw [h₁, hp]; rfl⟩
  | @cons op file ts rs hop _ ih =>
    obtain ⟨fuel, rfl⟩ : ∃ n, fuel = n + 1 := ⟨fuel - 1, by omega⟩
    have hs : starts ['<', '>'] (tokens p) = true := by
      rw [hp]
      simp only [List.mem_cons, List.not_mem_nil, or_false] at hop
      rcases hop with rfl | rfl | rfl <;> rfl
    rw [parseredirs]
    refine wp_peek_yes rfl hs fun p₁ h₁ => ?_
    refine wp_token (h₁.trans hp) fun p₂ h₂ => ?_
    refine wp_token h₂ fun p₃ h₃ => ?_
    refine ih (redirect (some op) cmd file) h₃ ?_
    rw [h₃]
    rw [hp, List.cons_append, List.cons_append, List.length_cons, List.length_cons] at hfuel
    show (ts ++ r).length + 1 ≤ fuel
    omega

theorem parsebacks_complete {n : ℕ} (cmd : Cmd) (hp : tokens p = List.replicate n .amp ++ r)
    (hr : starts ['&'] r = false) (hfuel : (tokens p).length + 1 ≤ fuel) :
    wp (parsebacks fuel cmd) (fun t p' => t = backs cmd n ∧ tokens p' = r) (fun _ => False) p := by
  induction n generalizing cmd p fuel with
  | zero =>
    obtain ⟨fuel, rfl⟩ : ∃ n, fuel = n + 1 := ⟨fuel - 1, by omega⟩
    rw [parsebacks]
    exact wp_peek_no rfl (by rw [hp]; exact hr) fun p₁ h₁ => ⟨rfl, by rw [h₁, hp]; rfl⟩
  | succ n ih =>
    obtain ⟨fuel, rfl⟩ : ∃ n, fuel = n + 1 := ⟨fuel - 1, by omega⟩
    rw [List.replicate_succ, List.cons_append] at hp
    rw [parsebacks]
    refine wp_symbol_yes rfl hp fun p₁ h₁ => ih (.back cmd) h₁ ?_
    rw [h₁]
    rw [hp, List.length_cons] at hfuel
    omega

theorem Args.no_redir {ts : List Tok} {ws : List (List Char)} {rs : List (Tok × List Char)} (h : Args ts ws rs)
    (hr : Nt.exec.Follow r) : starts ['<', '>'] (ts ++ r) = false := by
  cases h with
  | nil =>
    cases r with
    | nil => rfl
    | cons tok r =>
      have := hr tok rfl
      simp only [Nt.follow, List.mem_cons, List.not_mem_nil, or_false] at this
      rcases this with rfl | rfl | rfl | rfl <;> rfl
  | cons => rfl

theorem parseargs_complete {ts : List Tok} {ws : List (List Char)} {rs : List (Tok × List Char)} (h : Args ts ws rs)
    {ws₀ : List (List Char)} {rs₀ : List (Tok × List Char)} (hp : tokens p = ts ++ r) (hr : Nt.exec.Follow r)
    (hlt : ws₀.length + ws.length < MAXARGS) (hfuel : (tokens p).length + 1 ≤ fuel) :
    wp (parseargs fuel ws₀.length (wrap (.exec ws₀) rs₀))
      (fun t p' => t = wrap (.exec (ws₀ ++ ws)) (rs₀ ++ rs) ∧ tokens p' = r) (fun _ => False) p := by
  induction h generalizing ws₀ rs₀ p fuel with
  | nil =>
    obtain ⟨fuel, rfl⟩ : ∃ n, fuel = n + 1 := ⟨fuel - 1, by omega⟩
    rw [parseargs]
    cases r with
    | nil =>
      refine wp_peek_no rfl (by rw [hp]; rfl) fun p₁ h₁ => ?_
      rw [wp_bind]
      refine wp_gettokenp fun p₂ h₂ => ?_
      rw [h₁, hp] at h₂ ⊢
      exact ⟨by simp, h₂⟩
    | cons tok r =>
      refine wp_peek_yes rfl ?_ fun p₁ h₁ => ⟨by simp, by rw [h₁, hp]; rfl⟩
      have := hr tok rfl
      simp only [Nt.follow, List.mem_cons, List.not_mem_nil, or_false] at this
      rw [hp]
      rcases this with rfl | rfl | rfl | rfl <;> rfl
  | @cons w ts us ws rs rs' hrs hargs ih =>
    obtain ⟨fuel, rfl⟩ : ∃ n, fuel = n + 1 := ⟨fuel - 1, by omega⟩
    rw [List.length_cons] at hlt
    rw [List.cons_append, List.append_assoc] at hp
    rw [hp] at hfuel
    simp only [List.length_cons, List.length_append] at hfuel
    rw [parseargs]
    refine wp_peek_no rfl (by rw [hp]; rfl) fun p₁ h₁ => ?_
    refine wp_token (h₁.trans hp) fun p₂ h₂ => ?_
    simp only
    rw [if_neg (by omega), wp_bind, wrap_arg]
    refine (parseredirs_complete hrs _ h₂ (hargs.no_redir hr) ?_).mono ?_
    · rw [h₂]
      simp only [List.length_append]
      omega
    · rintro t p₃ ⟨rfl, h₃⟩
      rw [← wrap_append]
      have hlen : (ws₀ ++ [w]).length = ws₀.length + 1 := by simp
      have hrest : wp (parseargs fuel (ws₀ ++ [w]).length (wrap (.exec (ws₀ ++ [w])) (rs₀ ++ rs))) _ _ p₃ :=
        ih h₃ (by omega) (by rw [h₃, List.length_append]; omega)
      rw [hlen] at hrest
      refine hrest.mono ?_
      rintro t p' ⟨rfl, hp'⟩
      exact ⟨by simp, hp'⟩

/-- The function for a nonterminal. -/
def Nt.parser : Nt → ℕ → Parser Cmd
  | .line => parseline
  | .pipe => parsepipe
  | .exec => parseexec

/-- The fuel that it needs for `n` tokens. -/
def Nt.need (n : ℕ) : Nt → ℕ
  | .line => 4 * n + 4
  | .pipe => 4 * n + 3
  | .exec => 4 * n + 2

theorem Nt.Follow.starts {nt : Nt} {c : Char} (hr : nt.Follow r)
    (hc : ∀ tok ∈ nt.follow, tok.char ≠ some c) : Shell.starts [c] r = false := by
  cases r with
  | nil => rfl
  | cons tok r =>
    have hne := hc tok (hr tok rfl)
    cases htok : tok.char with
    | none => simp [Shell.starts, htok]
    | some d =>
      have : ¬ d = c := fun e => hne (by rw [htok, e])
      simpa [Shell.starts, htok] using this

theorem Nt.Follow.mono {nt nt' : Nt} (hr : nt.Follow r) (h : ∀ tok ∈ nt.follow, tok ∈ nt'.follow) : nt'.Follow r :=
  fun tok htok => h tok (hr tok htok)

theorem Nt.Follow.cons {nt : Nt} {tok : Tok} (h : tok ∈ nt.follow) : nt.Follow (tok :: r) := by
  intro tok' htok
  obtain rfl := by simpa using htok
  exact h

theorem Nt.Follow.amps {n : ℕ} (hr : Nt.pipe.Follow r) : Nt.pipe.Follow (List.replicate n .amp ++ r) := by
  cases n with
  | zero => exact hr
  | succ n => exact .cons (by decide)

theorem Redirs.no_paren {ts us : List Tok} {ws : List (List Char)} {rs rs' : List (Tok × List Char)}
    (h : Redirs ts rs) (h' : Args us ws rs') (hr : Nt.exec.Follow r) : Shell.starts ['('] (ts ++ (us ++ r)) = false := by
  cases h with
  | nil =>
    cases h' with
    | nil => exact hr.starts (by decide)
    | cons => rfl
  | cons hop =>
    simp only [List.mem_cons, List.not_mem_nil, or_false] at hop
    rcases hop with rfl | rfl | rfl <;> rfl

/-- **Completeness**: what has a derivation is parsed, and the tree is that of the derivation. -/
theorem parse_complete {nt : Nt} {ts : List Tok} {t : Cmd} (h : Derives nt ts t) (hp : tokens p = ts ++ r)
    (hr : nt.Follow r) (hfuel : nt.need (tokens p).length ≤ fuel) :
    wp (nt.parser fuel) (fun t' p' => t' = t ∧ tokens p' = r) (fun _ => False) p := by
  induction h generalizing p r fuel with
  | @line ts c n _ ih =>
    simp only [Nt.need] at hfuel
    obtain ⟨fuel, rfl⟩ : ∃ n, fuel = n + 1 := ⟨fuel - 1, by omega⟩
    rw [List.append_assoc] at hp
    have hlen := length_split hp
    rw [Nt.parser, parseline, wp_bind]
    have hpipe : Nt.pipe.Follow r := hr.mono (by decide)
    refine (ih hp hpipe.amps (by simp only [Nt.need]; omega)).mono ?_
    rintro _ p₁ ⟨rfl, h₁⟩
    rw [wp_bind]
    refine (parsebacks_complete _ h₁ (hr.starts (by decide)) (by rw [h₁]; omega)).mono ?_
    rintro _ p₂ ⟨rfl, h₂⟩
    exact wp_peek_no rfl (h₂ ▸ hr.starts (by decide)) fun p₃ h₃ => ⟨rfl, h₃.trans h₂⟩
  | @seq ts us c d n _ _ ih ih' =>
    simp only [Nt.need] at hfuel
    obtain ⟨fuel, rfl⟩ : ∃ n, fuel = n + 1 := ⟨fuel - 1, by omega⟩
    have hp : tokens p = ts ++ (List.replicate n .amp ++ .semi :: (us ++ r)) := by simp [hp]
    have hlen := congrArg List.length hp
    simp only [List.length_append, List.length_cons, List.length_replicate] at hlen
    rw [Nt.parser, parseline, wp_bind]
    have hsemi : Nt.pipe.Follow (.semi :: (us ++ r)) := .cons (by decide)
    refine (ih hp hsemi.amps (by simp only [Nt.need]; omega)).mono ?_
    rintro _ p₁ ⟨rfl, h₁⟩
    rw [wp_bind]
    refine (parsebacks_complete _ h₁ rfl ?_).mono ?_
    · rw [h₁]
      simp only [List.length_append, List.length_cons, List.length_replicate]
      omega
    · rintro _ p₂ ⟨rfl, h₂⟩
      refine wp_symbol_yes rfl h₂ fun p₃ h₃ => ?_
      rw [wp_bind]
      refine (ih' h₃ hr ?_).mono ?_
      · rw [h₃, Nt.need, List.length_append]
        omega
      · rintro _ p₄ ⟨rfl, h₄⟩
        exact ⟨rfl, h₄⟩
  | @one ts c _ ih =>
    simp only [Nt.need] at hfuel
    obtain ⟨fuel, rfl⟩ : ∃ n, fuel = n + 1 := ⟨fuel - 1, by omega⟩
    rw [Nt.parser, parsepipe, wp_bind]
    refine (ih hp (hr.mono (by decide)) (by simp only [Nt.need]; omega)).mono ?_
    rintro _ p₁ ⟨rfl, h₁⟩
    exact wp_peek_no rfl (h₁ ▸ hr.starts (by decide)) fun p₂ h₂ => ⟨rfl, h₂.trans h₁⟩
  | @pipe ts us c d _ _ ih ih' =>
    simp only [Nt.need] at hfuel
    obtain ⟨fuel, rfl⟩ : ∃ n, fuel = n + 1 := ⟨fuel - 1, by omega⟩
    have hp : tokens p = ts ++ .bar :: (us ++ r) := by simp [hp]
    have hlen := congrArg List.length hp
    simp only [List.length_append, List.length_cons] at hlen
    rw [Nt.parser, parsepipe, wp_bind]
    refine (ih hp (.cons (by decide)) (by simp only [Nt.need]; omega)).mono ?_
    rintro _ p₁ ⟨rfl, h₁⟩
    refine wp_symbol_yes rfl h₁ fun p₂ h₂ => ?_
    rw [wp_bind]
    refine (ih' h₂ hr ?_).mono ?_
    · rw [h₂, Nt.need, List.length_append]
      omega
    · rintro _ p₃ ⟨rfl, h₃⟩
      exact ⟨rfl, h₃⟩
  | @block ts us c rs _ hrs ih =>
    simp only [Nt.need] at hfuel
    obtain ⟨fuel, rfl⟩ : ∃ n, fuel = n + 2 := ⟨fuel - 2, by omega⟩
    have hp : tokens p = .lparen :: (ts ++ .rparen :: (us ++ r)) := by simp [hp]
    have hlen := congrArg List.length hp
    simp only [List.length_append, List.length_cons] at hlen
    rw [Nt.parser, parseexec]
    refine wp_peek_yes rfl (by rw [hp]; rfl) fun p₁ h₁ => ?_
    rw [parseblock]
    refine wp_symbol_yes rfl (h₁.trans hp) fun p₂ h₂ => ?_
    rw [wp_bind]
    refine (ih h₂ (.cons (by decide)) ?_).mono ?_
    · rw [h₂, Nt.need]
      simp only [List.length_append, List.length_cons]
      omega
    · rintro _ p₃ ⟨rfl, h₃⟩
      refine wp_symbol_yes rfl h₃ fun p₄ h₄ => ?_
      refine parseredirs_complete hrs _ h₄ (Args.no_redir .nil hr) ?_
      rw [h₄, List.length_append]
      omega
  | @exec ts us ws rs rs' hrs hargs hlt =>
    simp only [Nt.need] at hfuel
    obtain ⟨fuel, rfl⟩ : ∃ n, fuel = n + 1 := ⟨fuel - 1, by omega⟩
    rw [List.append_assoc] at hp
    have hlen := length_split hp
    rw [Nt.parser, parseexec]
    refine wp_peek_no rfl (by rw [hp, hrs.no_paren hargs hr]) fun p₁ h₁ => ?_
    rw [wp_bind]
    refine (parseredirs_complete hrs _ (h₁.trans hp) (hargs.no_redir hr) (by rw [h₁]; omega)).mono ?_
    rintro _ p₂ ⟨rfl, h₂⟩
    have hgo : wp (parseargs fuel ([] : List (List Char)).length (wrap (.exec []) rs)) _ _ p₂ :=
      parseargs_complete hargs h₂ hr (by simpa using hlt) (by rw [h₂, List.length_append] at *; omega)
    exact hgo

end Complete

/-! ## `parsecmd` -/

theorem parsecmd_eq (s : List Char) : parsecmd s = match parseline (4 * s.length + 4) s with
    | .error e => .error e
    | .ok (t, p) => if tokens p = [] then .ok t else .error .leftovers := by
  unfold parsecmd
  cases h : parseline (4 * s.length + 4) s with
  | error e => simp [StateT.run, h, bind, Except.bind]
  | ok r =>
    obtain ⟨t, p⟩ := r
    have hpeek : peekp [] p = .ok ((peek p []).1, skipSpace p) := rfl
    simp only [StateT.run, h, bind, Except.bind, hpeek, tokens_eq_nil]
    by_cases hp : skipSpace p = []
    · simp [hp, pure, Except.pure]
    · simp [hp, throw, throwThe, MonadExceptOf.throw]

/-- **The shell parser accepts exactly its grammar**, and the tree that it returns is that of the derivation; on every
other line it stops with a panic. -/
theorem parsecmd_iff (s : List Char) :
    (∀ t, parsecmd s = .ok t ↔ Derives .line (tokens s) t) ∧ parsecmd s ≠ .error .outOfFuel := by
  have hlen := length_tokens s
  have hsound := (parse_sound (4 * s.length + 4)).1 s
  rw [parsecmd_eq]
  refine ⟨fun t => ⟨fun h => ?_, fun h => ?_⟩, fun h => ?_⟩
  · cases hr : parseline (4 * s.length + 4) s with
    | error e => simp [hr] at h
    | ok r =>
      obtain ⟨t', p⟩ := r
      obtain ⟨ts, hts, hd⟩ := hsound.ok hr
      simp only [hr] at h
      split at h
      · next hnil =>
        obtain rfl := Except.ok.inj h
        rw [hts, hnil, List.append_nil]
        exact hd
      · simp at h
  · have hneed : Nt.line.need (tokens s).length ≤ 4 * s.length + 4 := by
      simp only [Nt.need]
      omega
    have hgo := parse_complete (r := []) h (List.append_nil _).symm nofun hneed
    obtain ⟨t', p, hr, rfl, hp⟩ := hgo.returns
    have hr : parseline (4 * s.length + 4) s = .ok (t', p) := hr
    simp [hr, hp]
  · cases hr : parseline (4 * s.length + 4) s with
    | error e =>
      refine hsound.error hr (by omega) ?_
      simpa [hr] using h
    | ok r =>
      simp only [hr] at h
      split at h <;> simp at h

example : parsecmd "a<f b|(c;)&".toList =
    .ok (.back (.pipe (.redir (.exec [['a'], ['b']]) ['f'] 0 0) (.list (.exec [['c']]) (.exec [])))) := by
  decide +kernel

end Xv6.Shell
