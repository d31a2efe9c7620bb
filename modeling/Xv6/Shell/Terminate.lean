import Xv6.Lib.Simulate
import Xv6.Shell.Parse

/-!
# Command words in the buffer

The parser of `sh.c` once more, with the words as pairs of pointers `q`, `eq` into the buffer of the line, and
`nulterminate`, which writes a NUL at the `eq` of every word of the tree. The parser of `Shell.Parse` on the characters
of the line does the same (`parse_simulates`, `parsecmd_text`), so the words of a tree are words of the line: characters
that no word can have stop them.
-/

namespace Xv6.Shell

open Lib

abbrev Buf := ℕ → Char

abbrev NUL : Char := '\x00'

/-- A line and the NUL behind it. -/
def bufOf (str : List Char) : Buf := fun i => str.getD i NUL

/-- The pointers `q` and `eq` to the start and the end of a token. -/
structure Span where
  q : ℕ
  eq : ℕ
  deriving DecidableEq

/-- `struct cmd`, with the words in the buffer. -/
inductive Node
  | exec (argv : List Span)
  | redir (cmd : Node) (file : Span) (mode fd : ℕ)
  | pipe (left right : Node)
  | list (left right : Node)
  | back (cmd : Node)
  deriving DecidableEq

namespace Buf

/-! ## The parser with pointers -/

/-- `while(s < es && f(*s)) s++`, where `n` is `es - s`. -/
def skip (buf : Buf) (f : Char → Bool) : ℕ → ℕ → ℕ
  | 0, s => s
  | n + 1, s => if f (buf s) then skip buf f n (s + 1) else s

def skipSpace (buf : Buf) (es s : ℕ) : ℕ := buf.skip (fun c => whitespace.contains c) (es - s) s

/-- The `switch(*s)` of `gettoken`: `ret` and the end of the token at `s`. -/
def token (buf : Buf) (es s : ℕ) : Char × ℕ :=
  let c := buf s
  if c = NUL then (c, s)
  else if ['|', '(', ')', ';', '&', '<'].contains c then (c, s + 1)
  else if c = '>' then if buf (s + 1) = '>' then ('+', s + 2) else ('>', s + 1)
  else ('a', buf.skip inWord (es - s) s)

/-- `gettoken`: `ret` with `*q` and `*eq`, and the new `*ps`. -/
def gettoken (buf : Buf) (es s : ℕ) : (Char × Span) × ℕ :=
  let q := buf.skipSpace es s
  let (ret, eq) := buf.token es q
  ((ret, ⟨q, eq⟩), buf.skipSpace es eq)

def peek (buf : Buf) (es s : ℕ) (toks : List Char) : Bool × ℕ :=
  let s := buf.skipSpace es s
  (buf s ≠ NUL && toks.contains (buf s), s)

/-- A function of the parser, with `*ps` as its state. -/
abbrev Parser := StateT ℕ (Except Err)

def peekp (buf : Buf) (es : ℕ) (toks : List Char) : Parser Bool := do
  let s ← get
  set (buf.peek es s toks).2
  return (buf.peek es s toks).1

def gettokenp (buf : Buf) (es : ℕ) : Parser (Char × Span) := do
  let s ← get
  set (buf.gettoken es s).2
  return (buf.gettoken es s).1

/-- `cmd->argv[argc] = q; cmd->eargv[argc] = eq`, below the redirections. -/
def arg (w : Span) : Node → Node
  | .exec argv => .exec (argv ++ [w])
  | .redir cmd file mode fd => .redir (arg w cmd) file mode fd
  | cmd => cmd

/-- The `switch(tok)` of `parseredirs`. -/
def redirect (tok : Char) (cmd : Node) (file : Span) : Node :=
  if tok = '<' then .redir cmd file O_RDONLY 0
  else if tok = '>' then .redir cmd file (O_WRONLY ||| O_CREATE) 1
  else if tok = '+' then .redir cmd file (O_WRONLY ||| O_CREATE) 1
  else cmd

def parseredirs (buf : Buf) (es : ℕ) : ℕ → Node → Parser Node
  | 0, _ => throw .outOfFuel
  | fuel + 1, cmd => do
    if ← buf.peekp es ['<', '>'] then
      let tok ← buf.gettokenp es
      let file ← buf.gettokenp es
      if file.1 ≠ 'a' then throw .missingFile
      else parseredirs buf es fuel (redirect tok.1 cmd file.2)
    else return cmd

def parseargs (buf : Buf) (es : ℕ) : ℕ → ℕ → Node → Parser Node
  | 0, _, _ => throw .outOfFuel
  | fuel + 1, argc, ret => do
    if ← buf.peekp es ['|', ')', '&', ';'] then return ret
    else
      let tok ← buf.gettokenp es
      if tok.1 = NUL then return ret
      else if tok.1 ≠ 'a' then throw .badToken
      else if argc + 1 ≥ MAXARGS then throw .tooManyArgs
      else
        let ret ← buf.parseredirs es fuel (arg tok.2 ret)
        parseargs buf es fuel (argc + 1) ret

def parsebacks (buf : Buf) (es : ℕ) : ℕ → Node → Parser Node
  | 0, _ => throw .outOfFuel
  | fuel + 1, cmd => do
    if ← buf.peekp es ['&'] then
      let _ ← buf.gettokenp es
      parsebacks buf es fuel (.back cmd)
    else return cmd

mutual

def parseline (buf : Buf) (es : ℕ) : ℕ → Parser Node
  | 0 => throw .outOfFuel
  | fuel + 1 => do
    let cmd ← parsepipe buf es fuel
    let cmd ← buf.parsebacks es fuel cmd
    if ← buf.peekp es [';'] then
      let _ ← buf.gettokenp es
      let right ← parseline buf es fuel
      return .list cmd right
    else return cmd

def parsepipe (buf : Buf) (es : ℕ) : ℕ → Parser Node
  | 0 => throw .outOfFuel
  | fuel + 1 => do
    let cmd ← parseexec buf es fuel
    if ← buf.peekp es ['|'] then
      let _ ← buf.gettokenp es
      let right ← parsepipe buf es fuel
      return .pipe cmd right
    else return cmd

def parseblock (buf : Buf) (es : ℕ) : ℕ → Parser Node
  | 0 => throw .outOfFuel
  | fuel + 1 => do
    if ← buf.peekp es ['('] then
      let _ ← buf.gettokenp es
      let cmd ← parseline buf es fuel
      if ← buf.peekp es [')'] then
        let _ ← buf.gettokenp es
        buf.parseredirs es fuel cmd
      else throw .missingParen
    else throw .parseblock

def parseexec (buf : Buf) (es : ℕ) : ℕ → Parser Node
  | 0 => throw .outOfFuel
  | fuel + 1 => do
    if ← buf.peekp es ['('] then parseblock buf es fuel
    else
      let ret ← buf.parseredirs es fuel (.exec [])
      buf.parseargs es fuel 0 ret

end

/-- `nulterminate`: what it makes of the buffer. -/
def nulterminate (buf : Buf) : Node → Buf
  | .exec argv => argv.foldl (fun buf w => Function.update buf w.eq NUL) buf
  | .redir cmd file _ _ => Function.update (nulterminate buf cmd) file.eq NUL
  | .pipe left right => nulterminate (nulterminate buf left) right
  | .list left right => nulterminate (nulterminate buf left) right
  | .back cmd => nulterminate buf cmd

/-- `parsecmd` on the buffer of a line of `es` characters: the tree and the buffer. -/
def parsecmd (buf : Buf) (es : ℕ) : Except Err (Node × Buf) := do
  let (cmd, s) ← (buf.parseline es (4 * es + 4)).run 0
  let (_, s) ← (buf.peekp es []).run s
  if s ≠ es then throw .leftovers
  return (cmd, buf.nulterminate cmd)

end Buf

/-! ## Words of the line -/

/-- The characters from `q` to `eq`. -/
def Span.text (str : List Char) (w : Span) : List Char := (str.drop w.q).take (w.eq - w.q)

/-- A word of the line: word characters up to one that cannot be in a word, or up to the end. -/
structure Span.IsWord (str : List Char) (w : Span) : Prop where
  ordered : w.q ≤ w.eq
  le : w.eq ≤ str.length
  letters : ∀ c ∈ w.text str, inWord c = true
  stop : ∀ c, str[w.eq]? = some c → inWord c = false

def Node.words : Node → List Span
  | .exec argv => argv
  | .redir cmd file _ _ => cmd.words ++ [file]
  | .pipe left right => left.words ++ right.words
  | .list left right => left.words ++ right.words
  | .back cmd => cmd.words

def Node.text (str : List Char) : Node → Cmd
  | .exec argv => .exec (argv.map (·.text str))
  | .redir cmd file mode fd => .redir (cmd.text str) (file.text str) mode fd
  | .pipe left right => .pipe (left.text str) (right.text str)
  | .list left right => .list (left.text str) (right.text str)
  | .back cmd => .back (cmd.text str)

variable {str : List Char} {s n : ℕ}

/-- The pointer `s` is what `Shell.Parse` takes for the rest of the line. -/
def At (str : List Char) (s : ℕ) (p : List Char) : Prop := s ≤ str.length ∧ str.drop s = p

theorem at_cons {c : Char} {rest : List Char} (h : At str s (c :: rest)) :
    s < str.length ∧ bufOf str s = c ∧ c ∈ str ∧ At str (s + 1) rest := by
  obtain ⟨hle, hdrop⟩ := h
  have hlt : s < str.length := by
    rcases Nat.lt_or_eq_of_le hle with hlt | rfl
    · exact hlt
    · rw [List.drop_length] at hdrop
      cases hdrop
  rw [List.drop_eq_getElem_cons hlt, List.cons.injEq] at hdrop
  obtain ⟨rfl, rfl⟩ := hdrop
  exact ⟨hlt, by simp [bufOf, hlt], List.getElem_mem hlt, hlt, rfl⟩

theorem at_nil (h : At str s []) : s = str.length ∧ bufOf str s = NUL := by
  obtain ⟨hle, hdrop⟩ := h
  have hge : str.length ≤ s := List.drop_eq_nil_iff.mp hdrop
  exact ⟨hle.antisymm hge, by simp [bufOf, hge]⟩

theorem at_end {p : List Char} (h : At str s p) : s = str.length ↔ p = [] := by
  rw [← h.2, List.drop_eq_nil_iff]
  have hle := h.1
  omega

theorem skip_spec (f : Char → Bool) {p : List Char} (h : At str s p) (hn : n = str.length - s) :
    At str ((bufOf str).skip f n s) (p.dropWhile f) ∧ s ≤ (bufOf str).skip f n s ∧
      p.take ((bufOf str).skip f n s - s) = p.takeWhile f := by
  induction n generalizing s p with
  | zero =>
    have hnil : p = [] := by
      rw [← h.2, List.drop_eq_nil_iff]
      omega
    subst hnil
    exact ⟨h, le_rfl, by simp⟩
  | succ n ih =>
    cases p with
    | nil =>
      have := (at_nil h).1
      omega
    | cons c rest =>
      obtain ⟨hlt, hc, -, hrest⟩ := at_cons h
      rw [Buf.skip, hc]
      by_cases hf : f c = true
      · rw [if_pos hf, List.dropWhile_cons_of_pos hf, List.takeWhile_cons_of_pos hf]
        obtain ⟨hat, hle, htake⟩ := ih hrest (by omega)
        refine ⟨hat, by omega, ?_⟩
        have hsub : Buf.skip (bufOf str) f n (s + 1) - s = Buf.skip (bufOf str) f n (s + 1) - (s + 1) + 1 := by omega
        rw [hsub, List.take_succ_cons, htake]
      · rw [if_neg hf, List.dropWhile_cons_of_neg hf, List.takeWhile_cons_of_neg hf]
        exact ⟨h, le_rfl, by simp⟩

theorem skipSpace_at {p : List Char} (h : At str s p) :
    At str ((bufOf str).skipSpace str.length s) (skipSpace p) := (skip_spec _ h rfl).1

/-! ## Simulation -/

def Tok.code : Tok → Char
  | .bar => '|'
  | .lparen => '('
  | .rparen => ')'
  | .semi => ';'
  | .amp => '&'
  | .lt => '<'
  | .gt => '>'
  | .append => '+'
  | .word _ => 'a'

/-- What `gettoken` returns is the token; if it is a word, `q` and `eq` are its ends. -/
inductive Reads (str : List Char) : Char × Span → Option Tok → Prop
  | done {w : Span} : Reads str (NUL, w) none
  | symbol {tok : Tok} {w : Span} : (∀ text, tok ≠ .word text) → Reads str (tok.code, w) (some tok)
  | word {w : Span} : w.IsWord str → Reads str ('a', w) (some (.word (w.text str)))

theorem single_code {c : Char} {tok : Tok} (h : single c = some tok) : tok.code = c ∧ ∀ text, tok ≠ .word text := by
  unfold single at h
  split_ifs at h with h1 h2 h3 h4 h5 h6 <;> obtain rfl := Option.some.inj h
  · exact ⟨h1.symm, fun _ => nofun⟩
  · exact ⟨h2.symm, fun _ => nofun⟩
  · exact ⟨h3.symm, fun _ => nofun⟩
  · exact ⟨h4.symm, fun _ => nofun⟩
  · exact ⟨h5.symm, fun _ => nofun⟩
  · exact ⟨h6.symm, fun _ => nofun⟩

theorem single_isSome (c : Char) : ['|', '(', ')', ';', '&', '<'].contains c = (single c).isSome := by
  unfold single
  split_ifs with h1 h2 h3 h4 h5 h6 <;> simp_all

theorem isWord_skip {c : Char} {rest : List Char} (h : At str s (c :: rest)) :
    Span.IsWord str ⟨s, (bufOf str).skip inWord (str.length - s) s⟩ ∧
      Span.text str ⟨s, (bufOf str).skip inWord (str.length - s) s⟩ = (c :: rest).takeWhile inWord := by
  obtain ⟨hat, hle, htake⟩ := skip_spec inWord h rfl
  have htext : Span.text str ⟨s, (bufOf str).skip inWord (str.length - s) s⟩ = (c :: rest).takeWhile inWord := by
    rw [Span.text, h.2]
    exact htake
  refine ⟨⟨hle, hat.1, fun d hd => ?_, fun d hd => ?_⟩, htext⟩
  · rw [htext] at hd
    exact List.mem_takeWhile_imp hd
  · have hhead := List.head?_dropWhile_not inWord (c :: rest)
    rw [← hat.2, List.head?_drop, hd] at hhead
    simpa using hhead

theorem gettoken_reads (hstr : NUL ∉ str) {p : List Char} (h : At str s p) :
    Reads str ((bufOf str).gettoken str.length s).1 (gettoken p).1 ∧
      At str ((bufOf str).gettoken str.length s).2 (gettoken p).2 := by
  have hq := skipSpace_at h
  rw [Buf.gettoken, gettoken]
  generalize (bufOf str).skipSpace str.length s = q at hq
  cases hp : skipSpace p with
  | nil =>
    rw [hp] at hq
    have htoken : (bufOf str).token str.length q = (NUL, q) := by
      rw [Buf.token, (at_nil hq).2, if_pos rfl]
    rw [htoken]
    exact ⟨.done, skipSpace_at hq⟩
  | cons c rest =>
    rw [hp] at hq
    obtain ⟨hlt, hc, hmem, hrest⟩ := at_cons hq
    have hnul : c ≠ NUL := fun he => hstr (he ▸ hmem)
    have htoken : (bufOf str).token str.length q =
        if (single c).isSome then (c, q + 1)
        else if c = '>' then if bufOf str (q + 1) = '>' then ('+', q + 2) else ('>', q + 1)
        else ('a', (bufOf str).skip inWord (str.length - q) q) := by
      rw [Buf.token, hc, if_neg hnul, single_isSome]
    rw [htoken]
    cases hs : single c with
    | some tok =>
      simp only [hs, Option.isSome_some, if_true]
      obtain ⟨rfl, hword⟩ := single_code hs
      exact ⟨.symbol hword, skipSpace_at hrest⟩
    | none =>
      simp only [hs, Option.isSome_none, Bool.false_eq_true, if_false]
      by_cases hgt : c = '>'
      · simp only [if_pos hgt]
        cases rest with
        | nil =>
          have hnext : bufOf str (q + 1) ≠ '>' := by
            rw [(at_nil hrest).2]
            decide
          rw [if_neg hnext]
          exact ⟨@Reads.symbol str .gt _ nofun, skipSpace_at hrest⟩
        | cons d rest =>
          obtain ⟨-, hd, -, hrest'⟩ := at_cons hrest
          simp only [hd, List.head?_cons, Option.some.injEq, List.tail_cons]
          by_cases happ : d = '>'
          · rw [if_pos happ, if_pos happ]
            exact ⟨@Reads.symbol str .append _ nofun, skipSpace_at hrest'⟩
          · rw [if_neg happ, if_neg happ]
            exact ⟨@Reads.symbol str .gt _ nofun, skipSpace_at hrest⟩
      · simp only [if_neg hgt]
        obtain ⟨hword, htext⟩ := isWord_skip hq
        rw [← htext]
        exact ⟨.word hword, skipSpace_at (skip_spec inWord hq rfl).1⟩

theorem peek_at (hstr : NUL ∉ str) {p : List Char} (h : At str s p) (toks : List Char) :
    ((bufOf str).peek str.length s toks).1 = (peek p toks).1 ∧
      At str ((bufOf str).peek str.length s toks).2 (peek p toks).2 := by
  have hq := skipSpace_at h
  refine ⟨?_, hq⟩
  rw [Buf.peek, peek]
  generalize (bufOf str).skipSpace str.length s = q at hq
  cases hp : skipSpace p with
  | nil =>
    rw [hp] at hq
    simp [(at_nil hq).2]
  | cons c rest =>
    rw [hp] at hq
    obtain ⟨-, hc, hmem, -⟩ := at_cons hq
    have hnul : c ≠ NUL := fun he => hstr (he ▸ hmem)
    simp [hc, hnul]

variable (hstr : NUL ∉ str)
include hstr

theorem peekp_simulates (toks : List Char) :
    Simulates (At str) Eq ((bufOf str).peekp str.length toks) (peekp toks) := by
  intro s p h
  obtain ⟨hres, hat⟩ := peek_at hstr h toks
  exact ⟨_, _, rfl, hat, hres⟩

theorem gettokenp_simulates :
    Simulates (At str) (Reads str) ((bufOf str).gettokenp str.length) gettokenp := by
  intro s p h
  obtain ⟨hres, hat⟩ := gettoken_reads hstr h
  exact ⟨_, _, rfl, hat, hres⟩

omit hstr

/-- The tree has the texts of the command, and its words are words of the line. -/
def Node.Says (str : List Char) (node : Node) (cmd : Cmd) : Prop :=
  node.text str = cmd ∧ ∀ w ∈ node.words, w.IsWord str

theorem says_arg {node : Node} {cmd : Cmd} {w : Span} (h : node.Says str cmd) (hw : w.IsWord str) :
    (Buf.arg w node).Says str (cmd.arg (w.text str)) := by
  obtain ⟨rfl, hwords⟩ := h
  induction node with
  | exec argv =>
    refine ⟨by simp [Buf.arg, Node.text, Cmd.arg], fun v hv => ?_⟩
    rcases List.mem_append.mp hv with hv | hv
    · exact hwords v hv
    · exact List.mem_singleton.mp hv ▸ hw
  | redir cmd file mode fd ih =>
    obtain ⟨htext, hall⟩ := ih fun v hv => hwords v (List.mem_append_left _ hv)
    refine ⟨by rw [Buf.arg, Node.text, htext, Node.text, Cmd.arg], fun v hv => ?_⟩
    rcases List.mem_append.mp hv with hv | hv
    · exact hall v hv
    · exact hwords v (List.mem_append_right _ hv)
  | pipe | list | back => exact ⟨rfl, hwords⟩

theorem says_redir {node : Node} {cmd : Cmd} {w : Span} (h : node.Says str cmd) (hw : w.IsWord str) (mode fd : ℕ) :
    (Node.redir node w mode fd).Says str (.redir cmd (w.text str) mode fd) := by
  obtain ⟨rfl, hwords⟩ := h
  refine ⟨rfl, fun v hv => ?_⟩
  rcases List.mem_append.mp hv with hv | hv
  · exact hwords v hv
  · exact List.mem_singleton.mp hv ▸ hw

theorem says_redirect {node : Node} {cmd : Cmd} {w : Span} {tok : Char × Span} {tok' : Option Tok}
    (h : node.Says str cmd) (hw : w.IsWord str) (htok : Reads str tok tok') :
    (Buf.redirect tok.1 node w).Says str (redirect tok' cmd (w.text str)) := by
  cases htok with
  | done => exact h
  | @symbol tok v hword =>
    cases tok with
    | lt | gt | append => exact says_redir h hw _ _
    | bar | lparen | rparen | semi | amp => exact h
    | word text => exact absurd rfl (hword text)
  | word => exact h

theorem says_pair {l r : Node} {c d : Cmd} (hl : l.Says str c) (hr : r.Says str d) :
    (Node.pipe l r).Says str (.pipe c d) ∧ (Node.list l r).Says str (.list c d) := by
  obtain ⟨rfl, hl⟩ := hl
  obtain ⟨rfl, hr⟩ := hr
  have hall : ∀ w ∈ l.words ++ r.words, w.IsWord str := by
    intro w hw
    rcases List.mem_append.mp hw with hw | hw
    · exact hl w hw
    · exact hr w hw
  exact ⟨⟨rfl, hall⟩, rfl, hall⟩

include hstr

theorem parseredirs_simulates (fuel : ℕ) {node : Node} {cmd : Cmd} (h : node.Says str cmd) :
    Simulates (At str) (Node.Says str) ((bufOf str).parseredirs str.length fuel node) (parseredirs fuel cmd) := by
  induction fuel generalizing node cmd with
  | zero => exact .throw
  | succ fuel ih =>
    rw [Buf.parseredirs, parseredirs]
    refine .test (peekp_simulates hstr _) ?_ (.pure h)
    refine .bind (gettokenp_simulates hstr) fun tok tok' htok => ?_
    refine .bind (gettokenp_simulates hstr) fun file file' hfile => ?_
    cases hfile with
    | done => exact .throw
    | @symbol tok v hword => cases tok <;> first | exact .throw | exact absurd rfl (hword _)
    | word hw => exact ih (says_redirect h hw htok)

theorem parseargs_simulates (fuel argc : ℕ) {node : Node} {cmd : Cmd} (h : node.Says str cmd) :
    Simulates (At str) (Node.Says str) ((bufOf str).parseargs str.length fuel argc node)
      (parseargs fuel argc cmd) := by
  induction fuel generalizing argc node cmd with
  | zero => exact .throw
  | succ fuel ih =>
    rw [Buf.parseargs, parseargs]
    refine .test (peekp_simulates hstr _) (.pure h) ?_
    refine .bind (gettokenp_simulates hstr) fun tok tok' htok => ?_
    cases htok with
    | done => exact .pure h
    | @symbol tok v hword => cases tok <;> first | exact .throw | exact absurd rfl (hword _)
    | word hw =>
      have hnul : 'a' ≠ NUL := by decide
      rw [if_neg hnul, if_neg (not_not_intro rfl)]
      refine .ite (fun _ => .throw) fun _ => ?_
      exact .bind (parseredirs_simulates hstr fuel (says_arg h hw)) fun _ _ hret => ih (argc + 1) hret

theorem parsebacks_simulates (fuel : ℕ) {node : Node} {cmd : Cmd} (h : node.Says str cmd) :
    Simulates (At str) (Node.Says str) ((bufOf str).parsebacks str.length fuel node) (parsebacks fuel cmd) := by
  induction fuel generalizing node cmd with
  | zero => exact .throw
  | succ fuel ih =>
    rw [Buf.parsebacks, parsebacks]
    refine .test (peekp_simulates hstr _) ?_ (.pure h)
    refine .bind (gettokenp_simulates hstr) fun _ _ _ => ih ⟨?_, h.2⟩
    rw [Node.text, h.1]

/-- **The parser with pointers** does what the parser of `Shell.Parse` does. -/
theorem parse_simulates (fuel : ℕ) :
    Simulates (At str) (Node.Says str) ((bufOf str).parseline str.length fuel) (parseline fuel) ∧
    Simulates (At str) (Node.Says str) ((bufOf str).parsepipe str.length fuel) (parsepipe fuel) ∧
    Simulates (At str) (Node.Says str) ((bufOf str).parseblock str.length fuel) (parseblock fuel) ∧
    Simulates (At str) (Node.Says str) ((bufOf str).parseexec str.length fuel) (parseexec fuel) := by
  induction fuel with
  | zero => exact ⟨.throw, .throw, .throw, .throw⟩
  | succ fuel ih =>
    obtain ⟨ihstr, ihpipe, ihblock, ihexec⟩ := ih
    refine ⟨?_, ?_, ?_, ?_⟩
    · rw [Buf.parseline, parseline]
      refine .bind ihpipe fun left left' hleft => ?_
      refine .bind (parsebacks_simulates hstr fuel hleft) fun left left' hleft => ?_
      refine .test (peekp_simulates hstr _) ?_ (.pure hleft)
      refine .bind (gettokenp_simulates hstr) fun _ _ _ => ?_
      exact .bind ihstr fun right right' hright => .pure (says_pair hleft hright).2
    · rw [Buf.parsepipe, parsepipe]
      refine .bind ihexec fun left left' hleft => ?_
      refine .test (peekp_simulates hstr _) ?_ (.pure hleft)
      refine .bind (gettokenp_simulates hstr) fun _ _ _ => ?_
      exact .bind ihpipe fun right right' hright => .pure (says_pair hleft hright).1
    · rw [Buf.parseblock, parseblock]
      refine .test (peekp_simulates hstr _) ?_ .throw
      refine .bind (gettokenp_simulates hstr) fun _ _ _ => ?_
      refine .bind ihstr fun cmd cmd' hcmd => ?_
      refine .test (peekp_simulates hstr _) ?_ .throw
      exact .bind (gettokenp_simulates hstr) fun _ _ _ => parseredirs_simulates hstr fuel hcmd
    · rw [Buf.parseexec, parseexec]
      refine .test (peekp_simulates hstr _) ihblock ?_
      have hempty : Node.Says str (.exec []) (.exec []) := ⟨rfl, fun _ hw => absurd hw List.not_mem_nil⟩
      exact .bind (parseredirs_simulates hstr fuel hempty) fun _ _ hret => parseargs_simulates hstr fuel 0 hret

/-- **`parsecmd` with pointers**: the same trees, the same panics, and all words are words of the line. -/
theorem parsecmd_text :
    ((bufOf str).parsecmd str.length).map (fun r => r.1.text str) = parsecmd str ∧
      ∀ node buf, (bufOf str).parsecmd str.length = .ok (node, buf) →
        buf = (bufOf str).nulterminate node ∧ ∀ w ∈ node.words, w.IsWord str := by
  have hparse := (parse_simulates hstr (4 * str.length + 4)).1 0 str ⟨Nat.zero_le _, List.drop_zero⟩
  unfold Buf.parsecmd parsecmd
  simp only [StateT.run]
  cases hm : (bufOf str).parseline str.length (4 * str.length + 4) 0 with
  | error e =>
    rw [show parseline (4 * str.length + 4) str = .error e from hparse.error hm]
    exact ⟨rfl, nofun⟩
  | ok r =>
    obtain ⟨node, s⟩ := r
    obtain ⟨cmd, p, hm', hat, rfl, hwords⟩ := hparse.ok hm
    rw [hm']
    have hpeek : (bufOf str).peekp str.length [] s = .ok (_, (bufOf str).skipSpace str.length s) := rfl
    have hpeek' : peekp [] p = .ok (_, skipSpace p) := rfl
    have hend := at_end (skipSpace_at hat)
    simp only [bind, Except.bind, hpeek, hpeek']
    by_cases hp : skipSpace p = []
    · rw [if_neg (not_not_intro (hend.mpr hp)), if_neg (not_not_intro hp)]
      refine ⟨rfl, fun _ _ hr => ?_⟩
      cases hr
      exact ⟨rfl, hwords⟩
    · rw [if_pos (mt hend.mp hp), if_pos hp]
      exact ⟨rfl, nofun⟩

omit hstr

/-! ## `nulterminate` -/

theorem foldl_update (argv : List Span) (buf : Buf) (i : ℕ) :
    argv.foldl (fun buf w => Function.update buf w.eq NUL) buf i = if ∃ w ∈ argv, w.eq = i then NUL else buf i := by
  induction argv generalizing buf with
  | nil => simp
  | cons w argv ih =>
    rw [List.foldl_cons, ih]
    by_cases hw : w.eq = i
    · subst hw
      simp
    · rw [Function.update_of_ne (Ne.symm hw)]
      simp [hw]

/-- **`nulterminate`** writes a NUL at the end of every word, and nothing else. -/
theorem nulterminate_eq (node : Node) (buf : Buf) (i : ℕ) :
    buf.nulterminate node i = if ∃ w ∈ node.words, w.eq = i then NUL else buf i := by
  induction node generalizing buf with
  | exec argv => exact foldl_update argv buf i
  | redir cmd file mode fd ih =>
    rw [Buf.nulterminate]
    by_cases hw : file.eq = i
    · subst hw
      simp [Node.words]
    · rw [Function.update_of_ne (Ne.symm hw), ih]
      simp [Node.words, hw]
  | pipe left right ihl ihr | list left right ihl ihr =>
    rw [Buf.nulterminate, ihr, ihl]
    simp only [Node.words, List.mem_append, or_and_right, exists_or]
    by_cases hr : ∃ w ∈ right.words, w.eq = i
    · rw [if_pos hr, if_pos (.inr hr)]
    · rw [if_neg hr]
      simp only [hr, or_false]
  | back cmd ih => exact ih buf

/-- A C string at the address `a` of the buffer. -/
def Spells (buf : Buf) (a : ℕ) (text : List Char) : Prop :=
  (∀ i c, text[i]? = some c → c ≠ NUL ∧ buf (a + i) = c) ∧ buf (a + text.length) = NUL

theorem letter_kept {node : Node} (hwords : ∀ w ∈ node.words, w.IsWord str) {i : ℕ} {c : Char}
    (hc : str[i]? = some c) (hin : inWord c = true) : (bufOf str).nulterminate node i = c := by
  have hnot : ¬ ∃ w ∈ node.words, w.eq = i := by
    rintro ⟨w, hw, rfl⟩
    rw [(hwords w hw).stop c hc] at hin
    cases hin
  rw [nulterminate_eq, if_neg hnot, bufOf, List.getD_eq_getElem?_getD, hc]
  rfl

theorem text_getElem {w : Span} {i : ℕ} {c : Char} (h : (w.text str)[i]? = some c) : str[w.q + i]? = some c := by
  rw [Span.text, List.getElem?_take] at h
  split at h
  · rwa [List.getElem?_drop] at h
  · cases h

/-- **Command words survive**: on every line that `parsecmd` accepts, the words of the tree are those of the tokens,
each one is a C string in the buffer afterwards, and no character of a word of the line has changed. -/
theorem words_survive (hstr : NUL ∉ str) {cmd : Node} {buf : Buf}
    (h : (bufOf str).parsecmd str.length = .ok (cmd, buf)) :
    parsecmd str = .ok (cmd.text str) ∧ (∀ w ∈ cmd.words, Spells buf w.q (w.text str)) ∧
      ∀ i c, str[i]? = some c → inWord c = true → buf i = c := by
  obtain ⟨htree, hall⟩ := parsecmd_text hstr
  obtain ⟨rfl, hwords⟩ := hall _ _ h
  rw [h] at htree
  refine ⟨htree.symm, fun w hw => ⟨fun i c hc => ?_, ?_⟩, fun i c => letter_kept hwords⟩
  · have hat := text_getElem hc
    have hletter := (hwords w hw).letters c (List.mem_of_getElem? hc)
    exact ⟨fun he => hstr (he ▸ List.mem_of_getElem? hat), letter_kept hwords hat hletter⟩
  · have hlen : w.q + (w.text str).length = w.eq := by
      have hle := (hwords w hw).le
      have hord := (hwords w hw).ordered
      rw [Span.text, List.length_take, List.length_drop]
      omega
    rw [hlen, nulterminate_eq, if_pos ⟨w, hw, rfl⟩]

/-- `a>f|b`: the words end at the operators. -/
theorem words_survive_operators :
    ∃ buf, (bufOf "a>f|b".toList).parsecmd 5 =
        .ok (.pipe (.redir (.exec [⟨0, 1⟩]) ⟨2, 3⟩ (O_WRONLY ||| O_CREATE) 1) (.exec [⟨4, 5⟩]), buf) ∧
      Spells buf 0 ['a'] ∧ Spells buf 2 ['f'] ∧ Spells buf 4 ['b'] := by
  refine ⟨_, rfl, ?_⟩
  have hsurvive := (words_survive (by decide : NUL ∉ "a>f|b".toList) rfl).2.1
  exact ⟨hsurvive ⟨0, 1⟩ (by decide), hsurvive ⟨2, 3⟩ (by decide), hsurvive ⟨4, 5⟩ (by decide)⟩

end Xv6.Shell
