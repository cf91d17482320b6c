import AroundTheWorld.Lex.Token

/-!
# Words of a shell command

Token recognition of the POSIX shell on the text of one command, as a fold over
its bytes: quotes, words, operators, comments. A byte of a word carries whether
quoting protects it from the expansions that come later. What a command runs is
read off the tokens: its simple commands, with their words and redirections.
Reserved words, IO numbers and expansions are not modelled.
-/

namespace AroundTheWorld.Shell

open AroundTheWorld.Lex

inductive Quoting where
  | none
  | escape
  | single
  | double
  | doubleEscape
  deriving DecidableEq, Repr

/-- A byte of a word. A quoted one stands for itself: no expansion, no pattern,
no field splitting. -/
structure Piece where
  byte : Byte
  quoted : Bool
  deriving DecidableEq, Repr

abbrev Word := List Piece

/-- A word of which every byte stands for itself. -/
def literal (s : Text) : Word := s.map fun c => ⟨c, true⟩

/-- What is left of a word when the quotes are gone. -/
def spelled (w : Word) : Text := w.map Piece.byte

theorem spelled_literal (s : Text) : spelled (literal s) = s := by
  simp [spelled, literal, Function.comp_def]

inductive Token where
  | word (w : Word)
  | operator (op : Text)
  deriving DecidableEq, Repr

/-- The token under construction. -/
inductive Current where
  | nothing
  | word (w : Word)
  | operator (op : Text)
  | comment
  deriving DecidableEq, Repr

def Current.inWord : Current → Bool
  | .word _ => true
  | _ => false

structure Reader where
  quoting : Quoting
  current : Current
  tokens : List Token
  deriving DecidableEq, Repr

namespace Reader

def start : Reader := ⟨.none, .nothing, []⟩

/-- The end of the token under construction. -/
def delimit (r : Reader) : Reader :=
  match r.current with
  | .nothing => r
  | .word w => { r with current := .nothing, tokens := r.tokens ++ [.word w] }
  | .operator op => { r with current := .nothing, tokens := r.tokens ++ [.operator op] }
  | .comment => { r with current := .nothing }

/-- More of a word: the one under construction, or a new one. -/
def join (r : Reader) (w : Word) : Reader :=
  match r.current with
  | .word v => { r with current := .word (v ++ w) }
  | _ => { r.delimit with current := .word w }

/-- The operators of more than one byte. -/
def operators : List Text :=
  [text "&&", text "||", text ";;", text "<<", text ">>", text "<&", text ">&", text "<>",
    text ">|", text "<<-"]

def operatorBytes : List Byte := text "&|;<>()"

def extendOperator (r : Reader) (c : Byte) : Reader :=
  match r.current with
  | .operator op =>
    if op ++ [c] ∈ operators then { r with current := .operator (op ++ [c]) }
    else { r.delimit with current := .operator [c] }
  | _ => { r.delimit with current := .operator [c] }

/-- A byte outside quotes. -/
def plain (r : Reader) (c : Byte) : Reader :=
  if r.current = .comment then
    if c = byte '\n' then { r with current := .operator [c] }.delimit else r
  else if c = byte '\'' then { r.join [] with quoting := .single }
  else if c = byte '"' then { r.join [] with quoting := .double }
  else if c = byte '\\' then { r with quoting := .escape }
  else if c = byte ' ' ∨ c = byte '\t' then r.delimit
  else if c = byte '\n' then { r.delimit with current := .operator [c] }.delimit
  else if c ∈ operatorBytes then r.extendOperator c
  else if c = byte '#' ∧ r.current.inWord = false then { r.delimit with current := .comment }
  else r.join [⟨c, false⟩]

/-- The bytes that keep their meaning inside double quotes. -/
def expands : List Byte := text "$\x60"

def step (r : Reader) (c : Byte) : Reader :=
  match r.quoting with
  | .none => r.plain c
  | .escape =>
    -- a backslash before a newline joins the lines
    if c = byte '\n' then { r with quoting := .none }
    else { r.join [⟨c, true⟩] with quoting := .none }
  | .single =>
    if c = byte '\'' then { r with quoting := .none } else r.join [⟨c, true⟩]
  | .double =>
    if c = byte '"' then { r with quoting := .none }
    else if c = byte '\\' then { r with quoting := .doubleEscape }
    else r.join [⟨c, decide (c ∉ expands)⟩]
  | .doubleEscape =>
    if c = byte '\n' then { r with quoting := .double }
    else if c = byte '"' ∨ c = byte '\\' ∨ c ∈ expands then
      { r.join [⟨c, true⟩] with quoting := .double }
    else { r.join [⟨byte '\\', true⟩, ⟨c, true⟩] with quoting := .double }

def read (r : Reader) (command : Text) : Reader := command.foldl step r

/-- Outside any quote and any comment: where a word may be written. -/
structure Outside (r : Reader) : Prop where
  unquoted : r.quoting = .none
  code : r.current ≠ .comment

theorem start_outside : start.Outside where
  unquoted := rfl
  code := by decide

@[simp] theorem read_nil (r : Reader) : r.read [] = r := rfl

@[simp] theorem read_cons (r : Reader) (c : Byte) (command : Text) :
    r.read (c :: command) = (r.step c).read command := rfl

theorem read_append (r : Reader) (front back : Text) :
    r.read (front ++ back) = (r.read front).read back := List.foldl_append

@[simp] theorem delimit_quoting (r : Reader) : r.delimit.quoting = r.quoting := by
  unfold delimit
  split <;> rfl

@[simp] theorem join_quoting (r : Reader) (w : Word) : (r.join w).quoting = r.quoting := by
  unfold join
  split <;> simp

/-- Neither end of a quotation touches what is read so far. -/
@[simp] theorem join_requote (r : Reader) (q : Quoting) (w : Word) :
    Reader.join { r with quoting := q } w = { r.join w with quoting := q } := by
  unfold join
  cases hcurrent : r.current <;> simp [delimit, hcurrent]

theorem requote_self (r : Reader) (h : r.quoting = .none) : { r with quoting := .none } = r := by
  rw [← h]

/-- Adjacent pieces are one word. -/
@[simp] theorem join_join (r : Reader) (v w : Word) : (r.join v).join w = r.join (v ++ w) := by
  unfold join
  cases r.current <;> simp

theorem join_code (r : Reader) (w : Word) : (r.join w).current ≠ .comment := by
  unfold join
  cases r.current <;> simp

theorem Outside.join {r : Reader} (h : r.Outside) (w : Word) : (r.join w).Outside where
  unquoted := (r.join_quoting w).trans h.unquoted
  code := r.join_code w

/-- Inside single quotes, with `w` read of the word so far. -/
def inSingle (r : Reader) (w : Word) : Reader := { r.join w with quoting := .single }

theorem inSingle_read (r : Reader) (w : Word) (s : Text) (hs : byte '\'' ∉ s) :
    (r.inSingle w).read s = r.inSingle (w ++ literal s) := by
  induction s generalizing w with
  | nil => simp [literal]
  | cons c s ih =>
    obtain ⟨hc, hs⟩ : byte '\'' ≠ c ∧ byte '\'' ∉ s := by simpa using hs
    have hstep : (r.inSingle w).step c = r.inSingle (w ++ [⟨c, true⟩]) := by
      simp only [step, inSingle, if_neg hc.symm, join_requote, join_join]
    rw [read_cons, hstep, ih _ hs]
    simp [literal]

section
variable {r : Reader} (h : r.Outside)
include h

theorem Outside.step_eq (c : Byte) : r.step c = r.plain c := by
  simp [step, h.unquoted]

theorem Outside.step_quote : r.step (byte '\'') = r.inSingle [] := by
  simp [h.step_eq, plain, h.code, inSingle]

theorem Outside.inSingle_quote (w : Word) : (r.inSingle w).step (byte '\'') = r.join w := by
  simp only [step, inSingle, if_true]
  exact requote_self _ (h.join w).unquoted

/-- A backslash keeps the byte behind it, which a newline is not. -/
theorem Outside.read_escaped (c : Byte) (hc : c ≠ byte '\n') :
    r.read [byte '\\', c] = r.join [⟨c, true⟩] := by
  have hescape : r.step (byte '\\') = { r with quoting := .escape } := by
    rw [h.step_eq]
    simp [plain, h.code, show byte '\\' ≠ byte '\'' by decide,
      show byte '\\' ≠ byte '"' by decide]
  rw [read_cons, hescape, read_cons, read_nil]
  simp only [step, if_neg hc, join_requote]
  exact requote_self _ (h.join [⟨c, true⟩]).unquoted

end

/-- The same tokens with no mark of quoting. -/
def bareToken : Token → Token
  | .word w => .word (literal (spelled w))
  | .operator op => .operator op

def bareCurrent : Current → Current
  | .word w => .word (literal (spelled w))
  | current => current

def bare (r : Reader) : Reader where
  quoting := r.quoting
  current := bareCurrent r.current
  tokens := r.tokens.map bareToken

@[simp] theorem bare_bare (r : Reader) : r.bare.bare = r.bare := by
  have htoken : bareToken ∘ bareToken = bareToken := by
    funext k
    cases k <;> simp [bareToken, spelled_literal]
  cases hcurrent : r.current <;> simp [bare, bareCurrent, hcurrent, spelled_literal, htoken]

theorem bare_delimit (r : Reader) : r.delimit.bare = r.bare.delimit := by
  unfold delimit
  cases hcurrent : r.current <;> simp [bare, bareCurrent, bareToken, hcurrent]

theorem bare_join (r : Reader) (w : Word) :
    (r.join w).bare = r.bare.join (literal (spelled w)) := by
  unfold join
  cases hcurrent : r.current <;>
    simp [bare, bareCurrent, bareToken, delimit, hcurrent, literal, spelled]

theorem bare_requote (r : Reader) (q : Quoting) :
    bare { r with quoting := q } = { r.bare with quoting := q } := rfl

theorem bare_operator (r : Reader) (op : Text) :
    bare { r with current := .operator op } = { r.bare with current := .operator op } := rfl

theorem bare_comment (r : Reader) :
    bare { r with current := .comment } = { r.bare with current := .comment } := rfl

theorem bare_extendOperator (r : Reader) (c : Byte) :
    (r.extendOperator c).bare = r.bare.extendOperator c := by
  have hdelimit := bare_operator r.delimit [c]
  rw [bare_delimit] at hdelimit
  unfold extendOperator
  cases hcurrent : r.current <;> simp only [hdelimit] <;> simp [bare, bareCurrent, hcurrent]
  split <;> simp [bareToken, delimit, hcurrent]

/-- The marks of what is read so far have no say in what is read next. -/
theorem bare_plain (r : Reader) (c : Byte) : (r.plain c).bare = (r.bare.plain c).bare := by
  have hcomment : r.bare.current = .comment ↔ r.current = .comment := by
    cases hcurrent : r.current <;> simp [bare, bareCurrent, hcurrent]
  have hword : r.bare.current.inWord = r.current.inWord := by
    cases hcurrent : r.current <;> simp [bare, bareCurrent, hcurrent, Current.inWord]
  unfold plain
  simp only [hcomment, hword]
  split_ifs <;> simp only [bare_delimit, bare_join, bare_requote, bare_operator, bare_comment,
    bare_extendOperator, bare_bare]

theorem bare_step (r : Reader) (c : Byte) : (r.step c).bare = (r.bare.step c).bare := by
  have hquoting : r.bare.quoting = r.quoting := rfl
  unfold step
  cases hcase : r.quoting <;> simp only [hquoting, hcase]
  case none => exact bare_plain r c
  all_goals split_ifs <;> simp only [bare_join, bare_requote, bare_bare]

theorem bare_read {r r' : Reader} (h : r.bare = r'.bare) (command : Text) :
    (r.read command).bare = (r'.read command).bare := by
  induction command generalizing r r' with
  | nil => exact h
  | cons c command ih => exact ih (by rw [bare_step r c, bare_step r' c, h])

/-- The bytes with a meaning of their own outside quotes. -/
def special : List Byte :=
  operatorBytes ++ text "$\x60\\\"' \t\n*?[]#~=%!\x7b\x7d"

/-- A word that may be written with no quotes. -/
structure Plainly (s : Text) : Prop where
  nonempty : s ≠ []
  ordinary : ∀ c ∈ s, c ∉ special

theorem Outside.step_ordinary {r : Reader} (h : r.Outside) (c : Byte) (hc : c ∉ special) :
    r.step c = r.join [⟨c, false⟩] := by
  have hne : ∀ d ∈ special, c ≠ d := fun d hd hcd => hc (hcd ▸ hd)
  have hoperator : c ∉ operatorBytes := fun hop => hc (List.mem_append_left _ hop)
  rw [h.step_eq]
  simp [plain, h.code, hoperator, hne (byte '\'') (by decide), hne (byte '"') (by decide),
    hne (byte '\\') (by decide), hne (byte ' ') (by decide), hne (byte '\t') (by decide),
    hne (byte '\n') (by decide), hne (byte '#') (by decide)]

theorem Outside.read_plainly {r : Reader} (h : r.Outside) {s : Text} (hs : Plainly s) :
    (r.read s).bare = (r.join (literal s)).bare := by
  obtain ⟨hne, hordinary⟩ := hs
  induction s generalizing r with
  | nil => exact absurd rfl hne
  | cons c s ih =>
    have hstep := h.step_ordinary c (hordinary c List.mem_cons_self)
    rw [read_cons, hstep]
    rcases s with _ | ⟨d, s⟩
    · rw [read_nil, bare_join, bare_join]
      simp [literal, spelled]
    · rw [ih (h.join _) (by simp) fun e he => hordinary e (List.mem_cons_of_mem _ he),
        join_join, bare_join, bare_join]
      simp [literal, spelled]

/-- The end of the command. A quotation must be closed before it. -/
def finish (r : Reader) : Option (List Token) :=
  if r.quoting = .none then some r.delimit.tokens else none

end Reader

/-- The bytes of a string that C code hands over: up to the first NUL. -/
def cString (s : Text) : Text := s.takeWhile (· != 0)

theorem cString_append {s : Text} (h : 0 ∉ s) (rest : Text) :
    cString (s ++ rest) = s ++ cString rest := by
  have hall : ∀ c ∈ s, (c != 0) = true := by
    intro c hc
    have : c ≠ 0 := fun hzero => h (hzero ▸ hc)
    simp [this]
  exact List.takeWhile_append_of_pos hall

theorem cString_eq {s : Text} (h : 0 ∉ s) : cString s = s := by
  simpa [cString] using cString_append h []

def tokens (command : Text) : Option (List Token) := (Reader.start.read (cString command)).finish

structure SimpleCommand where
  words : List Word
  redirections : List (Text × Word)
  deriving DecidableEq, Repr

def redirects : List Text :=
  [text "<", text ">", text "<<", text ">>", text "<&", text ">&", text "<>", text ">|",
    text "<<-"]

/-- The simple commands of a list of tokens, `command` being the one begun and
`pending` a redirection that waits for its word. Any other operator ends a
command. -/
def splitCommands : SimpleCommand → Option Text → List Token → Option (List SimpleCommand)
  | command, none, [] => some [command]
  | command, none, .word w :: rest =>
    splitCommands { command with words := command.words ++ [w] } none rest
  | command, none, .operator op :: rest =>
    if op ∈ redirects then splitCommands command (some op) rest
    else (splitCommands ⟨[], []⟩ none rest).map (command :: ·)
  | command, some op, .word w :: rest =>
    splitCommands { command with redirections := command.redirections ++ [(op, w)] } none rest
  | _, some _, _ => none

/-- The simple commands in the text of a command, as the shell reads them with no reserved
word, no IO number in front of a redirection and no expansion, none of which is modelled: a
digit in front of `>` is a word, and an unquoted `$` is the byte itself. -/
def commands (command : Text) : Option (List SimpleCommand) :=
  (tokens command).bind (splitCommands ⟨[], []⟩ none)

end AroundTheWorld.Shell
