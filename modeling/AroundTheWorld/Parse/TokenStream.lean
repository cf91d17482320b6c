import AroundTheWorld.Base.Pulls
import AroundTheWorld.Lex.Determinism
import AroundTheWorld.Lex.Lossless
import AroundTheWorld.Parse.Context

/-!
# The token stream

`TokenStream` calls the lexer only when a token is asked for, and keeps what it has not
handed out in two queues. Seen from the parser it is a position in the sequence of tokens
that the lexer makes.
-/

namespace AroundTheWorld.Parse

open AroundTheWorld.Base AroundTheWorld.Lex

variable {D : Type}

structure TokenStream (D : Type) where
  lexer : Lexer
  tokens : List (Token D) := []
  trivia : List (List TriviaPiece) := []

namespace TokenStream

section
variable (rules : LexLanguageRules) (strtod : Text → D × Nat) (fuel : Nat)

/-- The body of the loop of `fillUntil`: the trivia are those that `next` has left in the
lexer. -/
def fillStep (s : TokenStream D) : Option (TokenStream D) :=
  (s.lexer.next rules strtod fuel).map fun (tok, lexer) =>
    ⟨lexer, s.tokens ++ [tok], s.trivia ++ [lexer.trivia]⟩

def fillUntil (lookahead : Nat) (s : TokenStream D) : Option (TokenStream D) :=
  whileLoop (fun s => decide (s.tokens.length ≤ lookahead)) (fillStep rules strtod fuel) fuel s

def peek (lookahead : Nat) (s : TokenStream D) : Option (Token D × TokenStream D) :=
  (fillUntil rules strtod fuel lookahead s).bind fun s => s.tokens[lookahead]?.map (·, s)

def leadingTrivia (lookahead : Nat) (s : TokenStream D) :
    Option (List TriviaPiece × TokenStream D) :=
  (fillUntil rules strtod fuel lookahead s).bind fun s => s.trivia[lookahead]?.map (·, s)

def is (kind : TokenKind) (lookahead : Nat) (s : TokenStream D) : Option (Bool × TokenStream D) :=
  (peek rules strtod fuel lookahead s).map fun (tok, s) => (tok.kind == kind, s)

def consume (s : TokenStream D) : Option (Token D × TokenStream D) :=
  (fillUntil rules strtod fuel 0 s).bind fun s =>
    s.tokens.head?.map fun tok => (tok, ⟨s.lexer, s.tokens.tail, s.trivia.tail⟩)

/-- `match`. -/
def matchKind (kind : TokenKind) (s : TokenStream D) : Option (Bool × TokenStream D) :=
  (is rules strtod fuel kind 0 s).bind fun (found, s) =>
    if found then (consume rules strtod fuel s).map fun (_, s) => (true, s) else some (false, s)

def matchAny : List TokenKind → TokenStream D → Option (Bool × TokenStream D)
  | [], s => some (false, s)
  | kind :: kinds, s =>
    (is rules strtod fuel kind 0 s).bind fun (found, s) =>
      if found then (consume rules strtod fuel s).map fun (_, s) => (true, s) else matchAny kinds s

/-- What is reported goes behind `diag`. -/
def expect (kind : TokenKind) (diag : List (SourceLoc × String)) (message : String)
    (s : TokenStream D) : Option ((Bool × List (SourceLoc × String)) × TokenStream D) :=
  (is rules strtod fuel kind 0 s).bind fun (found, s) =>
    if found then (consume rules strtod fuel s).map fun (_, s) => ((true, diag), s)
    else (peek rules strtod fuel 0 s).map fun (tok, s) =>
      ((false, diag ++ [(tok.sourceLoc, message)]), s)

end

end TokenStream

/-! ## Calls -/

/-- A call of the public interface. -/
inductive Call where
  | peek (lookahead : Nat)
  | leadingTrivia (lookahead : Nat)
  | is (kind : TokenKind) (lookahead : Nat)
  | consume
  | matchKind (kind : TokenKind)
  | matchAny (kinds : List TokenKind)
  | expect (kind : TokenKind) (diag : List (SourceLoc × String)) (message : String)

/-- What a call returns, and the diagnostics behind it if it takes some. -/
inductive Answer (D : Type) where
  | token (tok : Token D)
  | trivia (pieces : List TriviaPiece)
  | found (found : Bool)
  | expected (found : Bool) (diag : List (SourceLoc × String))

section
variable (rules : LexLanguageRules) (strtod : Text → D × Nat)

def Call.run (fuel : Nat) : Call → TokenStream D → Option (Answer D × TokenStream D)
  | .peek lookahead, s => (s.peek rules strtod fuel lookahead).map fun (tok, s) => (.token tok, s)
  | .leadingTrivia lookahead, s =>
    (s.leadingTrivia rules strtod fuel lookahead).map fun (pieces, s) => (.trivia pieces, s)
  | .is kind lookahead, s => (s.is rules strtod fuel kind lookahead).map fun (b, s) => (.found b, s)
  | .consume, s => (s.consume rules strtod fuel).map fun (tok, s) => (.token tok, s)
  | .matchKind kind, s => (s.matchKind rules strtod fuel kind).map fun (b, s) => (.found b, s)
  | .matchAny kinds, s => (s.matchAny rules strtod fuel kinds).map fun (b, s) => (.found b, s)
  | .expect kind diag message, s =>
    (s.expect rules strtod fuel kind diag message).map fun ((b, diag), s) => (.expected b diag, s)

/-- Calls that return, each under some bound on its loops. -/
inductive TokenStream.Calls : TokenStream D → List (Call × Answer D) → TokenStream D → Prop where
  | nil (s : TokenStream D) : Calls s [] s
  | cons {s s₁ s' : TokenStream D} {call : Call} {answer : Answer D} {fuel : Nat}
      {calls : List (Call × Answer D)} : call.run rules strtod fuel s = some (answer, s₁) →
      Calls s₁ calls s' → Calls s ((call, answer) :: calls) s'

/-- One call of the lexer: the leading trivia and the token. -/
def Lexer.Output (l : Lexer) (o : List TriviaPiece × Token D) (l' : Lexer) : Prop :=
  l.Next rules strtod o.2 l' ∧ o.1 = l'.trivia

end

/-! ## The cursor -/

/-- A call at a position of a sequence of tokens with their leading trivia. -/
inductive CursorStep (out : Nat → List TriviaPiece × Token D → Prop) :
    Nat → Call → Answer D → Nat → Prop where
  | peek {p k : Nat} {o : List TriviaPiece × Token D} : out (p + k) o →
      CursorStep out p (.peek k) (.token o.2) p
  | leadingTrivia {p k : Nat} {o : List TriviaPiece × Token D} : out (p + k) o →
      CursorStep out p (.leadingTrivia k) (.trivia o.1) p
  | is {p k : Nat} {o : List TriviaPiece × Token D} (kind : TokenKind) : out (p + k) o →
      CursorStep out p (.is kind k) (.found (o.2.kind == kind)) p
  | consume {p : Nat} {o : List TriviaPiece × Token D} : out p o →
      CursorStep out p .consume (.token o.2) (p + 1)
  | matched {p : Nat} {o : List TriviaPiece × Token D} {kind : TokenKind} : out p o →
      o.2.kind = kind → CursorStep out p (.matchKind kind) (.found true) (p + 1)
  | unmatched {p : Nat} {o : List TriviaPiece × Token D} {kind : TokenKind} : out p o →
      o.2.kind ≠ kind → CursorStep out p (.matchKind kind) (.found false) p
  | matchedAny {p : Nat} {o : List TriviaPiece × Token D} {kinds : List TokenKind} : out p o →
      o.2.kind ∈ kinds → CursorStep out p (.matchAny kinds) (.found true) (p + 1)
  | unmatchedAny {p : Nat} {o : List TriviaPiece × Token D} {kinds : List TokenKind} : out p o →
      o.2.kind ∉ kinds → CursorStep out p (.matchAny kinds) (.found false) p
  | matchAnyNil (p : Nat) : CursorStep out p (.matchAny []) (.found false) p
  | expected {p : Nat} {o : List TriviaPiece × Token D} {kind : TokenKind}
      (diag : List (SourceLoc × String)) (message : String) : out p o → o.2.kind = kind →
      CursorStep out p (.expect kind diag message) (.expected true diag) (p + 1)
  | unexpected {p : Nat} {o : List TriviaPiece × Token D} {kind : TokenKind}
      (diag : List (SourceLoc × String)) (message : String) : out p o → o.2.kind ≠ kind →
      CursorStep out p (.expect kind diag message)
        (.expected false (diag ++ [(o.2.sourceLoc, message)])) p

inductive CursorRun (out : Nat → List TriviaPiece × Token D → Prop) :
    Nat → List (Call × Answer D) → Nat → Prop where
  | nil (p : Nat) : CursorRun out p [] p
  | cons {p p₁ p' : Nat} {call : Call} {answer : Answer D} {calls : List (Call × Answer D)} :
      CursorStep out p call answer p₁ → CursorRun out p₁ calls p' →
      CursorRun out p ((call, answer) :: calls) p'

/-! ## The queues hold what lies ahead of the cursor -/

section
variable {rules : LexLanguageRules} {strtod : Text → D × Nat} {l : Lexer} {s s' : TokenStream D}
  {p k fuel : Nat} {o : List TriviaPiece × Token D}

theorem output_atMostOne : AtMostOne (Lexer.Output rules strtod) := by
  rintro l ⟨pieces, tok⟩ ⟨pieces', tok'⟩ l₁ l₂ ⟨hnext, htrivia⟩ ⟨hnext', htrivia'⟩
  obtain ⟨htok, rfl⟩ := Next.unique hnext hnext'
  exact ⟨Prod.ext (htrivia.trans htrivia'.symm) htok, rfl⟩

variable (rules strtod)

/-- The stream has handed out `p` tokens of the lexer that it was started on: the lexer
stands behind the queues, which hold the outputs from there on. -/
def TokenStream.Stands (l : Lexer) (s : TokenStream D) (p : Nat) : Prop :=
  ∃ gone window, gone.length = p ∧ Pulls (Lexer.Output rules strtod) l (gone ++ window) s.lexer ∧
    s.tokens = window.map (·.2) ∧ s.trivia = window.map (·.1)

variable {rules strtod}

theorem TokenStream.stands_start (l : Lexer) : Stands rules strtod l ⟨l, [], []⟩ 0 :=
  ⟨[], [], rfl, .nil l, rfl, rfl⟩

/-- What the queues hold at one index is one output. -/
theorem TokenStream.Stands.lookup (h : s.Stands rules strtod l p) (hk : k < s.tokens.length) :
    ∃ o, Emits (Lexer.Output rules strtod) l (p + k) o ∧ s.tokens[k]? = some o.2 ∧
      s.trivia[k]? = some o.1 := by
  obtain ⟨gone, window, rfl, hpulls, htokens, htrivia⟩ := h
  have hlt : k < window.length := by rwa [htokens, List.length_map] at hk
  refine ⟨window[k], ?_, by simp [htokens, hlt], by simp [htrivia, hlt]⟩
  have hsplit : gone ++ window = (gone ++ window.take k) ++ window[k] :: window.drop (k + 1) := by
    rw [List.append_assoc, List.getElem_cons_drop, List.take_append_drop]
  rw [hsplit] at hpulls
  have hemits := hpulls.emits
  rwa [List.length_append, List.length_take_of_le (Nat.le_of_lt hlt)] at hemits

theorem TokenStream.Stands.fillStep (h : s.Stands rules strtod l p)
    (hstep : s.fillStep rules strtod fuel = some s') : s'.Stands rules strtod l p := by
  obtain ⟨gone, window, hlen, hpulls, htokens, htrivia⟩ := h
  obtain ⟨⟨tok, lexer⟩, hnext, rfl⟩ := Option.map_eq_some_iff.mp hstep
  refine ⟨gone, window ++ [(lexer.trivia, tok)], hlen, ?_, by simp [htokens], by simp [htrivia]⟩
  rw [← List.append_assoc]
  exact hpulls.snoc ⟨⟨fuel, hnext⟩, rfl⟩

theorem TokenStream.Stands.fillUntil (h : s.Stands rules strtod l p)
    (hfill : s.fillUntil rules strtod fuel k = some s') :
    s'.Stands rules strtod l p ∧ k < s'.tokens.length := by
  obtain ⟨hstands, hexit⟩ := whileLoop_invariant (fun s => s.Stands rules strtod l p)
    (fun _ _ hs _ ht => hs.fillStep ht) hfill h
  exact ⟨hstands, by simpa using hexit⟩

theorem TokenStream.fillUntil_filled (hk : k < s.tokens.length) :
    s.fillUntil rules strtod (fuel + 1) k = some s := whileLoop_exit (by simpa using hk) fuel

theorem TokenStream.fillStep_mono {n m : Nat} (hle : n ≤ m) (s s' : TokenStream D)
    (h : s.fillStep rules strtod n = some s') : s.fillStep rules strtod m = some s' :=
  (next_keeps hle s.lexer).map _ s' h

/-- As long as the lexer gets that far, the queues can be filled. Induction on the outputs
that are missing. -/
theorem TokenStream.Stands.fillUntil_total (h : s.Stands rules strtod l p)
    (ho : Emits (Lexer.Output rules strtod) l (p + k) o) :
    ∃ n s', s.fillUntil rules strtod (n + 1) k = some s' := by
  generalize hmissing : k + 1 - s.tokens.length = missing
  induction missing generalizing s with
  | zero => exact ⟨0, s, fillUntil_filled (by omega)⟩
  | succ missing ih =>
    obtain ⟨gone, window, hlen, hpulls, htokens, -⟩ := id h
    have hlength : s.tokens.length = window.length := by rw [htokens, List.length_map]
    obtain ⟨before, lexer, o', lexer', hbefore, hfirst, hnext, -⟩ :=
      ho.pulls (show p + window.length ≤ p + k by omega)
    obtain ⟨-, rfl⟩ := Pulls.unique output_atMostOne hfirst hpulls
      (by rw [hbefore, List.length_append, hlen])
    obtain ⟨m, hnext⟩ := hnext
    have hstep : s.fillStep rules strtod m =
        some ⟨lexer', s.tokens ++ [o'.2], s.trivia ++ [lexer'.trivia]⟩ :=
      Option.map_eq_some_iff.mpr ⟨_, hnext, rfl⟩
    obtain ⟨n, s', hfill⟩ := ih (h.fillStep hstep) (by
      rw [List.length_append, List.length_singleton]
      omega)
    refine ⟨m + n + 1, s', ?_⟩
    have hcond : s.tokens.length ≤ k := by omega
    have hfirst' := fillStep_mono (show m ≤ m + n + 1 + 1 by omega) _ _ hstep
    refine (whileLoop_step (by simpa using hcond) hfirst' _).trans ?_
    exact whileLoop_mono (fillStep_mono (by omega)) (by omega) hfill

/-! ## One call -/

theorem TokenStream.Stands.peek (h : s.Stands rules strtod l p) {tok : Token D}
    (hrun : s.peek rules strtod fuel k = some (tok, s')) :
    s'.Stands rules strtod l p ∧ k < s'.tokens.length ∧
      ∃ o, Emits (Lexer.Output rules strtod) l (p + k) o ∧ tok = o.2 := by
  obtain ⟨s₁, hfill, hrun⟩ := Option.bind_eq_some_iff.mp hrun
  obtain ⟨tok', htok, heq⟩ := Option.map_eq_some_iff.mp hrun
  obtain ⟨rfl, rfl⟩ := Prod.mk.inj heq
  obtain ⟨hstands, hk⟩ := h.fillUntil hfill
  obtain ⟨o, ho, htoken, -⟩ := hstands.lookup hk
  exact ⟨hstands, hk, o, ho, Option.some.inj (htok.symm.trans htoken)⟩

theorem TokenStream.Stands.leadingTrivia (h : s.Stands rules strtod l p)
    {pieces : List TriviaPiece}
    (hrun : s.leadingTrivia rules strtod fuel k = some (pieces, s')) :
    s'.Stands rules strtod l p ∧ ∃ o, Emits (Lexer.Output rules strtod) l (p + k) o ∧
      pieces = o.1 := by
  obtain ⟨s₁, hfill, hrun⟩ := Option.bind_eq_some_iff.mp hrun
  obtain ⟨pieces', hpieces, heq⟩ := Option.map_eq_some_iff.mp hrun
  obtain ⟨rfl, rfl⟩ := Prod.mk.inj heq
  obtain ⟨hstands, hk⟩ := h.fillUntil hfill
  obtain ⟨o, ho, -, htrivia⟩ := hstands.lookup hk
  exact ⟨hstands, o, ho, Option.some.inj (hpieces.symm.trans htrivia)⟩

theorem TokenStream.Stands.is (h : s.Stands rules strtod l p) {kind : TokenKind} {b : Bool}
    (hrun : s.is rules strtod fuel kind k = some (b, s')) :
    s'.Stands rules strtod l p ∧ k < s'.tokens.length ∧
      ∃ o, Emits (Lexer.Output rules strtod) l (p + k) o ∧ b = (o.2.kind == kind) := by
  obtain ⟨⟨tok, s₁⟩, hpeek, heq⟩ := Option.map_eq_some_iff.mp hrun
  obtain ⟨rfl, rfl⟩ := Prod.mk.inj heq
  obtain ⟨hstands, hk, o, ho, rfl⟩ := h.peek hpeek
  exact ⟨hstands, hk, o, ho, rfl⟩

/-- The two queues lose the token and its trivia. -/
theorem TokenStream.Stands.consume (h : s.Stands rules strtod l p) {tok : Token D}
    (hrun : s.consume rules strtod fuel = some (tok, s')) :
    s'.Stands rules strtod l (p + 1) ∧
      ∃ o, Emits (Lexer.Output rules strtod) l p o ∧ tok = o.2 := by
  obtain ⟨s₁, hfill, hrun⟩ := Option.bind_eq_some_iff.mp hrun
  obtain ⟨tok', htok, heq⟩ := Option.map_eq_some_iff.mp hrun
  obtain ⟨rfl, rfl⟩ := Prod.mk.inj heq
  obtain ⟨hstands, hk⟩ := h.fillUntil hfill
  obtain ⟨o, ho, htoken, -⟩ := hstands.lookup hk
  rw [← List.head?_eq_getElem?] at htoken
  refine ⟨?_, o, ho, Option.some.inj (htok.symm.trans htoken)⟩
  obtain ⟨gone, window, hlen, hpulls, htokens, htrivia⟩ := hstands
  cases window with
  | nil => simp [htokens] at hk
  | cons first window =>
    refine ⟨gone ++ [first], window, by simp [hlen], ?_, by simp [htokens], by simp [htrivia]⟩
    rwa [List.append_assoc, List.singleton_append]

/-- The shape that `match`, `matchAny` and `expect` share. -/
theorem TokenStream.Stands.isThen {β : Type} {f : Token D × TokenStream D → β}
    {g : TokenStream D → Option β} {r : β} {kind : TokenKind} (h : s.Stands rules strtod l p)
    (hrun : ((s.is rules strtod fuel kind 0).bind fun (found, s) =>
      if found then (s.consume rules strtod fuel).map f else g s) = some r) :
    ∃ o, Emits (Lexer.Output rules strtod) l p o ∧
      ((o.2.kind = kind ∧ ∃ tok s', s'.Stands rules strtod l (p + 1) ∧ r = f (tok, s')) ∨
        (o.2.kind ≠ kind ∧ ∃ s₁, s₁.Stands rules strtod l p ∧ g s₁ = some r)) := by
  obtain ⟨⟨found, s₁⟩, his, hrun⟩ := Option.bind_eq_some_iff.mp hrun
  obtain ⟨hstands, -, o, ho, hfound⟩ := h.is his
  dsimp only at hrun
  subst hfound
  refine ⟨o, ho, ?_⟩
  split at hrun
  · rename_i hkind
    obtain ⟨⟨tok, s'⟩, hconsume, rfl⟩ := Option.map_eq_some_iff.mp hrun
    exact .inl ⟨by simpa using hkind, tok, s', (hstands.consume hconsume).1, rfl⟩
  · rename_i hkind
    exact .inr ⟨by simpa using hkind, s₁, hstands, hrun⟩

/-- Induction on the kinds: the token is the same each time. -/
theorem TokenStream.Stands.matchAny {kinds : List TokenKind} {b : Bool}
    (h : s.Stands rules strtod l p)
    (hrun : s.matchAny rules strtod fuel kinds = some (b, s')) :
    (kinds = [] ∧ b = false ∧ s' = s) ∨ ∃ o, Emits (Lexer.Output rules strtod) l p o ∧
      ((o.2.kind ∈ kinds ∧ b = true ∧ s'.Stands rules strtod l (p + 1)) ∨
        (o.2.kind ∉ kinds ∧ b = false ∧ s'.Stands rules strtod l p)) := by
  induction kinds generalizing s with
  | nil =>
    cases hrun
    exact .inl ⟨rfl, rfl, rfl⟩
  | cons kind kinds ih =>
    right
    obtain ⟨o, ho, ⟨hkind, tok, s₁, hstands, heq⟩ | ⟨hkind, s₁, hstands, hrest⟩⟩ := h.isThen hrun
    · obtain ⟨rfl, rfl⟩ := Prod.mk.inj heq
      exact ⟨o, ho, .inl ⟨by simp [hkind], rfl, hstands⟩⟩
    · rcases ih hstands hrest with ⟨rfl, rfl, rfl⟩ | ⟨o', ho', hcases⟩
      · exact ⟨o, ho, .inr ⟨by simp [hkind], rfl, hstands⟩⟩
      · obtain rfl := Emits.unique output_atMostOne ho ho'
        refine ⟨o, ho, hcases.imp (And.imp_left ?_) (And.imp_left ?_)⟩
        · exact fun hmem => List.mem_cons_of_mem _ hmem
        · exact fun hnot => by simp [hkind, hnot]

/-- What a call returns, the cursor returns, and the stream moves with it. -/
theorem Call.run_cursor {call : Call} {answer : Answer D} (h : s.Stands rules strtod l p)
    (hrun : call.run rules strtod fuel s = some (answer, s')) :
    ∃ p', CursorStep (Emits (Lexer.Output rules strtod) l) p call answer p' ∧
      s'.Stands rules strtod l p' := by
  cases call with
  | peek lookahead =>
    obtain ⟨⟨tok, s₁⟩, hpeek, heq⟩ := Option.map_eq_some_iff.mp hrun
    obtain ⟨rfl, rfl⟩ := Prod.mk.inj heq
    obtain ⟨hstands, -, o, ho, rfl⟩ := h.peek hpeek
    exact ⟨p, .peek ho, hstands⟩
  | leadingTrivia lookahead =>
    obtain ⟨⟨pieces, s₁⟩, htrivia, heq⟩ := Option.map_eq_some_iff.mp hrun
    obtain ⟨rfl, rfl⟩ := Prod.mk.inj heq
    obtain ⟨hstands, o, ho, rfl⟩ := h.leadingTrivia htrivia
    exact ⟨p, .leadingTrivia ho, hstands⟩
  | is kind lookahead =>
    obtain ⟨⟨b, s₁⟩, his, heq⟩ := Option.map_eq_some_iff.mp hrun
    obtain ⟨rfl, rfl⟩ := Prod.mk.inj heq
    obtain ⟨hstands, -, o, ho, rfl⟩ := h.is his
    exact ⟨p, .is kind ho, hstands⟩
  | consume =>
    obtain ⟨⟨tok, s₁⟩, hconsume, heq⟩ := Option.map_eq_some_iff.mp hrun
    obtain ⟨rfl, rfl⟩ := Prod.mk.inj heq
    obtain ⟨hstands, o, ho, rfl⟩ := h.consume hconsume
    exact ⟨p + 1, .consume ho, hstands⟩
  | matchKind kind =>
    obtain ⟨⟨b, s₁⟩, hmatch, heq⟩ := Option.map_eq_some_iff.mp hrun
    obtain ⟨rfl, rfl⟩ := Prod.mk.inj heq
    obtain ⟨o, ho, ⟨hkind, tok, s₂, hstands, heq⟩ | ⟨hkind, s₂, hstands, heq⟩⟩ :=
      h.isThen (g := fun s => some (false, s)) hmatch
    · obtain ⟨rfl, rfl⟩ := Prod.mk.inj heq
      exact ⟨p + 1, .matched ho hkind, hstands⟩
    · obtain ⟨rfl, rfl⟩ := Prod.mk.inj (Option.some.inj heq)
      exact ⟨p, .unmatched ho hkind, hstands⟩
  | matchAny kinds =>
    obtain ⟨⟨b, s₁⟩, hmatch, heq⟩ := Option.map_eq_some_iff.mp hrun
    obtain ⟨rfl, rfl⟩ := Prod.mk.inj heq
    rcases h.matchAny hmatch with
      ⟨rfl, rfl, rfl⟩ | ⟨o, ho, ⟨hkind, rfl, hstands⟩ | ⟨hkind, rfl, hstands⟩⟩
    · exact ⟨p, .matchAnyNil p, h⟩
    · exact ⟨p + 1, .matchedAny ho hkind, hstands⟩
    · exact ⟨p, .unmatchedAny ho hkind, hstands⟩
  | expect kind diag message =>
    obtain ⟨⟨⟨b, diag'⟩, s₁⟩, hexpect, heq⟩ := Option.map_eq_some_iff.mp hrun
    obtain ⟨rfl, rfl⟩ := Prod.mk.inj heq
    obtain ⟨o, ho, ⟨hkind, tok, s₂, hstands, heq⟩ | ⟨hkind, s₂, hstands, hreport⟩⟩ :=
      h.isThen (f := fun found => ((true, diag), found.2)) (g := fun s =>
        (s.peek rules strtod fuel 0).map fun seen : Token D × TokenStream D =>
          ((false, diag ++ [(seen.1.sourceLoc, message)]), seen.2)) hexpect
    · cases heq
      exact ⟨p + 1, .expected diag message ho hkind, hstands⟩
    · obtain ⟨⟨tok, s₃⟩, hpeek, heq⟩ := Option.map_eq_some_iff.mp hreport
      cases heq
      obtain ⟨hstands', -, o', ho', rfl⟩ := hstands.peek hpeek
      obtain rfl := Emits.unique output_atMostOne ho ho'
      exact ⟨p, .unexpected diag message ho hkind, hstands'⟩

/-! ## The stream returns where the cursor does -/

/-- Filled queues, and what they hold for an output that the lexer gets to. -/
theorem TokenStream.Stands.filled (h : s.Stands rules strtod l p)
    (ho : Emits (Lexer.Output rules strtod) l (p + k) o) : ∃ n s₁, s₁.Stands rules strtod l p ∧
      k < s₁.tokens.length ∧ s₁.tokens[k]? = some o.2 ∧ s₁.trivia[k]? = some o.1 ∧
        s.fillUntil rules strtod (n + 1) k = some s₁ := by
  obtain ⟨n, s₁, hfill⟩ := h.fillUntil_total ho
  obtain ⟨hstands, hk⟩ := h.fillUntil hfill
  obtain ⟨o', ho', htoken, htrivia⟩ := hstands.lookup hk
  obtain rfl := Emits.unique output_atMostOne ho ho'
  exact ⟨n, s₁, hstands, hk, htoken, htrivia, hfill⟩

theorem TokenStream.peek_eq (hfill : s.fillUntil rules strtod fuel k = some s') {tok : Token D}
    (htoken : s'.tokens[k]? = some tok) : s.peek rules strtod fuel k = some (tok, s') := by
  simp only [TokenStream.peek, hfill, Option.bind_some, htoken, Option.map_some]

theorem TokenStream.is_eq (hfill : s.fillUntil rules strtod fuel k = some s') {tok : Token D}
    (htoken : s'.tokens[k]? = some tok) (kind : TokenKind) :
    s.is rules strtod fuel kind k = some (tok.kind == kind, s') := by
  rw [TokenStream.is, peek_eq hfill htoken]
  rfl

theorem TokenStream.consume_eq (hfill : s.fillUntil rules strtod fuel 0 = some s') {tok : Token D}
    (htoken : s'.tokens[0]? = some tok) :
    s.consume rules strtod fuel = some (tok, ⟨s'.lexer, s'.tokens.tail, s'.trivia.tail⟩) := by
  simp only [TokenStream.consume, hfill, Option.bind_some, List.head?_eq_getElem?, htoken,
    Option.map_some]

/-- Behind filled queues, what starts with `is` returns if its other branch does. -/
theorem TokenStream.isThen_returns {β : Type} {f : Token D × TokenStream D → β}
    {g : TokenStream D → Option β} {kind : TokenKind} {tok : Token D}
    (hfill : s.fillUntil rules strtod (fuel + 1) 0 = some s') (htoken : s'.tokens[0]? = some tok)
    (hg : (g s').isSome = true) :
    ((s.is rules strtod (fuel + 1) kind 0).bind fun (found, s) =>
      if found then (s.consume rules strtod (fuel + 1)).map f else g s).isSome = true := by
  have hk : 0 < s'.tokens.length := (List.getElem?_eq_some_iff.mp htoken).1
  rw [is_eq hfill htoken, Option.bind_some]
  dsimp only
  split
  · rw [consume_eq (fillUntil_filled hk) htoken]
    rfl
  · exact hg

theorem TokenStream.matchAny_returns {tok : Token D} (kinds : List TokenKind)
    (hfill : s.fillUntil rules strtod (fuel + 1) 0 = some s') (htoken : s'.tokens[0]? = some tok) :
    (s.matchAny rules strtod (fuel + 1) kinds).isSome = true := by
  induction kinds generalizing s with
  | nil => rfl
  | cons kind kinds ih =>
    have hk : 0 < s'.tokens.length := (List.getElem?_eq_some_iff.mp htoken).1
    exact isThen_returns hfill htoken (ih (fillUntil_filled hk))

/-- A call at which the cursor has an answer returns. -/
theorem Call.returns {call : Call} {answer : Answer D} {p' : Nat} (h : s.Stands rules strtod l p)
    (hstep : CursorStep (Emits (Lexer.Output rules strtod) l) p call answer p') :
    ∃ fuel, (call.run rules strtod fuel s).isSome = true := by
  have hfill : ∀ {k o}, Emits (Lexer.Output rules strtod) l (p + k) o → ∃ n s₁,
      s₁.tokens[k]? = some o.2 ∧ s₁.trivia[k]? = some o.1 ∧
        s.fillUntil rules strtod (n + 1) k = some s₁ := by
    intro k o ho
    obtain ⟨n, s₁, -, -, htoken, htrivia, hfill⟩ := h.filled ho
    exact ⟨n, s₁, htoken, htrivia, hfill⟩
  have hmatch : ∀ kind, (∃ o, Emits (Lexer.Output rules strtod) l p o) →
      ∃ fuel, ((Call.matchKind kind).run rules strtod fuel s).isSome = true := by
    rintro kind ⟨o, ho⟩
    obtain ⟨n, s₁, htoken, -, hfill⟩ := hfill (k := 0) ho
    refine ⟨n + 1, ?_⟩
    rw [Call.run, Option.isSome_map]
    exact TokenStream.isThen_returns (g := fun s => some (false, s)) hfill htoken rfl
  have hmatchAny : ∀ kinds, (∃ o, Emits (Lexer.Output rules strtod) l p o) →
      ∃ fuel, ((Call.matchAny kinds).run rules strtod fuel s).isSome = true := by
    rintro kinds ⟨o, ho⟩
    obtain ⟨n, s₁, htoken, -, hfill⟩ := hfill (k := 0) ho
    refine ⟨n + 1, ?_⟩
    rw [Call.run, Option.isSome_map]
    exact TokenStream.matchAny_returns kinds hfill htoken
  have hexpect : ∀ kind diag message, (∃ o, Emits (Lexer.Output rules strtod) l p o) →
      ∃ fuel, ((Call.expect kind diag message).run rules strtod fuel s).isSome = true := by
    rintro kind diag message ⟨o, ho⟩
    obtain ⟨n, s₁, htoken, -, hfill⟩ := hfill (k := 0) ho
    have hk : 0 < s₁.tokens.length := (List.getElem?_eq_some_iff.mp htoken).1
    refine ⟨n + 1, ?_⟩
    rw [Call.run, Option.isSome_map]
    refine TokenStream.isThen_returns (f := fun found => ((true, diag), found.2)) (g := fun s =>
        (s.peek rules strtod (n + 1) 0).map fun seen : Token D × TokenStream D =>
          ((false, diag ++ [(seen.1.sourceLoc, message)]), seen.2)) hfill htoken ?_
    rw [TokenStream.peek_eq (TokenStream.fillUntil_filled hk) htoken]
    rfl
  cases hstep with
  | peek ho =>
    obtain ⟨n, s₁, htoken, -, hfill⟩ := hfill ho
    refine ⟨n + 1, ?_⟩
    rw [Call.run, Option.isSome_map, TokenStream.peek_eq hfill htoken]
    rfl
  | leadingTrivia ho =>
    obtain ⟨n, s₁, -, htrivia, hfill⟩ := hfill ho
    refine ⟨n + 1, ?_⟩
    simp only [Call.run, TokenStream.leadingTrivia, hfill, Option.bind_some, htrivia,
      Option.map_some, Option.isSome_some]
  | is kind ho =>
    obtain ⟨n, s₁, htoken, -, hfill⟩ := hfill ho
    refine ⟨n + 1, ?_⟩
    rw [Call.run, Option.isSome_map, TokenStream.is_eq hfill htoken]
    rfl
  | consume ho =>
    obtain ⟨n, s₁, htoken, -, hfill⟩ := hfill (k := 0) ho
    refine ⟨n + 1, ?_⟩
    rw [Call.run, Option.isSome_map, TokenStream.consume_eq hfill htoken]
    rfl
  | matched ho => exact hmatch _ ⟨_, ho⟩
  | unmatched ho => exact hmatch _ ⟨_, ho⟩
  | matchedAny ho => exact hmatchAny _ ⟨_, ho⟩
  | unmatchedAny ho => exact hmatchAny _ ⟨_, ho⟩
  | matchAnyNil => exact ⟨0, rfl⟩
  | expected diag message ho => exact hexpect _ diag message ⟨_, ho⟩
  | unexpected diag message ho => exact hexpect _ diag message ⟨_, ho⟩

/-- The cursor has one answer, and moves to one position. -/
theorem CursorStep.unique {call : Call} {answer answer' : Answer D} {p₁ p₂ : Nat}
    (h : CursorStep (Emits (Lexer.Output rules strtod) l) p call answer p₁)
    (h' : CursorStep (Emits (Lexer.Output rules strtod) l) p call answer' p₂) :
    answer = answer' ∧ p₁ = p₂ := by
  have hone : ∀ {n : Nat} {o o' : List TriviaPiece × Token D},
      Emits (Lexer.Output rules strtod) l n o → Emits (Lexer.Output rules strtod) l n o' → o = o' :=
    fun ho ho' => Emits.unique output_atMostOne ho ho'
  cases h with
  | peek ho =>
    cases h' with
    | peek ho' => exact ⟨by rw [hone ho ho'], rfl⟩
  | leadingTrivia ho =>
    cases h' with
    | leadingTrivia ho' => exact ⟨by rw [hone ho ho'], rfl⟩
  | is kind ho =>
    cases h' with
    | is _ ho' => exact ⟨by rw [hone ho ho'], rfl⟩
  | consume ho =>
    cases h' with
    | consume ho' => exact ⟨by rw [hone ho ho'], rfl⟩
  | matched ho hkind =>
    cases h' with
    | matched => exact ⟨rfl, rfl⟩
    | unmatched ho' hne => exact absurd (hone ho ho' ▸ hkind) hne
  | unmatched ho hne =>
    cases h' with
    | matched ho' hkind => exact absurd (hone ho' ho ▸ hkind) hne
    | unmatched => exact ⟨rfl, rfl⟩
  | matchedAny ho hkind =>
    cases h' with
    | matchedAny => exact ⟨rfl, rfl⟩
    | unmatchedAny ho' hne => exact absurd (hone ho ho' ▸ hkind) hne
    | matchAnyNil => cases hkind
  | unmatchedAny ho hne =>
    cases h' with
    | matchedAny ho' hkind => exact absurd (hone ho' ho ▸ hkind) hne
    | unmatchedAny => exact ⟨rfl, rfl⟩
    | matchAnyNil => exact ⟨rfl, rfl⟩
  | matchAnyNil =>
    cases h' with
    | matchedAny _ hkind => cases hkind
    | unmatchedAny => exact ⟨rfl, rfl⟩
    | matchAnyNil => exact ⟨rfl, rfl⟩
  | expected _ _ ho hkind =>
    cases h' with
    | expected => exact ⟨rfl, rfl⟩
    | unexpected _ _ ho' hne => exact absurd (hone ho ho' ▸ hkind) hne
  | unexpected _ _ ho hne =>
    cases h' with
    | expected _ _ ho' hkind => exact absurd (hone ho' ho ▸ hkind) hne
    | unexpected _ _ ho' => exact ⟨by rw [hone ho ho'], rfl⟩

/-! ## Runs -/

theorem TokenStream.Calls.cursor {calls : List (Call × Answer D)} (h : s.Stands rules strtod l p)
    (hcalls : TokenStream.Calls rules strtod s calls s') :
    ∃ p', CursorRun (Emits (Lexer.Output rules strtod) l) p calls p' := by
  induction hcalls generalizing p with
  | nil => exact ⟨p, .nil p⟩
  | cons hrun _ ih =>
    obtain ⟨p₁, hstep, hstands⟩ := Call.run_cursor h hrun
    obtain ⟨p', hrest⟩ := ih hstands
    exact ⟨p', .cons hstep hrest⟩

theorem CursorRun.calls {calls : List (Call × Answer D)} {p' : Nat}
    (h : s.Stands rules strtod l p)
    (hcursor : CursorRun (Emits (Lexer.Output rules strtod) l) p calls p') :
    ∃ s', TokenStream.Calls rules strtod s calls s' := by
  induction hcursor generalizing s with
  | nil => exact ⟨s, .nil s⟩
  | cons hstep _ ih =>
    obtain ⟨fuel, hsome⟩ := Call.returns h hstep
    obtain ⟨⟨answer, s₁⟩, hrun⟩ := Option.isSome_iff_exists.mp hsome
    obtain ⟨p₁, hstep', hstands⟩ := Call.run_cursor h hrun
    obtain ⟨rfl, rfl⟩ := hstep.unique hstep'
    obtain ⟨s', hrest⟩ := ih hstands
    exact ⟨s', .cons hrun hrest⟩

/-! ## The end of the input -/

/-- Behind `Eof` the lexer gives the same `Eof` again, without trivia. -/
theorem next_eof_again (hr : LawfulRules rules) {l l' : Lexer} {tok : Token D}
    (h : l.Next rules strtod tok l') (he : tok.kind = .eof) :
    ∃ l'', l'.Next rules strtod tok l'' ∧ l''.trivia = [] := by
  obtain ⟨cs, -, -, ⟨heof, rfl, hcs⟩ | ⟨-, hlexes⟩⟩ := next_spec hr h
  · refine ⟨⟨cs, []⟩, ⟨1, ?_⟩, rfl⟩
    have htrivia : consumeTrivia rules 1 cs = some (cs, []) := by
      rw [consumeTrivia, whileLoop_exit (by simp [heof])]
      rfl
    simp only [Lexer.next, hcs, htrivia, Option.bind_some, lexToken, heof, if_true, Option.map_some]
  · exact absurd he hlexes.kind_ne

theorem eof_repeats (hr : LawfulRules rules) {n : Nat}
    (h : Emits (Lexer.Output rules strtod) l n o) (he : o.2.kind = .eof) (m : Nat) :
    Emits (Lexer.Output rules strtod) l (n + 1 + m) ([], o.2) := by
  have hagain : ∀ {n o}, Emits (Lexer.Output rules strtod) l n o → o.2.kind = .eof →
      Emits (Lexer.Output rules strtod) l (n + 1) ([], o.2) := by
    rintro n o ⟨as, t, hlen, hpulls⟩ he
    obtain ⟨u, -, hlast⟩ := hpulls.split
    cases hlast with
    | cons hstep hnil =>
      cases hnil
      obtain ⟨l'', hnext, htrivia⟩ := next_eof_again hr hstep.1 he
      refine ⟨as ++ [o], l'', by simp [hlen], hpulls.snoc ⟨hnext, htrivia.symm⟩⟩
  induction m with
  | zero => exact hagain h he
  | succ m ih => exact hagain (o := ([], o.2)) ih he

/-- The tokens of a run are those at the first positions. -/
theorem Run.emits {out : List (List TriviaPiece × Token D)} (hrun : Lexer.Run rules strtod l out)
    {n : Nat} (ho : out[n]? = some o) : Emits (Lexer.Output rules strtod) l n o := by
  have hpulls : ∃ l', Pulls (Lexer.Output rules strtod) l out l' := by
    clear ho
    induction hrun with
    | eof hnext => exact ⟨_, .cons ⟨hnext, rfl⟩ (.nil _)⟩
    | step hnext _ _ ih =>
      obtain ⟨l', hrest⟩ := ih
      exact ⟨l', .cons ⟨hnext, rfl⟩ hrest⟩
  obtain ⟨l', hpulls⟩ := hpulls
  obtain ⟨hn, rfl⟩ := List.getElem?_eq_some_iff.mp ho
  rw [← List.take_append_drop n out, ← List.getElem_cons_drop hn] at hpulls
  have hemits := hpulls.emits
  rwa [List.length_take_of_le (Nat.le_of_lt hn)] at hemits

end

/-- For every source and every sequence of calls, the stream answers as a position in the
outputs of the lexer does, and returns exactly where these exist. There is at most one
output for each number, `Eof` is followed by itself, and without NUL bytes there is one for
each number. -/
theorem tokenStream_refines_cursor (lang : Language) (strtod : Text → D × Nat) (buffer : Text) :
    (∀ calls : List (Call × Answer D),
      (∃ s, TokenStream.Calls lang.rules strtod ⟨.ofBuffer buffer, [], []⟩ calls s) ↔
        ∃ p, CursorRun (Emits (Lexer.Output lang.rules strtod) (.ofBuffer buffer)) 0 calls p) ∧
    (∀ n o o', Emits (Lexer.Output lang.rules strtod) (.ofBuffer buffer) n o →
      Emits (Lexer.Output lang.rules strtod) (.ofBuffer buffer) n o' → o = o') ∧
    (∀ n m o, Emits (Lexer.Output lang.rules strtod) (.ofBuffer buffer) n o → o.2.kind = .eof →
      Emits (Lexer.Output lang.rules strtod) (.ofBuffer buffer) (n + 1 + m) ([], o.2)) ∧
    ((0 : Byte) ∉ buffer → ∀ n, ∃ o,
      Emits (Lexer.Output lang.rules strtod) (.ofBuffer buffer) n o) := by
  have hstart : TokenStream.Stands lang.rules strtod (.ofBuffer buffer)
      ⟨.ofBuffer buffer, [], []⟩ 0 := TokenStream.stands_start _
  refine ⟨fun calls => ⟨?_, ?_⟩, fun _ _ _ ho ho' => Emits.unique output_atMostOne ho ho',
    fun n m o ho he => eof_repeats lang.lawful ho he m, fun h0 n => ?_⟩
  · rintro ⟨s, hcalls⟩
    exact hcalls.cursor hstart
  · rintro ⟨p, hcursor⟩
    exact hcursor.calls hstart
  · have htotal : ∀ l : Lexer, (0 : Byte) ∉ l.cs.buffer →
        ∃ o l', Lexer.Output lang.rules strtod l o l' ∧ (0 : Byte) ∉ l'.cs.buffer := by
      intro l hl
      obtain ⟨tok, l', hnext⟩ : ∃ (tok : Token D) (l' : Lexer), l.Next lang.rules strtod tok l' :=
        next_total lang.lawful hl
      exact ⟨(l'.trivia, tok), l', ⟨hnext, rfl⟩, by rwa [(next_moves lang.lawful hnext).buffer_eq]⟩
    exact emits_total htotal h0 n

/-- Lookahead past the end of `a b`, before anything is consumed. -/
theorem tokenStream_refines_cursor_pastEnd : ∃ (calls : List (Call × Answer Nat)) (p : Nat),
    calls.map (·.1) = [.peek 5, .consume, .leadingTrivia 0, .matchAny [.comma, .identifier],
      .matchKind .eof, .is .eof 1] ∧
    CursorRun (Emits (Lexer.Output athensLexRules fun t => (0, t.length)) (.ofBuffer (text "a b")))
      0 calls p := by
  have hcons : ∀ (call : Call) {answer : Answer Nat} {s s₁ s' : TokenStream Nat}
      {calls : List (Call × Answer Nat)},
      call.run athensLexRules (fun t => (0, t.length)) 20 s = some (answer, s₁) →
      TokenStream.Calls athensLexRules (fun t => (0, t.length)) s₁ calls s' →
      TokenStream.Calls athensLexRules (fun t => (0, t.length)) s ((call, answer) :: calls) s' :=
    fun call => TokenStream.Calls.cons
  obtain ⟨calls, s, hcalls, hrun⟩ : ∃ (calls : List (Call × Answer Nat)) (s : TokenStream Nat),
      calls.map (·.1) = [.peek 5, .consume, .leadingTrivia 0, .matchAny [.comma, .identifier],
        .matchKind .eof, .is .eof 1] ∧
      TokenStream.Calls athensLexRules (fun t => (0, t.length)) ⟨.ofBuffer (text "a b"), [], []⟩
        calls s :=
    ⟨_, _, rfl, hcons (.peek 5) rfl <| hcons .consume rfl <| hcons (.leadingTrivia 0) rfl <|
      hcons (.matchAny [.comma, .identifier]) rfl <| hcons (.matchKind .eof) rfl <|
      hcons (.is .eof 1) rfl <| .nil _⟩
  obtain ⟨p, hcursor⟩ := ((tokenStream_refines_cursor .athens _ _).1 calls).mp ⟨s, hrun⟩
  exact ⟨calls, p, hcalls, hcursor⟩

/-! ## The context of the parser -/

section
variable {G : Type} {rules : LexLanguageRules} {strtod : Text → D × Nat} {l : Lexer} {p : Nat}
  {out : List (List TriviaPiece × Token D)} {σ σ' : ParseState D G}

/-- The context holds the tokens of a run from position `p` on. -/
def ParseState.At (out : List (List TriviaPiece × Token D)) (p : Nat) (σ : ParseState D G) : Prop :=
  ∃ front pieces, out = front ++ [(pieces, ⟨.eof, [], σ.eofLoc, .none⟩)] ∧
    σ.tokens = (front.map (·.2)).drop p

theorem Run.at_start (hr : LawfulRules rules) (hrun : Lexer.Run rules strtod l out) (globals : G) :
    ∃ eofLoc, ({ tokens := out.dropLast.map (·.2), eofLoc, globals } : ParseState D G).At
      out 0 := by
  suffices hlast : ∃ front pieces eofLoc, out = front ++ [(pieces, ⟨.eof, [], eofLoc, .none⟩)] by
    obtain ⟨front, pieces, eofLoc, rfl⟩ := hlast
    exact ⟨eofLoc, front, pieces, rfl, by simp⟩
  induction hrun with
  | eof hnext he =>
    obtain ⟨cs, -, -, ⟨-, rfl, -⟩ | ⟨-, hlexes⟩⟩ := next_spec hr hnext
    · exact ⟨[], _, _, rfl⟩
    · exact absurd he hlexes.kind_ne
  | step _ _ _ ih =>
    obtain ⟨front, pieces, eofLoc, rfl⟩ := ih
    exact ⟨_ :: front, pieces, eofLoc, rfl⟩

theorem ParseState.At.tail (h : σ.At out p) :
    ({ σ with tokens := σ.tokens.tail } : ParseState D G).At out (p + 1) := by
  obtain ⟨front, pieces, hout, htokens⟩ := h
  exact ⟨front, pieces, hout, by simp [htokens]⟩

/-- The current token is the one that the stream hands out next, also behind the end. -/
theorem ParseState.At.current (hr : LawfulRules rules) (hrun : Lexer.Run rules strtod l out)
    (h : σ.At out p) :
    ∃ o, Emits (Lexer.Output rules strtod) l p o ∧ Parser.current σ = o.2 := by
  obtain ⟨front, pieces, hout, htokens⟩ := h
  have hlast : out[front.length]? = some (pieces, ⟨.eof, [], σ.eofLoc, .none⟩) := by simp [hout]
  rcases Nat.lt_trichotomy p front.length with hlt | rfl | hgt
  · have hp : out[p]? = some front[p] := by
      rw [hout, List.getElem?_append_left hlt, List.getElem?_eq_getElem hlt]
    refine ⟨front[p], Run.emits hrun hp, ?_⟩
    simp [Parser.current, htokens, List.headD_eq_head?_getD, List.head?_drop, hlt]
  · refine ⟨_, Run.emits hrun hlast, ?_⟩
    simp [Parser.current, htokens]
  · obtain ⟨m, rfl⟩ := Nat.exists_eq_add_of_le hgt
    refine ⟨_, eof_repeats hr (Run.emits hrun hlast) rfl m, ?_⟩
    have hnil : σ.tokens = [] := by
      rw [htokens, List.drop_eq_nil_iff, List.length_map]
      omega
    simp [Parser.current, hnil]

section
variable (hr : LawfulRules rules) (hrun : Lexer.Run rules strtod l out) (h : σ.At out p)
include hr hrun h

theorem consume_cursor {tok : Token D} (hconsume : Parser.consume σ = some (tok, σ')) :
    CursorStep (Emits (Lexer.Output rules strtod) l) p .consume (.token tok) (p + 1) ∧
      σ'.At out (p + 1) := by
  obtain ⟨o, ho, hcurrent⟩ := h.current hr hrun
  cases hconsume
  rw [hcurrent]
  exact ⟨.consume ho, h.tail⟩

theorem atKind_cursor {kind : TokenKind} {b : Bool}
    (hat : Parser.atKind kind σ = some (b, σ')) :
    CursorStep (Emits (Lexer.Output rules strtod) l) p (.is kind 0) (.found b) p ∧ σ'.At out p := by
  obtain ⟨o, ho, hcurrent⟩ := h.current hr hrun
  cases hat
  rw [hcurrent]
  exact ⟨.is kind ho, h⟩

theorem matchKind_cursor {kind : TokenKind} {b : Bool}
    (hmatch : Parser.matchKind kind σ = some (b, σ')) :
    ∃ p', CursorStep (Emits (Lexer.Output rules strtod) l) p (.matchKind kind) (.found b) p' ∧
      σ'.At out p' := by
  obtain ⟨o, ho, hcurrent⟩ := h.current hr hrun
  unfold Parser.matchKind at hmatch
  rw [hcurrent] at hmatch
  split at hmatch
  · rename_i hkind
    cases hmatch
    exact ⟨p + 1, .matched ho hkind, h.tail⟩
  · rename_i hkind
    cases hmatch
    exact ⟨p, .unmatched ho hkind, h⟩

theorem expect_cursor {kind : TokenKind} {message : String} {b : Bool}
    (hexpect : Parser.expect kind message σ = some (b, σ')) :
    ∃ p', CursorStep (Emits (Lexer.Output rules strtod) l) p (.expect kind σ.diag message)
      (.expected b σ'.diag) p' ∧ σ'.At out p' := by
  obtain ⟨o, ho, hcurrent⟩ := h.current hr hrun
  unfold Parser.expect Parser.errorHere Parser.error at hexpect
  rw [hcurrent] at hexpect
  split at hexpect
  · rename_i hkind
    cases hexpect
    exact ⟨p + 1, .expected σ.diag message ho hkind, h.tail⟩
  · rename_i hkind
    cases hexpect
    exact ⟨p, .unexpected σ.diag message ho hkind, h⟩

end

end

end AroundTheWorld.Parse
