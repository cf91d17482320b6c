import Mathlib.Data.List.Forall2
import AroundTheWorld.Athens.Aligned
import AroundTheWorld.Athens.Terminates
import AroundTheWorld.Lex.Lines

/-!
# Loading a file and typing its lines

When every line ends its last item with a `;`, reading the lines one after another hands
on what reading them as one file does.
-/

namespace AroundTheWorld.Athens

open AroundTheWorld.Base AroundTheWorld.Lex AroundTheWorld.Llvm AroundTheWorld.Parse

variable {D : Type}

/-! ## Loading a stream -/

section
variable (ops : FloatOps D) (jit : List (FunctionIR D) → Bool) (ofInt : Int → D)

/-- What a turn hands on, in calls that nest no deeper than there are tokens. -/
def Stream.hands (input : Stream D) (s : Session D) : Option (Handed D × ParseState D BinopTable) :=
  input.handed ofInt (input.tokens.length + 1) s

/-- `ParseStream` returns `true`: what it hands on, and the session behind it. -/
inductive Loads : Stream D → Session D → List (Handed D) → Session D → Prop where
  | done {input : Stream D} {s : Session D} : (Parser.current (input.context s)).kind = .eof →
      Loads input s [] s
  | semicolon {input : Stream D} {s s' : Session D} {trace : List (Handed D)} :
      (Parser.current (input.context s)).kind = .semicolon →
      Loads ⟨input.tokens.tail, input.eofLoc⟩ s trace s' → Loads input s trace s'
  | handed {input : Stream D} {s s₁ s' : Session D} {x : Handed D} {σ : ParseState D BinopTable}
      {trace : List (Handed D)} : input.hands ofInt s = some (x, σ) →
      x.handle ops jit (s.withTable σ.globals) = .ok true s₁ → Loads (skipSemicolon σ) s₁ trace s' →
      Loads input s (x :: trace) s'

/-- One call of `ParseStream` for each line. -/
inductive LoadsLines : List (Stream D) → Session D → List (Handed D) → Session D → Prop where
  | nil {s : Session D} : LoadsLines [] s [] s
  | cons {line : Stream D} {lines : List (Stream D)} {s s₁ s' : Session D}
      {trace trace' : List (Handed D)} : Loads ops jit ofInt line s trace s₁ →
      LoadsLines lines s₁ trace' s' → LoadsLines (line :: lines) s (trace ++ trace') s'

end

section
variable {ops : FloatOps D} {jit : List (FunctionIR D) → Bool} {ofInt : Int → D} {fuel : Nat}
  {input : Stream D} {s s' : Session D} {trace : List (Handed D)}

/-- With calls that may nest deeper, the same is handed on, and a token is gone. -/
theorem Stream.handed_eq (ofInt : Int → D) (input : Stream D) (s : Session D) :
    (∀ fuel, input.tokens.length < fuel → input.handed ofInt fuel s = input.hands ofInt s) ∧
      ∀ x σ, input.hands ofInt s = some (x, σ) → σ.tokens <:+ input.tokens.tail := by
  have hreg := athensRegistry_handlersCount (D := D) ofInt
  obtain ⟨item, σ₁, hsuffix₁, hitem⟩ :=
    parseItem_terminates hreg .null .null {} [] (input.context s)
  obtain ⟨expr, σ₂, hsuffix₂, hexpr⟩ :=
    parseExpression_terminates hreg .null .null [] 0 (input.context s)
  have hitems : ∀ fuel, input.tokens.length < fuel →
      athensParseItem ofInt fuel (input.context s) = some (item, σ₁) :=
    fun fuel hfuel => (hitem fuel hfuel).1
  have hexprs : ∀ fuel, input.tokens.length < fuel →
      (athensEngine ofInt fuel).parseExpression 0 (input.context s) = some (expr, σ₂) :=
    fun fuel hfuel => (hexpr fuel hfuel).1
  have hlast := Nat.lt_succ_self input.tokens.length
  refine ⟨fun fuel hfuel => ?_, fun x σ h => ?_⟩
  · simp only [Stream.hands, Stream.handed, hitems fuel hfuel, hexprs fuel hfuel, hitems _ hlast,
      hexprs _ hlast]
  · simp only [Stream.hands, Stream.handed, hitems _ hlast, hexprs _ hlast, Option.bind_some] at h
    have hcases : σ = σ₁ ∨ σ = σ₂ := by
      split at h
      · cases h
      · cases h
      · split at h
        · obtain ⟨y, -, heq⟩ := Option.map_eq_some_iff.mp h
          exact .inl (Prod.mk.inj heq).2.symm
        · cases h
      · split at h
        · obtain ⟨y, -, heq⟩ := Option.map_eq_some_iff.mp h
          exact .inl (Prod.mk.inj heq).2.symm
        · cases h
      · split at h
        · exact .inr (Prod.mk.inj (Option.some.inj h)).2.symm
        · cases h
    rcases hcases with rfl | rfl
    · exact hsuffix₁
    · exact hsuffix₂

theorem skipSemicolon_suffix (σ : ParseState D BinopTable) :
    (skipSemicolon σ).tokens <:+ σ.tokens := by
  unfold skipSemicolon
  split
  · exact List.tail_suffix _
  · exact List.suffix_refl _

theorem Stream.hands_kind {r : Handed D × ParseState D BinopTable}
    (h : input.hands ofInt s = some r) : (Parser.current (input.context s)).kind ≠ .eof ∧
      (Parser.current (input.context s)).kind ≠ .semicolon := by
  unfold Stream.hands Stream.handed at h
  constructor
  · intro heof
    rw [heof] at h
    cases h
  · intro hsemicolon
    rw [hsemicolon] at h
    cases h

theorem Stream.hands_ne_nil {r : Handed D × ParseState D BinopTable}
    (h : input.hands ofInt s = some r) : input.tokens ≠ [] := tokens_ne_nil (hands_kind h).1

theorem skipSemicolon_lt {x : Handed D} {σ : ParseState D BinopTable}
    (h : input.hands ofInt s = some (x, σ)) :
    (skipSemicolon σ).tokens.length < input.tokens.length := by
  have hsuffix := (skipSemicolon_suffix σ).trans ((Stream.handed_eq ofInt input s).2 x σ h)
  have hle := hsuffix.length_le
  have hpos := List.length_pos_iff.mpr (Stream.hands_ne_nil h)
  rw [List.length_tail] at hle
  omega

/-- `ParseStream` returns `true` under every bound that the tokens fit in. -/
theorem Loads.parseStream (h : Loads ops jit ofInt input s trace s') {turns : Nat}
    (hfuel : input.tokens.length < fuel) (hturns : input.tokens.length < turns) :
    parseStream ops jit ofInt fuel turns input s = some (.ok true s') := by
  induction h generalizing turns with
  | done heof =>
    obtain ⟨n, rfl⟩ := Nat.exists_eq_succ_of_ne_zero (Nat.ne_zero_of_lt hturns)
    simp only [Athens.parseStream, parseStreamTurn, heof, Option.bind_some]
  | @semicolon input s s' trace hsemicolon _ ih =>
    obtain ⟨n, rfl⟩ := Nat.exists_eq_succ_of_ne_zero (Nat.ne_zero_of_lt hturns)
    have hne : (Parser.current (input.context s)).kind ≠ .eof := by
      rw [hsemicolon]
      decide
    have hpos : 0 < input.tokens.length := List.length_pos_iff.mpr (tokens_ne_nil hne)
    simp only [Athens.parseStream, parseStreamTurn, hsemicolon, Option.bind_some]
    apply ih <;> rw [List.length_tail] <;> omega
  | @handed input s s₁ s' x σ trace hhands hhandle _ ih =>
    obtain ⟨n, rfl⟩ := Nat.exists_eq_succ_of_ne_zero (Nat.ne_zero_of_lt hturns)
    have hlt := skipSemicolon_lt hhands
    obtain ⟨hdiag, hturn⟩ : σ.diag = [] ∧ parseStreamTurn ops jit ofInt fuel input s = _ :=
      parseStreamTurn_of_handed (((Stream.handed_eq ofInt input s).1 fuel hfuel).trans hhands)
    rw [finishTurn_eq hdiag, hhandle] at hturn
    simp only [Athens.parseStream, hturn, Option.bind_some]
    exact ih (by omega) (by omega)

/-- Induction on the turns. -/
theorem loads_of_parseStream {turns : Nat} (hfuel : input.tokens.length < fuel)
    (h : parseStream ops jit ofInt fuel turns input s = some (.ok true s')) :
    ∃ trace, Loads ops jit ofInt input s trace s' := by
  induction turns generalizing input s with
  | zero => cases h
  | succ turns ih =>
    obtain ⟨r, hturn, h⟩ := Option.bind_eq_some_iff.mp h
    by_cases heof : (Parser.current (input.context s)).kind = .eof
    · simp only [parseStreamTurn, heof] at hturn
      cases hturn
      cases h
      exact ⟨[], .done heof⟩
    by_cases hsemicolon : (Parser.current (input.context s)).kind = .semicolon
    · simp only [parseStreamTurn, hsemicolon] at hturn
      cases hturn
      have hlen : input.tokens.tail.length < fuel := by
        rw [List.length_tail]
        omega
      obtain ⟨trace, hrest⟩ := ih hlen h
      exact ⟨trace, .semicolon hsemicolon hrest⟩
    rcases parseStreamTurn_at hturn heof hsemicolon with ⟨table, rfl⟩ | ⟨x, σ, hhanded, hdiag, rfl⟩
    · cases h
    · have hhands := ((Stream.handed_eq ofInt input s).1 fuel hfuel).symm.trans hhanded
      have hlt := skipSemicolon_lt hhands
      rw [finishTurn_eq hdiag] at h
      cases hhandle : x.handle ops jit (s.withTable σ.globals) with
      | ok handled s₁ =>
        rw [hhandle] at h
        cases handled with
        | false => cases h
        | true =>
          obtain ⟨trace, hrest⟩ := ih (by omega) h
          exact ⟨x :: trace, .handed hhands hhandle hrest⟩
      | null s₁ =>
        rw [hhandle] at h
        cases h
      | abort why =>
        rw [hhandle] at h
        cases h

theorem Loads.of_nil (h : Loads ops jit ofInt input s trace s') (hnil : input.tokens = []) :
    trace = [] ∧ s' = s := by
  have heof : (Parser.current (input.context s)).kind = .eof := by
    simp [Parser.current, Stream.context, hnil]
  cases h with
  | done => exact ⟨rfl, rfl⟩
  | semicolon hsemicolon =>
    rw [heof] at hsemicolon
    cases hsemicolon
  | handed hhands => exact absurd hnil (Stream.hands_ne_nil hhands)

theorem loads_nil (hnil : input.tokens = []) : Loads ops jit ofInt input s [] s := by
  refine .done ?_
  simp [Parser.current, Stream.context, hnil]

end

/-! ## Lines of a file -/

/-- Two streams in front of the same tokens and of what comes later. -/
def AlignedStreams (later later' : List (Token D)) (input input' : Stream D) : Prop :=
  ∃ ts ts', ts.map (·.content) = ts'.map (·.content) ∧ input.tokens = ts ++ later ∧
    input'.tokens = ts' ++ later'

/-- The last token is the `;` of the last item. -/
structure Stream.EndsItem (line : Stream D) : Prop where
  semicolon : ∃ ts tok, line.tokens = ts ++ [tok] ∧ tok.kind = .semicolon
  noEof : ∀ tok ∈ line.tokens, tok.kind ≠ .eof

section
variable {ops : FloatOps D} {jit : List (FunctionIR D) → Bool} {ofInt : Int → D}
  {input line : Stream D} {s s' : Session D} {trace : List (Handed D)}
    {later later' : List (Token D)}

theorem AlignedStreams.context (h : AlignedStreams later later' input line) (s : Session D) :
    Aligned later later' (input.context s) (line.context s) := ⟨h, rfl, rfl⟩

theorem AlignedStreams.symm (h : AlignedStreams later later' input line) :
    AlignedStreams later' later line input := by
  obtain ⟨ts, ts', hts, hinput, hline⟩ := h
  exact ⟨ts', ts, hts.symm, hline, hinput⟩

variable (hlater : StartsWith .semicolon later) (hlater' : StartsWith .semicolon later')
include hlater hlater'

/-- The `;` behind an item is skipped in both streams, or both end there. -/
theorem skipSemicolon_tracks {σ τ : ParseState D BinopTable} (h : Aligned later later' σ τ) :
    AlignedStreams later later' (skipSemicolon σ) (skipSemicolon τ) ∨
      ((skipSemicolon σ).tokens = later.tail ∧ (skipSemicolon τ).tokens = later'.tail) := by
  have hkind := h.current_kind hlater hlater'
  obtain ⟨ts, ts', hts, hσ, hτ⟩ := h.tokens
  unfold skipSemicolon
  rw [← hkind]
  split
  · cases ts with
    | nil =>
      obtain rfl : ts' = [] := by simpa using hts.symm
      exact .inr ⟨by rw [hσ]; rfl, by rw [hτ]; rfl⟩
    | cons tok ts =>
      cases ts' with
      | nil => cases hts
      | cons tok' ts' =>
        exact .inl ⟨ts, ts', (List.cons.inj hts).2, by rw [hσ]; rfl, by rw [hτ]; rfl⟩
  · exact .inl h.tokens

theorem hands_tracks {x : Handed D} {σ : ParseState D BinopTable}
    (h : AlignedStreams later later' input line) (hhands : input.hands ofInt s = some (x, σ)) :
    ∃ τ, line.hands ofInt s = some (x, τ) ∧ Aligned later later' σ τ := by
  have hlen : input.tokens.length < input.tokens.length + line.tokens.length + 1 := by omega
  have hlen' : line.tokens.length < input.tokens.length + line.tokens.length + 1 := by omega
  rw [← (Stream.handed_eq ofInt input s).1 _ hlen] at hhands
  rw [← (Stream.handed_eq ofInt line s).1 _ hlen']
  exact handed_tracks hlater hlater' (h.context s) hhands

end

section
variable {ops : FloatOps D} {jit : List (FunctionIR D) → Bool} {ofInt : Int → D}
  {input line : Stream D} {s s₁ s' : Session D} {trace trace' : List (Handed D)}
    {tok tok' : Token D}
  {more : List (Token D)}

theorem current_ne_eof (hnoEof : ∀ tok ∈ line.tokens, tok.kind ≠ .eof) (hne : line.tokens ≠ []) :
    (Parser.current (line.context s)).kind ≠ .eof := by
  obtain ⟨tok, rest, hcons⟩ := List.exists_cons_of_ne_nil hne
  have hcurrent : Parser.current (line.context s) = tok := by
    simp [Parser.current, Stream.context, hcons]
  rw [hcurrent]
  exact hnoEof tok (by simp [hcons])

theorem AlignedStreams.ne_nil (h : AlignedStreams [tok] (tok' :: more) line input) :
    line.tokens ≠ [] := by
  obtain ⟨ts, ts', -, hline, -⟩ := h
  simp [hline]

/-- A line that is loaded may be loaded in front of others. Induction on its turns. -/
theorem Loads.append (hkind : tok.kind = .semicolon) (hkind' : tok'.kind = .semicolon)
    (h : Loads ops jit ofInt line s trace s₁)
    (halign : AlignedStreams [tok] (tok' :: more) line input)
    (hnoEof : ∀ tok ∈ line.tokens, tok.kind ≠ .eof)
    (hmore : ∀ rest, rest.tokens = more → Loads ops jit ofInt rest s₁ trace' s') :
    Loads ops jit ofInt input s (trace ++ trace') s' := by
  have hlater : StartsWith .semicolon [tok] := ⟨tok, [], rfl, hkind⟩
  have hlater' : StartsWith .semicolon (tok' :: more) := ⟨tok', more, rfl, hkind'⟩
  induction h generalizing input with
  | done heof => exact absurd heof (current_ne_eof hnoEof halign.ne_nil)
  | @semicolon line s s₁ trace hsemicolon hrest ih =>
    have hsame := (halign.context s).current_kind hlater hlater'
    have hskip := skipSemicolon_tracks hlater hlater' (halign.context s)
    simp only [skipSemicolon, ← hsame, if_pos hsemicolon] at hskip
    refine .semicolon (hsame.symm.trans hsemicolon) ?_
    rcases hskip with hskip | ⟨hnil, htail⟩
    · exact ih hskip (fun tok htok => hnoEof tok (List.mem_of_mem_tail htok)) hmore
    · obtain ⟨rfl, rfl⟩ := hrest.of_nil hnil
      exact hmore _ htail
  | @handed line s s₂ s₁ x σ trace hhands hhandle hrest ih =>
    obtain ⟨τ, hhands', hστ⟩ := hands_tracks hlater hlater' halign hhands
    have hsuffix := ((skipSemicolon_suffix σ).trans
      ((Stream.handed_eq ofInt line s).2 x σ hhands)).trans (List.tail_suffix _)
    rw [hστ.globals] at hhandle
    refine .handed hhands' hhandle ?_
    rcases skipSemicolon_tracks hlater hlater' hστ with hskip | ⟨hnil, htail⟩
    · exact ih hskip (fun tok htok => hnoEof tok (hsuffix.mem htok)) hmore
    · obtain ⟨rfl, rfl⟩ := hrest.of_nil hnil
      exact hmore _ htail

/-- What is loaded in front of others is loaded alone. -/
theorem Loads.split (hkind : tok.kind = .semicolon) (hkind' : tok'.kind = .semicolon)
    (h : Loads ops jit ofInt input s trace s')
    (halign : AlignedStreams [tok] (tok' :: more) line input)
    (hnoEof : ∀ tok ∈ line.tokens, tok.kind ≠ .eof) :
    ∃ trace₁ s₁ trace₂ rest, trace = trace₁ ++ trace₂ ∧ Loads ops jit ofInt line s trace₁ s₁ ∧
      rest.tokens = more ∧ Loads ops jit ofInt rest s₁ trace₂ s' := by
  have hlater : StartsWith .semicolon [tok] := ⟨tok, [], rfl, hkind⟩
  have hlater' : StartsWith .semicolon (tok' :: more) := ⟨tok', more, rfl, hkind'⟩
  induction h generalizing line with
  | @done input s heof =>
    rw [← (halign.context s).current_kind hlater hlater'] at heof
    exact absurd heof (current_ne_eof hnoEof halign.ne_nil)
  | @semicolon input s s' trace hsemicolon hrest ih =>
    have hsame := (halign.context s).current_kind hlater hlater'
    rw [← hsame] at hsemicolon
    have hskip := skipSemicolon_tracks hlater hlater' (halign.context s)
    simp only [skipSemicolon, ← hsame, if_pos hsemicolon] at hskip
    rcases hskip with hskip | ⟨hnil, htail⟩
    · obtain ⟨trace₁, s₁, trace₂, rest, rfl, hline, hmore, hloads⟩ :=
        ih hskip fun tok htok => hnoEof tok (List.mem_of_mem_tail htok)
      exact ⟨trace₁, s₁, trace₂, rest, rfl, .semicolon hsemicolon hline, hmore, hloads⟩
    · exact ⟨[], s, trace, _, rfl, .semicolon hsemicolon (loads_nil hnil), htail, hrest⟩
  | @handed input s s₂ s' x τ trace hhands hhandle hrest ih =>
    obtain ⟨σ, hhands', hτσ⟩ := hands_tracks hlater' hlater halign.symm hhands
    have hsuffix := ((skipSemicolon_suffix σ).trans
      ((Stream.handed_eq ofInt line s).2 x σ hhands')).trans (List.tail_suffix _)
    rw [hτσ.globals] at hhandle
    rcases skipSemicolon_tracks hlater hlater' hτσ.symm with hskip | ⟨hnil, htail⟩
    · obtain ⟨trace₁, s₁, trace₂, rest, rfl, hline, hmore, hloads⟩ :=
        ih hskip fun tok htok => hnoEof tok (hsuffix.mem htok)
      exact ⟨x :: trace₁, s₁, trace₂, rest, rfl, .handed hhands' hhandle hline, hmore, hloads⟩
    · exact ⟨[x], s₂, trace, _, rfl, .handed hhands' hhandle (loads_nil hnil), htail, hrest⟩

/-- The contents of the first line, and of what comes behind it. -/
theorem Stream.EndsItem.aligned {contents : List (TokenKind × Text × LiteralValue D)}
    (hline : line.EndsItem)
    (hinput : input.tokens.map (·.content) = line.tokens.map (·.content) ++ contents) :
    ∃ tok tok' more, tok.kind = .semicolon ∧ tok'.kind = .semicolon ∧
      AlignedStreams [tok] (tok' :: more) line input ∧ more.map (·.content) = contents := by
  obtain ⟨ts, tok, hts, hkind⟩ := hline.semicolon
  obtain ⟨us, more, hus, hsame, hmore⟩ := List.map_eq_append_iff.mp hinput
  rw [hts, List.map_append] at hsame
  obtain ⟨ts', last, rfl, hts', hlast⟩ := List.map_eq_append_iff.mp hsame
  obtain ⟨tok', rfl, hcontent⟩ := List.map_eq_singleton_iff.mp hlast
  refine ⟨tok, tok', more, hkind, (content_kind hcontent).trans hkind,
    ⟨ts, ts', hts'.symm, hts, ?_⟩, hmore⟩
  rw [hus, List.append_assoc]
  rfl

/-- Induction on the lines. -/
theorem loads_lines_iff {lines : List (Stream D)} (hlines : ∀ line ∈ lines, line.EndsItem)
    (hinput : input.tokens.map (·.content) =
      (lines.map fun line => line.tokens.map (·.content)).flatten) :
    Loads ops jit ofInt input s trace s' ↔ LoadsLines ops jit ofInt lines s trace s' := by
  induction lines generalizing input s trace with
  | nil =>
    have hnil : input.tokens = [] := by simpa using hinput
    constructor
    · intro h
      obtain ⟨rfl, rfl⟩ := h.of_nil hnil
      exact .nil
    · rintro ⟨⟩
      exact loads_nil hnil
  | cons line lines ih =>
    rw [List.forall_mem_cons] at hlines
    obtain ⟨hline, hlines⟩ := hlines
    rw [List.map_cons, List.flatten_cons] at hinput
    obtain ⟨tok, tok', more, hkind, hkind', halign, hmore⟩ := hline.aligned hinput
    constructor
    · intro h
      obtain ⟨trace₁, s₁, trace₂, rest, rfl, hfirst, hrest, hloads⟩ :=
        h.split hkind hkind' halign hline.noEof
      exact .cons hfirst ((ih hlines (by rw [hrest, hmore])).mp hloads)
    · intro h
      cases h with
      | cons hfirst hothers =>
        refine hfirst.append hkind hkind' halign hline.noEof fun rest hrest => ?_
        exact (ih hlines (by rw [hrest, hmore])).mpr hothers

end

/-! ## Sessions with the same tables -/

/-- What the parser and the code generator look names up in. -/
structure SameTables (s t : Session D) : Prop where
  binopPrecedence : s.globals.binopPrecedence = t.globals.binopPrecedence
  functionProtos : s.globals.functionProtos = t.globals.functionProtos

section
variable {ops : FloatOps D} {jit jit' : List (FunctionIR D) → Bool} {ofInt : Int → D}
  {input : Stream D} {s s' t t' : Session D} {trace trace' : List (Handed D)}

theorem handleDefinition_tables {f : FunctionAST D}
    (h : handleDefinition ops jit f s = .ok true s') :
    s'.globals.binopPrecedence = (s.globals.define f.proto).binopPrecedence ∧
      s'.globals.functionProtos = (s.globals.define f.proto).functionProtos := by
  have htables := f.codegen_tables ops s.globals
    (fun _ _ => trivial : ∀ why, why ≠ Abort.binaryOperatorNotFound → True)
    (fun _ _ => .inr trivial)
  rw [handleDefinition_eq] at h
  cases hrun : f.codegen ops s.globals with
  | null g =>
    rw [hrun] at h
    cases h
  | abort why =>
    rw [hrun] at h
    cases h
  | ok fnIR g =>
    rw [hrun] at h htables
    dsimp only at h
    split at h
    · cases h
      exact ⟨htables.binopPrecedence, htables.functionProtos⟩
    · cases h

theorem handleExtern_tables {p : PrototypeAST} (h : handleExtern p s = .ok true s') :
    s'.globals.binopPrecedence = s.globals.binopPrecedence ∧
      s'.globals.functionProtos = s.globals.functionProtos.insert p := by
  obtain ⟨m, hcodegen, -⟩ := p.codegen_eq s.globals
  simp only [handleExtern, Bind.bind, Gen.bind, generate, hcodegen] at h
  cases h
  exact ⟨rfl, rfl⟩

/-- What is handed on alone decides how the tables change. -/
theorem SameTables.handle {x : Handed D} (hsame : SameTables s t)
    (hs : x.handle ops jit s = .ok true s') (ht : x.handle ops jit' t = .ok true t') :
    SameTables s' t' := by
  have hdefinition : ∀ f : FunctionAST D, handleDefinition ops jit f s = .ok true s' →
      handleDefinition ops jit' f t = .ok true t' → SameTables s' t' := by
    intro f hs ht
    obtain ⟨hbinop, hprotos⟩ := handleDefinition_tables hs
    obtain ⟨hbinop', hprotos'⟩ := handleDefinition_tables ht
    constructor
    · rw [hbinop, hbinop', AthensState.define, AthensState.define, hsame.binopPrecedence]
    · rw [hprotos, hprotos', AthensState.define, AthensState.define, hsame.functionProtos]
  cases x with
  | definition f => exact hdefinition f hs ht
  | extern_ p =>
    obtain ⟨hbinop, hprotos⟩ := handleExtern_tables hs
    obtain ⟨hbinop', hprotos'⟩ := handleExtern_tables ht
    constructor
    · rw [hbinop, hbinop', hsame.binopPrecedence]
    · rw [hprotos, hprotos', hsame.functionProtos]
  | expression expr =>
    cases expr with
    | null => cases hs
    | _ => exact hdefinition _ hs ht

/-- The same stream is parsed alike under the same operators, whatever has been handed over
before. Induction on the turns. -/
theorem Loads.same_tables (h : Loads ops jit ofInt input s trace s')
    (h' : Loads ops jit' ofInt input t trace' t') (hsame : SameTables s t) :
    trace = trace' ∧ SameTables s' t' := by
  -- the current token of a stream does not depend on the session
  induction h generalizing t trace' with
  | @done input s heof =>
    cases h' with
    | done => exact ⟨rfl, hsame⟩
    | semicolon hsemicolon => exact absurd (heof.symm.trans hsemicolon) (by decide)
    | handed hhands => exact absurd heof (Stream.hands_kind hhands).1
  | @semicolon input s s' trace hsemicolon _ ih =>
    cases h' with
    | done heof => exact absurd (heof.symm.trans hsemicolon) (by decide)
    | semicolon _ hrest => exact ih hrest hsame
    | handed hhands => exact absurd hsemicolon (Stream.hands_kind hhands).2
  | @handed input s s₁ s' x σ trace hhands hhandle _ ih =>
    have hcontext : input.context s = input.context t := by
      rw [Stream.context, Stream.context, hsame.binopPrecedence]
    have hhands' : input.hands ofInt t = some (x, σ) := by
      rw [← hhands]
      simp only [Stream.hands, Stream.handed, hcontext]
    cases h' with
    | done heof => exact absurd heof (Stream.hands_kind hhands).1
    | semicolon hsemicolon => exact absurd hsemicolon (Stream.hands_kind hhands).2
    | handed hhands₂ hhandle₂ hrest₂ =>
      rw [hhands'] at hhands₂
      obtain ⟨rfl, rfl⟩ := Prod.mk.inj (Option.some.inj hhands₂)
      have hwith : SameTables (s.withTable σ.globals) (t.withTable σ.globals) :=
        ⟨rfl, hsame.functionProtos⟩
      obtain ⟨rfl, htables⟩ := ih hrest₂ (hwith.handle hhandle hhandle₂)
      exact ⟨rfl, htables⟩

end

/-! ## Files and lines -/

/-- The stream of the tokens that the lexer has made. -/
def Stream.ofRun (out : List (List TriviaPiece × Token D)) : Stream D where
  tokens := tokensOf out
  eofLoc := (out.getLast?.map (·.2.sourceLoc)).getD {}

/-- A line whose last token is a `;`. -/
structure TerminatedLine (strtod : Text → D × Nat) (line : Text)
    (out : List (List TriviaPiece × Token D)) : Prop where
  run : Lexer.Run athensLexRules strtod (Lexer.ofBuffer line) out
  semicolon : ∃ ts tok, tokensOf out = ts ++ [tok] ∧ tok.kind = .semicolon

section
variable {strtod : Text → D × Nat} {lines : List Text}
  {outs : List (List (List TriviaPiece × Token D))}

theorem run_noEof {rules : LexLanguageRules} {l : Lexer} {out : List (List TriviaPiece × Token D)}
    (h : Lexer.Run rules strtod l out) : ∀ tok ∈ tokensOf out, tok.kind ≠ .eof := by
  induction h with
  | eof => simp [tokensOf]
  | @step l l' tok out hnext hkind hrest ih =>
    have hcons : tokensOf ((l'.trivia, tok) :: out) = tok :: tokensOf out := by
      cases hrest <;> rfl
    rw [hcons, List.forall_mem_cons]
    exact ⟨hkind, ih⟩

theorem TerminatedLine.endsItem {line : Text} {out : List (List TriviaPiece × Token D)}
    (h : TerminatedLine strtod line out) : (Stream.ofRun out).EndsItem :=
  ⟨h.semicolon, run_noEof h.run⟩

/-- Lines that end with a `;` hand on the same ASTs, in the same order, and leave the same
session behind, whether they are read as one file or one by one; and the same ASTs and
tables whenever both succeed from the same tables. -/
theorem file_agrees_with_lines (ops : FloatOps D) (ofInt : Int → D)
    (hlines : List.Forall₂ (TerminatedLine strtod) lines outs) :
    ∃ out, Lexer.Run athensLexRules strtod (Lexer.ofBuffer ([byte '\n'].intercalate lines)) out ∧
      (∀ jit s trace s', Loads ops jit ofInt (.ofRun out) s trace s' ↔
        LoadsLines ops jit ofInt (outs.map .ofRun) s trace s') ∧
      ∀ jit jit' s t trace trace' s' t', SameTables s t →
        Loads ops jit ofInt (.ofRun out) s trace s' →
        LoadsLines ops jit' ofInt (outs.map .ofRun) t trace' t' →
        trace = trace' ∧ SameTables s' t' := by
  have hruns : List.Forall₂ (fun line out => Lexer.Run Language.athens.rules strtod
      (Lexer.ofBuffer line) out) lines outs := hlines.imp fun _ _ h => h.run
  obtain ⟨out, hrun, hcontents⟩ := run_lines .athens hruns
  have hends : ∀ line ∈ outs.map Stream.ofRun, line.EndsItem := by
    clear hrun hruns hcontents
    induction hlines with
    | nil => simp
    | cons hline _ ih =>
      rw [List.map_cons, List.forall_mem_cons]
      exact ⟨hline.endsItem, ih⟩
  have hinput : (Stream.ofRun out).tokens.map (·.content) =
      ((outs.map Stream.ofRun).map fun line => line.tokens.map (·.content)).flatten := by
    rw [List.map_map]
    exact hcontents
  have hiff : ∀ jit s trace s', Loads ops jit ofInt (.ofRun out) s trace s' ↔
      LoadsLines ops jit ofInt (outs.map .ofRun) s trace s' :=
    fun jit s trace s' => loads_lines_iff hends hinput
  refine ⟨out, hrun, hiff, ?_⟩
  intro jit jit' s t trace trace' s' t' hsame hfile hline
  exact hfile.same_tables ((hiff jit' t trace' t').mpr hline) hsame

/-- A line that defines an operator, and one that uses it. -/
theorem file_agrees_with_lines_operator : ∃ (outs : List (List (List TriviaPiece × Token Int)))
    (trace : List (Handed Int)) (s' : Session Int),
    List.Forall₂ (TerminatedLine fun t => ((0 : Int), t.length))
      [text "def binary @ 5 (a b) a + b;", text "1 @ 2; # three"] outs ∧
    LoadsLines wholeOps (fun _ => true) id (outs.map .ofRun) .start trace s' ∧
    s'.globals.binopPrecedence (byte '@') = some 5 := by
  have hterminated : ∀ {line : Text} {out : List (List TriviaPiece × Token Int)},
      (tokensOf out).getLast?.map (·.kind) = some .semicolon →
      (Lexer.ofBuffer line).tokenize athensLexRules (fun t => ((0 : Int), t.length)) 70 40 =
        some out → TerminatedLine (fun t => ((0 : Int), t.length)) line out := by
    intro line out hlast hout
    obtain ⟨tok, htok, hkind⟩ := Option.map_eq_some_iff.mp hlast
    obtain ⟨ts, hts⟩ := List.getLast?_eq_some_iff.mp htok
    exact ⟨tokenize_run hout, ts, tok, hts, hkind⟩
  obtain ⟨first, hlast₁, hfirst⟩ : ∃ out, (tokensOf out).getLast?.map (·.kind) = some .semicolon ∧
      (Lexer.ofBuffer (text "def binary @ 5 (a b) a + b;")).tokenize athensLexRules
        (fun t => ((0 : Int), t.length)) 70 40 = some out := ⟨_, by decide +kernel, rfl⟩
  obtain ⟨second, hlast₂, hsecond⟩ : ∃ out, (tokensOf out).getLast?.map (·.kind) = some .semicolon ∧
      (Lexer.ofBuffer (text "1 @ 2; # three")).tokenize athensLexRules
        (fun t => ((0 : Int), t.length)) 70 40 = some out := ⟨_, by decide +kernel, rfl⟩
  have hlines := List.Forall₂.cons (hterminated hlast₁ hfirst)
    (.cons (hterminated hlast₂ hsecond) .nil)
  obtain ⟨out, hrun, hiff, -⟩ := file_agrees_with_lines wholeOps id hlines
  -- the file, read and loaded by the driver
  have h : (((Lexer.ofBuffer (text "def binary @ 5 (a b) a + b;\n1 @ 2; # three")).tokenize
      athensLexRules (fun t => ((0 : Int), t.length)) 70 40).bind fun out =>
        (parseStream wholeOps (fun _ => true) id 40 40 (.ofRun out) .start).map fun r =>
          decide (r.value? = some true ∧ (tokensOf out).length < 40) && r.state?.any fun s' =>
            s'.globals.binopPrecedence (byte '@') == some 5) = some true := by
    decide +kernel
  obtain ⟨file, hfile, h⟩ := Option.bind_eq_some_iff.mp h
  obtain ⟨r, hstream, h⟩ := Option.map_eq_some_iff.mp h
  obtain rfl := Run.unique hrun (tokenize_run hfile)
  rw [Bool.and_eq_true] at h
  obtain ⟨hvalue, hlen⟩ := of_decide_eq_true h.1
  obtain ⟨s', rfl⟩ := Outcome.ok_of_value hvalue
  obtain ⟨trace, hloads⟩ := loads_of_parseStream hlen hstream
  exact ⟨_, trace, s', hlines, (hiff _ _ _ _).mp hloads, beq_iff_eq.mp h.2⟩

end

end AroundTheWorld.Athens
