import AroundTheWorld.Shell.Words

/-!
# The commands Dublin hands to the shell

`exportSmtlib` and `runZ3` write a path into the text of a command, through
`shellQuote`. The loop of `shellQuote` keeps in step with the reading of the shell:
after every byte of the path the shell is inside the single quotes it opened, with
exactly the bytes so far as its word.
-/

namespace AroundTheWorld.Dublin

open AroundTheWorld.Lex AroundTheWorld.Shell

/-- What the loop of `shellQuote` appends for one byte. -/
def quoteByte (c : Byte) : Text := if c = byte '\'' then text "'\\''" else [c]

def shellQuote (path : Text) : Text :=
  path.foldl (fun quoted c => quoted ++ quoteByte c) (text "'") ++ text "'"

/-- The command of `exportSmtlib`. -/
def exportCommand (mlirPath smt2Path : Text) : Text :=
  text "mlir-translate-21 --export-smtlib " ++ shellQuote mlirPath ++ text " > " ++
    shellQuote smt2Path

/-- The command of `runZ3`. -/
def z3Command (smt2Path : Text) : Text := text "z3 " ++ shellQuote smt2Path

theorem shellQuote_eq (path : Text) :
    shellQuote path = byte '\'' :: path.flatMap quoteByte ++ [byte '\''] := by
  have hloop (path quoted : Text) :
      path.foldl (fun quoted c => quoted ++ quoteByte c) quoted =
        quoted ++ path.flatMap quoteByte := by
    induction path generalizing quoted with
    | nil => simp
    | cons c path ih => simp [ih]
  simp [shellQuote, hloop, text]

/-- One byte of the path: the shell is back inside single quotes, one byte on. -/
theorem inSingle_quoteByte {r : Reader} (h : r.Outside) (w : Word) (c : Byte) :
    (r.inSingle w).read (quoteByte c) = r.inSingle (w ++ [⟨c, true⟩]) := by
  by_cases hc : c = byte '\''
  · have hclosed := h.join w
    have hescaped := hclosed.read_escaped c (by rw [hc]; decide)
    have hopen := (hclosed.join [⟨c, true⟩]).step_quote
    calc (r.inSingle w).read (quoteByte c)
        = ((r.join w).read [byte '\\', c]).step (byte '\'') := by
          rw [← h.inSingle_quote w, hc]
          rfl
      _ = ((r.join w).join [⟨c, true⟩]).inSingle [] := by rw [hescaped, hopen]
      _ = r.inSingle (w ++ [⟨c, true⟩]) := by simp [Reader.inSingle]
  · have hkept := r.inSingle_read w [c] (by simpa using Ne.symm hc)
    simpa [quoteByte, hc, literal] using hkept

theorem inSingle_quoteBytes {r : Reader} (h : r.Outside) (w : Word) (path : Text) :
    (r.inSingle w).read (path.flatMap quoteByte) = r.inSingle (w ++ literal path) := by
  induction path generalizing w with
  | nil => simp [literal]
  | cons c path ih =>
    rw [List.flatMap_cons, Reader.read_append, inSingle_quoteByte h, ih]
    simp [literal]

/-- The quoted path is read as the path, joined to the word it is written in. -/
theorem read_shellQuote {r : Reader} (h : r.Outside) (path : Text) :
    r.read (shellQuote path) = r.join (literal path) := by
  rw [shellQuote_eq, List.cons_append, Reader.read_cons, h.step_quote, Reader.read_append,
    inSingle_quoteBytes h, Reader.read_cons, h.inSingle_quote]
  rfl

theorem shellQuote_noNul {path : Text} (h : 0 ∉ path) : 0 ∉ shellQuote path := by
  have hbyte (c : Byte) (hc : c ≠ 0) : 0 ∉ quoteByte c := by
    unfold quoteByte
    split
    · decide
    · simpa using hc.symm
  have hbytes : 0 ∉ path.flatMap quoteByte := by
    intro hmem
    obtain ⟨c, hc, hzero⟩ := List.mem_flatMap.mp hmem
    exact hbyte c (fun hc0 => h (hc0 ▸ hc)) hzero
  rw [shellQuote_eq]
  simp [hbytes, show (0 : Byte) ≠ byte '\'' by decide]

/-- `quoted` is the word `s` to the shell, wherever a word may be written and
whatever is written behind it. -/
structure ReadAs (quoted s : Text) : Prop where
  alone : tokens quoted = some [.word (literal s)]
  outside : ∀ r : Reader, r.Outside → (r.read (cString quoted)).Outside
  joined : ∀ (r : Reader) (rest : Text), r.Outside →
    r.read (cString (quoted ++ rest)) = (r.join (literal s)).read (cString rest)
  plainly : Reader.Plainly s → ∀ (r : Reader) (rest : Text), r.Outside →
    (r.read (cString (quoted ++ rest))).bare = (r.read (cString (s ++ rest))).bare

theorem shellQuote_readAs {path : Text} (h : 0 ∉ path) : ReadAs (shellQuote path) path where
  alone := by
    rw [tokens, cString_eq (shellQuote_noNul h), read_shellQuote Reader.start_outside]
    rfl
  outside r hr := by
    rw [cString_eq (shellQuote_noNul h), read_shellQuote hr]
    exact hr.join _
  joined r rest hr := by
    rw [cString_append (shellQuote_noNul h), Reader.read_append, read_shellQuote hr]
  plainly hplain r rest hr := by
    rw [cString_append (shellQuote_noNul h), cString_append h, Reader.read_append,
      Reader.read_append, read_shellQuote hr]
    exact Reader.bare_read (hr.read_plainly hplain).symm _

/-- After a blank the quoted path is a word of its own. -/
theorem read_blank_shellQuote (before : List Token) (path : Text) :
    Reader.read ⟨.none, .nothing, before⟩ (shellQuote path) =
      ⟨.none, .word (literal path), before⟩ :=
  read_shellQuote ⟨rfl, by simp⟩ path

/-- A word written without quotes, of no special byte. -/
def bareWord (s : Text) : Word := s.map fun c => ⟨c, false⟩

theorem commands_z3 {path : Text} (h : 0 ∉ path) :
    commands (z3Command path) = some [⟨[bareWord (text "z3"), literal path], []⟩] := by
  have hfront : Reader.start.read (text "z3 ") =
      ⟨.none, .nothing, [.word (bareWord (text "z3"))]⟩ := by decide +kernel
  have hread : Reader.start.read (cString (z3Command path)) =
      ⟨.none, .word (literal path), [.word (bareWord (text "z3"))]⟩ := by
    rw [z3Command, cString_append (by decide), cString_eq (shellQuote_noNul h),
      Reader.read_append, hfront, read_blank_shellQuote]
  rw [commands, tokens, hread]
  rfl

theorem commands_export {mlirPath smt2Path : Text} (hmlir : 0 ∉ mlirPath) (hsmt2 : 0 ∉ smt2Path) :
    commands (exportCommand mlirPath smt2Path) =
      some [⟨[bareWord (text "mlir-translate-21"), bareWord (text "--export-smtlib"),
        literal mlirPath], [(text ">", literal smt2Path)]⟩] := by
  let words : List Token := [.word (bareWord (text "mlir-translate-21")),
    .word (bareWord (text "--export-smtlib"))]
  have hfront : Reader.start.read (text "mlir-translate-21 --export-smtlib ") =
      ⟨.none, .nothing, words⟩ := by decide +kernel
  have hmiddle : Reader.read ⟨.none, .word (literal mlirPath), words⟩ (text " > ") =
      ⟨.none, .nothing, words ++ [.word (literal mlirPath), .operator (text ">")]⟩ := rfl
  have hread : Reader.start.read (cString (exportCommand mlirPath smt2Path)) =
      ⟨.none, .word (literal smt2Path),
        words ++ [.word (literal mlirPath), .operator (text ">")]⟩ := by
    rw [exportCommand, List.append_assoc, List.append_assoc, cString_append (by decide),
      cString_append (shellQuote_noNul hmlir), cString_append (by decide),
      cString_eq (shellQuote_noNul hsmt2), Reader.read_append, Reader.read_append,
      Reader.read_append, hfront, read_blank_shellQuote, hmiddle, read_blank_shellQuote]
  rw [commands, tokens, hread]
  rfl

/-- The shell takes the quoted path for one word, the path itself, and runs exactly
the one command that each caller wrote. -/
theorem shellQuote_inverted (path : Text) (h : 0 ∉ path) :
    ReadAs (shellQuote path) path ∧
    commands (z3Command path) = some [⟨[bareWord (text "z3"), literal path], []⟩] ∧
    ∀ mlirPath : Text, 0 ∉ mlirPath →
      commands (exportCommand mlirPath path) =
        some [⟨[bareWord (text "mlir-translate-21"), bareWord (text "--export-smtlib"),
          literal mlirPath], [(text ">", literal path)]⟩] :=
  ⟨shellQuote_readAs h, commands_z3 h, fun _ hmlir => commands_export hmlir h⟩

theorem shellQuote_inverted_hostile :
    ReadAs (shellQuote (text "a'; rm $HOME #")) (text "a'; rm $HOME #") ∧
    commands (z3Command (text "a'; rm $HOME #")) =
      some [⟨[bareWord (text "z3"), literal (text "a'; rm $HOME #")], []⟩] ∧
    commands (exportCommand (text "''") (text "a'; rm $HOME #")) =
      some [⟨[bareWord (text "mlir-translate-21"), bareWord (text "--export-smtlib"),
        literal (text "''")], [(text ">", literal (text "a'; rm $HOME #"))]⟩] :=
  have h := shellQuote_inverted (text "a'; rm $HOME #") (by decide)
  ⟨h.1, h.2.1, h.2.2 (text "''") (by decide)⟩

end AroundTheWorld.Dublin
