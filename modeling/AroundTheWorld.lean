import AroundTheWorld.Base.While
import AroundTheWorld.Base.Cover
import AroundTheWorld.Base.OpTree
import AroundTheWorld.Base.Gen
import AroundTheWorld.Base.Scopes
import AroundTheWorld.Base.Steps
import AroundTheWorld.Base.Numerals
import AroundTheWorld.Base.Growth
import AroundTheWorld.Base.Inherited
import AroundTheWorld.Lex.Token
import AroundTheWorld.Lex.Decimal
import AroundTheWorld.Lex.CharStream
import AroundTheWorld.Lex.Rules
import AroundTheWorld.Lex.Lexer
import AroundTheWorld.Lex.Scan
import AroundTheWorld.Lex.Progress
import AroundTheWorld.Lex.Ahead
import AroundTheWorld.Lex.Lossless
import AroundTheWorld.Lex.Determinism
import AroundTheWorld.Lex.Spelling
import AroundTheWorld.Parse.Context
import AroundTheWorld.Parse.Engine
import AroundTheWorld.Parse.DefaultGrammarPack
import AroundTheWorld.Parse.Pratt
import AroundTheWorld.Parse.Yields
import AroundTheWorld.Parse.Returns
import AroundTheWorld.Parse.Calls
import AroundTheWorld.Parse.Takes
import AroundTheWorld.Llvm.Ir
import AroundTheWorld.Llvm.Builder
import AroundTheWorld.Base.Dominance
import AroundTheWorld.Llvm.Flow
import AroundTheWorld.Llvm.Sound
import AroundTheWorld.Llvm.Run
import AroundTheWorld.Llvm.IntOps
import AroundTheWorld.Athens.Ast
import AroundTheWorld.Athens.GrammarPack
import AroundTheWorld.Base.Grammar
import AroundTheWorld.Athens.Spells
import AroundTheWorld.Athens.Grammar
import AroundTheWorld.Athens.ParseComplete
import AroundTheWorld.Athens.Print
import AroundTheWorld.Athens.Codegen
import AroundTheWorld.Athens.CodegenSpec
import AroundTheWorld.Athens.Keeps
import AroundTheWorld.Athens.Driver
import AroundTheWorld.Athens.Runtime
import AroundTheWorld.Athens.Definition
import AroundTheWorld.Athens.ActiveOperators
import AroundTheWorld.Athens.Prologue
import AroundTheWorld.Athens.Handed
import AroundTheWorld.Athens.Arity
import AroundTheWorld.Athens.Terminates
import AroundTheWorld.Athens.Accepts
import AroundTheWorld.Athens.Session
import AroundTheWorld.Athens.Scope
import AroundTheWorld.Athens.Emits
import AroundTheWorld.Athens.Flow
import AroundTheWorld.Athens.Eval
import AroundTheWorld.Mlir.Builder
import AroundTheWorld.Berlin.MlirGen
import AroundTheWorld.Berlin.Scope
import AroundTheWorld.Athens.Agrees
import AroundTheWorld.Athens.Correct
import AroundTheWorld.Smt.Program
import AroundTheWorld.Dublin.Ast
import AroundTheWorld.Dublin.SmtEmitter
import AroundTheWorld.Dublin.Eval
import AroundTheWorld.Dublin.EmitterCorrect
import AroundTheWorld.Dublin.Typing
import AroundTheWorld.Dublin.Accepts
import AroundTheWorld.Dublin.Widths
import AroundTheWorld.Dublin.Places
import AroundTheWorld.Dublin.Negation
import AroundTheWorld.Dublin.Symmetry
import AroundTheWorld.Dublin.Verdict
import AroundTheWorld.Dublin.Names
import AroundTheWorld.Dublin.GrammarPack
import AroundTheWorld.Dublin.ParseComplete
import AroundTheWorld.Dublin.Terminates
import AroundTheWorld.Cairo.Ir
import AroundTheWorld.Cairo.Codegen
import AroundTheWorld.Cairo.Params
import AroundTheWorld.Cairo.Isolation
import AroundTheWorld.Base.Visits
import AroundTheWorld.Cairo.Grown
import AroundTheWorld.Cairo.Machine
import AroundTheWorld.Cairo.Loop
import AroundTheWorld.Mlir.Run
import AroundTheWorld.Berlin.Grown
import AroundTheWorld.Berlin.Loop
import AroundTheWorld.Agreement.Loops
import AroundTheWorld.Agreement.Parsing
import AroundTheWorld.Berlin.Module
import AroundTheWorld.Berlin.Nested
import AroundTheWorld.Berlin.Structure
import AroundTheWorld.Base.Abstraction
import AroundTheWorld.Berlin.Driver
import AroundTheWorld.Berlin.Failure
import AroundTheWorld.Berlin.Report
import AroundTheWorld.Lex.Layout
import AroundTheWorld.Lex.Lines
import AroundTheWorld.Parse.Aligned
import AroundTheWorld.Athens.Aligned
import AroundTheWorld.Athens.Lines
import AroundTheWorld.Base.Pulls
import AroundTheWorld.Parse.TokenStream
import AroundTheWorld.Base.Erasing
import AroundTheWorld.Cairo.Scope
import AroundTheWorld.Agreement.Assignments
import AroundTheWorld.Athens.Operators
import AroundTheWorld.Shell.Words
import AroundTheWorld.Dublin.Commands
import AroundTheWorld.Cairo.Launcher
import AroundTheWorld.Edinburgh.Sched
import AroundTheWorld.Lex.Numbers
import AroundTheWorld.Lex.Locations
import AroundTheWorld.Athens.Unary
import AroundTheWorld.Agreement.Reference
import AroundTheWorld.Mlir.Thread
import AroundTheWorld.Berlin.Follows
import AroundTheWorld.Agreement.BackEnd
import AroundTheWorld.Berlin.Meant
import AroundTheWorld.Cairo.Follows
import AroundTheWorld.Cairo.Meant
import AroundTheWorld.Agreement.Known
import AroundTheWorld.Agreement.Tested
import AroundTheWorld.Athens.Follows
import AroundTheWorld.Athens.Meant
import AroundTheWorld.Agreement.Expressions
import AroundTheWorld.Athens.Linked
import AroundTheWorld.Athens.Loaded
import AroundTheWorld.Base.Locals
import AroundTheWorld.Berlin.Compiled
import AroundTheWorld.Berlin.Iterations
import AroundTheWorld.Berlin.Linked
import AroundTheWorld.Berlin.Accepted
import AroundTheWorld.Agreement.Functions
import AroundTheWorld.Cairo.Compiled
import AroundTheWorld.Cairo.Functions
import AroundTheWorld.Cairo.Linked
