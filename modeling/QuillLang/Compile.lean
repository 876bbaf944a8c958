import QuillLang.Diagnostic
import QuillLang.Lexeme.Lexer
import QuillLang.Lowering.Program
import QuillLang.Program.StmtReader
/-!
# Compiling

The stages in a row: bytes to lexemes, lexemes to tokens, tokens to a program, a program to the types of its variables and
the signatures of its functions, and from there to the text of an assembly.
-/
namespace QuillLang

structure Compilation where
  program : Program
  analysis : Analysis

namespace Compilation

def ofChunks (chunks : List (List UInt8)) : Except CompileError Compilation := do
  let stream := TokenStream.ofLexemes (Lexeme.ofChunks false chunks)
  let tokens ← stream.all.mapError .token
  let program ← (Program.ofTokens tokens stream.stop).mapError .parse
  .ok ⟨program, Analysis.ofProgram program⟩

end Compilation

namespace Program

def lowerText (p : Program) (sigs : Signatures) (options : LowerOptions) : Except CompileError String :=
  match p.lower sigs options with
  | .ok assembly => .ok assembly.text
  | .error e => .error (.lower e)

end Program
end QuillLang
