import QuillLang.Lowering.Context
import QuillLang.Program.Cursor
import QuillLang.Token.Classify
/-!
# Diagnostics

Whatever stops a compilation is one of the errors of its stages.  Each has a code that does not change, a message, the place
it is about if there is one, a label for that place, and sometimes a hint.
-/
namespace QuillLang

inductive CompileError where
  | token (e : TokenError)
  | parse (e : ParseError)
  | lower (e : LowerError)
  deriving DecidableEq

namespace CompileError

def message : CompileError → String
  | token e => e.message
  | parse e => e.message
  | lower e => e.message

def span? : CompileError → Option Span
  | token e => some e.span
  | parse e => some e.span
  | lower e => e.span?

def code : CompileError → String
  | token (.invalidOperator _ _) => "quill::tokenize::invalid_operator"
  | token (.invalidNumber _ _) => "quill::tokenize::invalid_number"
  | token (.invalidDelimiter _ _) => "quill::tokenize::invalid_delimiter"
  | parse (.unexpectedToken _ _ _) => "quill::parse::unexpected_token"
  | parse (.unexpectedEnd _ _) => "quill::parse::unexpected_eof"
  | parse (.unclosedBlock _ _ _) => "quill::parse::unclosed_block"
  | parse (.unmatchedCloser _ _) => "quill::parse::unmatched_closer"
  | lower (.undefinedVariable _ _) => "quill::lower::undefined_variable"
  | lower (.undefinedFunction _ _) => "quill::lower::undefined_function"
  | lower (.undefinedResult _ _) => "quill::lower::undefined_result"
  | lower (.arityMismatch _ _ _ _) => "quill::lower::arity_mismatch"
  | lower (.kindMismatch _ _ _ _) => "quill::lower::kind_mismatch"
  | lower (.duplicateFunction _ _) => "quill::lower::duplicate_function"
  | lower (.graphicsDisabled _) => "quill::lower::graphics_disabled"
  | lower (.malformed _) => "quill::lower::verify"

def labelText : CompileError → String
  | token _ => "not a valid token"
  | parse (.unclosedBlock _ _ _) => "block opened here"
  | parse (.unmatchedCloser _ _) => "no open block"
  | lower (.duplicateFunction _ _) => "redefined here"
  | lower (.arityMismatch _ _ _ _) => "called here"
  | parse _ | lower _ => "here"

def help? : CompileError → Option String
  | token (.invalidOperator _ _) => some "operators are + - * / % = == != < > <= >="
  | lower (.undefinedResult _ _) => some "declare the variable with `make` before using it with `into`"
  | lower (.graphicsDisabled _) => some "build with `--graphics auto` to link the graphics runtime"
  | _ => none

end CompileError

/-- A label under a stretch of source, by byte offset and length. -/
structure Label where
  text : String
  offset : Nat
  length : Nat
  deriving DecidableEq

def CompileError.label? (e : CompileError) : Option Label :=
  e.span?.map fun s => ⟨e.labelText, s.start.offset, s.len⟩

end QuillLang
