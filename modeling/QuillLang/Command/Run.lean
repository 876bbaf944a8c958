import QuillLang.Command.FileTree
import QuillLang.Command.Help
import QuillLang.Compile
import QuillLang.Program.Outline
/-!
# Running a command

What a command does with the bytes of its file: what it prints, what it writes, and how it ends.  Nothing here touches the
world; a run over a file tree and a run over real files are both made from the same parts.
-/
namespace QuillLang

/-- The source is read in pieces of this many bytes. -/
def chunkSize : Nat := 8192

/-- Bytes in pieces of one size, the last perhaps shorter.  `n` bounds the number of pieces. -/
def chunksOf (size : Nat) : Nat → List UInt8 → List (List UInt8)
  | 0, _ => []
  | _, [] => []
  | n + 1, bs => bs.take size :: chunksOf size n (bs.drop size)

/-- Bytes in pieces of one size, which is not zero. -/
def chunks (size : Nat) (bs : List UInt8) : List (List UInt8) :=
  chunksOf size bs.length bs

inductive RunError where
  | unreadable (path : String)
  | unwritable (path : String)
  | compile (error : CompileError)
  deriving DecidableEq

def RunError.message : RunError → String
  | unreadable path => "Failed to read " ++ path
  | unwritable path => "Failed to write " ++ path
  | compile e => e.code ++ ": " ++ e.message

/-- A file to be written, and what is reported once it is. -/
structure Output where
  path : String
  content : String
  notice : String
  deriving DecidableEq

/-- What a command prints, and what comes of it: a fault, or perhaps a file to be written. -/
structure Outcome where
  stdout : String
  stderr : String
  result : Except RunError (Option Output)

/-! ## Reports -/

def Lexeme.line (x : Lexeme) : String :=
  padLeft 4 (Decimal.ofNat x.span.start.line) ++ ":" ++ padRight 4 (Decimal.ofNat x.span.start.column) ++ " " ++
    padRight 12 x.kind.name ++ " " ++ Quoted.quote x.text ++ "\n"

def lexemeReport (source : List UInt8) : String :=
  String.join ((Lexeme.ofChunks false (chunks chunkSize source)).map Lexeme.line)

def variableLines (indent : String) (vars : VarTable) : String :=
  String.join (vars.entries.map fun e => indent ++ e.1 ++ " : " ++ e.2.name ++ "\n")

def signatureLine (sigs : Signatures) (func : String) : String :=
  "  " ++ func ++ "(" ++ ", ".intercalate (((sigs.recorded? func).getD []).map Ty.name) ++ ") -> " ++
    (sigs.returnType func).name ++ "\n"

def typeReport (a : Analysis) : String :=
  "=== Types ===\n" ++ variableLines "  " a.topLevel ++
    String.join (a.functions.entries.map fun e => "  func " ++ e.1 ++ "\n" ++ variableLines "    " e.2) ++
    "=== Signatures ===\n" ++ String.join (a.signatures.functions.map (signatureLine a.signatures))

/-- The number of lines; a last line need not be ended. -/
def lineCount (text : String) : Nat :=
  let cs := text.toList
  cs.count '\n' + (if cs.getLast?.any (· != '\n') then 1 else 0)

/-! ## Commands -/

def BuildOptions.lowerOptions (o : BuildOptions) (file : String) : LowerOptions :=
  ⟨o.moduleName.getD ((Path.stem? file).getD "quill"), some file, o.target, o.graphics⟩

/-- Text that is shown only when asked for. -/
def shown (wanted : Bool) (text : String) : String :=
  if wanted then text else ""

def runBuild (file : String) (o : BuildOptions) (source : List UInt8) : Outcome :=
  let opening := shown o.verbose ("Compiling " ++ file ++ " (" ++ Decimal.ofNat source.length ++ " bytes)...\n")
  let tokens := shown o.emitTokens ("=== Tokens ===\n" ++ lexemeReport source)
  match Compilation.ofChunks (chunks chunkSize source) with
  | .error e => ⟨tokens, opening, .error (.compile e)⟩
  | .ok c =>
    let summary := shown o.verbose
      ("Parsed " ++ Decimal.ofNat c.program.statements.length ++ " statements (" ++
        Decimal.ofNat c.program.nodeCount ++ " nodes), " ++ Decimal.ofNat c.analysis.functions.size ++
        " function(s)\n")
    let tree := shown o.emitTree ("=== AST ===\n" ++ c.program.outline.text ++ "\n")
    let types := shown o.emitTypes (typeReport c.analysis)
    let stdout := tokens ++ tree ++ types
    let stderr := opening ++ summary
    match c.program.lowerText c.analysis.signatures (o.lowerOptions file) with
    | .error e => ⟨stdout, stderr, .error (.compile e)⟩
    | .ok text =>
      let path := o.output.getD (Path.withExtension file "ll")
      let notice := shown o.verbose ("Wrote " ++ path ++ " (" ++ Decimal.ofNat (lineCount text) ++ " lines)\n")
      ⟨stdout, stderr, .ok (some ⟨path, text, notice⟩)⟩

def runCheck (file : String) (source : List UInt8) : Outcome :=
  match Compilation.ofChunks (chunks chunkSize source) with
  | .error e => ⟨"", "", .error (.compile e)⟩
  | .ok c =>
    match c.program.lowerText c.analysis.signatures LowerOptions.standard with
    | .error e => ⟨"", "", .error (.compile e)⟩
    | .ok _ =>
      ⟨"No errors found in " ++ file ++ " (" ++ Decimal.ofNat c.program.statements.length ++ " statements)\n", "",
        .ok none⟩

def runParse (source : List UInt8) : Outcome :=
  match Compilation.ofChunks (chunks chunkSize source) with
  | .error e => ⟨"", "", .error (.compile e)⟩
  | .ok c => ⟨c.program.outline.text ++ "\n", "", .ok none⟩

def Invocation.run (i : Invocation) (source : Option (List UInt8)) : Outcome :=
  match source with
  | none => ⟨"", "", .error (.unreadable i.file)⟩
  | some bytes =>
    match i with
    | .build file o => runBuild file o bytes
    | .check file => runCheck file bytes
    | .tokenize _ => ⟨lexemeReport bytes, "", .ok none⟩
    | .parse _ => runParse bytes

/-! ## How a run ends -/

/-- The exit status, and what was printed. -/
structure Report where
  status : Nat
  stdout : String
  stderr : String
  deriving DecidableEq

/-- A command line that leads to no work: help is a success, arguments that make no sense are status 2. -/
def Stop.report : Stop → Report
  | .help topic => ⟨0, topic.text, ""⟩
  | .version => ⟨0, versionText, ""⟩
  | .usage => ⟨2, "", HelpTopic.general.text⟩

namespace Outcome

/-- The file to be written, if the command got that far. -/
def output? (o : Outcome) : Option Output :=
  match o.result with
  | .error _ => none
  | .ok out => out

def failed (o : Outcome) (e : RunError) : Report :=
  ⟨1, o.stdout, o.stderr ++ e.message ++ "\n"⟩

/-- The end of a command, once it is known whether its file could be written. -/
def report (o : Outcome) (written : Bool) : Report :=
  match o.result with
  | .error e => o.failed e
  | .ok none => ⟨0, o.stdout, o.stderr⟩
  | .ok (some out) => if written then ⟨0, o.stdout, o.stderr ++ out.notice⟩ else o.failed (.unwritable out.path)

end Outcome

/-- A whole run of the command line over a file tree: how it ends, and the tree after it. -/
def runCommand (args : List String) (files : FileTree) : Report × FileTree :=
  match Invocation.ofArgs args with
  | .error stop => (stop.report, files)
  | .ok i =>
    let o := i.run (files.read? i.file)
    match o.output? with
    | none => (o.report true, files)
    | some out =>
      match files.write? out.path (Utf8.bytes out.content) with
      | none => (o.report false, files)
      | some after => (o.report true, after)

end QuillLang
