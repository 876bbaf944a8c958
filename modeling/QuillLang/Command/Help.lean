import QuillLang.Command.Arguments
/-!
# Help

What the command says about itself when asked.
-/
namespace QuillLang

/-- At least `width` characters, blanks in front. -/
def padLeft (width : Nat) (s : String) : String :=
  String.ofList (List.replicate (width - s.length) ' ') ++ s

/-- At least `width` characters, blanks behind. -/
def padRight (width : Nat) (s : String) : String :=
  s ++ String.ofList (List.replicate (width - s.length) ' ')

def version : String := "0.1.0"

def versionText : String := "quillc " ++ version ++ "\n"

namespace CommandName

def about : CommandName → String
  | build => "Compile a Quill source file to LLVM IR"
  | check => "Check a file for errors without lowering it"
  | tokenize => "Lex a file and print its preprocessing tokens"
  | parse => "Parse a file and print the program tree"

def fileHelp : CommandName → String
  | build => "Input file to compile"
  | check => "Input file to check"
  | tokenize => "Input file to tokenize"
  | parse => "Input file to parse"

end CommandName

namespace HelpTopic

/-- What the command `help` does. -/
def helpAbout : String := "Print this message or the help of the given subcommand(s)"

def generalLines : List String :=
  ["The Quill Compiler", "",
    "Usage: quillc <COMMAND>", "",
    "Commands:"] ++
  (CommandName.all.map fun c => "  " ++ padRight 8 c.text ++ "  " ++ c.about) ++
  ["  help      " ++ helpAbout, "",
    "Options:",
    "  -h, --help     Print help",
    "  -V, --version  Print version"]

def buildLines : List String :=
  ["Usage: quillc build [OPTIONS] <FILE>", "",
    "Arguments:",
    "  <FILE>  " ++ CommandName.build.fileHelp, "",
    "Options:",
    "  -o, --output <FILE>              Output file (defaults to the input with an `.ll` extension)",
    "      --module-name <MODULE_NAME>  Module name (defaults to the input file stem)",
    "      --target <TRIPLE>            Target triple to record in the module",
    "      --graphics <GRAPHICS>        When to declare the graphics runtime [default: auto] [possible values: auto, " ++
      "always, never]",
    "      --emit-tokens                Emit tokens (for debugging)",
    "      --emit-ast                   Emit AST (for debugging)",
    "      --emit-types                 Emit inferred types (for debugging)",
    "  -v, --verbose                    Print stage summaries to stderr",
    "  -h, --help                       Print help"]

def fileCommandLines (c : CommandName) : List String :=
  ["Usage: quillc " ++ c.text ++ " <FILE>", "",
    "Arguments:",
    "  <FILE>  " ++ c.fileHelp, "",
    "Options:",
    "  -h, --help  Print help"]

def lines : HelpTopic → List String
  | general => generalLines
  | help =>
    [helpAbout, "",
      "Usage: quillc help [COMMAND]...", "",
      "Arguments:",
      "  [COMMAND]...  Print help for the subcommand(s)"]
  | command .build => CommandName.build.about :: "" :: buildLines
  | command c => c.about :: "" :: fileCommandLines c

def text (t : HelpTopic) : String :=
  String.join (t.lines.map fun l => l ++ "\n")

end HelpTopic
end QuillLang
