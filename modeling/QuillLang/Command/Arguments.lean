import QuillLang.Lowering.Program
/-!
# Arguments

A command line names a command and gives it options and one file.  Options may be long (`--output x`, `--output=x`) or short
(`-o x`, `-ox`, `-o=x`), short flags may be run together (`-vo x`), and `--` makes everything after it a file.  An argument
that begins with a minus sign is never taken for the value of an option.  No option may be given twice.  Arguments are read
from left to right, and the first fault, or the first wish for help, ends the reading.
-/
namespace QuillLang

inductive CommandName where
  | build
  | check
  | tokenize
  | parse
  deriving DecidableEq

namespace CommandName

def all : List CommandName := [build, check, tokenize, parse]

def text : CommandName → String
  | build => "build"
  | check => "check"
  | tokenize => "tokenize"
  | parse => "parse"

def ofText? (s : String) : Option CommandName :=
  all.find? fun c => c.text == s

end CommandName

inductive HelpTopic where
  | general
  | command (name : CommandName)
  | help
  deriving DecidableEq

inductive Stop where
  | help (topic : HelpTopic)
  | version
  /-- The arguments make no sense. -/
  | usage
  deriving DecidableEq

structure OptionSpec where
  short : Option Char
  long : String
  takesValue : Bool
  /-- Which values it takes. -/
  accepts : String → Bool

/-- What has been read of a command's arguments. -/
structure ParsedArgs where
  /-- Values by the long names of their options; a flag has the value `true`. -/
  options : Table String
  file : Option String
  deriving DecidableEq

namespace ParsedArgs

def empty : ParsedArgs := ⟨Table.empty, none⟩

def flag (a : ParsedArgs) (long : String) : Bool := a.options.contains long

def setOption (a : ParsedArgs) (spec : OptionSpec) (value : String) : Except Stop ParsedArgs :=
  if a.options.contains spec.long || !spec.accepts value then .error .usage
  else .ok { a with options := a.options.insert spec.long value }

def setFile (a : ParsedArgs) (path : String) : Except Stop ParsedArgs :=
  if a.file.isSome || path == "" then .error .usage else .ok { a with file := some path }

end ParsedArgs

/-- Options of a command together with the topic of its help. -/
structure CommandSpec where
  topic : HelpTopic
  options : List OptionSpec

namespace CommandSpec

/-- What an argument or a run of short options leads to. -/
inductive Progress where
  | done (args : ParsedArgs)
  /-- An option still wants its value. -/
  | wants (spec : OptionSpec) (args : ParsedArgs)

def readShort (c : CommandSpec) (a : ParsedArgs) : List Char → Except Stop Progress
  | [] => .ok (.done a)
  | ch :: rest =>
    if ch = 'h' then .error (.help c.topic)
    else
      match c.options.find? fun o => o.short == some ch with
      | none => .error .usage
      | some o =>
        if o.takesValue then
          match rest with
          | [] => .ok (.wants o a)
          | '=' :: value => do return .done (← a.setOption o (String.ofList value))
          | value => do return .done (← a.setOption o (String.ofList value))
        else do
          let a ← a.setOption o "true"
          readShort c a rest

/-- A long option, with the value attached to it if there is one. -/
def readLong (c : CommandSpec) (a : ParsedArgs) (name : String) (value : Option String) : Except Stop Progress :=
  if name == "help" then .error (if value.isSome then .usage else .help c.topic)
  else
    match c.options.find? fun o => o.long == name with
    | none => .error .usage
    | some o =>
      match o.takesValue, value with
      | true, some v => do return .done (← a.setOption o v)
      | true, none => .ok (.wants o a)
      | false, some _ => .error .usage
      | false, none => do return .done (← a.setOption o "true")

/-- A long option's name and attached value. -/
def splitLong (cs : List Char) : String × Option String :=
  let name := String.ofList (cs.takeWhile (· != '='))
  match cs.dropWhile (· != '=') with
  | [] => (name, none)
  | _ :: value => (name, some (String.ofList value))

/-- Files only. -/
def readFiles (a : ParsedArgs) : List String → Except Stop ParsedArgs
  | [] => .ok a
  | arg :: rest => do
    let a ← a.setFile arg
    readFiles a rest

/-- Read the arguments of a command. `pending` is an option that wants the next one for its value. -/
def read (c : CommandSpec) (a : ParsedArgs) (pending : Option OptionSpec) : List String → Except Stop ParsedArgs
  | [] => if pending.isSome then .error .usage else .ok a
  | arg :: rest =>
    match arg.toList, pending with
    | '-' :: _ :: _, some _ => .error .usage
    | _, some o => do
      let a ← a.setOption o arg
      read c a none rest
    | ['-', '-'], none => readFiles a rest
    | '-' :: '-' :: long, none => do
      let (name, value) := splitLong long
      match ← readLong c a name value with
      | .done a => read c a none rest
      | .wants o a => read c a (some o) rest
    | '-' :: s :: short, none => do
      match ← readShort c a (s :: short) with
      | .done a => read c a none rest
      | .wants o a => read c a (some o) rest
    | _, none => do
      let a ← a.setFile arg
      read c a none rest

end CommandSpec

/-! ## The commands -/

namespace GraphicsPolicy

def ofText? : String → Option GraphicsPolicy
  | "auto" => some auto
  | "always" => some always
  | "never" => some never
  | _ => none

end GraphicsPolicy

namespace CommandName

def spec (c : CommandName) : CommandSpec :=
  ⟨.command c,
    match c with
    | build =>
      [⟨some 'o', "output", true, fun v => v != ""⟩,
        ⟨none, "module-name", true, fun _ => true⟩,
        ⟨none, "target", true, fun _ => true⟩,
        ⟨none, "graphics", true, fun v => (GraphicsPolicy.ofText? v).isSome⟩,
        ⟨none, "emit-tokens", false, fun _ => true⟩,
        ⟨none, "emit-ast", false, fun _ => true⟩,
        ⟨none, "emit-types", false, fun _ => true⟩,
        ⟨some 'v', "verbose", false, fun _ => true⟩]
    | check | tokenize | parse => []⟩

end CommandName

structure BuildOptions where
  output : Option String
  moduleName : Option String
  target : Option String
  graphics : GraphicsPolicy
  emitTokens : Bool
  emitTree : Bool
  emitTypes : Bool
  verbose : Bool
  deriving DecidableEq

namespace BuildOptions

def ofArgs (a : ParsedArgs) : BuildOptions where
  output := a.options.get? "output"
  moduleName := a.options.get? "module-name"
  target := a.options.get? "target"
  graphics := ((a.options.get? "graphics").bind GraphicsPolicy.ofText?).getD .auto
  emitTokens := a.flag "emit-tokens"
  emitTree := a.flag "emit-ast"
  emitTypes := a.flag "emit-types"
  verbose := a.flag "verbose"

end BuildOptions

inductive Invocation where
  | build (file : String) (options : BuildOptions)
  | check (file : String)
  | tokenize (file : String)
  | parse (file : String)
  deriving DecidableEq

namespace Invocation

def file : Invocation → String
  | build f _ | check f | tokenize f | parse f => f

/-- The arguments of the command `help`: at most one topic. -/
def helpTopic : List String → Stop
  | [] => .help .general
  | ["help"] => .help .help
  | [name] =>
    match CommandName.ofText? name with
    | some c => .help (.command c)
    | none => .usage
  | _ => .usage

def ofCommand (c : CommandName) (args : List String) : Except Stop Invocation := do
  let a ← c.spec.read ParsedArgs.empty none args
  match a.file with
  | none => .error .usage
  | some f =>
    match c with
    | .build => .ok (.build f (BuildOptions.ofArgs a))
    | .check => .ok (.check f)
    | .tokenize => .ok (.tokenize f)
    | .parse => .ok (.parse f)

/-- A whole command line.  In front of a command only help and version can be asked for. -/
def ofArgs : List String → Except Stop Invocation
  | [] => .error .usage
  | arg :: rest =>
    match CommandName.ofText? arg with
    | some c => ofCommand c rest
    | none =>
      if arg == "help" then .error (helpTopic rest)
      else if arg == "--help" then .error (.help .general)
      else if arg == "--version" then .error .version
      else
        match arg.toList with
        | '-' :: 'h' :: _ => .error (.help .general)
        | '-' :: 'V' :: _ => .error .version
        | _ => .error .usage

end Invocation
end QuillLang
