import QuillLang.Command.Run
/-!
# The command

`quillc` over real files.  Everything is decided in `QuillLang.Command.Run`; here its one file is read, its one file is
written, and its report is printed.
-/
namespace QuillLang

/-- The bytes of a file; nothing when it cannot be read. -/
def readSource (path : String) : IO (Option (List UInt8)) := do
  try
    return some (← IO.FS.readBinFile path).toList
  catch _ => return none

/-- Write a file, and tell whether that went well. -/
def writeOutput (out : Output) : IO Bool := do
  try
    IO.FS.writeFile out.path out.content
    return true
  catch _ => return false

def Report.print (r : Report) : IO UInt32 := do
  IO.print r.stdout
  IO.eprint r.stderr
  return UInt32.ofNat r.status

end QuillLang

open QuillLang in
def main (args : List String) : IO UInt32 := do
  match Invocation.ofArgs args with
  | .error stop => stop.report.print
  | .ok i =>
    let o := i.run (← readSource i.file)
    match o.output? with
    | none => (o.report true).print
    | some out => (o.report (← writeOutput out)).print
