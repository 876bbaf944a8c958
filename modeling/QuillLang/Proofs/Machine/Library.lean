import QuillLang.Proofs.Machine.Basic
/-!
# The library a program is linked with

Texts are read before a routine of the library runs, so that what it does is a plain function of its arguments: it prints,
it writes a text to its first argument, and it gives a value.  The graphics runtime answers as it likes.
-/
namespace QuillLang

inductive Argument where
  /-- A text and the pointer to it. -/
  | text (p : Pointer) (bytes : List UInt8)
  | other (v : Value)

namespace Library

/-- A text with arguments in the places of `%s` and `%lld`. -/
def format : List UInt8 → List Argument → List UInt8
  | 37 :: 115 :: rest, .text _ s :: args => s ++ format rest args
  | 37 :: 108 :: 108 :: 100 :: rest, .other (.i64 n) :: args => Utf8.bytes (Decimal.ofInt64 n) ++ format rest args
  | c :: rest, args => c :: format rest args
  | [], _ => []

/-- Negative, zero or positive, as the first text comes before, is or comes after the second. -/
def order : List UInt8 → List UInt8 → Int32
  | [], [] => 0
  | [], _ :: _ => -1
  | _ :: _, [] => 1
  | x :: xs, y :: ys => if x < y then -1 else if y < x then 1 else order xs ys

def digits (text : List UInt8) : Int64 :=
  (text.takeWhile fun c => 48 ≤ c && c ≤ 57).foldl (fun n c => 10 * n + (c.toNat - 48 : Nat).toInt64) 0

def readNumber (text : List UInt8) : Int64 :=
  match text.dropWhile fun c => c == 32 || (9 ≤ c && c ≤ 13) with
  | 45 :: rest => -digits rest
  | 43 :: rest => digits rest
  | rest => digits rest

structure Effect where
  /-- The new text of the first argument. -/
  written : Option (List UInt8)
  printed : List UInt8
  result : Value

def effect (w : Answer) (name : String) (ret : MachineType) (args : List Argument) : Option Effect :=
  if name ∈ External.graphics.map External.name then
    if ret = .void ∨ ret = .i64 then some ⟨none, [], .i64 w.number⟩ else none
  else
    match name, args with
    | "printf", .text _ f :: more => some ⟨none, format f more, .i32 (Int32.ofNat (format f more).length)⟩
    | "sprintf", .text _ _ :: .text _ f :: more =>
      some ⟨some (format f more), [], .i32 (Int32.ofNat (format f more).length)⟩
    | "strcpy", [.text p _, .text _ s] => some ⟨some s, [], .ptr p⟩
    | "strcat", [.text p t, .text _ s] => some ⟨some (t ++ s), [], .ptr p⟩
    | "strcmp", [.text _ s, .text _ t] => some ⟨none, [], .i32 (order s t)⟩
    | "strlen", [.text _ s] => some ⟨none, [], .i64 (Int64.ofNat s.length)⟩
    | "atol", [.text _ s] => some ⟨none, [], .i64 (readNumber s)⟩
    | "sin", [.other (.double _)] | "cos", [.other (.double _)] => some ⟨none, [], .double w.number.toUInt64⟩
    | _, _ => none

end Library

namespace Machine

def argument (a : Assembly) (m : Machine) : Value → Except Halt Argument
  | .ptr p => do
    let s ← m.text a p
    .ok (.text p s)
  | v => .ok (.other v)

def writeFirst (m : Machine) : List Value → Option (List UInt8) → Except Halt Machine
  | .ptr p :: _, some text => m.setText p text
  | _, some _ => stuck
  | _, none => .ok m

def badArgument (a : Assembly) (m : Machine) : Value → Bool
  | .ptr p => m.dangles a p
  | _ => false

/-- Call a routine of the library.  A pointer that dangles is a fault, whatever the other arguments are. -/
def callLibrary (a : Assembly) (w : Answer) (m : Machine) (name : String) (ret : MachineType) (vs : List Value) :
    Except Halt (Machine × Value) :=
  if vs.any (m.badArgument a) then .error (.fault .dangling)
  else do
    let args ← vs.mapM (m.argument a)
    match Library.effect w name ret args with
    | none => stuck
    | some e =>
      let m' ← m.writeFirst vs e.written
      .ok ({ m' with output := m'.output ++ e.printed }, e.result)

end Machine
end QuillLang
