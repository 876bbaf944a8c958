import QuillLang.Text.CharClass
/-!
# Outlines

A tree of named parts laid out over lines, each level four blanks further in and each part closed by a comma.

Texts in it stand between double quotes, and nothing in them is left to the eye: the quote, the backslash and the common
controls have a two-character form, and whatever does not show is written by its code point.
-/
namespace QuillLang

namespace Quoted

/-- A code point in lower-case hexadecimal, without leading zeros. -/
def hex (n : Nat) : String :=
  String.ofList (Nat.toDigits 16 n)

/-- One character between the quotes. -/
def escape (c : Char) : String :=
  match c with
  | '\x00' => "\\0"
  | '\t' => "\\t"
  | '\r' => "\\r"
  | '\n' => "\\n"
  | '\\' => "\\\\"
  | '"' => "\\\""
  | c => if Visible.isVisible c then c.toString else "\\u\x7b" ++ hex c.toNat ++ "\x7d"

def quote (s : String) : String :=
  "\"" ++ s.foldl (fun acc c => acc ++ escape c) "" ++ "\""

end Quoted

inductive Outline where
  | atom (text : String)
  /-- A part with its name in front. -/
  | labelled (label : String) (value : Outline)
  /-- Parts between an opening and a closing. -/
  | group (opening closing : String) (parts : List Outline)

namespace Outline

def record (name : String) (fields : List (String × Outline)) : Outline :=
  group (name ++ " \x7b") "\x7d" (fields.map fun f => labelled f.1 f.2)

def tuple (name : String) (parts : List Outline) : Outline :=
  group (name ++ "(") ")" parts

def list (parts : List Outline) : Outline :=
  group "[" "]" parts

def optional : Option Outline → Outline
  | none => atom "None"
  | some o => tuple "Some" [o]

/-- Four blanks for each level. -/
def indent (depth : Nat) : String :=
  String.ofList (List.replicate (4 * depth) ' ')

mutual

/-- An outline whose first line stands at the end of a line at some depth. -/
def render (depth : Nat) : Outline → String
  | atom t => t
  | labelled l v => l ++ ": " ++ render depth v
  | group o c parts =>
    match parts with
    | [] => o ++ c
    | p :: ps => o ++ "\n" ++ renderParts (depth + 1) (p :: ps) ++ indent depth ++ c

def renderParts (depth : Nat) : List Outline → String
  | [] => ""
  | p :: ps => indent depth ++ render depth p ++ ",\n" ++ renderParts depth ps

end

def text (o : Outline) : String := render 0 o

end Outline
end QuillLang
