import QuillLang.Assembly.Builder
/-!
# Texts in hand

A text computed by emitted code is either owned, a buffer that must be freed or stored once, or borrowed from a constant or
a variable, which must not be freed.  Storing a text in a variable needs an owned buffer, so a borrowed one is copied.
-/
namespace QuillLang

inductive TextHandle where
  | owned (value : Operand)
  | borrowed (value : Operand)
  deriving DecidableEq

namespace TextHandle

def value : TextHandle → Operand
  | owned v | borrowed v => v

def isOwned : TextHandle → Bool
  | owned _ => true
  | borrowed _ => false

end TextHandle

namespace Builder
variable {ν : Type} [Counter ν]

/-- A fresh buffer with the content of a text. -/
def copyText (source : Operand) : Build ν Operand := do
  let length ← call "strlen" [source]
  let size ← intOp .add length (.int 1)
  let buffer ← call "malloc" [size]
  let _ ← call "strcpy" [buffer, source]
  return buffer

def freeSlot (slot : Register) : Build ν Unit := do
  let buffer ← load .ptr (.register slot)
  let _ ← call "free" [buffer]

/-- Be done with a text: an owned buffer is freed. -/
def release : TextHandle → Build ν Unit
  | .owned v => do let _ ← call "free" [v]
  | .borrowed _ => return ()

/-- A buffer of one's own with the text. -/
def intoOwned : TextHandle → Build ν Operand
  | .owned v => return v
  | .borrowed v => copyText v

def releaseAll : List TextHandle → Build ν Unit
  | [] => return ()
  | t :: rest => do
    release t
    releaseAll rest

def freeSlots : List Register → Build ν Unit
  | [] => return ()
  | r :: rest => do
    freeSlot r
    freeSlots rest

end Builder
end QuillLang
