import Keystroke.Text.Bytes

set_option autoImplicit false

/-! # Buffers

A buffer holds the bytes of one program and the room that was allocated behind them. Memory is
counted by capacity, text and room together. Spare bytes keep what stood there before the text
shrank, since a label that is cut off by the end of the text is still read from them. -/

namespace Keystroke

/-- The bytes of a program and the room behind them. -/
structure Buffer where
  text : Bytes
  /-- Bytes behind the text that were part of it before. -/
  spare : Bytes
  /-- The number of bytes behind those, which are still zero. -/
  fresh : Nat
deriving DecidableEq, Repr

namespace Buffer

def capacity (b : Buffer) : Nat := b.text.length + b.spare.length + b.fresh

def empty (capacity : Nat) : Buffer := ⟨[], [], capacity⟩

def grow (b : Buffer) (capacity : Nat) : Buffer := ⟨b.text, [], capacity - b.text.length⟩

/-- The bytes behind the text, up to `count` of the zero ones among them. -/
def behind (b : Buffer) (count : Nat) : Bytes := b.spare ++ List.replicate (min count b.fresh) 0

/-- Writes bytes in front of an offset, into room that was made before. -/
def insertAt (b : Buffer) (offset : Nat) (bytes : Bytes) : Buffer :=
  ⟨b.text.take offset ++ bytes ++ b.text.drop offset, b.spare.drop bytes.length,
    b.fresh - (bytes.length - b.spare.length)⟩

/-- Takes out `count` bytes from an offset on; the bytes at the end stay behind as spare ones. -/
def removeAt (b : Buffer) (offset count : Nat) : Buffer :=
  ⟨b.text.take offset ++ b.text.drop (offset + count),
    b.text.drop (b.text.length - count) ++ b.spare, b.fresh⟩

def truncate (b : Buffer) (offset : Nat) : Buffer :=
  ⟨b.text.take offset, b.text.drop offset ++ b.spare, b.fresh⟩

def append (b : Buffer) (bytes : Bytes) : Buffer :=
  ⟨b.text ++ bytes, b.spare.drop bytes.length, b.fresh - (bytes.length - b.spare.length)⟩

end Buffer

end Keystroke
