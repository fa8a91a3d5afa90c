import Keystroke.Text.Bytes

set_option autoImplicit false

/-! # Paths

Slash-separated paths in their shortest form: no empty parts, no parts that stand for the same
directory, and no part in front of the one that leads back out of it. -/

namespace Keystroke.Path

def slash : UInt8 := 47

def isAbsolute (path : Bytes) : Bool := path.head? = some slash

/-- Puts a part behind others, the last one first. A part that leads out takes the last one back;
    at the root there is nothing to take back. -/
def addPart (rooted : Bool) (parts : List Bytes) (part : Bytes) : List Bytes :=
  if part = [] || part = utf8 "." then parts
  else if part = utf8 ".." then
    match parts with
    | [] => if rooted then [] else [part]
    | last :: rest => if last = utf8 ".." then part :: parts else rest
  else part :: parts

def clean (path : Bytes) : Bytes :=
  let rooted := isAbsolute path
  let parts := ((splitOnByte slash path).foldl (addPart rooted) []).reverse
  let body := joinWith [slash] parts
  if rooted then slash :: body
  else if body.isEmpty then utf8 "." else body

def join (dir name : Bytes) : Bytes :=
  if dir.isEmpty && name.isEmpty then []
  else if dir.isEmpty then clean name
  else if name.isEmpty then clean dir
  else clean (dir ++ slash :: name)

def parent (path : Bytes) : Bytes := clean (path.reverse.dropWhile (· ≠ slash)).reverse

def lastPart (path : Bytes) : Bytes := (path.reverse.takeWhile (· ≠ slash)).reverse

/-- The path from the root, for a path from a directory. -/
def absolute (dir path : Bytes) : Bytes := if isAbsolute path then clean path else join dir path

/-- The directories above a path of at most the given length, nearest first; the root is the last
    one. -/
def ancestorsFrom : Nat → Bytes → List Bytes
  | 0, _ => []
  | bound + 1, path =>
    let up := parent path
    if up = path then [] else up :: ancestorsFrom bound up

def ancestors (path : Bytes) : List Bytes := ancestorsFrom (path.length + 1) path

end Keystroke.Path
