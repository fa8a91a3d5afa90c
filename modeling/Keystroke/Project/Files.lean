import Keystroke.Machine.Variables
import Keystroke.Project.Path

set_option autoImplicit false

/-! # Files

What is known of a file system: the content of files by their paths, and the directories. Reading
and writing go through this value, so that everything but the exchange with the real file system
is a function. -/

namespace Keystroke

/-- Files and directories by absolute path, and the working directory. -/
structure Files where
  contents : Assoc Bytes Bytes := []
  directories : List Bytes := []
  cwd : Bytes := [Path.slash]

namespace Files

/-- What is at a path. -/
inductive Place where
  | file (content : Bytes)
  | directory
  | nothing
  | fault (why : Bytes → FileFault)

/-- The greatest length of a part of a path. -/
def maxPartLength : Nat := 255

/-- The length from which on a path is too long. -/
def pathLimit : Nat := 4096

def resolve (fs : Files) (path : Bytes) : Bytes := Path.absolute fs.cwd path

/-- What is at the last of some paths, each of which lies in the directory before it. -/
def walk (fs : Files) : List Bytes → Place
  | [] => .directory
  | path :: below =>
    if maxPartLength < (Path.lastPart path).length then .fault .tooLong
    else
      match fs.contents.find? path with
      | some content => if below.isEmpty then .file content else .fault .notDirectory
      | none => if fs.directories.contains path then fs.walk below else .nothing

/-- What is at a path. It is looked for from the root downwards. -/
def place (fs : Files) (path : Bytes) : Place :=
  if path.contains 0 then .fault .zeroByte
  else if pathLimit ≤ path.length then .fault .tooLong
  else
    let full := fs.resolve path
    fs.walk ((full :: Path.ancestors full).reverse.drop 1)

def hasPath (fs : Files) (path : Bytes) : Bool :=
  match fs.place path with
  | .file _ | .directory => true
  | _ => false

def read (fs : Files) (path : Bytes) : Except FileFault Bytes :=
  match fs.place path with
  | .file content => .ok content
  | .directory => .error (.unreadableDirectory path)
  | .nothing => .error (.missing path)
  | .fault why => .error (why path)

def write (fs : Files) (path content : Bytes) : Except FileFault Files :=
  let target := fs.resolve path
  let written : Files := { fs with contents := fs.contents.put target content }
  match fs.place path with
  | .file _ => .ok written
  | .directory => .error (.isDirectory path)
  | .nothing =>
    if fs.directories.contains (Path.parent target) then .ok written else .error (.missing path)
  | .fault why => .error (why path)

def addDirectory (fs : Files) (path : Bytes) : Files :=
  { fs with directories := path :: Path.ancestors path ++ fs.directories }

def addFile (fs : Files) (path content : Bytes) : Files :=
  { fs with
    contents := fs.contents.put path content
    directories := Path.ancestors path ++ fs.directories }

end Files

end Keystroke
