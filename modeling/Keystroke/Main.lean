import Keystroke.CommandLine

set_option autoImplicit false

/-! # The command

The exchange with the terminal and the file system. What a run may need of the file system is
looked up first, the run is a function of it, and files that it changed are written back. -/

namespace Keystroke.Command

open CommandLine

def text? (b : Bytes) : Option String := String.fromUTF8? ⟨b.toArray⟩

def put (stream : IO.FS.Stream) (b : Bytes) : IO Unit := do
  stream.write ⟨b.toArray⟩
  stream.flush

def lookUpOne (fs : Files) (path : Bytes) : IO Files := do
  match if path.contains 0 then none else text? path with
  | none => return fs
  | some name =>
    let file := (← IO.currentDir) / name
    if ← file.isDir then return fs.addDirectory path
    else if ← file.pathExists then
      return fs.addFile path (← IO.FS.readBinFile file).toList
    else return fs

def lookUp (fs : Files) (paths : List Bytes) : IO Files :=
  (paths.map fs.resolve).flatMap (fun path => (path :: Path.ancestors path).reverse)
    |>.foldlM lookUpOne fs

def manifestPaths (fs : Files) (config : Bytes) : List Bytes :=
  if config.isEmpty then
    (fs.cwd :: Path.ancestors fs.cwd).map fun dir => Path.join dir Manifest.fileName
  else [Path.join config Manifest.fileName]

def projectPaths (m : Manifest) : List Bytes :=
  m.equationFiles ++ m.statePath?.toList ++ m.logPath?.toList

def gather (a : CommandLine.Arguments) : IO Files := do
  let cwd := utf8 (← IO.currentDir).toString
  let fs ← lookUp { cwd := cwd } (manifestPaths { cwd := cwd } a.config)
  match loadManifest fs a.config with
  | .error _ => return fs
  | .ok m => lookUp fs (projectPaths (applyFlags a fs m))

/-- Writes back the files that differ from what was looked up. -/
def writeBack (before after : Files) : IO Unit := do
  for (path, content) in after.contents do
    if before.contents.find? path ≠ some content then
      match text? path with
      | none => pure ()
      | some name => IO.FS.writeBinFile name ⟨content.toArray⟩

def flush (w : Workbench) : IO Workbench := do
  put (← IO.getStdout) w.output
  return { w with output := [] }

/-- Talks with the user until the end of input or a command to leave; `ahead` is what has been read
    and not yet taken. -/
partial def talk (ahead : Bytes) (p : Progress) : IO Progress := do
  let w ← flush p.workbench
  put (← IO.getStdout) Workbench.prompt
  let input ← if ahead.isEmpty then pure (utf8 (← (← IO.getStdin).getLine)) else pure ahead
  match readLine? input with
  | none => return { p with workbench := w }.stage (Workbench.printLine [])
  | some (line, rest) =>
    match Workbench.handle line w with
    | .ok true w => return { p with workbench := w }
    | .ok false w => talk rest { p with workbench := w }
    | .error e w => return { p with workbench := w }.stage (throw e)

def runOn (a : CommandLine.Arguments) (w : Workbench) : IO Progress := do
  let p := (Progress.mk w [] false).stage (runEquation a)
  let p ←
    if isDialogue a && !p.isBroken then
      talk [] (p.stage (Workbench.printLine Workbench.greeting))
    else pure p
  let p := p.stage Workbench.save
  return { p with workbench := ← flush p.workbench }

def complain (complaints : List Bytes) : IO Unit := do
  for c in complaints do
    put (← IO.getStderr) (c ++ [10])

def execute (arguments : List Bytes) : IO UInt32 := do
  match parse arguments with
  | .error refusal => return refusal.code.toUInt32
  | .ok a =>
    let fs ← gather a
    match openWorkbench a fs with
    | .error outcome =>
      complain outcome.complaints
      writeBack fs outcome.files
      return outcome.code.toUInt32
    | .ok w =>
      let p ← if a.serve then pure (Progress.mk w [] false) else runOn a w
      complain p.outcome.complaints
      writeBack fs p.workbench.files
      return p.code.toUInt32

end Keystroke.Command

def main (arguments : List String) : IO UInt32 :=
  Keystroke.Command.execute (arguments.map Keystroke.utf8)
