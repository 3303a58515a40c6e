import EffectShader.CommandLine.Run

/-!
# The command

Runs on the files and streams of the system.
-/

namespace EffectShader

namespace Terminal

def entry? (path : Text) : Option IO.FS.DirEntry :=
  path.toString?.map fun name => ⟨".", name⟩

def faultOf : IO.Error -> FileFault
  | .noFileOrDirectory .. => .missing
  | .alreadyExists .. => .exists
  | e => .other (Text.ofString (toString e))

def attempt {α : Type} (path : Text) (act : IO.FS.DirEntry -> IO (Except FileFault α)) :
    IO (Except FileFault α) :=
  match if path.isEmpty then none else entry? path with
  | none => return .error .missing
  | some e => do
      try act e
      catch fault => return .error (faultOf fault)

def read (path : Text) : IO (Except FileFault Text) :=
  attempt path fun e => do
    if ← e.path.isDir then return .error .isDirectory
    else return .ok (← IO.FS.readBinFile e.path).data.toList

/-- The names that lead to the files below a directory, in lexical order. -/
partial def walk (directory : IO.FS.DirEntry) : IO (List Place) := do
  let entries <- directory.path.readDir
  let le (a b : IO.FS.DirEntry) := Text.le (Text.ofString a.fileName) (Text.ofString b.fileName)
  let places <- (entries.toList.mergeSort le).mapM fun e => do
    let below <- if ← e.path.isDir then walk e else pure [[]]
    return below.map fun place => Text.ofString e.fileName :: place
  return places.flatten

def filesBelow (path : Text) : IO (Except FileFault (List Place)) :=
  attempt path fun e => do
    if ← e.path.isDir then return .ok (← walk e)
    else if ← e.path.pathExists then return .ok [[]]
    else return .error .missing

def makeDirectory (path : Text) : IO (Except FileFault Unit) :=
  attempt path fun e => do
    if ← e.path.isDir then return .ok ()
    else if ← e.path.pathExists then return .error .notDirectory
    else
      IO.FS.createDir e.path
      return .ok ()

def write (path content : Text) : IO (Except FileFault Unit) :=
  attempt path fun e => do
    if ← e.path.isDir then return .error .isDirectory
    else
      IO.FS.writeBinFile e.path ⟨content.toArray⟩
      return .ok ()

def send (stream : IO.FS.Stream) (text : Text) : IO Unit := do
  stream.write ⟨text.toArray⟩
  stream.flush

def host : IO (Host IO) := do
  let home := (← IO.getEnv "HOME").getD ""
  let stdout <- IO.getStdout
  let stderr <- IO.getStderr
  return ⟨Text.ofString home, read, filesBelow, makeDirectory, write, send stdout, send stderr⟩

/-- Builds the batch again whenever a chunk has changed.  A chunk whose file is gone keeps its
last content. -/
partial def watch (h : Host IO) (b : Batch) : IO Unit := do
  IO.sleep 100
  match ← (Run.loadChunks h b.registry 0 b.settings.chunks).run with
  | .error _ => watch h b
  | .ok (registry, _) =>
      if registry == b.registry then watch h b
      else
        let b := { b with registry := registry }
        let failed <- b.build h
        h.report (LogRecord.render ⟨.info, "rebuilt",
          [("programs", Text.ofNat b.programs.length), ("failed", Text.ofNat failed)]⟩)
        watch h b

def run (arguments : List String) : IO UInt32 := do
  let h <- host
  match ← (Run.prepare h (arguments.map Text.ofString)).run with
  | .error e =>
      h.report e.report
      return e.exitCode.toUInt32
  | .ok b =>
      let failed <- b.build h
      if b.settings.watch then
        h.report (LogRecord.render ⟨.info, "watching chunks",
          [("dirs", Text.joinWith "," b.settings.chunks)]⟩)
        watch h b
      return if failed == 0 then 0 else 1

end Terminal

end EffectShader

def main (arguments : List String) : IO UInt32 :=
  EffectShader.Terminal.run arguments
