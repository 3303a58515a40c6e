import EffectShader.CommandLine.Batch
import EffectShader.CommandLine.Flag
import EffectShader.Strict.Command

/-!
# Runs

A run reads the flags, the configuration, the programs and the chunks, and then
builds the batch.  Whatever is wrong before the builds ends the run.
-/

namespace EffectShader

/-- Why a run ends before the builds. -/
inductive Refusal where
  | flags (e : Flag.Error)
  | foreignHome (e : Path.ForeignHome)
  | file (e : FileError)
  | configuration (path : Text) (e : Configuration.Error)
  /-- A program of the arguments. -/
  | argument (e : Program.Error)
  /-- A program of the configuration. -/
  | program (e : Program.Error)
  | noPrograms
  | validator (e : Command.Error)

namespace Refusal

def exitCode : Refusal -> Nat
  | .flags .help => 0
  | .flags _ => 2
  | .argument _ => 2
  | .noPrograms => 2
  | _ => 1

def report : Refusal -> Text
  | .flags .help => Usage.text
  | .flags e => e.message ++ "\n" ++ Usage.text
  | .foreignHome e => errorLine e.message
  | .file e => errorLine e.message
  | .configuration path e => errorLine (e.message path)
  | .argument e => errorLine e.message
  | .program e => errorLine e.message
  | .noPrograms => "Error: no programs to build\n" ++ Usage.text
  | .validator e => errorLine e.message

end Refusal

namespace Run

variable {m : Type -> Type} [Monad m]

def usualConfiguration : Text := "effectc.toml"

def readConfiguration (h : Host m) (name : Text) : ExceptT Refusal m Configuration := do
  let path := if name.isEmpty then usualConfiguration else name
  let path <- liftExcept ((Path.expandHome h.home path).mapError Refusal.foreignHome)
  match ← h.read path with
  | .error .missing =>
      if name.isEmpty then return .empty else throw (.file ⟨"open", path, .missing⟩)
  | .error .isDirectory => throw (.file ⟨"read", path, .isDirectory⟩)
  | .error e => throw (.file ⟨"open", path, e⟩)
  | .ok content =>
      let c <- liftExcept ((Configuration.parse content).mapError (Refusal.configuration path))
      liftExcept ((c.expandHome h.home).mapError Refusal.foreignHome)

def programs (c : Configuration) (arguments : List Text) : Except Refusal (List Program) := do
  let ps <-
    if arguments.isEmpty then (c.programs.mapM ProgramStages.toProgram).mapError .program
    else (arguments.mapM Program.parse).mapError .argument
  if ps.isEmpty then throw .noPrograms else return ps

/-!
# Loading chunks
-/

def chunkEnding : Text := ".chunk"

def chunkFile (directory : Text) (file : Place) : Text × Text :=
  if file.isEmpty then (Path.dot, directory)
  else (Text.withoutEnding file.path chunkEnding, Path.join directory file.path)

def loadFiles (h : Host m) (directory : Text) (r : Registry) :
    List Place -> ExceptT Refusal m Registry
  | [] => return r
  | file :: rest => do
      let (name, path) := chunkFile directory file
      match ← h.read path with
      | .error e => throw (.file ⟨"open", path, e⟩)
      | .ok content => loadFiles h directory (r.register name content) rest

def isChunkFile (directory : Text) (file : Place) : Bool :=
  Text.endsWith (if file.isEmpty then directory else file.path) chunkEnding

def loadChunks (h : Host m) (r : Registry) (count : Nat) :
    List Text -> ExceptT Refusal m (Registry × Nat)
  | [] => return (r, count)
  | directory :: rest => do
      match ← h.filesBelow directory with
      | .error e => throw (.file ⟨"lstat", directory, e⟩)
      | .ok files =>
          let files := files.filter (isChunkFile directory)
          let r <- loadFiles h directory r files
          loadChunks h r (count + files.length) rest

def withDeprecations (s : Settings) (r : Registry) : Registry :=
  let r := s.deprecatedChunks.foldl (fun r (name, message) => r.deprecateChunk name message) r
  s.deprecatedNames.foldl (fun r (name, message) => r.deprecateName name message) r

def loadedRecord (s : Settings) (count : Nat) : LogRecord :=
  ⟨.debug, "chunks loaded",
    [("count", Text.ofNat count), ("dirs", Text.joinWith "," s.chunks)]⟩

def checkValidator (s : Settings) : Except Refusal Unit :=
  if s.validator.isEmpty then .ok ()
  else
    match Command.parse s.validator with
    | .ok _ => .ok ()
    | .error e => .error (.validator e)

/-!
# The whole run
-/

/-- Everything that comes before the builds. -/
def prepare (h : Host m) (arguments : List Text) : ExceptT Refusal m Batch := do
  let (flags, arguments) <- liftExcept ((Flags.parse arguments).mapError Refusal.flags)
  let c <- readConfiguration h flags.config
  let settings := Settings.resolve h.home c flags
  let ps <- liftExcept (programs c arguments)
  let (registry, count) <- loadChunks h .empty 0 settings.chunks
  h.report (LogRecord.renderAll settings.verbose [loadedRecord settings count])
  liftExcept (checkValidator settings)
  return ⟨settings, withDeprecations settings registry, ps⟩

def run (h : Host m) (arguments : List Text) : m Nat := do
  match ← (prepare h arguments).run with
  | .error e =>
      h.report e.report
      return e.exitCode
  | .ok batch =>
      let failed <- batch.build h
      return if failed == 0 then 0 else 1

end Run

end EffectShader
