import EffectShader.CommandLine.Flag
import EffectShader.CommandLine.FileTree
import EffectShader.Configuration

/-!
# Settings

The settings of a run come from the configuration file; flags that are given
override it.
-/

namespace EffectShader

structure Settings where
  /-- The directories of chunks; chunks of later ones replace those of earlier ones. -/
  chunks : List Text
  /-- The directory of the outputs; they go to the output stream if it is empty. -/
  output : Text
  format : Text
  warnError : Bool
  /-- The command of the reference compiler; there is none if it is empty. -/
  validator : Text
  deprecatedChunks : Table Text
  deprecatedNames : Table Text
  watch : Bool
  verbose : Bool
  deriving DecidableEq, Repr

namespace Configuration

def expandHome (home : Text) (c : Configuration) : Except Path.ForeignHome Configuration := do
  let chunks <- c.chunks.mapM (Path.expandHome home)
  let output <- Path.expandHome home c.output
  return { c with chunks := chunks, output := output }

end Configuration

namespace Settings

def splitList (s : Text) : List Text :=
  ((Text.splitByte Byte.comma s).map Text.trim).filter fun part => !part.isEmpty

def usualFormat : Text := "json"

def resolve (home : Text) (c : Configuration) (fs : Flags) : Settings where
  chunks :=
    match fs.chunks with
    | some list => (splitList list).map (Path.expandOwnHome home)
    | none => c.chunks
  output :=
    match fs.output with
    | some path => Path.expandOwnHome home path
    | none => c.output
  format := fs.format.getD (if c.format.isEmpty then usualFormat else c.format)
  warnError := fs.warnError.getD c.warnError
  validator := c.validator
  deprecatedChunks := c.deprecatedChunks
  deprecatedNames := c.deprecatedNames
  watch := fs.watch
  verbose := fs.verbose

end Settings

end EffectShader
