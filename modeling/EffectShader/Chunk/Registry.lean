import EffectShader.Table
import EffectShader.Text.Blank

/-!
# The chunk registry

Chunks are named pieces of shader source that other sources include.  Names are
normalized and contents cleaned when a chunk is registered.  A name can be
deprecated whether or not a chunk of that name is registered, and so can
identifiers of shader code.
-/

namespace EffectShader

namespace Chunk

/-- A name without white space around it and without the ending `.chunk`. -/
def normalizeName (name : Text) : Text :=
  Text.withoutEnding (Text.trim name) ".chunk"

def isLineBlank (b : UInt8) : Bool :=
  Byte.isBlank b || b == Byte.carriage

/-- Line ends become newlines, and neither a line nor the text ends in white space. -/
def clean (content : Text) : Text :=
  let lines := (Text.replaceAll "\r\n" "\n" content).lines
  Text.dropEndWhile (· == Byte.newline)
    (Text.unlines (lines.map (Text.dropEndWhile isLineBlank)))

end Chunk

structure Registry where
  /-- The content of each chunk. -/
  chunks : Table Text
  /-- Why each deprecated chunk must not be included. -/
  deprecated : Table Text
  /-- Why each deprecated identifier must not be used. -/
  deprecatedNames : Table Text
  deriving DecidableEq, Repr

namespace Registry

def empty : Registry := ⟨[], [], []⟩

def register (r : Registry) (name content : Text) : Registry :=
  { r with chunks := r.chunks.put (Chunk.normalizeName name) (Chunk.clean content) }

def deprecateChunk (r : Registry) (name message : Text) : Registry :=
  { r with deprecated := r.deprecated.put (Chunk.normalizeName name) message }

def deprecateName (r : Registry) (name message : Text) : Registry :=
  { r with deprecatedNames := r.deprecatedNames.put name message }

def lookup? (r : Registry) (name : Text) : Option Text :=
  r.chunks.get? (Chunk.normalizeName name)

/-- The names of all chunks in bytewise order. -/
def names (r : Registry) : List Text :=
  Text.sort r.chunks.names

end Registry

end EffectShader
