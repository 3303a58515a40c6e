import EffectShader.Text.Basic

/-!
# Shader stages
-/

namespace EffectShader

structure Stages where
  vertex : Bool
  fragment : Bool
  compute : Bool
  deriving DecidableEq, Repr

namespace Stages

def none : Stages := ⟨false, false, false⟩
def vertexOnly : Stages := ⟨true, false, false⟩
def fragmentOnly : Stages := ⟨false, true, false⟩
def computeOnly : Stages := ⟨false, false, true⟩

def union (s t : Stages) : Stages :=
  ⟨s.vertex || t.vertex, s.fragment || t.fragment, s.compute || t.compute⟩

def meets (s t : Stages) : Bool :=
  (s.vertex && t.vertex) || (s.fragment && t.fragment) || (s.compute && t.compute)

def isEmpty (s : Stages) : Bool :=
  s == none

def isSingle (s : Stages) : Bool :=
  s == vertexOnly || s == fragmentOnly || s == computeOnly

def labels (s : Stages) : List Text :=
  (if s.vertex then [Text.ofString "vertex"] else []) ++
  (if s.fragment then [Text.ofString "fragment"] else []) ++
  (if s.compute then [Text.ofString "compute"] else [])

def render (s : Stages) : Text :=
  if s.isEmpty then "none" else Text.joinWith "|" s.labels

def ofLabels (names : List Text) : Stages :=
  ⟨names.contains "vertex", names.contains "fragment", names.contains "compute"⟩

end Stages

end EffectShader
