import EffectShader.Text.Blank

/-!
# The vocabulary of GLSL

Which words are keywords or built-in names, and which words GLSL ES 1.00 does
not accept as identifiers.
-/

namespace EffectShader

namespace Word

def keywords : List Text :=
  Text.words "void bool int uint float double" ++
  Text.words "vec2 vec3 vec4 ivec2 ivec3 ivec4 uvec2 uvec3 uvec4 bvec2 bvec3 bvec4" ++
  Text.words "dvec2 dvec3 dvec4" ++
  Text.words "mat2 mat3 mat4 mat2x2 mat2x3 mat2x4 mat3x2 mat3x3 mat3x4 mat4x2 mat4x3 mat4x4" ++
  Text.words "sampler samplerShadow sampler2D sampler3D samplerCube sampler2DArray" ++
  Text.words "sampler2DShadow samplerCubeShadow sampler2DArrayShadow" ++
  Text.words "sampler2DMS samplerBuffer samplerExternalOES" ++
  Text.words "isampler2D isampler3D isamplerCube isampler2DArray" ++
  Text.words "usampler2D usampler3D usamplerCube usampler2DArray" ++
  Text.words "texture2D texture3D textureCube texture2DArray" ++
  Text.words "itexture2D itexture3D itextureCube itexture2DArray" ++
  Text.words "utexture2D utexture3D utextureCube utexture2DArray" ++
  Text.words "image2D image3D imageCube image2DArray" ++
  Text.words "iimage2D iimage3D iimageCube iimage2DArray" ++
  Text.words "uimage2D uimage3D uimageCube uimage2DArray" ++
  Text.words "subpassInput isubpassInput usubpassInput" ++
  Text.words "subpassInputMS isubpassInputMS usubpassInputMS" ++
  Text.words "atomic_uint" ++
  Text.words "attribute const uniform varying" ++
  Text.words "buffer shared coherent volatile restrict readonly writeonly" ++
  Text.words "layout centroid flat smooth noperspective patch sample" ++
  Text.words "break continue do for while switch case default if else" ++
  Text.words "in out inout true false invariant precise discard return struct" ++
  Text.words "lowp mediump highp precision"

def builtins : List Text :=
  Text.words "gl_VertexID gl_InstanceID gl_VertexIndex gl_InstanceIndex" ++
  Text.words "gl_Position gl_PointSize gl_FragCoord gl_FrontFacing gl_PointCoord" ++
  Text.words "gl_FragColor gl_FragData gl_FragDepth gl_FragDepthEXT" ++
  Text.words "gl_LastFragData gl_LastFragColorARM gl_LastFragDepthARM gl_LastFragStencilARM" ++
  Text.words "gl_NumWorkGroups gl_WorkGroupSize gl_WorkGroupID" ++
  Text.words "gl_LocalInvocationID gl_GlobalInvocationID gl_LocalInvocationIndex" ++
  Text.words "texture textureLod textureProj textureProjLod textureGrad textureOffset" ++
  Text.words "textureSize texelFetch texture2D texture2DProj texture2DLod texture2DProjLod" ++
  Text.words "textureCubeLod texture2DLodEXT textureCubeLodEXT" ++
  Text.words "texture2DGradEXT textureCubeGradEXT subpassLoad" ++
  Text.words "radians degrees sin cos tan asin acos atan" ++
  Text.words "sinh cosh tanh pow exp log exp2 log2" ++
  Text.words "sqrt inversesqrt abs sign floor ceil fract" ++
  Text.words "trunc round mod min max clamp mix step" ++
  Text.words "smoothstep length distance dot cross normalize" ++
  Text.words "faceforward reflect refract matrixCompMult transpose" ++
  Text.words "inverse determinant outerProduct" ++
  Text.words "lessThan lessThanEqual greaterThan greaterThanEqual" ++
  Text.words "equal notEqual any all not dFdx dFdy fwidth" ++
  Text.words "packHalf2x16 unpackHalf2x16 floatBitsToInt floatBitsToUint" ++
  Text.words "intBitsToFloat uintBitsToFloat" ++
  Text.words "barrier memoryBarrier memoryBarrierShared memoryBarrierBuffer" ++
  Text.words "memoryBarrierImage groupMemoryBarrier imageLoad imageStore imageSize" ++
  Text.words "atomicAdd atomicMin atomicMax atomicAnd atomicOr atomicXor" ++
  Text.words "atomicExchange atomicCompSwap"

/-- Words GLSL ES 1.00 keeps for itself, and later keywords that its drivers refuse. -/
def legacyReserved : List Text :=
  Text.words "asm class union enum typedef template this" ++
  Text.words "packed goto switch default inline noinline" ++
  Text.words "volatile public static extern external interface" ++
  Text.words "flat long short double half fixed unsigned superp input output" ++
  Text.words "hvec2 hvec3 hvec4 dvec2 dvec3 dvec4 fvec2 fvec3 fvec4" ++
  Text.words "sampler1D sampler3D sampler1DShadow sampler2DShadow" ++
  Text.words "sampler2DRect sampler3DRect sampler2DRectShadow" ++
  Text.words "sizeof cast namespace using uint uvec2 uvec3 uvec4" ++
  Text.words "layout centroid smooth case sampler2DArray samplerCubeShadow"

def isKeyword (w : Text) : Bool :=
  keywords.contains w

def isBuiltin (w : Text) : Bool :=
  builtins.contains w

/-- The word cannot be an identifier in GLSL ES 1.00.  Names starting with `gl_` belong to the
implementation. -/
def isLegacyReserved (w : Text) : Bool :=
  legacyReserved.contains w || (Text.startsWith w "gl_" && !isBuiltin w)

def legacyHazard? (w : Text) : Option Text :=
  if w == ("texture" : Text) then some
    "'texture' is a built-in function on some mobile drivers and fails to compile as an identifier"
  else none

def isPrecision (w : Text) : Bool :=
  w == ("lowp" : Text) || w == ("mediump" : Text) || w == ("highp" : Text)

end Word

end EffectShader
