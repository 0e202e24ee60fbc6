/-!
# Single and double precision

How a number goes from one precision to the other.  A number of double precision becomes the nearest
one of single precision, an exact half going to the even neighbour, and infinity if it is too large.
-/

namespace KnowledgeBase.Precision

open Float.Model (Format UnpackedFloat)

/-- A float rounded to what a format can hold. -/
def fit (spec : Format) : UnpackedFloat → UnpackedFloat
  | .finite sign mantissa exponent _ => .round spec sign mantissa exponent
  | x => x

def widen (x : Float32) : Float :=
  .ofModel (.pack (fit .binary64 x.toModel.unpack))

def narrow (x : Float) : Float32 :=
  .ofModel (.pack (fit .binary32 x.toModel.unpack))

end KnowledgeBase.Precision
