/-!
# Decimals

The number that decimal digits write, and the decimal text of a floating-point number with a fixed
number of places, from its exact binary value.
-/

namespace KnowledgeBase.Decimal

/-- The number that decimal digits write. -/
def digitsValue (ds : List Char) : Nat :=
  ds.foldl (fun n c => n * 10 + (c.toNat - '0'.toNat)) 0

/-! ### Fixed places -/

/-- The integer nearest to `num / den`, an exact half going to the even neighbour. -/
def nearest (num den : Nat) : Nat :=
  let q := num / den
  let r := num % den
  if 2 * r < den then q
  else if den < 2 * r then q + 1
  else q + q % 2

/-- `scaled / 10 ^ places`, written with that many places. -/
def point (places scaled : Nat) : String :=
  let whole := toString (scaled / Nat.pow 10 places)
  let part := toString (scaled % Nat.pow 10 places)
  whole ++ "." ++ String.ofList (List.replicate (places - part.length) '0') ++ part

/-- The magnitude of a finite number as `m * 2 ^ e / 2 ^ 1074`. -/
def magnitude (bits : UInt64) : Nat :=
  let e := (bits >>> 52).toNat % 2048
  let f := bits.toNat % 1 <<< 52
  if e = 0 then f else (1 <<< 52 + f) <<< (e - 1)

/-- The text with so many places, ties of the exact value going to the even digit.  Not a number is
written with a minus sign. -/
def fixed (places : Nat) (x : Float) : String :=
  let bits := x.toBits
  let sign := if bits >>> 63 = 0 then "" else "-"
  if (bits >>> 52).toNat % 2048 = 2047 then
    if bits.toNat % 1 <<< 52 = 0 then sign ++ "inf" else "-nan"
  else sign ++ point places (nearest (magnitude bits * Nat.pow 10 places) (1 <<< 1074))

end KnowledgeBase.Decimal
