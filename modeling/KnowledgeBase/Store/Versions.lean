import KnowledgeBase.Fact

/-!
# Versions of a triple

The ids of a triple's versions stand in descending order of existence, older ids first within a
level.  They are sorted in place by the levels of their facts.  An id without a fact has no level:
the sort breaks off there, and what it leaves behind is what later look-ups see.

Up to sixteen ids are sorted by insertion.  More are first parted around a pivot, by exchanges from
both ends inwards; every id is compared with the pivot, so a sort that breaks off does so there.
-/

namespace KnowledgeBase.Versions

/-- The version of higher existence comes first, and of two equal ones the older one. -/
def order (level : FactId → Existence) (a b : FactId) : Bool :=
  if level a = level b then decide (a ≤ b) else decide (level b < level a)

section

variable (level? : FactId → Option Existence)

def known (id : FactId) : Bool := (level? id).isSome

/-- The level of an id; one without a level is never asked for. -/
def level (id : FactId) : Existence := (level? id).getD Existence.impossible

/-- The ids in order. -/
def sorted (ids : List FactId) : List FactId := ids.mergeSort (order (level level?))

/-- One id comes strictly before another. -/
def precedes (a b : FactId) : Bool := !order (level level?) b a

/-! ### Sorts that break off -/

/-- The largest number of ids that are sorted by insertion alone. -/
def insertionLimit : Nat := 16

/-- Insertion breaks off at the first id without a level, when those before it are in order. -/
def inserted (ids : List FactId) : List FactId :=
  sorted level? (ids.takeWhile (known level?)) ++ ids.dropWhile (known level?)

/-- The position among three that holds their median. -/
def median (ids : Array FactId) (a b c : Nat) : Nat :=
  let lt i j := precedes level? (ids.getD i 0) (ids.getD j 0)
  if lt a b then
    if lt b c then b else if lt a c then c else a
  else if lt a c then a
  else if lt b c then c
  else b

/-- Exchanges ids that stand on the wrong side of a pivot, from both ends inwards, until an id
without a level is met.  The lower end moves first; `fuel` bounds the number of ids looked at. -/
def exchange (pivot : FactId) :
    (fuel : Nat) → (lower : Bool) → (i j : Nat) → Array FactId → Array FactId
  | 0, _, _, _, ids => ids
  | fuel + 1, true, i, j, ids =>
    let id := ids.getD i 0
    if !known level? id then ids
    else if precedes level? id pivot then exchange pivot fuel true (i + 1) j ids
    else exchange pivot fuel false i (j - 1) ids
  | fuel + 1, false, i, j, ids =>
    let id := ids.getD j 0
    if !known level? id then ids
    else if precedes level? pivot id then exchange pivot fuel false i (j - 1) ids
    else if i < j then exchange pivot fuel true (i + 1) j (ids.swapIfInBounds i j)
    else ids

/-- The pivot is the median of the second, the middle and the last id, and is moved to the front;
nothing is moved if one of the three has no level. -/
def parted (ids : Array FactId) : Array FactId :=
  let n := ids.size
  if [1, n / 2, n - 1].all fun i => known level? (ids.getD i 0) then
    let m := median level? ids 1 (n / 2) (n - 1)
    exchange level? (ids.getD m 0) (2 * n) true 1 n (ids.swapIfInBounds 0 m)
  else ids

/-- What a sort leaves behind that meets an id without a level. -/
def brokenOff (ids : List FactId) : List FactId :=
  if ids.length ≤ insertionLimit then inserted level? ids else (parted level? ids.toArray).toList

/-- Sorts ids; two or more can only be sorted if all of them have a level. -/
def sort (ids : List FactId) : List FactId × Bool :=
  if ids.length ≤ 1 || ids.all (known level?) then (sorted level? ids, true)
  else (brokenOff level? ids, false)

end

end KnowledgeBase.Versions
