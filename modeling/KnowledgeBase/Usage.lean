import KnowledgeBase.Value

/-!
# Usage

How often and how lately a concept was used, and the priority that follows from it.  Counts are
32-bit words and wrap; times are milliseconds.
-/

namespace KnowledgeBase

abbrev Millis := Int64

namespace Millis

def minute : Millis := 60000
def hour : Millis := 60 * minute
def day : Millis := 24 * hour

end Millis

structure Usage where
  /-- every touch, and every boost by its amount -/
  count : UInt32 := 0
  asserted : UInt32 := 0
  queried : UInt32 := 0
  inferred : UInt32 := 0
  createdAt : Millis
  lastUsedAt : Millis
  deriving Repr, DecidableEq

namespace Usage

def recencyWindowDays : Float32 := 30.0
def recencyWeight : Float32 := 0.4
def frequencyWeight : Float32 := 0.6
def defaultBoost : UInt32 := 10

def fresh (now : Millis) : Usage :=
  { createdAt := now, lastUsedAt := now }

/-! ### Recording -/

def touch (u : Usage) (now : Millis) : Usage :=
  { u with count := u.count + 1, lastUsedAt := now }

def recordAssert (u : Usage) (now : Millis) : Usage :=
  { u with asserted := u.asserted + 1 }.touch now

def recordQuery (u : Usage) (now : Millis) : Usage :=
  { u with queried := u.queried + 1 }.touch now

def recordInference (u : Usage) (now : Millis) : Usage :=
  { u with inferred := u.inferred + 1 }.touch now

def boost (u : Usage) (amount : UInt32) (now : Millis) : Usage :=
  { u with count := u.count + amount, lastUsedAt := now }

/-! ### Priority -/

/-- Falls from one to zero over the window since the last use. -/
def recency (u : Usage) (now : Millis) : Float32 :=
  let days := (now - u.lastUsedAt).toFloat32 / Millis.day.toFloat32
  let left := 1.0 - days / recencyWindowDays
  if 0.0 < left then left else 0.0

/-- Grows with the logarithm of the count and reaches one at 999 uses. -/
def frequency (u : Usage) : Float32 :=
  let grown := (u.count.toFloat32 + 1.0).log10 / 3.0
  if grown < 1.0 then grown else 1.0

def priority (u : Usage) (now : Millis) : Float32 :=
  recencyWeight * u.recency now + frequencyWeight * u.frequency

def report (u : Usage) (now : Millis) : Value :=
  .record [
    ("usage_count", .ofNat u.count.toNat),
    ("assert_count", .ofNat u.asserted.toNat),
    ("query_count", .ofNat u.queried.toNat),
    ("inference_count", .ofNat u.inferred.toNat),
    ("created_at", .integer u.createdAt.toInt),
    ("last_used_at", .integer u.lastUsedAt.toInt),
    ("recency", .single (u.recency now)),
    ("frequency", .single u.frequency),
    ("priority", .single (u.priority now))]

end Usage

end KnowledgeBase
