import KnowledgeBase.Fault

/-!
# Searches with a depth limit

A search gives a value, or is broken off by a fault and leaves the goals behind that it was working
on.  It also says whether any of its branches was cut short by the depth limit.  An answer that no
branch was cut short for is not changed by a higher limit.
-/

namespace KnowledgeBase.Proof

/-- The fault that broke a search off, and the goals that were in work, the innermost first. -/
structure Break where
  fault : Fault
  pending : List String := []
  deriving Repr, DecidableEq

structure Search (α : Type) where
  value : Except Break α
  /-- a branch was cut short -/
  limited : Bool := false

namespace Search

variable {α β : Type}

/-- A search that ends at once. -/
def done (a : α) : Search α := ⟨.ok a, false⟩

/-- A branch that is cut short, with what it answers. -/
def cut (a : α) : Search α := ⟨.ok a, true⟩

/-- A look-up, which nothing cuts short. -/
def ofExcept (x : Except Fault α) : Search α := ⟨x.mapError (⟨·, []⟩), false⟩

/-- One search after another; a fault ends both. -/
def andThen (s : Search α) (f : α → Search β) : Search β :=
  match s.value with
  | .ok a => ⟨(f a).value, s.limited || (f a).limited⟩
  | .error e => ⟨.error e, s.limited⟩

instance : Monad Search where
  pure := done
  bind := andThen

/-- A search that works on a goal. -/
def workingOn (goal : String) (s : Search α) : Search α :=
  { s with value := s.value.mapError fun b => { b with pending := b.pending ++ [goal] } }

/-- The goals that a search leaves behind. -/
def pending (s : Search α) : List String :=
  match s.value with
  | .ok _ => []
  | .error b => b.pending

/-- What a search comes to. -/
def result (s : Search α) : Except Fault α := s.value.mapError Break.fault

/-- Collects what `f` finds for each element in turn, and stops once `cap` are found. -/
def gather (cap : Nat) (f : α → Search (List β)) : List α → List β → Search (List β)
  | [], found => pure found
  | a :: rest, found => do
    let found := (found ++ (← f a)).take cap
    if cap ≤ found.length then pure found else gather cap f rest found

end Search

end KnowledgeBase.Proof
