import KnowledgeBase.Inference.Answer
import KnowledgeBase.Relation.Registry
import Std.Data.TreeSet

/-!
# Composition search

Backward search over composition rules.  A goal is met by stored facts first and then by rules,
whose bodies are matched with one level less of depth; a goal that is being worked on already is
not taken up again.
-/

namespace KnowledgeBase.Inference.Composition

/-- How many matches of one goal are kept. -/
def matchCap : Nat := 64

/-- A triple that meets a goal, and how. -/
structure Derivation where
  triple : Triple
  steps : List Step

/-- Bindings under which a body holds, and how. -/
structure Match where
  bindings : Bindings
  steps : List Step

/-! ### Bodies -/

/-- Takes matches from each derivation in turn until there are `limit` of them. -/
def gather (extend : Derivation → Nat → List Match) : Nat → List Derivation → List Match
  | _, [] => []
  | limit, d :: ds =>
    let found := (extend d limit).take limit
    if limit ≤ found.length then found
    else found ++ gather extend (limit - found.length) ds

/-- At most `limit` matches of a body whose goals are met by `derive`. -/
def matchBody (derive : Triple → List Derivation) : List Pattern → Bindings → Nat → List Match
  | [], b, _ => [⟨b, []⟩]
  | p :: ps, b, limit =>
    gather (fun d limit =>
      match p.matchTerms? d.triple.subject d.triple.object b with
      | none => []
      | some ext => (matchBody derive ps ext limit).map fun m => ⟨m.bindings, d.steps ++ m.steps⟩)
      limit (derive (p.instantiate b))

/-! ### Goals -/

/-- The derivations kept for a goal, in their order, and the keys of their triples. -/
structure Pool where
  keys : Std.TreeSet String := ∅
  kept : List Derivation := []

namespace Pool

def isFull (p : Pool) : Bool := decide (matchCap ≤ p.kept.length)

/-- Keeps a derivation whose triple is new up to spelling, as long as there is room. -/
def keep (p : Pool) (d : Derivation) : Pool :=
  if p.isFull then p
  else
    let key := d.triple.termKey
    if p.keys.contains key then p else ⟨p.keys.insert key, p.kept ++ [d]⟩

end Pool

/-- What a term of a goal asks for: a folded term, or any if it is a variable. -/
def wanted (term : String) : Option String :=
  if Text.isVariable term then none else some (Text.fold term)

def fits (wanted : Option String) (term : String) : Bool :=
  wanted.all (Text.fold term == ·)

section

variable (rules : List CompositionRule) (facts : List Fact)

/-- The stored facts that meet a goal. -/
def stored (goal : Triple) : Pool :=
  let subject := wanted goal.subject
  let object := wanted goal.object
  facts.foldl (fun pool f =>
    if f.relation == goal.relation && fits subject f.subject && fits object f.object then
      pool.keep ⟨f.triple, [⟨.factMatch, f.text⟩]⟩
    else pool) {}

/-- Adds what one rule derives when the goals of its body are met by `derive`. -/
def applyRule (derive : Triple → List Derivation) (goal : Triple) (pool : Pool)
    (r : CompositionRule) : Pool :=
  if pool.isFull || r.head.relation != goal.relation then pool
  else
    match r.head.matchGoal? goal with
    | none => pool
    | some b =>
      (matchBody derive r.body b matchCap).foldl
        (fun pool m =>
          let t := r.head.instantiate m.bindings
          if Pattern.isGround t then
            pool.keep ⟨t, m.steps ++ [⟨.composition, r.name ++ ": " ++ t.text⟩]⟩
          else pool)
        pool

/-- What meets a goal with rules nested at most `depth` deep, the goals on `path` being worked on
already. -/
def derivations : (depth : Nat) → (path : List String) → Triple → List Derivation
  | 0, path, goal =>
    if path.contains (Pattern.key goal) then [] else (stored facts goal).kept
  | depth + 1, path, goal =>
    if path.contains (Pattern.key goal) then []
    else
      (rules.foldl (applyRule (derivations depth (Pattern.key goal :: path)) goal)
        (stored facts goal)).kept

/-- At most `limit` matches of a body at a depth of at least one; there are none at depth zero. -/
def satisfy (body : List Pattern) (b : Bindings) (depth : Nat) (path : List String) (limit : Nat) :
    List Match :=
  match body, depth with
  | [], _ => [⟨b, []⟩]
  | _ :: _, 0 => []
  | body, depth + 1 => matchBody (derivations rules facts depth path) body b limit

/-- The first rule that yields the goal, and the steps of its body. -/
def prove? (goal : Triple) (depth : Nat) : Option (CompositionRule × List Step) :=
  rules.findSome? fun r =>
    if r.head.relation != goal.relation then none
    else do
      let b ← r.head.matchGoal? goal
      let m ← (satisfy rules facts r.body b depth [Pattern.key goal] 1).head?
      return (r, m.steps)

end

end KnowledgeBase.Inference.Composition
