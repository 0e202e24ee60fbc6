import KnowledgeBase.Store.Basic
import KnowledgeBase.Store.Versions

/-!
# Facts of a store

Asserting, upgrading, removing and looking up facts.  Asserting a triple again at the same or a
lower level changes nothing; a strictly higher level adds a second version beside the first.
-/

namespace KnowledgeBase.Store

/-- The key of the index by subject and relation. -/
def pairKey (subject relation : String) : String :=
  subject ++ Text.keySeparator ++ relation

/-! ### Looking up -/

def fact? (s : Store) (id : FactId) : Option Fact := s.facts[id]?

/-- All facts, in the order of their ids. -/
def allFacts (s : Store) : List Fact := s.facts.values

/-- The facts of a bucket that are stored. -/
def live (s : Store) (idx : Index) (key : String) : List Fact :=
  (idx.bucket key).filterMap s.fact?

/-- The facts of a bucket; an id without a fact is a fault. -/
def collect (s : Store) (idx : Index) (key : String) : Except Fault (List Fact) :=
  (idx.bucket key).mapM fun id =>
    match s.fact? id with
    | some f => .ok f
    | none => .error .outOfRange

def factsBySubject (s : Store) (subject : String) : Except Fault (List Fact) :=
  s.collect s.bySubject subject

def factsByObject (s : Store) (object : String) : Except Fault (List Fact) :=
  s.collect s.byObject object

/-- The facts of a subject and a relation, from a level on if one is given. -/
def factsByPair (s : Store) (subject relation : String) (min : Option Existence) :
    Except Fault (List Fact) := do
  let fs ← s.collect s.byPair (pairKey subject relation)
  return match min with
    | some level => fs.filter fun f => decide (level ≤ f.existence)
    | none => fs

/-- The earliest of the facts of highest existence. -/
def best : List Fact → Option Fact
  | [] => none
  | f :: fs => some (fs.foldl (fun b g => if b.existence < g.existence then g else b) f)

/-- The best fact of a subject and a relation, and of an object if one is given. -/
def bestFact (s : Store) (subject relation : String) (object : Option String) :
    Except Fault (Option Fact) :=
  match object with
  | none => (s.factsByPair subject relation none).map best
  | some o =>
    match s.byTriple.bucket (Triple.key ⟨subject, relation, o⟩) with
    | [] => .ok none
    | id :: _ =>
      match s.fact? id with
      | some f => .ok (some f)
      | none => .error .outOfRange

/-- The facts from a level on, in the order of their ids. -/
def factsFrom (s : Store) (min : Existence) : List Fact :=
  s.allFacts.filter fun f => decide (min ≤ f.existence)

/-- The facts of a subject, highest existence first. -/
def factsRanked (s : Store) (subject : String) : Except Fault (List Fact) :=
  (s.factsBySubject subject).map fun fs =>
    fs.mergeSort fun a b => decide (b.existence ≤ a.existence)

/-! ### Versions -/

/-- The level of the fact under an id, a pending fact among them. -/
def levelOf? (s : Store) (pending : Option Fact) (id : FactId) : Option Existence :=
  match pending with
  | some f => if f.id = id then some f.existence else (s.fact? id).map Fact.existence
  | none => (s.fact? id).map Fact.existence

/-- Sorts the versions of a triple by the levels of their facts; an id without a fact is a fault. -/
def sortVersions (s : Store) (key : String) (pending : Option Fact) :
    Store × Except Fault Unit :=
  let (ids, ok) := Versions.sort (s.levelOf? pending) (s.byTriple.bucket key)
  ({ s with byTriple := s.byTriple.insert key ids }, if ok then .ok () else .error .outOfRange)

/-! ### Asserting -/

/-- Enters a fact into every index. -/
def enter (s : Store) (f : Fact) : Store :=
  { s with
    bySubject := s.bySubject.push f.subject f.id
    byPair := s.byPair.push (pairKey f.subject f.relation) f.id
    byObject := s.byObject.push f.object f.id
    byTriple := s.byTriple.push f.triple.key f.id }

/-- Takes a fact out of every index. -/
def withdraw (s : Store) (f : Fact) : Store :=
  { s with
    bySubject := s.bySubject.drop f.subject f.id
    byPair := s.byPair.drop (pairKey f.subject f.relation) f.id
    byObject := s.byObject.drop f.object f.id
    byTriple := s.byTriple.drop f.triple.key f.id }

/-- Stores a fact under its id, unless the id is taken. -/
def put (s : Store) (f : Fact) : Store :=
  { s with facts := s.facts.insertIfNew f.id f }

/-- Records an assertion about a concept. -/
def assertConcept (s : Store) (label : String) (now : Millis) : Store :=
  (s.introduce label now).modifyUsage label (·.recordAssert now)

/-- Records an assertion about both terms and the relation of a triple. -/
def touch (s : Store) (t : Triple) (now : Millis) : Store :=
  let s := (s.assertConcept t.subject now).assertConcept t.object now
  let u := (s.relationUsage[t.relation]?).getD (Usage.fresh now)
  { s with relationUsage := s.relationUsage.insert t.relation (u.recordAssert now) }

/-- Why an assertion is refused. -/
def assertionFault? (t : Triple) (level : Existence) (metadata : Value) : Option InputFault :=
  if !t.wellFormed then some .malformedTriple
  else if !Existence.inRange level then some (.existenceOutOfRange level)
  else if !metadata.isRecord then some .metadataNotAnObject
  else none

/-- Stores a new version of a triple under the next id. -/
def addVersion (s : Store) (t : Triple) (level : Existence) (metadata : Value) (now : Millis) :
    Store × Except Fault FactId :=
  let f : Fact := ⟨s.nextId, t, level, metadata⟩
  let entered := { s with nextId := s.nextId + 1 }.enter f
  match entered.sortVersions t.key (some f) with
  | (sorted, .ok _) => ((sorted.put f).touch t now, .ok f.id)
  | (left, .error why) => (left, .error why)

/-- Asserts a triple.  A version at the same or a higher level stands for it already. -/
def add (s : Store) (t : Triple) (level : Existence) (metadata : Value) (now : Millis) :
    Store × Except Fault FactId :=
  match assertionFault? t level metadata with
  | some why => (s, refuse why)
  | none =>
    match s.bestFact t.subject t.relation (some t.object) with
    | .error e => (s, .error e)
    | .ok (some f) =>
      if level ≤ f.existence then (s, .ok f.id) else s.addVersion t level metadata now
    | .ok none => s.addVersion t level metadata now

/-! ### Upgrading and removing -/

/-- Raises the level of a fact; anything else changes nothing. -/
def upgrade (s : Store) (id : FactId) (level : Existence) : Store × Except Fault Bool :=
  match s.fact? id with
  | none => (s, .ok false)
  | some f =>
    if Existence.inRange level && decide (f.existence < level) then
      let raised := { s with facts := s.facts.insert id { f with existence := level } }
      let (sorted, done) := raised.sortVersions f.triple.key none
      (sorted, done.map fun _ => true)
    else (s, .ok false)

def remove (s : Store) (id : FactId) : Store × Bool :=
  match s.fact? id with
  | none => (s, false)
  | some f =>
    let s := s.withdraw f
    ({ s with facts := s.facts.erase id }, true)

end KnowledgeBase.Store
