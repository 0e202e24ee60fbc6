import KnowledgeBase.Consistency.Detector
import KnowledgeBase.Inference.Saturation
import KnowledgeBase.Proof.Theory
import KnowledgeBase.Reasoning.Analogy
import KnowledgeBase.Reasoning.Cause
import KnowledgeBase.Reasoning.Membership
import KnowledgeBase.Rule.Book
import KnowledgeBase.Store.Forget
import KnowledgeBase.Store.Snapshot
import KnowledgeBase.Version

/-!
# Engines

A store with rules, levels, relations, a detector of contradictions and relations that permute, all
under one configuration.
-/

namespace KnowledgeBase

structure Engine where
  config : Config
  store : Store
  book : RuleBook
  levels : Levels := {}
  relations : Relations := .standard
  detector : Detector := {}
  permuter : Permuter := {}
  /-- a proof ran into the depth limit since the last goal was taken up -/
  limited : Bool := false
  /-- the goals that were left in work since then, by proofs that a fault broke off -/
  pending : List String := []

namespace Engine

def make (config : Config) : Except Fault Engine := do
  if let some why := config.fault? then refuse why
  let algebra ← Algebra.ofConfig config
  let store ← Store.make config.dimensions.toNat
  return { config, store, book := { algebra := some algebra } }

/-- The facts that inference goes by. -/
def liveFacts (e : Engine) : List Fact := e.store.factsFrom Existence.possible

/-! ### Taking in -/

/-- Gives a fact its level, unless it has one. -/
def levelFact (e : Engine) (id : FactId) (t : Triple) : Engine :=
  if (e.levels.factLevel? id).isSome then e else { e with levels := e.levels.addFact id t }

def ingest (e : Engine) (t : Triple) (level : Existence) (metadata : Value) (now : Millis) :
    Engine × Except Fault FactId :=
  let (store, id) := e.store.add t level metadata now
  let e := { e with store }
  match id with
  | .ok id => (e.levelFact id t, .ok id)
  | .error why => (e, .error why)

/-- Extracts the rules of a batch; the new rules come second. -/
def addRules (e : Engine) (batch : List Statement) : Except Fault (Engine × List Rule) := do
  let (book, added) ← e.book.extract batch
  return ({ e with book, levels := added.foldl Levels.addRule e.levels }, added)

/-- Ingests derived facts in turn, and gives each its id; a fault ends it. -/
def ingestAll (e : Engine) (now : Millis) : List Fact → Engine × Except Fault (List Fact)
  | [] => (e, .ok [])
  | f :: fs =>
    match e.ingest f.triple Existence.demonstrated f.metadata now with
    | (e, .error why) => (e, .error why)
    | (e, .ok id) =>
      let (e, rest) := e.ingestAll now fs
      (e, rest.map ({ f with id } :: ·))

/-- Stores everything that follows from the facts by forward chaining. -/
def saturate (e : Engine) (now : Millis) : Engine × Except Fault (List Fact) :=
  e.ingestAll now (Inference.Saturation.forwardChain e.relations
    e.config.forwardChainIterations.toNat e.liveFacts)

/-! ### Questions -/

def theory (e : Engine) : Proof.Theory where
  store := e.store
  rules := e.book.rules
  levels := some e.levels
  config := e.config

def prove (e : Engine) (goal : Formula) : Engine × Except Fault Proof.Result :=
  let s := e.theory.prove goal
  ({ e with limited := s.limited, pending := s.pending }, s.result)

/-- Proves the goal that a text writes. -/
def proveText (e : Engine) (goal : String) : Engine × Except Fault Proof.Result :=
  match Leaf.parse goal with
  | .ok l => e.prove (.leaf l)
  | .error why => (e, .error why)

/-- Solves the condition of a rule.  Goals that were left in work count as being proved. -/
def proveCondition (e : Engine) (rule : Rule) (b : Bindings) (depth : Nat) :
    Engine × Except Fault Proof.ConditionResult :=
  let s := e.theory.proveCondition e.limited e.pending rule b depth
  ({ e with limited := s.limited, pending := s.pending ++ e.pending }, s.result)

def inference (e : Engine) : Inference where
  relations := e.relations
  thresholds := e.config.thresholds
  horizon := e.config.recursionHorizon.toNat

def query (e : Engine) (goal : Triple) (methods : List String) (depth : Option Nat) :
    Except Fault Inference.Answer :=
  e.inference.ask e.liveFacts goal methods depth

/-- The concepts that may have caused an observation. -/
def causes (e : Engine) (observation : ConceptVector) (relation : String) (now : Millis) :
    Except Fault Abduction.Result :=
  e.store.abduce e.permuter e.config.thresholds observation relation {} now

def analogy (e : Engine) (a b c : String) : Except Fault Analogy.Result :=
  e.store.completeLabels e.config.thresholds a b c

/-- The causes that facts name. -/
def explain (e : Engine) (observation : String) (now : Millis) :
    Except Fault (List Cause.Hypothesis) :=
  e.store.causesOf observation {} now

def consistency (e : Engine) (checks : Checks) : Detector.Report :=
  e.detector.detect e.liveFacts checks

def conflicts (e : Engine) (t : Triple) : List Contradiction :=
  e.detector.conflicts { triple := t } e.liveFacts

/-! ### States -/

/-- The facts, under a header with the version of the library and of the format. -/
def exported (e : Engine) : Value :=
  .record [
    ("anvaya", .text Version.library),
    ("facts", e.store.snapshot),
    ("format", .record [
      ("major", .integer Version.formatMajor),
      ("minor", .integer Version.formatMinor)])]

/-- The levels of a store and of rules, from scratch. -/
def levelsOf (s : Store) (rules : List Rule) : Levels :=
  rules.foldl Levels.addRule (s.allFacts.foldl (fun l f => l.addFact f.id f.triple) {})

/-- Replaces the facts by those of a snapshot. -/
def restore (e : Engine) (snapshot : Value) (now : Millis) : Except Fault Engine := do
  let store ← e.store.restore snapshot now
  return { e with store, levels := levelsOf store e.book.rules }

/-- A number of a format header; it is read as a signed 32-bit number. -/
def formatNumber? (format : Value) (name : String) : Option Int :=
  match format.field? name with
  | some (.integer n) => some (Int32.ofInt n).toInt
  | _ => none

/-- The facts of an exported state, if this library reads its format. -/
def factsOf (state : Value) : Except RecordFault Value :=
  match state.field? "format", state.field? "facts" with
  | some format, some facts =>
    match formatNumber? format "major", formatNumber? format "minor" with
    | some major, some minor =>
      if Version.compatible major minor then .ok facts
      else .error (.unsupportedFormat major minor)
    | _, _ => .error .formatNotIntegers
  | _, _ => .error .noFormatOrFacts

/-- Replaces the facts by those of an exported state. -/
def importState (e : Engine) (state : Value) (now : Millis) : Except Fault Engine :=
  match factsOf state with
  | .ok facts => e.restore facts now
  | .error why => .error (.snapshot 0 why)

end Engine

end KnowledgeBase
