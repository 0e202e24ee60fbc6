import KnowledgeBase.Bindings
import KnowledgeBase.Concept.Diamond
import KnowledgeBase.Concept.Fingerprint
import KnowledgeBase.Concept.Vector
import KnowledgeBase.Config
import KnowledgeBase.Consistency.Contradiction
import KnowledgeBase.Consistency.Detector
import KnowledgeBase.Consistency.Taxonomy
import KnowledgeBase.Decimal
import KnowledgeBase.Engine
import KnowledgeBase.Existence
import KnowledgeBase.Fact
import KnowledgeBase.Fault
import KnowledgeBase.Hash
import KnowledgeBase.Hypervector.Algebra
import KnowledgeBase.Hypervector.Dense
import KnowledgeBase.Hypervector.Permutation
import KnowledgeBase.Hypervector.Sparse
import KnowledgeBase.Hypervector.Tables
import KnowledgeBase.Hypervector.Twister
import KnowledgeBase.Hypervector.Word
import KnowledgeBase.Inference.Answer
import KnowledgeBase.Inference.Chain
import KnowledgeBase.Inference.Composition
import KnowledgeBase.Inference.Query
import KnowledgeBase.Inference.Saturation
import KnowledgeBase.Json.Reader
import KnowledgeBase.Json.Writer
import KnowledgeBase.Level
import KnowledgeBase.Precision
import KnowledgeBase.Proof.Result
import KnowledgeBase.Proof.Search
import KnowledgeBase.Proof.Theory
import KnowledgeBase.Proof.Unification
import KnowledgeBase.Reasoning.Abduction
import KnowledgeBase.Reasoning.Acceptance
import KnowledgeBase.Reasoning.Analogy
import KnowledgeBase.Reasoning.Cause
import KnowledgeBase.Reasoning.Membership
import KnowledgeBase.Reasoning.Neighbor
import KnowledgeBase.Relation.Registry
import KnowledgeBase.Relation.Rule
import KnowledgeBase.Rule.Basic
import KnowledgeBase.Rule.Book
import KnowledgeBase.Statement.Formula
import KnowledgeBase.Statement.Leaf
import KnowledgeBase.Store.Basic
import KnowledgeBase.Store.Expression
import KnowledgeBase.Store.Facts
import KnowledgeBase.Store.Forget
import KnowledgeBase.Store.Glob
import KnowledgeBase.Store.Index
import KnowledgeBase.Store.Snapshot
import KnowledgeBase.Store.Versions
import KnowledgeBase.Text
import KnowledgeBase.Truth
import KnowledgeBase.Usage
import KnowledgeBase.Value
import KnowledgeBase.Version
import KnowledgeBase.Proofs.Outcome
import KnowledgeBase.Proofs.Steps
import KnowledgeBase.Proofs.Float
import KnowledgeBase.Proofs.Precision
import KnowledgeBase.Proofs.Json
import KnowledgeBase.Proofs.Config
import KnowledgeBase.Proofs.Text
import KnowledgeBase.Proofs.Concept.Extent
import KnowledgeBase.Proofs.Concept.Layout
import KnowledgeBase.Proofs.Concept.Fingerprint
import KnowledgeBase.Proofs.Concept.Distance
import KnowledgeBase.Proofs.Value
import KnowledgeBase.Proofs.Level
import KnowledgeBase.Proofs.Statement.Words
import KnowledgeBase.Proofs.Statement.Signature
import KnowledgeBase.Proofs.Statement.Reading
import KnowledgeBase.Proofs.Store.Buckets
import KnowledgeBase.Proofs.Store.Coherence
import KnowledgeBase.Proofs.Store.Run
import KnowledgeBase.Proofs.Store.Scan
import KnowledgeBase.Proofs.Store.Records
import KnowledgeBase.Proofs.Store.Keeping
import KnowledgeBase.Proofs.Store.Snapshots
import KnowledgeBase.Proofs.Store.Separation
import KnowledgeBase.Proofs.Store.Identity
import KnowledgeBase.Proofs.Store.Ascent
import KnowledgeBase.Proofs.Store.Forgetting
import KnowledgeBase.Proofs.Store.Stepwise
import KnowledgeBase.Proofs.Store.Assertion
import KnowledgeBase.Proofs.Store.Integrity
import KnowledgeBase.Proofs.Store.Pairs
import KnowledgeBase.Proofs.Store.Observation
import KnowledgeBase.Proofs.Chaining.Search
import KnowledgeBase.Proofs.Chaining.Derivation
import KnowledgeBase.Proofs.Rule.Duplicates
import KnowledgeBase.Proofs.Rule.Expansion
import KnowledgeBase.Proofs.Rule.Extraction
import KnowledgeBase.Proofs.Rule.Reordering
import KnowledgeBase.Proofs.Chaining.Soundness
import KnowledgeBase.Proofs.Chaining.Limit
import KnowledgeBase.Proofs.Chaining.Ending
import KnowledgeBase.Proofs.Chaining.Coverage
import KnowledgeBase.Proofs.Chaining.Depth
import KnowledgeBase.Proofs.Chaining.Pruning
import KnowledgeBase.Proofs.Chaining.Definitive
import KnowledgeBase.Proofs.Chaining.Ground
import KnowledgeBase.Proofs.Chaining.Height
import KnowledgeBase.Proofs.Chaining.Conjunctive
import KnowledgeBase.Proofs.Consistency.Reachability
import KnowledgeBase.Proofs.Consistency.Traversal
import KnowledgeBase.Proofs.Consistency.Cycles
import KnowledgeBase.Proofs.Consistency.Report
import KnowledgeBase.Proofs.Consistency.Candidate
import KnowledgeBase.Proofs.Consistency.Verdict
import KnowledgeBase.Proofs.Consistency.CycleReport
import KnowledgeBase.Proofs.Consistency.Disjointness
import KnowledgeBase.Proofs.Consistency.Repetition
import KnowledgeBase.Proofs.Consistency.Order
import KnowledgeBase.Proofs.Consistency.Restatement
import KnowledgeBase.Proofs.Consistency.Mixture
import KnowledgeBase.Proofs.Inference.Pattern
import KnowledgeBase.Proofs.Inference.Consequence
import KnowledgeBase.Proofs.Inference.Rounds
import KnowledgeBase.Proofs.Inference.FixedPoint
import KnowledgeBase.Proofs.Inference.Search
import KnowledgeBase.Proofs.Inference.Agreement
import KnowledgeBase.Proofs.Inference.Spelling
import KnowledgeBase.Proofs.Inference.Renaming
import KnowledgeBase.Proofs.Inference.Metadata
import KnowledgeBase.Proofs.Inference.Walks
import KnowledgeBase.Proofs.Inference.Transitivity
import KnowledgeBase.Proofs.Inference.Soundness
import KnowledgeBase.Proofs.Inference.Stepwise
import KnowledgeBase.Proofs.Inference.Certainty
import KnowledgeBase.Proofs.Inference.Trails
import KnowledgeBase.Proofs.Inference.Inheritance
import KnowledgeBase.Proofs.Inference.Exceptions
import KnowledgeBase.Proofs.Inference.Monotonicity
import KnowledgeBase.Proofs.Inference.FactOrder
import KnowledgeBase.Proofs.Reasoning.Strongest
import KnowledgeBase.Proofs.Reasoning.Provenance
import KnowledgeBase.Proofs.Reasoning.Ranking
import KnowledgeBase.Proofs.Reasoning.Causes
import KnowledgeBase.Proofs.Relation.Inverses
import KnowledgeBase.Proofs.Consistency.Metadata
import KnowledgeBase.Proofs.State
import KnowledgeBase.Proofs.Engine.Intake
import KnowledgeBase.Proofs.Engine.Saturation
import KnowledgeBase.Proofs.Engine.Levels
import KnowledgeBase.Proofs.Engine.Interleaving
import KnowledgeBase.Proofs.Refusal
import KnowledgeBase.Proofs.Statement.Line
import KnowledgeBase.Proofs.Statement.Instances
import KnowledgeBase.Proofs.Level.Estimate
import KnowledgeBase.Proofs.Level.Premises
import KnowledgeBase.Proofs.Chaining.Matching
import KnowledgeBase.Proofs.Hypervector.Sparse
import KnowledgeBase.Proofs.Hypervector.Sampling
import KnowledgeBase.Proofs.Hypervector.Bounds
import KnowledgeBase.Proofs.Hypervector.Bits
import KnowledgeBase.Proofs.Hypervector.Majority
import KnowledgeBase.Proofs.Hypervector.Binding
import KnowledgeBase.Proofs.Hypervector.Permutation
import KnowledgeBase.Proofs.Hypervector.Tables
import KnowledgeBase.Proofs.Store.Ages
import KnowledgeBase.Proofs.Store.Uses
import KnowledgeBase.Proofs.Bytes
import KnowledgeBase.Proofs.Store.Globs
import KnowledgeBase.Proofs.Store.Validation
import KnowledgeBase.Proofs.Engine.Format
