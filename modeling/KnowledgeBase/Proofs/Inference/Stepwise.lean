import KnowledgeBase.Proofs.Inference.Consequence
import KnowledgeBase.Proofs.Inference.Soundness
import KnowledgeBase.Proofs.Steps
import Mathlib.Data.List.Nodup

/-!
# The search step by step

A search keeps the goals that it is working on in one path, onto which a goal is put before it is
met and from which it is taken afterwards.  A body asks for as many matches as are still missing,
and every loop ends as soon as there is enough.

* `Stepwise.derivations`, `Stepwise.satisfy`: the search with its path and its loops;
* `derivations_run`, `satisfy_run`: it answers as `derivations` and `satisfy` do, asks for no
  negative number of matches and leaves the path as it was;
* `Pool.Sound`, `derivations_sound`: how many derivations are kept, and that they differ;
* `length_satisfy_le`, `constant_of_mem_allMatches`: how many matches there are, and what they
  bind;
* `search_within_limits`: all of it.
-/

namespace KnowledgeBase

/-! ### Constant bindings -/

/-- No value is a variable. -/
def Bindings.Constant (b : Bindings) : Prop :=
  ∀ n v, b.get? n = some v → Text.isVariable v = false

namespace Pattern

variable {p : Pattern} {t : Triple} {b b' : Bindings} {term value : String}

theorem matchTerm?_constant (h : matchTerm? term value b = some b') (hb : b.Constant)
    (hvalue : Text.isVariable value = false) : b'.Constant := by
  unfold matchTerm? at h
  split at h
  · intro n v hv
    rcases Bindings.get?_of_bind? h hv with hold | ⟨-, rfl⟩
    · exact hb n v hold
    · exact hvalue
  · split at h
    · cases h
      exact hb
    · cases h

theorem matchTerms?_constant (h : p.matchTerms? t.subject t.object b = some b') (hb : b.Constant)
    (ht : isGround t = true) : b'.Constant := by
  obtain ⟨hs, ho⟩ := isGround_iff.mp ht
  obtain ⟨b₁, h₁, h₂⟩ := Option.bind_eq_some_iff.mp h
  exact matchTerm?_constant h₂ (matchTerm?_constant h₁ hb hs) ho

theorem isVariable_resolve (hb : b.Constant) (hcov : b.Covers term) :
    Text.isVariable (resolve b term) = false := by
  unfold resolve
  split
  · rename_i hvar
    obtain ⟨v, hv⟩ := hcov hvar
    rw [hv]
    exact hb _ v hv
  · rename_i hconst
    simpa using hconst

/-- Constant bindings that cover a pattern leave no slot open. -/
theorem isGround_instantiate (hb : b.Constant) (hs : b.Covers p.subject)
    (ho : b.Covers p.object) : isGround (p.instantiate b) = true :=
  isGround_iff.mpr ⟨isVariable_resolve hb hs, isVariable_resolve hb ho⟩

end Pattern

namespace Inference.Composition

open Bindings Pattern

namespace Stepwise

/-! ### The search -/

/-- A search with the goals that are in work, the latest first. -/
abbrev Search (α : Type) := Steps (List String) α

/-- Keeps what is new up to spelling until the pool is full. -/
def fill : Pool → List Derivation → Pool
  | pool, [] => pool
  | pool, d :: ds =>
    let key := d.triple.termKey
    if pool.keys.contains key then fill pool ds
    else
      let pool : Pool := ⟨pool.keys.insert key, pool.kept ++ [d]⟩
      if pool.isFull then pool else fill pool ds

/-- What a rule concludes from matches of its body. -/
def conclude (r : CompositionRule) (ms : List Match) : List Derivation :=
  ms.filterMap fun m =>
    let t := r.head.instantiate m.bindings
    if isGround t then some ⟨t, m.steps ++ [⟨.composition, r.name ++ ": " ++ t.text⟩]⟩ else none

/-- How many matches are missing.  There is no negative number of them. -/
def missing (limit found : ℕ) : Search ℕ :=
  if limit < found then throw .outOfRange else return limit - found

/-- Adds the matches of the rest of a body, and says if there are enough then. -/
def collect (steps : List Step) (limit : ℕ) : List Match → List Match → List Match × Bool
  | out, [] => (out, false)
  | out, m :: ms =>
    let out := out ++ [⟨m.bindings, steps ++ m.steps⟩]
    if limit ≤ out.length then (out, true) else collect steps limit out ms

/-- Goes on from each derivation that matches until there are enough matches. -/
def gather (extend? : Derivation → Option (ℕ → Search (List Match))) (limit : ℕ) :
    List Match → List Derivation → Search (List Match)
  | out, [] => return out
  | out, d :: ds =>
    match extend? d with
    | none => gather extend? limit out ds
    | some extend => do
      let found ← extend (← missing limit out.length)
      let (out, enough) := collect d.steps limit out found
      if enough then return out else gather extend? limit out ds

/-- Matches the first pattern with what meets its goal, and the rest of a body from there. -/
def matchBody (derive : Triple → Search (List Derivation)) :
    List Pattern → Bindings → ℕ → Search (List Match)
  | [], b, _ => return [⟨b, []⟩]
  | p :: ps, b, limit => do
    let ds ← derive (p.instantiate b)
    gather (fun d => (p.matchTerms? d.triple.subject d.triple.object b).map (matchBody derive ps))
      limit [] ds

/-- Applies rules in turn until the pool is full. -/
def applyRules (derive : Triple → Search (List Derivation)) (goal : Triple) :
    Pool → List CompositionRule → Search Pool
  | pool, [] => return pool
  | pool, r :: rs =>
    if pool.isFull then return pool
    else if r.head.relation != goal.relation then applyRules derive goal pool rs
    else
      match r.head.matchGoal? goal with
      | none => applyRules derive goal pool rs
      | some b => do
        let ms ← matchBody derive r.body b matchCap
        applyRules derive goal (fill pool (conclude r ms)) rs

/-- Keeps a goal on the path while it is met, unless it is there already. -/
def visit (goal : Triple) (meet : Search Pool) : Search (List Derivation) := do
  if (← get).contains (Pattern.key goal) then return []
  modify (Pattern.key goal :: ·)
  let pool ← meet
  modify List.tail
  return pool.kept

section

variable (rules : List CompositionRule) (facts : List Fact)

/-- What meets a goal with rules nested at most `depth` deep. -/
def derivations : (depth : ℕ) → Triple → Search (List Derivation)
  | 0, goal => visit goal (return fill {} (matching facts goal))
  | depth + 1, goal =>
    visit goal (applyRules (derivations depth) goal (fill {} (matching facts goal)) rules)

def satisfy (body : List Pattern) (b : Bindings) (depth limit : ℕ) : Search (List Match) :=
  match body, depth with
  | [], _ => return [⟨b, []⟩]
  | _ :: _, 0 => return []
  | body, depth + 1 => matchBody (derivations rules facts depth) body b limit

end

/-! ### Loops that end early -/

variable {pool : Pool} {ds : List Derivation} {ms out : List Match} {steps : List Step}
  {limit depth : ℕ} {path : List String} {goal : Triple}

theorem fill_eq (h : pool.isFull = false) : fill pool ds = ds.foldl Pool.keep pool := by
  induction ds generalizing pool with
  | nil => rfl
  | cons d ds ih =>
    unfold fill
    rw [List.foldl_cons, Pool.keep, h, if_neg Bool.false_ne_true]
    dsimp only
    split
    · exact ih h
    · split
      · rename_i hfull
        exact (foldl_keep_of_full hfull ds).symm
      · rename_i hroom
        exact ih (by simpa using hroom)

theorem fill_matching (facts : List Fact) (goal : Triple) :
    fill {} (matching facts goal) = stored facts goal := by
  rw [fill_eq (by decide), stored_eq]

theorem missing_run (h : out.length < limit) :
    missing limit out.length path = .ok (limit - out.length) path := by
  unfold missing
  rw [if_neg (by omega)]
  rfl

theorem collect_eq (h : out.length < limit) :
    collect steps limit out ms =
      (out ++ (ms.map fun m => ⟨m.bindings, steps ++ m.steps⟩).take (limit - out.length),
        decide (limit ≤ out.length + ms.length)) := by
  induction ms generalizing out with
  | nil =>
    have hmissing : ¬limit ≤ out.length := by omega
    simp [collect, hmissing]
  | cons m ms ih =>
    have hlen : (out ++ [(⟨m.bindings, steps ++ m.steps⟩ : Match)]).length = out.length + 1 := by
      simp
    obtain ⟨k, hk⟩ : ∃ k, limit - out.length = k + 1 := ⟨limit - out.length - 1, by omega⟩
    unfold collect
    dsimp only
    rw [hlen, List.map_cons, hk, List.take_succ_cons, List.length_cons]
    split
    · have hlast : k = 0 := by omega
      have henough : limit ≤ out.length + (ms.length + 1) := by omega
      simp [hlast, henough]
    · have hrest : limit - (out.length + 1) = k := by omega
      have hcount : out.length + 1 + ms.length = out.length + (ms.length + 1) := by omega
      rw [ih (by omega), hlen, hrest, hcount, List.append_assoc, List.singleton_append]

/-- As long as fewer matches are there than are wanted, a positive number is missing, and gathering
adds those to what is there. -/
theorem gather_run {extend? : Derivation → Option (ℕ → Search (List Match))}
    {full : Derivation → ℕ → List Match} (hnone : ∀ d, extend? d = none → ∀ l, full d l = [])
    (hsome : ∀ d extend, extend? d = some extend → ∀ l, 1 ≤ l → ∃ ms, extend l path = .ok ms path ∧
      full d l = ms.map fun m => ⟨m.bindings, d.steps ++ m.steps⟩)
    (hout : out.length < limit) :
    gather extend? limit out ds path =
      .ok (out ++ Composition.gather full (limit - out.length) ds) path := by
  induction ds generalizing out with
  | nil => exact congrArg (EStateM.Result.ok · path) (List.append_nil out).symm
  | cons d ds ih =>
    unfold gather Composition.gather
    dsimp only
    cases hd : extend? d with
    | none =>
      have hmissing : ¬limit - out.length ≤ 0 := by omega
      rw [hnone d hd, List.take_nil, List.length_nil, if_neg hmissing, List.nil_append,
        Nat.sub_zero]
      exact ih hout
    | some extend =>
      obtain ⟨ms, hextend, hfull⟩ := hsome d extend hd (limit - out.length) (by omega)
      dsimp only
      rw [Steps.bind_of_ok (missing_run hout), Steps.bind_of_ok hextend, collect_eq hout, hfull,
        List.length_take, List.length_map]
      dsimp only
      -- the loop ends here if there are enough now, else it goes on with fewer missing
      by_cases henough : limit ≤ out.length + ms.length
      · rw [decide_eq_true henough, if_pos rfl, if_pos (by omega)]
        rfl
      · rw [decide_eq_false henough, if_neg Bool.false_ne_true, if_neg (by omega),
          List.take_of_length_le (by rw [List.length_map]; omega)]
        refine (ih ?_).trans ?_
        · rw [List.length_append, List.length_map]
          omega
        · have hrest : limit - (out.length + ms.length) =
              limit - out.length - min (limit - out.length) ms.length := by omega
          rw [List.length_append, List.length_map, hrest, List.append_assoc]

/-! ### The path is left as it was -/

section

variable {derive : Triple → Search (List Derivation)} {answers : Triple → List Derivation}

theorem matchBody_run (hderive : ∀ g, derive g path = .ok (answers g) path) (ps : List Pattern)
    (b : Bindings) (hlimit : 1 ≤ limit) :
    matchBody derive ps b limit path = .ok (Composition.matchBody answers ps b limit) path := by
  induction ps generalizing b limit with
  | nil => rfl
  | cons p ps ih =>
    unfold matchBody Composition.matchBody
    rw [Steps.bind_of_ok (hderive _)]
    have hnothing : ([] : List Match).length < limit := hlimit
    refine gather_run (fun d hd l => ?_) (fun d extend hd l hl => ?_) hnothing
    · rw [Option.map_eq_none_iff] at hd
      rw [hd]
    · obtain ⟨ext, hext, rfl⟩ := Option.map_eq_some_iff.mp hd
      refine ⟨_, ih ext hl, ?_⟩
      rw [hext]

theorem applyRules_run (hderive : ∀ g, derive g path = .ok (answers g) path) (goal : Triple)
    (pool : Pool) (rules : List CompositionRule) :
    applyRules derive goal pool rules path =
      .ok (rules.foldl (applyRule answers goal) pool) path := by
  induction rules generalizing pool with
  | nil => rfl
  | cons r rules ih =>
    cases hfull : pool.isFull with
    | true =>
      rw [foldl_applyRule, foldl_keep_of_full hfull]
      unfold applyRules
      rw [hfull]
      rfl
    | false =>
      unfold applyRules
      rw [List.foldl_cons, applyRule, hfull, if_neg Bool.false_ne_true, Bool.false_or]
      split
      · exact ih pool
      · cases hb : r.head.matchGoal? goal with
        | none => exact ih pool
        | some b =>
          dsimp only
          rw [Steps.bind_of_ok (matchBody_run hderive r.body b (by decide)), ih, fill_eq hfull]
          exact congrArg
            (fun pool => EStateM.Result.ok (rules.foldl (applyRule answers goal) pool) path)
            (foldl_concluded answers (r, b) pool)

theorem visit_run {meet : Search Pool} {pool : Pool}
    (h : meet (Pattern.key goal :: path) = .ok pool (Pattern.key goal :: path)) :
    visit goal meet path =
      .ok (if path.contains (Pattern.key goal) then [] else pool.kept) path := by
  have hget : (get : Search (List String)) path = .ok path path := rfl
  have hpush : (modify (Pattern.key goal :: ·) : Search Unit) path =
    .ok () (Pattern.key goal :: path) := rfl
  unfold visit
  rw [Steps.bind_of_ok hget]
  split
  · rfl
  · rw [Steps.bind_of_ok hpush, Steps.bind_of_ok h]
    rfl

end

variable {rules : List CompositionRule} {facts : List Fact} {body : List Pattern} {b : Bindings}

/-- A search answers as it should and leaves the path as it was.  A body is matched while its goal
is on the path, so the induction is for all paths. -/
theorem derivations_run (rules : List CompositionRule) (facts : List Fact) (depth : ℕ)
    (path : List String) (goal : Triple) :
    derivations rules facts depth goal path =
      .ok (Composition.derivations rules facts depth path goal) path := by
  induction depth generalizing path goal with
  | zero =>
    unfold derivations Composition.derivations
    rw [← fill_matching]
    exact visit_run rfl
  | succ depth ih =>
    unfold derivations Composition.derivations
    rw [visit_run (applyRules_run (fun g => ih _ g) goal _ rules), fill_matching]

theorem satisfy_run (hlimit : 1 ≤ limit) :
    satisfy rules facts body b depth limit path =
      .ok (Composition.satisfy rules facts body b depth path limit) path := by
  cases body with
  | nil => rfl
  | cons p ps =>
    cases depth with
    | zero => rfl
    | succ depth =>
      exact matchBody_run (fun g => derivations_run rules facts depth path g) (p :: ps) b hlimit

end Stepwise

/-! ### What is kept -/

namespace Pool

/-- A pool holds at most as many derivations as are kept, of different keys. -/
structure Sound (p : Pool) : Prop where
  keyed : p.Keyed
  bounded : p.kept.length ≤ matchCap
  distinct : (p.kept.map (·.triple.termKey)).Nodup

variable {p : Pool}

theorem sound_empty : Sound {} := ⟨keyed_empty, Nat.zero_le _, List.nodup_nil⟩

theorem Sound.keep (h : p.Sound) (d : Derivation) : (p.keep d).Sound := by
  refine ⟨h.keyed.keep, ?_, ?_⟩
  · rcases keep_cases p d with heq | ⟨hroom, -, heq⟩
    · rw [heq]
      exact h.bounded
    · have hfree : p.kept.length < matchCap := by simpa [isFull] using hroom
      rw [heq, List.length_append]
      exact hfree
  · rcases keep_cases p d with heq | ⟨-, hnew, heq⟩
    · rw [heq]
      exact h.distinct
    · rw [heq, List.map_append]
      exact List.concat_eq_append ▸ List.Nodup.concat (mt (h.keyed _).mpr hnew) h.distinct

theorem Sound.foldl (h : p.Sound) (ds : List Derivation) : (ds.foldl Pool.keep p).Sound := by
  induction ds generalizing p with
  | nil => exact h
  | cons d ds ih => exact ih (h.keep d)

end Pool

section

variable {rules : List CompositionRule} {facts : List Fact} {c : CompositionRule}
  {body ps : List Pattern} {b : Bindings} {derive : Triple → List Derivation} {m : Match}
  {depth limit : ℕ} {path : List String}

theorem derivations_sound (rules : List CompositionRule) (facts : List Fact) (depth : ℕ)
    (path : List String) (goal : Triple) :
    (derivations rules facts depth path goal).length ≤ matchCap ∧
      ((derivations rules facts depth path goal).map (·.triple.termKey)).Nodup := by
  rw [derivations_eq]
  split
  · exact ⟨Nat.zero_le _, List.nodup_nil⟩
  · have hsound := Pool.sound_empty.foldl (offers rules facts depth path goal)
    exact ⟨hsound.bounded, hsound.distinct⟩

theorem length_satisfy_le (hlimit : 1 ≤ limit) :
    (satisfy rules facts body b depth path limit).length ≤ limit := by
  cases body with
  | nil => exact hlimit
  | cons p ps =>
    cases depth with
    | zero => exact Nat.zero_le _
    | succ depth =>
      show (matchBody _ (p :: ps) b limit).length ≤ limit
      rw [matchBody_eq_take _ _ _ hlimit]
      exact List.length_take_le _ _

/-! ### What a match binds -/

theorem isGround_of_mem_derivations {goal : Triple} {d : Derivation}
    (hfacts : ∀ f ∈ facts, isGround f.triple = true)
    (hd : d ∈ derivations rules facts depth path goal) :
    isGround d.triple = true := by
  have hmatching : ∀ e ∈ matching facts goal, isGround e.triple = true := by
    intro e he
    obtain ⟨f, hf, -, -, -, rfl⟩ := mem_matching.mp he
    exact hfacts f hf
  cases depth with
  | zero => exact hmatching d (mem_offers hd)
  | succ depth =>
    rcases mem_offers_succ.mp (mem_offers hd) with hd | ⟨o, -, hd⟩
    · exact hmatching d hd
    · obtain ⟨m, -, hground, rfl⟩ := mem_concluded.mp hd
      exact hground

/-- A match gives every variable of its patterns a value, and no value is a variable. -/
theorem constant_of_mem_allMatches (hderive : ∀ g, ∀ d ∈ derive g, isGround d.triple = true)
    (hb : b.Constant) (h : m ∈ allMatches derive ps b) :
    m.bindings.Constant ∧ b.Extends m.bindings ∧
      ∀ p ∈ ps, m.bindings.Covers p.subject ∧ m.bindings.Covers p.object := by
  induction ps generalizing b m with
  | nil =>
    rw [mem_allMatches_nil.mp h]
    exact ⟨hb, Extends.refl b, fun p hp => absurd hp List.not_mem_nil⟩
  | cons p ps ih =>
    obtain ⟨d, hd, ext, hext, m', hm', rfl⟩ := mem_allMatches_cons.mp h
    obtain ⟨hle, hcovs, hcovo, -⟩ := matchTerms?_sound hext
    obtain ⟨hconst, hle', hcov⟩ := ih (matchTerms?_constant hext hb (hderive _ d hd)) hm'
    refine ⟨hconst, hle.trans hle', fun q hq => ?_⟩
    rcases List.mem_cons.mp hq with rfl | hq
    · exact ⟨hcovs.mono hle', hcovo.mono hle'⟩
    · exact hcov q hq

end

/-- **A search stays within its limits and leaves no slot open.**  With facts of terms that are no
variables, at every depth and whatever goals are in work, the body of an accepted rule has at most
as many matches as are asked for, and never is a negative number of them asked for.  Each match
binds all variables of the body, so what the head concludes has no variables.  The derivations of
a goal are limited in number and differ in more than spelling, and the path is left as it was. -/
theorem search_within_limits {r r' : Relations} {c : CompositionRule} {facts : List Fact}
    {b : Bindings} {limit : ℕ} (hc : r.addComposition c = .ok r')
    (hfacts : ∀ f ∈ facts, isGround f.triple = true)
    (hb : ∀ n v, b.get? n = some v → Text.isVariable v = false) (hlimit : 1 ≤ limit)
    (rules : List CompositionRule) (depth : ℕ) (path : List String) :
    (Stepwise.satisfy rules facts c.body b depth limit path =
        .ok (satisfy rules facts c.body b depth path limit) path ∧
      (satisfy rules facts c.body b depth path limit).length ≤ limit ∧
      ∀ m ∈ satisfy rules facts c.body b depth path limit,
        (∀ p ∈ c.body, ∀ v ∈ p.variableNames, ∃ value,
          m.bindings.get? (variableName v) = some value ∧ Text.isVariable value = false) ∧
        isGround (c.head.instantiate m.bindings) = true) ∧
    ∀ goal, Stepwise.derivations rules facts depth goal path =
        .ok (derivations rules facts depth path goal) path ∧
      (derivations rules facts depth path goal).length ≤ matchCap ∧
      ((derivations rules facts depth path goal).map (·.triple.termKey)).Nodup := by
  refine ⟨⟨Stepwise.satisfy_run hlimit, length_satisfy_le hlimit, fun m hm => ?_⟩, fun goal =>
    ⟨Stepwise.derivations_run rules facts depth path goal,
      derivations_sound rules facts depth path goal⟩⟩
  obtain ⟨hconst, -, hcov⟩ := constant_of_mem_allMatches
    (fun g d hd => isGround_of_mem_derivations hfacts hd) hb (mem_allMatches_of_satisfy hlimit hm)
  refine ⟨fun p hp v hv => ?_, ?_⟩
  · obtain ⟨hterm, hvar⟩ := List.mem_filter.mp hv
    have hcovers : m.bindings.Covers v := by
      simp only [List.mem_cons, List.not_mem_nil, or_false] at hterm
      rcases hterm with rfl | rfl
      · exact (hcov p hp).1
      · exact (hcov p hp).2
    obtain ⟨value, hvalue⟩ := hcovers hvar
    exact ⟨value, hvalue, hconst _ value hvalue⟩
  · obtain ⟨hfault, -⟩ := Relations.addComposition_eq_ok hc
    obtain ⟨hs, ho⟩ := CompositionRule.covers_head hfault hcov
    exact isGround_instantiate hconst hs ho

/-- A grandparent is a parent of a parent. -/
def grandparent : CompositionRule :=
  ⟨"grandparent", ⟨"?x", "GRANDPARENT_OF", "?z"⟩,
    [⟨"?x", "PARENT_OF", "?y"⟩, ⟨"?y", "PARENT_OF", "?z"⟩]⟩

def family : List Fact :=
  [{ triple := ⟨"ann", "PARENT_OF", "bob"⟩ }, { triple := ⟨"bob", "PARENT_OF", "cal"⟩ },
    { triple := ⟨"bob", "PARENT_OF", "dan"⟩ }]

/-- Another goal is in work. -/
def spouses : List String := [Pattern.key ⟨"?x", "MARRIED_TO", "?y"⟩]

/-- There are two grandchildren, but one match if one is asked for. -/
theorem search_within_limits_family :
    ∃ ms ds,
      Stepwise.satisfy [grandparent] family grandparent.body ⟨[("x", "ann")]⟩ 2 1 spouses =
        .ok ms spouses ∧
      ms.map (·.bindings) = [⟨[("x", "ann"), ("y", "bob"), ("z", "cal")]⟩] ∧
      Stepwise.derivations [grandparent] family 2 ⟨"ann", "GRANDPARENT_OF", "?who"⟩ spouses =
        .ok ds spouses ∧
      ds.map (·.triple) = [⟨"ann", "GRANDPARENT_OF", "cal"⟩, ⟨"ann", "GRANDPARENT_OF", "dan"⟩] := by
  have hb : ∀ n v, (⟨[("x", "ann")]⟩ : Bindings).get? n = some v → Text.isVariable v = false := by
    intro n v h
    have hlookup : [("x", "ann")].lookup n = some v := h
    rw [List.lookup_cons] at hlookup
    split at hlookup
    · cases hlookup
      rfl
    · cases hlookup
  have hfacts : ∀ f ∈ family, isGround f.triple = true := by decide
  obtain ⟨⟨hsatisfy, -, -⟩, hderivations⟩ := search_within_limits (r := .standard)
    (c := grandparent) rfl hfacts hb (Nat.le_refl 1) [grandparent] 2 spouses
  obtain ⟨hderive, -, -⟩ := hderivations ⟨"ann", "GRANDPARENT_OF", "?who"⟩
  exact ⟨_, _, hsatisfy, by decide +kernel, hderive, by decide +kernel⟩

end Inference.Composition

end KnowledgeBase
