import KnowledgeBase.Inference.Composition
import KnowledgeBase.Proofs.Inference.Pattern
import Std.Data.TreeSet.Lemmas

/-!
# What a composition search collects

The search for a goal as one list of offers that a pool takes in, and the matches of a body with
the limit taken away.

* `allMatches`, `mem_allMatches_cons`, `matchBody_eq_take`: a limit cuts the matches of a body off
  and does nothing else;
* `Pool.keep_cases`, `Pool.Keyed`, `exists_kept`: what a pool does with an offer, and that one
  which does not fill up keeps every key that it is offered;
* `offers`, `derivations_eq`: the facts and conclusions that a goal is met by, and
  `derivations_of_blocked`, where no rule adds to the facts;
* `prove?_isSome`: a goal is proved by a body with a match;
* `derivations_in`, `exists_allMatches`: the terms that a search meets, and the bodies that it
  finds.
-/

namespace KnowledgeBase.Inference.Composition

open Bindings Pattern

/-! ### Bodies without a limit -/

section

variable (derive : Triple → List Derivation)

/-- All matches of a body whose goals are met by `derive`. -/
def allMatches : List Pattern → Bindings → List Match
  | [], b => [⟨b, []⟩]
  | p :: ps, b =>
    (derive (p.instantiate b)).flatMap fun d =>
      match p.matchTerms? d.triple.subject d.triple.object b with
      | none => []
      | some ext => (allMatches ps ext).map fun m => ⟨m.bindings, d.steps ++ m.steps⟩

/-- The goals that come up while a body is matched. -/
def asked : List Pattern → Bindings → List Triple
  | [], _ => []
  | p :: ps, b =>
    p.instantiate b :: (derive (p.instantiate b)).flatMap fun d =>
      match p.matchTerms? d.triple.subject d.triple.object b with
      | none => []
      | some ext => asked ps ext

end

section

variable {derive : Triple → List Derivation} {p : Pattern} {ps : List Pattern} {b : Bindings}
  {m : Match}

theorem mem_allMatches_nil : m ∈ allMatches derive [] b ↔ m = ⟨b, []⟩ := by
  rw [allMatches, List.mem_singleton]

/-- A match of a body is one of its first pattern and one of the rest from there. -/
theorem mem_allMatches_cons : m ∈ allMatches derive (p :: ps) b ↔
    ∃ d ∈ derive (p.instantiate b), ∃ ext,
      p.matchTerms? d.triple.subject d.triple.object b = some ext ∧
      ∃ m' ∈ allMatches derive ps ext, m = ⟨m'.bindings, d.steps ++ m'.steps⟩ := by
  rw [allMatches, List.mem_flatMap]
  constructor
  · rintro ⟨d, hd, hm⟩
    split at hm
    · cases hm
    · rename_i ext hext
      obtain ⟨m', hm', rfl⟩ := List.mem_map.mp hm
      exact ⟨d, hd, ext, hext, m', hm', rfl⟩
  · rintro ⟨d, hd, ext, hext, m', hm', rfl⟩
    refine ⟨d, hd, ?_⟩
    rw [hext]
    exact List.mem_map.mpr ⟨m', hm', rfl⟩

end

/-- Gathering up to a limit takes the first of all matches. -/
theorem gather_eq_take {extend : Derivation → Nat → List Match} {full : Derivation → List Match}
    (h : ∀ d l, 1 ≤ l → extend d l = (full d).take l) {limit : Nat} (hlimit : 1 ≤ limit)
    (ds : List Derivation) : gather extend limit ds = (ds.flatMap full).take limit := by
  induction ds generalizing limit with
  | nil => simp [gather]
  | cons d ds ih =>
    have hfound : (extend d limit).take limit = (full d).take limit := by
      rw [h d limit hlimit, List.take_take, Nat.min_self]
    unfold gather
    dsimp only
    rw [hfound, List.flatMap_cons, List.take_append]
    split
    · rename_i hfull
      have hlen : limit - (full d).length = 0 := by
        rw [List.length_take] at hfull
        omega
      rw [hlen, List.take_zero, List.append_nil]
    · rename_i hroom
      have hshort : (full d).length < limit := by
        rw [List.length_take] at hroom
        omega
      rw [List.take_of_length_le (by omega)] at hroom ⊢
      rw [ih (by omega)]

/-- A limit of at least one cuts the matches of a body off. -/
theorem matchBody_eq_take (derive : Triple → List Derivation) (ps : List Pattern) (b : Bindings)
    {limit : Nat} (hlimit : 1 ≤ limit) :
    matchBody derive ps b limit = (allMatches derive ps b).take limit := by
  induction ps generalizing b limit with
  | nil =>
    unfold matchBody allMatches
    rw [List.take_of_length_le (by simpa using hlimit)]
  | cons p ps ih =>
    unfold matchBody allMatches
    refine gather_eq_take (fun d l hl => ?_) hlimit _
    cases p.matchTerms? d.triple.subject d.triple.object b with
    | none => exact List.take_nil.symm
    | some ext =>
      dsimp only
      rw [ih ext hl, List.map_take]

/-! ### Pools -/

namespace Pool

/-- The keys of a pool are those of what it keeps. -/
def Keyed (p : Pool) : Prop := ∀ k, k ∈ p.keys ↔ k ∈ p.kept.map (·.triple.termKey)

variable {p : Pool} {d e : Derivation} {ds : List Derivation}

theorem keyed_empty : Keyed {} := by
  intro k
  simp [Std.TreeSet.not_mem_emptyc]

theorem keep_of_full (h : p.isFull = true) : p.keep d = p := by
  unfold keep
  rw [if_pos h]

/-- A pool stays as it is, or there is room for what is offered and its key is new. -/
theorem keep_cases (p : Pool) (d : Derivation) :
    p.keep d = p ∨ p.isFull = false ∧ d.triple.termKey ∉ p.keys ∧
      p.keep d = ⟨p.keys.insert d.triple.termKey, p.kept ++ [d]⟩ := by
  unfold keep
  split
  · exact Or.inl rfl
  · rename_i hroom
    dsimp only
    split
    · exact Or.inl rfl
    · rename_i hnew
      exact Or.inr ⟨by simpa using hroom, hnew, rfl⟩

theorem Keyed.keep (h : p.Keyed) : (p.keep d).Keyed := by
  rcases keep_cases p d with heq | ⟨-, -, heq⟩
  · rw [heq]
    exact h
  · rw [heq]
    intro k
    simp only [Std.TreeSet.mem_insert, Std.compare_eq_iff_eq, List.map_append, List.mem_append,
      List.map_cons, List.map_nil, List.mem_singleton]
    rw [h k]
    constructor
    · rintro (hk | hk)
      · exact Or.inr hk.symm
      · exact Or.inl hk
    · rintro (hk | hk)
      · exact Or.inr hk
      · exact Or.inl hk.symm

theorem prefix_keep (p : Pool) (d : Derivation) : p.kept <+: (p.keep d).kept := by
  rcases keep_cases p d with heq | ⟨-, -, heq⟩
  · exact heq.symm ▸ List.prefix_rfl
  · exact heq.symm ▸ List.prefix_append _ _

theorem prefix_foldl (p : Pool) (ds : List Derivation) : p.kept <+: (ds.foldl keep p).kept := by
  induction ds generalizing p with
  | nil => exact List.prefix_rfl
  | cons d ds ih => exact (prefix_keep p d).trans (ih (p.keep d))

theorem mem_keep (h : e ∈ (p.keep d).kept) : e ∈ p.kept ∨ e = d := by
  rcases keep_cases p d with heq | ⟨-, -, heq⟩
  · rw [heq] at h
    exact Or.inl h
  · rw [heq] at h
    simpa using h

/-- What a pool keeps has been offered to it. -/
theorem mem_foldl (h : e ∈ (ds.foldl keep p).kept) : e ∈ p.kept ∨ e ∈ ds := by
  induction ds generalizing p with
  | nil => exact Or.inl h
  | cons d ds ih =>
    rcases ih h with hkeep | hds
    · rcases mem_keep hkeep with hp | rfl
      · exact Or.inl hp
      · exact Or.inr List.mem_cons_self
    · exact Or.inr (List.mem_cons_of_mem d hds)

theorem key_mem_keep (hp : p.Keyed) (hroom : p.isFull = false) :
    ∃ e ∈ (p.keep d).kept, e.triple.termKey = d.triple.termKey := by
  unfold keep
  rw [hroom]
  dsimp only [Bool.false_eq_true, if_false]
  rw [if_neg Bool.false_ne_true]
  split
  · rename_i hold
    obtain ⟨e, he, hkey⟩ := List.mem_map.mp ((hp _).mp (Std.TreeSet.mem_iff_contains.mpr hold))
    exact ⟨e, he, hkey⟩
  · exact ⟨d, by simp, rfl⟩

/-- A pool that does not fill up keeps every key that it is offered. -/
theorem exists_kept (hp : p.Keyed) (hroom : (ds.foldl keep p).kept.length < matchCap)
    (hd : d ∈ ds) : ∃ e ∈ (ds.foldl keep p).kept, e.triple.termKey = d.triple.termKey := by
  induction ds generalizing p with
  | nil => cases hd
  | cons x xs ih =>
    rw [List.foldl_cons] at hroom ⊢
    rcases List.mem_cons.mp hd with rfl | hd
    · have hlen := ((prefix_keep p d).trans (prefix_foldl (p.keep d) xs)).length_le
      have hfree : p.isFull = false := by
        unfold isFull
        rw [decide_eq_false_iff_not]
        omega
      obtain ⟨e, he, hkey⟩ := key_mem_keep (d := d) hp hfree
      exact ⟨e, (prefix_foldl (p.keep d) xs).subset he, hkey⟩
    · exact ih hp.keep hroom hd

end Pool

/-! ### Offers -/

section

variable (rules : List CompositionRule) (facts : List Fact)

/-- The stored facts that a goal is met by. -/
def matching (goal : Triple) : List Derivation :=
  (facts.filter fun f => f.relation == goal.relation && fits (wanted goal.subject) f.subject &&
    fits (wanted goal.object) f.object).map fun f => ⟨f.triple, [⟨.factMatch, f.text⟩]⟩

/-- The rules that may conclude a goal, each with the bindings that the goal gives its head. -/
def openings (goal : Triple) : List (CompositionRule × Bindings) :=
  rules.filterMap fun r =>
    if r.head.relation != goal.relation then none else (r.head.matchGoal? goal).map (r, ·)

/-- What an opening concludes when the goals of its body are met by `derive`. -/
def concluded (derive : Triple → List Derivation) (o : CompositionRule × Bindings) :
    List Derivation :=
  (matchBody derive o.1.body o.2 matchCap).filterMap fun m =>
    let t := o.1.head.instantiate m.bindings
    if Pattern.isGround t then some ⟨t, m.steps ++ [⟨.composition, o.1.name ++ ": " ++ t.text⟩]⟩
    else none

/-- Everything that a pool for the goal is offered, in its order. -/
def offers : (depth : Nat) → (path : List String) → Triple → List Derivation
  | 0, _, goal => matching facts goal
  | depth + 1, path, goal =>
    matching facts goal ++
      (openings rules goal).flatMap
        (concluded (derivations rules facts depth (Pattern.key goal :: path)))

end

variable {rules : List CompositionRule} {facts : List Fact} {goal : Triple}
  {derive : Triple → List Derivation} {d : Derivation}

theorem stored_eq (facts : List Fact) (goal : Triple) :
    stored facts goal = (matching facts goal).foldl Pool.keep {} := by
  unfold stored matching
  rw [List.foldl_map, List.foldl_filter]

theorem foldl_keep_of_full {pool : Pool} (h : pool.isFull = true) (ds : List Derivation) :
    ds.foldl Pool.keep pool = pool := by
  induction ds with
  | nil => rfl
  | cons d ds ih => rw [List.foldl_cons, Pool.keep_of_full h, ih]

/-- A rule that may conclude a goal offers what it concludes. -/
theorem foldl_concluded (derive : Triple → List Derivation) (o : CompositionRule × Bindings)
    (pool : Pool) : (concluded derive o).foldl Pool.keep pool =
      (matchBody derive o.1.body o.2 matchCap).foldl
        (fun pool m =>
          let t := o.1.head.instantiate m.bindings
          if Pattern.isGround t then
            pool.keep ⟨t, m.steps ++ [⟨.composition, o.1.name ++ ": " ++ t.text⟩]⟩
          else pool) pool := by
  unfold concluded
  rw [List.foldl_filterMap]
  congr 1
  funext pool m
  dsimp only
  by_cases hground : Pattern.isGround (o.1.head.instantiate m.bindings) = true
  · rw [if_pos hground, if_pos hground]
  · rw [if_neg hground, if_neg hground]

/-- The rules are applied in turn, each to the pool that the ones before it have left. -/
theorem foldl_applyRule (pool : Pool) :
    rules.foldl (applyRule derive goal) pool =
      ((openings rules goal).flatMap (concluded derive)).foldl Pool.keep pool := by
  induction rules generalizing pool with
  | nil => rfl
  | cons r rules ih =>
    have hstep : applyRule derive goal pool r =
        ((openings [r] goal).flatMap (concluded derive)).foldl Pool.keep pool := by
      unfold applyRule openings
      by_cases hfull : pool.isFull = true
      · rw [foldl_keep_of_full hfull, if_pos (by simp [hfull])]
      · by_cases hrel : r.head.relation = goal.relation
        · simp only [hfull, hrel, bne_self_eq_false, Bool.or_self, Bool.false_eq_true, if_false,
            List.filterMap_cons, List.filterMap_nil]
          cases hb : r.head.matchGoal? goal with
          | none => simp
          | some b =>
            simp only [Option.map_some, List.flatMap_cons, List.flatMap_nil, List.append_nil]
            exact (foldl_concluded derive (r, b) pool).symm
        · simp [hrel]
    have hsplit : openings (r :: rules) goal = openings [r] goal ++ openings rules goal := by
      unfold openings
      rw [← List.filterMap_append, List.singleton_append]
    rw [List.foldl_cons, ih, hstep, hsplit, List.flatMap_append, List.foldl_append]

/-- A goal that is not in work is met by what a pool keeps of the offers. -/
theorem derivations_eq (rules : List CompositionRule) (facts : List Fact) (depth : Nat)
    (path : List String) (goal : Triple) :
    derivations rules facts depth path goal =
      if path.contains (Pattern.key goal) then []
      else ((offers rules facts depth path goal).foldl Pool.keep {}).kept := by
  cases depth with
  | zero =>
    unfold derivations offers
    rw [stored_eq]
  | succ depth =>
    unfold derivations offers
    rw [stored_eq, foldl_applyRule, List.foldl_append]

theorem derivations_of_notMem {depth : Nat} {path : List String}
    (hpath : path.contains (Pattern.key goal) = false) :
    derivations rules facts depth path goal =
      ((offers rules facts depth path goal).foldl Pool.keep {}).kept := by
  rw [derivations_eq, hpath, if_neg Bool.false_ne_true]

theorem mem_offers {depth : Nat} {path : List String}
    (h : d ∈ derivations rules facts depth path goal) :
    d ∈ offers rules facts depth path goal := by
  rw [derivations_eq] at h
  split at h
  · cases h
  · rcases Pool.mem_foldl h with hempty | hoffer
    · cases hempty
    · exact hoffer

/-- If there is room for all that is derived, every offer is there up to spelling. -/
theorem exists_derivation {depth : Nat} {path : List String}
    (hpath : path.contains (Pattern.key goal) = false)
    (hroom : (derivations rules facts depth path goal).length < matchCap)
    (hd : d ∈ offers rules facts depth path goal) :
    ∃ e ∈ derivations rules facts depth path goal, e.triple.termKey = d.triple.termKey := by
  rw [derivations_of_notMem hpath] at hroom ⊢
  exact Pool.exists_kept Pool.keyed_empty hroom hd

theorem mem_matching :
    d ∈ matching facts goal ↔ ∃ f ∈ facts, f.relation = goal.relation ∧
      fits (wanted goal.subject) f.subject = true ∧ fits (wanted goal.object) f.object = true ∧
      d = ⟨f.triple, [⟨.factMatch, f.text⟩]⟩ := by
  simp only [matching, List.mem_map, List.mem_filter, Bool.and_eq_true, beq_iff_eq]
  constructor
  · rintro ⟨f, ⟨hf, ⟨hrel, hs⟩, ho⟩, rfl⟩
    exact ⟨f, hf, hrel, hs, ho, rfl⟩
  · rintro ⟨f, hf, hrel, hs, ho, rfl⟩
    exact ⟨f, ⟨hf, ⟨hrel, hs⟩, ho⟩, rfl⟩

theorem mem_openings {o : CompositionRule × Bindings} :
    o ∈ openings rules goal ↔ o.1 ∈ rules ∧ o.1.head.relation = goal.relation ∧
      o.1.head.matchGoal? goal = some o.2 := by
  simp only [openings, List.mem_filterMap]
  constructor
  · rintro ⟨r, hr, h⟩
    split at h
    · cases h
    · rename_i hrel
      obtain ⟨b, hb, rfl⟩ := Option.map_eq_some_iff.mp h
      exact ⟨hr, by simpa using hrel, hb⟩
  · rintro ⟨hr, hrel, hb⟩
    refine ⟨o.1, hr, ?_⟩
    rw [if_neg (by simpa using hrel), hb]
    rfl

theorem mem_concluded {o : CompositionRule × Bindings} :
    d ∈ concluded derive o ↔ ∃ m ∈ matchBody derive o.1.body o.2 matchCap,
      Pattern.isGround (o.1.head.instantiate m.bindings) = true ∧
      d = ⟨o.1.head.instantiate m.bindings, m.steps ++
        [⟨.composition, o.1.name ++ ": " ++ (o.1.head.instantiate m.bindings).text⟩]⟩ := by
  simp only [concluded, List.mem_filterMap]
  constructor
  · rintro ⟨m, hm, h⟩
    split at h
    · rename_i hground
      cases h
      exact ⟨m, hm, hground, rfl⟩
    · cases h
  · rintro ⟨m, hm, hground, rfl⟩
    exact ⟨m, hm, if_pos hground⟩

theorem mem_offers_succ {depth : Nat} {path : List String} :
    d ∈ offers rules facts (depth + 1) path goal ↔ d ∈ matching facts goal ∨
      ∃ o ∈ openings rules goal,
        d ∈ concluded (derivations rules facts depth (Pattern.key goal :: path)) o := by
  unfold offers
  rw [List.mem_append, List.mem_flatMap]

/-- A goal whose rules all start with a goal in work is met by stored facts only. -/
theorem derivations_of_blocked {depth : Nat} {path : List String}
    (hpath : path.contains (Pattern.key goal) = false)
    (hblocked : ∀ o ∈ openings rules goal, ∃ p ps, o.1.body = p :: ps ∧
      (Pattern.key goal :: path).contains (Pattern.key (p.instantiate o.2)) = true) :
    derivations rules facts depth path goal = (stored facts goal).kept := by
  rw [derivations_of_notMem hpath, stored_eq]
  cases depth with
  | zero => rfl
  | succ depth =>
    have hnone : (openings rules goal).flatMap
        (concluded (derivations rules facts depth (Pattern.key goal :: path))) = [] := by
      rw [List.flatMap_eq_nil_iff]
      intro o ho
      obtain ⟨p, ps, hbody, hmem⟩ := hblocked o ho
      have hdropped : derivations rules facts depth (Pattern.key goal :: path)
          (p.instantiate o.2) = [] := by
        rw [derivations_eq, if_pos hmem]
      unfold concluded
      rw [hbody, matchBody, hdropped, gather]
      rfl
    rw [offers, hnone, List.append_nil]

/-! ### Proved goals -/

/-- A goal is proved if the body of a rule that may conclude it has a match. -/
theorem prove?_isSome {depth : Nat} :
    (prove? rules facts goal (depth + 1)).isSome = true ↔ ∃ o ∈ openings rules goal,
      allMatches (derivations rules facts depth [Pattern.key goal]) o.1.body o.2 ≠ [] := by
  have hsatisfied : ∀ (body : List Pattern) (b : Bindings),
      (satisfy rules facts body b (depth + 1) [Pattern.key goal] 1).head? =
        (allMatches (derivations rules facts depth [Pattern.key goal]) body b).head? := by
    intro body b
    have hbody : satisfy rules facts body b (depth + 1) [Pattern.key goal] 1 =
        matchBody (derivations rules facts depth [Pattern.key goal]) body b 1 := by
      cases body with
      | nil => rfl
      | cons p ps => rfl
    rw [hbody, matchBody_eq_take _ _ _ (Nat.le_refl 1), List.head?_take]
    rfl
  rw [prove?, List.findSome?_isSome_iff]
  constructor
  · rintro ⟨r, hr, h⟩
    split at h
    · cases h
    · rename_i hrel
      cases hb : r.head.matchGoal? goal with
      | none => simp [hb] at h
      | some b =>
        refine ⟨(r, b), mem_openings.mpr ⟨hr, by simpa using hrel, hb⟩, fun hnil => ?_⟩
        simp [hb, hsatisfied, hnil] at h
  · rintro ⟨o, ho, hsome⟩
    obtain ⟨hr, hrel, hb⟩ := mem_openings.mp ho
    obtain ⟨m, ms, hcons⟩ := List.exists_cons_of_ne_nil hsome
    refine ⟨o.1, hr, ?_⟩
    rw [if_neg (by simpa using hrel), hb]
    simp [hsatisfied, hcons]

/-! ### A search stays in stock -/

section

variable {terms : List String} {derive : Triple → List Derivation} {ps : List Pattern}
  {b : Bindings} {depth : Nat}

/-- What meets a goal in stock is in stock. -/
def Stocked (terms : List String) (derive : Triple → List Derivation) : Prop :=
  ∀ g, ConstantsIn terms g → ∀ d ∈ derive g, d.triple.subject ∈ terms ∧ d.triple.object ∈ terms

theorem valuesIn_of_mem_allMatches (hderive : Stocked terms derive)
    (hps : ∀ p ∈ ps, p.ConstantsIn terms) (hb : b.ValuesIn terms) :
    ∀ m ∈ allMatches derive ps b, m.bindings.ValuesIn terms := by
  induction ps generalizing b with
  | nil =>
    intro m hm
    rw [mem_allMatches_nil.mp hm]
    exact hb
  | cons p ps ih =>
    intro m hm
    obtain ⟨d, hd, ext, hext, m', hm', rfl⟩ := mem_allMatches_cons.mp hm
    obtain ⟨hs, ho⟩ := hderive _ ((hps p List.mem_cons_self).instantiate hb) d hd
    exact ih (fun q hq => hps q (List.mem_cons_of_mem p hq)) (matchTerms?_in hext hb hs ho) m' hm'

theorem constantsIn_of_mem_asked (hderive : Stocked terms derive)
    (hps : ∀ p ∈ ps, p.ConstantsIn terms) (hb : b.ValuesIn terms) {g : Triple}
    (hg : g ∈ asked derive ps b) : ConstantsIn terms g := by
  induction ps generalizing b with
  | nil => cases hg
  | cons p ps ih =>
    rw [asked, List.mem_cons, List.mem_flatMap] at hg
    rcases hg with rfl | ⟨d, hd, hg⟩
    · exact (hps p List.mem_cons_self).instantiate hb
    · obtain ⟨hs, ho⟩ := hderive _ ((hps p List.mem_cons_self).instantiate hb) d hd
      split at hg
      · cases hg
      · rename_i ext hext
        exact ih (fun q hq => hps q (List.mem_cons_of_mem p hq)) (matchTerms?_in hext hb hs ho) hg

/-- A search stays among the terms of the facts and the rules. -/
theorem derivations_in (hfacts : ∀ f ∈ facts, f.subject ∈ terms ∧ f.object ∈ terms)
    (hrules : ∀ c ∈ rules, ∀ p ∈ c.head :: c.body, p.ConstantsIn terms) (depth : Nat)
    (path : List String) : Stocked terms (derivations rules facts depth path) := by
  induction depth generalizing path with
  | zero =>
    intro g _ d hd
    obtain ⟨f, hf, -, -, -, rfl⟩ := mem_matching.mp (mem_offers hd)
    exact hfacts f hf
  | succ depth ih =>
    intro g hg d hd
    rcases mem_offers_succ.mp (mem_offers hd) with hmatch | ⟨o, ho, hd⟩
    · obtain ⟨f, hf, -, -, -, rfl⟩ := mem_matching.mp hmatch
      exact hfacts f hf
    · obtain ⟨hrule, -, hb⟩ := mem_openings.mp ho
      obtain ⟨m, hm, hground, rfl⟩ := mem_concluded.mp hd
      rw [matchBody_eq_take _ _ _ (by decide)] at hm
      have hbody : ∀ p ∈ o.1.body, p.ConstantsIn terms := fun p hp =>
        hrules o.1 hrule p (List.mem_cons_of_mem _ hp)
      have hvalues := valuesIn_of_mem_allMatches (ih _) hbody (matchGoal?_in hb hg) m
        (List.mem_of_mem_take hm)
      have hhead := (hrules o.1 hrule o.1.head List.mem_cons_self).instantiate hvalues
      obtain ⟨hs, ho⟩ := isGround_iff.mp hground
      exact ⟨hhead _ (by simp) hs, hhead _ (by simp) ho⟩

theorem relation_of_mem_derivations {path : List String} {d : Derivation}
    (hd : d ∈ derivations rules facts depth path goal) : d.triple.relation = goal.relation := by
  have hmatching : ∀ e ∈ matching facts goal, e.triple.relation = goal.relation := by
    intro e he
    obtain ⟨f, -, hrel, -, -, rfl⟩ := mem_matching.mp he
    exact hrel
  cases depth with
  | zero => exact hmatching d (mem_offers hd)
  | succ depth =>
    rcases mem_offers_succ.mp (mem_offers hd) with hd | ⟨o, ho, hd⟩
    · exact hmatching d hd
    · obtain ⟨m, -, -, rfl⟩ := mem_concluded.mp hd
      exact (mem_openings.mp ho).2.1

end

/-! ### Bodies that are found -/

/-- A body whose instances are all found is matched. -/
theorem exists_allMatches {derive : Triple → List Derivation} {known : Triple → Prop}
    {ps : List Pattern} {b : Bindings} {σ : String → String} (hσ : Agrees σ b)
    (hknown : ∀ p ∈ ps, known (p.under σ))
    (hfind : ∀ g ∈ asked derive ps b, ∀ t, known t → Admits g t → ∃ d ∈ derive g, d.triple = t) :
    ∃ m ∈ allMatches derive ps b, Agrees σ m.bindings ∧ b.Extends m.bindings ∧
      ∀ p ∈ ps, m.bindings.Covers p.subject ∧ m.bindings.Covers p.object := by
  induction ps generalizing b with
  | nil =>
    exact ⟨⟨b, []⟩, mem_allMatches_nil.mpr rfl, hσ, Extends.refl b,
      fun p hp => absurd hp List.not_mem_nil⟩
  | cons p ps ih =>
    obtain ⟨d, hd, htriple⟩ := hfind (p.instantiate b) List.mem_cons_self (p.under σ)
      (hknown p List.mem_cons_self) (admits_instantiate hσ)
    obtain ⟨ext, hext, hσext⟩ := exists_matchTerms? (t := d.triple) hσ (htriple ▸ fits_under σ p)
    obtain ⟨hle, hcovs, hcovo, -⟩ := matchTerms?_sound hext
    have hrest : ∀ g ∈ asked derive ps ext, g ∈ asked derive (p :: ps) b := by
      intro g hg
      rw [asked, List.mem_cons, List.mem_flatMap]
      refine Or.inr ⟨d, hd, ?_⟩
      rw [hext]
      exact hg
    obtain ⟨m, hm, hσm, hlem, hcov⟩ := ih hσext (fun q hq => hknown q (List.mem_cons_of_mem p hq))
      fun g hg => hfind g (hrest g hg)
    refine ⟨⟨m.bindings, d.steps ++ m.steps⟩,
      mem_allMatches_cons.mpr ⟨d, hd, ext, hext, m, hm, rfl⟩, hσm, hle.trans hlem, fun q hq => ?_⟩
    rcases List.mem_cons.mp hq with rfl | hq
    · exact ⟨hcovs.mono hlem, hcovo.mono hlem⟩
    · exact hcov q hq

end KnowledgeBase.Inference.Composition
