import KnowledgeBase.Proofs.Inference.Rounds
import Mathlib.Data.List.Infix
import Mathlib.Data.List.Perm.Subperm

/-!
# Forward chaining ends

Everything that is derived is put together from a finite stock of terms and relations, and each
round that does not end the chain adds a key, so the rounds come to an end.  What has been derived
then is closed under one more step.

* `vocabulary`, `Over`, `Follows.over`: the stock, which no step leaves;
* `length_forwardChain_le`: the stock bounds what is derived, whatever the number of rounds;
* `ended_or_grown`: a chain has ended, or has derived as many facts as it has rounds;
* `forwardChain_saturates`: the fixed point, its closure, and that more rounds extend fewer.
-/

namespace KnowledgeBase

/-- The constants in the patterns of composition rules. -/
def Relations.constants (r : Relations) : List String :=
  (r.compositions.flatMap fun c => (c.head :: c.body).flatMap fun p => [p.subject, p.object]).filter
    fun t => !Text.isVariable t

namespace Inference.Saturation

/-! ### The stock -/

/-- The terms of facts, and the constants of the rules over them. -/
def vocabulary (r : Relations) (facts : List Fact) : List String :=
  facts.flatMap (fun f => [f.subject, f.object]) ++ r.constants

/-- The relations of facts, and those that a rule or a swap leads to. -/
def conclusions (r : Relations) (facts : List Fact) : List String :=
  facts.map (·.relation) ++ r.compositions.map (·.head.relation) ++ r.inverses.toList.map (·.2)

/-- A triple whose parts are in stock. -/
structure Over (terms relations : List String) (t : Triple) : Prop where
  subject : t.subject ∈ terms
  relation : t.relation ∈ relations
  object : t.object ∈ terms

variable {r : Relations} {facts : List Fact} {terms relations : List String} {t : Triple}
  {name : String}

theorem mem_constants {c : CompositionRule} {p : Pattern} {term : String}
    (hc : c ∈ r.compositions) (hp : p ∈ c.head :: c.body)
    (hterm : term = p.subject ∨ term = p.object) (hconst : Text.isVariable term = false) :
    term ∈ r.constants := by
  refine List.mem_filter.mpr ⟨List.mem_flatMap.mpr ⟨c, hc, List.mem_flatMap.mpr ⟨p, hp, ?_⟩⟩, ?_⟩
  · simpa using hterm
  · simp [hconst]

/-- The value of a head's term is one of a fact, or a constant. -/
theorem termUnder_mem {c : CompositionRule} {σ : String → String} {term : String}
    (hc : c ∈ r.compositions) (hfault : c.fault? = none)
    (hfacts : ∀ f ∈ facts, Over terms relations f.triple) (hterms : ∀ a ∈ r.constants, a ∈ terms)
    (hbody : ∀ p ∈ c.body, ∃ f ∈ facts, p.Fits σ f.triple)
    (hterm : term ∈ [c.head.subject, c.head.object]) : Pattern.termUnder σ term ∈ terms := by
  unfold Pattern.termUnder
  split
  · rename_i hvar
    have hmem : term ∈ c.head.variableNames := List.mem_filter.mpr ⟨hterm, hvar⟩
    obtain ⟨p, hp, hpterm⟩ := CompositionRule.head_mem_body hfault hmem
    obtain ⟨f, hf, hfits⟩ := hbody p hp
    have hover := hfacts f hf
    rcases hpterm with rfl | rfl
    · rw [hfits.subject.eq_of_isVariable hvar]
      exact hover.subject
    · rw [hfits.object.eq_of_isVariable hvar]
      exact hover.object
  · rename_i hconst
    have hhead : term = c.head.subject ∨ term = c.head.object := by simpa using hterm
    exact hterms term (mem_constants hc List.mem_cons_self hhead (by simpa using hconst))

/-- What follows from facts in stock is in stock. -/
theorem Follows.over (hr : r.Registered) (hfacts : ∀ f ∈ facts, Over terms relations f.triple)
    (hterms : ∀ a ∈ r.constants, a ∈ terms)
    (hheads : ∀ c ∈ r.compositions, c.head.relation ∈ relations)
    (hinverses : ∀ e ∈ r.inverses.toList, e.2 ∈ relations) (h : Follows r facts t name) :
    Over terms relations t := by
  cases h with
  | @composition c σ hc hbody _ =>
    have hvalue : ∀ term ∈ [c.head.subject, c.head.object], Pattern.termUnder σ term ∈ terms :=
      fun _ hterm => termUnder_mem hc (hr.faultless c hc) hfacts hterms hbody hterm
    exact ⟨hvalue _ (by simp), hheads c hc, hvalue _ (by simp)⟩
  | chain _ hf hg _ _ _ =>
    exact ⟨(hfacts _ hf).subject, (hfacts _ hf).relation, (hfacts _ hg).object⟩
  | symmetry _ hf => exact ⟨(hfacts _ hf).object, (hfacts _ hf).relation, (hfacts _ hf).subject⟩
  | inversion hinv hf =>
    have hmem := Std.TreeMap.mem_toList_iff_getElem?_eq_some.mpr hinv
    exact ⟨(hfacts _ hf).object, hinverses _ hmem, (hfacts _ hf).subject⟩

theorem over_of_mem {f : Fact} (h : f ∈ facts) :
    Over (vocabulary r facts) (conclusions r facts) f.triple := by
  have hterm : ∀ a ∈ [f.subject, f.object], a ∈ vocabulary r facts := fun a ha =>
    List.mem_append_left _ (List.mem_flatMap.mpr ⟨f, h, ha⟩)
  have hrel : f.relation ∈ facts.map (·.relation) := List.mem_map.mpr ⟨f, h, rfl⟩
  exact ⟨hterm f.subject (by simp), List.mem_append_left _ (List.mem_append_left _ hrel),
    hterm f.object (by simp)⟩

/-- Everything derived is in the stock of the facts that were given. -/
theorem over_forwardChain (hr : r.Registered) (facts : List Fact) (rounds : Nat) :
    ∀ f ∈ facts ++ forwardChain r rounds facts,
      Over (vocabulary r facts) (conclusions r facts) f.triple := by
  induction rounds with
  | zero =>
    intro f hf
    rw [forwardChain, List.append_nil] at hf
    exact over_of_mem hf
  | succ n ih =>
    intro f hf
    rw [forwardChain_succ, ← List.append_assoc, List.mem_append] at hf
    rcases hf with hf | hf
    · exact ih f hf
    · obtain ⟨-, name, -, hfollows⟩ := follows_of_mem_round hf
      refine hfollows.over hr ih (fun a ha => List.mem_append_right _ ha) ?_ ?_
      · intro c hc
        exact List.mem_append_left _ (List.mem_append_right _ (List.mem_map.mpr ⟨c, hc, rfl⟩))
      · intro e he
        exact List.mem_append_right _ (List.mem_map.mpr ⟨e, he, rfl⟩)

/-! ### The bound -/

/-- The keys of all triples in stock. -/
def possibleKeys (terms relations : List String) : List String :=
  terms.flatMap fun s => relations.flatMap fun rel => terms.map fun o => Triple.termKey ⟨s, rel, o⟩

theorem key_mem_possibleKeys (h : Over terms relations t) :
    t.termKey ∈ possibleKeys terms relations :=
  List.mem_flatMap.mpr ⟨t.subject, h.subject, List.mem_flatMap.mpr ⟨t.relation, h.relation,
    List.mem_map.mpr ⟨t.object, h.object, rfl⟩⟩⟩

theorem length_forwardChain_le (hr : r.Registered) (facts : List Fact) (rounds : Nat) :
    (forwardChain r rounds facts).length ≤
      (possibleKeys (vocabulary r facts) (conclusions r facts)).length := by
  have hsub : keysOf (forwardChain r rounds facts) ⊆
      possibleKeys (vocabulary r facts) (conclusions r facts) := by
    intro k hk
    obtain ⟨f, hf, rfl⟩ := mem_keysOf.mp hk
    exact key_mem_possibleKeys (over_forwardChain hr facts rounds f (List.mem_append_right _ hf))
  have hle := (List.subperm_of_subset (keysOf_forwardChain_nodup r rounds facts) hsub).length_le
  simpa [keysOf] using hle

/-! ### The end -/

/-- A chain has ended, or each of its rounds has derived something. -/
theorem ended_or_grown (r : Relations) (facts : List Fact) (n : Nat) :
    round r (facts ++ forwardChain r n facts) = [] ∨ n < (forwardChain r (n + 1) facts).length := by
  induction n with
  | zero =>
    by_cases hstop : round r (facts ++ forwardChain r 0 facts) = []
    · exact Or.inl hstop
    · have hpos := List.length_pos_iff.mpr hstop
      right
      rw [forwardChain_succ, List.length_append]
      omega
  | succ n ih =>
    rcases ih with hended | hgrown
    · left
      rw [forwardChain_succ, hended, List.append_nil]
      exact hended
    · by_cases hstop : round r (facts ++ forwardChain r (n + 1) facts) = []
      · exact Or.inl hstop
      · have hpos := List.length_pos_iff.mpr hstop
        right
        rw [forwardChain_succ, List.length_append]
        omega

theorem exists_ended (hr : r.Registered) (facts : List Fact) :
    ∃ n, round r (facts ++ forwardChain r n facts) = [] := by
  have hbound := length_forwardChain_le hr facts
  rcases ended_or_grown r facts (possibleKeys (vocabulary r facts) (conclusions r facts)).length
    with hended | hgrown
  · exact ⟨_, hended⟩
  · exact absurd (hbound _) (not_le.mpr hgrown)

theorem forwardChain_of_ended {m n : Nat} (h : round r (facts ++ forwardChain r n facts) = [])
    (hle : n ≤ m) : forwardChain r m facts = forwardChain r n facts := by
  induction hle with
  | refl => rfl
  | step _ ih => rw [forwardChain_succ, ih, h, List.append_nil]

/-- Whatever follows from the facts is stated by one of them, up to spelling. -/
def Saturated (r : Relations) (facts : List Fact) : Prop :=
  ∀ t name, Follows r facts t name → t.termKey ∈ keysOf facts

theorem saturated_of_round (hr : r.Registered) (h : round r facts = []) : Saturated r facts := by
  intro t name hfollows
  have hmem := key_mem_round (mem_candidates hr hfollows)
  rw [h, List.append_nil] at hmem
  exact hmem

theorem forwardChain_of_round (h : round r facts = []) (rounds : Nat) :
    forwardChain r rounds facts = [] := by
  cases rounds with
  | zero => rfl
  | succ n => simp [forwardChain, h]

/-- **Forward chaining reaches a fixed point**: from some number of rounds on it derives the same
facts, together with these the facts are closed under every rule, chain and swap, and nothing more
is derived from the union.  Fewer rounds derive a first part of what more rounds derive. -/
theorem forwardChain_saturates (hr : r.Registered) (facts : List Fact) :
    (∃ n derived, (∀ m, n ≤ m → forwardChain r m facts = derived) ∧
      Saturated r (facts ++ derived) ∧ ∀ k, forwardChain r k (facts ++ derived) = []) ∧
    ∀ m m', m ≤ m' → forwardChain r m facts <+: forwardChain r m' facts := by
  refine ⟨?_, fun m m' hle => forwardChain_prefix hle⟩
  obtain ⟨n, hended⟩ := exists_ended hr facts
  refine ⟨n, forwardChain r n facts, ?_, ?_, ?_⟩
  · intro m hle
    exact forwardChain_of_ended hended hle
  · exact saturated_of_round hr hended
  · exact forwardChain_of_round hended

/-- Dogs are mammals and mammals are animals, written in two ways, and Ann is the parent of Ben. -/
def mixedFacts : List Fact :=
  [{ triple := ⟨"Dog", "IS_A", "Mammal"⟩ }, { triple := ⟨"mammal ", "IS_A", "Animal"⟩ },
    { triple := ⟨"Ann", "PARENT_OF", "Ben"⟩ }]

theorem forwardChain_saturates_mixedFacts :
    Relations.standard.Registered ∧
      (∃ n derived, (∀ m, n ≤ m → forwardChain .standard m mixedFacts = derived) ∧
        Saturated .standard (mixedFacts ++ derived) ∧
        ∀ k, forwardChain .standard k (mixedFacts ++ derived) = []) ∧
      ∀ m m', m ≤ m' →
        forwardChain .standard m mixedFacts <+: forwardChain .standard m' mixedFacts :=
  ⟨Relations.registered_standard, forwardChain_saturates Relations.registered_standard mixedFacts⟩

example : (forwardChain .standard 9 [{ triple := ⟨"Dog", "IS_A", "Mammal"⟩ },
    { triple := ⟨"mammal ", "IS_A", "Animal"⟩ }]).map (·.triple) =
    [⟨"Dog", "IS_A", "Animal"⟩] := by decide +kernel

end Inference.Saturation

end KnowledgeBase
