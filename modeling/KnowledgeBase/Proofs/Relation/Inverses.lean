import KnowledgeBase.Proofs.Consistency.Candidate
import KnowledgeBase.Proofs.Inference.Certainty
import KnowledgeBase.Proofs.Inference.Consequence

/-!
# Inverses of each other

A call enters two relations as each other's inverse.  It overwrites what was entered for either of
them before, but not what was entered for their former partners, and these still name them.

* `Relations.Mutual`: every relation is the partner of its partner;
* `StayTogether`: no relation of a call is named again in a later one without the other;
* `mutual_iff_of_addInverses`: what a history of calls makes of any table, by induction on the
  history;
* `swapsCertain_iff`: where partners are mutual, and nowhere else, inference along inverses confirms
  whatever saturation reads backwards along them;
* `inverses_mutual_iff`: both together.
-/

namespace KnowledgeBase

namespace Relations

open Inference Saturation

variable {r r₀ : Relations} {ps : List (String × String)} {a b c : String}

/-! ### Histories -/

/-- Enters pairs of inverses in turn. -/
def addInverses (r : Relations) (ps : List (String × String)) : Except Fault Relations :=
  ps.foldlM (fun r p => r.addInverse p.1 p.2) r

/-- The relations that pairs name. -/
def named (ps : List (String × String)) : List String := ps.flatMap fun p => [p.1, p.2]

/-- Of two relations that are entered together, neither is named again without the other. -/
def StayTogether : List (String × String) → Prop
  | [] => True
  | p :: ps => (p.1 ∈ named ps ↔ p.2 ∈ named ps) ∧ StayTogether ps

instance decidableStayTogether : (ps : List (String × String)) → Decidable (StayTogether ps)
  | [] => inferInstanceAs (Decidable True)
  | p :: ps =>
    have := decidableStayTogether ps
    inferInstanceAs (Decidable ((p.1 ∈ named ps ↔ p.2 ∈ named ps) ∧ StayTogether ps))

/-- Every relation is the partner of its partner. -/
def Mutual (r : Relations) : Prop := ∀ a b, r.inverse? a = some b → r.inverse? b = some a

theorem addInverse_eq_ok {r' : Relations} (h : r.addInverse a b = .ok r') : r' = r.pair a b := by
  obtain ⟨-, -, h⟩ := Outcome.bind_eq_ok.mp h
  obtain ⟨-, -, h⟩ := Outcome.bind_eq_ok.mp h
  cases h
  rfl

/-- A call makes two relations partners of each other. -/
theorem inverse?_pair_left : (r.pair a b).inverse? a = some b := by
  unfold inverse? pair
  rw [Std.TreeMap.getElem?_insert, Std.TreeMap.getElem?_insert_self]
  split
  · rename_i h
    rw [Std.compare_eq_iff_eq.mp h]
  · rfl

theorem inverse?_pair_right : (r.pair a b).inverse? b = some a :=
  Std.TreeMap.getElem?_insert_self

theorem inverse?_pair_of_ne (ha : c ≠ a) (hb : c ≠ b) :
    (r.pair a b).inverse? c = r.inverse? c := by
  unfold inverse? pair
  rw [Std.TreeMap.getElem?_insert, if_neg fun h => hb (Std.compare_eq_iff_eq.mp h).symm,
    Std.TreeMap.getElem?_insert, if_neg fun h => ha (Std.compare_eq_iff_eq.mp h).symm]

/-! ### What calls leave behind -/

/-- The partners in a table, of relations that are not named later, are not named later either and
name them back. -/
def Settled (r : Relations) (later : List String) : Prop :=
  ∀ a b, r.inverse? a = some b → a ∉ later → b ∉ later ∧ r.inverse? b = some a

theorem settled_nil : r.Settled [] ↔ r.Mutual := by
  simp [Settled, Mutual]

/-- One call before later ones: its own relations must stay together, and no other relation may be
left without its partner. -/
theorem settled_pair {later : List String} :
    (r.pair a b).Settled later ↔ (a ∈ later ↔ b ∈ later) ∧ r.Settled (a :: b :: later) := by
  constructor
  · intro h
    refine ⟨⟨fun ha => ?_, fun hb => ?_⟩, fun c d hcd hc => ?_⟩
    · by_contra hb
      exact (h b a inverse?_pair_right hb).1 ha
    · by_contra ha
      exact (h a b inverse?_pair_left ha).1 hb
    · simp only [List.mem_cons, not_or] at hc ⊢
      obtain ⟨hca, hcb, hc⟩ := hc
      obtain ⟨hd, hdc⟩ := h c d ((inverse?_pair_of_ne hca hcb).trans hcd) hc
      -- the partners of `a` and `b` are each other, and `c` is neither
      have hda : d ≠ a := by
        rintro rfl
        rw [inverse?_pair_left] at hdc
        exact hcb (Option.some.inj hdc).symm
      have hdb : d ≠ b := by
        rintro rfl
        rw [inverse?_pair_right] at hdc
        exact hca (Option.some.inj hdc).symm
      exact ⟨⟨hda, hdb, hd⟩, (inverse?_pair_of_ne hda hdb).symm.trans hdc⟩
  · rintro ⟨hab, h⟩ c d hcd hc
    by_cases hcb : c = b
    · subst hcb
      rw [inverse?_pair_right] at hcd
      cases hcd
      exact ⟨fun ha => hc (hab.mp ha), inverse?_pair_left⟩
    by_cases hca : c = a
    · subst hca
      rw [inverse?_pair_left] at hcd
      cases hcd
      exact ⟨fun hb => hc (hab.mpr hb), inverse?_pair_right⟩
    · rw [inverse?_pair_of_ne hca hcb] at hcd
      obtain ⟨hd, hdc⟩ := h c d hcd (by simp [hca, hcb, hc])
      simp only [List.mem_cons, not_or] at hd
      exact ⟨hd.2.2, (inverse?_pair_of_ne hd.1 hd.2.1).trans hdc⟩

/-- **After a history of calls partners are mutual exactly if no relation was left behind**, neither
by the relation that it was entered with nor by a partner that the table began with. -/
theorem mutual_iff_of_addInverses (h : r₀.addInverses ps = .ok r) :
    r.Mutual ↔ StayTogether ps ∧ r₀.Settled (named ps) := by
  induction ps generalizing r₀ with
  | nil =>
    cases h
    rw [show named [] = [] from rfl, settled_nil, StayTogether, true_and]
  | cons p ps ih =>
    obtain ⟨a, b⟩ := p
    unfold addInverses at h
    rw [List.foldlM_cons] at h
    obtain ⟨r₁, hr₁, h⟩ := Outcome.bind_eq_ok.mp h
    rw [addInverse_eq_ok hr₁] at h
    rw [ih h, settled_pair, StayTogether, show named ((a, b) :: ps) = a :: b :: named ps from rfl]
    tauto

theorem mutual_standard : standard.Mutual := by
  have hcall : ({ bare with
      transitive := .ofList [Relation.isA, "PART_OF"]
      symmetric := .ofList ["MARRIED_TO", "SIBLING_OF"] } : Relations).addInverses
        [("PARENT_OF", "CHILD_OF")] = .ok standard := rfl
  refine (mutual_iff_of_addInverses hcall).mpr ⟨by decide, fun a b hab => ?_⟩
  simp [inverse?, bare] at hab

/-- Of a table with mutual partners, none may be named without the other. -/
theorem Mutual.settled_iff (h : r.Mutual) {later : List String} :
    r.Settled later ↔ ∀ a b, r.inverse? a = some b → (a ∈ later ↔ b ∈ later) := by
  constructor
  · intro hs a b hab
    constructor
    · intro ha
      by_contra hb
      exact (hs b a (h a b hab) hb).1 ha
    · intro hb
      by_contra ha
      exact (hs a b hab ha).1 hb
  · exact fun hs a b hab ha => ⟨fun hb => ha ((hs a b hab).mpr hb), h a b hab⟩

/-! ### Facts that are read backwards -/

/-- What saturation reads backwards along inverses, inference along inverses is certain of, over the
same facts. -/
def SwapsCertain (r : Relations) : Prop :=
  ∀ (i : Inference) (facts : List Fact), i.relations = r → ∀ p ∈ r.inverses.toList,
    ∀ x ∈ swapInverse facts p.1 p.2, (i.inverse facts x.triple).truth = .certain

theorem mem_swapInverse {facts : List Fact} {x : Candidate} :
    x ∈ swapInverse facts a b ↔
      ∃ f ∈ facts, f.relation = a ∧ x = ⟨f.triple.swapped b, "inverse_closure"⟩ := by
  simp only [swapInverse, List.mem_map, List.mem_filter, beq_iff_eq]
  constructor
  · rintro ⟨f, ⟨hf, hrel⟩, rfl⟩
    exact ⟨f, hf, hrel, rfl⟩
  · rintro ⟨f, hf, hrel, rfl⟩
    exact ⟨f, ⟨hf, hrel⟩, rfl⟩

/-- **Inference confirms what saturation reads backwards exactly where partners are mutual**: along
the partner of the partner it looks for facts of the relation that the swap came from. -/
theorem swapsCertain_iff : r.SwapsCertain ↔ r.Mutual := by
  constructor
  · intro h a b hab
    -- the one fact there is must be found again
    let f : Fact := { triple := ⟨"x", a, "y"⟩ }
    have hcertain := h ⟨r, {}, 10⟩ [f] rfl (a, b)
      (Std.TreeMap.mem_toList_iff_getElem?_eq_some.mpr hab) _
      (mem_swapInverse.mpr ⟨f, List.mem_singleton_self f, rfl, rfl⟩)
    obtain ⟨c, hc, g, hg, hstates⟩ := inverse_certain_iff.mp hcertain
    rw [List.mem_singleton.mp hg] at hstates
    obtain ⟨hrel, -⟩ := f.states_iff.mp hstates
    rw [show a = c from hrel]
    exact hc
  · rintro h i facts rfl ⟨a, b⟩ hp x hx
    obtain ⟨f, hf, hrel, rfl⟩ := mem_swapInverse.mp hx
    have hab := h a b (Std.TreeMap.mem_toList_iff_getElem?_eq_some.mp hp)
    refine inverse_certain_iff.mpr ⟨a, hab, f, hf, ?_⟩
    subst hrel
    exact f.states_self

/-- **Partners are mutual exactly if no call named a relation again without its partner**, and
exactly then inference confirms whatever saturation reads backwards.  The history starts from any
table in which partners are mutual, such as the empty one. -/
theorem inverses_mutual_iff (hbase : r₀.Mutual) (h : r₀.addInverses ps = .ok r) :
    (r.Mutual ↔ StayTogether ps ∧
      ∀ a b, r₀.inverse? a = some b → (a ∈ named ps ↔ b ∈ named ps)) ∧
    (r.Mutual ↔ r.SwapsCertain) := by
  refine ⟨?_, swapsCertain_iff.symm⟩
  rw [mutual_iff_of_addInverses h, hbase.settled_iff]

/-- Owning is entered twice, each time with its partner. -/
def entries : List (String × String) :=
  [("TEACHES", "TAUGHT_BY"), ("OWNS", "OWNED_BY"), ("OWNED_BY", "OWNS")]

theorem inverses_mutual_entries : standard.Mutual ∧ ∃ r, standard.addInverses entries = .ok r ∧
    (r.Mutual ↔ StayTogether entries ∧
      ∀ a b, standard.inverse? a = some b → (a ∈ named entries ↔ b ∈ named entries)) ∧
    (r.Mutual ↔ r.SwapsCertain) :=
  ⟨mutual_standard, _, rfl, inverses_mutual_iff mutual_standard rfl⟩

/-- `P` is entered with `Q` and then with `R`.  The entry of `Q` still names `P`: what saturation
reads backwards along it, inference no longer confirms. -/
theorem stale_inverse : ∃ r, bare.addInverses [("P", "Q"), ("P", "R")] = .ok r ∧
    r.inverse? "Q" = some "P" ∧ r.inverse? "P" = some "R" ∧
    (⟨"y", "P", "x"⟩ : Triple) ∈
      (forwardChain r 100 [{ triple := ⟨"x", "Q", "y"⟩ }]).map Fact.triple ∧
    ((⟨r, {}, 10⟩ : Inference).inverse [{ triple := ⟨"x", "Q", "y"⟩ }]
      ⟨"y", "P", "x"⟩).truth = .unknown :=
  ⟨_, rfl, by decide +kernel, by decide +kernel, by decide +kernel, by decide +kernel⟩

end Relations

end KnowledgeBase
