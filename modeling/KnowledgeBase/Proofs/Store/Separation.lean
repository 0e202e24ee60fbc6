import KnowledgeBase.Proofs.Store.Scan

/-!
# Facts that are told apart

Facts are found by keys that are composed of their texts.  Keys tell triples apart as long as no
text holds the separator, and a triple with a separator inside always shares its key with another.

* `Triple.exists_twin`: the separator is moved from one text to the next;
* `Store.ToldApart`, `toldApart_iff`: look-ups give out the facts that were asked for, if and only
  if all facts are clean;
* `Coherent.add_cases`: what asserting does, a fact that shares the key standing for the triple;
* `keptApart_iff`: two triples that are asserted get facts of their own that are told apart, if and
  only if no text of theirs or of the store holds the separator, and `taken_for_other`, where two
  triples share a key.
-/

namespace KnowledgeBase

/-! ### Triples that share a key -/

namespace Text

/-- A text that is not clean is cut at a separator. -/
theorem exists_cut {s : String} (h : ¬ Clean s) : ∃ p q : String, s = p ++ keySeparator ++ q := by
  unfold Clean at h
  rw [not_not] at h
  obtain ⟨p, q, hpq⟩ := List.append_of_mem h
  refine ⟨String.ofList p, String.ofList q, ?_⟩
  rw [← String.toList_inj, hpq]
  simp [keySeparator]

/-- A text is none of its proper ends. -/
theorem ne_of_cut {p q : String} : q ≠ p ++ keySeparator ++ q := by
  intro h
  have hlen := congrArg (fun s => s.toList.length) h
  simp [keySeparator] at hlen
  omega

end Text

/-- A triple that holds the separator shares its key with another triple. -/
theorem Triple.exists_twin {t : Triple} (h : ¬ t.Clean) : ∃ t', t' ≠ t ∧ t'.key = t.key := by
  obtain ⟨a, r, o⟩ := t
  unfold Triple.Clean at h
  by_cases ho : Text.Clean o
  · by_cases hr : Text.Clean r
    · have ha : ¬ Text.Clean a := fun ha => h ⟨ha, hr, ho⟩
      obtain ⟨p, q, rfl⟩ := Text.exists_cut ha
      -- the end of the subject goes to the relation
      refine ⟨⟨p, q ++ Text.keySeparator ++ r, o⟩, ?_, ?_⟩
      · intro heq
        have hrel := (Triple.mk.inj heq).2.1
        exact Text.ne_of_cut hrel.symm
      · simp [Triple.key, String.append_assoc]
    · obtain ⟨p, q, rfl⟩ := Text.exists_cut hr
      refine ⟨⟨a ++ Text.keySeparator ++ p, q, o⟩, ?_, ?_⟩
      · intro heq
        have hrel := (Triple.mk.inj heq).2.1
        exact Text.ne_of_cut hrel
      · simp [Triple.key, String.append_assoc]
  · obtain ⟨p, q, rfl⟩ := Text.exists_cut ho
    refine ⟨⟨a, r ++ Text.keySeparator ++ p, q⟩, ?_, ?_⟩
    · intro heq
      have hobj := (Triple.mk.inj heq).2.2
      exact Text.ne_of_cut hobj
    · simp [Triple.key, String.append_assoc]

namespace Store

variable {s : Store} {t : Triple} {level : Existence} {metadata : Value}

/-! ### Look-ups -/

/-- Look-ups by a triple, and by a subject and a relation, give out facts of just these texts. -/
structure ToldApart (s : Store) : Prop where
  best : ∀ a r o f, s.bestFact a r (some o) = .ok (some f) → f.triple = ⟨a, r, o⟩
  pair : ∀ a r min fs, s.factsByPair a r min = .ok fs →
    ∀ f ∈ fs, f.subject = a ∧ f.relation = r

/-- Triples of one key are looked up as one. -/
theorem bestFact_congr {t t' : Triple} (h : t'.key = t.key) :
    s.bestFact t'.subject t'.relation (some t'.object) =
      s.bestFact t.subject t.relation (some t.object) := by
  unfold bestFact
  dsimp only
  rw [h]

/-- **Facts are told apart if and only if no text of theirs holds the separator.** -/
theorem Coherent.toldApart_iff (h : Coherent s) : s.ToldApart ↔ s.Clean := by
  constructor
  · intro happart f hf
    by_contra hclean
    obtain ⟨t, hne, hkey⟩ := Triple.exists_twin hclean
    obtain ⟨b, hb, hforemost⟩ := h.bestFact_eq f.triple
    cases b with
    | none =>
      have hnil : s.scan (tripleKeyOf · == f.triple.key) = [] := hforemost
      have hscan : f ∈ s.scan (tripleKeyOf · == f.triple.key) :=
        List.mem_filter.mpr ⟨hf, by simp [tripleKeyOf]⟩
      rw [hnil] at hscan
      cases hscan
    | some g =>
      -- one fact answers for both triples
      have hself : g.triple = f.triple := happart.best _ _ _ g hb
      have hother : g.triple = t := by
        have hbt := hb
        rw [← bestFact_congr hkey] at hbt
        exact happart.best _ _ _ g hbt
      exact hne (hother.symm.trans hself)
  · intro hclean
    constructor
    · intro a r o f hbest
      obtain ⟨b, hb, hforemost⟩ := h.bestFact_triple (t := ⟨a, r, o⟩) (.inl hclean)
      have hbf : b = some f := by
        rw [hbest] at hb
        exact (Except.ok.inj hb).symm
      subst hbf
      have htriple := (List.mem_filter.mp hforemost.1).2
      simpa using htriple
    · intro a r min fs hfs f hf
      rw [h.factsByPair_eq hclean] at hfs
      cases hfs
      have htest := (List.mem_filter.mp hf).2
      simp only [Bool.and_eq_true, beq_iff_eq] at htest
      exact htest.1

/-! ### Asserting -/

/-- A fact that shares the key of a triple stands for it, if its level is high enough; otherwise all
facts of that key stand lower, and a new version is called for. -/
theorem Indexed.add_cases {r : FactId → FactId → Prop} (h : Indexed r s)
    (hvalid : assertionFault? t level metadata = none) (now : Millis) :
    (∃ f ∈ s.allFacts, f.triple.key = t.key ∧
        s.bestFact t.subject t.relation (some t.object) = .ok (some f) ∧
        level ≤ f.existence ∧ s.add t level metadata now = (s, .ok f.id)) ∨
      (∀ f ∈ s.allFacts, f.triple.key = t.key → f.existence < level) ∧
        s.add t level metadata now = s.addVersion t level metadata now := by
  obtain ⟨b, hb, hforemost⟩ := h.bestFact_eq t
  have hscan : ∀ f ∈ s.allFacts, f.triple.key = t.key → f ∈ s.scan (tripleKeyOf · == t.key) :=
    fun f hf hkey => List.mem_filter.mpr ⟨hf, by simp [tripleKeyOf, hkey]⟩
  unfold Store.add
  rw [hvalid]
  dsimp only
  rw [hb]
  cases b with
  | none =>
    refine .inr ⟨fun f hf hkey => ?_, rfl⟩
    have hmem := hscan f hf hkey
    rw [show s.scan (tripleKeyOf · == t.key) = [] from hforemost] at hmem
    cases hmem
  | some f =>
    obtain ⟨hf, hkey⟩ := List.mem_filter.mp hforemost.1
    dsimp only
    split
    · rename_i hle
      exact .inl ⟨f, hf, by simpa [tripleKeyOf] using hkey, rfl, hle, rfl⟩
    · rename_i hlt
      refine .inr ⟨fun g hg hgkey => ?_, rfl⟩
      rcases hforemost.2 g (hscan g hg hgkey) with rfl | hlow | ⟨heq, -⟩
      · exact not_le.mp hlt
      · exact lt_trans hlow (not_le.mp hlt)
      · exact heq ▸ not_le.mp hlt

theorem Coherent.add_cases (h : Coherent s) (hvalid : assertionFault? t level metadata = none)
    (now : Millis) :
    (∃ f ∈ s.allFacts, f.triple.key = t.key ∧
        s.bestFact t.subject t.relation (some t.object) = .ok (some f) ∧
        s.add t level metadata now = (s, .ok f.id)) ∨
      s.add t level metadata now =
        ((s.receive (s.nextId + 1) (s.nextVersion t level metadata)).touch t now,
          .ok s.nextId) := by
  rcases h.indexed.add_cases hvalid now with ⟨f, hf, hkey, hbest, -, heq⟩ | ⟨-, heq⟩
  · exact .inl ⟨f, hf, hkey, hbest, heq⟩
  · exact .inr (heq.trans (addVersion_eq h t level metadata))

section NewVersion

variable {r : FactId → FactId → Prop} (hfree : s.fact? s.nextId = none)
include hfree

/-- The facts after a new version has come in. -/
theorem fact?_newVersion (now : Millis) (i : FactId) :
    ((s.receive (s.nextId + 1) (s.nextVersion t level metadata)).touch t now).fact? i =
      if i = s.nextId then some (s.nextVersion t level metadata) else s.fact? i := by
  rw [fact?_congr (ledger_touch t), fact?_receive (f := s.nextVersion t level metadata) _ hfree]
  rfl

/-- A new version that stands above all others of its key is what look-ups of its triple find. -/
theorem Indexed.bestFact_newVersion (h : Indexed r s) (now : Millis)
    (hlast : ∀ i, (s.fact? i).isSome → r i s.nextId)
    (habove : ∀ f ∈ s.allFacts, f.triple.key = t.key → f.existence < level) :
    ((s.receive (s.nextId + 1) (s.nextVersion t level metadata)).touch t now).bestFact
        t.subject t.relation (some t.object) = .ok (some (s.nextVersion t level metadata)) := by
  have hindexed : Indexed r
      ((s.receive (s.nextId + 1) (s.nextVersion t level metadata)).touch t now) :=
    (h.receive hfree hlast).congr (ledger_touch t)
  obtain ⟨b, hb, hforemost⟩ := hindexed.bestFact_eq t
  have hfact : ∀ i,
      ((s.receive (s.nextId + 1) (s.nextVersion t level metadata)).touch t now).fact? i =
        if i = s.nextId then some (s.nextVersion t level metadata) else s.fact? i :=
    fact?_newVersion hfree now
  have hnew : s.nextVersion t level metadata ∈
      ((s.receive (s.nextId + 1) (s.nextVersion t level metadata)).touch t now).scan
        (tripleKeyOf · == t.key) :=
    mem_scan.mpr ⟨⟨s.nextId, by rw [hfact, if_pos rfl]⟩, by simp [tripleKeyOf, nextVersion]⟩
  rw [hb]
  cases b with
  | none =>
    rw [hforemost] at hnew
    cases hnew
  | some g =>
    obtain ⟨⟨i, hi⟩, hkey⟩ := mem_scan.mp hforemost.1
    rw [hfact] at hi
    split at hi
    · rw [Option.some.inj hi]
    · -- any other fact of this key is outranked by the new one, so it cannot come first
      have hlow : g.existence < level :=
        habove g (mem_allFacts.mpr ⟨i, hi⟩) (by simpa [tripleKeyOf] using hkey)
      rcases hforemost.2 _ hnew with heq | hrank | ⟨heq, -⟩
      · rw [heq]
      · exact absurd hlow (lt_asymm hrank)
      · exact absurd heq (ne_of_lt hlow)

end NewVersion

theorem Coherent.fact?_newVersion (h : Coherent s) (now : Millis) (i : FactId) :
    ((s.receive (s.nextId + 1) (s.nextVersion t level metadata)).touch t now).fact? i =
      if i = s.nextId then some (s.nextVersion t level metadata) else s.fact? i :=
  Store.fact?_newVersion h.free_nextId now i

/-- Asserting loses no fact. -/
theorem Coherent.fact?_add (h : Coherent s) (hvalid : assertionFault? t level metadata = none)
    (now : Millis) {i : FactId} {f : Fact} (hf : s.fact? i = some f) :
    (s.add t level metadata now).1.fact? i = some f := by
  rcases h.add_cases hvalid now with ⟨g, -, -, -, heq⟩ | heq
  · rw [heq]
    exact hf
  · have hlt := h.below hf
    have hne : i ≠ s.nextId := fun heq => UInt64.lt_irrefl _ (heq ▸ hlt)
    rw [heq, h.fact?_newVersion, if_neg hne]
    exact hf

/-- Asserting a clean triple leaves a clean store clean. -/
theorem Clean.add (hc : s.Clean) (h : Coherent s) (ht : t.Clean)
    (hvalid : assertionFault? t level metadata = none) (now : Millis) :
    (s.add t level metadata now).1.Clean := by
  intro g hg
  obtain ⟨i, hi⟩ := mem_allFacts.mp hg
  rcases h.add_cases hvalid now with ⟨f, -, -, -, heq⟩ | heq
  · rw [heq] at hi
    exact hc g (mem_allFacts.mpr ⟨i, hi⟩)
  · rw [heq, h.fact?_newVersion] at hi
    split at hi
    · cases hi
      exact ht
    · exact hc g (mem_allFacts.mpr ⟨i, hi⟩)

/-- In a clean store a triple is answered with a fact of its own. -/
theorem Coherent.exists_own (h : Coherent s) (hc : s.Clean)
    (hvalid : assertionFault? t level metadata = none) (now : Millis) :
    ∃ i f, (s.add t level metadata now).2 = .ok i ∧
      (s.add t level metadata now).1.fact? i = some f ∧ f.triple = t := by
  rcases h.add_cases hvalid now with ⟨f, hf, hkey, -, heq⟩ | heq
  · refine ⟨f.id, f, by rw [heq], ?_, (Triple.key_eq_iff (hc f hf)).mp hkey⟩
    rw [heq]
    exact h.fact?_id hf
  · refine ⟨s.nextId, s.nextVersion t level metadata, by rw [heq], ?_, rfl⟩
    rw [heq, h.fact?_newVersion, if_pos rfl]

end Store

/-! ### Two assertions -/

/-- What is asserted, and when. -/
structure Assertion where
  triple : Triple
  level : Existence := Existence.certain
  metadata : Value := .record []
  now : Millis := 0

/-- An assertion that is not refused. -/
def Assertion.Valid (a : Assertion) : Prop :=
  Store.assertionFault? a.triple a.level a.metadata = none

instance (a : Assertion) : Decidable a.Valid :=
  inferInstanceAs (Decidable (Store.assertionFault? a.triple a.level a.metadata = none))

namespace Store

variable {s : Store} {a b : Assertion}

/-- The store that is told something, and its answer. -/
def tell (s : Store) (a : Assertion) : Store × Except Fault FactId :=
  s.add a.triple a.level a.metadata a.now

/-- Of two triples that are asserted one after the other, each has a fact of its own afterwards,
whose id was the answer, and look-ups tell facts apart. -/
structure KeptApart (s : Store) (a b : Assertion) : Prop where
  own : ∃ i j f g, (s.tell a).2 = .ok i ∧ ((s.tell a).1.tell b).2 = .ok j ∧ i ≠ j ∧
    ((s.tell a).1.tell b).1.fact? i = some f ∧ f.triple = a.triple ∧
    ((s.tell a).1.tell b).1.fact? j = some g ∧ g.triple = b.triple
  toldApart : ((s.tell a).1.tell b).1.ToldApart

/-- **Different triples are kept apart if and only if neither they nor any fact of the store holds
the separator**, over every store that is reached without a wrap of the counter. -/
theorem keptApart_iff (hs : Reached Unwrapped s) (ha : a.Valid) (hb : b.Valid)
    (hne : a.triple ≠ b.triple) (hwa : (s.tell a).1.Unwrapped)
    (hwb : ((s.tell a).1.tell b).1.Unwrapped) :
    KeptApart s a b ↔ s.Clean ∧ a.triple.Clean ∧ b.triple.Clean := by
  have h := coherent_of_reached hs
  have ha' : Coherent (s.tell a).1 := h.add _ _ _ hwa
  have hb' : Coherent ((s.tell a).1.tell b).1 := ha'.add _ _ _ hwb
  constructor
  · rintro ⟨⟨i, j, f, g, -, -, -, hf, hfa, hg, hgb⟩, happart⟩
    have hclean := hb'.toldApart_iff.mp happart
    refine ⟨?_, ?_, ?_⟩
    · intro e he
      obtain ⟨k, hk⟩ := mem_allFacts.mp he
      exact hclean e (mem_allFacts.mpr ⟨k, ha'.fact?_add hb _ (h.fact?_add ha _ hk)⟩)
    · exact hfa ▸ hclean f (mem_allFacts.mpr ⟨i, hf⟩)
    · exact hgb ▸ hclean g (mem_allFacts.mpr ⟨j, hg⟩)
  · rintro ⟨hc, hca, hcb⟩
    have hc₁ : (s.tell a).1.Clean := hc.add h hca ha _
    have hc₂ : ((s.tell a).1.tell b).1.Clean := hc₁.add ha' hcb hb _
    obtain ⟨i, f, hi, hf, hfa⟩ := h.exists_own hc ha a.now
    obtain ⟨j, g, hj, hg, hgb⟩ := ha'.exists_own hc₁ hb b.now
    have hf' : ((s.tell a).1.tell b).1.fact? i = some f := ha'.fact?_add hb _ hf
    refine ⟨⟨i, j, f, g, hi, hj, ?_, hf', hfa, hg, hgb⟩, hb'.toldApart_iff.mpr hc₂⟩
    rintro rfl
    have hfg : some f = some g := hf'.symm.trans hg
    cases hfg
    exact hne (hfa.symm.trans hgb)

theorem keptApart_iff_dogAndPet :
    let s : Store := { dimensions := 2 }
    let dog : Assertion := { triple := ⟨"Rex", "IS_A", "Dog"⟩ }
    let pet : Assertion := { triple := ⟨"Rex", "IS_A", "Pet"⟩ }
    Reached Unwrapped s ∧ dog.Valid ∧ pet.Valid ∧ dog.triple ≠ pet.triple ∧
      (s.tell dog).1.Unwrapped ∧ ((s.tell dog).1.tell pet).1.Unwrapped ∧ KeptApart s dog pet := by
  intro s dog pet
  have hs : Reached Unwrapped s := .make (n := 2) rfl
  have hdog : dog.Valid := by decide +kernel
  have hpet : pet.Valid := by decide +kernel
  have hne : dog.triple ≠ pet.triple := by decide +kernel
  have hw : (s.tell dog).1.Unwrapped := by decide +kernel
  have hw' : ((s.tell dog).1.tell pet).1.Unwrapped := by decide +kernel
  have hclean : s.Clean ∧ dog.triple.Clean ∧ pet.triple.Clean := by decide +kernel
  exact ⟨hs, hdog, hpet, hne, hw, hw', (keptApart_iff hs hdog hpet hne hw hw').mpr hclean⟩

/-- A triple whose subject ends where the relation of another begins: the second assertion is
answered with the fact of the first, which is also what look-ups give. -/
theorem taken_for_other :
    let s : Store := { dimensions := 2 }
    let a : Assertion := { triple := ⟨"a\x1fb", "r", "c"⟩ }
    let b : Assertion := { triple := ⟨"a", "b\x1fr", "c"⟩ }
    let s' := ((s.tell a).1.tell b).1
    Reached Unwrapped s ∧ a.Valid ∧ b.Valid ∧ a.triple ≠ b.triple ∧
      s'.allFacts.map Fact.triple = [a.triple] ∧
      ((s'.bestFact "a" "b\x1fr" (some "c")).toOption.getD none).map Fact.triple =
        some a.triple ∧
      ((s'.factsByPair "a" "b\x1fr" none).toOption.getD []).map Fact.triple = [a.triple] ∧
      ¬ KeptApart s a b := by
  intro s a b s'
  have hfacts : s'.allFacts.map Fact.triple = [a.triple] := by decide +kernel
  have hne : a.triple ≠ b.triple := by decide +kernel
  refine ⟨.make (n := 2) rfl, by decide +kernel, by decide +kernel, hne, hfacts,
    by decide +kernel, by decide +kernel, ?_⟩
  rintro ⟨⟨-, j, -, g, -, -, -, -, -, hg, hgb⟩, -⟩
  have hmem : g.triple ∈ s'.allFacts.map Fact.triple :=
    List.mem_map_of_mem (mem_allFacts.mpr ⟨j, hg⟩)
  rw [hfacts, List.mem_singleton, hgb] at hmem
  exact hne hmem.symm

end Store

end KnowledgeBase
