import KnowledgeBase.Proofs.Inference.FixedPoint
import KnowledgeBase.Proofs.Inference.Spelling

/-!
# Forward chaining and the order of facts

Of the triples that share a key only the first is kept, and what comes first depends on the order of
the facts.  Closures do not tell spellings apart, so to them it makes no difference which one is
kept.  A composition rule joins on the text of a variable as it is written, so one spelling may let
it fire where another does not.

* `Consequence`: what follows in any number of steps, in all its spellings, which no order enters;
* `FiresAlike`: rules that do not tell spellings of consequences apart either, and
  `firesAlike_of_oneSpelling`, `firesAlike_of_linear`, which lead to it;
* `exists_respelled`, `mem_keysOf_iff_consequence`: saturation has a spelling of each consequence,
  by induction on how it follows;
* `forwardChain_keys_of_perm`, `order_decides`: the law, and why it has its condition.
-/

namespace KnowledgeBase

theorem Text.Alike.symm {a b : String} (h : Alike a b) : Alike b a := Eq.symm h

theorem Text.Alike.trans {a b c : String} (h : Alike a b) (h' : Alike b c) : Alike a c :=
  Eq.trans h h'

namespace Triple

variable {t u v : Triple}

theorem Respelled.symm (h : t.Respelled Text.Alike u) : u.Respelled Text.Alike t :=
  ⟨h.relation.symm, h.subject.symm, h.object.symm⟩

theorem Respelled.trans (h : t.Respelled Text.Alike u) (h' : u.Respelled Text.Alike v) :
    t.Respelled Text.Alike v :=
  ⟨h.relation.trans h'.relation, h.subject.trans h'.subject, h.object.trans h'.object⟩

/-- Clean terms can be read off a key, up to spelling. -/
theorem respelled_of_termKey (ht : Text.Clean t.subject ∧ Text.Clean t.object)
    (hu : Text.Clean u.subject ∧ Text.Clean u.object) (hkey : t.termKey = u.termKey) :
    t.Respelled Text.Alike u := by
  obtain ⟨hsubject, hrelation, hobject⟩ :=
    Text.composed_inj ht.1.fold ht.2.fold hu.1.fold hu.2.fold hkey
  exact ⟨hrelation, hsubject, hobject⟩

end Triple

/-- A text in the place of a term may be respelled, if a variable takes the new text. -/
theorem Pattern.FitsTerm.of_alike {σ σ' : String → String} {term value value' : String}
    (h : FitsTerm σ term value) (halike : Text.Alike value value')
    (hvalue : Text.isVariable term = true → σ' (variableName term) = value') :
    FitsTerm σ' term value' := by
  unfold FitsTerm
  split
  · rename_i hvar
    exact hvalue hvar
  · rename_i hconst
    have hsame := Text.same_iff.mp (h.same_of_const (by simpa using hconst))
    exact Text.same_iff.mpr (hsame.trans halike)

namespace Inference.Saturation

open Text (Alike)

variable {r : Relations} {facts facts' : List Fact} {t u : Triple} {name : String} {n : Nat}

/-! ### Consequences -/

/-- What follows from facts in any number of steps, each triple in every spelling in which it
follows. -/
inductive Consequence (r : Relations) (facts : List Fact) : Triple → Prop
  | stated {f : Fact} : f ∈ facts → Consequence r facts f.triple
  | follows {known : List Fact} {t : Triple} {name : String} :
      (∀ f ∈ known, Consequence r facts f.triple) → Follows r known t name → Consequence r facts t

theorem Consequence.mono (h : Consequence r facts t) (hsub : ∀ f ∈ facts, f ∈ facts') :
    Consequence r facts' t := by
  induction h with
  | stated hf => exact .stated (hsub _ hf)
  | follows _ hfollows ih => exact .follows ih hfollows

/-- The terms of a consequence are terms of the facts and the rules. -/
theorem Consequence.over (hr : r.Registered) (h : Consequence r facts t) :
    Over (vocabulary r facts) (conclusions r facts) t := by
  induction h with
  | stated hf => exact over_of_mem hf
  | follows _ hfollows ih =>
    refine hfollows.over hr ih (fun a ha => List.mem_append_right _ ha) ?_ ?_
    · intro c hc
      exact List.mem_append_left _ (List.mem_append_right _ (List.mem_map.mpr ⟨c, hc, rfl⟩))
    · intro e he
      exact List.mem_append_right _ (List.mem_map.mpr ⟨e, he, rfl⟩)

/-- Whatever is derived is a consequence. -/
theorem consequence_of_mem {f : Fact} (h : f ∈ facts ++ forwardChain r n facts) :
    Consequence r facts f.triple := by
  induction n generalizing f with
  | zero =>
    rw [forwardChain, List.append_nil] at h
    exact .stated h
  | succ n ih =>
    rw [forwardChain_succ, ← List.append_assoc, List.mem_append] at h
    rcases h with h | h
    · exact ih h
    · obtain ⟨-, name, -, hfollows⟩ := follows_of_mem_round h
      exact .follows (fun _ => ih) hfollows

/-! ### Rules that do not tell spellings apart -/

/-- A rule that fires on consequences fires on other spellings of them, as long as these are
consequences too. -/
def FiresAlike (r : Relations) (facts : List Fact) : Prop :=
  ∀ c ∈ r.compositions, ∀ (pick pick' : Pattern → Triple) (σ : String → String),
    (∀ p ∈ c.body, Consequence r facts (pick p) ∧ Consequence r facts (pick' p) ∧
      (pick p).Respelled Alike (pick' p)) →
    (∀ p ∈ c.body, p.Fits σ (pick p)) → Pattern.isGround (c.head.under σ) = true →
    ∃ σ', (∀ p ∈ c.body, p.Fits σ' (pick' p)) ∧ Pattern.isGround (c.head.under σ') = true

/-- Where each term has one spelling there is nothing to tell apart. -/
theorem firesAlike_of_oneSpelling (hr : r.Registered)
    (hspelled : ∀ a ∈ vocabulary r facts, ∀ b ∈ vocabulary r facts, Alike a b → a = b) :
    FiresAlike r facts := by
  intro c _ pick pick' σ hpick hfits hground
  refine ⟨σ, fun p hp => ?_, hground⟩
  obtain ⟨hknown, hknown', halike⟩ := hpick p hp
  have hover := hknown.over hr
  have hover' := hknown'.over hr
  have hsubject := hspelled _ hover.subject _ hover'.subject halike.subject
  have hobject := hspelled _ hover.object _ hover'.object halike.object
  have hfit := hfits p hp
  exact ⟨halike.relation ▸ hfit.relation, hsubject ▸ hfit.subject, hobject ▸ hfit.object⟩

/-- The variables of a body, each with the text that stands in its place. -/
def places (pick : Pattern → Triple) (body : List Pattern) : List (String × String) :=
  body.flatMap fun p =>
    [(p.subject, (pick p).subject), (p.object, (pick p).object)].filter (Text.isVariable ·.1)

theorem map_fst_places (pick : Pattern → Triple) (body : List Pattern) :
    (places pick body).map (·.1) = body.flatMap Pattern.variableNames := by
  unfold places
  rw [List.map_flatMap]
  refine List.flatMap_congr fun p _ => ?_
  exact (List.filter_map (f := Prod.fst) (p := Text.isVariable)
    (l := [(p.subject, (pick p).subject), (p.object, (pick p).object)])).symm

theorem isVariable_of_mem_places {pick : Pattern → Triple} {body : List Pattern}
    {e : String × String} (h : e ∈ places pick body) : Text.isVariable e.1 = true := by
  obtain ⟨p, -, hp⟩ := List.mem_flatMap.mp h
  exact (List.mem_filter.mp hp).2

theorem variableName_inj {a b : String} (ha : Text.isVariable a = true)
    (hb : Text.isVariable b = true) (h : Pattern.variableName a = Pattern.variableName b) :
    a = b := by
  have hmark : ∀ s : String, Text.isVariable s = true → s.toList = '?' :: s.toList.drop 1 := by
    intro s hs
    unfold Text.isVariable at hs
    split at hs
    · rename_i c cs hchars
      rw [hchars]
      rfl
    · cases hs
  refine String.toList_inj.mp ?_
  rw [hmark a ha, hmark b hb, String.ofList_injective h]

/-- Variables that come up once each can take any texts. -/
theorem exists_assignment {es : List (String × String)}
    (hvar : ∀ e ∈ es, Text.isVariable e.1 = true) (hnodup : (es.map (·.1)).Nodup) :
    ∃ σ : String → String, ∀ e ∈ es, σ (Pattern.variableName e.1) = e.2 := by
  induction es with
  | nil => exact ⟨id, fun e he => absurd he List.not_mem_nil⟩
  | cons e es ih =>
    obtain ⟨hnew, hnodup⟩ := List.nodup_cons.mp hnodup
    obtain ⟨σ, hσ⟩ := ih (fun e he => hvar e (List.mem_cons_of_mem _ he)) hnodup
    refine ⟨Function.update σ (Pattern.variableName e.1) e.2, fun e' he' => ?_⟩
    rcases List.mem_cons.mp he' with rfl | he'
    · exact Function.update_self ..
    · rw [Function.update_of_ne, hσ e' he']
      intro hname
      have hsame := variableName_inj (hvar e' (List.mem_cons_of_mem _ he'))
        (hvar e List.mem_cons_self) hname
      exact hnew (List.mem_map.mpr ⟨e', he', hsame⟩)

/-- A body that joins on nothing, over facts without variables, is met by all spellings. -/
theorem firesAlike_of_linear (hr : r.Registered)
    (hlinear : ∀ c ∈ r.compositions, (c.body.flatMap Pattern.variableNames).Nodup)
    (hplain : ∀ a ∈ vocabulary r facts, Text.isVariable a = false) : FiresAlike r facts := by
  intro c hc pick pick' σ hpick hfits _
  have hplaces : ∀ e ∈ places pick' c.body, Text.isVariable e.1 = true :=
    fun _ => isVariable_of_mem_places
  obtain ⟨σ', hσ'⟩ := exists_assignment hplaces (map_fst_places pick' c.body ▸ hlinear c hc)
  have hplace : ∀ p ∈ c.body, ∀ e ∈ [(p.subject, (pick' p).subject), (p.object, (pick' p).object)],
      Text.isVariable e.1 = true → σ' (Pattern.variableName e.1) = e.2 := fun p hp e he hvar =>
    hσ' e (List.mem_flatMap.mpr ⟨p, hp, List.mem_filter.mpr ⟨he, hvar⟩⟩)
  have hfits' : ∀ p ∈ c.body, p.Fits σ' (pick' p) := by
    intro p hp
    obtain ⟨-, -, halike⟩ := hpick p hp
    have hfit := hfits p hp
    exact ⟨halike.relation ▸ hfit.relation,
      hfit.subject.of_alike halike.subject (hplace p hp (p.subject, _) (by simp)),
      hfit.object.of_alike halike.object (hplace p hp (p.object, _) (by simp))⟩
  refine ⟨σ', hfits', ?_⟩
  -- the head takes its values from consequences, whose terms are no variables
  have hover : ∀ f ∈ c.body.map fun p => ({ triple := pick' p } : Fact),
      Over (vocabulary r facts) (conclusions r facts) f.triple := by
    intro f hf
    obtain ⟨p, hp, rfl⟩ := List.mem_map.mp hf
    exact (hpick p hp).2.1.over hr
  have hvalue : ∀ term ∈ [c.head.subject, c.head.object],
      Text.isVariable (Pattern.termUnder σ' term) = false := by
    intro term hterm
    refine hplain _ (termUnder_mem hc (hr.faultless c hc) hover
      (fun a ha => List.mem_append_right _ ha) (fun p hp => ?_) hterm)
    exact ⟨_, List.mem_map_of_mem hp, hfits' p hp⟩
  exact Pattern.isGround_iff.mpr ⟨hvalue _ (by simp), hvalue _ (by simp)⟩

/-! ### Saturation -/

/-- The head of a rule has spellings of one instance, if its body is met by spellings of the same
triples. -/
theorem under_respelled {c : CompositionRule} (hfault : c.fault? = none)
    {pick pick' : Pattern → Triple} {σ σ' : String → String}
    (hfits : ∀ p ∈ c.body, p.Fits σ (pick p)) (hfits' : ∀ p ∈ c.body, p.Fits σ' (pick' p))
    (halike : ∀ p ∈ c.body, (pick p).Respelled Alike (pick' p)) :
    (c.head.under σ).Respelled Alike (c.head.under σ') := by
  have hterm : ∀ term ∈ [c.head.subject, c.head.object],
      Alike (Pattern.termUnder σ term) (Pattern.termUnder σ' term) := by
    intro term hterm
    unfold Pattern.termUnder
    split
    · rename_i hvar
      obtain ⟨p, hp, rfl | rfl⟩ :=
        CompositionRule.head_mem_body hfault (List.mem_filter.mpr ⟨hterm, hvar⟩)
      · rw [(hfits p hp).subject.eq_of_isVariable hvar, (hfits' p hp).subject.eq_of_isVariable hvar]
        exact (halike p hp).subject
      · rw [(hfits p hp).object.eq_of_isVariable hvar, (hfits' p hp).object.eq_of_isVariable hvar]
        exact (halike p hp).object
    · exact Alike.refl term
  exact ⟨rfl, hterm _ (by simp), hterm _ (by simp)⟩

section

variable (hr : r.Registered) (hclean : ∀ a ∈ vocabulary r facts, Text.Clean a)
  (hfires : FiresAlike r facts)

include hr hclean

/-- What follows from saturated facts has a spelling among them. -/
theorem exists_respelled_of_follows {derived : List Fact}
    (hsaturated : Saturated r (facts ++ derived))
    (hknown : ∀ e ∈ facts ++ derived, Consequence r facts e.triple)
    (h : Follows r (facts ++ derived) t name) :
    ∃ e ∈ facts ++ derived, e.triple.Respelled Alike t := by
  have hcleanTerms : ∀ {u}, Consequence r facts u → Text.Clean u.subject ∧ Text.Clean u.object :=
    fun hu => ⟨hclean _ (hu.over hr).subject, hclean _ (hu.over hr).object⟩
  obtain ⟨e, he, hkey⟩ := mem_keysOf.mp (hsaturated t name h)
  exact ⟨e, he, Triple.respelled_of_termKey (hcleanTerms (hknown e he))
    (hcleanTerms (.follows hknown h)) hkey⟩

include hfires

/-- **Saturated facts have a spelling of every consequence**, by induction on how it follows. -/
theorem exists_respelled {derived : List Fact} (hsaturated : Saturated r (facts ++ derived))
    (hknown : ∀ e ∈ facts ++ derived, Consequence r facts e.triple) (h : Consequence r facts t) :
    ∃ e ∈ facts ++ derived, e.triple.Respelled Alike t := by
  -- one more step from the spellings that are there ends in a spelling of what follows
  have hstep : ∀ {u t name}, Follows r (facts ++ derived) u name → u.Respelled Alike t →
      ∃ e ∈ facts ++ derived, e.triple.Respelled Alike t := by
    intro u t name hu halike
    obtain ⟨e, he, hspelled⟩ := exists_respelled_of_follows hr hclean hsaturated hknown hu
    exact ⟨e, he, hspelled.trans halike⟩
  induction h with
  | @stated f hf => exact ⟨f, List.mem_append_left _ hf, rfl, Alike.refl _, Alike.refl _⟩
  | @follows known t name hconsequence hfollows ih =>
    cases hfollows with
    | @composition c σ hc hbody hground =>
      choose! pick hpick hfits using hbody
      choose! kept hkept hspelled using ih
      obtain ⟨σ', hfits', hground'⟩ := hfires c hc (fun p => (pick p).triple)
        (fun p => (kept (pick p)).triple) σ
        (fun p hp => ⟨hconsequence _ (hpick p hp), hknown _ (hkept _ (hpick p hp)),
          (hspelled _ (hpick p hp)).symm⟩) hfits hground
      have hbody : ∀ p ∈ c.body, ∃ e ∈ facts ++ derived, p.Fits σ' e.triple := fun p hp =>
        ⟨kept (pick p), hkept _ (hpick p hp), hfits' p hp⟩
      exact hstep (.composition hc hbody hground')
        (under_respelled (hr.faultless c hc) hfits' hfits fun p hp => hspelled _ (hpick p hp))
    | @chain f g htrans hf hg hrel hmeet hends =>
      obtain ⟨e, he, halike⟩ := ih f hf
      obtain ⟨e', he', halike'⟩ := ih g hg
      have hrelation : e.relation = f.relation := halike.relation
      have hrelation' : e'.relation = g.relation := halike'.relation
      refine hstep (.chain (f := e) (g := e') (hrelation ▸ htrans) he he'
        (by rw [hrelation', hrelation, hrel]) ?_ ?_) ⟨hrelation, halike.subject, halike'.object⟩
      · rw [← hmeet]
        exact Text.same_congr halike.object halike'.subject
      · rw [← hends]
        exact Text.same_congr halike.subject halike'.object
    | @symmetry f hsymm hf =>
      obtain ⟨e, he, halike⟩ := ih f hf
      have hrelation : e.relation = f.relation := halike.relation
      refine hstep (.symmetry (f := e) (hrelation ▸ hsymm) he) ?_
      rw [hrelation]
      exact halike.swapped f.relation
    | @inversion f inverse hinv hf =>
      obtain ⟨e, he, halike⟩ := ih f hf
      have hrelation : e.relation = f.relation := halike.relation
      exact hstep (.inversion (f := e) (hrelation ▸ hinv) he) (halike.swapped inverse)

/-- Chaining that has come to its end derives the keys of the consequences that are not given. -/
theorem mem_keysOf_iff_consequence (hended : round r (facts ++ forwardChain r n facts) = [])
    {k : String} : k ∈ keysOf (forwardChain r n facts) ↔
      k ∉ keysOf facts ∧ ∃ t, Consequence r facts t ∧ t.termKey = k := by
  have hknown : ∀ e ∈ facts ++ forwardChain r n facts, Consequence r facts e.triple :=
    fun _ => consequence_of_mem
  constructor
  · intro hk
    obtain ⟨d, hd, rfl⟩ := mem_keysOf.mp hk
    exact ⟨key_not_mem_of_derived hd, d.triple, hknown d (List.mem_append_right _ hd), rfl⟩
  · rintro ⟨hnew, t, ht, rfl⟩
    obtain ⟨e, he, halike⟩ :=
      exists_respelled hr hclean hfires (saturated_of_round hr hended) hknown ht
    have hkey : t.termKey ∈ keysOf (facts ++ forwardChain r n facts) :=
      mem_keysOf.mpr ⟨e, he, halike.termKey_eq⟩
    rw [keysOf_append, List.mem_append] at hkey
    exact hkey.resolve_left hnew

end

/-! ### Two orders -/

theorem consequence_congr (hmem : ∀ f, f ∈ facts ↔ f ∈ facts') :
    Consequence r facts t ↔ Consequence r facts' t :=
  ⟨fun h => h.mono fun f => (hmem f).mp, fun h => h.mono fun f => (hmem f).mpr⟩

theorem FiresAlike.congr (h : FiresAlike r facts) (hmem : ∀ f, f ∈ facts ↔ f ∈ facts') :
    FiresAlike r facts' := by
  intro c hc pick pick' σ hpick
  refine h c hc pick pick' σ fun p hp => ?_
  rw [consequence_congr hmem, consequence_congr hmem]
  exact hpick p hp

/-- **Saturation does not depend on the order of the facts**, if the composition rules that fire on
consequences fire on other spellings of them as well: from some number of rounds on the keys of what
is derived are the same. -/
theorem forwardChain_keys_of_perm (hr : r.Registered) (hperm : facts.Perm facts')
    (hclean : ∀ a ∈ vocabulary r facts, Text.Clean a) (hfires : FiresAlike r facts) :
    ∃ n, ∀ m, n ≤ m → ∀ k,
      k ∈ keysOf (forwardChain r m facts) ↔ k ∈ keysOf (forwardChain r m facts') := by
  have hmem : ∀ f, f ∈ facts ↔ f ∈ facts' := fun _ => hperm.mem_iff
  have hclean' : ∀ a ∈ vocabulary r facts', Text.Clean a := fun a ha =>
    hclean a (((hperm.flatMap_right _).append_right _).mem_iff.mpr ha)
  obtain ⟨n, hended⟩ := exists_ended hr facts
  obtain ⟨n', hended'⟩ := exists_ended hr facts'
  refine ⟨max n n', fun m hm k => ?_⟩
  rw [forwardChain_of_ended hended (le_trans (le_max_left n n') hm),
    forwardChain_of_ended hended' (le_trans (le_max_right n n') hm),
    mem_keysOf_iff_consequence hr hclean hfires hended,
    mem_keysOf_iff_consequence hr hclean' (hfires.congr hmem) hended']
  simp only [consequence_congr hmem]
  rw [keysOf, keysOf, (hperm.map _).mem_iff]

/-- The standard relations, and who keeps an animal. -/
def keeping : Relations :=
  { Relations.standard with
    compositions := [⟨"keeper", ⟨"?x", "KEEPS", "?y"⟩, [⟨"?y", "KEPT_BY", "?x"⟩]⟩] }

/-- An animal and a type, each in two spellings. -/
def animalFacts : List Fact :=
  [{ triple := ⟨"Rex", "KEPT_BY", "Ann"⟩ }, { triple := ⟨"Rex", "IS_A", "Dog"⟩ },
    { triple := ⟨"rex ", "KEPT_BY", "Ann"⟩ }, { triple := ⟨"dog", "IS_A", "Animal"⟩ }]

theorem forwardChain_keys_of_perm_animalFacts :
    keeping.Registered ∧ animalFacts.Perm animalFacts.reverse ∧
      (∀ a ∈ vocabulary keeping animalFacts, Text.Clean a) ∧ FiresAlike keeping animalFacts ∧
      ∃ n, ∀ m, n ≤ m → ∀ k, k ∈ keysOf (forwardChain keeping m animalFacts) ↔
        k ∈ keysOf (forwardChain keeping m animalFacts.reverse) := by
  have hregistered : keeping.Registered := Relations.Registered.composition
    (c := ⟨"keeper", ⟨"?x", "KEEPS", "?y"⟩, [⟨"?y", "KEPT_BY", "?x"⟩]⟩)
    Relations.registered_standard rfl
  have hperm : animalFacts.Perm animalFacts.reverse := (List.reverse_perm _).symm
  have hclean : ∀ a ∈ vocabulary keeping animalFacts, Text.Clean a := by decide +kernel
  have hfires : FiresAlike keeping animalFacts :=
    firesAlike_of_linear hregistered (by decide +kernel) (by decide +kernel)
  exact ⟨hregistered, hperm, hclean, hfires,
    forwardChain_keys_of_perm hregistered hperm hclean hfires⟩

/-- One relation leads to another, and that to a third by way of a term. -/
def joining : Relations :=
  { Relations.bare with
    compositions := [⟨"link", ⟨"?x", "Q", "?y"⟩, [⟨"?x", "P", "?y"⟩]⟩,
      ⟨"step", ⟨"?x", "R", "?z"⟩, [⟨"?x", "Q", "?y"⟩, ⟨"?y", "S", "?z"⟩]⟩] }

theorem registered_joining : joining.Registered := by
  have hlink := Relations.Registered.composition .bare
    (c := ⟨"link", ⟨"?x", "Q", "?y"⟩, [⟨"?x", "P", "?y"⟩]⟩) rfl
  exact hlink.composition
    (c := ⟨"step", ⟨"?x", "R", "?z"⟩, [⟨"?x", "Q", "?y"⟩, ⟨"?y", "S", "?z"⟩]⟩) rfl

/-- A term in two spellings, of which the rule that joins on it needs the small one. -/
def capitalFirst : List Fact :=
  [{ triple := ⟨"a", "P", "B"⟩ }, { triple := ⟨"a", "P", "b"⟩ }, { triple := ⟨"b", "S", "c"⟩ }]

def smallFirst : List Fact :=
  [{ triple := ⟨"a", "P", "b"⟩ }, { triple := ⟨"a", "P", "B"⟩ }, { triple := ⟨"b", "S", "c"⟩ }]

/-- **The order of facts that differ in spelling decides what a join finds**: the first of the two
leaves its spelling in what is derived, and only one of the spellings meets the next fact. -/
theorem order_decides :
    joining.Registered ∧ capitalFirst.Perm smallFirst ∧
      (∀ a ∈ vocabulary joining capitalFirst, Text.Clean a) ∧
      ∀ m, 2 ≤ m →
        Triple.termKey ⟨"a", "R", "c"⟩ ∈ keysOf (forwardChain joining m smallFirst) ∧
        Triple.termKey ⟨"a", "R", "c"⟩ ∉ keysOf (forwardChain joining m capitalFirst) := by
  refine ⟨registered_joining, .swap _ _ _, by decide +kernel, fun m hm => ?_⟩
  have hended : round joining (capitalFirst ++ forwardChain joining 2 capitalFirst) = [] :=
    List.isEmpty_iff.mp (by decide +kernel)
  have hended' : round joining (smallFirst ++ forwardChain joining 2 smallFirst) = [] :=
    List.isEmpty_iff.mp (by decide +kernel)
  rw [forwardChain_of_ended hended hm, forwardChain_of_ended hended' hm]
  exact ⟨by decide +kernel, by decide +kernel⟩

end Inference.Saturation

end KnowledgeBase
