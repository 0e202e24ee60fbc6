import KnowledgeBase.Proofs.Concept.Extent
import KnowledgeBase.Proofs.Store.Assertion
import KnowledgeBase.Proofs.Store.Forgetting

/-!
# Facts name concepts

Facts and concepts are kept apart, and come and go by different commands.  Even so both terms of
every fact are concepts, and every concept fits its store, whatever happened to the id counter.

* `Concept.Fits`: a concept stands under its own label and has an extent of the right size;
* `Store.Anchored`: a fact is filed under both its terms, and both are concepts; the files are what
  a concept takes its facts with when it goes;
* `Integral`: the invariant, with one lemma for each thing that a command can do to it;
* `intact_of_reached`: every store that commands lead to is intact.
-/

namespace KnowledgeBase

/-- A concept stands under its own label, which is not empty, and has an extent of which every
diamond has the right number of components. -/
structure Concept.Fits (c : Concept) (label : String) (dimensions : Nat) : Prop where
  own_label : c.label = label
  named : label ≠ ""
  populated : c.diamonds ≠ []
  sized : ∀ d ∈ c.diamonds, d.dimensions = dimensions

/-- Only the extent of a concept that is changed counts. -/
theorem Concept.Fits.change {c : Concept} {l : String} {n : Nat} (h : c.Fits l n)
    {ds : List Diamond} (hds : ds ≠ []) (hsized : ∀ d ∈ ds, d.dimensions = n) (u : Usage) :
    Concept.Fits { c with diamonds := ds, usage := u } l n := ⟨h.own_label, h.named, hds, hsized⟩

namespace Store

variable {s s' : Store} {f : Fact} {c : Concept} {t : Triple} {i : FactId} {l l' : String}
  {level : Existence} {metadata : Value} {now : Millis} {ok : Store → Prop}

/-! ### The invariant -/

/-- An id is filed under both terms of a triple, and both are concepts. -/
structure Anchored (s : Store) (i : FactId) (t : Triple) : Prop where
  bySubject : i ∈ s.bySubject.bucket t.subject
  byObject : i ∈ s.byObject.bucket t.object
  subject : s.hasConcept t.subject = true
  object : s.hasConcept t.object = true

/-- Facts stand under their own ids and are anchored, and concepts fit. -/
structure Integral (s : Store) : Prop where
  own_id : ∀ {i f}, s.fact? i = some f → f.id = i
  anchored : ∀ {i f}, s.fact? i = some f → s.Anchored i f.triple
  fits : ∀ {l c}, s.concept? l = some c → c.Fits l s.dimensions

/-! ### Concepts come in and change -/

theorem hasConcept_iff : s.hasConcept l = true ↔ ∃ c, s.concept? l = some c := by
  unfold hasConcept concept?
  rw [← Std.TreeMap.isSome_getElem?_eq_contains, Option.isSome_iff_exists]

theorem hasConcept_setConcept :
    (s.setConcept c).hasConcept l = true ↔ c.label = l ∨ s.hasConcept l = true := by
  rw [hasConcept_iff, hasConcept_iff, concept?_setConcept]
  by_cases hl : c.label = l
  · simp [hl]
  · simp [hl]

/-- A concept that fits may take the place of another one, or come in. -/
theorem Integral.setConcept (h : Integral s) (hc : c.Fits l s.dimensions) :
    Integral (s.setConcept c) where
  own_id := h.own_id
  anchored := fun hf => by
    obtain ⟨hsubject, hobject, hs, ho⟩ := h.anchored hf
    exact ⟨hsubject, hobject, hasConcept_setConcept.mpr (.inr hs),
      hasConcept_setConcept.mpr (.inr ho)⟩
  fits := fun hl => by
    rw [concept?_setConcept] at hl
    split at hl
    · rename_i heq
      cases hl
      rw [← heq, hc.own_label]
      exact hc
    · exact h.fits hl

theorem fits_newConcept (hl : l ≠ "") : (s.newConcept l now).Fits l s.dimensions where
  own_label := rfl
  named := hl
  populated := List.cons_ne_nil _ _
  sized := fun d hd => by
    rw [List.mem_singleton.mp hd]
    exact Diamond.dimensions_origin _

theorem Integral.fits_conceptOrNew (h : Integral s) (hl : l ≠ "") :
    (s.conceptOrNew l now).Fits l s.dimensions := by
  unfold conceptOrNew
  cases hc : s.concept? l with
  | none => exact fits_newConcept hl
  | some c => exact h.fits hc

theorem hasConcept_introduce :
    (s.introduce l now).hasConcept l' = true ↔ l = l' ∨ s.hasConcept l' = true := by
  cases hknown : s.hasConcept l with
  | true =>
    rw [introduce_known hknown]
    constructor
    · exact .inr
    · rintro (rfl | hl)
      · exact hknown
      · exact hl
  | false =>
    rw [introduce_new hknown]
    exact hasConcept_setConcept

theorem Integral.introduce (h : Integral s) (hl : l ≠ "") : Integral (s.introduce l now) := by
  cases hknown : s.hasConcept l with
  | true =>
    rw [introduce_known hknown]
    exact h
  | false =>
    rw [introduce_new hknown]
    exact h.setConcept (fits_newConcept hl)

theorem hasConcept_modifyUsage (u : Usage → Usage) (hl : s.hasConcept l' = true) :
    (s.modifyUsage l u).hasConcept l' = true := by
  unfold modifyUsage
  split
  · exact hasConcept_setConcept.mpr (.inr hl)
  · exact hl

theorem Integral.modifyUsage (h : Integral s) (l : String) (u : Usage → Usage) :
    Integral (s.modifyUsage l u) := by
  unfold Store.modifyUsage
  split
  · rename_i c hc
    have hfits := h.fits hc
    exact h.setConcept (hfits.change hfits.populated hfits.sized _)
  · exact h

theorem ne_empty_of_isEmpty (h : l.isEmpty = false) : l ≠ "" := by
  rintro rfl
  cases h

theorem Integral.ensureConcept (h : Integral s) (hs : s.ensureConcept l now = .ok s') :
    Integral s' := by
  unfold Store.ensureConcept at hs
  split at hs
  · cases hs
  · rename_i hl
    cases hs
    exact h.introduce (ne_empty_of_isEmpty (by simpa using hl))

theorem Integral.upsert {ds : List Diamond} (h : Integral s) (hs : s.upsert l ds now = .ok s') :
    Integral s' := by
  unfold Store.upsert at hs
  split at hs
  · cases hs
  · rename_i hfind
    dsimp only at hs
    split at hs
    · cases hs
    · rename_i hl
      cases hs
      have hfits : (s.conceptOrNew l now).Fits l s.dimensions :=
        h.fits_conceptOrNew (ne_empty_of_isEmpty (by simpa using hl))
      refine h.setConcept (hfits.change ?_ ?_ _)
      · split
        · exact hfits.populated
        · rename_i hds
          simpa using hds
      · split
        · exact hfits.sized
        · intro d hd
          simpa using List.find?_eq_none.mp hfind d hd

/-- An observation leaves a concept with an extent of the size that it had. -/
theorem sized_widened {known : Bool} {ds ds' : List Diamond} {v : ConceptVector} {n : Nat}
    (h : Stepwise.widened known ds v = .ok ds') (hlen : v.length = n)
    (hds : ∀ d ∈ ds, d.dimensions = n) : ds' ≠ [] ∧ ∀ d ∈ ds', d.dimensions = n := by
  unfold Stepwise.widened at h
  split at h
  · rename_i d ds
    obtain ⟨d', hd', rfl⟩ := Outcome.map_eq_ok.mp h
    refine ⟨List.cons_ne_nil _ _, fun e he => ?_⟩
    rcases List.mem_cons.mp he with rfl | he
    · exact (Diamond.dimensions_expand hd').trans (hds d List.mem_cons_self)
    · exact hds e (List.mem_cons_of_mem _ he)
  · cases h
    refine ⟨List.cons_ne_nil _ _, fun e he => ?_⟩
    rw [List.mem_singleton.mp he, Diamond.dimensions_ofVector]
    exact hlen

/-- An observation that is taken in. -/
theorem observe_eq_ok {v : ConceptVector} (hs : s.observe l v now = .ok s') :
    v.length = s.dimensions ∧ l ≠ "" ∧
      ∃ ds, Stepwise.widened (s.hasConcept l) (s.conceptOrNew l now).diamonds v = .ok ds ∧
        s' = s.setConcept { s.conceptOrNew l now with
          diamonds := ds, usage := (s.conceptOrNew l now).usage.recordInference now } := by
  by_cases hlen : v.length = s.dimensions
  · cases hl : l.isEmpty with
    | true =>
      unfold Store.observe at hs
      rw [if_neg (not_not.mpr hlen), hl] at hs
      cases hs
    | false =>
      rw [observe_of_nonempty hlen hl] at hs
      obtain ⟨ds, hwide, hs⟩ := Outcome.map_eq_ok.mp hs
      exact ⟨hlen, ne_empty_of_isEmpty hl, ds, hwide, hs.symm⟩
  · unfold Store.observe at hs
    rw [if_pos hlen] at hs
    cases hs

theorem Integral.observe {v : ConceptVector} (h : Integral s) (hs : s.observe l v now = .ok s') :
    Integral s' := by
  obtain ⟨hlen, hl, ds, hwide, rfl⟩ := observe_eq_ok hs
  have hfits : (s.conceptOrNew l now).Fits l s.dimensions := h.fits_conceptOrNew hl
  obtain ⟨hne, hsized⟩ := sized_widened hwide hlen hfits.sized
  exact h.setConcept (hfits.change hne hsized _)

/-! ### Facts come in -/

theorem bucket_push_mono {idx : Index} {k k' : String} {j : FactId} (h : i ∈ idx.bucket k') :
    i ∈ (idx.push k j).bucket k' := by
  rw [Index.bucket_push]
  split
  · rename_i hk
    exact List.mem_append_left _ (hk ▸ h)
  · exact h

/-- Entering a fact only adds to the files. -/
theorem Anchored.entered (h : s.Anchored i t) (next : FactId) (f : Fact) :
    (s.entered next f).Anchored i t :=
  ⟨bucket_push_mono h.bySubject, bucket_push_mono h.byObject, h.subject, h.object⟩

theorem Integral.entered (h : Integral s) (next : FactId) (f : Fact) :
    Integral (s.entered next f) where
  own_id := h.own_id
  anchored := fun hf => (h.anchored hf).entered next f
  fits := h.fits

theorem mem_bucket_push (idx : Index) (k : String) (i : FactId) : i ∈ (idx.push k i).bucket k := by
  rw [Index.bucket_push, if_pos rfl]
  exact List.mem_append_right _ List.mem_cons_self

/-- A fact that is anchored may be stored; if its id is taken, nothing happens. -/
theorem Integral.put (h : Integral s) (hf : s.Anchored f.id f.triple) : Integral (s.put f) where
  own_id := fun hg => by
    rcases fact?_put_cases hg with hold | ⟨hid, rfl⟩
    · exact h.own_id hold
    · exact hid
  anchored := fun hg => by
    rcases fact?_put_cases hg with hold | ⟨rfl, rfl⟩
    · obtain ⟨hsubject, hobject, hs, ho⟩ := h.anchored hold
      exact ⟨hsubject, hobject, hs, ho⟩
    · obtain ⟨hsubject, hobject, hs, ho⟩ := hf
      exact ⟨hsubject, hobject, hs, ho⟩
  fits := h.fits

theorem hasConcept_assertConcept :
    (hl : l = l' ∨ s.hasConcept l' = true) → (s.assertConcept l now).hasConcept l' = true :=
  fun hl => hasConcept_modifyUsage _ (hasConcept_introduce.mpr hl)

/-- After an assertion both terms are concepts. -/
theorem hasConcept_touch : (s.touch t now).hasConcept t.subject = true ∧
    (s.touch t now).hasConcept t.object = true := by
  have hterms : ∀ l, (s.touch t now).hasConcept l =
      ((s.assertConcept t.subject now).assertConcept t.object now).hasConcept l := by
    intro l
    unfold touch hasConcept
    rfl
  rw [hterms, hterms]
  exact ⟨hasConcept_assertConcept (.inr (hasConcept_assertConcept (.inl rfl))),
    hasConcept_assertConcept (.inl rfl)⟩

theorem Integral.assertConcept (h : Integral s) (hl : l ≠ "") :
    Integral (s.assertConcept l now) :=
  (h.introduce hl).modifyUsage l _

/-- Neither the usage of relations nor protection counts. -/
theorem Integral.frame (h : Integral s) (u : Std.TreeMap String Usage)
    (labels : Std.TreeSet String) :
    Integral { s with relationUsage := u, protectedLabels := labels } where
  own_id := h.own_id
  anchored := fun hf => ⟨(h.anchored hf).bySubject, (h.anchored hf).byObject,
    (h.anchored hf).subject, (h.anchored hf).object⟩
  fits := h.fits

theorem Integral.touch (h : Integral s) (hw : t.wellFormed = true) :
    Integral (s.touch t now) := by
  obtain ⟨hsubject, hobject⟩ := nonempty_of_wellFormed hw
  have hterms : Integral ((s.assertConcept t.subject now).assertConcept t.object now) :=
    (h.assertConcept (ne_empty_of_isEmpty hsubject)).assertConcept (ne_empty_of_isEmpty hobject)
  exact hterms.frame _ _

theorem bySubject_congr (h : s'.ledger = s.ledger) : s'.bySubject = s.bySubject :=
  congrArg Ledger.bySubject h

theorem byObject_congr (h : s'.ledger = s.ledger) : s'.byObject = s.byObject :=
  congrArg Ledger.byObject h

theorem Integral.addVersion (h : Integral s) (hw : t.wellFormed = true) :
    Integral (s.addVersion t level metadata now).1 := by
  have hentered := h.entered (s.nextId + 1) (s.nextVersion t level metadata)
  rw [addVersion_eq_ite]
  split
  · rw [touch_put]
    refine (hentered.touch hw).put ⟨?_, ?_, hasConcept_touch.1, hasConcept_touch.2⟩
    · rw [bySubject_congr (ledger_touch t)]
      exact mem_bucket_push _ _ _
    · rw [byObject_congr (ledger_touch t)]
      exact mem_bucket_push _ _ _
  · exact hentered

theorem Integral.add (h : Integral s) (t : Triple) (level : Existence) (metadata : Value)
    (now : Millis) : Integral (s.add t level metadata now).1 := by
  unfold Store.add
  split
  · exact h
  · rename_i hform
    have hw : t.wellFormed = true := (storable_of_assertionFault? hform 0).wellFormed
    split
    · exact h
    · split
      · exact h
      · exact h.addVersion hw
    · exact h.addVersion hw

/-- A fact that is loaded brings both its terms. -/
theorem Integral.load (h : Integral s) (hw : f.triple.wellFormed = true) :
    Integral (s.load now f) := by
  obtain ⟨hsubject, hobject⟩ := nonempty_of_wellFormed hw
  have hsort := sortVersions_enter (s := s) (max s.nextId (f.id + 1)) f
  unfold Store.load
  dsimp only
  rw [hsort]
  have hentered := h.entered (max s.nextId (f.id + 1)) f
  refine ((hentered.introduce (ne_empty_of_isEmpty hsubject)).introduce
    (ne_empty_of_isEmpty hobject)).put ⟨?_, ?_, ?_, ?_⟩
  · rw [bySubject_congr
      ((ledger_introduce f.triple.object).trans (ledger_introduce f.triple.subject))]
    exact mem_bucket_push _ _ _
  · rw [byObject_congr
      ((ledger_introduce f.triple.object).trans (ledger_introduce f.triple.subject))]
    exact mem_bucket_push _ _ _
  · exact hasConcept_introduce.mpr (.inr (hasConcept_introduce.mpr (.inl rfl)))
  · exact hasConcept_introduce.mpr (.inl rfl)

theorem Integral.foldl_load {fs : List Fact} (h : Integral s)
    (hw : ∀ f ∈ fs, f.triple.wellFormed = true) : Integral (fs.foldl (·.load now) s) := by
  induction fs generalizing s with
  | nil => exact h
  | cons f fs ih =>
    rw [List.forall_mem_cons] at hw
    exact ih (h.load hw.1) hw.2

/-- A snapshot replaces the facts and keeps the concepts. -/
theorem Integral.restore {snapshot : Value} (h : Integral s)
    (hs : s.restore snapshot now = .ok s') : Integral s' := by
  obtain ⟨fs, hfs, rfl⟩ := restore_eq_ok hs
  have hbare : Integral s.bare := by
    refine ⟨fun hf => ?_, fun hf => ?_, h.fits⟩
    · rw [fact?_bare] at hf
      cases hf
    · rw [fact?_bare] at hf
      cases hf
  exact hbare.foldl_load fun f hf =>
    (Snapshot.storable_of_read hfs (List.mem_mergeSort.mp hf)).wellFormed

/-! ### Facts change and go -/

theorem Integral.upgrade (h : Integral s) (i : FactId) (level : Existence) :
    Integral (s.upgrade i level).1 := by
  unfold Store.upgrade
  split
  · exact h
  · rename_i f hf
    split
    · have hfact : ∀ {j g}, (s.replace i { f with existence := level }).fact? j = some g →
          g.id = j ∧ s.Anchored j g.triple := by
        intro j g hg
        rw [fact?_replace] at hg
        split at hg
        · rename_i hj
          cases hg
          have hanchored : s.Anchored i f.triple := h.anchored hf
          exact ⟨(h.own_id hf : f.id = i).trans hj.symm, hj ▸ hanchored⟩
        · exact ⟨h.own_id hg, h.anchored hg⟩
      exact ⟨fun hg => (hfact hg).1, fun hg => ⟨(hfact hg).2.bySubject, (hfact hg).2.byObject,
        (hfact hg).2.subject, (hfact hg).2.object⟩, h.fits⟩
    · exact h

theorem mem_bucket_drop {idx : Index} {k k' : String} {j : FactId} (h : i ∈ idx.bucket k')
    (hne : i ≠ j) : i ∈ (idx.drop k j).bucket k' := by
  rw [Index.bucket_drop]
  split
  · rename_i hk
    exact List.mem_filter.mpr ⟨hk ▸ h, by simpa using hne⟩
  · exact h

theorem Integral.remove (h : Integral s) (i : FactId) : Integral (s.remove i).1 := by
  cases hf : s.fact? i with
  | none =>
    unfold Store.remove
    rw [hf]
    exact h
  | some f =>
    have hleft : ∀ {j g}, (s.remove i).1.fact? j = some g → j ≠ i ∧ s.fact? j = some g := by
      intro j g hg
      rw [fact?_remove hf] at hg
      split at hg
      · cases hg
      · rename_i hne
        exact ⟨hne, hg⟩
    have hwithdrawn : (s.remove i).1 =
        { s.withdraw f with facts := (s.withdraw f).facts.erase i } := by
      unfold Store.remove
      rw [hf]
    refine ⟨fun hg => h.own_id (hleft hg).2, fun {j g} hg => ?_, fun {l c} hc => ?_⟩
    · obtain ⟨hne, hg⟩ := hleft hg
      obtain ⟨hsubject, hobject, hs, ho⟩ := h.anchored hg
      rw [← h.own_id hf] at hne
      rw [hwithdrawn]
      exact ⟨mem_bucket_drop hsubject hne, mem_bucket_drop hobject hne, hs, ho⟩
    · rw [hwithdrawn] at hc ⊢
      exact h.fits hc

theorem Integral.removeAll (h : Integral s) (ids : List FactId) : Integral (s.removeAll ids) := by
  induction ids generalizing s with
  | nil => exact h
  | cons i ids ih => exact ih (h.remove i)

/-- Every fact that names a concept goes with it. -/
theorem Integral.not_names_of_drop (h : Integral s) (hf : (s.drop l).1.fact? i = some f) :
    f.subject ≠ l ∧ f.object ≠ l := by
  have hf : (s.removeAll (s.naming l)).fact? i = some f := hf
  rw [fact?_removeAll] at hf
  split at hf
  · cases hf
  · rename_i hnot
    have hanchored := h.anchored hf
    have hmem : i ∈ s.bySubject.bucket l ∨ i ∈ s.byObject.bucket l → i ∈ s.naming l := by
      intro hor
      unfold naming
      rw [Std.TreeSet.mem_toList, Std.TreeSet.mem_ofList, List.contains_iff_mem, List.mem_append]
      exact hor
    refine ⟨?_, ?_⟩
    · rintro rfl
      exact hnot (hmem (.inl hanchored.bySubject))
    · rintro rfl
      exact hnot (hmem (.inr hanchored.byObject))

theorem Integral.drop (h : Integral s) (l : String) : Integral (s.drop l).1 := by
  have hall := h.removeAll (s.naming l)
  have hconcept : ∀ k, (s.drop l).1.concept? k =
      if l = k then none else (s.removeAll (s.naming l)).concept? k := by
    intro k
    show ((s.removeAll (s.naming l)).concepts.erase l)[k]? = _
    rw [Std.TreeMap.getElem?_erase]
    simp only [Std.compare_eq_iff_eq]
    rfl
  have hkept : ∀ {k}, l ≠ k → (s.removeAll (s.naming l)).hasConcept k = true →
      (s.drop l).1.hasConcept k = true := by
    intro k hne hk
    rw [hasConcept_iff] at hk ⊢
    rw [hconcept, if_neg hne]
    exact hk
  refine ⟨hall.own_id, fun {i f} hf => ?_, fun {k c} hc => ?_⟩
  · obtain ⟨hsubject, hobject, hs, ho⟩ := hall.anchored hf
    obtain ⟨hnes, hneo⟩ := h.not_names_of_drop hf
    exact ⟨hsubject, hobject, hkept (Ne.symm hnes) hs, hkept (Ne.symm hneo) ho⟩
  · rw [hconcept] at hc
    split at hc
    · cases hc
    · exact hall.fits hc

theorem Integral.dropAll (h : Integral s) (labels : List String) :
    Integral (s.dropAll labels).1 := by
  induction labels generalizing s with
  | nil => exact h
  | cons l ls ih => exact ih (h.drop l)

/-! ### Runs -/

theorem Integral.orKept {r : Except Fault Store} (h : Integral s)
    (hr : ∀ s', r = .ok s' → Integral s') : Integral (s.orKept r) := by
  cases r with
  | ok s' => exact hr s' rfl
  | error e => exact h

/-- Every command keeps the invariant, wherever the id counter stands. -/
theorem Integral.after (h : Integral s) (c : Command) : Integral (s.after c) := by
  cases c with
  | ensure label now => exact h.orKept fun _ hs => h.ensureConcept hs
  | query label now => exact h.modifyUsage label (·.recordQuery now)
  | upsert label diamonds now => exact h.orKept fun _ hs => h.upsert hs
  | observe label v now => exact h.orKept fun _ hs => h.observe hs
  | boost label amount now => exact h.modifyUsage label (·.boost amount now)
  | protect | unprotect => exact h.frame _ _
  | add t level metadata now => exact h.add t level metadata now
  | upgrade id level => exact h.upgrade id level
  | remove id => exact h.remove id
  | forget r now =>
    refine h.orKept fun s' hs => ?_
    obtain ⟨⟨s'', done⟩, hf, rfl⟩ := Outcome.map_eq_ok.mp hs
    obtain ⟨targets, -, hf⟩ := Outcome.bind_eq_ok.mp hf
    dsimp only at hf
    split at hf
    · cases hf
      exact h
    · cases hf
      exact h.dropAll _
  | restore snapshot now => exact h.orKept fun _ hs => h.restore hs

theorem integral_of_reached (h : Reached ok s) : Integral s := by
  induction h with
  | make hs =>
    unfold Store.make at hs
    split at hs
    · cases hs
    · cases hs
      exact ⟨by simp [fact?], by simp [fact?], by simp [concept?]⟩
  | step c _ _ ih => exact ih.after c

/-- Both terms of every fact are concepts, and every concept fits. -/
structure Intact (s : Store) : Prop where
  subject : ∀ f ∈ s.allFacts, s.hasConcept f.subject = true
  object : ∀ f ∈ s.allFacts, s.hasConcept f.object = true
  concept : ∀ l c, s.concept? l = some c → c.Fits l s.dimensions

/-- **Facts name concepts and concepts fit, in every store that commands lead to.** -/
theorem intact_of_reached (h : Reached ok s) : s.Intact := by
  have hall := integral_of_reached h
  refine ⟨fun f hf => ?_, fun f hf => ?_, fun l c hc => hall.fits hc⟩
  · obtain ⟨i, hi⟩ := mem_allFacts.mp hf
    exact (hall.anchored hi).subject
  · obtain ⟨i, hi⟩ := mem_allFacts.mp hf
    exact (hall.anchored hi).object

/-- A concept that was seen before it was named, one that is forgotten with its facts and named
again, and one that outlives the only fact about it. -/
def tended : Store :=
  let s : Store := { dimensions := 2 }
  let s := s.after (.observe "rex" (ConceptVector.ofInts [3, -4]) 4)
  let s := s.after (.add ⟨"rex", "SEES", "rob"⟩ Existence.certain (.record []) 5)
  let s := s.after (.add ⟨"rob", "SEES", "tom"⟩ Existence.certain (.record []) 6)
  let s := s.after (.observe "rex" (ConceptVector.ofInts [5, 0]) 7)
  let s := s.after (.forget { label := some "rob" } 8)
  let s := s.after (.add ⟨"tom", "SEES", "rex"⟩ Existence.certain (.record []) 9)
  let s := s.after (.add ⟨"ray", "SEES", "rob"⟩ Existence.possible (.record []) 10)
  s.after (.remove 3)

theorem intact_of_reached_tended : Reached (fun _ => True) tended ∧ tended.Intact ∧
    tended.allFacts.map Fact.triple = [⟨"ray", "SEES", "rob"⟩] ∧
    tended.conceptLabels = ["ray", "rex", "rob", "tom"] := by
  have hs : Reached (fun _ => True) tended := by
    unfold tended
    refine .step _ (.step _ (.step _ (.step _ (.step _ (.step _ (.step _ (.step _
      (.make (n := 2) rfl) ?_) ?_) ?_) ?_) ?_) ?_) ?_) ?_
    all_goals trivial
  exact ⟨hs, intact_of_reached hs, by decide +kernel, by decide +kernel⟩

end Store

end KnowledgeBase
