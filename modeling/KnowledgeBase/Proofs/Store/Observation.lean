import KnowledgeBase.Proofs.Concept.Extent
import KnowledgeBase.Proofs.Float
import KnowledgeBase.Proofs.Store.Ascent
import KnowledgeBase.Proofs.Store.Integrity
import KnowledgeBase.Reasoning.Acceptance

/-!
# What was observed is accepted

An observation widens the first extent of a concept, or is its first point.  From then on the point
lies in that extent, until the concept is forgotten or is given other extents.

* `Store.Shows`: a point lies in the first extent of a concept;
* `Integral.extents?_add` and its companions: changes of facts and usage leave extents alone;
* `shows_observe`, `Shows.after`, `Shows.afterAll`: what is observed shows, and stays so through
  commands that spare the concept;
* `Shows.answer`: what shows belongs to the concept for certain;
* `observed_stays_certain`: both together.
-/

namespace KnowledgeBase

/-! ### Bands -/

theorem Diamond.radius_nonneg (d : Diamond) : 0 ≤ d.radius := by
  have hwidth : ∀ s : Side, 0 ≤ s.width := by
    intro s
    have hordered := s.ordered
    unfold Side.width
    omega
  have htotal : ∀ sides : List Side, 0 ≤ total (sides.map Side.width) := by
    intro sides
    induction sides with
    | nil => exact Int.le_refl 0
    | cons s sides ih => exact Int.add_nonneg (hwidth s) ih
  exact htotal d.sides

/-- At distance zero a point is accepted, whatever the radius. -/
theorem Band.truth_ofDistance_zero {radius : Int} (h : 0 ≤ radius) :
    (ofDistance 0 radius).truth = .certain := by
  have hfactor : Positive scepticFactor.toModel.unpack = true := by decide +kernel
  have hstrict : Float.ofInt 0 ≤ Float.ofInt radius * scepticFactor :=
    ((notNegative_ofInt h).mul hfactor).zero_le
  unfold ofDistance
  split
  · rfl
  · dsimp only
    rw [if_pos hstrict]

theorem Band.distance_ofDistance (distance radius : Int) :
    (ofDistance distance radius).distance = distance := by
  unfold ofDistance
  split <;> rfl

/-- Nothing contributes to a distance of zero. -/
theorem Diamond.Covers.contributions_eq_nil {d : Diamond} {v : ConceptVector} (h : d.Covers v)
    (m : Option Mask) : d.contributions v m = [] := by
  have hinside : ∀ p ∈ (d.sides.zip v).zipIdx, p.1.1.outside p.1.2 = 0 := fun p hp =>
    ((List.forall₂_iff_zip.mp h).2 (List.fst_mem_of_mem_zipIdx hp)).outside_eq_zero
  unfold Diamond.contributions
  dsimp only
  rw [List.filter_eq_nil_iff.mpr, List.mergeSort_nil]
  · rfl
  · intro c hc
    obtain ⟨p, hp, rfl⟩ := List.mem_map.mp hc
    simp [hinside p hp]

theorem Diamond.Covers.place {d : Diamond} {v : ConceptVector} (h : d.Covers v)
    (m : Option Mask) : d.place v m = .ok ⟨Band.ofDistance 0 d.radius, []⟩ := by
  unfold Diamond.place Diamond.band
  rw [h.maskedDistance, h.contributions_eq_nil]
  rfl

namespace Store

open Stepwise (widened)

variable {s s' : Store} {l l' : String} {v w : ConceptVector} {ds : List Diamond} {t : Triple}
  {level : Existence} {metadata : Value} {f : Fact} {now : Millis} {ok : Store → Prop}

/-! ### Extents -/

/-- The extents of a concept. -/
def extents? (s : Store) (label : String) : Option (List Diamond) :=
  (s.concept? label).map Concept.diamonds

theorem extents?_congr (h : s'.concepts = s.concepts) (l : String) :
    s'.extents? l = s.extents? l := by
  unfold extents? concept?
  rw [h]

theorem extents?_put (s : Store) (f : Fact) (l : String) :
    (s.put f).extents? l = s.extents? l := extents?_congr rfl l

theorem extents?_entered (s : Store) (next : FactId) (f : Fact) (l : String) :
    (s.entered next f).extents? l = s.extents? l := extents?_congr rfl l

theorem extents?_setConcept (c : Concept) (l : String) :
    (s.setConcept c).extents? l = if c.label = l then some c.diamonds else s.extents? l := by
  unfold extents?
  rw [concept?_setConcept]
  split <;> rfl

theorem extents?_introduce (h : s.extents? l = some ds) (l' : String) :
    (s.introduce l' now).extents? l = some ds := by
  cases hknown : s.hasConcept l' with
  | true =>
    rw [introduce_known hknown]
    exact h
  | false =>
    have hne : l' ≠ l := by
      rintro rfl
      rw [extents?, concept?_eq_none hknown] at h
      cases h
    rw [introduce_new hknown, extents?_setConcept]
    exact (if_neg hne).trans h

theorem Integral.extents?_modifyUsage (h : Integral s) (l' : String) (u : Usage → Usage)
    (l : String) : (s.modifyUsage l' u).extents? l = s.extents? l := by
  unfold Store.modifyUsage
  split
  · rename_i c hc
    rw [extents?_setConcept]
    split
    · rename_i hl
      have hown : c.label = l' := (h.fits hc).own_label
      rw [extents?, ← hl, hown, hc]
      rfl
    · rfl
  · rfl

theorem Integral.extents?_assertConcept (h : Integral s) (hl' : l' ≠ "")
    (hl : s.extents? l = some ds) : (s.assertConcept l' now).extents? l = some ds :=
  ((h.introduce hl').extents?_modifyUsage l' _ l).trans (extents?_introduce hl l')

theorem Integral.extents?_touch (h : Integral s) (hw : t.wellFormed = true)
    (hl : s.extents? l = some ds) : (s.touch t now).extents? l = some ds := by
  obtain ⟨hsubject, hobject⟩ := nonempty_of_wellFormed hw
  have hfirst := ne_empty_of_isEmpty hsubject
  have hterms : (s.touch t now).concepts =
      ((s.assertConcept t.subject now).assertConcept t.object now).concepts := by
    unfold Store.touch
    rfl
  rw [extents?_congr hterms]
  exact (h.assertConcept hfirst).extents?_assertConcept (ne_empty_of_isEmpty hobject)
    (h.extents?_assertConcept hfirst hl)

theorem Integral.extents?_add (h : Integral s) (hl : s.extents? l = some ds) (t : Triple)
    (level : Existence) (metadata : Value) (now : Millis) :
    (s.add t level metadata now).1.extents? l = some ds := by
  have hversion : t.wellFormed = true →
      (s.addVersion t level metadata now).1.extents? l = some ds := by
    intro hw
    have hentered := h.entered (s.nextId + 1) (s.nextVersion t level metadata)
    have hkept := (s.extents?_entered (s.nextId + 1) (s.nextVersion t level metadata) l).trans hl
    rw [addVersion_eq_ite]
    split
    · rw [touch_put, extents?_put]
      exact hentered.extents?_touch hw hkept
    · exact hkept
  unfold Store.add
  split
  · exact hl
  · rename_i hform
    have hw : t.wellFormed = true := (storable_of_assertionFault? hform 0).wellFormed
    split
    · exact hl
    · split
      · exact hl
      · exact hversion hw
    · exact hversion hw

theorem extents?_load (hl : s.extents? l = some ds) (f : Fact) :
    (s.load now f).extents? l = some ds := by
  have hsort := sortVersions_enter (s := s) (max s.nextId (f.id + 1)) f
  unfold Store.load
  dsimp only
  rw [hsort, extents?_put]
  have hkept := (s.extents?_entered (max s.nextId (f.id + 1)) f l).trans hl
  exact extents?_introduce (extents?_introduce hkept _) _

theorem extents?_restore {snapshot : Value} (hl : s.extents? l = some ds)
    (hs : s.restore snapshot now = .ok s') : s'.extents? l = some ds := by
  have hall : ∀ (fs : List Fact) (s : Store), s.extents? l = some ds →
      (fs.foldl (·.load now) s).extents? l = some ds := by
    intro fs
    induction fs with
    | nil => exact fun s h => h
    | cons f fs ih => exact fun s h => ih _ (extents?_load h f)
  obtain ⟨fs, -, rfl⟩ := restore_eq_ok hs
  exact hall _ _ ((extents?_congr rfl l).trans hl)

theorem extents?_upgrade (i : FactId) (level : Existence) (l : String) :
    (s.upgrade i level).1.extents? l = s.extents? l := by
  refine extents?_congr ?_ l
  unfold Store.upgrade
  split
  · rfl
  · split <;> rfl

/-! ### Points that show -/

/-- A point lies in the first extent of a concept. -/
def Shows (s : Store) (label : String) (v : ConceptVector) : Prop :=
  ∃ d ds, s.extents? label = some (d :: ds) ∧ d.Covers v

theorem Shows.of_extents (h : s.Shows l v)
    (hkept : ∀ ds, s.extents? l = some ds → s'.extents? l = some ds) : s'.Shows l v := by
  obtain ⟨d, ds, hl, hcovers⟩ := h
  exact ⟨d, ds, hkept _ hl, hcovers⟩

/-- The first extent comes to contain a point that is observed. -/
theorem covers_widened {known : Bool} {es : List Diamond} (h : widened known es v = .ok ds) :
    ∃ d rest, ds = d :: rest ∧ d.Covers v := by
  unfold widened at h
  split at h
  · rename_i d rest
    obtain ⟨d', hd', rfl⟩ := Outcome.map_eq_ok.mp h
    have hlen := Diamond.length_of_expand hd'
    rw [Diamond.expand_of_eq hlen] at hd'
    cases hd'
    exact ⟨_, rest, rfl, Diamond.covers_cover hlen⟩
  · cases h
    exact ⟨_, [], rfl, Diamond.covers_ofVector v⟩

/-- What the first extent contained it contains when it is widened. -/
theorem covers_kept {d : Diamond} {es : List Diamond} (hwide : widened true (d :: es) v = .ok ds)
    (h : d.Covers w) : ∃ d' rest, ds = d' :: rest ∧ d'.Covers w := by
  obtain ⟨d', hd', rfl⟩ := Outcome.map_eq_ok.mp hwide
  have hlen := Diamond.length_of_expand hd'
  rw [Diamond.expand_of_eq hlen] at hd'
  cases hd'
  exact ⟨_, es, rfl, h.cover hlen⟩

/-- Extents of the space of a point can be widened by it. -/
theorem exists_widened (known : Bool) (h : ∀ d ∈ ds, d.dimensions = v.length) :
    ∃ es, widened known ds v = .ok es := by
  unfold widened
  split
  · exact ⟨_, by rw [Diamond.expand_of_eq (h _ List.mem_cons_self).symm]; rfl⟩
  · exact ⟨_, rfl⟩

theorem shows_observe (h : Integral s) (hs : s.observe l v now = .ok s') : s'.Shows l v := by
  obtain ⟨-, hl, ds, hwide, rfl⟩ := observe_eq_ok hs
  obtain ⟨d, rest, rfl, hcovers⟩ := covers_widened hwide
  refine ⟨d, rest, ?_, hcovers⟩
  rw [extents?_setConcept]
  exact if_pos (h.fits_conceptOrNew hl).own_label

theorem conceptOrNew_of_extents (h : s.extents? l = some ds) (now : Millis) :
    s.hasConcept l = true ∧ (s.conceptOrNew l now).diamonds = ds := by
  obtain ⟨c, hc, rfl⟩ := Option.map_eq_some_iff.mp h
  unfold conceptOrNew
  rw [hc]
  exact ⟨hasConcept_iff.mpr ⟨c, hc⟩, rfl⟩

/-- A point shows on when others are observed, of this concept or of another one. -/
theorem Shows.observe (h : s.Shows l w) (hi : Integral s) (hs : s.observe l' v now = .ok s') :
    s'.Shows l w := by
  obtain ⟨-, hl', ds', hwide, rfl⟩ := observe_eq_ok hs
  have hown : (s.conceptOrNew l' now).label = l' := (hi.fits_conceptOrNew hl').own_label
  by_cases hl : l' = l
  · subst hl
    obtain ⟨d, ds, hextents, hcovers⟩ := h
    obtain ⟨hknown, hdiamonds⟩ := conceptOrNew_of_extents hextents now
    rw [hknown, hdiamonds] at hwide
    obtain ⟨d', rest, rfl, hcovers⟩ := covers_kept hwide hcovers
    refine ⟨d', rest, ?_, hcovers⟩
    rw [extents?_setConcept]
    exact if_pos hown
  · refine h.of_extents fun ds hds => ?_
    rw [extents?_setConcept]
    exact (if_neg (hown.symm ▸ hl)).trans hds

/-- A point shows on when another concept is given extents, or this one none. -/
theorem Shows.upsert (h : s.Shows l w) (hi : Integral s) (hs : s.upsert l' ds now = .ok s')
    (hspared : l' = l → ds = []) : s'.Shows l w := by
  unfold Store.upsert at hs
  split at hs
  · cases hs
  · dsimp only at hs
    split at hs
    · cases hs
    · rename_i hempty
      cases hs
      have hl' : l' ≠ "" := ne_empty_of_isEmpty (by simpa using hempty)
      have hown : (s.conceptOrNew l' now).label = l' := (hi.fits_conceptOrNew hl').own_label
      refine h.of_extents fun es hes => ?_
      rw [extents?_setConcept]
      by_cases hl : l' = l
      · cases hspared hl
        subst hl
        exact (if_pos hown).trans (congrArg some (conceptOrNew_of_extents hes now).2)
      · exact (if_neg (hown.symm ▸ hl)).trans hes

/-- What a request removes, if it is no dry run. -/
theorem forget_eq_ok {q : ForgetRequest} {done : Forgotten} (h : s.forget q now = .ok (s', done)) :
    s' = s ∨ s' = (s.dropAll done.removed).1 := by
  cases hsel : s.select q now with
  | error why =>
    have hrefused : s.forget q now = .error why := Outcome.bind_eq_error.mpr (.inl hsel)
    rw [hrefused] at h
    cases h
  | ok ls =>
    rw [forget_of_select hsel] at h
    split at h
    · cases h
      exact .inl rfl
    · cases h
      exact .inr rfl

/-! ### Commands that spare a concept -/

/-- A command neither forgets a concept nor gives it other extents. -/
def Spares (s : Store) (label : String) : Command → Prop
  | .upsert l ds now => l = label → (∃ s', s.upsert l ds now = .ok s') → ds = []
  | .forget q now => ∀ s' done, s.forget q now = .ok (s', done) → label ∉ done.removed
  | _ => True

/-- Commands, given one after the other, all spare a concept. -/
def SparesAll (s : Store) (label : String) : List Command → Prop
  | [] => True
  | c :: cs => s.Spares label c ∧ (s.after c).SparesAll label cs

theorem Shows.orKept {r : Except Fault Store} (h : s.Shows l w)
    (hr : ∀ s', r = .ok s' → s'.Shows l w) : (s.orKept r).Shows l w := by
  cases r with
  | ok s' => exact hr s' rfl
  | error why => exact h

/-- A point shows on after a command that spares the concept. -/
theorem Shows.after (h : s.Shows l w) (hi : Integral s) (c : Command) (hspared : s.Spares l c) :
    (s.after c).Shows l w := by
  cases c with
  | ensure label now =>
    refine h.orKept fun s' hs => h.of_extents fun ds hds => ?_
    unfold ensureConcept at hs
    split at hs
    · cases hs
    · cases hs
      exact extents?_introduce hds label
  | query label now =>
    exact h.of_extents fun ds hds => (hi.extents?_modifyUsage label _ l).trans hds
  | upsert label ds now =>
    exact h.orKept fun s' hs => h.upsert hi hs fun hl => hspared hl ⟨s', hs⟩
  | observe label v now => exact h.orKept fun s' hs => h.observe hi hs
  | boost label amount now =>
    exact h.of_extents fun ds hds => (hi.extents?_modifyUsage label _ l).trans hds
  | protect label => exact h.of_extents fun ds hds => (extents?_congr rfl l).trans hds
  | unprotect label => exact h.of_extents fun ds hds => (extents?_congr rfl l).trans hds
  | add t level metadata now =>
    exact h.of_extents fun ds hds => hi.extents?_add hds t level metadata now
  | upgrade id level => exact h.of_extents fun ds hds => (extents?_upgrade id level l).trans hds
  | remove id =>
    exact h.of_extents fun ds hds => (extents?_congr (remove_frame id).1 l).trans hds
  | forget q now =>
    refine h.orKept fun s' hs => h.of_extents fun ds hds => ?_
    obtain ⟨⟨s'', done⟩, hforget, rfl⟩ := Outcome.map_eq_ok.mp hs
    rcases forget_eq_ok hforget with rfl | rfl
    · exact hds
    · unfold extents?
      rw [concept?_dropAll, if_neg (hspared _ done hforget)]
      exact hds
  | restore snapshot now =>
    exact h.orKept fun s' hs => h.of_extents fun ds hds => extents?_restore hds hs

theorem Shows.afterAll {cs : List Command} (h : s.Shows l w) (hi : Integral s)
    (hspared : s.SparesAll l cs) : (s.afterAll cs).Shows l w ∧ Integral (s.afterAll cs) := by
  induction cs generalizing s with
  | nil => exact ⟨h, hi⟩
  | cons c cs ih => exact ih (h.after hi c hspared.1) (hi.after c) hspared.2

/-- An answer about a concept places the point relative to its first extent. -/
theorem Integral.answer_eq {d : Diamond} (h : Integral s) (hl : s.extents? l = some (d :: ds))
    (v : ConceptVector) (m : Option Mask) (now : Millis) :
    (s.answer v l m now).2 = (d.place v m).map fun p => ⟨l, some p, now⟩ := by
  rw [← h.extents?_modifyUsage l (·.recordQuery now)] at hl
  obtain ⟨c, hc, hdiamonds⟩ := Option.map_eq_some_iff.mp hl
  unfold Store.answer queryConcept
  dsimp only
  rw [hc, Option.bind_some, hdiamonds, List.head?_cons, Option.mapM_some]
  cases d.place v m <;> rfl

/-- What shows belongs to the concept for certain, under every mask. -/
theorem Shows.answer (h : s.Shows l v) (hi : Integral s) (m : Option Mask) (now : Millis) :
    ∃ p, (s.answer v l m now).2 = .ok ⟨l, some p, now⟩ ∧ p.band.truth = .certain ∧
      p.band.distance = 0 ∧ p.contributions = [] := by
  obtain ⟨d, ds, hextents, hcovers⟩ := h
  have hanswer : (s.answer v l m now).2 =
      .ok ⟨l, some ⟨Band.ofDistance 0 d.radius, []⟩, now⟩ := by
    rw [hi.answer_eq hextents, hcovers.place]
    rfl
  exact ⟨_, hanswer, Band.truth_ofDistance_zero d.radius_nonneg, Band.distance_ofDistance _ _, rfl⟩

/-- **What was observed is accepted.**  A store takes in the observation of every point of its space
under a label that is not empty.  After any commands that neither forget the concept nor give it
other extents, be they observations, before or after, the point belongs to it for certain, at
distance zero under every mask. -/
theorem observed_stays_certain (h : Reached ok s) (l : String) (v : ConceptVector) (now : Millis) :
    ((∃ s', s.observe l v now = .ok s') ↔ l ≠ "" ∧ v.length = s.dimensions) ∧
      ∀ s', s.observe l v now = .ok s' → ∀ cs, s'.SparesAll l cs →
        ∀ (m : Option Mask) (later : Millis), ∃ p,
          ((s'.afterAll cs).answer v l m later).2 = .ok ⟨l, some p, later⟩ ∧
          p.band.truth = .certain ∧ p.band.distance = 0 ∧ p.contributions = [] := by
  have hi := integral_of_reached h
  refine ⟨⟨?_, ?_⟩, ?_⟩
  · rintro ⟨s', hs⟩
    obtain ⟨hlen, hl, -⟩ := observe_eq_ok hs
    exact ⟨hl, hlen⟩
  · rintro ⟨hl, hlen⟩
    have hfits : (s.conceptOrNew l now).Fits l s.dimensions := hi.fits_conceptOrNew hl
    obtain ⟨ds, hwide⟩ := exists_widened (s.hasConcept l) fun d hd =>
      (hfits.sized d hd).trans hlen.symm
    exact ⟨_, (observe_of_nonempty hlen (by simpa using hl)).trans
      (Outcome.map_eq_ok.mpr ⟨ds, hwide, rfl⟩)⟩
  · intro s' hs cs hspared m later
    obtain ⟨hshows, hi'⟩ := (shows_observe hi hs).afterAll (hi.observe hs) hspared
    exact hshows.answer hi' m later

/-- A store in which one point was observed. -/
def spotted : Store :=
  ((({ dimensions := 2 } : Store).observe "rex" (.ofInts [3, -4]) 4).toOption).getD
    { dimensions := 2 }

/-- More is observed and asserted, and another concept is forgotten. -/
def roaming : List Command :=
  [.observe "rex" (.ofInts [-5, 100]) 5, .observe "rob" (.ofInts [9, 9]) 6,
    .add ⟨"rex", "SEES", "rob"⟩ Existence.certain (.record []) 7, .upsert "rex" [] 8,
    .forget { pattern := some "ro*" } 9, .observe "rex" (.ofInts [0, 127]) 10]

theorem observed_stays_certain_roaming :
    ({ dimensions := 2 } : Store).observe "rex" (.ofInts [3, -4]) 4 = .ok spotted ∧
      (spotted.afterAll roaming).conceptLabels = ["rex"] ∧
      ∃ p, ((spotted.afterAll roaming).answer (.ofInts [3, -4]) "rex" (some [false, true]) 11).2 =
          .ok ⟨"rex", some p, 11⟩ ∧
        p.band.truth = .certain ∧ p.band.distance = 0 ∧ p.contributions = [] := by
  have hs : ({ dimensions := 2 } : Store).observe "rex" (.ofInts [3, -4]) 4 = .ok spotted :=
    Outcome.eq_ok_of_isOk (by decide +kernel)
  have hspared : spotted.SparesAll "rex" roaming := by
    have hwhat : (((spotted.afterAll (roaming.take 4)).forget
        { pattern := some "ro*" } 9).toOption.map (·.2.removed)) = some ["rob"] := by
      decide +kernel
    refine ⟨trivial, trivial, trivial, fun _ _ => rfl, fun s' done hforget => ?_, trivial, trivial⟩
    have hforget : (spotted.afterAll (roaming.take 4)).forget { pattern := some "ro*" } 9 =
        .ok (s', done) := hforget
    rw [hforget] at hwhat
    have hremoved : done.removed = ["rob"] := Option.some.inj hwhat
    rw [hremoved]
    decide
  have hreached : Reached (fun _ => True) ({ dimensions := 2 } : Store) := .make (n := 2) rfl
  exact ⟨hs, by decide +kernel,
    (observed_stays_certain hreached _ _ _).2 _ hs _ hspared (some [false, true]) 11⟩

end Store

end KnowledgeBase
