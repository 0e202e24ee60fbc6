import KnowledgeBase.Proofs.Engine.Levels
import KnowledgeBase.Proofs.Store.Observation

/-!
# Facts and observations in turn

Facts bring in concepts at the origin, observations bring them in as points, and later observations
widen what is there.  So it only matters for a concept whether a fact or an observation came first,
and not even that once its observations lie on both sides of the origin.

* `Intake`, `Interleaved`: facts and observations, and two orders of the same ones;
* `Store.lockstep_add`: a fact does the same to stores that agree on facts;
* `extents?_takeAll_known`, `extents?_takeAll_new`: what becomes of the extents of a concept, by
  induction on what comes in;
* `Diamond.Spans.eq_iff`: when the origin adds nothing to points;
* `interleaved_extents_iff`: two orders lead to the same extents exactly then, or if a fact came
  first in both or in neither.
-/

namespace KnowledgeBase

/-! ### What comes in -/

/-- A fact or an observation. -/
inductive Intake where
  | fact (t : Triple) (level : Existence) (metadata : Value)
  | point (label : String) (v : ConceptVector)

namespace Intake

def isFact : Intake → Bool
  | fact .. => true
  | point .. => false

def command (x : Intake) (now : Millis) : Command :=
  match x with
  | fact t level metadata => .add t level metadata now
  | point label v => .observe label v now

def action (x : Intake) (now : Millis) : Action :=
  match x with
  | fact t level metadata => .ingest t level metadata now
  | point label v => .observe label v now

/-- The point that is observed of a concept, if it is one of the space. -/
def shown? (dimensions : Nat) (label : String) : Intake → Option ConceptVector
  | fact .. => none
  | point other v => if other = label ∧ label ≠ "" ∧ v.length = dimensions then some v else none

end Intake

/-- What comes in at which times. -/
abbrev Arrivals := List (Intake × Millis)

namespace Arrivals

/-- The points that are observed of a concept. -/
def seen (dimensions : Nat) (label : String) (xs : Arrivals) : List ConceptVector :=
  xs.filterMap fun x => x.1.shown? dimensions label

/-- The facts alone, at whatever times. -/
def factsAlone (xs : Arrivals) : Arrivals :=
  ((xs.map Prod.fst).filter Intake.isFact).map (·, 0)

/-- The same facts in the same order, and the same observations in the same order. -/
structure Interleaved (xs ys : Arrivals) : Prop where
  facts : (xs.map Prod.fst).filter Intake.isFact = (ys.map Prod.fst).filter Intake.isFact
  points : (xs.map Prod.fst).filter (!·.isFact) = (ys.map Prod.fst).filter (!·.isFact)

theorem seen_eq (n : Nat) (l : String) (xs : Arrivals) :
    xs.seen n l = ((xs.map Prod.fst).filter (!·.isFact)).filterMap (Intake.shown? n l) := by
  unfold seen
  rw [List.filterMap_filter, List.filterMap_map]
  refine List.filterMap_congr fun x _ => ?_
  obtain ⟨x, now⟩ := x
  cases x <;> rfl

theorem Interleaved.seen_eq {xs ys : Arrivals} (h : xs.Interleaved ys) (n : Nat) (l : String) :
    xs.seen n l = ys.seen n l := by
  rw [Arrivals.seen_eq, Arrivals.seen_eq, h.points]

end Arrivals

namespace Store

variable {s s' : Store} {l l' : String} {v : ConceptVector} {d : Diamond} {ds : List Diamond}
  {t : Triple} {level : Existence} {metadata : Value} {now now' : Millis}
  {xs ys : Arrivals}

/-! ### One fact -/

/-- The extent that a concept begins with. -/
def atOrigin (s : Store) : List Diamond := [Diamond.origin s.dimensions]

theorem extents?_eq_none (h : s.hasConcept l = false) : s.extents? l = none := by
  rw [extents?, concept?_eq_none h]
  rfl

theorem hasConcept_eq_isSome : s.hasConcept l = (s.extents? l).isSome := by
  rw [Bool.eq_iff_iff, hasConcept_iff, extents?, Option.isSome_map, Option.isSome_iff_exists]

theorem extents?_introduce_eq (s : Store) (l' : String) (now : Millis) (l : String) :
    (s.introduce l' now).extents? l =
      (s.extents? l).or (if l' = l then some s.atOrigin else none) := by
  cases hknown : s.hasConcept l' with
  | true =>
    rw [introduce_known hknown]
    split
    · rename_i hl
      rw [hl, hasConcept_eq_isSome] at hknown
      obtain ⟨ds, hds⟩ := Option.isSome_iff_exists.mp hknown
      rw [hds]
      rfl
    · rw [Option.or_none]
  | false =>
    rw [introduce_new hknown, extents?_setConcept]
    show (if l' = l then some s.atOrigin else _) = _
    split
    · rename_i hl
      rw [extents?_eq_none (hl ▸ hknown)]
      rfl
    · rw [Option.or_none]

theorem dimensions_introduce : (s.introduce l now).dimensions = s.dimensions := by
  unfold introduce
  split <;> rfl

theorem dimensions_modifyUsage (u : Usage → Usage) :
    (s.modifyUsage l u).dimensions = s.dimensions := by
  unfold modifyUsage
  split <;> rfl

theorem dimensions_assertConcept : (s.assertConcept l now).dimensions = s.dimensions :=
  (dimensions_modifyUsage _).trans dimensions_introduce

theorem dimensions_touch : (s.touch t now).dimensions = s.dimensions := by
  unfold touch
  exact dimensions_assertConcept.trans dimensions_assertConcept

theorem Integral.extents?_assertConcept_eq (h : Integral s) (hl' : l' ≠ "") (l : String) :
    (s.assertConcept l' now).extents? l =
      (s.extents? l).or (if l' = l then some s.atOrigin else none) :=
  ((h.introduce hl').extents?_modifyUsage l' _ l).trans (extents?_introduce_eq s l' now l)

/-- Concepts that are new come in at the origin, and nothing else happens to extents. -/
def BringsIn (s s' : Store) (labels : List String) : Prop :=
  ∀ l, s'.extents? l = (s.extents? l).or (if l ∈ labels then some s.atOrigin else none)

theorem bringsIn_nil (h : ∀ l, s'.extents? l = s.extents? l) : s.BringsIn s' [] := by
  intro l
  rw [h, if_neg List.not_mem_nil, Option.or_none]

theorem Integral.bringsIn_touch (h : Integral s) (hw : t.wellFormed = true) :
    s.BringsIn (s.touch t now) [t.subject, t.object] := by
  intro l
  obtain ⟨hsubject, hobject⟩ := nonempty_of_wellFormed hw
  have hfirst := ne_empty_of_isEmpty hsubject
  have hterms : (s.touch t now).concepts =
      ((s.assertConcept t.subject now).assertConcept t.object now).concepts := by
    unfold Store.touch
    rfl
  have horigin : (s.assertConcept t.subject now).atOrigin = s.atOrigin := by
    unfold atOrigin
    rw [dimensions_assertConcept]
  rw [extents?_congr hterms,
    (h.assertConcept hfirst).extents?_assertConcept_eq (ne_empty_of_isEmpty hobject),
    h.extents?_assertConcept_eq hfirst, Option.or_assoc, horigin]
  congr 1
  by_cases hs : t.subject = l <;> by_cases ho : t.object = l <;>
    simp [hs, ho, @eq_comm _ l]

/-- Stores that agree on facts differ in concepts and usage at most. -/
theorem eq_of_ledger (h : s'.ledger = s.ledger) : s' = { s with
    dimensions := s'.dimensions, concepts := s'.concepts
    relationUsage := s'.relationUsage, protectedLabels := s'.protectedLabels } := by
  cases s
  cases s'
  simp only [ledger, Ledger.mk.injEq] at h
  obtain ⟨rfl, rfl, rfl, rfl, rfl, rfl⟩ := h
  rfl

theorem bestFact_of_ledger (h : s'.ledger = s.ledger) (subject relation : String)
    (object : Option String) :
    s'.bestFact subject relation object = s.bestFact subject relation object := by
  rw [eq_of_ledger h]
  rfl

theorem sortedWith_of_ledger (h : s'.ledger = s.ledger) (f : Fact) :
    s'.sortedWith f = s.sortedWith f := by
  rw [eq_of_ledger h]
  rfl

theorem ledger_entered (h : s'.ledger = s.ledger) (next : FactId) (f : Fact) :
    (s'.entered next f).ledger = (s.entered next f).ledger := by
  rw [eq_of_ledger h]
  rfl

/-- Of two stores one has grown by a fact, and so has the other. -/
structure Lockstep (s₁ s₂ s₁' s₂' : Store) : Prop where
  ledger : s₂'.ledger = s₁'.ledger
  brought : ∃ labels, s₁.BringsIn s₁' labels ∧ s₂.BringsIn s₂' labels

theorem Lockstep.refl (h : s'.ledger = s.ledger) : Lockstep s s' s s' :=
  ⟨h, [], bringsIn_nil fun _ => rfl, bringsIn_nil fun _ => rfl⟩

theorem lockstep_addVersion (h : Integral s) (h' : Integral s') (hledger : s'.ledger = s.ledger)
    (hw : t.wellFormed = true) : Lockstep s s' (s.addVersion t level metadata now).1
      (s'.addVersion t level metadata now').1 := by
  have hid : s'.nextId = s.nextId := nextId_congr hledger
  have hversion : s'.nextVersion t level metadata = s.nextVersion t level metadata := by
    unfold nextVersion
    rw [hid]
  have hentered := ledger_entered hledger (s.nextId + 1) (s.nextVersion t level metadata)
  have hbrings : ∀ {s : Store} (h : Integral s) (next : FactId) (f : Fact) (now : Millis),
      s.BringsIn (((s.entered next f).put f).touch t now) [t.subject, t.object] := by
    intro s h next f now l
    rw [touch_put, extents?_put]
    exact (h.entered next f).bringsIn_touch hw l
  rw [addVersion_eq_ite, addVersion_eq_ite, hid, hversion, sortedWith_of_ledger hledger]
  split
  · refine ⟨?_, _, hbrings h _ _ now, hbrings h' _ _ now'⟩
    rw [ledger_touch, ledger_touch]
    exact ledger_put hentered
  · exact ⟨hentered, [], bringsIn_nil fun l => extents?_entered _ _ _ l,
      bringsIn_nil fun l => extents?_entered _ _ _ l⟩

/-- **A fact does the same to stores that agree on facts**, whenever it comes in. -/
theorem lockstep_add (h : Integral s) (h' : Integral s') (hledger : s'.ledger = s.ledger)
    (t : Triple) (level : Existence) (metadata : Value) (now now' : Millis) :
    Lockstep s s' (s.add t level metadata now).1 (s'.add t level metadata now').1 := by
  unfold Store.add
  rw [bestFact_of_ledger hledger]
  split
  · exact .refl hledger
  · rename_i hform
    have hw : t.wellFormed = true := (storable_of_assertionFault? hform 0).wellFormed
    split
    · exact .refl hledger
    · split
      · exact .refl hledger
      · exact lockstep_addVersion h h' hledger hw
    · exact lockstep_addVersion h h' hledger hw

/-! ### One arrival -/

/-- The store that an arrival leaves behind. -/
def take (s : Store) (x : Intake × Millis) : Store := s.after (x.1.command x.2)

/-- What an arrival may do to the extents of a concept. -/
inductive Turn (n : Nat) (l : String) (x : Intake) :
    Option (List Diamond) → Option (List Diamond) → Prop
  | kept {es : Option (List Diamond)} : x.shown? n l = none → Turn n l x es es
  | origin : x.isFact = true → x.shown? n l = none → Turn n l x none (some [Diamond.origin n])
  | point {v : ConceptVector} : x.isFact = false → x.shown? n l = some v →
      Turn n l x none (some [Diamond.ofVector v])
  | wider {v : ConceptVector} {d : Diamond} {ds : List Diamond} : x.shown? n l = some v →
      Turn n l x (some (d :: ds)) (some (d.cover v :: ds))

theorem dimensions_add (t : Triple) (level : Existence) (metadata : Value) (now : Millis) :
    (s.add t level metadata now).1.dimensions = s.dimensions := by
  have hversion : (s.addVersion t level metadata now).1.dimensions = s.dimensions := by
    rw [addVersion_eq_ite]
    split
    · exact dimensions_touch
    · rfl
  unfold Store.add
  split
  · rfl
  · split
    · rfl
    · split
      · rfl
      · exact hversion
    · exact hversion

theorem dimensions_take (x : Intake × Millis) : (s.take x).dimensions = s.dimensions := by
  obtain ⟨x, now⟩ := x
  cases x with
  | fact t level metadata => exact dimensions_add t level metadata now
  | point label v =>
    show (s.orKept (s.observe label v now)).dimensions = _
    cases hs : s.observe label v now with
    | ok s' =>
      obtain ⟨-, -, ds, -, rfl⟩ := observe_eq_ok hs
      rfl
    | error why => rfl

theorem Integral.turn_fact (h : Integral s) (t : Triple) (level : Existence) (metadata : Value)
    (now : Millis) (l : String) : Turn s.dimensions l (.fact t level metadata) (s.extents? l)
      ((s.add t level metadata now).1.extents? l) := by
  obtain ⟨labels, hbrought, -⟩ := (lockstep_add h h rfl t level metadata now now).brought
  rw [hbrought l]
  cases s.extents? l with
  | some ds => exact .kept rfl
  | none =>
    rw [Option.none_or]
    split
    · exact .origin rfl rfl
    · exact .kept rfl

/-- An observation of the space is taken in. -/
theorem Integral.turn_shown (h : Integral s) (hl : l ≠ "") (hlen : v.length = s.dimensions) :
    Turn s.dimensions l (.point l v) (s.extents? l)
      ((s.after (.observe l v now)).extents? l) := by
  have hshown : (Intake.point l v).shown? s.dimensions l = some v := if_pos ⟨rfl, hl, hlen⟩
  have hfits : (s.conceptOrNew l now).Fits l s.dimensions := h.fits_conceptOrNew hl
  have htaken : ∀ ds, Stepwise.widened (s.hasConcept l) (s.conceptOrNew l now).diamonds v = .ok ds →
      (s.after (.observe l v now)).extents? l = some ds := by
    intro ds hwide
    show (s.orKept (s.observe l v now)).extents? l = _
    rw [observe_of_nonempty hlen (by simpa using hl), hwide]
    exact (extents?_setConcept _ l).trans (if_pos hfits.own_label)
  cases hextents : s.extents? l with
  | none =>
    have hunknown : s.hasConcept l = false := by
      rw [hasConcept_eq_isSome, hextents]
      rfl
    rw [htaken [Diamond.ofVector v] (by rw [hunknown]; rfl)]
    exact .point rfl hshown
  | some ds =>
    obtain ⟨hknown, hdiamonds⟩ := conceptOrNew_of_extents hextents now
    obtain ⟨d, ds, rfl⟩ := List.exists_cons_of_ne_nil (hdiamonds ▸ hfits.populated)
    have hsized : d.dimensions = s.dimensions :=
      hfits.sized d (hdiamonds ▸ List.mem_cons_self)
    have hwide : Stepwise.widened true (d :: ds) v = .ok (d.cover v :: ds) := by
      show (d.expand v).map (· :: ds) = _
      rw [Diamond.expand_of_eq (hlen.trans hsized.symm)]
      rfl
    rw [htaken _ (by rw [hknown, hdiamonds]; exact hwide)]
    exact .wider hshown

theorem Integral.turn_point (h : Integral s) (l' : String) (v : ConceptVector) (now : Millis)
    (l : String) : Turn s.dimensions l (.point l' v) (s.extents? l)
      ((s.after (.observe l' v now)).extents? l) := by
  by_cases hshown : l' = l ∧ l ≠ "" ∧ v.length = s.dimensions
  · obtain ⟨rfl, hl, hlen⟩ := hshown
    exact h.turn_shown hl hlen
  · -- refused, or about another concept
    have hkept : (s.after (.observe l' v now)).extents? l = s.extents? l := by
      show (s.orKept (s.observe l' v now)).extents? l = _
      cases hs : s.observe l' v now with
      | error why => rfl
      | ok s' =>
        obtain ⟨hlen, hl', ds, -, rfl⟩ := observe_eq_ok hs
        have hother : l' ≠ l := by
          rintro rfl
          exact hshown ⟨rfl, hl', hlen⟩
        have hown : (s.conceptOrNew l' now).label = l' := (h.fits_conceptOrNew hl').own_label
        exact (extents?_setConcept _ l).trans (if_neg (hown.symm ▸ hother))
    rw [hkept]
    exact .kept (if_neg hshown)

/-- **What an arrival does to a concept**: nothing, or it brings it in at the origin or as a point,
or widens its first extent. -/
theorem Integral.turn (h : Integral s) (x : Intake × Millis) (l : String) :
    Turn s.dimensions l x.1 (s.extents? l) ((s.take x).extents? l) := by
  obtain ⟨x, now⟩ := x
  cases x with
  | fact t level metadata => exact h.turn_fact t level metadata now l
  | point l' v => exact h.turn_point l' v now l

theorem Integral.take (h : Integral s) (x : Intake × Millis) : Integral (s.take x) := h.after _

/-! ### Many arrivals -/

def takeAll (s : Store) (xs : Arrivals) : Store := xs.foldl take s

/-- A fact brings in a concept that is not there yet. -/
def broughtByFact (s : Store) (l : String) : Arrivals → Bool
  | [] => false
  | x :: xs =>
    x.1.isFact && !s.hasConcept l && (s.take x).hasConcept l || (s.take x).broughtByFact l xs

/-- A concept that is known is widened by its observations. -/
theorem Integral.extents?_takeAll_known (h : Integral s) (hl : s.extents? l = some (d :: ds)) :
    (s.takeAll xs).extents? l =
        some ((xs.seen s.dimensions l).foldl Diamond.cover d :: ds) ∧
      s.broughtByFact l xs = false := by
  induction xs generalizing s d with
  | nil => exact ⟨hl, rfl⟩
  | cons x xs ih =>
    have hknown : s.hasConcept l = true := by
      rw [hasConcept_eq_isSome, hl]
      rfl
    have hturn := h.turn x l
    rw [hl] at hturn
    unfold broughtByFact Arrivals.seen
    rw [hknown, List.filterMap_cons]
    simp only [Bool.not_true, Bool.and_false, Bool.false_and, Bool.false_or]
    generalize hafter : (s.take x).extents? l = after at hturn
    cases hturn with
    | kept hshown =>
      rw [hshown, ← dimensions_take x]
      exact ih (h.take x) hafter
    | wider hshown =>
      rw [hshown, ← dimensions_take x]
      exact ih (h.take x) hafter

/-- A concept that is new is what its observations make of its first extent. -/
theorem Integral.extents?_takeAll_new (h : Integral s) (hl : s.extents? l = none) :
    (s.takeAll xs).extents? l =
      if s.broughtByFact l xs then
        some [(xs.seen s.dimensions l).foldl Diamond.cover (.origin s.dimensions)]
      else match xs.seen s.dimensions l with
        | [] => none
        | v :: vs => some [vs.foldl Diamond.cover (.ofVector v)] := by
  induction xs generalizing s with
  | nil => exact hl
  | cons x xs ih =>
    have hunknown : s.hasConcept l = false := by
      rw [hasConcept_eq_isSome, hl]
      rfl
    have hturn := h.turn x l
    rw [hl] at hturn
    unfold broughtByFact Arrivals.seen
    rw [hunknown, hasConcept_eq_isSome, List.filterMap_cons, ← dimensions_take x]
    show ((s.take x).takeAll xs).extents? l = _
    generalize hafter : (s.take x).extents? l = after at hturn
    cases hturn with
    | kept hshown =>
      rw [dimensions_take x, hshown, ← dimensions_take x]
      simp only [Option.isSome_none, Bool.and_false, Bool.false_or]
      exact ih (h.take x) hafter
    | origin hfact hshown =>
      rw [dimensions_take x, hshown, hfact]
      rw [((h.take x).extents?_takeAll_known hafter).1, dimensions_take x]
      rfl
    | point hpoint hshown =>
      rw [dimensions_take x, hshown, hpoint, ((h.take x).extents?_takeAll_known hafter).1,
        ((h.take x).extents?_takeAll_known hafter).2, dimensions_take x]
      rfl

/-! ### A concept that is not observed -/

/-- Two stores agree on facts and on a concept. -/
structure Alike (l : String) (s s' : Store) : Prop where
  integral : Integral s
  integral' : Integral s'
  ledger : s'.ledger = s.ledger
  dimensions : s'.dimensions = s.dimensions
  extents : s'.extents? l = s.extents? l

theorem Alike.take_fact (h : Alike l s s') (t : Triple) (level : Existence) (metadata : Value)
    (now now' : Millis) :
    Alike l (s.take (.fact t level metadata, now)) (s'.take (.fact t level metadata, now')) := by
  have hlockstep := lockstep_add h.integral h.integral' h.ledger t level metadata now now'
  obtain ⟨labels, hbrought, hbrought'⟩ := hlockstep.brought
  refine ⟨h.integral.take _, h.integral'.take _, hlockstep.ledger, ?_, ?_⟩
  · rw [dimensions_take, dimensions_take, h.dimensions]
  · show (s'.add t level metadata now').1.extents? l = (s.add t level metadata now).1.extents? l
    rw [hbrought l, hbrought' l, h.extents, atOrigin, atOrigin, h.dimensions]

theorem Alike.take_unseen (h : Alike l s s')
    (hunseen : (Intake.point l' v).shown? s.dimensions l = none) :
    Alike l (s.take (.point l' v, now)) s' := by
  have hledger : (s.take (.point l' v, now)).ledger = s.ledger :=
    ledger_orKept fun _ hs => ledger_observe hs
  have hkept : (s.take (.point l' v, now)).extents? l = s.extents? l := by
    have hturn := h.integral.turn (.point l' v, now) l
    generalize s.extents? l = before, (s.take (.point l' v, now)).extents? l = after at hturn
    cases hturn with
    | kept _ => rfl
    | origin hfact _ => cases hfact
    | point _ hshown => rw [hunseen] at hshown; cases hshown
    | wider hshown => rw [hunseen] at hshown; cases hshown
  exact ⟨h.integral.take _, h.integral', h.ledger.trans hledger.symm,
    h.dimensions.trans (dimensions_take _).symm, h.extents.trans hkept.symm⟩

/-- To a concept that is not observed only facts matter. -/
theorem Alike.takeAll (h : Alike l s s') (hunseen : xs.seen s.dimensions l = []) :
    Alike l (s.takeAll xs) (s'.takeAll xs.factsAlone) := by
  induction xs generalizing s s' with
  | nil => exact h
  | cons x xs ih =>
    obtain ⟨x, now⟩ := x
    have hall := List.filterMap_eq_nil_iff.mp hunseen
    have hlater : Arrivals.seen s.dimensions l xs = [] :=
      List.filterMap_eq_nil_iff.mpr fun x hx => hall x (List.mem_cons_of_mem _ hx)
    cases x with
    | fact t level metadata =>
      exact ih (h.take_fact t level metadata now 0) ((dimensions_take _).symm ▸ hlater)
    | point l' v =>
      have hhead : (Intake.point l' v).shown? s.dimensions l = none := hall _ List.mem_cons_self
      exact ih (h.take_unseen hhead) ((dimensions_take _).symm ▸ hlater)

theorem Integral.extents?_unseen (h : Integral s) (hxy : xs.Interleaved ys)
    (hunseen : xs.seen s.dimensions l = []) :
    (s.takeAll xs).extents? l = (s.takeAll ys).extents? l := by
  have hself : Alike l s s := ⟨h, h, rfl, rfl, rfl⟩
  have hfacts : xs.factsAlone = ys.factsAlone := by
    unfold Arrivals.factsAlone
    rw [hxy.facts]
  have hx := hself.takeAll hunseen
  have hy := hself.takeAll (hxy.seen_eq _ _ ▸ hunseen)
  rw [← hx.extents, ← hy.extents, hfacts]

/-- A concept that is not observed is known in the end only if it was, or if a fact brings it in. -/
theorem Integral.broughtByFact_unseen (h : Integral s) (hl : s.extents? l = none)
    (hunseen : xs.seen s.dimensions l = []) :
    s.broughtByFact l xs = ((s.takeAll xs).extents? l).isSome := by
  rw [h.extents?_takeAll_new hl, hunseen]
  cases s.broughtByFact l xs <;> rfl

end Store

/-! ### Points around the origin -/

/-- Along every component there are points on both sides of the origin, or at it. -/
def Arrivals.Around (n : Nat) (vs : List ConceptVector) : Prop :=
  ∀ i < n, (∃ v ∈ vs, v.coord i ≤ 0) ∧ ∃ v ∈ vs, 0 ≤ v.coord i

namespace Diamond

variable {d d' : Diamond} {n : Nat} {v : ConceptVector} {vs : List ConceptVector}

theorem coord_zero (n i : Nat) : (ConceptVector.zero n).coord i = 0 := by
  unfold ConceptVector.coord ConceptVector.zero
  rw [List.getD_eq_getElem?_getD, List.getElem?_replicate]
  split <;> rfl

/-- The origin adds nothing to points around it, and widens the diamond of others. -/
theorem Spans.eq_iff (h : d.Spans n {v | v ∈ vs})
    (h' : d'.Spans n (insert (ConceptVector.zero n) {v | v ∈ vs})) :
    d' = d ↔ Arrivals.Around n vs := by
  constructor
  · rintro rfl i hi
    obtain ⟨v, hv, hlow⟩ : ∃ v ∈ vs, v.coord i = d'.lows.coord i := (h.low i hi).1
    obtain ⟨w, hw, hhigh⟩ : ∃ w ∈ vs, w.coord i = d'.highs.coord i := (h.high i hi).1
    have hzero : (0 : Int) ∈ (·.coord i) '' insert (ConceptVector.zero n) {v | v ∈ vs} :=
      ⟨_, Set.mem_insert _ _, coord_zero n i⟩
    exact ⟨⟨v, hv, hlow.trans_le ((h'.low i hi).2 hzero)⟩,
      ⟨w, hw, ((h'.high i hi).2 hzero).trans_eq hhigh.symm⟩⟩
  · intro haround
    have hsub : ∀ i, (·.coord i) '' {v | v ∈ vs} ⊆
        (·.coord i) '' insert (ConceptVector.zero n) {v | v ∈ vs} := fun i =>
      Set.image_mono (Set.subset_insert _ _)
    refine Spans.unique ⟨h'.size, fun i hi => ⟨?_, fun c hc => (h'.low i hi).2 (hsub i hc)⟩,
      fun i hi => ⟨?_, fun c hc => (h'.high i hi).2 (hsub i hc)⟩⟩ h
    · obtain ⟨⟨v, hv, hle⟩, -⟩ := haround i hi
      obtain ⟨w, hw, hlow⟩ := (h'.low i hi).1
      rcases Set.mem_insert_iff.mp hw with rfl | hw
      · refine ⟨v, hv, le_antisymm ?_ ((h'.low i hi).2 (hsub i ⟨v, hv, rfl⟩))⟩
        rw [← hlow]
        exact hle.trans_eq (coord_zero n i).symm
      · exact ⟨w, hw, hlow⟩
    · obtain ⟨-, v, hv, hle⟩ := haround i hi
      obtain ⟨w, hw, hhigh⟩ := (h'.high i hi).1
      rcases Set.mem_insert_iff.mp hw with rfl | hw
      · refine ⟨v, hv, le_antisymm ((h'.high i hi).2 (hsub i ⟨v, hv, rfl⟩)) ?_⟩
        rw [← hhigh]
        exact (coord_zero n i).trans_le hle
      · exact ⟨w, hw, hhigh⟩

/-- A first extent at the origin and one at the first point, widened by the same points. -/
theorem origin_eq_iff (hv : v.length = n) (hvs : ∀ w ∈ vs, w.length = n) :
    (v :: vs).foldl cover (origin n) = vs.foldl cover (ofVector v) ↔
      Arrivals.Around n (v :: vs) := by
  have hpoint := (spans_ofVector hv).foldl_cover hvs
  have horigin := (spans_ofVector (v := .zero n) (by simp [ConceptVector.zero])).foldl_cover
    (List.forall_mem_cons.mpr ⟨hv, hvs⟩)
  have hset : {v} ∪ {w | w ∈ vs} = {w | w ∈ v :: vs} := by
    ext w
    simp
  rw [hset] at hpoint
  exact hpoint.eq_iff horigin

end Diamond

/-! ### Two orders -/

namespace Store

variable {s : Store} {xs ys : Arrivals}

theorem length_of_mem_seen {n : Nat} {l : String} {v : ConceptVector} (h : v ∈ xs.seen n l) :
    v.length = n := by
  obtain ⟨⟨x, now⟩, -, hshown⟩ := List.mem_filterMap.mp h
  cases x with
  | fact t level metadata => cases hshown
  | point l' w =>
    change (if l' = l ∧ l ≠ "" ∧ w.length = n then some w else none) = some v at hshown
    split at hshown
    · rename_i hspace
      cases hshown
      exact hspace.2.2
    · cases hshown

theorem Integral.interleaved_iff (h : Integral s) (hxy : xs.Interleaved ys) (l : String) :
    (s.takeAll xs).extents? l = (s.takeAll ys).extents? l ↔
      s.broughtByFact l xs = s.broughtByFact l ys ∨
        Arrivals.Around s.dimensions (xs.seen s.dimensions l) := by
  have hseen := hxy.seen_eq s.dimensions l
  cases hl : s.extents? l with
  | some ds =>
    obtain ⟨c, hc, rfl⟩ := Option.map_eq_some_iff.mp hl
    obtain ⟨d, ds, hds⟩ := List.exists_cons_of_ne_nil (h.fits hc).populated
    rw [hds] at hl
    have hknown : ∀ zs, (s.takeAll zs).extents? l =
        some ((zs.seen s.dimensions l).foldl Diamond.cover d :: ds) ∧
          s.broughtByFact l zs = false := fun zs => h.extents?_takeAll_known hl
    simp [hknown, hseen]
  | none =>
    cases hvs : xs.seen s.dimensions l with
    | nil =>
      have hsame := h.extents?_unseen hxy hvs
      rw [h.broughtByFact_unseen hl hvs, h.broughtByFact_unseen hl (hseen ▸ hvs), hsame]
      simp
    | cons v vs =>
      have hlen : ∀ w ∈ v :: vs, w.length = s.dimensions := fun w hw =>
        length_of_mem_seen (hvs ▸ hw)
      have hiff := Diamond.origin_eq_iff (hlen v List.mem_cons_self)
        fun w hw => hlen w (List.mem_cons_of_mem _ hw)
      rw [List.foldl_cons] at hiff
      rw [h.extents?_takeAll_new hl, h.extents?_takeAll_new hl, ← hseen, hvs]
      cases s.broughtByFact l xs <;> cases s.broughtByFact l ys <;>
        simp [hiff, eq_comm.trans hiff]

end Store

namespace Engine

/-- The engine that arrivals leave behind. -/
def takeAll (e : Engine) (xs : Arrivals) : Engine := xs.foldl (fun e x => e.after (x.1.action x.2)) e

theorem store_takeAll (e : Engine) (xs : Arrivals) :
    (e.takeAll xs).store = e.store.takeAll xs := by
  induction xs generalizing e with
  | nil => rfl
  | cons x xs ih =>
    obtain ⟨x, now⟩ := x
    refine (ih _).trans ?_
    cases x with
    | fact t level metadata =>
      show (e.ingest t level metadata now).1.store.takeAll xs = _
      rw [store_ingest]
      rfl
    | point label v => rfl

/-- **When facts and observations commute.**  Two interleavings of the same facts and observations
leave a concept with the same extents exactly if a fact brought it in in both or in neither, or if
its observations lie around the origin, where concepts begin that facts bring in. -/
theorem interleaved_extents_iff {ok : Store → Prop} {e : Engine} {xs ys : Arrivals}
    (h : Store.Reached ok e.store) (hxy : xs.Interleaved ys) (label : String) :
    (e.takeAll xs).store.extents? label = (e.takeAll ys).store.extents? label ↔
      e.store.broughtByFact label xs = e.store.broughtByFact label ys ∨
        Arrivals.Around e.store.dimensions (xs.seen e.store.dimensions label) := by
  rw [store_takeAll, store_takeAll]
  exact (Store.integral_of_reached h).interleaved_iff hxy label

/-- A new engine whose space has two components. -/
def planar : Engine := { config := {}, store := { dimensions := 2 }, book := {} }

/-- A fact comes first, then points of the plane that lie around the origin. -/
def factFirst : Arrivals :=
  [(.fact ⟨"a", "r", "b"⟩ Existence.certain (.record []), 1), (.point "a" (.ofInts [5, -5]), 2),
    (.point "a" (.ofInts [-1, 3]), 3)]

/-- The first point comes before the fact. -/
def pointFirst : Arrivals :=
  [(.point "a" (.ofInts [5, -5]), 1),
    (.fact ⟨"a", "r", "b"⟩ Existence.certain (.record []), 2), (.point "a" (.ofInts [-1, 3]), 3)]

theorem interleaved_extents_around :
    Store.Reached (fun _ => True) planar.store ∧ factFirst.Interleaved pointFirst ∧
      (planar.takeAll factFirst).store.extents? "a" =
        (planar.takeAll pointFirst).store.extents? "a" ∧
      planar.store.broughtByFact "a" factFirst ≠ planar.store.broughtByFact "a" pointFirst := by
  have hreached : Store.Reached (fun _ => True) planar.store := .make (n := 2) rfl
  have hsame : factFirst.Interleaved pointFirst := ⟨rfl, rfl⟩
  have haround : Arrivals.Around planar.store.dimensions
      (factFirst.seen planar.store.dimensions "a") := by
    unfold Arrivals.Around
    decide +kernel
  exact ⟨hreached, hsame, (interleaved_extents_iff hreached hsame "a").mpr (.inr haround),
    by decide +kernel⟩

/-- The origin is covered if the fact comes first, and is not if the point does. -/
theorem first_arrival_counts :
    let fact : Intake := .fact ⟨"a", "r", "b"⟩ Existence.certain (.record [])
    let point : Intake := .point "a" (.ofInts [5, 5])
    Arrivals.Interleaved [(fact, 1), (point, 2)] [(point, 1), (fact, 2)] ∧
      (planar.takeAll [(fact, 1), (point, 2)]).store.extents? "a" ≠
        (planar.takeAll [(point, 1), (fact, 2)]).store.extents? "a" :=
  ⟨⟨rfl, rfl⟩, by decide +kernel⟩

end Engine

end KnowledgeBase
