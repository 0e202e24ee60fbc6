import KnowledgeBase.Proofs.Steps
import KnowledgeBase.Proofs.Store.Identity

/-!
# Changes of a store, step by step

The operations of a store, taken apart into the steps they are made of.

* `Store.Stepwise`: the steps of each operation;
* `Store.Agrees`: two stores that hold the same, however their concepts and buckets came about;
* `carries_ensure`, `carries_upsert`, `carries_observe`, `carries_forget`, `carries_restore`: the
  steps of all operations but assertions do what the operation does, and have written nothing if it
  is refused, over every store whatever.
-/

namespace KnowledgeBase

namespace Store

open Steps

variable {s s' : Store} {t : Triple} {level : Existence} {metadata : Value} {f : Fact}
  {label : String} {now : Millis} {α : Type}

/-- The store with another index of versions. -/
def refiled (s : Store) (idx : Index) : Store := { s with byTriple := idx }

/-! ### The steps of each operation -/

namespace Stepwise

def ensure (label : String) (now : Millis) : Steps Store Unit := do
  if label.isEmpty then throw (.input .emptyLabel)
  modify (·.introduce label now)

/-- The concept of a label, which is made if there is none. -/
def refer (label : String) (now : Millis) : Steps Store Concept := do
  ensure label now
  return (← get).conceptOrNew label now

def checkDiamonds (s : Store) (diamonds : List Diamond) : Except Fault Unit :=
  match diamonds.find? (·.dimensions != s.dimensions) with
  | some d => .error (.geometry s.dimensions d.dimensions)
  | none => .ok ()

def upsert (label : String) (diamonds : List Diamond) (now : Millis) : Steps Store Unit := do
  ask (checkDiamonds · diamonds)
  let c ← refer label now
  let c := { c with diamonds := if diamonds.isEmpty then c.diamonds else diamonds }
  modify (·.setConcept c)
  modify (·.setConcept { c with usage := c.usage.recordAssert now })

def checkVector (s : Store) (v : ConceptVector) : Except Fault Unit :=
  if v.length ≠ s.dimensions then .error (.geometry s.dimensions v.length) else .ok ()

/-- The first diamond of a concept that was known is widened; otherwise there is one for the
point. -/
def widened (known : Bool) (diamonds : List Diamond) (v : ConceptVector) :
    Except Fault (List Diamond) :=
  match known, diamonds with
  | true, d :: ds => (d.expand v).map (· :: ds)
  | _, _ => .ok [Diamond.ofVector v]

def observe (label : String) (v : ConceptVector) (now : Millis) : Steps Store Unit := do
  ask (checkVector · v)
  let known := (← get).hasConcept label
  let c ← refer label now
  let diamonds ← ask fun _ => widened known c.diamonds v
  let c := { c with diamonds }
  modify (·.setConcept c)
  modify (·.setConcept { c with usage := c.usage.recordInference now })

/-- Sorts the versions of a triple, as far as that goes. -/
def sortVersions (key : String) (pending : Option Fact) : Steps Store Unit := fun s =>
  match s.sortVersions key pending with
  | (sorted, .ok _) => .ok () sorted
  | (left, .error why) => .error why left

/-- Enters a fact into every index, and sorts it in among its versions. -/
def index (f : Fact) : Steps Store Unit := do
  modify (·.enter f)
  sortVersions f.triple.key (some f)

/-- Records an assertion about the relation of a triple. -/
def countRelation (s : Store) (relation : String) (now : Millis) : Store :=
  let u := (s.relationUsage[relation]?).getD (Usage.fresh now)
  { s with relationUsage := s.relationUsage.insert relation (u.recordAssert now) }

def touch (t : Triple) (now : Millis) : Steps Store Unit := do
  ensure t.subject now
  modify (·.modifyUsage t.subject (·.recordAssert now))
  ensure t.object now
  modify (·.modifyUsage t.object (·.recordAssert now))
  modify (countRelation · t.relation now)

/-- The versions of a triple, which has an empty bucket from now on if it had none. -/
def openVersions (s : Store) (key : String) : Store :=
  s.refiled (if s.byTriple.contains key then s.byTriple else s.byTriple.insert key [])

/-- Stores a fact that is indexed, and says its id. -/
def settle (f : Fact) (now : Millis) : Steps Store FactId := do
  modify (·.put f)
  touch f.triple now
  return (← get).nextId - 1

def newVersion (t : Triple) (level : Existence) (metadata : Value) (now : Millis) :
    Steps Store FactId := do
  let f ← modifyGet fun s => (s.nextVersion t level metadata, { s with nextId := s.nextId + 1 })
  index f
  settle f now

def add (t : Triple) (level : Existence) (metadata : Value) (now : Millis) :
    Steps Store FactId := do
  match assertionFault? t level metadata with
  | some why => throw (.input why)
  | none =>
    modify (openVersions · t.key)
    match ← ask fun s => s.bestFact t.subject t.relation (some t.object) with
    | some f => if level ≤ f.existence then return f.id else newVersion t level metadata now
    | none => newVersion t level metadata now

/-- Drops concepts in turn, and counts the facts that go with them. -/
def dropEach : List String → Steps Store Nat
  | [] => return 0
  | l :: ls => do
    let n ← modifyGet fun s => (s.drop l).swap
    return n + (← dropEach ls)

def forget (r : ForgetRequest) (now : Millis) : Steps Store Forgotten := do
  let labels ← ask fun s => s.select r now
  let (kept, targets) := labels.partition (← get).isProtected
  let found : Forgotten :=
    { count := targets.length, protectedLabels := kept, skipped := kept.length }
  if r.dryRun then return { found with wouldRemove := targets }
  let n ← dropEach targets
  return { found with removed := targets, factsRemoved := n }

def load (now : Millis) (f : Fact) : Steps Store Unit := do
  modify fun s => { s with nextId := max s.nextId (f.id + 1) }
  index f
  ensure f.subject now
  ensure f.object now
  modify (·.put f)

def restore (snapshot : Value) (now : Millis) : Steps Store Unit := do
  let facts ← ask fun _ => Snapshot.read snapshot
  modify bare
  (ascending facts).forM (load now)

end Stepwise

/-! ### Stores that hold the same -/

/-- Two stores that hold the same. -/
structure Agrees (s s' : Store) : Prop where
  besides : ({ s' with concepts := s.concepts, byTriple := s.byTriple } : Store) = s
  concepts : ∀ l, s'.concept? l = s.concept? l
  versions : ∀ k, s'.byTriple.bucket k = s.byTriple.bucket k

theorem Agrees.refl (s : Store) : Agrees s s := ⟨rfl, fun _ => rfl, fun _ => rfl⟩

theorem Agrees.nextId (h : s.Agrees s') : s'.nextId = s.nextId := by
  have := congrArg Store.nextId h.besides
  exact this

theorem Agrees.allFacts (h : s.Agrees s') : s'.allFacts = s.allFacts := by
  have hfacts : s'.facts = s.facts := by
    have := congrArg Store.facts h.besides
    exact this
  unfold Store.allFacts
  rw [hfacts]

/-! ### Concepts -/

open Stepwise (refer checkDiamonds checkVector widened openVersions countRelation)

theorem ensure_of_nonempty (h : label.isEmpty = false) :
    Stepwise.ensure label now s = .ok () (s.introduce label now) := by
  unfold Stepwise.ensure
  rw [h]
  rfl

theorem ensure_of_empty (h : label.isEmpty = true) :
    Stepwise.ensure label now s = .error (.input .emptyLabel) s := by
  unfold Stepwise.ensure
  rw [h]
  rfl

theorem concept?_setConcept (c : Concept) (l : String) :
    (s.setConcept c).concept? l = if c.label = l then some c else s.concept? l := by
  show (s.concepts.insert c.label c)[l]? = _
  rw [Std.TreeMap.getElem?_insert]
  simp only [Std.compare_eq_iff_eq]
  rfl

theorem introduce_known (h : s.hasConcept label = true) : s.introduce label now = s := by
  unfold introduce
  rw [if_pos h]

theorem introduce_new (h : s.hasConcept label = false) :
    s.introduce label now = s.setConcept (s.newConcept label now) := by
  unfold introduce
  rw [h]
  rfl

theorem concept?_eq_none (h : s.hasConcept label = false) : s.concept? label = none := by
  unfold hasConcept at h
  unfold concept?
  exact Std.TreeMap.getElem?_eq_none_of_contains_eq_false h

theorem conceptOrNew_introduce :
    (s.introduce label now).conceptOrNew label now = s.conceptOrNew label now := by
  cases h : s.hasConcept label with
  | true => rw [introduce_known h]
  | false =>
    have hnew : (s.setConcept (s.newConcept label now)).concept? label =
        some (s.newConcept label now) := by
      rw [concept?_setConcept]
      exact if_pos rfl
    rw [introduce_new h]
    unfold conceptOrNew
    rw [hnew, concept?_eq_none h]
    rfl

theorem refer_of_nonempty (h : label.isEmpty = false) :
    refer label now s = .ok (s.conceptOrNew label now) (s.introduce label now) := by
  unfold refer
  rw [bind_of_ok (ensure_of_nonempty h), ← conceptOrNew_introduce]
  rfl

theorem refer_of_empty (h : label.isEmpty = true) :
    refer label now s = .error (.input .emptyLabel) s :=
  bind_of_error (ensure_of_empty h)

/-- A concept that is made and written to twice holds what was written last. -/
theorem agrees_written {c d : Concept} (hc : c.label = (s.conceptOrNew label now).label)
    (hd : d.label = c.label) :
    Agrees (s.setConcept d) (((s.introduce label now).setConcept c).setConcept d) := by
  refine ⟨?_, fun l => ?_, fun k => ?_⟩
  · unfold introduce setConcept
    split <;> rfl
  · simp only [concept?_setConcept, hd]
    split
    · rfl
    · rename_i hl
      cases h : s.hasConcept label with
      | true => rw [introduce_known h]
      | false =>
        have hlabel : (s.newConcept label now).label = c.label := by
          rw [hc]
          unfold conceptOrNew
          rw [concept?_eq_none h]
          rfl
        rw [introduce_new h, concept?_setConcept, hlabel, if_neg hl]
  · unfold introduce setConcept
    split <;> rfl

theorem carries_ensure (s : Store) (label : String) (now : Millis) :
    Carries Agrees (Stepwise.ensure label now) s
      ((s.ensureConcept label now).map (·, ())) := by
  unfold ensureConcept
  cases h : label.isEmpty with
  | true => exact carries_of_error (ensure_of_empty h) (.refl s)
  | false => exact carries_of_ok (ensure_of_nonempty h) (.refl _)

theorem carries_upsert (s : Store) (label : String) (ds : List Diamond) (now : Millis) :
    Carries Agrees (Stepwise.upsert label ds now) s
      ((s.upsert label ds now).map (·, ())) := by
  unfold Store.upsert Stepwise.upsert
  cases hfind : ds.find? (·.dimensions != s.dimensions) with
  | some d =>
    have hcheck : ask (checkDiamonds · ds) s = .error (.geometry s.dimensions d.dimensions) s := by
      refine ask_of_error ?_
      unfold checkDiamonds
      rw [hfind]
    exact carries_of_error (bind_of_error hcheck) (.refl s)
  | none =>
    have hcheck : ask (checkDiamonds · ds) s = .ok () s := by
      refine ask_of_ok ?_
      unfold checkDiamonds
      rw [hfind]
    cases h : label.isEmpty with
    | true =>
      exact carries_of_error
        ((bind_of_ok hcheck).trans (bind_of_error (refer_of_empty h))) (.refl s)
    | false =>
      exact carries_of_ok ((bind_of_ok hcheck).trans (bind_of_ok (refer_of_nonempty h)))
        (agrees_written rfl rfl)

theorem observe_of_nonempty {v : ConceptVector} (hlen : v.length = s.dimensions)
    (h : label.isEmpty = false) :
    s.observe label v now =
      (widened (s.hasConcept label) (s.conceptOrNew label now).diamonds v).map fun ds =>
        s.setConcept { s.conceptOrNew label now with
          diamonds := ds, usage := (s.conceptOrNew label now).usage.recordInference now } := by
  unfold Store.observe
  rw [if_neg (not_not.mpr hlen), h]
  cases s.hasConcept label with
  | false => rfl
  | true =>
    cases hds : (s.conceptOrNew label now).diamonds with
    | nil => simp only [hds]; rfl
    | cons d ds =>
      simp only [hds]
      unfold widened
      dsimp only
      cases d.expand v <;> rfl

/-- Only a concept that was known can have a diamond that does not fit. -/
theorem known_of_widened {known : Bool} {ds : List Diamond} {v : ConceptVector} {why : Fault}
    (h : widened known ds v = .error why) : known = true := by
  cases known with
  | true => rfl
  | false =>
    unfold widened at h
    cases h

theorem carries_observe (s : Store) (label : String) (v : ConceptVector) (now : Millis) :
    Carries Agrees (Stepwise.observe label v now) s
      ((s.observe label v now).map (·, ())) := by
  by_cases hlen : v.length = s.dimensions
  · have hcheck : ask (checkVector · v) s = .ok () s := by
      refine ask_of_ok ?_
      unfold checkVector
      rw [if_neg (not_not.mpr hlen)]
    have hstart : (get : Steps Store Store) s = .ok s s := rfl
    cases h : label.isEmpty with
    | true =>
      have hrefused : s.observe label v now = .error (.input .emptyLabel) := by
        unfold Store.observe
        rw [if_neg (not_not.mpr hlen), h]
        rfl
      rw [hrefused]
      exact carries_of_error ((bind_of_ok hcheck).trans ((bind_of_ok hstart).trans
        (bind_of_error (refer_of_empty h)))) (.refl s)
    | false =>
      rw [observe_of_nonempty hlen h]
      cases hwide : widened (s.hasConcept label) (s.conceptOrNew label now).diamonds v with
      | error why =>
        have hwhy : ask
            (fun _ => widened (s.hasConcept label) (s.conceptOrNew label now).diamonds v) s =
              .error why s := ask_of_error hwide
        -- the concept was known, so there was nothing to introduce before the fault
        have hsame : s.introduce label now = s := introduce_known (known_of_widened hwide)
        have hrefer : refer label now s = _ := refer_of_nonempty h
        rw [hsame] at hrefer
        exact carries_of_error ((bind_of_ok hcheck).trans ((bind_of_ok hstart).trans
          ((bind_of_ok hrefer).trans (bind_of_error hwhy)))) (.refl s)
      | ok ds =>
        have hds : ask (fun _ => widened (s.hasConcept label) (s.conceptOrNew label now).diamonds v)
            (s.introduce label now) = .ok ds (s.introduce label now) := ask_of_ok hwide
        exact carries_of_ok ((bind_of_ok hcheck).trans ((bind_of_ok hstart).trans
          ((bind_of_ok (refer_of_nonempty h)).trans (bind_of_ok hds)))) (agrees_written rfl rfl)
  · have hcheck : ask (checkVector · v) s = .error (.geometry s.dimensions v.length) s := by
      refine ask_of_error ?_
      unfold checkVector
      rw [if_pos hlen]
    unfold Store.observe
    rw [if_pos hlen]
    exact carries_of_error (bind_of_error hcheck) (.refl s)

/-! ### Forgetting -/

open Stepwise (dropEach)

theorem dropEach_eq (ls : List String) : dropEach ls s = .ok (s.dropAll ls).2 (s.dropAll ls).1 := by
  induction ls generalizing s with
  | nil => rfl
  | cons l ls ih =>
    have hdrop : (modifyGet fun s => (s.drop l).swap : Steps Store Nat) s =
        .ok (s.drop l).2 (s.drop l).1 := rfl
    unfold dropEach
    exact (bind_of_ok hdrop).trans (bind_of_ok ih)

theorem carries_forget (s : Store) (r : ForgetRequest) (now : Millis) :
    Carries Agrees (Stepwise.forget r now) s (s.forget r now) := by
  unfold Store.forget Stepwise.forget
  cases hsel : s.select r now with
  | error why =>
    have hlook : ask (fun s => s.select r now) s = .error why s := ask_of_error hsel
    exact carries_of_error (bind_of_error hlook) (.refl s)
  | ok ls =>
    have hlook : ask (fun s => s.select r now) s = .ok ls s := ask_of_ok hsel
    have hstart : (get : Steps Store Store) s = .ok s s := rfl
    cases hdry : r.dryRun with
    | true => exact carries_of_ok ((bind_of_ok hlook).trans (bind_of_ok hstart)) (.refl s)
    | false =>
      exact carries_of_ok ((bind_of_ok hlook).trans ((bind_of_ok hstart).trans
        (bind_of_ok (dropEach_eq _)))) (.refl _)

/-! ### Snapshots -/

theorem index_of_sorted {u : Store}
    (h : (s.enter f).sortVersions f.triple.key (some f) = (u, .ok ())) :
    Stepwise.index f s = .ok () u := by
  have henter : (modify (·.enter f) : Steps Store Unit) s = .ok () (s.enter f) := rfl
  refine (bind_of_ok henter).trans ?_
  unfold Stepwise.sortVersions
  rw [h]

theorem index_of_unsorted {u : Store} {why : Fault}
    (h : (s.enter f).sortVersions f.triple.key (some f) = (u, .error why)) :
    Stepwise.index f s = .error why u := by
  have henter : (modify (·.enter f) : Steps Store Unit) s = .ok () (s.enter f) := rfl
  refine (bind_of_ok henter).trans ?_
  unfold Stepwise.sortVersions
  rw [h]

theorem nonempty_of_wellFormed (h : t.wellFormed = true) :
    t.subject.isEmpty = false ∧ t.object.isEmpty = false := by
  unfold Triple.wellFormed at h
  simp only [Bool.and_eq_true, Bool.not_eq_eq_eq_not, Bool.not_true] at h
  exact ⟨h.1.1, h.2⟩

/-- A fact under a free id is loaded without a fault. -/
theorem Indexed.load_eq {r : FactId → FactId → Prop} (h : Indexed r s)
    (hf : s.fact? f.id = none) (hw : f.triple.wellFormed = true) :
    Stepwise.load now f s = .ok () (s.load now f) := by
  obtain ⟨hsubject, hobject⟩ := nonempty_of_wellFormed hw
  have hnext : (modify fun s => { s with nextId := max s.nextId (f.id + 1) } : Steps Store Unit) s =
      .ok () { s with nextId := max s.nextId (f.id + 1) } := rfl
  have hindex := index_of_sorted (h.sort_receive (n := max s.nextId (f.id + 1)) hf)
  unfold Stepwise.load
  refine (bind_of_ok hnext).trans ((bind_of_ok hindex).trans
    ((bind_of_ok (ensure_of_nonempty hsubject)).trans
      ((bind_of_ok (ensure_of_nonempty hobject)).trans ?_)))
  unfold Store.load
  dsimp only
  rw [h.sort_receive hf]
  rfl

theorem forM_load {r : FactId → FactId → Prop} {fs : List Fact} (h : Indexed r s)
    (hr : ∀ i j, r i j) (hasc : fs.Pairwise fun a b => a.id < b.id)
    (hnew : ∀ f ∈ fs, s.fact? f.id = none) (hw : ∀ f ∈ fs, f.triple.wellFormed = true) :
    fs.forM (Stepwise.load now) s = .ok () (fs.foldl (·.load now) s) := by
  induction fs generalizing s with
  | nil => rfl
  | cons f fs ih =>
    obtain ⟨hlt, hasc⟩ := List.pairwise_cons.mp hasc
    have hf := hnew f List.mem_cons_self
    refine (bind_of_ok (h.load_eq hf (hw f List.mem_cons_self))).trans (ih ?_ hasc ?_ ?_)
    · exact (h.receive hf fun i _ => hr i f.id).congr (ledger_load f)
    · intro g hg
      rw [fact?_load hf, if_neg]
      · exact hnew g (List.mem_cons_of_mem _ hg)
      · exact fun heq => UInt64.lt_irrefl _ (heq ▸ hlt g hg)
    · exact fun g hg => hw g (List.mem_cons_of_mem _ hg)

theorem carries_restore (s : Store) (snapshot : Value) (now : Millis) :
    Carries Agrees (Stepwise.restore snapshot now) s
      ((s.restore snapshot now).map (·, ())) := by
  cases hread : Snapshot.read snapshot with
  | error why =>
    have hrefused : s.restore snapshot now = .error why := by
      unfold Store.restore
      rw [hread]
      rfl
    rw [hrefused]
    have hlook : ask (fun _ => Snapshot.read snapshot) s = .error why s := ask_of_error hread
    exact carries_of_error (bind_of_error hlook) (.refl s)
  | ok fs =>
    have hdone : s.restore snapshot now = .ok ((ascending fs).foldl (·.load now) s.bare) := by
      unfold Store.restore
      rw [hread]
      rfl
    rw [hdone]
    have hlook : ask (fun _ => Snapshot.read snapshot) s = .ok fs s := ask_of_ok hread
    have hbare : (modify bare : Steps Store Unit) s = .ok () s.bare := rfl
    have hload : (ascending fs).forM (Stepwise.load now) s.bare =
        .ok () ((ascending fs).foldl (·.load now) s.bare) := by
      refine forM_load (indexed_of_empty (r := fun _ _ => True) rfl) (fun _ _ => trivial)
        (ascending_pairwise (Snapshot.read_nodup hread)) (fun f _ => fact?_bare f.id) fun f hf => ?_
      exact (Snapshot.storable_of_read hread (List.mem_mergeSort.mp hf)).wellFormed
    exact carries_of_ok ((bind_of_ok hlook).trans ((bind_of_ok hbare).trans hload)) (.refl _)

end Store

end KnowledgeBase
