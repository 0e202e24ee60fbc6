import KnowledgeBase.Proofs.Store.Stepwise

/-!
# Assertions step by step

An assertion takes an id, enters it into every index and sorts the versions of its triple before the
fact is stored.  The sort looks up the facts of all versions, and breaks off at an id without one.

* `addVersion_eq_ite`: a new version comes in if the sort goes through;
* `traces_add`: the steps of an assertion trace it;
* `add_refused`: one that is refused has written nothing, or broke off in the sort;
* `Indexed.allOrNothing_add`: where the indexes file the facts it never breaks off, and
  `add_breaksOff` says when it does;
* `strayed`: a store where it does, once an id has been given out twice.
-/

namespace KnowledgeBase

namespace Store

open Steps
open Stepwise (openVersions)

variable {s s' : Store} {t : Triple} {level : Existence} {metadata : Value} {f : Fact}
  {label : String} {now : Millis} {i : FactId}

/-! ### New versions -/

theorem touch_eq (hw : t.wellFormed = true) :
    Stepwise.touch t now s = .ok () (s.touch t now) := by
  obtain ⟨hsubject, hobject⟩ := nonempty_of_wellFormed hw
  have hcount : ∀ (s : Store) (label : String),
      (modify (·.modifyUsage label (·.recordAssert now)) : Steps Store Unit) s =
        .ok () (s.modifyUsage label (·.recordAssert now)) := fun _ _ => rfl
  unfold Stepwise.touch
  exact (bind_of_ok (ensure_of_nonempty hsubject)).trans ((bind_of_ok (hcount _ _)).trans
    ((bind_of_ok (ensure_of_nonempty hobject)).trans ((bind_of_ok (hcount _ _)).trans rfl)))

/-- The versions of a triple, sorted once a fact has come in, and whether the sort went through. -/
def sortedWith (s : Store) (f : Fact) : List FactId × Bool :=
  Versions.sort (s.levelOf? (some f)) (s.byTriple.bucket f.triple.key ++ [f.id])

/-- The store in which a fact is entered and sorted in, the number of the next one being given. -/
def entered (s : Store) (next : FactId) (f : Fact) : Store :=
  { ({ s with nextId := next }).enter f with
    byTriple := (s.byTriple.push f.triple.key f.id).insert f.triple.key (s.sortedWith f).1 }

theorem sortVersions_enter (next : FactId) (f : Fact) :
    (({ s with nextId := next }).enter f).sortVersions f.triple.key (some f) =
      (s.entered next f, if (s.sortedWith f).2 then .ok () else .error .outOfRange) := by
  have hids : (({ s with nextId := next }).enter f).byTriple.bucket f.triple.key =
      s.byTriple.bucket f.triple.key ++ [f.id] := by
    show (s.byTriple.push f.triple.key f.id).bucket _ = _
    rw [Index.bucket_push, if_pos rfl]
  unfold Store.sortVersions
  rw [hids]
  rfl

/-- A new version comes in, unless the sort of the versions breaks off. -/
theorem addVersion_eq_ite : s.addVersion t level metadata now =
    if (s.sortedWith (s.nextVersion t level metadata)).2 then
      (((s.entered (s.nextId + 1) (s.nextVersion t level metadata)).put
        (s.nextVersion t level metadata)).touch t now, .ok s.nextId)
    else (s.entered (s.nextId + 1) (s.nextVersion t level metadata), .error .outOfRange) := by
  have hsort := sortVersions_enter (s := s) (s.nextId + 1) (s.nextVersion t level metadata)
  unfold Store.addVersion
  by_cases hok : (s.sortedWith (s.nextVersion t level metadata)).2 = true
  · rw [if_pos hok] at hsort ⊢
    dsimp only [nextVersion] at hsort ⊢
    rw [hsort]
  · rw [if_neg hok] at hsort ⊢
    dsimp only [nextVersion] at hsort ⊢
    rw [hsort]

theorem settle_eq (hw : f.triple.wellFormed = true) :
    Stepwise.settle f now s =
      .ok (s.nextId - 1) ((s.put f).touch f.triple now) := by
  have hput : (modify (·.put f) : Steps Store Unit) s = .ok () (s.put f) := rfl
  have hid : ((s.put f).touch f.triple now).nextId = (s.put f).nextId :=
    nextId_congr (ledger_touch f.triple)
  unfold Stepwise.settle
  rw [bind_of_ok hput, bind_of_ok (touch_eq hw), show s.nextId = (s.put f).nextId from rfl, ← hid]
  rfl

theorem newVersion_eq (hw : t.wellFormed = true) :
    Stepwise.newVersion t level metadata now s =
      match s.addVersion t level metadata now with
      | (u, .ok i) => .ok i u
      | (u, .error why) => .error why u := by
  have hsort := sortVersions_enter (s := s) (s.nextId + 1) (s.nextVersion t level metadata)
  have hnext : (modifyGet fun s => (s.nextVersion t level metadata,
      { s with nextId := s.nextId + 1 }) : Steps Store Fact) s =
        .ok (s.nextVersion t level metadata) { s with nextId := s.nextId + 1 } := rfl
  rw [addVersion_eq_ite]
  refine (bind_of_ok hnext).trans ?_
  by_cases hok : (s.sortedWith (s.nextVersion t level metadata)).2 = true
  · rw [if_pos hok] at hsort ⊢
    have hid : (s.entered (s.nextId + 1) (s.nextVersion t level metadata)).nextId - 1 = s.nextId :=
      UInt64.add_sub_cancel s.nextId 1
    refine (bind_of_ok (index_of_sorted hsort)).trans ?_
    rw [settle_eq (f := s.nextVersion t level metadata) hw, hid]
    rfl
  · rw [if_neg hok] at hsort ⊢
    exact bind_of_error (index_of_unsorted hsort)

/-- Assertions are recorded about concepts and relations, so a change of anything else may come
before or after. -/
theorem touch_comm {g : Store → Store} (hdimensions : ∀ s, (g s).dimensions = s.dimensions)
    (hconcepts : ∀ s, (g s).concepts = s.concepts)
    (hrelations : ∀ s, (g s).relationUsage = s.relationUsage)
    (hset : ∀ s (c : Concept), (g s).setConcept c = g (s.setConcept c))
    (husage : ∀ s u, { g s with relationUsage := u } = g { s with relationUsage := u })
    (s : Store) : (g s).touch t now = g (s.touch t now) := by
  have hintroduce : ∀ s label, (g s).introduce label now = g (s.introduce label now) := by
    intro s label
    unfold introduce hasConcept newConcept
    rw [hconcepts, hdimensions, hset]
    split <;> rfl
  have hmodify : ∀ s label u, (g s).modifyUsage label u = g (s.modifyUsage label u) := by
    intro s label u
    unfold modifyUsage concept?
    rw [hconcepts]
    split
    · exact hset _ _
    · rfl
  unfold Store.touch assertConcept
  dsimp only
  rw [hintroduce, hmodify, hintroduce, hmodify, hrelations, husage]

theorem touch_refiled (idx : Index) :
    (s.refiled idx).touch t now = (s.touch t now).refiled idx :=
  touch_comm (g := (·.refiled idx)) (fun _ => rfl) (fun _ => rfl) (fun _ => rfl) (fun _ _ => rfl)
    (fun _ _ => rfl) s

theorem touch_put (f : Fact) : (s.put f).touch t now = (s.touch t now).put f :=
  touch_comm (g := (·.put f)) (fun _ => rfl) (fun _ => rfl) (fun _ => rfl) (fun _ _ => rfl)
    (fun _ _ => rfl) s

theorem agrees_refiled {idx : Index} (hidx : ∀ k, idx.bucket k = s.byTriple.bucket k) :
    Agrees s (s.refiled idx) := ⟨rfl, fun _ => rfl, hidx⟩

/-- Buckets that hold the same make no difference to a new version. -/
theorem addVersion_refiled {idx : Index} (hidx : ∀ k, idx.bucket k = s.byTriple.bucket k) :
    ((s.refiled idx).addVersion t level metadata now).2 =
        (s.addVersion t level metadata now).2 ∧
      Agrees (s.addVersion t level metadata now).1
        ((s.refiled idx).addVersion t level metadata now).1 := by
  have hsorted : ∀ f, (s.refiled idx).sortedWith f = s.sortedWith f := by
    intro f
    unfold sortedWith
    rw [show (s.refiled idx).byTriple = idx from rfl, hidx]
    rfl
  have hentered : ∀ n f, ∃ idx', (s.refiled idx).entered n f = (s.entered n f).refiled idx' ∧
      ∀ k, idx'.bucket k = (s.entered n f).byTriple.bucket k := by
    intro n f
    refine ⟨((s.refiled idx).entered n f).byTriple, rfl, fun k => ?_⟩
    unfold entered
    dsimp only
    rw [hsorted, Index.bucket_insert, Index.bucket_insert, Index.bucket_push, Index.bucket_push,
      show (s.refiled idx).byTriple = idx from rfl, hidx, hidx]
  obtain ⟨idx', heq, hidx'⟩ := hentered (s.nextId + 1) (s.nextVersion t level metadata)
  rw [addVersion_eq_ite, addVersion_eq_ite,
    show (s.refiled idx).nextVersion t level metadata = s.nextVersion t level metadata from rfl,
    show (s.refiled idx).nextId = s.nextId from rfl, hsorted, heq]
  split
  · refine ⟨rfl, ?_⟩
    have hput : ((s.entered (s.nextId + 1) (s.nextVersion t level metadata)).refiled idx').put
        (s.nextVersion t level metadata) =
          ((s.entered (s.nextId + 1) (s.nextVersion t level metadata)).put
            (s.nextVersion t level metadata)).refiled idx' := rfl
    rw [hput, touch_refiled]
    refine agrees_refiled fun k => ?_
    rw [byTriple_congr (ledger_touch t)]
    exact hidx' k
  · exact ⟨rfl, agrees_refiled hidx'⟩

theorem bucket_openVersions (key k : String) :
    (openVersions s key).byTriple.bucket k = s.byTriple.bucket k := by
  show Index.bucket (if s.byTriple.contains key then s.byTriple else s.byTriple.insert key []) k = _
  split
  · rfl
  · rename_i hkey
    rw [Index.bucket_insert]
    split
    · rename_i hk
      have hnone : s.byTriple.contains k = false := by
        rw [← hk]
        exact Bool.eq_false_iff.mpr hkey
      unfold Index.bucket
      exact (Std.TreeMap.getD_eq_fallback_of_contains_eq_false hnone).symm
    · rfl

theorem agrees_openVersions (key : String) : Agrees s (openVersions s key) :=
  agrees_refiled (bucket_openVersions key)

theorem bestFact_openVersions (key a r o : String) :
    (openVersions s key).bestFact a r (some o) = s.bestFact a r (some o) := by
  unfold bestFact
  dsimp only
  rw [bucket_openVersions]
  rfl

/-- A bucket that is looked at in vain holds ids, so it was there before. -/
theorem openVersions_of_fault {why : Fault}
    (h : s.bestFact t.subject t.relation (some t.object) = .error why) :
    openVersions s t.key = s := by
  have hkey : s.byTriple.contains t.key = true := by
    by_contra hnone
    have hempty : s.byTriple.bucket t.key = [] := by
      unfold Index.bucket
      exact Std.TreeMap.getD_eq_fallback_of_contains_eq_false (Bool.eq_false_iff.mpr hnone)
    unfold bestFact at h
    dsimp only at h
    rw [hempty] at h
    cases h
  unfold openVersions
  rw [hkey]
  rfl

theorem traces_newVersion (hw : t.wellFormed = true) :
    Traces Agrees (Stepwise.newVersion t level metadata now) (openVersions s t.key)
      (s.addVersion t level metadata now) := by
  have hsame : ((openVersions s t.key).addVersion t level metadata now).2 =
        (s.addVersion t level metadata now).2 ∧
      Agrees (s.addVersion t level metadata now).1
        ((openVersions s t.key).addVersion t level metadata now).1 :=
    addVersion_refiled (bucket_openVersions t.key)
  obtain ⟨hanswer, hleft⟩ := hsame
  have heq : Stepwise.newVersion t level metadata now (openVersions s t.key) = _ := newVersion_eq hw
  split at heq
  -- the steps start from a store with an empty bucket at most, which makes no difference
  · rename_i u i hu
    rw [hu] at hanswer hleft
    rw [← Prod.eta (s.addVersion t level metadata now), ← hanswer]
    exact traces_of_ok heq hleft
  · rename_i u why hu
    rw [hu] at hanswer hleft
    rw [← Prod.eta (s.addVersion t level metadata now), ← hanswer]
    exact traces_of_error heq hleft

theorem add_eq (s : Store) (t : Triple) (level : Existence) (metadata : Value) (now : Millis) :
    Stepwise.add t level metadata now s =
      match assertionFault? t level metadata with
      | some why => .error (.input why) s
      | none =>
        match s.bestFact t.subject t.relation (some t.object) with
        | .error why => .error why s
        | .ok (some f) =>
          if level ≤ f.existence then .ok f.id (openVersions s t.key)
          else Stepwise.newVersion t level metadata now (openVersions s t.key)
        | .ok none => Stepwise.newVersion t level metadata now (openVersions s t.key) := by
  unfold Stepwise.add
  cases assertionFault? t level metadata with
  | some why => rfl
  | none =>
    have hopen : (modify (openVersions · t.key) : Steps Store Unit) s =
        .ok () (openVersions s t.key) := rfl
    dsimp only
    rw [bind_of_ok hopen]
    have hsame := bestFact_openVersions (s := s) t.key t.subject t.relation t.object
    cases hbest : s.bestFact t.subject t.relation (some t.object) with
    | error why =>
      have hlook : ask (fun s => s.bestFact t.subject t.relation (some t.object))
          (openVersions s t.key) = .error why (openVersions s t.key) :=
        ask_of_error (hsame.trans hbest)
      rw [openVersions_of_fault hbest] at hlook ⊢
      exact bind_of_error hlook
    | ok b =>
      have hlook : ask (fun s => s.bestFact t.subject t.relation (some t.object))
          (openVersions s t.key) = .ok b (openVersions s t.key) := ask_of_ok (hsame.trans hbest)
      rw [bind_of_ok hlook]
      cases b with
      | none => rfl
      | some f =>
        dsimp only
        split <;> rfl

theorem traces_add (s : Store) (t : Triple) (level : Existence) (metadata : Value)
    (now : Millis) :
    Traces Agrees (Stepwise.add t level metadata now) s (s.add t level metadata now) := by
  have heq := add_eq s t level metadata now
  have hagrees := agrees_openVersions (s := s) t.key
  unfold Store.add
  cases hvalid : assertionFault? t level metadata with
  | some why =>
    rw [hvalid] at heq
    exact traces_of_error heq (.refl s)
  | none =>
    have hw : t.wellFormed = true := (storable_of_assertionFault? hvalid 0).wellFormed
    rw [hvalid] at heq
    cases hbest : s.bestFact t.subject t.relation (some t.object) with
    | error why =>
      rw [hbest] at heq
      exact traces_of_error heq (.refl s)
    | ok b =>
      rw [hbest] at heq
      cases b with
      | none => exact (traces_newVersion hw).of_eq heq
      | some f =>
        dsimp only at heq ⊢
        by_cases hle : level ≤ f.existence
        · rw [if_pos hle] at heq ⊢
          exact traces_of_ok heq hagrees
        · rw [if_neg hle] at heq ⊢
          exact (traces_newVersion hw).of_eq heq

/-- A sort that breaks off has left its trace: the counter has moved on. -/
theorem newVersion_broken {u : Store} {why : Fault} (hw : t.wellFormed = true)
    (h : Stepwise.newVersion t level metadata now s = .error why u) :
    why = .outOfRange ∧ u.nextId = s.nextId + 1 := by
  rw [newVersion_eq hw] at h
  split at h
  · cases h
  · rename_i u' why' hu
    cases h
    refine ⟨?_, ?_⟩
    · rw [addVersion_eq_ite] at hu
      split at hu
      · cases hu
      · cases hu
        rfl
    · rw [← nextId_addVersion t level metadata now, hu]

/-- An assertion that is refused has written nothing, or broke off on its way. -/
theorem add_refused {why : Fault}
    (h : (Stepwise.add t level metadata now).answer s = .error why) :
    (Stepwise.add t level metadata now).left s = s ∨
      why = .outOfRange ∧ ((Stepwise.add t level metadata now).left s).nextId = s.nextId + 1 := by
  have heq := eq_error_of_answer h
  generalize (Stepwise.add t level metadata now).left s = u at heq ⊢
  rw [add_eq] at heq
  cases hvalid : assertionFault? t level metadata with
  | some why' =>
    rw [hvalid] at heq
    cases heq
    exact .inl rfl
  | none =>
    have hw : t.wellFormed = true := (storable_of_assertionFault? hvalid 0).wellFormed
    rw [hvalid] at heq
    dsimp only at heq
    split at heq
    · cases heq
      exact .inl rfl
    · split at heq
      · cases heq
      · exact .inr (newVersion_broken (s := openVersions s t.key) hw heq)
    · exact .inr (newVersion_broken (s := openVersions s t.key) hw heq)

/-- Where the indexes file the facts, no sort breaks off. -/
theorem Indexed.sortedWith {r : FactId → FactId → Prop} (h : Indexed r s) (f : Fact) :
    (s.sortedWith f).2 = true := by
  have hknown : (s.byTriple.bucket f.triple.key ++ [f.id]).all
      (Versions.known (s.levelOf? (some f))) = true := by
    rw [List.all_eq_true]
    intro i hi
    show ((s.levelOf? (some f)) i).isSome = true
    unfold levelOf?
    dsimp only
    split
    · rfl
    · rename_i hne
      rcases List.mem_append.mp hi with hi | hi
      · obtain ⟨g, hg, -⟩ := (h.byTriple.mem_iff _ _).mp hi
        rw [hg]
        rfl
      · exact absurd (List.mem_singleton.mp hi).symm hne
  unfold Store.sortedWith Versions.sort
  rw [hknown, Bool.or_true, if_pos rfl]

/-- There an assertion is refused before anything is written. -/
theorem Indexed.allOrNothing_add {r : FactId → FactId → Prop} (h : Indexed r s) (t : Triple)
    (level : Existence) (metadata : Value) (now : Millis) :
    (Stepwise.add t level metadata now).AllOrNothing s := by
  intro why hwhy
  cases hvalid : assertionFault? t level metadata with
  | some why' =>
    have heq := add_eq s t level metadata now
    rw [hvalid] at heq
    exact allOrNothing_of_error heq why hwhy
  | none =>
    -- an assertion that is well formed is answered
    rw [(traces_add s t level metadata now).answer] at hwhy
    rcases h.add_cases hvalid now with ⟨f, -, -, -, -, hadd⟩ | ⟨-, hadd⟩
    · rw [hadd] at hwhy
      cases hwhy
    · rw [hadd, addVersion_eq_ite, if_pos (h.sortedWith _)] at hwhy
      cases hwhy

/-- An assertion above the first of the versions calls for a new one. -/
theorem add_of_above (hvalid : assertionFault? t level metadata = none) {is : List FactId}
    (hbucket : s.byTriple.bucket t.key = i :: is) (hf : s.fact? i = some f)
    (hlt : f.existence < level) :
    s.add t level metadata now = s.addVersion t level metadata now := by
  have hbest : s.bestFact t.subject t.relation (some t.object) = .ok (some f) := by
    unfold bestFact
    dsimp only
    rw [hbucket]
    dsimp only
    rw [hf]
  unfold Store.add
  rw [hvalid, hbest]
  dsimp only
  rw [if_neg (not_le.mpr hlt)]

/-- It breaks off if another version has lost its fact: the id is taken, and the indexes hold it. -/
theorem add_breaksOff (hvalid : assertionFault? t level metadata = none) {is : List FactId}
    (hbucket : s.byTriple.bucket t.key = i :: is) (hf : s.fact? i = some f)
    (hlt : f.existence < level) {j : FactId} (hj : j ∈ is) (hne : j ≠ s.nextId)
    (hgone : s.fact? j = none) :
    s.add t level metadata now =
      (s.entered (s.nextId + 1) (s.nextVersion t level metadata), .error .outOfRange) := by
  have hbroken : ¬ (s.sortedWith (s.nextVersion t level metadata)).2 = true := by
    have hlevel : s.levelOf? (some (s.nextVersion t level metadata)) j = none := by
      unfold levelOf?
      dsimp only
      rw [if_neg (show (s.nextVersion t level metadata).id ≠ j from Ne.symm hne), hgone]
      rfl
    have hall : (i :: is ++ [s.nextId]).all
        (Versions.known (s.levelOf? (some (s.nextVersion t level metadata)))) = false := by
      rw [List.all_eq_false]
      refine ⟨j, List.mem_append_left _ (List.mem_cons_of_mem _ hj), ?_⟩
      unfold Versions.known
      rw [hlevel]
      decide
    unfold Store.sortedWith Versions.sort
    rw [show (s.nextVersion t level metadata).triple = t from rfl, hbucket,
      show (s.nextVersion t level metadata).id = s.nextId from rfl, hall]
    simp
  rw [add_of_above hvalid hbucket hf hlt, addVersion_eq_ite, if_neg hbroken]

/-! ### The versions of one triple -/

theorem bucket_addVersion :
    (s.addVersion t level metadata now).1.byTriple.bucket t.key =
      (s.sortedWith (s.nextVersion t level metadata)).1 := by
  have hsorted : (s.entered (s.nextId + 1) (s.nextVersion t level metadata)).byTriple.bucket t.key =
      (s.sortedWith (s.nextVersion t level metadata)).1 :=
    (Index.bucket_insert _ _ _ _).trans (if_pos rfl)
  rw [addVersion_eq_ite]
  split
  · dsimp only
    rw [byTriple_congr (ledger_touch t)]
    exact hsorted
  · exact hsorted

/-- The versions of a fact that rises are sorted by the new levels. -/
theorem bucket_upgrade (hf : s.fact? i = some f) (hin : Existence.inRange level = true)
    (hlt : f.existence < level) :
    (s.upgrade i level).1.byTriple.bucket f.triple.key =
      (Versions.sort ((s.upgrade i level).1.levelOf? none) (s.byTriple.bucket f.triple.key)).1 := by
  have hup : (Existence.inRange level && decide (f.existence < level)) = true := by
    rw [hin, decide_eq_true hlt]
    rfl
  unfold Store.upgrade
  rw [hf]
  dsimp only
  rw [if_pos hup]
  exact (Index.bucket_insert _ _ _ _).trans (if_pos rfl)

theorem bucket_remove {k : String} (hf : s.fact? i = some f) (hk : f.triple.key ≠ k) :
    (s.remove i).1.byTriple.bucket k = s.byTriple.bucket k := by
  unfold Store.remove
  rw [hf]
  exact (Index.bucket_drop _ _ _ _).trans (if_neg hk)

/-! ### After the counter has passed zero -/

/-- The triple whose versions go astray. -/
def strayTriple : Triple := ⟨"x", "p", "y"⟩

/-- A store with one version of the triple, and a fact of low level under the last id, which is the
next to be given out. -/
def strayLoaded : Store :=
  loadedWith [⟨5, strayTriple, Existence.possible, .record []⟩, lastButOne,
    { last with existence := Existence.impossible }]

/-- A new version of the triple shares its id with the other fact. -/
def strayShared : Store := (strayLoaded.add strayTriple Existence.demonstrated (.record []) 6).1

/-- The first version rises above the other fact. -/
def strayRaised : Store := (strayShared.upgrade 5 100).1

/-- The other fact is removed, and the triple keeps its id among those of its versions. -/
def strayed : Store := (strayRaised.remove lastId).1

theorem strayLoaded_eq :
    strayLoaded = [⟨5, strayTriple, Existence.possible, .record []⟩, lastButOne,
      { last with existence := Existence.impossible }].foldl (·.load 5) { dimensions := 2 } :=
  loadedWith_eq _ rfl (by decide)

theorem reached_strayed : Reached (fun _ => True) strayed := by
  have hloaded : Reached (fun _ => True) strayLoaded := reached_loadedWith trivial
  have hshared : Reached (fun _ => True) strayShared := .step (.add ..) hloaded trivial
  have hraised : Reached (fun _ => True) strayRaised := .step (.upgrade ..) hshared trivial
  exact .step (.remove lastId) hraised trivial

/-- The new version is sorted in by its own level. -/
theorem bucket_strayShared : strayShared.byTriple.bucket strayTriple.key = [lastId, 5] := by
  have hbucket : strayLoaded.byTriple.bucket strayTriple.key = [5] := by
    rw [strayLoaded_eq]
    decide +kernel
  have hlow : (strayLoaded.fact? 5).map Fact.existence = some Existence.possible := by
    rw [strayLoaded_eq]
    decide +kernel
  obtain ⟨f, hf, hlevel⟩ := Option.map_eq_some_iff.mp hlow
  unfold strayShared
  rw [add_of_above rfl hbucket hf (by rw [hlevel]; decide), bucket_addVersion]
  unfold sortedWith
  rw [Versions.sort_eq_of_ranks [lastId, 5]]
  all_goals rw [strayLoaded_eq]; decide +kernel

theorem bucket_strayRaised : strayRaised.byTriple.bucket strayTriple.key = [5, lastId] := by
  have hlow : (strayShared.fact? 5).map (fun f => (f.triple, f.existence)) =
      some (strayTriple, Existence.possible) := by
    unfold strayShared
    rw [strayLoaded_eq]
    decide +kernel
  obtain ⟨f, hf, hlevel⟩ := Option.map_eq_some_iff.mp hlow
  obtain ⟨htriple, hlevel⟩ := Prod.mk.inj hlevel
  rw [← htriple]
  refine (bucket_upgrade hf rfl (by rw [hlevel]; decide)).trans ?_
  rw [htriple, bucket_strayShared]
  rw [Versions.sort_eq_of_ranks [5, lastId] ?_ (.swap _ _ _) (by decide)]
  all_goals
    unfold strayShared
    rw [strayLoaded_eq]
    decide +kernel

theorem bucket_strayed : strayed.byTriple.bucket strayTriple.key = [5, lastId] := by
  have hother : (strayRaised.fact? lastId).map Fact.triple = some last.triple := by
    unfold strayRaised strayShared
    rw [strayLoaded_eq]
    decide +kernel
  obtain ⟨f, hf, htriple⟩ := Option.map_eq_some_iff.mp hother
  exact (bucket_remove hf (by rw [htriple]; decide)).trans bucket_strayRaised

theorem nextId_strayed : strayed.nextId = 0 := by
  unfold strayed strayRaised strayShared
  rw [strayLoaded_eq]
  decide +kernel

/-- The triple is told once more, above its first version; the sort breaks off at the other id. -/
theorem add_strayed :
    strayed.add strayTriple Existence.certain (.record []) 9 =
      (strayed.entered (strayed.nextId + 1)
        (strayed.nextVersion strayTriple Existence.certain (.record [])), .error .outOfRange) := by
  have hlow : (strayed.fact? 5).map Fact.existence = some 100 ∧
      (strayed.fact? lastId).isNone = true := by
    unfold strayed strayRaised strayShared
    rw [strayLoaded_eq]
    decide +kernel
  obtain ⟨f, hf, hlevel⟩ := Option.map_eq_some_iff.mp hlow.1
  have hother : lastId ≠ strayed.nextId := by
    rw [nextId_strayed]
    decide
  exact add_breaksOff rfl bucket_strayed hf (by rw [hlevel]; decide) List.mem_cons_self hother
    (Option.isNone_iff_eq_none.mp hlow.2)

end Store

end KnowledgeBase
