import KnowledgeBase.Proofs.Store.Scan

/-!
# Forgetting takes what it reports

Concepts are dropped one after the other, each with the facts that name it, and every removal
changes the indexes from which the next concept's facts are read.

* `Fact.names`, `Fact.namesAny`: a fact has a concept, or one of several, for a term;
* `Indexed.naming_eq`: the facts of a concept are the scan for its label;
* `Indexed.dropped_drop`, `Indexed.dropped_dropAll`: what one concept takes with it, and what all of
  them do; a fact that two of them name goes with the first one, and is counted once;
* `select_sound`: only concepts and protected labels are selected, each once;
* `Forgotten.selected`, `forget_selects`: what is selected is reported, and what is removed is gone;
* `forget_exact`: the report of a request, and that of its dry run.
-/

namespace KnowledgeBase

/-- A term of the fact is this concept. -/
def Fact.names (f : Fact) (label : String) : Bool := f.subject == label || f.object == label

/-- A term of the fact is one of these concepts. -/
def Fact.namesAny (f : Fact) (labels : List String) : Bool := labels.any f.names

/-- What a dry run reports of labels that would be removed. -/
def Forgotten.foretold (done : Forgotten) : Forgotten :=
  { done with removed := [], wouldRemove := done.removed, factsRemoved := 0 }

/-- The labels that are reported: gone, about to go, or protected. -/
def Forgotten.selected (done : Forgotten) : List String :=
  done.removed ++ done.wouldRemove ++ done.protectedLabels

namespace Store

variable {s s' s'' : Store} {r : FactId → FactId → Prop} {f : Fact} {i : FactId} {l : String}
  {ls : List String} {now : Millis}

/-! ### Removals -/

/-- What is neither facts and indexes nor concepts. -/
structure Background where
  dimensions : Nat
  nextId : FactId
  relationUsage : Std.TreeMap String Usage
  protectedLabels : Std.TreeSet String

def background (s : Store) : Background :=
  ⟨s.dimensions, s.nextId, s.relationUsage, s.protectedLabels⟩

theorem fact?_remove_eq (i j : FactId) :
    (s.remove i).1.fact? j = if j = i then none else s.fact? j := by
  cases hf : s.fact? i with
  | some f => exact fact?_remove hf j
  | none =>
    have hself : (s.remove i).1 = s := by
      unfold remove
      rw [hf]
    rw [hself]
    split
    · rename_i hj
      rw [hj, hf]
    · rfl

theorem remove_frame (i : FactId) :
    (s.remove i).1.concepts = s.concepts ∧ (s.remove i).1.background = s.background := by
  unfold remove
  split <;> exact ⟨rfl, rfl⟩

theorem removeAll_frame (ids : List FactId) :
    (s.removeAll ids).concepts = s.concepts ∧ (s.removeAll ids).background = s.background := by
  induction ids generalizing s with
  | nil => exact ⟨rfl, rfl⟩
  | cons i ids ih =>
    obtain ⟨hconcepts, hbackground⟩ := ih (s := (s.remove i).1)
    obtain ⟨hc, hb⟩ := remove_frame (s := s) i
    exact ⟨hconcepts.trans hc, hbackground.trans hb⟩

theorem concept?_drop (l k : String) :
    (s.drop l).1.concept? k = if k = l then none else s.concept? k := by
  obtain ⟨hconcepts, -⟩ := removeAll_frame (s := s) (s.naming l)
  show ((s.removeAll (s.naming l)).concepts.erase l)[k]? = _
  rw [Std.TreeMap.getElem?_erase, hconcepts]
  simp only [Std.compare_eq_iff_eq, @eq_comm _ k]
  rfl

theorem concept?_dropAll (ls : List String) (k : String) :
    (s.dropAll ls).1.concept? k = if k ∈ ls then none else s.concept? k := by
  induction ls generalizing s with
  | nil => simp [dropAll]
  | cons l ls ih =>
    show ((s.drop l).1.dropAll ls).1.concept? k = _
    rw [ih, concept?_drop]
    by_cases hl : k ∈ ls
    · simp [hl]
    · simp [hl]

theorem fact?_removeAll (ids : List FactId) (i : FactId) :
    (s.removeAll ids).fact? i = if i ∈ ids then none else s.fact? i := by
  induction ids generalizing s with
  | nil => simp [removeAll]
  | cons j ids ih =>
    show ((s.remove j).1.removeAll ids).fact? i = _
    rw [ih, fact?_remove_eq]
    by_cases hi : i ∈ ids
    · rw [if_pos hi, if_pos (List.mem_cons_of_mem _ hi)]
    · by_cases hij : i = j
      · rw [if_neg hi, if_pos hij, if_pos (hij ▸ List.mem_cons_self)]
      · rw [if_neg hi, if_neg hij, if_neg (by simp [hi, hij])]

theorem Indexed.removeAll (h : Indexed r s) (ids : List FactId) : Indexed r (s.removeAll ids) := by
  induction ids generalizing s with
  | nil => exact h
  | cons i ids ih => exact ih (h.remove i)

/-- Facts that pass a test are left, and stand in the same order. -/
theorem allFacts_of_fact? {p : Fact → Bool} (hown : ∀ {i f}, s.fact? i = some f → f.id = i)
    (h : ∀ i f, s'.fact? i = some f ↔ s.fact? i = some f ∧ p f = true) :
    s'.allFacts = s.allFacts.filter p := by
  refine eq_of_ascending (allFacts_ascending fun hf => hown ((h _ _).mp hf).1)
    ((allFacts_ascending hown).filter p) fun f => ?_
  simp only [List.mem_filter, mem_allFacts, h, exists_and_right]

/-! ### Dropping concepts -/

/-- Some concepts are gone, with the facts that name them and nothing else; so many facts went. -/
structure Dropped (s : Store) (ls : List String) (s' : Store) (n : Nat) : Prop where
  facts : ∀ i f, s'.fact? i = some f ↔ s.fact? i = some f ∧ (!f.namesAny ls) = true
  listed : s'.allFacts = s.allFacts.filter fun f => !f.namesAny ls
  counted : n + s'.allFacts.length = s.allFacts.length
  concepts : ∀ l, s'.concept? l = if l ∈ ls then none else s.concept? l
  background : s'.background = s.background

theorem Indexed.mem_naming (h : Indexed r s) :
    i ∈ s.naming l ↔ ∃ f, s.fact? i = some f ∧ f.names l = true := by
  unfold naming
  rw [Std.TreeSet.mem_toList, Std.TreeSet.mem_ofList, List.contains_iff_mem, List.mem_append,
    h.bySubject.mem_iff, h.byObject.mem_iff]
  simp only [Fact.names, Bool.or_eq_true, beq_iff_eq]
  grind

/-- The facts that name a concept are found by its label among the subjects and the objects. -/
theorem Indexed.naming_eq (h : Indexed r s) (l : String) :
    s.naming l = (s.scan (·.names l)).map Fact.id := by
  have hasc : (s.naming l).Pairwise fun a b => a < b := by
    unfold naming
    exact Std.TreeSet.ordered_toList.imp fun hlt => Std.compare_eq_lt.mp hlt
  refine eq_of_ascending hasc
    (List.pairwise_map.mpr ((allFacts_ascending h.own_id).filter _)) fun i => ?_
  rw [h.mem_naming, List.mem_map]
  constructor
  · rintro ⟨f, hf, hname⟩
    exact ⟨f, mem_scan.mpr ⟨⟨i, hf⟩, hname⟩, h.own_id hf⟩
  · rintro ⟨f, hf, rfl⟩
    obtain ⟨⟨i, hi⟩, hname⟩ := mem_scan.mp hf
    exact ⟨f, by rw [h.own_id hi]; exact hi, hname⟩

theorem Indexed.drop (h : Indexed r s) (l : String) : Indexed r (s.drop l).1 :=
  (h.removeAll (s.naming l)).congr rfl

/-- One concept takes the facts with it that name it. -/
theorem Indexed.dropped_drop (h : Indexed r s) (l : String) :
    Dropped s [l] (s.drop l).1 (s.drop l).2 := by
  have hfacts : ∀ i f, (s.drop l).1.fact? i = some f ↔
      s.fact? i = some f ∧ (!f.namesAny [l]) = true := by
    intro i f
    show (s.removeAll (s.naming l)).fact? i = some f ↔ _
    rw [fact?_removeAll]
    by_cases hi : i ∈ s.naming l
    · obtain ⟨g, hg, hname⟩ := h.mem_naming.mp hi
      rw [if_pos hi, hg]
      simp only [reduceCtorEq, false_iff, not_and]
      rintro ⟨⟩
      simpa [Fact.namesAny] using hname
    · rw [if_neg hi]
      refine ⟨fun hf => ⟨hf, ?_⟩, And.left⟩
      have hname := fun hname => hi (h.mem_naming.mpr ⟨f, hf, hname⟩)
      simpa [Fact.namesAny] using hname
  have hlisted := allFacts_of_fact? h.own_id hfacts
  obtain ⟨-, hbackground⟩ := removeAll_frame (s := s) (s.naming l)
  refine ⟨hfacts, hlisted, ?_, fun k => ?_, hbackground⟩
  · show (s.naming l).length + _ = _
    have hsplit := s.allFacts.length_eq_length_filter_add (·.names l)
    simp only [hlisted, h.naming_eq, List.length_map, scan, Fact.namesAny, List.any_cons,
      List.any_nil, Bool.or_false]
    exact hsplit.symm
  · rw [concept?_drop]
    simp only [List.mem_singleton]

/-- More concepts go. -/
theorem Dropped.trans {ls' : List String} {n m : Nat} (h : Dropped s ls s' n)
    (h' : Dropped s' ls' s'' m) : Dropped s (ls ++ ls') s'' (n + m) := by
  have hboth : ∀ f : Fact, (!f.namesAny (ls ++ ls')) = (!f.namesAny ls' && !f.namesAny ls) := by
    intro f
    simp [Fact.namesAny, Bool.and_comm]
  refine ⟨fun i f => ?_, ?_, ?_, fun l => ?_, h'.background.trans h.background⟩
  · rw [h'.facts, h.facts, hboth, Bool.and_eq_true]
    tauto
  · rw [h'.listed, h.listed, List.filter_filter]
    simp only [hboth]
  · have h₁ := h.counted
    have h₂ := h'.counted
    omega
  · rw [h'.concepts, h.concepts]
    by_cases hl : l ∈ ls
    · simp [hl]
    · simp [hl]

/-- What all concepts take with them, one after the other. -/
theorem Indexed.dropped_dropAll (h : Indexed r s) (ls : List String) :
    Dropped s ls (s.dropAll ls).1 (s.dropAll ls).2 := by
  induction ls generalizing s with
  | nil => exact ⟨fun i f => by simp [dropAll, Fact.namesAny], by simp [dropAll, Fact.namesAny],
      by simp [dropAll], fun l => by simp [dropAll], rfl⟩
  | cons l ls ih => exact (h.dropped_drop l).trans (ih (h.drop l))

/-! ### Requests -/

variable {q : ForgetRequest}

theorem mem_conceptLabels : l ∈ s.conceptLabels ↔ s.hasConcept l = true := by
  unfold conceptLabels hasConcept
  rw [Std.TreeMap.mem_keys, Std.TreeMap.contains_iff_mem]

/-- However labels are selected, each is selected once, and is protected or has a concept. -/
theorem select_sound (h : s.select q now = .ok ls) :
    ls.Nodup ∧ ∀ l ∈ ls, s.isProtected l = true ∨ s.hasConcept l = true := by
  have hkeys : s.conceptLabels.Nodup := Std.TreeMap.nodup_keys
  unfold select at h
  split at h
  · cases h
    split
    · rename_i hl
      exact ⟨List.nodup_singleton _, by simpa using hl⟩
    · exact ⟨List.nodup_nil, by simp⟩
  · cases h
    refine ⟨hkeys.filter _, fun l hl => .inr (mem_conceptLabels.mp (List.mem_of_mem_filter hl))⟩
  · split at h
    · cases h
      exact ⟨List.nodup_nil, by simp⟩
    · obtain ⟨age, -, h⟩ := Outcome.bind_eq_ok.mp h
      cases h
      -- the labels are a part of all labels, in the same order
      have hsub : ((s.concepts.toList.filter fun p => isStale q.threshold age now p.2.usage).map
          Prod.fst).Sublist s.conceptLabels := by
        rw [conceptLabels, ← Std.TreeMap.map_fst_toList_eq_keys]
        exact List.filter_sublist.map _
      exact ⟨hsub.nodup hkeys, fun l hl => .inr (mem_conceptLabels.mp (hsub.mem hl))⟩

/-- What was forgotten, and what is left. -/
structure Forgot (s s' : Store) (done : Forgotten) : Prop where
  named : ∀ l ∈ done.removed, s.hasConcept l = true ∧ s.isProtected l = false
  distinct : done.removed.Nodup
  spared : ∀ l ∈ done.protectedLabels, s.isProtected l = true
  dropped : Dropped s done.removed s' done.factsRemoved
  coherent : Coherent s'
  count : done.count = done.removed.length
  skipped : done.skipped = done.protectedLabels.length

/-- The report on labels that are selected. -/
def reportOn (s : Store) (ls : List String) : Forgotten :=
  { removed := ls.filter fun l => !s.isProtected l
    count := (ls.filter fun l => !s.isProtected l).length
    protectedLabels := ls.filter s.isProtected
    skipped := (ls.filter s.isProtected).length
    factsRemoved := (s.dropAll (ls.filter fun l => !s.isProtected l)).2 }

theorem forget_of_select (h : s.select q now = .ok ls) :
    s.forget q now = .ok (if q.dryRun then (s, (s.reportOn ls).foretold) else
      ((s.dropAll (s.reportOn ls).removed).1, s.reportOn ls)) := by
  have hpart : ls.partition s.isProtected =
      (ls.filter s.isProtected, ls.filter fun l => !s.isProtected l) :=
    List.partition_eq_filter_filter
  unfold forget
  rw [h]
  dsimp only [bind, Except.bind]
  rw [hpart]
  split <;> rfl

/-- Every label that is selected is reported, and the concepts of those that are removed are gone. -/
theorem forget_selects (h : s.select q now = .ok ls) :
    ∃ s' done, s.forget q now = .ok (s', done) ∧ (∀ l, l ∈ done.selected ↔ l ∈ ls) ∧
      ∀ l, s'.concept? l = if l ∈ done.removed then none else s.concept? l := by
  have hsplit (l : String) : l ∈ ls ↔
      l ∈ (s.reportOn ls).removed ∨ l ∈ (s.reportOn ls).protectedLabels := by
    unfold reportOn
    simp only [List.mem_filter]
    cases s.isProtected l <;> simp
  rw [forget_of_select h]
  split
  · refine ⟨s, _, rfl, fun l => ?_, fun l => by simp [Forgotten.foretold]⟩
    rw [hsplit]
    simp [Forgotten.selected, Forgotten.foretold]
  · refine ⟨_, _, rfl, fun l => ?_, concept?_dropAll _⟩
    rw [hsplit]
    simp [Forgotten.selected, reportOn]

theorem Coherent.forgot (h : Coherent s) (hnodup : ls.Nodup)
    (hsound : ∀ l ∈ ls, s.isProtected l = true ∨ s.hasConcept l = true) :
    Forgot s (s.dropAll (s.reportOn ls).removed).1 (s.reportOn ls) where
  named := fun l hl => by
    obtain ⟨hmem, hfree⟩ := List.mem_filter.mp hl
    have hfree : s.isProtected l = false := by simpa using hfree
    refine ⟨(hsound l hmem).resolve_left ?_, hfree⟩
    simp [hfree]
  distinct := hnodup.filter _
  spared := fun l hl => (List.mem_filter.mp hl).2
  dropped := h.indexed.dropped_dropAll _
  coherent := h.dropAll _
  count := rfl
  skipped := rfl

/-- **A request that is not refused takes exactly what it reports, and a dry run reports the same
and takes nothing.** -/
theorem forget_exact (hs : Reached Unwrapped s) (hq : (s.forget q now).isOk = true) :
    ∃ s' done, s.forget { q with dryRun := true } now = .ok (s, done.foretold) ∧
      s.forget { q with dryRun := false } now = .ok (s', done) ∧ Forgot s s' done := by
  cases hsel : s.select q now with
  | error why =>
    have hrefused : s.forget q now = .error why := by
      unfold forget
      rw [hsel]
      rfl
    rw [hrefused] at hq
    cases hq
  | ok ls =>
    obtain ⟨hnodup, hsound⟩ := select_sound hsel
    have hdry : s.select { q with dryRun := true } now = .ok ls := hsel
    have hreal : s.select { q with dryRun := false } now = .ok ls := hsel
    exact ⟨_, s.reportOn ls, forget_of_select hdry, forget_of_select hreal,
      (coherent_of_reached hs).forgot hnodup hsound⟩

/-- Two concepts are selected by a pattern, and share a fact; a third one is protected, and a fourth
one falls under no pattern. -/
def crowded : Store :=
  let s : Store := { dimensions := 2 }
  let s := s.after (.add ⟨"rex", "SEES", "rob"⟩ Existence.certain (.record []) 5)
  let s := s.after (.add ⟨"rob", "SEES", "tom"⟩ Existence.certain (.record []) 6)
  let s := s.after (.add ⟨"tom", "SEES", "ray"⟩ Existence.certain (.record []) 7)
  s.after (.protect "ray")

theorem forget_exact_crowded :
    let q : ForgetRequest := { pattern := some "r*" }
    Reached Unwrapped crowded ∧ (crowded.forget q 8).isOk = true ∧
      ∃ s' done, crowded.forget { q with dryRun := true } 8 = .ok (crowded, done.foretold) ∧
        crowded.forget { q with dryRun := false } 8 = .ok (s', done) ∧ Forgot crowded s' done ∧
        done.removed = ["rex", "rob"] ∧ done.factsRemoved = 2 := by
  intro q
  have hr : Reached Unwrapped crowded := by
    unfold crowded
    refine .step _ (.step _ (.step _ (.step _ (.make (n := 2) rfl) ?_) ?_) ?_) ?_
    all_goals decide +kernel
  have hq : (crowded.forget q 8).isOk = true := by decide +kernel
  obtain ⟨s', done, hdry, hreal, hforgot⟩ := forget_exact hr hq
  have hreport : ((crowded.forget { q with dryRun := false } 8).toOption.map fun p =>
      (p.2.removed, p.2.factsRemoved)) = some (["rex", "rob"], 2) := by decide +kernel
  rw [hreal] at hreport
  obtain ⟨hremoved, hcount⟩ := Prod.mk.inj (Option.some.inj hreport)
  exact ⟨hr, hq, s', done, hdry, hreal, hforgot, hremoved, hcount⟩

end Store

end KnowledgeBase
