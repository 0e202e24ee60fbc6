import KnowledgeBase.Proofs.Store.Records
import KnowledgeBase.Proofs.Store.Run

/-!
# What a store keeps whatever happens

`Store.WellKept s`: every fact stands under its own id and has the form that an assertion is checked
for.  Unlike `Coherent` this survives a counter that wraps: an id that is taken keeps its fact.

* `WellKept.change`: all that matters is the form of the facts that come in;
* `wellKept_restore`: whatever a store is restored from, it is well kept afterwards;
* `wellKept_of_reached`: all stores that commands lead to are well kept.
-/

namespace KnowledgeBase

namespace Store

variable {s s' : Store} {f : Fact} {i : FactId} {now : Millis} {ok : Store → Prop}

/-! ### The invariant -/

/-- Every fact stands under its own id and keeps to what is asked of an asserted one. -/
structure WellKept (s : Store) : Prop where
  own_id : ∀ {i f}, s.fact? i = some f → f.id = i
  storable : ∀ {i f}, s.fact? i = some f → f.Storable

/-- A change that only brings in facts of the right form. -/
theorem WellKept.change (h : WellKept s)
    (hnew : ∀ {i f}, s'.fact? i = some f → s.fact? i = some f ∨ f.id = i ∧ f.Storable) :
    WellKept s' := by
  refine ⟨fun hf => ?_, fun hf => ?_⟩
  · rcases hnew hf with hold | ⟨hid, -⟩
    · exact h.own_id hold
    · exact hid
  · rcases hnew hf with hold | ⟨-, hform⟩
    · exact h.storable hold
    · exact hform

theorem WellKept.congr (h : WellKept s) (he : s'.fact? = s.fact?) : WellKept s' :=
  h.change fun hf => Or.inl (he ▸ hf)

theorem WellKept.ledger (h : WellKept s) (he : s'.ledger = s.ledger) : WellKept s' :=
  h.congr (funext (fact?_congr he))

/-- An id that is taken keeps its fact. -/
theorem fact?_put_cases {g : Fact} (h : (s.put f).fact? i = some g) :
    s.fact? i = some g ∨ f.id = i ∧ g = f := by
  unfold put fact? at h
  rw [Std.TreeMap.getElem?_insertIfNew] at h
  split at h
  · rename_i hi
    exact Or.inr ⟨Std.compare_eq_iff_eq.mp hi.1, (Option.some.inj h).symm⟩
  · exact Or.inl h

theorem WellKept.put (h : WellKept s) (hf : f.Storable) : WellKept (s.put f) := by
  refine h.change fun hg => ?_
  rcases fact?_put_cases hg with hold | ⟨hid, rfl⟩
  · exact Or.inl hold
  · exact Or.inr ⟨hid, hf⟩

/-- The form of a fact is checked before it is asserted. -/
theorem storable_of_assertionFault? {t : Triple} {level : Existence} {metadata : Value}
    (h : assertionFault? t level metadata = none) (id : FactId) :
    Fact.Storable ⟨id, t, level, metadata⟩ := by
  unfold assertionFault? at h
  split at h
  · cases h
  · split at h
    · cases h
    · split at h
      · cases h
      · rename_i hw hr hm
        exact ⟨by simpa using hw, by simpa using hr, by simpa using hm⟩

theorem WellKept.addVersion (h : WellKept s) {t : Triple} {level : Existence} {metadata : Value}
    (hf : Fact.Storable ⟨s.nextId, t, level, metadata⟩) :
    WellKept (s.addVersion t level metadata now).1 := by
  unfold Store.addVersion
  dsimp only
  split
  · rename_i sorted _ hs
    have hsorted : sorted.fact? = s.fact? := (congrArg (fun r => r.1.fact?) hs).symm
    exact ((h.congr hsorted).put hf).ledger (ledger_touch t)
  · rename_i left _ hs
    have hleft : left.fact? = s.fact? := (congrArg (fun r => r.1.fact?) hs).symm
    exact h.congr hleft

theorem WellKept.add (h : WellKept s) (t : Triple) (level : Existence) (metadata : Value) :
    WellKept (s.add t level metadata now).1 := by
  unfold Store.add
  split
  · exact h
  · rename_i hform
    have hf := storable_of_assertionFault? hform s.nextId
    split
    · exact h
    · split
      · exact h
      · exact h.addVersion hf
    · exact h.addVersion hf

theorem WellKept.upgrade (h : WellKept s) (i : FactId) (level : Existence) :
    WellKept (s.upgrade i level).1 := by
  unfold Store.upgrade
  split
  · exact h
  · rename_i f hf
    split
    · rename_i hlevel
      rw [Bool.and_eq_true] at hlevel
      have hid := h.own_id hf
      have hform := h.storable hf
      refine h.change fun {j g} hg => ?_
      have hg : (s.replace i { f with existence := level }).fact? j = some g := hg
      rw [fact?_replace] at hg
      split at hg
      · rename_i hj
        cases hg
        exact Or.inr ⟨hj ▸ hid, hform.wellFormed, hlevel.1, hform.isRecord⟩
      · exact Or.inl hg
    · exact h

theorem WellKept.remove (h : WellKept s) (i : FactId) : WellKept (s.remove i).1 := by
  cases hf : s.fact? i with
  | none =>
    unfold Store.remove
    rw [hf]
    exact h
  | some f =>
    refine h.change fun {j g} hg => ?_
    rw [fact?_remove hf] at hg
    split at hg
    · cases hg
    · exact Or.inl hg

theorem WellKept.dropAll (h : WellKept s) (labels : List String) :
    WellKept (s.dropAll labels).1 :=
  dropAll_induction (fun _ _ he h => h.ledger he) (fun _ i h => h.remove i) h labels

theorem wellKept_bare : WellKept s.bare := by
  refine ⟨fun hf => ?_, fun hf => ?_⟩
  all_goals
    rw [fact?_bare] at hf
    cases hf

theorem fact?_foldl_load_cases {fs : List Fact} {g : Fact}
    (h : (fs.foldl (·.load now) s).fact? i = some g) : s.fact? i = some g ∨ g.id = i ∧ g ∈ fs := by
  induction fs generalizing s with
  | nil => exact Or.inl h
  | cons f fs ih =>
    rcases ih h with hload | ⟨hid, hmem⟩
    · rw [fact?_congr (ledger_load f)] at hload
      rcases fact?_put_cases hload with hold | ⟨hid, rfl⟩
      · exact Or.inl hold
      · exact Or.inr ⟨hid, List.mem_cons_self⟩
    · exact Or.inr ⟨hid, List.mem_cons_of_mem _ hmem⟩

theorem wellKept_restore {snapshot : Value} (h : s.restore snapshot now = .ok s') :
    WellKept s' := by
  obtain ⟨fs, hfs, rfl⟩ := restore_eq_ok h
  refine (wellKept_bare (s := s)).change fun hg => ?_
  rcases fact?_foldl_load_cases hg with hbare | ⟨hid, hmem⟩
  · exact Or.inl hbare
  · exact Or.inr ⟨hid, Snapshot.storable_of_read hfs (List.mem_mergeSort.mp hmem)⟩

theorem WellKept.after (h : WellKept s) (hc : Changes s s') : WellKept s' := by
  cases hc with
  | nothing he => exact h.ledger he
  | added t level metadata now => exact h.add t level metadata
  | upgraded id level => exact h.upgrade id level
  | removed id => exact h.remove id
  | dropped labels => exact h.dropAll labels
  | restored hs => exact wellKept_restore hs

/-- Even a counter that wraps leaves every fact under its own id. -/
theorem wellKept_of_reached (h : Reached ok s) : WellKept s := by
  induction h with
  | make hs =>
    unfold Store.make at hs
    split at hs
    · cases hs
    · cases hs
      exact wellKept_bare (s := { dimensions := _ })
  | step c _ _ ih => exact ih.after (changes_after _ c)

end Store

end KnowledgeBase
