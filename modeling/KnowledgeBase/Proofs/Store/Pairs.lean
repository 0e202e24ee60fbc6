import KnowledgeBase.Proofs.Store.Integrity

/-!
# No fact is missed by subject and relation

Whatever happened to the id counter, every fact is filed under its subject and relation.  A look-up
of the two may break off or give facts that do not belong there, but it misses none.

* `Store.Paired`: the invariant, with one lemma for each thing that a command can do to it;
* `paired_of_reached`: every store that commands lead to has it;
* `Paired.mem_factsByPair`: what a look-up that is answered holds.
-/

namespace KnowledgeBase

namespace Store

variable {s s' : Store} {f : Fact} {t : Triple} {i : FactId} {level : Existence} {metadata : Value}
  {now : Millis} {ok : Store → Prop}

/-- Every fact is filed under its subject and relation. -/
def Paired (s : Store) : Prop := ∀ i f, s.fact? i = some f → i ∈ s.byPair.bucket (pairKeyOf f)

theorem byPair_congr (h : s'.ledger = s.ledger) : s'.byPair = s.byPair :=
  congrArg Ledger.byPair h

theorem Paired.congr (h : s.Paired) (he : s'.ledger = s.ledger) : s'.Paired := by
  intro i f hf
  rw [fact?_congr he] at hf
  rw [byPair_congr he]
  exact h i f hf

/-- Entering a fact only adds to the files. -/
theorem Paired.entered (h : s.Paired) (next : FactId) (f : Fact) : (s.entered next f).Paired :=
  fun i g hg => bucket_push_mono (h i g hg)

theorem mem_byPair_entered (s : Store) (next : FactId) (f : Fact) :
    f.id ∈ (s.entered next f).byPair.bucket (pairKeyOf f) :=
  mem_bucket_push _ _ _

/-- A fact that is filed may be stored; if its id is taken, nothing happens. -/
theorem Paired.put (h : s.Paired) (hf : f.id ∈ s.byPair.bucket (pairKeyOf f)) :
    (s.put f).Paired := by
  intro i g hg
  rcases fact?_put_cases hg with hold | ⟨rfl, rfl⟩
  · exact h i g hold
  · exact hf

theorem Paired.add (h : s.Paired) (t : Triple) (level : Existence) (metadata : Value)
    (now : Millis) : (s.add t level metadata now).1.Paired := by
  have hversion : (s.addVersion t level metadata now).1.Paired := by
    have hentered := h.entered (s.nextId + 1) (s.nextVersion t level metadata)
    rw [addVersion_eq_ite]
    split
    · exact (hentered.put (s.mem_byPair_entered _ _)).congr (ledger_touch t)
    · exact hentered
  unfold Store.add
  split
  · exact h
  · split
    · exact h
    · split
      · exact h
      · exact hversion
    · exact hversion

theorem Paired.load (h : s.Paired) (f : Fact) : (s.load now f).Paired := by
  have hsort := sortVersions_enter (s := s) (max s.nextId (f.id + 1)) f
  have hledger : (s.load now f).ledger =
      ((s.entered (max s.nextId (f.id + 1)) f).put f).ledger := by
    unfold Store.load
    dsimp only
    rw [hsort]
    exact ledger_put ((ledger_introduce f.object).trans (ledger_introduce f.subject))
  exact ((h.entered _ f).put (s.mem_byPair_entered _ f)).congr hledger

theorem Paired.restore {snapshot : Value} (hs : s.restore snapshot now = .ok s') : s'.Paired := by
  have hall : ∀ (fs : List Fact) (s : Store), s.Paired → (fs.foldl (·.load now) s).Paired := by
    intro fs
    induction fs with
    | nil => exact fun _ h => h
    | cons f fs ih => exact fun s h => ih _ (h.load f)
  obtain ⟨fs, -, rfl⟩ := restore_eq_ok hs
  refine hall _ _ fun i f hf => ?_
  rw [fact?_bare] at hf
  cases hf

/-- A fact that rises keeps its subject and relation. -/
theorem Paired.upgrade (h : s.Paired) (i : FactId) (level : Existence) :
    (s.upgrade i level).1.Paired := by
  unfold Store.upgrade
  split
  · exact h
  · rename_i f hf
    split
    · intro j g hg
      have hg : (s.replace i { f with existence := level }).fact? j = some g := hg
      rw [fact?_replace] at hg
      split at hg
      · rename_i hj
        cases hg
        exact hj ▸ h i f hf
      · exact h j g hg
    · exact h

/-- A fact that goes is taken out of its own file only. -/
theorem Paired.remove (h : s.Paired) (hk : WellKept s) (i : FactId) : (s.remove i).1.Paired := by
  cases hf : s.fact? i with
  | none =>
    unfold Store.remove
    rw [hf]
    exact h
  | some f =>
    intro j g hg
    have hfile : (s.remove i).1.byPair = s.byPair.drop (pairKeyOf f) f.id := by
      unfold Store.remove
      rw [hf]
      rfl
    rw [fact?_remove hf] at hg
    split at hg
    · cases hg
    · rename_i hne
      rw [hfile]
      exact mem_bucket_drop (h j g hg) (hk.own_id hf ▸ hne)

theorem Paired.dropAll (h : s.Paired) (hk : WellKept s) (labels : List String) :
    (s.dropAll labels).1.Paired :=
  (dropAll_induction (P := fun s => WellKept s ∧ s.Paired)
    (fun _ _ he h => ⟨h.1.ledger he, h.2.congr he⟩)
    (fun _ i h => ⟨h.1.remove i, h.2.remove h.1 i⟩) ⟨hk, h⟩ labels).2

/-- Every command keeps the invariant, wherever the id counter stands. -/
theorem Paired.after (h : s.Paired) (hk : WellKept s) (hc : Changes s s') : s'.Paired := by
  cases hc with
  | nothing he => exact h.congr he
  | added t level metadata now => exact h.add t level metadata now
  | upgraded id level => exact h.upgrade id level
  | removed id => exact h.remove hk id
  | dropped labels => exact h.dropAll hk labels
  | restored hs => exact Paired.restore hs

theorem paired_of_reached (h : Reached ok s) : s.Paired := by
  induction h with
  | make hs =>
    unfold Store.make at hs
    split at hs
    · cases hs
    · cases hs
      intro i f hf
      simp [fact?] at hf
  | step c hs _ ih => exact ih.after (wellKept_of_reached hs) (changes_after _ c)

/-- A look-up that is answered misses no fact. -/
theorem Paired.mem_factsByPair (h : s.Paired) {a r : String} {min : Existence} {fs : List Fact}
    (hfs : s.factsByPair a r (some min) = .ok fs) (hf : f ∈ s.allFacts) (ha : f.subject = a)
    (hr : f.relation = r) (hlevel : min ≤ f.existence) : f ∈ fs := by
  obtain ⟨gs, hgs, hfs⟩ := Outcome.bind_eq_ok.mp hfs
  cases hfs
  refine List.mem_filter.mpr ⟨?_, decide_eq_true hlevel⟩
  obtain ⟨i, hi⟩ := mem_allFacts.mp hf
  have hmem : i ∈ s.byPair.bucket (pairKey a r) := ha ▸ hr ▸ h i f hi
  obtain ⟨g, hg, hig⟩ := Outcome.exists_of_mapM hgs hmem
  rw [hi] at hig
  cases hig
  exact hg

end Store

end KnowledgeBase
