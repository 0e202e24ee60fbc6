import KnowledgeBase.Proofs.Store.Keeping
import KnowledgeBase.Proofs.Store.Separation

/-!
# New facts and their ids

A new fact takes the id at which the counter stands.  The counter is a 64-bit word that snapshots
may set anywhere, and its step from the last id leads to zero.

* `StoredApart s a i`: an assertion is stored under the id `i`, which no fact had, and every other
  fact stays as it is;
* `WellKept.apart_iff_free`: a new version is stored apart if and only if it is answered and the
  counter stands at a free id;
* `Numbered s`: all facts but one under the last id lie below the counter.  `numbered_of_reached`
  finds every store numbered that is reached before the counter stands at zero, whatever ids
  snapshots brought;
* `free_restored_iff`: only a snapshot with both of the last two ids leaves the counter at an id
  that is taken;
* `storedApart_iff`: until the counter stands at zero, new versions are stored apart unless it
  stands at the last id and a fact has that id; `dropped_at_lastId` is such a case.
-/

namespace KnowledgeBase

/-- The last id; the one after it is zero. -/
def lastId : FactId := 0 - 1

theorem eq_lastId_iff {i : FactId} : i = lastId ↔ i + 1 = 0 := UInt64.eq_sub_iff_add_eq

theorem le_lastId (i : FactId) : i ≤ lastId := by
  rw [UInt64.le_iff_toNat_le, show lastId.toNat = 2 ^ 64 - 1 from rfl]
  have := i.toNat_lt
  omega

namespace Store

variable {s s' : Store} {a : Assertion} {f : Fact} {t : Triple} {level : Existence}
  {metadata : Value} {i : FactId} {now : Millis} {ok : Store → Prop}

/-- The version that is looked up under the triple stands for an assertion, if it is as high. -/
def Stands (s : Store) (a : Assertion) : Prop :=
  ∃ f, s.bestFact a.triple.subject a.triple.relation (some a.triple.object) = .ok (some f) ∧
    a.level ≤ f.existence

/-- An assertion is answered with an id that no fact had.  The new fact stands under it, beside all
facts that were there. -/
structure StoredApart (s : Store) (a : Assertion) (i : FactId) : Prop where
  answer : (s.tell a).2 = .ok i
  unused : ∀ f ∈ s.allFacts, f.id ≠ i
  stored : (s.tell a).1.fact? i = some ⟨i, a.triple, a.level, a.metadata⟩
  kept : ∀ f ∈ s.allFacts, (s.tell a).1.fact? f.id = some f
  count : (s.tell a).1.allFacts.length = s.allFacts.length + 1

/-! ### A new version -/

theorem length_allFacts : s.allFacts.length = s.facts.size := by
  rw [allFacts, values_eq_map_toList, List.length_map, Std.TreeMap.length_toList]

theorem not_stands_of_none
    (h : ((s.bestFact a.triple.subject a.triple.relation
      (some a.triple.object)).toOption.getD none).isSome = false) : ¬ s.Stands a := by
  rintro ⟨f, hf, -⟩
  rw [hf] at h
  cases h

/-- An assertion for which no version stands makes a new one, unless the look-up fails. -/
theorem tell_of_not_stands (ha : a.Valid) (hnew : ¬ s.Stands a) :
    (∃ why, (s.tell a).2 = .error why) ∨
      s.tell a = s.addVersion a.triple a.level a.metadata a.now := by
  unfold tell Store.add
  rw [show assertionFault? a.triple a.level a.metadata = none from ha]
  dsimp only
  split
  · rename_i why _
    exact .inl ⟨why, rfl⟩
  · rename_i f hbest
    rw [if_neg fun hle => hnew ⟨f, hbest, hle⟩]
    exact .inr rfl
  · exact .inr rfl

/-- Whatever happened to a store, a new version is stored apart exactly if it is answered and the
counter stands at a free id. -/
theorem WellKept.apart_iff_free (h : WellKept s) (ha : a.Valid) (hnew : ¬ s.Stands a) :
    (∃ i, s.StoredApart a i) ↔ (s.tell a).2.isOk = true ∧ s.fact? s.nextId = none := by
  -- what an answered assertion leaves behind
  have htell : (s.tell a).2.isOk = true → (s.tell a).2 = .ok s.nextId ∧
      (s.tell a).1.facts =
        s.facts.insertIfNew s.nextId (s.nextVersion a.triple a.level a.metadata) := by
    intro hok
    rcases tell_of_not_stands ha hnew with ⟨why, herr⟩ | heq
    · rw [herr] at hok
      cases hok
    · rw [heq] at hok ⊢
      rcases addVersion_cases s a.triple a.level a.metadata a.now with ⟨⟨why, herr⟩, -⟩ | hcase
      · rw [herr] at hok
        cases hok
      · exact hcase
  constructor
  · rintro ⟨i, hi⟩
    have hok : (s.tell a).2.isOk = true := by
      rw [hi.answer]
      rfl
    refine ⟨hok, ?_⟩
    by_contra htaken
    obtain ⟨f, hf⟩ := Option.ne_none_iff_exists'.mp htaken
    have hanswer := hi.answer
    rw [(htell hok).1] at hanswer
    cases hanswer
    exact hi.unused f (mem_allFacts.mpr ⟨_, hf⟩) (h.own_id hf)
  · rintro ⟨hok, hfree⟩
    obtain ⟨hanswer, hfacts⟩ := htell hok
    have hmem : s.nextId ∉ s.facts := by
      rw [Std.TreeMap.mem_iff_isSome_getElem?, show s.facts[s.nextId]? = none from hfree]
      simp
    have hlook : ∀ i, (s.tell a).1.fact? i =
        if s.nextId = i then some (s.nextVersion a.triple a.level a.metadata) else s.fact? i := by
      intro i
      unfold fact?
      rw [hfacts, Std.TreeMap.getElem?_insertIfNew]
      simp only [Std.compare_eq_iff_eq, hmem, not_false_eq_true, and_true]
    have hunused : ∀ f ∈ s.allFacts, f.id ≠ s.nextId := by
      intro f hf heq
      have hself := fact?_id h.own_id hf
      rw [heq, hfree] at hself
      cases hself
    refine ⟨s.nextId, hanswer, hunused, ?_, fun f hf => ?_, ?_⟩
    · rw [hlook, if_pos rfl]
      rfl
    · rw [hlook, if_neg (Ne.symm (hunused f hf))]
      exact fact?_id h.own_id hf
    · rw [length_allFacts, length_allFacts, hfacts, Std.TreeMap.size_insertIfNew, if_neg hmem]

/-! ### Stores whose counter has not run over -/

/-- The indexes file the facts, in whatever order of their ids, and all facts but one under the last
id lie below the counter. -/
structure Numbered (s : Store) : Prop where
  indexed : Indexed (fun _ _ => True) s
  below : ∀ {i f}, s.fact? i = some f → i < s.nextId ∨ i = lastId

theorem Numbered.congr (h : Numbered s) (he : s'.ledger = s.ledger) : Numbered s' := by
  refine ⟨h.indexed.congr he, fun {i f} hf => ?_⟩
  rw [fact?_congr he] at hf
  rw [nextId_congr he]
  exact h.below hf

/-- Only the last id can be taken while the counter stands at it. -/
theorem Numbered.taken (h : Numbered s) (hf : s.fact? s.nextId = some f) : s.nextId = lastId := by
  rcases h.below hf with hlt | hlast
  · exact absurd hlt (UInt64.lt_irrefl _)
  · exact hlast

/-- A fact comes in under a free id; the counter does not go back, and passes that id if it can. -/
theorem Numbered.receive {n : FactId} (h : Numbered s) (hf : s.fact? f.id = none)
    (hle : s.nextId ≤ n) (hlt : f.id < n ∨ f.id = lastId) : Numbered (s.receive n f) := by
  refine ⟨h.indexed.receive hf fun _ _ => trivial, fun {i g} hg => ?_⟩
  rw [fact?_receive n hf] at hg
  split at hg
  · rename_i hi
    rw [hi]
    exact hlt
  · exact (h.below hg).imp_left fun hlt => UInt64.lt_of_lt_of_le hlt hle

theorem Numbered.add (h : Numbered s) (hw : (s.add t level metadata now).1.nextId ≠ 0) :
    Numbered (s.add t level metadata now).1 := by
  cases hvalid : assertionFault? t level metadata with
  | some why =>
    unfold Store.add
    rw [hvalid]
    exact h
  | none =>
    rcases h.indexed.add_cases hvalid now with ⟨f, -, -, -, -, heq⟩ | ⟨-, heq⟩
    · rw [heq]
      exact h
    · rw [heq] at hw ⊢
      rw [nextId_addVersion] at hw
      have hlt : s.nextId < s.nextId + 1 := id_lt_succ hw
      have hfree : s.fact? s.nextId = none := by
        by_contra htaken
        obtain ⟨f, hf⟩ := Option.ne_none_iff_exists'.mp htaken
        exact hw (eq_lastId_iff.mp (h.taken hf))
      rw [h.indexed.addVersion_eq hfree]
      exact (h.receive (f := s.nextVersion t level metadata) hfree (UInt64.le_of_lt hlt)
        (.inl hlt)).congr (ledger_touch t)

theorem Numbered.upgrade (h : Numbered s) (i : FactId) (level : Existence) :
    Numbered (s.upgrade i level).1 := by
  obtain ⟨hnext, hfacts⟩ := upgrade_frame (s := s) i level
  refine ⟨h.indexed.upgrade i level, fun {j g} hg => ?_⟩
  have hj : (s.fact? j).isSome := by rw [← hfacts, hg, Option.isSome_some]
  obtain ⟨e, he⟩ := Option.isSome_iff_exists.mp hj
  rw [hnext]
  exact h.below he

theorem Numbered.remove (h : Numbered s) (i : FactId) : Numbered (s.remove i).1 := by
  refine ⟨h.indexed.remove i, fun {j g} hg => ?_⟩
  rw [nextId_remove]
  exact h.below (fact?_of_remove hg)

theorem Numbered.load (h : Numbered s) (hf : s.fact? f.id = none) : Numbered (s.load now f) := by
  obtain ⟨hle, hsucc⟩ := le_max_id s.nextId (f.id + 1)
  refine (h.receive hf hle ?_).congr (ledger_load f)
  by_cases hlast : f.id + 1 = 0
  · exact .inr (eq_lastId_iff.mpr hlast)
  · exact .inl (UInt64.lt_of_lt_of_le (id_lt_succ hlast) hsucc)

/-- Facts under different ids are loaded in turn. -/
theorem numbered_foldl_load {fs : List Fact} (h : Numbered s)
    (hasc : fs.Pairwise fun a b => a.id < b.id) (hnew : ∀ f ∈ fs, s.fact? f.id = none) :
    Numbered (fs.foldl (·.load now) s) := by
  induction fs generalizing s with
  | nil => exact h
  | cons f fs ih =>
    rw [List.pairwise_cons] at hasc
    have hf := hnew f List.mem_cons_self
    refine ih (h.load hf) hasc.2 fun g hg => ?_
    rw [fact?_load hf, if_neg]
    · exact hnew g (List.mem_cons_of_mem _ hg)
    · exact fun heq => UInt64.lt_irrefl _ (heq ▸ hasc.1 g hg)

theorem numbered_of_empty (he : s.ledger = ⟨s.nextId, ∅, ∅, ∅, ∅, ∅⟩) : Numbered s := by
  refine ⟨indexed_of_empty he, fun {i f} hf => ?_⟩
  rw [fact?_of_empty he] at hf
  cases hf

theorem numbered_restore {snapshot : Value} (h : s.restore snapshot now = .ok s') :
    Numbered s' := by
  obtain ⟨fs, hfs, rfl⟩ := restore_eq_ok h
  exact numbered_foldl_load (numbered_of_empty rfl) (ascending_pairwise (Snapshot.read_nodup hfs))
    fun f _ => fact?_bare f.id

theorem Numbered.after (h : Numbered s) (hc : Changes s s') (hw : s'.nextId ≠ 0) :
    Numbered s' := by
  cases hc with
  | nothing he => exact h.congr he
  | added t level metadata now => exact h.add hw
  | upgraded id level => exact h.upgrade id level
  | removed id => exact h.remove id
  | dropped labels =>
    exact dropAll_induction (fun _ _ he h => h.congr he) (fun _ i h => h.remove i) h labels
  | restored hs => exact numbered_restore hs

/-- **Stores are numbered as long as the counter has not stood at zero**, whatever ids snapshots
brought. -/
theorem numbered_of_reached (h : Reached ok s) (hok : ∀ s, ok s → s.nextId ≠ 0) :
    Numbered s := by
  induction h with
  | make hs =>
    unfold Store.make at hs
    split at hs
    · cases hs
    · cases hs
      exact numbered_of_empty rfl
  | step c _ hw ih => exact ih.after (changes_after _ c) (hok _ hw)

/-! ### After a snapshot -/

/-- The counter stands behind the highest id that was loaded, the last id apart. -/
theorem nextId_foldl_load (s : Store) (now : Millis) (fs : List Fact) :
    (∀ f ∈ fs, f.id + 1 ≤ (fs.foldl (·.load now) s).nextId) ∧
      s.nextId ≤ (fs.foldl (·.load now) s).nextId ∧
      ((fs.foldl (·.load now) s).nextId = s.nextId ∨
        ∃ f ∈ fs, (fs.foldl (·.load now) s).nextId = f.id + 1) := by
  induction fs generalizing s with
  | nil => exact ⟨by simp, UInt64.le_refl _, .inl rfl⟩
  | cons f fs ih =>
    have hload : (s.load now f).nextId = max s.nextId (f.id + 1) :=
      nextId_congr (ledger_load f)
    obtain ⟨hle, hsucc⟩ := le_max_id s.nextId (f.id + 1)
    rw [← hload] at hle hsucc
    obtain ⟨hall, hnext, hcase⟩ := ih (s.load now f)
    refine ⟨fun g hg => ?_, UInt64.le_trans hle hnext, ?_⟩
    · rcases List.mem_cons.mp hg with rfl | hg
      · exact UInt64.le_trans hsucc hnext
      · exact hall g hg
    · rcases hcase with heq | ⟨g, hg, heq⟩
      · rcases max_id_cases s.nextId (f.id + 1) with hmax | hmax
        · exact .inl (heq.trans (hload.trans hmax))
        · exact .inr ⟨f, List.mem_cons_self, heq.trans (hload.trans hmax)⟩
      · exact .inr ⟨g, List.mem_cons_of_mem _ hg, heq⟩

/-- **After a snapshot the counter stands at a free id, unless both of the last two ids are
taken.** -/
theorem free_restored_iff {snapshot : Value} (h : s.restore snapshot now = .ok s') :
    s'.fact? s'.nextId = none ↔
      ¬ ((s'.fact? lastId).isSome ∧ (s'.fact? (lastId - 1)).isSome) := by
  have hnumbered := numbered_restore h
  obtain ⟨fs, hfs, rfl⟩ := restore_eq_ok h
  have hasc := ascending_pairwise (Snapshot.read_nodup hfs)
  obtain ⟨hall, -, hcase⟩ := nextId_foldl_load s.bare now (ascending fs)
  constructor
  · rintro hfree ⟨hlast, hprev⟩
    obtain ⟨f, hf⟩ := Option.isSome_iff_exists.mp hprev
    have hid := hnumbered.indexed.own_id hf
    have hmem : f ∈ ascending fs := by
      rcases fact?_foldl_load_cases hf with hbare | ⟨-, hmem⟩
      · rw [fact?_bare] at hbare
        cases hbare
      · exact hmem
    have hle := hall f hmem
    rw [hid, UInt64.sub_add_cancel] at hle
    have hnext := UInt64.le_antisymm (le_lastId _) hle
    rw [hnext] at hfree
    rw [hfree] at hlast
    cases hlast
  · intro hnot
    by_contra htaken
    obtain ⟨g, hg⟩ := Option.ne_none_iff_exists'.mp htaken
    have hnext := hnumbered.taken hg
    refine hnot ⟨by rw [← hnext, hg, Option.isSome_some], ?_⟩
    rcases hcase with hone | ⟨f, hf, heq⟩
    · have hlast : lastId = 1 := hnext.symm.trans hone
      exact absurd hlast (by decide)
    · have hid : f.id = lastId - 1 := by
        rw [UInt64.eq_sub_iff_add_eq, ← heq, hnext]
      rw [← hid, fact?_foldl_load hasc (fun g _ => fact?_bare g.id) (.inl hf), Option.isSome_some]

/-! ### New versions are stored apart -/

/-- **A new version is stored apart exactly if it is answered and the counter stands at a free
id; and as long as the counter has not stood at zero that is so, and look-ups find the new fact,
unless it stands at the last id and a fact has that.** -/
theorem storedApart_iff (hs : Reached ok s) (ha : a.Valid) (hnew : ¬ s.Stands a) :
    ((∃ i, s.StoredApart a i) ↔ (s.tell a).2.isOk = true ∧ s.fact? s.nextId = none) ∧
      ((∀ s, ok s → s.nextId ≠ 0) →
        ((∃ i, s.StoredApart a i ∧
            (s.tell a).1.bestFact a.triple.subject a.triple.relation (some a.triple.object) =
              .ok (some ⟨i, a.triple, a.level, a.metadata⟩)) ↔
          ¬ (s.nextId = lastId ∧ (s.fact? lastId).isSome))) := by
  have hiff := (wellKept_of_reached hs).apart_iff_free ha hnew
  refine ⟨hiff, fun hok => ?_⟩
  have hnumbered := numbered_of_reached hs hok
  constructor
  · rintro ⟨i, hi, -⟩ ⟨hlast, htaken⟩
    have hfree := (hiff.mp ⟨i, hi⟩).2
    rw [← hlast, hfree] at htaken
    cases htaken
  · intro hnot
    have hfree : s.fact? s.nextId = none := by
      by_contra htaken
      obtain ⟨f, hf⟩ := Option.ne_none_iff_exists'.mp htaken
      have hlast := hnumbered.taken hf
      exact hnot ⟨hlast, by rw [← hlast, hf, Option.isSome_some]⟩
    rcases hnumbered.indexed.add_cases ha a.now with ⟨f, -, -, hbest, hle, -⟩ | ⟨habove, heq⟩
    · exact absurd ⟨f, hbest, hle⟩ hnew
    · have htell : s.tell a = _ := heq.trans (hnumbered.indexed.addVersion_eq hfree _ _ _)
      obtain ⟨i, hi⟩ := hiff.mpr ⟨by rw [htell]; rfl, hfree⟩
      refine ⟨i, hi, ?_⟩
      have hid := hi.answer
      rw [htell] at hid ⊢
      cases hid
      exact hnumbered.indexed.bestFact_newVersion hfree a.now (fun _ _ => trivial) habove

/-- A store that is loaded with some facts. -/
def loadedWith (fs : List Fact) : Store :=
  ({ dimensions := 2 } : Store).after (.restore (.list (fs.map Snapshot.ofFact)) 5)

theorem loadedWith_eq (fs : List Fact)
    (hread : Snapshot.read (.list (fs.map Snapshot.ofFact)) = .ok fs)
    (hasc : fs.Pairwise fun a b => a.id < b.id) :
    loadedWith fs = fs.foldl (·.load 5) ({ dimensions := 2 } : Store) := by
  have hrestore : Store.restore { dimensions := 2 } (.list (fs.map Snapshot.ofFact)) 5 = _ :=
    restore_of_read hread hasc
  unfold loadedWith after
  dsimp only
  rw [hrestore]
  rfl

theorem reached_loadedWith {fs : List Fact} (h : ok (loadedWith fs)) : Reached ok (loadedWith fs) :=
  .step (.restore (.list (fs.map Snapshot.ofFact)) 5) (.make (n := 2) rfl) h

/-- The fact before the last. -/
def lastButOne : Fact := ⟨lastId - 1, ⟨"e", "q", "f"⟩, Existence.certain, .record []⟩

/-- The last fact. -/
def last : Fact := ⟨lastId, ⟨"c", "q", "d"⟩, Existence.certain, .record []⟩

/-- The last id is given out once. -/
theorem storedApart_iff_lastButOne :
    let s := loadedWith [lastButOne]
    let a : Assertion := { triple := ⟨"Rex", "IS_A", "Dog"⟩ }
    Reached (fun s => s.nextId ≠ 0) s ∧ a.Valid ∧ ¬ s.Stands a ∧ s.nextId = lastId ∧
      ∃ i, s.StoredApart a i ∧ (s.tell a).1.bestFact "Rex" "IS_A" (some "Dog") =
        .ok (some ⟨i, a.triple, a.level, a.metadata⟩) := by
  intro s a
  have heq : s = _ := loadedWith_eq [lastButOne] rfl (by decide)
  have hs : Reached (fun s => s.nextId ≠ 0) s := by
    refine reached_loadedWith ?_
    show s.nextId ≠ 0
    rw [heq]
    decide +kernel
  have ha : a.Valid := by decide +kernel
  have hnew : ¬ s.Stands a := by
    refine not_stands_of_none ?_
    rw [heq]
    decide +kernel
  have hnot : ¬ (s.nextId = lastId ∧ (s.fact? lastId).isSome) := by
    rw [heq]
    decide +kernel
  have hnext : s.nextId = lastId := by
    rw [heq]
    decide +kernel
  exact ⟨hs, ha, hnew, hnext, ((storedApart_iff hs ha hnew).2 fun _ h => h).mpr hnot⟩

/-- A new fact that is answered with the last id while another fact has it: it is not stored, and
its triple is looked up as the other fact. -/
theorem dropped_at_lastId :
    let s := loadedWith [lastButOne, last]
    let a : Assertion := { triple := ⟨"Rex", "IS_A", "Dog"⟩ }
    Reached (fun s => s.nextId ≠ 0) s ∧ a.Valid ∧ ¬ s.Stands a ∧
      ((s.tell a).2.toOption = some lastId) ∧ (s.tell a).1.allFacts.length = s.allFacts.length ∧
      (((s.tell a).1.bestFact "Rex" "IS_A" (some "Dog")).toOption.getD none).map Fact.triple =
        some last.triple ∧
      ¬ ∃ i, s.StoredApart a i := by
  intro s a
  have heq : s = _ := loadedWith_eq [lastButOne, last] rfl (by decide)
  have hs : Reached (fun s => s.nextId ≠ 0) s := by
    refine reached_loadedWith ?_
    show s.nextId ≠ 0
    rw [heq]
    decide +kernel
  have hnew : ¬ s.Stands a := by
    refine not_stands_of_none ?_
    rw [heq]
    decide +kernel
  have hcount : (s.tell a).1.allFacts.length = s.allFacts.length := by
    rw [heq]
    decide +kernel
  refine ⟨hs, by decide +kernel, hnew, ?_, hcount, ?_, ?_⟩
  · rw [heq]
    decide +kernel
  · rw [heq]
    decide +kernel
  · rintro ⟨i, hi⟩
    have hgrown := hi.count
    omega

end Store

end KnowledgeBase
