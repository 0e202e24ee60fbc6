import KnowledgeBase.Proofs.Store.Buckets
import KnowledgeBase.Store.Forget
import KnowledgeBase.Store.Snapshot

/-!
# Coherent stores

The invariant that ties the facts of a store to its four indexes.

* `Indexed r s`: facts stand under their own ids and every index files exactly the stored facts, in
  the order `r` of their ids or, for the versions of a triple, in order of rank;
* `Coherent s`: the order is the ascending one, and the next id lies above all facts;
* `Indexed.receive`: a fact comes in under a free id; asserting and loading are this step with
  different ids, and `Coherent.receive` is the case where the id lies above all others;
* `upgrade`, `remove`, `dropAll`: the other changes of the facts, for either invariant.

Everything else a store does leaves its `ledger`, the facts and indexes, as it is.
-/

namespace KnowledgeBase

/-- The part of a store that is made up of facts and indexes. -/
structure Ledger where
  nextId : FactId
  facts : Std.TreeMap FactId Fact
  bySubject : Index
  byPair : Index
  byObject : Index
  byTriple : Index

namespace Store

def ledger (s : Store) : Ledger :=
  ⟨s.nextId, s.facts, s.bySubject, s.byPair, s.byObject, s.byTriple⟩

/-- Under which key a fact stands in the index by subject and relation. -/
def pairKeyOf (f : Fact) : String := pairKey f.subject f.relation

/-- Under which key a fact stands among the versions of its triple. -/
def tripleKeyOf (f : Fact) : String := f.triple.key

/-- Facts stand under their own ids, and the indexes file them. -/
structure Indexed (r : FactId → FactId → Prop) (s : Store) : Prop where
  own_id : ∀ {i f}, s.fact? i = some f → f.id = i
  bySubject : Files s.fact? Fact.subject r s.bySubject
  byPair : Files s.fact? pairKeyOf r s.byPair
  byObject : Files s.fact? Fact.object r s.byObject
  byTriple : Files s.fact? tripleKeyOf (Versions.Ranks (s.levelOf? none)) s.byTriple

/-- The indexes agree with the facts. -/
structure Coherent (s : Store) : Prop where
  own_id : ∀ {i f}, s.fact? i = some f → f.id = i
  below : ∀ {i f}, s.fact? i = some f → i < s.nextId
  bySubject : Files s.fact? Fact.subject (· < ·) s.bySubject
  byPair : Files s.fact? pairKeyOf (· < ·) s.byPair
  byObject : Files s.fact? Fact.object (· < ·) s.byObject
  byTriple : Files s.fact? tripleKeyOf (Versions.Ranks (s.levelOf? none)) s.byTriple

variable {s s' : Store} {f : Fact} {i : FactId} {now : Millis} {r : FactId → FactId → Prop}

theorem Coherent.indexed (h : Coherent s) : Indexed (· < ·) s :=
  ⟨h.own_id, h.bySubject, h.byPair, h.byObject, h.byTriple⟩

theorem Indexed.coherent (h : Indexed (· < ·) s)
    (hbelow : ∀ {i f}, s.fact? i = some f → i < s.nextId) : Coherent s :=
  ⟨h.own_id, hbelow, h.bySubject, h.byPair, h.byObject, h.byTriple⟩

theorem Indexed.congr (h : Indexed r s) (he : s'.ledger = s.ledger) : Indexed r s' := by
  cases s
  cases s'
  simp only [ledger, Ledger.mk.injEq] at he
  obtain ⟨rfl, rfl, rfl, rfl, rfl, rfl⟩ := he
  exact ⟨h.own_id, h.bySubject, h.byPair, h.byObject, h.byTriple⟩

theorem Coherent.congr (h : Coherent s) (he : s'.ledger = s.ledger) : Coherent s' := by
  cases s
  cases s'
  simp only [ledger, Ledger.mk.injEq] at he
  obtain ⟨rfl, rfl, rfl, rfl, rfl, rfl⟩ := he
  exact ⟨h.own_id, h.below, h.bySubject, h.byPair, h.byObject, h.byTriple⟩

theorem fact?_of_empty (he : s.ledger = ⟨s.nextId, ∅, ∅, ∅, ∅, ∅⟩) : s.fact? = fun _ => none := by
  funext i
  simp [fact?, (Ledger.mk.inj he).2.1]

/-- A store without facts and indexes. -/
theorem indexed_of_empty (he : s.ledger = ⟨s.nextId, ∅, ∅, ∅, ∅, ∅⟩) : Indexed r s := by
  have hnone := fact?_of_empty he
  simp only [ledger, Ledger.mk.injEq] at he
  obtain ⟨-, -, h1, h2, h3, h4⟩ := he
  refine ⟨?_, ?_, ?_, ?_, ?_⟩
  · simp [hnone]
  · rw [hnone, h1]; exact Files.empty
  · rw [hnone, h2]; exact Files.empty
  · rw [hnone, h3]; exact Files.empty
  · rw [hnone, h4]; exact Files.empty

theorem coherent_of_empty (he : s.ledger = ⟨s.nextId, ∅, ∅, ∅, ∅, ∅⟩) : Coherent s :=
  (indexed_of_empty he).coherent (by simp [fact?_of_empty he])

/-! ### Facts come in -/

theorem fact?_put (hf : s.fact? f.id = none) (i : FactId) :
    (s.put f).fact? i = if i = f.id then some f else s.fact? i := by
  unfold fact? put at *
  rw [Std.TreeMap.getElem?_insertIfNew]
  have hmem : f.id ∉ s.facts := by
    rw [Std.TreeMap.mem_iff_isSome_getElem?, hf]
    simp
  simp only [Std.compare_eq_iff_eq, hmem, not_false_eq_true, and_true]
  by_cases hi : i = f.id
  · simp [hi]
  · simp [hi, Ne.symm hi]

/-- The levels that a sort sees while a fact is pending are those once it is stored. -/
theorem levelOf?_pending (hf : s.fact? f.id = none) :
    s.levelOf? (some f) = (s.put f).levelOf? none := by
  funext i
  unfold levelOf?
  rw [fact?_put hf]
  by_cases hi : i = f.id
  · simp [hi]
  · simp [hi, Ne.symm hi]

/-- The store in which a fact is entered, sorted in and stored. -/
def receive (s : Store) (next : FactId) (f : Fact) : Store :=
  ((({ s with nextId := next }).enter f).sortVersions f.triple.key (some f)).1.put f

@[simp] theorem fact?_sortVersions (key : String) (pending : Option Fact) :
    (s.sortVersions key pending).1.fact? = s.fact? := rfl

@[simp] theorem fact?_enter (next : FactId) :
    (({ s with nextId := next }).enter f).fact? = s.fact? := rfl

theorem fact?_receive (next : FactId) (hf : s.fact? f.id = none) (i : FactId) :
    (s.receive next f).fact? i = if i = f.id then some f else s.fact? i := by
  unfold receive
  rw [fact?_put (by simpa using hf)]
  simp

theorem fact?_eq_none_of_above (hnew : ∀ i, (s.fact? i).isSome → i < f.id) :
    s.fact? f.id = none := by
  by_contra hne
  exact UInt64.lt_irrefl _ (hnew f.id (Option.isSome_iff_ne_none.mpr hne))

section Receive

variable {n : FactId} (h : Indexed r s) (hf : s.fact? f.id = none)
include h hf

/-- The sort of the versions does not break off. -/
theorem Indexed.sort_receive :
    (({ s with nextId := n }).enter f).sortVersions f.triple.key (some f) =
      ({ ({ s with nextId := n }).enter f with
          byTriple := (({ s with nextId := n }).enter f).byTriple.insert f.triple.key
            (Versions.sorted ((s.receive n f).levelOf? none)
              (s.byTriple.bucket f.triple.key ++ [f.id])) }, .ok ()) := by
  have hlv : (({ s with nextId := n }).enter f).levelOf? (some f) =
      (s.receive n f).levelOf? none := by
    rw [levelOf?_pending (by simpa using hf)]
    funext i
    simp only [levelOf?, fact?_receive n hf]
    rw [fact?_put (by simpa using hf), fact?_enter]
  have hids : (({ s with nextId := n }).enter f).byTriple.bucket f.triple.key =
      s.byTriple.bucket f.triple.key ++ [f.id] := by
    show (s.byTriple.push f.triple.key f.id).bucket _ = _
    rw [Index.bucket_push, if_pos rfl]
  unfold sortVersions
  rw [hlv, hids, Versions.sort_known]
  · rfl
  · intro i hi
    obtain ⟨g, hg, -⟩ := (h.byTriple.mem_append hf (fact?_receive n hf) i).mp hi
    simp [levelOf?, hg]

/-- A fact under a free id comes in, which the order admits behind all others. -/
theorem Indexed.receive (hlast : ∀ i, (s.fact? i).isSome → r i f.id) :
    Indexed r (s.receive n f) := by
  have hl := fact?_receive n hf
  have hs := h.sort_receive hf (n := n)
  have htriple : (s.receive n f).byTriple =
      (s.byTriple.push f.triple.key f.id).insert f.triple.key
        (Versions.sorted ((s.receive n f).levelOf? none)
          (s.byTriple.bucket f.triple.key ++ [f.id])) := by
    conv_lhs => unfold Store.receive
    rw [hs]
    rfl
  have hbucket : ∀ k, (s.receive n f).byTriple.bucket k =
      if f.triple.key = k then
        Versions.sorted ((s.receive n f).levelOf? none) (s.byTriple.bucket f.triple.key ++ [f.id])
      else s.byTriple.bucket k := by
    intro k
    rw [htriple, Index.bucket_insert]
    split
    · rfl
    · rename_i hk
      rw [Index.bucket_push, if_neg hk]
  refine ⟨?_, ?_, ?_, ?_, ⟨fun k => ?_, fun k i => ?_⟩⟩
  · intro i g hg
    rw [hl] at hg
    split at hg
    · rename_i hi
      rw [← Option.some.inj hg, hi]
    · exact h.own_id hg
  · exact h.bySubject.push hf hl hlast
  · exact h.byPair.push hf hl hlast
  · exact h.byObject.push hf hl hlast
  · rw [hbucket]
    split
    · refine Versions.sorted_pairwise ?_
      rw [List.nodup_append]
      refine ⟨(h.byTriple.sorted _).imp fun {a b} hab => ?_, List.nodup_singleton _, ?_⟩
      · rintro rfl
        exact hab.irrefl
      · rintro a ha b hb rfl
        obtain ⟨g, hg, -⟩ := (h.byTriple.mem_iff _ _).mp ha
        rw [List.mem_singleton.mp hb, hf] at hg
        cases hg
    · rename_i hk
      -- the versions of other triples keep their levels
      have hsame : ∀ i ∈ s.byTriple.bucket k,
          s.levelOf? none i = (s.receive n f).levelOf? none i := by
        intro i hi
        obtain ⟨g, hg, rfl⟩ := (h.byTriple.mem_iff _ _).mp hi
        have hne : i ≠ f.id := by
          rintro rfl
          rw [hf] at hg
          cases hg
        simp [levelOf?, hl, hne]
      exact (h.byTriple.sorted k).imp_of_mem fun ha hb hab =>
        hab.congr (hsame _ ha) (hsame _ hb)
  · rw [hbucket]
    split
    · rename_i hk
      subst hk
      rw [Versions.mem_sorted]
      exact h.byTriple.mem_append hf hl i
    · rename_i hk
      exact h.byTriple.mem_other hf hl hk i

end Receive

/-- A fact whose id lies above all others, and below the next one, comes in. -/
theorem Coherent.receive {n : FactId} (h : Coherent s) (hnew : ∀ i, (s.fact? i).isSome → i < f.id)
    (hle : s.nextId ≤ n) (hlt : f.id < n) : Coherent (s.receive n f) := by
  have hf := fact?_eq_none_of_above hnew
  refine (h.indexed.receive hf hnew).coherent fun {i g} hg => ?_
  rw [fact?_receive n hf] at hg
  split at hg
  · rename_i hi
    rw [hi]
    exact hlt
  · exact UInt64.lt_of_lt_of_le (h.below hg) hle

/-! ### Levels rise -/

/-- The store in which another fact stands under an id. -/
def replace (s : Store) (i : FactId) (g : Fact) : Store :=
  { s with facts := s.facts.insert i g }

theorem fact?_replace (g : Fact) (i j : FactId) :
    (s.replace i g).fact? j = if j = i then some g else s.fact? j := by
  show (s.facts.insert i g)[j]? = _
  rw [Std.TreeMap.getElem?_insert]
  simp only [Std.compare_eq_iff_eq, @eq_comm _ j, fact?]

/-- A fact with the same terms and relation takes the place of another, and the versions of its
triple are sorted again. -/
theorem Indexed.replace (h : Indexed r s) (hf : s.fact? i = some f) {g : Fact}
    (hid : g.id = f.id) (ht : g.triple = f.triple) :
    ((s.replace i g).sortVersions f.triple.key none).2 = .ok () ∧
      Indexed r ((s.replace i g).sortVersions f.triple.key none).1 := by
  have hl := fact?_replace (s := s) g i
  have hkeep : ∀ key : Fact → String, key g = key f →
      ∀ j, ((s.replace i g).fact? j).map key = (s.fact? j).map key := by
    intro key hk j
    rw [hl]
    by_cases hj : j = i
    · simp [hj, hf, hk]
    · simp [hj]
  have hfiles : Files (s.replace i g).fact? tripleKeyOf (Versions.Ranks (s.levelOf? none))
      s.byTriple := h.byTriple.congr (hkeep tripleKeyOf (by simp [tripleKeyOf, ht]))
  have hknown : ∀ j ∈ s.byTriple.bucket f.triple.key, ((s.replace i g).levelOf? none j).isSome := by
    intro j hj
    obtain ⟨e, he, -⟩ := (hfiles.mem_iff _ _).mp hj
    simp [levelOf?, he]
  have hsort : (s.replace i g).sortVersions f.triple.key none =
      ({ s.replace i g with
          byTriple := s.byTriple.insert f.triple.key
            (Versions.sorted ((s.replace i g).levelOf? none)
              (s.byTriple.bucket f.triple.key)) }, .ok ()) := by
    unfold sortVersions
    rw [show (s.replace i g).byTriple = s.byTriple from rfl, Versions.sort_known hknown]
    rfl
  refine ⟨by rw [hsort], ?_, ?_, ?_, ?_, ?_⟩
  · intro j e he
    rw [fact?_sortVersions, hl] at he
    split at he
    · rename_i hj
      rw [← Option.some.inj he, hj, hid]
      exact h.own_id hf
    · exact h.own_id he
  · exact h.bySubject.congr (hkeep Fact.subject (by simp [Fact.subject, ht]))
  · exact h.byPair.congr (hkeep pairKeyOf (by simp [pairKeyOf, Fact.subject, Fact.relation, ht]))
  · exact h.byObject.congr (hkeep Fact.object (by simp [Fact.object, ht]))
  · have hbucket : ∀ k, ((s.replace i g).sortVersions f.triple.key none).1.byTriple.bucket k =
        if f.triple.key = k then Versions.sorted ((s.replace i g).levelOf? none)
          (s.byTriple.bucket f.triple.key)
        else s.byTriple.bucket k := by
      intro k
      rw [hsort]
      exact Index.bucket_insert _ _ _ _
    refine ⟨fun k => ?_, fun k j => ?_⟩
    · rw [hbucket]
      show List.Pairwise (Versions.Ranks ((s.replace i g).levelOf? none)) _
      split
      · refine Versions.sorted_pairwise ((h.byTriple.sorted _).imp fun {a b} hab => ?_)
        rintro rfl
        exact hab.irrefl
      · rename_i hk
        have hsame : ∀ j ∈ s.byTriple.bucket k,
            s.levelOf? none j = (s.replace i g).levelOf? none j := by
          intro j hj
          obtain ⟨e, he, rfl⟩ := (h.byTriple.mem_iff _ _).mp hj
          have hne : j ≠ i := by
            rintro rfl
            rw [hf] at he
            exact hk (by rw [← Option.some.inj he]; rfl)
          simp [levelOf?, hl, hne]
        exact (h.byTriple.sorted k).imp_of_mem fun ha hb hab =>
          hab.congr (hsame _ ha) (hsame _ hb)
    · rw [hbucket, fact?_sortVersions]
      split
      · rename_i hk
        subst hk
        rw [Versions.mem_sorted]
        exact hfiles.mem_iff _ j
      · exact hfiles.mem_iff k j

theorem Indexed.upgrade (h : Indexed r s) (i : FactId) (level : Existence) :
    Indexed r (s.upgrade i level).1 := by
  unfold Store.upgrade
  split
  · exact h
  · rename_i f hf
    split
    · exact (h.replace hf (g := { f with existence := level }) rfl rfl).2
    · exact h

/-- No fact comes or goes as a level rises, and the counter stays. -/
theorem upgrade_frame (i : FactId) (level : Existence) :
    (s.upgrade i level).1.nextId = s.nextId ∧
      ∀ j, ((s.upgrade i level).1.fact? j).isSome = (s.fact? j).isSome := by
  unfold Store.upgrade
  split
  · exact ⟨rfl, fun j => rfl⟩
  · rename_i f hf
    split
    · refine ⟨rfl, fun j => ?_⟩
      show ((s.replace i _).fact? j).isSome = _
      rw [fact?_replace]
      split
      · rename_i hj
        rw [hj, hf]
        rfl
      · rfl
    · exact ⟨rfl, fun j => rfl⟩

theorem Coherent.upgrade (h : Coherent s) (i : FactId) (level : Existence) :
    Coherent (s.upgrade i level).1 := by
  obtain ⟨hnext, hfacts⟩ := upgrade_frame (s := s) i level
  refine (h.indexed.upgrade i level).coherent fun {j g} hg => ?_
  have hj : (s.fact? j).isSome := by rw [← hfacts, hg, Option.isSome_some]
  obtain ⟨e, he⟩ := Option.isSome_iff_exists.mp hj
  rw [hnext]
  exact h.below he

/-! ### Facts go -/

theorem fact?_remove (hf : s.fact? i = some f) (j : FactId) :
    (s.remove i).1.fact? j = if j = i then none else s.fact? j := by
  unfold remove
  rw [hf]
  show (s.facts.erase i)[j]? = _
  rw [Std.TreeMap.getElem?_erase]
  simp only [Std.compare_eq_iff_eq, @eq_comm _ j, fact?]

theorem nextId_remove (i : FactId) : (s.remove i).1.nextId = s.nextId := by
  unfold remove
  split <;> rfl

/-- What is there after a removal was there before. -/
theorem fact?_of_remove {j : FactId} (h : (s.remove i).1.fact? j = some f) :
    s.fact? j = some f := by
  cases hi : s.fact? i with
  | none =>
    unfold remove at h
    rw [hi] at h
    exact h
  | some g =>
    rw [fact?_remove hi] at h
    split at h
    · cases h
    · exact h

theorem Indexed.remove (h : Indexed r s) (i : FactId) : Indexed r (s.remove i).1 := by
  cases hf : s.fact? i with
  | none =>
    unfold Store.remove
    rw [hf]
    exact h
  | some f =>
    have hl := fact?_remove hf
    have hi := h.own_id hf
    subst hi
    have hbucket : (s.remove f.id).1.byTriple = s.byTriple.drop (tripleKeyOf f) f.id := by
      unfold Store.remove
      rw [hf]
      rfl
    have hdrop := h.byTriple.drop hf hl
    refine ⟨fun hg => h.own_id (fact?_of_remove hg), ?_, ?_, ?_, ?_⟩
    · have := h.bySubject.drop hf hl
      unfold Store.remove at this ⊢
      rw [hf] at this ⊢
      exact this
    · have := h.byPair.drop hf hl
      unfold Store.remove at this ⊢
      rw [hf] at this ⊢
      exact this
    · have := h.byObject.drop hf hl
      unfold Store.remove at this ⊢
      rw [hf] at this ⊢
      exact this
    · rw [hbucket]
      refine ⟨fun k => ?_, hdrop.mem_iff⟩
      have hsame : ∀ j ∈ (s.byTriple.drop (tripleKeyOf f) f.id).bucket k,
          s.levelOf? none j = (s.remove f.id).1.levelOf? none j := by
        intro j hj
        obtain ⟨g, hg, -⟩ := (hdrop.mem_iff _ _).mp hj
        simp [levelOf?, hg, fact?_of_remove hg]
      exact (hdrop.sorted k).imp_of_mem fun ha hb hab => hab.congr (hsame _ ha) (hsame _ hb)

theorem Coherent.remove (h : Coherent s) (i : FactId) : Coherent (s.remove i).1 := by
  refine (h.indexed.remove i).coherent fun {j g} hg => ?_
  rw [nextId_remove]
  exact h.below (fact?_of_remove hg)

/-- What each removal keeps, and what hangs on facts and indexes only, is kept as concepts go. -/
theorem dropAll_induction {P : Store → Prop} (hledger : ∀ s s', s'.ledger = s.ledger → P s → P s')
    (hremove : ∀ s i, P s → P (s.remove i).1) (h : P s) (labels : List String) :
    P (s.dropAll labels).1 := by
  have hall : ∀ (ids : List FactId) (s : Store), P s → P (s.removeAll ids) := by
    intro ids
    induction ids with
    | nil => exact fun s h => h
    | cons i ids ih => exact fun s h => ih _ (hremove s i h)
  induction labels generalizing s with
  | nil => exact h
  | cons l ls ih => exact ih (hledger (s.removeAll (s.naming l)) _ rfl (hall _ s h))

theorem Coherent.dropAll (h : Coherent s) (labels : List String) :
    Coherent (s.dropAll labels).1 :=
  dropAll_induction (fun _ _ he h => h.congr he) (fun _ i h => h.remove i) h labels

end Store

end KnowledgeBase
