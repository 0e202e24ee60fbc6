import KnowledgeBase.Proofs.Store.Run
import KnowledgeBase.Proofs.Text
import Mathlib.Data.List.Basic
import Mathlib.Order.Defs.Unbundled

/-!
# Queries are scans

Every query of a coherent store answers what a scan over all facts, in the order of their ids,
would: the indexes are only a faster way there.

* `pairKey_eq_iff`, `Triple.key_eq_iff`: composed keys tell apart all terms, once one side is free
  of the separator;
* `foremost_best`, `ranked_mergeSort`: the fold and the sort that rank facts;
* `Coherent.collect_eq`, `Coherent.bestFact_eq`: the facts of a bucket are the scan for its key, and
  the best fact of a triple is the foremost of those that share its key;
* `answersByScan_of_reached`: the queries of every store reached without a wrap of the counter.
-/

namespace KnowledgeBase

/-! ### Composed keys -/

theorem toList_pairKey (a r : String) :
    (Store.pairKey a r).toList = a.toList ++ '\x1f' :: r.toList := by
  simp [Store.pairKey, Text.keySeparator]

theorem toList_key (t : Triple) :
    t.key.toList =
      t.subject.toList ++ '\x1f' :: (t.relation.toList ++ '\x1f' :: t.object.toList) := by
  simp [Triple.key, Text.keySeparator]

/-- Only one of the two pairs need be clean: the keys hold equally many separators. -/
theorem pairKey_eq_iff {a r a' r' : String} (ha : Text.Clean a) (hr : Text.Clean r) :
    Store.pairKey a r = Store.pairKey a' r' ↔ a = a' ∧ r = r' := by
  constructor
  · intro h
    have hl := congrArg String.toList h
    rw [toList_pairKey, toList_pairKey] at hl
    have hc := congrArg (List.count '\x1f') hl
    simp only [List.count_append, List.count_cons_self, List.count_eq_zero.mpr ha,
      List.count_eq_zero.mpr hr] at hc
    have ha' : '\x1f' ∉ a'.toList := List.count_eq_zero.mp (by omega)
    obtain ⟨h1, h2⟩ := cut_unique ha ha' hl
    exact ⟨String.toList_inj.mp h1, String.toList_inj.mp h2⟩
  · rintro ⟨rfl, rfl⟩
    rfl

/-- A triple whose three texts are clean. -/
def Triple.Clean (t : Triple) : Prop :=
  Text.Clean t.subject ∧ Text.Clean t.relation ∧ Text.Clean t.object

instance (t : Triple) : Decidable t.Clean :=
  inferInstanceAs (Decidable (Text.Clean t.subject ∧ Text.Clean t.relation ∧ Text.Clean t.object))

theorem Triple.key_eq_iff {t t' : Triple} (h : t.Clean) : t.key = t'.key ↔ t = t' := by
  constructor
  · intro hk
    obtain ⟨hs, hr, ho⟩ := h
    have hl := congrArg String.toList hk
    rw [toList_key, toList_key] at hl
    have hc := congrArg (List.count '\x1f') hl
    simp only [List.count_append, List.count_cons_self, List.count_eq_zero.mpr hs,
      List.count_eq_zero.mpr hr, List.count_eq_zero.mpr ho] at hc
    have hs' : '\x1f' ∉ t'.subject.toList := List.count_eq_zero.mp (by omega)
    have hr' : '\x1f' ∉ t'.relation.toList := List.count_eq_zero.mp (by omega)
    obtain ⟨h1, hl⟩ := cut_unique hs hs' hl
    obtain ⟨h2, h3⟩ := cut_unique hr hr' hl
    cases t
    cases t'
    simp only [Triple.mk.injEq]
    exact ⟨String.toList_inj.mp h1, String.toList_inj.mp h2, String.toList_inj.mp h3⟩
  · rintro rfl
    rfl

/-! ### Ranking facts -/

/-- A fact of higher existence comes first, and of two equal ones the earlier one. -/
def Fact.Outranks (f g : Fact) : Prop :=
  g.existence < f.existence ∨ f.existence = g.existence ∧ f.id < g.id

theorem Fact.Outranks.trans {f g e : Fact} (hfg : f.Outranks g) (hge : g.Outranks e) :
    f.Outranks e := by
  rcases hfg with hfg | ⟨hfg, h1⟩ <;> rcases hge with hge | ⟨hge, h2⟩
  · exact Or.inl (lt_trans hge hfg)
  · exact Or.inl (hge ▸ hfg)
  · exact Or.inl (hfg ▸ hge)
  · exact Or.inr ⟨hfg.trans hge, UInt64.lt_trans h1 h2⟩

/-- The fact of highest rank, if there is any fact at all. -/
def Foremost (fs : List Fact) : Option Fact → Prop
  | none => fs = []
  | some f => f ∈ fs ∧ ∀ g ∈ fs, g = f ∨ f.Outranks g

/-- The facts from the highest rank to the lowest. -/
def Ranking (fs gs : List Fact) : Prop := gs.Perm fs ∧ gs.Pairwise Fact.Outranks

theorem foremost_foldl {fs : List Fact} {f : Fact}
    (hasc : (f :: fs).Pairwise fun a b => a.id < b.id) :
    Foremost (f :: fs)
      (some (fs.foldl (fun b g => if b.existence < g.existence then g else b) f)) := by
  induction fs generalizing f with
  | nil => exact ⟨List.mem_cons_self, fun g hg => Or.inl (List.mem_singleton.mp hg)⟩
  | cons g gs ih =>
    simp only [List.pairwise_cons, List.mem_cons, forall_eq_or_imp] at hasc
    obtain ⟨⟨hfg, hf⟩, hg, hgs⟩ := hasc
    rw [List.foldl_cons]
    by_cases hlt : f.existence < g.existence
    · obtain ⟨hmem, hout⟩ := ih (List.pairwise_cons.mpr ⟨hg, hgs⟩)
      rw [if_pos hlt]
      refine ⟨List.mem_cons_of_mem _ hmem, fun e he => ?_⟩
      rcases List.mem_cons.mp he with rfl | he
      · right
        rcases hout g List.mem_cons_self with heq | hr
        · rw [← heq]
          exact Or.inl hlt
        · exact hr.trans (Or.inl hlt)
      · exact hout e he
    · obtain ⟨hmem, hout⟩ := ih (List.pairwise_cons.mpr ⟨hf, hgs⟩)
      have hfog : f.Outranks g := by
        rcases lt_or_eq_of_le (not_lt.mp hlt) with hlt | heq
        · exact Or.inl hlt
        · exact Or.inr ⟨heq.symm, hfg⟩
      rw [if_neg hlt]
      refine ⟨?_, fun e he => ?_⟩
      · rcases List.mem_cons.mp hmem with heq | hmem
        · rw [heq]
          exact List.mem_cons_self
        · exact List.mem_cons_of_mem _ (List.mem_cons_of_mem _ hmem)
      · rcases List.mem_cons.mp he with rfl | he
        · exact hout e List.mem_cons_self
        · rcases List.mem_cons.mp he with rfl | he
          · right
            rcases hout f List.mem_cons_self with heq | hr
            · rw [← heq]
              exact hfog
            · exact hr.trans hfog
          · exact hout e (List.mem_cons_of_mem _ he)

theorem foremost_best {fs : List Fact} (hasc : fs.Pairwise fun a b => a.id < b.id) :
    Foremost fs (Store.best fs) := by
  cases fs with
  | nil => rfl
  | cons f fs => exact foremost_foldl hasc

/-- The sort is stable, so that facts of one level keep the order of their ids. -/
theorem ranked_mergeSort {fs : List Fact} (hasc : fs.Pairwise fun a b => a.id < b.id) :
    Ranking fs (fs.mergeSort fun a b => decide (b.existence ≤ a.existence)) := by
  have htrans (a b c : Fact) (hab : decide (b.existence ≤ a.existence) = true)
      (hbc : decide (c.existence ≤ b.existence) = true) :
      decide (c.existence ≤ a.existence) = true :=
    decide_eq_true (le_trans (of_decide_eq_true hbc) (of_decide_eq_true hab))
  have htotal (a b : Fact) : (decide (b.existence ≤ a.existence) ||
      decide (a.existence ≤ b.existence)) = true := by
    simp [le_total b.existence a.existence]
  have hperm := List.mergeSort_perm fs fun a b => decide (b.existence ≤ a.existence)
  refine ⟨hperm, List.pairwise_iff_forall_sublist.mpr fun {f g} hfg => ?_⟩
  have hle : g.existence ≤ f.existence := of_decide_eq_true
    (List.pairwise_iff_forall_sublist.mp (List.pairwise_mergeSort htrans htotal fs) hfg)
  rcases lt_or_eq_of_le hle with hlt | heq
  · exact Or.inl hlt
  · -- the facts of this level stand in the same order before and after
    have hlevel : (fs.filter fun e => e.existence == f.existence) =
        (fs.mergeSort fun a b => decide (b.existence ≤ a.existence)).filter
          fun e => e.existence == f.existence := by
      have hsub : (fs.filter fun e => e.existence == f.existence).Sublist
          (fs.mergeSort fun a b => decide (b.existence ≤ a.existence)) := by
        refine List.sublist_mergeSort htrans htotal ?_ List.filter_sublist
        refine List.pairwise_of_forall_mem_list fun a ha b hb => ?_
        rw [List.mem_filter, beq_iff_eq] at ha hb
        simp [ha.2, hb.2]
      have hsub' := hsub.filter fun e => e.existence == f.existence
      rw [List.filter_filter] at hsub'
      simp only [Bool.and_self] at hsub'
      exact hsub'.eq_of_length ((hperm.filter _).length_eq).symm
    have hfg' := hfg.filter fun e => e.existence == f.existence
    rw [← hlevel] at hfg'
    simp only [heq, List.filter_cons, beq_self_eq_true, if_true, List.filter_nil] at hfg'
    exact Or.inr ⟨heq.symm, List.pairwise_iff_forall_sublist.mp hasc
      (hfg'.trans List.filter_sublist)⟩

namespace Store

variable {s : Store} {idx : Index} {key : Fact → String}

/-! ### Buckets as scans -/

/-- All facts that pass a test, in the order of their ids. -/
def scan (s : Store) (p : Fact → Bool) : List Fact := s.allFacts.filter p

theorem mem_scan {p : Fact → Bool} {f : Fact} :
    f ∈ s.scan p ↔ (∃ i, s.fact? i = some f) ∧ p f = true := by
  rw [scan, List.mem_filter, mem_allFacts]

theorem fact?_id (h : ∀ {i g}, s.fact? i = some g → g.id = i) {f : Fact} (hf : f ∈ s.allFacts) :
    s.fact? f.id = some f := by
  obtain ⟨i, hi⟩ := mem_allFacts.mp hf
  rw [h hi]
  exact hi

theorem Coherent.fact?_id (h : Coherent s) {f : Fact} (hf : f ∈ s.allFacts) :
    s.fact? f.id = some f := Store.fact?_id h.own_id hf

theorem allFacts_ascending (h : ∀ {i g}, s.fact? i = some g → g.id = i) :
    s.allFacts.Pairwise fun f g => f.id < g.id := by
  unfold allFacts
  rw [values_eq_map_toList, List.pairwise_map]
  refine (Std.TreeMap.ordered_keys_toList (t := s.facts)).imp_of_mem fun {p q} hp hq hlt => ?_
  have hid : ∀ r ∈ s.facts.toList, r.2.id = r.1 := fun r hr =>
    h (Std.TreeMap.mem_toList_iff_getElem?_eq_some.mp hr)
  rw [hid p hp, hid q hq]
  exact Std.compare_eq_lt.mp hlt

theorem Coherent.allFacts_ascending (h : Coherent s) :
    s.allFacts.Pairwise fun f g => f.id < g.id := Store.allFacts_ascending h.own_id

theorem Coherent.scan_ascending (h : Coherent s) (p : Fact → Bool) :
    (s.scan p).Pairwise fun f g => f.id < g.id :=
  h.allFacts_ascending.filter p

theorem eq_of_ascending {α : Type} {id : α → FactId} {xs ys : List α}
    (h : xs.Pairwise fun a b => id a < id b) (h' : ys.Pairwise fun a b => id a < id b)
    (hmem : ∀ a, a ∈ xs ↔ a ∈ ys) : xs = ys := by
  have hirrefl : Std.Irrefl fun a b => id a < id b := ⟨fun a => UInt64.lt_irrefl (id a)⟩
  have hantisymm : Std.Antisymm fun a b => id a < id b :=
    ⟨fun a b hab hba => absurd hba (UInt64.lt_asymm hab)⟩
  exact h.eq_of_mem_iff h' hmem

/-- The bucket of a key holds the ids of the scan for it. -/
theorem Coherent.bucket_eq (h : Coherent s) (hfile : Files s.fact? key (· < ·) idx) (k : String) :
    idx.bucket k = (s.scan (key · == k)).map Fact.id := by
  refine eq_of_ascending (hfile.sorted k) (List.pairwise_map.mpr (h.scan_ascending _)) fun i => ?_
  rw [hfile.mem_iff, List.mem_map]
  constructor
  · rintro ⟨f, hf, hk⟩
    exact ⟨f, mem_scan.mpr ⟨⟨i, hf⟩, by simp [hk]⟩, h.own_id hf⟩
  · rintro ⟨f, hf, rfl⟩
    obtain ⟨⟨i, hi⟩, hk⟩ := mem_scan.mp hf
    rw [h.own_id hi]
    exact ⟨f, hi, by simpa using hk⟩

/-- No id of a bucket is without a fact, and the facts of a bucket are the scan for its key. -/
theorem Coherent.collect_eq (h : Coherent s) (hfile : Files s.fact? key (· < ·) idx) (k : String) :
    s.collect idx k = .ok (s.scan (key · == k)) := by
  unfold collect
  rw [h.bucket_eq hfile, Outcome.mapM_eq_ok, List.forall₂_map_left_iff, List.forall₂_same]
  intro f hf
  rw [h.fact?_id (List.mem_of_mem_filter hf)]

/-! ### The queries of a store -/

/-- No fact holds the separator of composed keys. -/
def Clean (s : Store) : Prop := ∀ f ∈ s.allFacts, f.triple.Clean

instance (s : Store) : Decidable s.Clean :=
  inferInstanceAs (Decidable (∀ f ∈ s.allFacts, f.triple.Clean))

/-- The buckets of an index hold exactly the ids of the stored facts, each once, under the key of
its fact. -/
def FiledBy (s : Store) (key : Fact → String) (idx : Index) : Prop :=
  ∀ k, (idx.bucket k).Nodup ∧ ∀ i, i ∈ idx.bucket k ↔ ∃ f ∈ s.allFacts, f.id = i ∧ key f = k

/-- Every query answers with a scan over all facts, and the indexes are in order. -/
structure AnswersByScan (s : Store) : Prop where
  inOrder : s.allFacts.Pairwise fun f g => f.id < g.id
  byId : ∀ i, s.fact? i = s.allFacts.find? (·.id == i)
  bySubject : ∀ a, s.factsBySubject a = .ok (s.scan (·.subject == a))
  byObject : ∀ b, s.factsByObject b = .ok (s.scan (·.object == b))
  byPair : ∀ a r min, s.factsByPair a r min =
    .ok (s.scan fun f => f.subject == a && f.relation == r && min.all (decide <| · ≤ f.existence))
  byLevel : ∀ min, s.factsFrom min = s.scan fun f => decide (min ≤ f.existence)
  ranked : ∀ a, ∃ fs, s.factsRanked a = .ok fs ∧ Ranking (s.scan (·.subject == a)) fs
  bestOfPair : ∀ a r, ∃ b, s.bestFact a r none = .ok b ∧
    Foremost (s.scan fun f => f.subject == a && f.relation == r) b
  bestOfTriple : ∀ a r o, ∃ b, s.bestFact a r (some o) = .ok b ∧
    Foremost (s.scan (·.triple == ⟨a, r, o⟩)) b
  filed : s.FiledBy Fact.subject s.bySubject ∧ s.FiledBy pairKeyOf s.byPair ∧
    s.FiledBy Fact.object s.byObject ∧ s.FiledBy tripleKeyOf s.byTriple

theorem Coherent.fact?_eq_find (h : Coherent s) (i : FactId) :
    s.fact? i = s.allFacts.find? (·.id == i) := by
  cases hf : s.allFacts.find? (·.id == i) with
  | some f =>
    have hi : f.id = i := by simpa using List.find?_some hf
    rw [← hi]
    exact h.fact?_id (List.mem_of_find?_eq_some hf)
  | none =>
    rw [List.find?_eq_none] at hf
    rw [Option.eq_none_iff_forall_ne_some]
    intro f hi
    exact hf f (mem_allFacts.mpr ⟨i, hi⟩) (by simp [h.own_id hi])

theorem Coherent.filedBy (h : Coherent s) {r : FactId → FactId → Prop} (hr : ∀ i, ¬ r i i)
    (hfile : Files s.fact? key r idx) : s.FiledBy key idx := by
  refine fun k => ⟨(hfile.sorted k).imp fun {i j} hij => ?_, fun i => ?_⟩
  · rintro rfl
    exact hr i hij
  · rw [hfile.mem_iff]
    constructor
    · rintro ⟨f, hf, hk⟩
      exact ⟨f, mem_allFacts.mpr ⟨i, hf⟩, h.own_id hf, hk⟩
    · rintro ⟨f, hf, rfl, hk⟩
      exact ⟨f, h.fact?_id hf, hk⟩

theorem Clean.scan_pair (hc : s.Clean) (a r : String) :
    s.scan (pairKeyOf · == pairKey a r) = s.scan fun f => f.subject == a && f.relation == r := by
  refine List.filter_congr fun f hf => ?_
  obtain ⟨hs, hr, -⟩ := hc f hf
  rw [Bool.eq_iff_iff, beq_iff_eq, Bool.and_eq_true, beq_iff_eq, beq_iff_eq]
  exact pairKey_eq_iff hs hr

theorem Coherent.factsByPair_eq (h : Coherent s) (hc : s.Clean) (a r : String)
    (min : Option Existence) : s.factsByPair a r min =
      .ok (s.scan fun f =>
        f.subject == a && f.relation == r && min.all (decide <| · ≤ f.existence)) := by
  unfold factsByPair
  rw [h.collect_eq h.byPair, hc.scan_pair]
  cases min with
  | none => simp [scan, pure, Except.pure, bind, Except.bind]
  | some level =>
    simp only [scan, pure, Except.pure, bind, Except.bind, List.filter_filter, Option.all_some]
    congr 2
    funext f
    exact Bool.and_comm _ _

/-- The best fact of a triple outranks all others that share its key. -/
theorem Indexed.bestFact_eq {r : FactId → FactId → Prop} (h : Indexed r s) (t : Triple) :
    ∃ b, s.bestFact t.subject t.relation (some t.object) = .ok b ∧
      Foremost (s.scan (tripleKeyOf · == t.key)) b := by
  have hmem : ∀ i, i ∈ s.byTriple.bucket t.key ↔
      ∃ f, s.fact? i = some f ∧ f ∈ s.scan (tripleKeyOf · == t.key) := by
    intro i
    rw [h.byTriple.mem_iff]
    refine exists_congr fun f => and_congr_right fun hf => ?_
    rw [mem_scan, beq_iff_eq]
    exact ⟨fun hk => ⟨⟨i, hf⟩, hk⟩, fun hk => hk.2⟩
  have hsorted := h.byTriple.sorted t.key
  unfold bestFact
  dsimp only
  cases hb : s.byTriple.bucket t.key with
  | nil =>
    refine ⟨none, rfl, List.eq_nil_iff_forall_not_mem.mpr fun f hf => ?_⟩
    have hi := (hmem f.id).mpr ⟨f, fact?_id h.own_id (List.mem_of_mem_filter hf), hf⟩
    rw [hb] at hi
    cases hi
  | cons i is =>
    rw [hb] at hmem hsorted
    obtain ⟨f, hf, hscan⟩ := (hmem i).mp List.mem_cons_self
    refine ⟨some f, by simp only [hf], hscan, fun g hg => ?_⟩
    have hgid := fact?_id h.own_id (List.mem_of_mem_filter hg)
    rcases List.mem_cons.mp ((hmem g.id).mpr ⟨g, hgid, hg⟩) with hi | hi
    · left
      rw [hi, hf] at hgid
      exact (Option.some.inj hgid).symm
    · right
      have hr := List.rel_of_pairwise_cons hsorted hi
      have hid := h.own_id hf
      subst hid
      simpa [Fact.Outranks, Versions.Ranks, Versions.level, levelOf?, hf, hgid] using hr

theorem Coherent.bestFact_eq (h : Coherent s) (t : Triple) :
    ∃ b, s.bestFact t.subject t.relation (some t.object) = .ok b ∧
      Foremost (s.scan (tripleKeyOf · == t.key)) b := h.indexed.bestFact_eq t

/-- The first version of a triple outranks all others.  It is enough that the triple is clean. -/
theorem Coherent.bestFact_triple (h : Coherent s) {t : Triple} (hc : s.Clean ∨ t.Clean) :
    ∃ b, s.bestFact t.subject t.relation (some t.object) = .ok b ∧
      Foremost (s.scan (·.triple == t)) b := by
  have hscan : s.scan (tripleKeyOf · == t.key) = s.scan (·.triple == t) := by
    refine List.filter_congr fun f hf => ?_
    have hkey : f.triple.key = t.key ↔ f.triple = t := by
      rcases hc with hc | hc
      · exact Triple.key_eq_iff (hc f hf)
      · rw [eq_comm, Triple.key_eq_iff hc, eq_comm]
    rw [Bool.eq_iff_iff, beq_iff_eq, beq_iff_eq]
    exact hkey
  rw [← hscan]
  exact h.bestFact_eq t

/-- The best fact of a triple has a level at least if any fact of the triple has. -/
theorem Coherent.bestFact_any (h : Coherent s) {t : Triple} (hc : s.Clean ∨ t.Clean)
    (level : Existence) : ∃ b, s.bestFact t.subject t.relation (some t.object) = .ok b ∧
      (b.any (fun f => decide (level ≤ f.existence)) = true ↔
        ∃ f ∈ s.allFacts, f.triple = t ∧ level ≤ f.existence) := by
  obtain ⟨b, hb, hforemost⟩ := h.bestFact_triple hc
  refine ⟨b, hb, ?_⟩
  cases b with
  | none =>
    have hnil : s.scan (·.triple == t) = [] := hforemost
    constructor
    · simp
    · rintro ⟨f, hf, htriple, -⟩
      have hscan : f ∈ s.scan (·.triple == t) := List.mem_filter.mpr ⟨hf, by simp [htriple]⟩
      rw [hnil] at hscan
      cases hscan
  | some f =>
    obtain ⟨hf, hout⟩ := hforemost
    obtain ⟨hmem, htriple⟩ := List.mem_filter.mp hf
    rw [Option.any_some, decide_eq_true_iff]
    constructor
    · intro hlevel
      exact ⟨f, hmem, by simpa using htriple, hlevel⟩
    · rintro ⟨g, hg, hgt, hlevel⟩
      rcases hout g (List.mem_filter.mpr ⟨hg, by simp [hgt]⟩) with rfl | hlt | ⟨heq, -⟩
      · exact hlevel
      · exact le_of_lt (lt_of_le_of_lt hlevel hlt)
      · exact heq ▸ hlevel

theorem Coherent.answersByScan (h : Coherent s) (hc : s.Clean) : s.AnswersByScan where
  inOrder := h.allFacts_ascending
  byId := h.fact?_eq_find
  bySubject := h.collect_eq h.bySubject
  byObject := h.collect_eq h.byObject
  byPair := h.factsByPair_eq hc
  byLevel := fun _ => rfl
  ranked := fun a => by
    refine ⟨_, ?_, ranked_mergeSort (h.scan_ascending _)⟩
    rw [factsRanked, factsBySubject, h.collect_eq h.bySubject]
    rfl
  bestOfPair := fun a r => by
    refine ⟨_, ?_, foremost_best (h.scan_ascending _)⟩
    show (s.factsByPair a r none).map best = _
    rw [h.factsByPair_eq hc]
    simp [Except.map]
  bestOfTriple := fun a r o => h.bestFact_triple (t := ⟨a, r, o⟩) (.inl hc)
  filed := by
    refine ⟨?_, ?_, ?_, ?_⟩
    · exact h.filedBy (fun i => UInt64.lt_irrefl i) h.bySubject
    · exact h.filedBy (fun i => UInt64.lt_irrefl i) h.byPair
    · exact h.filedBy (fun i => UInt64.lt_irrefl i) h.byObject
    · exact h.filedBy Versions.Ranks.irrefl h.byTriple

/-- **Queries refine scans, after any run of commands during which the counter does not wrap.** -/
theorem answersByScan_of_reached (h : Reached Unwrapped s) (hc : s.Clean) : s.AnswersByScan :=
  (coherent_of_reached h).answersByScan hc

/-- Two versions of a triple, and one of another, of which the first version is removed again. -/
def threeAsserted : Store :=
  let s : Store := { dimensions := 2 }
  let s := s.after (.add ⟨"Rex", "IS_A", "Dog"⟩ Existence.possible (.record []) 5)
  let s := s.after (.add ⟨"Rex", "IS_A", "Pet"⟩ Existence.demonstrated (.record []) 6)
  let s := s.after (.add ⟨"Rex", "IS_A", "Dog"⟩ Existence.demonstrated (.record []) 7)
  s.after (.remove 1)

theorem answersByScan_threeAsserted :
    Reached Unwrapped threeAsserted ∧ threeAsserted.Clean ∧ threeAsserted.AnswersByScan := by
  have hr : Reached Unwrapped threeAsserted := by
    unfold threeAsserted
    refine .step _ (.step _ (.step _ (.step _ (.make (n := 2) rfl) ?_) ?_) ?_) ?_
    all_goals decide +kernel
  have hc : threeAsserted.Clean := by decide +kernel
  exact ⟨hr, hc, answersByScan_of_reached hr hc⟩

end Store

end KnowledgeBase
