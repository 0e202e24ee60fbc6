import KnowledgeBase.Proofs.Consistency.Traversal
import KnowledgeBase.Proofs.Text
import Mathlib.Data.List.Basic
import Mathlib.Data.List.Chain

/-!
# Cycles of a taxonomy

The depth-first search from every member finds a cycle exactly if there is one, and whatever it
finds is a cycle.

* `IsCycle`, `transGen_of_isCycle`: steps that lead around, and so from each term back to itself;
* `Traverses.isCycle`: soundness; the path is a chain of steps that holds no term twice, so a term
  on it closes a cycle that does not either;
* `Settled`, `Traverses.explored`: completeness; while no cycle is found, the terms that were
  visited and are not on the path are closed under steps, and none of them leads back to itself;
* `acyclic_of_cycles_nil`, `exists_isCycle_of_mem_cycles`: what the search says about the type
  facts.
-/

open Relation (TransGen ReflTransGen)

namespace KnowledgeBase.Taxonomy

variable {edges : List Edge}

/-! ### Closed chains -/

/-- The steps of a cycle: from each term to the next, and from the last one to the first. -/
def around {α : Type} (terms : List α) : List (α × α) := terms.zip (terms.drop 1 ++ terms.take 1)

def IsCycle (edges : List Edge) (terms : List String) : Prop :=
  terms ≠ [] ∧ ∀ p ∈ around terms, Step edges p.1 p.2

variable {α : Type} {r : α → α → Prop} {a b : α} {l : List α}

theorem around_map {β : Type} (w : α → β) (l : List α) :
    around (l.map w) = (around l).map (Prod.map w w) := by
  unfold around
  rw [← List.map_drop, ← List.map_take, ← List.map_append, List.zip_map]

/-- There are as many steps around as there are terms. -/
theorem length_around (l : List α) : (around l).length = l.length := by
  unfold around
  rw [List.length_zip, List.length_append, List.length_drop, List.length_take]
  omega

theorem mem_of_mem_around (h : (a, b) ∈ around l) : a ∈ l ∧ b ∈ l := by
  obtain ⟨ha, hb⟩ := List.of_mem_zip h
  refine ⟨ha, ?_⟩
  rcases List.mem_append.mp hb with hb | hb
  · exact List.mem_of_mem_drop hb
  · exact List.mem_of_mem_take hb

theorem forall_zip_of_isChain (h : List.IsChain r (a :: (l ++ [b]))) :
    ∀ p ∈ (a :: l).zip (l ++ [b]), r p.1 p.2 := by
  induction l generalizing a with
  | nil => simpa using h
  | cons c l ih =>
    rw [List.cons_append, List.isChain_cons_cons] at h
    rw [List.cons_append, List.zip_cons_cons, List.forall_mem_cons]
    exact ⟨h.1, ih h.2⟩

/-- Along a chain from `a` to `b`, every term leads to `b` and is reached from `a`. -/
theorem transGen_of_zip (h : ∀ p ∈ (a :: l).zip (l ++ [b]), r p.1 p.2) :
    (∀ x ∈ a :: l, TransGen r x b) ∧ ∀ x ∈ l, TransGen r a x := by
  induction l generalizing a with
  | nil =>
    have hab : r a b := h (a, b) (by simp)
    refine ⟨fun x hx => ?_, nofun⟩
    rw [List.mem_singleton.mp hx]
    exact .single hab
  | cons c l ih =>
    rw [List.cons_append, List.zip_cons_cons, List.forall_mem_cons] at h
    obtain ⟨hac, hrest⟩ := h
    obtain ⟨hto, hfrom⟩ := ih hrest
    refine ⟨fun x hx => ?_, fun x hx => ?_⟩
    · rcases List.mem_cons.mp hx with rfl | hx
      · exact .head hac (hto c List.mem_cons_self)
      · exact hto x hx
    · rcases List.mem_cons.mp hx with rfl | hx
      · exact .single hac
      · exact .head hac (hfrom x hx)

theorem transGen_of_around (h : ∀ p ∈ around l, r p.1 p.2) {x : α} (hx : x ∈ l) :
    TransGen r x x := by
  cases l with
  | nil => cases hx
  | cons a l =>
    obtain ⟨hto, hfrom⟩ := transGen_of_zip (b := a) h
    rcases List.mem_cons.mp hx with rfl | hx
    · exact hto x List.mem_cons_self
    · exact (hto x (List.mem_cons_of_mem _ hx)).trans (hfrom x hx)

theorem transGen_of_isCycle {terms : List String} (h : IsCycle edges terms) {x : String}
    (hx : x ∈ terms) : TransGen (Step edges) x x :=
  transGen_of_around h.2 hx

/-! ### What is found is a cycle -/

variable {path ts : List String} {found found' found'' : Found} {term : String}

/-- A term on the path closes a cycle, as the path leads back to it. -/
theorem isCycle_of_path (hpath : List.IsChain (Step edges) (path ++ [term])) (hterm : term ∈ path) :
    IsCycle edges (path.dropWhile (· != term)) := by
  induction path with
  | nil => cases hterm
  | cons x path ih =>
    by_cases hx : x = term
    · subst hx
      have hdrop : (x :: path).dropWhile (· != x) = x :: path := by simp
      rw [hdrop]
      exact ⟨List.cons_ne_nil _ _, forall_zip_of_isChain hpath⟩
    · have hdrop : (x :: path).dropWhile (· != term) = path.dropWhile (· != term) := by
        simp [hx]
      rw [hdrop]
      refine ih ?_ ?_
      · exact (List.isChain_cons.mp hpath).2
      · rcases List.mem_cons.mp hterm with rfl | hterm
        · exact absurd rfl hx
        · exact hterm

/-- **What a search finds are cycles that hold no term twice**, if the path does not either and
leads on to the terms that are visited. -/
theorem Traverses.isCycle (h : Traverses edges path found ts found') (hpath : path.Nodup)
    (hchain : ∀ t ∈ ts, List.IsChain (Step edges) (path ++ [t]))
    (hfound : ∀ terms ∈ found.cycles, IsCycle edges terms ∧ terms.Nodup) :
    ∀ terms ∈ found'.cycles, IsCycle edges terms ∧ terms.Nodup := by
  induction h with
  | done => exact hfound
  | closes hterm _ ih =>
    rw [List.forall_mem_cons] at hchain
    refine ih hpath hchain.2 fun terms hterms => ?_
    rcases List.mem_append.mp hterms with hterms | hterms
    · exact hfound terms hterms
    · rw [List.mem_singleton.mp hterms]
      exact ⟨isCycle_of_path hchain.1 hterm, hpath.sublist (List.dropWhile_sublist _)⟩
  | passes _ _ _ ih => exact ih hpath (List.forall_mem_cons.mp hchain).2 hfound
  | @enters path ts found found' found'' term hterm _ _ _ ihinner ih =>
    rw [List.forall_mem_cons] at hchain
    have htargets : ∀ u ∈ targets edges term,
        List.IsChain (Step edges) (path ++ [term] ++ [u]) := by
      intro u hu
      refine List.isChain_append.mpr ⟨hchain.1, List.isChain_singleton _, fun x hx y hy => ?_⟩
      rw [List.getLast?_concat] at hx
      cases hx
      cases hy
      exact mem_targets.mp hu
    have hlonger : (path ++ [term]).Nodup := by
      rw [← List.concat_eq_append]
      exact hpath.concat hterm
    exact ih hpath hchain.2 (ihinner hlonger htargets hfound)

/-! ### Every cycle is found -/

/-- A term was visited and left again. -/
def Finished (path : List String) (found : Found) (t : String) : Prop :=
  t ∈ found.visited ∧ t ∉ path

/-- What holds while no cycle is found. -/
structure Settled (edges : List Edge) (path : List String) (found : Found) : Prop where
  onPath : ∀ t ∈ path, t ∈ found.visited
  closed : ∀ t, Finished path found t → ∀ u, Step edges t u → Finished path found u
  acyclic : ∀ t, Finished path found t → ¬ TransGen (Step edges) t t

/-- What visiting some terms comes to, if no cycle is found. -/
structure Explored (edges : List Edge) (path : List String) (found found' : Found)
    (ts : List String) : Prop where
  settled : Settled edges path found'
  kept : ∀ t, Finished path found t → Finished path found' t
  done : ∀ t ∈ ts, Finished path found' t

/-- Finished terms only lead to finished terms. -/
theorem Settled.closure {path : List String} {found : Found} (h : Settled edges path found)
    {t u : String} (ht : Finished path found t) (htu : ReflTransGen (Step edges) t u) :
    Finished path found u := by
  induction htu with
  | refl => exact ht
  | tail _ hstep ih => exact h.closed _ ih _ hstep

theorem Explored.refl (h : Settled edges path found) : Explored edges path found found [] :=
  ⟨h, fun _ ht => ht, nofun⟩

theorem Explored.cons {us : List String} (h : Explored edges path found found' ts)
    (h' : Explored edges path found' found'' us) :
    Explored edges path found found'' (ts ++ us) := by
  refine ⟨h'.settled, fun t ht => h'.kept t (h.kept t ht), fun t ht => ?_⟩
  rcases List.mem_append.mp ht with ht | ht
  · exact h'.kept t (h.done t ht)
  · exact h'.done t ht

/-- A term that is entered is on the path, and not finished. -/
theorem finished_enter (hnew : term ∉ found.visited) (t : String) :
    Finished (path ++ [term]) { found with visited := term :: found.visited } t ↔
      Finished path found t := by
  unfold Finished
  by_cases heq : t = term
  · subst heq
    simp [hnew]
  · simp [heq]

theorem Settled.enter (h : Settled edges path found) (hnew : term ∉ found.visited) :
    Settled edges (path ++ [term]) { found with visited := term :: found.visited } := by
  refine ⟨fun t ht => ?_, fun t ht u hu => ?_, fun t ht => ?_⟩
  · rcases List.mem_append.mp ht with ht | ht
    · exact List.mem_cons_of_mem _ (h.onPath t ht)
    · rw [List.mem_singleton.mp ht]
      exact List.mem_cons_self
  · rw [finished_enter hnew] at ht ⊢
    exact h.closed t ht u hu
  · exact h.acyclic t ((finished_enter hnew t).mp ht)

/-- A term whose steps all lead to finished terms is finished once it is left. -/
theorem Settled.leave (h : Settled edges (path ++ [term]) found) (hterm : term ∉ path)
    (hdone : ∀ u, Step edges term u → Finished (path ++ [term]) found u) :
    Settled edges path found ∧ Finished path found term ∧
      ∀ t, Finished (path ++ [term]) found t → Finished path found t := by
  have hsub : ∀ t, Finished (path ++ [term]) found t → Finished path found t :=
    fun t ht => ⟨ht.1, fun hmem => ht.2 (List.mem_append_left _ hmem)⟩
  have hsplit : ∀ t, Finished path found t → t = term ∨ Finished (path ++ [term]) found t := by
    intro t ht
    by_cases heq : t = term
    · exact Or.inl heq
    · exact Or.inr ⟨ht.1, by simp [ht.2, heq]⟩
  refine ⟨⟨?_, ?_, ?_⟩, ⟨?_, hterm⟩, hsub⟩
  · exact fun t ht => h.onPath t (List.mem_append_left _ ht)
  · intro t ht u hu
    rcases hsplit t ht with rfl | ht
    · exact hsub u (hdone u hu)
    · exact hsub u (h.closed t ht u hu)
  · intro t ht hcycle
    rcases hsplit t ht with rfl | ht
    · -- the first step leads to a finished term, from which no way leads back to the path
      obtain ⟨u, hu, hback⟩ := Relation.TransGen.head'_iff.mp hcycle
      exact (h.closure (hdone u hu) hback).2 (by simp)
    · exact h.acyclic t ht hcycle
  · exact h.onPath term (by simp)

/-- **A search that finds no cycle explores the terms that it visits.** -/
theorem Traverses.explored (h : Traverses edges path found ts found')
    (hsettled : Settled edges path found) (hnil : found'.cycles = []) :
    Explored edges path found found' ts := by
  induction h with
  | done => exact .refl hsettled
  | closes _ hrest _ =>
    have hsub := hrest.cycles_subset
    rw [hnil] at hsub
    exact absurd (List.subset_nil.mp hsub) (by simp)
  | @passes path ts found found' term hterm hvisited _ ih =>
    have hone : Explored edges path found found [term] := by
      refine ⟨hsettled, fun _ ht => ht, fun t ht => ?_⟩
      rw [List.mem_singleton.mp ht]
      exact ⟨hvisited, hterm⟩
    exact hone.cons (ih hsettled hnil)
  | @enters path ts found found' found'' term hterm hnew _ hrest ihinner ih =>
    have hall := ihinner (hsettled.enter hnew) (List.subset_nil.mp (hnil ▸ hrest.cycles_subset))
    obtain ⟨hleft, hdone, hsub⟩ :=
      hall.settled.leave hterm fun u hu => hall.done u (mem_targets.mpr hu)
    have hone : Explored edges path found found' [term] := by
      refine ⟨hleft, fun t ht => hsub t (hall.kept t ((finished_enter hnew t).mpr ht)), ?_⟩
      intro t ht
      rw [List.mem_singleton.mp ht]
      exact hdone
    exact hone.cons (ih hleft hnil)

/-! ### The type facts -/

variable {facts : List Fact}

/-- A type fact states the edge from one folded term to another. -/
theorem step_upward {a b : String} : Step (upward facts) a b ↔
    ∃ f ∈ typeFacts facts, Text.fold f.subject = a ∧ Text.fold f.object = b := by
  simp [Step, upward]

theorem fold_subject_mem_members {f : Fact} (hf : f ∈ typeFacts facts) :
    Text.fold f.subject ∈ members facts := by
  obtain ⟨t, ht, hfold⟩ := Text.exists_distinct (List.mem_map_of_mem (f := Fact.subject) hf)
  exact List.mem_map.mpr ⟨t, ht, hfold⟩

/-- The search from every member; its cycles are made of folded terms. -/
def search (facts : List Fact) : Found :=
  (members facts).foldl (visit (upward facts) ((upward facts).length + 1) []) {}

theorem cycles_eq_map :
    cycles facts = (search facts).cycles.map (·.map (written (spellings facts))) := rfl

/-- The search comes to its end. -/
theorem traverses_search (facts : List Fact) :
    Traverses (upward facts) [] {} (members facts) (search facts) :=
  traverses_foldl fun _ _ _ => traverses_visit ⟨List.nodup_nil, nofun⟩ (by simp)

/-- **If the search finds no cycle, there is none.** -/
theorem acyclic_of_cycles_nil (h : cycles facts = []) (t : String) :
    ¬ TransGen (Step (upward facts)) t t := by
  intro hcycle
  have hnil : (search facts).cycles = [] := List.map_eq_nil_iff.mp h
  have hstart : Settled (upward facts) [] {} :=
    ⟨fun _ ht => (nomatch ht), fun _ ht => (nomatch ht.1), fun _ ht => (nomatch ht.1)⟩
  have hall := (traverses_search facts).explored hstart hnil
  obtain ⟨u, hu, -⟩ := Relation.TransGen.head'_iff.mp hcycle
  obtain ⟨f, hf, rfl, -⟩ := step_upward.mp hu
  exact hall.settled.acyclic _ (hall.done _ (fold_subject_mem_members hf)) hcycle

/-- A term of a type fact has a spelling. -/
theorem lookup_spellings_isSome {t u : String} (h : Step (upward facts) t u) :
    ((spellings facts).lookup t).isSome = true := by
  obtain ⟨f, hf, rfl, -⟩ := step_upward.mp h
  rw [List.lookup_isSome_iff]
  exact ⟨(Text.fold f.subject, f.subject), List.mem_flatMap.mpr ⟨f, hf, by simp⟩, by simp⟩

/-- The first spelling of a term of a type fact is a spelling of it. -/
theorem fold_written {t u : String} (h : Step (upward facts) t u) :
    Text.fold (written (spellings facts) t) = t := by
  obtain ⟨w, hw⟩ := Option.isSome_iff_exists.mp (lookup_spellings_isSome h)
  obtain ⟨l₁, l₂, hsplit, -⟩ := List.lookup_eq_some_iff.mp hw
  have hmem : (t, w) ∈ spellings facts := by
    rw [hsplit]
    simp
  unfold written
  rw [hw]
  obtain ⟨g, -, hg⟩ := List.mem_flatMap.mp hmem
  rcases List.mem_cons.mp hg with hg | hg
  · rw [Prod.mk.injEq] at hg
    rw [hg.1, hg.2]
    rfl
  · rw [List.mem_singleton, Prod.mk.injEq] at hg
    rw [hg.1, hg.2]
    rfl

/-- **What the search finds is a cycle, and holds no term twice.** -/
theorem isCycle_of_mem_search {folded : List String} (h : folded ∈ (search facts).cycles) :
    IsCycle (upward facts) folded ∧ folded.Nodup := by
  refine (traverses_search facts).isCycle List.nodup_nil ?_ ?_ folded h
  · exact fun t _ => List.isChain_singleton t
  · exact fun terms hterms => nomatch hterms

/-- What is reported is a cycle in its first spelling. -/
theorem exists_isCycle_of_mem_cycles {terms : List String} (h : terms ∈ cycles facts) :
    ∃ folded, IsCycle (upward facts) folded ∧ terms = folded.map (written (spellings facts)) := by
  obtain ⟨folded, hfolded, rfl⟩ := List.mem_map.mp h
  exact ⟨folded, (isCycle_of_mem_search hfolded).1, rfl⟩

/-- Every term of a cycle has an edge of its own. -/
theorem step_of_isCycle {folded : List String} (h : IsCycle edges folded) {t : String}
    (ht : t ∈ folded) : ∃ u, Step edges t u := by
  obtain ⟨u, hu, -⟩ := Relation.TransGen.head'_iff.mp (transGen_of_isCycle h ht)
  exact ⟨u, hu⟩

/-- A term of a cycle is the folded form of what is written for it. -/
theorem fold_written_of_isCycle {folded : List String} (h : IsCycle (upward facts) folded)
    {t : String} (ht : t ∈ folded) : Text.fold (written (spellings facts) t) = t := by
  obtain ⟨u, hu⟩ := step_of_isCycle h ht
  exact fold_written hu

end KnowledgeBase.Taxonomy
