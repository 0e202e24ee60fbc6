import KnowledgeBase.Inference.Chain
import KnowledgeBase.Proofs.Text
import Mathlib.Logic.Relation

/-!
# Walks along the facts of a relation

The breadth-first search for a chain finds one exactly if there is one of no more edges than the
depth.  It leaves each term once, which loses nothing: a term that was left has no edge to the
target, and all its edges lead to terms that were left or lie ahead.

* `Step`, `Way`: one edge, and a number of edges in a row;
* `exists_way`: if the target can be reached at all, there is a way with no more edges than there
  are in the list;
* `Sprouts`: what a round makes of its tips;
* `Explored`: what holds throughout a search, and `Explored.grow`, what one round keeps of it;
* `shortest?_isSome_iff`: what the search finds;
* `Spread`, `exists_mem_types_iff`: the types of a term, which are taken layer by layer.
-/

namespace KnowledgeBase.Chain

variable {es es' : List Edge} {a b c x target : String} {n depth : Nat}

/-! ### Ways -/

/-- One edge leads from a folded term to another. -/
def Step (es : List Edge) (a b : String) : Prop := ∃ e ∈ es, e.source = a ∧ e.target = b

/-- A number of edges, at least one, lead from a folded term to another. -/
inductive Way (es : List Edge) : Nat → String → String → Prop
  | edge {a b : String} : Step es a b → Way es 1 a b
  | cons {a c b : String} {n : Nat} : Step es a c → Way es n c b → Way es (n + 1) a b

theorem Step.mono (h : Step es a b) (hsub : ∀ e ∈ es, e ∈ es') : Step es' a b := by
  obtain ⟨e, he, hends⟩ := h
  exact ⟨e, hsub e he, hends⟩

theorem Way.mono (h : Way es n a b) (hsub : ∀ e ∈ es, e ∈ es') : Way es' n a b := by
  induction h with
  | edge hstep => exact .edge (hstep.mono hsub)
  | cons hstep _ ih => exact .cons (hstep.mono hsub) ih

theorem Way.pos (h : Way es n a b) : 0 < n := by
  cases h with
  | edge => exact Nat.one_pos
  | cons => exact Nat.succ_pos _

theorem Way.transGen (h : Way es n a b) : Relation.TransGen (Step es) a b := by
  induction h with
  | edge hstep => exact .single hstep
  | cons hstep _ ih => exact .head hstep ih

/-- The edges that do not lead away from a term. -/
def apartFrom (es : List Edge) (a : String) : List Edge := es.filter (·.source != a)

theorem step_apartFrom : Step (apartFrom es a) b c ↔ b ≠ a ∧ Step es b c := by
  unfold Step apartFrom
  constructor
  · rintro ⟨e, he, rfl, rfl⟩
    obtain ⟨he, hne⟩ := List.mem_filter.mp he
    exact ⟨by simpa using hne, e, he, rfl, rfl⟩
  · rintro ⟨hne, e, he, rfl, rfl⟩
    exact ⟨e, List.mem_filter.mpr ⟨he, by simpa using hne⟩, rfl, rfl⟩

/-- A start that is left for the last time need not be entered again. -/
theorem exists_last_departure (h : Relation.TransGen (Step es) a b) :
    ∃ c, Step es a c ∧ (c = b ∨ Relation.TransGen (Step (apartFrom es a)) c b) := by
  -- seen from each term on the way: the start does not come again, or it comes for the last time
  have hfrom : ∀ x, Relation.TransGen (Step es) x b →
      Relation.TransGen (Step (apartFrom es a)) x b ∨
        ∃ c, Step es a c ∧ (c = b ∨ Relation.TransGen (Step (apartFrom es a)) c b) := by
    intro x hx
    induction hx using Relation.TransGen.head_induction_on with
    | @single x hstep =>
      by_cases hxa : x = a
      · exact .inr ⟨b, hxa ▸ hstep, .inl rfl⟩
      · exact .inl (.single (step_apartFrom.mpr ⟨hxa, hstep⟩))
    | @head x y hstep _ ih =>
      rcases ih with hrest | hlast
      · by_cases hxa : x = a
        · exact .inr ⟨y, hxa ▸ hstep, .inr hrest⟩
        · exact .inl (.head (step_apartFrom.mpr ⟨hxa, hstep⟩) hrest)
      · exact .inr hlast
  rcases hfrom a h with hapart | hlast
  · obtain ⟨c, hstep, -⟩ := Relation.TransGen.head'_iff.mp hapart
    exact absurd rfl (step_apartFrom.mp hstep).1
  · exact hlast

/-- What can be reached can be reached by a way that is no longer than the list of edges. -/
theorem exists_way (h : Relation.TransGen (Step es) a b) : ∃ n ≤ es.length, Way es n a b := by
  induction hlen : es.length using Nat.strongRecOn generalizing es a with
  | _ len ih =>
    obtain ⟨c, hstep, hrest⟩ := exists_last_departure h
    have hshorter : (apartFrom es a).length < es.length := by
      obtain ⟨e, he, hsource, -⟩ := hstep
      refine List.length_filter_lt_length_iff_exists.mpr ⟨e, he, ?_⟩
      simp [hsource]
    rcases hrest with rfl | hrest
    · exact ⟨1, by omega, .edge hstep⟩
    · obtain ⟨n, hn, hway⟩ := ih _ (by omega) hrest rfl
      have hsub : ∀ e ∈ apartFrom es a, e ∈ es := fun e he => (List.mem_filter.mp he).1
      exact ⟨n + 1, by omega, .cons hstep (hway.mono hsub)⟩

/-! ### One round -/

/-- The terms at which tips stand. -/
def terms (tips : List Tip) : List String := tips.map Tip.term

/-- No term that was left has an edge to the target, and all its edges lead to terms that were left
or lie ahead. -/
def Explored (es : List Edge) (target : String) (visited ahead : List String) : Prop :=
  ∀ t ∈ visited, ¬ Step es t target ∧ ∀ c, Step es t c → c ∈ visited ∨ c ∈ ahead

theorem mem_edgesFrom {e : Edge} : e ∈ edgesFrom es a ↔ e ∈ es ∧ e.source = a := by
  unfold edgesFrom
  rw [List.mem_filter, beq_iff_eq]

/-- What a round has done if it has not arrived: every tip is left, whose edges were all followed
unless it had been left before. -/
structure Grown (es : List Edge) (target : String) (tips : List Tip) (visited : List String)
    (ahead : List Tip) (visited' : List String) (ahead' : List Tip) : Prop where
  left : ∀ t, t ∈ visited' ↔ t ∈ visited ∨ t ∈ terms tips
  kept : ∀ t ∈ terms ahead, t ∈ terms ahead'
  from_tip : ∀ t ∈ terms ahead', t ∈ terms ahead ∨ ∃ u ∈ terms tips, Step es u t
  followed : ∀ t ∈ terms tips, t ∉ visited →
    ¬ Step es t target ∧ ∀ c, Step es t c → c ∈ terms ahead'

theorem find?_edgesFrom : ((edgesFrom es a).find? fun e => e.target == target).isSome ↔
    Step es a target := by
  rw [List.find?_isSome]
  unfold Step
  simp only [mem_edgesFrom, beq_iff_eq, and_assoc]

/-- The tips that one tip adds stand where its edges lead. -/
theorem mem_terms_grown {tip : Tip} {ahead : List Tip} {t : String} :
    t ∈ terms (ahead ++ (edgesFrom es tip.term).map fun e => ⟨e.target, tip.path ++ [e.fact]⟩) ↔
      t ∈ terms ahead ∨ Step es tip.term t := by
  unfold terms Step
  rw [List.map_append, List.map_map, List.mem_append, List.mem_map (l := edgesFrom es tip.term)]
  simp only [Function.comp_apply, mem_edgesFrom, and_assoc]

section

variable {tip : Tip} {rest ahead ahead' : List Tip} {visited visited' : List String}

/-- A tip at a term that was left before is dropped. -/
theorem Grown.drop (h : Grown es target rest visited ahead visited' ahead')
    (hleft : tip.term ∈ visited) :
    Grown es target (tip :: rest) visited ahead visited' ahead' where
  left t := by
    rw [h.left]
    constructor
    · rintro (ht | ht)
      · exact .inl ht
      · exact .inr (List.mem_cons_of_mem _ ht)
    · rintro (ht | ht)
      · exact .inl ht
      · rcases List.mem_cons.mp ht with rfl | ht
        · exact .inl hleft
        · exact .inr ht
  kept := h.kept
  from_tip t ht := by
    rcases h.from_tip t ht with ht | ⟨u, hu, hstep⟩
    · exact .inl ht
    · exact .inr ⟨u, List.mem_cons_of_mem _ hu, hstep⟩
  followed t ht hnew := by
    rcases List.mem_cons.mp ht with rfl | ht
    · exact absurd hleft hnew
    · exact h.followed t ht hnew

/-- A tip that has no edge to the target is left, and its edges are followed. -/
theorem Grown.leave (hno : ¬ Step es tip.term target)
    (h : Grown es target rest (tip.term :: visited)
      (ahead ++ (edgesFrom es tip.term).map fun e => ⟨e.target, tip.path ++ [e.fact]⟩)
      visited' ahead') :
    Grown es target (tip :: rest) visited ahead visited' ahead' where
  left t := by
    rw [h.left, List.mem_cons]
    show _ ↔ t ∈ visited ∨ t ∈ tip.term :: terms rest
    rw [List.mem_cons]
    exact or_assoc.trans or_left_comm
  kept t ht := h.kept t (mem_terms_grown.mpr (.inl ht))
  from_tip t ht := by
    rcases h.from_tip t ht with ht | ⟨u, hu, hstep⟩
    · rcases mem_terms_grown.mp ht with ht | hstep
      · exact .inl ht
      · exact .inr ⟨tip.term, List.mem_cons_self, hstep⟩
    · exact .inr ⟨u, List.mem_cons_of_mem _ hu, hstep⟩
  followed t ht hnew := by
    by_cases htip : t = tip.term
    · rw [htip]
      exact ⟨hno, fun c hstep => h.kept c (mem_terms_grown.mpr (.inr hstep))⟩
    · have ht : t ∈ terms rest := (List.mem_cons.mp ht).resolve_left htip
      exact h.followed t ht fun hmem => (List.mem_cons.mp hmem).elim htip hnew

end

theorem grown_of_going {tips ahead ahead' : List Tip} {visited visited' : List String}
    (h : grow es target tips visited ahead = .going visited' ahead') :
    Grown es target tips visited ahead visited' ahead' := by
  induction tips generalizing visited ahead with
  | nil =>
    cases h
    exact ⟨fun t => by simp [terms], fun t ht => ht, fun t ht => .inl ht,
      fun t ht => absurd ht List.not_mem_nil⟩
  | cons tip rest ih =>
    unfold grow at h
    dsimp only at h
    split at h
    · rename_i hleft
      exact (ih h).drop (List.contains_iff_mem.mp hleft)
    · split at h
      · cases h
      · rename_i hfind
        have hno : ¬ Step es tip.term target := by
          rw [← find?_edgesFrom, hfind]
          exact Bool.false_ne_true
        exact .leave hno (ih h)

/-- A tip grows out of others by one edge. -/
def Sprouts (es : List Edge) (tips : List Tip) (t : Tip) : Prop :=
  ∃ u ∈ tips, ∃ e ∈ es, e.source = u.term ∧ t = ⟨e.target, u.path ++ [e.fact]⟩

theorem Sprouts.cons {tips : List Tip} {t : Tip} (u : Tip) (h : Sprouts es tips t) :
    Sprouts es (u :: tips) t := by
  obtain ⟨v, hv, hedge⟩ := h
  exact ⟨v, List.mem_cons_of_mem _ hv, hedge⟩

theorem Sprouts.step {tips : List Tip} {t : Tip} (h : Sprouts es tips t) :
    ∃ u ∈ terms tips, Step es u t.term := by
  obtain ⟨u, hu, e, he, hsource, rfl⟩ := h
  exact ⟨u.term, List.mem_map_of_mem hu, e, he, hsource, rfl⟩

/-- A path that arrives in a round has just grown. -/
theorem sprouts_of_arrived {tips ahead : List Tip} {visited : List String} {path : List Fact}
    (h : grow es target tips visited ahead = .arrived path) :
    Sprouts es tips ⟨target, path⟩ := by
  induction tips generalizing visited ahead with
  | nil => cases h
  | cons tip rest ih =>
    unfold grow at h
    dsimp only at h
    split at h
    · exact (ih h).cons tip
    · split at h
      · rename_i e hfind
        obtain ⟨he, hsource⟩ := mem_edgesFrom.mp (List.mem_of_find?_eq_some hfind)
        have harrives := List.find?_some hfind
        have htarget : e.target = target := beq_iff_eq.mp harrives
        cases h
        exact ⟨tip, List.mem_cons_self, e, he, hsource, htarget ▸ rfl⟩
      · exact (ih h).cons tip

/-- So have the tips that it leaves ahead. -/
theorem sprouts_of_going {tips ahead ahead' : List Tip} {visited visited' : List String}
    (h : grow es target tips visited ahead = .going visited' ahead') {t : Tip} (ht : t ∈ ahead') :
    t ∈ ahead ∨ Sprouts es tips t := by
  induction tips generalizing visited ahead with
  | nil =>
    cases h
    exact .inl ht
  | cons tip rest ih =>
    unfold grow at h
    dsimp only at h
    split at h
    · exact (ih h).imp_right (Sprouts.cons tip)
    · split at h
      · cases h
      · rcases ih h with hahead | hsprouts
        · rcases List.mem_append.mp hahead with hold | hnew
          · exact .inl hold
          · obtain ⟨e, hedge, rfl⟩ := List.mem_map.mp hnew
            obtain ⟨he, hsource⟩ := mem_edgesFrom.mp hedge
            exact .inr ⟨tip, List.mem_cons_self, e, he, hsource, rfl⟩
        · exact .inr (hsprouts.cons tip)

/-- A round explores the terms that it leaves. -/
theorem Explored.grow {tips ahead' : List Tip} {visited visited' : List String}
    (h : Explored es target visited (terms tips))
    (hgrown : Grown es target tips visited [] visited' ahead') :
    Explored es target visited' (terms ahead') := by
  intro t ht
  by_cases hold : t ∈ visited
  · obtain ⟨hno, hout⟩ := h t hold
    refine ⟨hno, fun c hstep => .inl ((hgrown.left c).mpr (hout c hstep))⟩
  · have htip : t ∈ terms tips := ((hgrown.left t).mp ht).resolve_left hold
    obtain ⟨hno, hout⟩ := hgrown.followed t htip hold
    exact ⟨hno, fun c hstep => .inr (hout c hstep)⟩

/-! ### Searches -/

/-- Where a way starts at a term that was left, one that is no longer starts at a tip that was
not. -/
theorem Explored.exists_tip {visited ahead : List String} (h : Explored es target visited ahead)
    (hway : Way es n a target) (ha : a ∈ visited ∨ a ∈ ahead) :
    ∃ t ∈ ahead, t ∉ visited ∧ ∃ m ≤ n, Way es m t target := by
  induction hway with
  | @edge a b hstep =>
    by_cases hleft : a ∈ visited
    · exact absurd hstep (h a hleft).1
    · exact ⟨a, ha.resolve_left hleft, hleft, 1, Nat.le_refl _, .edge hstep⟩
  | @cons a c b n hstep hrest ih =>
    by_cases hleft : a ∈ visited
    · obtain ⟨t, ht, hnew, m, hm, hway⟩ := ih h ((h a hleft).2 c hstep)
      exact ⟨t, ht, hnew, m, by omega, hway⟩
    · exact ⟨a, ha.resolve_left hleft, hleft, n + 1, Nat.le_refl _, .cons hstep hrest⟩

/-- What is found is at the end of a way from one of the tips. -/
theorem way_of_search {tips : List Tip} {visited : List String}
    (h : (search es target depth tips visited).isSome) :
    ∃ t ∈ terms tips, ∃ n ≤ depth, Way es n t target := by
  induction depth generalizing tips visited with
  | zero => cases h
  | succ depth ih =>
    unfold search at h
    split at h
    · cases h
    · split at h
      · rename_i path harrived
        obtain ⟨t, ht, hstep⟩ := (sprouts_of_arrived harrived).step
        exact ⟨t, ht, 1, by omega, .edge hstep⟩
      · rename_i visited' ahead' hgoing
        obtain ⟨t, ht, n, hn, hway⟩ := ih h
        have hgrown := grown_of_going hgoing
        rcases hgrown.from_tip t ht with hnil | ⟨u, hu, hstep⟩
        · cases hnil
        · exact ⟨u, hu, n + 1, by omega, .cons hstep hway⟩

/-- A way from one of the tips is found, if the depth allows for it. -/
theorem search_of_way {tips : List Tip} {visited : List String}
    (h : Explored es target visited (terms tips)) (ha : a ∈ terms tips)
    (hway : Way es n a target) (hn : n ≤ depth) :
    (search es target depth tips visited).isSome := by
  induction depth generalizing tips visited a n with
  | zero =>
    have := hway.pos
    omega
  | succ depth ih =>
    unfold search
    split
    · rename_i hnone
      rw [List.isEmpty_iff.mp hnone] at ha
      cases ha
    · split
      · rfl
      · rename_i visited' ahead' hgoing
        have hgrown := grown_of_going hgoing
        obtain ⟨t, ht, hnew, m, hm, hway⟩ := h.exists_tip hway (.inr ha)
        obtain ⟨hno, hout⟩ := hgrown.followed t ht hnew
        cases hway with
        | edge hstep => exact absurd hstep hno
        | @cons _ c _ m hstep hrest =>
          exact ih (h.grow hgrown) (hout c hstep) hrest (by omega)

/-- **A chain is found exactly if there is one within the depth.** -/
theorem shortest?_isSome_iff {facts : List Fact} {relation start goal : String} :
    (shortest? facts relation start goal depth).isSome ↔
      ∃ n ≤ depth, Way (edges facts relation) n (Text.fold start) (Text.fold goal) := by
  unfold shortest?
  constructor
  · intro h
    obtain ⟨t, ht, hway⟩ := way_of_search h
    rw [List.mem_singleton.mp ht] at hway
    exact hway
  · rintro ⟨n, hn, hway⟩
    have hstart : Explored (edges facts relation) (Text.fold goal) [] (terms
        [⟨Text.fold start, []⟩]) := fun t ht => absurd ht List.not_mem_nil
    exact search_of_way hstart List.mem_cons_self hway hn

/-! ### Types -/

section

variable {seen : Std.TreeSet String} {frontier ts : List String} {t : String}

/-- Each edge leads to the folded object of its fact. -/
def Aimed (es : List Edge) : Prop := ∀ e ∈ es, e.target = Text.fold e.fact.object

theorem aimed_edges (facts : List Fact) (relation : String) : Aimed (edges facts relation) := by
  intro e he
  obtain ⟨f, -, rfl⟩ := List.mem_map.mp he
  rfl

theorem exists_statedTypes_iff (haimed : Aimed es) :
    (∃ t ∈ statedTypes es ts, Text.fold t = x) ↔ ∃ u ∈ ts, Step es (Text.fold u) x := by
  unfold statedTypes Step
  simp only [List.mem_flatMap, List.mem_map, mem_edgesFrom]
  constructor
  · rintro ⟨-, ⟨u, hu, e, ⟨he, hsource⟩, rfl⟩, hfold⟩
    exact ⟨u, hu, e, he, hsource, (haimed e he).trans hfold⟩
  · rintro ⟨u, hu, e, he, hsource, htarget⟩
    exact ⟨_, ⟨u, hu, e, ⟨he, hsource⟩, rfl⟩, (haimed e he).symm.trans htarget⟩

/-- What is seen before a layer of types is taken: the terms at the frontier, and of all others also
what they lead to. -/
structure Spread (es : List Edge) (seen : Std.TreeSet String) (frontier : List String) : Prop where
  met : ∀ u ∈ frontier, Text.fold u ∈ seen
  left : ∀ a ∈ seen, a ∈ frontier.map Text.fold ∨ ∀ b, Step es a b → b ∈ seen

theorem mem_seen_start : a ∈ Std.TreeSet.ofList [b] ↔ a = b := by
  rw [Std.TreeSet.mem_ofList, List.contains_iff_mem, List.mem_singleton]

theorem spread_start (es : List Edge) (term : String) :
    Spread es (.ofList [Text.fold term]) [term] := by
  refine ⟨fun u hu => ?_, fun a ha => .inl ?_⟩
  · rw [List.mem_singleton.mp hu]
    exact mem_seen_start.mpr rfl
  · rw [mem_seen_start.mp ha]
    exact List.mem_singleton_self _

theorem mem_seen_next (next : List String) :
    a ∈ seen.insertMany (next.map Text.fold) ↔ a ∈ seen ∨ ∃ t ∈ next, Text.fold t = a := by
  rw [Std.TreeSet.mem_insertMany_list, List.contains_iff_mem, List.mem_map]

/-- The next layer is spread out in the same way. -/
theorem Spread.next (h : Spread es seen frontier) (haimed : Aimed es) :
    Spread es
      (seen.insertMany ((Text.fresh seen (statedTypes es frontier)).map Text.fold))
      (Text.fresh seen (statedTypes es frontier)) where
  met u hu := (mem_seen_next _).mpr (.inr ⟨u, hu, rfl⟩)
  left a ha := by
    rcases (mem_seen_next _).mp ha with hold | ⟨t, ht, rfl⟩
    · refine .inr fun b hstep => (mem_seen_next _).mpr ?_
      rcases h.left a hold with hfront | hclosed
      · obtain ⟨u, hu, rfl⟩ := List.mem_map.mp hfront
        obtain ⟨t, ht, rfl⟩ := (exists_statedTypes_iff haimed).mpr ⟨u, hu, hstep⟩
        exact Text.exists_fresh ht
      · exact .inl (hclosed b hstep)
    · exact .inl (List.mem_map_of_mem ht)

/-- A way from a seen term to one that is not seen passes through the next layer. -/
theorem Spread.exists_next (h : Spread es seen frontier) (haimed : Aimed es)
    (hway : Way es n a x) (ha : a ∈ seen) (hx : x ∉ seen) :
    ∃ t ∈ Text.fresh seen (statedTypes es frontier),
      Text.fold t = x ∨ ∃ m < n, Way es m (Text.fold t) x := by
  -- one edge out of what is seen starts at the frontier
  have hedge : ∀ a b, a ∈ seen → Step es a b → b ∉ seen →
      ∃ t ∈ Text.fresh seen (statedTypes es frontier), Text.fold t = b := by
    intro a b ha hstep hb
    rcases h.left a ha with hfront | hclosed
    · obtain ⟨u, hu, rfl⟩ := List.mem_map.mp hfront
      obtain ⟨t, ht, rfl⟩ := (exists_statedTypes_iff haimed).mpr ⟨u, hu, hstep⟩
      exact (Text.exists_fresh ht).resolve_left hb
    · exact absurd (hclosed b hstep) hb
  induction hway with
  | edge hstep =>
    obtain ⟨t, ht, hfold⟩ := hedge _ _ ha hstep hx
    exact ⟨t, ht, .inl hfold⟩
  | @cons a c b n hstep hrest ih =>
    by_cases hc : c ∈ seen
    · obtain ⟨t, ht, hend | ⟨m, hm, hway⟩⟩ := ih hc hx
      · exact ⟨t, ht, .inl hend⟩
      · exact ⟨t, ht, .inr ⟨m, by omega, hway⟩⟩
    · obtain ⟨t, ht, rfl⟩ := hedge _ _ ha hstep hc
      exact ⟨t, ht, .inr ⟨n, Nat.lt_succ_self n, hrest⟩⟩

theorem way_of_mem_typesAux (haimed : Aimed es) (h : t ∈ typesAux es depth seen frontier) :
    Text.fold t ∉ seen ∧ ∃ u ∈ frontier, ∃ n ≤ depth, Way es n (Text.fold u) (Text.fold t) := by
  induction depth generalizing seen frontier with
  | zero => cases h
  | succ depth ih =>
    have hstep : ∀ u ∈ Text.fresh seen (statedTypes es frontier),
        ∃ v ∈ frontier, Step es (Text.fold v) (Text.fold u) := fun u hu =>
      (exists_statedTypes_iff haimed).mp ⟨u, Text.mem_of_mem_fresh hu, rfl⟩
    unfold typesAux at h
    split at h
    · cases h
    rcases List.mem_append.mp h with hnext | hlater
    · obtain ⟨v, hv, hedge⟩ := hstep t hnext
      exact ⟨Text.fold_not_mem_of_mem_fresh hnext, v, hv, 1, by omega, .edge hedge⟩
    · obtain ⟨hnew, u, hu, n, hn, hway⟩ := ih hlater
      obtain ⟨v, hv, hedge⟩ := hstep u hu
      exact ⟨fun hmem => hnew ((mem_seen_next _).mpr (.inl hmem)), v, hv, n + 1, by omega,
        .cons hedge hway⟩

theorem exists_mem_typesAux (h : Spread es seen frontier) (haimed : Aimed es)
    (hway : Way es n a x) (hn : n ≤ depth) (ha : a ∈ seen) (hx : x ∉ seen) :
    ∃ t ∈ typesAux es depth seen frontier, Text.fold t = x := by
  induction depth generalizing seen frontier a n with
  | zero =>
    have := hway.pos
    omega
  | succ depth ih =>
    obtain ⟨t, ht, hcase⟩ := h.exists_next haimed hway ha hx
    have hfrontier : frontier.isEmpty = false := by
      cases frontier with
      | nil => cases ht
      | cons => rfl
    unfold typesAux
    rw [hfrontier, if_neg Bool.false_ne_true]
    by_cases hlayer : ∃ u ∈ Text.fresh seen (statedTypes es frontier), Text.fold u = x
    · obtain ⟨u, hu, hfold⟩ := hlayer
      exact ⟨u, List.mem_append_left _ hu, hfold⟩
    · obtain ⟨m, hm, hrest⟩ := hcase.resolve_left fun hfold => hlayer ⟨t, ht, hfold⟩
      have hnew : x ∉ seen.insertMany
          ((Text.fresh seen (statedTypes es frontier)).map Text.fold) := fun hmem =>
        ((mem_seen_next _).mp hmem).elim hx hlayer
      obtain ⟨u, hu, hfold⟩ := ih (h.next haimed) hrest (by omega)
        ((mem_seen_next _).mpr (.inr ⟨t, ht, rfl⟩)) hnew
      exact ⟨u, List.mem_append_right _ hu, hfold⟩

end

/-- **The types of a term** are, up to spelling, the other terms at the ends of ways of membership
facts within the depth. -/
theorem exists_mem_types_iff {facts : List Fact} {term : String} :
    (∃ t ∈ types facts term depth, Text.fold t = x) ↔
      x ≠ Text.fold term ∧ ∃ n ≤ depth, Way (edges facts Relation.isA) n (Text.fold term) x := by
  have haimed := aimed_edges facts Relation.isA
  unfold types
  constructor
  · rintro ⟨t, ht, rfl⟩
    obtain ⟨hnew, u, hu, n, hn, hway⟩ := way_of_mem_typesAux haimed ht
    rw [List.mem_singleton.mp hu] at hway
    exact ⟨fun heq => hnew (mem_seen_start.mpr heq), n, hn, hway⟩
  · rintro ⟨hne, n, hn, hway⟩
    exact exists_mem_typesAux (spread_start _ term) haimed hway hn (mem_seen_start.mpr rfl)
      fun hmem => hne (mem_seen_start.mp hmem)

end KnowledgeBase.Chain
