import KnowledgeBase.Proofs.Inference.Certainty

/-!
# Trails of facts

A way as the facts that it is made of, in their order.  The search for a chain goes layer by layer,
so all tips of a round have paths of one length, and the first path that arrives is a shortest one.

* `Joined`: links in a row, each from where the one before it ends;
* `Chain.Leads`, `Chain.Connects`: facts that lead from one term to another;
* `Chain.way_edges_iff`: a way is a trail whose facts are left out;
* `Chain.Rooted`: tips that have come equally far, and `Chain.search_eq_ite`, what the rounds make of
  them: the path that is found at one depth is found at every depth from its length on, and nothing
  is found below;
* `Inference.transitive_shortest`: the answer and its steps.
-/

namespace KnowledgeBase

/-! ### Links in a row -/

/-- The links lead from one term to another, each from where the one before it ends. -/
def Joined {α : Type} (source target : α → String) : List α → String → String → Prop
  | [], a, b => a = b
  | x :: xs, a, b => source x = a ∧ Joined source target xs (target x) b

namespace Joined

variable {α : Type} {source target : α → String} {xs ys : List α} {x : α} {a b : String}

instance decidable : (xs : List α) → (a b : String) → Decidable (Joined source target xs a b)
  | [], a, b => inferInstanceAs (Decidable (a = b))
  | x :: xs, a, b =>
    have := decidable xs (target x) b
    inferInstanceAs (Decidable (source x = a ∧ Joined source target xs (target x) b))

theorem concat (h : Joined source target xs a b) (hx : source x = b) :
    Joined source target (xs ++ [x]) a (target x) := by
  induction xs generalizing a with
  | nil => exact ⟨hx.trans (Eq.symm h), rfl⟩
  | cons y ys ih => exact ⟨h.1, ih h.2⟩

/-- What comes after a link leads on from its end. -/
theorem after (h : Joined source target (xs ++ x :: ys) a b) :
    Joined source target ys (target x) b := by
  induction xs generalizing a with
  | nil => exact h.2
  | cons y xs ih => exact ih h.2

end Joined

namespace Chain

variable {facts path : List Fact} {f : Fact} {relation start target a b : String} {n depth : Nat}
  {es : List Edge}

/-! ### Trails -/

/-- Facts of a relation that lead from one folded term to another. -/
structure Leads (facts : List Fact) (relation : String) (path : List Fact) (a b : String) :
    Prop where
  stated : ∀ f ∈ path, f ∈ facts ∧ f.relation = relation
  joined : Joined (fun f => Text.fold f.subject) (fun f => Text.fold f.object) path a b

theorem Leads.concat (h : Leads facts relation path a b) (hf : f ∈ facts)
    (hrel : f.relation = relation) (hmeet : Text.fold f.subject = b) :
    Leads facts relation (path ++ [f]) a (Text.fold f.object) where
  stated g hg := by
    rcases List.mem_append.mp hg with hg | hg
    · exact h.stated g hg
    · rw [List.mem_singleton.mp hg]
      exact ⟨hf, hrel⟩
  joined := h.joined.concat hmeet

/-- Ways are trails without their facts. -/
theorem way_edges_iff : Way (edges facts relation) n a b ↔
    ∃ path, path ≠ [] ∧ path.length = n ∧ Leads facts relation path a b := by
  constructor
  · intro h
    induction h with
    | edge hstep =>
      obtain ⟨f, hf, hrel, hsource, htarget⟩ := Inference.Saturation.step_edges.mp hstep
      exact ⟨[f], List.cons_ne_nil _ _, rfl, by simp [hf, hrel], hsource, htarget⟩
    | cons hstep _ ih =>
      obtain ⟨f, hf, hrel, hsource, rfl⟩ := Inference.Saturation.step_edges.mp hstep
      obtain ⟨path, -, rfl, hpath⟩ := ih
      refine ⟨f :: path, List.cons_ne_nil _ _, rfl, ?_, hsource, hpath.joined⟩
      exact List.forall_mem_cons.mpr ⟨⟨hf, hrel⟩, hpath.stated⟩
  · rintro ⟨path, hne, rfl, hpath⟩
    induction path generalizing a with
    | nil => exact absurd rfl hne
    | cons f rest ih =>
      obtain ⟨⟨hf, hrel⟩, hstated⟩ := List.forall_mem_cons.mp hpath.stated
      obtain ⟨hsource, hjoined⟩ := hpath.joined
      have hstep : Step (edges facts relation) a (Text.fold f.object) :=
        Inference.Saturation.step_edges.mpr ⟨f, hf, hrel, hsource, rfl⟩
      cases rest with
      | nil => exact .edge ((show Text.fold f.object = b from hjoined) ▸ hstep)
      | cons g rest => exact .cons hstep (ih (List.cons_ne_nil _ _) ⟨hstated, hjoined⟩)

/-! ### Tips -/

/-- A tip stands where a trail of a length leads. -/
structure Rooted (facts : List Fact) (relation start : String) (n : Nat) (t : Tip) : Prop where
  length : t.path.length = n
  leads : Leads facts relation t.path start t.term

/-- Growth makes every trail longer by one fact. -/
theorem Sprouts.rooted {tips : List Tip} {t : Tip} (h : Sprouts (edges facts relation) tips t)
    (htips : ∀ u ∈ tips, Rooted facts relation start n u) :
    Rooted facts relation start (n + 1) t := by
  obtain ⟨u, hu, e, he, hsource, rfl⟩ := h
  obtain ⟨f, hf, rfl⟩ := List.mem_map.mp he
  obtain ⟨hf, hrel⟩ := List.mem_filter.mp hf
  have hroot := htips u hu
  refine ⟨?_, hroot.leads.concat hf (beq_iff_eq.mp hrel) hsource⟩
  rw [List.length_append, hroot.length, List.length_singleton]

/-! ### Shortest chains -/

/-- **From tips that have come equally far, the path that is found at one depth is found at every
depth that its length fits in, and at no other.**  It leads from the start to the target. -/
theorem search_eq_ite {tips : List Tip} {visited : List String}
    (htips : ∀ t ∈ tips, Rooted facts relation start n t)
    (h : search (edges facts relation) target depth tips visited = some path) :
    Leads facts relation path start target ∧ ∀ d,
      search (edges facts relation) target d tips visited =
        if path.length ≤ n + d then some path else none := by
  induction depth generalizing tips visited n with
  | zero => cases h
  | succ depth ih =>
    unfold search at h
    split at h
    · cases h
    · rename_i htip
      split at h
      · rename_i harrived
        cases h
        have hroot : Rooted facts relation start (n + 1) ⟨target, path⟩ :=
          (sprouts_of_arrived harrived).rooted htips
        have hlen : path.length = n + 1 := hroot.length
        refine ⟨hroot.leads, fun d => ?_⟩
        cases d with
        | zero => exact (if_neg (by omega)).symm
        | succ d =>
          unfold search
          rw [if_neg htip, harrived]
          exact (if_pos (by omega)).symm
      · rename_i visited' ahead' hgoing
        have hahead : ∀ t ∈ ahead', Rooted facts relation start (n + 1) t := fun t ht =>
          ((sprouts_of_going hgoing ht).resolve_left List.not_mem_nil).rooted htips
        obtain ⟨hleads, hevery⟩ := ih hahead h
        refine ⟨hleads, fun d => ?_⟩
        cases d with
        | zero =>
          -- the rounds that follow give nothing at depth zero, so the path is longer than this
          have hnone := hevery 0
          rw [show search (edges facts relation) target 0 ahead' visited' = none from rfl] at hnone
          have hlong : ¬ path.length ≤ n + 1 := fun hle => by simp [hle] at hnone
          exact (if_neg (by omega)).symm
        | succ d =>
          unfold search
          rw [if_neg htip, hgoing]
          dsimp only
          rw [hevery d, show n + 1 + d = n + (d + 1) by omega]

/-- What leads from the subject of a goal to its object: one fact of its relation, or several in a
row. -/
structure Connects (facts : List Fact) (goal : Triple) (path : List Fact) : Prop where
  nonempty : path ≠ []
  leads : Leads facts goal.relation path (Text.fold goal.subject) (Text.fold goal.object)

variable {goal : Triple}

theorem exists_connects_iff : (∃ path, Connects facts goal path ∧ path.length ≤ depth) ↔
    ∃ n ≤ depth,
      Way (edges facts goal.relation) n (Text.fold goal.subject) (Text.fold goal.object) := by
  constructor
  · rintro ⟨path, hpath, hlen⟩
    exact ⟨path.length, hlen, way_edges_iff.mpr ⟨path, hpath.nonempty, rfl, hpath.leads⟩⟩
  · rintro ⟨n, hn, hway⟩
    obtain ⟨path, hne, rfl, hleads⟩ := way_edges_iff.mp hway
    exact ⟨path, ⟨hne, hleads⟩, hn⟩

/-- What is connected is connected by no more facts than there are. -/
theorem Connects.exists_short (h : Connects facts goal path) :
    ∃ short, Connects facts goal short ∧ short.length ≤ facts.length := by
  have hway := way_edges_iff.mpr ⟨path, h.nonempty, rfl, h.leads⟩
  exact exists_connects_iff.mpr (Inference.Saturation.exists_way_edges hway.transGen)

theorem isSome_shortest?_iff :
    (shortest? facts goal.relation goal.subject goal.object depth).isSome ↔
      ∃ path, Connects facts goal path ∧ path.length ≤ depth :=
  shortest?_isSome_iff.trans exists_connects_iff.symm

theorem shortest?_eq_ite
    (h : shortest? facts goal.relation goal.subject goal.object depth = some path) :
    Connects facts goal path ∧ ∀ d,
      shortest? facts goal.relation goal.subject goal.object d =
        if path.length ≤ d then some path else none := by
  have hstart : ∀ t ∈ [Tip.mk (Text.fold goal.subject) []],
      Rooted facts goal.relation (Text.fold goal.subject) 0 t := by
    intro t ht
    rw [List.mem_singleton.mp ht]
    exact ⟨rfl, fun f hf => absurd hf List.not_mem_nil, rfl⟩
  obtain ⟨hleads, hevery⟩ := search_eq_ite hstart h
  simp only [Nat.zero_add] at hevery
  refine ⟨⟨fun hnil => ?_, hleads⟩, hevery⟩
  -- nothing is found at depth zero, so the path is not empty
  have hnone := hevery 0
  rw [hnil] at hnone
  cases hnone

/-- No other chain is shorter than the one that is found. -/
theorem length_le_of_shortest? {other : List Fact}
    (h : shortest? facts goal.relation goal.subject goal.object depth = some path)
    (hother : Connects facts goal other) : path.length ≤ other.length := by
  have hsome := isSome_shortest?_iff.mpr ⟨other, hother, Nat.le_refl _⟩
  rw [(shortest?_eq_ite h).2] at hsome
  by_contra hlong
  rw [if_neg hlong] at hsome
  cases hsome

/-- **The search ends by itself**: beyond as many rounds as there are facts, the depth does not
matter. -/
theorem shortest?_of_length_le (h : facts.length ≤ depth) :
    shortest? facts goal.relation goal.subject goal.object depth =
      shortest? facts goal.relation goal.subject goal.object facts.length := by
  cases hfound : shortest? facts goal.relation goal.subject goal.object depth with
  | none =>
    refine (Option.not_isSome_iff_eq_none.mp fun hsome => ?_).symm
    obtain ⟨path, hpath, hlen⟩ := isSome_shortest?_iff.mp hsome
    have hdeep := isSome_shortest?_iff.mpr ⟨path, hpath, hlen.trans h⟩
    rw [hfound] at hdeep
    cases hdeep
  | some path =>
    obtain ⟨hpath, hevery⟩ := shortest?_eq_ite hfound
    obtain ⟨short, hshort, hlen⟩ := hpath.exists_short
    rw [hevery, if_pos ((length_le_of_shortest? hfound hshort).trans hlen)]

end Chain

namespace Inference

open Chain

variable {i : Inference} {facts : List Fact} {goal : Triple} {depth : Nat}

/-- A goal is certain exactly if its relation is transitive and it is connected within the
depth. -/
theorem transitive_certain_iff_connects :
    (i.transitive facts goal depth).truth = .certain ↔
      i.relations.isTransitive goal.relation = true ∧
        ∃ path, Connects facts goal path ∧ path.length ≤ depth := by
  rw [transitive_certain_iff, exists_connects_iff]

/-- **The transitive method finds a shortest chain, wherever there is one within the depth.**  Its
steps are the facts of the chain in their order, terms meet up to spelling, and a chain may lead
back to where it starts.  The search ends on all facts: there is an end to its rounds that does not
depend on the depth. -/
theorem transitive_shortest (h : i.relations.isTransitive goal.relation = true)
    (facts : List Fact) (depth : Nat) :
    ((i.transitive facts goal depth).truth = .certain ↔
      ∃ path, Connects facts goal path ∧ path.length ≤ depth) ∧
    ((i.transitive facts goal depth).truth = .certain →
      ∃ path, Connects facts goal path ∧ path.length ≤ depth ∧
        (∀ other, Connects facts goal other → path.length ≤ other.length) ∧
        (i.transitive facts goal depth).proof.map Proof.steps =
          some (path.map fun f => ⟨.transitiveEdge, f.text⟩)) ∧
    ∀ deeper, facts.length ≤ deeper →
      i.transitive facts goal deeper = i.transitive facts goal facts.length := by
  have hiff : (i.transitive facts goal depth).truth = .certain ↔
      ∃ path, Connects facts goal path ∧ path.length ≤ depth :=
    transitive_certain_iff_connects.trans (and_iff_right h)
  refine ⟨hiff, fun hcertain => ?_, fun deeper hdeeper => ?_⟩
  · rw [hiff, ← isSome_shortest?_iff] at hcertain
    obtain ⟨path, hfound⟩ := Option.isSome_iff_exists.mp hcertain
    obtain ⟨hpath, hevery⟩ := shortest?_eq_ite hfound
    have hfits : path.length ≤ depth := by
      by_contra hlong
      rw [hevery, if_neg hlong] at hfound
      cases hfound
    refine ⟨path, hpath, hfits, fun other => length_le_of_shortest? hfound, ?_⟩
    unfold transitive
    rw [h, hfound]
    rfl
  · unfold transitive
    rw [shortest?_of_length_le hdeeper]

/-- A wheel is part of a cart by way of the axle, and a spelling of it is part of the cart at once;
the cart is part of the wheel again. -/
def cartFacts : List Fact :=
  [{ triple := ⟨"Wheel", "PART_OF", "Axle"⟩ }, { triple := ⟨"axle", "PART_OF", "Cart"⟩ },
    { triple := ⟨"Cart", "PART_OF", "wheel"⟩ }, { triple := ⟨"cart", "PART_OF", "Fleet"⟩ },
    { triple := ⟨" wheel", "PART_OF", "Cart"⟩ }]

/-- At a depth of two edges only the short way fits, which is stated last. -/
theorem transitive_shortest_shortcut :
    let i : Inference := {}
    let goal : Triple := ⟨"WHEEL", "PART_OF", "fleet"⟩
    i.relations.isTransitive goal.relation = true ∧
      (∃ path, Connects cartFacts goal path ∧
        (∀ other, Connects cartFacts goal other → path.length ≤ other.length) ∧
        path.map Fact.text = [" wheel PART_OF Cart", "cart PART_OF Fleet"]) ∧
      (i.transitive cartFacts goal 1).truth ≠ .certain ∧
      ∀ deeper, 5 ≤ deeper → i.transitive cartFacts goal deeper = i.transitive cartFacts goal 5 := by
  intro i goal
  have htransitive : i.relations.isTransitive goal.relation = true := by decide +kernel
  obtain ⟨-, hfound, hends⟩ := transitive_shortest htransitive cartFacts 2
  obtain ⟨path, hpath, -, hleast, hsteps⟩ := hfound (by decide +kernel)
  have hproof : (i.transitive cartFacts goal 2).proof.map Proof.steps = some
      [⟨.transitiveEdge, " wheel PART_OF Cart"⟩, ⟨.transitiveEdge, "cart PART_OF Fleet"⟩] := by
    decide +kernel
  have htexts := congrArg (List.map Step.detail) (Option.some.inj (hsteps.symm.trans hproof))
  rw [List.map_map] at htexts
  exact ⟨htransitive, ⟨path, hpath, hleast, htexts⟩, by decide +kernel, hends⟩

/-- A way back to its start counts as well. -/
example : (({} : Inference).transitive cartFacts ⟨"Wheel", "PART_OF", "wheel"⟩ 2).truth =
    .certain := by
  decide +kernel

end Inference

end KnowledgeBase
