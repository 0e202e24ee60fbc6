import KnowledgeBase.Proofs.Inference.Trails

/-!
# Inheritance from the nearest type

The types of a term are taken layer by layer, each up to spelling once.  A smaller depth takes the
first of the same layers, so what is found among the types within some depth is found first at every
greater depth: the type that a property is inherited from is one of the nearest that have it.

* `Chain.types_extends`: more depth adds types behind the others;
* `Chain.types_of_length_le`: beyond as many layers as there are facts nothing is added;
* `Inference.Bequeaths`: a type that has the property, and the facts that lead to it;
* `Inference.inheritance_nearest`: what inheritance finds.
-/

namespace KnowledgeBase

namespace Chain

variable {es : List Edge} {facts : List Fact} {seen : Std.TreeSet String} {frontier : List String}
  {term : String} {n depth : Nat}

/-! ### Layers of types -/

theorem typesAux_extends (h : n ≤ depth) :
    typesAux es n seen frontier <+: typesAux es depth seen frontier := by
  induction n generalizing depth seen frontier with
  | zero => exact List.nil_prefix
  | succ n ih =>
    obtain ⟨depth, rfl⟩ : ∃ k, depth = k + 1 := ⟨depth - 1, by omega⟩
    unfold typesAux
    split
    · exact List.prefix_rfl
    · exact (List.prefix_append_right_inj _).mpr (ih (by omega))

/-- More depth adds types behind those that are there. -/
theorem types_extends (h : n ≤ depth) : types facts term n <+: types facts term depth :=
  typesAux_extends h

/-- A later layer brings no type again. -/
theorem nodup_typesAux (haimed : Aimed es) :
    ((typesAux es depth seen frontier).map Text.fold).Nodup := by
  induction depth generalizing seen frontier with
  | zero => exact List.nodup_nil
  | succ depth ih =>
    unfold typesAux
    split
    · exact List.nodup_nil
    · rw [List.map_append]
      refine List.nodup_append.mpr ⟨Text.nodup_fresh _ _, ih, ?_⟩
      intro a ha b hb heq
      obtain ⟨u, hu, rfl⟩ := List.mem_map.mp ha
      obtain ⟨t, ht, rfl⟩ := List.mem_map.mp hb
      exact (way_of_mem_typesAux haimed ht).1 ((mem_seen_next _).mpr (.inr ⟨u, hu, heq⟩))

/-- **The layers come to an end**: a type that is further away than there are facts is near as
well. -/
theorem types_of_length_le (h : facts.length ≤ depth) :
    types facts term depth = types facts term facts.length := by
  have hprefix : types facts term facts.length <+: types facts term depth := types_extends h
  obtain ⟨more, hmore⟩ := hprefix
  cases more with
  | nil => rw [← hmore, List.append_nil]
  | cons t more =>
    have ht : t ∈ types facts term depth :=
      hmore ▸ List.mem_append_right _ List.mem_cons_self
    obtain ⟨hne, n, -, hway⟩ := exists_mem_types_iff.mp ⟨t, ht, rfl⟩
    obtain ⟨m, hm, hshort⟩ := Inference.Saturation.exists_way_edges hway.transGen
    obtain ⟨u, hu, hfold⟩ := exists_mem_types_iff.mpr ⟨hne, m, hm, hshort⟩
    have hnodup : ((types facts term depth).map Text.fold).Nodup :=
      nodup_typesAux (aimed_edges facts Relation.isA)
    rw [← hmore, List.map_append] at hnodup
    exact absurd hfold ((List.nodup_append.mp hnodup).2.2 _ (List.mem_map_of_mem hu) _
      List.mem_cons_self)

end Chain

namespace Inference

open Chain

variable {i : Inference} {facts path : List Fact} {goal : Triple} {t : String} {f : Fact}
  {depth : Nat}

/-! ### The type that is found -/

/-- A type of the subject, other than the subject, of which the property is stated, and the
memberships that lead to it, of which there is at least one. -/
structure Bequeaths (facts : List Fact) (goal : Triple) (t : String) (path : List Fact) : Prop where
  differs : Text.fold t ≠ Text.fold goal.subject
  connects : Connects facts ⟨goal.subject, Relation.isA, t⟩ path
  stated : ∃ f ∈ facts, f.states { goal with subject := t } = true

/-- What is stated of a type. -/
def bequest? (facts : List Fact) (goal : Triple) (t : String) : Option (String × Fact) :=
  (facts.find? (·.states { goal with subject := t })).map fun f => (t, f)

theorem isSome_bequest?_iff :
    (bequest? facts goal t).isSome ↔ ∃ f ∈ facts, f.states { goal with subject := t } = true := by
  unfold bequest?
  rw [Option.isSome_map, List.find?_isSome]

/-- A type that is found within a depth is reached within it. -/
theorem exists_bequeaths
    (h : (types facts goal.subject depth).findSome? (bequest? facts goal) = some (t, f)) :
    ∃ path, Bequeaths facts goal t path ∧ path.length ≤ depth := by
  obtain ⟨u, hu, hbequest⟩ := List.exists_of_findSome?_eq_some h
  have hstated := isSome_bequest?_iff.mp (Option.isSome_of_eq_some hbequest)
  obtain ⟨g, -, hpair⟩ := Option.map_eq_some_iff.mp hbequest
  obtain rfl : u = t := congrArg Prod.fst hpair
  obtain ⟨hne, hway⟩ := exists_mem_types_iff.mp ⟨u, hu, rfl⟩
  have hnear : ∃ path, Connects facts ⟨goal.subject, Relation.isA, u⟩ path ∧ path.length ≤ depth :=
    exists_connects_iff.mpr hway
  obtain ⟨path, hpath, hlen⟩ := hnear
  exact ⟨path, ⟨hne, hpath, hstated⟩, hlen⟩

/-- Wherever there is a type to inherit from, one is found at every depth from its distance on. -/
theorem Bequeaths.found (h : Bequeaths facts goal t path) (hlen : path.length ≤ depth) :
    ((types facts goal.subject depth).findSome? (bequest? facts goal)).isSome := by
  have hway := exists_connects_iff.mp ⟨path, h.connects, hlen⟩
  obtain ⟨u, hu, hfold⟩ := exists_mem_types_iff.mpr ⟨h.differs, hway⟩
  obtain ⟨g, hg, hstates⟩ := h.stated
  refine List.findSome?_isSome_iff.mpr ⟨u, hu, isSome_bequest?_iff.mpr ⟨g, hg, ?_⟩⟩
  rw [Saturation.states_iff] at hstates ⊢
  exact ⟨hstates.1, hstates.2.1.trans hfold.symm, hstates.2.2⟩

theorem inheritance_certain_iff_found (h : i.relations.isInheritable goal.relation = true) :
    (i.inheritance facts goal depth).truth = .certain ↔
      ((types facts goal.subject depth).findSome? (bequest? facts goal)).isSome := by
  rw [inheritance_certain_iff, and_iff_right h, List.findSome?_isSome_iff]
  simp only [isSome_bequest?_iff]

/-- The answer names the type that is found first. -/
theorem found_inheritedFrom (h : i.relations.isInheritable goal.relation = true)
    (hcertain : (i.inheritance facts goal depth).truth = .certain) :
    ∃ f, (types facts goal.subject depth).findSome? (bequest? facts goal) =
      some ((i.inheritance facts goal depth).inheritedFrom, f) := by
  obtain ⟨⟨t, f⟩, hfound⟩ :=
    Option.isSome_iff_exists.mp ((inheritance_certain_iff_found h).mp hcertain)
  refine ⟨f, hfound.trans ?_⟩
  have hinner : (types facts goal.subject depth).findSome? (fun t =>
      (facts.find? (·.states { goal with subject := t })).map fun f => (t, f)) = some (t, f) :=
    hfound
  unfold inheritance
  rw [h, hinner]
  rfl

/-- **A property is inherited exactly if a type within the depth has it, and then from a nearest
one.**  The taxonomy may lead in cycles: its layers come to an end that does not depend on the
depth. -/
theorem inheritance_nearest (h : i.relations.isInheritable goal.relation = true)
    (facts : List Fact) (depth : Nat) :
    ((i.inheritance facts goal depth).truth = .certain ↔
      ∃ t path, Bequeaths facts goal t path ∧ path.length ≤ depth) ∧
    ((i.inheritance facts goal depth).truth = .certain →
      ∃ path, Bequeaths facts goal (i.inheritance facts goal depth).inheritedFrom path ∧
        path.length ≤ depth ∧
        ∀ t' path', Bequeaths facts goal t' path' → path.length ≤ path'.length) ∧
    ∀ deeper, facts.length ≤ deeper →
      i.inheritance facts goal deeper = i.inheritance facts goal facts.length := by
  refine ⟨⟨fun hcertain => ?_, ?_⟩, fun hcertain => ?_, fun deeper hdeeper => ?_⟩
  · obtain ⟨f, hfound⟩ := found_inheritedFrom h hcertain
    exact ⟨_, exists_bequeaths hfound⟩
  · rintro ⟨t, path, hpath, hlen⟩
    exact (inheritance_certain_iff_found h).mpr (hpath.found hlen)
  · obtain ⟨f, hfound⟩ := found_inheritedFrom h hcertain
    obtain ⟨far, hsome, hwithin⟩ := exists_bequeaths hfound
    -- of the chains to the type that is found, a shortest one
    obtain ⟨path, hshortest⟩ := Option.isSome_iff_exists.mp
      (isSome_shortest?_iff.mpr ⟨far, hsome.connects, hwithin⟩)
    have hleast : ∀ other, Connects facts ⟨goal.subject, Relation.isA, _⟩ other →
        path.length ≤ other.length := fun _ => length_le_of_shortest? hshortest
    have hnear := (hleast _ hsome.connects).trans hwithin
    refine ⟨path, ⟨hsome.differs, (shortest?_eq_ite hshortest).1, hsome.stated⟩, hnear, ?_⟩
    intro t' path' hother
    by_cases hfits : path'.length ≤ depth
    · -- what is found at the distance of the other type is what is found at the full depth
      obtain ⟨⟨u, g⟩, hearly⟩ := Option.isSome_iff_exists.mp (hother.found (Nat.le_refl _))
      have hlate := (types_extends hfits).findSome?_eq_some hearly
      obtain ⟨rfl, rfl⟩ := Prod.mk.inj (Option.some.inj (hlate.symm.trans hfound))
      obtain ⟨near, hreached, hlen⟩ := exists_bequeaths hearly
      exact (hleast _ hreached.connects).trans hlen
    · omega
  · unfold inheritance
    rw [types_of_length_le hdeeper]

/-- A canary is an animal by way of birds, and as a pet; animals are said to be Tweety again. -/
def petFacts : List Fact :=
  [{ triple := ⟨"Tweety", "IS_A", "Canary"⟩ }, { triple := ⟨"canary", "IS_A", "Bird"⟩ },
    { triple := ⟨"Bird", "IS_A", "Animal"⟩ }, { triple := ⟨"Animal", "IS_A", "tweety"⟩ },
    { triple := ⟨"Tweety", "IS_A", "Pet"⟩ }, { triple := ⟨"Pet", "IS_A", "animal"⟩ },
    { triple := ⟨"Animal", "CAN", "move"⟩ }]

/-- The way through pets is the shorter one, and a depth of one edge is not enough for it. -/
theorem inheritance_nearest_pet :
    let i : Inference := {}
    let goal : Triple := ⟨"TWEETY", "CAN", "Move"⟩
    i.relations.isInheritable goal.relation = true ∧
      (∃ path, Bequeaths petFacts goal "animal" path ∧ path.length ≤ 2 ∧
        ∀ t' path', Bequeaths petFacts goal t' path' → path.length ≤ path'.length) ∧
      (i.inheritance petFacts goal 1).truth ≠ .certain ∧
      ∀ deeper, 7 ≤ deeper → i.inheritance petFacts goal deeper = i.inheritance petFacts goal 7 := by
  intro i goal
  have hinheritable : i.relations.isInheritable goal.relation = true := by decide +kernel
  obtain ⟨-, hfound, hends⟩ := inheritance_nearest hinheritable petFacts 2
  have hfrom : (i.inheritance petFacts goal 2).inheritedFrom = "animal" := by decide +kernel
  obtain ⟨path, hpath, hlen, hleast⟩ := hfound (by decide +kernel)
  rw [hfrom] at hpath
  exact ⟨hinheritable, ⟨path, hpath, hlen, hleast⟩, by decide +kernel, hends⟩

end Inference

end KnowledgeBase
