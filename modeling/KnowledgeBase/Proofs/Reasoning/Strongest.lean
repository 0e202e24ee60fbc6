import KnowledgeBase.Proofs.Inference.Trails
import KnowledgeBase.Proofs.Store.Keeping
import KnowledgeBase.Reasoning.Membership

/-!
# The strongest chain of memberships

A chain is as strong as its weakest edge.  The search takes up the strongest chain there is, and
gives up the edges from its end: whatever comes there later is no stronger.  The invariant is about
any one route to the target.  Some tip stands on it that is at least as strong as the whole route,
and the edges from there on have not been given up; so whichever tip is taken up is at least as
strong, and the first to arrive is.

* `Grades`, `Stated`: the level at which a fact states a membership;
* `Linked`, `weakest`: chains of stated memberships and their strength;
* `Runs`, `exists_runs_of_search`: what a chain that is found is made of;
* `search_of_route`: what is found is at least as strong as any route;
* `search_of_le`: the search ends by itself;
* `deduceIsA_strongest`: the verdict on a membership.
-/

namespace KnowledgeBase

namespace Membership

variable {facts : List Fact} {f : Fact} {e : Edge} {es edges : List Edge} {c : Chain}
  {tips rest : List Chain} {subject target : String} {level least w : Existence} {takes : Nat}

/-! ### Edges -/

/-- The level at which a fact states a membership: its own, or the one that its relation names. -/
inductive Grades (f : Fact) : Existence → Prop
  | plain : f.relation = "IS_A" → Grades f f.existence
  | certain : f.relation = "IS_A_CERTAIN" → Grades f Existence.certain
  | proven : f.relation = "IS_A_PROVEN" → Grades f Existence.demonstrated
  | possible : f.relation = "IS_A_POSSIBLE" → Grades f Existence.possible
  | unproven : f.relation = "IS_A_UNPROVEN" → Grades f Existence.unproven

theorem Grades.le_certain (h : Grades f level) (hf : f.existence ≤ Existence.certain) :
    level ≤ Existence.certain := by
  cases h with
  | plain => exact hf
  | certain | proven | possible | unproven => decide

theorem ofFact?_eq_some_iff : Edge.ofFact? f = some e ↔
    e.term = Text.fold f.subject ∧ e.type = f.object ∧ Grades f e.level := by
  constructor
  · intro h
    unfold Edge.ofFact? variantLevel? at h
    split at h
    · rename_i hvariant
      obtain rfl := Option.some.inj h
      refine ⟨rfl, rfl, ?_⟩
      split at hvariant
      · exact Option.some.inj hvariant ▸ .certain ‹_›
      · exact Option.some.inj hvariant ▸ .proven ‹_›
      · exact Option.some.inj hvariant ▸ .possible ‹_›
      · exact Option.some.inj hvariant ▸ .unproven ‹_›
      · cases hvariant
    · split at h
      · obtain rfl := Option.some.inj h
        exact ⟨rfl, rfl, .plain ‹_›⟩
      · cases h
  · obtain ⟨term, type, level⟩ := e
    rintro ⟨rfl, rfl, hgrade⟩
    cases hgrade with
    | plain h => simp [Edge.ofFact?, variantLevel?, Relation.isA, h]
    | certain h | proven h | possible h | unproven h =>
      simp only [Edge.ofFact?, variantLevel?, h]
      rfl

/-- A fact states this membership. -/
def Stated (facts : List Fact) (e : Edge) : Prop :=
  ∃ f ∈ facts, e.term = Text.fold f.subject ∧ e.type = f.object ∧ Grades f e.level

theorem mem_filterMap_ofFact?_iff : e ∈ facts.filterMap Edge.ofFact? ↔ Stated facts e := by
  simp only [List.mem_filterMap, ofFact?_eq_some_iff, Stated]

/-! ### Chains -/

/-- Edges in a row, each at the type where the one before it ends, up to spelling. -/
def InRow (es : List Edge) (a b : String) : Prop :=
  Joined Edge.term (fun e => Text.fold e.type) es a b

/-- A chain of stated memberships from a term to a type; there are no edges in it if the two are one
term. -/
structure Linked (facts : List Fact) (subject type : String) (es : List Edge) : Prop where
  stated : ∀ e ∈ es, Stated facts e
  inRow : InRow es (Text.fold subject) (Text.fold type)

/-- A chain is as strong as its weakest edge, and certain if it has none. -/
def weakest (es : List Edge) : Existence :=
  (es.map Edge.level).min?.getD Existence.certain

theorem le_weakest_iff (h : ∀ e ∈ es, e.level ≤ Existence.certain) :
    w ≤ weakest es ↔ w ≤ Existence.certain ∧ ∀ e ∈ es, w ≤ e.level := by
  unfold weakest
  cases hmin : (es.map Edge.level).min? with
  | none =>
    rw [List.min?_eq_none_iff, List.map_eq_nil_iff] at hmin
    simp [hmin]
  | some m =>
    have hle : w ≤ m ↔ ∀ e ∈ es, w ≤ e.level := by
      rw [List.le_min?_iff hmin, List.forall_mem_map]
    obtain ⟨e, he, rfl⟩ := List.mem_map.mp (List.min?_mem hmin)
    exact ⟨fun hw => ⟨hw.trans (h e he), hle.mp hw⟩, fun hw => hle.mpr hw.2⟩

/-- What a chain that is grown is made of: edges of a level or more, in a row from the subject to
where it ends. -/
structure Runs (all : List Edge) (subject : String) (least : Existence) (es : List Edge)
    (c : Chain) : Prop where
  firm : ∀ e ∈ es, e ∈ all ∧ least ≤ e.level
  inRow : InRow es (Text.fold subject) c.term
  path : c.path = subject :: es.map Edge.type
  level : ∀ w, w ≤ c.level ↔ w ≤ Existence.certain ∧ ∀ e ∈ es, w ≤ e.level

/-- The chain that every search starts from. -/
def origin (subject : String) : Chain := ⟨Text.fold subject, Existence.certain, [subject]⟩

theorem runs_origin : Runs edges subject least [] (origin subject) where
  firm e he := absurd he List.not_mem_nil
  inRow := rfl
  path := rfl
  level w := by simp [origin]

theorem Runs.extend {all : List Edge} (h : Runs all subject least es c) (he : e ∈ all)
    (hterm : e.term = c.term) (hfirm : least ≤ (c.extend e).level) :
    Runs all subject least (es ++ [e]) (c.extend e) where
  firm d hd := by
    rcases List.mem_append.mp hd with hd | hd
    · exact h.firm d hd
    · rw [List.mem_singleton.mp hd]
      exact ⟨he, hfirm.trans (min_le_right _ _)⟩
  inRow := Joined.concat h.inRow hterm
  path := by simp [Chain.extend, h.path]
  level w := by
    show w ≤ min c.level e.level ↔ _
    rw [Int.le_min, h.level, List.forall_mem_append, List.forall_mem_singleton, and_assoc]

theorem Runs.level_eq_weakest {all : List Edge} (h : Runs all subject least es c)
    (hall : ∀ e ∈ all, e.level ≤ Existence.certain) : c.level = weakest es := by
  refine eq_of_forall_le_iff fun w => ?_
  rw [h.level, le_weakest_iff fun e he => hall e (h.firm e he).1]

/-! ### One take -/

theorem strongest_eq_none_iff : strongest tips = none ↔ tips = [] := by
  cases tips with
  | nil => simp [strongest]
  | cons c cs =>
    unfold strongest
    split
    · simp
    · split <;> simp

/-- The chain that is taken up is one of the tips, no tip is stronger, and the others are left. -/
theorem strongest_eq_some (h : strongest tips = some (c, rest)) :
    tips.Perm (c :: rest) ∧ ∀ d ∈ tips, d.level ≤ c.level := by
  induction tips generalizing c rest with
  | nil => cases h
  | cons d ds ih =>
    unfold strongest at h
    split at h
    · rename_i hnone
      cases h
      rw [strongest_eq_none_iff.mp hnone]
      simp
    · rename_i best others hbest
      obtain ⟨hperm, hmax⟩ := ih hbest
      split at h
      · rename_i hweaker
        cases h
        refine ⟨(hperm.cons d).trans (.swap _ _ _), ?_⟩
        exact List.forall_mem_cons.mpr ⟨hweaker.le, hmax⟩
      · rename_i hstronger
        cases h
        refine ⟨.refl _, List.forall_mem_cons.mpr ⟨le_rfl, fun d hd => ?_⟩⟩
        exact (hmax d hd).trans (not_lt.mp hstronger)

/-- The chains that one grows into. -/
def Chain.grown (c : Chain) (least : Existence) (edges : List Edge) : List Chain :=
  ((edges.filter fun e => e.term == c.term).map c.extend).filter fun d => decide (least ≤ d.level)

/-- The edges that are left when a chain has grown. -/
def Chain.others (c : Chain) (edges : List Edge) : List Edge :=
  edges.filter fun e => !(e.term == c.term)

theorem mem_grown_iff {d : Chain} : d ∈ c.grown least edges ↔
    ∃ e ∈ edges, e.term = c.term ∧ c.extend e = d ∧ least ≤ d.level := by
  unfold Chain.grown
  simp only [List.mem_filter, List.mem_map, beq_iff_eq, decide_eq_true_eq]
  constructor
  · rintro ⟨⟨e, ⟨he, hterm⟩, heq⟩, hle⟩
    exact ⟨e, he, hterm, heq, hle⟩
  · rintro ⟨e, he, hterm, heq, hle⟩
    exact ⟨⟨e, ⟨he, hterm⟩, heq⟩, hle⟩

theorem mem_others_iff : e ∈ c.others edges ↔ e ∈ edges ∧ e.term ≠ c.term := by
  unfold Chain.others
  simp [List.mem_filter]

/-- An edge is followed or left, so one take makes tips and edges together fewer. -/
theorem length_take_lt (hperm : tips.Perm (c :: rest)) (least : Existence) (edges : List Edge) :
    (rest ++ c.grown least edges).length + (c.others edges).length <
      tips.length + edges.length := by
  have hgrown : (c.grown least edges).length ≤
      (edges.filter fun e => e.term == c.term).length :=
    (List.length_filter_le _ _).trans (List.length_map _).le
  have hedges := List.length_eq_length_filter_add (l := edges) fun e => e.term == c.term
  have htips := hperm.length_eq
  rw [List.length_cons] at htips
  rw [List.length_append, htips, hedges]
  unfold Chain.others
  omega

theorem search_succ : search target least (takes + 1) edges tips =
    match strongest tips with
    | none => none
    | some (c, rest) =>
      if c.term = target then some c
      else search target least takes (c.others edges) (rest ++ c.grown least edges) := by
  rw [search]
  cases strongest tips with
  | none => rfl
  | some p => simp only [List.partition_eq_filter_filter]; rfl

/-! ### The search -/

/-- What is found is grown from one of the tips, and arrives. -/
theorem exists_runs_of_search {all : List Edge} (hedges : ∀ e ∈ edges, e ∈ all)
    (htips : ∀ d ∈ tips, ∃ es, Runs all subject least es d)
    (h : search target least takes edges tips = some c) :
    c.term = target ∧ ∃ es, Runs all subject least es c := by
  induction takes generalizing edges tips with
  | zero => cases h
  | succ takes ih =>
    rw [search_succ] at h
    split at h
    · cases h
    · rename_i d rest hstrongest
      obtain ⟨hperm, -⟩ := strongest_eq_some hstrongest
      have hd := htips d (hperm.mem_iff.mpr List.mem_cons_self)
      split at h
      · rename_i harrived
        cases h
        exact ⟨harrived, hd⟩
      · refine ih (fun e he => hedges e (mem_others_iff.mp he).1) (fun d' hd' => ?_) h
        rcases List.mem_append.mp hd' with hrest | hgrown
        · exact htips d' (hperm.mem_iff.mpr (List.mem_cons_of_mem _ hrest))
        · obtain ⟨es, hruns⟩ := hd
          obtain ⟨e, he, hterm, rfl, hle⟩ := mem_grown_iff.mp hgrown
          exact ⟨es ++ [e], hruns.extend (hedges e he) hterm hle⟩

/-- Of the edges of a row that have a property there is a last one. -/
theorem exists_last {p : Edge → Prop} (h : ∃ e ∈ es, p e) :
    ∃ before e after, es = before ++ e :: after ∧ p e ∧ ∀ d ∈ after, ¬ p d := by
  induction es with
  | nil => simp at h
  | cons d ds ih =>
    by_cases hlater : ∃ e ∈ ds, p e
    · obtain ⟨before, e, after, rfl, he, hafter⟩ := ih hlater
      exact ⟨d :: before, e, after, rfl, he, hafter⟩
    · have hd : p d := by
        obtain ⟨e, he, hpe⟩ := h
        rcases List.mem_cons.mp he with rfl | he
        · exact hpe
        · exact absurd ⟨e, he, hpe⟩ hlater
      exact ⟨[], d, ds, rfl, hd, fun e he hpe => hlater ⟨e, he, hpe⟩⟩

/-- A tip stands on a route to the target, no weaker than `w`, whose edges from there on are left
and are no weaker than `w` either. -/
def OnRoute (target : String) (w : Existence) (edges : List Edge) (tips : List Chain) : Prop :=
  ∃ t ∈ tips, w ≤ t.level ∧ ∃ es, InRow es t.term target ∧ ∀ e ∈ es, e ∈ edges ∧ w ≤ e.level

/-- If the chain that is taken up has not arrived, a tip stands on the route again: where the route
leaves the end of that chain for the last time, or where it stood before. -/
theorem OnRoute.take (h : OnRoute target w edges tips) (hstrongest : strongest tips = some (c, rest))
    (hleast : least ≤ w) (hfar : c.term ≠ target) :
    OnRoute target w (c.others edges) (rest ++ c.grown least edges) := by
  obtain ⟨t, ht, hlevel, es, hrow, hes⟩ := h
  obtain ⟨hperm, hmax⟩ := strongest_eq_some hstrongest
  by_cases hmeets : ∃ e ∈ es, e.term = c.term
  · obtain ⟨before, e, after, rfl, hterm, hafter⟩ := exists_last hmeets
    obtain ⟨he, hwe⟩ := hes e (List.mem_append_right _ List.mem_cons_self)
    have hstrong : w ≤ (c.extend e).level := le_min (hlevel.trans (hmax t ht)) hwe
    have hgrown : c.extend e ∈ c.grown least edges :=
      mem_grown_iff.mpr ⟨e, he, hterm, rfl, hleast.trans hstrong⟩
    refine ⟨c.extend e, List.mem_append_right _ hgrown, hstrong, after, Joined.after hrow, ?_⟩
    intro d hd
    obtain ⟨hleft, hwd⟩ := hes d (List.mem_append_right _ (List.mem_cons_of_mem _ hd))
    exact ⟨mem_others_iff.mpr ⟨hleft, hafter d hd⟩, hwd⟩
  · have hrest : t ∈ rest := by
      refine (List.mem_cons.mp (hperm.mem_iff.mp ht)).resolve_left ?_
      rintro rfl
      cases es with
      | nil => exact hfar hrow
      | cons e es => exact hmeets ⟨e, List.mem_cons_self, hrow.1⟩
    refine ⟨t, List.mem_append_left _ hrest, hlevel, es, hrow, fun e he => ?_⟩
    obtain ⟨hleft, hwe⟩ := hes e he
    exact ⟨mem_others_iff.mpr ⟨hleft, fun hterm => hmeets ⟨e, he, hterm⟩⟩, hwe⟩

/-- **Where there is a route, a chain is found that is at least as strong.** -/
theorem search_of_route (h : OnRoute target w edges tips) (hleast : least ≤ w)
    (htakes : tips.length + edges.length ≤ takes) :
    ∃ c, search target least takes edges tips = some c ∧ w ≤ c.level := by
  induction takes generalizing edges tips with
  | zero =>
    obtain ⟨t, ht, -⟩ := h
    have := List.length_pos_of_mem ht
    omega
  | succ takes ih =>
    rw [search_succ]
    cases hstrongest : strongest tips with
    | none =>
      obtain ⟨t, ht, -⟩ := h
      rw [strongest_eq_none_iff.mp hstrongest] at ht
      cases ht
    | some p =>
      obtain ⟨c, rest⟩ := p
      dsimp only
      obtain ⟨hperm, hmax⟩ := strongest_eq_some hstrongest
      split
      · obtain ⟨t, ht, hlevel, -⟩ := h
        exact ⟨c, rfl, hlevel.trans (hmax t ht)⟩
      · rename_i hfar
        have hfewer := length_take_lt hperm least edges
        exact ih (h.take hstrongest hleast hfar) (by omega)

/-- **The search ends by itself**: tips and edges together bound the number of takes. -/
theorem search_of_le {more : Nat} (htakes : tips.length + edges.length ≤ takes)
    (hmore : takes ≤ more) :
    search target least more edges tips = search target least takes edges tips := by
  induction takes generalizing more edges tips with
  | zero =>
    have htips : tips = [] := List.length_eq_zero_iff.mp (by omega)
    subst htips
    cases more with
    | zero => rfl
    | succ more => rfl
  | succ takes ih =>
    obtain ⟨more, rfl⟩ : ∃ k, more = k + 1 := ⟨more - 1, by omega⟩
    rw [search_succ, search_succ]
    cases hstrongest : strongest tips with
    | none => rfl
    | some p =>
      obtain ⟨c, rest⟩ := p
      dsimp only
      split
      · rfl
      · obtain ⟨hperm, -⟩ := strongest_eq_some hstrongest
        have hfewer := length_take_lt hperm least edges
        exact ih (by omega) (by omega)

/-! ### Chains that are found -/

variable {type : String}

theorem runs_of_chain? (h : chain? edges subject type least = some c) :
    c.term = Text.fold type ∧ ∃ es, Runs edges subject least es c := by
  refine exists_runs_of_search (fun _ he => he) (fun d hd => ?_) h
  rw [List.mem_singleton.mp hd]
  exact ⟨[], runs_origin⟩

theorem exists_chain? (hrow : InRow es (Text.fold subject) (Text.fold type))
    (hes : ∀ e ∈ es, e ∈ edges ∧ w ≤ e.level) (hw : w ≤ Existence.certain) (hleast : least ≤ w) :
    ∃ c, chain? edges subject type least = some c ∧ w ≤ c.level := by
  have hroute : OnRoute (Text.fold type) w edges [origin subject] :=
    ⟨origin subject, List.mem_cons_self, hw, es, hrow, hes⟩
  refine search_of_route hroute hleast ?_
  rw [List.length_singleton, Nat.add_comm]

/-! ### Verdicts -/

/-- A fact declares two terms disjoint, in one direction or the other. -/
def Parts (f : Fact) (a b : String) : Prop :=
  f.relation = Relation.disjointWith ∧
    (Text.fold f.subject = Text.fold a ∧ Text.fold f.object = Text.fold b ∨
      Text.fold f.subject = Text.fold b ∧ Text.fold f.object = Text.fold a)

instance (f : Fact) (a b : String) : Decidable (Parts f a b) :=
  inferInstanceAs (Decidable (_ ∧ (_ ∧ _ ∨ _ ∧ _)))

theorem separates_iff {a b : String} :
    separates f (Text.fold a) (Text.fold b) = true ↔ Parts f a b := by
  simp [separates, Parts]

/-- The membership holds, firmly or likely. -/
def Verdict.Holds (v : Verdict) : Prop := v.truth = .certain ∨ v.truth = .likely

theorem Verdict.holds_chain {path : List String} : (Verdict.chain level path).Holds := by
  unfold Holds truth
  dsimp only
  split <;> simp

/-- Where nothing sets the terms apart, the chain that is found decides. -/
theorem decideBy_of_apart (h : ¬ ∃ f ∈ facts, Parts f subject type) :
    decideBy facts subject type least =
      match chain? (facts.filterMap Edge.ofFact?) subject type least with
      | some c => .chain c.level c.path
      | none => if facts.any fun f => mentions f (Text.fold subject) then .noPath
        else .unknownSubject := by
  have hapart : (facts.any fun f => separates f (Text.fold subject) (Text.fold type)) = false := by
    rw [← Bool.not_eq_true, List.any_eq_true]
    simpa only [separates_iff] using h
  unfold decideBy
  dsimp only
  rw [hapart]
  cases chain? (facts.filterMap Edge.ofFact?) subject type least <;> rfl

theorem exists_chain?_of_holds (h : ¬ ∃ f ∈ facts, Parts f subject type)
    (hholds : (decideBy facts subject type least).Holds) :
    ∃ c, chain? (facts.filterMap Edge.ofFact?) subject type least = some c := by
  rw [decideBy_of_apart h] at hholds
  cases hfound : chain? (facts.filterMap Edge.ofFact?) subject type least with
  | some c => exact ⟨c, rfl⟩
  | none =>
    rw [hfound] at hholds
    dsimp only at hholds
    split at hholds <;> simp [Verdict.Holds, Verdict.truth] at hholds

theorem depth_report (t : Thresholds) :
    ((Verdict.chain level (subject :: es.map Edge.type)).report t).field? "depth" =
      some (.ofNat es.length) := by
  simp [Verdict.report, Value.field?, List.lookup_cons]

/-! ### Stores -/

variable {s : Store} {ok : Store → Prop}

theorem level_le_certain (hs : s.Reached ok) (he : e ∈ s.allFacts.filterMap Edge.ofFact?) :
    e.level ≤ Existence.certain := by
  obtain ⟨f, hf, -, -, hgrade⟩ := mem_filterMap_ofFact?_iff.mp he
  obtain ⟨i, hi⟩ := Store.mem_allFacts.mp hf
  have hrange := ((Store.wellKept_of_reached hs).storable hi).inRange
  rw [Existence.inRange, Bool.and_eq_true, decide_eq_true_eq, decide_eq_true_eq] at hrange
  exact hgrade.le_certain hrange.2

/-- A chain that is found is one of stated memberships, and is as strong as its weakest. -/
theorem linked_of_chain? (hs : s.Reached ok)
    (h : chain? (s.allFacts.filterMap Edge.ofFact?) subject type least = some c) :
    ∃ es, Linked s.allFacts subject type es ∧ (∀ e ∈ es, least ≤ e.level) ∧
      c.level = weakest es ∧ c.path = subject :: es.map Edge.type := by
  obtain ⟨hterm, es, hruns⟩ := runs_of_chain? h
  have hrow := hruns.inRow
  rw [hterm] at hrow
  exact ⟨es, ⟨fun e he => mem_filterMap_ofFact?_iff.mp (hruns.firm e he).1, hrow⟩,
    fun e he => (hruns.firm e he).2, hruns.level_eq_weakest fun _ => level_le_certain hs,
    hruns.path⟩

/-- Every chain that is firm enough is matched by the one that is found. -/
theorem chain?_of_linked (hs : s.Reached ok) (hes : Linked s.allFacts subject type es)
    (hleast : least ≤ weakest es) :
    ∃ c, chain? (s.allFacts.filterMap Edge.ofFact?) subject type least = some c ∧
      weakest es ≤ c.level := by
  have hmem : ∀ e ∈ es, e ∈ s.allFacts.filterMap Edge.ofFact? := fun e he =>
    mem_filterMap_ofFact?_iff.mpr (hes.stated e he)
  obtain ⟨hcertain, hedges⟩ :=
    (le_weakest_iff fun e he => level_le_certain hs (hmem e he)).mp (le_refl (weakest es))
  exact exists_chain? hes.inRow (fun e he => ⟨hmem e he, hedges e he⟩) hcertain hleast

/-- **A membership that nothing denies holds exactly if a chain of edges that are firm enough leads
from the term to the type, and the verdict is that of a strongest chain**: its level is the greatest
weakest edge that any chain has, its path names the terms of such a chain, as they are written, and
its depth is the number of edges.  The search ends on every store: the bound on its takes does not
cut it short. -/
theorem deduceIsA_strongest (hs : s.Reached ok) (hleast : least ≤ Existence.certain)
    (hapart : ¬ ∃ f ∈ s.allFacts, Parts f subject type) :
    ((s.deduceIsA subject type least).Holds ↔
      ∃ es, Linked s.allFacts subject type es ∧ ∀ e ∈ es, least ≤ e.level) ∧
    ((s.deduceIsA subject type least).Holds →
      ∃ es, Linked s.allFacts subject type es ∧ (∀ e ∈ es, least ≤ e.level) ∧
        s.deduceIsA subject type least = .chain (weakest es) (subject :: es.map Edge.type) ∧
        (∀ t, ((s.deduceIsA subject type least).report t).field? "depth" =
          some (.ofNat es.length)) ∧
        ∀ other, Linked s.allFacts subject type other → weakest other ≤ weakest es) ∧
    ∀ takes, (s.allFacts.filterMap Edge.ofFact?).length < takes →
      search (Text.fold type) least takes (s.allFacts.filterMap Edge.ofFact?) [origin subject] =
        chain? (s.allFacts.filterMap Edge.ofFact?) subject type least := by
  have hverdict : ∀ {c}, chain? (s.allFacts.filterMap Edge.ofFact?) subject type least = some c →
      s.deduceIsA subject type least = .chain c.level c.path := fun hc => by
    rw [Store.deduceIsA, decideBy_of_apart hapart, hc]
  have hfirm : ∀ es, Linked s.allFacts subject type es →
      (least ≤ weakest es ↔ least ≤ Existence.certain ∧ ∀ e ∈ es, least ≤ e.level) :=
    fun es hes => le_weakest_iff fun e he =>
      level_le_certain hs (mem_filterMap_ofFact?_iff.mpr (hes.stated e he))
  refine ⟨⟨fun hholds => ?_, ?_⟩, fun hholds => ?_, fun takes htakes => ?_⟩
  · obtain ⟨c, hc⟩ := exists_chain?_of_holds hapart hholds
    obtain ⟨es, hes, hle, -⟩ := linked_of_chain? hs hc
    exact ⟨es, hes, hle⟩
  · rintro ⟨es, hes, hle⟩
    obtain ⟨c, hc, -⟩ := chain?_of_linked hs hes ((hfirm es hes).mpr ⟨hleast, hle⟩)
    rw [hverdict hc]
    exact Verdict.holds_chain
  · obtain ⟨c, hc⟩ := exists_chain?_of_holds hapart hholds
    obtain ⟨es, hes, hle, hlevel, hpath⟩ := linked_of_chain? hs hc
    have hchain := hverdict hc
    rw [hlevel, hpath] at hchain
    refine ⟨es, hes, hle, hchain, fun t => hchain ▸ depth_report t, fun other hother => ?_⟩
    by_cases hmatched : least ≤ weakest other
    · obtain ⟨d, hd, hstrong⟩ := chain?_of_linked hs hother hmatched
      obtain rfl : c = d := Option.some.inj (hc.symm.trans hd)
      exact hlevel ▸ hstrong
    · exact (not_le.mp hmatched).le.trans ((hfirm es hes).mpr ⟨hleast, hle⟩)
  · refine search_of_le ?_ htakes
    rw [List.length_singleton, Nat.add_comm]

/-- Rex is an animal as a dog, and in fewer steps as a wolf, which is unproven; animals are said to
be Rex again. -/
def wolfish : Store :=
  let s : Store := { dimensions := 2 }
  let s := s.after (.add ⟨"Rex", "IS_A_UNPROVEN", "Wolf"⟩ Existence.certain (.record []) 1)
  let s := s.after (.add ⟨"Wolf", "IS_A", "Animal"⟩ Existence.certain (.record []) 2)
  let s := s.after (.add ⟨"Rex", "IS_A", "Dog"⟩ Existence.certain (.record []) 3)
  let s := s.after (.add ⟨"Dog", "IS_A", "Mammal"⟩ Existence.demonstrated (.record []) 4)
  let s := s.after (.add ⟨"mammal", "IS_A_CERTAIN", "Animal"⟩ Existence.possible (.record []) 5)
  let s := s.after (.add ⟨"Animal", "IS_A", "rex"⟩ Existence.certain (.record []) 6)
  s.after (.add ⟨"Dog", "DISJOINT_WITH", "Cat"⟩ Existence.certain (.record []) 7)

theorem deduceIsA_strongest_wolfish : wolfish.Reached (fun _ => True) ∧
    Existence.impossible ≤ Existence.certain ∧
    (¬ ∃ f ∈ wolfish.allFacts, Parts f "REX" "animal") ∧
    ∃ es, Linked wolfish.allFacts "REX" "animal" es ∧ weakest es = Existence.demonstrated ∧
      es.map Edge.type = ["Dog", "Mammal", "Animal"] ∧
      ∀ other, Linked wolfish.allFacts "REX" "animal" other →
        weakest other ≤ Existence.demonstrated := by
  have hs : wolfish.Reached (fun _ => True) := by
    unfold wolfish
    refine .step _ (.step _ (.step _ (.step _ (.step _ (.step _ (.step _
      (.make (n := 2) rfl) ?_) ?_) ?_) ?_) ?_) ?_) ?_
    all_goals trivial
  have hleast : Existence.impossible ≤ Existence.certain := by decide
  have hapart : ¬ ∃ f ∈ wolfish.allFacts, Parts f "REX" "animal" := by decide +kernel
  have hverdict : wolfish.deduceIsA "REX" "animal" Existence.impossible =
      .chain Existence.demonstrated ["REX", "Dog", "Mammal", "Animal"] := by decide +kernel
  obtain ⟨-, hfound, -⟩ := deduceIsA_strongest hs hleast hapart
  obtain ⟨es, hes, -, hchain, -, hstrongest⟩ := hfound (hverdict ▸ Verdict.holds_chain)
  obtain ⟨hlevel, hpath⟩ := Verdict.chain.inj (hchain.symm.trans hverdict)
  rw [hlevel] at hstrongest
  exact ⟨hs, hleast, hapart, es, hes, hlevel, (List.cons.inj hpath).2, hstrongest⟩

end Membership

end KnowledgeBase
