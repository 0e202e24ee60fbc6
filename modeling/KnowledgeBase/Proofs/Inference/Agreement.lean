import KnowledgeBase.Inference.Query
import KnowledgeBase.Proofs.Inference.FixedPoint
import KnowledgeBase.Proofs.Inference.Search

/-!
# Backward search against forward chaining

What forward chaining derives by composition rules is found again by the backward search, as long
as the search is not held up: it drops a goal that is in work already, which loses nothing when the
goal has no variables, and it keeps a limited number of matches.

* `Text.OneSpelling`, `Triple.eq_of_termKey`: terms that are spelled in one way, which keys tell
  apart;
* `unhindered`, `unhinderedProof`: searches that are held up in neither way;
* `exists_match`, `derivations_complete`: what follows in one step is matched, and what some number
  of rounds derive is found at that depth, by induction on the rounds;
* `composition_of_forwardChain`: derived facts are answered, and `lost_leftRecursive`, where a goal
  with a variable leads back to itself.
-/

namespace KnowledgeBase

/-! ### One spelling of each term -/

/-- No two of these terms differ only in their spelling, and none holds the separator of keys. -/
structure Text.OneSpelling (terms : List String) : Prop where
  spelled : ∀ a ∈ terms, ∀ b ∈ terms, Text.fold a = Text.fold b → a = b
  clean : ∀ a ∈ terms, Text.Clean a

/-- Keys tell triples of one relation apart. -/
theorem Triple.eq_of_termKey {terms : List String} (h : Text.OneSpelling terms) {t u : Triple}
    (hts : t.subject ∈ terms) (hto : t.object ∈ terms) (hus : u.subject ∈ terms)
    (huo : u.object ∈ terms) (hrel : t.relation = u.relation) (hkey : t.termKey = u.termKey) :
    t = u := by
  have hlist : ∀ v : Triple, v.termKey.toList = (Text.fold v.subject).toList ++
      '\x1f' :: (v.relation.toList ++ '\x1f' :: (Text.fold v.object).toList) := by
    intro v
    simp [Triple.termKey, Text.keySeparator]
  have hchars := congrArg String.toList hkey
  rw [hlist, hlist, hrel] at hchars
  obtain ⟨hsubject, hrest⟩ := cut_unique (h.clean _ hts).fold (h.clean _ hus).fold hchars
  have hobject := (List.cons.inj (List.append_cancel_left hrest)).2
  have hs := h.spelled _ hts _ hus (String.toList_inj.mp hsubject)
  have ho := h.spelled _ hto _ huo (String.toList_inj.mp hobject)
  cases t
  cases u
  simp only at hs ho hrel
  rw [hs, ho, hrel]

/-- With one spelling of each term a pattern matches its instances only. -/
theorem Pattern.Fits.eq_under {terms : List String} (h : Text.OneSpelling terms)
    {σ : String → String} {p : Pattern} {t : Triple} (hp : p.ConstantsIn terms)
    (hs : t.subject ∈ terms) (ho : t.object ∈ terms) (hfits : p.Fits σ t) : p.under σ = t := by
  have hterm : ∀ term value, (Text.isVariable term = false → term ∈ terms) → value ∈ terms →
      FitsTerm σ term value → termUnder σ term = value := by
    intro term value hconst hvalue hfit
    unfold termUnder
    split
    · rename_i hvar
      exact hfit.eq_of_isVariable hvar
    · rename_i hvar
      have hterm : Text.isVariable term = false := by simpa using hvar
      have hsame : Text.same term value = true := hfit.same_of_const hterm
      exact h.spelled _ (hconst hterm) _ hvalue (Text.same_iff.mp hsame)
  have hsubject := hterm _ _ (hp _ (by simp)) hs hfits.subject
  have hobject := hterm _ _ (hp _ (by simp)) ho hfits.object
  unfold under
  rw [hsubject, hobject, ← hfits.relation]

namespace Inference.Composition

open Bindings Pattern Saturation

/-! ### Searches that are not held up -/

section

variable (rules : List CompositionRule) (facts : List Fact)

/-- The search for a goal drops no goal except one without variables that is itself in work, and
neither the matches of a body nor the derivations of a goal come to the number that is kept. -/
def unhindered (depth : Nat) (pending : List Triple) (goal : Triple) : Bool :=
  let path := pending.map Pattern.key
  if path.contains (Pattern.key goal) then isGround goal && pending.contains goal
  else
    decide ((derivations rules facts depth path goal).length < matchCap) &&
      match depth with
      | 0 => true
      | depth + 1 =>
        let derive := derivations rules facts depth (Pattern.key goal :: path)
        (openings rules goal).all fun o =>
          decide ((allMatches derive o.1.body o.2).length < matchCap) &&
            (asked derive o.1.body o.2).all (unhindered depth (goal :: pending))

/-- The search for a proof of a goal is not held up; of the body of its last rule one match is
enough. -/
def unhinderedProof (goal : Triple) : (depth : Nat) → Bool
  | 0 => true
  | depth + 1 =>
    (openings rules goal).all fun o =>
      (asked (derivations rules facts depth [Pattern.key goal]) o.1.body o.2).all
        (unhindered rules facts depth [goal])

end

variable {rules : List CompositionRule} {facts : List Fact} {depth : Nat} {pending : List Triple}
  {goal : Triple}

theorem inWork_of_unhindered (h : unhindered rules facts depth pending goal = true)
    (hpath : (pending.map Pattern.key).contains (Pattern.key goal) = true) :
    isGround goal = true ∧ goal ∈ pending := by
  unfold unhindered at h
  dsimp only at h
  rw [if_pos hpath] at h
  simpa using h

theorem room_of_unhindered (h : unhindered rules facts depth pending goal = true)
    (hpath : (pending.map Pattern.key).contains (Pattern.key goal) = false) :
    (derivations rules facts depth (pending.map Pattern.key) goal).length < matchCap := by
  unfold unhindered at h
  dsimp only at h
  rw [hpath, if_neg Bool.false_ne_true, Bool.and_eq_true] at h
  exact of_decide_eq_true h.1

theorem body_of_unhindered (h : unhindered rules facts (depth + 1) pending goal = true)
    (hpath : (pending.map Pattern.key).contains (Pattern.key goal) = false)
    {o : CompositionRule × Bindings} (ho : o ∈ openings rules goal) :
    (allMatches (derivations rules facts depth ((goal :: pending).map Pattern.key))
        o.1.body o.2).length < matchCap ∧
      ∀ g ∈ asked (derivations rules facts depth ((goal :: pending).map Pattern.key)) o.1.body o.2,
        unhindered rules facts depth (goal :: pending) g = true := by
  unfold unhindered at h
  dsimp only at h
  rw [hpath, if_neg Bool.false_ne_true, Bool.and_eq_true] at h
  have hall := List.all_eq_true.mp h.2 o ho
  rw [Bool.and_eq_true, List.all_eq_true] at hall
  exact ⟨of_decide_eq_true hall.1, hall.2⟩

/-! ### Rounds and depth -/

/-- One of the facts states the triple as it is written. -/
def Stated (facts : List Fact) (t : Triple) : Prop := ∃ f ∈ facts, f.triple = t

theorem Stated.mono {facts' : List Fact} {t : Triple} (h : Stated facts t)
    (hsub : ∀ f ∈ facts, f ∈ facts') : Stated facts' t := by
  obtain ⟨f, hf, rfl⟩ := h
  exact ⟨f, hsub f hf, rfl⟩

/-- A fact that is asked for is among those that match. -/
theorem exists_matching {t : Triple} (h : Stated facts t) (hgoal : Admits goal t) :
    ∃ d ∈ matching facts goal, d.triple = t := by
  obtain ⟨f, hf, rfl⟩ := h
  have hfits : ∀ term value, (Text.isVariable term = true ∨ term = value) →
      fits (wanted term) value = true := by
    intro term value hterm
    unfold fits wanted
    rcases hterm with hvar | rfl
    · rw [if_pos hvar]
      rfl
    · split
      · rfl
      · simp
  exact ⟨_, mem_matching.mpr ⟨f, hf, hgoal.relation.symm, hfits _ _ hgoal.subject,
    hfits _ _ hgoal.object, rfl⟩, rfl⟩

/-- A registry without swaps and chains. -/
structure OnlyComposes (r : Relations) : Prop where
  symmetric : r.symmetric.isEmpty = true
  transitive : r.transitive.isEmpty = true
  inverses : r.inverses.isEmpty = true

variable {r : Relations} {n : Nat} {t : Triple} {name : String}

theorem OnlyComposes.composition (h : OnlyComposes r) (hfollows : Follows r facts t name) :
    ∃ c ∈ r.compositions, ∃ σ, c.head.under σ = t ∧ isGround t = true ∧
      ∀ p ∈ c.body, ∃ f ∈ facts, p.Fits σ f.triple := by
  cases hfollows with
  | @composition c σ hc hbody hground => exact ⟨c, hc, σ, rfl, hground, hbody⟩
  | chain htrans _ _ _ _ _ =>
    rw [Relations.isTransitive, Std.TreeSet.contains_of_isEmpty h.transitive] at htrans
    cases htrans
  | symmetry hsymm _ =>
    rw [Relations.isSymmetric, Std.TreeSet.contains_of_isEmpty h.symmetric] at hsymm
    cases hsymm
  | inversion hinv _ =>
    rw [Relations.inverse?, Std.TreeMap.getElem?_of_isEmpty h.inverses] at hinv
    cases hinv

/-- The constants of a rule are in stock. -/
theorem constantsIn_vocabulary {c : CompositionRule} (hc : c ∈ r.compositions) :
    ∀ p ∈ c.head :: c.body, p.ConstantsIn (vocabulary r facts) := by
  intro p hp term hterm hconst
  exact List.mem_append_right _ (mem_constants hc hp (by simpa using hterm) hconst)

theorem derivations_in_vocabulary (depth : Nat) (path : List String) :
    Stocked (vocabulary r facts) (derivations r.compositions facts depth path) :=
  derivations_in (fun _ hf => ⟨(over_of_mem hf).subject, (over_of_mem hf).object⟩)
    (fun _ hc => constantsIn_vocabulary hc) depth path

/-- A match that is not cut off leads to a conclusion. -/
theorem exists_concluded {derive : Triple → List Derivation} {o : CompositionRule × Bindings}
    {m : Match} (hm : m ∈ allMatches derive o.1.body o.2)
    (hroom : (allMatches derive o.1.body o.2).length < matchCap)
    (hhead : o.1.head.instantiate m.bindings = t) (hground : isGround t = true) :
    ∃ d ∈ concluded derive o, d.triple = t := by
  have hall : matchBody derive o.1.body o.2 matchCap = allMatches derive o.1.body o.2 := by
    rw [matchBody_eq_take _ _ _ (by decide), List.take_of_length_le (Nat.le_of_lt hroom)]
  exact ⟨_, mem_concluded.mpr ⟨m, hall ▸ hm, hhead ▸ hground, rfl⟩, hhead⟩

/-- What is derived after some rounds, with the facts that were given. -/
def known (r : Relations) (facts : List Fact) (n : Nat) : List Fact :=
  facts ++ forwardChain r n facts

theorem known_subset_succ (r : Relations) (facts : List Fact) (n : Nat) :
    ∀ f ∈ known r facts n, f ∈ known r facts (n + 1) := by
  intro f hf
  unfold known at hf ⊢
  rw [forwardChain_succ, ← List.append_assoc]
  exact List.mem_append_left _ hf

theorem stated_succ (h : Stated (known r facts (n + 1)) t) :
    Stated (known r facts n) t ∨ ∃ name, Follows r (known r facts n) t name := by
  obtain ⟨f, hf, rfl⟩ := h
  unfold known at hf
  rw [forwardChain_succ, ← List.append_assoc, List.mem_append] at hf
  rcases hf with hold | hnew
  · exact Or.inl ⟨f, hold, rfl⟩
  · obtain ⟨-, name, -, hfollows⟩ := follows_of_mem_round hnew
    exact Or.inr ⟨name, hfollows⟩

/-- A goal that asks for a known triple is not dropped, if no known triple is in work. -/
theorem not_inWork (hfree : unhindered rules facts depth pending goal = true)
    (hstated : Stated (known r facts n) t) (hgoal : Admits goal t)
    (hpending : ∀ p ∈ pending, isGround p = true → ¬ Stated (known r facts n) p) :
    (pending.map Pattern.key).contains (Pattern.key goal) = false := by
  rw [Bool.eq_false_iff]
  intro hpath
  obtain ⟨hground, hmem⟩ := inWork_of_unhindered hfree hpath
  refine hpending goal hmem hground ?_
  rw [hgoal.eq_of_isGround hground]
  exact hstated

section

variable (hr : r.Registered) (honly : OnlyComposes r)
  (hspelled : Text.OneSpelling (vocabulary r facts))

include hr hspelled

include honly in
/-- A triple that follows in one step is concluded by a rule, if the goals of its body are met by
what the step starts from. -/
theorem exists_match {derive : Triple → List Derivation}
    (hfollows : Follows r (known r facts n) t name) (hgoal : Admits goal t)
    (hfind : ∀ o ∈ openings r.compositions goal, ∀ g ∈ asked derive o.1.body o.2, ∀ u,
      Stated (known r facts n) u → Admits g u → ∃ d ∈ derive g, d.triple = u) :
    ∃ o ∈ openings r.compositions goal, ∃ m ∈ allMatches derive o.1.body o.2,
      o.1.head.instantiate m.bindings = t ∧ isGround t = true := by
  obtain ⟨c, hc, σ, rfl, hground, hbody⟩ := honly.composition hfollows
  obtain ⟨b, hb, hσ⟩ := exists_matchGoal? hgoal
  have hopening : (c, b) ∈ openings r.compositions goal :=
    mem_openings.mpr ⟨hc, hgoal.relation.symm, hb⟩
  have hstated : ∀ p ∈ c.body, Stated (known r facts n) (p.under σ) := by
    intro p hp
    obtain ⟨f, hf, hfits⟩ := hbody p hp
    have hover := over_forwardChain hr facts n f hf
    have hconst : p.ConstantsIn (vocabulary r facts) :=
      constantsIn_vocabulary hc p (List.mem_cons_of_mem _ hp)
    exact ⟨f, hf, (hfits.eq_under hspelled hconst hover.subject hover.object).symm⟩
  obtain ⟨m, hm, hσm, -, hcov⟩ := exists_allMatches hσ hstated (hfind _ hopening)
  obtain ⟨hcovs, hcovo⟩ := CompositionRule.covers_head (hr.faultless c hc) hcov
  exact ⟨_, hopening, m, hm, instantiate_eq_under hσm hcovs hcovo, hground⟩

/-- An offer of a known triple is kept as it is. -/
theorem exists_derivation_of_offer {d : Derivation} (hgoal : ConstantsIn (vocabulary r facts) goal)
    (hpath : (pending.map Pattern.key).contains (Pattern.key goal) = false)
    (hroom :
      (derivations r.compositions facts depth (pending.map Pattern.key) goal).length < matchCap)
    (hd : d ∈ offers r.compositions facts depth (pending.map Pattern.key) goal)
    (hstated : Stated (known r facts n) d.triple) (hrel : d.triple.relation = goal.relation) :
    ∃ e ∈ derivations r.compositions facts depth (pending.map Pattern.key) goal,
      e.triple = d.triple := by
  obtain ⟨e, he, hkey⟩ := exists_derivation hpath hroom hd
  obtain ⟨hes, heo⟩ := derivations_in_vocabulary depth (pending.map Pattern.key) goal hgoal e he
  obtain ⟨f, hf, hftriple⟩ := hstated
  have hover := over_forwardChain hr facts n f hf
  rw [hftriple] at hover
  exact ⟨e, he, Triple.eq_of_termKey hspelled hes heo hover.subject hover.object
    ((relation_of_mem_derivations he).trans hrel.symm) hkey⟩

include honly in
/-- **What some number of rounds derive is found at that depth.**  The induction is on the rounds.
A goal without variables that is in work is never asked for again by a shortest derivation: it is
derived later than all that the derivation uses. -/
theorem derivations_complete (n : Nat) : ∀ depth, n ≤ depth → ∀ pending goal t,
    unhindered r.compositions facts depth pending goal = true →
    ConstantsIn (vocabulary r facts) goal → Stated (known r facts n) t → Admits goal t →
    (∀ p ∈ pending, isGround p = true → ¬ Stated (known r facts n) p) →
    ∃ d ∈ derivations r.compositions facts depth (pending.map Pattern.key) goal, d.triple = t := by
  induction n with
  | zero =>
    intro depth _ pending goal t hfree hconst hstated hgoal hpending
    have hpath := not_inWork hfree hstated hgoal hpending
    have hfacts : Stated facts t := hstated.mono fun f hf => by simpa [known, forwardChain] using hf
    obtain ⟨d, hd, rfl⟩ := exists_matching hfacts hgoal
    have hoffer : d ∈ offers r.compositions facts depth (pending.map Pattern.key) goal := by
      cases depth with
      | zero => exact hd
      | succ depth => exact mem_offers_succ.mpr (Or.inl hd)
    exact exists_derivation_of_offer hr hspelled hconst hpath (room_of_unhindered hfree hpath)
      hoffer hstated hgoal.relation.symm
  | succ n ih =>
    intro depth hdepth pending goal t hfree hconst hstated hgoal hpending
    have hearlier : ∀ p ∈ pending, isGround p = true → ¬ Stated (known r facts n) p :=
      fun p hp hground hp' => hpending p hp hground (hp'.mono (known_subset_succ r facts n))
    by_cases hold : Stated (known r facts n) t
    · exact ih depth (by omega) pending goal t hfree hconst hold hgoal hearlier
    · -- the last round derives it, from what the rounds before it have derived
      obtain ⟨name, hfollows⟩ := (stated_succ hstated).resolve_left hold
      have hpath := not_inWork hfree hstated hgoal hpending
      obtain ⟨depth, rfl⟩ : ∃ k, depth = k + 1 := ⟨depth - 1, by omega⟩
      have hfind : ∀ o ∈ openings r.compositions goal,
          ∀ g ∈ asked (derivations r.compositions facts depth ((goal :: pending).map Pattern.key))
            o.1.body o.2, ∀ u, Stated (known r facts n) u → Admits g u →
          ∃ d ∈ derivations r.compositions facts depth ((goal :: pending).map Pattern.key) g,
            d.triple = u := by
        intro o ho g hg u hu hgu
        have hasked := (body_of_unhindered hfree hpath ho).2 g hg
        refine ih depth (by omega) (goal :: pending) g u hasked ?_ hu hgu ?_
        · obtain ⟨hrule, -, hb⟩ := mem_openings.mp ho
          have hbody : ∀ p ∈ o.1.body, p.ConstantsIn (vocabulary r facts) := fun p hp =>
            constantsIn_vocabulary hrule p (List.mem_cons_of_mem _ hp)
          exact constantsIn_of_mem_asked (derivations_in_vocabulary depth _) hbody
            (matchGoal?_in hb hconst) hg
        · intro p hp hground
          rcases List.mem_cons.mp hp with rfl | hp
          · -- the goal itself is now in work, and is not known one round earlier
            rw [hgoal.eq_of_isGround hground]
            exact hold
          · exact hearlier p hp hground
      obtain ⟨o, ho, m, hm, hhead, hground⟩ := exists_match hr honly hspelled hfollows hgoal hfind
      obtain ⟨d, hd, rfl⟩ := exists_concluded hm (body_of_unhindered hfree hpath ho).1 hhead hground
      exact exists_derivation_of_offer hr hspelled hconst hpath (room_of_unhindered hfree hpath)
        (mem_offers_succ.mpr (Or.inr ⟨o, ho, hd⟩)) hstated hgoal.relation.symm

end

end Inference.Composition

namespace Inference

open Inference.Composition Pattern Saturation

/-- A derived triple is new to the round that derives it, and follows from what was known before. -/
theorem exists_step {r : Relations} {facts : List Fact} {rounds : Nat} {d : Fact}
    (h : d ∈ forwardChain r rounds facts) :
    ∃ k < rounds, ¬ Stated (known r facts k) d.triple ∧
      ∃ name, Follows r (known r facts k) d.triple name := by
  obtain ⟨k, hk, hround⟩ := exists_round h
  obtain ⟨-, -, -, hnew⟩ := mem_round hround
  obtain ⟨-, name, -, hfollows⟩ := follows_of_mem_round hround
  refine ⟨k, hk, ?_, name, hfollows⟩
  rintro ⟨f, hf, htriple⟩
  exact hnew (mem_keysOf.mpr ⟨f, hf, congrArg Triple.termKey htriple⟩)

/-- **What forward chaining derives by composition rules is answered by the backward search**, at
every depth of at least the number of rounds, unless the search is held up: by a goal with a
variable that leads back to itself, or by more matches than are kept.  Each term has one spelling
here, and recursive rules of every form are covered. -/
theorem composition_of_forwardChain (i : Inference) (hr : i.relations.Registered)
    (honly : OnlyComposes i.relations) {facts : List Fact}
    (hspelled : Text.OneSpelling (vocabulary i.relations facts)) {rounds depth : Nat} {d : Fact}
    (hd : d ∈ forwardChain i.relations rounds facts) (hdepth : rounds ≤ depth)
    (hfree : unhinderedProof i.relations.compositions facts d.triple depth = true) :
    (i.composition facts d.triple depth).truth = .certain := by
  obtain ⟨k, hk, hnew, name, hfollows⟩ := exists_step hd
  obtain ⟨depth, rfl⟩ : ∃ m, depth = m + 1 := ⟨depth - 1, by omega⟩
  obtain ⟨c, -, σ, -, hground, -⟩ := honly.composition hfollows
  have hover := over_forwardChain hr facts rounds d (List.mem_append_right _ hd)
  have hconst : ConstantsIn (vocabulary i.relations facts) d.triple := by
    intro term hterm _
    simp only [List.mem_cons, List.not_mem_nil, or_false] at hterm
    rcases hterm with rfl | rfl
    · exact hover.subject
    · exact hover.object
  have hfind : ∀ o ∈ openings i.relations.compositions d.triple,
      ∀ g ∈ asked (derivations i.relations.compositions facts depth [Pattern.key d.triple])
        o.1.body o.2, ∀ u, Stated (known i.relations facts k) u → Admits g u →
      ∃ e ∈ derivations i.relations.compositions facts depth [Pattern.key d.triple] g,
        e.triple = u := by
    intro o ho g hg u hu hgu
    have hasked := List.all_eq_true.mp (List.all_eq_true.mp hfree o ho) g hg
    obtain ⟨hrule, -, hb⟩ := mem_openings.mp ho
    have hbody : ∀ p ∈ o.1.body, p.ConstantsIn (vocabulary i.relations facts) := fun p hp =>
      constantsIn_vocabulary hrule p (List.mem_cons_of_mem _ hp)
    have hgconst := constantsIn_of_mem_asked (derivations_in_vocabulary depth _) hbody
      (matchGoal?_in hb hconst) hg
    refine derivations_complete hr honly hspelled k depth (by omega) [d.triple] g u hasked hgconst
      hu hgu ?_
    intro p hp _
    rw [List.mem_singleton.mp hp]
    exact hnew
  obtain ⟨o, ho, m, hm, -, -⟩ :=
    exists_match hr honly hspelled hfollows (admits_self d.triple) hfind
  have hproved := prove?_isSome.mpr ⟨o, ho, List.ne_nil_of_mem hm⟩
  obtain ⟨⟨rule, steps⟩, hproof⟩ := Option.isSome_iff_exists.mp hproved
  unfold composition
  rw [hproof]

/-! ### A way along edges -/

/-- A recursive rule for what is reached along edges. -/
def reachRule (body : List Pattern) : CompositionRule := ⟨"step", ⟨"?x", "REACHES", "?z"⟩, body⟩

def reaching (body : List Pattern) : Inference :=
  { relations := { Relations.bare with compositions := [reachRule body] } }

/-- The first edge, then the rest of the way. -/
def edgeFirst : List Pattern := [⟨"?x", "EDGE", "?y"⟩, ⟨"?y", "REACHES", "?z"⟩]

/-- All of the way but its last edge, then that edge. -/
def edgeLast : List Pattern := [⟨"?x", "REACHES", "?y"⟩, ⟨"?y", "EDGE", "?z"⟩]

theorem onlyComposes_reaching (body : List Pattern) : OnlyComposes (reaching body).relations :=
  ⟨rfl, rfl, rfl⟩

theorem registered_reaching {body : List Pattern} (h : (reachRule body).fault? = none) :
    (reaching body).relations.Registered := by
  have hadd : Relations.bare.addComposition (reachRule body) = .ok (reaching body).relations := by
    unfold Relations.addComposition
    rw [h]
    rfl
  exact .composition .bare hadd

/-- Two edges and the end of a way. -/
def wayFacts : List Fact :=
  [{ triple := ⟨"a", "EDGE", "b"⟩ }, { triple := ⟨"b", "EDGE", "c"⟩ },
    { triple := ⟨"c", "REACHES", "d"⟩ }]

/-- A rule that comes back to its relation last is followed all the way. -/
theorem composition_of_forwardChain_edgeFirst :
    ∃ d ∈ forwardChain (reaching edgeFirst).relations 2 wayFacts,
      d.triple = ⟨"a", "REACHES", "d"⟩ ∧
      Text.OneSpelling (vocabulary (reaching edgeFirst).relations wayFacts) ∧
      unhinderedProof (reaching edgeFirst).relations.compositions wayFacts d.triple 2 = true ∧
      ((reaching edgeFirst).composition wayFacts d.triple 2).truth = .certain := by
  have hspelled : Text.OneSpelling (vocabulary (reaching edgeFirst).relations wayFacts) :=
    ⟨by decide +kernel, by decide +kernel⟩
  have hmem : ⟨"a", "REACHES", "d"⟩ ∈
      (forwardChain (reaching edgeFirst).relations 2 wayFacts).map (·.triple) := by decide +kernel
  obtain ⟨d, hd, htriple⟩ := List.mem_map.mp hmem
  have hfree : unhinderedProof (reaching edgeFirst).relations.compositions wayFacts d.triple 2 =
      true := by
    rw [htriple]
    decide +kernel
  have hregistered : (reaching edgeFirst).relations.Registered :=
    registered_reaching (by decide +kernel)
  exact ⟨d, hd, htriple, hspelled, hfree, composition_of_forwardChain _ hregistered
    (onlyComposes_reaching _) hspelled hd (Nat.le_refl 2) hfree⟩

/-- The start of a way and two edges. -/
def startFacts : List Fact :=
  [{ triple := ⟨"a", "REACHES", "b"⟩ }, { triple := ⟨"b", "EDGE", "c"⟩ },
    { triple := ⟨"c", "EDGE", "d"⟩ }]

section

variable (depth : Nat)

/-- The search below `a REACHES d` asks what `a` reaches.  The rule for it asks the same again, and
that is dropped, so the stored facts are all there is. -/
theorem derivations_startOfWay :
    derivations [reachRule edgeLast] startFacts depth [Pattern.key ⟨"a", "REACHES", "d"⟩]
      ⟨"a", "REACHES", "?y"⟩ = (stored startFacts ⟨"a", "REACHES", "?y"⟩).kept := by
  refine derivations_of_blocked (by decide +kernel) fun o ho => ?_
  have hopenings : ∀ o ∈ openings [reachRule edgeLast] ⟨"a", "REACHES", "?y"⟩,
      o = (reachRule edgeLast, ⟨[("x", "a")]⟩) := by decide +kernel
  rw [hopenings o ho]
  exact ⟨_, _, rfl, by decide +kernel⟩

/-- There is no edge from `b` to `d`. -/
theorem derivations_lastEdge :
    derivations [reachRule edgeLast] startFacts depth [Pattern.key ⟨"a", "REACHES", "d"⟩]
      ⟨"b", "EDGE", "d"⟩ = [] := by
  have hopenings : openings [reachRule edgeLast] ⟨"b", "EDGE", "d"⟩ = [] := by decide +kernel
  have hstored : (stored startFacts ⟨"b", "EDGE", "d"⟩).kept.map (·.triple) = [] := by
    decide +kernel
  rw [derivations_of_blocked (by decide +kernel) (by simp [hopenings])]
  exact List.map_eq_nil_iff.mp hstored

theorem allMatches_edgeLast :
    allMatches (derivations [reachRule edgeLast] startFacts depth
      [Pattern.key ⟨"a", "REACHES", "d"⟩]) edgeLast ⟨[("x", "a"), ("z", "d")]⟩ = [] := by
  refine List.flatMap_eq_nil_iff.mpr fun d hd => ?_
  have hfirst : d ∈ derivations [reachRule edgeLast] startFacts depth
      [Pattern.key ⟨"a", "REACHES", "d"⟩] ⟨"a", "REACHES", "?y"⟩ := hd
  have hstored : (stored startFacts ⟨"a", "REACHES", "?y"⟩).kept.map (·.triple) =
      [⟨"a", "REACHES", "b"⟩] := by decide +kernel
  rw [derivations_startOfWay] at hfirst
  have htriple : d.triple ∈ (stored startFacts ⟨"a", "REACHES", "?y"⟩).kept.map (·.triple) :=
    List.mem_map_of_mem hfirst
  rw [hstored, List.mem_singleton] at htriple
  have hmatch : Pattern.matchTerms? ⟨"?x", "REACHES", "?y"⟩ "a" "b" ⟨[("x", "a"), ("z", "d")]⟩ =
      some ⟨[("x", "a"), ("z", "d"), ("y", "b")]⟩ := by decide +kernel
  rw [htriple, hmatch]
  dsimp only
  rw [List.map_eq_nil_iff]
  refine List.flatMap_eq_nil_iff.mpr fun e he => ?_
  have hnext : e ∈ derivations [reachRule edgeLast] startFacts depth
      [Pattern.key ⟨"a", "REACHES", "d"⟩] ⟨"b", "EDGE", "d"⟩ := he
  rw [derivations_lastEdge] at hnext
  cases hnext

theorem prove?_edgeLast :
    prove? [reachRule edgeLast] startFacts ⟨"a", "REACHES", "d"⟩ depth = none := by
  cases depth with
  | zero => rfl
  | succ depth =>
    rw [← Option.not_isSome_iff_eq_none, prove?_isSome]
    rintro ⟨o, ho, hsome⟩
    have hopenings : openings [reachRule edgeLast] ⟨"a", "REACHES", "d"⟩ =
        [(reachRule edgeLast, ⟨[("x", "a"), ("z", "d")]⟩)] := by decide +kernel
    rw [hopenings, List.mem_singleton] at ho
    subst ho
    exact hsome (allMatches_edgeLast depth)

end

/-- **A rule that starts with its own relation is followed for one round only.**  Forward chaining
derives `a REACHES d` in two rounds; backwards it is found at no depth. -/
theorem lost_leftRecursive :
    (reaching edgeLast).relations.Registered ∧ OnlyComposes (reaching edgeLast).relations ∧
      (reaching edgeLast).relations.defaults = [] ∧
      (∀ f ∈ startFacts, isGround f.triple = true) ∧
      ⟨"a", "REACHES", "d"⟩ ∈
        (forwardChain (reaching edgeLast).relations 2 startFacts).map (·.triple) ∧
      ∀ depth, ((reaching edgeLast).composition startFacts ⟨"a", "REACHES", "d"⟩ depth).truth =
        .unknown := by
  have hregistered : (reaching edgeLast).relations.Registered :=
    registered_reaching (by decide +kernel)
  refine ⟨hregistered, onlyComposes_reaching _, rfl, by decide +kernel, by decide +kernel, ?_⟩
  intro depth
  have hnone : prove? (reaching edgeLast).relations.compositions startFacts ⟨"a", "REACHES", "d"⟩
      depth = none := prove?_edgeLast depth
  unfold composition
  rw [hnone]
  rfl

end Inference

end KnowledgeBase
