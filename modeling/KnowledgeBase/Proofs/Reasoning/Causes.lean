import KnowledgeBase.Proofs.Float
import KnowledgeBase.Reasoning.Cause

/-!
# Causes by the number of steps

The causes of an observation are found level by level, each term where it is first named.  A term
may be named again on a longer way, and causes may run in circles; neither makes a difference.

* `Cause.States`: a fact states a cause of a term, in one of two ways;
* `Cause.Behind`, `Cause.Nearest`: a term lies so many steps behind another one, and not fewer;
* `Cause.Frontier`: what has been visited and named when a level is reached; `Frontier.next` is the
  step from one level to the next one;
* `Frontier.enumerates_walk`: from a level on, the walk names the terms that lie within reach, each
  once and at its depth;
* `causesOf_enumerates`: what is found, and in which order.
-/

namespace KnowledgeBase.Cause

/-! ### Steps back -/

/-- A fact states a cause, as it is written, of a folded term. -/
inductive States (f : Fact) (effect : String) : String → Prop
  | causes : f.relation = Relation.causes → Text.fold f.object = effect → States f effect f.subject
  | causedBy :
    f.relation = Relation.causedBy → Text.fold f.subject = effect → States f effect f.object

variable {facts : List Fact} {start t c e : String} {f : Fact} {n d room : Nat}
  {level visited seen : List String}

theorem of?_eq_some_iff : of? f e = some c ↔ States f e c := by
  unfold of?
  constructor
  · intro h
    split at h
    · rename_i hc
      cases h
      exact .causes hc.1 hc.2
    · split at h
      · rename_i hc
        cases h
        exact .causedBy hc.1 hc.2
      · cases h
  · intro h
    cases h with
    | causes hr he => rw [if_pos ⟨hr, he⟩]
    | causedBy hr he =>
      have hne : ¬ (f.relation = Relation.causes ∧ Text.fold f.object = e) := by
        rw [hr]
        exact fun h => absurd h.1 (by decide)
      rw [if_neg hne, if_pos ⟨hr, he⟩]

/-- A folded term lies a number of steps behind another one, each to a stated cause. -/
inductive Behind (facts : List Fact) (start : String) : Nat → String → Prop
  | here : Behind facts start 0 start
  | step {n : Nat} {e c : String} {f : Fact} :
    Behind facts start n e → f ∈ facts → States f e c → Behind facts start (n + 1) (Text.fold c)

/-- The least number of steps that a term lies behind another one. -/
structure Nearest (facts : List Fact) (start : String) (n : Nat) (t : String) : Prop where
  behind : Behind facts start n t
  least : ∀ k < n, ¬ Behind facts start k t

theorem behind_zero_iff : Behind facts start 0 t ↔ t = start := by
  constructor
  · intro h
    cases h
    rfl
  · rintro rfl
    exact .here

theorem Nearest.unique {m : Nat} (h : Nearest facts start n t) (h' : Nearest facts start m t) :
    n = m := by
  rcases Nat.lt_trichotomy n m with hlt | heq | hlt
  · exact absurd h.behind (h'.least n hlt)
  · exact heq
  · exact absurd h'.behind (h.least m hlt)

theorem Behind.exists_nearest (h : Behind facts start n t) :
    ∃ m ≤ n, Nearest facts start m t := by
  induction n using Nat.strong_induction_on with
  | _ n ih =>
    by_cases hless : ∃ k < n, Behind facts start k t
    · obtain ⟨k, hk, hbehind⟩ := hless
      obtain ⟨m, hm, hnearest⟩ := ih k hk hbehind
      exact ⟨m, by omega, hnearest⟩
    · exact ⟨n, le_rfl, h, fun k hk hbehind => hless ⟨k, hk, hbehind⟩⟩

/-! ### One level -/

theorem mem_stated : (c, f) ∈ stated facts e ↔ f ∈ facts ∧ States f e c := by
  unfold stated
  rw [List.mem_filterMap]
  constructor
  · rintro ⟨g, hg, h⟩
    obtain ⟨c', hc', h⟩ := Option.map_eq_some_iff.mp h
    cases h
    exact ⟨hg, of?_eq_some_iff.mp hc'⟩
  · rintro ⟨hf, h⟩
    exact ⟨f, hf, by rw [of?_eq_some_iff.mpr h]; rfl⟩

/-- Everything on a level is visited then. -/
theorem mem_expand_visited :
    t ∈ (expand facts level visited).2 ↔ t ∈ visited ∨ t ∈ level := by
  induction level generalizing visited with
  | nil => simp [expand]
  | cons e es ih =>
    unfold expand
    split
    · rename_i hvisited
      rw [List.contains_iff_mem] at hvisited
      rw [ih, List.mem_cons]
      constructor
      · exact fun h => h.imp_right .inr
      · rintro (h | rfl | h)
        · exact .inl h
        · exact .inl hvisited
        · exact .inr h
    · rw [ih, List.mem_cons, List.mem_cons]
      tauto

/-- What is found is stated of the terms of the level that were not visited. -/
theorem mem_expand :
    (c, f) ∈ (expand facts level visited).1 ↔
      f ∈ facts ∧ ∃ e ∈ level, e ∉ visited ∧ States f e c := by
  induction level generalizing visited with
  | nil => simp [expand]
  | cons e es ih =>
    unfold expand
    split
    · rename_i hvisited
      rw [List.contains_iff_mem] at hvisited
      rw [ih]
      constructor
      · rintro ⟨hf, e', he', hnew, h⟩
        exact ⟨hf, e', List.mem_cons_of_mem _ he', hnew, h⟩
      · rintro ⟨hf, e', he', hnew, h⟩
        rcases List.mem_cons.mp he' with rfl | he'
        · exact absurd hvisited hnew
        · exact ⟨hf, e', he', hnew, h⟩
    · rename_i hvisited
      rw [List.contains_iff_mem] at hvisited
      dsimp only
      rw [List.mem_append, mem_stated, ih]
      constructor
      · rintro (⟨hf, h⟩ | ⟨hf, e', he', hnew, h⟩)
        · exact ⟨hf, e, List.mem_cons_self, hvisited, h⟩
        · exact ⟨hf, e', List.mem_cons_of_mem _ he', fun hv => hnew (List.mem_cons_of_mem _ hv), h⟩
      · rintro ⟨hf, e', he', hnew, h⟩
        by_cases heq : e' = e
        · exact .inl ⟨hf, heq ▸ h⟩
        · refine .inr ⟨hf, e', (List.mem_cons.mp he').resolve_left heq, ?_, h⟩
          exact fun hv => (List.mem_cons.mp hv).elim heq hnew

/-! ### First names -/

/-- The folded term of a named cause. -/
def Named.key (n : Named) : String := Text.fold n.term

variable {found : List (String × Fact)}

theorem mem_firstNamed_seen :
    t ∈ (firstNamed d found seen).2 ↔ t ∈ seen ∨ ∃ p ∈ found, Text.fold p.1 = t := by
  induction found generalizing seen with
  | nil => simp [firstNamed]
  | cons p found ih =>
    obtain ⟨c, f⟩ := p
    unfold firstNamed
    split
    · rename_i hseen
      rw [List.contains_iff_mem] at hseen
      rw [ih, List.exists_mem_cons_iff]
      constructor
      · exact fun h => h.imp_right .inr
      · rintro (h | rfl | h)
        · exact .inl h
        · exact .inl hseen
        · exact .inr h
    · rw [ih, List.exists_mem_cons_iff, List.mem_cons]
      dsimp only
      constructor
      · rintro ((rfl | h) | h)
        · exact .inr (.inl rfl)
        · exact .inl h
        · exact .inr (.inr h)
      · rintro (h | rfl | h)
        · exact .inl (.inr h)
        · exact .inl (.inl rfl)
        · exact .inr h

/-- What is named was found at the depth, and is named for the first time. -/
theorem of_mem_firstNamed {n : Named} (h : n ∈ (firstNamed d found seen).1) :
    n.depth = d ∧ n.key ∉ seen ∧ ∃ f, (n.term, f) ∈ found ∧ f.triple = n.via := by
  induction found generalizing seen with
  | nil => cases h
  | cons p found ih =>
    obtain ⟨c, f⟩ := p
    unfold firstNamed at h
    split at h
    · obtain ⟨hd, hkey, g, hg, hvia⟩ := ih h
      exact ⟨hd, hkey, g, List.mem_cons_of_mem _ hg, hvia⟩
    · rename_i hseen
      rw [List.contains_iff_mem] at hseen
      rcases List.mem_cons.mp h with rfl | h
      · exact ⟨rfl, hseen, f, List.mem_cons_self, rfl⟩
      · obtain ⟨hd, hkey, g, hg, hvia⟩ := ih h
        exact ⟨hd, fun hs => hkey (List.mem_cons_of_mem _ hs), g, List.mem_cons_of_mem _ hg, hvia⟩

/-- Each term is named once. -/
theorem nodup_firstNamed : ((firstNamed d found seen).1.map Named.key).Nodup := by
  induction found generalizing seen with
  | nil => exact List.nodup_nil
  | cons p found ih =>
    obtain ⟨c, f⟩ := p
    unfold firstNamed
    split
    · exact ih
    · rw [List.map_cons, List.nodup_cons]
      refine ⟨fun hmem => ?_, ih⟩
      obtain ⟨n, hn, hkey⟩ := List.mem_map.mp hmem
      exact (of_mem_firstNamed hn).2.1 (hkey ▸ List.mem_cons_self)

/-- Everything that is found is named, unless it was before. -/
theorem mem_firstNamed :
    t ∈ (firstNamed d found seen).1.map Named.key ↔
      t ∉ seen ∧ ∃ p ∈ found, Text.fold p.1 = t := by
  constructor
  · intro h
    obtain ⟨n, hn, rfl⟩ := List.mem_map.mp h
    obtain ⟨-, hkey, f, hf, -⟩ := of_mem_firstNamed hn
    exact ⟨hkey, (n.term, f), hf, rfl⟩
  · induction found generalizing seen with
    | nil => simp
    | cons p found ih =>
      obtain ⟨c, f⟩ := p
      rintro ⟨hseen, q, hq, rfl⟩
      unfold firstNamed
      split
      · rename_i hold
        rw [List.contains_iff_mem] at hold
        rcases List.mem_cons.mp hq with rfl | hq
        · exact absurd hold hseen
        · exact ih ⟨hseen, q, hq, rfl⟩
      · rw [List.map_cons, List.mem_cons]
        by_cases heq : Text.fold q.1 = Text.fold c
        · exact .inl heq
        · have hq : q ∈ found := by
            rcases List.mem_cons.mp hq with rfl | hq
            · exact absurd rfl heq
            · exact hq
          refine .inr (ih ⟨?_, q, hq, rfl⟩)
          exact fun hs => (List.mem_cons.mp hs).elim heq hseen

/-! ### From level to level -/

/-- What has been visited and named when a level is reached: what lies fewer steps behind has been
visited, what lies as many steps behind is on the level or has been visited too, and all of these
have been named. -/
structure Frontier (facts : List Fact) (start : String) (d : Nat)
    (level visited seen : List String) : Prop where
  visited_iff : ∀ t, t ∈ visited ↔ ∃ n < d, Behind facts start n t
  sound : ∀ t ∈ level, Behind facts start d t
  complete : ∀ t, Behind facts start d t → t ∈ visited ∨ t ∈ level
  seen_iff : ∀ t, t ∈ seen ↔ ∃ n ≤ d, Behind facts start n t

theorem frontier_start : Frontier facts start 0 [start] [] [start] where
  visited_iff t := by simp
  sound t ht := by
    rw [List.mem_singleton.mp ht]
    exact .here
  complete t h := .inr (List.mem_singleton.mpr (behind_zero_iff.mp h))
  seen_iff t := by
    have hzero : Behind facts start 0 t ↔ t = start := behind_zero_iff
    rw [List.mem_singleton, ← hzero]
    exact ⟨fun h => ⟨0, le_rfl, h⟩, fun ⟨n, hn, h⟩ => Nat.le_zero.mp hn ▸ h⟩

namespace Frontier

/-- A term of the level that was not visited lies no fewer steps behind. -/
theorem nearest (h : Frontier facts start d level visited seen) (ht : t ∈ level)
    (hnew : t ∉ visited) : Nearest facts start d t :=
  ⟨h.sound t ht, fun k hk hbehind => hnew ((h.visited_iff t).mpr ⟨k, hk, hbehind⟩)⟩

/-- What is found lies one step farther behind. -/
theorem behind_of_found (h : Frontier facts start d level visited seen) {p : String × Fact}
    (hp : p ∈ (expand facts level visited).1) : Behind facts start (d + 1) (Text.fold p.1) := by
  obtain ⟨c, f⟩ := p
  obtain ⟨hf, e, he, -, hstates⟩ := mem_expand.mp hp
  exact .step (h.sound e he) hf hstates

/-- What lies one step farther behind is found, unless it has been visited or is now. -/
theorem found_of_behind (h : Frontier facts start d level visited seen)
    (ht : Behind facts start (d + 1) t) :
    (∃ n ≤ d, Behind facts start n t) ∨
      ∃ p ∈ (expand facts level visited).1, Text.fold p.1 = t := by
  cases ht with
  | @step _ e c f he hf hstates =>
    -- the causes of a visited term lie one step behind it, and so no farther than this level
    by_cases hvisited : e ∈ visited
    · obtain ⟨n, hn, he⟩ := (h.visited_iff e).mp hvisited
      exact .inl ⟨n + 1, hn, .step he hf hstates⟩
    · have hlevel : e ∈ level := (h.complete e he).resolve_left hvisited
      exact .inr ⟨(c, f), mem_expand.mpr ⟨hf, e, hlevel, hvisited, hstates⟩, rfl⟩

/-- After a level all that lies as few steps behind has been visited. -/
theorem mem_visited_iff (h : Frontier facts start d level visited seen) :
    t ∈ (expand facts level visited).2 ↔ ∃ n ≤ d, Behind facts start n t := by
  rw [mem_expand_visited]
  constructor
  · rintro (ht | ht)
    · obtain ⟨n, hn, ht⟩ := (h.visited_iff t).mp ht
      exact ⟨n, hn.le, ht⟩
    · exact ⟨d, le_rfl, h.sound t ht⟩
  · rintro ⟨n, hn, ht⟩
    rcases hn.lt_or_eq with hlt | rfl
    · exact .inl ((h.visited_iff t).mpr ⟨n, hlt, ht⟩)
    · exact h.complete t ht

/-- The step to the next level. -/
theorem next (h : Frontier facts start d level visited seen) :
    Frontier facts start (d + 1)
      ((expand facts level visited).1.map fun p => Text.fold p.1) (expand facts level visited).2
      (firstNamed d (expand facts level visited).1 seen).2 where
  visited_iff t := by
    rw [h.mem_visited_iff]
    simp only [Nat.lt_succ_iff]
  sound := List.forall_mem_map.mpr fun p hp => h.behind_of_found hp
  complete t ht := by
    rw [h.mem_visited_iff, List.mem_map]
    exact h.found_of_behind ht
  seen_iff t := by
    rw [mem_firstNamed_seen, h.seen_iff]
    constructor
    · rintro (⟨n, hn, ht⟩ | ⟨p, hp, rfl⟩)
      · exact ⟨n, hn.trans d.le_succ, ht⟩
      · exact ⟨d + 1, le_rfl, h.behind_of_found hp⟩
    · rintro ⟨n, hn, ht⟩
      rcases hn.lt_or_eq with hlt | rfl
      · exact .inl ⟨n, Nat.lt_succ_iff.mp hlt, ht⟩
      · exact h.found_of_behind ht

/-- Once nothing is found, nothing lies farther behind. -/
theorem closed (h : Frontier facts start d level visited seen)
    (hnone : (expand facts level visited).1 = []) (ht : Behind facts start n t) :
    ∃ m ≤ d, Behind facts start m t := by
  induction ht with
  | here => exact ⟨0, d.zero_le, .here⟩
  | step _ hf hstates ih =>
    obtain ⟨m, hm, he⟩ := ih
    rcases hm.lt_or_eq with hlt | rfl
    · exact ⟨m + 1, hlt, .step he hf hstates⟩
    · rcases h.found_of_behind (.step he hf hstates) with hless | ⟨p, hp, -⟩
      · exact hless
      · rw [hnone] at hp
        cases hp

end Frontier

/-! ### The walk -/

/-- The causes that lie from `lo` to `hi` steps behind are named, each once and at its depth, by a
fact that states it of a term at that depth. -/
structure Enumerates (facts : List Fact) (start : String) (lo hi : Nat) (ns : List Named) :
    Prop where
  nodup : (ns.map Named.key).Nodup
  mem_iff : ∀ t, t ∈ ns.map Named.key ↔ ∃ n, lo ≤ n ∧ n ≤ hi ∧ Nearest facts start n t
  nearest : ∀ n ∈ ns, Nearest facts start (n.depth + 1) n.key
  stated : ∀ n ∈ ns, ∃ f ∈ facts, f.triple = n.via ∧
    ∃ e, Nearest facts start n.depth e ∧ States f e n.term

variable {ns ms : List Named} {lo mid hi : Nat}

theorem Enumerates.append (h : Enumerates facts start lo mid ns)
    (h' : Enumerates facts start (mid + 1) hi ms) (hlo : lo ≤ mid + 1) (hhi : mid ≤ hi) :
    Enumerates facts start lo hi (ns ++ ms) where
  nodup := by
    rw [List.map_append]
    refine h.nodup.append h'.nodup fun t ht ht' => ?_
    obtain ⟨n, -, hn, hnear⟩ := (h.mem_iff t).mp ht
    obtain ⟨m, hm, -, hnear'⟩ := (h'.mem_iff t).mp ht'
    have heq := hnear.unique hnear'
    omega
  mem_iff t := by
    rw [List.map_append, List.mem_append, h.mem_iff, h'.mem_iff]
    constructor
    · rintro (⟨n, hn, hn', hnear⟩ | ⟨n, hn, hn', hnear⟩)
      · exact ⟨n, hn, hn'.trans hhi, hnear⟩
      · exact ⟨n, hlo.trans hn, hn', hnear⟩
    · rintro ⟨n, hn, hn', hnear⟩
      rcases Nat.lt_or_ge mid n with hlt | hle
      · exact .inr ⟨n, hlt, hn', hnear⟩
      · exact .inl ⟨n, hn, hle, hnear⟩
  nearest n hn := (List.mem_append.mp hn).elim (h.nearest n) (h'.nearest n)
  stated n hn := (List.mem_append.mp hn).elim (h.stated n) (h'.stated n)

/-- What is named on a level lies one step behind it, and not fewer. -/
theorem Frontier.enumerates_named (h : Frontier facts start d level visited seen) :
    Enumerates facts start (d + 1) (d + 1)
      (firstNamed d (expand facts level visited).1 seen).1 where
  nodup := nodup_firstNamed
  mem_iff t := by
    rw [mem_firstNamed, h.seen_iff]
    constructor
    · rintro ⟨hnew, p, hp, rfl⟩
      refine ⟨d + 1, le_rfl, le_rfl, h.behind_of_found hp, fun k hk hbehind => ?_⟩
      exact hnew ⟨k, Nat.lt_succ_iff.mp hk, hbehind⟩
    · rintro ⟨n, hn, hn', hnear⟩
      have heq : n = d + 1 := by omega
      rw [heq] at hnear
      have hnew : ¬ ∃ k ≤ d, Behind facts start k t := fun ⟨k, hk, hbehind⟩ =>
        hnear.least k (Nat.lt_succ_iff.mpr hk) hbehind
      exact ⟨hnew, (h.found_of_behind hnear.behind).resolve_left hnew⟩
  nearest n hn := by
    obtain ⟨hdepth, hnew, f, hf, -⟩ := of_mem_firstNamed hn
    have hbehind := h.behind_of_found hf
    rw [h.seen_iff] at hnew
    rw [hdepth]
    exact ⟨hbehind, fun k hk hless => hnew ⟨k, Nat.lt_succ_iff.mp hk, hless⟩⟩
  stated n hn := by
    obtain ⟨hdepth, -, f, hfound, hvia⟩ := of_mem_firstNamed hn
    obtain ⟨hf, e, he, hnew, hstates⟩ := mem_expand.mp hfound
    rw [hdepth]
    exact ⟨f, hf, hvia, e, h.nearest he hnew, hstates⟩

/-- From a level on the walk names what lies within reach. -/
theorem Frontier.enumerates_walk (h : Frontier facts start d level visited seen) :
    Enumerates facts start (d + 1) (d + 1 + room) (walk facts room d level visited seen) := by
  induction room generalizing d level visited seen with
  | zero => exact h.enumerates_named
  | succ room ih =>
    show Enumerates facts start (d + 1) (d + 1 + (room + 1))
      (if (expand facts level visited).1.isEmpty then _ else _ ++ walk facts room (d + 1) _ _ _)
    split
    · rename_i hnone
      -- the walk ends early only where no more levels would name anything
      rw [List.isEmpty_iff] at hnone
      have hnamed := h.enumerates_named
      refine ⟨hnamed.nodup, fun t => ?_, hnamed.nearest, hnamed.stated⟩
      rw [hnamed.mem_iff]
      constructor
      · rintro ⟨n, hn, hn', hnear⟩
        exact ⟨n, hn, by omega, hnear⟩
      · rintro ⟨n, hn, -, hnear⟩
        obtain ⟨m, hm, hbehind⟩ := h.closed hnone hnear.behind
        exact absurd hbehind (hnear.least m (by omega))
    · have hrest := ih h.next
      rw [Nat.add_right_comm (d + 1) 1 room] at hrest
      exact h.enumerates_named.append hrest (by omega) (by omega)

/-! ### The ranking -/

theorem unsigned_combined (s : Store) (now : Millis) (n : Named) :
    Unsigned (score s now n).combined.toModel.unpack :=
  unsigned_single_max _

/-- One hypothesis may stand before another one. -/
def before (a b : Hypothesis) : Bool := !decide (a.combined < b.combined)

/-- One hypothesis ranks no lower than another one. -/
def outranks (a b : Hypothesis) : Bool :=
  decide (rank b.combined.toModel.unpack ≤ rank a.combined.toModel.unpack)

theorem before_eq_outranks {a b : Hypothesis} (ha : Unsigned a.combined.toModel.unpack)
    (hb : Unsigned b.combined.toModel.unpack) : before a b = outranks a b := by
  unfold before outranks
  rw [← decide_not, decide_eq_decide, single_lt_iff, ha.lt_iff hb, not_lt]

theorem outranks_trans (a b c : Hypothesis) (hab : outranks a b = true)
    (hbc : outranks b c = true) : outranks a c = true :=
  decide_eq_true ((of_decide_eq_true hbc).trans (of_decide_eq_true hab))

theorem outranks_total (a b : Hypothesis) : (outranks a b || outranks b a) = true := by
  rw [Bool.or_eq_true]
  exact (le_total (rank b.combined.toModel.unpack) (rank a.combined.toModel.unpack)).imp
    decide_eq_true decide_eq_true

/-- Scores leave no two hypotheses without an order. -/
theorem mergeSort_before {hs : List Hypothesis}
    (h : ∀ a ∈ hs, Unsigned a.combined.toModel.unpack) :
    hs.mergeSort before = hs.mergeSort outranks := by
  have hmap := List.map_mergeSort (r := before) (s := outranks) (f := id) (l := hs)
    fun a ha b hb => before_eq_outranks (h a ha) (h b hb)
  rwa [List.map_id, List.map_id] at hmap

end KnowledgeBase.Cause

namespace KnowledgeBase.Store

open Cause (Named Hypothesis Options Behind Nearest States Enumerates score)

/-- The causes of an observation, the highest score first. -/
def rankedCauses (s : Store) (observation : String) (o : Options) (now : Millis) :
    List Hypothesis :=
  ((s.namedCauses observation o).map (score s now)).mergeSort Cause.before

/-- How many steps are left behind the direct causes. -/
def reach (o : Options) : Nat := if o.transitive then o.maxDepth else 0

variable {s : Store} {observation : String} {o : Options} {now : Millis}

theorem enumerates_namedCauses (s : Store) (observation : String) (o : Options) :
    Enumerates (s.factsFrom Existence.possible) (Text.fold observation) 1 (reach o + 1)
      (s.namedCauses observation o) := by
  have h : Enumerates (s.factsFrom Existence.possible) (Text.fold observation) (0 + 1)
      (0 + 1 + reach o) (s.namedCauses observation o) :=
    Cause.frontier_start.enumerates_walk
  rwa [Nat.zero_add, Nat.add_comm] at h

/-- What a ranking of the causes of an observation holds: the terms within reach, folded, but for
the observation, each once; a cause at the depth of which it lies behind the observation, by a
stored fact that states it of a term at that depth; the scores, the highest first; and of equal
scores the one first that is named first. -/
structure Explains (s : Store) (observation : String) (o : Options) (now : Millis)
    (ranked : List Hypothesis) : Prop where
  nodup : (ranked.map fun h => Text.fold h.named.term).Nodup
  mem_iff : ∀ t, t ∈ ranked.map (fun h => Text.fold h.named.term) ↔
    t ≠ Text.fold observation ∧ ∃ n, 1 ≤ n ∧ n ≤ reach o + 1 ∧
      Behind (s.factsFrom Existence.possible) (Text.fold observation) n t
  nearest : ∀ h ∈ ranked, Nearest (s.factsFrom Existence.possible) (Text.fold observation)
    (h.named.depth + 1) (Text.fold h.named.term)
  stated : ∀ h ∈ ranked, ∃ f ∈ s.factsFrom Existence.possible, f.triple = h.named.via ∧
    ∃ e, Nearest (s.factsFrom Existence.possible) (Text.fold observation) h.named.depth e ∧
      States f e h.named.term
  scored : ranked.Perm ((s.namedCauses observation o).map (score s now))
  descending : ranked.Pairwise fun a b => ¬ a.combined < b.combined
  stable : ∀ a b, [a, b].Sublist ((s.namedCauses observation o).map (score s now)) →
    ¬ a.combined < b.combined → [a, b].Sublist ranked

theorem perm_rankedCauses (s : Store) (observation : String) (o : Options) (now : Millis) :
    (s.rankedCauses observation o now).Perm ((s.namedCauses observation o).map (score s now)) :=
  List.mergeSort_perm _ _

/-- Every hypothesis is of a named cause. -/
theorem named_of_mem_rankedCauses {h : Hypothesis} (hh : h ∈ s.rankedCauses observation o now) :
    h.named ∈ s.namedCauses observation o := by
  rw [(s.perm_rankedCauses observation o now).mem_iff] at hh
  obtain ⟨n, hn, rfl⟩ := List.mem_map.mp hh
  exact hn

theorem perm_keys (s : Store) (observation : String) (o : Options) (now : Millis) :
    ((s.rankedCauses observation o now).map fun h => Text.fold h.named.term).Perm
      ((s.namedCauses observation o).map Named.key) := by
  refine ((s.perm_rankedCauses observation o now).map _).trans ?_
  rw [List.map_map]
  exact .refl _

theorem explains_rankedCauses (s : Store) (observation : String) (o : Options) (now : Millis) :
    s.Explains observation o now (s.rankedCauses observation o now) := by
  have hnamed := s.enumerates_namedCauses observation o
  have hkeys := s.perm_keys observation o now
  have hunsigned : ∀ a ∈ (s.namedCauses observation o).map (score s now),
      Unsigned a.combined.toModel.unpack :=
    List.forall_mem_map.mpr fun n _ => Cause.unsigned_combined s now n
  have hsort : s.rankedCauses observation o now =
      ((s.namedCauses observation o).map (score s now)).mergeSort Cause.outranks :=
    Cause.mergeSort_before hunsigned
  have hbefore : ∀ a ∈ (s.namedCauses observation o).map (score s now),
      ∀ b ∈ (s.namedCauses observation o).map (score s now),
      Cause.outranks a b = true ↔ ¬ a.combined < b.combined := by
    intro a ha b hb
    rw [← Cause.before_eq_outranks (hunsigned a ha) (hunsigned b hb), Cause.before, ← decide_not,
      decide_eq_true_eq]
  have hperm := s.perm_rankedCauses observation o now
  refine ⟨hkeys.nodup_iff.mpr hnamed.nodup, fun t => ?_, fun h hh => ?_, fun h hh => ?_, hperm,
    ?_, fun a b hab hle => ?_⟩
  · rw [hkeys.mem_iff, hnamed.mem_iff]
    constructor
    · rintro ⟨n, hn, hn', hnear⟩
      refine ⟨fun heq => ?_, n, hn, hn', hnear.behind⟩
      exact hnear.least 0 hn (Cause.behind_zero_iff.mpr heq)
    · rintro ⟨hne, n, -, hn', hbehind⟩
      obtain ⟨m, hm, hnear⟩ := hbehind.exists_nearest
      refine ⟨m, Nat.pos_of_ne_zero ?_, hm.trans hn', hnear⟩
      rintro rfl
      exact hne (Cause.behind_zero_iff.mp hnear.behind)
  · exact hnamed.nearest h.named (named_of_mem_rankedCauses hh)
  · exact hnamed.stated h.named (named_of_mem_rankedCauses hh)
  · have hpairs := List.pairwise_mergeSort Cause.outranks_trans Cause.outranks_total
      ((s.namedCauses observation o).map (score s now))
    rw [← hsort] at hpairs
    exact hpairs.imp_of_mem fun ha hb hab =>
      (hbefore _ (hperm.mem_iff.mp ha) _ (hperm.mem_iff.mp hb)).mp hab
  · rw [hsort]
    have ha := hab.subset List.mem_cons_self
    have hb := hab.subset (List.mem_cons_of_mem _ List.mem_cons_self)
    exact List.pair_sublist_mergeSort Cause.outranks_trans Cause.outranks_total
      ((hbefore a ha b hb).mpr hle) hab

/-- **The causes of an observation are enumerated.**  In every store, whatever circles its facts go
in, an observation that is not blank has a ranking of exactly the terms that lie one step behind it
or up to `maxDepth` more, and the best `k` causes are the first `k` of the ranking. -/
theorem causesOf_enumerates (s : Store) (h : Text.fold observation ≠ "") (o : Options)
    (now : Millis) :
    ∃ ranked, (∀ k, s.causesOf observation { o with k } now = .ok (ranked.take k)) ∧
      s.Explains observation o now ranked := by
  refine ⟨s.rankedCauses observation o now, fun k => ?_, s.explains_rankedCauses observation o now⟩
  have hnonempty : (Text.fold observation).isEmpty = false := by
    rw [String.isEmpty_eq_false_iff]
    exact h
  unfold causesOf
  rw [hnonempty]
  rfl

/-- What causes a fire is caused by it, and a rumour is not heard. -/
def burning : Store :=
  let s : Store := { dimensions := 2 }
  let s := (s.add ⟨"Spark", "CAUSES", "Fire"⟩ Existence.certain (.record []) 1).1
  let s := (s.add ⟨"fire", "CAUSED_BY", "Lightning"⟩ Existence.certain (.record []) 2).1
  let s := (s.add ⟨"Friction", "CAUSES", "spark"⟩ Existence.possible (.record []) 3).1
  let s := (s.add ⟨"Rumour", "CAUSES", "Fire"⟩ Existence.unproven (.record []) 4).1
  (s.add ⟨"FIRE", "CAUSES", "Friction"⟩ Existence.certain (.record []) 5).1

theorem causesOf_enumerates_burning : Text.fold " Fire" ≠ "" ∧
    ∃ ranked, (∀ k, burning.causesOf " Fire" { k } 6 = .ok (ranked.take k)) ∧
      burning.Explains " Fire" {} 6 ranked ∧
      (ranked.map fun h => (h.named.term, h.named.depth)).Perm
        [("Spark", 0), ("Lightning", 0), ("Friction", 1)] := by
  have hfold : Text.fold " Fire" ≠ "" := by decide +kernel
  obtain ⟨ranked, hcauses, hexplains⟩ := causesOf_enumerates burning hfold {} 6
  refine ⟨hfold, ranked, hcauses, hexplains, ?_⟩
  have hnamed : (burning.namedCauses " Fire" {}).map (fun n => (n.term, n.depth)) =
      [("Spark", 0), ("Lightning", 0), ("Friction", 1)] := by
    decide +kernel
  rw [← hnamed]
  have hperm := hexplains.scored.map fun h => (h.named.term, h.named.depth)
  rwa [List.map_map] at hperm

end KnowledgeBase.Store
