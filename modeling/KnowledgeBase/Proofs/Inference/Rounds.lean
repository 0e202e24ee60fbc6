import KnowledgeBase.Proofs.Inference.Consequence

/-!
# Rounds of forward chaining

What one round adds and what a whole chain of rounds holds.  A triple counts by its key: the
relation as it is written, the terms up to spelling.

* `mem_round`, `keysOf_round_nodup`, `key_mem_round`: a round adds candidates, each key once, and
  leaves no key of a candidate out;
* `forwardChain_succ`: one more round is added at the end, so chains grow at the end only;
* `follows_of_split`: what is derived follows from what comes before it;
* `forwardChain_justified`: the keys of the derived facts are new and distinct, and each of these
  facts is justified by earlier ones.
-/

namespace KnowledgeBase.Inference.Saturation

/-- The keys of the triples that facts state. -/
def keysOf (facts : List Fact) : List String := facts.map (·.triple.termKey)

variable {r : Relations} {facts facts' : List Fact} {c : Candidate} {d : Fact}

@[simp] theorem keysOf_append : keysOf (facts ++ facts') = keysOf facts ++ keysOf facts' :=
  List.map_append

theorem mem_keysOf {k : String} : k ∈ keysOf facts ↔ ∃ f ∈ facts, f.triple.termKey = k :=
  List.mem_map

/-! ### Candidates with new keys -/

section

variable {seen : Std.TreeSet String} {cs : List Candidate}

theorem mem_of_mem_fresh (h : c ∈ fresh seen cs) : c ∈ cs ∧ c.triple.termKey ∉ seen := by
  induction cs generalizing seen with
  | nil => cases h
  | cons x xs ih =>
    unfold fresh at h
    dsimp only at h
    split at h
    · have hx := ih h
      exact ⟨List.mem_cons_of_mem x hx.1, hx.2⟩
    · rename_i hseen
      rcases List.mem_cons.mp h with rfl | h
      · exact ⟨List.mem_cons_self, fun hmem => hseen (Std.TreeSet.mem_iff_contains.mp hmem)⟩
      · have hx := ih h
        exact ⟨List.mem_cons_of_mem x hx.1, fun hmem =>
          hx.2 (Std.TreeSet.mem_insert.mpr (Or.inr hmem))⟩

theorem fresh_nodup : ((fresh seen cs).map (·.triple.termKey)).Nodup := by
  induction cs generalizing seen with
  | nil => exact List.nodup_nil
  | cons x xs ih =>
    unfold fresh
    dsimp only
    split
    · exact ih
    · rw [List.map_cons, List.nodup_cons]
      refine ⟨?_, ih⟩
      intro hmem
      obtain ⟨y, hy, hkey⟩ := List.mem_map.mp hmem
      have hnew := (mem_of_mem_fresh hy).2
      have hold : y.triple.termKey ∈ seen.insert x.triple.termKey := by
        rw [hkey]
        exact Std.TreeSet.mem_insert_self
      exact hnew hold

theorem key_mem_fresh (h : c ∈ cs) :
    c.triple.termKey ∈ seen ∨ c.triple.termKey ∈ (fresh seen cs).map (·.triple.termKey) := by
  induction cs generalizing seen with
  | nil => cases h
  | cons x xs ih =>
    unfold fresh
    dsimp only
    split
    · rename_i hseen
      rcases List.mem_cons.mp h with rfl | h
      · exact Or.inl (Std.TreeSet.mem_iff_contains.mpr hseen)
      · exact ih h
    · rcases List.mem_cons.mp h with rfl | h
      · exact Or.inr (List.mem_map.mpr ⟨c, List.mem_cons_self, rfl⟩)
      · rcases (ih h : c.triple.termKey ∈ seen.insert x.triple.termKey ∨ _) with hins | hin
        · rw [Std.TreeSet.mem_insert, Std.compare_eq_iff_eq] at hins
          rcases hins with heq | hold
          · exact Or.inr (List.mem_map.mpr ⟨x, List.mem_cons_self, heq⟩)
          · exact Or.inl hold
        · exact Or.inr (List.mem_cons_of_mem _ hin)

end

/-! ### One round -/

theorem mem_ofList_keysOf {k : String} :
    k ∈ Std.TreeSet.ofList (facts.map (·.triple.termKey)) ↔ k ∈ keysOf facts := by
  rw [Std.TreeSet.mem_ofList, List.contains_iff_mem]
  exact Iff.rfl

/-- What a round adds is a candidate with a new key. -/
theorem mem_round (h : d ∈ round r facts) :
    ∃ c ∈ candidates facts r, d = c.fact ∧ d.triple.termKey ∉ keysOf facts := by
  obtain ⟨c, hc, rfl⟩ := List.mem_map.mp h
  obtain ⟨hcand, hnew⟩ := mem_of_mem_fresh hc
  exact ⟨c, hcand, rfl, fun hmem => hnew (mem_ofList_keysOf.mpr hmem)⟩

theorem keysOf_round_nodup (r : Relations) (facts : List Fact) :
    (keysOf (round r facts)).Nodup := by
  unfold keysOf round
  rw [List.map_map]
  exact fresh_nodup

/-- After a round the key of every candidate is there. -/
theorem key_mem_round (h : c ∈ candidates facts r) :
    c.triple.termKey ∈ keysOf (facts ++ round r facts) := by
  rw [keysOf_append, List.mem_append]
  rcases key_mem_fresh h with hold | hnew
  · exact Or.inl (mem_ofList_keysOf.mp hold)
  · refine Or.inr ?_
    unfold keysOf round
    rw [List.map_map]
    exact hnew

theorem derivedBy_fact (c : Candidate) : c.fact.derivedBy = .ok c.rule := by
  simp [Fact.derivedBy, Candidate.fact, Value.field?]

theorem Follows.mono {t : Triple} {name : String} (h : Follows r facts t name)
    (hsub : ∀ f ∈ facts, f ∈ facts') : Follows r facts' t name := by
  cases h with
  | composition hrule hbody hground =>
    refine .composition hrule (fun p hp => ?_) hground
    obtain ⟨f, hf, hfits⟩ := hbody p hp
    exact ⟨f, hsub f hf, hfits⟩
  | chain htrans hf hg hrel hmeet hends =>
    exact .chain htrans (hsub _ hf) (hsub _ hg) hrel hmeet hends
  | symmetry hsymm hf => exact .symmetry hsymm (hsub _ hf)
  | inversion hinv hf => exact .inversion hinv (hsub _ hf)

/-- What a round adds follows from the facts before it. -/
theorem follows_of_mem_round (h : d ∈ round r facts) :
    d.existence = Existence.demonstrated ∧
      ∃ name, d.derivedBy = .ok name ∧ Follows r facts d.triple name := by
  obtain ⟨c, hc, rfl, -⟩ := mem_round h
  exact ⟨rfl, c.rule, derivedBy_fact c, follows_of_mem_candidates hc⟩

/-! ### All rounds -/

/-- One more round comes at the end. -/
theorem forwardChain_succ (r : Relations) (rounds : Nat) (facts : List Fact) :
    forwardChain r (rounds + 1) facts =
      forwardChain r rounds facts ++ round r (facts ++ forwardChain r rounds facts) := by
  induction rounds generalizing facts with
  | zero =>
    by_cases hstop : round r facts = []
    · simp [forwardChain, hstop]
    · simp [forwardChain]
  | succ n ih =>
    rw [forwardChain.eq_def r (n + 1 + 1), forwardChain.eq_def r (n + 1)]
    dsimp only
    by_cases hstop : round r facts = []
    · simp [hstop]
    · have hgo : (round r facts).isEmpty = false := by simpa using hstop
      rw [hgo]
      simp only [Bool.false_eq_true, if_false]
      rw [ih (facts ++ round r facts)]
      simp only [List.append_assoc]

/-- Everything derived is added by some round. -/
theorem exists_round {rounds : Nat} (h : d ∈ forwardChain r rounds facts) :
    ∃ k < rounds, d ∈ round r (facts ++ forwardChain r k facts) := by
  induction rounds with
  | zero => cases h
  | succ n ih =>
    rw [forwardChain_succ, List.mem_append] at h
    rcases h with h | h
    · obtain ⟨k, hk, hd⟩ := ih h
      exact ⟨k, by omega, hd⟩
    · exact ⟨n, by omega, h⟩

theorem forwardChain_prefix {m n : Nat} (h : m ≤ n) :
    forwardChain r m facts <+: forwardChain r n facts := by
  induction h with
  | refl => exact List.prefix_rfl
  | step _ ih =>
    rw [forwardChain_succ]
    exact ih.trans (List.prefix_append _ _)

theorem keysOf_forwardChain_nodup (r : Relations) (rounds : Nat) (facts : List Fact) :
    (keysOf (forwardChain r rounds facts)).Nodup := by
  induction rounds with
  | zero => exact List.nodup_nil
  | succ n ih =>
    rw [forwardChain_succ, keysOf_append, List.nodup_append]
    refine ⟨ih, keysOf_round_nodup r _, ?_⟩
    intro k hk k' hk' heq
    obtain ⟨d, hd, rfl⟩ := mem_keysOf.mp hk'
    obtain ⟨-, -, -, hnew⟩ := mem_round hd
    rw [keysOf_append, List.mem_append] at hnew
    exact hnew (Or.inr (heq ▸ hk))

theorem key_not_mem_of_derived {rounds : Nat} (h : d ∈ forwardChain r rounds facts) :
    d.triple.termKey ∉ keysOf facts := by
  obtain ⟨k, -, hd⟩ := exists_round h
  obtain ⟨-, -, -, hnew⟩ := mem_round hd
  rw [keysOf_append, List.mem_append] at hnew
  exact fun hmem => hnew (Or.inl hmem)

/-- A derived fact follows from the facts given and those derived before it. -/
theorem follows_of_split {rounds : Nat} {earlier later : List Fact}
    (h : forwardChain r rounds facts = earlier ++ d :: later) :
    d.existence = Existence.demonstrated ∧
      ∃ name, d.derivedBy = .ok name ∧ Follows r (facts ++ earlier) d.triple name := by
  induction rounds generalizing later with
  | zero => simp [forwardChain] at h
  | succ n ih =>
    rw [forwardChain_succ] at h
    rcases List.append_eq_append_iff.mp h with ⟨rest, hearlier, hround⟩ | ⟨rest, hbefore, hround⟩
    · -- the fact is added by the last round
      have hmem : d ∈ round r (facts ++ forwardChain r n facts) := by
        rw [hround]
        exact List.mem_append_right rest List.mem_cons_self
      obtain ⟨hlevel, name, hby, hfollows⟩ := follows_of_mem_round hmem
      refine ⟨hlevel, name, hby, hfollows.mono fun f hf => ?_⟩
      rw [hearlier, ← List.append_assoc]
      exact List.mem_append_left rest hf
    · cases rest with
      | nil =>
        have hmem : d ∈ round r (facts ++ forwardChain r n facts) := by
          rw [List.nil_append] at hround
          rw [← hround]
          exact List.mem_cons_self
        obtain ⟨hlevel, name, hby, hfollows⟩ := follows_of_mem_round hmem
        rw [hbefore, List.append_nil] at hfollows
        exact ⟨hlevel, name, hby, hfollows⟩
      | cons x rest =>
        obtain ⟨rfl, -⟩ := List.cons.inj (List.cons_append ▸ hround)
        exact ih hbefore

/-- **Forward chaining is justified and repeats nothing**: the keys of what it derives are distinct
and not those of a given fact, all of it is at the demonstrated level, and every derived fact
follows, by the one rule or closure that it names, from facts that come before it. -/
theorem forwardChain_justified (r : Relations) (rounds : Nat) (facts : List Fact) :
    (keysOf (forwardChain r rounds facts)).Nodup ∧
      List.Disjoint (keysOf (forwardChain r rounds facts)) (keysOf facts) ∧
      (∀ d ∈ forwardChain r rounds facts, d.existence = Existence.demonstrated) ∧
      ∀ earlier d later, forwardChain r rounds facts = earlier ++ d :: later →
        ∃ name, d.derivedBy = .ok name ∧ Follows r (facts ++ earlier) d.triple name := by
  refine ⟨keysOf_forwardChain_nodup r rounds facts, ?_, ?_, ?_⟩
  · intro k hk hmem
    obtain ⟨d, hd, rfl⟩ := mem_keysOf.mp hk
    exact key_not_mem_of_derived hd hmem
  · intro d hd
    obtain ⟨k, -, hround⟩ := exists_round hd
    exact (follows_of_mem_round hround).1
  · intro earlier d later h
    exact (follows_of_split h).2

end KnowledgeBase.Inference.Saturation
