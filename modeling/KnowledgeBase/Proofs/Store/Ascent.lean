import KnowledgeBase.Proofs.Store.Keeping
import KnowledgeBase.Proofs.Store.Separation

/-!
# Existence only climbs

A run that removes nothing and loads nothing only ever adds to what is held of a triple: versions
come in above those that are there, and their levels rise.

* `Command.Builds`: the commands of such runs, on triples that are told apart by their keys;
* `Builds.unwrapped`: they lose no id, so a store that is unwrapped at the end was so all the time;
* `raisedTo`: the levels that a run gives to a triple, by assertions that are accepted and by
  upgrades of its versions;
* `Recorded.after`, `recorded_afterAll`: the versions of a triple have levels from that list, and
  some version is as high as any of them, after one command and after a whole run;
* `existence_climbs`: the best version of a triple stands at the highest of them.
-/

namespace KnowledgeBase

/-- A command that takes no fact away.  What it asserts is clean. -/
def Command.Builds : Command → Prop
  | .remove _ | .forget .. | .restore .. => False
  | .add t .. => t.Clean
  | .ensure .. | .query .. | .upsert .. | .observe .. | .boost .. | .protect _ | .unprotect _
  | .upgrade .. => True

instance : DecidablePred Command.Builds
  | .remove _ | .forget .. | .restore .. => inferInstanceAs (Decidable False)
  | .add t .. => inferInstanceAs (Decidable t.Clean)
  | .ensure .. | .query .. | .upsert .. | .observe .. | .boost .. | .protect _ | .unprotect _
  | .upgrade .. => inferInstanceAs (Decidable True)

namespace Store

variable {s s' : Store} {t : Triple} {level : Existence} {metadata : Value} {c : Command}
  {cs : List Command} {ls : List Existence} {f : Fact} {i : FactId} {now : Millis}

/-- The store that commands leave behind, given one after the other. -/
def afterAll (s : Store) (cs : List Command) : Store := cs.foldl after s

/-- The level to which a command raises a triple: that of an assertion that is accepted, or to which
one of its versions is upgraded. -/
def raised? (s : Store) (t : Triple) : Command → Option Existence
  | .add t' level metadata now =>
    if t' = t ∧ (s.add t' level metadata now).2.isOk then some level else none
  | .upgrade id level =>
    if (s.fact? id).any (·.triple == t) ∧ (s.upgrade id level).2.toOption = some true then
      some level
    else none
  | _ => none

/-- All levels to which commands raise a triple. -/
def raisedTo (s : Store) (t : Triple) : List Command → List Existence
  | [] => []
  | c :: cs => (s.raised? t c).toList ++ (s.after c).raisedTo t cs

/-- The level of the version that is looked up under a triple. -/
def bestLevel (s : Store) (t : Triple) : Except Fault (Option Existence) :=
  (s.bestFact t.subject t.relation (some t.object)).map (Option.map Fact.existence)

theorem afterAll_append (cs₁ cs₂ : List Command) :
    s.afterAll (cs₁ ++ cs₂) = (s.afterAll cs₁).afterAll cs₂ := List.foldl_append

theorem raisedTo_append (cs₁ cs₂ : List Command) :
    s.raisedTo t (cs₁ ++ cs₂) = s.raisedTo t cs₁ ++ (s.afterAll cs₁).raisedTo t cs₂ := by
  induction cs₁ generalizing s with
  | nil => rfl
  | cons c cs₁ ih =>
    show _ ++ (s.after c).raisedTo t (cs₁ ++ cs₂) = _ ++ (s.after c).raisedTo t cs₁ ++ _
    rw [ih, List.append_assoc]
    rfl

/-! ### What single commands do -/

theorem ledger_orKept {r : Except Fault Store} (h : ∀ s', r = .ok s' → s'.ledger = s.ledger) :
    (s.orKept r).ledger = s.ledger := by
  cases r with
  | ok s' => exact h s' rfl
  | error e => rfl

/-- Besides assertions and upgrades, commands that build leave facts and indexes as they are. -/
theorem builds_cases (hc : c.Builds) :
    (∃ t level metadata now, c = .add t level metadata now ∧ t.Clean) ∨
      (∃ i level, c = .upgrade i level) ∨
      (s.after c).ledger = s.ledger ∧ ∀ t, s.raised? t c = none := by
  cases c with
  | add t level metadata now => exact .inl ⟨t, level, metadata, now, rfl, hc⟩
  | upgrade i level => exact .inr (.inl ⟨i, level, rfl⟩)
  | ensure label now =>
    exact .inr (.inr ⟨ledger_orKept fun _ h => ledger_ensureConcept h, fun _ => rfl⟩)
  | query label now => exact .inr (.inr ⟨ledger_modifyUsage label _, fun _ => rfl⟩)
  | upsert label ds now =>
    exact .inr (.inr ⟨ledger_orKept fun _ h => ledger_upsert h, fun _ => rfl⟩)
  | observe label v now =>
    exact .inr (.inr ⟨ledger_orKept fun _ h => ledger_observe h, fun _ => rfl⟩)
  | boost label amount now => exact .inr (.inr ⟨ledger_modifyUsage label _, fun _ => rfl⟩)
  | protect label => exact .inr (.inr ⟨rfl, fun _ => rfl⟩)
  | unprotect label => exact .inr (.inr ⟨rfl, fun _ => rfl⟩)
  | remove i => exact hc.elim
  | forget r now => exact hc.elim
  | restore snapshot now => exact hc.elim

/-- The new version stands behind all facts. -/
theorem Coherent.allFacts_newVersion (h : Coherent s) (t : Triple) (level : Existence)
    (metadata : Value) (now : Millis) :
    ((s.receive (s.nextId + 1) (s.nextVersion t level metadata)).touch t now).allFacts =
      s.allFacts ++ [s.nextVersion t level metadata] := by
  have hindexed : Indexed (· < ·)
      ((s.receive (s.nextId + 1) (s.nextVersion t level metadata)).touch t now) :=
    (h.indexed.receive h.free_nextId (h.above_nextVersion t level metadata)).congr (ledger_touch t)
  refine eq_of_ascending (Store.allFacts_ascending hindexed.own_id) ?_ fun g => ?_
  · refine List.pairwise_append.mpr ⟨h.allFacts_ascending, List.pairwise_singleton _ _, ?_⟩
    rintro g hg e he
    rw [List.mem_singleton.mp he]
    exact h.below (h.fact?_id hg)
  · simp only [mem_allFacts, h.fact?_newVersion, List.mem_append, List.mem_singleton]
    constructor
    · rintro ⟨i, hi⟩
      split at hi
      · exact .inr (Option.some.inj hi).symm
      · exact .inl ⟨i, hi⟩
    · rintro (⟨i, hi⟩ | rfl)
      · have hne : i ≠ s.nextId := fun heq => UInt64.lt_irrefl _ (heq ▸ h.below hi)
        exact ⟨i, by rw [if_neg hne, hi]⟩
      · exact ⟨s.nextId, if_pos rfl⟩

/-- An upgrade that is answered with no changes nothing. -/
theorem upgrade_eq_self (h : (s.upgrade i level).2 = .ok false) : (s.upgrade i level).1 = s := by
  unfold upgrade at h ⊢
  split
  · rfl
  · rename_i f hf
    rw [hf] at h
    dsimp only at h ⊢
    split
    · rename_i hlevel
      rw [if_pos hlevel] at h
      -- a raise is answered with yes, or breaks off
      obtain ⟨_, -, hno⟩ := Outcome.map_eq_ok.mp h
      cases hno
    · rfl

/-- An upgrade changes nothing, or raises one fact. -/
theorem Indexed.upgrade_cases {r : FactId → FactId → Prop} (h : Indexed r s) (i : FactId)
    (level : Existence) :
    s.upgrade i level = (s, .ok false) ∨
      ∃ f, s.fact? i = some f ∧ f.existence < level ∧ (s.upgrade i level).2 = .ok true ∧
        ∀ j, (s.upgrade i level).1.fact? j =
          if j = i then some { f with existence := level } else s.fact? j := by
  unfold Store.upgrade
  split
  · exact .inl rfl
  · rename_i f hf
    split
    · rename_i hlevel
      rw [Bool.and_eq_true] at hlevel
      have hok := (h.replace hf (g := { f with existence := level }) rfl rfl).1
      refine .inr ⟨f, hf, of_decide_eq_true hlevel.2, ?_, fun j => ?_⟩
      · exact congrArg (Except.map fun _ => true) hok
      · exact fact?_replace { f with existence := level } i j
    · exact .inl rfl

/-! ### No id is lost -/

theorem isSome_addVersion (t : Triple) (level : Existence) (metadata : Value) (now : Millis)
    (hi : (s.fact? i).isSome) : ((s.addVersion t level metadata now).1.fact? i).isSome := by
  rcases addVersion_cases s t level metadata now with ⟨-, hfacts⟩ | ⟨-, hfacts⟩
  · unfold fact?
    rw [hfacts]
    exact hi
  · unfold fact?
    rw [hfacts, Std.TreeMap.getElem?_insertIfNew]
    split
    · rfl
    · exact hi

theorem isSome_add (t : Triple) (level : Existence) (metadata : Value) (now : Millis)
    (hi : (s.fact? i).isSome) : ((s.add t level metadata now).1.fact? i).isSome := by
  unfold Store.add
  split
  · exact hi
  · split
    · exact hi
    · split
      · exact hi
      · exact isSome_addVersion t level metadata now hi
    · exact isSome_addVersion t level metadata now hi

theorem isSome_after (hc : c.Builds) (hi : (s.fact? i).isSome) :
    ((s.after c).fact? i).isSome := by
  rcases builds_cases (s := s) hc with ⟨t, level, metadata, now, rfl, -⟩ | ⟨j, level, rfl⟩ | ⟨he, -⟩
  · exact isSome_add t level metadata now hi
  · exact ((upgrade_frame j level).2 i).trans hi
  · rw [fact?_congr he]
    exact hi

/-- A store that has lost no id since is unwrapped if it is unwrapped now. -/
theorem WellKept.unwrapped_of_grown (h : WellKept s) (h' : WellKept s')
    (hgrown : ∀ i, (s.fact? i).isSome → (s'.fact? i).isSome) (hw : s'.Unwrapped) :
    s.Unwrapped := by
  intro f hf
  have hi : (s.fact? f.id).isSome := by rw [fact?_id h.own_id hf, Option.isSome_some]
  obtain ⟨g, hg⟩ := Option.isSome_iff_exists.mp (hgrown f.id hi)
  rw [← h'.own_id hg]
  exact hw g (mem_allFacts.mpr ⟨f.id, hg⟩)

/-- A store that a building command leaves unwrapped was so before. -/
theorem WellKept.unwrapped_before (h : WellKept s) (hc : c.Builds)
    (hw : (s.after c).Unwrapped) : s.Unwrapped :=
  h.unwrapped_of_grown (h.after (changes_after s c)) (fun _ => isSome_after hc) hw

theorem WellKept.unwrapped_start (h : WellKept s) (hcs : ∀ c ∈ cs, c.Builds)
    (hw : (s.afterAll cs).Unwrapped) : s.Unwrapped := by
  induction cs generalizing s with
  | nil => exact hw
  | cons c cs ih =>
    obtain ⟨hc, hcs⟩ := List.forall_mem_cons.mp hcs
    exact h.unwrapped_before hc (ih (h.after (changes_after s c)) hcs hw)

/-! ### Levels on record -/

/-- The versions of a triple have levels from a list, and reach each of them. -/
structure Recorded (s : Store) (t : Triple) (ls : List Existence) : Prop where
  given : ∀ f ∈ s.allFacts, f.triple = t → f.existence ∈ ls
  reached : ∀ l ∈ ls, ∃ f ∈ s.allFacts, f.triple = t ∧ l ≤ f.existence

/-- Then the best of them stands at the highest level of the list. -/
theorem Recorded.bestLevel_eq (h : Recorded s t ls) (hs : Coherent s) (hc : s.Clean) :
    s.bestLevel t = .ok ls.max? := by
  obtain ⟨b, hb, hforemost⟩ := hs.bestFact_triple (t := t) (.inl hc)
  unfold bestLevel
  rw [hb]
  refine congrArg Except.ok (Eq.symm ?_)
  cases b with
  | none =>
    have hnil : ls = [] := by
      refine List.eq_nil_iff_forall_not_mem.mpr fun l hl => ?_
      obtain ⟨f, hf, ht, -⟩ := h.reached l hl
      have hscan : f ∈ s.scan (·.triple == t) := List.mem_filter.mpr ⟨hf, by simp [ht]⟩
      rw [show s.scan (·.triple == t) = [] from hforemost] at hscan
      cases hscan
    rw [hnil]
    rfl
  | some f =>
    obtain ⟨hf, ht⟩ := List.mem_filter.mp hforemost.1
    refine List.max?_eq_some_iff.mpr ⟨h.given f hf (by simpa using ht), fun l hl => ?_⟩
    obtain ⟨g, hg, hgt, hle⟩ := h.reached l hl
    rcases hforemost.2 g (List.mem_filter.mpr ⟨hg, by simp [hgt]⟩) with rfl | hlt | ⟨heq, -⟩
    · exact hle
    · exact le_trans hle (le_of_lt hlt)
    · exact heq ▸ hle

/-- A level that a version stands at, or above, is on record. -/
theorem Recorded.of_le (h : Recorded s t ls) (hf : f ∈ s.allFacts) (ht : f.triple = t)
    (hle : level ≤ f.existence) : Recorded s t (ls ++ [level]) := by
  refine ⟨fun g hg hgt => List.mem_append_left _ (h.given g hg hgt), fun l hl => ?_⟩
  rcases List.mem_append.mp hl with hl | hl
  · exact h.reached l hl
  · rw [List.mem_singleton.mp hl]
    exact ⟨f, hf, ht, hle⟩

/-- A fact comes in behind the others. -/
theorem Recorded.grow (h : Recorded s t ls) (hall : s'.allFacts = s.allFacts ++ [f]) :
    Recorded s' t (ls ++ (if f.triple = t then [f.existence] else [])) := by
  constructor
  · intro g hg ht
    rcases List.mem_append.mp (hall ▸ hg) with hg | hg
    · exact List.mem_append_left _ (h.given g hg ht)
    · rw [List.mem_singleton.mp hg] at ht ⊢
      rw [if_pos ht]
      exact List.mem_append_right _ List.mem_cons_self
  · intro l hl
    rw [hall]
    rcases List.mem_append.mp hl with hl | hl
    · obtain ⟨g, hg, hgl⟩ := h.reached l hl
      exact ⟨g, List.mem_append_left _ hg, hgl⟩
    · split at hl
      · rename_i ht
        rw [List.mem_singleton.mp hl]
        exact ⟨f, List.mem_append_right _ List.mem_cons_self, ht, le_refl _⟩
      · cases hl

/-- A fact rises. -/
theorem Recorded.rise (h : Recorded s t ls) (hf : s.fact? i = some f) (hlt : f.existence < level)
    (hfacts : ∀ j, s'.fact? j = if j = i then some { f with existence := level } else s.fact? j) :
    Recorded s' t (ls ++ (if f.triple = t then [level] else [])) := by
  have hraised : { f with existence := level } ∈ s'.allFacts :=
    mem_allFacts.mpr ⟨i, by rw [hfacts, if_pos rfl]⟩
  constructor
  · intro g hg ht
    obtain ⟨j, hj⟩ := mem_allFacts.mp hg
    rw [hfacts] at hj
    split at hj
    · cases hj
      rw [if_pos ht]
      exact List.mem_append_right _ List.mem_cons_self
    · exact List.mem_append_left _ (h.given g (mem_allFacts.mpr ⟨j, hj⟩) ht)
  · intro l hl
    rcases List.mem_append.mp hl with hl | hl
    · obtain ⟨g, hg, ht, hle⟩ := h.reached l hl
      obtain ⟨j, hj⟩ := mem_allFacts.mp hg
      by_cases hji : j = i
      · rw [hji, hf] at hj
        cases hj
        exact ⟨_, hraised, ht, le_trans hle (le_of_lt hlt)⟩
      · exact ⟨g, mem_allFacts.mpr ⟨j, by rw [hfacts, if_neg hji, hj]⟩, ht, hle⟩
    · split at hl
      · rename_i ht
        rw [List.mem_singleton.mp hl]
        exact ⟨_, hraised, ht, le_refl _⟩
      · cases hl

theorem toList_ite {p : Prop} [Decidable p] :
    (if p then some level else none).toList = if p then [level] else [] :=
  apply_ite Option.toList p (some level) none

theorem Recorded.add (h : Recorded s t ls) (hs : Coherent s) (hc : s.Clean) (u : Triple)
    (level : Existence) (metadata : Value) (now : Millis) :
    Recorded (s.add u level metadata now).1 t
      (ls ++ (s.raised? t (.add u level metadata now)).toList) := by
  unfold raised?
  dsimp only
  rw [toList_ite]
  cases hvalid : assertionFault? u level metadata with
  | some why =>
    have hadd : s.add u level metadata now = (s, refuse why) := by
      unfold Store.add
      rw [hvalid]
    rw [hadd, if_neg fun h => Bool.false_ne_true h.2, List.append_nil]
    exact h
  | none =>
    rcases hs.indexed.add_cases hvalid now with ⟨f, hf, hkey, -, hle, hadd⟩ | ⟨-, hadd⟩
    · have hfu : f.triple = u := (Triple.key_eq_iff (hc f hf)).mp hkey
      rw [hadd]
      by_cases hut : u = t
      · rw [if_pos ⟨hut, rfl⟩]
        exact h.of_le hf (hfu.trans hut) hle
      · rw [if_neg fun h => hut h.1, List.append_nil]
        exact h
    · rw [hadd, addVersion_eq hs]
      have hgrown := h.grow (hs.allFacts_newVersion u level metadata now)
      by_cases hut : u = t
      · rw [if_pos ⟨hut, rfl⟩]
        rwa [if_pos (show (s.nextVersion u level metadata).triple = t from hut)] at hgrown
      · rw [if_neg fun h => hut h.1]
        rwa [if_neg (show ¬ (s.nextVersion u level metadata).triple = t from hut)] at hgrown

theorem Recorded.upgrade (h : Recorded s t ls) (hs : Coherent s) (i : FactId)
    (level : Existence) :
    Recorded (s.upgrade i level).1 t (ls ++ (s.raised? t (.upgrade i level)).toList) := by
  unfold raised?
  dsimp only
  rw [toList_ite]
  rcases hs.indexed.upgrade_cases i level with heq | ⟨f, hf, hlt, hyes, hfacts⟩
  · rw [heq, if_neg fun h => Bool.false_ne_true (Option.some.inj h.2), List.append_nil]
    exact h
  · have hcond : ((s.fact? i).any (·.triple == t) = true ∧
        (s.upgrade i level).2.toOption = some true) = (f.triple = t) := by
      rw [hf, hyes]
      simp [Except.toOption]
    have hrisen := h.rise hf hlt hfacts
    simp only [hcond]
    exact hrisen

/-- **One command keeps the record.** -/
theorem Recorded.after (h : Recorded s t ls) (hs : Coherent s) (hc : s.Clean) (hb : c.Builds) :
    Recorded (s.after c) t (ls ++ (s.raised? t c).toList) := by
  rcases builds_cases (s := s) hb with ⟨u, level, metadata, now, rfl, -⟩ | ⟨i, level, rfl⟩ |
    ⟨he, hnone⟩
  · exact h.add hs hc u level metadata now
  · exact h.upgrade hs i level
  · have hall := allFacts_congr he
    rw [hnone, Option.toList_none, List.append_nil]
    refine ⟨fun f hf => h.given f (hall ▸ hf), fun l hl => ?_⟩
    obtain ⟨f, hf, hle⟩ := h.reached l hl
    exact ⟨f, hall.symm ▸ hf, hle⟩

/-! ### Runs -/

theorem Clean.after (hc : s.Clean) (hs : Coherent s) (hb : c.Builds) : (s.after c).Clean := by
  rcases builds_cases (s := s) hb with ⟨u, level, metadata, now, rfl, hu⟩ | ⟨i, level, rfl⟩ |
    ⟨he, -⟩
  · show (s.add u level metadata now).1.Clean
    cases hvalid : assertionFault? u level metadata with
    | some why =>
      unfold Store.add
      rw [hvalid]
      exact hc
    | none => exact hc.add hs hu hvalid now
  · show (s.upgrade i level).1.Clean
    rcases hs.indexed.upgrade_cases i level with heq | ⟨f, hf, -, -, hfacts⟩
    · rw [heq]
      exact hc
    · intro g hg
      obtain ⟨j, hj⟩ := mem_allFacts.mp hg
      rw [hfacts] at hj
      split at hj
      · cases hj
        exact hc f (mem_allFacts.mpr ⟨i, hf⟩)
      · exact hc g (mem_allFacts.mpr ⟨j, hj⟩)
  · exact fun f hf => hc f (allFacts_congr he ▸ hf)

theorem WellKept.afterAll (h : WellKept s) : WellKept (s.afterAll cs) := by
  induction cs generalizing s with
  | nil => exact h
  | cons c cs ih => exact ih (h.after (changes_after s c))

/-- What a run of building commands keeps. -/
theorem recorded_afterAll (hk : WellKept s) (hs : Coherent s) (hc : s.Clean)
    (hcs : ∀ c ∈ cs, c.Builds) (hw : (s.afterAll cs).Unwrapped) :
    Coherent (s.afterAll cs) ∧ (s.afterAll cs).Clean ∧
      ∀ t ls, Recorded s t ls → Recorded (s.afterAll cs) t (ls ++ s.raisedTo t cs) := by
  induction cs generalizing s with
  | nil =>
    refine ⟨hs, hc, fun t ls h => ?_⟩
    rw [raisedTo, List.append_nil]
    exact h
  | cons c cs ih =>
    obtain ⟨hb, hcs⟩ := List.forall_mem_cons.mp hcs
    have hk' := hk.after (changes_after s c)
    have hs' := hs.after (changes_after s c) (hk'.unwrapped_start hcs hw)
    obtain ⟨hcoherent, hclean, hrecorded⟩ := ih hk' hs' (hc.after hs hb) hcs hw
    refine ⟨hcoherent, hclean, fun t ls h => ?_⟩
    rw [raisedTo, ← List.append_assoc]
    exact hrecorded t _ (h.after hs hc hb)

theorem le_max?_append {l : Existence} (ms : List Existence) (h : ls.max? = some l) :
    ∃ l', (ls ++ ms).max? = some l' ∧ l ≤ l' := by
  have hmem : l ∈ ls ++ ms := List.mem_append_left _ (List.max?_eq_some_iff.mp h).1
  cases hmax : (ls ++ ms).max? with
  | none =>
    rw [List.max?_eq_none_iff.mp hmax] at hmem
    cases hmem
  | some l' => exact ⟨l', rfl, (List.max?_eq_some_iff.mp hmax).2 l hmem⟩

/-- How an assertion meets the versions of its triple: it adds one if it is above them all, and
otherwise changes nothing; look-ups find the version that is the answer. -/
structure Unifies (s : Store) (a : Assertion) : Prop where
  stored : (∃ f, (s.tell a).1.allFacts = s.allFacts ++ [f] ∧ f.triple = a.triple ∧
      f.existence = a.level) ↔
    ∀ f ∈ s.allFacts, f.triple = a.triple → f.existence < a.level
  unchanged : (∃ f ∈ s.allFacts, f.triple = a.triple ∧ a.level ≤ f.existence) → (s.tell a).1 = s
  kept : ∀ f ∈ s.allFacts, (s.tell a).1.fact? f.id = some f
  answered : ∃ f, (s.tell a).2 = .ok f.id ∧
    (s.tell a).1.bestFact a.triple.subject a.triple.relation (some a.triple.object) = .ok (some f)

theorem Coherent.unifies (h : Coherent s) (hc : s.Clean) {a : Assertion} (ha : a.Valid) :
    s.Unifies a := by
  have hkept : ∀ f ∈ s.allFacts, (s.tell a).1.fact? f.id = some f :=
    fun f hf => h.fact?_add ha a.now (h.fact?_id hf)
  rcases h.indexed.add_cases ha a.now with ⟨f, hf, hkey, hbest, hle, hadd⟩ | ⟨habove, hadd⟩
  · have htriple : f.triple = a.triple := (Triple.key_eq_iff (hc f hf)).mp hkey
    have htell : s.tell a = (s, .ok f.id) := hadd
    refine ⟨⟨?_, fun hall => ?_⟩, fun _ => by rw [htell], hkept, f, by rw [htell], ?_⟩
    · rintro ⟨g, hgrown, -⟩
      rw [htell] at hgrown
      exact absurd hgrown.symm (by simp)
    · exact absurd (hall f hf htriple) (not_lt.mpr hle)
    · rw [htell]
      exact hbest
  · have htell : s.tell a = _ := hadd.trans (addVersion_eq h a.triple a.level a.metadata)
    have hlow : ∀ f ∈ s.allFacts, f.triple = a.triple → f.existence < a.level :=
      fun f hf ht => habove f hf (congrArg Triple.key ht)
    refine ⟨⟨fun _ => hlow, fun _ => ?_⟩, ?_, hkept,
      s.nextVersion a.triple a.level a.metadata, by rw [htell]; rfl, ?_⟩
    · refine ⟨s.nextVersion a.triple a.level a.metadata, ?_, rfl, rfl⟩
      rw [htell]
      exact h.allFacts_newVersion a.triple a.level a.metadata a.now
    · rintro ⟨f, hf, ht, hle⟩
      exact absurd (hlow f hf ht) (not_lt.mpr hle)
    · rw [htell]
      exact h.indexed.bestFact_newVersion h.free_nextId a.now
        (h.above_nextVersion a.triple a.level a.metadata) habove

theorem allFacts_make {n : Nat} (h : Store.make n = .ok s) : s.allFacts = [] := by
  unfold Store.make at h
  split at h
  · cases h
  · cases h
    rfl

theorem wellKept_make {n : Nat} (h : Store.make n = .ok s) : WellKept s :=
  wellKept_of_reached (Reached.make h : Reached (fun _ => True) s)

/-- From a new store on, nothing but what the run asserts is on record. -/
theorem recorded_of_make {n : Nat} (hs : Store.make n = .ok s) (hcs : ∀ c ∈ cs, c.Builds)
    (hw : (s.afterAll cs).Unwrapped) :
    Coherent (s.afterAll cs) ∧ (s.afterAll cs).Clean ∧
      ∀ t, Recorded (s.afterAll cs) t (s.raisedTo t cs) := by
  have hnone : ∀ f, f ∉ s.allFacts := by simp [allFacts_make hs]
  have hc : s.Clean := fun f hf => (hnone f hf).elim
  obtain ⟨hcoherent, hclean, hrecorded⟩ :=
    recorded_afterAll (wellKept_make hs) (coherent_make hs) hc hcs hw
  have hempty : ∀ t, Recorded s t [] := fun t =>
    ⟨fun f hf => (hnone f hf).elim, fun l hl => absurd hl List.not_mem_nil⟩
  exact ⟨hcoherent, hclean, fun t => hrecorded t [] (hempty t)⟩

/-- **Over runs that take nothing away, the best level of a triple is the highest one it was given,
and never falls.**  An assertion adds a version exactly if it is above all others of its triple, and
an upgrade that is answered with no changes nothing. -/
theorem existence_climbs {n : Nat} (hs : Store.make n = .ok s) (hcs : ∀ c ∈ cs, c.Builds)
    (hw : (s.afterAll cs).Unwrapped) :
    (∀ t, (s.afterAll cs).bestLevel t = .ok (s.raisedTo t cs).max?) ∧
      (∀ cs₁ cs₂ t l, cs = cs₁ ++ cs₂ → (s.afterAll cs₁).bestLevel t = .ok (some l) →
        ∃ l', (s.afterAll cs).bestLevel t = .ok (some l') ∧ l ≤ l') ∧
      (∀ a : Assertion, a.Valid → (s.afterAll cs).Unifies a) ∧
      ∀ i level, ((s.afterAll cs).upgrade i level).2 = .ok false →
        ((s.afterAll cs).upgrade i level).1 = s.afterAll cs := by
  obtain ⟨hcoherent, hclean, hrecorded⟩ := recorded_of_make hs hcs hw
  have hbest : ∀ t, (s.afterAll cs).bestLevel t = .ok (s.raisedTo t cs).max? :=
    fun t => (hrecorded t).bestLevel_eq hcoherent hclean
  refine ⟨hbest, ?_, fun a ha => hcoherent.unifies hclean ha, fun i level => upgrade_eq_self⟩
  rintro cs₁ cs₂ t l rfl hl
  obtain ⟨hcs₁, hcs₂⟩ := List.forall_mem_append.mp hcs
  have hw₁ : (s.afterAll cs₁).Unwrapped := by
    rw [afterAll_append] at hw
    exact (wellKept_make hs).afterAll.unwrapped_start hcs₂ hw
  obtain ⟨hcoherent₁, hclean₁, hrecorded₁⟩ := recorded_of_make hs hcs₁ hw₁
  rw [(hrecorded₁ t).bestLevel_eq hcoherent₁ hclean₁] at hl
  obtain ⟨l', hl', hle⟩ := le_max?_append ((s.afterAll cs₁).raisedTo t cs₂) (Except.ok.inj hl)
  refine ⟨l', ?_, hle⟩
  rw [hbest, raisedTo_append, hl']

/-- A run with two triples.  The version of the first rises, stands for an assertion below it, and
is outdone by another version. -/
def climbing : List Command := [
  .ensure "Rex" 5,
  .add ⟨"Rex", "IS_A", "Dog"⟩ Existence.unproven (.record []) 6,
  .add ⟨"Rex", "IS_A", "Pet"⟩ Existence.certain (.record []) 7,
  .upgrade 1 Existence.possible,
  .upgrade 1 Existence.unproven,
  .add ⟨"Rex", "IS_A", "Dog"⟩ (-10) (.record []) 8,
  .protect "Rex",
  .add ⟨"Rex", "IS_A", "Dog"⟩ 128 (.record []) 9,
  .add ⟨"Rex", "IS_A", "Dog"⟩ Existence.demonstrated (.record []) 10]

theorem existence_climbs_outdone :
    let s : Store := { dimensions := 2 }
    Store.make 2 = .ok s ∧ (∀ c ∈ climbing, c.Builds) ∧ (s.afterAll climbing).Unwrapped ∧
      s.raisedTo ⟨"Rex", "IS_A", "Dog"⟩ climbing = [-64, 0, -10, 64] ∧
      (s.afterAll climbing).bestLevel ⟨"Rex", "IS_A", "Dog"⟩ = .ok (some 64) := by
  intro s
  have hcs : ∀ c ∈ climbing, c.Builds := by decide +kernel
  have hw : (s.afterAll climbing).Unwrapped := by decide +kernel
  have hraised : s.raisedTo ⟨"Rex", "IS_A", "Dog"⟩ climbing = [-64, 0, -10, 64] := by
    decide +kernel
  have hbest := (existence_climbs (n := 2) rfl hcs hw).1 ⟨"Rex", "IS_A", "Dog"⟩
  rw [hraised] at hbest
  exact ⟨rfl, hcs, hw, hraised, hbest⟩

end Store

end KnowledgeBase
