import KnowledgeBase.Proof.Unification
import KnowledgeBase.Proofs.Level
import KnowledgeBase.Proofs.Statement.Line

/-!
# Estimates of leaves

The level of a leaf is estimated from its terms where it is the conclusion of a rule, and from its
written words where it is a goal.  Words keep the quotes around a name, are cut inside of them, and
are left out if they start with a question mark, so the two need not agree.

* `highestOf_le_iff`: the highest level of some names is the least bound from zero on;
* `namesIn`, `goalLevel_eq`: the words that the level of a goal counts;
* `Leaf.unquoted`, `Leaf.quoted`, `Leaf.pieces`: the names of a leaf, and the words that those in
  quotes are cut into;
* `mem_namesIn_text`: the words of a leaf that was read;
* `Legible`, `estimates_agree_iff`: the leaves whose estimates agree;
* `quoted_name_unheard`: a rule that is skipped because a name stands in quotes.
-/

namespace KnowledgeBase

namespace Levels

variable {l : Levels} {ns ms : List String} {n s t : String} {k : Int}

/-! ### Highest levels -/

theorem highestOf_le_iff : l.highestOf ns ≤ k ↔ 0 ≤ k ∧ ∀ n ∈ ns, l.conceptLevel n ≤ k := by
  have hfold : ∀ m : Int, ns.foldl (fun m n => max m (l.conceptLevel n)) m ≤ k ↔
      m ≤ k ∧ ∀ n ∈ ns, l.conceptLevel n ≤ k := by
    induction ns with
    | nil => simp
    | cons n ns ih =>
      intro m
      rw [List.foldl_cons, ih, Int.max_le, List.forall_mem_cons, and_assoc]
  exact hfold 0

theorem highestOf_nonneg : 0 ≤ l.highestOf ns := (highestOf_le_iff.mp (Int.le_refl _)).1

theorem le_highestOf (h : n ∈ ns) : l.conceptLevel n ≤ l.highestOf ns :=
  (highestOf_le_iff.mp (Int.le_refl _)).2 n h

theorem highestOf_mono (h : ns ⊆ ms) : l.highestOf ns ≤ l.highestOf ms := by
  apply highestOf_le_iff.mpr
  refine ⟨highestOf_nonneg, ?_⟩
  intro n hn
  exact le_highestOf (h hn)

/-- Names that are those of two lists, as far as levels go. -/
theorem highestOf_eq_max {ks : List String} (hks : ∀ n ∈ ks, n ∈ ns ∨ n ∈ ms)
    (hns : ∀ n ∈ ns, l.conceptLevel n ≤ l.highestOf ks)
    (hms : ∀ n ∈ ms, l.conceptLevel n ≤ l.highestOf ks) :
    l.highestOf ks = max (l.highestOf ns) (l.highestOf ms) := by
  apply Int.le_antisymm
  · apply highestOf_le_iff.mpr
    refine ⟨Int.le_trans highestOf_nonneg (Int.le_max_left _ _), ?_⟩
    intro n hn
    rcases hks n hn with hn | hn
    · exact Int.le_trans (le_highestOf hn) (Int.le_max_left _ _)
    · exact Int.le_trans (le_highestOf hn) (Int.le_max_right _ _)
  · apply Int.max_le.mpr
    constructor
    · exact highestOf_le_iff.mpr ⟨highestOf_nonneg, hns⟩
    · exact highestOf_le_iff.mpr ⟨highestOf_nonneg, hms⟩

theorem InRange.highestOf_le (h : l.InRange) : l.highestOf ns ≤ 2147483647 := by
  apply highestOf_le_iff.mpr
  refine ⟨by omega, ?_⟩
  intro n _
  exact (h n).2

/-- From zero on, the next level is one above except after the last. -/
theorem above_eq_add_one_iff (hle : 0 ≤ k) (hlt : k ≤ 2147483647) :
    above k = 1 + k ↔ k ≠ 2147483647 := by
  constructor
  · rintro h rfl
    have hrange := (above_mem_range 2147483647).2
    omega
  · intro h
    rw [above_eq (by omega) (by omega)]
    omega

/-! ### Written words -/

/-- The words of a line but for those that start with a question mark. -/
def namesIn (s : String) : List String :=
  (Text.words s).filter fun w => !Text.startsVariable w

theorem goalLevel_eq (l : Levels) (s : String) :
    l.goalLevel s = if namesIn s = [] then 0 else above (l.highestOf (namesIn s)) := by
  unfold goalLevel
  simp only [List.isEmpty_iff]
  rfl

theorem namesIn_of_mem (h : n ∈ namesIn s) : namesIn n = [n] := by
  obtain ⟨hword, hname⟩ := List.mem_filter.mp h
  unfold namesIn
  rw [Text.words_of_mem_words hword]
  simpa using hname

/-- A text without blanks after a question mark counts for nothing. -/
theorem namesIn_variable (h : Text.Unblank n) : namesIn ("?" ++ n) = [] := by
  have hchars : ("?" ++ n).toList = '?' :: n.toList := by simp
  have hunblank : Text.Unblank ("?" ++ n) := by
    intro c hc
    rw [hchars] at hc
    rcases List.mem_cons.mp hc with rfl | hc
    · decide
    · exact h c hc
  have hne : "?" ++ n ≠ "" := by
    intro heq
    rw [heq] at hchars
    simp at hchars
  unfold namesIn
  rw [Text.words_eq_singleton hunblank hne]
  simp [Text.startsVariable, hchars]

end Levels

/-! ### The names of a leaf -/

namespace Leaf

/-- The operator and the identifiers. -/
def unquoted (g : Leaf) : List String :=
  g.op :: g.args.flatMap fun
    | .ident n => [n]
    | _ => []

/-- The texts of the literals. -/
def quoted (g : Leaf) : List String :=
  g.args.flatMap fun
    | .literal n => [n]
    | _ => []

/-- The words that the literals are cut into, those that start with a question mark left out. -/
def pieces (g : Leaf) : List String :=
  g.quoted.flatMap fun n => Levels.namesIn ("\"" ++ n ++ "\"")

/-- It has nothing but holes and lone question marks. -/
def Wordless (g : Leaf) : Prop := (∀ n ∈ g.unquoted, n = "?") ∧ g.quoted = []

instance (g : Leaf) : Decidable g.Wordless :=
  inferInstanceAs (Decidable ((∀ n ∈ g.unquoted, n = "?") ∧ g.quoted = []))

variable {g : Leaf} {n w : String}

theorem mem_unquoted : n ∈ g.unquoted ↔ n = g.op ∨ .ident n ∈ g.args := by
  unfold unquoted
  rw [List.mem_cons, List.mem_flatMap]
  refine or_congr_right ⟨?_, ?_⟩
  · rintro ⟨a, ha, hn⟩
    cases a <;> simp at hn
    subst hn
    exact ha
  · intro h
    exact ⟨_, h, List.mem_singleton_self n⟩

theorem mem_quoted : n ∈ g.quoted ↔ .literal n ∈ g.args := by
  unfold quoted
  rw [List.mem_flatMap]
  constructor
  · rintro ⟨a, ha, hn⟩
    cases a <;> simp at hn
    subst hn
    exact ha
  · intro h
    exact ⟨_, h, List.mem_singleton_self n⟩

theorem mem_mentioned : n ∈ Levels.mentioned g ↔ n ∈ g.unquoted ∨ n ∈ g.quoted := by
  rw [mem_unquoted, mem_quoted]
  unfold Levels.mentioned
  simp only [List.mem_cons, List.mem_map, List.mem_filter]
  constructor
  · rintro (rfl | ⟨a, ⟨ha, hhole⟩, rfl⟩)
    · simp
    · cases a with
      | hole m => cases hhole
      | ident m => exact .inl (.inr ha)
      | literal m => exact .inr ha
  · rintro ((rfl | h) | h)
    · simp
    · exact .inr ⟨_, ⟨h, rfl⟩, rfl⟩
    · exact .inr ⟨_, ⟨h, rfl⟩, rfl⟩

/-- The words of a term that was read. -/
theorem mem_namesIn_term {a : Term} (ha : a.Read) :
    w ∈ Levels.namesIn a.text ↔
      (a = .ident w ∧ w ≠ "?") ∨ ∃ n, a = .literal n ∧ w ∈ Levels.namesIn ("\"" ++ n ++ "\"") := by
  cases a with
  | ident n =>
    obtain ⟨⟨hne, hunblank, -⟩, hplain⟩ := ha
    have hwords : Text.words n = [n] :=
      Text.words_eq_singleton hunblank (by simpa using hne)
    have hstarts : Text.startsVariable n = true ↔ n = "?" := by
      unfold Text.isVariable at hplain
      unfold Text.startsVariable
      rw [← String.toList_inj]
      rcases hcs : n.toList with _ | ⟨c, _ | ⟨d, cs⟩⟩
      · exact absurd hcs hne
      · by_cases hc : c = '?'
        · simp [hc]
        · simp [hc]
      · by_cases hc : c = '?'
        · simp [hcs, hc] at hplain
        · simp [hc]
    unfold Levels.namesIn Term.text
    rw [hwords, List.mem_filter, List.mem_singleton, Bool.not_eq_true', ← Bool.not_eq_true]
    constructor
    · rintro ⟨rfl, hw⟩
      exact .inl ⟨rfl, fun heq => hw (hstarts.mpr heq)⟩
    · rintro (⟨h, hw⟩ | ⟨m, h, -⟩)
      · cases h
        exact ⟨rfl, fun hs => hw (hstarts.mp hs)⟩
      · cases h
  | hole n =>
    unfold Term.text
    rw [Levels.namesIn_variable ha.2]
    simp
  | literal n =>
    unfold Term.text
    simp

/-- The words of a leaf that was read: its names outside of quotes, and the pieces of the others. -/
theorem mem_namesIn_text (hg : g.Parsed) :
    w ∈ Levels.namesIn g.text ↔ (w ∈ g.unquoted ∧ w ≠ "?") ∨ w ∈ g.pieces := by
  obtain ⟨hop, hargs⟩ := List.forall_mem_cons.mp hg.read
  have hsplit : Levels.namesIn g.text =
      Levels.namesIn (Term.ident g.op).text ++ g.args.flatMap fun a => Levels.namesIn a.text := by
    unfold Levels.namesIn
    rw [Text.words_text, List.filter_append, List.filter_flatMap]
    rfl
  have hpieces : w ∈ g.pieces ↔
      ∃ n, .literal n ∈ g.args ∧ w ∈ Levels.namesIn ("\"" ++ n ++ "\"") := by
    unfold pieces
    rw [List.mem_flatMap]
    simp only [mem_quoted]
  rw [hsplit, List.mem_append, List.mem_flatMap, mem_namesIn_term hop, hpieces, mem_unquoted]
  constructor
  · rintro ((⟨h, hw⟩ | ⟨n, h, -⟩) | ⟨a, ha, hw⟩)
    · cases h
      exact .inl ⟨.inl rfl, hw⟩
    · cases h
    · rcases (mem_namesIn_term (hargs a ha)).mp hw with ⟨rfl, hname⟩ | ⟨n, rfl, hpiece⟩
      · exact .inl ⟨.inr ha, hname⟩
      · exact .inr ⟨n, ha, hpiece⟩
  · rintro (⟨rfl | h, hw⟩ | ⟨n, h, hw⟩)
    · exact .inl (.inl ⟨rfl, hw⟩)
    · exact .inr ⟨_, h, (mem_namesIn_term (hargs _ h)).mpr (.inl ⟨rfl, hw⟩)⟩
    · exact .inr ⟨_, h, (mem_namesIn_term (hargs _ h)).mpr (.inr ⟨n, rfl, hw⟩)⟩

theorem namesIn_text_eq_nil_iff (hg : g.Parsed) : Levels.namesIn g.text = [] ↔ g.Wordless := by
  rw [List.eq_nil_iff_forall_not_mem]
  simp only [mem_namesIn_text hg, not_or, not_and, not_not]
  constructor
  · intro h
    refine ⟨fun n hn => (h n).1 hn, ?_⟩
    apply List.eq_nil_iff_forall_not_mem.mpr
    intro n hn
    obtain ⟨w, hw, hname⟩ := Text.exists_word_quoted n
    apply (h w).2
    exact List.mem_flatMap.mpr ⟨n, hn, List.mem_filter.mpr ⟨hw, by simp [hname]⟩⟩
  · rintro ⟨hunquoted, hquoted⟩ w
    refine ⟨hunquoted w, ?_⟩
    unfold pieces
    rw [hquoted]
    simp

end Leaf

/-! ### Leaves -/

namespace Levels

variable {l : Levels} {g : Leaf} {n : String} {cs : List Change}

/-- Names that start with a question mark stay at level zero. -/
theorem conceptLevel_variable (cs : List Change) (hn : Text.startsVariable n = true) :
    (ofChanges cs).conceptLevel n = 0 := by
  refine ofChanges_induction (P := fun l => l.conceptLevel n = 0) conceptLevel_new ?_ cs
  intro l hl c
  cases c with
  | register name level =>
    show (l.register name level.toInt).conceptLevel n = 0
    rw [conceptLevel_register]
    split
    · rename_i h
      obtain ⟨hraises, rfl⟩ := h
      simp [raises, hn] at hraises
    · exact hl
  | fact id t =>
    show (l.addFact id t).conceptLevel n = 0
    rw [conceptLevel_addFact]
    split
    · rename_i h
      simp [admits, hn] at h
    · exact hl
  | rule r => exact hl

theorem highestOf_mentioned (l : Levels) (g : Leaf) :
    l.highestOf (mentioned g) = max (l.highestOf g.unquoted) (l.highestOf g.quoted) := by
  apply highestOf_eq_max
  · intro n hn
    exact Leaf.mem_mentioned.mp hn
  · intro n hn
    exact le_highestOf (Leaf.mem_mentioned.mpr (.inl hn))
  · intro n hn
    exact le_highestOf (Leaf.mem_mentioned.mpr (.inr hn))

/-- A lone question mark is left out, and has level zero in any case. -/
theorem highestOf_namesIn_text (cs : List Change) (hg : g.Parsed) :
    (ofChanges cs).highestOf (namesIn g.text) =
      max ((ofChanges cs).highestOf g.unquoted) ((ofChanges cs).highestOf g.pieces) := by
  apply highestOf_eq_max
  · intro n hn
    exact ((Leaf.mem_namesIn_text hg).mp hn).imp_left And.left
  · intro n hn
    by_cases hmark : n = "?"
    · rw [conceptLevel_variable cs (by rw [hmark]; rfl)]
      exact highestOf_nonneg
    · exact le_highestOf ((Leaf.mem_namesIn_text hg).mpr (.inl ⟨hn, hmark⟩))
  · intro n hn
    exact le_highestOf ((Leaf.mem_namesIn_text hg).mpr (.inr hn))

/-- The written words of a leaf weigh as much as its names: it has any words, the pieces of its
literals add as much to the other names as the literals themselves, and no name is at the last
level. -/
structure Legible (l : Levels) (g : Leaf) : Prop where
  worded : ¬ g.Wordless
  even : max (l.highestOf g.unquoted) (l.highestOf g.pieces) =
    max (l.highestOf g.unquoted) (l.highestOf g.quoted)
  below : l.highestOf (mentioned g) ≠ 2147483647

/-- The level of a leaf is one above its highest name exactly if it is legible. -/
theorem goalLevel_text_iff (cs : List Change) (hg : g.Parsed) :
    ((ofChanges cs).leavesLevel [g] = (ofChanges cs).goalLevel g.text ∧
        (ofChanges cs).goalLevel g.text = 1 + (ofChanges cs).highestOf (mentioned g)) ↔
      (ofChanges cs).Legible g := by
  have hrange := inRange_ofChanges cs
  have hmentioned : (0 : Int) ≤ (ofChanges cs).highestOf (mentioned g) := highestOf_nonneg
  have hmentioned' : (ofChanges cs).highestOf (mentioned g) ≤ 2147483647 := hrange.highestOf_le
  have hwritten : (0 : Int) ≤ (ofChanges cs).highestOf (namesIn g.text) := highestOf_nonneg
  have hwritten' : (ofChanges cs).highestOf (namesIn g.text) ≤ 2147483647 := hrange.highestOf_le
  have hleaf : (ofChanges cs).leavesLevel [g] = above ((ofChanges cs).highestOf (mentioned g)) := by
    unfold leavesLevel
    rw [List.flatMap_singleton]
  rw [hleaf, goalLevel_eq]
  constructor
  · rintro ⟨hsame, hlevel⟩
    have hbelow : (ofChanges cs).highestOf (mentioned g) ≠ 2147483647 := by
      apply (above_eq_add_one_iff hmentioned hmentioned').mp
      rw [hsame, hlevel]
    have hworded : ¬ namesIn g.text = [] := by
      intro hnil
      rw [if_pos hnil] at hlevel
      omega
    refine ⟨fun h => hworded ((Leaf.namesIn_text_eq_nil_iff hg).mpr h), ?_, hbelow⟩
    rw [if_neg hworded] at hlevel
    have hlast : (ofChanges cs).highestOf (namesIn g.text) ≠ 2147483647 := by
      intro hlast
      rw [hlast, show above 2147483647 = -2147483648 from rfl] at hlevel
      omega
    rw [(above_eq_add_one_iff hwritten hwritten').mpr hlast] at hlevel
    rw [← highestOf_namesIn_text cs hg, ← highestOf_mentioned]
    omega
  · rintro ⟨hworded, heven, hbelow⟩
    rw [if_neg (fun h => hworded ((Leaf.namesIn_text_eq_nil_iff hg).mp h)),
      highestOf_namesIn_text cs hg, heven, ← highestOf_mentioned]
    exact ⟨rfl, (above_eq_add_one_iff hmentioned hmentioned').mpr hbelow⟩

/-- Goals at one level are skipped alike. -/
theorem skips_congr {p : Proof.Pruning} {g g' : Leaf} (hp : p.levels = some l)
    (h : l.goalLevel g.text = l.goalLevel g'.text) (r : Rule) (b : Bindings) :
    p.skips g r b = p.skips g' r b := by
  unfold Proof.Pruning.skips Proof.Pruning.goalLevel?
  rw [hp, Option.map_some, Option.map_some, h]

/-- **The two estimates of a leaf agree exactly if it is legible.**  After every history of levels,
the level that is recorded for a rule whose only conclusion is a leaf that was read is that of the
leaf as a goal, and one above the highest of its names, exactly then; and legible goals that mention
the same names, whatever they quote, are skipped alike. -/
theorem estimates_agree_iff (cs : List Change) (hg : g.Parsed) {r : Rule}
    (hr : r.conclusions = [g]) :
    (((((ofChanges cs).addRule r).ruleLevels? r.id).map RuleLevels.conclusion =
          some ((ofChanges cs).goalLevel g.text) ∧
        (ofChanges cs).goalLevel g.text = 1 + (ofChanges cs).highestOf (mentioned g)) ↔
      (ofChanges cs).Legible g) ∧
    ∀ g' : Leaf, g'.Parsed → mentioned g' = mentioned g → (ofChanges cs).Legible g →
      (ofChanges cs).Legible g' → ∀ (p : Proof.Pruning) (r' : Rule) (b : Bindings),
        p.levels = some (ofChanges cs) → p.skips g r' b = p.skips g' r' b := by
  constructor
  · have hrecorded : (((ofChanges cs).addRule r).ruleLevels? r.id).map RuleLevels.conclusion =
        some ((ofChanges cs).leavesLevel [g]) := by
      unfold ruleLevels? addRule
      simp only [Std.TreeMap.getElem?_insert_self, Option.map_some]
      unfold ruleLevels
      rw [hr]
    rw [hrecorded, Option.some_inj]
    exact goalLevel_text_iff cs hg
  · intro g' hg' hnames hlegible hlegible' p r' b hp
    apply skips_congr hp
    rw [((goalLevel_text_iff cs hg).mpr hlegible).2, ((goalLevel_text_iff cs hg').mpr hlegible').2,
      hnames]

/-- Levels under which `wine` stands above `Bob`. -/
def tasteLevels : List Change := [.register "wine" 5, .register "Bob" 2]

/-- A leaf that mentions `wine`, and `Bob` in quotes or without. -/
def likesWine (bob : Term) : Leaf := ⟨"likes", [.ident "wine", bob, .hole "x"]⟩

theorem estimates_agree_iff_likesWine :
    (likesWine (.literal "Bob")).Parsed ∧
      (ofChanges tasteLevels).Legible (likesWine (.literal "Bob")) ∧
      ((((ofChanges tasteLevels).addRule { conclusions := [likesWine (.literal "Bob")] }).ruleLevels?
          "").map RuleLevels.conclusion =
        some ((ofChanges tasteLevels).goalLevel (likesWine (.literal "Bob")).text)) ∧
      (ofChanges tasteLevels).goalLevel (likesWine (.literal "Bob")).text = 6 ∧
      ∀ (p : Proof.Pruning) (r : Rule) (b : Bindings), p.levels = some (ofChanges tasteLevels) →
        p.skips (likesWine (.literal "Bob")) r b = p.skips (likesWine (.ident "Bob")) r b := by
  have hquoted : (likesWine (.literal "Bob")).Parsed := ⟨"likes wine \"Bob\" ?x", rfl⟩
  have hplain : (likesWine (.ident "Bob")).Parsed := ⟨"likes wine Bob ?x", rfl⟩
  have hlegible : (ofChanges tasteLevels).Legible (likesWine (.literal "Bob")) :=
    ⟨by decide, by decide +kernel, by decide +kernel⟩
  have hlegible' : (ofChanges tasteLevels).Legible (likesWine (.ident "Bob")) :=
    ⟨by decide, by decide +kernel, by decide +kernel⟩
  obtain ⟨hiff, hskips⟩ := estimates_agree_iff tasteLevels hquoted
    (r := { conclusions := [likesWine (.literal "Bob")] }) rfl
  exact ⟨hquoted, hlegible, (hiff.mpr hlegible).1, by decide +kernel,
    hskips _ hplain rfl hlegible hlegible'⟩

/-- What `Bob` prefers he likes. -/
def tasteRule : Rule where
  name := "taste"
  condition := some (.leaf ⟨"prefers", [.hole "x", .hole "d"]⟩)
  conclusion := some (.leaf ⟨"likes", [.hole "x", .hole "d"]⟩)
  premises := [⟨"prefers", [.hole "x", .hole "d"]⟩]
  conclusions := [⟨"likes", [.hole "x", .hole "d"]⟩]
  conditionHoles := ["x", "d"]
  conclusionHoles := ["x", "d"]

/-- **A name in quotes is not heard**: the goal stands low, and a rule is skipped for it that is
tried for the same goal without quotes. -/
theorem quoted_name_unheard :
    (⟨"likes", [.ident "Bob", .literal "wine"]⟩ : Leaf).Parsed ∧
      (((ofChanges tasteLevels).addRule
          { conclusions := [⟨"likes", [.ident "Bob", .literal "wine"]⟩] }).ruleLevels? "").map
        RuleLevels.conclusion = some 6 ∧
      (ofChanges tasteLevels).goalLevel (⟨"likes", [.ident "Bob", .literal "wine"]⟩ : Leaf).text = 3 ∧
      ({ levels := some (ofChanges tasteLevels), useLevels := true, strict := true } :
          Proof.Pruning).skips ⟨"likes", [.ident "Bob", .literal "wine"]⟩ tasteRule
        ⟨[("x", "Bob"), ("d", "wine")]⟩ = true ∧
      ({ levels := some (ofChanges tasteLevels), useLevels := true, strict := true } :
          Proof.Pruning).skips ⟨"likes", [.ident "Bob", .ident "wine"]⟩ tasteRule
        ⟨[("x", "Bob"), ("d", "wine")]⟩ = false := by
  refine ⟨⟨"likes Bob \"wine\"", rfl⟩, ?_, ?_, ?_, ?_⟩
  all_goals decide +kernel

-- a leaf without any name stands at level zero as a goal, and at one as a conclusion
example : (ofChanges []).goalLevel (⟨"?", [.hole "x"]⟩ : Leaf).text = 0 ∧
    (ofChanges []).leavesLevel [⟨"?", [.hole "x"]⟩] = 1 := by decide +kernel

end Levels

end KnowledgeBase
