import KnowledgeBase.Level
import Std.Data.TreeMap.Lemmas
import Mathlib.Data.List.Induction

/-!
# Levels going up

A level that is recorded for a concept is only ever replaced by a higher one.  A concept without a
record counts as level zero all the same, and its first record is compared with nothing.

* `admits`: the names that a first record is made for;
* `conceptLevel_register`, `conceptLevel_addFact`: what one change makes of the level of a concept;
* `Change`, `ofChanges`: histories of registrations, facts and rules;
* `Sinks`: the changes that lower a concept, by a first record below zero;
* `Bounded`: the highest level is above all that are recorded, which every change keeps;
* `levels_go_up`: both, after every history.
-/

namespace KnowledgeBase.Levels

variable {l : Levels} {name other : String} {level : Int} {id : FactId} {t : Triple}

/-! ### Numbers -/

/-- The number of levels. -/
theorem size_eq : ((1 <<< 32 : Nat) : Int) = 4294967296 := rfl

theorem above_mem_range (x : Int) : -2147483648 ≤ above x ∧ above x ≤ 2147483647 := by
  have hle : -(((1 <<< 32 : Nat) : Int) / 2) ≤ above x := Int.le_bmod (by decide)
  have hlt : above x < (((1 <<< 32 : Nat) : Int) + 1) / 2 := Int.bmod_lt (by decide)
  rw [size_eq] at hle hlt
  omega

theorem above_eq {x : Int} (hle : -2147483648 ≤ x) (hlt : x < 2147483647) : above x = x + 1 := by
  refine Int.bmod_eq_of_le ?_ ?_
  · rw [size_eq]
    omega
  · rw [size_eq]
    omega

/-- From zero on only the level after the highest number is negative. -/
theorem above_neg_iff {x : Int} (hle : 0 ≤ x) (hlt : x ≤ 2147483647) :
    above x < 0 ↔ x = 2147483647 := by
  constructor
  · intro h
    by_contra hx
    rw [above_eq (by omega) (by omega)] at h
    omega
  · rintro rfl
    decide

/-! ### Single names -/

/-- A first record is made for names that have none, unless they are empty or variables. -/
def admits (l : Levels) (name : String) : Bool :=
  !l.knows name && !name.isEmpty && !Text.startsVariable name

theorem conceptLevel_of_admits (h : l.admits name) : l.conceptLevel name = 0 := by
  simp only [admits, knows, Bool.and_eq_true, Bool.not_eq_true'] at h
  exact Std.TreeMap.getD_eq_fallback_of_contains_eq_false h.1.1

theorem raises_of_unknown (h : l.knows name = false) : l.raises name level = l.admits name := by
  unfold raises admits
  rw [Std.TreeMap.getElem?_eq_none_of_contains_eq_false h, h]
  simp

/-- A record is made first, or is raised. -/
theorem admits_or_lt_of_raises (h : l.raises name level) :
    l.admits name ∨ l.conceptLevel name < level := by
  cases hknows : l.knows name with
  | false =>
    rw [raises_of_unknown hknows] at h
    exact .inl h
  | true =>
    have hrecord : l.concepts[name]? = some (l.conceptLevel name) :=
      Std.TreeMap.getElem?_eq_some_getD (Std.TreeMap.mem_iff_contains.mpr hknows)
    unfold raises at h
    rw [hrecord] at h
    simp only [Bool.and_eq_true, decide_eq_true_eq] at h
    exact .inr h.2

theorem conceptLevel_register : (l.register name level).conceptLevel other =
    if l.raises name level ∧ name = other then level else l.conceptLevel other := by
  unfold register
  split
  · rename_i h
    unfold conceptLevel
    rw [Std.TreeMap.getD_insert]
    simp [h]
  · rename_i h
    simp [h]

theorem knows_register : (l.register name level).knows other =
    (l.raises name level && name == other || l.knows other) := by
  unfold register
  split
  · rename_i h
    unfold knows
    rw [Std.TreeMap.contains_insert, h, Bool.true_and]
    congr 1
    rw [Bool.eq_iff_iff, beq_iff_eq, beq_iff_eq, Std.compare_eq_iff_eq]
  · rename_i h
    simp [h]

theorem conceptLevel_introduce : (l.introduce name level).conceptLevel other =
    if l.admits name ∧ name = other then level else l.conceptLevel other := by
  unfold introduce
  cases hknows : l.knows name with
  | true => simp [admits, hknows]
  | false => rw [if_neg Bool.false_ne_true, conceptLevel_register, raises_of_unknown hknows]

theorem admits_introduce : (l.introduce name level).admits other =
    (l.admits other && name != other) := by
  unfold introduce
  cases hknows : l.knows name with
  | true =>
    by_cases hname : name = other
    · subst hname
      simp [admits, hknows]
    · simp [hname]
  | false =>
    rw [if_neg Bool.false_ne_true]
    unfold admits
    rw [knows_register, raises_of_unknown hknows]
    by_cases hname : name = other
    · subst hname
      cases hadmits : l.admits name with
      | true => simp
      | false => simpa [admits] using hadmits
    · simp [admits, beq_eq_false_iff_ne.mpr hname, bne_iff_ne.mpr hname]

/-- Each of some names gets its first record, unless it has one. -/
def introduceAll (l : Levels) (names : List String) (level : Int) : Levels :=
  names.foldl (fun l n => l.introduce n level) l

theorem conceptLevel_introduceAll {names : List String} :
    (l.introduceAll names level).conceptLevel other =
      if l.admits other ∧ other ∈ names then level else l.conceptLevel other := by
  induction names generalizing l with
  | nil => simp [introduceAll]
  | cons name names ih =>
    show ((l.introduce name level).introduceAll names level).conceptLevel other = _
    rw [ih, admits_introduce, conceptLevel_introduce]
    by_cases hname : name = other
    · subst hname
      simp
    · simp [hname, Ne.symm hname]

/-! ### Facts -/

/-- The names that a fact mentions get its level as their first record. -/
theorem conceptLevel_addFact : (l.addFact id t).conceptLevel name =
    if l.admits name ∧ name ∈ [t.subject, t.relation, t.object] then l.tripleLevel t
    else l.conceptLevel name := by
  show (introduceAll { l with
      facts := l.facts.insert id (l.tripleLevel t)
      highest := max l.highest (l.tripleLevel t) }
    [t.subject, t.relation, t.object] (l.tripleLevel t)).conceptLevel name = _
  rw [conceptLevel_introduceAll]
  rfl

theorem le_max_terms (hname : name ∈ [t.subject, t.relation, t.object]) :
    l.conceptLevel name ≤
      max (l.conceptLevel t.subject) (max (l.conceptLevel t.relation) (l.conceptLevel t.object)) := by
  simp only [List.mem_cons, List.not_mem_nil, or_false] at hname
  rcases hname with rfl | rfl | rfl <;> omega

/-! ### Histories -/

/-- A change of levels. -/
inductive Change where
  | register (name : String) (level : Int32)
  | fact (id : FactId) (t : Triple)
  | rule (r : Rule)

def after (l : Levels) : Change → Levels
  | .register name level => l.register name level.toInt
  | .fact id t => l.addFact id t
  | .rule r => l.addRule r

/-- The levels that changes lead to from those of the primitives. -/
def ofChanges (cs : List Change) : Levels := cs.foldl after {}

/-- A first record below zero: the concept is registered there, or it stands in a fact beside one
at the highest number. -/
def Sinks (l : Levels) (name : String) : Change → Prop
  | .register registered level => l.admits name ∧ name = registered ∧ level.toInt < 0
  | .fact _ t => l.admits name ∧ name ∈ [t.subject, t.relation, t.object] ∧
      ∃ n ∈ [t.subject, t.relation, t.object], l.conceptLevel n = 2147483647
  | .rule _ => False

/-- The concepts are at 32-bit levels. -/
def InRange (l : Levels) : Prop :=
  ∀ name, -2147483648 ≤ l.conceptLevel name ∧ l.conceptLevel name ≤ 2147483647

/-- The highest level is at least each that is recorded. -/
structure Bounded (l : Levels) : Prop where
  concept : ∀ name, l.conceptLevel name ≤ l.highest
  fact : ∀ id level, l.factLevel? id = some level → level ≤ l.highest

theorem conceptLevel_new : ({} : Levels).conceptLevel name = 0 := by
  by_cases hname : name ∈ primitives
  · exact Std.TreeMap.getD_ofList_of_mem (Std.compare_eq_iff_eq.mpr rfl) (by decide)
      (List.mem_map.mpr ⟨name, hname, rfl⟩)
  · refine Std.TreeMap.getD_ofList_of_contains_eq_false ?_
    simpa [Function.comp_def] using hname

theorem InRange.after (h : l.InRange) (c : Change) : (l.after c).InRange := by
  intro name
  cases c with
  | register registered level =>
    unfold Levels.after
    dsimp only
    rw [conceptLevel_register]
    split
    · have hle := level.le_toInt
      have hlt := level.toInt_lt
      omega
    · exact h name
  | fact id t =>
    unfold Levels.after
    dsimp only
    rw [conceptLevel_addFact]
    split
    · exact above_mem_range _
    · exact h name
  | rule r => exact h name

theorem InRange.max_terms (h : l.InRange) (t : Triple) :
    max (l.conceptLevel t.subject) (max (l.conceptLevel t.relation) (l.conceptLevel t.object)) ≤
      2147483647 := by
  have hsubject := (h t.subject).2
  have hrelation := (h t.relation).2
  have hobject := (h t.object).2
  omega

theorem InRange.max_terms_iff (h : l.InRange) (t : Triple) :
    max (l.conceptLevel t.subject) (max (l.conceptLevel t.relation) (l.conceptLevel t.object)) =
      2147483647 ↔ ∃ n ∈ [t.subject, t.relation, t.object], l.conceptLevel n = 2147483647 := by
  have hsubject := (h t.subject).2
  have hrelation := (h t.relation).2
  have hobject := (h t.object).2
  simp only [List.mem_cons, List.not_mem_nil, or_false, exists_eq_or_imp, exists_eq_left]
  omega

/-- **A change lowers a concept exactly by a first record below zero.** -/
theorem InRange.lowered_iff (h : l.InRange) (c : Change) :
    (l.after c).conceptLevel name < l.conceptLevel name ↔ l.Sinks name c := by
  cases c with
  | register registered level =>
    unfold Levels.after Sinks
    dsimp only
    rw [conceptLevel_register]
    constructor
    · intro hlt
      split at hlt
      · rename_i hraises
        obtain ⟨hraises, rfl⟩ := hraises
        rcases admits_or_lt_of_raises hraises with hadmits | hraised
        · rw [conceptLevel_of_admits hadmits] at hlt
          exact ⟨hadmits, rfl, hlt⟩
        · omega
      · omega
    · rintro ⟨hadmits, rfl, hneg⟩
      have hunknown : l.knows name = false := by
        simp only [admits, Bool.and_eq_true, Bool.not_eq_true'] at hadmits
        exact hadmits.1.1
      rw [if_pos ⟨(raises_of_unknown hunknown).trans hadmits, rfl⟩, conceptLevel_of_admits hadmits]
      exact hneg
  | fact id t =>
    unfold Levels.after Sinks
    dsimp only
    rw [conceptLevel_addFact]
    by_cases hfirst : l.admits name ∧ name ∈ [t.subject, t.relation, t.object]
    · obtain ⟨hadmits, hname⟩ := hfirst
      have hzero := conceptLevel_of_admits hadmits
      have hle : 0 ≤ max (l.conceptLevel t.subject)
          (max (l.conceptLevel t.relation) (l.conceptLevel t.object)) :=
        hzero ▸ le_max_terms hname
      have hlt := h.max_terms t
      rw [if_pos ⟨hadmits, hname⟩, hzero, tripleLevel, above_neg_iff hle hlt, h.max_terms_iff]
      exact ⟨fun htop => ⟨hadmits, hname, htop⟩, fun hsinks => hsinks.2.2⟩
    · rw [if_neg hfirst]
      exact ⟨fun hlt => absurd hlt (Int.lt_irrefl _),
        fun hsinks => absurd ⟨hsinks.1, hsinks.2.1⟩ hfirst⟩
  | rule r => simp [Levels.after, Sinks, addRule, conceptLevel]

/-! ### The highest level -/

theorem Bounded.register (h : l.Bounded) : (l.register name level).Bounded := by
  unfold Levels.register
  split
  · refine ⟨fun other => ?_, fun id known hknown => ?_⟩
    · show (l.concepts.insert name level).getD other 0 ≤ max l.highest level
      rw [Std.TreeMap.getD_insert]
      split
      · exact Int.le_max_right _ _
      · exact Int.le_trans (h.concept other) (Int.le_max_left _ _)
    · exact Int.le_trans (h.fact id known hknown) (Int.le_max_left _ _)
  · exact h

theorem Bounded.introduce (h : l.Bounded) : (l.introduce name level).Bounded := by
  unfold Levels.introduce
  split
  · exact h
  · exact h.register

theorem Bounded.addFact (h : l.Bounded) : (l.addFact id t).Bounded := by
  have hrecorded : Bounded { l with
      facts := l.facts.insert id (l.tripleLevel t)
      highest := max l.highest (l.tripleLevel t) } := by
    refine ⟨fun name => Int.le_trans (h.concept name) (Int.le_max_left _ _), fun i known hknown => ?_⟩
    simp only [factLevel?, Std.TreeMap.getElem?_insert] at hknown
    split at hknown
    · cases hknown
      exact Int.le_max_right _ _
    · exact Int.le_trans (h.fact i known hknown) (Int.le_max_left _ _)
  exact hrecorded.introduce.introduce.introduce

theorem Bounded.after (h : l.Bounded) (c : Change) : (l.after c).Bounded := by
  cases c with
  | register name level => exact h.register
  | fact id t => exact h.addFact
  | rule r => exact ⟨h.concept, h.fact⟩

/-! ### Runs -/

theorem ofChanges_induction {P : Levels → Prop} (new : P {})
    (step : ∀ l, P l → ∀ c, P (l.after c)) (cs : List Change) : P (ofChanges cs) := by
  induction cs using List.reverseRecOn with
  | nil => exact new
  | append_singleton cs c ih =>
    unfold ofChanges
    rw [List.foldl_append]
    exact step _ ih c

theorem inRange_ofChanges (cs : List Change) : (ofChanges cs).InRange :=
  ofChanges_induction (fun name => by rw [conceptLevel_new]; omega) (fun _ h c => h.after c) cs

theorem bounded_ofChanges (cs : List Change) : (ofChanges cs).Bounded := by
  refine ofChanges_induction ⟨fun name => ?_, fun id known hknown => ?_⟩ (fun _ h c => h.after c) cs
  · exact Int.le_of_eq conceptLevel_new
  · simp [factLevel?] at hknown

/-- **Levels go up but for first records below zero.**  After every history the next change lowers
a concept exactly if it makes such a record for it, and the highest level is at least that of every
concept and every fact. -/
theorem levels_go_up (cs : List Change) :
    (∀ c name, (ofChanges (cs ++ [c])).conceptLevel name < (ofChanges cs).conceptLevel name ↔
      (ofChanges cs).Sinks name c) ∧ (ofChanges cs).Bounded := by
  refine ⟨fun c name => ?_, bounded_ofChanges cs⟩
  unfold ofChanges
  rw [List.foldl_append]
  exact (inRange_ofChanges cs).lowered_iff c

/-- A name that stood at zero is registered below it. -/
theorem first_record_lowers :
    (ofChanges ([] ++ [.register "x" (-5)])).conceptLevel "x" < (ofChanges []).conceptLevel "x" := by
  decide +kernel

-- beside a concept at the highest number
example : (ofChanges [.register "a" 2147483647, .fact 1 ⟨"a", "r", "b"⟩]).conceptLevel "b" =
    -2147483648 := by decide +kernel

end KnowledgeBase.Levels
