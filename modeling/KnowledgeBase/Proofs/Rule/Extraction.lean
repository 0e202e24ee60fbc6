import KnowledgeBase.Proofs.Rule.Duplicates
import KnowledgeBase.Proofs.Rule.Expansion
import KnowledgeBase.Proofs.Steps
import Mathlib.Data.List.Count
import Mathlib.Data.List.Nodup

/-!
# What extraction takes in

A batch of statements is taken in as a whole or not at all.  It is refused exactly if a statement
says nothing, a name is given twice, or references lead astray.

* `NameTable.Clash`: what can be wrong with the names of a batch;
* `exists_enter`, `not_clash_of_enter`, `getElem?_enter`: names are entered exactly if they do not
  clash, and then stand for what the statements say;
* `RuleBook.Takes`, `exists_collect_iff`: the rules of a batch are collected exactly if every
  statement can be taken in;
* `RuleBook.Told b told`: the book comes from an empty one by extractions of the statements `told`;
* `RuleBook.Accounts`: the names and rules of a book are those of the statements told, each rule
  with the full expansion of its statement;
* `extract_exact`: when a batch is refused, and what it leaves behind.
-/

namespace KnowledgeBase

/-- A statement gives a name to its formula. -/
def Statement.Defines (s : Statement) (n : String) (f : Formula) : Prop :=
  s.name = n ∧ n ≠ "" ∧ s.formula = some f

/-! ### Entering names -/

namespace NameTable

/-- The statements of a batch clash with a table or with each other, or one of them says nothing. -/
inductive Clash (table : NameTable) (batch : List Statement) : InputFault → Prop
  | silent {s : Statement} : s ∈ batch → s.formula = none → Clash table batch (.noExpression s.name)
  | known {s : Statement} :
      s ∈ batch → s.name ≠ "" → s.name ∈ table → Clash table batch (.nameDefinedTwice s.name)
  | repeated {s : Statement} : s ∈ batch → s.name ≠ "" →
      2 ≤ (batch.map Statement.name).count s.name → Clash table batch (.nameDefinedTwice s.name)

variable {table table' : NameTable} {batch : List Statement} {s : Statement} {f : Formula}
  {n : String} {why : InputFault}

theorem Clash.cons (h : table.Clash batch why) (s : Statement) :
    table.Clash (s :: batch) why := by
  cases h with
  | silent hs hnone => exact .silent (List.mem_cons_of_mem _ hs) hnone
  | known hs hname hin => exact .known (List.mem_cons_of_mem _ hs) hname hin
  | repeated hs hname htwo =>
    refine .repeated (List.mem_cons_of_mem _ hs) hname ?_
    rw [List.map_cons, List.count_cons]
    omega

/-- A clash with a statement that was entered is one within the batch. -/
theorem Clash.of_insert (hname : s.name ≠ "") (h : Clash (table.insert s.name f) batch why) :
    table.Clash (s :: batch) why := by
  cases h with
  | silent hs hnone => exact .silent (List.mem_cons_of_mem _ hs) hnone
  | @known s' hs' hname' hin =>
    rcases Std.TreeMap.mem_insert.mp hin with heq | hin
    · have hsame : s.name = s'.name := Std.compare_eq_iff_eq.mp heq
      rw [← hsame]
      refine .repeated List.mem_cons_self hname ?_
      have hpos : 0 < (batch.map Statement.name).count s.name :=
        List.count_pos_iff.mpr (List.mem_map.mpr ⟨s', hs', hsame.symm⟩)
      rw [List.map_cons, List.count_cons_self]
      omega
    · exact .known (List.mem_cons_of_mem _ hs') hname' hin
  | repeated hs hname' htwo =>
    refine .repeated (List.mem_cons_of_mem _ hs) hname' ?_
    rw [List.map_cons, List.count_cons]
    omega

theorem enter_silent (hf : s.formula = none) :
    table.enter (s :: batch) = refuse (.noExpression s.name) := by
  obtain ⟨name, formula⟩ := s
  dsimp only at hf
  subst hf
  rfl

/-- One statement is entered, if it has a formula and its name is new. -/
theorem enter_cons (hf : s.formula = some f) : table.enter (s :: batch) =
    if s.name = "" then table.enter batch
    else if s.name ∈ table then refuse (.nameDefinedTwice s.name)
    else NameTable.enter (table.insert s.name f) batch := by
  obtain ⟨name, formula⟩ := s
  dsimp only at hf
  subst hf
  simp [enter, Std.TreeMap.contains_iff_mem]

/-- Names are entered, or clash. -/
theorem exists_enter (table : NameTable) (batch : List Statement) :
    (∃ table', table.enter batch = .ok table') ∨
      ∃ why, table.enter batch = .error (.input why) ∧ table.Clash batch why := by
  induction batch generalizing table with
  | nil => exact .inl ⟨table, rfl⟩
  | cons s batch ih =>
    cases hf : s.formula with
    | none =>
      exact .inr ⟨.noExpression s.name, enter_silent hf, .silent List.mem_cons_self hf⟩
    | some f =>
      rw [enter_cons hf]
      split
      · exact (ih table).imp_right fun ⟨why, herror, hclash⟩ => ⟨why, herror, hclash.cons s⟩
      · rename_i hname
        split
        · rename_i hin
          exact .inr ⟨_, rfl, .known List.mem_cons_self hname hin⟩
        · exact (ih _).imp_right fun ⟨why, herror, hclash⟩ => ⟨why, herror, .of_insert hname hclash⟩

/-- A statement without a name clashes with nothing. -/
theorem Clash.of_unnamed (hf : s.formula = some f) (hname : s.name = "")
    (h : table.Clash (s :: batch) why) : table.Clash batch why := by
  cases h with
  | silent hs hnone =>
    rcases List.mem_cons.mp hs with rfl | hs
    · rw [hf] at hnone
      cases hnone
    · exact .silent hs hnone
  | known hs hname' hin =>
    rcases List.mem_cons.mp hs with rfl | hs
    · exact absurd hname hname'
    · exact .known hs hname' hin
  | repeated hs hname' htwo =>
    rcases List.mem_cons.mp hs with rfl | hs
    · exact absurd hname hname'
    · rw [List.map_cons, List.count_cons_of_ne (hname ▸ hname'.symm)] at htwo
      exact .repeated hs hname' htwo

/-- A clash with a statement shows against the table that it is entered into. -/
theorem Clash.insert (hf : s.formula = some f) (hnew : s.name ∉ table)
    (h : table.Clash (s :: batch) why) :
    ∃ why, Clash (Std.TreeMap.insert table s.name f) batch why := by
  cases h with
  | silent hs hnone =>
    rcases List.mem_cons.mp hs with rfl | hs
    · rw [hf] at hnone
      cases hnone
    · exact ⟨_, .silent hs hnone⟩
  | known hs hname hin =>
    rcases List.mem_cons.mp hs with rfl | hs
    · exact absurd hin hnew
    · exact ⟨_, .known hs hname (Std.TreeMap.mem_insert.mpr (.inr hin))⟩
  | @repeated s' hs hname htwo =>
    rw [List.map_cons] at htwo
    by_cases hsame : s.name = s'.name
    · -- the other statement of the name comes later, and finds it entered
      rw [← hsame, List.count_cons_self] at htwo
      have hpos : 0 < (batch.map Statement.name).count s.name := by omega
      obtain ⟨s'', hs'', heq⟩ := List.mem_map.mp (List.count_pos_iff.mp hpos)
      refine ⟨_, .known hs'' (heq ▸ hsame ▸ hname) (Std.TreeMap.mem_insert.mpr (.inl ?_))⟩
      exact Std.compare_eq_iff_eq.mpr heq.symm
    · rw [List.count_cons_of_ne hsame] at htwo
      rcases List.mem_cons.mp hs with rfl | hs
      · exact absurd rfl hsame
      · exact ⟨_, .repeated hs hname htwo⟩

/-- Names that are entered do not clash. -/
theorem not_clash_of_enter (h : table.enter batch = .ok table') : ¬ table.Clash batch why := by
  induction batch generalizing table why with
  | nil =>
    intro hclash
    cases hclash with
    | silent hs => cases hs
    | known hs => cases hs
    | repeated hs => cases hs
  | cons s batch ih =>
    intro hclash
    cases hf : s.formula with
    | none =>
      rw [enter_silent hf] at h
      cases h
    | some f =>
      rw [enter_cons hf] at h
      split at h
      · rename_i hname
        exact ih h (hclash.of_unnamed hf hname)
      · split at h
        · cases h
        · rename_i hnew
          obtain ⟨why', hclash⟩ := hclash.insert hf hnew
          exact ih h hclash

/-- What a name stands for once a batch is entered. -/
theorem getElem?_enter (h : table.enter batch = .ok table') :
    table'[n]? = some f ↔ table[n]? = some f ∨ ∃ s ∈ batch, s.Defines n f := by
  induction batch generalizing table with
  | nil =>
    cases h
    simp
  | cons s batch ih =>
    cases hf : s.formula with
    | none =>
      rw [enter_silent hf] at h
      cases h
    | some g =>
      rw [enter_cons hf] at h
      have hdefines : s.Defines n f ↔ s.name = n ∧ n ≠ "" ∧ g = f := by
        unfold Statement.Defines
        rw [hf, Option.some_inj]
      rw [List.exists_mem_cons_iff, hdefines]
      split at h
      · rename_i hname
        rw [ih h]
        have hnot : ¬ (s.name = n ∧ n ≠ "" ∧ g = f) := fun hs => hs.2.1 (hs.1 ▸ hname)
        simp [hnot]
      · split at h
        · cases h
        · rename_i hname hnew
          rw [ih h, Std.TreeMap.getElem?_insert]
          by_cases hn : s.name = n
          · subst hn
            have hnone : table[s.name]? = none := Std.TreeMap.getElem?_eq_none hnew
            simp [hname, hnone]
          · simp [hn]

/-- A table stands for what it stood for and what the batch says. -/
theorem means_enter (h : table.enter batch = .ok table') :
    table'.Means = fun n f => table[n]? = some f ∨ ∃ s ∈ batch, s.Defines n f := by
  funext n f
  exact propext (getElem?_enter h)

end NameTable

/-! ### Vectors of rules -/

theorem Dense.exists_ofName {size : Nat} (h : checkGeometry size = .ok ()) (name theory : String) :
    ∃ v, ofName size name theory = .ok v ∧ v.geometry = size :=
  ⟨_, Outcome.bind_eq_ok.mpr ⟨(), h, rfl⟩, rfl⟩

theorem Sparse.exists_ofName {size : Nat} (h : size ≠ 0) (name theory : String) :
    ∃ v, ofName size name theory = .ok v ∧ v.maxSize = size :=
  ⟨_, if_neg h, rfl⟩

namespace Algebra

/-- The algebra was made, so its size was checked. -/
def Made (a : Algebra) : Prop := ∃ strategy size threshold, make strategy size threshold = .ok a

/-- An algebra that was made has a vector for every rule. -/
theorem Made.exists_ofRule {a : Algebra} (h : a.Made) (condition conclusion : String) :
    ∃ v, a.ofRule condition conclusion = .ok v := by
  obtain ⟨strategy, size, threshold, h⟩ := h
  cases strategy with
  | dense =>
    obtain ⟨_, hsize, h⟩ := Outcome.bind_eq_ok.mp h
    cases h
    obtain ⟨v, hv, hvsize⟩ := Dense.exists_ofName hsize condition "default"
    obtain ⟨w, hw, hwsize⟩ := Dense.exists_ofName hsize conclusion "default"
    have hsame : v.bind w = .ok (v.xor w (hvsize.trans hwsize.symm)) := dif_pos _
    have hbind : (mk .dense size threshold).bind (.dense v) (.dense w) = .ok (.dense _) :=
      Outcome.bind_eq_ok.mpr ⟨v, rfl, Outcome.bind_eq_ok.mpr ⟨w, rfl,
        Outcome.bind_eq_ok.mpr ⟨_, hsame, rfl⟩⟩⟩
    exact ⟨_, Outcome.bind_eq_ok.mpr ⟨.dense v, Outcome.map_eq_ok.mpr ⟨v, hv, rfl⟩,
      Outcome.bind_eq_ok.mpr ⟨.dense w, Outcome.map_eq_ok.mpr ⟨w, hw, rfl⟩, hbind⟩⟩⟩
  | fractal =>
    by_cases hzero : size = 0
    · rw [make, if_pos hzero] at h
      cases h
    · rw [make, if_neg hzero] at h
      cases h
      obtain ⟨v, hv, hvsize⟩ := Sparse.exists_ofName hzero condition "default"
      obtain ⟨w, hw, hwsize⟩ := Sparse.exists_ofName hzero conclusion "default"
      have hsame : v.checkSame w = .ok () := if_pos (hvsize.trans hwsize.symm)
      have hbind : (mk .fractal size threshold).bind (.sparse v) (.sparse w) = .ok (.sparse _) :=
        Outcome.bind_eq_ok.mpr ⟨v, rfl, Outcome.bind_eq_ok.mpr ⟨w, rfl,
          Outcome.bind_eq_ok.mpr ⟨_, Outcome.bind_eq_ok.mpr ⟨(), hsame, rfl⟩, rfl⟩⟩⟩
      exact ⟨_, Outcome.bind_eq_ok.mpr ⟨.sparse v, Outcome.map_eq_ok.mpr ⟨v, hv, rfl⟩,
        Outcome.bind_eq_ok.mpr ⟨.sparse w, Outcome.map_eq_ok.mpr ⟨w, hw, rfl⟩, hbind⟩⟩⟩

end Algebra

namespace RuleBook

open Formula (Expands)
open Steps (Carries)

variable {b b' : RuleBook} {table : NameTable} {batch told : List Statement} {s : Statement}
  {added rs : List Rule} {c d f g : Formula} {fault : Fault}

/-! ### Collecting rules -/

theorem exists_ofImplication (hmade : ∀ a ∈ b.algebra, a.Made) (name : String) (c d : Formula) :
    ∃ r, Rule.ofImplication b.algebra name c d = .ok r := by
  unfold Rule.ofImplication
  cases halgebra : b.algebra with
  | none => exact ⟨_, rfl⟩
  | some a =>
    obtain ⟨v, hv⟩ := (hmade a halgebra).exists_ofRule c.signature d.signature
    exact ⟨_, Outcome.bind_eq_ok.mpr ⟨some v, by simp [hv], rfl⟩⟩

/-- A rule is that of a statement whose full expansion is an implication. -/
structure Renders (algebra : Option Algebra) (means : Naming) (s : Statement) (c d : Formula)
    (r : Rule) : Prop extends Keyed c d r where
  expands : ∃ f, s.formula = some f ∧ Expands means f (.implies c d)
  rule : Rule.ofImplication algebra s.name c d = .ok r

/-- What collecting the rules of a batch comes to. -/
structure Collected (b : RuleBook) (table : NameTable) (batch : List Statement)
    (added rs : List Rule) : Prop where
  kept : added <+: rs
  ids : ((b.rules ++ added).map Rule.id).Nodup → ((b.rules ++ rs).map Rule.id).Nodup
  rendered : ∀ r ∈ rs, r ∈ added ∨ ∃ s ∈ batch, ∃ c d, Renders b.algebra table.Means s c d r
  expanded : ∀ s ∈ batch, ∀ f, s.formula = some f → ∃ g, Expands table.Means f g
  covered : ∀ s ∈ batch, ∀ f c d, s.formula = some f → Expands table.Means f (.implies c d) →
    Rule.idOf c d ∈ (b.rules ++ rs).map Rule.id

theorem Collected.silent (hf : s.formula = none) : Collected b table [s] added added where
  kept := List.prefix_rfl
  ids := id
  rendered := fun _ hr => .inl hr
  expanded := by simp [hf]
  covered := by simp [hf]

/-- A statement is passed over if it comes to no new implication. -/
theorem Collected.pass (hf : s.formula = some f) (hg : Expands table.Means f g)
    (hold : ∀ c d, g = .implies c d → Rule.idOf c d ∈ (b.rules ++ added).map Rule.id) :
    Collected b table [s] added added where
  kept := List.prefix_rfl
  ids := id
  rendered := fun _ hr => .inl hr
  expanded := by
    rw [List.forall_mem_singleton, hf]
    rintro _ ⟨⟩
    exact ⟨g, hg⟩
  covered := by
    rw [List.forall_mem_singleton, hf]
    rintro _ c d ⟨⟩ h
    exact hold c d (hg.unique table.unique_means h)

/-- A statement gives a rule if it comes to a new implication. -/
theorem Collected.push {r : Rule} (hf : s.formula = some f)
    (hg : Expands table.Means f (.implies c d))
    (hr : Rule.ofImplication b.algebra s.name c d = .ok r)
    (hnew : r.id ∉ (b.rules ++ added).map Rule.id) :
    Collected b table [s] added (added ++ [r]) where
  kept := List.prefix_append _ _
  ids := fun hids => by
    rw [← List.append_assoc, List.map_append, List.map_singleton, ← List.concat_eq_append]
    exact List.Nodup.concat hnew hids
  rendered := fun r' hr' => by
    rcases List.mem_append.mp hr' with hr' | hr'
    · exact .inl hr'
    · rw [List.mem_singleton.mp hr']
      exact .inr ⟨s, List.mem_singleton_self s, c, d, keyed_ofImplication hr, ⟨f, hf, hg⟩, hr⟩
  expanded := by
    rw [List.forall_mem_singleton, hf]
    rintro _ ⟨⟩
    exact ⟨_, hg⟩
  covered := by
    rw [List.forall_mem_singleton, hf]
    rintro _ c' d' ⟨⟩ h
    cases hg.unique table.unique_means h
    rw [← (keyed_ofImplication hr).id]
    exact List.mem_map_of_mem (by simp)

/-- One statement is collected. -/
theorem collected_single (h : b.collect table [s] added = .ok rs) :
    Collected b table [s] added rs := by
  obtain ⟨name, formula⟩ := s
  cases formula with
  | none =>
    cases h
    exact .silent rfl
  | some f =>
    obtain ⟨g, hg, h⟩ := Outcome.bind_eq_ok.mp h
    rw [NameTable.resolve_eq_ok_iff] at hg
    split at h
    · rename_i c d
      obtain ⟨r, hr, h⟩ := Outcome.bind_eq_ok.mp h
      have hknown : (b.rules ++ added).any (·.id == r.id) = true ↔
          r.id ∈ (b.rules ++ added).map Rule.id := by
        simp only [List.any_eq_true, beq_iff_eq, List.mem_map]
      split at h
      · rename_i hany
        cases h
        refine .pass rfl hg fun c' d' heq => ?_
        cases heq
        exact (keyed_ofImplication hr).id ▸ hknown.mp hany
      · rename_i hany
        cases h
        exact .push rfl hg hr fun hin => hany (hknown.mpr hin)
    · rename_i hother
      cases h
      exact .pass rfl hg fun c d heq => absurd heq (hother c d)

theorem Collected.trans {xs ys : List Statement} {rs' : List Rule}
    (hx : Collected b table xs added rs) (hy : Collected b table ys rs rs') :
    Collected b table (xs ++ ys) added rs' where
  kept := hx.kept.trans hy.kept
  ids := fun hids => hy.ids (hx.ids hids)
  rendered := fun r hr => by
    rcases hy.rendered r hr with hr | ⟨s, hs, hrule⟩
    · rcases hx.rendered r hr with hr | ⟨s, hs, hrule⟩
      · exact .inl hr
      · exact .inr ⟨s, List.mem_append_left _ hs, hrule⟩
    · exact .inr ⟨s, List.mem_append_right _ hs, hrule⟩
  expanded := List.forall_mem_append.mpr ⟨hx.expanded, hy.expanded⟩
  covered := by
    refine List.forall_mem_append.mpr ⟨fun s hs f c d hf hexpands => ?_, hy.covered⟩
    have hsub : (b.rules ++ rs).map Rule.id ⊆ (b.rules ++ rs').map Rule.id :=
      List.map_subset _ (List.append_subset.mpr ⟨List.subset_append_left _ _,
        List.subset_append_of_subset_right _ hy.kept.subset⟩)
    exact hsub (hx.covered s hs f c d hf hexpands)

/-- The rules of a batch are collected, statement by statement. -/
theorem collected_of_collect (h : b.collect table batch added = .ok rs) :
    Collected b table batch added rs := by
  induction batch generalizing added with
  | nil =>
    cases h
    exact ⟨List.prefix_rfl, id, fun _ hr => .inl hr, by simp, by simp⟩
  | cons s batch ih =>
    rw [← List.singleton_append, collect_append] at h
    obtain ⟨rs', hsingle, hrest⟩ := Outcome.bind_eq_ok.mp h
    exact (collected_single hsingle).trans (ih hrest)

/-- Rules are collected unless a formula cannot be resolved. -/
theorem collect_eq_error (hmade : ∀ a ∈ b.algebra, a.Made)
    (h : b.collect table batch added = .error fault) :
    ∃ s ∈ batch, ∃ f, s.formula = some f ∧ table.resolve f = .error fault := by
  induction batch generalizing added with
  | nil => cases h
  | cons s batch ih =>
    rw [List.exists_mem_cons_iff]
    obtain ⟨name, formula⟩ := s
    cases formula with
    | none => exact .inr (ih h)
    | some f =>
      rcases Outcome.bind_eq_error.mp h with h | ⟨g, -, h⟩
      · exact .inl ⟨f, rfl, h⟩
      · split at h
        · rename_i c d
          obtain ⟨r, hr⟩ := exists_ofImplication hmade name c d
          rcases Outcome.bind_eq_error.mp h with h | ⟨r', -, h⟩
          · rw [hr] at h
            cases h
          · split at h
            · exact .inr (ih h)
            · exact .inr (ih h)
        · exact .inr (ih h)

/-! ### Batches that are refused -/

/-- What names stand for with a batch entered. -/
def Means (b : RuleBook) (batch : List Statement) : Naming :=
  fun n f => b.lookup? n = some f ∨ ∃ s ∈ batch, s.Defines n f

/-- What a batch is refused for: its names clash, or references lead astray from one of its
statements. -/
inductive Refused (b : RuleBook) (batch : List Statement) : InputFault → Prop
  | clash {why : InputFault} : b.table.Clash batch why → Refused b batch why
  | astray {s : Statement} {f : Formula} {n : String} {why : InputFault} :
      s ∈ batch → s.formula = some f → (b.Means batch).LeadsTo f n →
      (b.Means batch).Astray n why → Refused b batch why

theorem extract_eq_ok (h : b.extract batch = .ok (b', added)) :
    ∃ table, b.table.enter batch = .ok table ∧ b.collect table batch [] = .ok added ∧
      b' = { b with rules := b.rules ++ added, table } := by
  obtain ⟨table, henter, h⟩ := Outcome.bind_eq_ok.mp h
  obtain ⟨rs, hcollect, h⟩ := Outcome.bind_eq_ok.mp h
  cases h
  exact ⟨table, henter, hcollect, rfl⟩

/-- A batch is refused for what is wrong with it. -/
theorem refused_of_error (hmade : ∀ a ∈ b.algebra, a.Made) (h : b.extract batch = .error fault) :
    ∃ why, fault = .input why ∧ b.Refused batch why := by
  rcases Outcome.bind_eq_error.mp h with h | ⟨table, henter, h⟩
  · rcases b.table.exists_enter batch with ⟨table, henter⟩ | ⟨why, herror, hclash⟩
    · rw [h] at henter
      cases henter
    · rw [h] at herror
      cases herror
      exact ⟨why, rfl, .clash hclash⟩
  · rcases Outcome.bind_eq_error.mp h with h | ⟨rs, -, h⟩
    · obtain ⟨s, hs, f, hf, hresolve⟩ := collect_eq_error hmade h
      obtain ⟨n, why, hleads, hastray, heq⟩ := NameTable.resolve_eq_error hresolve
      rw [NameTable.means_enter henter] at hleads hastray
      exact ⟨why, heq, .astray hs hf hleads hastray⟩
    · cases h

/-- Nothing is wrong with a batch that is taken in. -/
theorem not_refused_of_ok {why : InputFault} (h : b.extract batch = .ok (b', added)) :
    ¬ b.Refused batch why := by
  obtain ⟨table, henter, hcollect, -⟩ := extract_eq_ok h
  intro hrefused
  cases hrefused with
  | clash hclash => exact NameTable.not_clash_of_enter henter hclash
  | astray hs hf hleads hastray =>
    obtain ⟨g, hg⟩ := (collected_of_collect hcollect).expanded _ hs _ hf
    have hmeans : table.Means = b.Means batch := NameTable.means_enter henter
    rw [← hmeans] at hleads hastray
    exact hg.not_astray table.unique_means hleads hastray

theorem exists_error_iff (hmade : ∀ a ∈ b.algebra, a.Made) :
    (∃ fault, b.extract batch = .error fault) ↔ ∃ why, b.Refused batch why := by
  constructor
  · rintro ⟨fault, h⟩
    obtain ⟨why, -, hrefused⟩ := refused_of_error hmade h
    exact ⟨why, hrefused⟩
  · rintro ⟨why, hrefused⟩
    cases h : b.extract batch with
    | error fault => exact ⟨fault, rfl⟩
    | ok out => exact absurd hrefused (not_refused_of_ok h)

/-! ### What is written -/

namespace Stepwise

/-- Rules are entered one after another. -/
def push : List Rule → Steps RuleBook Unit
  | [] => return
  | r :: rs => do
    modify fun b => { b with rules := b.rules ++ [r] }
    push rs

def extract (batch : List Statement) : Steps RuleBook (List Rule) := do
  let table ← Steps.ask (·.table.enter batch)
  let added ← Steps.ask (·.collect table batch [])
  modify fun b => { b with table }
  push added
  return added

theorem push_eq (rs : List Rule) (b : RuleBook) :
    push rs b = .ok () { b with rules := b.rules ++ rs } := by
  induction rs generalizing b with
  | nil =>
    rw [List.append_nil]
    rfl
  | cons r rs ih =>
    show push rs _ = _
    rw [ih, List.append_assoc, List.singleton_append]

/-- Extraction writes nothing if it is refused. -/
theorem carries_extract (batch : List Statement) (b : RuleBook) :
    Carries Eq (extract batch) b (b.extract batch) := by
  cases henter : b.table.enter batch with
  | error why =>
    rw [show b.extract batch = .error why from Outcome.bind_eq_error.mpr (.inl henter)]
    exact Steps.carries_of_error (Steps.bind_of_error (Steps.ask_of_error henter)) rfl
  | ok table =>
    have hfirst : Steps.ask (fun b : RuleBook => b.table.enter batch) b = .ok table b :=
      Steps.ask_of_ok henter
    cases hcollect : b.collect table batch [] with
    | error why =>
      rw [show b.extract batch = .error why from
        Outcome.bind_eq_error.mpr (.inr ⟨table, henter, Outcome.bind_eq_error.mpr (.inl hcollect)⟩)]
      refine Steps.carries_of_error ((Steps.bind_of_ok hfirst).trans ?_) rfl
      exact Steps.bind_of_error (Steps.ask_of_error hcollect)
    | ok added =>
      rw [show b.extract batch = .ok ({ b with rules := b.rules ++ added, table }, added) from
        Outcome.bind_eq_ok.mpr ⟨table, henter, Outcome.bind_eq_ok.mpr ⟨added, hcollect, rfl⟩⟩]
      have hsecond : Steps.ask (fun b : RuleBook => b.collect table batch []) b = .ok added b :=
        Steps.ask_of_ok hcollect
      refine Steps.carries_of_ok ((Steps.bind_of_ok hfirst).trans ?_) rfl
      refine (Steps.bind_of_ok hsecond).trans ?_
      exact Steps.bind_of_ok (push_eq added { b with table })

end Stepwise

/-! ### Books and what they were told -/

/-- A book has been told some statements since it was made or cleared. -/
inductive Told : RuleBook → List Statement → Prop
  | empty {algebra : Option Algebra} : (∀ a ∈ algebra, a.Made) → Told { algebra } []
  | extract {b b' : RuleBook} {told batch : List Statement} {added : List Rule} :
      Told b told → b.extract batch = .ok (b', added) → Told b' (told ++ batch)
  | addRule {b b' : RuleBook} {told : List Statement} {name : String} {c d : Formula} :
      Told b told → b.addRule name (some c) (some d) = .ok b' →
        Told b' (told ++ [⟨name, some (.implies c d)⟩])
  | clear {b : RuleBook} {told : List Statement} : Told b told → Told b.clear []

/-- The names and rules of a book are those of some statements. -/
structure Accounts (b : RuleBook) (told : List Statement) : Prop where
  made : ∀ a ∈ b.algebra, a.Made
  names : ∀ n f, b.lookup? n = some f ↔ ∃ s ∈ told, s.Defines n f
  ids : (b.rules.map Rule.id).Nodup
  rendered : ∀ r ∈ b.rules, ∃ s ∈ told, ∃ c d, Renders b.algebra b.table.Means s c d r
  expanded : ∀ s ∈ told, ∃ f g, s.formula = some f ∧ Expands b.table.Means f g
  covered : ∀ s ∈ told, ∀ f c d, s.formula = some f →
    Expands b.table.Means f (.implies c d) → ∃ r ∈ b.rules, r.id = Rule.idOf c d

theorem Renders.mono {algebra : Option Algebra} {means means' : Naming} {r : Rule}
    (hmeans : ∀ n f, means n f → means' n f) (h : Renders algebra means s c d r) :
    Renders algebra means' s c d r := by
  obtain ⟨f, hf, hexpands⟩ := h.expands
  exact ⟨h.toKeyed, ⟨f, hf, hexpands.mono hmeans⟩, h.rule⟩

theorem accounts_empty {algebra : Option Algebra} (hmade : ∀ a ∈ algebra, a.Made) :
    Accounts { algebra } [] where
  made := hmade
  names := by simp [lookup?]
  ids := List.nodup_nil
  rendered := by simp
  expanded := by simp
  covered := by simp

/-- A batch that is taken in is accounted for, and so is what was there before. -/
theorem Accounts.extract (hb : b.Accounts told) (h : b.extract batch = .ok (b', added)) :
    b'.Accounts (told ++ batch) := by
  obtain ⟨table, henter, hcollect, rfl⟩ := extract_eq_ok h
  have hnames : ∀ n f, table[n]? = some f ↔ b.lookup? n = some f ∨ ∃ s ∈ batch, s.Defines n f :=
    fun n f => NameTable.getElem?_enter henter
  have hmore : ∀ n f, b.table.Means n f → table.Means n f :=
    fun n f hf => (hnames n f).mpr (.inl hf)
  have hbatch := collected_of_collect hcollect
  have hsaid : ∀ s ∈ batch, s.formula ≠ none :=
    fun s hs hnone => NameTable.not_clash_of_enter henter (.silent hs hnone)
  refine ⟨hb.made, fun n f => ?_, ?_, fun r hr => ?_, ?_, ?_⟩
  · refine (hnames n f).trans ?_
    rw [hb.names]
    simp only [List.mem_append, or_and_right, exists_or]
  · exact hbatch.ids (by rw [List.append_nil]; exact hb.ids)
  · rcases List.mem_append.mp hr with hr | hr
    · obtain ⟨s, hs, c, d, hrule⟩ := hb.rendered r hr
      exact ⟨s, List.mem_append_left _ hs, c, d, hrule.mono hmore⟩
    · rcases hbatch.rendered r hr with hnone | ⟨s, hs, hrule⟩
      · cases hnone
      · exact ⟨s, List.mem_append_right _ hs, hrule⟩
  · refine List.forall_mem_append.mpr ⟨fun s hs => ?_, fun s hs => ?_⟩
    · obtain ⟨f, g, hf, hexpands⟩ := hb.expanded s hs
      exact ⟨f, g, hf, hexpands.mono hmore⟩
    · obtain ⟨f, hf⟩ := Option.ne_none_iff_exists'.mp (hsaid s hs)
      obtain ⟨g, hg⟩ := hbatch.expanded s hs f hf
      exact ⟨f, g, hf, hg⟩
  · refine List.forall_mem_append.mpr ⟨fun s hs f c d hf hexpands => ?_,
      fun s hs f c d hf hexpands => List.mem_map.mp (hbatch.covered s hs f c d hf hexpands)⟩
    -- what was expanded before is expanded as it was
    obtain ⟨f', g, hf', hold⟩ := hb.expanded s hs
    cases hf.symm.trans hf'
    cases (hold.mono hmore).unique table.unique_means hexpands
    obtain ⟨r, hr, hid⟩ := hb.covered s hs f c d hf hold
    exact ⟨r, List.mem_append_left _ hr, hid⟩

/-- A book accounts for all that it has been told. -/
theorem Told.accounts (h : b.Told told) : b.Accounts told := by
  induction h with
  | empty hmade => exact accounts_empty hmade
  | extract _ hb ih => exact ih.extract hb
  | addRule _ hb ih =>
    obtain ⟨_, hc, hb⟩ := Outcome.bind_eq_ok.mp hb
    cases hc
    obtain ⟨_, hd, hb⟩ := Outcome.bind_eq_ok.mp hb
    cases hd
    obtain ⟨⟨b'', added⟩, hextract, hb⟩ := Outcome.bind_eq_ok.mp hb
    cases hb
    exact ih.extract hextract
  | clear _ ih => exact accounts_empty ih.made

/-- A rule is found by its id. -/
theorem Accounts.find?_eq_some (hb : b.Accounts told) {r : Rule} (hr : r ∈ b.rules) :
    b.find? r.id = some r := by
  unfold find?
  cases hfind : b.rules.find? (·.id == r.id) with
  | none =>
    have hother := List.find?_eq_none.mp hfind r hr
    simp at hother
  | some r' =>
    have hid := List.find?_some hfind
    rw [beq_iff_eq] at hid
    rw [List.inj_on_of_nodup_map hb.ids (List.mem_of_find?_eq_some hfind) hr hid]

/-- **A batch is taken in exactly if its names are new and its references lead to an end**, and as
a whole or not at all.  It is refused if a statement says nothing, a name is given twice, or
references lead from a statement to a name that stands for nothing or leads back to itself; nothing
has been written then.  Otherwise the book accounts for the batch too.  Its rules have different ids
and are found by them, and are the full expansions of statements, without references. -/
theorem extract_exact (h : b.Told told) (batch : List Statement) :
    ((∃ fault, b.extract batch = .error fault) ↔ ∃ why, b.Refused batch why) ∧
      (∀ fault, b.extract batch = .error fault →
        ∃ why, fault = .input why ∧ b.Refused batch why) ∧
      Carries Eq (Stepwise.extract batch) b (b.extract batch) ∧
      ∀ b' added, b.extract batch = .ok (b', added) →
        b'.rules = b.rules ++ added ∧ b'.Accounts (told ++ batch) ∧
        ∀ r ∈ b'.rules, b'.find? r.id = some r ∧ ∃ s ∈ told ++ batch, ∃ c d,
          Renders b'.algebra b'.table.Means s c d r ∧ c.references = [] ∧ d.references = [] := by
  have hmade := h.accounts.made
  refine ⟨exists_error_iff hmade, fun fault => refused_of_error hmade,
    Stepwise.carries_extract batch b, fun b' added hb' => ?_⟩
  have haccounts := h.accounts.extract hb'
  refine ⟨?_, haccounts, fun r hr => ⟨haccounts.find?_eq_some hr, ?_⟩⟩
  · obtain ⟨table, -, -, rfl⟩ := extract_eq_ok hb'
    rfl
  · obtain ⟨s, hs, c, d, hrule⟩ := haccounts.rendered r hr
    obtain ⟨f, -, hexpands⟩ := hrule.expands
    have hclosed : c.references ++ d.references = [] := hexpands.references_eq_nil
    exact ⟨s, hs, c, d, hrule, List.append_eq_nil_iff.mp hclosed⟩

/-! ### A book told of references -/

/-- A rule whose condition is named later, another name for the rule, and the condition. -/
def wet : List Statement :=
  [⟨"slips", some (.implies (.reference "wet") (.leaf ⟨"slippery", [.hole "x"]⟩))⟩,
    ⟨"same", some (.reference "slips")⟩,
    ⟨"wet", some (.any [.leaf ⟨"rained", [.hole "x"]⟩, .leaf ⟨"washed", [.hole "x"]⟩])⟩]

/-- A rule whose condition is named in another batch. -/
def dry : List Statement :=
  [⟨"", some (.implies (.negate (.reference "wet")) (.leaf ⟨"dry", [.hole "x"]⟩))⟩]

/-- Formulas that refer to each other. -/
def loop : List Statement :=
  [⟨"a", some (.reference "b")⟩, ⟨"b", some (.negate (.reference "a"))⟩]

/-- The book with the rule. -/
def wetBook : RuleBook := ((extract {} wet).toOption.getD ({}, [])).1

theorem extract_exact_wet : wetBook.Told wet ∧ wetBook.rules.length = 1 ∧
    (∃ why, wetBook.Refused loop why) ∧
    ∃ b added, wetBook.extract dry = .ok (b, added) ∧ b.rules.length = 2 ∧
      b.rules = wetBook.rules ++ added ∧ b.Accounts (wet ++ dry) := by
  have hwet : extract {} wet = .ok ((extract {} wet).toOption.getD ({}, [])) :=
    Outcome.eq_ok_of_isOk (by decide +kernel)
  have htold : wetBook.Told wet := .extract (.empty (by simp)) hwet
  have hdry : wetBook.extract dry = .ok ((wetBook.extract dry).toOption.getD ({}, [])) :=
    Outcome.eq_ok_of_isOk (by decide +kernel)
  obtain ⟨hrules, haccounts, -⟩ := (extract_exact htold dry).2.2.2 _ _ hdry
  refine ⟨htold, by decide +kernel, (extract_exact htold loop).1.mp ?_, _, _, hdry,
    by decide +kernel, hrules, haccounts⟩
  cases hloop : wetBook.extract loop with
  | error fault => exact ⟨fault, rfl⟩
  | ok out =>
    have hnot : (wetBook.extract loop).isOk = false := by decide +kernel
    rw [hloop] at hnot
    cases hnot

end RuleBook

end KnowledgeBase
