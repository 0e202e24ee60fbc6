import KnowledgeBase.Proofs.Rule.Extraction
import Mathlib.Data.List.Perm.Basic

/-!
# Batches in another order

Statements may be given in any order: names are entered before references are followed, and what is
wrong with a batch, what its names stand for and the ids of its rules are told without one.  Only
the rules themselves depend on it, as the first statement of a rule gives it its name.

* `Clash.perm`, `Refused.perm`: what is wrong with a batch;
* `lookup?_extract`, `mem_ids_extract`: the names and ids of a book that has taken in a batch;
* `extract_perm`: the outcome for a batch in another order.
-/

namespace KnowledgeBase

variable {batch batch' : List Statement} {why : InputFault}

theorem NameTable.Clash.perm {table : NameTable} (hperm : batch.Perm batch')
    (h : table.Clash batch why) : table.Clash batch' why := by
  cases h with
  | silent hs hnone => exact .silent (hperm.mem_iff.mp hs) hnone
  | known hs hname hin => exact .known (hperm.mem_iff.mp hs) hname hin
  | repeated hs hname htwo =>
    refine .repeated (hperm.mem_iff.mp hs) hname ?_
    rw [← (hperm.map Statement.name).count_eq]
    exact htwo

/-- Tables are the same if all names stand for the same. -/
theorem NameTable.equiv_of_getElem? {table table' : NameTable}
    (h : ∀ n : String, table[n]? = table'[n]?) : table.Equiv table' := by
  have hnodup : ∀ t : NameTable, t.toList.Nodup := by
    refine fun t => Std.TreeMap.distinct_keys_toList.imp fun {p q} hne heq => hne ?_
    rw [heq]
    exact Std.ReflCmp.compare_self
  refine .of_toList_perm ((List.perm_ext_iff_of_nodup (hnodup table) (hnodup table')).mpr ?_)
  rintro ⟨n, f⟩
  rw [Std.TreeMap.mem_toList_iff_getElem?_eq_some, Std.TreeMap.mem_toList_iff_getElem?_eq_some, h]

namespace RuleBook

open Formula (Expands)

variable {b b' : RuleBook} {told : List Statement} {added : List Rule}

theorem means_perm (b : RuleBook) (hperm : batch.Perm batch') : b.Means batch = b.Means batch' := by
  funext n f
  simp only [Means, hperm.mem_iff]

theorem Refused.perm (hperm : batch.Perm batch') (h : b.Refused batch why) :
    b.Refused batch' why := by
  cases h with
  | clash hclash => exact .clash (hclash.perm hperm)
  | astray hs hf hleads hastray =>
    rw [b.means_perm hperm] at hleads hastray
    exact .astray (hperm.mem_iff.mp hs) hf hleads hastray

/-! ### Books after a batch -/

theorem lookup?_extract (h : b.extract batch = .ok (b', added)) {n : String} {f : Formula} :
    b'.lookup? n = some f ↔ b.Means batch n f := by
  obtain ⟨table, henter, -, rfl⟩ := extract_eq_ok h
  exact NameTable.getElem?_enter henter

/-- The ids of a book are those it had, and those of the implications of the batch. -/
theorem mem_ids_extract (h : b.extract batch = .ok (b', added)) {id : String} :
    id ∈ b'.rules.map Rule.id ↔ id ∈ b.rules.map Rule.id ∨
      ∃ s ∈ batch, ∃ f c d, s.formula = some f ∧ Expands (b.Means batch) f (.implies c d) ∧
        Rule.idOf c d = id := by
  obtain ⟨table, henter, hcollect, rfl⟩ := extract_eq_ok h
  have hbatch := collected_of_collect hcollect
  have hmeans : table.Means = b.Means batch := NameTable.means_enter henter
  rw [← hmeans]
  constructor
  · intro hid
    obtain ⟨r, hr, rfl⟩ := List.mem_map.mp hid
    rcases List.mem_append.mp hr with hr | hr
    · exact .inl (List.mem_map_of_mem hr)
    · rcases hbatch.rendered r hr with hnone | ⟨s, hs, c, d, hrule⟩
      · cases hnone
      · obtain ⟨f, hf, hexpands⟩ := hrule.expands
        exact .inr ⟨s, hs, f, c, d, hf, hexpands, hrule.id.symm⟩
  · rintro (hid | ⟨s, hs, f, c, d, hf, hexpands, rfl⟩)
    · rw [List.map_append]
      exact List.mem_append_left _ hid
    · exact hbatch.covered s hs f c d hf hexpands

/-- Outcomes that differ in no name and in no id. -/
inductive Alike : Except Fault (RuleBook × List Rule) → Except Fault (RuleBook × List Rule) → Prop
  | refused {fault fault' : Fault} : Alike (.error fault) (.error fault')
  | taken {b b' : RuleBook} {added added' : List Rule} :
      b.table.Equiv b'.table →
      (b.rules.map Rule.id).Perm (b'.rules.map Rule.id) → Alike (.ok (b, added)) (.ok (b', added'))

/-- **The order of statements does not matter.**  A book refuses a batch in every order or takes it
in in every order, and has the same names and the same ids of rules then. -/
theorem extract_perm (h : b.Told told) (hperm : batch.Perm batch') :
    Alike (b.extract batch) (b.extract batch') := by
  have hmade := h.accounts.made
  cases hfirst : b.extract batch with
  | error fault =>
    obtain ⟨why, -, hrefused⟩ := refused_of_error hmade hfirst
    obtain ⟨fault', hsecond⟩ := (exists_error_iff hmade).mpr ⟨why, hrefused.perm hperm⟩
    rw [hsecond]
    exact .refused
  | ok out =>
    obtain ⟨b₁, added₁⟩ := out
    cases hsecond : b.extract batch' with
    | error fault =>
      obtain ⟨why, -, hrefused⟩ := refused_of_error hmade hsecond
      exact absurd (hrefused.perm hperm.symm) (not_refused_of_ok hfirst)
    | ok out =>
      obtain ⟨b₂, added₂⟩ := out
      have hlookup : ∀ n, b₁.lookup? n = b₂.lookup? n := by
        intro n
        refine Option.ext fun f => ?_
        rw [lookup?_extract hfirst, lookup?_extract hsecond, b.means_perm hperm]
      refine .taken (NameTable.equiv_of_getElem? hlookup) ?_
      refine (List.perm_ext_iff_of_nodup (h.accounts.extract hfirst).ids
        (h.accounts.extract hsecond).ids).mpr fun id => ?_
      rw [mem_ids_extract hfirst, mem_ids_extract hsecond, b.means_perm hperm]
      simp only [hperm.mem_iff]

/-- Two names of one rule: the rule goes by the name that comes first. -/
theorem extract_perm_wet :
    Alike (extract {} wet) (extract {} wet.reverse) ∧
      (extract {} wet).toOption.map (fun out => out.1.rules.map Rule.name) = some ["slips"] ∧
      (extract {} wet.reverse).toOption.map (fun out => out.1.rules.map Rule.name) =
        some ["same"] := by
  have hperm : wet.Perm wet.reverse := wet.reverse_perm.symm
  exact ⟨extract_perm (.empty (by simp)) hperm, by decide +kernel, by decide +kernel⟩

end RuleBook

end KnowledgeBase
