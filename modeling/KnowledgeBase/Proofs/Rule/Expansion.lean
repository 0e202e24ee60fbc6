import KnowledgeBase.Proofs.Outcome
import KnowledgeBase.Rule.Book
import Mathlib.Data.List.Perm.Subperm
import Mathlib.Logic.Relation

/-!
# References and their expansion

Formulas refer to named formulas, and these to others in turn.  A formula expands in full as long as
references lead nowhere but to names that stand for something and do not lead back to themselves.

* `Naming.LeadsTo`, `Naming.Astray`: the names that references lead to, and those where following
  them goes astray, each with its fault;
* `Formula.Expands`: the full expansion of a formula, by its shape;
* `Naming.Founded`: the names whose references can all be followed to an end;
* `resolve_eq_ok_iff`: a table resolves a formula exactly to its full expansion;
* `resolve_eq_error`: and otherwise names the culprit.
-/

namespace KnowledgeBase

/-! ### Names and references -/

namespace Formula

mutual

/-- The names that a formula refers to, from left to right. -/
def references : Formula → List String
  | leaf _ => []
  | all ps | any ps => referencesOf ps
  | negate f => references f
  | implies c d => references c ++ references d
  | reference n => [n]

def referencesOf : List Formula → List String
  | [] => []
  | f :: fs => references f ++ referencesOf fs

end

end Formula

/-- What names stand for. -/
abbrev Naming := String → Formula → Prop

namespace Naming

variable (means : Naming)

/-- No name stands for two formulas. -/
def Unique : Prop := ∀ n f f', means n f → means n f' → f = f'

/-- The formula of a name refers to another name. -/
def Refers (m n : String) : Prop := ∃ f, means m f ∧ n ∈ f.references

/-- Following references from a formula comes to a name. -/
def LeadsTo (f : Formula) (n : String) : Prop :=
  ∃ m ∈ f.references, Relation.ReflTransGen means.Refers m n

/-- A name at which following references goes astray, with the fault: it stands for nothing, or it
leads back to itself. -/
inductive Astray : String → InputFault → Prop
  | unresolved {n : String} : (∀ f, ¬ means n f) → Astray n (.unresolvedReference n)
  | cyclic {n : String} : Relation.TransGen means.Refers n n → Astray n (.cyclicReference n)

/-- A name from which all references can be followed to an end, through names that stand for
something. -/
inductive Founded : String → Prop
  | intro {n : String} : (∃ f, means n f) → (∀ m, means.Refers n m → Founded m) → Founded n

variable {means} {f : Formula} {m n : String} {why : InputFault}

theorem Founded.of_refers (h : means.Founded m) (hmn : means.Refers m n) : means.Founded n := by
  cases h with
  | intro _ hnext => exact hnext n hmn

theorem Founded.of_leads (h : means.Founded m) (hmn : Relation.ReflTransGen means.Refers m n) :
    means.Founded n := by
  induction hmn with
  | refl => exact h
  | tail _ hstep ih => exact ih.of_refers hstep

/-- References cannot be followed to an end from a name that leads back to itself. -/
theorem Founded.not_cyclic (h : means.Founded n) : ¬ Relation.TransGen means.Refers n n := by
  induction h with
  | intro _ _ ih =>
    intro hcycle
    -- the cycle passes through the next name as well
    obtain ⟨m, hfirst, hback⟩ := Relation.TransGen.head'_iff.mp hcycle
    exact ih m hfirst (Relation.TransGen.tail' hback hfirst)

theorem Founded.not_astray (h : means.Founded n) : ¬ means.Astray n why := by
  intro hastray
  cases hastray with
  | unresolved hnone =>
    cases h with
    | intro hsome _ =>
      obtain ⟨f, hf⟩ := hsome
      exact hnone f hf
  | cyclic hcycle => exact h.not_cyclic hcycle

end Naming

/-! ### Full expansion -/

namespace Formula

section

variable (means : Naming)

mutual

/-- The full expansion of a formula: a reference gives way to the expansion of what its name stands
for, and all else stays as it is. -/
inductive Expands : Formula → Formula → Prop
  | leaf (l : Leaf) : Expands (.leaf l) (.leaf l)
  | all {ps qs : List Formula} : ExpandsAll ps qs → Expands (.all ps) (.all qs)
  | any {ps qs : List Formula} : ExpandsAll ps qs → Expands (.any ps) (.any qs)
  | negate {f g : Formula} : Expands f g → Expands (.negate f) (.negate g)
  | implies {c c' d d' : Formula} :
      Expands c c' → Expands d d' → Expands (.implies c d) (.implies c' d')
  | reference {n : String} {f g : Formula} : means n f → Expands f g → Expands (.reference n) g

inductive ExpandsAll : List Formula → List Formula → Prop
  | nil : ExpandsAll [] []
  | cons {f g : Formula} {fs gs : List Formula} :
      Expands f g → ExpandsAll fs gs → ExpandsAll (f :: fs) (g :: gs)

end

end

variable {means means' : Naming}

mutual

/-- A formula has one full expansion. -/
theorem Expands.unique (hunique : means.Unique) {f g g' : Formula} :
    Expands means f g → Expands means f g' → g = g'
  | .leaf l, .leaf _ => rfl
  | .all h, .all h' | .any h, .any h' => by rw [ExpandsAll.unique hunique h h']
  | .negate h, .negate h' => by rw [Expands.unique hunique h h']
  | .implies hc hd, .implies hc' hd' => by
    rw [Expands.unique hunique hc hc', Expands.unique hunique hd hd']
  | .reference hn h, .reference hn' h' => by
    cases hunique _ _ _ hn hn'
    exact Expands.unique hunique h h'

theorem ExpandsAll.unique (hunique : means.Unique) {fs gs gs' : List Formula} :
    ExpandsAll means fs gs → ExpandsAll means fs gs' → gs = gs'
  | .nil, .nil => rfl
  | .cons h hs, .cons h' hs' => by
    rw [Expands.unique hunique h h', ExpandsAll.unique hunique hs hs']

end

mutual

/-- An expansion stays what it is when more names come to stand for something. -/
theorem Expands.mono (hmeans : ∀ n f, means n f → means' n f) {f g : Formula} :
    Expands means f g → Expands means' f g
  | .leaf l => .leaf l
  | .all h => .all (ExpandsAll.mono hmeans h)
  | .any h => .any (ExpandsAll.mono hmeans h)
  | .negate h => .negate (Expands.mono hmeans h)
  | .implies hc hd => .implies (Expands.mono hmeans hc) (Expands.mono hmeans hd)
  | .reference hn h => .reference (hmeans _ _ hn) (Expands.mono hmeans h)

theorem ExpandsAll.mono (hmeans : ∀ n f, means n f → means' n f) {fs gs : List Formula} :
    ExpandsAll means fs gs → ExpandsAll means' fs gs
  | .nil => .nil
  | .cons h hs => .cons (Expands.mono hmeans h) (ExpandsAll.mono hmeans hs)

end

mutual

/-- No references are left. -/
theorem Expands.references_eq_nil {f g : Formula} : Expands means f g → g.references = []
  | .leaf l => rfl
  | .all h | .any h => ExpandsAll.references_eq_nil h
  | .negate h => by
    rw [references]
    exact Expands.references_eq_nil h
  | .implies hc hd => by
    rw [references, Expands.references_eq_nil hc, Expands.references_eq_nil hd]
    rfl
  | .reference _ h => Expands.references_eq_nil h

theorem ExpandsAll.references_eq_nil {fs gs : List Formula} :
    ExpandsAll means fs gs → referencesOf gs = []
  | .nil => rfl
  | .cons h hs => by
    rw [referencesOf, Expands.references_eq_nil h, ExpandsAll.references_eq_nil hs]
    rfl

end

mutual

/-- All references of a formula that expands can be followed to an end. -/
theorem Expands.founded (hunique : means.Unique) {f g : Formula} :
    Expands means f g → ∀ n ∈ f.references, means.Founded n
  | .leaf l => fun n hn => by cases hn
  | .all h | .any h => ExpandsAll.founded hunique h
  | .negate h => by
    rw [references]
    exact Expands.founded hunique h
  | .implies hc hd =>
    List.forall_mem_append.mpr ⟨Expands.founded hunique hc, Expands.founded hunique hd⟩
  | .reference hn h => by
    have hnext := Expands.founded hunique h
    refine List.forall_mem_singleton.mpr (.intro ⟨_, hn⟩ ?_)
    rintro m ⟨f', hn', hm⟩
    cases hunique _ _ _ hn hn'
    exact hnext m hm

theorem ExpandsAll.founded (hunique : means.Unique) {fs gs : List Formula} :
    ExpandsAll means fs gs → ∀ n ∈ referencesOf fs, means.Founded n
  | .nil => fun n hn => by cases hn
  | .cons h hs =>
    List.forall_mem_append.mpr ⟨Expands.founded hunique h, ExpandsAll.founded hunique hs⟩

end

theorem Expands.not_astray (hunique : means.Unique) {f g : Formula} (h : Expands means f g)
    {n : String} {why : InputFault} (hleads : means.LeadsTo f n) : ¬ means.Astray n why := by
  obtain ⟨m, hm, hmn⟩ := hleads
  exact ((h.founded hunique m hm).of_leads hmn).not_astray

end Formula

/-! ### Tables -/

namespace NameTable

open Formula (Expands ExpandsAll)

/-- What the names of a table stand for. -/
def Means (table : NameTable) : Naming := fun n f => table[n]? = some f

variable {table : NameTable} {means : Naming} {f g : Formula} {fault : Fault}

theorem unique_means (table : NameTable) : table.Means.Unique :=
  fun _ _ _ hf hf' => Option.some.inj (hf.symm.trans hf')

mutual

theorem expands_of_replace {expand : String → Except Fault Formula}
    (hexpand : ∀ n g, expand n = .ok g → Expands means (.reference n) g) :
    (f : Formula) → ∀ {g}, replace expand f = .ok g → Expands means f g
  | .leaf l, g, h => by
    cases h
    exact .leaf l
  | .all ps, g, h => by
    obtain ⟨qs, hqs, h⟩ := Outcome.bind_eq_ok.mp h
    cases h
    exact .all (expandsAll_of_replaceAll hexpand ps hqs)
  | .any ps, g, h => by
    obtain ⟨qs, hqs, h⟩ := Outcome.bind_eq_ok.mp h
    cases h
    exact .any (expandsAll_of_replaceAll hexpand ps hqs)
  | .negate f, g, h => by
    obtain ⟨q, hq, h⟩ := Outcome.bind_eq_ok.mp h
    cases h
    exact .negate (expands_of_replace hexpand f hq)
  | .implies c d, g, h => by
    obtain ⟨p, hp, h⟩ := Outcome.bind_eq_ok.mp h
    obtain ⟨q, hq, h⟩ := Outcome.bind_eq_ok.mp h
    cases h
    exact .implies (expands_of_replace hexpand c hp) (expands_of_replace hexpand d hq)
  | .reference n, g, h => hexpand n g h

theorem expandsAll_of_replaceAll {expand : String → Except Fault Formula}
    (hexpand : ∀ n g, expand n = .ok g → Expands means (.reference n) g) :
    (fs : List Formula) → ∀ {gs}, replaceAll expand fs = .ok gs → ExpandsAll means fs gs
  | [], gs, h => by
    cases h
    exact .nil
  | f :: fs, gs, h => by
    obtain ⟨q, hq, h⟩ := Outcome.bind_eq_ok.mp h
    obtain ⟨qs, hqs, h⟩ := Outcome.bind_eq_ok.mp h
    cases h
    exact .cons (expands_of_replace hexpand f hq) (expandsAll_of_replaceAll hexpand fs hqs)

end

mutual

/-- Replacing fails only where expanding one of the references does. -/
theorem exists_reference_of_error {expand : String → Except Fault Formula} :
    (f : Formula) → replace expand f = .error fault → ∃ n ∈ f.references, expand n = .error fault
  | .leaf l, h => by cases h
  | .all ps, h | .any ps, h => by
    rcases Outcome.bind_eq_error.mp h with h | ⟨qs, -, h⟩
    · exact exists_reference_of_errorAll ps h
    · cases h
  | .negate f, h => by
    rcases Outcome.bind_eq_error.mp h with h | ⟨q, -, h⟩
    · exact exists_reference_of_error f h
    · cases h
  | .implies c d, h => by
    rcases Outcome.bind_eq_error.mp h with h | ⟨p, -, h⟩
    · obtain ⟨n, hn, hfault⟩ := exists_reference_of_error c h
      exact ⟨n, List.mem_append_left _ hn, hfault⟩
    · rcases Outcome.bind_eq_error.mp h with h | ⟨q, -, h⟩
      · obtain ⟨n, hn, hfault⟩ := exists_reference_of_error d h
        exact ⟨n, List.mem_append_right _ hn, hfault⟩
      · cases h
  | .reference n, h => ⟨n, List.mem_cons_self, h⟩

theorem exists_reference_of_errorAll {expand : String → Except Fault Formula} :
    (fs : List Formula) → replaceAll expand fs = .error fault →
      ∃ n ∈ Formula.referencesOf fs, expand n = .error fault
  | [], h => by cases h
  | f :: fs, h => by
    rcases Outcome.bind_eq_error.mp h with h | ⟨q, -, h⟩
    · obtain ⟨n, hn, hfault⟩ := exists_reference_of_error f h
      exact ⟨n, List.mem_append_left _ hn, hfault⟩
    · rcases Outcome.bind_eq_error.mp h with h | ⟨qs, -, h⟩
      · obtain ⟨n, hn, hfault⟩ := exists_reference_of_errorAll fs h
        exact ⟨n, List.mem_append_right _ hn, hfault⟩
      · cases h

end

theorem expands_of_expand {room : Nat} {path : List String} {n : String}
    (h : table.expand room path n = .ok g) : Expands table.Means (.reference n) g := by
  induction room generalizing path n g with
  | zero => cases h
  | succ room ih =>
    rw [expand] at h
    split at h
    · cases h
    · rename_i f hfound
      split at h
      · cases h
      · exact .reference hfound (expands_of_replace (fun n g => ih) f h)

/-- A path of different names of a table is no longer than the table. -/
theorem length_path_le {path : List String} (hnodup : path.Nodup)
    (hknown : ∀ p ∈ path, p ∈ table) : path.length ≤ table.size := by
  have hsub : path ⊆ table.keys := by
    intro p hp
    exact Std.TreeMap.mem_keys.mpr (hknown p hp)
  rw [← Std.TreeMap.length_keys]
  exact (List.subperm_of_subset hnodup hsub).length_le

/-- Expanding a name fails only where references lead astray.  The names on the path are different,
and each leads to the name; so the path is never as long as the room that it was given. -/
theorem expand_eq_error {room : Nat} {path : List String} {n : String}
    (hpath : ∀ p ∈ path, Relation.TransGen table.Means.Refers p n) (hnodup : path.Nodup)
    (hknown : ∀ p ∈ path, p ∈ table) (hroom : table.size < path.length + room)
    (h : table.expand room path n = .error fault) :
    ∃ m why, Relation.ReflTransGen table.Means.Refers n m ∧ table.Means.Astray m why ∧
      fault = .input why := by
  induction room generalizing path n with
  | zero =>
    have hle := length_path_le hnodup hknown
    omega
  | succ room ih =>
    rw [expand] at h
    split at h
    · rename_i hnone
      cases h
      refine ⟨n, _, .refl, .unresolved fun f hf => ?_, rfl⟩
      rw [Means, hnone] at hf
      cases hf
    · rename_i f hfound
      split at h
      · rename_i hmem
        cases h
        exact ⟨n, _, .refl, .cyclic (hpath n (List.contains_iff_mem.mp hmem)), rfl⟩
      · rename_i hmem
        obtain ⟨m, hm, hfault⟩ := exists_reference_of_error f h
        have hstep : table.Means.Refers n m := ⟨f, hfound, hm⟩
        have hnew : n ∉ path := fun hin => hmem (List.contains_iff_mem.mpr hin)
        have hlonger : ∀ p ∈ n :: path, Relation.TransGen table.Means.Refers p m :=
          List.forall_mem_cons.mpr ⟨.single hstep, fun p hp => (hpath p hp).tail hstep⟩
        have hin : n ∈ table := Std.TreeMap.mem_iff_isSome_getElem?.mpr (by simp [hfound])
        have hroom' : table.size < (n :: path).length + room := by rw [List.length_cons]; omega
        obtain ⟨k, why, hk, hastray, heq⟩ := ih hlonger (List.nodup_cons.mpr ⟨hnew, hnodup⟩)
          (List.forall_mem_cons.mpr ⟨hin, hknown⟩) hroom' hfault
        exact ⟨k, why, .head hstep hk, hastray, heq⟩

/-- **Resolving fails only where references lead astray**, and names the name where they do. -/
theorem resolve_eq_error (h : table.resolve f = .error fault) :
    ∃ n why, table.Means.LeadsTo f n ∧ table.Means.Astray n why ∧ fault = .input why := by
  obtain ⟨m, hm, hfault⟩ := exists_reference_of_error f h
  obtain ⟨n, why, hmn, hastray, heq⟩ := expand_eq_error (by simp) List.nodup_nil (by simp)
    (by simp) hfault
  exact ⟨n, why, ⟨m, hm, hmn⟩, hastray, heq⟩

/-- **A formula is resolved to its full expansion**, and has one if it is resolved. -/
theorem resolve_eq_ok_iff : table.resolve f = .ok g ↔ Expands table.Means f g := by
  have hexpands : ∀ g, table.resolve f = .ok g → Expands table.Means f g :=
    fun g h => expands_of_replace (fun n g => expands_of_expand) f h
  constructor
  · exact hexpands g
  · intro h
    cases hresolve : table.resolve f with
    | error fault =>
      obtain ⟨n, why, hleads, hastray, -⟩ := resolve_eq_error hresolve
      exact absurd hastray (h.not_astray table.unique_means hleads)
    | ok g' => rw [h.unique table.unique_means (hexpands g' hresolve)]

/-- A formula without a full expansion leads astray. -/
theorem exists_resolve_error_iff :
    (∃ fault, table.resolve f = .error fault) ↔
      ∃ n why, table.Means.LeadsTo f n ∧ table.Means.Astray n why := by
  constructor
  · rintro ⟨fault, h⟩
    obtain ⟨n, why, hleads, hastray, -⟩ := resolve_eq_error h
    exact ⟨n, why, hleads, hastray⟩
  · rintro ⟨n, why, hleads, hastray⟩
    cases hresolve : table.resolve f with
    | error fault => exact ⟨fault, rfl⟩
    | ok g =>
      exact absurd hastray
        ((resolve_eq_ok_iff.mp hresolve).not_astray table.unique_means hleads)

end NameTable

end KnowledgeBase
