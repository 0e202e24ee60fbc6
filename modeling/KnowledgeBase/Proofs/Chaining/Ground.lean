import KnowledgeBase.Proofs.Chaining.Depth
import KnowledgeBase.Proofs.Statement.Words

/-!
# The ground fragment

Goals without holes, and rules whose conditions have no holes left once a conclusion is matched.

* `Leaf.Ground`, `Rule.Ground`: the fragment; names are plain, so that goals can be told apart by
  how they are written (`Ground.text_injective`);
* `exists_matchTerms?`: a conclusion with an instance that is the goal does match the goal, and
  binds its holes to names of the goal (`matchTerms?_binds`);
* `ground_substitute`: the leaves of a condition are ground goals then;
* `solves_solve`: such a condition has a solution exactly if it holds where its leaves are proved.
-/

namespace KnowledgeBase

/-! ### Plain names -/

namespace Text

/-- A text without blanks, double quotes and the separator of composed keys. -/
def Plain (s : String) : Prop := ∀ c ∈ s.toList, isBlank c = false ∧ c ≠ '"' ∧ c ≠ '\x1f'

instance (s : String) : Decidable (Plain s) :=
  List.decidableBAll (fun c => isBlank c = false ∧ c ≠ '"' ∧ c ≠ '\x1f') s.toList

variable {s : String}

theorem Plain.clean (h : Plain s) : Clean s := by
  intro hmem
  exact (h _ hmem).2.2 rfl

theorem Plain.no_space (h : Plain s) : ' ' ∉ s.toList := by
  intro hmem
  have hblank := (h _ hmem).1
  simp [isBlank] at hblank

theorem Plain.no_quote (h : Plain s) : '"' ∉ s.toList := by
  intro hmem
  exact (h _ hmem).2.1 rfl

end Text

/-! ### Ground goals -/

/-- The term is no hole, and its name is plain. -/
def Term.Ground (a : Term) : Prop := a.isHole = false ∧ Text.Plain a.name

instance (a : Term) : Decidable a.Ground :=
  inferInstanceAs (Decidable (a.isHole = false ∧ Text.Plain a.name))

/-- Terms without blanks inside are written differently if they are different. -/
theorem Term.Ground.text_injective {a a' : Term} (h : a.Ground) (h' : a'.Ground)
    (heq : a.text = a'.text) : a = a' := by
  have hl := congrArg String.toList heq
  have hq := h.2.no_quote
  have hq' := h'.2.no_quote
  cases a with
  | hole n => cases h.1
  | ident n =>
    cases a' with
    | hole n' => cases h'.1
    | ident n' => exact congrArg Term.ident heq
    | literal n' =>
      simp only [Term.text, Term.name, String.toList_append] at hl hq
      simp [hl] at hq
  | literal n =>
    cases a' with
    | hole n' => cases h'.1
    | ident n' =>
      simp only [Term.text, Term.name, String.toList_append] at hl hq'
      simp [← hl] at hq'
    | literal n' =>
      simp only [Term.text, String.toList_append] at hl
      simp [String.toList_inj] at hl
      exact congrArg Term.literal hl

theorem Term.Ground.no_space {a : Term} (h : a.Ground) : ' ' ∉ a.text.toList := by
  have hs := h.2.no_space
  cases a with
  | hole n => cases h.1
  | ident n => exact hs
  | literal n =>
    simp only [Term.text, Term.name, String.toList_append] at hs ⊢
    simp [hs]

namespace Leaf

/-- What a leaf without holes states. -/
def atom (g : Leaf) : Atom := ⟨g.op, g.args.map Term.name⟩

/-- An operator and at least one argument, all names being plain. -/
structure Plain (l : Leaf) : Prop where
  op_ne : l.op ≠ ""
  args_ne : l.args ≠ []
  op : Text.Plain l.op
  names : ∀ a ∈ l.args, Text.Plain a.name

instance (l : Leaf) : Decidable l.Plain :=
  decidable_of_iff (l.op ≠ "" ∧ l.args ≠ [] ∧ Text.Plain l.op ∧ ∀ a ∈ l.args, Text.Plain a.name)
    ⟨fun ⟨h₁, h₂, h₃, h₄⟩ => ⟨h₁, h₂, h₃, h₄⟩, fun h => ⟨h.op_ne, h.args_ne, h.op, h.names⟩⟩

/-- A plain leaf without holes. -/
structure Ground (g : Leaf) : Prop where
  plain : g.Plain
  not_hole : ∀ a ∈ g.args, a.isHole = false

instance (g : Leaf) : Decidable g.Ground :=
  decidable_of_iff (g.Plain ∧ ∀ a ∈ g.args, a.isHole = false)
    ⟨fun ⟨h₁, h₂⟩ => ⟨h₁, h₂⟩, fun h => ⟨h.plain, h.not_hole⟩⟩

variable {g g' l : Leaf}

theorem Ground.args (h : g.Ground) : ∀ a ∈ g.args, a.Ground := by
  intro a ha
  exact ⟨h.not_hole a ha, h.plain.names a ha⟩

/-- Words that are set off by spaces are told apart. -/
theorem words_injective {x y : List Char} {as bs : List Term} (hx : ' ' ∉ x) (hy : ' ' ∉ y)
    (has : ∀ a ∈ as, a.Ground) (hbs : ∀ b ∈ bs, b.Ground)
    (h : x ++ as.flatMap (fun a => ' ' :: a.text.toList) =
      y ++ bs.flatMap fun b => ' ' :: b.text.toList) : x = y ∧ as = bs := by
  induction as generalizing x y bs with
  | nil =>
    cases bs with
    | nil =>
      simp at h
      exact ⟨h, rfl⟩
    | cons b bs =>
      simp at h
      simp [h] at hx
  | cons a as ih =>
    cases bs with
    | nil =>
      simp at h
      simp [← h] at hy
    | cons b bs =>
      rw [List.forall_mem_cons] at has hbs
      simp only [List.flatMap_cons, List.cons_append] at h
      obtain ⟨hxy, hrest⟩ := cut_unique hx hy h
      obtain ⟨htext, htail⟩ := ih has.1.no_space hbs.1.no_space has.2 hbs.2 hrest
      have hab : a = b := has.1.text_injective hbs.1 (String.toList_inj.mp htext)
      exact ⟨hxy, by rw [hab, htail]⟩

/-- **Ground goals that are written alike are the same goal.** -/
theorem Ground.text_injective (h : g.Ground) (h' : g'.Ground) (heq : g.text = g'.text) :
    g = g' := by
  have hl := congrArg String.toList heq
  rw [toList_text, toList_text] at hl
  obtain ⟨hop, hargs⟩ :=
    words_injective h.plain.op.no_space h'.plain.op.no_space h.args h'.args hl
  cases g
  cases g'
  simp_all [String.toList_inj]

/-- The texts of a ground goal are its names. -/
theorem Ground.goalTexts_eq (h : g.Ground) : Proof.goalTexts g = g.args.map Term.name :=
  Proof.goalTexts_eq h.not_hole

/-- Nothing is put into a ground goal. -/
theorem Ground.isBound (h : g.Ground) (b : Bindings) : g.isBound b = true := by
  refine List.all_eq_true.mpr fun n hn => ?_
  obtain ⟨a, ha, -⟩ := List.mem_map.mp hn
  obtain ⟨hmem, hhole⟩ := List.mem_filter.mp ha
  rw [h.not_hole a hmem] at hhole
  cases hhole

theorem Ground.substitute_eq (h : g.Ground) (b : Bindings) : g.substitute b = g := by
  have hargs : (g.substitute b).args = g.args := by
    refine (List.map_congr_left fun a ha => ?_).trans (List.map_id g.args)
    have hhole := h.not_hole a ha
    cases a with
    | hole n => cases hhole
    | ident n | literal n => rfl
  cases g
  exact congrArg (Leaf.mk _) hargs

end Leaf

/-! ### Rules of the fragment -/

namespace Formula

mutual

/-- Built from leaves by conjunction and disjunction. -/
def isPositive : Formula → Bool
  | leaf _ => true
  | all ps | any ps => arePositive ps
  | negate _ | implies .. | reference _ => false

def arePositive : List Formula → Bool
  | [] => true
  | f :: fs => isPositive f && arePositive fs

end

end Formula

/-- The condition is positive and plain, and matching any conclusion binds all of its holes. -/
def Rule.Ground (r : Rule) : Prop :=
  ∀ f ∈ r.condition, f.isPositive = true ∧
    ∀ l ∈ f.leaves, l.Plain ∧ ∀ c ∈ r.conclusions, ∀ n ∈ l.holes, n ∈ c.holes

instance (r : Rule) : Decidable r.Ground :=
  inferInstanceAs (Decidable (∀ f ∈ r.condition, f.isPositive = true ∧
    ∀ l ∈ f.leaves, l.Plain ∧ ∀ c ∈ r.conclusions, ∀ n ∈ l.holes, n ∈ c.holes))

namespace Proof

open Bindings

variable {σ : String → String}

/-! ### Matching -/

/-- Terms match texts that are an instance of them. -/
theorem exists_matchTerms? {ts : List Term} {as : List String} {b : Bindings} (hσ : Agrees σ b)
    (h : ts.map (Term.under σ) = as) : ∃ b', matchTerms? ts as b = some b' ∧ Agrees σ b' := by
  induction ts generalizing as b with
  | nil =>
    subst h
    exact ⟨b, rfl, hσ⟩
  | cons t ts ih =>
    subst h
    rw [List.map_cons]
    cases t with
    | hole n =>
      obtain ⟨b₁, hb₁, hσ₁⟩ := exists_bind? (n := n) hσ rfl
      obtain ⟨b', hb', hσ'⟩ := ih hσ₁ rfl
      refine ⟨b', ?_, hσ'⟩
      show (b.bind? n (σ n)).bind _ = _
      rw [hb₁]
      exact hb'
    | ident n | literal n =>
      obtain ⟨b', hb', hσ'⟩ := ih hσ rfl
      refine ⟨b', ?_, hσ'⟩
      rw [matchTerms?_fixed rfl]
      exact (if_pos rfl).trans hb'

/-- A match binds every hole of the terms, to texts that were matched. -/
theorem matchTerms?_binds {ts : List Term} {as : List String} {b b' : Bindings}
    (h : matchTerms? ts as b = some b') :
    (∀ n, .hole n ∈ ts → b'.has n = true) ∧
      ∀ n v, b'.get? n = some v → b.get? n = some v ∨ v ∈ as := by
  induction ts generalizing as b with
  | nil =>
    cases as with
    | nil =>
      cases h
      exact ⟨nofun, fun n v hv => .inl hv⟩
    | cons a as => cases h
  | cons t ts ih =>
    cases as with
    | nil => cases t <;> cases h
    | cons a as =>
      cases t with
      | hole m =>
        obtain ⟨b₁, hb₁, h⟩ := Option.bind_eq_some_iff.mp h
        have hm : b'.get? m = some a := (matchTerms?_sound h).1 m a (bind?_eq_some hb₁).2
        obtain ⟨hholes, hvalues⟩ := ih h
        constructor
        · intro n hn
          rcases List.mem_cons.mp hn with heq | hn
          · cases heq
            simp [Bindings.has, hm]
          · exact hholes n hn
        · intro n v hv
          rcases hvalues n v hv with hv | hv
          · rcases get?_of_bind? hb₁ hv with hv | ⟨-, rfl⟩
            · exact .inl hv
            · exact .inr List.mem_cons_self
          · exact .inr (List.mem_cons_of_mem _ hv)
      | ident m | literal m =>
        rw [matchTerms?_fixed rfl] at h
        split at h
        · obtain ⟨hholes, hvalues⟩ := ih h
          constructor
          · intro n hn
            rcases List.mem_cons.mp hn with heq | hn
            · cases heq
            · exact hholes n hn
          · intro n v hv
            exact (hvalues n v hv).imp_right (List.mem_cons_of_mem _)
        · cases h

/-- Bindings to plain values. -/
def PlainValues (b : Bindings) : Prop := ∀ n v, b.get? n = some v → Text.Plain v

section

variable {g c l : Leaf} {b : Bindings}

/-- A conclusion with an instance that is the goal matches it. -/
theorem exists_matchConclusion? (hg : g.Ground) (h : c.under σ = g.atom) :
    ∃ b, matchConclusion? g c = some b ∧ Agrees σ b := by
  have hop : c.op = g.op := congrArg Atom.op h
  have hargs : c.args.map (Term.under σ) = goalTexts g := by
    rw [hg.goalTexts_eq]
    exact congrArg Atom.args h
  have hempty : Agrees σ .empty := nofun
  obtain ⟨b, hb, hσ⟩ := exists_matchTerms? hempty hargs
  refine ⟨b, ?_, hσ⟩
  unfold matchConclusion?
  rw [if_neg (by simp [hop, hg.plain.op_ne, hg.plain.args_ne])]
  exact hb

/-- A conclusion that matches a ground goal has its holes bound to plain names. -/
theorem matchConclusion?_binds (hg : g.Ground) (h : matchConclusion? g c = some b) :
    (∀ n ∈ c.holes, b.has n = true) ∧ PlainValues b := by
  unfold matchConclusion? at h
  split at h
  · cases h
  · obtain ⟨hholes, hvalues⟩ := matchTerms?_binds h
    constructor
    · intro n hn
      obtain ⟨a, ha, rfl⟩ := List.mem_map.mp hn
      obtain ⟨hmem, hhole⟩ := List.mem_filter.mp ha
      cases a with
      | hole m => exact hholes m hmem
      | ident _ | literal _ => cases hhole
    · intro n v hv
      rcases hvalues n v hv with hv | hv
      · cases hv
      · rw [hg.goalTexts_eq] at hv
        obtain ⟨a, ha, rfl⟩ := List.mem_map.mp hv
        exact (hg.args a ha).2

/-- A plain leaf without free holes is a ground goal. -/
theorem ground_substitute (hl : l.Plain) (hbound : l.isBound b = true) (hb : PlainValues b) :
    (l.substitute b).Ground := by
  have hnames : ∀ a ∈ (l.substitute b).args, Text.Plain a.name := by
    intro a ha
    obtain ⟨t, ht, rfl⟩ := List.mem_map.mp ha
    cases t with
    | ident n | literal n => exact hl.names _ ht
    | hole n =>
      obtain ⟨v, hv⟩ := get?_of_isBound hbound ht
      have hplain := hb n v hv
      show Text.Plain (((b.get? n).map Leaf.ofValue).getD (.hole n)).name
      rw [hv]
      show Text.Plain (Leaf.ofValue v).name
      unfold Leaf.ofValue
      split <;> exact hplain
  refine ⟨⟨hl.op_ne, ?_, hl.op, hnames⟩, isHole_substitute hbound⟩
  intro hnil
  exact hl.args_ne (List.map_eq_nil_iff.mp hnil)

/-- With its values put in, a leaf without free holes states its instance. -/
theorem atom_substitute (hbound : l.isBound b = true) (hσ : Agrees σ b) :
    (l.substitute b).atom = l.under σ := by
  rw [substitute_under hbound hσ, goalTexts_eq (isHole_substitute hbound)]
  rfl

end

/-! ### Conditions -/

namespace Theory

open Search

variable {t : Theory} {prove : Leaf → Search (Option Certificate)} {P Q : Atom → Prop}
variable {b : Bindings}

/-- The search for a goal ends, with a certificate if `p` holds, and only if `q` does. -/
def Judges (p q : Prop) (x : Search (Option Certificate)) : Prop :=
  ∃ c, x.value = .ok c ∧ (p → c.isSome = true) ∧ (c.isSome = true → q)

/-- The search for solutions ends.  They keep the bindings; there are some if `p` holds, and only
if `q` does. -/
def Solves (b : Bindings) (p q : Prop) (x : Search (List Solution)) : Prop :=
  ∃ sols, x.value = .ok sols ∧ (∀ s ∈ sols, s.bindings = b) ∧ (p → sols ≠ []) ∧ (sols ≠ [] → q)

/-- The leaf has no free holes, and its goal is judged. -/
def Ready (prove : Leaf → Search (Option Certificate)) (P Q : Atom → Prop) (σ : String → String)
    (b : Bindings) (l : Leaf) : Prop :=
  l.isBound b = true ∧ Judges (P (l.under σ)) (Q (l.under σ)) (prove (l.substitute b))

theorem solves_solveLeaf {l : Leaf} (hl : Ready prove P Q σ b l) {s : Solution}
    (hs : s.bindings = b) : Solves b (P (l.under σ)) (Q (l.under σ)) (t.solveLeaf prove l s) := by
  subst hs
  obtain ⟨hbound, c, hc, hcomplete, hsound⟩ := hl
  unfold solveLeaf
  rw [if_pos hbound]
  cases c with
  | none =>
    refine ⟨[], bind_eq_ok.mpr ⟨none, hc, rfl⟩, by simp, ?_, by simp⟩
    intro hp
    cases hcomplete hp
  | some c =>
    refine ⟨_, bind_eq_ok.mpr ⟨some c, hc, rfl⟩, ?_, by simp, fun _ => hsound rfl⟩
    intro s' hs'
    rw [List.mem_singleton.mp hs']
    rfl

/-- What is gathered up to the cap. -/
theorem solves_gather {α : Type} {f : α → Search (List Solution)} {as : List α} {p q : α → Prop}
    (h : ∀ a ∈ as, Solves b (p a) (q a) (f a)) :
    Solves b (∃ a ∈ as, p a) (∃ a ∈ as, q a) (gather maxSolutions f as []) := by
  have hends : (gather maxSolutions f as []).Ends := by
    refine Ends.gather (fun a ha => ?_) []
    obtain ⟨sols, hsols, -⟩ := h a ha
    exact ⟨sols, hsols⟩
  obtain ⟨out, hout⟩ := hends
  have hnil := gather_eq_nil (by decide) hout
  refine ⟨out, hout, ?_, ?_, ?_⟩
  · intro s hs
    rcases mem_of_gather hout hs with hs | ⟨a, ha, sols, hsols, hs⟩
    · cases hs
    · obtain ⟨sols', hsols', hb, -⟩ := h a ha
      rw [hsols] at hsols'
      cases hsols'
      exact hb s hs
  · rintro ⟨a, ha, hp⟩ heq
    obtain ⟨sols, hsols, -, hcomplete, -⟩ := h a ha
    have hempty := (hnil.mp heq).2 a ha
    rw [hsols] at hempty
    cases hempty
    exact hcomplete hp rfl
  · intro hne
    by_contra hq
    refine hne (hnil.mpr ⟨rfl, fun a ha => ?_⟩)
    obtain ⟨sols, hsols, -, -, hsound⟩ := h a ha
    have hempty : sols = [] := by
      by_contra hsome
      exact hq ⟨a, ha, hsound hsome⟩
    rw [hsols, hempty]

/-- From any solution with the given bindings, a condition is solved. -/
def SolvedAt (t : Theory) (prove : Leaf → Search (Option Certificate)) (P Q : Atom → Prop)
    (σ : String → String) (b : Bindings) (f : Formula) : Prop :=
  ∀ s : Solution, s.bindings = b → Solves b (f.Holds P σ) (f.Holds Q σ) (t.solve prove f s)

/-- A conjunction goes on from what its first parts leave, and ends if they leave nothing. -/
theorem solves_solveAll {fs : List Formula} (hfs : ∀ f ∈ fs, SolvedAt t prove P Q σ b f)
    {partials : List Solution} (hne : partials ≠ []) (hb : ∀ s ∈ partials, s.bindings = b) :
    Solves b (Formula.HoldsAll P σ fs) (Formula.HoldsAll Q σ fs)
      (t.solveAll prove fs partials) := by
  induction fs generalizing partials with
  | nil =>
    unfold solveAll Formula.HoldsAll
    exact ⟨partials, rfl, hb, fun _ => hne, fun _ => trivial⟩
  | cons f fs ih =>
    rw [List.forall_mem_cons] at hfs
    obtain ⟨hf, hfs⟩ := hfs
    obtain ⟨p, hp⟩ := List.exists_mem_of_ne_nil partials hne
    obtain ⟨next, hnext, hkept, hcomplete, hsound⟩ :=
      solves_gather fun s hs => hf s (hb s hs)
    unfold solveAll Formula.HoldsAll
    cases next with
    | nil =>
      refine ⟨[], bind_eq_ok.mpr ⟨[], hnext, rfl⟩, by simp, ?_, by simp⟩
      rintro ⟨hholds, -⟩
      exact (hcomplete ⟨p, hp, hholds⟩ rfl).elim
    | cons s next =>
      obtain ⟨sols, hsols, hkept', hcomplete', hsound'⟩ := ih hfs (by simp) hkept
      refine ⟨sols, bind_eq_ok.mpr ⟨s :: next, hnext, hsols⟩, hkept', ?_, ?_⟩
      · rintro ⟨-, hrest⟩
        exact hcomplete' hrest
      · intro hsome
        obtain ⟨-, -, hholds⟩ := hsound (by simp)
        exact ⟨hholds, hsound' hsome⟩

mutual

/-- **A positive condition without free holes has a solution if it holds where goals must be
proved, and only if it holds where they may be.** -/
theorem solves_solve : (f : Formula) → f.isPositive = true →
    (∀ l ∈ f.leaves, Ready prove P Q σ b l) → SolvedAt t prove P Q σ b f
  | .leaf l, _, hl => by
    intro s hs
    unfold solve Formula.Holds
    exact solves_solveLeaf (hl l (by simp [Formula.leaves])) hs
  | .all ps, hpos, hl => by
    intro s hs
    unfold Formula.isPositive at hpos
    unfold Formula.leaves at hl
    unfold solve Formula.Holds
    exact solves_solveAll (solves_parts ps hpos hl) (by simp) (by simp [hs])
  | .any ps, hpos, hl => by
    intro s hs
    unfold Formula.isPositive at hpos
    unfold Formula.leaves at hl
    unfold solve Formula.Holds
    rw [solveAny_eq_gather, Formula.holdsAny_iff, Formula.holdsAny_iff]
    exact solves_gather fun f hf => solves_parts ps hpos hl f hf s hs
  | .negate _, hpos, _ | .implies _ _, hpos, _ | .reference _, hpos, _ => by cases hpos

theorem solves_parts : (fs : List Formula) → Formula.arePositive fs = true →
    (∀ l ∈ Formula.leavesOf fs, Ready prove P Q σ b l) →
    ∀ f ∈ fs, SolvedAt t prove P Q σ b f
  | [], _, _ => nofun
  | f :: fs, hpos, hl => by
    unfold Formula.arePositive at hpos
    unfold Formula.leavesOf at hl
    rw [Bool.and_eq_true] at hpos
    rw [List.forall_mem_append] at hl
    exact List.forall_mem_cons.mpr ⟨solves_solve f hpos.1 hl.1, solves_parts fs hpos.2 hl.2⟩

end

end Theory

end Proof

end KnowledgeBase
