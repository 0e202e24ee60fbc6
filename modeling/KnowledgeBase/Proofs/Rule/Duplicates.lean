import KnowledgeBase.Proofs.Chaining.Derivation
import KnowledgeBase.Proofs.Statement.Signature
import Mathlib.Algebra.Group.Nat.Defs

/-!
# Which rules count as repeated

A rule goes by the hash of its signature, and a statement whose rule has an id that is there already
is skipped.  Hashes aside, this loses a rule exactly where signatures are the same for different
formulas, and these are the same where runs of leaves are.

* `hex_injective`: a word is told by its digits, so ids are equal exactly if hashes are;
* `over_resolve`, `Reached.keyed`: formulas without references, over the leaves that went in, and
  the ids of the rules of a book;
* `OnlyRepeatsSkipped`: nothing is skipped but what repeats a rule;
* `only_repeats_skipped_iff`, `run_together`: when this is so, and a batch where it is not.
-/

namespace KnowledgeBase

/-! ### Ids -/

namespace Hash

theorem hexValue_hexDigit : ∀ n < 16, hexValue (hexDigit n) = n := by decide +kernel

/-- A number is told by its hexadecimal digits. -/
theorem eq_of_digits {a b k : Nat} (ha : a < 16 ^ k) (hb : b < 16 ^ k)
    (h : ∀ i < k, a >>> (4 * i) % 16 = b >>> (4 * i) % 16) : a = b := by
  induction k generalizing a b with
  | zero => omega
  | succ k ih =>
    have hlow : a % 16 = b % 16 := by simpa using h 0 (by omega)
    have hshift : ∀ x i, x >>> (4 * (i + 1)) = (x / 16) >>> (4 * i) := by
      intro x i
      rw [show 4 * (i + 1) = 4 + 4 * i by omega, Nat.shiftRight_add, Nat.shiftRight_eq_div_pow x 4]
    rw [Nat.pow_succ] at ha hb
    have hhigh : a / 16 = b / 16 := by
      refine ih (by omega) (by omega) fun i hi => ?_
      rw [← hshift, ← hshift]
      exact h (i + 1) (by omega)
    omega

theorem hex_injective {v w : UInt64} (h : hex v = hex w) : v = w := by
  refine UInt64.toNat_inj.mp (eq_of_digits (k := 16) v.toNat_lt w.toNat_lt fun i hi => ?_)
  have hdigits := List.map_inj_left.mp (String.ofList_injective h) (15 - i)
    (List.mem_range.mpr (by omega))
  rw [show 4 * (15 - (15 - i)) = 4 * i by omega] at hdigits
  rw [← hexValue_hexDigit _ (Nat.mod_lt _ (by decide)), hdigits,
    hexValue_hexDigit _ (Nat.mod_lt _ (by decide))]

/-- No two different texts of these have one hash. -/
def Apart (texts : List String) : Prop :=
  ∀ s ∈ texts, ∀ t ∈ texts, fnv1a s = fnv1a t → s = t

end Hash

/-! ### Expanded formulas -/

/-- The leaves of a statement are of a set. -/
def Statement.Over (L : Set Leaf) (s : Statement) : Prop :=
  ∀ f, s.formula = some f → ∀ l ∈ f.leaves, l ∈ L

namespace NameTable

open Formula (Over OverAll)

variable {L : Set Leaf} {table table' : NameTable} {batch : List Statement} {f g : Formula}

mutual

theorem over_replace {expand : String → Except Fault Formula}
    (hexpand : ∀ n g, expand n = .ok g → g.Over L) :
    (f : Formula) → (∀ l ∈ f.leaves, l ∈ L) → ∀ {g}, replace expand f = .ok g → g.Over L
  | .leaf l, hf, g, h => by
    cases h
    exact hf l (by simp [Formula.leaves])
  | .all ps, hf, g, h | .any ps, hf, g, h => by
    obtain ⟨qs, hqs, h⟩ := Outcome.bind_eq_ok.mp h
    cases h
    exact over_replaceAll hexpand ps hf hqs
  | .negate f, hf, g, h => by
    obtain ⟨q, hq, h⟩ := Outcome.bind_eq_ok.mp h
    cases h
    exact over_replace hexpand f hf (g := q) hq
  | .implies c d, hf, g, h => by
    obtain ⟨hc, hd⟩ := List.forall_mem_append.mp hf
    obtain ⟨p, hp, h⟩ := Outcome.bind_eq_ok.mp h
    obtain ⟨q, hq, h⟩ := Outcome.bind_eq_ok.mp h
    cases h
    exact ⟨over_replace hexpand c hc hp, over_replace hexpand d hd hq⟩
  | .reference n, _, g, h => hexpand n g h

theorem over_replaceAll {expand : String → Except Fault Formula}
    (hexpand : ∀ n g, expand n = .ok g → g.Over L) :
    (fs : List Formula) → (∀ l ∈ Formula.leavesOf fs, l ∈ L) →
      ∀ {gs}, replaceAll expand fs = .ok gs → OverAll L gs
  | [], _, gs, h => by
    cases h
    trivial
  | f :: fs, hfs, gs, h => by
    obtain ⟨hf, hfs⟩ := List.forall_mem_append.mp hfs
    obtain ⟨q, hq, h⟩ := Outcome.bind_eq_ok.mp h
    obtain ⟨qs, hqs, h⟩ := Outcome.bind_eq_ok.mp h
    cases h
    exact ⟨over_replace hexpand f hf hq, over_replaceAll hexpand fs hfs hqs⟩

end

mutual

/-- A formula without references is left as it is. -/
theorem replace_of_over {expand : String → Except Fault Formula} :
    (f : Formula) → f.Over L → replace expand f = .ok f
  | .leaf l, _ => rfl
  | .all ps, hf | .any ps, hf => by
    rw [replace, replaceAll_of_over ps hf]
    rfl
  | .negate f, hf => by
    rw [replace, replace_of_over f hf]
    rfl
  | .implies c d, hf => by
    rw [replace, replace_of_over c hf.1, replace_of_over d hf.2]
    rfl
  | .reference n, hf => hf.elim

theorem replaceAll_of_over {expand : String → Except Fault Formula} :
    (fs : List Formula) → OverAll L fs → replaceAll expand fs = .ok fs
  | [], _ => rfl
  | f :: fs, hfs => by
    rw [replaceAll, replace_of_over f hfs.1, replaceAll_of_over fs hfs.2]
    rfl

end

/-- A formula that is expanded has no references left, and its leaves are those that went in. -/
theorem over_resolve
    (htable : ∀ (n : String) (f : Formula), table[n]? = some f → ∀ l ∈ f.leaves, l ∈ L)
    (hf : ∀ l ∈ f.leaves, l ∈ L) (h : table.resolve f = .ok g) : g.Over L := by
  have hexpand : ∀ room path n g, table.expand room path n = .ok g → g.Over L := by
    intro room
    induction room with
    | zero =>
      intro path n g h
      cases h
    | succ room ih =>
      intro path n g h
      rw [expand] at h
      split at h
      · cases h
      · rename_i f hfound
        split at h
        · cases h
        · exact over_replace (ih _) f (htable n f hfound) h
  exact over_replace (hexpand _ _) f hf h

/-- A name that is entered stands for a formula of the batch. -/
theorem mem_enter (h : table.enter batch = .ok table') {n : String}
    (hfound : table'[n]? = some f) : table[n]? = some f ∨ ∃ s ∈ batch, s.formula = some f := by
  induction batch generalizing table with
  | nil =>
    cases h
    exact Or.inl hfound
  | cons s batch ih =>
    obtain ⟨name, formula⟩ := s
    cases formula with
    | none => cases h
    | some g =>
      rw [enter] at h
      split at h
      · exact (ih h).imp id fun ⟨s, hs, hsf⟩ => ⟨s, List.mem_cons_of_mem _ hs, hsf⟩
      · split at h
        · cases h
        · rcases ih h with hold | ⟨s, hs, hsf⟩
          · rw [Std.TreeMap.getElem?_insert] at hold
            split at hold
            · cases hold
              exact Or.inr ⟨_, List.mem_cons_self, rfl⟩
            · exact Or.inl hold
          · exact Or.inr ⟨s, List.mem_cons_of_mem _ hs, hsf⟩

/-- The implication that a statement comes to, if it comes to one. -/
def implication? (table : NameTable) (s : Statement) : Option (Formula × Formula) :=
  match s.formula.map table.resolve with
  | some (.ok (.implies c d)) => some (c, d)
  | _ => none

theorem implication?_eq_some {s : Statement} {c d : Formula} :
    table.implication? s = some (c, d) ↔
      ∃ f, s.formula = some f ∧ table.resolve f = .ok (.implies c d) := by
  unfold implication?
  constructor
  · intro h
    split at h
    · rename_i hmap
      cases h
      exact Option.map_eq_some_iff.mp hmap
    · cases h
  · rintro ⟨f, hf, hresolve⟩
    rw [hf, Option.map_some, hresolve]

end NameTable

/-! ### Books -/

namespace RuleBook

open NameTable (implication?)

/-- The leaves of the formulas that a book keeps are of a set. -/
structure Over (L : Set Leaf) (b : RuleBook) : Prop where
  names : ∀ (n : String) (f : Formula), b.table[n]? = some f → ∀ l ∈ f.leaves, l ∈ L
  rules : ∀ r ∈ b.rules, ∀ f : Formula, r.condition = some f ∨ r.conclusion = some f →
    ∀ l ∈ f.leaves, l ∈ L

/-- The signatures of the rules of a book, and of the implications of a batch. -/
def signatures (b : RuleBook) (table : NameTable) (batch : List Statement) : List String :=
  b.rules.map Rule.signature ++
    (batch.filterMap table.implication?).map fun i => Rule.signatureOf i.1 i.2

/-- A statement that comes to an implication gives a rule, unless the book, or the batch before it,
has a rule of the same condition and conclusion. -/
def OnlyRepeatsSkipped (b : RuleBook) (table : NameTable) (batch : List Statement) : Prop :=
  ∀ earlier s later before c d, batch = earlier ++ s :: later →
    table.implication? s = some (c, d) → b.collect table earlier [] = .ok before →
    b.collect table (earlier ++ [s]) [] = .ok before →
    ∃ r ∈ b.rules ++ before, r.condition = some c ∧ r.conclusion = some d

variable {L : Set Leaf} {b : RuleBook} {table : NameTable} {batch earlier : List Statement}
  {before added : List Rule} {s : Statement} {c d : Formula}

/-- The rule is that of an implication. -/
structure Keyed (c d : Formula) (r : Rule) : Prop where
  condition : r.condition = some c
  conclusion : r.conclusion = some d
  id : r.id = Rule.idOf c d

theorem keyed_ofImplication {algebra : Option Algebra} {name : String} {r : Rule}
    (h : Rule.ofImplication algebra name c d = .ok r) : Keyed c d r := by
  obtain ⟨vector, -, h⟩ := Outcome.bind_eq_ok.mp h
  cases h
  exact ⟨rfl, rfl, rfl⟩

theorem Keyed.signature {r : Rule} (h : Keyed c d r) : r.signature = Rule.signatureOf c d := by
  unfold Rule.signature
  rw [h.condition, h.conclusion]

/-- A rule of a book is that of an implication without references. -/
theorem Reached.keyed (h : b.Reached) (hover : b.Over L) :
    ∀ r ∈ b.rules, ∃ c d : Formula, Keyed c d r ∧ c.Over L ∧ d.Over L := by
  have hall : ∀ r ∈ b.rules, ∃ c d : Formula, Keyed c d r ∧
      c.Over Set.univ ∧ d.Over Set.univ := by
    refine h.forall_rules fun algebra table name f c d r hresolve hr => ?_
    have hf : (Formula.implies c d).Over Set.univ :=
      NameTable.over_resolve (fun _ _ _ _ _ => trivial) (fun _ _ => trivial) hresolve
    exact ⟨c, d, keyed_ofImplication hr, hf.1, hf.2⟩
  intro r hr
  obtain ⟨c, d, hkeyed, hc, hd⟩ := hall r hr
  exact ⟨c, d, hkeyed, Formula.over_of_leaves c hc (hover.rules r hr c (Or.inl hkeyed.condition)),
    Formula.over_of_leaves d hd (hover.rules r hr d (Or.inr hkeyed.conclusion))⟩

/-- The rules of a batch are those of its implications. -/
theorem keyed_collect (h : b.collect table batch [] = .ok before) :
    ∀ r ∈ before, ∃ s ∈ batch, ∃ c d, table.implication? s = some (c, d) ∧ Keyed c d r := by
  refine forall_collect (fun s hs f c d r hf hresolve hr => ?_) (by simp) h
  exact ⟨s, hs, c, d, NameTable.implication?_eq_some.mpr ⟨f, hf, hresolve⟩, keyed_ofImplication hr⟩

theorem collect_append (xs ys : List Statement) (added : List Rule) :
    b.collect table (xs ++ ys) added = b.collect table xs added >>= b.collect table ys := by
  induction xs generalizing added with
  | nil => rfl
  | cons x xs ih =>
    obtain ⟨name, formula⟩ := x
    cases formula with
    | none => exact ih added
    | some f =>
      simp only [List.cons_append, collect, bind_assoc]
      congr 1
      funext g
      split
      · simp only [bind_assoc]
        congr 1
        funext r
        split <;> exact ih _
      · exact ih added

/-- An implication adds its rule, if the id is new. -/
theorem collect_single (h : table.implication? s = some (c, d)) :
    b.collect table [s] added = (Rule.ofImplication b.algebra s.name c d).map fun r =>
      if (b.rules ++ added).any (·.id == r.id) then added else added ++ [r] := by
  obtain ⟨f, hf, hresolve⟩ := NameTable.implication?_eq_some.mp h
  obtain ⟨name, formula⟩ := s
  dsimp only at hf
  subst hf
  rw [collect, hresolve]
  cases hrule : Rule.ofImplication b.algebra name c d with
  | error e => simp [hrule, Except.map, bind, Except.bind]
  | ok r =>
    simp only [hrule, Except.map, bind, Except.bind]
    split <;> rfl

/-- An implication that adds no rule has the id of one that is there. -/
theorem exists_id_eq (h : table.implication? s = some (c, d))
    (hskip : b.collect table [s] added = .ok added) :
    ∃ r ∈ b.rules ++ added, r.id = Rule.idOf c d := by
  rw [collect_single h] at hskip
  obtain ⟨rule, hrule, hskip⟩ := Outcome.map_eq_ok.mp hskip
  split at hskip
  · rename_i hany
    obtain ⟨r, hr, hid⟩ := List.any_eq_true.mp hany
    exact ⟨r, hr, (beq_iff_eq.mp hid).trans (keyed_ofImplication hrule).id⟩
  · simp at hskip

/-! ### Leaves that are told apart -/

/-- Nothing but repeats is skipped, if runs of leaves are told apart and hashes are. -/
theorem onlyRepeatsSkipped_of_readable (hL : ∀ l ∈ L, l.Parsed ∧ l.Unbracketed)
    (hread : Formula.Readable L) (hb : b.Reached) (hover : b.Over L)
    (hbatch : ∀ s ∈ batch, s.Over L) (henter : b.table.enter batch = .ok table)
    (hapart : Hash.Apart (b.signatures table batch)) : b.OnlyRepeatsSkipped table batch := by
  intro earlier s later before c d hsplit himp hbefore hskip
  have htable : ∀ (n : String) (f : Formula), table[n]? = some f → ∀ l ∈ f.leaves, l ∈ L := by
    intro n f hfound
    rcases NameTable.mem_enter henter hfound with hold | ⟨s, hs, hf⟩
    · exact hover.names n f hold
    · exact hbatch s hs f hf
  -- an implication of the batch is over the leaves, and its signature is one of those compared
  have himplied : ∀ s ∈ batch, ∀ c d, table.implication? s = some (c, d) →
      c.Over L ∧ d.Over L ∧ Rule.signatureOf c d ∈ b.signatures table batch := by
    intro s hs c d himp
    obtain ⟨f, hf, hresolve⟩ := NameTable.implication?_eq_some.mp himp
    have hboth : (Formula.implies c d).Over L :=
      NameTable.over_resolve htable (hbatch s hs f hf) hresolve
    exact ⟨hboth.1, hboth.2, List.mem_append_right _ (List.mem_map.mpr
      ⟨(c, d), List.mem_filterMap.mpr ⟨s, hs, himp⟩, rfl⟩)⟩
  have hrule : ∀ r ∈ b.rules ++ before, ∃ c d : Formula, Keyed c d r ∧ c.Over L ∧ d.Over L ∧
      Rule.signatureOf c d ∈ b.signatures table batch := by
    intro r hr
    rcases List.mem_append.mp hr with hr | hr
    · obtain ⟨c, d, hkeyed, hc, hd⟩ := hb.keyed hover r hr
      exact ⟨c, d, hkeyed, hc, hd,
        List.mem_append_left _ (List.mem_map.mpr ⟨r, hr, hkeyed.signature⟩)⟩
    · obtain ⟨s, hs, c, d, himp, hkeyed⟩ := keyed_collect hbefore r hr
      exact ⟨c, d, hkeyed, himplied s (hsplit ▸ List.mem_append_left _ hs) c d himp⟩
  rw [collect_append, hbefore] at hskip
  obtain ⟨r, hr, hid⟩ := exists_id_eq himp hskip
  obtain ⟨c', d', hkeyed, hc', hd', hmem'⟩ := hrule r hr
  obtain ⟨hc, hd, hmem⟩ := himplied s
    (hsplit ▸ List.mem_append_right _ List.mem_cons_self) c d himp
  have hhash := Hash.hex_injective (hkeyed.id.symm.trans hid)
  obtain ⟨rfl, rfl⟩ :=
    Formula.signatureOf_inj hL hread hc' hd' hc hd (hapart _ hmem' _ hmem hhash)
  exact ⟨r, hr, hkeyed.condition, hkeyed.conclusion⟩

/-! ### Leaves that run into each other -/

/-- A rule from leaves side by side. -/
def sideBySide (ls : List Leaf) (l : Leaf) : Statement :=
  ⟨"", some (.implies (.all (ls.map .leaf)) (.leaf l))⟩

section

variable {ls ls' : List Leaf} {l : Leaf}

theorem implication?_sideBySide (table : NameTable) (ls : List Leaf) (l : Leaf) :
    table.implication? (sideBySide ls l) = some (.all (ls.map .leaf), .leaf l) := by
  have hover : Formula.Over Set.univ (.implies (.all (ls.map .leaf)) (.leaf l)) := by
    refine ⟨Formula.overAll_iff.mpr ?_, trivial⟩
    rw [List.forall_mem_map]
    exact fun _ _ => trivial
  exact NameTable.implication?_eq_some.mpr ⟨_, rfl, NameTable.replace_of_over _ hover⟩

theorem over_sideBySide (hls : ∀ l ∈ ls, l ∈ L) (hl : l ∈ L) : (sideBySide ls l).Over L := by
  have hleaves : ∀ ls : List Leaf, Formula.leavesOf (ls.map .leaf) = ls := by
    intro ls
    induction ls with
    | nil => rfl
    | cons l ls ih =>
      rw [List.map_cons, Formula.leavesOf, ih]
      rfl
  intro f hf
  cases hf
  refine List.forall_mem_append.mpr ⟨?_, List.forall_mem_singleton.mpr hl⟩
  rw [Formula.leaves, hleaves]
  exact hls

/-- Leaves side by side with the same words have the same signature. -/
theorem signatureOf_sideBySide (h : ls.flatMap Leaf.words = ls'.flatMap Leaf.words) :
    Rule.signatureOf (.all (ls.map .leaf)) (.leaf l) =
      Rule.signatureOf (.all (ls'.map .leaf)) (.leaf l) := by
  have hchars : ' ' :: (Formula.all (ls.map .leaf)).signature.toList =
      ' ' :: (Formula.all (ls'.map .leaf)).signature.toList := by
    rw [Formula.toList_signature, Formula.toList_signature, Formula.tokens, Formula.tokens,
      Formula.tokensOf_leaves, Formula.tokensOf_leaves, h]
  rw [Rule.signatureOf, String.toList_inj.mp (List.cons.inj hchars).2]
  rfl

/-- Of two rules from leaves with the same words the second is skipped. -/
theorem exists_collect_sideBySide (h : ls.flatMap Leaf.words = ls'.flatMap Leaf.words) :
    ∃ r, Keyed (.all (ls.map .leaf)) (.leaf l) r ∧
      collect {} ∅ [sideBySide ls l] [] = .ok [r] ∧
      collect {} ∅ ([sideBySide ls l] ++ [sideBySide ls' l]) [] = .ok [r] := by
  obtain ⟨r, hr⟩ : ∃ r, Rule.ofImplication none "" (.all (ls.map .leaf)) (.leaf l) = .ok r :=
    ⟨_, rfl⟩
  obtain ⟨r', hr'⟩ : ∃ r, Rule.ofImplication none "" (.all (ls'.map .leaf)) (.leaf l) = .ok r :=
    ⟨_, rfl⟩
  have hkeyed := keyed_ofImplication hr
  have hid : r.id = r'.id := by
    rw [hkeyed.id, (keyed_ofImplication hr').id, Rule.idOf, Rule.idOf, signatureOf_sideBySide h]
  have hfirst : collect {} ∅ [sideBySide ls l] [] = .ok [r] := by
    rw [collect_single (implication?_sideBySide ∅ ls l)]
    show (Rule.ofImplication none "" _ _).map _ = _
    rw [hr]
    rfl
  have hsecond : collect {} ∅ [sideBySide ls' l] [r] = .ok [r] := by
    rw [collect_single (implication?_sideBySide ∅ ls' l)]
    show (Rule.ofImplication none "" _ _).map _ = _
    rw [hr', Except.map]
    dsimp only
    rw [if_pos (by simp [hid])]
  refine ⟨r, hkeyed, hfirst, ?_⟩
  rw [collect_append, hfirst]
  exact hsecond

theorem eq_of_onlyRepeatsSkipped (h : ls.flatMap Leaf.words = ls'.flatMap Leaf.words)
    (honly : OnlyRepeatsSkipped {} ∅ [sideBySide ls l, sideBySide ls' l]) : ls = ls' := by
  obtain ⟨r, hkeyed, hfirst, hboth⟩ := exists_collect_sideBySide (l := l) h
  obtain ⟨r', hr', hcondition, -⟩ :=
    honly [sideBySide ls l] _ [] [r] _ _ rfl (implication?_sideBySide ∅ ls' l) hfirst hboth
  rw [List.mem_singleton.mp hr', hkeyed.condition] at hcondition
  have hmap := Formula.all.inj (Option.some.inj hcondition)
  exact List.map_injective_iff.mpr (fun _ _ heq => Formula.leaf.inj heq) hmap

theorem apart_sideBySide (h : ls.flatMap Leaf.words = ls'.flatMap Leaf.words) :
    Hash.Apart (signatures {} ∅ [sideBySide ls l, sideBySide ls' l]) := by
  have hall : ∀ s ∈ signatures {} ∅ [sideBySide ls l, sideBySide ls' l],
      s = Rule.signatureOf (.all (ls.map .leaf)) (.leaf l) := by
    intro s hs
    simp only [signatures, List.map_nil, List.nil_append, List.filterMap_cons,
      implication?_sideBySide, List.filterMap_nil, List.map_cons, List.mem_cons,
      List.not_mem_nil, or_false] at hs
    rcases hs with rfl | rfl
    · rfl
    · exact (signatureOf_sideBySide h).symm
  exact fun s hs t ht _ => (hall s hs).trans (hall t ht).symm

end

/-- **Different rules are kept apart exactly if runs of leaves are told apart by their words.**
Over parsed leaves with no words like brackets, and hashes aside, a batch skips nothing but repeats
of rules in the book or earlier in the batch, whatever the book and the batch are, if and only if no
two runs of the leaves have the same words. -/
theorem only_repeats_skipped_iff {L : Set Leaf} (hL : ∀ l ∈ L, l.Parsed ∧ l.Unbracketed) :
    (∀ (b : RuleBook) (batch : List Statement) (table : NameTable), b.Reached → b.Over L →
      (∀ s ∈ batch, s.Over L) → b.table.enter batch = .ok table →
      Hash.Apart (b.signatures table batch) → b.OnlyRepeatsSkipped table batch) ↔
    Formula.Readable L := by
  constructor
  · intro hlaw ls ls' hls hls' hwords
    cases ls with
    | nil =>
      cases ls' with
      | nil => rfl
      | cons l' ls' => cases hwords
    | cons l ls =>
      have hl : l ∈ L := hls l List.mem_cons_self
      have hbatch : ∀ s ∈ [sideBySide (l :: ls) l, sideBySide ls' l], s.Over L := by
        rw [List.forall_mem_cons, List.forall_mem_singleton]
        exact ⟨over_sideBySide hls hl, over_sideBySide hls' hl⟩
      refine eq_of_onlyRepeatsSkipped (l := l) hwords
        (hlaw {} _ ∅ (.empty none) ⟨?_, ?_⟩ hbatch rfl (apart_sideBySide hwords))
      · intro n f hf
        simp at hf
      · intro r hr
        cases hr
  · intro hread b batch table hb hover hbatch henter hapart
    exact onlyRepeatsSkipped_of_readable hL hread hb hover hbatch henter hapart

/-! ### Leaves of either kind -/

/-- Leaves of three operators, one of them with one argument. -/
def wineLeaves : List Leaf :=
  [⟨"person", [.hole "x"]⟩, ⟨"likes", [.hole "x", .ident "wine"]⟩,
    ⟨"named", [.hole "x", .literal "red (dry) wine"]⟩]

theorem only_repeats_skipped_iff_wineLeaves :
    (∀ l ∈ {l | l ∈ wineLeaves}, l.Parsed ∧ l.Unbracketed) ∧
      Formula.Readable {l | l ∈ wineLeaves} ∧
      ∀ (b : RuleBook) (batch : List Statement) (table : NameTable), b.Reached →
        b.Over {l | l ∈ wineLeaves} → (∀ s ∈ batch, s.Over {l | l ∈ wineLeaves}) →
        b.table.enter batch = .ok table → Hash.Apart (b.signatures table batch) →
        b.OnlyRepeatsSkipped table batch := by
  have hparse : ∀ l ∈ wineLeaves, (Leaf.parse l.text).toOption = some l := by decide +kernel
  have hplain : ∀ l ∈ wineLeaves, l.Unbracketed := by decide +kernel
  have hL : ∀ l ∈ {l | l ∈ wineLeaves}, l.Parsed ∧ l.Unbracketed := by
    intro l hl
    refine ⟨⟨l.text, ?_⟩, hplain l hl⟩
    cases hread : Leaf.parse l.text with
    | error e =>
      have hnone := hparse l hl
      rw [hread] at hnone
      cases hnone
    | ok l' =>
      have hsame := hparse l hl
      rw [hread] at hsame
      rw [Option.some.inj hsame]
  have hread : Formula.Readable {l | l ∈ wineLeaves} := by
    refine Formula.readable_of_arity (fun l hl => (hL l hl).1)
      (fun op => if op = "person" then 1 else 2) ?_
    show ∀ l ∈ wineLeaves, l.args.length = if l.op = "person" then 1 else 2
    decide +kernel
  exact ⟨hL, hread, (only_repeats_skipped_iff hL).mpr hread⟩

/-- Two leaves, and one leaf with the same words. -/
def twoLeaves : List Leaf := [⟨"p", [.hole "x"]⟩, ⟨"q", [.hole "x"]⟩]

def oneLeaf : List Leaf := [⟨"p", [.hole "x", .ident "q", .hole "x"]⟩]

/-- Both, each as the condition of one conclusion. -/
def twoRules : List Statement :=
  [sideBySide twoLeaves ⟨"r", [.hole "x"]⟩, sideBySide oneLeaf ⟨"r", [.hole "x"]⟩]

/-- **A rule is skipped for another one**: a conjunction of two leaves, and one of a single leaf
that has their words. -/
theorem run_together :
    [Leaf.parse "p ?x", Leaf.parse "q ?x"] = twoLeaves.map .ok ∧
      [Leaf.parse "p ?x q ?x"] = oneLeaf.map .ok ∧
      Leaf.parse "r ?x" = .ok ⟨"r", [.hole "x"]⟩ ∧
      Reached {} ∧ NameTable.enter ∅ twoRules = .ok ∅ ∧ Hash.Apart (signatures {} ∅ twoRules) ∧
      ¬ OnlyRepeatsSkipped {} ∅ twoRules := by
  have hwords : twoLeaves.flatMap Leaf.words = oneLeaf.flatMap Leaf.words := by decide
  refine ⟨rfl, rfl, rfl, .empty none, rfl, apart_sideBySide hwords, fun honly => ?_⟩
  have heq : twoLeaves = oneLeaf := eq_of_onlyRepeatsSkipped hwords honly
  exact absurd heq (by decide)

end RuleBook

end KnowledgeBase
