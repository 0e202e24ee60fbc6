import KnowledgeBase.Proofs.Statement.Line
import KnowledgeBase.Proofs.Statement.Reading
import Mathlib.Data.List.Basic

/-!
# Two ways to an instance

A leaf is instantiated by putting values in the place of its holes, or by writing it with the values
in it and cutting the line into words.  The second way forgets where one argument ends and what was
a literal, so both come to the same leaf exactly if every argument is one word of the line and is
not taken for anything else.

* `Plain`: a text that stands for itself in a line;
* `ofInstance?_eq_some_iff`: what is read from a line;
* `filled`, `word_instanceOf`: an argument with its value, and the word that is written for it;
* `plain_of_ofWord`: a value that is read back was plain;
* `ofInstance?_instanceText_iff`: when both ways agree.
-/

namespace KnowledgeBase

/-- A text that is one word of a line and that no reader takes for a hole. -/
structure Plain (v : String) : Prop where
  nonempty : v ≠ ""
  unblank : Text.Unblank v
  constant : Text.isVariable v = false

namespace Term

variable {t : Term} {v : String} {cs : List Char}

theorem ofWord_toList (h : Text.isVariable v = false) : ofWord v.toList = ident v := by
  unfold Text.isVariable at h
  unfold ofWord
  split
  · rename_i hvar
    rw [hvar] at h
    cases h
  · rw [String.ofList_toList]

/-- A word is never read as a literal, and as an identifier only if it is no hole. -/
theorem ofWord_cases (cs : List Char) :
    (∃ n, ofWord cs = hole n) ∨
      ofWord cs = ident (String.ofList cs) ∧ Text.isVariable (String.ofList cs) = false := by
  unfold ofWord
  split
  · exact .inl ⟨_, rfl⟩
  · rename_i hplain
    refine .inr ⟨rfl, ?_⟩
    rw [Text.isVariable, String.toList_ofList]
    split
    · exact absurd rfl (hplain _ _)
    · rfl

theorem Read.ne_empty_text (h : t.Read) (hword : ∀ n, t ≠ literal n) : t.text ≠ "" := by
  intro htext
  exact (h.isWord_text hword).ne_nil (by rw [htext]; rfl)

end Term

namespace Leaf

open Term

variable {s : String} {l l' : Leaf} {b : Bindings} {a : Term} {n v : String}

/-! ### What is read from a line -/

theorem ofInstance?_eq_some_iff : ofInstance? s = some l ↔
    ∃ ws, Text.words s = l.op :: ws ∧ ws ≠ [] ∧ l.args = ws.map fun w => ofWord w.toList := by
  obtain ⟨op, args⟩ := l
  unfold ofInstance?
  split
  · rename_i op' arg rest hwords
    rw [hwords]
    constructor
    · intro h
      cases h
      exact ⟨_, rfl, List.cons_ne_nil _ _, rfl⟩
    · rintro ⟨ws, heq, -, rfl⟩
      cases heq
      rfl
  · rename_i hfew
    constructor
    · exact nofun
    · rintro ⟨ws, heq, hne, -⟩
      obtain ⟨w, ws, rfl⟩ := List.exists_cons_of_ne_nil hne
      exact absurd heq (hfew _ _ _)

/-! ### One argument -/

/-- An argument with its value, if it has one. -/
def filled (b : Bindings) : Term → Term
  | .hole n => ((b.get? n).map ofValue).getD (.hole n)
  | a => a

theorem substitute_eq (l : Leaf) (b : Bindings) :
    l.substitute b = ⟨l.op, l.args.map (filled b)⟩ := by
  unfold substitute
  congr 2
  funext a
  cases a <;> rfl

theorem ofValue_of_plain (h : Plain v) : ofValue v = .ident v := by
  have hspace : v.toList.any (fun c => c == ' ' || c == '\t') = false := by
    rw [List.any_eq_false]
    intro c hc hblank
    have hunblank := h.unblank c hc
    rw [Text.isBlank] at hunblank
    rcases Bool.or_eq_true_iff.mp hblank with hc | hc
    · rw [hc] at hunblank
      cases hunblank
    · rw [beq_iff_eq.mp hc] at hunblank
      cases hunblank
  unfold ofValue
  rw [hspace, if_neg Bool.false_ne_true]

/-- What is written for an argument is the value of a hole that has one, else its text. -/
theorem instanceOf_cases (b : Bindings) (hword : ∀ n, a ≠ .literal n) :
    (∃ n v, a = .hole n ∧ b.get? n = some v ∧ instanceOf b a = v ∧ filled b a = ofValue v) ∨
      instanceOf b a = a.text ∧ filled b a = a := by
  cases a with
  | ident n => exact .inr ⟨rfl, rfl⟩
  | literal n => exact absurd rfl (hword n)
  | hole n =>
    cases hv : b.get? n with
    | some v => exact .inl ⟨n, v, rfl, hv, by simp [instanceOf, hv], by simp [filled, hv]⟩
    | none => exact .inr ⟨by simp [instanceOf, hv, Term.text], by simp [filled, hv]⟩

/-- With plain values every argument is written as one word, from which it is read again. -/
theorem word_instanceOf (ha : a.Read) (hword : ∀ n, a ≠ .literal n)
    (hplain : ∀ n v, a = .hole n → b.get? n = some v → Plain v) :
    Text.words (instanceOf b a) = [instanceOf b a] ∧
      ofWord (instanceOf b a).toList = filled b a := by
  rcases instanceOf_cases b hword with ⟨n, v, rfl, hv, hwritten, hfilled⟩ | ⟨hwritten, hfilled⟩
  · have h := hplain n v rfl hv
    rw [hwritten, hfilled, ofValue_of_plain h]
    exact ⟨Text.words_eq_singleton h.unblank h.nonempty, ofWord_toList h.constant⟩
  · rw [hwritten, hfilled]
    exact ⟨Text.words_eq_singleton (ha.isWord_text hword).unblank (ha.ne_empty_text hword),
      ha.ofWord_text hword⟩

/-- A value that is read from a word of a line is that word. -/
theorem plain_of_ofWord {w : String} (hw : w ∈ Text.words s) (h : ofWord w.toList = ofValue v) :
    Plain v := by
  have hvalue : ∀ n, ofValue v ≠ .hole n := by
    intro n
    unfold ofValue
    split <;> exact nofun
  rcases ofWord_cases w.toList with ⟨n, hhole⟩ | ⟨hident, hconstant⟩
  · exact absurd (h.symm.trans hhole) (hvalue n)
  · rw [String.ofList_toList] at hident hconstant
    have hv : ofValue v = .ident w := h.symm.trans hident
    unfold ofValue at hv
    split at hv
    · cases hv
    · cases hv
      obtain ⟨hne, hunblank⟩ := Text.unblank_of_mem_words hw
      exact ⟨hne, hunblank, hconstant⟩

/-! ### Whole leaves -/

/-- Arguments that are written as one word each are cut apart again. -/
theorem words_of_instance (hop : Plain l.op)
    (hargs : ∀ a ∈ l.args, Text.words (instanceOf b a) = [instanceOf b a]) :
    Text.words (l.instanceText b) = l.op :: l.args.map (instanceOf b) := by
  rw [Text.words_instanceText l b hop.nonempty, Text.words_eq_singleton hop.unblank hop.nonempty,
    List.flatMap_congr hargs, ← List.map_eq_flatMap, List.singleton_append]

theorem Parsed.plain_op (h : l.Parsed) : Plain l.op := by
  obtain ⟨hword, hconstant⟩ : (Term.ident l.op).Read := h.read _ List.mem_cons_self
  exact ⟨fun hempty => hword.ne_nil (by rw [hempty]; rfl), hword.unblank, hconstant⟩

/-- **Both ways to an instance agree exactly if every argument stays one word.**  A leaf that was
read is written with its values and read from the line as the leaf in which the values have taken
the place of the holes, unbound holes staying holes, if it has arguments, no literal among them, and
all values of its holes are plain; and in no other case. -/
theorem ofInstance?_instanceText_iff (h : parse s = .ok l) (b : Bindings) :
    ofInstance? (l.instanceText b) = some (l.substitute b) ↔
      l.args ≠ [] ∧ (∀ a ∈ l.args, ∀ n, a ≠ .literal n) ∧
        ∀ n, .hole n ∈ l.args → ∀ v, b.get? n = some v → Plain v := by
  have hparsed : l.Parsed := ⟨s, h⟩
  rw [substitute_eq, ofInstance?_eq_some_iff]
  constructor
  · rintro ⟨ws, hwords, hne, hargs⟩
    dsimp only at hwords hargs
    have hread : ∀ a ∈ l.args, ∃ w ∈ Text.words (l.instanceText b),
        ofWord w.toList = filled b a := by
      intro a ha
      have hmem : filled b a ∈ ws.map fun w => ofWord w.toList := hargs ▸ List.mem_map_of_mem ha
      obtain ⟨w, hw, hfilled⟩ := List.mem_map.mp hmem
      exact ⟨w, hwords ▸ List.mem_cons_of_mem _ hw, hfilled⟩
    refine ⟨fun hnil => hne ?_, fun a ha n hliteral => ?_, fun n hn v hv => ?_⟩
    · rw [hnil] at hargs
      exact List.map_eq_nil_iff.mp hargs.symm
    · obtain ⟨w, -, hw⟩ := hread a ha
      rw [hliteral] at hw
      rcases ofWord_cases w.toList with ⟨m, hhole⟩ | ⟨hident, -⟩
      · cases hw.symm.trans hhole
      · cases hw.symm.trans hident
    · obtain ⟨w, hw, hfilled⟩ := hread _ hn
      have hvalue : filled b (.hole n) = ofValue v := by simp [filled, hv]
      exact plain_of_ofWord hw (hfilled.trans hvalue)
  · rintro ⟨hne, hword, hplain⟩
    have hone : ∀ a ∈ l.args, Text.words (instanceOf b a) = [instanceOf b a] ∧
        ofWord (instanceOf b a).toList = filled b a := by
      intro a ha
      refine word_instanceOf (hparsed.read a (List.mem_cons_of_mem _ ha)) (hword a ha) ?_
      rintro n v rfl hv
      exact hplain n ha v hv
    refine ⟨l.args.map (instanceOf b), ?_, ?_, ?_⟩
    · exact words_of_instance hparsed.plain_op fun a ha => (hone a ha).1
    · simpa using hne
    · rw [List.map_map]
      exact List.map_congr_left fun a ha => ((hone a ha).2).symm

/-- An argument that is a question mark, a hole whose name starts with one, and quotes inside. -/
def mumbled : Leaf := ⟨"?", [.ident "?", .hole "?y", .hole "x", .ident "a\"b", .hole "z"]⟩

theorem ofInstance?_instanceText_mumbled :
    let b : Bindings := ⟨[("z", "?"), ("x", "\"red"), ("y", "two words")]⟩
    parse " ? ?\t??y ?x a\"b ?z" = .ok mumbled ∧
      mumbled.instanceText b = "? ? ??y \"red a\"b ?" ∧
      ofInstance? (mumbled.instanceText b) = some (mumbled.substitute b) := by
  intro b
  have hparse : parse " ? ?\t??y ?x a\"b ?z" = .ok mumbled := by rfl
  refine ⟨hparse, by decide +kernel, (ofInstance?_instanceText_iff hparse b).mpr ⟨?_, ?_, ?_⟩⟩
  · exact List.cons_ne_nil _ _
  · intro a ha n hliteral
    rw [hliteral] at ha
    simp [mumbled] at ha
  · intro n hn v hv
    have hnames : n = "?y" ∨ n = "x" ∨ n = "z" := by simpa [mumbled] using hn
    rcases hnames with rfl | rfl | rfl
    · cases hv
    · cases hv
      exact ⟨by decide, by decide, rfl⟩
    · cases hv
      exact ⟨by decide, by decide, rfl⟩

end Leaf

end KnowledgeBase
