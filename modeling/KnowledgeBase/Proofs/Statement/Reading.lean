import KnowledgeBase.Proofs.Statement.Words
import KnowledgeBase.Statement.Formula

/-!
# Leaves read back

A leaf that was read is written as a text which is read as the same leaf.  A literal may stand right
beside its neighbour where it is read, and is written apart from it, so the text need not be the one
that the leaf was read from.  Only blanks, quotation marks and question marks are told from other
characters, and all of them are ASCII, so a character may as well stand for a byte of any value.

* `scan_word_append`, `scan_literal_append`: the characters that a word or a literal takes up;
* `Parted`, `scan_text_append`: a term is read off the front of what goes on with a blank or ends;
* `parsed_iff`: the leaves that are read from some text are those whose terms can be read;
* `parse_signature`: what a leaf is written as is read as that leaf, and as no other.
-/

namespace KnowledgeBase

/-- A text of a word is read as the term that it was written for. -/
theorem Term.Read.ofWord_text {t : Term} (h : t.Read) (hword : ∀ n, t ≠ literal n) :
    ofWord t.text.toList = t := by
  cases t with
  | ident n =>
    obtain ⟨-, hplain⟩ := h
    unfold Text.isVariable at hplain
    unfold Term.text ofWord
    split
    · rename_i hvar
      rw [hvar] at hplain
      cases hplain
    · rw [String.ofList_toList]
  | hole n =>
    obtain ⟨c, cs, hcs⟩ := List.exists_cons_of_ne_nil h.1
    have htext : (hole n).text.toList = '?' :: c :: cs := by simp [Term.text, hcs]
    rw [htext, ofWord, ← hcs, String.ofList_toList]
  | literal n => exact absurd rfl (hword n)

namespace Leaf

variable {read cs rest : List Char}

/-! ### Characters that go on -/

theorem scan_word_append (hcs : ∀ c ∈ cs, Text.isBlank c = false) :
    scan (.word read) (cs ++ rest) = scan (.word (cs.reverse ++ read)) rest := by
  induction cs generalizing read with
  | nil => rfl
  | cons c cs ih =>
    obtain ⟨hc, hcs⟩ := List.forall_mem_cons.mp hcs
    rw [List.cons_append, scan, if_neg (by simp [hc]), ih hcs, List.reverse_cons,
      List.append_assoc, List.singleton_append]

theorem scan_literal_append (hcs : '"' ∉ cs) :
    scan (.literal read) (cs ++ rest) = scan (.literal (cs.reverse ++ read)) rest := by
  induction cs generalizing read with
  | nil => rfl
  | cons c cs ih =>
    rw [List.mem_cons, not_or] at hcs
    rw [List.cons_append, scan, if_neg (Ne.symm hcs.1), ih hcs.2, List.reverse_cons,
      List.append_assoc, List.singleton_append]

/-! ### One term -/

/-- A text that ends a word: it is empty or starts with a blank. -/
def Parted (rest : List Char) : Prop := ∀ c ∈ rest.head?, Text.isBlank c = true

theorem scan_word_parted (hrest : Parted rest) :
    scan (.word read) rest = (scan .gap rest).map (Term.ofWord read.reverse :: ·) := by
  cases rest with
  | nil => rfl
  | cons c rest =>
    have hc : Text.isBlank c = true := hrest c rfl
    rw [scan, scan, if_pos hc, if_pos hc]

theorem scan_gap_word (hcs : IsWord cs) (hrest : Parted rest) :
    scan .gap (cs ++ rest) = (scan .gap rest).map (Term.ofWord cs :: ·) := by
  obtain ⟨hne, hblank, hquote⟩ := hcs
  cases cs with
  | nil => exact absurd rfl hne
  | cons c cs =>
    obtain ⟨hc, hcs⟩ := List.forall_mem_cons.mp hblank
    have hopen : c ≠ '"' := fun heq => hquote (congrArg some heq)
    rw [List.cons_append, scan, if_neg (by simp [hc]), if_neg hopen, scan_word_append hcs,
      scan_word_parted hrest, List.reverse_append, List.reverse_reverse, List.reverse_singleton,
      List.singleton_append]

theorem scan_gap_literal (hcs : '"' ∉ cs) :
    scan .gap ('"' :: (cs ++ '"' :: rest)) =
      (scan .gap rest).map (Term.literal (String.ofList cs) :: ·) := by
  rw [scan, if_neg (by decide), if_pos rfl, scan_literal_append hcs, scan, if_pos rfl,
    List.append_nil, List.reverse_reverse]

/-- **A term is read off the front of a text.** -/
theorem scan_text_append {t : Term} (ht : t.Read) (hrest : Parted rest) :
    scan .gap (t.text.toList ++ rest) = (scan .gap rest).map (t :: ·) := by
  cases t with
  | literal n =>
    have htext : (Term.literal n).text.toList ++ rest = '"' :: (n.toList ++ '"' :: rest) := by
      simp [Term.text]
    rw [htext, scan_gap_literal ht, String.ofList_toList]
  | ident n | hole n =>
    rw [scan_gap_word (ht.isWord_text (by simp)) hrest, ht.ofWord_text (by simp)]

/-! ### Whole leaves -/

/-- Terms that are written with a blank before each of them are read back. -/
theorem scan_texts {ts : List Term} (hts : ∀ t ∈ ts, t.Read) :
    scan .gap (ts.flatMap fun t => ' ' :: t.text.toList) = some ts := by
  induction ts with
  | nil => rfl
  | cons t ts ih =>
    obtain ⟨ht, hts⟩ := List.forall_mem_cons.mp hts
    have hparted : Parted (ts.flatMap fun t => ' ' :: t.text.toList) := by
      cases ts with
      | nil => exact nofun
      | cons u us =>
        intro c hc
        cases hc
        decide
    rw [List.flatMap_cons, List.cons_append, scan, if_pos (by decide), scan_text_append ht hparted,
      ih hts]
    rfl

/-- A leaf whose terms can be read is read from its text. -/
theorem parse_text {l : Leaf} (h : ∀ t ∈ .ident l.op :: l.args, t.Read) :
    parse l.text = .ok l := by
  -- a blank in front of the text changes nothing, and makes it a row of terms
  have hblank : scan .gap (' ' :: l.text.toList) = scan .gap l.text.toList := by
    rw [scan, if_pos (by decide)]
  have hwords : ' ' :: l.text.toList =
      (.ident l.op :: l.args).flatMap fun t => ' ' :: t.text.toList := by
    rw [toList_words, words, List.flatMap_cons, List.flatMap_cons, List.flatMap_map]
    rfl
  unfold parse
  rw [← hblank, hwords, scan_texts h]

/-- **The leaves that are read are those whose terms can be.** -/
theorem parsed_iff {l : Leaf} : l.Parsed ↔ ∀ t ∈ .ident l.op :: l.args, t.Read :=
  ⟨Parsed.read, fun h => ⟨l.text, parse_text h⟩⟩

/-- **A leaf that was read is written as a text that is read as this leaf again**, and every other
leaf that was read is written differently. -/
theorem parse_signature {s : String} {l : Leaf} (h : parse s = .ok l) :
    parse (Formula.leaf l).signature = .ok l ∧
      ∀ s' l', parse s' = .ok l' →
        (Formula.leaf l').signature = (Formula.leaf l).signature → l' = l := by
  have hparse : ∀ s' l', parse s' = .ok l' → parse (Formula.leaf l').signature = .ok l' :=
    fun s' l' h' => parse_text (Parsed.read ⟨s', h'⟩)
  refine ⟨hparse s l h, fun s' l' h' heq => ?_⟩
  have hleaf : Except.ok l' = Except.ok (ε := Fault) l := by
    rw [← hparse s' l' h', heq, hparse s l h]
  exact Except.ok.inj hleaf

/-- A question mark alone, quotes inside of words, and literals that touch what comes next. -/
def crowded : Leaf :=
  ⟨"says", [.ident "?", .literal "red  wine", .hole "x\"\"", .literal "", .ident "a\"b"]⟩

theorem parse_signature_crowded :
    parse "\tsays ?\n\"red  wine\"?x\"\" \"\"a\"b " = .ok crowded ∧
      parse (Formula.leaf crowded).signature = .ok crowded ∧
      ∀ s' l', parse s' = .ok l' →
        (Formula.leaf l').signature = (Formula.leaf crowded).signature → l' = crowded := by
  have hread : parse "\tsays ?\n\"red  wine\"?x\"\" \"\"a\"b " = .ok crowded := by rfl
  exact ⟨hread, parse_signature hread⟩

end Leaf

end KnowledgeBase
