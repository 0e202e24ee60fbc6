import KnowledgeBase.Proofs.Statement.Words

/-!
# Lines cut into words

A line falls apart at its blanks: what is written with a space in between is cut piece by piece, and
a text without blanks is a word as it stands.

* `wordsAux_append_blank`, `words_append_space`: a blank parts the words before it from those after;
* `words_eq_singleton`, `words_of_mem_words`: the texts that are one word;
* `words_text`, `words_instanceText`: the words of a leaf as it is written and of an instance;
* `exists_word_quoted`: quotes around a text leave a word that starts with one.
-/

namespace KnowledgeBase.Text

variable {cs ds word : List Char} {c : Char} {s t : String}

/-! ### Pieces of a line -/

/-- A blank ends the word that is being read, and the rest is cut for itself. -/
theorem wordsAux_append_blank (hc : isBlank c = true) :
    wordsAux word (cs ++ c :: ds) = wordsAux word cs ++ wordsAux [] ds := by
  induction cs generalizing word with
  | nil =>
    rw [List.nil_append, wordsAux, wordsAux, if_pos hc]
    by_cases hword : word.isEmpty = true
    · simp [hword]
    · simp [hword]
  | cons d cs ih =>
    rw [List.cons_append, wordsAux, wordsAux]
    by_cases hd : isBlank d = true
    · rw [if_pos hd, if_pos hd]
      by_cases hword : word.isEmpty = true
      · simp [hword, ih]
      · simp [hword, ih]
    · rw [if_neg hd, if_neg hd, ih]

theorem words_append_space (s t : String) : words (s ++ " " ++ t) = words s ++ words t := by
  have hchars : (s ++ " " ++ t).toList = s.toList ++ ' ' :: t.toList := by simp
  unfold words
  rw [hchars, wordsAux_append_blank (by decide), List.map_append]

/-- A line that grows by one text after the other has the words of all of them. -/
theorem words_foldl {α : Type} (f : α → String) (as : List α) (s : String) :
    words (as.foldl (fun s a => s ++ " " ++ f a) s) =
      words s ++ as.flatMap fun a => words (f a) := by
  induction as generalizing s with
  | nil => simp
  | cons a as ih =>
    rw [List.foldl_cons, ih, words_append_space, List.flatMap_cons, List.append_assoc]

/-! ### Single words -/

/-- None of the characters is blank. -/
def Unblank (s : String) : Prop := ∀ c ∈ s.toList, isBlank c = false

instance (s : String) : Decidable (Unblank s) :=
  List.decidableBAll (fun c => isBlank c = false) s.toList

theorem wordsAux_unblank (h : ∀ c ∈ cs, isBlank c = false) (hne : word ++ cs ≠ []) :
    wordsAux word cs = [word.reverse ++ cs] := by
  induction cs generalizing word with
  | nil =>
    have hword : word.isEmpty = false := by simpa using hne
    simp [wordsAux, hword]
  | cons c cs ih =>
    obtain ⟨hc, hcs⟩ := List.forall_mem_cons.mp h
    rw [wordsAux, if_neg (by simp [hc]), ih hcs (by simp)]
    simp

/-- A text without blanks is a word. -/
theorem words_eq_singleton (h : Unblank s) (hne : s ≠ "") : words s = [s] := by
  have hchars : [] ++ s.toList ≠ [] := by simpa using hne
  unfold words
  rw [wordsAux_unblank h hchars]
  simp

theorem unblank_of_mem_wordsAux {w : List Char} (h : w ∈ wordsAux word cs)
    (hword : ∀ c ∈ word, isBlank c = false) : w ≠ [] ∧ ∀ c ∈ w, isBlank c = false := by
  have hread : ∀ {v : List Char}, v.isEmpty = false → (∀ c ∈ v, isBlank c = false) →
      v.reverse ≠ [] ∧ ∀ c ∈ v.reverse, isBlank c = false := by
    intro v hne hv
    refine ⟨by simpa using hne, ?_⟩
    intro c hc
    exact hv c (List.mem_reverse.mp hc)
  induction cs generalizing word with
  | nil =>
    rw [wordsAux] at h
    split at h
    · cases h
    · rename_i hne
      rw [List.mem_singleton.mp h]
      exact hread (by simpa using hne) hword
  | cons c cs ih =>
    rw [wordsAux] at h
    split at h
    · split at h
      · exact ih h (by simp)
      · rename_i hne
        rcases List.mem_cons.mp h with rfl | h
        · exact hread (by simpa using hne) hword
        · exact ih h (by simp)
    · rename_i hblank
      apply ih h
      intro d hd
      rcases List.mem_cons.mp hd with rfl | hd
      · simpa using hblank
      · exact hword d hd

theorem unblank_of_mem_words {w : String} (h : w ∈ words s) : w ≠ "" ∧ Unblank w := by
  obtain ⟨cs, hcs, rfl⟩ := List.mem_map.mp h
  obtain ⟨hne, hunblank⟩ := unblank_of_mem_wordsAux hcs (by simp)
  refine ⟨by simpa using hne, fun c hc => ?_⟩
  rw [String.toList_ofList] at hc
  exact hunblank c hc

/-- A word is cut no further. -/
theorem words_of_mem_words {w : String} (h : w ∈ words s) : words w = [w] :=
  words_eq_singleton (unblank_of_mem_words h).2 (unblank_of_mem_words h).1

/-- What has been read of a word starts a word of the line. -/
theorem exists_wordsAux_eq (cs : List Char) (hword : word ≠ []) :
    ∃ v rest, wordsAux word cs = (word.reverse ++ v) :: rest := by
  induction cs generalizing word with
  | nil =>
    refine ⟨[], [], ?_⟩
    have hne : word.isEmpty = false := by simpa using hword
    simp [wordsAux, hne]
  | cons c cs ih =>
    rw [wordsAux]
    split
    · refine ⟨[], wordsAux [] cs, ?_⟩
      have hne : word.isEmpty = false := by simpa using hword
      simp [hne]
    · obtain ⟨v, rest, hv⟩ := ih (List.cons_ne_nil c word)
      refine ⟨c :: v, rest, ?_⟩
      rw [hv]
      simp

/-- However a text is cut, quotes around it leave a word that starts with the first one. -/
theorem exists_word_quoted (n : String) :
    ∃ w ∈ words ("\"" ++ n ++ "\""), startsVariable w = false := by
  have hchars : ("\"" ++ n ++ "\"").toList = '"' :: (n.toList ++ ['"']) := by simp
  obtain ⟨v, rest, hv⟩ := exists_wordsAux_eq (n.toList ++ ['"']) (List.cons_ne_nil '"' [])
  have hwords : words ("\"" ++ n ++ "\"") =
      (String.ofList ('"' :: v)) :: rest.map String.ofList := by
    unfold words
    rw [hchars, wordsAux, if_neg (by decide), hv]
    simp
  refine ⟨String.ofList ('"' :: v), ?_, ?_⟩
  · rw [hwords]
    exact List.mem_cons_self
  · unfold startsVariable
    rw [String.toList_ofList]
    simp

/-! ### Leaves -/

theorem words_text (l : Leaf) : words l.text = words l.op ++ l.args.flatMap fun a => words a.text :=
  words_foldl Term.text l.args l.op

theorem words_instanceText (l : Leaf) (b : Bindings) (hop : l.op ≠ "") :
    words (l.instanceText b) =
      words l.op ++ l.args.flatMap fun a => words (Leaf.instanceOf b a) := by
  unfold Leaf.instanceText
  rw [if_neg (by simpa using hop)]
  exact words_foldl (Leaf.instanceOf b) l.args l.op

end KnowledgeBase.Text
