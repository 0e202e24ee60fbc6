import KnowledgeBase.Proofs.Text
import KnowledgeBase.Statement.Leaf

/-!
# The words of a leaf

What the terms are that a reader finds, and how they stand in a text.  A word is not blank and does
not start with a quote, and a literal has quotes around it and none inside, so the text of a term
says which term it is.

* `Term.Read`, `read_of_mem_scan`, `Parsed.read`: the terms that are read;
* `Term.Read.text_inj`: a term is told by its text;
* `Leaf.words`, `Leaf.toList_words`: a leaf as words with blanks between them.
-/

namespace KnowledgeBase

/-! ### Terms that are read -/

/-- Some characters, none of them blank, that do not start with a quote. -/
structure IsWord (cs : List Char) : Prop where
  ne_nil : cs ≠ []
  unblank : ∀ c ∈ cs, Text.isBlank c = false
  unquoted : cs.head? ≠ some '"'

/-- A term as a reader leaves it: a word, which has no question mark in front unless it is nothing
else, the rest of a word after a question mark, or a text without quotes. -/
def Term.Read : Term → Prop
  | ident n => IsWord n.toList ∧ Text.isVariable n = false
  | hole n => n.toList ≠ [] ∧ ∀ c ∈ n.toList, Text.isBlank c = false
  | literal n => '"' ∉ n.toList

theorem IsWord.singleton {c : Char} (hblank : Text.isBlank c = false) (hquote : c ≠ '"') :
    IsWord [c] := by
  refine ⟨List.cons_ne_nil c [], fun x hx => ?_, fun hhead => hquote (Option.some.inj hhead)⟩
  rw [List.mem_singleton.mp hx]
  exact hblank

theorem IsWord.snoc {cs : List Char} {c : Char} (h : IsWord cs) (hc : Text.isBlank c = false) :
    IsWord (cs ++ [c]) := by
  refine ⟨by simp, fun x hx => ?_, ?_⟩
  · rcases List.mem_append.mp hx with hx | hx
    · exact h.unblank x hx
    · rw [List.mem_singleton.mp hx]
      exact hc
  · rw [List.head?_append, List.head?_eq_some_head h.ne_nil, Option.some_or,
      ← List.head?_eq_some_head]
    exact h.unquoted

theorem IsWord.read_ofWord {cs : List Char} (h : IsWord cs) : (Term.ofWord cs).Read := by
  unfold Term.ofWord
  split
  · rw [Term.Read, String.toList_ofList]
    exact ⟨List.cons_ne_nil _ _, fun x hx => h.unblank x (List.mem_cons_of_mem _ hx)⟩
  · rename_i hplain
    rw [Term.Read, Text.isVariable, String.toList_ofList]
    refine ⟨h, ?_⟩
    split
    · exact absurd rfl (hplain _ _)
    · rfl

namespace Leaf

/-- What has been read of a term so far. -/
def Inside.Sound : Inside → Prop
  | .gap => True
  | .word read => IsWord read.reverse
  | .literal read => '"' ∉ read

/-- Every term that a reader finds is read, by induction on the text that is left. -/
theorem read_of_mem_scan {inside : Inside} {cs : List Char} {ts : List Term}
    (h : scan inside cs = some ts) (hinside : inside.Sound) : ∀ t ∈ ts, t.Read := by
  induction cs generalizing inside ts with
  | nil =>
    cases inside with
    | gap =>
      cases h
      exact fun t ht => absurd ht List.not_mem_nil
    | word read =>
      cases h
      intro t ht
      rw [List.mem_singleton.mp ht]
      exact hinside.read_ofWord
    | literal read => cases h
  | cons c cs ih =>
    cases inside with
    | gap =>
      rw [scan] at h
      split at h
      · exact ih h trivial
      · rename_i hblank
        split at h
        · exact ih h List.not_mem_nil
        · rename_i hquote
          exact ih h (.singleton (by simpa using hblank) hquote)
    | word read =>
      rw [scan] at h
      split at h
      · obtain ⟨rest, hrest, rfl⟩ := Option.map_eq_some_iff.mp h
        rw [List.forall_mem_cons]
        exact ⟨hinside.read_ofWord, ih hrest trivial⟩
      · rename_i hblank
        refine ih h ?_
        rw [Inside.Sound, List.reverse_cons]
        exact hinside.snoc (by simpa using hblank)
    | literal read =>
      rw [scan] at h
      split at h
      · obtain ⟨rest, hrest, rfl⟩ := Option.map_eq_some_iff.mp h
        rw [List.forall_mem_cons]
        refine ⟨?_, ih hrest trivial⟩
        rw [Term.Read, String.toList_ofList, List.mem_reverse]
        exact hinside
      · rename_i hquote
        refine ih h fun hmem => ?_
        rcases List.mem_cons.mp hmem with heq | hmem
        · exact hquote heq.symm
        · exact hinside hmem

/-- The leaf is read from some text. -/
def Parsed (l : Leaf) : Prop := ∃ s, parse s = .ok l

theorem Parsed.read {l : Leaf} (h : l.Parsed) : ∀ t ∈ .ident l.op :: l.args, t.Read := by
  obtain ⟨s, h⟩ := h
  unfold parse at h
  split at h
  · cases h
  · rename_i op args hscan
    cases h
    exact read_of_mem_scan hscan trivial
  · cases h

end Leaf

/-! ### Texts of terms -/

namespace Term

variable {t u : Term}

/-- An identifier or a hole is written as a word. -/
theorem Read.isWord_text (h : t.Read) (hword : ∀ n, t ≠ literal n) : IsWord t.text.toList := by
  cases t with
  | ident n => exact h.1
  | hole n =>
    have htext : (hole n).text.toList = '?' :: n.toList := by simp [text]
    rw [htext]
    refine ⟨List.cons_ne_nil _ _, ?_, by simp⟩
    rw [List.forall_mem_cons]
    exact ⟨by decide, h.2⟩
  | literal n => exact absurd rfl (hword n)

/-- The text of a word, or of a literal. -/
theorem Read.isWord_or (h : t.Read) :
    IsWord t.text.toList ∨ ∃ cs, '"' ∉ cs ∧ t.text.toList = '"' :: (cs ++ ['"']) := by
  cases t with
  | ident n | hole n => exact Or.inl (h.isWord_text (by simp))
  | literal n =>
    have htext : (literal n).text.toList = '"' :: (n.toList ++ ['"']) := by simp [text]
    exact Or.inr ⟨n.toList, h, htext⟩

/-- A term is told by its text. -/
theorem Read.text_inj (ht : t.Read) (hu : u.Read) (h : t.text = u.text) : t = u := by
  have hhole : ∀ {n m : String}, (ident n).Read → (hole m).Read → n ≠ "?" ++ m := by
    intro n m hn hm heq
    obtain ⟨c, cs, hcs⟩ := List.exists_cons_of_ne_nil hm.1
    have hvar : Text.isVariable n = true := by
      rw [heq, Text.isVariable, String.toList_append, hcs]
      rfl
    rw [hn.2] at hvar
    cases hvar
  have hquote : ∀ {n m : String}, (ident n).Read → n ≠ "\"" ++ m ++ "\"" := by
    intro n m hn heq
    exact hn.1.unquoted (by simp [heq])
  have hmark : ∀ {n m : String}, "?" ++ n ≠ "\"" ++ m ++ "\"" := by
    intro n m heq
    have hhead := congrArg (·.toList.head?) heq
    simp at hhead
  cases t with
  | ident n =>
    cases u with
    | ident m => exact congrArg ident h
    | hole m => exact absurd h (hhole ht hu)
    | literal m => exact absurd h (hquote ht)
  | hole n =>
    cases u with
    | ident m => exact absurd h.symm (hhole hu ht)
    | hole m => exact congrArg hole (String.append_right_inj "?" |>.mp h)
    | literal m => exact absurd h hmark
  | literal n =>
    cases u with
    | ident m => exact absurd h.symm (hquote hu)
    | hole m => exact absurd h.symm hmark
    | literal m =>
      have htext : "\"" ++ n = "\"" ++ m := (String.append_left_inj "\"").mp h
      exact congrArg literal ((String.append_right_inj "\"").mp htext)

theorem Read.texts_inj {ts us : List Term} (hts : ∀ t ∈ ts, t.Read) (hus : ∀ u ∈ us, u.Read)
    (h : ts.map text = us.map text) : ts = us := by
  induction ts generalizing us with
  | nil => exact (List.map_eq_nil_iff.mp h.symm).symm
  | cons t ts ih =>
    cases us with
    | nil => cases h
    | cons u us =>
      obtain ⟨ht, hts⟩ := List.forall_mem_cons.mp hts
      obtain ⟨hu, hus⟩ := List.forall_mem_cons.mp hus
      obtain ⟨htext, htexts⟩ := List.cons.inj h
      rw [ht.text_inj hu htext, ih hts hus htexts]

end Term

/-! ### Leaves -/

namespace Leaf

/-- The operator and the texts of the arguments. -/
def words (l : Leaf) : List String := l.op :: l.args.map Term.text

/-- The characters of a leaf as it is written. -/
theorem toList_text (l : Leaf) :
    l.text.toList = l.op.toList ++ l.args.flatMap fun a => ' ' :: a.text.toList := by
  have haux : ∀ (as : List Term) (s : String),
      (as.foldl (fun s a => s ++ " " ++ a.text) s).toList =
        s.toList ++ as.flatMap fun a => ' ' :: a.text.toList := by
    intro as
    induction as with
    | nil => simp
    | cons a as ih =>
      intro s
      rw [List.foldl_cons, ih]
      simp
  exact haux l.args l.op

/-- A leaf is its words with a blank before each of them. -/
theorem toList_words (l : Leaf) :
    ' ' :: l.text.toList = l.words.flatMap fun w => ' ' :: w.toList := by
  rw [toList_text, words, List.flatMap_cons, List.flatMap_map, List.cons_append]

end Leaf

end KnowledgeBase
