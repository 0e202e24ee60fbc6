import KnowledgeBase.Proofs.Statement.Words
import KnowledgeBase.Rule.Basic
import Mathlib.Data.Set.Basic

/-!
# What a signature says

The signature of a formula has brackets around its compound parts and none around its leaves, so
leaves that stand side by side run into each other.  Nothing else is lost: as far as runs of leaves
can be told apart, formulas can.

* `Token`, `tokens`, `toList_signature`: a signature as words and closing brackets;
* `eq_of_flatMap_chars`: it is cut into these in one way;
* `Readable`, `readable_of_arity`: leaves whose runs can be told apart, as when an operator always
  takes the same number of arguments;
* `parts_unique`, `signatureOf_inj`: formulas and rules are told by their signatures, by induction
  on the number of tokens.
-/

namespace KnowledgeBase

/-! ### Tokens -/

/-- The pieces of a signature: a blank with a word after it, or a closing bracket. -/
inductive Token where
  | word (w : String)
  | close
  deriving DecidableEq

namespace Token

def chars : Token → List Char
  | word w => ' ' :: w.toList
  | close => [')']

/-- A word or literal that does not end like a bracket. -/
def Distinct : Token → Prop
  | word w => (IsWord w.toList ∧ w.toList.getLast? ≠ some ')') ∨
      ∃ cs, '"' ∉ cs ∧ w.toList = '"' :: (cs ++ ['"'])
  | close => True

/-- The text before a blank begins with closing brackets and has nothing else. -/
theorem exists_takeWhile (ts : List Token) :
    ∃ k, (ts.flatMap chars).takeWhile (· != ' ') = List.replicate k ')' := by
  induction ts with
  | nil => exact ⟨0, rfl⟩
  | cons t ts ih =>
    cases t with
    | word w => exact ⟨0, rfl⟩
    | close =>
      obtain ⟨k, hk⟩ := ih
      refine ⟨k + 1, ?_⟩
      rw [List.flatMap_cons, chars, List.singleton_append, List.takeWhile_cons_of_pos (by decide),
        hk]
      rfl

/-- A word is all that stands before the closing brackets and the next blank. -/
theorem word_unique {w w' : List Char} {ts ts' : List Token} (hw : IsWord w) (hw' : IsWord w')
    (hlast : w.getLast? ≠ some ')') (hlast' : w'.getLast? ≠ some ')')
    (h : w ++ ts.flatMap chars = w' ++ ts'.flatMap chars) : w = w' := by
  -- the word can be read off what comes before the blank, by taking the brackets away
  have hread : ∀ {v : List Char} (us : List Token), IsWord v → v.getLast? ≠ some ')' →
      ((v ++ us.flatMap chars).takeWhile (· != ' ')).reverse.dropWhile (· == ')') =
        v.reverse := by
    intro v us hv hend
    obtain ⟨k, hk⟩ := exists_takeWhile us
    have hblank : ∀ c ∈ v, (c != ' ') = true := by
      intro c hc
      have hnot := hv.unblank c hc
      rw [bne_iff_ne]
      rintro rfl
      cases hnot
    rw [List.takeWhile_append_of_pos hblank, hk, List.reverse_append, List.reverse_replicate,
      List.dropWhile_append_of_pos (by simp)]
    cases hrev : v.reverse with
    | nil => rfl
    | cons c cs =>
      rw [List.dropWhile_cons_of_neg]
      rw [← List.head?_reverse, hrev, List.head?_cons] at hend
      simpa using hend
  have hboth := hread ts hw hlast
  rw [h, hread ts' hw' hlast'] at hboth
  exact (List.reverse_inj.mp hboth).symm

/-- A word or literal is told by the text that it starts, tokens after it included. -/
theorem Distinct.unique {w w' : String} {ts ts' : List Token} (hw : (word w).Distinct)
    (hw' : (word w').Distinct)
    (h : w.toList ++ ts.flatMap chars = w'.toList ++ ts'.flatMap chars) : w = w' := by
  have hquoted : ∀ {v cs : List Char} {us us' : List Char}, IsWord v →
      v ++ us ≠ ('"' :: (cs ++ ['"'])) ++ us' := by
    intro v cs us us' hv heq
    obtain ⟨c, v', rfl⟩ := List.exists_cons_of_ne_nil hv.ne_nil
    exact hv.unquoted (congrArg some (List.cons.inj heq).1)
  rcases hw with ⟨hw, hlast⟩ | ⟨cs, hcs, hw⟩
  · rcases hw' with ⟨hw', hlast'⟩ | ⟨cs', -, hw'⟩
    · exact String.toList_inj.mp (word_unique hw hw' hlast hlast' h)
    · exact absurd (hw' ▸ h) (hquoted hw)
  · rcases hw' with ⟨hw', -⟩ | ⟨cs', hcs', hw'⟩
    · exact absurd (hw ▸ h).symm (hquoted hw')
    · rw [hw, hw'] at h
      have hinner : cs ++ '"' :: ts.flatMap chars = cs' ++ '"' :: ts'.flatMap chars := by
        simpa using h
      exact String.toList_inj.mp (by rw [hw, hw', (cut_unique hcs hcs' hinner).1])

/-- **A text is cut into tokens in one way**, by induction on the tokens. -/
theorem eq_of_flatMap_chars {ts ts' : List Token} (hts : ∀ t ∈ ts, t.Distinct)
    (hts' : ∀ t ∈ ts', t.Distinct) (h : ts.flatMap chars = ts'.flatMap chars) : ts = ts' := by
  induction ts generalizing ts' with
  | nil =>
    cases ts' with
    | nil => rfl
    | cons t ts' => cases t <;> cases h
  | cons t ts ih =>
    obtain ⟨ht, hts⟩ := List.forall_mem_cons.mp hts
    cases ts' with
    | nil => cases t <;> cases h
    | cons t' ts' =>
      obtain ⟨ht', hlater⟩ := List.forall_mem_cons.mp hts'
      rw [List.flatMap_cons, List.flatMap_cons] at h
      have hfirst : t = t' := by
        cases t with
        | close =>
          cases t' with
          | close => rfl
          | word w' => cases (List.cons.inj h).1
        | word w =>
          cases t' with
          | close => cases (List.cons.inj h).1
          | word w' => exact congrArg word (ht.unique ht' (List.cons.inj h).2)
      subst hfirst
      rw [ih hts hlater (List.append_cancel_left h)]

end Token

/-! ### Formulas as tokens -/

/-- The words that a signature has of its own. -/
def marks : List String := ["(And", "(Or", "(Not", "(Implies", "=>"]

theorem distinct_mark {o : String} (ho : o ∈ marks) : (Token.word o).Distinct := by
  have hall : ∀ o ∈ marks, o.toList ≠ [] ∧ o.toList.any Text.isBlank = false ∧
      o.toList.head? ≠ some '"' ∧ o.toList.getLast? ≠ some ')' := by decide +kernel
  obtain ⟨hne, hblank, hquote, hlast⟩ := hall o ho
  have hunblank : ∀ c ∈ o.toList, Text.isBlank c = false := by
    intro c hc
    exact Bool.eq_false_iff.mpr (List.any_eq_false.mp hblank c hc)
  exact Or.inl ⟨⟨hne, hunblank, hquote⟩, hlast⟩

/-- No word of the leaf reads like a bracket or an arrow. -/
def Leaf.Unbracketed (l : Leaf) : Prop :=
  ∀ w ∈ l.words, w.toList.getLast? ≠ some ')' ∧ w ∉ marks

instance (l : Leaf) : Decidable l.Unbracketed :=
  inferInstanceAs (Decidable (∀ w ∈ l.words, w.toList.getLast? ≠ some ')' ∧ w ∉ marks))

namespace Formula

mutual

/-- A formula over certain leaves, without references. -/
def Over (L : Set Leaf) : Formula → Prop
  | leaf l => l ∈ L
  | all ps | any ps => OverAll L ps
  | negate f => Over L f
  | implies c d => Over L c ∧ Over L d
  | reference _ => False

def OverAll (L : Set Leaf) : List Formula → Prop
  | [] => True
  | f :: fs => Over L f ∧ OverAll L fs

end

mutual

/-- The words of the leaves, and brackets around the parts of a compound formula. -/
def tokens : Formula → List Token
  | leaf l => l.words.map .word
  | all ps => .word "(And" :: (tokensOf ps ++ [.close])
  | any ps => .word "(Or" :: (tokensOf ps ++ [.close])
  | negate f => .word "(Not" :: (tokens f ++ [.close])
  | implies c d => .word "(Implies" :: (tokens c ++ tokens d ++ [.close])
  | reference n => [.word ("@" ++ n)]

def tokensOf : List Formula → List Token
  | [] => []
  | f :: fs => tokens f ++ tokensOf fs

end

variable {L : Set Leaf}

theorem overAll_iff {fs : List Formula} : OverAll L fs ↔ ∀ f ∈ fs, f.Over L := by
  induction fs with
  | nil => simp [OverAll]
  | cons f fs ih => simp [OverAll, ih]

mutual

/-- A formula without references is over every set that has its leaves. -/
theorem over_of_leaves {M : Set Leaf} :
    (f : Formula) → f.Over M → (∀ l ∈ f.leaves, l ∈ L) → f.Over L
  | leaf l, _, hl => hl l (by simp [leaves])
  | all ps, hf, hl => overAll_of_leaves ps hf hl
  | any ps, hf, hl => overAll_of_leaves ps hf hl
  | negate f, hf, hl => over_of_leaves f hf hl
  | implies c d, hf, hl =>
    ⟨over_of_leaves c hf.1 (List.forall_mem_append.mp hl).1,
      over_of_leaves d hf.2 (List.forall_mem_append.mp hl).2⟩
  | reference _, hf, _ => hf.elim

theorem overAll_of_leaves {M : Set Leaf} :
    (fs : List Formula) → OverAll M fs → (∀ l ∈ leavesOf fs, l ∈ L) → OverAll L fs
  | [], _, _ => trivial
  | f :: fs, hfs, hl =>
    ⟨over_of_leaves f hfs.1 (List.forall_mem_append.mp hl).1,
      overAll_of_leaves fs hfs.2 (List.forall_mem_append.mp hl).2⟩

end

theorem tokensOf_append (fs gs : List Formula) :
    tokensOf (fs ++ gs) = tokensOf fs ++ tokensOf gs := by
  induction fs with
  | nil => rfl
  | cons f fs ih => rw [List.cons_append, tokensOf, tokensOf, ih, List.append_assoc]

theorem tokensOf_leaves (ls : List Leaf) :
    tokensOf (ls.map leaf) = (ls.flatMap Leaf.words).map .word := by
  induction ls with
  | nil => rfl
  | cons l ls ih =>
    rw [List.map_cons, tokensOf, ih, tokens, List.flatMap_cons, List.map_append]

mutual

/-- A signature is the text of its tokens, but for the first blank. -/
theorem toList_signature : (f : Formula) →
    ' ' :: f.signature.toList = f.tokens.flatMap Token.chars
  | leaf l => by
    rw [signature, Leaf.toList_words, tokens, List.flatMap_map]
    rfl
  | all ps => by
    simp [signature, tokens, Token.chars, toList_signatures ps]
  | any ps => by
    simp [signature, tokens, Token.chars, toList_signatures ps]
  | negate f => by
    simp [signature, tokens, Token.chars, ← toList_signature f]
  | implies c d => by
    simp [signature, tokens, Token.chars, ← toList_signature c, ← toList_signature d]
  | reference n => by
    simp [signature, tokens, Token.chars]

theorem toList_signatures : (fs : List Formula) →
    (signatures fs).toList = (tokensOf fs).flatMap Token.chars
  | [] => rfl
  | f :: fs => by
    simp [signatures, tokensOf, toList_signatures fs, ← toList_signature f]

end

/-! ### Leaves side by side -/

/-- Runs of leaves are told apart by their words. -/
def Readable (L : Set Leaf) : Prop :=
  ∀ ls ls' : List Leaf, (∀ l ∈ ls, l ∈ L) → (∀ l ∈ ls', l ∈ L) →
    ls.flatMap Leaf.words = ls'.flatMap Leaf.words → ls = ls'

/-- Parsed leaves can be told apart if each operator has its number of arguments. -/
theorem readable_of_arity (hparsed : ∀ l ∈ L, l.Parsed) (arity : String → Nat)
    (harity : ∀ l ∈ L, l.args.length = arity l.op) : Readable L := by
  intro ls
  induction ls with
  | nil =>
    intro ls' _ _ h
    cases ls' with
    | nil => rfl
    | cons l' ls' => cases h
  | cons l ls ih =>
    intro ls' hls hls' h
    cases ls' with
    | nil => cases h
    | cons l' ls' =>
      obtain ⟨hl, hls⟩ := List.forall_mem_cons.mp hls
      obtain ⟨hl', hls'⟩ := List.forall_mem_cons.mp hls'
      rw [List.flatMap_cons, List.flatMap_cons, Leaf.words, Leaf.words, List.cons_append,
        List.cons_append] at h
      obtain ⟨hop, hrest⟩ := List.cons.inj h
      have hlength : (l.args.map Term.text).length = (l'.args.map Term.text).length := by
        rw [List.length_map, List.length_map, harity l hl, harity l' hl', hop]
      obtain ⟨htexts, hrest⟩ := List.append_inj hrest hlength
      have hargs : l.args = l'.args := Term.Read.texts_inj
        (List.forall_mem_cons.mp (hparsed l hl).read).2
        (List.forall_mem_cons.mp (hparsed l' hl').read).2 htexts
      rw [ih ls' hls hls' hrest]
      cases l
      cases l'
      simp only at hop hargs
      rw [hop, hargs]

/-! ### Reading formulas back -/

/-- The opening bracket of a compound formula, and its parts. -/
def compound? : Formula → Option (String × List Formula)
  | all ps => some ("(And", ps)
  | any ps => some ("(Or", ps)
  | negate f => some ("(Not", [f])
  | implies c d => some ("(Implies", [c, d])
  | leaf _ | reference _ => none

variable {f g : Formula} {fs gs : List Formula} {o : String}

theorem eq_of_compound? (hf : f.compound? = some (o, fs)) (hg : g.compound? = some (o, fs)) :
    f = g := by
  cases f <;> cases hf <;> cases g <;> simp_all [compound?]

/-- A compound formula is an opening bracket, its parts and a closing one. -/
theorem tokens_of_compound? (h : f.compound? = some (o, fs)) :
    f.tokens = .word o :: (tokensOf fs ++ [.close]) ∧ o ∈ marks ∧ o ≠ "=>" := by
  cases f <;> cases h <;> simp [tokens, tokensOf, marks]

theorem over_of_compound? (h : f.compound? = some (o, fs)) (hf : f.Over L) : OverAll L fs := by
  cases f <;> cases h <;> simpa [Over, OverAll] using hf

/-- There are no formulas, or the first of them is a compound one. -/
def Opens (fs : List Formula) : Prop :=
  fs = [] ∨ ∃ f more o ps, fs = f :: more ∧ f.compound? = some (o, ps)

/-- Formulas side by side start with a run of leaves. -/
theorem exists_run (hfs : OverAll L fs) : ∃ (ls : List Leaf) (rest : List Formula),
    fs = ls.map leaf ++ rest ∧ (∀ l ∈ ls, l ∈ L) ∧ OverAll L rest ∧ Opens rest := by
  induction fs with
  | nil => exact ⟨[], [], rfl, fun l hl => absurd hl List.not_mem_nil, trivial, Or.inl rfl⟩
  | cons f fs ih =>
    have hcompound : ∀ o ps, f.compound? = some (o, ps) → ∃ (ls : List Leaf) (rest : List Formula),
        f :: fs = ls.map leaf ++ rest ∧ (∀ l ∈ ls, l ∈ L) ∧ OverAll L rest ∧ Opens rest :=
      fun o ps h => ⟨[], f :: fs, rfl, fun l hl => absurd hl List.not_mem_nil, hfs,
        Or.inr ⟨f, fs, o, ps, rfl, h⟩⟩
    cases f with
    | leaf l =>
      obtain ⟨ls, rest, rfl, hls, hrest⟩ := ih hfs.2
      exact ⟨l :: ls, rest, rfl, List.forall_mem_cons.mpr ⟨hfs.1, hls⟩, hrest⟩
    | all ps | any ps | negate f | implies c d => exact hcompound _ _ rfl
    | reference n => exact hfs.1.elim

/-- The tokens end, or go on with a closing bracket or an arrow. -/
def Stops (ts : List Token) : Prop := ∀ w, ts.head? = some (.word w) → w = "=>"

/-- The tokens end, or go on with what is no word of a leaf. -/
def Breaks (ts : List Token) : Prop := ∀ w, ts.head? = some (.word w) → w ∈ marks

theorem Stops.breaks {ts : List Token} (h : Stops ts) : Breaks ts := by
  intro w hw
  rw [h w hw]
  decide

theorem Opens.breaks {ts : List Token} (hfs : Opens fs) (hts : Stops ts) :
    Breaks (tokensOf fs ++ ts) := by
  rcases hfs with rfl | ⟨f, more, o, ps, rfl, hf⟩
  · exact hts.breaks
  · intro w hw
    obtain ⟨htokens, hmark, -⟩ := tokens_of_compound? hf
    rw [tokensOf, htokens] at hw
    cases hw
    exact hmark

/-- An opening bracket does not stop a list of parts. -/
theorem Stops.ne_tokensOf {ts us : List Token} (hts : Stops ts) (hf : f.compound? = some (o, gs)) :
    ts ≠ tokensOf (f :: fs) ++ us := by
  rintro rfl
  obtain ⟨htokens, -, hne⟩ := tokens_of_compound? hf
  exact hne (hts o (by rw [tokensOf, htokens]; rfl))

theorem stops_close (ts : List Token) : Stops (.close :: ts) := fun w hw => by cases hw

/-- A run of words is told from what comes after it. -/
theorem run_unique {ws ws' : List String} {ts ts' : List Token} (hws : ∀ w ∈ ws, w ∉ marks)
    (hws' : ∀ w ∈ ws', w ∉ marks) (hts : Breaks ts) (hts' : Breaks ts')
    (h : ws.map Token.word ++ ts = ws'.map Token.word ++ ts') : ws = ws' ∧ ts = ts' := by
  induction ws generalizing ws' with
  | nil =>
    cases ws' with
    | nil => exact ⟨rfl, h⟩
    | cons w' ws' =>
      rw [List.map_nil, List.nil_append] at h
      exact absurd (hts w' (by rw [h]; rfl)) (hws' w' List.mem_cons_self)
  | cons w ws ih =>
    obtain ⟨hw, hws⟩ := List.forall_mem_cons.mp hws
    cases ws' with
    | nil =>
      rw [List.map_nil, List.nil_append] at h
      exact absurd (hts' w (by rw [← h]; rfl)) hw
    | cons w' ws' =>
      obtain ⟨hfirst, hrest⟩ := List.cons.inj h
      obtain ⟨rfl, rfl⟩ := ih hws (List.forall_mem_cons.mp hws').2 hrest
      exact ⟨by rw [Token.word.inj hfirst], rfl⟩

section

variable (hL : ∀ l ∈ L, l.Parsed ∧ l.Unbracketed)

include hL

theorem notMem_marks {ls : List Leaf} (hls : ∀ l ∈ ls, l ∈ L) :
    ∀ w ∈ ls.flatMap Leaf.words, w ∉ marks := by
  intro w hw
  obtain ⟨l, hl, hw⟩ := List.mem_flatMap.mp hw
  exact ((hL l (hls l hl)).2 w hw).2

/-- **Formulas side by side are told by their tokens**, by induction on the number of these: the
runs of leaves are told apart, then the brackets of the first compound formula, its parts, and what
comes after it. -/
theorem parts_unique (hread : Readable L) {fs gs : List Formula} {rest rest' : List Token}
    (hfs : OverAll L fs) (hgs : OverAll L gs) (hrest : Stops rest) (hrest' : Stops rest')
    (h : tokensOf fs ++ rest = tokensOf gs ++ rest') : fs = gs ∧ rest = rest' := by
  induction hn : (tokensOf fs).length using Nat.strong_induction_on
    generalizing fs gs rest rest' with
  | _ n ih =>
    obtain ⟨ls, fs', rfl, hls, hfs', hnext⟩ := exists_run hfs
    obtain ⟨ls', gs', rfl, hls', hgs', hnext'⟩ := exists_run hgs
    rw [tokensOf_append, tokensOf_append, tokensOf_leaves, tokensOf_leaves, List.append_assoc,
      List.append_assoc] at h
    obtain ⟨hwords, hafter⟩ := run_unique (notMem_marks hL hls) (notMem_marks hL hls')
      (hnext.breaks hrest) (hnext'.breaks hrest') h
    obtain rfl := hread ls ls' hls hls' hwords
    rw [tokensOf_append, List.length_append] at hn
    rcases hnext with rfl | ⟨f, more, o, ps, rfl, hf⟩
    · rcases hnext' with rfl | ⟨g, more', o', ps', rfl, hg⟩
      · exact ⟨rfl, hafter⟩
      · exact absurd hafter (hrest.ne_tokensOf hg)
    · rcases hnext' with rfl | ⟨g, more', o', ps', rfl, hg⟩
      · exact absurd hafter.symm (hrest'.ne_tokensOf hf)
      · obtain ⟨htokens, -, -⟩ := tokens_of_compound? hf
        obtain ⟨htokens', -, -⟩ := tokens_of_compound? hg
        simp only [tokensOf, htokens, htokens', List.cons_append, List.append_assoc,
          List.nil_append, List.length_append, List.length_cons] at hafter hn
        obtain ⟨hword, hinner⟩ := List.cons.inj hafter
        obtain rfl := Token.word.inj hword
        obtain ⟨rfl, hmore⟩ := ih _ (by omega) (over_of_compound? hf hfs'.1)
          (over_of_compound? hg hgs'.1) (stops_close _) (stops_close _) hinner rfl
        obtain ⟨rfl, hend⟩ :=
          ih _ (by omega) hfs'.2 hgs'.2 hrest hrest' (List.cons.inj hmore).2 rfl
        rw [eq_of_compound? hf hg]
        exact ⟨rfl, hend⟩

end

/-! ### Signatures -/

theorem distinct_word (hL : ∀ l ∈ L, l.Parsed ∧ l.Unbracketed) {l : Leaf} (hl : l ∈ L) :
    ∀ w ∈ l.words, (Token.word w).Distinct := by
  intro w hw
  obtain ⟨hparsed, hplain⟩ := hL l hl
  have hread : ∃ t : Term, t.Read ∧ t.text = w := by
    rcases List.mem_cons.mp hw with rfl | hargs
    · exact ⟨.ident l.op, hparsed.read _ List.mem_cons_self, rfl⟩
    · obtain ⟨t, ht, htext⟩ := List.mem_map.mp hargs
      exact ⟨t, hparsed.read t (List.mem_cons_of_mem _ ht), htext⟩
  obtain ⟨t, ht, rfl⟩ := hread
  exact ht.isWord_or.imp (⟨·, (hplain _ hw).1⟩) id

mutual

theorem distinct_tokens (hL : ∀ l ∈ L, l.Parsed ∧ l.Unbracketed) :
    (f : Formula) → f.Over L → ∀ t ∈ f.tokens, t.Distinct
  | leaf l, hf => by
    rw [tokens, List.forall_mem_map]
    exact distinct_word hL hf
  | all ps, hf | any ps, hf => by
    rw [tokens, List.forall_mem_cons, List.forall_mem_append, List.forall_mem_singleton]
    exact ⟨distinct_mark (by decide), distinct_tokensOf hL ps hf, trivial⟩
  | negate f, hf => by
    rw [tokens, List.forall_mem_cons, List.forall_mem_append, List.forall_mem_singleton]
    exact ⟨distinct_mark (by decide), distinct_tokens hL f hf, trivial⟩
  | implies c d, hf => by
    rw [tokens, List.forall_mem_cons, List.forall_mem_append, List.forall_mem_append,
      List.forall_mem_singleton]
    exact ⟨distinct_mark (by decide), ⟨distinct_tokens hL c hf.1, distinct_tokens hL d hf.2⟩,
      trivial⟩
  | reference n, hf => hf.elim

theorem distinct_tokensOf (hL : ∀ l ∈ L, l.Parsed ∧ l.Unbracketed) :
    (fs : List Formula) → OverAll L fs → ∀ t ∈ tokensOf fs, t.Distinct
  | [], _ => fun t ht => absurd ht List.not_mem_nil
  | f :: fs, hfs => by
    rw [tokensOf, List.forall_mem_append]
    exact ⟨distinct_tokens hL f hfs.1, distinct_tokensOf hL fs hfs.2⟩

end

/-- **Rules are told by their signatures**, as far as runs of their leaves are told by their
words. -/
theorem signatureOf_inj (hL : ∀ l ∈ L, l.Parsed ∧ l.Unbracketed) (hread : Readable L)
    {c d c' d' : Formula} (hc : c.Over L) (hd : d.Over L) (hc' : c'.Over L) (hd' : d'.Over L)
    (h : Rule.signatureOf c d = Rule.signatureOf c' d') : c = c' ∧ d = d' := by
  have hchars : ∀ c d : Formula, ' ' :: (Rule.signatureOf c d).toList =
      (c.tokens ++ .word "=>" :: d.tokens).flatMap Token.chars := by
    intro c d
    rw [List.flatMap_append, List.flatMap_cons, ← toList_signature, ← toList_signature]
    simp [Rule.signatureOf, Token.chars]
  have hdistinct : ∀ {c d : Formula}, c.Over L → d.Over L →
      ∀ t ∈ c.tokens ++ .word "=>" :: d.tokens, t.Distinct := by
    intro c d hc hd
    rw [List.forall_mem_append, List.forall_mem_cons]
    exact ⟨distinct_tokens hL c hc, distinct_mark (by decide), distinct_tokens hL d hd⟩
  have htokens := Token.eq_of_flatMap_chars (hdistinct hc hd) (hdistinct hc' hd')
    (by rw [← hchars, ← hchars, h])
  have harrow : ∀ ts : List Token, Stops (.word "=>" :: ts) := fun ts w hw => by
    cases hw
    rfl
  have hend : Stops [] := fun w hw => by cases hw
  have hone : ∀ {f : Formula}, f.Over L → OverAll L [f] := fun hf => ⟨hf, trivial⟩
  obtain ⟨hcs, hrest⟩ := parts_unique hL hread (hone hc) (hone hc') (harrow d.tokens)
    (harrow d'.tokens) (by simpa [tokensOf] using htokens)
  obtain ⟨hds, -⟩ := parts_unique hL hread (hone hd) (hone hd') hend hend
    (by simpa [tokensOf] using hrest)
  exact ⟨(List.cons.inj hcs).1, (List.cons.inj hds).1⟩

end Formula

end KnowledgeBase
