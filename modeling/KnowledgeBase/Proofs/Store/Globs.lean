import KnowledgeBase.Proofs.Bytes
import KnowledgeBase.Proofs.Store.Forgetting
import KnowledgeBase.Store.Expression

/-!
# Forgetting by pattern

A pattern covers characters as the expression for its bytes covers bytes, so it selects what becomes
of it when every star gives way to some run of bytes within a line.

* `Expression.read?_ofGlob`: what a glob becomes is read back;
* `Glob.Fills`: what becomes of a pattern;
* `Glob.fills_utf8_iff`: a star that gives way to bytes gives way to whole characters;
* `Glob.matchesLabel_iff`, `Glob.matchesLabel_iff_obtains`: what a pattern covers;
* `Store.ForgetsObtained`, `Store.forget_pattern`: what a pattern forgets;
* `Store.twoLines_kept`: a label of two lines that a star does not cover.
-/

namespace KnowledgeBase.Expression

/-! ### What is read back -/

variable {b : UInt8} {bs : List UInt8}

/-- What is read for a byte of a glob. -/
def piece (b : UInt8) : Piece := if b = asterisk then .run else .byte b

theorem pieces?_wildcard : pieces? (dot :: asterisk :: bs) = (pieces? bs).map (.run :: ·) := rfl

theorem pieces?_escaped (h : b ∈ escaped) :
    pieces? (backslash :: b :: bs) = (pieces? bs).map (.byte b :: ·) :=
  if_pos (List.mem_cons_of_mem _ h)

theorem pieces?_plain (hstar : b ≠ asterisk) (h : b ∉ escaped) :
    pieces? (b :: bs) = (pieces? bs).map (.byte b :: ·) := by
  have hstop : b ≠ stop := fun hb => h (hb ▸ by decide)
  have hbackslash : b ≠ backslash := fun hb => h (hb ▸ by decide)
  have hdot : b ≠ dot := fun hb => h (hb ▸ by decide)
  have hplain : b ∉ asterisk :: escaped := by simp [hstar, h]
  conv_lhs => unfold pieces?
  rw [if_neg hstop, if_neg hbackslash, if_neg hdot, if_neg hplain]

theorem pieces?_translate (glob : List UInt8) :
    pieces? (glob.flatMap translate ++ [stop]) = some (glob.map piece) := by
  induction glob with
  | nil => rfl
  | cons b bs ih =>
    rw [List.flatMap_cons, List.append_assoc, List.map_cons]
    unfold translate piece
    split
    · exact pieces?_wildcard.trans (congrArg _ ih)
    · split
      · exact (pieces?_escaped ‹_›).trans (congrArg _ ih)
      · exact (pieces?_plain ‹_› ‹_›).trans (congrArg _ ih)

/-- **What a glob becomes is an expression, byte by byte.** -/
theorem read?_ofGlob (glob : List UInt8) : read? (ofGlob glob) = some (glob.map piece) :=
  pieces?_translate glob

end KnowledgeBase.Expression

namespace KnowledgeBase.Glob

open Expression Hash

/-! ### What becomes of a pattern -/

/-- A text is what a pattern becomes when every star gives way to some run of what is allowed, and
everything else stands for itself. -/
inductive Fills {α : Type} (star : α) (ok : α → Prop) : List α → List α → Prop
  | done : Fills star ok [] []
  | self {p ps cs} : p ≠ star → Fills star ok ps cs → Fills star ok (p :: ps) (p :: cs)
  | run {ps cs} (run) : (∀ c ∈ run, ok c) → Fills star ok ps cs →
      Fills star ok (star :: ps) (run ++ cs)

section fills

variable {α : Type} {star : α} {ok : α → Prop} {ps xs cs : List α}

theorem fills_nil : Fills star ok [] cs ↔ cs = [] := by
  constructor
  · intro h
    cases h
    rfl
  · rintro rfl
    exact .done

theorem fills_star : Fills star ok (star :: ps) cs ↔
    ∃ run rest, cs = run ++ rest ∧ (∀ c ∈ run, ok c) ∧ Fills star ok ps rest := by
  constructor
  · intro h
    cases h with
    | self hp => exact absurd rfl hp
    | run run hrun hrest => exact ⟨run, _, rfl, hrun, hrest⟩
  · rintro ⟨run, rest, rfl, hrun, hrest⟩
    exact .run run hrun hrest

/-- What is no star stands for itself. -/
theorem fills_append (hxs : ∀ x ∈ xs, x ≠ star) : Fills star ok (xs ++ ps) cs ↔
    ∃ rest, cs = xs ++ rest ∧ Fills star ok ps rest := by
  induction xs generalizing cs with
  | nil => simp
  | cons x xs ih =>
    obtain ⟨hx, hxs⟩ := List.forall_mem_cons.mp hxs
    constructor
    · intro h
      cases h with
      | self _ h =>
        obtain ⟨rest, rfl, hrest⟩ := (ih hxs).mp h
        exact ⟨rest, rfl, hrest⟩
      | run => exact absurd rfl hx
    · rintro ⟨rest, rfl, hrest⟩
      exact .self hx ((ih hxs).mpr ⟨rest, rfl, hrest⟩)

end fills

/-! ### Bytes and characters -/

variable {ps cs rest : List Char} {t bs ls : List UInt8} {c : Char}

/-- A byte within a line. -/
def InLine (b : UInt8) : Prop := Expression.isLineEnd b = false

theorem covers_piece_iff : Covers (bs.map piece) ls ↔ Fills asterisk InLine bs ls := by
  constructor
  · intro h
    generalize hps : bs.map piece = ps at h
    induction h generalizing bs with
    | done =>
      rw [List.map_eq_nil_iff.mp hps]
      exact .done
    | byte b _ ih =>
      obtain ⟨b', bs, rfl, hb', hbs⟩ := List.map_eq_cons_iff.mp hps
      unfold piece at hb'
      split at hb'
      · cases hb'
      · cases hb'
        exact .self ‹_› (ih hbs)
    | run run hrun _ ih =>
      obtain ⟨b', bs, rfl, hb', hbs⟩ := List.map_eq_cons_iff.mp hps
      unfold piece at hb'
      split at hb'
      · subst b'
        exact .run run hrun (ih hbs)
      · cases hb'
  · intro h
    induction h with
    | done => exact .done
    | self hp _ ih =>
      rw [List.map_cons, piece, if_neg hp]
      exact .byte _ ih
    | run run hrun _ ih => exact .run run hrun ih

/-! ### Characters -/

theorem mem_afterRun : rest ∈ afterRun cs ↔
    ∃ run, cs = run ++ rest ∧ ∀ c ∈ run, isLineEnd c = false := by
  induction cs with
  | nil =>
    simp only [afterRun, List.mem_singleton]
    constructor
    · rintro rfl
      exact ⟨[], rfl, by simp⟩
    · rintro ⟨run, h, -⟩
      exact (List.append_eq_nil_iff.mp h.symm).2
  | cons c cs ih =>
    have htail : rest ∈ (if isLineEnd c then [] else afterRun cs) ↔
        isLineEnd c = false ∧ ∃ run, cs = run ++ rest ∧ ∀ c ∈ run, isLineEnd c = false := by
      rw [← ih]
      cases isLineEnd c <;> simp
    rw [afterRun, List.mem_cons, htail]
    constructor
    · rintro (rfl | ⟨hc, run, rfl, hrun⟩)
      · exact ⟨[], rfl, by simp⟩
      · exact ⟨c :: run, rfl, List.forall_mem_cons.mpr ⟨hc, hrun⟩⟩
    · rintro ⟨run, h, hrun⟩
      cases run with
      | nil => exact .inl h.symm
      | cons d run =>
        obtain ⟨rfl, rfl⟩ := List.cons.inj h
        obtain ⟨hc, hrun⟩ := List.forall_mem_cons.mp hrun
        exact .inr ⟨hc, run, rfl, hrun⟩

theorem covers_star : covers ('*' :: ps) cs = (afterRun cs).any (covers ps) := by
  cases cs <;> rfl

theorem covers_self {p : Char} (hp : p ≠ '*') : covers (p :: ps) cs = true ↔
    ∃ rest, cs = p :: rest ∧ covers ps rest = true := by
  cases cs with
  | nil => simp [covers, hp]
  | cons c cs =>
    rw [covers, if_neg hp, Bool.and_eq_true, beq_iff_eq]
    constructor
    · rintro ⟨rfl, h⟩
      exact ⟨cs, rfl, h⟩
    · rintro ⟨rest, hcs, h⟩
      obtain ⟨rfl, rfl⟩ := List.cons.inj hcs
      exact ⟨rfl, h⟩

theorem covers_iff : covers ps cs = true ↔ Fills '*' (isLineEnd · = false) ps cs := by
  induction ps generalizing cs with
  | nil => rw [fills_nil, covers, List.isEmpty_iff]
  | cons p ps ih =>
    by_cases hp : p = '*'
    · subst hp
      rw [covers_star, fills_star, List.any_eq_true]
      simp only [mem_afterRun, ih]
      constructor
      · rintro ⟨rest, ⟨run, rfl, hrun⟩, hrest⟩
        exact ⟨run, rest, rfl, hrun, hrest⟩
      · rintro ⟨run, rest, rfl, hrun, hrest⟩
        exact ⟨rest, ⟨run, rfl, hrun⟩, hrest⟩
    · have hsingle : p :: ps = [p] ++ ps := rfl
      rw [covers_self hp, hsingle, fills_append (by simpa using hp)]
      simp only [ih]
      rfl

theorem encode_star : String.utf8EncodeChar '*' = [asterisk] := by decide

theorem star_notMem (h : c ≠ '*') : ∀ b ∈ String.utf8EncodeChar c, b ≠ asterisk := by
  rintro b hb rfl
  exact h (eq_of_mem_encode encode_star hb)

/-- A character is within a line if its bytes are. -/
theorem inLine_iff : (∀ b ∈ String.utf8EncodeChar c, InLine b) ↔ isLineEnd c = false := by
  constructor
  · intro h
    by_contra hc
    rw [Bool.not_eq_false, isLineEnd, Bool.or_eq_true, beq_iff_eq, beq_iff_eq] at hc
    rcases hc with rfl | rfl
    · exact absurd (h '\n'.toUInt8 (by decide)) (by unfold InLine; decide)
    · exact absurd (h '\r'.toUInt8 (by decide)) (by unfold InLine; decide)
  · intro hc b hb
    by_contra hends
    rw [InLine, Bool.not_eq_false, Expression.isLineEnd, Bool.or_eq_true, beq_iff_eq,
      beq_iff_eq] at hends
    rcases hends with rfl | rfl
    · rw [eq_of_mem_encode (d := '\n') (by decide) hb] at hc
      exact absurd hc (by decide)
    · rw [eq_of_mem_encode (d := '\r') (by decide) hb] at hc
      exact absurd hc (by decide)

theorem inLine_utf8 : (∀ b ∈ utf8 cs, InLine b) ↔ ∀ c ∈ cs, isLineEnd c = false := by
  simp only [utf8, List.mem_flatMap, ← inLine_iff]
  constructor
  · intro h c hc b hb
    exact h b ⟨c, hc, hb⟩
  · rintro h b ⟨c, hc, hb⟩
    exact h c hc b hb

theorem fills_utf8_cons (p : Char) (hp : p ≠ '*') :
    Fills asterisk InLine (utf8 (p :: ps)) bs ↔
      ∃ rest, bs = String.utf8EncodeChar p ++ rest ∧ Fills asterisk InLine (utf8 ps) rest := by
  rw [utf8_cons, fills_append (star_notMem hp)]

theorem fills_utf8_star : Fills asterisk InLine (utf8 ('*' :: ps)) bs ↔
    ∃ run rest, bs = run ++ rest ∧ (∀ b ∈ run, InLine b) ∧
      Fills asterisk InLine (utf8 ps) rest := by
  rw [utf8_cons, encode_star]
  exact fills_star

theorem fills_utf8_of_fills (h : Fills '*' (isLineEnd · = false) ps cs) :
    Fills asterisk InLine (utf8 ps) (utf8 cs) := by
  induction h with
  | done => exact .done
  | @self p _ _ hp _ ih => exact (fills_utf8_cons p hp).mpr ⟨_, utf8_cons, ih⟩
  | run run hrun _ ih => exact fills_utf8_star.mpr ⟨_, _, utf8_append _ _, inLine_utf8.mpr hrun, ih⟩

/-- Bytes that continue a character fill nothing but a run. -/
theorem fills_of_fills_utf8 (ht : ∀ b ∈ t, Continues b)
    (h : Fills asterisk InLine (utf8 ps) (t ++ utf8 cs)) :
    (∀ b ∈ t, InLine b) ∧ Fills '*' (isLineEnd · = false) ps cs := by
  induction ps generalizing t cs with
  | nil =>
    obtain ⟨rfl, hcs⟩ := List.append_eq_nil_iff.mp (fills_nil.mp h)
    rw [utf8_eq_nil.mp hcs]
    exact ⟨by simp, .done⟩
  | cons p ps ih =>
    by_cases hp : p = '*'
    · subst hp
      obtain ⟨run, rest, hbytes, hrun, hrest⟩ := fills_utf8_star.mp h
      obtain ⟨u, rfl, hcs⟩ | ⟨u, rfl, rfl⟩ := List.append_eq_append_iff.mp hbytes
      -- the run ends in the characters, perhaps within one
      · obtain ⟨ds, es, v, rfl, rfl, hds, hv⟩ := utf8_eq_append hcs
        obtain ⟨hvline, hes⟩ := ih hv hrest
        obtain ⟨htline, huline⟩ := List.forall_mem_append.mp hrun
        refine ⟨htline, .run ds (inLine_utf8.mp ?_) hes⟩
        rw [hds]
        exact List.forall_mem_append.mpr ⟨huline, hvline⟩
      -- the run ends before them
      · obtain ⟨huline, hcs⟩ := ih (List.forall_mem_append.mp ht).2 hrest
        exact ⟨List.forall_mem_append.mpr ⟨hrun, huline⟩, .run [] (by simp) hcs⟩
    · obtain ⟨rest, hbytes, hrest⟩ := (fills_utf8_cons p hp).mp h
      obtain ⟨rfl, ds, rfl, rfl⟩ := utf8_eq_encode_append ht hbytes
      exact ⟨by simp, .self hp (ih (t := []) (by simp) hrest).2⟩

theorem fills_utf8_iff : Fills asterisk InLine (utf8 ps) (utf8 cs) ↔
    Fills '*' (isLineEnd · = false) ps cs :=
  ⟨fun h => (fills_of_fills_utf8 (t := []) (by simp) h).2, fills_utf8_of_fills⟩

theorem matchesLabel_iff_fills (pattern label : String) : matchesLabel pattern label = true ↔
    Fills asterisk InLine (bytes pattern) (bytes label) := by
  rw [bytes_eq, bytes_eq, fills_utf8_iff, matchesLabel, covers_iff]

/-- **A pattern covers a label as its expression covers the bytes.** -/
theorem matchesLabel_iff (pattern label : String) : matchesLabel pattern label = true ↔
    ∃ ps, read? (ofGlob (bytes pattern)) = some ps ∧ Covers ps (bytes label) := by
  rw [matchesLabel_iff_fills, ← covers_piece_iff, read?_ofGlob]
  simp

/-! ### Runs of any bytes -/

/-- How many line ends there are among bytes. -/
def lineEnds (bs : List UInt8) : ℕ := bs.countP Expression.isLineEnd

theorem lineEnds_cons (b : UInt8) (bs : List UInt8) :
    lineEnds (b :: bs) = lineEnds bs + if Expression.isLineEnd b then 1 else 0 :=
  List.countP_cons

theorem lineEnds_append (run : List UInt8) : lineEnds (run ++ bs) = lineEnds run + lineEnds bs :=
  List.countP_append

theorem lineEnds_star : lineEnds (asterisk :: bs) = lineEnds bs := by
  rw [lineEnds_cons]
  rfl

theorem lineEnds_eq_zero : lineEnds bs = 0 ↔ ∀ b ∈ bs, InLine b := by
  simp [lineEnds, InLine, List.countP_eq_zero]

/-- A label is what becomes of a pattern when every star gives way to some run of bytes. -/
def Obtains (pattern label : String) : Prop :=
  Fills asterisk (fun _ => True) (bytes pattern) (bytes label)

theorem lineEnds_le (h : Fills asterisk (fun _ => True) bs ls) : lineEnds bs ≤ lineEnds ls := by
  induction h with
  | done => exact Nat.le_refl 0
  | self _ _ ih =>
    rw [lineEnds_cons, lineEnds_cons]
    exact Nat.add_le_add_right ih _
  | run run _ _ ih =>
    rw [lineEnds_star, lineEnds_append]
    exact Nat.le_add_left_of_le ih

/-- Runs stay within a line exactly if there are no more line ends than in the pattern. -/
theorem fills_inLine_iff : Fills asterisk InLine bs ls ↔
    Fills asterisk (fun _ => True) bs ls ∧ lineEnds ls = lineEnds bs := by
  constructor
  · intro h
    induction h with
    | done => exact ⟨.done, rfl⟩
    | self hp _ ih =>
      refine ⟨.self hp ih.1, ?_⟩
      rw [lineEnds_cons, lineEnds_cons, ih.2]
    | run run hrun _ ih =>
      refine ⟨.run run (fun _ _ => trivial) ih.1, ?_⟩
      rw [lineEnds_star, lineEnds_append, lineEnds_eq_zero.mpr hrun, ih.2, Nat.zero_add]
  · rintro ⟨h, hends⟩
    induction h with
    | done => exact .done
    | self hp _ ih =>
      rw [lineEnds_cons, lineEnds_cons] at hends
      exact .self hp (ih (Nat.add_right_cancel hends))
    | run run _ hrest ih =>
      have hle := lineEnds_le hrest
      rw [lineEnds_star, lineEnds_append] at hends
      have hnone : lineEnds run = 0 := by omega
      exact .run run (lineEnds_eq_zero.mp hnone) (ih (by omega))

theorem matchesLabel_iff_obtains (pattern label : String) : matchesLabel pattern label = true ↔
    Obtains pattern label ∧ lineEnds (bytes label) = lineEnds (bytes pattern) := by
  rw [Obtains, ← fills_inLine_iff, matchesLabel_iff_fills]

end KnowledgeBase.Glob

namespace KnowledgeBase.Store

open Expression Glob Hash

/-! ### What a pattern forgets -/

variable {s : Store} {q : ForgetRequest} {now : Millis} {pattern : String}

/-- What a pattern selects: the concepts whose labels its expression covers, which are obtained from
it without a further line end. -/
structure ForgetsObtained (s : Store) (done : Forgotten) (pattern : String) : Prop where
  covered : ∀ l, l ∈ done.selected ↔ s.hasConcept l = true ∧
    ∃ ps, read? (ofGlob (bytes pattern)) = some ps ∧ Covers ps (bytes l)
  obtained : ∀ l, l ∈ done.selected ↔ s.hasConcept l = true ∧ Obtains pattern l ∧
    lineEnds (bytes l) = lineEnds (bytes pattern)

/-- A pattern selects exactly the concepts whose labels are obtained from it. -/
def SelectsObtained (s : Store) (done : Forgotten) (pattern : String) : Prop :=
  ∀ l, l ∈ done.selected ↔ s.hasConcept l = true ∧ Obtains pattern l

theorem select_pattern (s : Store) (now : Millis) (hlabel : q.label = none)
    (hpattern : q.pattern = some pattern) :
    s.select q now = .ok (s.conceptLabels.filter (matchesLabel pattern)) := by
  unfold select
  rw [hlabel, hpattern]

theorem ForgetsObtained.selectsObtained_iff {done : Forgotten}
    (h : ForgetsObtained s done pattern) : SelectsObtained s done pattern ↔
      ∀ l, s.hasConcept l = true → Obtains pattern l →
        lineEnds (bytes l) = lineEnds (bytes pattern) := by
  unfold SelectsObtained
  simp only [h.obtained]
  constructor
  · intro hall l hl hobtained
    exact ((hall l).mpr ⟨hl, hobtained⟩).2.2
  · intro hends l
    constructor
    · rintro ⟨hl, hobtained, -⟩
      exact ⟨hl, hobtained⟩
    · rintro ⟨hl, hobtained⟩
      exact ⟨hl, hobtained, hends l hl hobtained⟩

/-- **A pattern forgets what is obtained from it by runs within a line.**  Those are all concepts
whose labels are obtained from it by any runs, exactly if none of the labels has further line
ends. -/
theorem forget_pattern (s : Store) (pattern : String) (threshold : Option UInt32)
    (olderThan : Option String) (dryRun : Bool) (now : Millis) :
    ∃ s' done, s.forget ⟨none, some pattern, threshold, olderThan, dryRun⟩ now = .ok (s', done) ∧
      (∀ l, s'.concept? l = if l ∈ done.removed then none else s.concept? l) ∧
      ForgetsObtained s done pattern ∧
      (SelectsObtained s done pattern ↔ ∀ l, s.hasConcept l = true → Obtains pattern l →
        lineEnds (bytes l) = lineEnds (bytes pattern)) := by
  obtain ⟨s', done, hforget, hreported, hgone⟩ := forget_selects
    (select_pattern s now (q := ⟨none, some pattern, threshold, olderThan, dryRun⟩) rfl rfl)
  have hselected (l : String) : l ∈ done.selected ↔
      s.hasConcept l = true ∧ matchesLabel pattern l = true := by
    rw [hreported, List.mem_filter, mem_conceptLabels]
  have hobtained : ForgetsObtained s done pattern := by
    constructor
    · intro l
      rw [hselected, matchesLabel_iff]
    · intro l
      rw [hselected, matchesLabel_iff_obtains]
  exact ⟨s', done, hforget, hgone, hobtained, hobtained.selectsObtained_iff⟩

/-- A concept whose label has a line end. -/
def twoLines : Store := ({ dimensions := 2 } : Store).after (.ensure "a\nb" 1000)

theorem twoLines_kept :
    Reached Unwrapped twoLines ∧ twoLines.hasConcept "a\nb" = true ∧ Obtains "a*" "a\nb" ∧
      ∃ s' done, twoLines.forget { pattern := some "a*" } 1000 = .ok (s', done) ∧
        ¬ SelectsObtained twoLines done "a*" := by
  have hr : Reached Unwrapped twoLines := by
    unfold twoLines
    exact .step _ (.make (n := 2) rfl) (by decide +kernel)
  have hconcept : twoLines.hasConcept "a\nb" = true := by decide +kernel
  have hobtained : Obtains "a*" "a\nb" := by
    have hpattern : bytes "a*" = [97, asterisk] := by decide +kernel
    have hlabel : bytes "a\nb" = 97 :: ([10, 98] ++ []) := by decide +kernel
    rw [Obtains, hpattern, hlabel]
    exact .self (by decide) (.run [10, 98] (fun _ _ => trivial) .done)
  obtain ⟨s', done, hforget, hreported, -⟩ :=
    forget_selects (select_pattern twoLines 1000 (q := { pattern := some "a*" }) rfl rfl)
  refine ⟨hr, hconcept, hobtained, s', done, hforget, fun hselects => ?_⟩
  have hselected := (hreported _).mp ((hselects "a\nb").mpr ⟨hconcept, hobtained⟩)
  exact absurd (List.mem_filter.mp hselected).2 (by decide)

end KnowledgeBase.Store
