import KnowledgeBase.Text
import Std.Data.TreeSet.Lemmas

/-!
# Terms up to spelling

What `same` and `distinct` say about the folded forms of terms, and the texts that composed keys
keep apart.
-/

namespace KnowledgeBase.Text

theorem same_iff {a b : String} : same a b = true ↔ fold a = fold b := beq_iff_eq

theorem mem_of_mem_fresh {seen : Std.TreeSet String} {ts : List String} {t : String}
    (h : t ∈ fresh seen ts) : t ∈ ts := by
  induction ts generalizing seen with
  | nil => exact h
  | cons u us ih =>
    unfold fresh at h
    dsimp only at h
    split at h
    · exact List.mem_cons_of_mem _ (ih h)
    · rcases List.mem_cons.mp h with rfl | h
      · exact List.mem_cons_self
      · exact List.mem_cons_of_mem _ (ih h)

/-- A term that is kept is new. -/
theorem fold_not_mem_of_mem_fresh {seen : Std.TreeSet String} {ts : List String} {t : String}
    (h : t ∈ fresh seen ts) : fold t ∉ seen := by
  induction ts generalizing seen with
  | nil => cases h
  | cons u us ih =>
    unfold fresh at h
    dsimp only at h
    split at h
    · exact ih h
    · rename_i hseen
      rcases List.mem_cons.mp h with rfl | h
      · exact fun hmem => hseen (Std.TreeSet.mem_iff_contains.mp hmem)
      · exact fun hmem => ih h (Std.TreeSet.mem_insert.mpr (.inr hmem))

theorem exists_fresh {seen : Std.TreeSet String} {ts : List String} {t : String} (h : t ∈ ts) :
    fold t ∈ seen ∨ ∃ u ∈ fresh seen ts, fold u = fold t := by
  induction ts generalizing seen with
  | nil => cases h
  | cons u us ih =>
    unfold fresh
    dsimp only
    split
    · rename_i hseen
      rcases List.mem_cons.mp h with rfl | h
      · exact Or.inl (Std.TreeSet.mem_iff_contains.mpr hseen)
      · exact ih h
    · by_cases heq : fold u = fold t
      · exact Or.inr ⟨u, List.mem_cons_self, heq⟩
      · rcases List.mem_cons.mp h with rfl | h
        · exact absurd rfl heq
        · rcases (ih h : fold t ∈ seen.insert (fold u) ∨ _) with hseen | ⟨v, hv, hfold⟩
          · rw [Std.TreeSet.mem_insert, Std.compare_eq_iff_eq] at hseen
            rcases hseen with hseen | hseen
            · exact absurd hseen heq
            · exact Or.inl hseen
          · exact Or.inr ⟨v, List.mem_cons_of_mem _ hv, hfold⟩

/-- New terms are kept once up to spelling. -/
theorem nodup_fresh (seen : Std.TreeSet String) (ts : List String) :
    ((fresh seen ts).map fold).Nodup := by
  induction ts generalizing seen with
  | nil => exact List.nodup_nil
  | cons t ts ih =>
    unfold fresh
    dsimp only
    split
    · exact ih seen
    · refine List.nodup_cons.mpr ⟨fun hmem => ?_, ih _⟩
      obtain ⟨u, hu, hfold⟩ := List.mem_map.mp hmem
      refine fold_not_mem_of_mem_fresh hu ?_
      rw [hfold]
      exact Std.TreeSet.mem_insert_self

theorem mem_of_mem_distinct {ts : List String} {t : String} (h : t ∈ distinct ts) : t ∈ ts :=
  mem_of_mem_fresh h

/-- Every term has a spelling among the distinct ones. -/
theorem exists_distinct {ts : List String} {t : String} (h : t ∈ ts) :
    ∃ u ∈ distinct ts, fold u = fold t := by
  rcases (exists_fresh h : fold t ∈ (∅ : Std.TreeSet String) ∨ _) with hseen | hu
  · cases Std.TreeSet.not_mem_emptyc hseen
  · exact hu

/-! ### Texts in composed keys -/

/-- A text without the separator of composed keys. -/
def Clean (s : String) : Prop := '\x1f' ∉ s.toList

instance (s : String) : Decidable (Clean s) := inferInstanceAs (Decidable ('\x1f' ∉ s.toList))

theorem toLower_eq_separator {c : Char} (h : c.toLower = '\x1f') : c = '\x1f' := by
  unfold Char.toLower at h
  split at h
  · rename_i hupper
    have hval : c.val + ('a'.val - 'A'.val) = '\x1f'.val := congrArg Char.val h
    have hnat := congrArg UInt32.toNat hval
    have hlow := UInt32.le_iff_toNat_le.mp hupper.1
    have hhigh := UInt32.le_iff_toNat_le.mp hupper.2
    rw [UInt32.toNat_add] at hnat
    simp at hnat hlow hhigh
    omega
  · exact h

theorem mem_of_mem_trimmed {cs : List Char} {c : Char} (h : c ∈ trimmed cs) : c ∈ cs := by
  unfold trimmed at h
  rw [List.mem_reverse] at h
  have hback := (List.dropWhile_sublist _).subset h
  rw [List.mem_reverse] at hback
  exact (List.dropWhile_sublist _).subset hback

/-- Folding brings in no separator. -/
theorem Clean.fold {s : String} (h : Clean s) : Clean (fold s) := by
  intro hmem
  unfold Text.fold at hmem
  rw [String.toList_ofList, List.mem_map] at hmem
  obtain ⟨c, hc, hlower⟩ := hmem
  have hsep : c = '\x1f' := toLower_eq_separator hlower
  exact h (hsep ▸ mem_of_mem_trimmed hc)

end KnowledgeBase.Text

namespace KnowledgeBase

/-- A list is cut at a separator in one way, if neither front holds it. -/
theorem cut_unique {α : Type} {c : α} {a a' b b' : List α} (ha : c ∉ a) (ha' : c ∉ a')
    (h : a ++ c :: b = a' ++ c :: b') : a = a' ∧ b = b' := by
  induction a generalizing a' with
  | nil =>
    cases a' with
    | nil => exact ⟨rfl, (List.cons.inj h).2⟩
    | cons x xs =>
      obtain ⟨rfl, -⟩ := List.cons.inj h
      exact absurd List.mem_cons_self ha'
  | cons x xs ih =>
    cases a' with
    | nil =>
      obtain ⟨rfl, -⟩ := List.cons.inj h
      exact absurd List.mem_cons_self ha
    | cons y ys =>
      rw [List.cons_append, List.cons_append] at h
      obtain ⟨rfl, hrest⟩ := List.cons.inj h
      obtain ⟨rfl, rfl⟩ := ih (List.not_mem_of_not_mem_cons ha)
        (List.not_mem_of_not_mem_cons ha') hrest
      exact ⟨rfl, rfl⟩

/-- The same from behind: neither back holds the separator. -/
theorem cut_last_unique {α : Type} {c : α} {a a' b b' : List α} (hb : c ∉ b) (hb' : c ∉ b')
    (h : a ++ c :: b = a' ++ c :: b') : a = a' ∧ b = b' := by
  have hback := congrArg List.reverse h
  simp only [List.reverse_append, List.reverse_cons, List.append_assoc,
    List.singleton_append] at hback
  obtain ⟨hbs, has⟩ := cut_unique (by simpa using hb) (by simpa using hb') hback
  exact ⟨List.reverse_inj.mp has, List.reverse_inj.mp hbs⟩

/-- A key of three parts is composed in one way, if the outer parts are clean. -/
theorem Text.composed_inj {a r b a' r' b' : String} (ha : Clean a) (hb : Clean b)
    (ha' : Clean a') (hb' : Clean b')
    (h : a ++ keySeparator ++ r ++ keySeparator ++ b =
      a' ++ keySeparator ++ r' ++ keySeparator ++ b') : a = a' ∧ r = r' ∧ b = b' := by
  have hchars : a.toList ++ '\x1f' :: (r.toList ++ '\x1f' :: b.toList) =
      a'.toList ++ '\x1f' :: (r'.toList ++ '\x1f' :: b'.toList) := by
    simpa [keySeparator] using congrArg String.toList h
  obtain ⟨hfront, hrest⟩ := cut_unique ha ha' hchars
  obtain ⟨hmiddle, hback⟩ := cut_last_unique hb hb' hrest
  exact ⟨String.toList_inj.mp hfront, String.toList_inj.mp hmiddle, String.toList_inj.mp hback⟩

end KnowledgeBase
