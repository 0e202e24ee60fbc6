import KnowledgeBase.Hash
import Mathlib.Data.List.Basic

/-!
# Bytes of texts

The bytes of a text are those of its characters.  A first byte tells where a character begins, so no
character's bytes start those of another one, and bytes that are cut can be cut within one character
only.

* `utf8`, `bytes_eq`: the bytes of a text are those of its characters;
* `encode_append_inj`, `eq_of_mem_encode`: the bytes of one character;
* `utf8_eq_append`: bytes that are cut.
-/

namespace KnowledgeBase.Hash

/-- The bytes of characters, one after the other. -/
def utf8 (cs : List Char) : List UInt8 := cs.flatMap String.utf8EncodeChar

theorem toList_eq (bs : ByteArray) : bs.toList = bs.data.toList := by
  have hloop (i : ℕ) (read : List UInt8) :
      ByteArray.toList.loop bs i read = read.reverse ++ bs.data.toList.drop i := by
    fun_induction ByteArray.toList.loop bs i read with
    | case1 i read hi ih =>
      have hlt : i < bs.data.toList.length := hi
      have hget : bs.get! i = bs.data.toList[i] := getElem!_pos bs.data i hi
      rw [ih, List.drop_eq_getElem_cons hlt, hget]
      simp
    | case2 i read hi =>
      rw [List.drop_eq_nil_of_le (Nat.not_lt.mp hi), List.append_nil]
  exact hloop 0 []

theorem bytes_eq (s : String) : bytes s = utf8 s.toList := by
  have hencoded : s.toByteArray = s.toList.utf8Encode := by
    rw [← String.toByteArray_ofList, String.ofList_toList]
  rw [bytes, String.toUTF8_eq_toByteArray, toList_eq, hencoded]
  exact List.toList_data_toByteArray

variable {b : UInt8} {c d : Char} {cs : List Char} {t xs ys : List UInt8}

/-- A byte that comes after the first one of a character. -/
def Continues (b : UInt8) : Prop := ¬ b.IsUTF8FirstByte

theorem encode_eq_cons (c : Char) : ∃ b t, String.utf8EncodeChar c = b :: t ∧ b.IsUTF8FirstByte ∧
    ∀ x ∈ t, Continues x := by
  obtain ⟨b, t, hbt⟩ := List.exists_cons_of_ne_nil (String.utf8EncodeChar_ne_nil (c := c))
  have hfirst (i : ℕ) (hi : i < (b :: t).length) : (b :: t)[i].IsUTF8FirstByte ↔ i = 0 := by
    simp only [← hbt]
    exact UInt8.isUTF8FirstByte_getElem_utf8EncodeChar
  refine ⟨b, t, hbt, (hfirst 0 (by simp)).mpr rfl, fun x hx => ?_⟩
  obtain ⟨i, hi, rfl⟩ := List.getElem_of_mem hx
  intro hx
  exact absurd ((hfirst (i + 1) (by simpa using hi)).mp hx) (Nat.succ_ne_zero i)

/-- No encoding of a character starts another one. -/
theorem encode_append_inj (h : String.utf8EncodeChar c ++ xs = String.utf8EncodeChar d ++ ys) :
    c = d ∧ xs = ys := by
  have hcd : c = d := by
    have hbytes := congrArg (fun bs => bs.toByteArray.utf8DecodeChar? 0) h
    simp only [List.toByteArray_append, ByteArray.utf8DecodeChar?_utf8EncodeChar_append] at hbytes
    exact Option.some.inj hbytes
  subst hcd
  exact ⟨rfl, List.append_cancel_left h⟩

/-- A character of one byte is in the encoding of no other one. -/
theorem eq_of_mem_encode (hd : String.utf8EncodeChar d = [b]) (h : b ∈ String.utf8EncodeChar c) :
    c = d := by
  obtain ⟨b₀, t₀, hd', hfirst, -⟩ := encode_eq_cons d
  obtain ⟨x, t, hc, -, htail⟩ := encode_eq_cons c
  rw [hd] at hd'
  cases hd'
  rw [hc] at h
  rcases List.mem_cons.mp h with rfl | hmem
  · have hall : String.utf8EncodeChar c ++ [] = String.utf8EncodeChar d ++ t := by
      rw [hc, hd]
      simp
    exact (encode_append_inj hall).1
  · exact absurd hfirst (htail b hmem)

theorem utf8_cons : utf8 (c :: cs) = String.utf8EncodeChar c ++ utf8 cs := List.flatMap_cons

theorem utf8_append (cs ds : List Char) : utf8 (cs ++ ds) = utf8 cs ++ utf8 ds :=
  List.flatMap_append

theorem utf8_eq_nil : utf8 cs = [] ↔ cs = [] := by
  rw [utf8, List.flatMap_eq_nil_iff, List.eq_nil_iff_forall_not_mem]
  simp only [String.utf8EncodeChar_ne_nil, imp_false]

/-- Bytes that start with those of a character are cut after it. -/
theorem utf8_eq_encode_append (ht : ∀ b ∈ t, Continues b)
    (h : t ++ utf8 cs = String.utf8EncodeChar c ++ ys) :
    t = [] ∧ ∃ ds, cs = c :: ds ∧ ys = utf8 ds := by
  obtain ⟨b, u, hbu, hfirst, -⟩ := encode_eq_cons c
  cases t with
  | cons x t =>
    rw [hbu] at h
    obtain ⟨rfl, -⟩ := List.cons.inj h
    exact absurd hfirst (ht x List.mem_cons_self)
  | nil =>
    cases cs with
    | nil =>
      rw [hbu] at h
      cases h
    | cons d ds =>
      rw [List.nil_append, utf8_cons] at h
      obtain ⟨rfl, rfl⟩ := encode_append_inj h
      exact ⟨rfl, ds, rfl, rfl⟩

/-- Bytes that are cut are cut in a character at most, whose last bytes lead the rest. -/
theorem utf8_eq_append (h : utf8 cs = xs ++ ys) : ∃ ds es t, cs = ds ++ es ∧ ys = t ++ utf8 es ∧
    utf8 ds = xs ++ t ∧ ∀ b ∈ t, Continues b := by
  induction cs generalizing xs with
  | nil =>
    obtain ⟨rfl, rfl⟩ := List.append_eq_nil_iff.mp h.symm
    exact ⟨[], [], [], rfl, rfl, rfl, by simp⟩
  | cons c cs ih =>
    rw [utf8_cons] at h
    obtain ⟨zs, rfl, hcs⟩ | ⟨t, hc, rfl⟩ := List.append_eq_append_iff.mp h
    · obtain ⟨ds, es, t, rfl, hys, hds, ht⟩ := ih hcs
      exact ⟨c :: ds, es, t, rfl, hys, by rw [utf8_cons, hds, List.append_assoc], ht⟩
    · obtain ⟨b, u, hbu, -, hu⟩ := encode_eq_cons c
      cases xs with
      | nil => exact ⟨[], c :: cs, [], rfl, by rw [utf8_cons, hc]; rfl, rfl, by simp⟩
      | cons x xs =>
        rw [hbu, List.cons_append, List.cons.injEq] at hc
        refine ⟨[c], cs, t, rfl, rfl, ?_, fun y hy => hu y (by rw [hc.2]; simp [hy])⟩
        rw [utf8_cons, hbu, hc.1, hc.2]
        simp [utf8]

end KnowledgeBase.Hash
