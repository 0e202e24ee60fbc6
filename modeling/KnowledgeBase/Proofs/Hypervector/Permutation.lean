import KnowledgeBase.Hypervector.Permutation
import KnowledgeBase.Proofs.Hypervector.Binding
import Mathlib.Algebra.BigOperators.Fin
import Mathlib.Data.Fintype.EquivFin

/-!
# Permutations of positions

A shuffle only swaps positions, so whatever words are drawn its table is that of a permutation, and
the second table is that of the inverse.  Reading along one of them is writing along the other.

* `writeAll`, `writeAll_ofFn`: values written along a permutation;
* `tableOf`, `Tabulates`, `tabulates_ofSeed`: the tables of a seed;
* `Narrow`, `Tabulates.narrow`: tables of 32-bit words;
* `scatter`, `scatter_tableOf`, `pick_pick`: components forth and back;
* `scatterBits`, `scatterBits_tableOf`, `pickBits_pickBits`: bits forth and back;
* `hamming_pickBits`, `bind_pickBits`: distances and bindings of bits that move;
* `ActsOnComponents`, `ActsOnBits`: what a permutation does to the vectors of its size.
-/

open Finset

namespace KnowledgeBase

/-! ### Writes -/

section writes

variable {α : Type} {l : List α} {ps : List (ℕ × α)} {j n : ℕ} {a : α}

/-- Writes values at positions, one after the other. -/
def writeAll (l : List α) (ps : List (ℕ × α)) : List α := ps.foldl (fun l p => l.set p.1 p.2) l

theorem length_writeAll : (writeAll l ps).length = l.length := by
  induction ps generalizing l with
  | nil => rfl
  | cons p ps ih => exact ih.trans List.length_set

theorem getElem?_writeAll_of_notMem (h : j ∉ ps.map Prod.fst) : (writeAll l ps)[j]? = l[j]? := by
  induction ps generalizing l with
  | nil => rfl
  | cons p ps ih =>
    rw [List.map_cons, List.mem_cons, not_or] at h
    exact (ih h.2).trans (List.getElem?_set_ne (Ne.symm h.1))

/-- At a position that is written once stands what is written there. -/
theorem getElem?_writeAll (hnodup : (ps.map Prod.fst).Nodup) (hmem : (j, a) ∈ ps)
    (hj : j < l.length) : (writeAll l ps)[j]? = some a := by
  induction ps generalizing l with
  | nil => cases hmem
  | cons p ps ih =>
    rw [List.map_cons, List.nodup_cons] at hnodup
    rcases List.mem_cons.mp hmem with rfl | hmem
    · exact (getElem?_writeAll_of_notMem hnodup.1).trans (List.getElem?_set_self hj)
    · exact ih hnodup.2 hmem (by rwa [List.length_set])

/-- What is written along a permutation of all positions. -/
theorem writeAll_ofFn (e : Equiv.Perm (Fin n)) (f : Fin n → α) (hl : l.length = n) :
    writeAll l (List.ofFn fun i => ((e i : ℕ), f i)) = List.ofFn fun j => f (e.symm j) := by
  have hnodup : ((List.ofFn fun i => ((e i : ℕ), f i)).map Prod.fst).Nodup := by
    rw [List.map_ofFn]
    exact List.nodup_ofFn.mpr fun i j h => e.injective (Fin.val_injective h)
  apply List.ext_getElem?
  intro j
  by_cases hj : j < n
  · have hmem : (j, f (e.symm ⟨j, hj⟩)) ∈ List.ofFn fun i => ((e i : ℕ), f i) := by
      rw [List.mem_ofFn]
      exact ⟨e.symm ⟨j, hj⟩, by simp⟩
    rw [getElem?_writeAll hnodup hmem (hl ▸ hj)]
    simp [hj]
  · have hbeyond : (writeAll l (List.ofFn fun i => ((e i : ℕ), f i))).length ≤ j := by
      rw [length_writeAll, hl]
      exact not_lt.mp hj
    rw [List.getElem?_eq_none hbeyond, List.getElem?_eq_none (by simpa using hj)]

end writes

namespace Permutation

variable {n : ℕ} {e : Equiv.Perm (Fin n)}

/-! ### Tables -/

/-- The table that sends every position to its image. -/
def tableOf (e : Equiv.Perm (Fin n)) : Array ℕ := Array.ofFn fun i => (e i : ℕ)

/-- The tables of a permutation and of its inverse. -/
structure Tabulates (p : Permutation) (e : Equiv.Perm (Fin n)) : Prop where
  forward : p.forward = tableOf e
  inverse : p.inverse = tableOf e.symm

theorem perm_swap (table : Array ℕ) (i j : ℕ) : (table.swapIfInBounds i j).Perm table := by
  rw [Array.swapIfInBounds_def]
  split
  · split
    · exact Array.swap_perm _ _
    · exact Array.Perm.refl _
  · exact Array.Perm.refl _

/-- Whatever words are drawn, a shuffle only changes the order. -/
theorem perm_shuffle (words : List UInt64) (i : ℕ) (table : Array ℕ) :
    (shuffle words i table).Perm table := by
  induction words generalizing i table with
  | nil => exact Array.Perm.refl _
  | cons w words ih => exact (ih _ _).trans (perm_swap table _ _)

/-- A rearrangement of the positions is the table of a permutation. -/
theorem exists_tableOf {table : Array ℕ} (h : table.Perm (Array.range n)) :
    ∃ e : Equiv.Perm (Fin n), table = tableOf e := by
  have hlist : table.toList.Perm (List.range n) := by simpa using Array.perm_iff_toList_perm.mp h
  have hnodup : table.toList.Nodup := hlist.nodup_iff.mpr List.nodup_range
  obtain rfl : table.size = n := by simpa using hlist.length_eq
  have hlt (i : Fin table.size) : table[i] < table.size :=
    List.mem_range.mp (hlist.subset (Array.mem_toList_iff.mpr (Array.getElem_mem i.isLt)))
  have hinj : Function.Injective fun i => (⟨table[i], hlt i⟩ : Fin table.size) := by
    intro i j hij
    have hentries : table.toList[(i : ℕ)] = table.toList[(j : ℕ)] := by simpa using hij
    exact Fin.ext (hnodup.getElem_inj_iff.mp hentries)
  refine ⟨Equiv.ofBijective _ (Finite.injective_iff_bijective.mp hinj), ?_⟩
  apply Array.ext
  · simp [tableOf]
  · intro i _ _
    simp [tableOf]

theorem toList_invertTable (table : Array ℕ) :
    (invertTable table).toList = writeAll table.toList table.toList.zipIdx := by
  have hfold (ps : List (ℕ × ℕ)) (acc : Array ℕ) :
      (ps.foldl (fun acc p => acc.setIfInBounds p.1 p.2) acc).toList = writeAll acc.toList ps := by
    induction ps generalizing acc with
    | nil => rfl
    | cons p ps ih =>
      rw [List.foldl_cons, ih, Array.toList_setIfInBounds]
      rfl
  exact hfold _ _

theorem invertTable_tableOf (e : Equiv.Perm (Fin n)) :
    invertTable (tableOf e) = tableOf e.symm := by
  have hpairs : (tableOf e).toList.zipIdx = List.ofFn fun i => ((e i : ℕ), (i : ℕ)) := by
    apply List.ext_getElem
    · simp [tableOf]
    · intro i _ _
      simp [tableOf]
  apply Array.toList_inj.mp
  rw [toList_invertTable, hpairs, writeAll_ofFn e _ (by simp [tableOf])]
  simp [tableOf]

/-- **The tables of a seed are those of a permutation and of its inverse.** -/
theorem tabulates_ofSeed (n : ℕ) (seed : UInt64) :
    ∃ e : Equiv.Perm (Fin n), (ofSeed n seed).Tabulates e := by
  obtain ⟨e, he⟩ := exists_tableOf (perm_shuffle (Twister.draw seed (n - 1)) n (Array.range n))
  refine ⟨e, he, ?_⟩
  show invertTable (shuffle _ n (Array.range n)) = _
  rw [he, invertTable_tableOf]

theorem tabulates_ofRelation (relation : String) (n : ℕ) :
    ∃ e : Equiv.Perm (Fin n), (ofRelation relation n).Tabulates e :=
  tabulates_ofSeed n _

/-- All positions in the tables fit 32-bit words. -/
structure Narrow (p : Permutation) : Prop where
  forward : ∀ j ∈ p.forward, j < UInt32.size
  inverse : ∀ j ∈ p.inverse, j < UInt32.size

theorem lt_of_mem_tableOf (hn : n ≤ maxSize) {j : ℕ} (hj : j ∈ tableOf e) : j < UInt32.size := by
  obtain ⟨i, rfl⟩ := Array.mem_ofFn.mp hj
  exact (e i).isLt.trans_le hn

/-- **Up to the largest size the positions fit 32-bit words.** -/
theorem Tabulates.narrow {p : Permutation} (h : p.Tabulates e) (hn : n ≤ maxSize) : p.Narrow where
  forward := by
    rw [h.forward]
    exact fun _ => lt_of_mem_tableOf hn
  inverse := by
    rw [h.inverse]
    exact fun _ => lt_of_mem_tableOf hn

/-! ### Moving components -/

variable {p : Permutation} {v w : ConceptVector}

/-- Writes every component at its image. -/
def scatter (table : Array ℕ) (v : ConceptVector) : ConceptVector :=
  writeAll (ConceptVector.zero v.length) (table.toList.zip v)

theorem length_pick (e : Equiv.Perm (Fin n)) (v : ConceptVector) :
    (pick (tableOf e) v).length = n := by
  simp [pick, tableOf]

theorem getElem?_pick (e : Equiv.Perm (Fin n)) (hv : v.length = n) (j : Fin n) :
    (pick (tableOf e) v)[(j : ℕ)]? = v[(e j : ℕ)]? := by
  have hlt : (e j : ℕ) < v.length := hv ▸ (e j).isLt
  simp [pick, tableOf, List.getElem?_eq_getElem hlt]

theorem eq_of_forall_fin {w : ConceptVector} (hv : v.length = n) (hw : w.length = n)
    (h : ∀ j : Fin n, v[(j : ℕ)]? = w[(j : ℕ)]?) : v = w := by
  apply List.ext_getElem?
  intro j
  by_cases hj : j < n
  · exact h ⟨j, hj⟩
  · rw [List.getElem?_eq_none (by omega), List.getElem?_eq_none (by omega)]

theorem scatter_tableOf (e : Equiv.Perm (Fin n)) (hv : v.length = n) :
    scatter (tableOf e) v = pick (tableOf e.symm) v := by
  subst hv
  have hpairs : (tableOf e).toList.zip v = List.ofFn fun i => ((e i : ℕ), v[i]) := by
    apply List.ext_getElem
    · simp [tableOf]
    · intro i _ _
      simp [tableOf]
  rw [scatter, hpairs, writeAll_ofFn e _ (by simp [ConceptVector.zero])]
  apply eq_of_forall_fin (by simp) (length_pick e.symm v)
  intro j
  rw [getElem?_pick e.symm rfl, List.getElem?_eq_getElem (e.symm j).isLt]
  simp

theorem pick_pick (e : Equiv.Perm (Fin n)) (hv : v.length = n) :
    pick (tableOf e) (pick (tableOf e.symm) v) = v := by
  apply eq_of_forall_fin (length_pick _ _) hv
  intro j
  rw [getElem?_pick e (length_pick _ _), getElem?_pick e.symm hv, e.symm_apply_apply]

theorem Tabulates.size_eq (h : p.Tabulates e) : p.size = n := by simp [size, h.forward, tableOf]

theorem Tabulates.check_eq (h : p.Tabulates e) : p.check n = .ok () := by
  rw [check, h.size_eq, if_pos rfl]

theorem Tabulates.apply_eq (h : p.Tabulates e) (hv : v.length = n) :
    p.apply v = .ok (pick (tableOf e.symm) v) := by
  rw [apply, hv, h.check_eq, h.inverse]
  rfl

theorem Tabulates.invert_eq (h : p.Tabulates e) (hv : v.length = n) :
    p.invert v = .ok (pick (tableOf e) v) := by
  rw [invert, hv, h.check_eq, h.forward]
  rfl

/-! ### Moving bits -/

section bits

variable {v a b : Dense}

/-- The images of the bits that are set. -/
def images (table : Array ℕ) (v : Dense) : List ℕ :=
  ((List.range v.geometry).filter v.bit).map fun i => table.getD i 0

/-- Sets the image of every bit that is set, in a vector without bits. -/
def scatterBits (table : Array ℕ) (v : Dense) : Dense :=
  (Dense.blank v.geometry).setBits (images table v) true

theorem geometry_pickBits (table : Array ℕ) (v : Dense) :
    (pickBits table v).geometry = v.geometry := rfl

theorem geometry_scatterBits (table : Array ℕ) (v : Dense) :
    (scatterBits table v).geometry = v.geometry :=
  Dense.geometry_setBits _ _

theorem bit_pickBits (e : Equiv.Perm (Fin n)) (hn : Word.size ∣ n) (hv : v.geometry = n)
    (j : Fin n) : (pickBits (tableOf e) v).bit j = v.bit (e j) := by
  rw [pickBits, hv, Dense.bit_ofBits _ (Dense.lt_width hn j)]
  simp [tableOf]

theorem mem_images (e : Equiv.Perm (Fin n)) (hv : v.geometry = n) (j : ℕ) :
    j ∈ images (tableOf e) v ↔ ∃ i : Fin n, v.bit i = true ∧ (e i : ℕ) = j := by
  rw [images, hv, List.mem_map]
  constructor
  · rintro ⟨i, hi, rfl⟩
    rw [List.mem_filter, List.mem_range] at hi
    exact ⟨⟨i, hi.1⟩, hi.2, by simp [tableOf, hi.1]⟩
  · rintro ⟨i, hi, rfl⟩
    exact ⟨i, List.mem_filter.mpr ⟨List.mem_range.mpr i.isLt, hi⟩, by simp [tableOf]⟩

theorem scatterBits_tableOf (e : Equiv.Perm (Fin n)) (hn : Word.size ∣ n) (hv : v.geometry = n) :
    scatterBits (tableOf e) v = pickBits (tableOf e.symm) v := by
  have hwithin : ∀ j ∈ images (tableOf e) v, j < Dense.width (Dense.blank v.geometry).geometry := by
    intro j hj
    obtain ⟨i, -, rfl⟩ := (mem_images e hv j).mp hj
    show _ < Dense.width v.geometry
    rw [hv]
    exact Dense.lt_width hn (e i)
  apply Dense.eq_of_forall_bit hn ((geometry_scatterBits _ _).trans hv)
    ((geometry_pickBits _ _).trans hv)
  intro j
  rw [scatterBits, Dense.bit_setBits hwithin, Dense.bit_blank, Bool.false_or,
    bit_pickBits e.symm hn hv, Bool.eq_iff_iff, decide_eq_true_iff, mem_images e hv]
  constructor
  · rintro ⟨i, hi, hij⟩
    rwa [← Fin.ext hij, e.symm_apply_apply]
  · intro hj
    exact ⟨e.symm j, hj, by rw [e.apply_symm_apply]⟩

theorem pickBits_pickBits (e : Equiv.Perm (Fin n)) (hn : Word.size ∣ n) (hv : v.geometry = n) :
    pickBits (tableOf e) (pickBits (tableOf e.symm) v) = v := by
  have hpicked : (pickBits (tableOf e.symm) v).geometry = n := (geometry_pickBits _ _).trans hv
  apply Dense.eq_of_forall_bit hn ((geometry_pickBits _ _).trans hpicked) hv
  intro j
  rw [bit_pickBits e hn hpicked, bit_pickBits e.symm hn hv, e.symm_apply_apply]

theorem sum_width (hn : Word.size ∣ n) (F : ℕ → ℕ) :
    ∑ i ∈ range (Dense.width n), F i = ∑ i : Fin n, F i := by
  rw [Dense.width_of_dvd hn, Finset.sum_range]

theorem popcount_pickBits (e : Equiv.Perm (Fin n)) (hn : Word.size ∣ n) (hv : v.geometry = n) :
    (pickBits (tableOf e) v).popcount = v.popcount := by
  rw [Dense.popcount_eq, Dense.popcount_eq, geometry_pickBits, hv, sum_width hn, sum_width hn]
  simp only [bit_pickBits e hn hv]
  exact Equiv.sum_comp e fun i => (v.bit i).toNat

theorem hamming_pickBits (e : Equiv.Perm (Fin n)) (hn : Word.size ∣ n) (ha : a.geometry = n)
    (hb : b.geometry = n) :
    (pickBits (tableOf e) a).hamming (pickBits (tableOf e) b) = a.hamming b := by
  have hab : a.geometry = b.geometry := ha.trans hb.symm
  have hpicked : (pickBits (tableOf e) a).geometry = (pickBits (tableOf e) b).geometry := hab
  rw [Dense.hamming_eq hab, Dense.hamming_eq hpicked, geometry_pickBits, ha, sum_width hn,
    sum_width hn]
  simp only [bit_pickBits e hn ha, bit_pickBits e hn hb]
  rw [Equiv.sum_comp e fun i => (a.bit i ^^ b.bit i).toNat]

theorem bind_pickBits (e : Equiv.Perm (Fin n)) (hn : Word.size ∣ n) (ha : a.geometry = n)
    (hb : b.geometry = n) :
    (pickBits (tableOf e) a).bind (pickBits (tableOf e) b) =
      (a.bind b).map (pickBits (tableOf e)) := by
  have hpa : (pickBits (tableOf e) a).geometry = n := (geometry_pickBits _ _).trans ha
  have hpb : (pickBits (tableOf e) b).geometry = n := (geometry_pickBits _ _).trans hb
  have hbound : (Dense.ofBits n fun i => a.bit i ^^ b.bit i).geometry = n :=
    Dense.geometry_ofBits n _
  have hlt := Dense.lt_width hn
  rw [Dense.bind_eq ha hb, Dense.bind_eq hpa hpb]
  apply congrArg Except.ok
  apply Dense.eq_of_forall_bit hn (Dense.geometry_ofBits n _) ((geometry_pickBits _ _).trans hbound)
  intro j
  rw [bit_pickBits e hn hbound, Dense.bit_ofBits _ (hlt j), Dense.bit_ofBits _ (hlt (e j)),
    bit_pickBits e hn ha, bit_pickBits e hn hb]

theorem Tabulates.applyBits_eq (h : p.Tabulates e) (hv : v.geometry = n) :
    p.applyBits v = .ok (pickBits (tableOf e.symm) v) := by
  rw [applyBits, hv, h.check_eq, h.inverse]
  rfl

theorem Tabulates.invertBits_eq (h : p.Tabulates e) (hv : v.geometry = n) :
    p.invertBits v = .ok (pickBits (tableOf e) v) := by
  rw [invertBits, hv, h.check_eq, h.forward]
  rfl

/-! ### Permutations of a seed -/

/-- What the tables of a permutation do to concept vectors of their size. -/
structure ActsOnComponents (p : Permutation) (n : ℕ) : Prop where
  apply_eq : ∀ v : ConceptVector, v.length = n → p.apply v = .ok (scatter p.forward v)
  invert_eq : ∀ v : ConceptVector, v.length = n → p.invert v = .ok (scatter p.inverse v)
  invert_apply : ∀ v : ConceptVector, v.length = n → p.apply v >>= p.invert = .ok v
  apply_invert : ∀ v : ConceptVector, v.length = n → p.invert v >>= p.apply = .ok v

/-- What they do to dense vectors of their size. -/
structure ActsOnBits (p : Permutation) (n : ℕ) : Prop where
  apply_eq : ∀ v : Dense, v.geometry = n → p.applyBits v = .ok (scatterBits p.forward v)
  invert_eq : ∀ v : Dense, v.geometry = n → p.invertBits v = .ok (scatterBits p.inverse v)
  invert_apply : ∀ v : Dense, v.geometry = n → p.applyBits v >>= p.invertBits = .ok v
  apply_invert : ∀ v : Dense, v.geometry = n → p.invertBits v >>= p.applyBits = .ok v
  popcount : ∀ v : Dense, v.geometry = n → (p.applyBits v).map Dense.popcount = .ok v.popcount
  hamming : ∀ a b : Dense, a.geometry = n → b.geometry = n →
    (do (← p.applyBits a).hamming (← p.applyBits b)) = a.hamming b
  bind : ∀ a b : Dense, a.geometry = n → b.geometry = n →
    (do p.applyBits (← a.bind b)) = do (← p.applyBits a).bind (← p.applyBits b)

theorem Tabulates.actsOnComponents (h : p.Tabulates e) : p.ActsOnComponents n where
  apply_eq := fun v hv => by rw [h.apply_eq hv, h.forward, scatter_tableOf e hv]
  invert_eq := fun v hv => by rw [h.invert_eq hv, h.inverse, scatter_tableOf e.symm hv, e.symm_symm]
  invert_apply := fun v hv => by
    rw [h.apply_eq hv]
    show p.invert (pick (tableOf e.symm) v) = _
    rw [h.invert_eq (length_pick _ _), pick_pick e hv]
  apply_invert := fun v hv => by
    rw [h.invert_eq hv]
    show p.apply (pick (tableOf e) v) = _
    rw [h.apply_eq (length_pick _ _)]
    exact congrArg Except.ok (pick_pick e.symm hv)

theorem Tabulates.actsOnBits (h : p.Tabulates e) (hn : Word.size ∣ n) : p.ActsOnBits n where
  apply_eq := fun v hv => by rw [h.applyBits_eq hv, h.forward, scatterBits_tableOf e hn hv]
  invert_eq := fun v hv => by
    rw [h.invertBits_eq hv, h.inverse, scatterBits_tableOf e.symm hn hv, e.symm_symm]
  invert_apply := fun v hv => by
    rw [h.applyBits_eq hv]
    show p.invertBits (pickBits (tableOf e.symm) v) = _
    rw [h.invertBits_eq ((geometry_pickBits _ _).trans hv), pickBits_pickBits e hn hv]
  apply_invert := fun v hv => by
    rw [h.invertBits_eq hv]
    show p.applyBits (pickBits (tableOf e) v) = _
    rw [h.applyBits_eq ((geometry_pickBits _ _).trans hv)]
    exact congrArg Except.ok (pickBits_pickBits e.symm hn hv)
  popcount := fun v hv => by
    rw [h.applyBits_eq hv]
    exact congrArg Except.ok (popcount_pickBits e.symm hn hv)
  hamming := fun a b ha hb => by
    rw [h.applyBits_eq ha, h.applyBits_eq hb]
    exact hamming_pickBits e.symm hn ha hb
  bind := fun a b ha hb => by
    have hbound : (Dense.ofBits n fun i => a.bit i ^^ b.bit i).geometry = n :=
      Dense.geometry_ofBits n _
    rw [h.applyBits_eq ha, h.applyBits_eq hb]
    show _ = (pickBits (tableOf e.symm) a).bind (pickBits (tableOf e.symm) b)
    rw [bind_pickBits e.symm hn ha hb, Dense.bind_eq ha hb]
    exact h.applyBits_eq hbound

end bits

end Permutation

end KnowledgeBase
