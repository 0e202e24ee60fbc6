import KnowledgeBase.Proofs.Hypervector.Bits
import Mathlib.Algebra.BigOperators.Fin
import Mathlib.InformationTheory.Hamming

/-!
# Binding as a group of isometries

The vectors of a geometry form a group under binding, in which every vector is its own inverse, and
binding with any of them keeps distances.  Many vectors are bound to the parity of their bits, so
neither their order matters nor a vector that comes in twice.

* `bind_eq`, `bind_comm`, `bind_assoc`, `bind_bind`: binding two vectors;
* `parity`, `bindAll_eq`: binding many;
* `bits`, `hamming_eq_hammingDist`: the distance of two vectors is that of their families of bits;
* `GroupLaws`, `FoldLaws`, `MetricLaws`, `binding_isometric`: the laws of a geometry.
-/

open Finset

namespace KnowledgeBase.Dense

variable {a b c v w : Dense} {vs ws : List Dense} {g i : ℕ}

/-! ### Two vectors -/

/-- Binding combines bits one by one. -/
theorem bind_eq (ha : a.geometry = g) (hb : b.geometry = g) :
    a.bind b = .ok (ofBits g fun i => a.bit i ^^ b.bit i) := by
  have hab : a.geometry = b.geometry := ha.trans hb.symm
  rw [bind, dif_pos hab]
  congr 1
  apply eq_of_bits ha
  intro i hi
  rw [bit_xor, bit_ofBits _ (ha ▸ hi)]

theorem ofBits_bind (f : ℕ → Bool) (hb : b.geometry = g) :
    (ofBits g f).bind b = .ok (ofBits g fun i => f i ^^ b.bit i) := by
  rw [bind_eq (geometry_ofBits g f) hb]
  congr 1
  apply ofBits_congr
  intro i hi
  rw [bit_ofBits f hi]

theorem bind_comm (ha : a.geometry = g) (hb : b.geometry = g) : a.bind b = b.bind a := by
  rw [bind_eq ha hb, bind_eq hb ha]
  simp only [Bool.xor_comm]

theorem bind_assoc (ha : a.geometry = g) (hb : b.geometry = g) (hc : c.geometry = g) :
    (do (← a.bind b).bind c) = (do a.bind (← b.bind c)) := by
  rw [bind_eq ha hb, bind_eq hb hc]
  show (ofBits g _).bind c = a.bind (ofBits g _)
  rw [bind_comm ha (geometry_ofBits g _), ofBits_bind _ hc, ofBits_bind _ ha]
  congr 2
  funext i
  rw [Bool.xor_assoc, Bool.xor_comm]

/-- What is bound twice is gone. -/
theorem bind_bind (ha : a.geometry = g) (hb : b.geometry = g) :
    (do (← a.bind b).bind b) = .ok a := by
  rw [bind_eq ha hb]
  show (ofBits g _).bind b = _
  rw [ofBits_bind _ hb]
  simp only [Bool.xor_assoc, Bool.xor_self, Bool.xor_false]
  rw [← eq_ofBits ha]

theorem blank_eq (g : ℕ) : blank g = ofBits g fun _ => false := by
  have hbits : (blank g).bit = fun _ => false := funext fun _ => bit_blank
  rw [← hbits]
  exact eq_ofBits rfl

theorem bind_blank (ha : a.geometry = g) : a.bind (blank g) = .ok a := by
  rw [bind_eq ha rfl]
  simp only [bit_blank, Bool.xor_false]
  rw [← eq_ofBits ha]

theorem bind_self (ha : a.geometry = g) : a.bind a = .ok (blank g) := by
  rw [bind_eq ha ha, blank_eq]
  simp only [Bool.xor_self]

/-! ### Many vectors -/

/-- An odd number of vectors have the bit. -/
def parity (vs : List Dense) (i : ℕ) : Bool := vs.countP (·.bit i) % 2 == 1

theorem parity_cons (v : Dense) (vs : List Dense) (i : ℕ) :
    parity (v :: vs) i = (v.bit i ^^ parity vs i) := by
  unfold parity
  rw [List.countP_cons]
  rcases Nat.mod_two_eq_zero_or_one (vs.countP (·.bit i)) with h | h
  · cases v.bit i <;> simp [h, Nat.add_mod]
  · cases v.bit i <;> simp [h, Nat.add_mod]

theorem parity_perm (h : ws.Perm vs) : parity ws = parity vs := by
  funext i
  unfold parity
  rw [h.countP_eq]

theorem parity_twice (v : Dense) (vs : List Dense) : parity (v :: v :: vs) = parity vs := by
  funext i
  rw [parity_cons, parity_cons, ← Bool.xor_assoc, Bool.xor_self, Bool.false_xor]

/-- By induction on the vectors; what is bound so far is generalized. -/
theorem foldlM_bind (f : ℕ → Bool) (hvs : ∀ w ∈ vs, w.geometry = g) :
    vs.foldlM bind (ofBits g f) = .ok (ofBits g fun i => f i ^^ parity vs i) := by
  induction vs generalizing f with
  | nil =>
    have hnone : parity [] = fun _ => false := rfl
    simp only [hnone, Bool.xor_false]
    rfl
  | cons w vs ih =>
    obtain ⟨hw, hvs⟩ := List.forall_mem_cons.mp hvs
    rw [List.foldlM_cons, ofBits_bind f hw]
    show vs.foldlM bind (ofBits g _) = _
    rw [ih _ hvs]
    simp only [parity_cons, Bool.xor_assoc]

/-- **Binding many vectors takes the parity of every bit.** -/
theorem bindAll_eq (hne : vs ≠ []) (hvs : ∀ v ∈ vs, v.geometry = g) :
    bindAll vs = .ok (ofBits g (parity vs)) := by
  match vs with
  | [] => contradiction
  | v :: vs =>
    obtain ⟨hv, hvs⟩ := List.forall_mem_cons.mp hvs
    show vs.foldlM bind v = _
    rw [eq_ofBits hv, foldlM_bind _ hvs, ← eq_ofBits hv]
    simp only [← parity_cons]

theorem bindAll_perm (hvs : ∀ v ∈ vs, v.geometry = g) (h : ws.Perm vs) :
    bindAll ws = bindAll vs := by
  by_cases hne : vs = []
  · subst hne
    rw [h.eq_nil]
  · have hne' : ws ≠ [] := fun hnil => hne (List.nil_perm.mp (hnil ▸ h))
    have hws : ∀ w ∈ ws, w.geometry = g := fun w hw => hvs w (h.mem_iff.mp hw)
    rw [bindAll_eq hne hvs, bindAll_eq hne' hws, parity_perm h]

/-- A vector that comes in twice makes no difference, wherever it does. -/
theorem bindAll_twice {xs ys zs : List Dense} (hne : xs ++ ys ++ zs ≠ [])
    (hvs : ∀ w ∈ xs ++ ys ++ zs, w.geometry = g) (hv : v.geometry = g) :
    bindAll (xs ++ v :: ys ++ v :: zs) = bindAll (xs ++ ys ++ zs) := by
  have hperm : (xs ++ v :: ys ++ v :: zs).Perm (v :: v :: (xs ++ ys ++ zs)) := by
    have hfirst : (xs ++ v :: ys ++ v :: zs).Perm (v :: (xs ++ ys) ++ v :: zs) :=
      List.perm_middle.append_right _
    have hsecond : (v :: (xs ++ ys) ++ v :: zs).Perm (v :: (v :: (xs ++ ys) ++ zs)) :=
      List.perm_middle
    exact hfirst.trans hsecond
  have htwice : ∀ w ∈ v :: v :: (xs ++ ys ++ zs), w.geometry = g :=
    List.forall_mem_cons.mpr ⟨hv, List.forall_mem_cons.mpr ⟨hv, hvs⟩⟩
  rw [bindAll_perm htwice hperm, bindAll_eq (List.cons_ne_nil _ _) htwice, parity_twice,
    bindAll_eq hne hvs]

/-! ### Distances -/

/-- The bits of a vector of a geometry. -/
def bits (g : ℕ) (v : Dense) (i : Fin g) : Bool := v.bit i

theorem dvd_of_check (hg : checkGeometry g = .ok ()) : Word.size ∣ g := by
  unfold checkGeometry at hg
  split at hg
  case isTrue => cases hg
  case isFalse h =>
    rw [not_or, not_not] at h
    exact Nat.dvd_of_mod_eq_zero h.2

theorem width_eq (hg : checkGeometry g = .ok ()) : width g = g := width_of_dvd (dvd_of_check hg)

theorem bits_inj (hg : checkGeometry g = .ok ()) (ha : a.geometry = g) (hb : b.geometry = g) :
    bits g a = bits g b ↔ a = b := by
  constructor
  · exact fun h => eq_of_forall_bit (dvd_of_check hg) ha hb (congrFun h)
  · rintro rfl
    rfl

/-- **The distance of two vectors is that of their families of bits.** -/
theorem hamming_eq_hammingDist (hg : checkGeometry g = .ok ()) (ha : a.geometry = g)
    (hb : b.geometry = g) : a.hamming b = .ok (hammingDist (bits g a) (bits g b)) := by
  have hdiffer (i : Fin g) :
      (a.bit i ^^ b.bit i).toNat = if bits g a i ≠ bits g b i then 1 else 0 := by
    unfold bits
    cases a.bit i <;> cases b.bit i <;> rfl
  rw [hamming_eq (ha.trans hb.symm), ha, width_eq hg, sum_range, hammingDist, card_filter]
  simp only [hdiffer]

theorem bits_ofBits (hg : checkGeometry g = .ok ()) (f : ℕ → Bool) :
    bits g (ofBits g f) = fun i : Fin g => f i := by
  funext i
  exact bit_ofBits f (lt_width (dvd_of_check hg) i)

/-- Binding with one vector keeps distances. -/
theorem hamming_bind (hg : checkGeometry g = .ok ()) (ha : a.geometry = g) (hb : b.geometry = g)
    (hc : c.geometry = g) : (do (← a.bind c).hamming (← b.bind c)) = a.hamming b := by
  have hflip (i : Fin g) : Function.Injective (· ^^ bits g c i) :=
    fun _ _ h => Bool.xor_left_inj.mp h
  rw [bind_eq ha hc, bind_eq hb hc, hamming_eq_hammingDist hg ha hb]
  show (ofBits g _).hamming (ofBits g _) = _
  rw [hamming_eq_hammingDist hg (geometry_ofBits g _) (geometry_ofBits g _), bits_ofBits hg,
    bits_ofBits hg]
  exact congrArg Except.ok (hammingDist_comp _ hflip)

/-! ### Laws -/

/-- The vectors of a geometry are a group in which every vector is its own inverse. -/
structure GroupLaws (g : ℕ) : Prop where
  closed : ∀ a b : Dense, a.geometry = g → b.geometry = g →
    ∃ c, a.bind b = .ok c ∧ c.geometry = g
  comm : ∀ a b : Dense, a.geometry = g → b.geometry = g → a.bind b = b.bind a
  assoc : ∀ a b c : Dense, a.geometry = g → b.geometry = g → c.geometry = g →
    (do (← a.bind b).bind c) = (do a.bind (← b.bind c))
  identity : ∃ z, zero g = .ok z ∧ z.geometry = g ∧
    ∀ a : Dense, a.geometry = g → a.bind z = .ok a ∧ a.bind a = .ok z
  undone : ∀ a b : Dense, a.geometry = g → b.geometry = g → (do (← a.bind b).bind b) = .ok a

/-- Any number of vectors are bound whatever their order; pairs of one vector make no difference,
and a pair alone is the zero vector. -/
structure FoldLaws (g : ℕ) : Prop where
  closed : ∀ vs : List Dense, vs ≠ [] → (∀ v ∈ vs, v.geometry = g) →
    ∃ c, bindAll vs = .ok c ∧ c.geometry = g
  perm : ∀ vs ws : List Dense, (∀ v ∈ vs, v.geometry = g) → ws.Perm vs → bindAll ws = bindAll vs
  twice : ∀ (xs ys zs : List Dense) (v : Dense), xs ++ ys ++ zs ≠ [] →
    (∀ w ∈ xs ++ ys ++ zs, w.geometry = g) → v.geometry = g →
      bindAll (xs ++ v :: ys ++ v :: zs) = bindAll (xs ++ ys ++ zs)
  pair : ∀ v : Dense, v.geometry = g → bindAll [v, v] = zero g

/-- The Hamming distance is a metric, the number of bits that differ, and binding keeps it. -/
structure MetricLaws (g : ℕ) : Prop where
  differing : ∀ a b : Dense, a.geometry = g → b.geometry = g →
    a.hamming b = .ok (hammingDist (bits g a) (bits g b))
  eq_iff : ∀ a b : Dense, a.geometry = g → b.geometry = g → (a.hamming b = .ok 0 ↔ a = b)
  symm : ∀ a b : Dense, a.geometry = g → b.geometry = g → a.hamming b = b.hamming a
  triangle : ∀ a b c : Dense, a.geometry = g → b.geometry = g → c.geometry = g →
    ∃ ab bc ac, a.hamming b = .ok ab ∧ b.hamming c = .ok bc ∧ a.hamming c = .ok ac ∧
      ac ≤ ab + bc
  bound : ∀ a b c : Dense, a.geometry = g → b.geometry = g → c.geometry = g →
    (do (← a.bind c).hamming (← b.bind c)) = a.hamming b
  popcount : ∀ a b : Dense, a.geometry = g → b.geometry = g →
    (a.bind b).map Dense.popcount = a.hamming b

theorem zero_eq (hg : checkGeometry g = .ok ()) : zero g = .ok (blank g) := by
  rw [zero, hg]
  rfl

theorem groupLaws (hg : checkGeometry g = .ok ()) : GroupLaws g where
  closed := fun _ _ ha hb => ⟨_, bind_eq ha hb, geometry_ofBits g _⟩
  comm := fun _ _ ha hb => bind_comm ha hb
  assoc := fun _ _ _ ha hb hc => bind_assoc ha hb hc
  identity := ⟨blank g, zero_eq hg, rfl, fun _ ha => ⟨bind_blank ha, bind_self ha⟩⟩
  undone := fun _ _ ha hb => bind_bind ha hb

theorem foldLaws (hg : checkGeometry g = .ok ()) : FoldLaws g where
  closed := fun _ hne hvs => ⟨_, bindAll_eq hne hvs, geometry_ofBits g _⟩
  perm := fun _ _ hvs h => bindAll_perm hvs h
  twice := fun _ _ _ _ hne hvs hv => bindAll_twice hne hvs hv
  pair := fun v hv => by
    rw [zero_eq hg, ← bind_self hv]
    exact bind_pure (v.bind v)

theorem metricLaws (hg : checkGeometry g = .ok ()) : MetricLaws g where
  differing := fun _ _ ha hb => hamming_eq_hammingDist hg ha hb
  eq_iff := fun a b ha hb => by
    rw [hamming_eq_hammingDist hg ha hb, ← bits_inj hg ha hb, ← hammingDist_eq_zero]
    exact ⟨Except.ok.inj, congrArg Except.ok⟩
  symm := fun a b ha hb => by
    rw [hamming_eq_hammingDist hg ha hb, hamming_eq_hammingDist hg hb ha, hammingDist_comm]
  triangle := fun a b c ha hb hc => ⟨_, _, _, hamming_eq_hammingDist hg ha hb,
    hamming_eq_hammingDist hg hb hc, hamming_eq_hammingDist hg ha hc, hammingDist_triangle _ _ _⟩
  bound := fun _ _ _ ha hb hc => hamming_bind hg ha hb hc
  popcount := fun _ _ ha hb => by
    rw [hamming, bind_eq ha hb]
    rfl

/-- **Binding is a group of isometries on the vectors of every geometry that is accepted.** -/
theorem binding_isometric (hg : checkGeometry g = .ok ()) :
    GroupLaws g ∧ FoldLaws g ∧ MetricLaws g :=
  ⟨groupLaws hg, foldLaws hg, metricLaws hg⟩

theorem binding_isometric_twoWords :
    checkGeometry 128 = .ok () ∧ GroupLaws 128 ∧ FoldLaws 128 ∧ MetricLaws 128 :=
  ⟨rfl, binding_isometric rfl⟩

end KnowledgeBase.Dense
