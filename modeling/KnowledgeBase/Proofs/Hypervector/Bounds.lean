import KnowledgeBase.Proofs.Hypervector.Sampling

/-!
# Binding in either order

Binding combines as many pairs as it may and samples what comes out.  The operand that precedes
comes first, so the same pairs are combined in either order.  A sample is never larger than its
bound, and so no vector is that has been built by the operations on vectors.

* `combined_comm`, `bind_comm`, `mem_combined`: binding, whatever has been cut off;
* `Fills`, `fills_collect`, `Fills.collect_eq`: draws until a set is full, and draws up to a number;
* `Built`, `Built.within`: the vectors that can be built, and what they keep to;
* `bind_comm_bounded`: binding commutes, combines its operands and keeps to the bound, as every
  vector does that has been built.
-/

namespace KnowledgeBase.Sparse

variable {a b c v : Sparse} {e : UInt64} {xs ys : List UInt64} {m : ℕ} {vs : List Sparse}

/-! ### Operands in order -/

theorem precedes_iff : a.precedes b = true ↔
    a.size < b.size ∨ a.size = b.size ∧ a.exponents < b.exponents := by
  simp [precedes]

theorem not_precedes_of_precedes (h : a.precedes b = true) : ¬ b.precedes a = true := by
  rw [precedes_iff] at h ⊢
  rcases h with hlt | ⟨hsize, hab⟩
  · rintro (hgt | ⟨hsize, -⟩)
    · omega
    · omega
  · rintro (hgt | ⟨-, hba⟩)
    · omega
    · exact List.lt_asymm hab hba

/-- Vectors of which neither precedes the other have the same exponents. -/
theorem exponents_eq_of_not_precedes (hab : ¬ a.precedes b = true) (hba : ¬ b.precedes a = true) :
    a.exponents = b.exponents := by
  rw [precedes_iff] at hab hba
  have hsize : a.size = b.size := by omega
  apply List.le_antisymm
  · exact List.not_lt.mp fun hlt => hba (.inr ⟨hsize.symm, hlt⟩)
  · exact List.not_lt.mp fun hlt => hab (.inr ⟨hsize, hlt⟩)

/-- **The same pairs are combined in either order.** -/
theorem combined_comm (a b : Sparse) : combined a b = combined b a := by
  unfold combined
  by_cases hba : b.precedes a = true
  · rw [if_pos hba, if_neg (not_precedes_of_precedes hba)]
  · by_cases hab : a.precedes b = true
    · rw [if_neg hba, if_pos hab]
    · -- nothing tells the operands apart, so it does not matter which comes first
      rw [if_neg hba, if_neg hab, products, products, exponents_eq_of_not_precedes hab hba]

theorem maxSize_eq_of_bind (h : a.bind b = .ok c) : a.maxSize = b.maxSize := by
  obtain ⟨_, hsame, -⟩ := Outcome.bind_eq_ok.mp h
  unfold checkSame at hsame
  split at hsame
  case isTrue heq => exact heq
  case isFalse => cases hsame

theorem bind_comm (h : a.maxSize = b.maxSize) : a.bind b = b.bind a := by
  rw [bind_eq h, bind_eq h.symm, combined_comm, h]

/-! ### What is combined -/

/-- Up to any cap, what is combined is combined from two exponents. -/
theorem mem_productsUpTo {cap : ℕ} (h : e ∈ productsUpTo ys cap xs) :
    ∃ x ∈ xs, ∃ y ∈ ys, x ^^^ y = e := by
  induction xs generalizing cap with
  | nil => cases h
  | cons x xs ih =>
    have hrow (he : e ∈ (ys.take cap).map (x ^^^ ·)) : ∃ x' ∈ x :: xs, ∃ y ∈ ys, x' ^^^ y = e := by
      obtain ⟨y, hy, rfl⟩ := List.mem_map.mp he
      exact ⟨x, List.mem_cons_self, y, List.mem_of_mem_take hy, rfl⟩
    simp only [productsUpTo] at h
    split at h
    · exact hrow h
    · rcases List.mem_append.mp h with he | he
      · exact hrow he
      · obtain ⟨x', hx', hy⟩ := ih he
        exact ⟨x', List.mem_cons_of_mem _ hx', hy⟩

theorem mem_combined (h : e ∈ combined a b) :
    ∃ x ∈ a.exponents, ∃ y ∈ b.exponents, x ^^^ y = e := by
  unfold combined at h
  split at h
  · obtain ⟨y, hy, x, hx, rfl⟩ := mem_productsUpTo h
    exact ⟨x, hx, y, hy, UInt64.xor_comm x y⟩
  · exact mem_productsUpTo h

theorem mem_of_mem_sample (h : e ∈ (sample m xs).exponents) : e ∈ xs := by
  rw [← List.mem_toFinset, ← toFinset, toFinset_sample] at h
  exact List.mem_toFinset.mp (Finset.mem_filter.mp h).1

theorem within_of_bind (ha : a.maxSize = m) (h : a.bind b = .ok c) : Within m c := by
  rw [bind_eq (maxSize_eq_of_bind h), ha] at h
  cases h
  exact within_sample

/-! ### Draws -/

section draws

variable {size draws : ℕ} {t : Twister} {es full : Std.TreeSet UInt64}

/-- Words are drawn until there are `size` exponents, however many draws it takes. -/
inductive Fills (size : ℕ) : Twister → Std.TreeSet UInt64 → Std.TreeSet UInt64 → Prop
  | done {t : Twister} {es : Std.TreeSet UInt64} (h : size ≤ es.size) : Fills size t es es
  | draw {t : Twister} {es full : Std.TreeSet UInt64} (h : es.size < size)
      (hrest : Fills size t.next.2 (es.insert t.next.1) full) : Fills size t es full

theorem collect_of_full (h : size ≤ es.size) : collect size draws t es = es := by
  cases draws with
  | zero => rfl
  | succ draws => exact if_pos h

theorem collect_succ (h : es.size < size) :
    collect size (draws + 1) t es = collect size draws t.next.2 (es.insert t.next.1) :=
  if_neg (Nat.not_le.mpr h)

/-- **A number of draws that fills the set leaves what drawing until it is full does.** -/
theorem fills_collect (h : size ≤ (collect size draws t es).size) :
    Fills size t es (collect size draws t es) := by
  induction draws generalizing t es with
  | zero => exact .done h
  | succ draws ih =>
    by_cases hfull : size ≤ es.size
    · rw [collect_of_full hfull]
      exact .done hfull
    · have hroom : es.size < size := Nat.not_le.mp hfull
      rw [collect_succ hroom] at h ⊢
      exact .draw hroom (ih h)

/-- Drawing until the set is full takes some number of draws, and more change nothing. -/
theorem Fills.collect_eq (h : Fills size t es full) :
    ∃ n, ∀ draws, n ≤ draws → collect size draws t es = full := by
  induction h with
  | done h => exact ⟨0, fun draws _ => collect_of_full h⟩
  | draw h _ ih =>
    obtain ⟨n, hn⟩ := ih
    refine ⟨n + 1, fun draws hdraws => ?_⟩
    obtain ⟨draws, rfl⟩ : ∃ k, draws = k + 1 := ⟨draws - 1, by omega⟩
    rw [collect_succ h]
    exact hn draws (by omega)

/-- A set is filled, not overfilled: every draw adds one exponent at most. -/
theorem Fills.size_le (h : Fills size t es full) (hes : es.size ≤ size) : full.size ≤ size := by
  induction h with
  | done _ => exact hes
  | draw h _ ih => exact ih (Std.TreeSet.size_insert_le.trans h)

theorem size_ofSet : (ofSet m es).size = es.size := Std.TreeSet.length_toList

theorem within_ofSet (h : es.size ≤ m) : Within m (ofSet m es) :=
  ⟨rfl, size_ofSet.trans_le h⟩

/-- A random vector that is as large as it may be is the one that is drawn until it is. -/
theorem random_of_full {seed : UInt64} (h : random m seed = .ok v) (hfull : v.size = m) :
    ∃ es, Fills m (Twister.ofSeed seed) ∅ es ∧ v = ofSet m es := by
  unfold random at h
  split at h
  · cases h
  · cases h
    rw [size_ofSet] at hfull
    exact ⟨_, fills_collect hfull.ge, rfl⟩

end draws

/-! ### Built vectors -/

/-- The vectors of bound `m` that the operations on vectors can build. -/
inductive Built (m : ℕ) : Sparse → Prop
  | zero : Built m (zero m)
  | random {seed : UInt64} {v : Sparse} (h : random m seed = .ok v) : Built m v
  /-- words are drawn until there are as many exponents as are allowed -/
  | drawn {seed : UInt64} {es : Std.TreeSet UInt64} (h : Fills m (Twister.ofSeed seed) ∅ es) :
      Built m (ofSet m es)
  | ofName {name theory : String} {v : Sparse} (h : ofName m name theory = .ok v) : Built m v
  | ofExponents (es : List UInt64) : Built m (sample m es)
  | bind {a b v : Sparse} (ha : Built m a) (hb : Built m b) (h : a.bind b = .ok v) : Built m v
  | bindAll {vs : List Sparse} {v : Sparse} (hvs : ∀ w ∈ vs, Built m w) (h : bindAll vs = .ok v) :
      Built m v
  | bundle {vs : List Sparse} {v : Sparse} (hvs : ∀ w ∈ vs, Built m w) (h : bundle vs = .ok v) :
      Built m v

theorem size_collect_le {draws : ℕ} {t : Twister} {es : Std.TreeSet UInt64} (h : es.size ≤ m) :
    (collect m draws t es).size ≤ m := by
  induction draws generalizing t es with
  | zero => exact h
  | succ draws ih =>
    unfold collect
    split
    case isTrue => exact h
    case isFalse hroom =>
      apply ih
      exact Std.TreeSet.size_insert_le.trans (by omega)

theorem within_of_random {seed : UInt64} (h : random m seed = .ok v) : Within m v := by
  unfold random at h
  split at h
  · cases h
  · cases h
    exact within_ofSet (size_collect_le (Nat.zero_le _))

/-- Binding one after the other keeps to the bound, as every step does. -/
theorem within_of_foldlM (ha : Within m a) (h : vs.foldlM bind a = .ok v) : Within m v := by
  induction vs generalizing a with
  | nil =>
    cases h
    exact ha
  | cons w vs ih =>
    rw [List.foldlM_cons] at h
    obtain ⟨c, hc, hrest⟩ := Outcome.bind_eq_ok.mp h
    exact ih (within_of_bind ha.maxSize hc) hrest

theorem within_of_bundle (hvs : ∀ w ∈ vs, Within m w) (h : bundle vs = .ok v) : Within m v := by
  have hne : vs ≠ [] := by
    rintro rfl
    cases h
  rw [bundle_eq hne hvs] at h
  cases h
  exact within_sample

/-- **Every vector that has been built keeps to its bound**, by induction on how it was built. -/
theorem Built.within (h : Built m v) : Within m v := by
  induction h with
  | zero => exact ⟨rfl, Nat.zero_le _⟩
  | random h => exact within_of_random h
  | drawn h => exact within_ofSet (h.size_le (Nat.zero_le m))
  | ofName h => exact within_of_random h
  | ofExponents es => exact within_sample
  | bind _ _ h ha _ => exact within_of_bind ha.maxSize h
  | @bindAll vs v _ h ih =>
    match vs with
    | [] => cases h
    | w :: vs => exact within_of_foldlM (ih w List.mem_cons_self) h
  | bundle _ h ih => exact within_of_bundle ih h

/-- **Binding commutes and stays in bounds.**  Whatever the cap cuts off and sampling discards, two
vectors of one bound are bound alike in either order, into combinations of their exponents and no
more than the bound allows; no vector that has been built has more. -/
theorem bind_comm_bounded (h : a.maxSize = b.maxSize) :
    (∃ c, a.bind b = .ok c ∧ b.bind a = .ok c ∧ c.maxSize = a.maxSize ∧ c.size ≤ a.maxSize ∧
      ∀ e ∈ c.exponents, ∃ x ∈ a.exponents, ∃ y ∈ b.exponents, x ^^^ y = e) ∧
    ∀ m v, Built m v → v.maxSize = m ∧ v.size ≤ m := by
  constructor
  · refine ⟨_, bind_eq h, ?_, maxSize_sample, within_sample.size, ?_⟩
    · rw [← bind_comm h, bind_eq h]
    · intro e he
      exact mem_combined (mem_of_mem_sample he)
  · intro m v hv
    exact ⟨hv.within.maxSize, hv.within.size⟩

/-- Two vectors of two exponents, whose four combinations are more than the bound allows. -/
theorem bind_comm_bounded_sampled :
    (ofList 2 [1, 2]).maxSize = (ofList 2 [4, 8]).maxSize ∧
      (combined (ofList 2 [1, 2]) (ofList 2 [4, 8])).length = 4 ∧
      (∃ c, (ofList 2 [1, 2]).bind (ofList 2 [4, 8]) = .ok c ∧
        (ofList 2 [4, 8]).bind (ofList 2 [1, 2]) = .ok c ∧ c.maxSize = 2 ∧ c.size ≤ 2 ∧
        ∀ e ∈ c.exponents, ∃ x ∈ (ofList 2 [1, 2]).exponents, ∃ y ∈ (ofList 2 [4, 8]).exponents,
          x ^^^ y = e) ∧
      Built 2 (sample 2 [1, 2, 3]) ∧ (sample 2 [1, 2, 3]).size ≤ 2 := by
  have hbuilt : Built 2 (sample 2 [1, 2, 3]) := .ofExponents [1, 2, 3]
  obtain ⟨hbind, hbuilds⟩ :=
    bind_comm_bounded (show (ofList 2 [1, 2]).maxSize = (ofList 2 [4, 8]).maxSize from rfl)
  obtain ⟨-, hsize⟩ := hbuilds 2 _ hbuilt
  exact ⟨rfl, by decide +kernel, hbind, hbuilt, hsize⟩

end KnowledgeBase.Sparse
