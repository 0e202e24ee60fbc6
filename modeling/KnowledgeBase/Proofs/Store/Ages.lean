import KnowledgeBase.Proofs.Store.Forgetting
import Mathlib.Algebra.Ring.Int.Defs
import Mathlib.Algebra.Ring.Nat

/-!
# Forgetting by age

Ages and idle times are compared in 64 bits, which turn an exact integer by a multiple of `2 ^ 64`.
What is forgotten was idle for the whole age unless the age is turned further than the idle time.

* `Millis.WritesAge`, `Millis.ofAge?_of_writes`: texts of ages;
* `Millis.bdiv_le_bdiv_iff`, `Millis.bdiv_nonpos_iff`: exact and turned integers;
* `select_older`: what falls under an age;
* `ForgetsOlder`, `RespectsAge`, `forget_older`: what an age forgets;
* `newest_forgotten`: an age of millions of years that takes a new concept.
-/

namespace KnowledgeBase

namespace Millis

/-! ### Texts of ages -/

/-- A text is a number in decimal digits and a unit. -/
def WritesAge (text : String) (n : ℕ) (unit : Millis) : Prop :=
  ∃ digits c, text.toList = digits ++ [c] ∧ digits ≠ [] ∧ digits.all Char.isDigit = true ∧
    Decimal.digitsValue digits = n ∧ unit? c = some unit

variable {text : String} {n : ℕ} {unit : Millis}

theorem ofAge?_of_writes (h : WritesAge text n unit) (hn : n < 2 ^ 63) :
    ofAge? text = .ok (some (Int64.ofNat n * unit)) := by
  obtain ⟨digits, c, htext, hne, hdigits, rfl, hunit⟩ := h
  have hread : (digits.isEmpty || !digits.all Char.isDigit) = false := by
    rw [hdigits, List.isEmpty_eq_false_iff.mpr hne]
    rfl
  have hlast : text.toList.getLast?.bind unit? = some unit := by
    rw [htext, List.getLast?_concat, Option.bind_some, hunit]
  have hdrop : text.toList.dropLast = digits := by rw [htext, List.dropLast_concat]
  have hfits : ¬ 1 <<< 63 ≤ Decimal.digitsValue digits := not_le.mpr hn
  unfold ofAge?
  simp only [hlast, hdrop, hread]
  rw [if_neg Bool.false_ne_true, if_neg hfits]

/-- The age is the exact product, turned. -/
theorem toInt_age (hn : n < 2 ^ 63) :
    (Int64.ofNat n * unit).toInt = ((n : ℤ) * unit.toInt).bmod (2 ^ 64) := by
  rw [Int64.toInt_mul, Int64.toInt_ofNat_of_lt hn]

/-! ### Exact integers -/

variable {x y : ℤ}

/-- An integer is one of 64 bits and a number of turns. -/
theorem exists_turns (x : ℤ) : x = x.bmod (2 ^ 64) + 2 ^ 64 * x.bdiv (2 ^ 64) ∧
    -2 ^ 63 ≤ x.bmod (2 ^ 64) ∧ x.bmod (2 ^ 64) < 2 ^ 63 := by
  have hlow : -(((2 ^ 64 : ℕ) : ℤ) / 2) ≤ x.bmod (2 ^ 64) := Int.le_bmod (by decide)
  have hhigh : x.bmod (2 ^ 64) < (((2 ^ 64 : ℕ) : ℤ) + 1) / 2 := Int.bmod_lt (by decide)
  exact ⟨(Int.bmod_add_bdiv x (2 ^ 64)).symm, hlow, hhigh⟩

/-- Integers that stand in order when they are turned do so exactly if the lower one is not turned
further. -/
theorem bdiv_le_bdiv_iff (h : x.bmod (2 ^ 64) ≤ y.bmod (2 ^ 64)) :
    x.bdiv (2 ^ 64) ≤ y.bdiv (2 ^ 64) ↔ x ≤ y := by
  obtain ⟨hx, hxlow, hxhigh⟩ := exists_turns x
  obtain ⟨hy, hylow, hyhigh⟩ := exists_turns y
  constructor
  · omega
  · omega

/-- An integer fits a signed 64-bit number. -/
def Fits (x : ℤ) : Prop := -2 ^ 63 ≤ x ∧ x < 2 ^ 63

instance (x : ℤ) : Decidable (Fits x) := inferInstanceAs (Decidable (_ ∧ _))

theorem bdiv_of_fits (h : Fits x) : x.bdiv (2 ^ 64) = 0 := by
  obtain ⟨hlow, hhigh⟩ := h
  obtain ⟨hx, hxlow, hxhigh⟩ := exists_turns x
  omega

theorem bdiv_nonpos_iff (h : 0 ≤ x) : x.bdiv (2 ^ 64) ≤ 0 ↔ x < 2 ^ 63 := by
  obtain ⟨hx, hxlow, hxhigh⟩ := exists_turns x
  constructor
  · omega
  · omega

theorem age_nonneg (h : WritesAge text n unit) : 0 ≤ (n : ℤ) * unit.toInt := by
  obtain ⟨_, c, -, -, -, -, hunit⟩ := h
  have hpos : 0 ≤ unit.toInt := by
    unfold unit? at hunit
    split at hunit <;> cases hunit <;> decide
  exact Int.mul_nonneg (Int.natCast_nonneg n) hpos

end Millis

namespace Store

variable {s : Store} {q : ForgetRequest} {now age : Millis} {text : String} {n : ℕ} {unit : Millis}
  {c : Concept}

/-! ### What falls under an age -/

/-- How long a concept was not used, exactly. -/
def idleTime (now : Millis) (c : Concept) : ℤ := now.toInt - c.usage.lastUsedAt.toInt

/-- A concept was used fewer times than a request says, if it does. -/
def FewUses (q : ForgetRequest) (c : Concept) : Prop :=
  ∀ n, q.threshold = some n → c.usage.count < n

theorem isStale_iff : isStale q.threshold (some age) now c.usage = true ↔
    FewUses q c ∧ age.toInt ≤ (idleTime now c).bmod (2 ^ 64) := by
  have hidle : (now - c.usage.lastUsedAt).toInt = (idleTime now c).bmod (2 ^ 64) :=
    Int64.toInt_sub _ _
  unfold isStale FewUses
  rw [← hidle, ← Int64.le_iff_toInt_le]
  cases q.threshold <;> simp

theorem select_older (s : Store) (now : Millis) (hlabel : q.label = none)
    (hpattern : q.pattern = none) (htext : q.olderThan = some text)
    (hage : Millis.ofAge? text = .ok (some age)) :
    ∃ ls, s.select q now = .ok ls ∧ ∀ l, l ∈ ls ↔ ∃ c, s.concept? l = some c ∧ FewUses q c ∧
      age.toInt ≤ (idleTime now c).bmod (2 ^ 64) := by
  have hasked : (q.threshold.isNone && q.olderThan.isNone) = false := by
    rw [htext, Option.isNone_some, Bool.and_false]
  have hrequested : requestedAge q = .ok (some age) := by
    unfold requestedAge
    rw [htext]
    show (Millis.ofAge? text >>= _) = _
    rw [hage]
    rfl
  refine ⟨(s.concepts.toList.filter fun p => isStale q.threshold (some age) now p.2.usage).map
    Prod.fst, ?_, ?_⟩
  · unfold select
    rw [hlabel, hpattern]
    simp only [hasked, hrequested]
    rfl
  · intro l
    simp only [List.mem_map, List.mem_filter, Prod.exists, exists_and_right, exists_eq_right,
      Std.TreeMap.mem_toList_iff_getElem?_eq_some, isStale_iff]
    rfl

/-! ### What an age forgets -/

/-- Every concept that is gone was not used for so many milliseconds. -/
def RespectsAge (s s' : Store) (age : ℤ) (now : Millis) : Prop :=
  ∀ l c, s.concept? l = some c → s'.concept? l = none → age ≤ idleTime now c

/-- What is forgotten for an age of so many milliseconds: it is compared with idle times when both
are turned. -/
structure ForgetsOlder (s s' : Store) (done : Forgotten) (q : ForgetRequest) (age : ℤ)
    (now : Millis) : Prop where
  selected : ∀ l, l ∈ done.selected ↔ ∃ c, s.concept? l = some c ∧ FewUses q c ∧
    age.bmod (2 ^ 64) ≤ (idleTime now c).bmod (2 ^ 64)
  gone : ∀ l, s'.concept? l = if l ∈ done.removed then none else s.concept? l

section older

variable {s' : Store} {done : Forgotten} {age : ℤ} {l : String}

theorem ForgetsOlder.removed_of_gone (h : ForgetsOlder s s' done q age now)
    (hc : s.concept? l = some c) (hnone : s'.concept? l = none) : l ∈ done.removed := by
  by_contra hl
  rw [h.gone, if_neg hl, hc] at hnone
  cases hnone

theorem ForgetsOlder.le_of_gone (h : ForgetsOlder s s' done q age now)
    (hc : s.concept? l = some c) (hnone : s'.concept? l = none) :
    age.bmod (2 ^ 64) ≤ (idleTime now c).bmod (2 ^ 64) := by
  have hl : l ∈ done.selected := by simp [Forgotten.selected, h.removed_of_gone hc hnone]
  obtain ⟨c', hc', -, hle⟩ := (h.selected l).mp hl
  cases hc.symm.trans hc'
  exact hle

theorem ForgetsOlder.respects_iff (h : ForgetsOlder s s' done q age now) :
    RespectsAge s s' age now ↔ ∀ l c, s.concept? l = some c → s'.concept? l = none →
      age.bdiv (2 ^ 64) ≤ (idleTime now c).bdiv (2 ^ 64) :=
  forall₄_congr fun _ _ hc hnone => (Millis.bdiv_le_bdiv_iff (h.le_of_gone hc hnone)).symm

/-- When no idle time is turned, the age must fit. -/
theorem ForgetsOlder.respects_iff_fits (h : ForgetsOlder s s' done q age now) (hage : 0 ≤ age)
    (hfits : ∀ l c, s.concept? l = some c → Millis.Fits (idleTime now c)) :
    RespectsAge s s' age now ↔ age < 2 ^ 63 ∨ done.removed = [] := by
  rw [h.respects_iff, ← Millis.bdiv_nonpos_iff hage]
  constructor
  · intro hturns
    by_cases hnil : done.removed = []
    · exact .inr hnil
    · obtain ⟨l, hl⟩ := List.exists_mem_of_ne_nil _ hnil
      obtain ⟨c, hc, -, -⟩ := (h.selected l).mp (by simp [Forgotten.selected, hl])
      have hturned := hturns l c hc (by rw [h.gone, if_pos hl])
      rw [Millis.bdiv_of_fits (hfits l c hc)] at hturned
      exact .inl hturned
  · rintro (hturned | hnil) l c hc hnone
    · rwa [Millis.bdiv_of_fits (hfits l c hc)]
    · have hl := h.removed_of_gone hc hnone
      rw [hnil] at hl
      cases hl

end older

/-- **An age forgets what was idle for it, both turned to 64 bits.**  That is idle for the whole age
exactly if the age is turned no further; when no idle time is turned, exactly if the age fits or
nothing is forgotten. -/
theorem forget_older (hlabel : q.label = none) (hpattern : q.pattern = none)
    (htext : q.olderThan = some text) (hage : Millis.WritesAge text n unit) (hn : n < 2 ^ 63) :
    ∃ s' done, s.forget q now = .ok (s', done) ∧
      ForgetsOlder s s' done q ((n : ℤ) * unit.toInt) now ∧
      (RespectsAge s s' ((n : ℤ) * unit.toInt) now ↔
        ∀ l c, s.concept? l = some c → s'.concept? l = none →
          ((n : ℤ) * unit.toInt).bdiv (2 ^ 64) ≤ (idleTime now c).bdiv (2 ^ 64)) ∧
      ((∀ l c, s.concept? l = some c → Millis.Fits (idleTime now c)) →
        (RespectsAge s s' ((n : ℤ) * unit.toInt) now ↔
          (n : ℤ) * unit.toInt < 2 ^ 63 ∨ done.removed = [])) := by
  obtain ⟨ls, hselect, hls⟩ := select_older s now hlabel hpattern htext
    (Millis.ofAge?_of_writes hage hn)
  obtain ⟨s', done, hforget, hreported, hgone⟩ := forget_selects hselect
  have holder : ForgetsOlder s s' done q ((n : ℤ) * unit.toInt) now := by
    refine ⟨fun l => ?_, hgone⟩
    rw [hreported, hls, Millis.toInt_age hn]
  exact ⟨s', done, hforget, holder, holder.respects_iff,
    holder.respects_iff_fits (Millis.age_nonneg hage)⟩

/-- A concept that was just made. -/
def newborn : Store := ({ dimensions := 2 } : Store).after (.ensure "rex" 1000)

theorem forget_older_week :
    let q : ForgetRequest := { olderThan := some "7d" }
    Millis.WritesAge "7d" 7 Millis.day ∧ 7 < 2 ^ 63 ∧
      (∀ l c, newborn.concept? l = some c → Millis.Fits (idleTime 604801000 c)) ∧
      ∃ s' done, newborn.forget q 604801000 = .ok (s', done) ∧ done.removed = ["rex"] ∧
        RespectsAge newborn s' ((7 : ℕ) * Millis.day.toInt) 604801000 := by
  intro q
  have hage : Millis.WritesAge "7d" 7 Millis.day :=
    ⟨['7'], 'd', by decide, by decide, by decide, by decide, rfl⟩
  have hn : 7 < 2 ^ 63 := by decide
  have hfits : ∀ l c, newborn.concept? l = some c → Millis.Fits (idleTime 604801000 c) := by
    have hall : ∀ p ∈ newborn.concepts.toList, Millis.Fits (idleTime 604801000 p.2) := by
      decide +kernel
    exact fun l c hc => hall (l, c) (Std.TreeMap.mem_toList_iff_getElem?_eq_some.mpr hc)
  obtain ⟨s', done, hforget, -, -, hrespects⟩ :=
    forget_older (s := newborn) (q := q) rfl rfl rfl hage hn
  have hreport : ((newborn.forget q 604801000).toOption.map fun p => p.2.removed) =
      some ["rex"] := by decide +kernel
  rw [hforget] at hreport
  exact ⟨hage, hn, hfits, s', done, hforget, Option.some.inj hreport,
    (hrespects hfits).mpr (.inl (by decide))⟩

/-- The age is about 292 million years, and its product with the unit is negative in 64 bits. -/
theorem newest_forgotten :
    let q : ForgetRequest := { olderThan := some "106751991168d" }
    Reached Unwrapped newborn ∧ Millis.WritesAge "106751991168d" 106751991168 Millis.day ∧
      106751991168 < 2 ^ 63 ∧
      ∃ s' done, newborn.forget q 1000 = .ok (s', done) ∧
        ¬ RespectsAge newborn s' ((106751991168 : ℕ) * Millis.day.toInt) 1000 := by
  intro q
  have hr : Reached Unwrapped newborn := by
    unfold newborn
    exact .step _ (.make (n := 2) rfl) (by decide +kernel)
  have hage : Millis.WritesAge "106751991168d" 106751991168 Millis.day :=
    ⟨"106751991168".toList, 'd', by decide, by decide, by decide, by decide, rfl⟩
  have hused : (newborn.concept? "rex").map (idleTime 1000) = some 0 := by decide +kernel
  have hgone : ((newborn.forget q 1000).toOption.map fun p => (p.1.concept? "rex").isNone) =
      some true := by decide +kernel
  obtain ⟨c, hc, hidle⟩ := Option.map_eq_some_iff.mp hused
  obtain ⟨p, hp, hnone⟩ := Option.map_eq_some_iff.mp hgone
  refine ⟨hr, hage, by decide, p.1, p.2, Outcome.eq_ok_of_toOption hp, fun hrespects => ?_⟩
  have hle := hrespects "rex" c hc (Option.isNone_iff_eq_none.mp hnone)
  rw [hidle] at hle
  exact absurd hle (by decide)

end Store

end KnowledgeBase
