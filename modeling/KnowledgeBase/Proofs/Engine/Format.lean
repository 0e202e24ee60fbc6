import KnowledgeBase.Engine
import KnowledgeBase.Proofs.State
import KnowledgeBase.Proofs.Store.Validation
import Mathlib.Algebra.Ring.Int.Defs

/-!
# Formats accepted

The header of an exported state has two integers, which are read as signed 32-bit numbers before
they are compared with the format of this library.

* `Engine.importState_of_format`: what is done with every header, refusals included;
* `Engine.importState_accepts_iff`: the headers that are accepted, and when they are those of this
  format.
-/

namespace KnowledgeBase

theorem Version.compatible_iff {major minor : ℤ} :
    compatible major minor = true ↔ major = 1 ∧ minor ≤ 0 := by
  unfold compatible
  rw [Bool.and_eq_true, decide_eq_true_iff, decide_eq_true_iff]
  rfl

/-- Numbers that are compatible when they are read as signed 32-bit numbers. -/
theorem Version.compatible_bmod_iff {major minor : ℤ} :
    compatible (major.bmod (2 ^ 32)) (minor.bmod (2 ^ 32)) = true ↔
      major % 2 ^ 32 = 1 ∧ (minor % 2 ^ 32 = 0 ∨ 2 ^ 31 ≤ minor % 2 ^ 32) := by
  rw [compatible_iff, Int.bmod_def, Int.bmod_def]
  split <;> split <;> omega

namespace Engine

variable {e e' : Engine} {state facts : Value} {major minor : ℤ} {now : Millis} {fs : List Fact}

/-- The header of a state has these integers. -/
def HasFormat (state : Value) (major minor : ℤ) : Prop :=
  ∃ format, state.field? "format" = some format ∧
    format.field? "major" = some (.integer major) ∧ format.field? "minor" = some (.integer minor)

/-- The header of a state is one that this library reads. -/
def CompatibleHeader (state : Value) : Prop :=
  ∃ major minor, HasFormat state major minor ∧ major = 1 ∧ minor ≤ 0

theorem HasFormat.unique {major' minor' : ℤ} (h : HasFormat state major minor)
    (h' : HasFormat state major' minor') : major = major' ∧ minor = minor' := by
  obtain ⟨format, hformat, hmajor, hminor⟩ := h
  obtain ⟨format', hformat', hmajor', hminor'⟩ := h'
  cases hformat.symm.trans hformat'
  cases hmajor.symm.trans hmajor'
  cases hminor.symm.trans hminor'
  exact ⟨rfl, rfl⟩

theorem formatNumber?_eq_some {format : Value} {name : String} {m : ℤ} :
    formatNumber? format name = some m ↔
      ∃ n : ℤ, format.field? name = some (.integer n) ∧ n.bmod (2 ^ 32) = m := by
  unfold formatNumber?
  split
  · rename_i n hn
    rw [hn, Int32.toInt_ofInt]
    simp
  · rename_i hnot
    constructor
    · intro h
      cases h
    · rintro ⟨n, hn, -⟩
      exact absurd hn (hnot n)

/-- **A state with a header is restored or refused by its numbers as they are read**, and the
refusal names them. -/
theorem importState_of_format (e : Engine) (now : Millis) (hformat : HasFormat state major minor)
    (hfacts : state.field? "facts" = some facts) :
    e.importState state now =
      if Version.compatible (major.bmod (2 ^ 32)) (minor.bmod (2 ^ 32)) then e.restore facts now
      else .error (.snapshot 0
        (.unsupportedFormat (major.bmod (2 ^ 32)) (minor.bmod (2 ^ 32)))) := by
  obtain ⟨format, hformat, hmajor, hminor⟩ := hformat
  have hmajor := formatNumber?_eq_some.mpr ⟨major, hmajor, rfl⟩
  have hminor := formatNumber?_eq_some.mpr ⟨minor, hminor, rfl⟩
  unfold importState factsOf
  rw [hformat, hfacts]
  dsimp only
  rw [hmajor, hminor]
  dsimp only
  by_cases hcompatible :
      Version.compatible (major.bmod (2 ^ 32)) (minor.bmod (2 ^ 32)) = true
  · rw [if_pos hcompatible, if_pos hcompatible]
  · rw [if_neg hcompatible, if_neg hcompatible]

theorem hasFormat_of_factsOf (h : factsOf state = .ok facts) :
    ∃ major minor, HasFormat state major minor := by
  unfold factsOf at h
  split at h
  · rename_i format _ hformat _
    split at h
    · rename_i hmajor hminor
      obtain ⟨major, hmajor, -⟩ := formatNumber?_eq_some.mp hmajor
      obtain ⟨minor, hminor, -⟩ := formatNumber?_eq_some.mp hminor
      exact ⟨major, minor, format, hformat, hmajor, hminor⟩
    · cases h
  · cases h

theorem hasFormat_of_importState (h : e.importState state now = .ok e') :
    ∃ major minor, HasFormat state major minor := by
  unfold importState at h
  split at h
  · rename_i hfacts
    exact hasFormat_of_factsOf hfacts
  · cases h

theorem exists_restore (e : Engine) (now : Millis) (hread : Snapshot.read facts = .ok fs) :
    ∃ e', e.restore facts now = .ok e' := by
  have hstore : ∃ s, e.store.restore facts now = .ok s := Store.exists_restore_iff.mpr ⟨fs, hread⟩
  obtain ⟨s, hs⟩ := hstore
  unfold restore
  rw [hs]
  exact ⟨_, rfl⟩

/-- The numbers of a header agree with those of the format when they are read as signed 32-bit
numbers. -/
def ReadsAsFormat (major minor : ℤ) : Prop :=
  major % 2 ^ 32 = 1 ∧ (minor % 2 ^ 32 = 0 ∨ 2 ^ 31 ≤ minor % 2 ^ 32)

/-- A state whose facts can be read is imported or refused by its header alone. -/
theorem exists_importState_iff (e : Engine) (now : Millis)
    (hfacts : state.field? "facts" = some facts) (hread : Snapshot.read facts = .ok fs) :
    (∃ e', e.importState state now = .ok e') ↔
      ∃ major minor, HasFormat state major minor ∧ ReadsAsFormat major minor := by
  constructor
  · rintro ⟨e', h⟩
    obtain ⟨major, minor, hformat⟩ := hasFormat_of_importState h
    rw [importState_of_format e now hformat hfacts] at h
    split at h
    · rename_i hcompatible
      exact ⟨major, minor, hformat, Version.compatible_bmod_iff.mp hcompatible⟩
    · cases h
  · rintro ⟨major, minor, hformat, hreads⟩
    rw [importState_of_format e now hformat hfacts,
      if_pos (Version.compatible_bmod_iff.mpr hreads)]
    exact exists_restore e now hread

/-- Two conditions on the header of a state come to the same exactly if they agree on the numbers
that it has. -/
theorem exists_format_iff {P Q : ℤ → ℤ → Prop} :
    ((∃ major minor, HasFormat state major minor ∧ P major minor) ↔
        ∃ major minor, HasFormat state major minor ∧ Q major minor) ↔
      ∀ major minor, HasFormat state major minor → (P major minor ↔ Q major minor) := by
  have honly : ∀ {R : ℤ → ℤ → Prop} {major minor}, HasFormat state major minor →
      ((∃ major minor, HasFormat state major minor ∧ R major minor) ↔ R major minor) := by
    intro R major minor hformat
    constructor
    · rintro ⟨major', minor', hformat', hR⟩
      obtain ⟨rfl, rfl⟩ := hformat.unique hformat'
      exact hR
    · exact fun hR => ⟨major, minor, hformat, hR⟩
  constructor
  · intro hiff major minor hformat
    exact (honly hformat).symm.trans (hiff.trans (honly hformat))
  · exact fun hagree => exists₂_congr fun major minor => and_congr_right (hagree major minor)

/-- **A state whose facts can be read is imported exactly if the numbers of its header are those of
the format modulo `2 ^ 32`.**  That is so exactly if they are compatible, unless they do not fit 32
bits. -/
theorem importState_accepts_iff (e : Engine) (now : Millis)
    (hfacts : state.field? "facts" = some facts) (hread : Snapshot.read facts = .ok fs) :
    ((∃ e', e.importState state now = .ok e') ↔
        ∃ major minor, HasFormat state major minor ∧ ReadsAsFormat major minor) ∧
      (((∃ e', e.importState state now = .ok e') ↔ CompatibleHeader state) ↔
        ∀ major minor, HasFormat state major minor →
          (ReadsAsFormat major minor ↔ major = 1 ∧ minor ≤ 0)) ∧
      ∀ major minor, -2 ^ 31 ≤ major → major < 2 ^ 31 → -2 ^ 31 ≤ minor → minor < 2 ^ 31 →
        (ReadsAsFormat major minor ↔ major = 1 ∧ minor ≤ 0) := by
  have haccepts := exists_importState_iff e now hfacts hread
  refine ⟨haccepts, ?_, ?_⟩
  · rw [haccepts]
    exact exists_format_iff
  · intro major minor hmajor hmajor' hminor hminor'
    unfold ReadsAsFormat
    omega

/-- A snapshot with one fact. -/
def oneFact : Value := .list [Store.liking "tea" Existence.certain none]

theorem read_oneFact : Snapshot.read oneFact =
    .ok [⟨1, ⟨"Tom", "likes", "tea"⟩, Existence.certain, .record []⟩] := rfl

/-- A state with one fact and these numbers in its header. -/
def stateOf (major minor : ℤ) : Value :=
  .record [("facts", oneFact),
    ("format", .record [("major", .integer major), ("minor", .integer minor)])]

theorem facts_stateOf (major minor : ℤ) : (stateOf major minor).field? "facts" = some oneFact := rfl

theorem hasFormat_stateOf (major minor : ℤ) : HasFormat (stateOf major minor) major minor :=
  ⟨_, rfl, rfl, rfl⟩

theorem importState_accepts_iff_older :
    (stateOf 1 (-3)).field? "facts" = some oneFact ∧ (∃ fs, Snapshot.read oneFact = .ok fs) ∧
      ∃ e', (standing { dimensions := 2 }).importState (stateOf 1 (-3)) 5 = .ok e' := by
  obtain ⟨haccepts, -, -⟩ := importState_accepts_iff (standing { dimensions := 2 }) 5
    (facts_stateOf 1 (-3)) read_oneFact
  exact ⟨facts_stateOf 1 (-3), ⟨_, read_oneFact⟩,
    haccepts.mpr ⟨1, -3, hasFormat_stateOf 1 (-3), by decide, .inr (by decide)⟩⟩

/-- The major number `2 ^ 32 + 1` is taken for `1`, and the minor number `1 - 2 ^ 32` for `1`. -/
theorem header_wraps :
    let e : Engine := standing { dimensions := 2 }
    (∃ fs, Snapshot.read oneFact = .ok fs) ∧
      (∃ e', e.importState (stateOf 4294967297 0) 5 = .ok e') ∧
      ¬ CompatibleHeader (stateOf 4294967297 0) ∧
      (¬ ∃ e', e.importState (stateOf 1 (-4294967295)) 5 = .ok e') ∧
      CompatibleHeader (stateOf 1 (-4294967295)) := by
  intro e
  have hhigh := importState_of_format e 5 (hasFormat_stateOf 4294967297 0) (facts_stateOf _ _)
  have hlow := importState_of_format e 5 (hasFormat_stateOf 1 (-4294967295)) (facts_stateOf _ _)
  rw [if_pos (by decide)] at hhigh
  rw [if_neg (by decide)] at hlow
  refine ⟨⟨_, read_oneFact⟩, ?_, ?_, ?_, 1, -4294967295, hasFormat_stateOf _ _, rfl, by decide⟩
  · rw [hhigh]
    exact exists_restore e 5 read_oneFact
  · rintro ⟨major, minor, hformat, hmajor, -⟩
    obtain ⟨rfl, -⟩ := hformat.unique (hasFormat_stateOf 4294967297 0)
    exact absurd hmajor (by decide)
  · rintro ⟨e', he'⟩
    rw [hlow] at he'
    cases he'

end Engine

end KnowledgeBase
