import KnowledgeBase.Consistency.Taxonomy
import Mathlib.Data.Finset.Card
import Mathlib.Logic.Relation

/-!
# Reachable terms

The walk along the edges of a taxonomy reaches exactly the terms that one or more edges lead to.

* `Step edges`: one edge leads from a term to another;
* `Walk.OnTrack`: what holds throughout a walk; what was met can be reached, and terms that were
  left have all their edges followed;
* `Walk.room`: the steps that a walk still needs at most, which is why the walk is not cut off;
* `Walk.Ends`, `Walk.ends`: a walk ends because nothing is pending;
* `listed_reachable`: each term is written down once;
* `mem_ancestors`: what lies above a term.
-/

namespace KnowledgeBase.Taxonomy

/-- One edge leads from a folded term to another. -/
def Step (edges : List Edge) (a b : String) : Prop := ∃ e ∈ edges, e.source = a ∧ e.target = b

namespace Walk

variable {edges es : List Edge} {start : String} {w : Walk} {e : Edge}

/-- The folded terms that a walk has reached. -/
def terms (w : Walk) : List String := w.reached.map Prod.fst

theorem lookup_isSome {t : String} : (w.reached.lookup t).isSome = true ↔ t ∈ w.terms := by
  rw [List.lookup_isSome_iff, terms, List.mem_map]
  simp only [beq_iff_eq, @eq_comm _ t]

/-! ### One edge -/

theorem mem_met_follow {t : String} : t ∈ (w.follow e).met ↔ t = e.target ∨ t ∈ w.met := by
  unfold follow
  dsimp only
  split
  · rename_i h
    rw [List.contains_iff_mem] at h
    constructor
    · exact Or.inr
    · rintro (rfl | ht)
      · exact h
      · exact ht
  · exact List.mem_cons

theorem mem_terms_follow {t : String} : t ∈ (w.follow e).terms ↔ t = e.target ∨ t ∈ w.terms := by
  unfold follow terms
  dsimp only
  split
  · rename_i h
    rw [lookup_isSome] at h
    constructor
    · exact Or.inr
    · rintro (rfl | ht)
      · exact h
      · exact ht
  · simp [or_comm]

theorem pending_follow : (w.follow e).pending =
    if w.met.contains e.target then w.pending else e.target :: w.pending := rfl

/-! ### The edges of one term -/

theorem mem_met_foldl {t : String} :
    t ∈ (es.foldl follow w).met ↔ t ∈ w.met ∨ ∃ e ∈ es, e.target = t := by
  induction es generalizing w with
  | nil => simp
  | cons e es ih =>
    rw [List.foldl_cons, ih, mem_met_follow]
    simp only [List.exists_mem_cons_iff, @eq_comm _ t]
    tauto

theorem mem_terms_foldl {t : String} :
    t ∈ (es.foldl follow w).terms ↔ t ∈ w.terms ∨ ∃ e ∈ es, e.target = t := by
  induction es generalizing w with
  | nil => simp
  | cons e es ih =>
    rw [List.foldl_cons, ih, mem_terms_follow]
    simp only [List.exists_mem_cons_iff, @eq_comm _ t]
    tauto

/-- What is pending afterwards was pending before, or was met along one of the edges. -/
theorem mem_pending_foldl {t : String} :
    t ∈ (es.foldl follow w).pending ↔ t ∈ w.pending ∨ t ∉ w.met ∧ ∃ e ∈ es, e.target = t := by
  induction es generalizing w with
  | nil => simp
  | cons e es ih =>
    rw [List.foldl_cons, ih, mem_met_follow, pending_follow]
    by_cases h : e.target ∈ w.met
    · rw [if_pos (by simpa using h)]
      simp only [List.exists_mem_cons_iff]
      by_cases ht : t = e.target
      · subst ht
        simp [h]
      · simp [ht, Ne.symm ht]
    · rw [if_neg (by simpa using h), List.mem_cons]
      simp only [List.exists_mem_cons_iff]
      by_cases ht : t = e.target
      · subst ht
        simp [h]
      · simp [ht, Ne.symm ht]

/-! ### Room -/

/-- The steps that are still needed at most: the terms pending, and the targets not met. -/
def room (edges : List Edge) (w : Walk) : Nat :=
  w.pending.length + ((edges.map Edge.target).toFinset.filter (· ∉ w.met)).card

theorem room_follow (he : e ∈ edges) : (w.follow e).room edges ≤ w.room edges := by
  unfold room
  rw [pending_follow]
  by_cases h : e.target ∈ w.met
  · rw [if_pos (by simpa using h)]
    refine Nat.add_le_add_left (Finset.card_le_card ?_) _
    intro t ht
    rw [Finset.mem_filter, mem_met_follow] at *
    tauto
  · rw [if_neg (by simpa using h), List.length_cons]
    have hlt : ((edges.map Edge.target).toFinset.filter (· ∉ (w.follow e).met)).card <
        ((edges.map Edge.target).toFinset.filter (· ∉ w.met)).card := by
      refine Finset.card_lt_card ⟨fun t ht => ?_, fun hsub => ?_⟩
      · rw [Finset.mem_filter, mem_met_follow] at *
        tauto
      · have hmem := hsub (Finset.mem_filter.mpr
          ⟨List.mem_toFinset.mpr (List.mem_map_of_mem he), h⟩)
        rw [Finset.mem_filter, mem_met_follow] at hmem
        exact hmem.2 (Or.inl rfl)
    omega

theorem room_foldl (hes : ∀ e ∈ es, e ∈ edges) : (es.foldl follow w).room edges ≤ w.room edges := by
  induction es generalizing w with
  | nil => exact le_rfl
  | cons e es ih =>
    rw [List.forall_mem_cons] at hes
    exact (ih hes.2).trans (room_follow hes.1)

/-! ### Whole walks -/

/-- What holds throughout a walk from a term. -/
structure OnTrack (edges : List Edge) (start : String) (w : Walk) : Prop where
  begun : start ∈ w.met
  pending : ∀ t ∈ w.pending, t ∈ w.met
  met : ∀ t ∈ w.met, Relation.ReflTransGen (Step edges) start t
  terms : ∀ t ∈ w.terms, Relation.TransGen (Step edges) start t
  /-- a term that was left has all its edges followed -/
  left : ∀ t ∈ w.met, t ∉ w.pending → ∀ u, Step edges t u → u ∈ w.met ∧ u ∈ w.terms

/-- A walk out of a term, before its first step. -/
def outOf (term : String) : Walk := ⟨[term], [term], []⟩

theorem onTrack_start (edges : List Edge) (start : String) :
    OnTrack edges start (outOf start) where
  begun := List.mem_singleton_self start
  pending := fun t ht => ht
  met := fun t ht => by
    rw [List.mem_singleton.mp ht]
  terms := nofun
  left := fun t ht hnot => absurd ht hnot

/-- Leaving a term keeps a walk on track. -/
theorem OnTrack.leave {term : String} {rest : List String} (h : OnTrack edges start w)
    (hw : w.pending = term :: rest) :
    OnTrack edges start
      ((edges.filter (·.source == term)).foldl follow { w with pending := rest }) := by
  have hterm : term ∈ w.met := h.pending term (hw ▸ List.mem_cons_self)
  have hedge : ∀ t, (∃ e ∈ edges.filter (·.source == term), e.target = t) ↔ Step edges term t := by
    intro t
    simp [Step, List.mem_filter, and_assoc]
  refine ⟨?_, ?_, ?_, ?_, ?_⟩
  · exact mem_met_foldl.mpr (Or.inl h.begun)
  · intro t ht
    rw [mem_met_foldl]
    rcases mem_pending_foldl.mp ht with ht | ⟨-, ht⟩
    · exact Or.inl (h.pending t (hw ▸ List.mem_cons_of_mem _ ht))
    · exact Or.inr ht
  · intro t ht
    rcases mem_met_foldl.mp ht with ht | ht
    · exact h.met t ht
    · exact (h.met term hterm).tail ((hedge t).mp ht)
  · intro t ht
    rcases mem_terms_foldl.mp ht with ht | ht
    · exact h.terms t ht
    · exact Relation.TransGen.tail' (h.met term hterm) ((hedge t).mp ht)
  · intro t ht hnot u hu
    rw [mem_met_foldl, mem_terms_foldl, hedge]
    rw [mem_pending_foldl, not_or] at hnot
    by_cases heq : t = term
    · exact ⟨Or.inr (heq ▸ hu), Or.inr (heq ▸ hu)⟩
    · have hmet : t ∈ w.met := by
        rcases mem_met_foldl.mp ht with ht | ht
        · exact ht
        · by_contra hno
          exact hnot.2 ⟨hno, ht⟩
      obtain ⟨hu1, hu2⟩ := h.left t hmet (by simp [hw, heq, hnot.1]) u hu
      exact ⟨Or.inl hu1, Or.inl hu2⟩

/-- **A walk with enough steps ends on track, with nothing pending.** -/
theorem onTrack_run {steps : Nat} (h : OnTrack edges start w) (hroom : w.room edges ≤ steps) :
    OnTrack edges start (run edges steps w) ∧ (run edges steps w).pending = [] := by
  induction steps generalizing w with
  | zero =>
    refine ⟨h, ?_⟩
    show w.pending = []
    unfold room at hroom
    exact List.length_eq_zero_iff.mp (by omega)
  | succ steps ih =>
    unfold run
    split
    · rename_i hnil
      exact ⟨h, hnil⟩
    · rename_i term rest hcons
      refine ih (h.leave hcons) ?_
      have hes : ∀ e ∈ edges.filter (·.source == term), e ∈ edges :=
        fun e he => List.mem_of_mem_filter he
      have hle := room_foldl (w := { w with pending := rest }) hes
      unfold room at *
      rw [hcons, List.length_cons] at hroom
      dsimp only at hle
      omega

/-- A walk has a step for every term that it can meet. -/
theorem room_outOf (edges : List Edge) (term : String) :
    (outOf term).room edges ≤ edges.length + 1 := by
  have hcard : ((edges.map Edge.target).toFinset.filter (· ∉ [term])).card ≤ edges.length := by
    refine (Finset.card_filter_le _ _).trans ((List.toFinset_card_le _).trans ?_)
    rw [List.length_map]
  unfold room outOf
  simp only [List.length_singleton]
  omega

/-- The walk out of a term ends because nothing is pending, and not because it is cut off. -/
def Ends (edges : List Edge) (term : String) : Prop :=
  (run edges (edges.length + 1) (outOf term)).pending = []

/-- **Every walk ends**, also where edges lead back to where they came from. -/
theorem ends (edges : List Edge) (term : String) : Ends edges term :=
  (onTrack_run (onTrack_start edges term) (room_outOf edges term)).2

/-! ### What is written down -/

/-- What has been reached: each term once, as an edge to it is written. -/
structure Listed (edges : List Edge) (w : Walk) : Prop where
  nodup : w.terms.Nodup
  edge : ∀ t ∈ w.reached, ∃ e ∈ edges, t = (e.target, e.written)

theorem Listed.follow (h : Listed edges w) (he : e ∈ edges) : Listed edges (w.follow e) := by
  unfold Walk.follow
  by_cases hlook : (w.reached.lookup e.target).isSome = true
  · rw [if_pos hlook]
    exact ⟨h.nodup, h.edge⟩
  · rw [if_neg hlook]
    rw [lookup_isSome] at hlook
    refine ⟨?_, fun t ht => ?_⟩
    · show ((w.reached ++ [(e.target, e.written)]).map Prod.fst).Nodup
      rw [List.map_append, List.map_singleton, ← List.concat_eq_append]
      exact h.nodup.concat hlook
    · rcases List.mem_append.mp ht with ht | ht
      · exact h.edge t ht
      · exact ⟨e, he, List.mem_singleton.mp ht⟩

theorem Listed.foldl (h : Listed edges w) (hes : ∀ e ∈ es, e ∈ edges) :
    Listed edges (es.foldl Walk.follow w) := by
  induction es generalizing w with
  | nil => exact h
  | cons e es ih =>
    rw [List.forall_mem_cons] at hes
    exact ih (h.follow hes.1) hes.2

theorem Listed.run (steps : Nat) (h : Listed edges w) : Listed edges (run edges steps w) := by
  induction steps generalizing w with
  | zero => exact h
  | succ steps ih =>
    unfold Walk.run
    split
    · exact h
    · refine ih (Listed.foldl ?_ fun e he => List.mem_of_mem_filter he)
      exact ⟨h.nodup, h.edge⟩

end Walk

/-- **Each term is reached once, as an edge to it is written.** -/
theorem listed_reachable (edges : List Edge) (term : String) :
    ((reachable edges term).map Prod.fst).Nodup ∧
      ∀ t ∈ reachable edges term, ∃ e ∈ edges, t = (e.target, e.written) := by
  have hstart : Walk.Listed edges (Walk.outOf term) := ⟨List.nodup_nil, nofun⟩
  obtain ⟨hnodup, hedge⟩ := hstart.run (edges.length + 1)
  exact ⟨hnodup, hedge⟩

/-- **Exactly the terms that one or more edges lead to are reached.** -/
theorem mem_ancestors {edges : List Edge} {a b : String} :
    b ∈ ancestors edges a ↔ Relation.TransGen (Step edges) a b := by
  obtain ⟨h, hnil⟩ := Walk.onTrack_run (Walk.onTrack_start edges a) (Walk.room_outOf edges a)
  have hleft : ∀ t ∈ (Walk.run edges (edges.length + 1) (Walk.outOf a)).met, ∀ u,
      Step edges t u → _ := fun t ht => h.left t ht (by simp [hnil])
  constructor
  · exact h.terms b
  · intro hab
    have hboth : b ∈ (Walk.run edges (edges.length + 1) (Walk.outOf a)).met ∧
        b ∈ (Walk.run edges (edges.length + 1) (Walk.outOf a)).terms := by
      induction hab with
      | single hstep => exact hleft a h.begun _ hstep
      | tail _ hstep ih => exact hleft _ ih.1 _ hstep
    exact hboth.2

end KnowledgeBase.Taxonomy
