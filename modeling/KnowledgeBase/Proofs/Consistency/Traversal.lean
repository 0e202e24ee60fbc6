import KnowledgeBase.Proofs.Consistency.Reachability

/-!
# Searches that come to their end

The depth-first search of a taxonomy is cut off at a depth that it never gets to, so it does what a
search without a bound on its depth does.

* `Traverses`: visits one after the other, with no bound on the depth, that come to their end;
* `Trail`: what bounds the length of a path;
* `traverses_visit`, `traverses_foldl`: the visit of one term, and of terms one after the other.
-/

namespace KnowledgeBase.Taxonomy

variable {edges : List Edge} {path ts us : List String} {found found' found'' : Found}
  {term : String}

/-! ### Visits without a bound -/

/-- The folded terms that an edge leads to, in the order of the edges. -/
def targets (edges : List Edge) (term : String) : List String :=
  (edges.filter (·.source == term)).map Edge.target

theorem mem_targets {t : String} : t ∈ targets edges term ↔ Step edges term t := by
  simp [targets, Step, List.mem_filter, and_assoc]

/-- Visiting terms one after the other from the end of a path comes to an end with what was found:
a term on the path closes a cycle, one that was visited before is passed over, and any other one is
entered. -/
inductive Traverses (edges : List Edge) : List String → Found → List String → Found → Prop
  | done {path : List String} {found : Found} : Traverses edges path found [] found
  | closes {path ts : List String} {found found' : Found} {term : String} : term ∈ path →
      Traverses edges path { found with cycles := found.cycles ++ [path.dropWhile (· != term)] } ts
        found' →
      Traverses edges path found (term :: ts) found'
  | passes {path ts : List String} {found found' : Found} {term : String} : term ∉ path →
      term ∈ found.visited → Traverses edges path found ts found' →
      Traverses edges path found (term :: ts) found'
  | enters {path ts : List String} {found found' found'' : Found} {term : String} : term ∉ path →
      term ∉ found.visited →
      Traverses edges (path ++ [term]) { found with visited := term :: found.visited }
        (targets edges term) found' →
      Traverses edges path found' ts found'' → Traverses edges path found (term :: ts) found''

theorem Traverses.append (h : Traverses edges path found ts found')
    (h' : Traverses edges path found' us found'') :
    Traverses edges path found (ts ++ us) found'' := by
  induction h with
  | done => exact h'
  | closes hpath _ ih => exact .closes hpath (ih h')
  | passes hpath hvisited _ ih => exact .passes hpath hvisited (ih h')
  | enters hpath hvisited hinner _ _ ih => exact .enters hpath hvisited hinner (ih h')

/-- Cycles that were found are kept. -/
theorem Traverses.cycles_subset (h : Traverses edges path found ts found') :
    found.cycles ⊆ found'.cycles := by
  induction h with
  | done => exact List.Subset.refl _
  | closes _ _ ih => exact List.Subset.trans (List.subset_append_left _ _) ih
  | passes _ _ _ ih => exact ih
  | enters _ _ _ _ ihinner ih => exact List.Subset.trans ihinner ih

/-! ### Visits with enough depth -/

/-- Distinct terms that have an edge each, which bounds the length of the path. -/
structure Trail (edges : List Edge) (path : List String) : Prop where
  nodup : path.Nodup
  source : ∀ t ∈ path, ∃ u, Step edges t u

theorem Trail.concat {path : List String} {t u : String} (h : Trail edges path) (ht : t ∉ path)
    (htu : Step edges t u) : Trail edges (path ++ [t]) := by
  refine ⟨?_, fun x hx => ?_⟩
  · rw [← List.concat_eq_append]
    exact h.nodup.concat ht
  · rcases List.mem_append.mp hx with hx | hx
    · exact h.source x hx
    · rw [List.mem_singleton.mp hx]
      exact ⟨u, htu⟩

theorem Trail.length_le {path : List String} (h : Trail edges path) :
    path.length ≤ edges.length := by
  have hsub : path ⊆ edges.map Edge.source := by
    intro t ht
    obtain ⟨u, e, he, rfl, -⟩ := h.source t ht
    exact List.mem_map_of_mem he
  have hle := (h.nodup.subperm hsub).length_le
  rwa [List.length_map] at hle

/-- Visits that come to their end do so one after the other. -/
theorem traverses_foldl {v : Found → String → Found}
    (hv : ∀ t ∈ ts, ∀ f, Traverses edges path f [t] (v f t)) :
    Traverses edges path found ts (ts.foldl v found) := by
  induction ts generalizing found with
  | nil => exact .done
  | cons t ts ih =>
    rw [List.forall_mem_cons] at hv
    exact (hv.1 found).append (ih hv.2)

/-- **A visit comes to its end before the depth runs out.**  The path holds no term twice and every
term on it has an edge, so it is never longer than there are edges. -/
theorem traverses_visit {depth : Nat} (htrail : Trail edges path)
    (hdepth : path.length + depth = edges.length + 1) :
    Traverses edges path found [term] (visit edges depth path found term) := by
  induction depth generalizing path found term with
  | zero =>
    have := htrail.length_le
    omega
  | succ depth ih =>
    unfold visit
    split
    · rename_i hpath
      exact .closes (by simpa using hpath) .done
    · rename_i hpath
      have hterm : term ∉ path := by simpa using hpath
      split
      · rename_i hvisited
        exact .passes hterm (by simpa using hvisited) .done
      · rename_i hvisited
        refine .enters hterm (by simpa using hvisited) (traverses_foldl fun u hu f => ?_) .done
        refine ih (htrail.concat hterm (mem_targets.mp hu)) ?_
        rw [List.length_append, List.length_singleton]
        omega

end KnowledgeBase.Taxonomy
