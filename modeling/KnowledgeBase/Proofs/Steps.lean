import KnowledgeBase.Fault

/-!
# Changes step by step

Operations are given by what they lead to.  Taken apart they are steps, in order: what is looked at,
what is written, and where a fault ends them.  A fault leaves behind what was written before it.

* `Steps`: changes that may break off, with `answer` and `left` for what they say and leave behind;
* `Steps.AllOrNothing`: nothing has been written whenever they break off;
* `Steps.Traces`, `Steps.Carries`: steps that answer as an operation does and leave behind what it
  does, and that moreover write nothing if it is refused.
-/

namespace KnowledgeBase

/-! ### Changes that may break off -/

/-- A change that is made step by step. -/
abbrev Steps (σ α : Type) := EStateM Fault σ α

namespace Steps

variable {σ α β : Type} {x : Steps σ α} {f : α → Steps σ β} {s s' : σ} {a : α} {why : Fault}

/-- Looks at the state, which may show a fault. -/
def ask (look : σ → Except Fault α) : Steps σ α := fun s =>
  match look s with
  | .ok a => .ok a s
  | .error why => .error why s

/-- What a change says. -/
def answer (x : Steps σ α) (s : σ) : Except Fault α :=
  match x s with
  | .ok a _ => .ok a
  | .error why _ => .error why

/-- What a change leaves behind. -/
def left (x : Steps σ α) (s : σ) : σ :=
  match x s with
  | .ok _ s' => s'
  | .error _ s' => s'

/-- A change that has written nothing whenever it breaks off. -/
def AllOrNothing (x : Steps σ α) (s : σ) : Prop :=
  ∀ why, x.answer s = .error why → x.left s = s

theorem bind_of_ok (h : x s = .ok a s') : (x >>= f) s = f a s' := by
  show EStateM.bind x f s = _
  unfold EStateM.bind
  rw [h]

theorem bind_of_error (h : x s = .error why s') : (x >>= f) s = .error why s' := by
  show EStateM.bind x f s = _
  unfold EStateM.bind
  rw [h]

theorem ask_of_ok {look : σ → Except Fault α} (h : look s = .ok a) : ask look s = .ok a s := by
  unfold ask
  rw [h]

theorem ask_of_error {look : σ → Except Fault α} (h : look s = .error why) :
    ask look s = .error why s := by
  unfold ask
  rw [h]

theorem eq_error_of_answer (h : x.answer s = .error why) : x s = .error why (x.left s) := by
  unfold answer at h
  unfold left
  cases hx : x s with
  | ok a s' =>
    rw [hx] at h
    cases h
  | error why' s' =>
    rw [hx] at h
    cases h
    rfl

theorem eq_ok_of_answer (h : x.answer s = .ok a) : x s = .ok a (x.left s) := by
  unfold answer at h
  unfold left
  cases hx : x s with
  | ok a' s' =>
    rw [hx] at h
    cases h
    rfl
  | error why s' =>
    rw [hx] at h
    cases h

theorem allOrNothing_of_ok (h : x s = .ok a s') : x.AllOrNothing s := by
  intro why hwhy
  unfold answer at hwhy
  rw [h] at hwhy
  cases hwhy

theorem allOrNothing_of_error (h : x s = .error why s) : x.AllOrNothing s := by
  intro _ _
  unfold left
  rw [h]

/-! ### Steps and operations -/

/-- Steps answer as an operation does, and leave behind the same. -/
structure Traces (same : σ → σ → Prop) (x : Steps σ α) (s : σ) (out : σ × Except Fault α) :
    Prop where
  answer : x.answer s = out.2
  left : same out.1 (x.left s)

/-- What an operation leaves behind that gives a state only if it is not refused. -/
def outcome (s : σ) (r : Except Fault (σ × α)) : σ × Except Fault α :=
  match r with
  | .ok (s', a) => (s', .ok a)
  | .error why => (s, .error why)

/-- Steps that trace an operation, and have written nothing if it is refused. -/
structure Carries (same : σ → σ → Prop) (x : Steps σ α) (s : σ) (r : Except Fault (σ × α)) :
    Prop where
  traces : Traces same x s (outcome s r)
  allOrNothing : x.AllOrNothing s

section

variable {same : σ → σ → Prop} {y : Steps σ α} {u : σ}

theorem traces_of_ok (h : x s = .ok a s') (hu : same u s') : Traces same x s (u, .ok a) := by
  refine ⟨?_, ?_⟩
  · unfold answer
    rw [h]
  · unfold left
    rw [h]
    exact hu

theorem traces_of_error (h : x s = .error why s') (hu : same u s') :
    Traces same x s (u, .error why) := by
  refine ⟨?_, ?_⟩
  · unfold answer
    rw [h]
  · unfold left
    rw [h]
    exact hu

theorem carries_of_ok (h : x s = .ok a s') (hu : same u s') : Carries same x s (.ok (u, a)) :=
  ⟨traces_of_ok h hu, allOrNothing_of_ok h⟩

theorem carries_of_error (h : x s = .error why s) (hs : same s s) :
    Carries same x s (.error why) :=
  ⟨traces_of_error h hs, allOrNothing_of_error h⟩

theorem answer_congr (h : x s = y u) : x.answer s = y.answer u := by
  unfold answer
  rw [h]

theorem left_congr (h : x s = y u) : x.left s = y.left u := by
  unfold left
  rw [h]

theorem Traces.of_eq {out : σ × Except Fault α} (h : Traces same y u out) (heq : x s = y u) :
    Traces same x s out :=
  ⟨(answer_congr heq).trans h.answer, left_congr heq ▸ h.left⟩

theorem Carries.of_eq {r : Except Fault (σ × α)} (h : Carries same y s r) (heq : x s = y s) :
    Carries same x s r := by
  refine ⟨h.traces.of_eq heq, fun why hwhy => ?_⟩
  rw [left_congr heq]
  exact h.allOrNothing why ((answer_congr heq).symm.trans hwhy)

end

end Steps

end KnowledgeBase
