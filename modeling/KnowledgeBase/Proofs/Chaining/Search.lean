import KnowledgeBase.Proof.Search
import KnowledgeBase.Proofs.Outcome

/-!
# What a search gives

How the value of a composed search comes about.

* `Search.bind_eq_ok`: a search in steps gives what its steps give;
* `Search.findSomeM?_eq_ok_some`: a search for the first of several gives that of one of them, those
  before it having given nothing;
* `Search.mem_of_gather`: what is gathered was there before or comes from one of the searches;
* `Search.gather_eq_nil`, `Search.gather_complete`: something is gathered if there is anything to
  find, and below the cap everything is;
* `Search.Ends`: a search that no fault breaks off.
-/

namespace KnowledgeBase.Proof.Search

variable {α β : Type} {x : Search α}

@[simp] theorem value_pure (a : α) : (pure a : Search α).value = .ok a := rfl

theorem bind_eq_ok {f : α → Search β} {b : β} :
    (x >>= f).value = .ok b ↔ ∃ a, x.value = .ok a ∧ (f a).value = .ok b := by
  show (x.andThen f).value = .ok b ↔ _
  unfold andThen
  split
  · rename_i a ha
    simp [ha]
  · rename_i e he
    simp [he]

theorem bind_of_ok {f : α → Search β} {a : α} (h : x.value = .ok a) :
    x >>= f = ⟨(f a).value, x.limited || (f a).limited⟩ := by
  show x.andThen f = _
  unfold andThen
  rw [h]

theorem bind_of_error {f : α → Search β} {e : Break} (h : x.value = .error e) :
    x >>= f = ⟨.error e, x.limited⟩ := by
  show x.andThen f = _
  unfold andThen
  rw [h]

theorem ofExcept_eq_ok {r : Except Fault α} {a : α} :
    (ofExcept r).value = .ok a ↔ r = .ok a := by
  cases r with
  | ok b => simp [ofExcept, Except.mapError]
  | error e => simp [ofExcept, Except.mapError]

theorem workingOn_eq_ok {goal : String} {a : α} :
    (x.workingOn goal).value = .ok a ↔ x.value = .ok a := by
  unfold workingOn
  cases hx : x.value with
  | ok b => simp [Except.mapError]
  | error e => simp [Except.mapError]

/-! ### The first of several -/

section

variable {f : α → Search (Option β)}

theorem findSomeM?_nil : ([] : List α).findSomeM? f = pure none := rfl

theorem findSomeM?_cons (a : α) (as : List α) :
    (a :: as).findSomeM? f = f a >>= fun
      | some b => pure (some b)
      | none => as.findSomeM? f := by
  rw [List.findSomeM?]
  rfl

/-- The search ends at the first success. -/
theorem findSomeM?_eq_ok_some {as : List α} {b : β} :
    (as.findSomeM? f).value = .ok (some b) ↔
      ∃ before a after, as = before ++ a :: after ∧
        (∀ a' ∈ before, (f a').value = .ok none) ∧ (f a).value = .ok (some b) := by
  induction as with
  | nil =>
    rw [findSomeM?_nil]
    simp
  | cons a as ih =>
    rw [findSomeM?_cons, bind_eq_ok]
    constructor
    · rintro ⟨r, hr, h⟩
      cases r with
      | some b' =>
        cases h
        exact ⟨[], a, as, rfl, by simp, hr⟩
      | none =>
        obtain ⟨before, a', after, rfl, hnone, ha'⟩ := ih.mp h
        refine ⟨a :: before, a', after, rfl, ?_, ha'⟩
        rintro c hc
        rcases List.mem_cons.mp hc with rfl | hc
        · exact hr
        · exact hnone c hc
    · rintro ⟨before, a', after, heq, hnone, ha'⟩
      cases before with
      | nil =>
        obtain ⟨rfl, rfl⟩ := List.cons.inj heq
        exact ⟨some b, ha', rfl⟩
      | cons c before =>
        obtain ⟨rfl, rfl⟩ := List.cons.inj heq
        exact ⟨none, hnone _ List.mem_cons_self, ih.mpr ⟨before, a', after, rfl,
          fun c' hc' => hnone c' (List.mem_cons_of_mem _ hc'), ha'⟩⟩

theorem findSomeM?_eq_ok_none {as : List α} :
    (as.findSomeM? f).value = .ok none ↔ ∀ a ∈ as, (f a).value = .ok none := by
  induction as with
  | nil =>
    rw [findSomeM?_nil]
    simp
  | cons a as ih =>
    rw [findSomeM?_cons, bind_eq_ok, List.forall_mem_cons, ← ih]
    constructor
    · rintro ⟨r, hr, h⟩
      cases r with
      | some b => cases h
      | none => exact ⟨hr, h⟩
    · rintro ⟨ha, h⟩
      exact ⟨none, ha, h⟩

end

/-! ### Gathering -/

section

variable {cap : Nat} {f : α → Search (List β)} {as : List α} {found out : List β}

theorem gather_cons (a : α) :
    gather cap f (a :: as) found = f a >>= fun bs =>
      if cap ≤ ((found ++ bs).take cap).length then pure ((found ++ bs).take cap)
      else gather cap f as ((found ++ bs).take cap) := rfl

theorem mem_of_gather (h : (gather cap f as found).value = .ok out) {b : β} (hb : b ∈ out) :
    b ∈ found ∨ ∃ a ∈ as, ∃ bs, (f a).value = .ok bs ∧ b ∈ bs := by
  induction as generalizing found with
  | nil =>
    cases h
    exact Or.inl hb
  | cons a as ih =>
    rw [gather_cons] at h
    obtain ⟨bs, hbs, h⟩ := bind_eq_ok.mp h
    have hstep : b ∈ (found ++ bs).take cap →
        b ∈ found ∨ ∃ a' ∈ a :: as, ∃ bs, (f a').value = .ok bs ∧ b ∈ bs := by
      intro hmem
      rcases List.mem_append.mp (List.mem_of_mem_take hmem) with hb | hb
      · exact Or.inl hb
      · exact Or.inr ⟨a, List.mem_cons_self, bs, hbs, hb⟩
    split at h
    · cases h
      exact hstep hb
    · rcases ih h with hb | ⟨a', ha', hrest⟩
      · exact hstep hb
      · exact Or.inr ⟨a', List.mem_cons_of_mem _ ha', hrest⟩

/-- Nothing is gathered if and only if there was nothing before and no search gives anything: up to
the first find, no search is left out. -/
theorem gather_eq_nil (hcap : 0 < cap) (h : (gather cap f as found).value = .ok out) :
    out = [] ↔ found = [] ∧ ∀ a ∈ as, (f a).value = .ok [] := by
  induction as generalizing found with
  | nil =>
    cases h
    simp
  | cons a as ih =>
    rw [gather_cons] at h
    obtain ⟨bs, hbs, h⟩ := bind_eq_ok.mp h
    have htake : (found ++ bs).take cap = [] ↔ found = [] ∧ (f a).value = .ok [] := by
      rw [List.take_eq_nil_iff, List.append_eq_nil_iff, hbs, Except.ok.injEq]
      simp [Nat.ne_of_gt hcap]
    rw [List.forall_mem_cons, ← and_assoc, ← htake]
    split at h
    · rename_i hfull
      cases h
      have hne : (found ++ bs).take cap ≠ [] := by
        intro hnil
        rw [hnil, List.length_nil] at hfull
        omega
      simp [hne]
    · exact ih h

/-- A list that stays below the cap holds all that was found before and all that each search
gives. -/
theorem gather_complete (h : (gather cap f as found).value = .ok out) (hcap : out.length < cap) :
    found ⊆ out ∧ ∀ a ∈ as, ∃ bs, (f a).value = .ok bs ∧ bs ⊆ out := by
  induction as generalizing found with
  | nil =>
    cases h
    exact ⟨fun _ hb => hb, by simp⟩
  | cons a as ih =>
    rw [gather_cons] at h
    obtain ⟨bs, hbs, h⟩ := bind_eq_ok.mp h
    split at h
    · rename_i hfull
      cases h
      omega
    · rename_i hroom
      have htake : (found ++ bs).take cap = found ++ bs := by
        refine List.take_of_length_le ?_
        rw [List.length_take] at hroom
        omega
      rw [htake] at h
      obtain ⟨hkept, hrest⟩ := ih h
      refine ⟨fun b hb => hkept (List.mem_append_left _ hb), ?_⟩
      rw [List.forall_mem_cons]
      exact ⟨⟨bs, hbs, fun b hb => hkept (List.mem_append_right _ hb)⟩, hrest⟩

/-- If no search gives more than `k`, the number of finds is bounded. -/
theorem length_gather_le {k : Nat} (hk : ∀ a ∈ as, ∀ bs, (f a).value = .ok bs → bs.length ≤ k)
    (h : (gather cap f as found).value = .ok out) : out.length ≤ found.length + as.length * k := by
  induction as generalizing found with
  | nil =>
    cases h
    simp
  | cons a as ih =>
    obtain ⟨hka, hk⟩ := List.forall_mem_cons.mp hk
    rw [gather_cons] at h
    obtain ⟨bs, hbs, h⟩ := bind_eq_ok.mp h
    have hnext : ((found ++ bs).take cap).length ≤ found.length + k := by
      have hlen := hka bs hbs
      rw [List.length_take, List.length_append]
      omega
    rw [List.length_cons, Nat.succ_mul]
    split at h
    · cases h
      omega
    · have hrest := ih hk h
      omega

end

/-! ### Searches that come to an end -/

/-- No fault breaks the search off. -/
def Ends (x : Search α) : Prop := ∃ a, x.value = .ok a

theorem ends_pure (a : α) : Ends (pure a) := ⟨a, rfl⟩

theorem Ends.bind {f : α → Search β} (h : x.Ends) (hf : ∀ a, (f a).Ends) : (x >>= f).Ends := by
  obtain ⟨a, ha⟩ := h
  obtain ⟨b, hb⟩ := hf a
  exact ⟨b, bind_eq_ok.mpr ⟨a, ha, hb⟩⟩

theorem Ends.workingOn (h : x.Ends) (goal : String) : (x.workingOn goal).Ends := by
  obtain ⟨a, ha⟩ := h
  exact ⟨a, workingOn_eq_ok.mpr ha⟩

theorem Ends.findSomeM? {f : α → Search (Option β)} {as : List α} (h : ∀ a ∈ as, (f a).Ends) :
    (as.findSomeM? f).Ends := by
  induction as with
  | nil => exact ends_pure none
  | cons a as ih =>
    rw [findSomeM?_cons]
    refine (h a List.mem_cons_self).bind fun r => ?_
    cases r with
    | some b => exact ends_pure (some b)
    | none => exact ih fun a' ha' => h a' (List.mem_cons_of_mem _ ha')

theorem Ends.gather {cap : Nat} {f : α → Search (List β)} {as : List α}
    (h : ∀ a ∈ as, (f a).Ends) (found : List β) : (gather cap f as found).Ends := by
  induction as generalizing found with
  | nil => exact ends_pure found
  | cons a as ih =>
    rw [gather_cons]
    refine (h a List.mem_cons_self).bind fun bs => ?_
    split
    · exact ends_pure _
    · exact ih (fun a' ha' => h a' (List.mem_cons_of_mem _ ha')) _

end KnowledgeBase.Proof.Search
