import KnowledgeBase.Proofs.Store.Ages
import KnowledgeBase.Proofs.Store.Observation
import Mathlib.Data.List.Induction

/-!
# Uses are counted in a word

A concept's count grows by one with every use and by any amount with a boost, and the sum is cut to
32 bits.  So it goes on growing exactly as long as everything that was added fits, and with it the
safety from being forgotten for little use.

* `Use`, `Usage.run`: what is recorded of a concept, and what a run of it leads to;
* `Usage.count_run`: the count is the total of the run, cut to a word;
* `Usage.climbs_iff`, `Usage.covers_of_fits`: when the count never falls, and what it is not below;
* `Store.fallsUnder_iff`, `Store.unexposed_iff`: when no use brings a concept under a threshold;
* `Store.counted_of_reached`: what stores hold of their concepts are runs;
* `Store.counts_grow_iff`: when counts grow;
* `Store.boosted_forgotten`: a concept that a boost makes the least used one.
-/

namespace KnowledgeBase

/-! ### Runs of uses -/

/-- Something that is recorded of a concept. -/
inductive Use where
  | asserted (now : Millis)
  | queried (now : Millis)
  | inferred (now : Millis)
  | boosted (amount : UInt32) (now : Millis)

namespace Use

/-- What a use adds to the count. -/
def weight : Use → ℕ
  | boosted amount _ => amount.toNat
  | _ => 1

/-- What a run of uses adds to the count. -/
def total (uses : List Use) : ℕ := (uses.map weight).sum

variable {use : Use} {xs ys : List Use}

theorem weight_lt (use : Use) : use.weight < 2 ^ 32 := by
  cases use with
  | boosted amount now => exact amount.toNat_lt
  | asserted now | queried now | inferred now => exact (by decide : 1 < 2 ^ 32)

theorem total_concat (xs : List Use) (use : Use) : total (xs ++ [use]) = total xs + use.weight := by
  simp [total]

theorem total_mono (h : xs <+: ys) : total xs ≤ total ys := by
  obtain ⟨zs, rfl⟩ := h
  simp [total]

end Use

namespace Usage

open Use

def after (u : Usage) : Use → Usage
  | .asserted now => u.recordAssert now
  | .queried now => u.recordQuery now
  | .inferred now => u.recordInference now
  | .boosted amount now => u.boost amount now

/-- What is known of a concept that was made at a time and used since. -/
def run (created : Millis) (uses : List Use) : Usage := uses.foldl after (fresh created)

/-- The uses of all kinds, without the boosts. -/
def recorded (u : Usage) : ℕ := u.asserted.toNat + u.queried.toNat + u.inferred.toNat

variable {u : Usage} {use : Use} {created : Millis} {uses xs ys : List Use}

theorem run_concat (created : Millis) (xs : List Use) (use : Use) :
    run created (xs ++ [use]) = (run created xs).after use := List.foldl_concat ..

/-- A use adds its weight to the count, which is cut to a word. -/
theorem count_after (u : Usage) (use : Use) :
    (u.after use).count.toNat = (u.count.toNat + use.weight) % 2 ^ 32 := by
  cases use with
  | boosted amount now => exact UInt32.toNat_add _ _
  | asserted now | queried now | inferred now => exact UInt32.toNat_add _ _

/-- The count of one kind of use grows by one at most. -/
theorem toNat_succ_le (n : UInt32) : (n + 1).toNat ≤ n.toNat + 1 := by
  rw [UInt32.toNat_add]
  exact Nat.mod_le _ _

theorem recorded_after_le (u : Usage) (use : Use) :
    (u.after use).recorded ≤ u.recorded + use.weight := by
  have hasserted := toNat_succ_le u.asserted
  have hqueried := toNat_succ_le u.queried
  have hinferred := toNat_succ_le u.inferred
  unfold recorded
  cases use with
  | asserted now =>
    show (u.asserted + 1).toNat + u.queried.toNat + u.inferred.toNat ≤ _ + 1
    omega
  | queried now =>
    show u.asserted.toNat + (u.queried + 1).toNat + u.inferred.toNat ≤ _ + 1
    omega
  | inferred now =>
    show u.asserted.toNat + u.queried.toNat + (u.inferred + 1).toNat ≤ _ + 1
    omega
  | boosted amount now => exact Nat.le_add_right _ _

/-- **The count is the total, cut to a word.** -/
theorem count_run (created : Millis) (uses : List Use) :
    (run created uses).count.toNat = total uses % 2 ^ 32 := by
  induction uses using List.reverseRecOn with
  | nil => rfl
  | append_singleton xs use ih =>
    rw [run_concat, count_after, ih, Nat.mod_add_mod, total_concat]

theorem recorded_run_le (created : Millis) (uses : List Use) :
    (run created uses).recorded ≤ total uses := by
  induction uses using List.reverseRecOn with
  | nil => exact Nat.le_refl 0
  | append_singleton xs use ih =>
    rw [run_concat, total_concat]
    exact (recorded_after_le _ use).trans (Nat.add_le_add_right ih _)

theorem count_run_of_fits (hfits : total uses < 2 ^ 32) (h : xs <+: uses) (created : Millis) :
    (run created xs).count.toNat = total xs := by
  rw [count_run]
  exact Nat.mod_eq_of_lt ((total_mono h).trans_lt hfits)

/-! ### Counts that never fall -/

/-- At no time in a run is the count lower than before. -/
def Climbs (created : Millis) (uses : List Use) : Prop :=
  ∀ xs ys, xs <+: ys → ys <+: uses → (run created xs).count ≤ (run created ys).count

/-- At no time in a run is the count below the number of the uses. -/
def Covers (created : Millis) (uses : List Use) : Prop :=
  ∀ xs, xs <+: uses → (run created xs).recorded ≤ (run created xs).count.toNat

theorem climbs_of_fits (hfits : total uses < 2 ^ 32) : Climbs created uses := by
  intro xs ys hxs hys
  rw [UInt32.le_iff_toNat_le, count_run_of_fits hfits (hxs.trans hys), count_run_of_fits hfits hys]
  exact total_mono hxs

theorem covers_of_fits (hfits : total uses < 2 ^ 32) : Covers created uses := by
  intro xs hxs
  rw [count_run_of_fits hfits hxs]
  exact recorded_run_le created xs

/-- The use with which the total outgrows a word makes the count fall, since it adds less than a
word can hold. -/
theorem fits_of_climbs (h : Climbs created uses) : total uses < 2 ^ 32 := by
  induction uses using List.reverseRecOn with
  | nil => exact (by decide : 0 < 2 ^ 32)
  | append_singleton xs use ih =>
    have hprefix : xs <+: xs ++ [use] := List.prefix_append _ _
    have hfits : total xs < 2 ^ 32 := ih fun as bs has hbs => h as bs has (hbs.trans hprefix)
    have hle := h xs (xs ++ [use]) hprefix List.prefix_rfl
    rw [UInt32.le_iff_toNat_le, count_run, count_run, Nat.mod_eq_of_lt hfits, total_concat] at hle
    have hweight := use.weight_lt
    rw [total_concat]
    omega

/-- **The count never falls exactly if the total fits.** -/
theorem climbs_iff : Climbs created uses ↔ total uses < 2 ^ 32 :=
  ⟨fits_of_climbs, climbs_of_fits⟩

end Usage

namespace Store

variable {s s' : Store} {u : Usage} {n : UInt32} {now created : Millis} {uses : List Use}
  {l : String}

/-! ### Thresholds -/

/-- A request to forget what was used fewer times than a threshold selects the concept, be it only
said, done, or kept from by a protection. -/
def FallsUnder (s : Store) (n : UInt32) (now : Millis) (l : String) : Prop :=
  ∀ dryRun, ∃ s' done, s.forget { threshold := some n, dryRun } now = .ok (s', done) ∧
    l ∈ done.selected

theorem usage?_eq_some : s.usage? l = some u ↔ ∃ c, s.concept? l = some c ∧ c.usage = u :=
  Option.map_eq_some_iff

/-- A threshold selects the concepts of lower counts. -/
theorem select_few (s : Store) (n : UInt32) (now : Millis) (dryRun : Bool) :
    ∃ ls, s.select { threshold := some n, dryRun } now = .ok ls ∧
      ∀ l, l ∈ ls ↔ ∃ u, s.usage? l = some u ∧ u.count < n := by
  refine ⟨_, rfl, fun l => ?_⟩
  have hstale : ∀ u : Usage, isStale (some n) none now u = true ↔ u.count < n := by
    intro u
    simp [isStale]
  simp only [List.mem_map, List.mem_filter, Prod.exists, exists_and_right, exists_eq_right,
    Std.TreeMap.mem_toList_iff_getElem?_eq_some, hstale, usage?_eq_some]
  constructor
  · rintro ⟨c, hc, hlt⟩
    exact ⟨c.usage, ⟨c, hc, rfl⟩, hlt⟩
  · rintro ⟨u, ⟨c, hc, rfl⟩, hlt⟩
    exact ⟨c, hc, hlt⟩

/-- **A concept falls under a threshold exactly if its count is below it.** -/
theorem fallsUnder_iff : s.FallsUnder n now l ↔ ∃ u, s.usage? l = some u ∧ u.count < n := by
  constructor
  · intro h
    obtain ⟨ls, hselect, hls⟩ := select_few s n now true
    obtain ⟨s', done, hforget, hdone⟩ := h true
    obtain ⟨s'', done', hforget', hreported, -⟩ := forget_selects hselect
    cases hforget.symm.trans hforget'
    exact (hls l).mp ((hreported l).mp hdone)
  · intro h dryRun
    obtain ⟨ls, hselect, hls⟩ := select_few s n now dryRun
    obtain ⟨s', done, hforget, hreported, -⟩ := forget_selects hselect
    exact ⟨s', done, hforget, (hreported l).mpr ((hls l).mpr h)⟩

/-- Nowhere in a run does a use bring a concept under a threshold that it was not under before,
whatever stores it is in. -/
def Unexposed (created : Millis) (uses : List Use) : Prop :=
  ∀ xs ys, xs <+: ys → ys <+: uses → ∀ (s s' : Store) (l : String),
    s.usage? l = some (Usage.run created xs) → s'.usage? l = some (Usage.run created ys) →
    ∀ n now now', s'.FallsUnder n now' l → s.FallsUnder n now l

theorem unexposed_of_climbs (h : Usage.Climbs created uses) : Unexposed created uses := by
  intro xs ys hxs hys s s' l hs hs' n now now' hfalls
  obtain ⟨u, hu, hlt⟩ := fallsUnder_iff.mp hfalls
  cases hu.symm.trans hs'
  exact fallsUnder_iff.mpr ⟨_, hs, UInt32.lt_of_le_of_lt (h xs ys hxs hys) hlt⟩

/-- A store with one concept, of which a given usage is known. -/
def withUsage (u : Usage) : Store := ({ dimensions := 1 } : Store).setConcept ⟨"rex", [], u⟩

theorem usage?_withUsage (u : Usage) : (withUsage u).usage? "rex" = some u := by
  unfold withUsage usage?
  rw [concept?_setConcept, if_pos rfl]
  rfl

/-- The earlier count is itself a threshold that the concept does not fall under. -/
theorem climbs_of_unexposed (h : Unexposed created uses) : Usage.Climbs created uses := by
  intro xs ys hxs hys
  by_contra hlt
  have hafter :
      (withUsage (Usage.run created ys)).FallsUnder (Usage.run created xs).count 0 "rex" :=
    fallsUnder_iff.mpr ⟨_, usage?_withUsage _, UInt32.not_le.mp hlt⟩
  have hbefore :
      (withUsage (Usage.run created xs)).FallsUnder (Usage.run created xs).count 0 "rex" :=
    h xs ys hxs hys _ _ "rex" (usage?_withUsage _) (usage?_withUsage _) _ 0 0 hafter
  obtain ⟨u, hu, hself⟩ := fallsUnder_iff.mp hbefore
  rw [usage?_withUsage] at hu
  cases hu
  exact UInt32.lt_irrefl _ hself

theorem unexposed_iff : Unexposed created uses ↔ Use.total uses < 2 ^ 32 :=
  ⟨fun h => Usage.climbs_iff.mp (climbs_of_unexposed h),
    fun h => unexposed_of_climbs (Usage.climbs_iff.mpr h)⟩

/-! ### What stores hold -/

/-- What is held of every concept is a run of uses. -/
def Counted (s : Store) : Prop :=
  ∀ l u, s.usage? l = some u → ∃ created uses, u = Usage.run created uses

variable {c : Concept} {t : Triple} {level : Existence} {metadata : Value} {ok : Store → Prop}

theorem Counted.of_concepts (h : Counted s)
    (hkept : ∀ l c, s'.concept? l = some c → s.concept? l = some c) : Counted s' := by
  intro l u hu
  obtain ⟨c, hc, rfl⟩ := usage?_eq_some.mp hu
  exact h l c.usage (usage?_eq_some.mpr ⟨c, hkept l c hc, rfl⟩)

theorem Counted.congr (h : Counted s) (hconcepts : s'.concepts = s.concepts) : Counted s' := by
  refine h.of_concepts fun l c hc => ?_
  unfold concept? at hc ⊢
  rwa [← hconcepts]

theorem Counted.setConcept (h : Counted s)
    (hc : ∃ created uses, c.usage = Usage.run created uses) : Counted (s.setConcept c) := by
  intro l u hu
  obtain ⟨c', hc', rfl⟩ := usage?_eq_some.mp hu
  rw [concept?_setConcept] at hc'
  split at hc'
  · cases hc'
    exact hc
  · exact h l c'.usage (usage?_eq_some.mpr ⟨c', hc', rfl⟩)

/-- A new concept has not been used. -/
theorem Counted.conceptOrNew (h : Counted s) (l : String) (now : Millis) :
    ∃ created uses, (s.conceptOrNew l now).usage = Usage.run created uses := by
  unfold Store.conceptOrNew
  cases hc : s.concept? l with
  | none => exact ⟨now, [], rfl⟩
  | some c => exact h l c.usage (usage?_eq_some.mpr ⟨c, hc, rfl⟩)

/-- One more use goes on with a run. -/
theorem exists_run_after {u : Usage} (h : ∃ created uses, u = Usage.run created uses) (use : Use) :
    ∃ created uses, u.after use = Usage.run created uses := by
  obtain ⟨created, uses, rfl⟩ := h
  exact ⟨created, uses ++ [use], (Usage.run_concat created uses use).symm⟩

theorem Counted.introduce (h : Counted s) (l : String) (now : Millis) :
    Counted (s.introduce l now) := by
  cases hknown : s.hasConcept l with
  | true => rwa [introduce_known hknown]
  | false =>
    rw [introduce_new hknown]
    exact h.setConcept ⟨now, [], rfl⟩

theorem Counted.modifyUsage (h : Counted s) (l : String) (use : Use) :
    Counted (s.modifyUsage l (·.after use)) := by
  unfold Store.modifyUsage
  split
  · rename_i c hc
    exact h.setConcept (exists_run_after (h l c.usage (usage?_eq_some.mpr ⟨c, hc, rfl⟩)) use)
  · exact h

theorem Counted.touch (h : Counted s) (t : Triple) (now : Millis) : Counted (s.touch t now) := by
  have hassert : ∀ {s : Store} (l : String), Counted s → Counted (s.assertConcept l now) :=
    fun l hs => (hs.introduce l now).modifyUsage l (.asserted now)
  exact (hassert t.object (hassert t.subject h)).congr rfl

theorem Counted.add (h : Counted s) (t : Triple) (level : Existence) (metadata : Value)
    (now : Millis) : Counted (s.add t level metadata now).1 := by
  have hversion : Counted (s.addVersion t level metadata now).1 := by
    rw [addVersion_eq_ite]
    split
    · have hentered : Counted ((s.entered (s.nextId + 1) (s.nextVersion t level metadata)).put
          (s.nextVersion t level metadata)) := h.congr rfl
      exact hentered.touch t now
    · exact h.congr rfl
  unfold Store.add
  split
  · exact h
  · split
    · exact h
    · split
      · exact h
      · exact hversion
    · exact hversion

theorem Counted.load (h : Counted s) (f : Fact) (now : Millis) : Counted (s.load now f) := by
  have hsort := sortVersions_enter (s := s) (max s.nextId (f.id + 1)) f
  unfold Store.load
  dsimp only
  rw [hsort]
  have hentered : Counted (s.entered (max s.nextId (f.id + 1)) f) := h.congr rfl
  exact ((hentered.introduce _ now).introduce _ now).congr rfl

theorem Counted.restore {snapshot : Value} (h : Counted s) (hs : s.restore snapshot now = .ok s') :
    Counted s' := by
  have hall : ∀ (fs : List Fact) (s : Store), Counted s → Counted (fs.foldl (·.load now) s) := by
    intro fs
    induction fs with
    | nil => exact fun s h => h
    | cons f fs ih => exact fun s h => ih _ (h.load f now)
  obtain ⟨fs, -, rfl⟩ := restore_eq_ok hs
  exact hall _ _ (h.congr rfl)

theorem Counted.upsert {ds : List Diamond} (h : Counted s) (hs : s.upsert l ds now = .ok s') :
    Counted s' := by
  unfold Store.upsert at hs
  split at hs
  · cases hs
  · dsimp only at hs
    split at hs
    · cases hs
    · cases hs
      exact h.setConcept (exists_run_after (h.conceptOrNew l now) (.asserted now))

theorem Counted.observe {v : ConceptVector} (h : Counted s) (hs : s.observe l v now = .ok s') :
    Counted s' := by
  obtain ⟨-, -, ds, -, rfl⟩ := observe_eq_ok hs
  exact h.setConcept (exists_run_after (h.conceptOrNew l now) (.inferred now))

theorem Counted.forget {q : ForgetRequest} {done : Forgotten} (h : Counted s)
    (hs : s.forget q now = .ok (s', done)) : Counted s' := by
  rcases forget_eq_ok hs with rfl | rfl
  · exact h
  · refine h.of_concepts fun l c hc => ?_
    rw [concept?_dropAll] at hc
    split at hc
    · cases hc
    · exact hc

theorem Counted.orKept {r : Except Fault Store} (h : Counted s)
    (hr : ∀ s', r = .ok s' → Counted s') : Counted (s.orKept r) := by
  cases r with
  | ok s' => exact hr s' rfl
  | error why => exact h

/-- All that a command does to a concept is to make it, to forget it or to record uses of it. -/
theorem Counted.after (h : Counted s) (c : Command) : Counted (s.after c) := by
  cases c with
  | ensure label now =>
    refine h.orKept fun s' hs => ?_
    unfold ensureConcept at hs
    split at hs
    · cases hs
    · cases hs
      exact h.introduce label now
  | query label now => exact h.modifyUsage label (.queried now)
  | upsert label ds now => exact h.orKept fun s' hs => h.upsert hs
  | observe label v now => exact h.orKept fun s' hs => h.observe hs
  | boost label amount now => exact h.modifyUsage label (.boosted amount now)
  | protect label => exact h.congr rfl
  | unprotect label => exact h.congr rfl
  | add t level metadata now => exact h.add t level metadata now
  | upgrade id level =>
    refine h.congr ?_
    show (s.upgrade id level).1.concepts = s.concepts
    unfold Store.upgrade
    split
    · rfl
    · split <;> rfl
  | remove id => exact h.congr (remove_frame id).1
  | forget q now =>
    refine h.orKept fun s' hs => ?_
    obtain ⟨⟨s'', done⟩, hforget, rfl⟩ := Outcome.map_eq_ok.mp hs
    exact h.forget hforget
  | restore snapshot now => exact h.orKept fun s' hs => h.restore hs

/-- **In every store that commands lead to, what is held of a concept is a run of uses.** -/
theorem counted_of_reached (h : Reached ok s) : Counted s := by
  induction h with
  | make hs =>
    unfold Store.make at hs
    split at hs
    · cases hs
    · cases hs
      intro l u hu
      obtain ⟨c, hc, -⟩ := usage?_eq_some.mp hu
      simp [concept?] at hc
  | step c _ _ ih => exact ih.after c

/-- **Counts grow with use as long as all of it fits a word.**  The count of a concept is the number
of its uses and what it was boosted by, cut to 32 bits.  Exactly if the total of a run fits does the
count never fall in it, and exactly then no use brings the concept under a threshold that it was not
under before; and then the count is at no time below the number of the uses.  Such runs are all that
stores hold of their concepts. -/
theorem counts_grow_iff (created : Millis) (uses : List Use) :
    (∀ xs, xs <+: uses → (Usage.run created xs).count.toNat = Use.total xs % 2 ^ 32) ∧
      (Usage.Climbs created uses ↔ Use.total uses < 2 ^ 32) ∧
      (Unexposed created uses ↔ Use.total uses < 2 ^ 32) ∧
      (Use.total uses < 2 ^ 32 → Usage.Covers created uses) ∧
      ∀ ok s, Reached ok s → Counted s :=
  ⟨fun xs _ => Usage.count_run created xs, Usage.climbs_iff, unexposed_iff, Usage.covers_of_fits,
    fun _ _ => counted_of_reached⟩

/-- A store in which one fact was asserted. -/
def mentioned : Store :=
  ({ dimensions := 2 } : Store).after
    (.add ⟨"rex", "IS_A", "dog"⟩ Existence.certain (.record []) 1000)

/-- A concept that was used once and is boosted as far as a word goes is the least used one. -/
theorem boosted_forgotten :
    let uses : List Use := [.asserted 1000, .boosted 4294967295 1000]
    let boosted := mentioned.after (.boost "rex" 4294967295 1000)
    Reached Unwrapped mentioned ∧
      mentioned.usage? "rex" = some (Usage.run 1000 (uses.take 1)) ∧
      boosted.usage? "rex" = some (Usage.run 1000 uses) ∧
      ¬ Usage.Climbs 1000 uses ∧ ¬ Usage.Covers 1000 uses ∧ ¬ Unexposed 1000 uses ∧
      ¬ mentioned.FallsUnder 1 1000 "rex" ∧ boosted.FallsUnder 1 1000 "rex" := by
  intro uses boosted
  have hreached : Reached Unwrapped mentioned := by
    unfold mentioned
    exact .step _ (.make (n := 2) rfl) (by decide +kernel)
  have hbefore : mentioned.usage? "rex" = some (Usage.run 1000 (uses.take 1)) := by decide +kernel
  have hafter : boosted.usage? "rex" = some (Usage.run 1000 uses) := by decide +kernel
  have hkept : ¬ mentioned.FallsUnder 1 1000 "rex" := by
    rw [fallsUnder_iff]
    rintro ⟨u, hu, hlt⟩
    cases hu.symm.trans hbefore
    exact absurd hlt (by decide)
  have hgone : boosted.FallsUnder 1 1000 "rex" := fallsUnder_iff.mpr ⟨_, hafter, by decide⟩
  have hprefix : uses.take 1 <+: uses := List.take_prefix 1 uses
  refine ⟨hreached, hbefore, hafter, fun hclimbs => ?_, fun hcovers => ?_, fun hunexposed => ?_,
    hkept, hgone⟩
  · exact absurd (hclimbs _ _ hprefix List.prefix_rfl) (by decide)
  · exact absurd (hcovers _ List.prefix_rfl) (by decide)
  · exact hkept (hunexposed _ _ hprefix List.prefix_rfl _ _ _ hbefore hafter 1 1000 1000 hgone)

end Store

end KnowledgeBase
