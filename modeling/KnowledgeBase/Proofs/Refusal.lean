import KnowledgeBase.Engine
import KnowledgeBase.Proofs.Store.Assertion

/-!
# Refused operations

What is refused leaves no trace.  The steps of the operations of a store and of an engine are
followed up to where a fault ends them, and nothing has been written there.

* `Engine.Stepwise`: taking in facts, snapshots and exported states, step by step;
* `Engine.Traced`: the steps of every operation answer as the operation does, and leave behind what
  it does;
* `Engine.KeptWhenRefused`: no refused operation has written anything, as far as assertions are
  refused with one of some faults;
* `refused_unchanged`: so it is over any engine for all faults but an id without a fact, and for all
  faults whatever as long as the counter of the store has not stood at zero;
* `written_when_refused`: a fact that is refused after the counter has passed zero.
-/

namespace KnowledgeBase

namespace Engine

open Steps
open Store (Reached)

variable {α : Type} {e : Engine} {x : Steps Store α} {t : Triple} {level : Existence}
  {metadata : Value} {now : Millis} {why : Fault} {snapshot state : Value}

/-- The engine with another store. -/
def withStore (e : Engine) (s : Store) : Engine := { e with store := s }

/-! ### The steps of each operation -/

namespace Stepwise

/-- A change of the store of an engine. -/
def onStore (x : Steps Store α) : Steps Engine α := fun e =>
  match x e.store with
  | .ok a s => .ok a (e.withStore s)
  | .error why s => .error why (e.withStore s)

def ingest (t : Triple) (level : Existence) (metadata : Value) (now : Millis) :
    Steps Engine FactId := do
  let id ← onStore (Store.Stepwise.add t level metadata now)
  modify (·.levelFact id t)
  return id

/-- Clears the levels, and gives them to all facts and then to all rules. -/
def relevel : Steps Engine Unit := do
  modify fun e => { e with levels := {} }
  (← get).store.allFacts.forM fun f =>
    modify fun e => { e with levels := e.levels.addFact f.id f.triple }
  (← get).book.rules.forM fun r => modify fun e => { e with levels := e.levels.addRule r }

def restore (snapshot : Value) (now : Millis) : Steps Engine Unit := do
  onStore (Store.Stepwise.restore snapshot now)
  relevel

def importState (state : Value) (now : Millis) : Steps Engine Unit := do
  let facts ← ask fun _ => (factsOf state).mapError (.snapshot 0 ·)
  restore facts now

end Stepwise

open Stepwise (onStore)

/-! ### Engines that hold the same -/

/-- Two engines that hold the same. -/
structure Agrees (e e' : Engine) : Prop where
  besides : ({ e' with store := e.store } : Engine) = e
  store : e.store.Agrees e'.store

theorem Agrees.refl (e : Engine) : Agrees e e := ⟨rfl, .refl _⟩

theorem onStore_of_ok {a : α} (h : x.answer e.store = .ok a) :
    onStore x e = .ok a (e.withStore (x.left e.store)) := by
  unfold Steps.answer at h
  unfold onStore Steps.left
  cases hx : x e.store with
  | ok b s' =>
    rw [hx] at h
    cases h
    rfl
  | error why s' =>
    rw [hx] at h
    cases h

theorem onStore_of_error (h : x.answer e.store = .error why) :
    onStore x e = .error why (e.withStore (x.left e.store)) := by
  unfold onStore
  rw [eq_error_of_answer h]

/-! ### Taking in facts -/

theorem agrees_withStore {s s' : Store} (h : s.Agrees s') :
    Agrees (e.withStore s) (e.withStore s') := ⟨rfl, h⟩

theorem levelFact_withStore (id : FactId) (t : Triple) (s : Store) :
    (e.withStore s).levelFact id t = (e.levelFact id t).withStore s := by
  unfold levelFact withStore
  dsimp only
  split <;> rfl

theorem traces_ingest (e : Engine) (t : Triple) (level : Existence) (metadata : Value)
    (now : Millis) :
    Traces Agrees (Stepwise.ingest t level metadata now) e (e.ingest t level metadata now) := by
  obtain ⟨hanswer, hleft⟩ := Store.traces_add e.store t level metadata now
  unfold Engine.ingest
  generalize e.store.add t level metadata now = out at hanswer hleft ⊢
  obtain ⟨s, out⟩ := out
  cases out with
  | ok id =>
    refine traces_of_ok (bind_of_ok (onStore_of_ok hanswer)) ?_
    show Agrees ((e.withStore s).levelFact id t) ((e.withStore _).levelFact id t)
    rw [levelFact_withStore, levelFact_withStore]
    exact agrees_withStore hleft
  | error why =>
    exact traces_of_error (bind_of_error (onStore_of_error hanswer)) (agrees_withStore hleft)

/-- A refused fact has no part in levels, whatever it has left in the store. -/
theorem ingest_refused (h : (Stepwise.ingest t level metadata now).answer e = .error why) :
    (Store.Stepwise.add t level metadata now).answer e.store = .error why ∧
      (Stepwise.ingest t level metadata now).left e =
        e.withStore ((Store.Stepwise.add t level metadata now).left e.store) := by
  cases hadd : (Store.Stepwise.add t level metadata now).answer e.store with
  | ok id =>
    have heq : Stepwise.ingest t level metadata now e = .ok id _ := bind_of_ok (onStore_of_ok hadd)
    unfold Steps.answer at h
    rw [heq] at h
    cases h
  | error why' =>
    have heq : Stepwise.ingest t level metadata now e = .error why' _ :=
      bind_of_error (onStore_of_error hadd)
    unfold Steps.answer at h
    unfold Steps.left
    rw [heq] at h ⊢
    cases h
    exact ⟨rfl, rfl⟩

/-! ### Taking in snapshots -/

/-- Steps that change the levels in turn. -/
theorem forM_levels {β : Type} (g : Levels → β → Levels) (bs : List β) (e : Engine) :
    bs.forM (fun b => (modify fun e => { e with levels := g e.levels b } : Steps Engine Unit)) e =
      .ok () { e with levels := bs.foldl g e.levels } := by
  induction bs generalizing e with
  | nil => rfl
  | cons b bs ih =>
    have hstep : (modify fun e => { e with levels := g e.levels b } : Steps Engine Unit) e =
        .ok () { e with levels := g e.levels b } := rfl
    exact (bind_of_ok hstep).trans (ih _)

theorem relevel_eq (e : Engine) :
    Stepwise.relevel e = .ok () { e with levels := levelsOf e.store e.book.rules } := by
  have hclear : (modify fun e => { e with levels := {} } : Steps Engine Unit) e =
      .ok () { e with levels := {} } := rfl
  have hget : ∀ e : Engine, (get : Steps Engine Engine) e = .ok e e := fun _ => rfl
  have hfacts := forM_levels (fun (l : Levels) (f : Fact) => l.addFact f.id f.triple)
  have hrules := forM_levels (fun (l : Levels) (r : Rule) => l.addRule r)
  unfold Stepwise.relevel
  exact (bind_of_ok hclear).trans ((bind_of_ok (hget _)).trans ((bind_of_ok (hfacts _ _)).trans
    ((bind_of_ok (hget _)).trans (hrules _ _))))

/-- Levels go by the facts and the rules. -/
theorem agrees_levelsOf {s s' : Store} (h : s.Agrees s') :
    Agrees { e with store := s, levels := levelsOf s e.book.rules }
      { e with store := s', levels := levelsOf s' e.book.rules } := by
  have hlevels : levelsOf s' e.book.rules = levelsOf s e.book.rules := by
    unfold levelsOf
    rw [h.allFacts]
  rw [hlevels]
  exact ⟨rfl, h⟩

theorem carries_restore (e : Engine) (snapshot : Value) (now : Millis) :
    Carries Agrees (Stepwise.restore snapshot now) e ((e.restore snapshot now).map (·, ())) := by
  obtain ⟨⟨hanswer, hleft⟩, hall⟩ := Store.carries_restore e.store snapshot now
  have hrestore : e.restore snapshot now = (e.store.restore snapshot now).map fun s =>
      { e with store := s, levels := levelsOf s e.book.rules } := by
    unfold Engine.restore
    cases e.store.restore snapshot now <;> rfl
  rw [hrestore]
  cases hs : e.store.restore snapshot now with
  | ok s =>
    rw [hs] at hanswer hleft
    have heq : Stepwise.restore snapshot now e = _ :=
      (bind_of_ok (onStore_of_ok hanswer)).trans (relevel_eq _)
    exact carries_of_ok heq (agrees_levelsOf hleft)
  | error why =>
    rw [hs] at hanswer
    have heq : Stepwise.restore snapshot now e = _ := bind_of_error (onStore_of_error hanswer)
    rw [hall why hanswer] at heq
    exact carries_of_error heq (.refl e)

theorem carries_importState (e : Engine) (state : Value) (now : Millis) :
    Carries Agrees (Stepwise.importState state now) e
      ((e.importState state now).map (·, ())) := by
  unfold Engine.importState
  cases hfacts : factsOf state with
  | ok facts =>
    refine (carries_restore e facts now).of_eq (bind_of_ok (ask_of_ok ?_))
    rw [hfacts]
    rfl
  | error why =>
    refine carries_of_error (bind_of_error (ask_of_error ?_)) (.refl e)
    rw [hfacts]
    rfl

/-! ### All operations -/

/-- The steps of each operation answer as it does, and leave behind what it does. -/
structure Traced (e : Engine) : Prop where
  ensure : ∀ label now, Traces Store.Agrees (Store.Stepwise.ensure label now) e.store
    (outcome e.store ((e.store.ensureConcept label now).map (·, ())))
  upsert : ∀ label ds now, Traces Store.Agrees (Store.Stepwise.upsert label ds now) e.store
    (outcome e.store ((e.store.upsert label ds now).map (·, ())))
  observe : ∀ label v now, Traces Store.Agrees (Store.Stepwise.observe label v now) e.store
    (outcome e.store ((e.store.observe label v now).map (·, ())))
  add : ∀ t level metadata now, Traces Store.Agrees (Store.Stepwise.add t level metadata now)
    e.store (e.store.add t level metadata now)
  forget : ∀ r now, Traces Store.Agrees (Store.Stepwise.forget r now) e.store
    (outcome e.store (e.store.forget r now))
  restoreFacts : ∀ snapshot now, Traces Store.Agrees (Store.Stepwise.restore snapshot now) e.store
    (outcome e.store ((e.store.restore snapshot now).map (·, ())))
  ingest : ∀ t level metadata now, Traces Agrees (Stepwise.ingest t level metadata now) e
    (e.ingest t level metadata now)
  restore : ∀ snapshot now, Traces Agrees (Stepwise.restore snapshot now) e
    (outcome e ((e.restore snapshot now).map (·, ())))
  importState : ∀ state now, Traces Agrees (Stepwise.importState state now) e
    (outcome e ((e.importState state now).map (·, ())))

/-- No operation that is refused has written anything, as far as assertions are refused with one of
some faults.  Levels are not written to, whatever the fault. -/
structure KeptWhenRefused (faults : Fault → Prop) (e : Engine) : Prop where
  ensure : ∀ label now, (Store.Stepwise.ensure label now).AllOrNothing e.store
  upsert : ∀ label ds now, (Store.Stepwise.upsert label ds now).AllOrNothing e.store
  observe : ∀ label v now, (Store.Stepwise.observe label v now).AllOrNothing e.store
  add : ∀ t level metadata now why, faults why →
    (Store.Stepwise.add t level metadata now).answer e.store = .error why →
    (Store.Stepwise.add t level metadata now).left e.store = e.store
  forget : ∀ r now, (Store.Stepwise.forget r now).AllOrNothing e.store
  restoreFacts : ∀ snapshot now, (Store.Stepwise.restore snapshot now).AllOrNothing e.store
  ingest : ∀ t level metadata now why, faults why →
    (Stepwise.ingest t level metadata now).answer e = .error why →
    (Stepwise.ingest t level metadata now).left e = e
  levels : ∀ t level metadata now why,
    (Stepwise.ingest t level metadata now).answer e = .error why →
    ((Stepwise.ingest t level metadata now).left e).levels = e.levels
  restore : ∀ snapshot now, (Stepwise.restore snapshot now).AllOrNothing e
  importState : ∀ state now, (Stepwise.importState state now).AllOrNothing e

theorem traced (e : Engine) : e.Traced where
  ensure label now := (Store.carries_ensure e.store label now).traces
  upsert label ds now := (Store.carries_upsert e.store label ds now).traces
  observe label v now := (Store.carries_observe e.store label v now).traces
  add := Store.traces_add e.store
  forget r now := (Store.carries_forget e.store r now).traces
  restoreFacts snapshot now := (Store.carries_restore e.store snapshot now).traces
  ingest := traces_ingest e
  restore snapshot now := (carries_restore e snapshot now).traces
  importState state now := (carries_importState e state now).traces

/-- Only assertions may have written something. -/
theorem keptWhenRefused_of_add {faults : Fault → Prop}
    (h : ∀ t level metadata now why, faults why →
      (Store.Stepwise.add t level metadata now).answer e.store = .error why →
      (Store.Stepwise.add t level metadata now).left e.store = e.store) :
    e.KeptWhenRefused faults where
  ensure label now := (Store.carries_ensure e.store label now).allOrNothing
  upsert label ds now := (Store.carries_upsert e.store label ds now).allOrNothing
  observe label v now := (Store.carries_observe e.store label v now).allOrNothing
  add := h
  forget r now := (Store.carries_forget e.store r now).allOrNothing
  restoreFacts snapshot now := (Store.carries_restore e.store snapshot now).allOrNothing
  ingest := by
    intro t level metadata now why hwhy hrefused
    obtain ⟨hadd, hleft⟩ := ingest_refused hrefused
    rw [hleft, h t level metadata now why hwhy hadd]
    rfl
  levels := by
    intro t level metadata now why hrefused
    rw [(ingest_refused hrefused).2]
    rfl
  restore snapshot now := (carries_restore e snapshot now).allOrNothing
  importState state now := (carries_importState e state now).allOrNothing

/-- **Refused operations leave no trace**: step by step, no operation that is refused has written
anything, over any engine whatever, except that an assertion may break off at an id without a fact.
It never does as long as the counter has not stood at zero. -/
theorem refused_unchanged (e : Engine) :
    e.Traced ∧ e.KeptWhenRefused (· ≠ .outOfRange) ∧
      ∀ ok, Reached ok e.store → (∀ s, ok s → s.nextId ≠ 0) → e.KeptWhenRefused fun _ => True := by
  refine ⟨e.traced, ?_, ?_⟩
  · refine keptWhenRefused_of_add fun t level metadata now why hwhy hrefused => ?_
    rcases Store.add_refused hrefused with hleft | ⟨hrange, -⟩
    · exact hleft
    · exact absurd hrange hwhy
  · intro ok hs hok
    refine keptWhenRefused_of_add fun t level metadata now why _ hrefused => ?_
    exact (Store.numbered_of_reached hs hok).indexed.allOrNothing_add t level metadata now why
      hrefused

/-- A fact and a snapshot that are refused leave an engine as it was; the bad record is the last. -/
theorem refused_unchanged_loaded :
    let e : Engine := { config := {}, store := Store.loadedWith [Store.lastButOne], book := {} }
    let ingest := Stepwise.ingest ⟨"Rex", "IS_A", "Dog"⟩ 128 (.record []) 7
    let restore := Stepwise.restore (.list [Snapshot.ofFact Store.last, .record []]) 7
    Reached (fun s => s.nextId ≠ 0) e.store ∧
      ingest.answer e = .error (.input (.existenceOutOfRange 128)) ∧ ingest.left e = e ∧
      restore.answer e = .error (.snapshot 1 (.missing "subject")) ∧ restore.left e = e := by
  intro e ingest restore
  have hs : Reached (fun s => s.nextId ≠ 0) e.store := by
    show Reached _ (Store.loadedWith [Store.lastButOne])
    refine Store.reached_loadedWith ?_
    rw [Store.loadedWith_eq [Store.lastButOne] rfl (by decide)]
    decide +kernel
  have hingest : ingest.answer e = .error (.input (.existenceOutOfRange 128)) := rfl
  have hrestore : restore.answer e = .error (.snapshot 1 (.missing "subject")) := rfl
  have hkept := (refused_unchanged e).2.2 _ hs fun _ h => h
  exact ⟨hs, hingest, hkept.ingest _ _ _ _ _ trivial hingest, hrestore,
    hkept.restore _ _ _ hrestore⟩

/-- A fact that is told again breaks off at the id that has strayed: it is refused, and the counter
has moved on. -/
theorem written_when_refused :
    let e : Engine := { config := {}, store := Store.strayed, book := {} }
    let ingest := Stepwise.ingest Store.strayTriple Existence.certain (.record []) 9
    Reached (fun _ => True) e.store ∧ ingest.answer e = .error .outOfRange ∧
      e.store.nextId = 0 ∧ (ingest.left e).store.nextId = 1 ∧
      ¬ e.KeptWhenRefused fun _ => True := by
  intro e ingest
  have hnext : e.store.nextId = 0 := Store.nextId_strayed
  have hingest : e.ingest Store.strayTriple Existence.certain (.record []) 9 =
      (e.withStore (Store.strayed.entered (Store.strayed.nextId + 1)
        (Store.strayed.nextVersion Store.strayTriple Existence.certain (.record []))),
          .error .outOfRange) := by
    unfold Engine.ingest
    rw [show e.store = Store.strayed from rfl, Store.add_strayed]
    rfl
  have htraces := e.traced.ingest Store.strayTriple Existence.certain (.record []) 9
  rw [hingest] at htraces
  have hmoved : (ingest.left e).store.nextId = 1 := by
    rw [htraces.left.store.nextId]
    exact congrArg (· + 1) hnext
  refine ⟨Store.reached_strayed, htraces.answer, hnext, hmoved, fun hkept => ?_⟩
  rw [hkept.ingest _ _ _ _ _ trivial htraces.answer, hnext] at hmoved
  cases hmoved

end Engine

end KnowledgeBase
