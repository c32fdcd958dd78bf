import Mathlib.Logic.Relation

/-!
# Reachable states and the invariant rule

A component of the kernel is modelled as a labelled step relation.  Its
reachable states are the reflexive transitive closure of that relation, and a
predicate that survives every step survives every run.
-/

namespace AuraLite.Reachability

open Relation

variable {State Label : Type*}

/-- States reached from `start` by finitely many labelled steps. -/
def Reaches (step : State → Label → State → Prop) (start : State) :
    State → Prop :=
  ReflTransGen (fun before after => ∃ label, step before label after) start

/-- Steps of `step` whose label meets `guard` in the state before the step. -/
def guarded (guard : State → Label → Prop)
    (step : State → Label → State → Prop) (before : State) (label : Label)
    (after : State) : Prop :=
  guard before label ∧ step before label after

variable {start state : State} {guard : State → Label → Prop} {labels : List Label}

theorem Reaches.refl (step : State → Label → State → Prop) (start : State) :
    Reaches step start start :=
  ReflTransGen.refl

theorem Reaches.tail {step : State → Label → State → Prop} {before after : State} {label : Label}
    (hrun : Reaches step start before) (hstep : step before label after) :
    Reaches step start after :=
  ReflTransGen.tail hrun ⟨label, hstep⟩

/-- A predicate that holds at the start and is kept by every step holds in
every reachable state. -/
theorem Reaches.invariant {step : State → Label → State → Prop} {Inv : State → Prop}
    (hrun : Reaches step start state) (hstart : Inv start)
    (hstep : ∀ before label after, Inv before → step before label after → Inv after) :
    Inv state := by
  induction hrun with
  | refl => exact hstart
  | tail _ hlast ih =>
    obtain ⟨label, hlabel⟩ := hlast
    exact hstep _ label _ ih hlabel

/-- The same for the guarded steps of a total step function. -/
theorem Reaches.kept {step : State → Label → State} {Inv : State → Prop}
    (hrun : Reaches (guarded guard fun before label after => step before label = after) start
      state) (hstart : Inv start)
    (hstep : ∀ {before label}, Inv before → guard before label → Inv (step before label)) :
    Inv state := by
  apply hrun.invariant hstart
  rintro before label after hbefore ⟨hguard, rfl⟩
  exact hstep hbefore hguard

/-- Run a list of labels, checking each against `ok` in the state before it. -/
def runChecked (step : State → Label → Option State)
    (ok : State → Label → Bool) : State → List Label → Option State
  | state, [] => some state
  | state, label :: rest =>
    if ok state label then
      (step state label).bind fun after => runChecked step ok after rest
    else none

/-- A checked run is a run of the guarded step relation; `look` is what is known of the state
it ends in. -/
theorem reaches_of_runChecked {Out : Type*} {step : State → Label → Option State}
    [∀ state label, Decidable (guard state label)] {look : State → Out} {out : Out}
    (hrun : (runChecked step (fun state label => decide (guard state label)) start labels).map
      look = some out) :
    ∃ state, Reaches (guarded guard fun before label after =>
      step before label = some after) start state ∧ look state = out := by
  induction labels generalizing start with
  | nil =>
    rw [runChecked, Option.map_some, Option.some.injEq] at hrun
    exact ⟨start, Reaches.refl _ _, hrun⟩
  | cons label rest ih =>
    rw [runChecked] at hrun
    split at hrun
    · rename_i hlabel
      rw [Option.map_bind] at hrun
      obtain ⟨after, hstep, hrest⟩ := Option.bind_eq_some_iff.mp hrun
      obtain ⟨state, hreaches, hlook⟩ := ih hrest
      exact ⟨state, ReflTransGen.head ⟨label, of_decide_eq_true hlabel, hstep⟩ hreaches, hlook⟩
    · cases hrun

/-- The guard holds at every step of a list of labels. -/
def checkRun (step : State → Label → State) (ok : State → Label → Bool) :
    State → List Label → Bool
  | _, [] => true
  | state, label :: labels =>
    ok state label && checkRun step ok (step state label) labels

/-- The state after a checked list of labels, each chosen by looking at the state, is reached
by the guarded steps of a total step function. -/
theorem reaches_chosen {Choice : Type*} {step : State → Label → State}
    {choose : Choice → State → Label} {ok : State → Label → Bool}
    (hok : ∀ state label, ok state label = true → guard state label) {choices : List Choice}
    (hrun : checkRun (fun state choice => step state (choose choice state))
      (fun state choice => ok state (choose choice state)) start choices = true) :
    Reaches (guarded guard fun before label after => step before label = after)
      start (choices.foldl (fun state choice => step state (choose choice state)) start) := by
  induction choices generalizing start with
  | nil => exact Reaches.refl _ _
  | cons choice choices ih =>
    rw [checkRun, Bool.and_eq_true] at hrun
    exact ReflTransGen.head ⟨choose choice start, hok start _ hrun.1, rfl⟩ (ih hrun.2)

/-- The same for labels that are given and a guard that can be decided. -/
theorem reaches_foldl {step : State → Label → State}
    [∀ state label, Decidable (guard state label)]
    (hrun : checkRun step (fun state label => decide (guard state label)) start labels = true) :
    Reaches (guarded guard fun before label after => step before label = after)
      start (labels.foldl step start) :=
  reaches_chosen (fun _ _ hok => of_decide_eq_true hok) hrun

/-- The state after any list of labels is reached by a total step function. -/
theorem reaches_run (step : State → Label → State) (labels : List Label) (start : State) :
    Reaches (fun before label after => step before label = after) start
      (labels.foldl step start) := by
  induction labels generalizing start with
  | nil => exact Reaches.refl _ _
  | cons label labels ih => exact ReflTransGen.head ⟨label, rfl⟩ (ih (step start label))

end AuraLite.Reachability
