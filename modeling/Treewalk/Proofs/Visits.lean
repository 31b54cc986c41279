import Treewalk.Proofs.Lockstep
import Treewalk.Proofs.Unobserved

/-!
# Visits to a session

A session is visited time and again: it is told the time and entered, and what the entry comes to
is seen. Sessions that correspond and are visited alike come to results alike, of which nothing
that can be asked tells the ones from the others.
-/

namespace Treewalk

open Renamings (plain)

structure Visit where
  clock : Clock
  entry : Entry
  fuel : Nat

/-- What each visit comes to, in order, and the session behind the last. -/
def Session.visited (s : Session) : List Visit → List (Except Halt (Option Value)) × Session
  | [] => ([], s)
  | v :: rest =>
    let (result, after) := (v.entry.run v.fuel).on { s with clock := v.clock }
    let (results, last) := after.visited rest
    (result :: results, last)

/-- The values to show among the results. -/
def shownValues (results : List (Except Halt (Option Value))) : List Value :=
  results.filterMap fun
    | .ok shown => shown
    | .error _ => none

/-- Results that are the same to whoever sees them: they fail with the same errors, and of the
values nothing that can be asked tells the ones from the others. -/
structure SameResults (as as' : Arrays) (results results' : List (Except Halt (Option Value))) :
    Prop where
  shapes : results.map (·.map Option.isSome) = results'.map (·.map Option.isSome)
  answers : SameAnswers as as' (shownValues results) (shownValues results')

section
variable {as as' as'' : Arrays}

theorem SameAnswers.symm (h : SameAnswers as as' vs vs') : SameAnswers as' as vs' vs :=
  ⟨h.texts.symm, h.isTruthy.symm, h.typeName.symm, h.arity?.symm, h.isEqual.symm⟩

theorem SameAnswers.trans (h : SameAnswers as as' vs vs') (h' : SameAnswers as' as'' vs' vs'') :
    SameAnswers as as'' vs vs'' where
  texts := h.texts.trans h'.texts
  isTruthy := h.isTruthy.trans h'.isTruthy
  typeName := h.typeName.trans h'.typeName
  arity? := h.arity?.trans h'.arity?
  isEqual := h.isEqual.trans h'.isEqual

theorem SameResults.symm (h : SameResults as as' results results') :
    SameResults as' as results' results :=
  ⟨h.shapes.symm, h.answers.symm⟩

theorem SameResults.trans (h : SameResults as as' results results')
    (h' : SameResults as' as'' results' results'') : SameResults as as'' results results'' :=
  ⟨h.shapes.trans h'.shapes, h.answers.trans h'.answers⟩

end

-- ---------------------------------------------------------------------------
-- Values alike
-- ---------------------------------------------------------------------------

section
variable {T : Translation} {W : World} {as as' : Arrays}

theorem Value.AllLike.map_eq {f f' : Value → α}
    (hf : ∀ v v', Value.Like T W v v' → f' v' = f v) (h : Value.AllLike T W vs vs') :
    vs.map f = vs'.map f' := by
  induction h with
  | nil => rfl
  | cons hv _ ih => rw [List.map_cons, List.map_cons, hf _ _ hv, ih]

theorem Value.AllLike.sameAnswers (has : as.Like T W as') (h : Value.AllLike T W vs vs') :
    SameAnswers as as' vs vs' where
  texts := h.map_eq fun _ _ hv => has.text? hv
  isTruthy := h.map_eq fun _ _ hv => hv.isTruthy
  typeName := h.map_eq fun _ _ hv => hv.typeName
  arity? := h.map_eq fun _ _ hv => hv.arity?
  isEqual := h.map_eq fun _ _ hv => (h.map_eq fun _ _ hu => hv.isEqual hu).symm

end

namespace Likeness

-- ---------------------------------------------------------------------------
-- Results alike
-- ---------------------------------------------------------------------------

inductive ResultLike (L : Likeness) (W : World) :
    Except Halt (Option Value) → Except Halt (Option Value) → Prop
  | ok {shown shown' : Option Value} : Option.Rel (Value.Like L W) shown shown' →
    L.ResultLike W (.ok shown) (.ok shown')
  | halt : L.Halts h h' → L.ResultLike W (.error h) (.error h')

variable {L : Likeness} {W W' : World} {env : Renamings} {s s' : Session}

theorem ResultLike.grow (h : L.ResultLike W r r') (hW : W.Grows W') : L.ResultLike W' r r' := by
  cases h with
  | ok hshown =>
    cases hshown with
    | none => exact .ok .none
    | some hv => exact .ok (.some (hv.grow hW))
  | halt hhalt => exact .halt hhalt

theorem Outcomes.result {m m' : Except Halt (Option Value) × Session}
    (h : L.Outcomes W env (fun W' => Option.Rel (Value.Like L W')) m m') :
    ∃ W', W.Grows W' ∧ L.Holds W' env m.2 m'.2 ∧ L.ResultLike W' m.1 m'.1 := by
  cases h with
  | ok hW ht hshown => exact ⟨_, hW, ht, .ok hshown⟩
  | halt hW ht hhalt => exact ⟨_, hW, ht, .halt hhalt⟩

/-- Visits at the same times, with entries that are prepared alike. -/
structure Visits (L : Likeness) (v v' : Visit) : Prop where
  clock : v'.clock = v.clock
  fuel : v'.fuel = v.fuel
  prepares : L.Prepares v.entry.prepared v'.entry.prepared

theorem Holds.told (h : L.Holds W env s s') (clock : Clock) :
    L.Holds W env { s with clock := clock } { s' with clock := clock } :=
  { h with clock := rfl }

/-- Sessions that correspond and are visited alike correspond ever after. -/
theorem Holds.visited {visits visits' : List Visit} (hs : L.Holds W plain s s')
    (h : List.Forall₂ L.Visits visits visits') :
    ∃ W', W.Grows W' ∧ L.Holds W' plain (s.visited visits).2 (s'.visited visits').2 ∧
      List.Forall₂ (L.ResultLike W') (s.visited visits).1 (s'.visited visits').1 := by
  induction h generalizing W s s' with
  | nil => exact ⟨W, .refl W, hs, .nil⟩
  | @cons v v' _ _ hv _ ih =>
    obtain ⟨W₁, hW₁, ht, hr⟩ := (hv.prepares.joint (hs.told v.clock) v.fuel).result
    obtain ⟨W₂, hW₂, hu, hrs⟩ := ih ht
    refine ⟨W₂, hW₁.trans hW₂, ?_⟩
    simp only [Session.visited, hv.clock, hv.fuel]
    exact ⟨hu, .cons (hr.grow hW₂) hrs⟩

theorem shownValues_like (h : List.Forall₂ (L.ResultLike W) results results') :
    Value.AllLike L W (shownValues results) (shownValues results') := by
  induction h with
  | nil => exact .nil
  | cons hr _ ih =>
    cases hr with
    | halt => exact ih
    | ok hshown =>
      cases hshown with
      | none => exact ih
      | some hv => exact .cons hv ih

/-- Results alike are the same to whoever sees them, if what stops stops in the same way. -/
theorem sameResults {as as' : Arrays} (has : as.Like L W as')
    (h : List.Forall₂ (L.ResultLike W) results results')
    (hhalts : ∀ h h', .error h ∈ results → L.Halts h h' → h' = h) :
    SameResults as as' results results' where
  shapes := by
    induction h with
    | nil => rfl
    | cons hr hrest ih =>
      have ih := ih fun h h' hmem => hhalts h h' (List.mem_cons_of_mem _ hmem)
      rw [List.map_cons, List.map_cons, ih]
      cases hr with
      | halt hhalt => rw [hhalts _ _ (List.mem_cons_self ..) hhalt]
      | ok hshown =>
        cases hshown with
        | none => rfl
        | some => rfl
  answers := (shownValues_like h).sameAnswers has

end Likeness

end Treewalk
