import Treewalk.Proofs.Lives
import Treewalk.Proofs.Properties

/-!
# The order of a life

Moments begin and end one after the other: what lies within a moment begins and ends between its own
two instants. From each instant to the next every field stays as it is, unless the instant is the
end of an assignment to it. So a field keeps what it was last assigned.
-/

namespace Treewalk

-- ---------------------------------------------------------------------------
-- Chronicles
-- ---------------------------------------------------------------------------

inductive Instant where
  | begins (k : Moment)
  | ends (k : Moment)

def Instant.session : Instant → Session
  | begins k => k.session
  | ends k => k.after

/-- The instants of a run, in order: it begins, there are those of the tasks that it asks for, and
it ends. -/
def Chronicle : Nat → Task → Session → List Instant → Prop
  | 0, t, s, instants => instants = [.begins ⟨0, t, s⟩, .ends ⟨0, t, s⟩]
  | n + 1, t, s, instants => ∃ (σ : Script t.Answer) (parts : List (List Instant)),
    (∀ w : Worker, (w.step t).on s = σ.play w) ∧
    List.Forall₂ (fun asked part => Chronicle n asked.1 asked.2 part) (σ.asked (worker n)) parts ∧
    instants = .begins ⟨n + 1, t, s⟩ :: (parts.flatten ++ [.ends ⟨n + 1, t, s⟩])

/-- The instants of one run after the other. -/
def Chronicles (runs : List Moment) (instants : List Instant) : Prop :=
  ∃ parts : List (List Instant),
    List.Forall₂ (fun run part => Chronicle run.allowance run.task run.session part) runs parts ∧
    instants = parts.flatten

/-- What each part has of something is what there is of it in all of them. -/
theorem exists_of_forall₂ {R : α → β → Prop} {P : α → Prop} {Q : β → Prop} {as : List α}
    {bs : List β} (h : List.Forall₂ R as bs) (hR : ∀ a b, R a b → (Q b ↔ P a)) :
    (∃ b ∈ bs, Q b) ↔ ∃ a ∈ as, P a := by
  induction h with
  | nil => simp
  | cons hab _ ih => simp only [List.exists_mem_cons_iff, hR _ _ hab, ih]

theorem Moment.leads_succ {k : Moment} {σ : Script t.Answer}
    (hplay : ∀ w : Worker, (w.step t).on s = σ.play w) :
    Moment.Leads ⟨n + 1, t, s⟩ k ↔ k = ⟨n + 1, t, s⟩ ∨
      ∃ asked ∈ σ.asked (worker n), Moment.Leads ⟨n, asked.1, asked.2⟩ k := by
  have hasks (t' : Task) (s' : Session) :
      (worker n).Asks t s t' s' ↔ (t', s') ∈ σ.asked (worker n) := by
    simp only [Worker.Asks, Asking, hplay, ← Script.mem_asked_iff]
  obtain ⟨n', t', s'⟩ := k
  constructor
  · intro h
    cases h with
    | here => exact .inl rfl
    | inside _ hask h => exact .inr ⟨_, (hasks _ _).1 hask, h⟩
  · rintro (heq | ⟨⟨t₁, s₁⟩, hmem, h⟩)
    · cases heq
      exact .here
    · exact .inside trivial ((hasks _ _).2 hmem) h

theorem Moment.leads_zero {k : Moment} : Moment.Leads ⟨0, t, s⟩ k ↔ k = ⟨0, t, s⟩ := by
  obtain ⟨n', t', s'⟩ := k
  constructor
  · intro h
    cases h
    rfl
  · intro h
    cases h
    exact .here

/-- The chronicle of a run has the beginning and the end of each moment within the run, and no
others. -/
theorem Chronicle.mem_iff {instants : List Instant} (h : Chronicle n t s instants) (k : Moment) :
    (.begins k ∈ instants ↔ Moment.Leads ⟨n, t, s⟩ k) ∧
      (.ends k ∈ instants ↔ Moment.Leads ⟨n, t, s⟩ k) := by
  induction n generalizing t s instants with
  | zero =>
    cases h
    simp [Moment.leads_zero]
  | succ n ih =>
    obtain ⟨σ, parts, hplay, hparts, rfl⟩ := h
    have hbegins := exists_of_forall₂ hparts fun _ _ hpart => (ih hpart).1
    have hends := exists_of_forall₂ hparts fun _ _ hpart => (ih hpart).2
    rw [Moment.leads_succ hplay, ← hbegins]
    constructor
    · simp
    · rw [hbegins, ← hends]
      simp [or_comm]

theorem Chronicles.mem_iff {instants : List Instant} (h : Chronicles runs instants) (k : Moment) :
    (.begins k ∈ instants ↔ k.Of runs) ∧ (.ends k ∈ instants ↔ k.Of runs) := by
  obtain ⟨parts, hparts, rfl⟩ := h
  simp only [List.mem_flatten]
  exact ⟨exists_of_forall₂ hparts fun _ _ hpart => (hpart.mem_iff k).1,
    exists_of_forall₂ hparts fun _ _ hpart => (hpart.mem_iff k).2⟩

-- ---------------------------------------------------------------------------
-- Writes
-- ---------------------------------------------------------------------------

/-- The moment is an assignment to a property of an object, in which the object and the value are
found. -/
inductive Moment.Writes : Moment → ObjectId → String → Value → Prop
  | intro : (worker n (.evaluate target)).on s = (.ok object, s₁) → object.objectId? = some o →
    (worker n (.evaluate value)).on s₁ = (.ok v, s₂) →
    Writes ⟨n + 1, .evaluate (.set target name value), s⟩ o name.lexeme v

/-- At the instant an assignment to the property ends. -/
def Instant.Writes : Instant → ObjectId → String → Value → Prop
  | begins _ => fun _ _ _ => False
  | ends k => k.Writes

/-- The session of the instant may follow the given one: no field has changed but one that has been
assigned. -/
structure Instant.Follows (i : Instant) (s : Session) : Prop where
  objects : s.fields.size ≤ i.session.fields.size
  field : ∀ o < s.fields.size, ∀ name,
    i.session.field? o name = s.field? o name ∨
      ∃ v, i.Writes o name v ∧ i.session.field? o name = some v

/-- The instants follow one another from `s` on, and `s'` comes next. -/
inductive Unfolds : Session → List Instant → Session → Prop
  | done : s.Spares (fun _ => False) s' → Unfolds s [] s'
  | next : i.Follows s → Unfolds i.session rest s' → Unfolds s (i :: rest) s'

theorem Instant.Follows.of_spares {i : Instant} (h : s.Spares (fun _ => False) i.session) :
    i.Follows s :=
  ⟨h.objects, fun o ho name => .inl (h.field o ho name id)⟩

namespace Unfolds

variable {s s₁ s' : Session} {before behind : List Instant} {i : Instant}

theorem later (hs : s.Spares (fun _ => False) s₁) (h : Unfolds s₁ behind s') :
    Unfolds s behind s' := by
  cases h with
  | done h => exact .done (hs.trans h)
  | next hi h =>
    refine .next ⟨hs.objects.trans hi.objects, fun o ho name => ?_⟩ h
    rw [← hs.field o ho name id]
    exact hi.field o (Nat.lt_of_lt_of_le ho hs.objects) name

theorem append (h : Unfolds s before s₁) (h' : Unfolds s₁ behind s') :
    Unfolds s (before ++ behind) s' := by
  induction h with
  | done hs => exact h'.later hs
  | next hi _ ih => exact .next hi (ih h')

theorem objects (h : Unfolds s before s') : s.fields.size ≤ s'.fields.size := by
  induction h with
  | done hs => exact hs.objects
  | next hi _ ih => exact hi.objects.trans ih

/-- What comes after an instant follows on it. -/
theorem from_instant (h : Unfolds s (before ++ i :: behind) s') : Unfolds i.session behind s' := by
  induction before generalizing s with
  | nil =>
    cases h with
    | next _ h => exact h
  | cons _ _ ih =>
    cases h with
    | next _ h => exact ih h

/-- A field stays as it is as long as no assignment to it ends. -/
theorem kept (h : Unfolds s (before ++ behind) s') (ho : o < s.fields.size)
    (hnone : ∀ i ∈ before, ∀ v, ¬ i.Writes o name v) (hi : i ∈ before) :
    i.session.field? o name = s.field? o name := by
  induction before generalizing s with
  | nil => cases hi
  | cons j rest ih =>
    cases h with
    | next hj h =>
      have hhere : j.session.field? o name = s.field? o name :=
        (hj.field o ho name).resolve_right fun ⟨v, hwrites, _⟩ =>
          hnone j List.mem_cons_self v hwrites
      rcases List.mem_cons.1 hi with rfl | hi
      · exact hhere
      · have hlater := ih h (Nat.lt_of_lt_of_le ho hj.objects)
          (fun i hi => hnone i (List.mem_cons_of_mem _ hi)) hi
        exact hlater.trans hhere

end Unfolds

-- ---------------------------------------------------------------------------
-- Chronicles of lives
-- ---------------------------------------------------------------------------

/-- A script that writes no field, and whose parts have chronicles that follow on the sessions they
begin in. -/
theorem Script.Logs.unfolds {w : Worker} {C : Task → Session → List Instant → Prop} {σ : Script α}
    (hw : ∀ t s, (t, s) ∈ σ.asked w → ∀ r : Record, r.Accepts s → r.HasEach t.values →
      (∃ r', r.Continues r' t.given ((w t).on s)) ∧
        ∃ part, C t s part ∧ Unfolds s part ((w t).on s).2)
    (h : σ.Logs (fun _ => False) out r s) :
    ∃ parts, List.Forall₂ (fun asked part => C asked.1 asked.2 part) (σ.asked w) parts ∧
      Unfolds s parts.flatten (σ.play w).2 := by
  induction σ generalizing r s with
  | ends result s' => exact ⟨[], .nil, .done h.1⟩
  | asks t v back next ih =>
    obtain ⟨hv, r₁, -, haccepts, hvalues, hrest⟩ := h
    obtain ⟨⟨r₂, hcontinues⟩, part, hpart, hunfolds⟩ :=
      hw t v (mem_asked_asks.2 (.inl rfl)) r₁ haccepts hvalues
    obtain ⟨hback, -, hnext⟩ := hrest r₂ _ hcontinues.le hcontinues.accepts
    simp only [play, asked]
    rcases hrun : (w t).on v with ⟨halt | a, v'⟩
    · rw [hrun] at hunfolds hback
      refine ⟨[part], .cons hpart .nil, ?_⟩
      simpa using (hunfolds.later hv).append (.done hback)
    · rw [hrun] at hunfolds hnext
      have hgiven := hcontinues.given a (by rw [hrun])
      have hlater : ∀ x ∈ (next a v').asked w, x ∈ (asks t v back next).asked w :=
        fun x hx => mem_asked_asks.2 (.inr ⟨a, v', hrun, hx⟩)
      obtain ⟨parts, hparts, hafter⟩ := ih a v' (fun t' s' hmem => hw t' s' (hlater _ hmem))
        (hnext a hgiven)
      exact ⟨part :: parts, .cons hpart hparts, (hunfolds.later hv).append hafter⟩

/-- What an assignment to a property evaluates before it writes: the object, and the value. -/
def Run.operands (w : Worker) (target : Expr) (name : Token) (value : Expr) :
    Run (ObjectId × Value) := do
  let object ← w.evaluate target
  match object.objectId? with
  | some o => return (o, ← w.evaluate value)
  | none => fail name.site .noFields

theorem Run.on_set_operands (w : Worker) (target : Expr) (name : Token) (value : Expr)
    (s : Session) :
    (w.step (.evaluate (.set target name value))).on s =
      match (operands w target name value).on s with
      | (.ok (o, v), s₂) =>
        (.ok v, { s₂ with fields := s₂.fields.modify o (·.insert name.lexeme v) })
      | (.error halt, s₂) => (.error halt, s₂) := by
  show (evaluateWith w (.set target name value)).on s = _
  simp only [evaluateWith, operands, on_bind, Worker.evaluate]
  rcases (w (.evaluate target)).on s with ⟨_ | object, s₁⟩
  · rfl
  · dsimp only
    cases Value.objectId? object with
    | none => rfl
    | some o =>
      simp only [on_bind]
      rcases (w (.evaluate value)).on s₁ with ⟨_ | v, s₂⟩ <;> rfl

theorem Run.operands_ok {w : Worker} (h : (operands w target name value).on s = (.ok (o, v), s₂)) :
    ∃ object s₁, (w (.evaluate target)).on s = (.ok object, s₁) ∧ object.objectId? = some o ∧
      (w (.evaluate value)).on s₁ = (.ok v, s₂) := by
  simp only [operands, on_bind, Worker.evaluate] at h
  rcases ht : (w (.evaluate target)).on s with ⟨_ | object, s₁⟩
  · rw [ht] at h
    cases h
  · simp only [ht] at h
    cases hobject : object.objectId? with
    | none =>
      rw [hobject] at h
      cases h
    | some o' =>
      simp only [hobject, on_bind] at h
      rcases hv : (w (.evaluate value)).on s₁ with ⟨_ | v', s₂'⟩
      · rw [hv] at h
        cases h
      · rw [hv] at h
        cases h
        exact ⟨object, s₁, rfl, hobject, hv⟩

/-- Both operands are tasks of their own. -/
theorem Run.asks_operands {w : Worker} (ht : (w (.evaluate target)).on s = (.ok object, s₁))
    (hobject : object.objectId? = some o) :
    w.Asks (.evaluate (.set target name value)) s (.evaluate target) s ∧
      w.Asks (.evaluate (.set target name value)) s (.evaluate value) s₁ := by
  refine ⟨fun halt => ?_, fun halt => ?_⟩ <;> rw [on_set_operands] <;>
    simp only [operands, on_bind, Worker.evaluate]
  · rw [Worker.unless_on_of_some stopAt_here]
  · by_cases hsame : Task.evaluate target = .evaluate value ∧ s = s₁
    · obtain ⟨htarget, rfl⟩ := hsame
      cases htarget
      rw [Worker.unless_on_of_some stopAt_here]
    · rw [Worker.unless_on_of_none (stopAt_elsewhere hsame), ht]
      simp only [hobject, on_bind]
      rw [Worker.unless_on_of_some stopAt_here]

theorem Run.operands_logged (target : Expr) (name : Token) (value : Expr) (s : Session) :
    Logged names [] (fun p : ObjectId × Value => [p.2])
      (fun w => operands w target name value) s := by
  refine (Logged.evaluate target).bind fun object s₁ => ?_
  split
  · exact (Logged.evaluate value).bind fun v _ => .pure (.of_subset (List.subset_append_left _ _))
  · exact .fail

theorem Script.asked_bind_ends (w : Worker) (σ : Script α)
    (f : α → Session → Except Halt β × Session) :
    (σ.bind fun a s => .ends (f a s).1 (f a s).2).asked w = σ.asked w := by
  induction σ with
  | ends result s => cases result <;> rfl
  | asks t v back next ih =>
    simp only [bind, asked]
    rcases (w t).on v with ⟨_ | a, v'⟩
    · rfl
    · exact congrArg _ (ih a v')

/-- The chronicle of a run, put together from those of what it asks for. -/
theorem Chronicle.step {σ : Script t.Answer} (hplay : ∀ w : Worker, (w.step t).on s = σ.play w)
    {parts : List (List Instant)}
    (hparts : List.Forall₂ (fun asked part => Chronicle n asked.1 asked.2 part)
      (σ.asked (worker n)) parts)
    (hunfolds : Unfolds s parts.flatten s') (hends : (Instant.ends ⟨n + 1, t, s⟩).Follows s') :
    ∃ instants, Chronicle (n + 1) t s instants ∧
      Unfolds s instants (Moment.after ⟨n + 1, t, s⟩) := by
  refine ⟨_, ⟨σ, parts, hplay, hparts, rfl⟩, .next (.of_spares (.refl s)) ?_⟩
  exact hunfolds.append (.next hends (.done (.refl _)))

/-- When an assignment to a property ends, this property is all that has changed since the value was
evaluated. -/
theorem Instant.follows_set (ht : (worker n (.evaluate target)).on s = (.ok object, s₁))
    (hobject : object.objectId? = some o) (hv : (worker n (.evaluate value)).on s₁ = (.ok v, s₂)) :
    (Instant.ends ⟨n + 1, .evaluate (.set target name value), s⟩).Follows s₂ := by
  have hafter : Moment.after ⟨n + 1, .evaluate (.set target name value), s⟩ =
      { s₂ with fields := s₂.fields.modify o (·.insert name.lexeme v) } :=
    congrArg Prod.snd (Run.on_set ht hobject hv)
  have hwrites : (Instant.ends ⟨n + 1, .evaluate (.set target name value), s⟩).Writes o
      name.lexeme v := .intro ht hobject hv
  refine ⟨?_, fun o' _ name' => ?_⟩
  · simp [Instant.session, hafter]
  · simp only [Instant.session, hafter, Session.field?_modify]
    split
    · next h =>
      obtain ⟨rfl, -, rfl⟩ := h
      exact .inr ⟨v, hwrites, rfl⟩
    · exact .inl rfl

/-- A run has a chronicle, and its instants follow one another from where it begins to where it
ends. -/
theorem Moment.chronicle (k : Moment) {r : Record}
    (hlisted : ∀ k', k.Leads k' → k'.allowance ≠ 0 → k'.Listed) (hr : r.Accepts k.session)
    (hvalues : r.HasEach k.task.values) :
    ∃ instants, Chronicle k.allowance k.task k.session instants ∧
      Unfolds k.session instants k.after := by
  obtain ⟨n, t, s⟩ := k
  induction n generalizing t s r with
  | zero =>
    refine ⟨_, rfl, .next (.of_spares (.refl s)) (.next (.of_spares (.refl s)) (.done (.refl s)))⟩
  | succ n ih =>
    have hpart {σ : Script t.Answer} (hplay : ∀ w : Worker, (w.step t).on s = σ.play w)
        (t' : Task) (s' : Session) (hmem : (t', s') ∈ σ.asked (worker n)) (r : Record)
        (hr : r.Accepts s') (hvalues : r.HasEach t'.values) :
        (∃ r', r.Continues r' t'.given ((worker n t').on s')) ∧
          ∃ part, Chronicle n t' s' part ∧ Unfolds s' part ((worker n t').on s').2 := by
      have hinside (k : Moment) (hleads : Moment.Leads ⟨n, t', s'⟩ k) (hallowed : k.allowance ≠ 0) :
          k.Listed :=
        hlisted k ((leads_succ hplay).2 (.inr ⟨_, hmem, hleads⟩)) hallowed
      obtain ⟨r', hcontinues, -⟩ := Moment.record ⟨n, t', s'⟩ hinside hr hvalues
      exact ⟨⟨r', hcontinues⟩, ih t' s' hinside hr hvalues⟩
    by_cases hset : ∃ target name value, t = .evaluate (.set target name value)
    · obtain ⟨target, name, value, rfl⟩ := hset
      have hlogged : Logged (fun _ => False) [] (fun p : ObjectId × Value => [p.2])
        (fun w => Run.operands w target name value) s := Run.operands_logged target name value s
      obtain ⟨σ, hplay, hlogs⟩ := hlogged
      have hset (w : Worker) : (w.step (.evaluate (.set target name value))).on s =
          (σ.bind fun p s₂ => .ends (.ok p.2)
            { s₂ with fields := s₂.fields.modify p.1 (·.insert name.lexeme p.2) }).play w := by
        rw [Run.on_set_operands, hplay, Script.play_bind]
        rcases σ.play w with ⟨_ | p, s₂⟩ <;> rfl
      have hasked := σ.asked_bind_ends (worker n) fun p s₂ => ((.ok p.2 : Except Halt Value),
        { s₂ with fields := s₂.fields.modify p.1 (·.insert name.lexeme p.2) })
      obtain ⟨parts, hparts, hunfolds⟩ := Script.Logs.unfolds
        (fun t' s' hmem => hpart hset t' s' (hasked ▸ hmem)) (hlogs r hr hvalues)
      refine Chronicle.step hset (hasked ▸ hparts) hunfolds ?_
      rcases hrun : σ.play (worker n) with ⟨halt | ⟨o, v⟩, s₂⟩
      · refine .of_spares (.of_eq ?_)
        have hafter := congrArg Prod.snd (Run.on_set_operands (worker n) target name value s)
        rw [hplay, hrun] at hafter
        exact congrArg Session.fields hafter
      · obtain ⟨object, s₁, ht, hobject, hv⟩ := Run.operands_ok ((hplay _).trans hrun)
        exact Instant.follows_set ht hobject hv
    · have hlogged : Logged (fun _ => False) t.values t.given (fun w => w.step t) s :=
        step_logged t s (fun target name value h => hset ⟨target, name, value, h⟩)
          (hlisted ⟨n + 1, t, s⟩ .here (Nat.succ_ne_zero n))
      obtain ⟨σ, hplay, hlogs⟩ := hlogged
      obtain ⟨parts, hparts, hunfolds⟩ := Script.Logs.unfolds (hpart hplay) (hlogs r hr hvalues)
      rw [← hplay] at hunfolds
      exact Chronicle.step hplay hparts hunfolds (.of_spares (.refl _))

theorem Moment.Leads.trans {k k' k'' : Moment} (h : k.Leads k') (h' : k'.Leads k'') :
    k.Leads k'' := by
  obtain ⟨n, t, s⟩ := k
  obtain ⟨n', t', s'⟩ := k'
  simp only [Moment.Leads] at h
  induction h with
  | here => exact h'
  | inside hvia hask _ ih => exact .inside hvia hask (ih h')

theorem Moment.Of.leads {k k' : Moment} (hk : k.Of runs) (h : k.Leads k') : k'.Of runs := by
  obtain ⟨run, hmem, hleads⟩ := hk
  exact ⟨run, hmem, hleads.trans h⟩

theorem Chronicles.append {run : Moment} {before part : List Instant}
    (h : Chronicles runs before) (hpart : Chronicle run.allowance run.task run.session part) :
    Chronicles (runs ++ [run]) (before ++ part) := by
  obtain ⟨parts, hparts, rfl⟩ := h
  exact ⟨parts ++ [part], List.rel_append hparts (.cons hpart .nil), by simp⟩

namespace Life

variable {units : List Line} {given : List Value} {runs : List Moment} {s : Session}

/-- Whatever is carried out in a life has a chronicle of its own. -/
theorem chronicle {k : Moment} (h : Life units given runs s) (hk : k.Of runs) :
    ∃ instants, Chronicle k.allowance k.task k.session instants ∧
      Unfolds k.session instants k.after := by
  obtain ⟨r, -, -, hcovers⟩ := h.record
  obtain ⟨r₁, -, hr, hvalues, -, -⟩ := hcovers k hk
  exact k.chronicle (fun k' hleads => h.listed (hk.leads hleads)) hr hvalues

/-- The last that was carried out begins with the fields that were there before. -/
theorem chronicles_append {run : Moment} {before : List Instant}
    (h : Life units given (runs ++ [run]) s) (hbefore : Chronicles runs before)
    (hunfolds : Unfolds s₀ before s₁) (hfields : run.session.fields = s₁.fields) :
    ∃ instants, Chronicles (runs ++ [run]) instants ∧ Unfolds s₀ instants run.after := by
  obtain ⟨part, hpart, hlast⟩ :=
    h.chronicle ⟨run, List.mem_append_right _ List.mem_cons_self, .here⟩
  exact ⟨before ++ part, hbefore.append hpart, hunfolds.append (hlast.later (.of_eq hfields))⟩

/-- So has the life as a whole. -/
theorem chronicles (h : Life units given runs s) :
    ∃ s₀ instants, Chronicles runs instants ∧ Unfolds s₀ instants s := by
  induction h with
  | @start sources refusal clock =>
    exact ⟨.start sources refusal clock, [], ⟨[], .nil, rfl⟩, .done (.refl _)⟩
  | @entry units given runs s result s' entry fuel hlife hrun ih =>
    obtain ⟨s₀, before, hbefore, hunfolds⟩ := ih
    cases hp : entry.prepared s.nextId with
    | error e =>
      rw [entry.on_run_error fuel hp] at hrun
      cases hrun
      simp only [Entry.moments, hp, List.append_nil]
      exact ⟨s₀, before, hbefore, hunfolds⟩
    | ok p =>
      rw [entry.on_run_ok fuel hp] at hrun
      cases hrun
      simp only [Entry.moments, hp]
      exact ⟨s₀, chronicles_append (hlife.accepted fuel hp rfl) hbefore hunfolds rfl⟩
  | @call units given runs s callee arguments site result s' fuel hlife hvalues hrun ih =>
    obtain ⟨s₀, before, hbefore, hunfolds⟩ := ih
    have hafter : s' = Moment.after ⟨fuel, .callValue callee site arguments, s⟩ :=
      (congrArg Prod.snd hrun).symm
    rw [hafter]
    exact ⟨s₀, chronicles_append (hlife.call fuel hvalues hrun) hbefore hunfolds rfl⟩
  | @told units given runs s output clock _ ih =>
    obtain ⟨s₀, before, hbefore, hunfolds⟩ := ih
    have htold : Unfolds s [] { s with output := output, clock := clock } := .done (.of_eq rfl)
    have hlast := hunfolds.append htold
    rw [List.append_nil] at hlast
    exact ⟨s₀, before, hbefore, hlast⟩

-- ---------------------------------------------------------------------------
-- Properties in a life
-- ---------------------------------------------------------------------------

/-- An object that is assigned to is there. -/
theorem written_lt (h : Life units given runs s₀)
    (hk : Moment.Of runs ⟨n + 1, .evaluate (.set target name value), s⟩)
    (ht : (worker n (.evaluate target)).on s = (.ok object, s₁))
    (hobject : object.objectId? = some o) (hv : (worker n (.evaluate value)).on s₁ = (.ok v, s₂)) :
    o < s₂.fields.size := by
  have hasks : (worker n).Asks (.evaluate (.set target name value)) s (.evaluate target) s ∧
      (worker n).Asks (.evaluate (.set target name value)) s (.evaluate value) s₁ :=
    Run.asks_operands ht hobject
  have htarget : Moment.Of runs ⟨n, .evaluate target, s⟩ :=
    hk.leads (.inside trivial hasks.1 .here)
  have hvalue : Moment.Of runs ⟨n, .evaluate value, s₁⟩ :=
    hk.leads (.inside trivial hasks.2 .here)
  have hknows : Moment.Knows ⟨n, .evaluate target, s⟩ object :=
    .given (congrArg Prod.fst ht) List.mem_cons_self
  have hkey : object.key? = some (.inr o) := by
    cases object <;> cases hobject <;> rfl
  have hlt := h.object_lt htarget hknows hkey
  simp only [Moment.after, Moment.outcome, ht] at hlt
  obtain ⟨instants, -, hunfolds⟩ := h.chronicle hvalue
  have hobjects := hunfolds.objects
  simp only [Moment.after, Moment.outcome, hv] at hobjects
  exact Nat.lt_of_lt_of_le hlt hobjects

/-- No value of a life is a getter: these are called where they are read. -/
theorem not_getter {k : Moment} (h : Life units given runs s) (hk : k.Of runs)
    (hv : k.Knows (.function i c)) : c.routine.isGetter = false := by
  obtain ⟨r, -, -, hcovers⟩ := h.record
  exact ((hcovers k hk).has hv).2

/-- The field that an assignment ends with. -/
theorem field_written {k : Moment} (h : Life units given runs s₀) (hk : k.Of runs)
    (hwrites : k.Writes o name v) : k.after.field? o name = some v := by
  cases hwrites with
  | intro ht hobject hv =>
    have hlt := h.written_lt hk ht hobject hv
    simp only [Moment.after, Moment.outcome, worker, Run.on_set ht hobject hv,
      Session.field?_modify, hlt, and_self, if_true]

/-- A field that is found where the object has been evaluated is what the property comes to, with
nothing called. -/
theorem on_get_field (h : Life units given runs s₀) (hk : Moment.Of runs ⟨n, .evaluate e, s⟩)
    (he : (worker n (.evaluate e)).on s = (.ok object, s₁)) (hobject : object.objectId? = some o)
    (hfield : s₁.field? o name.lexeme = some v) {w : Worker}
    (hw : (w (.evaluate e)).on s = (.ok object, s₁)) :
    (w.step (.evaluate (.get e name))).on s = (.ok v, s₁) := by
  have hmember : s₁.member? object name.lexeme = .ok (.value v) := by
    simp only [Session.member?, hobject, hfield]
  obtain ⟨table, htable, hget⟩ := Option.bind_eq_some_iff.1 hfield
  have hstores : s₁.Stores v := .field htable (Logged.mem_of_get? hget)
  have hafter : Moment.after ⟨n, .evaluate e, s⟩ = s₁ := congrArg Prod.snd he
  refine Run.on_get_value hw hmember ?_
  rintro i c rfl
  exact h.not_getter hk (.behind (hafter ▸ hstores))

end Life

/-- A property that is assigned keeps its value, to be read with nothing called, from the end of the
assignment until another assignment to this property of this object ends. The assignment is seen by
no other lookup: not by those of other names, or of other objects, which are the values with other
numbers. An instance has its own fields and the methods of its class, a class has its own fields and
the methods that are declared for the class itself, and neither has what is the other's. No getter
is ever at hand as a value. -/
theorem properties_are_kept (h : Life units given runs s₀) :
    (∃ instants, Chronicles runs instants ∧
      (∀ k : Moment, (.begins k ∈ instants ↔ k.Of runs) ∧ (.ends k ∈ instants ↔ k.Of runs)) ∧
      ∀ (before since behind : List Instant) (k : Moment) (o : ObjectId) (f : String) (v : Value),
        instants = before ++ .ends k :: (since ++ behind) → k.Writes o f v →
        (∀ i ∈ since, ∀ v', ¬ i.Writes o f v') →
        ∀ i ∈ .ends k :: since, i.session.field? o f = some v ∧
          ∀ (n : Nat) (e : Expr) (name : Token) (s s₁ : Session) (object : Value),
            i = .ends ⟨n, .evaluate e, s⟩ → name.lexeme = f → object.objectId? = some o →
            (worker n (.evaluate e)).on s = (.ok object, s₁) →
            ∀ w : Worker, (w (.evaluate e)).on s = (.ok object, s₁) →
              (w.step (.evaluate (.get e name))).on s = (.ok v, s₁)) ∧
    (∀ (n : Nat) (target value : Expr) (name : Token) (s s₁ s₂ : Session) (object v : Value)
        (o : ObjectId), Moment.Of runs ⟨n + 1, .evaluate (.set target name value), s⟩ →
      (worker n (.evaluate target)).on s = (.ok object, s₁) → object.objectId? = some o →
      (worker n (.evaluate value)).on s₁ = (.ok v, s₂) →
      ∃ s', (worker (n + 1) (.evaluate (.set target name value))).on s = (.ok v, s') ∧
        s' = { s₂ with fields := s'.fields } ∧
        ∀ (other : Value) (name' : String), s'.member? other name' =
          if other.objectId? = some o ∧ name' = name.lexeme then .ok (.value v)
          else s₂.member? other name') ∧
    (∀ (object : Value) (name : Token) (s : Session),
      (Run.member object name).on s = s.read object name.site (s.member? object name.lexeme)) ∧
    (∀ (k k' : Moment) (object other : Value) (o : ObjectId), k.Of runs → k'.Of runs →
      k.Knows object → k'.Knows other → object.objectId? = some o → other.objectId? = some o →
      other = object) ∧
    (∀ (s s' : Session) (i : ObjectId) (c c' : Class) (name : String),
      s'.field? i name = s.field? i name → c'.methods.get? name = c.methods.get? name →
      s'.member? (.object i c') name = s.member? (.object i c) name) ∧
    (∀ (s s' : Session) (c c' : Class) (name : String), c'.id = c.id →
      s'.field? c.id name = s.field? c.id name →
      c'.classMethods.get? name = c.classMethods.get? name →
      s'.member? (.classObject c') name = s.member? (.classObject c) name) ∧
    (∀ (k : Moment) (i : ObjectId) (c : Class), k.Of runs → k.Knows (.object i c) → i ≠ c.id) ∧
    ∀ (k : Moment) (i : Identity) (c : Closure), k.Of runs → k.Knows (.function i c) →
      c.routine.isGetter = false := by
  have hkey {v : Value} {o : ObjectId} (ho : v.objectId? = some o) : v.key? = some (.inr o) := by
    cases v <;> cases ho <;> rfl
  refine ⟨?_, fun n target value name s s₁ s₂ object v o hk ht hobject hv => ?_, Run.on_member,
    fun k k' object other o hk hk' hobject hother ho ho' => ?_,
    fun s s' i c c' name hfield hmethod => ?_,
    fun s s' c c' name hid hfield hmethod => ?_, fun k i c hk hv hsame => ?_,
    fun k i c hk hv => h.not_getter hk hv⟩
  · obtain ⟨first, instants, hchronicles, hunfolds⟩ := h.chronicles
    refine ⟨instants, hchronicles, hchronicles.mem_iff, ?_⟩
    rintro before since behind k o f v rfl hwrites hnone
    have hk : k.Of runs := (hchronicles.mem_iff k).2.1 (by simp)
    have hwritten := h.field_written hk hwrites
    have hkept (i : Instant) (hi : i ∈ .ends k :: since) : i.session.field? o f = some v := by
      rcases List.mem_cons.1 hi with rfl | hi
      · exact hwritten
      · obtain ⟨table, htable, -⟩ := Option.bind_eq_some_iff.1 hwritten
        have hlt : o < k.after.fields.size := (Array.getElem?_eq_some_iff.1 htable).1
        exact (hunfolds.from_instant.kept hlt hnone hi).trans hwritten
    refine fun i hi => ⟨hkept i hi, fun n e name s s₁ object hends hname hobject he w hw => ?_⟩
    have hof : Moment.Of runs ⟨n, .evaluate e, s⟩ := by
      refine (hchronicles.mem_iff _).2.1 (hends ▸ ?_)
      exact List.mem_append_right _ (List.cons_subset_cons _ (List.subset_append_left _ _) hi)
    have hfield := hkept i hi
    subst hname hends
    simp only [Instant.session, Moment.after, Moment.outcome, he] at hfield
    exact h.on_get_field hof he hobject hfield hw
  · refine ⟨_, Run.on_set ht hobject hv, rfl, fun other name' => ?_⟩
    exact s₂.member?_setField o name.lexeme v other name' (h.written_lt hk ht hobject hv)
  · exact h.same_value hk hk' hobject hother (hkey ho) (hkey ho')
  · simp only [Session.member?, Value.objectId?, Value.methods, hfield, hmethod]
  · simp only [Session.member?, Value.objectId?, Value.methods, hid, hfield, hmethod]
  · have hclass : k.Knows (.classObject c) := .classOf hv
    cases h.same_value hk hk hv hclass rfl (by rw [hsame]; rfl)

def shelfClass : Prepared Line :=
  ⟨.statements [.classDecl ⟨.identifier, "A", 1⟩ [] []], [], 0⟩

def shelfFilled : Prepared Line :=
  ⟨.expression (.set (.var 0 ⟨.identifier, "A", 1⟩) ⟨.identifier, "x", 1⟩ (.literal (.bool true))),
    [], 1⟩

def shelf : Class :=
  .made 0 ⟨.identifier, "A", 1⟩ [] [] rootFrame none

def beforeShelf : Session :=
  .start (fun _ => none) none (.still 0)

def withShelf : Session :=
  { beforeShelf.commit shelfClass with
    frames := (Frames.initial.define rootFrame "A" .nil).define rootFrame "A" (.classObject shelf)
    fields := #[.empty] }

/-- A class with no field is assigned one: its lookups of another name, and those of an instance,
fail as before. -/
theorem shelf_is_filled :
    Life [shelfFilled.tree, shelfClass.tree] [.bool true]
      [⟨9, shelfClass.tree.task, beforeShelf.commit shelfClass⟩,
        ⟨9, shelfFilled.tree.task, withShelf.commit shelfFilled⟩]
      (Moment.after ⟨9, shelfFilled.tree.task, withShelf.commit shelfFilled⟩) ∧
    ∃ s' : Session,
      (worker 9 shelfFilled.tree.task).on (withShelf.commit shelfFilled) = (.ok (.bool true), s') ∧
      s'.member? (.classObject shelf) "x" = .ok (.value (.bool true)) ∧
      s'.member? (.classObject shelf) "y" = .error (.undefinedProperty "y") ∧
      s'.member? (.object 1 shelf) "x" = .error (.undefinedProperty "x") := by
  have hp : (Entry.unit "class A\x7b\x7d").prepared 0 = .ok shelfClass := by decide +kernel
  have hp' : (Entry.expression "A.x=true").prepared 0 = .ok shelfFilled := by decide +kernel
  have hdeclares : (worker 9 shelfClass.tree.task).on (beforeShelf.commit shelfClass) =
      (.ok (), withShelf) := rfl
  have hassigns : (worker 9 shelfFilled.tree.task).on (withShelf.commit shelfFilled) =
      (.ok (.bool true),
        Moment.after ⟨9, shelfFilled.tree.task, withShelf.commit shelfFilled⟩) := rfl
  have hstart : Life [] [] [] beforeShelf := .start
  have hlife := (hstart.accepted 9 hp hdeclares).accepted 9 hp' hassigns
  obtain ⟨s', hrun, -, hlookup⟩ := (properties_are_kept hlife).2.1 8 _ _ _ _ _ _ _ _ 0
    ⟨_, List.mem_cons_of_mem _ List.mem_cons_self, .here⟩ rfl rfl rfl
  exact ⟨hlife, s', hrun, hlookup _ _, hlookup _ _, hlookup _ _⟩

end Treewalk
