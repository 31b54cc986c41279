import Treewalk.Proofs.Receivers
import Treewalk.Proofs.Recording

/-!
# The life of a session

A host enters units, one after the other, and calls the values that it was given. A moment of this
life is a task, however deep within what the host asked for, with the allowance and the session that
it is carried out with. One record serves a whole life: what has a number is the same wherever it
turns up, at any two moments.
-/

namespace Treewalk

-- ---------------------------------------------------------------------------
-- Moments
-- ---------------------------------------------------------------------------

structure Moment where
  allowance : Nat
  task : Task
  session : Session

namespace Moment

def outcome (k : Moment) : Except Halt k.task.Answer × Session :=
  (worker k.allowance k.task).on k.session

/-- The session that carrying out the task leaves. -/
def after (k : Moment) : Session :=
  k.outcome.2

/-- The second moment is the first or lies within it. -/
def Leads (k k' : Moment) : Prop :=
  Treewalk.Leads anyhow k.allowance k.task k.session k'.allowance k'.task k'.session

/-- The value is at hand: the session holds it, before or behind, or the task is given it or gives
it, or something that is at hand leads to it. -/
inductive Knows (k : Moment) : Value → Prop
  | before : k.session.Stores v → k.Knows v
  | behind : k.after.Stores v → k.Knows v
  | passed : v ∈ k.task.values → k.Knows v
  | given : k.outcome.1 = .ok a → v ∈ k.task.given a → k.Knows v
  | classOf : k.Knows (.object o c) → k.Knows (.classObject c)

end Moment

/-- What keeping a record comes to: the record goes on up to the end, and has what is given. Nothing
on the way fails to have a text. -/
structure Record.Continues (r r' : Record) (out : α → List Value)
    (outcome : Except Halt α × Session) :
    Prop where
  le : r.Le r'
  accepts : r'.Accepts outcome.2
  ends : outcome.1 ≠ .error .endless
  given : ∀ a, outcome.1 = .ok a → r'.HasEach (out a)

/-- The record goes on from the records before and behind the moment. -/
def Record.Covers (r : Record) (k : Moment) : Prop :=
  ∃ r₁ r₂ : Record, r₁.Accepts k.session ∧ r₁.HasEach k.task.values ∧
    r₁.Continues r₂ k.task.given k.outcome ∧ r₂.Le r

namespace Record.Covers

variable {r r' : Record} {k : Moment}

theorem mono (h : r.Covers k) (hle : r.Le r') : r'.Covers k := by
  obtain ⟨r₁, r₂, hr₁, hvalues, hcontinues, hle₂⟩ := h
  exact ⟨r₁, r₂, hr₁, hvalues, hcontinues, hle₂.trans hle⟩

/-- What is at hand is in a record of the session that is left. -/
theorem behind (h : r.Covers k) :
    ∃ r' : Record, r'.Le r ∧ r'.Accepts k.after ∧ ∀ v, k.Knows v → r'.Has v := by
  obtain ⟨r₁, r₂, hr₁, hvalues, hcontinues, hle⟩ := h
  refine ⟨r₂, hle, hcontinues.accepts, fun v hv => ?_⟩
  induction hv with
  | before h => exact (hr₁.stored _ h).mono hcontinues.le
  | behind h => exact hcontinues.accepts.stored _ h
  | passed h => exact (hvalues.of_mem h).mono hcontinues.le
  | given ha h => exact (hcontinues.given _ ha).of_mem h
  | classOf _ ih => exact ih.2

/-- The record has all values that are at hand. -/
theorem has (h : r.Covers k) (hv : k.Knows v) : r.Has v := by
  obtain ⟨r', hle, -, hhas⟩ := h.behind
  exact (hhas v hv).mono hle

end Record.Covers

-- ---------------------------------------------------------------------------
-- Records of runs
-- ---------------------------------------------------------------------------

/-- A worker that keeps the record, and has more to say of the record with which it does, makes a
script do so. -/
theorem Script.Logs.run {w : Worker} {Q : Record → Task → Session → Prop}
    (hmono : ∀ r r' t s, r.Le r' → Q r t s → Q r' t s) {σ : Script α}
    (hw : ∀ t s, (t, s) ∈ σ.asked w → ∀ r : Record, r.Accepts s → r.HasEach t.values →
      ∃ r', r.Continues r' t.given ((w t).on s) ∧ Q r' t s)
    (h : σ.Logs names out r s) :
    ∃ r', r.Continues r' out (σ.play w) ∧ ∀ t' s', (t', s') ∈ σ.asked w → Q r' t' s' := by
  induction σ generalizing r s with
  | ends result s' =>
    obtain ⟨-, hends, r', hle, haccepts, hout⟩ := h
    exact ⟨r', ⟨hle, haccepts, hends, hout⟩, by simp [asked]⟩
  | asks t v back next ih =>
    obtain ⟨-, r₁, hle₁, haccepts₁, hvalues, hrest⟩ := h
    obtain ⟨r₂, hcontinues, hQ⟩ := hw t v (mem_asked_asks.2 (.inl rfl)) r₁ haccepts₁ hvalues
    obtain ⟨-, hback, hnext⟩ := hrest r₂ _ hcontinues.le hcontinues.accepts
    have hle₂ := hle₁.trans hcontinues.le
    simp only [play, asked]
    rcases hrun : (w t).on v with ⟨halt | a, v'⟩
    · rw [hrun] at hback
      have hends : halt ≠ .endless := by
        rintro rfl
        exact hcontinues.ends (by rw [hrun])
      refine ⟨r₂, ⟨hle₂, hback, fun h => hends (Except.error.inj h), fun _ h => by cases h⟩, ?_⟩
      intro t' s' hmem
      cases List.mem_singleton.1 hmem
      exact hQ
    · have hgiven := hcontinues.given a (by rw [hrun])
      rw [hrun] at hnext
      have hlater : ∀ x ∈ (next a v').asked w, x ∈ (asks t v back next).asked w :=
        fun x hx => mem_asked_asks.2 (.inr ⟨a, v', hrun, hx⟩)
      obtain ⟨r₃, hcontinues₃, hrest₃⟩ := ih a v' (fun t' s' hmem => hw t' s' (hlater _ hmem))
        (hnext a hgiven)
      refine ⟨r₃, ⟨hle₂.trans hcontinues₃.le, hcontinues₃.accepts, hcontinues₃.ends,
        hcontinues₃.given⟩, ?_⟩
      intro t' s' hmem
      rcases List.mem_cons.1 hmem with heq | hmem
      · cases heq
        exact hmono _ _ _ _ hcontinues₃.le hQ
      · exact hrest₃ t' s' hmem

/-- No function is declared without parameter list at the moment. -/
def Moment.Listed (k : Moment) : Prop :=
  ∀ r, k.task = .execute (.function r) → r.isGetter = false

/-- A run goes on from any record, to one that covers all moments within the run. -/
theorem Moment.record (k : Moment) {r : Record}
    (hlisted : ∀ k', k.Leads k' → k'.allowance ≠ 0 → k'.Listed) (hr : r.Accepts k.session)
    (hvalues : r.HasEach k.task.values) :
    ∃ r', r.Continues r' k.task.given k.outcome ∧ ∀ k', k.Leads k' → r'.Covers k' := by
  obtain ⟨n, t, s⟩ := k
  induction n generalizing t s r with
  | zero =>
    refine ⟨r, ⟨.refl r, hr, nofun, nofun⟩, fun k' hleads => ?_⟩
    obtain ⟨n', t', s'⟩ := k'
    cases hleads
    exact ⟨r, r, hr, hvalues, ⟨.refl r, hr, nofun, nofun⟩, .refl r⟩
  | succ n ih =>
    have hlogged : Logged (fun _ => True) t.values t.given (fun w => w.step t) s :=
      step_logged t s (fun _ _ _ _ => trivial) (hlisted ⟨n + 1, t, s⟩ .here (Nat.succ_ne_zero n))
    obtain ⟨σ, hplay, hlogs⟩ := hlogged
    have hasks (t' : Task) (s' : Session) :
        (worker n).Asks t s t' s' ↔ (t', s') ∈ σ.asked (worker n) := by
      simp only [Worker.Asks, Asking, hplay, ← Script.mem_asked_iff]
    obtain ⟨r', hcontinues, hinside⟩ := Script.Logs.run (w := worker n)
      (Q := fun r' t' s' => ∀ k', Moment.Leads ⟨n, t', s'⟩ k' → r'.Covers k')
      (fun _ _ _ _ hle hQ k' hleads => (hQ k' hleads).mono hle)
      (fun t' s' hmem r hr hv => ih t' s'
        (fun k' hleads => hlisted k' (.inside trivial ((hasks t' s').2 hmem) hleads)) hr hv)
      (hlogs r hr hvalues)
    have houtcome : Moment.outcome ⟨n + 1, t, s⟩ = σ.play (worker n) := hplay (worker n)
    rw [← houtcome] at hcontinues
    refine ⟨r', hcontinues, fun k' hleads => ?_⟩
    obtain ⟨n', t', s'⟩ := k'
    cases hleads with
    | here => exact ⟨r, r', hr, hvalues, hcontinues, .refl r'⟩
    | inside _ hask hleads => exact hinside _ _ ((hasks _ _).1 hask) _ hleads

-- ---------------------------------------------------------------------------
-- Lives
-- ---------------------------------------------------------------------------

/-- What an entry carries out: nothing if it is refused. -/
def Entry.moments (entry : Entry) (fuel : Nat) (s : Session) : List Moment :=
  match entry.prepared s.nextId with
  | .ok p => [⟨fuel, p.tree.task, s.commit p⟩]
  | .error _ => []

/-- The sessions between the entries and calls of a host, with the units that were entered so far,
the values that the host was given, and what was carried out, in this order. -/
inductive Life : List Line → List Value → List Moment → Session → Prop
  | start : Life [] [] [] (.start sources refusal clock)
  | entry (entry : Entry) (fuel : Nat) : Life units given runs s →
    (entry.run fuel).on s = (result, s') →
    Life (entry.units s ++ units) (result.toOption.join.toList ++ given)
      (runs ++ entry.moments fuel s) s'
  | call (fuel : Nat) : Life units given runs s →
    (∀ v ∈ callee :: arguments, v ∈ given ∨ v.Plain) →
    (worker fuel (.callValue callee site arguments)).on s = (result, s') →
    Life units (result.toOption.toList ++ given)
      (runs ++ [⟨fuel, .callValue callee site arguments, s⟩]) s'
  | told : Life units given runs s →
    Life units given runs { s with output := output, clock := clock }

/-- An entry that is not refused. -/
theorem Life.accepted {entry : Entry} (h : Life units given runs s) (fuel : Nat)
    (hp : entry.prepared s.nextId = .ok p)
    (hrun : (worker fuel p.tree.task).on (s.commit p) = (result, s')) :
    Life (p.tree :: units) ((result.map p.tree.shown).toOption.join.toList ++ given)
      (runs ++ [⟨fuel, p.tree.task, s.commit p⟩]) s' := by
  have hentry := h.entry entry fuel (entry.on_run_ok fuel hp)
  simp only [Entry.units, Entry.moments, hp, hrun] at hentry
  exact hentry

theorem Life.hosted (h : Life units given runs s) : Hosted units given s := by
  induction h with
  | start => exact .start
  | entry entry fuel _ hrun ih => exact .entry entry fuel ih hrun
  | call fuel _ hvalues hrun ih => exact .call fuel ih hvalues hrun
  | told _ ih => exact .told ih

theorem Hosted.life (h : Hosted units given s) : ∃ runs, Life units given runs s := by
  induction h with
  | start => exact ⟨_, .start⟩
  | entry entry fuel _ hrun ih => exact ih.imp' _ fun _ h => .entry entry fuel h hrun
  | call fuel _ hvalues hrun ih => exact ih.imp' _ fun _ h => .call fuel h hvalues hrun
  | told _ ih => exact ih.imp fun _ h => .told h

/-- The moment lies within something that was carried out. -/
def Moment.Of (runs : List Moment) (k : Moment) : Prop :=
  ∃ run ∈ runs, run.Leads k

theorem Moment.of_append {k : Moment} : k.Of (runs ++ runs') ↔ k.Of runs ∨ k.Of runs' := by
  simp only [Of, List.mem_append, or_and_right, exists_or]

/-- What is carried out is what an entry or a call comes to. -/
theorem Life.occurs {k : Moment} (h : Life units given runs s) (hk : k.Of runs)
    (hallowed : k.allowance ≠ 0) :
    ∃ units', units' <:+ units ∧ Occurs units' k.task k.session := by
  obtain ⟨m, hm⟩ := Nat.exists_eq_succ_of_ne_zero hallowed
  induction h with
  | start =>
    obtain ⟨run, hmem, -⟩ := hk
    cases hmem
  | @entry units given runs s result s' entry fuel hlife _ ih =>
    rcases Moment.of_append.1 hk with hold | ⟨run, hmem, hleads⟩
    · obtain ⟨units', hsuffix, hoccurs⟩ := ih hold
      exact ⟨units', hsuffix.trans (List.suffix_append _ _), hoccurs⟩
    · simp only [Entry.moments, Entry.units] at hmem ⊢
      cases hp : entry.prepared s.nextId with
      | error e => simp [hp] at hmem
      | ok p =>
        simp only [hp, List.mem_singleton] at hmem
        subst hmem
        simp only [Moment.Leads, hm] at hleads
        exact ⟨_, List.suffix_rfl, .entry hlife.hosted hp hleads.comesTo⟩
  | call fuel hlife hvalues _ ih =>
    rcases Moment.of_append.1 hk with hold | ⟨run, hmem, hleads⟩
    · exact ih hold
    · cases List.mem_singleton.1 hmem
      simp only [Moment.Leads, hm] at hleads
      exact ⟨_, List.suffix_rfl, .call hlife.hosted hvalues hleads.comesTo⟩
  | told _ ih => exact ih hk

theorem Poised.listed (h : Poised units (.execute (.function r)) s) : r.isGetter = false := by
  obtain ⟨σ, unit, top, hknows, hinside, -, -⟩ := h.ready
  obtain ⟨notes, hunit, -⟩ := hknows.noted
  have hproper : (Stmt.function r).Proper := (hinside.analysed hunit).proper.1
  simpa [Routine.isGetter] using hproper.1

theorem Life.listed {k : Moment} (h : Life units given runs s) (hk : k.Of runs)
    (hallowed : k.allowance ≠ 0) :
    k.Listed := by
  intro r htask
  obtain ⟨units', -, hoccurs⟩ := h.occurs hk hallowed
  rw [htask] at hoccurs
  exact hoccurs.poised.listed

theorem plain_of_stores_start (h : (Session.start sources refusal clock).Stores v) : v.Plain := by
  cases h with
  | @bound name _ frame hmem =>
    have hplain := Frames.initial_bindings (P := fun t => ∀ entry ∈ t.entries, entry.2.Plain)
      (by simp [Table.empty]) (fun t f ht entry hentry => ?_) frame
    · exact hplain _ hmem
    · rcases Table.mem_put hentry with rfl | hentry
      · trivial
      · exact ht entry hentry
  | field ht _ => cases ht
  | element hmem => cases hmem
  | exported hm _ => cases hm

/-- What else is carried out is covered along with what was. -/
theorem Record.carryOn {r : Record} (hcovers : ∀ k, k.Of runs → r.Covers k) {run : Moment}
    (hlife : Life units given (runs ++ [run]) s) (hr : r.Accepts run.session)
      (hvalues : r.HasEach run.task.values) :
    ∃ r', r.Continues r' run.task.given run.outcome ∧
      ∀ k, k.Of (runs ++ [run]) → r'.Covers k := by
  have hlisted (k' : Moment) (hleads : run.Leads k') (hallowed : k'.allowance ≠ 0) : k'.Listed :=
    hlife.listed ⟨run, List.mem_append_right _ List.mem_cons_self, hleads⟩ hallowed
  obtain ⟨r', hcontinues, hinside⟩ := run.record hlisted hr hvalues
  refine ⟨r', hcontinues, fun k hk => ?_⟩
  rcases Moment.of_append.1 hk with hold | ⟨run', hmem, hleads⟩
  · exact (hcovers k hold).mono hcontinues.le
  · cases List.mem_singleton.1 hmem
    exact hinside k hleads

theorem Line.shown_subset (l : Line) (a : l.task.Answer) :
    (l.shown a).toList ⊆ l.task.given a := by
  cases l with
  | statements body => exact List.nil_subset _
  | expression e => exact List.Subset.refl _

/-- One record covers a whole life. -/
theorem Life.record (h : Life units given runs s) : ∃ r : Record, r.Accepts s ∧ r.HasEach given ∧
    ∀ k, k.Of runs → r.Covers k := by
  induction h with
  | @start sources refusal clock =>
    refine ⟨⟨fun _ => none, fun _ => none, .empty⟩, ⟨fun v hv => ?_, nofun, nofun, rfl, .empty⟩,
      trivial, ?_⟩
    · exact Record.has_plain (plain_of_stores_start hv)
    · rintro k ⟨run, hmem, -⟩
      cases hmem
  | @entry units given runs s result s' entry fuel hlife hrun ih =>
    obtain ⟨r, haccepts, hgiven, hcovers⟩ := ih
    cases hp : entry.prepared s.nextId with
    | error e =>
      rw [entry.on_run_error fuel hp] at hrun
      cases hrun
      simp only [Entry.moments, hp, List.append_nil]
      exact ⟨r, haccepts, hgiven, hcovers⟩
    | ok p =>
      rw [entry.on_run_ok fuel hp] at hrun
      cases hrun
      obtain ⟨r', hcontinues, hcovers'⟩ := Record.carryOn hcovers (hlife.accepted fuel hp rfl)
        (haccepts.commit p) (by cases p.tree <;> trivial)
      simp only [Entry.moments, hp]
      refine ⟨r', hcontinues.accepts, .append ?_ (hgiven.mono hcontinues.le), hcovers'⟩
      cases ha : ((worker fuel p.tree.task).on (s.commit p)).1 with
      | error halt => trivial
      | ok a => exact (hcontinues.given a ha).of_subset (p.tree.shown_subset a)
  | @call units given runs s callee arguments site result s' fuel hlife hvalues hrun ih =>
    obtain ⟨r, haccepts, hgiven, hcovers⟩ := ih
    obtain ⟨r', hcontinues, hcovers'⟩ := Record.carryOn hcovers (hlife.call fuel hvalues hrun)
      haccepts
      (Record.hasEach_iff.2 fun v hv => (hvalues v hv).elim hgiven.of_mem Record.has_plain)
    simp only [Moment.outcome, hrun] at hcontinues
    refine ⟨r', hcontinues.accepts, .append ?_ (hgiven.mono hcontinues.le), hcovers'⟩
    cases result with
    | error halt => trivial
    | ok v => exact hcontinues.given v rfl
  | told _ ih =>
    obtain ⟨r, haccepts, hgiven, hcovers⟩ := ih
    exact ⟨r, haccepts.told _ _, hgiven, hcovers⟩

/-- Under what a value is put down, if it has a number. -/
def Value.key? : Value → Option (Identity ⊕ ObjectId)
  | .function i _ => some (.inl i)
  | .classObject c => some (.inr c.id)
  | .object o _ => some (.inr o)
  | _ => none

theorem Record.Has.found {r : Record} (hv : r.Has v) (hkey : v.key? = some key) :
    key.elim r.functions r.objects = some v := by
  cases v <;> cases hkey
  case function => exact hv.1
  case classObject => exact hv
  case object => exact hv.1

namespace Life

variable {units : List Line} {given : List Value} {runs : List Moment} {s : Session} {k k' : Moment}

/-- Whatever has a number is one and the same at any two moments. -/
theorem same_value (h : Life units given runs s) (hk : k.Of runs) (hk' : k'.Of runs)
    (hv : k.Knows v) (hv' : k'.Knows v') (hkey : v.key? = some key) (hkey' : v'.key? = some key) :
    v' = v := by
  obtain ⟨r, -, -, hcovers⟩ := h.record
  have hfound := ((hcovers k hk).has hv).found hkey
  have hfound' := ((hcovers k' hk').has hv').found hkey'
  exact Option.some.inj (hfound'.symm.trans hfound)

/-- The number of an object is one that has been given by then. -/
theorem object_lt (h : Life units given runs s) (hk : k.Of runs) (hv : k.Knows v)
    (hkey : v.key? = some (.inr o)) : o < k.after.fields.size := by
  obtain ⟨r, -, -, hcovers⟩ := h.record
  obtain ⟨r', -, haccepts, hhas⟩ := (hcovers k hk).behind
  exact haccepts.objects_lt o v ((hhas v hv).found hkey)

/-- Of what is there when a moment begins, nothing has the number of an object yet to be made. -/
theorem object_lt_before (h : Life units given runs s) (hk : k.Of runs)
    (hv : k.session.Stores v ∨ v ∈ k.task.values) (hkey : v.key? = some (.inr o)) :
    o < k.session.fields.size := by
  obtain ⟨r, -, -, hcovers⟩ := h.record
  obtain ⟨r₁, -, haccepts, hvalues, -, -⟩ := hcovers k hk
  have hhas : r₁.Has v := hv.elim (haccepts.stored v) hvalues.of_mem
  exact haccepts.objects_lt o v (hhas.found hkey)

end Life

end Treewalk
