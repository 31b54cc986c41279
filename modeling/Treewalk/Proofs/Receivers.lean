import Treewalk.Proofs.Agreement
import Treewalk.Proofs.Contexts
import Treewalk.Proofs.Upholding

/-!
# Receivers

Binding a method to its receiver makes a frame for `this` alone. Code never stands in such a frame,
and no variable has the name, so the frame binds its receiver for good, whatever runs. Objects are
numbered as they are made, and every value is about objects that are there. Both hold at every
moment of what a session carries out, be it an entry or a call by a host that has been given a
function or a class.
-/

namespace Treewalk

-- ---------------------------------------------------------------------------
-- Frames of receivers
-- ---------------------------------------------------------------------------

/-- The frame was made for the receiver of a method, and binds `this` to it. -/
structure Frames.Seats (fs : Frames) (frame : FrameId) (receiver : Value) : Prop where
  opener : ∃ method, fs.opener? frame = some (.receiver method)
  bound : fs.getLocal? frame "this" = some receiver

namespace Frames.Seats

variable {fs : Frames}

theorem lt (h : fs.Seats frame receiver) : frame < fs.size := by
  obtain ⟨method, hopener⟩ := h.opener
  exact lt_of_opener? hopener

theorem add (h : fs.Seats frame receiver) (parent : Option FrameId) (opener : Option Opener) :
    (fs.add parent opener).Seats frame receiver where
  opener := by
    rw [opener?_add_of_lt h.lt]
    exact h.opener
  bound := by
    rw [getLocal?_add]
    exact h.bound

theorem define (h : fs.Seats frame receiver) (hother : other = frame → name ≠ "this") :
    (fs.define other name value).Seats frame receiver where
  opener := by
    rw [opener?_define]
    exact h.opener
  bound := by
    rw [getLocal?_define, if_neg]
    · exact h.bound
    · rintro ⟨rfl, -, rfl⟩
      exact hother rfl rfl

end Frames.Seats

/-- Code does not stand in the frame of a receiver, and some such frames bind their receivers. -/
structure Session.Seated (seats : FrameId → Value → Prop) (s : Session) : Prop where
  outside : ∀ method, s.frames.opener? s.context.frame ≠ some (.receiver method)
  kept : ∀ frame receiver, seats frame receiver → s.frames.Seats frame receiver

/-- The moments at which a variable named `this` is assigned to. -/
def RebindsThis : Task → Session → Prop
  | .evaluate (.assign _ target _), _ => target.lexeme = "this"
  | _, _ => False

namespace Session.Seated

variable {s s' : Session} {seats : FrameId → Value → Prop}

theorem add (h : s.Seated seats) (hlt : s.context.frame < s.frames.size)
    (parent : Option FrameId) (opener : Option Opener) :
    Session.Seated seats { s with frames := s.frames.add parent opener } where
  outside method := by
    rw [Frames.opener?_add_of_lt hlt]
    exact h.outside method
  kept frame receiver hseat := (h.kept frame receiver hseat).add parent opener

theorem define (h : s.Seated seats)
    (hother : ∀ receiver, s.frames.Seats other receiver → name ≠ "this") :
    Session.Seated seats { s with frames := s.frames.define other name value } where
  outside method := by
    rw [Frames.opener?_define]
    exact h.outside method
  kept frame receiver hseat := by
    have hkept := h.kept frame receiver hseat
    exact hkept.define fun heq => hother receiver (heq ▸ hkept)

theorem enter (h : s.Seated seats)
    (hframe : ∀ method, s.frames.opener? frame ≠ some (.receiver method))
    (globals : FrameId) : Session.Seated seats
      { s with context := { s.context with frame := frame, globals := globals } } :=
  ⟨hframe, h.kept⟩

end Session.Seated

theorem seated_lawful {seats : FrameId → Value → Prop}
    (havoid : ∀ t s frame receiver, seats frame receiver → RebindsThis t s → avoid t s) :
    (Regime.ofSession (Session.Seated seats)).Lawful avoid where
  function_mono _ _ := trivial
  object_mono _ _ := trivial
  call_mono _ _ := trivial
  called _ := trivial
  returned _ _ := trivial
  closed _ _ := trivial
  classed _ _ := trivial
  constructed _ := trivial
  bound _ _ _ := trivial
  adopted _ _ _ := trivial
  aside hlater hframes _ hs := by
    refine ⟨?_, ?_⟩
    · rw [hlater.context, hframes]
      exact hs.outside
    · rw [hframes]
      exact hs.kept
  scope hs hlt := hs.add hlt _ _
  inner hs hopener hfresh := by
    refine hs.define ?_
    rintro receiver hseat rfl
    obtain ⟨method, hmethod⟩ := hseat.opener
    rw [hopener] at hmethod
    have hnone := hfresh method (Option.some.inj hmethod)
    rw [hseat.bound] at hnone
    cases hnone
  declared hs _ := by
    refine hs.define ?_
    rintro receiver hseat -
    obtain ⟨method, hmethod⟩ := hseat.opener
    exact hs.outside method hmethod
  assigned {node target e s s' frame value} hclear _ hs _ := by
    refine ⟨fun method => ?_, fun other receiver hseat => ?_⟩
    · rw [Frames.opener?_define]
      exact hs.outside method
    · refine (hs.kept other receiver hseat).define fun _ hthis => hclear ?_
      exact havoid _ _ other receiver hseat hthis
  exported _ _ hs _ _ _ _ := ⟨hs.outside, hs.kept⟩
  entered {s frame opener globals} hs hopener hcode _ := by
    refine hs.enter (fun method hmethod => ?_) globals
    rw [hopener] at hmethod
    exact hcode method (Option.some.inj hmethod)
  loaded {site path s source p} _ hs _ _ _ := by
    refine ⟨fun method hmethod => ?_, fun frame receiver hseat => ?_⟩
    · have hnone : (s.load path p).frames.opener? s.frames.next = none :=
        Frames.opener?_add_next ..
      exact absurd (hnone.symm.trans hmethod) nofun
    · exact (hs.kept frame receiver hseat).add _ _
  back hs hlt hgrows hs' := by
    refine ⟨fun method => ?_, hs'.kept⟩
    rw [hgrows.frames.opener _ hlt]
    exact hs.outside method

-- ---------------------------------------------------------------------------
-- Objects that are there
-- ---------------------------------------------------------------------------

/-- All classes and instances have been made. -/
def existing : Regime where
  session _ := True
  function _ _ := True
  object s id c := id < s.fields.size ∧ c.id < s.fields.size
  call _ _ := True

theorem existing_lawful (avoid : Task → Session → Prop) : existing.Lawful avoid where
  function_mono _ _ := trivial
  object_mono hextends h :=
    ⟨Nat.lt_of_lt_of_le h.1 hextends.objects, Nat.lt_of_lt_of_le h.2 hextends.objects⟩
  call_mono _ _ := trivial
  called _ := trivial
  returned _ _ := trivial
  closed _ _ := trivial
  classed _ _ := by
    simp only [existing, Class.made, Array.size_push]
    exact ⟨Nat.lt_succ_self _, Nat.lt_succ_self _⟩
  constructed h := by
    simp only [existing, Array.size_push]
    exact ⟨Nat.lt_succ_self _, Nat.lt_succ_of_lt h.2⟩
  bound _ _ _ := trivial
  adopted _ _ _ := trivial
  aside _ _ _ _ := trivial
  scope _ _ := trivial
  inner _ _ _ := trivial
  declared _ _ := trivial
  assigned _ _ _ _ := trivial
  exported _ _ _ _ _ _ _ := trivial
  entered _ _ _ _ := trivial
  loaded _ _ _ _ _ := trivial
  back _ _ _ _ := trivial

-- ---------------------------------------------------------------------------
-- Moments
-- ---------------------------------------------------------------------------

/-- What can be said of every value that there is. -/
def Known (units : List Line) (s : Session) (v : Value) : Prop :=
  (Account.mk units False).Holds s v ∧ existing.Holds s v

theorem Known.mono (h : Known units s v) (hextends : s.Extends s') : Known units s' v :=
  ⟨h.1.mono hextends.toGrows, (existing_lawful nowhere).holds_mono hextends h.2⟩

theorem Known.plain (h : v.Plain) : Known units s v :=
  ⟨Account.holds_plain h, Regime.holds_plain h⟩

/-- What can be said of a session wherever code may run in it. -/
structure Settled (units : List Line) (s : Session) : Prop where
  accepts : (Account.mk units False).Accepts s
  existing : existing.Accepts s
  outside : ∀ method, s.frames.opener? s.context.frame ≠ some (.receiver method)

/-- What can be said wherever a task may be carried out. -/
structure Poised (units : List Line) (t : Task) (s : Session) : Prop extends Settled units s where
  ready : (Account.mk units False).Ready t s
  objects : Treewalk.existing.Ready t s

namespace Poised

variable {units : List Line} {s s' : Session}

theorem seated {seats : FrameId → Value → Prop} (h : Poised units t s)
    (hseats : ∀ frame receiver, seats frame receiver → s.frames.Seats frame receiver) :
    (Regime.ofSession (Session.Seated seats)).contract.pre t s :=
  Regime.pre_ofSession ⟨h.existing, h.objects⟩ ⟨h.outside, hseats⟩

theorem comesTo (h : Poised units t s) (hm : ComesTo nowhere fuel t s t' s') :
    Poised units t' s' := by
  have haccount := Account.comesTo (fun (h : False) _ _ _ => h.elim) ⟨h.accepts, h.ready⟩ hm
  have hexisting := (existing_lawful nowhere).comesTo ⟨h.existing, h.objects⟩ hm
  have hnone : (Regime.ofSession (Session.Seated fun _ _ => False)).Lawful nowhere :=
    seated_lawful fun _ _ _ _ h => h.elim
  have hseated := hnone.comesTo (h.seated fun _ _ h => h.elim) hm
  exact ⟨⟨haccount.1, hexisting.1, hseated.1.session.outside⟩, haccount.2, hexisting.2⟩

/-- No variable is named `this`. -/
theorem not_rebindsThis (h : Poised units t s) : ¬ RebindsThis t s := by
  unfold RebindsThis
  split
  · next node target e =>
    obtain ⟨σ, unit, top, hknows, hinside, -, -⟩ := h.ready
    obtain ⟨notes, hunit, -⟩ := hknows.noted
    exact (hinside.analysed hunit).proper.1
  · exact id

theorem clear (h : Poised units t s) (fuel : Nat) (t' : Task) (s' : Session)
    (hm : ComesTo RebindsThis fuel t s t' s') : ¬ RebindsThis t' s' :=
  (h.comesTo (hm.mono fun _ _ h => h.elim)).not_rebindsThis

/-- The frame of a receiver binds it in the end, whatever that is. -/
theorem seats_after (h : Poised units t s) (hseats : s.frames.Seats frame receiver) (fuel : Nat) :
    ((worker fuel t).on s).2.frames.Seats frame receiver := by
  have hlawful : (Regime.ofSession (Session.Seated fun f r => f = frame ∧ r = receiver)).Lawful
      RebindsThis := seated_lawful fun _ _ _ _ _ h => h
  refine (hlawful.run (h.seated ?_) (h.clear fuel)).leaves.1.session.kept _ _ ⟨rfl, rfl⟩
  rintro _ _ ⟨rfl, rfl⟩
  exact hseats

end Poised

-- ---------------------------------------------------------------------------
-- Tasks one after the other
-- ---------------------------------------------------------------------------

theorem Settled.later (h : Settled units s) (haccepts : (Account.mk units False).Accepts s')
    (hexisting : Treewalk.existing.Accepts s') (hlater : s.Later s') : Settled units s' := by
  refine ⟨haccepts, hexisting, fun method => ?_⟩
  rw [hlater.context, hlater.grows.frames.opener _ h.existing.here]
  exact h.outside method

/-- What a task leaves. -/
theorem Poised.leaves (h : Poised units t s) (hrun : (worker fuel t).on s = (result, s')) :
    Settled units s' ∧ s.Precedes s' := by
  have haccount := (Account.run_keeps fuel ⟨h.accepts, h.ready⟩ id).leaves
  have hkeeps : Treewalk.existing.Keeps (worker fuel t) s (Treewalk.existing.Answers t) :=
    (existing_lawful nowhere).run ⟨h.existing, h.objects⟩ fun _ _ _ h => h
  rw [hrun] at haccount
  have hexisting := hkeeps.leaves
  rw [hrun] at hexisting
  exact ⟨h.toSettled.later haccount.1 hexisting.1 haccount.2, hexisting.2⟩

/-- What a task gives. -/
theorem Poised.gives (h : Poised units t s) (hrun : (worker fuel t).on s = (.ok a, s')) :
    (Account.mk units False).Answers t a s' ∧ Treewalk.existing.Answers t a s' := by
  have haccount := Account.run_keeps fuel ⟨h.accepts, h.ready⟩ id
  have hexisting : Treewalk.existing.Keeps (worker fuel t) s (Treewalk.existing.Answers t) :=
    (existing_lawful nowhere).run ⟨h.existing, h.objects⟩ fun _ _ _ h => h
  exact ⟨(haccount.result hrun).2.2, (hexisting.result hrun).2.2⟩

-- ---------------------------------------------------------------------------
-- Hosts
-- ---------------------------------------------------------------------------

/-- The sessions between entries and calls of a host, with the units that were entered so far and
the values that the host was given. These can be called, with one another and with plain values. -/
inductive Hosted : List Line → List Value → Session → Prop
  | start : Hosted [] [] (.start sources refusal clock)
  | entry (entry : Entry) (fuel : Nat) : Hosted units given s →
    (entry.run fuel).on s = (result, s') →
    Hosted (entry.units s ++ units) (result.toOption.join.toList ++ given) s'
  | call (fuel : Nat) : Hosted units given s →
    (∀ v ∈ callee :: arguments, v ∈ given ∨ v.Plain) →
    (worker fuel (.callValue callee site arguments)).on s = (result, s') →
    Hosted units (result.toOption.toList ++ given) s'
  | told : Hosted units given s → Hosted units given { s with output := output, clock := clock }

theorem Reachable.hosted (h : Reachable units s) : ∃ given, Hosted units given s := by
  induction h with
  | start => exact ⟨[], .start⟩
  | run entry fuel _ ih =>
    obtain ⟨given, h⟩ := ih
    exact ⟨_, .entry entry fuel h rfl⟩
  | told _ ih =>
    obtain ⟨given, h⟩ := ih
    exact ⟨given, .told h⟩

/-- What an entry or a call comes to carry out, with the units so far, its own included. -/
inductive Occurs : List Line → Task → Session → Prop
  | entry : Hosted units given s₀ → Entry.prepared entry s₀.nextId = .ok p →
    ComesTo nowhere fuel p.tree.task (s₀.commit p) t s → Occurs (p.tree :: units) t s
  | call : Hosted units given s₀ → (∀ v ∈ callee :: arguments, v ∈ given ∨ v.Plain) →
    ComesTo nowhere fuel (.callValue callee site arguments) s₀ t s → Occurs units t s

/-- What can be said between entries and calls. -/
structure AtRest (units : List Line) (given : List Value) (s : Session) : Prop where
  accepts : (Account.mk units False).Accepts s
  existing : existing.Accepts s
  main : s.context = .main
  top : s.frames.opener? rootFrame = none
  given : ∀ v ∈ given, Known units s v

namespace AtRest

variable {units : List Line} {given : List Value} {s s' : Session}

theorem settled (h : AtRest units given s) : Settled units s := by
  refine ⟨h.accepts, h.existing, fun method hmethod => ?_⟩
  have hroot : s.context.frame = rootFrame := by
    rw [h.main]
    rfl
  rw [hroot, h.top] at hmethod
  cases hmethod

theorem add (h : AtRest units given s) (unit : Line) : AtRest (unit :: units) given s :=
  ⟨h.accepts.add unit, h.existing, h.main, h.top, fun v hv =>
    ⟨(h.given v hv).1.add unit, (h.given v hv).2⟩⟩

theorem entered {p : Prepared Line} (h : AtRest units given s) (hp : Checked s.nextId p) :
    Poised (p.tree :: units) p.tree.task (s.commit p) := by
  have haccount := h.accepts.entered h.main hp
  have hexisting := (existing_lawful nowhere).entered_contract h.existing hp
  exact ⟨⟨haccount.1, hexisting.1, h.settled.outside⟩, haccount.2, hexisting.2⟩

theorem called (h : AtRest units given s)
    (hvalues : ∀ v ∈ callee :: arguments, v ∈ given ∨ v.Plain) (site : Site) :
    Poised units (.callValue callee site arguments) s := by
  have hholds (v : Value) (hv : v ∈ callee :: arguments) : Known units s v :=
    (hvalues v hv).elim (h.given v) .plain
  exact ⟨h.settled,
    ⟨(hholds callee List.mem_cons_self).1, fun v hv => (hholds v (List.mem_cons_of_mem _ hv)).1⟩,
    (hholds callee List.mem_cons_self).2, fun v hv => (hholds v (List.mem_cons_of_mem _ hv)).2⟩

theorem later (h : AtRest units given s) (hs' : Settled units s') (hextends : s.Extends s')
    (hcontext : s'.context = s.context) : AtRest units given s' := by
  refine ⟨hs'.accepts, hs'.existing, hcontext.trans h.main, ?_, fun v hv => ?_⟩
  · rw [hextends.toGrows.frames.opener _ h.accepts.root]
    exact h.top
  · exact (h.given v hv).mono hextends

theorem give (h : AtRest units given s) (hv : Known units s v) :
    AtRest units (v :: given) s := by
  refine ⟨h.accepts, h.existing, h.main, h.top, fun u hu => ?_⟩
  rcases List.mem_cons.1 hu with rfl | hmem
  · exact hv
  · exact h.given u hmem

/-- An entry that is taken in leaves its value, if it has one, to the host. -/
theorem entry {entry : Entry} (h : AtRest units given s)
    (hrun : (entry.run fuel).on s = (result, s')) :
    AtRest (entry.units s ++ units) (result.toOption.join.toList ++ given) s' := by
  cases hp : entry.prepared s.nextId with
  | error e =>
    rw [entry.on_run_error fuel hp] at hrun
    cases hrun
    rw [Entry.units, hp]
    exact h
  | ok p =>
    have hpoised := h.entered (entry.checked hp)
    rw [entry.on_run_ok fuel hp] at hrun
    rw [Entry.units, hp]
    rcases hr : (worker fuel p.tree.task).on (s.commit p) with ⟨halt | a, s₁⟩
    all_goals
      rw [hr] at hrun
      cases hrun
      obtain ⟨hs₁, hprecedes⟩ := hpoised.leaves hr
      have hrest := (h.add p.tree).later hs₁
        ((Session.Extends.commit (entry.checked hp)).trans hprecedes.grows) hprecedes.context
    · exact hrest
    · have hgives := hpoised.gives hr
      show AtRest (p.tree :: units) ((p.tree.shown a).toList ++ given) s₁
      clear hpoised hr
      generalize p.tree = l at a hrest hgives ⊢
      cases l with
      | statements body => exact hrest
      | expression e => exact hrest.give hgives

end AtRest

theorem Hosted.atRest (h : Hosted units given s) : AtRest units given s := by
  induction h with
  | start =>
    exact ⟨Account.accepts_start _ _ _, Regime.accepts_start trivial, rfl, rfl, by simp⟩
  | entry entry fuel _ hrun ih => exact ih.entry hrun
  | @call units given s callee arguments site result s' fuel _ hvalues hrun ih =>
    have hpoised := ih.called hvalues site
    obtain ⟨hs', hprecedes⟩ := hpoised.leaves hrun
    have hrest := ih.later hs' hprecedes.grows hprecedes.context
    cases result with
    | error halt => exact hrest
    | ok v => exact hrest.give (hpoised.gives hrun)
  | @told units given s output clock _ ih =>
    have hextends : s.Extends { s with output := output, clock := clock } :=
      ⟨{ Session.Grows.refl s with }, Nat.le_refl _⟩
    have haccepts := ih.accepts.told output clock
    have hexisting := (existing_lawful nowhere).accepts_told ih.existing output clock
    exact ih.later ⟨haccepts, hexisting, ih.settled.outside⟩ hextends rfl

theorem Occurs.poised (h : Occurs units t s) : Poised units t s := by
  cases h with
  | entry hs hp hm => exact (hs.atRest.entered (Entry.checked _ hp)).comesTo hm
  | call hs hvalues hm => exact (hs.atRest.called hvalues _).comesTo hm

end Treewalk
