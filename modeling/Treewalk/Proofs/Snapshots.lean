import Treewalk.Proofs.Globals

/-!
# Imported variables are snapshots

An import copies the variables of a module. From then on the importing unit and the module have a
variable each: what is assigned, declared or imported while one of them has its globals in force
leaves the variable of the other alone. An assignment without distance ends in the globals in force,
since they bind the name; one with a distance ends in the frame of a scope; and what is declared or
imported is bound in the innermost frame, which is the global frame of no other unit.
-/

namespace Treewalk

/-- Carrying out `t` in `s` comes to a single action that binds names: an assignment or the
declaration of a variable, when its value is there, the declaration of a function or class, or the
binding of what a module binds. The action leads from `s₁` to `s₂`. -/
inductive Binds : (t : Task) → (s s₁ s₂ : Session) → Prop
  | assigned : ((worker fuel).evaluate e).on s = (.ok v, s₁) →
    Binds (.evaluate (.assign node name e)) s s₁ ((Run.assign node name v).on s₁).2
  | varDecl : ((worker fuel).evaluate e).on s = (.ok v, s₁) →
    Binds (.execute (.var name (some e))) s s₁ ((Run.defineHere name.lexeme v).on s₁).2
  | unset : Binds (.execute (.var name none)) s s ((Run.defineHere name.lexeme .unset).on s).2
  | function : Binds (.execute (.function routine)) s s
    ((Run.executeWith (worker fuel) (.function routine)).on s).2
  | classDecl : Binds (.execute (.classDecl name methods classMethods)) s s
    ((Run.declareClass name methods classMethods).on s).2
  | spliced : Binds (.splice path) s s ((Run.splice path).on s).2

namespace Run

theorem declareClass_on (name : Token) (methods classMethods : List Routine) (s : Session) :
    ∃ v, ((declareClass name methods classMethods).on s).2.frames =
      (s.frames.define s.context.frame name.lexeme .nil).define s.context.frame name.lexeme v := by
  simp only [declareClass, on_bind, Account.defineHere_on, Account.closeAll_on]
  exact ⟨_, rfl⟩

end Run

/-- The global frame of a unit is not bound in by what is declared or imported with other globals in
force, nor by an assignment to a name that those bind. -/
theorem Binds.elsewhere (h : Binds t s s₁ s₂) (hs : Located t s) (hG : s₁.IsGlobal G)
    (hother : s₁.context.globals ≠ G)
    (hx : (s₁.frames.getLocal? s₁.context.globals x).isSome) :
    s₂.frames.getLocal? G x = s₁.frames.getLocal? G x := by
  cases h with
  | @assigned fuel e _ v _ node name hvalue =>
    obtain ⟨hlater, hplanted⟩ := hs.after hvalue
    obtain ⟨A, σ, hstands⟩ := hs.ready
    obtain ⟨frame, hframe⟩ | ⟨site, fault, hfault⟩ := Regime.assignee_on node name s₁
    · simp only [Run.assign, Run.on_bind, hframe, Run.define, Run.on_modify]
      rw [Frames.getLocal?_define, if_neg]
      rintro ⟨rfl, -, rfl⟩
      obtain ⟨-, hholder⟩ := (hstands.later hlater).assignee_global hframe (hplanted.opener hG).2
      rw [Frames.holder?_self hx] at hholder
      exact hother (Option.some.inj hholder)
    · simp only [Run.assign, Run.on_bind, hfault]
  | varDecl hvalue =>
    obtain ⟨hlater, hplanted⟩ := hs.after hvalue
    rw [Account.defineHere_on, Frames.getLocal?_define, if_neg]
    exact fun hhere => hs.frame_ne hlater hplanted hG hother hhere.1
  | unset =>
    rw [Account.defineHere_on, Frames.getLocal?_define, if_neg]
    exact fun hhere => hs.frame_ne (.refl _) hs.planted hG hother hhere.1
  | function =>
    refine (Frames.getLocal?_define ..).trans (if_neg ?_)
    exact fun hhere => hs.frame_ne (.refl _) hs.planted hG hother hhere.1
  | classDecl =>
    obtain ⟨v, hframes⟩ := Run.declareClass_on _ _ _ s
    have hne := hs.frame_ne (.refl _) hs.planted hG hother
    rw [hframes, Frames.getLocal?_define, if_neg fun hhere => hne hhere.1, Frames.getLocal?_define,
      if_neg fun hhere => hne hhere.1]
  | spliced =>
    exact Run.splice_elsewhere _ hs.planted.toGrounded hs.here
      (hs.frame_ne (.refl _) hs.planted hG hother) x

/-- An import at the top level of a unit binds there what the module binds. From then on, at every
moment of every entry: where two units both bind a name, no single assignment, declaration or import
that happens while the globals of the one are in force changes what the other binds it to. -/
theorem imported_variables_are_snapshots (hs : Reachable units s₀)
    (hp : Entry.prepared entry s₀.nextId = .ok p)
    (hm : ComesTo nowhere fuel p.tree.task (s₀.commit p) t s) :
    (∀ path m, t = .splice path → s.modules.get? path = some m →
      s.frames.opener? s.context.frame = none →
      s.context.frame = s.context.globals ∧ ∃ s', (Run.splice path).on s = (.ok (), s') ∧
        ∀ x, (s.frames.getLocal? m.frame x).isSome →
          (s'.frames.getLocal? s'.context.globals x).isSome) ∧
    ∀ G M x s₁ s₂, s₁.IsGlobal G → s₁.IsGlobal M → G ≠ M →
      (s₁.frames.getLocal? G x).isSome → (s₁.frames.getLocal? M x).isSome → Binds t s s₁ s₂ →
      (s₁.context.globals = M → s₂.frames.getLocal? G x = s₁.frames.getLocal? G x) ∧
      (s₁.context.globals = G → s₂.frames.getLocal? M x = s₁.frames.getLocal? M x) := by
  have hlocated := hs.located hp hm
  constructor
  · rintro path m rfl hmodule hopener
    have htop := hlocated.top hopener
    obtain ⟨s', hrun, hcontext, hbound⟩ :=
      Run.splice_here hlocated.planted.toGrounded hlocated.here hmodule
    refine ⟨htop, s', hrun, fun x hx => ?_⟩
    obtain ⟨v, hv⟩ := Option.isSome_iff_exists.1 hx
    obtain ⟨v', hv', -⟩ := hbound x v hv
    rw [hcontext, ← htop, hv']
    rfl
  · intro G M x s₁ s₂ hG hM hne hxG hxM hbinds
    constructor
    · rintro rfl
      exact hbinds.elsewhere hlocated hG (Ne.symm hne) hxM
    · rintro rfl
      exact hbinds.elsewhere hlocated hM hne hxG

def copying : Session :=
  .start (fun path => if path = "m" then some "var x=true;" else none) none (.still 0)

def original : Prepared (List Stmt) :=
  ⟨[.var ⟨.identifier, "x", 1⟩ (some (.literal (.bool true)))], [], 0⟩

def copied : Session :=
  { copying with
    frames := ((Frames.initial.addChild rootFrame).define 1 "x" (.bool true)).define rootFrame "x"
      (.bool true)
    modules := Table.empty.insert "m" ⟨1, .empty⟩
    started := ["m"] }

/-- An assignment to the variable of the main program. -/
def changing : Prepared Line :=
  ⟨.statements [.expression (.assign 1 ⟨.identifier, "x", 1⟩ (.literal .nil))], [], 2⟩

theorem copying_copied : ((Entry.unit "import\"m\";").run 6).on copying = (.ok none, copied) := by
  have hm : Prepared.program "var x=true;" 0 = .ok original := by decide +kernel
  have hbody : (worker 3 (.interpret original.tree)).on (copying.load "m" original) =
      (.ok (), { copied with
        frames := (Frames.initial.addChild rootFrame).define 1 "x" (.bool true)
        context := ⟨1, 1, ["m"]⟩ }) := rfl
  exact importer_on rfl hm hbody rfl

/-- The variable of the module keeps its value when that of the main program is assigned. -/
theorem assigned_variable_is_not_the_imported_one :
    Reachable [importer.tree] copied ∧
    ComesTo nowhere 5 changing.tree.task (copied.commit changing)
      (.evaluate (.assign 1 ⟨.identifier, "x", 1⟩ (.literal .nil))) (copied.commit changing) ∧
    ∃ s, Binds (.evaluate (.assign 1 ⟨.identifier, "x", 1⟩ (.literal .nil)))
        (copied.commit changing) (copied.commit changing) s ∧
      s.frames.getLocal? rootFrame "x" = some .nil ∧
      s.frames.getLocal? 1 "x" = some (.bool true) := by
  have hreachable : Reachable [importer.tree] copied := by
    have hstart : Reachable [] copying := .start
    have hrun := hstart.run (.unit "import\"m\";") 6
    rwa [copying_copied, importer_units rfl] at hrun
  have hp : (Entry.unit "x=nil;").prepared 0 = .ok changing := by decide +kernel
  have hm : ComesTo nowhere 5 changing.tree.task (copied.commit changing)
      (.evaluate (.assign 1 ⟨.identifier, "x", 1⟩ (.literal .nil))) (copied.commit changing) := by
    refine .first (fun w halt h => Run.on_bind_error h) (fun h => h) ?_
    exact .first (fun w halt h => Run.on_bind_error h) (fun h => h) .beginning
  have hvalue : ((worker 1).evaluate (.literal .nil)).on (copied.commit changing) =
      (.ok .nil, copied.commit changing) := rfl
  have hbinds : Binds (.evaluate (.assign 1 ⟨.identifier, "x", 1⟩ (.literal .nil)))
      (copied.commit changing) (copied.commit changing)
      ((Run.assign 1 ⟨.identifier, "x", 1⟩ .nil).on (copied.commit changing)).2 :=
    .assigned hvalue
  refine ⟨hreachable, hm, _, hbinds, rfl, ?_⟩
  exact (((imported_variables_are_snapshots hreachable hp hm).2 rootFrame 1 "x" _ _ (.inl rfl)
    (.inr ⟨"m", _, rfl, rfl⟩) (by decide) rfl rfl hbinds).2 rfl).trans rfl

end Treewalk
