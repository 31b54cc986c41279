import Treewalk.Proofs.Globals
import Treewalk.Proofs.Openers
import Treewalk.Proofs.Passing

/-!
# Bearings

Where code stands does not depend on whether rounds have scopes. The frames around it, those of
rounds left out, still lead to the scope that has declared a name, to the globals, and to the frame
that a function was declared in.
-/

namespace Treewalk

-- ---------------------------------------------------------------------------
-- Regimes in lives
-- ---------------------------------------------------------------------------

namespace Regime

/-- A regime without moments to be avoided holds between entries and calls of a host, and of all
that the host was given. -/
theorem Lawful.hosted {R : Regime} (hR : R.Lawful nowhere)
    (hstart : ∀ sources refusal clock, R.session (.start sources refusal clock))
    (h : Hosted units given s) : R.Accepts s ∧ ∀ v ∈ given, R.Holds s v := by
  -- What a run leaves, with the values that were there and the one that it gives.
  have leaves {t : Task} {s₀ s₁ s' : Session} {r : Except Halt t.Answer} {given : List Value}
      {fuel : Nat} (hs₀ : ∀ v ∈ given, R.Holds s₀ v) (hextends : s₀.Extends s₁)
      (hpre : R.contract.pre t s₁) (hrun : (worker fuel t).on s₁ = (r, s')) :
      R.Accepts s' ∧ (∀ v ∈ given, R.Holds s' v) ∧ ∀ a, r = .ok a → R.Answers t a s' := by
    have hkeeps : R.Keeps (worker fuel t) s₁ (R.Answers t) := hR.run hpre fun _ _ _ h => h
    have hleaves := hkeeps.leaves
    rw [hrun] at hleaves
    refine ⟨hleaves.1, fun v hv => hR.holds_mono (hextends.trans hleaves.2.grows) (hs₀ v hv), ?_⟩
    rintro a rfl
    exact (Triple.result hkeeps hrun).2.2
  induction h with
  | start => exact ⟨accepts_start (hstart _ _ _), by simp⟩
  | @entry units given s result s' entry fuel _ hrun ih =>
    cases hp : entry.prepared s.nextId with
    | error e =>
      rw [entry.on_run_error fuel hp] at hrun
      cases hrun
      exact ih
    | ok p =>
      have hchecked := entry.checked hp
      rw [entry.on_run_ok fuel hp] at hrun
      rcases hr : (worker fuel p.tree.task).on (s.commit p) with ⟨r, s₁⟩
      obtain ⟨haccepts, hgiven, hanswer⟩ :=
        leaves ih.2 (.commit hchecked) (hR.entered_contract ih.1 hchecked) hr
      rw [hr] at hrun
      cases hrun
      refine ⟨haccepts, fun v hv => ?_⟩
      rcases List.mem_append.1 hv with hnew | hold
      · cases r with
        | error halt => cases hnew
        | ok a =>
          have hshown : p.tree.shown a = some v := Option.mem_toList.1 hnew
          specialize hanswer a rfl
          clear hr hnew
          generalize p.tree = l at a hshown hanswer
          cases l with
          | statements body => cases hshown
          | expression e =>
            cases hshown
            exact hanswer
      · exact hgiven v hold
  | @call units given s callee arguments site result s' fuel _ hvalues hrun ih =>
    have hholds (v : Value) (hv : v ∈ callee :: arguments) : R.Holds s v :=
      (hvalues v hv).elim (ih.2 v) holds_plain
    have hready : R.Ready (.callValue callee site arguments) s :=
      ⟨hholds callee List.mem_cons_self, fun v hv => hholds v (List.mem_cons_of_mem _ hv)⟩
    obtain ⟨haccepts, hgiven, hanswer⟩ := leaves ih.2 (.refl s) ⟨ih.1, hready⟩ hrun
    refine ⟨haccepts, fun v hv => ?_⟩
    rcases List.mem_append.1 hv with hnew | hold
    · cases result with
      | error halt => cases hnew
      | ok a =>
        obtain rfl : a = v := Option.some.inj (Option.mem_toList.1 hnew)
        exact hanswer a rfl
    · exact hgiven v hold
  | @told units given s output clock _ ih =>
    have hextends : s.Extends { s with output := output, clock := clock } :=
      ⟨{ Session.Grows.refl s with }, Nat.le_refl _⟩
    exact ⟨hR.accepts_told ih.1 _ _, fun v hv => hR.holds_mono hextends (ih.2 v hv)⟩

end Regime

-- ---------------------------------------------------------------------------
-- Moments
-- ---------------------------------------------------------------------------

/-- What can be said of where code stands wherever a task may be carried out. -/
structure Lodged (units : List Line) (t : Task) (s : Session) : Prop where
  account : (Account.mk units False).contract.pre t s
  planted : (Kept.contract Session.Planted).pre t s
  homing : homing.contract.pre t s

namespace Lodged

variable {units : List Line} {s s' : Session}

theorem comesTo (h : Lodged units t s) (hm : ComesTo nowhere fuel t s t' s') :
    Lodged units t' s' where
  account := Account.comesTo (fun (h : False) _ _ _ => h.elim) h.account hm
  planted := kept_planted.toKept.comesTo h.planted hm
  homing := (homing_lawful nowhere).comesTo h.homing hm

theorem entered {p : Prepared Line} (hs : Hosted units given s) (hp : Checked s.nextId p) :
    Lodged (p.tree :: units) p.tree.task (s.commit p) where
  account := hs.atRest.accepts.entered hs.atRest.main hp
  planted := ⟨kept_planted.commit hp (kept_planted.hosted hs),
    Kept.starts_task Session.Planted p.tree hs.atRest.main⟩
  homing := (homing_lawful nowhere).entered_contract
    ((homing_lawful nowhere).hosted homing_start hs).1 hp

theorem called (hs : Hosted units given s)
    (hvalues : ∀ v ∈ callee :: arguments, v ∈ given ∨ v.Plain) (site : Site) :
    Lodged units (.callValue callee site arguments) s := by
  have hpoised := hs.atRest.called hvalues site
  obtain ⟨haccepts, hgiven⟩ := (homing_lawful nowhere).hosted homing_start hs
  have hholds (v : Value) (hv : v ∈ callee :: arguments) : Treewalk.homing.Holds s v :=
    (hvalues v hv).elim (hgiven v) Regime.holds_plain
  exact ⟨⟨hpoised.accepts, hpoised.ready⟩, ⟨kept_planted.hosted hs, trivial⟩, haccepts,
    hholds callee List.mem_cons_self, fun v hv => hholds v (List.mem_cons_of_mem _ hv)⟩

theorem here (h : Lodged units t s) : s.context.frame < s.frames.size :=
  h.homing.1.here

theorem globals (h : Lodged units t s) : s.IsGlobal s.context.globals :=
  h.homing.1.session.1

end Lodged

theorem Occurs.lodged (h : Occurs units t s) : Lodged units t s := by
  cases h with
  | entry hs hp hm => exact (Lodged.entered hs (Entry.checked _ hp)).comesTo hm
  | call hs hvalues hm => exact (Lodged.called hs hvalues _).comesTo hm

-- ---------------------------------------------------------------------------
-- Frames that are kept
-- ---------------------------------------------------------------------------

namespace Chain

variable {chosen : Stmt → Bool} {fs : Frames}

/-- A frame that is not that of a round is kept. -/
theorem unskipped (h : Chain fs top frame σ) (htop : fs.opener? top = none)
    (hhead : ∀ scope outer, σ = scope :: outer → scope.opener.isRound chosen = false) :
    fs.skip chosen frame = frame := by
  refine Frames.skip_of_not_round ?_
  cases h with
  | ends => rw [Frames.isRound, htop, Option.any_none]
  | opens hopener =>
    rw [Frames.isRound, hopener, Option.any_some]
    exact hhead _ _ rfl

/-- Looking for what has been declared leads to the frame at the distance of the name. -/
theorem scopeWithin {node : NodeId} (h : Chain fs top frame σ) (htop : fs.opener? top = none)
    (hnames : ∀ scope ∈ σ, scope.opener.isRound chosen = true → scope.names = [])
    (hsees : ∀ scope ∈ σ, scope.Sees node) (hreach : fs.skip chosen frame < reach) :
    (fs.abridged chosen).scopeWithin node name reach (fs.skip chosen frame) =
      (Scope.distance? σ.names name).bind (fs.ancestor? frame) := by
  induction h generalizing reach with
  | ends =>
    have hround : fs.isRound chosen top = false := by rw [Frames.isRound, htop, Option.any_none]
    obtain ⟨reach, rfl⟩ := Nat.exists_eq_succ_of_ne_zero (Nat.ne_zero_of_lt hreach)
    rw [Frames.skip_of_not_round hround, Frames.scopeWithin, Frames.opener?_abridged, hround, htop]
    rfl
  | @opens frame parent σ scope hopener hparent _ _ ih =>
    have hround : fs.isRound chosen frame = scope.opener.isRound chosen := by
      rw [Frames.isRound, hopener, Option.any_some]
    have further {reach : Nat} (hreach : fs.skip chosen parent < reach) :=
      ih (fun s hs => hnames s (List.mem_cons_of_mem _ hs))
        (fun s hs => hsees s (List.mem_cons_of_mem _ hs)) hreach
    -- Further outwards, the frame is one step less away from the parent.
    have outer : ((Scope.distance? σ.names name).map (· + 1)).bind (fs.ancestor? frame) =
        (Scope.distance? σ.names name).bind (fs.ancestor? parent) := by
      cases Scope.distance? σ.names name <;> simp [Frames.ancestor?, hparent]
    have hdistance : Scope.distance? (Stack.names (scope :: σ)) name =
        if (scope.names.lookup name).isSome then some 0
        else (Scope.distance? σ.names name).map (· + 1) := by
      rw [Stack.names, List.map_cons, Scope.distance?, List.findIdx?_cons]
      rfl
    cases hopens : scope.opener.isRound chosen with
    | true =>
      have hskip := Frames.skip_of_round (hround.trans hopens) hparent
      rw [hskip] at hreach ⊢
      rw [hdistance, hnames scope List.mem_cons_self hopens, further hreach]
      exact outer.symm
    | false =>
      have hskip := Frames.skip_of_not_round (hround.trans hopens)
      rw [hskip] at hreach ⊢
      obtain ⟨reach, rfl⟩ := Nat.exists_eq_succ_of_ne_zero (Nat.ne_zero_of_lt hreach)
      rw [hdistance, Frames.scopeWithin, Frames.opener?_abridged, Frames.parent?_abridged,
        hround.trans hopens, hopener, hparent]
      simp only [Bool.false_eq_true, if_false, Option.map_some]
      rw [← hsees scope List.mem_cons_self name]
      split
      · rfl
      · rw [outer]
        refine further ?_
        have hlt := Frames.parent?_lt hparent
        exact Nat.lt_of_le_of_lt (Frames.skip_le fs parent)
          (Nat.lt_of_lt_of_le hlt (Nat.le_of_lt_succ hreach))

end Chain

/-- The top level of a unit is not a scope. -/
theorem Account.Knows.no_opener {A : Account} (h : A.Knows s unit top) (hs : s.Planted) :
    s.frames.opener? top = none :=
  (hs.opener h.owner.isGlobal).2

namespace Account

variable {A : Account} {chosen : Stmt → Bool} {s : Session}

namespace Stands

/-- What declares a name, or makes a function, stands in no round. -/
theorem unskipped (h : A.Stands s σ p) (hs : s.Planted) (hp : ¬ p.Still) :
    s.frames.skip chosen s.context.frame = s.context.frame := by
  obtain ⟨unit, top, hknows, hinside, hchain, -⟩ := h
  refine hchain.unskipped (hknows.no_opener hs) fun scope outer hσ => ?_
  cases hround : scope.opener.isRound chosen with
  | false => rfl
  | true => exact absurd ((hinside.bare chosen).still scope outer hσ hround) hp

/-- Among the frames that are kept, looking for what has been declared leads to the frame at the
noted distance, if there is one. -/
theorem scopeOf {node : NodeId} (h : A.Stands s σ (.expression e)) (hs : s.Planted)
    (hr : e.refers? = some (node, name)) :
    (s.frames.abridged chosen).scopeOf? node name.lexeme (s.frames.skip chosen s.context.frame) =
      s.distances[node]?.bind (s.frames.ancestor? s.context.frame) := by
  have hdistance : s.distances[node]? = Scope.distance? σ.names name.lexeme :=
    Option.ext fun d => h.noted_iff hr
  obtain ⟨unit, top, hknows, hinside, hchain, -⟩ := h
  obtain ⟨notes, hunit, -⟩ := hknows.noted
  have hown : node ∈ e.ids := by
    refine (Piece.ids_perm σ (.expression e)).mem_iff.2 (List.mem_append_right _ ?_)
    simp [Piece.ownIds, hr]
  rw [hdistance]
  exact hchain.scopeWithin (hknows.no_opener hs) (hinside.bare chosen).names
    ((hinside.tells hunit).sees hown rfl) (Nat.lt_succ_self _)

end Stands

/-- The frames of functions are kept, -/
theorem Function.unskipped (h : A.Function s c) (hs : s.Planted) :
    s.frames.skip chosen c.frame = c.frame := by
  obtain ⟨unit, top, σ, hknows, hinside, hchain, -⟩ := h
  refine hchain.unskipped (hknows.no_opener hs) fun scope outer hσ => ?_
  cases hround : scope.opener.isRound chosen with
  | false => rfl
  | true => exact ((hinside.bare chosen).still scope outer hσ hround).elim

/-- and so are those of methods. -/
theorem Method.unskipped (h : A.Method s c) (hs : s.Planted) :
    s.frames.skip chosen c.frame = c.frame := by
  obtain ⟨unit, top, σ, hknows, hinside, hchain, -⟩ := h
  exact hchain.unskipped (hknows.no_opener hs) ((hinside.bare chosen).method _ _ _ rfl rfl).2

end Account

-- ---------------------------------------------------------------------------
-- The globals
-- ---------------------------------------------------------------------------

namespace Session.Planted

variable {chosen : Stmt → Bool} {s : Session}

theorem unskipped (hs : s.Planted) (h : s.IsGlobal globals) :
    s.frames.skip chosen globals = globals := by
  refine Frames.skip_of_not_round ?_
  rw [Frames.isRound, (hs.opener h).2, Option.any_none]

/-- A search from the globals goes the same way among the frames that are kept. -/
theorem holder_abridged (hs : s.Planted) (h : s.IsGlobal globals) (name : String) :
    (s.frames.abridged chosen).holder? globals name = s.frames.holder? globals name := by
  have kept {frame : FrameId} (hframe : s.IsGlobal frame) :
      (s.frames.abridged chosen).parent? frame =
        (s.frames.parent? frame).map (s.frames.skip chosen) := by
    rw [Frames.parent?_abridged, Frames.isRound, (hs.opener hframe).2]
    rfl
  have hroot : (s.frames.abridged chosen).parent? rootFrame = none := by
    rw [kept (.inl rfl), hs.top]
    rfl
  rw [Frames.holder?, Frames.holder?, Frames.holderWithin, Frames.holderWithin,
    Frames.bindings_abridged, kept h]
  split
  · rfl
  · cases hparent : s.frames.parent? globals with
    | none => rfl
    | some outer =>
      obtain rfl := hs.child _ _ (hs.opener h).2 hparent
      simp only [Option.map_some, hs.unskipped (.inl rfl)]
      cases globals with
      | zero => rfl
      | succ reach =>
        rw [Frames.holderWithin, Frames.holderWithin, Frames.bindings_abridged, hroot, hs.top]

theorem read_abridged (hs : s.Planted) (h : s.IsGlobal globals) (name : Token) :
    (s.frames.abridged chosen).read globals name = s.frames.read globals name := by
  simp only [Frames.read, Frames.get?, hs.holder_abridged h, Frames.getLocal?_abridged]

end Session.Planted

end Treewalk
