import Treewalk.Proofs.Distances
import Treewalk.Proofs.Renaming

/-!
# No name is captured

In some scopes of a unit a name is replaced by one that occurs nowhere in the unit. The walk then
goes as before: it accepts the unit, and notes for each node the distance that it noted before. A
node that led to a changed scope finds the new name there and in no scope before, because nothing
else has this name; all other nodes find what they found.
-/

namespace Treewalk

open Renamings (inside)

/-- The name `x` is replaced by `y`, or none is. -/
def Swaps (x y : String) (ρ : Renaming) : Prop :=
  ρ = 1 ∨ ρ = Equiv.swap x y

-- ---------------------------------------------------------------------------
-- Searching for a name
-- ---------------------------------------------------------------------------

namespace Scope

def renamedNames (ρ : Renaming) (names : Names) : Names :=
  names.map fun entry => (ρ entry.1, entry.2)

/-- The scopes with their names changed, by the renaming of each. -/
def renamed : Renamings → Scopes → Scopes
  | _, [] => []
  | env, names :: outer => renamedNames (env 0) names :: renamed (fun d => env (d + 1)) outer

theorem renamed_enter (env : Renamings) (name : String) (ready : Bool) (scopes : Scopes) :
    renamed env (enter name ready scopes) = enter (env 0 name) ready (renamed env scopes) := by
  cases scopes <;> rfl

theorem lookup_renamedNames (ρ : Renaming) (names : Names) (name : String) :
    (renamedNames ρ names).lookup (ρ name) = names.lookup name := by
  induction names with
  | nil => rfl
  | cons entry names ih =>
    have hbeq : (ρ name == ρ entry.1) = (name == entry.1) := by
      rw [Bool.eq_iff_iff, beq_iff_eq, beq_iff_eq, ρ.injective.eq_iff]
    show List.lookup (ρ name) ((ρ entry.1, entry.2) :: renamedNames ρ names) = _
    rw [List.lookup_cons, List.lookup_cons, hbeq, ih]

/-- No scope knows the name. -/
def Absent (y : String) (scopes : Scopes) : Prop :=
  ∀ names ∈ scopes, names.lookup y = none

variable {x y name : String} {env : Renamings} {scopes : Scopes} {names : Names}

theorem lookup_enter {entry : String × Bool} (h : names.lookup y = none) (hne : y ≠ entry.1) :
    List.lookup y (entry :: names) = none := by
  rw [List.lookup_cons, beq_false_of_ne hne]
  exact h

theorem Absent.enter (h : Absent y scopes) (hne : y ≠ name) (ready : Bool) :
    Absent y (enter name ready scopes) := by
  cases scopes with
  | nil => exact h
  | cons names outer =>
    rw [Absent, Scope.enter, List.forall_mem_cons]
    exact ⟨lookup_enter (h names (List.mem_cons_self ..)) hne,
      fun other hother => h other (List.mem_cons_of_mem _ hother)⟩

/-- A name that a scope does not know, it does not know under any other name either. -/
theorem lookup_renamedNames_none (hρ : Swaps x y ρ) (hτ : Swaps x y τ)
    (hy : names.lookup y = none) (hname : names.lookup name = none) (hne : name ≠ y) :
    (renamedNames ρ names).lookup (τ name) = none := by
  have hswap : names.lookup (Equiv.swap x y name) = none := by
    by_cases hx : name = x
    · rw [hx, Equiv.swap_apply_left, hy]
    · rw [Equiv.swap_apply_of_ne_of_ne hx hne, hname]
  rw [← ρ.apply_symm_apply (τ name), lookup_renamedNames]
  rcases hρ with rfl | rfl <;> rcases hτ with rfl | rfl
  · exact hname
  · exact hswap
  · rwa [Equiv.symm_swap]
  · rwa [Equiv.symm_apply_apply]

theorem found_succ (env : Renamings) (d : Option Nat) :
    env.found (d.map (· + 1)) = Renamings.found (fun d => env (d + 1)) d := by
  cases d <;> rfl

theorem found_swaps (henv : ∀ d, Swaps x y (env d)) (d : Option Nat) : Swaps x y (env.found d) := by
  cases d with
  | none => exact .inl rfl
  | some d => exact henv d

theorem distance?_cons (names : Names) (outer : Scopes) (name : String) :
    distance? (names :: outer) name =
      if (names.lookup name).isSome then some 0 else (distance? outer name).map (· + 1) := by
  unfold distance?
  rw [List.findIdx?_cons]

/-- What leads to a scope still leads to it, under the name that it has there. -/
theorem distance?_renamed (henv : ∀ d, Swaps x y (env d)) (hy : Absent y scopes) (hne : name ≠ y) :
    distance? (renamed env scopes) (env.found (distance? scopes name) name) =
      distance? scopes name := by
  induction scopes generalizing env with
  | nil => rfl
  | cons names outer ih =>
    rw [Absent, List.forall_mem_cons] at hy
    rw [renamed, distance?_cons, distance?_cons]
    cases hname : names.lookup name with
    | some ready =>
      have hfound : (renamedNames (env 0) names).lookup (env.found (some 0) name) = some ready := by
        rw [← hname]
        exact lookup_renamedNames _ _ _
      rw [Option.isSome_some, if_pos rfl, hfound, Option.isSome_some, if_pos rfl]
    | none =>
      rw [Option.isSome_none, if_neg Bool.false_ne_true, found_succ]
      have hnone := lookup_renamedNames_none (henv 0)
        (found_swaps (fun d => henv (d + 1)) (distance? outer name)) hy.1 hname hne
      rw [hnone, Option.isSome_none, if_neg Bool.false_ne_true, ih (fun d => henv (d + 1)) hy.2]

theorem isPending_renamed (henv : ∀ d, Swaps x y (env d)) (hy : Absent y scopes) (hne : name ≠ y)
    (h : isPending scopes name = false) :
    isPending (renamed env scopes) (env.found (distance? scopes name) name) = false := by
  cases scopes with
  | nil => rfl
  | cons names outer =>
    have hlookup : names.lookup name ≠ some false := by
      simpa [isPending] using h
    suffices (renamedNames (env 0) names).lookup
        (env.found (distance? (names :: outer) name) name) ≠ some false by
      simpa [isPending, renamed] using this
    rw [Absent, List.forall_mem_cons] at hy
    rw [distance?_cons]
    cases hname : names.lookup name with
    | some ready =>
      rw [Option.isSome_some, if_pos rfl]
      show (renamedNames (env 0) names).lookup (env 0 name) ≠ some false
      rwa [lookup_renamedNames]
    | none =>
      rw [Option.isSome_none, if_neg Bool.false_ne_true,
        lookup_renamedNames_none (henv 0) (found_swaps henv _) hy.1 hname hne]
      exact (Option.some_ne_none _).symm

end Scope

-- ---------------------------------------------------------------------------
-- Pieces that are spared a name
-- ---------------------------------------------------------------------------

def Piece.names : Piece → List String
  | .statements body => Stmt.namesOfAll body
  | .statement s => s.names
  | .expression e => e.names
  | .routine r => r.names

theorem Expr.namesOfAll_eq (es : List Expr) : Expr.namesOfAll es = es.flatMap Expr.names := by
  induction es with
  | nil => rfl
  | cons e es ih => rw [Expr.namesOfAll, ih, List.flatMap_cons]

theorem Routine.namesOfAll_eq (rs : List Routine) :
    Routine.namesOfAll rs = rs.flatMap Routine.names := by
  induction rs with
  | nil => rfl
  | cons r rs ih => rw [Routine.namesOfAll, ih, List.flatMap_cons]

theorem Expr.names_part {e : Expr} (h : part ∈ e.parts) : part.names ⊆ e.names := by
  intro name hname
  cases e <;> simp only [Expr.parts, List.not_mem_nil, List.mem_cons, or_false] at h
  case call callee paren arguments =>
    rw [Expr.names, List.mem_append, Expr.namesOfAll_eq]
    rcases h with rfl | h
    · exact .inl hname
    · exact .inr (List.mem_flatMap_of_mem h hname)
  case array elements =>
    rw [Expr.names, Expr.namesOfAll_eq]
    exact List.mem_flatMap_of_mem h hname
  all_goals
    simp only [Expr.names, List.mem_append]
    aesop

/-- The name `y` occurs neither in the piece nor in the scopes around it, and the notes for the
piece are known. -/
structure Spared (notes : List Scope.Note) (y : String) (σ : Stack) (p : Piece) : Prop where
  analysed : Analysed notes σ p
  absent : Scope.Absent y σ.names
  names : y ∉ p.names

namespace Spared

variable {notes : List Scope.Note} {y : String} {σ σ' : Stack}

theorem absent_after (h : Scope.Absent y σ.names) :
    ∀ s : Stmt, y ∉ s.names → Scope.Absent y (σ.after s).names
  | .var name initial, hy => by
    rw [Stmt.names, List.mem_cons, not_or] at hy
    rw [Stack.after, Stack.names_enter, Stack.names_enter]
    exact (h.enter hy.1 false).enter hy.1 true
  | .function routine, hy | .classDecl name _ _, hy => by
    rw [Stmt.names, List.mem_cons, not_or] at hy
    rw [Stack.after, Stack.names_enter]
    exact h.enter hy.1 true
  | .exportDecl _ declaration, hy => absent_after h declaration hy
  | .expression _, _ | .print _, _ | .block _, _ | .ifElse _ _ _, _ | .whileLoop _ _, _
  | .breakLoop _, _ | .returnValue _ _, _ | .importModule _ _, _ => h

theorem absent_cons {scopes : Scope.Scopes} {names : Scope.Names} (h : Scope.Absent y scopes)
    (hnames : names.lookup y = none) : Scope.Absent y (names :: scopes) :=
  List.forall_mem_cons.2 ⟨hnames, h⟩

theorem absent_receiver {scopes : Scope.Scopes} (h : Scope.Absent y scopes) (hthis : y ≠ "this") :
    Scope.Absent y ([("this", true)] :: scopes) :=
  absent_cons h (Scope.lookup_enter rfl hthis)

theorem absent_call (h : Scope.Absent y σ.names) (r : Routine) (hy : y ∉ r.names) :
    Scope.Absent y (σ.call r).names := by
  obtain ⟨name, params, body⟩ := r
  rw [Routine.names, List.mem_append, not_or] at hy
  refine absent_cons h (List.lookup_eq_none_iff.2 fun entry hentry => ?_)
  obtain ⟨param, hparam, rfl⟩ := List.mem_map.1 hentry
  refine bne_iff_ne.2 fun heq => hy.1 ?_
  exact heq ▸ List.mem_map_of_mem hparam

theorem part_stmt (hthis : y ≠ "this") (h : Scope.Absent y σ.names) {s : Stmt} (hy : y ∉ s.names)
    (hq : (σ', q) ∈ s.parts σ) : Scope.Absent y σ'.names ∧ y ∉ q.names := by
  cases s with
  | expression e | print e | exportDecl keyword e =>
    cases List.mem_singleton.1 hq
    exact ⟨h, hy⟩
  | var name initial =>
    cases initial with
    | none => cases hq
    | some e =>
      rw [Stmt.names, List.mem_cons, not_or] at hy
      cases List.mem_singleton.1 hq
      rw [Stack.names_enter]
      exact ⟨h.enter hy.1 false, hy.2⟩
  | block body =>
    cases List.mem_singleton.1 hq
    exact ⟨absent_cons h rfl, hy⟩
  | ifElse condition yes no =>
    cases no with
    | none =>
      rw [Stmt.names, List.mem_append, not_or] at hy
      simp only [Stmt.parts, List.mem_cons, List.not_mem_nil, or_false, Prod.mk.injEq] at hq
      obtain ⟨rfl, rfl⟩ | ⟨rfl, rfl⟩ := hq
      · exact ⟨h, hy.1⟩
      · exact ⟨h, hy.2⟩
    | some no =>
      rw [Stmt.names, List.mem_append, List.mem_append, not_or, not_or] at hy
      simp only [Stmt.parts, List.mem_cons, List.not_mem_nil, or_false, Prod.mk.injEq] at hq
      obtain ⟨rfl, rfl⟩ | ⟨rfl, rfl⟩ | ⟨rfl, rfl⟩ := hq
      · exact ⟨h, hy.1.1⟩
      · exact ⟨h, hy.1.2⟩
      · exact ⟨h, hy.2⟩
  | whileLoop condition body =>
    rw [Stmt.names, List.mem_append, not_or] at hy
    simp only [Stmt.parts, List.mem_cons, List.not_mem_nil, or_false, Prod.mk.injEq] at hq
    obtain ⟨rfl, rfl⟩ | ⟨rfl, rfl⟩ := hq
    · exact ⟨h, hy.1⟩
    · exact ⟨h, hy.2⟩
  | function routine =>
    rw [Stmt.names, List.mem_cons, not_or] at hy
    cases List.mem_singleton.1 hq
    rw [Stack.names_enter]
    exact ⟨h.enter hy.1 true, hy.2⟩
  | classDecl name methods classMethods =>
    rw [Stmt.names, List.mem_cons, not_or] at hy
    obtain ⟨r, hr, heq⟩ := List.mem_map.1 hq
    cases heq
    rw [Stack.names_receiver, Stack.names_enter]
    refine ⟨absent_receiver (h.enter hy.1 true) hthis, fun hmem => hy.2 ?_⟩
    rw [Routine.namesOfAll_eq, Routine.namesOfAll_eq, ← List.flatMap_append]
    exact List.mem_flatMap_of_mem hr hmem
  | returnValue keyword value =>
    cases value with
    | none => cases hq
    | some e =>
      cases List.mem_singleton.1 hq
      exact ⟨h, hy⟩
  | breakLoop | importModule => cases hq

theorem part (hthis : y ≠ "this") (h : Spared notes y σ p) (hq : (σ', q) ∈ p.parts σ) :
    Spared notes y σ' q := by
  obtain ⟨hanalysed, habsent, hnames⟩ := h
  suffices Scope.Absent y σ'.names ∧ y ∉ q.names from ⟨hanalysed.part hq, this.1, this.2⟩
  cases p with
  | statements body =>
    cases body with
    | nil => cases hq
    | cons s rest =>
      rw [Piece.names, Stmt.namesOfAll, List.mem_append, not_or] at hnames
      simp only [Piece.parts, List.mem_cons, List.not_mem_nil, or_false, Prod.mk.injEq] at hq
      obtain ⟨rfl, rfl⟩ | ⟨rfl, rfl⟩ := hq
      · exact ⟨habsent, hnames.1⟩
      · exact ⟨absent_after habsent s hnames.1, hnames.2⟩
  | statement s => exact part_stmt hthis habsent hnames hq
  | expression e =>
    obtain ⟨part, hpart, heq⟩ := List.mem_map.1 hq
    cases heq
    exact ⟨habsent, fun h => hnames (Expr.names_part hpart h)⟩
  | routine r =>
    obtain ⟨rfl, rfl⟩ : σ' = σ.call r ∧ q = .statements r.body := by
      simpa [Piece.parts] using hq
    refine ⟨absent_call habsent r hnames, fun h => hnames ?_⟩
    obtain ⟨name, params, body⟩ := r
    exact List.mem_append_right _ h

end Spared

-- ---------------------------------------------------------------------------
-- Walking over trees alike
-- ---------------------------------------------------------------------------

/-- Every node stands for itself, with the distance that is noted for it. -/
def Pairing.Follows (N : Pairing) (notes : List Scope.Note) : Prop :=
  ∀ i j d, N i j d → j = i ∧ ∀ d', d = some d' ↔ (i, d') ∈ notes

section
variable {N : Pairing} {notes : List Scope.Note} {x y : String} {σ : Stack} {env : Renamings}
  {around : Scope.Surroundings}

theorem Scope.noteFor_renamed {scopes : Scopes} (henv : ∀ d, Swaps x y (env d))
    (hy : Absent y scopes) (hne : name ≠ y) (node : NodeId) :
    noteFor (renamed env scopes) node (env.found (distance? scopes name) name) =
      noteFor scopes node name := by
  unfold noteFor
  rw [distance?_renamed henv hy hne]

theorem Spared.distance?_eq (hN : N.Follows notes) (h : Spared notes y σ (.expression e))
    (hr : e.refers? = some (node, name)) (hnode : N node node' d) :
    d = Scope.distance? σ.names name.lexeme :=
  Option.ext fun d' => ((hN _ _ _ hnode).2 d').trans (h.analysed.noted hr d')

/-- One of the parts of an expression. -/
theorem Spared.inner {e : Expr} (hthis : y ≠ "this") (h : Spared notes y σ (.expression e)) :
    ∀ e' ∈ e.parts, Spared notes y σ (.expression e') :=
  fun _ hpart => h.part hthis (List.mem_map_of_mem hpart)

mutual

theorem Expr.Like.walks (hN : N.Follows notes) (hthis : y ≠ "this")
    (henv : ∀ d, Swaps x y (env d)) (h : Expr.Like N env e e') :
    ∀ own, Spared notes y σ (.expression e) → Scope.walkExpr around σ.names e = .ok own →
      Scope.walkExpr around (Scope.renamed env σ.names) e' = .ok own := by
  cases h with
  | literal => exact fun _ _ h => h
  | group h | unary _ h | get _ h =>
    intro own hspared hwalk
    have hparts := hspared.inner hthis
    exact h.walks hN hthis henv own (hparts _ (List.mem_singleton_self _)) hwalk
  | binary _ h₁ h₂ | logical _ h₁ h₂ | index _ h₁ h₂ =>
    intro own hspared hwalk
    have hparts := hspared.inner hthis
    simp only [Expr.parts, List.forall_mem_cons] at hparts
    simp only [Scope.walkExpr, bind_eq_ok, pure_eq_ok] at hwalk ⊢
    obtain ⟨first, hfirst, second, hsecond, rfl⟩ := hwalk
    exact ⟨first, h₁.walks hN hthis henv first hparts.1 hfirst, second,
      h₂.walks hN hthis henv second hparts.2.1 hsecond, rfl⟩
  | set _ h₁ h₂ =>
    intro own hspared hwalk
    have hparts := hspared.inner hthis
    simp only [Expr.parts, List.forall_mem_cons] at hparts
    simp only [Scope.walkExpr, bind_eq_ok, pure_eq_ok] at hwalk ⊢
    obtain ⟨first, hfirst, second, hsecond, rfl⟩ := hwalk
    exact ⟨first, h₂.walks hN hthis henv first hparts.1 hfirst, second,
      h₁.walks hN hthis henv second hparts.2.1 hsecond, rfl⟩
  | conditional h₁ h₂ h₃ =>
    intro own hspared hwalk
    have hparts := hspared.inner hthis
    simp only [Expr.parts, List.forall_mem_cons] at hparts
    simp only [Scope.walkExpr, bind_eq_ok, pure_eq_ok] at hwalk ⊢
    obtain ⟨first, hfirst, second, hsecond, third, hthird, rfl⟩ := hwalk
    exact ⟨first, h₁.walks hN hthis henv first hparts.1 hfirst, second,
      h₂.walks hN hthis henv second hparts.2.1 hsecond, third,
      h₃.walks hN hthis henv third hparts.2.2.1 hthird, rfl⟩
  | var name hnode =>
    intro own hspared hwalk
    obtain rfl := (hN _ _ _ hnode).1
    have hne : name.lexeme ≠ y := fun heq => hspared.names (List.mem_singleton.2 heq.symm)
    obtain rfl := hspared.distance?_eq hN rfl hnode
    simp only [Scope.walkExpr] at hwalk ⊢
    split at hwalk
    · cases hwalk
    · next hpending =>
      rw [Bool.not_eq_true] at hpending
      rw [Token.lexeme_renamed, Scope.isPending_renamed henv hspared.absent hne hpending,
        Scope.noteFor_renamed henv hspared.absent hne]
      exact hwalk
  | assign name hnode h =>
    intro own hspared hwalk
    obtain rfl := (hN _ _ _ hnode).1
    have hnames := hspared.names
    rw [Piece.names, Expr.names, List.mem_append, List.mem_singleton, not_or] at hnames
    obtain rfl := hspared.distance?_eq hN rfl hnode
    have hparts := hspared.inner hthis
    simp only [Scope.walkExpr, bind_eq_ok, pure_eq_ok] at hwalk ⊢
    obtain ⟨inner, hinner, rfl⟩ := hwalk
    refine ⟨inner, h.walks hN hthis henv inner (hparts _ (List.mem_singleton_self _)) hinner, ?_⟩
    rw [Token.lexeme_renamed, Scope.noteFor_renamed henv hspared.absent (Ne.symm hnames.2)]
  | this keyword hnode =>
    intro own hspared hwalk
    obtain rfl := (hN _ _ _ hnode).1
    have hne : keyword.lexeme ≠ y := by
      rw [show keyword.lexeme = "this" from hspared.analysed.proper]
      exact hthis.symm
    obtain rfl := hspared.distance?_eq hN rfl hnode
    simp only [Scope.walkExpr] at hwalk ⊢
    split at hwalk
    · next hclass =>
      rw [if_pos hclass, Token.lexeme_renamed, Scope.noteFor_renamed henv hspared.absent hne]
      exact hwalk
    · cases hwalk
  | call _ h hs =>
    intro own hspared hwalk
    have hparts := hspared.inner hthis
    simp only [Expr.parts, List.forall_mem_cons] at hparts
    simp only [Scope.walkExpr, bind_eq_ok, pure_eq_ok] at hwalk ⊢
    obtain ⟨first, hfirst, more, hmore, rfl⟩ := hwalk
    exact ⟨first, h.walks hN hthis henv first hparts.1 hfirst, more,
      hs.walks hN hthis henv more hparts.2 hmore, rfl⟩
  | array hs =>
    intro own hspared hwalk
    exact hs.walks hN hthis henv own (hspared.inner hthis) hwalk

theorem Expr.AllLike.walks (hN : N.Follows notes) (hthis : y ≠ "this")
    (henv : ∀ d, Swaps x y (env d)) (h : Expr.AllLike N env es es') :
    ∀ own, (∀ e ∈ es, Spared notes y σ (.expression e)) →
      Scope.walkExprs around σ.names es = .ok own →
      Scope.walkExprs around (Scope.renamed env σ.names) es' = .ok own := by
  cases h with
  | nil => exact fun _ _ h => h
  | cons h hs =>
    intro own hspared hwalk
    simp only [Scope.walkExprs, bind_eq_ok, pure_eq_ok] at hwalk ⊢
    obtain ⟨first, hfirst, more, hmore, rfl⟩ := hwalk
    rw [List.forall_mem_cons] at hspared
    exact ⟨first, h.walks hN hthis henv first hspared.1 hfirst, more,
      hs.walks hN hthis henv more hspared.2 hmore, rfl⟩

end

theorem Expr.optionLike_walks (hN : N.Follows notes) (hthis : y ≠ "this")
    (henv : ∀ d, Swaps x y (env d)) (h : Option.Rel (Expr.Like N env) e? e'?)
    (hspared : ∀ e, e? = some e → Spared notes y σ (.expression e))
    (hwalk : Scope.walkOption around σ.names e? = .ok own) :
    Scope.walkOption around (Scope.renamed env σ.names) e'? = .ok own := by
  cases h with
  | none => exact hwalk
  | some h => exact h.walks hN hthis henv own (hspared _ rfl) hwalk

theorem Scope.names_renamed (ρ : Renaming) (params : Option (List Token)) :
    (((params.map (List.map (Token.renamed ρ))).getD []).map fun p => (p.lexeme, true)) =
      renamedNames ρ ((params.getD []).map fun p => (p.lexeme, true)) := by
  cases params with
  | none => rfl
  | some params =>
    simp only [Option.map_some, Option.getD_some, renamedNames, List.map_map]
    rfl

mutual

/-- Behind a statement that is like another, the scopes differ as they did before. -/
theorem Stmt.Like.walks {env : Renamings} {s s' : Stmt} (hN : N.Follows notes) (hthis : y ≠ "this")
    (h : Stmt.Like (Swaps x y) N env s s') :
    ∀ {σ around after own}, (∀ d, Swaps x y (env d)) → Spared notes y σ (.statement s) →
      Scope.walkStmt around σ.names s = .ok (after, own) →
      Scope.walkStmt around (Scope.renamed env σ.names) s' =
        .ok (Scope.renamed env after, own) := by
  cases h with
  | expression h | print h =>
    intro σ around after own henv hspared hwalk
    simp only [Scope.walkStmt, bind_eq_ok, pure_eq_ok] at hwalk ⊢
    obtain ⟨inner, he, heq⟩ := hwalk
    cases heq
    have hpart := hspared.part hthis (List.mem_singleton_self _)
    exact ⟨_, h.walks hN hthis henv _ hpart he, rfl⟩
  | var name h =>
    intro σ around after own henv hspared hwalk
    simp only [Scope.walkStmt, bind_eq_ok, pure_eq_ok] at hwalk ⊢
    obtain ⟨inner, hinitial, heq⟩ := hwalk
    cases heq
    rw [← Stack.names_enter] at hinitial
    refine ⟨own, ?_, ?_⟩
    · rw [Token.lexeme_renamed, ← Scope.renamed_enter, ← Stack.names_enter]
      refine Expr.optionLike_walks hN hthis henv h ?_ hinitial
      rintro e rfl
      exact hspared.part hthis (List.mem_singleton_self _)
    · rw [Scope.renamed_enter, Scope.renamed_enter, Token.lexeme_renamed]
  | block hρ h =>
    intro σ around after own henv hspared hwalk
    simp only [Scope.walkStmt, bind_eq_ok, pure_eq_ok] at hwalk ⊢
    obtain ⟨⟨last, inner⟩, hbody, heq⟩ := hwalk
    cases heq
    rw [← Stack.names_block] at hbody
    have hinside := h.walks hN hthis (Renamings.inside_names hρ henv)
      (hspared.part hthis (List.mem_singleton_self _)) hbody
    exact ⟨_, hinside, rfl⟩
  | ifOnly h h₁ =>
    intro σ around after own henv hspared hwalk
    have hcondition := hspared.part hthis (List.mem_cons_self ..)
    have hyes := hspared.part hthis (List.mem_cons_of_mem _ (List.mem_singleton_self _))
    simp only [Scope.walkStmt, bind_eq_ok, pure_eq_ok] at hwalk ⊢
    obtain ⟨first, hfirst, ⟨afterYes, second⟩, hsecond, heq⟩ := hwalk
    cases heq
    exact ⟨first, h.walks hN hthis henv first hcondition hfirst, _,
      h₁.walks hN hthis henv hyes hsecond, rfl⟩
  | ifElse h h₁ h₂ =>
    intro σ around after own henv hspared hwalk
    have hproper := hspared.analysed.proper.1
    have hcondition := hspared.part hthis (List.mem_cons_self ..)
    have hyes := hspared.part hthis (List.mem_cons_of_mem _ (List.mem_cons_self ..))
    have hno := hspared.part hthis
      (List.mem_cons_of_mem _ (List.mem_cons_of_mem _ (List.mem_singleton_self _)))
    simp only [Scope.walkStmt, bind_eq_ok, pure_eq_ok] at hwalk ⊢
    obtain ⟨first, hfirst, ⟨afterYes, second⟩, hsecond, ⟨afterNo, third⟩, hthird, heq⟩ := hwalk
    cases heq
    -- The first branch declares nothing, so the second is walked in the same scopes.
    have hsame := walkStmt_after _ hproper.2.1 hsecond
    rw [Stack.after_of_declares_none σ hproper.1] at hsame
    subst hsame
    exact ⟨first, h.walks hN hthis henv first hcondition hfirst, _,
      h₁.walks hN hthis henv hyes hsecond, _, h₂.walks hN hthis henv hno hthird, rfl⟩
  | whileLoop h h₁ =>
    intro σ around after own henv hspared hwalk
    have hcondition := hspared.part hthis (List.mem_cons_self ..)
    have hbody := hspared.part hthis (List.mem_cons_of_mem _ (List.mem_singleton_self _))
    simp only [Scope.walkStmt, bind_eq_ok, pure_eq_ok] at hwalk ⊢
    obtain ⟨first, hfirst, ⟨afterBody, second⟩, hsecond, heq⟩ := hwalk
    cases heq
    exact ⟨first, h.walks hN hthis henv first hcondition hfirst, _,
      h₁.walks hN hthis henv hbody hsecond, rfl⟩
  | breakLoop keyword =>
    intro σ around after own _ _ hwalk
    simp only [Scope.walkStmt] at hwalk ⊢
    split at hwalk
    · next hloop =>
      cases hwalk
      rw [if_pos hloop]
      rfl
    · cases hwalk
  | function hname h =>
    intro σ around after own henv hspared hwalk
    have hpart := hspared.part hthis (List.mem_singleton_self _)
    simp only [Scope.walkStmt, bind_eq_ok, pure_eq_ok] at hwalk ⊢
    obtain ⟨inner, hinner, heq⟩ := hwalk
    cases heq
    rw [← Stack.names_enter] at hinner
    have hroutine := h.walks hN hthis henv hpart hinner
    rw [Stack.names_enter, Scope.renamed_enter, hname] at hroutine
    rw [h.name, Scope.renamed_enter, hname]
    exact ⟨_, hroutine, rfl⟩
  | @classDecl _ _ _ _ _ name hname h₁ h₂ =>
    intro σ around after own henv hspared hwalk
    simp only [Scope.walkStmt, bind_eq_ok, pure_eq_ok] at hwalk ⊢
    obtain ⟨first, hfirst, second, hsecond, heq⟩ := hwalk
    cases heq
    rw [← Stack.names_enter] at hfirst hsecond
    have hinside : ∀ d, Swaps x y (inside 1 env d) := Renamings.inside_names (.inl rfl) henv
    have hmethods := h₁.walks hN hthis hinside
      (fun r hr => hspared.part hthis (List.mem_map_of_mem (List.mem_append_left _ hr))) hfirst
    have hclassMethods := h₂.walks hN hthis hinside
      (fun r hr => hspared.part hthis (List.mem_map_of_mem (List.mem_append_right _ hr))) hsecond
    have hreceiver : Scope.renamed (inside 1 env)
        ([("this", true)] :: (Stack.enter name.lexeme true σ).names) =
          [("this", true)] :: Scope.enter name.lexeme true (Scope.renamed env σ.names) := by
      show [("this", true)] :: Scope.renamed env (Stack.enter name.lexeme true σ).names = _
      rw [Stack.names_enter, Scope.renamed_enter, hname]
    rw [hreceiver] at hmethods hclassMethods
    rw [Scope.renamed_enter, hname]
    exact ⟨_, hmethods, _, hclassMethods, rfl⟩
  | returnValue keyword h =>
    intro σ around after own henv hspared hwalk
    simp only [Scope.walkStmt] at hwalk ⊢
    split at hwalk
    · next hfunction =>
      simp only [bind_eq_ok, pure_eq_ok] at hwalk
      obtain ⟨inner, hinner, heq⟩ := hwalk
      cases heq
      have hvalue := Expr.optionLike_walks hN hthis henv h (fun e he => by
        subst he
        exact hspared.part hthis (List.mem_singleton_self _)) hinner
      simp only [if_pos hfunction, bind_eq_ok, pure_eq_ok]
      exact ⟨_, hvalue, rfl⟩
    · cases hwalk
  | importModule keyword path =>
    intro σ around after own _ _ hwalk
    cases hwalk
    rfl
  | exportDecl keyword _ h =>
    intro σ around after own henv hspared hwalk
    exact h.walks hN hthis henv (hspared.part hthis (List.mem_singleton_self _)) hwalk
termination_by sizeOf s
decreasing_by all_goals subst_vars; simp_wf <;> omega

theorem Stmt.AllLike.walks {env : Renamings} {body body' : List Stmt} (hN : N.Follows notes)
    (hthis : y ≠ "this")
    (h : Stmt.AllLike (Swaps x y) N env body body') :
    ∀ {σ around after own}, (∀ d, Swaps x y (env d)) → Spared notes y σ (.statements body) →
      Scope.walkStmts around σ.names body = .ok (after, own) →
      Scope.walkStmts around (Scope.renamed env σ.names) body' =
        .ok (Scope.renamed env after, own) := by
  cases h with
  | nil =>
    intro σ around after own _ _ hwalk
    cases hwalk
    rfl
  | cons h hrest =>
    intro σ around after own henv hspared hwalk
    simp only [Scope.walkStmts, bind_eq_ok, pure_eq_ok] at hwalk ⊢
    obtain ⟨⟨between, first⟩, hfirst, ⟨last, more⟩, hmore, heq⟩ := hwalk
    cases heq
    have hhead := hspared.part hthis (List.mem_cons_self ..)
    have htail := hspared.part hthis (List.mem_cons_of_mem _ (List.mem_singleton_self _))
    obtain rfl := walkStmt_after _ hhead.analysed.proper.1 hfirst
    exact ⟨_, h.walks hN hthis henv hhead hfirst, _, hrest.walks hN hthis henv htail hmore, rfl⟩
termination_by sizeOf body
decreasing_by all_goals subst_vars; simp_wf <;> omega

theorem Routine.Like.walks {env : Renamings} {r r' : Routine} (hN : N.Follows notes)
    (hthis : y ≠ "this")
    (h : Routine.Like (Swaps x y) N env r r') :
    ∀ {σ around own}, (∀ d, Swaps x y (env d)) → Spared notes y σ (.routine r) →
      Scope.walkRoutine around σ.names r = .ok own →
      Scope.walkRoutine around (Scope.renamed env σ.names) r' = .ok own := by
  cases h with
  | intro name params hρ h =>
    intro σ around own henv hspared hwalk
    simp only [Scope.walkRoutine, bind_eq_ok, pure_eq_ok] at hwalk ⊢
    obtain ⟨⟨last, inner⟩, hbody, heq⟩ := hwalk
    cases heq
    rw [Scope.names_renamed]
    exact ⟨_, h.walks hN hthis (Renamings.inside_names hρ henv)
      (hspared.part hthis (List.mem_singleton_self _)) hbody, rfl⟩
termination_by sizeOf r
decreasing_by all_goals subst_vars; simp_wf

theorem Routine.AllLike.walks {env : Renamings} {rs rs' : List Routine} (hN : N.Follows notes)
    (hthis : y ≠ "this")
    (h : Routine.AllLike (Swaps x y) N env rs rs') :
    ∀ {σ around own}, (∀ d, Swaps x y (env d)) →
      (∀ r ∈ rs, Spared notes y (Stack.receiver σ r) (.routine r)) →
      Scope.walkRoutines around ([("this", true)] :: σ.names) rs = .ok own →
      Scope.walkRoutines around (Scope.renamed env ([("this", true)] :: σ.names)) rs' =
        .ok own := by
  cases h with
  | nil => exact fun _ _ h => h
  | cons h hrest =>
    intro σ around own henv hspared hwalk
    simp only [Scope.walkRoutines, bind_eq_ok, pure_eq_ok] at hwalk ⊢
    obtain ⟨first, hfirst, more, hmore, rfl⟩ := hwalk
    rw [List.forall_mem_cons] at hspared
    exact ⟨first, h.walks hN hthis henv hspared.1 hfirst, more,
      hrest.walks hN hthis henv hspared.2 hmore, rfl⟩
termination_by sizeOf rs
decreasing_by all_goals subst_vars; simp_wf <;> omega

end

end

theorem Line.names_piece (l : Line) : l.piece.names = l.names := by
  cases l <;> rfl

/-- The unit in which a name is replaced in some scopes by one that occurs nowhere is accepted, with
the same notes. -/
theorem Line.Like.walks (hN : N.Follows p.notes) (hthis : y ≠ "this") (hp : Checked start p)
    (hy : y ∉ p.tree.names) (h : Line.Like (Swaps x y) N p.tree l) :
    Prepared.walkLine l = .ok p.notes := by
  have hwalk := hp.walked
  have hspared : Spared p.notes y [] p.tree.piece := {
    analysed := hp.analysed
    absent := by
      intro names hnames
      cases hnames
    names := by rwa [Line.names_piece] }
  have hplain : ∀ d, Swaps x y (Renamings.plain d) := fun _ => .inl rfl
  generalize p.tree = tree at h hwalk hspared
  cases h with
  | statements h =>
    simp only [Prepared.walkLine, Scope.program, bind_eq_ok, pure_eq_ok] at hwalk ⊢
    obtain ⟨⟨after, notes⟩, hbody, rfl⟩ := hwalk
    exact ⟨_, h.walks hN hthis hplain hspared hbody, rfl⟩
  | expression h => exact h.walks hN hthis hplain p.notes hspared hwalk

end Treewalk
