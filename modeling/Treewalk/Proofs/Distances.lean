import Treewalk.Proofs.Places

/-!
# What is noted for a node

The walk that notes distances follows the places of the pieces: what it notes for a node is the
distance, in the stack that the node stands in, of the name that the node refers to. A name that is
read there has its value by then.
-/

namespace Treewalk

-- ---------------------------------------------------------------------------
-- The walk, piece by piece
-- ---------------------------------------------------------------------------

theorem bind_eq_ok {x : Except ε α} {f : α → Except ε β} :
    (x >>= f) = .ok b ↔ ∃ a, x = .ok a ∧ f a = .ok b := by
  cases x with
  | error e => exact ⟨fun h => (nomatch h), fun ⟨_, h, _⟩ => (nomatch h)⟩
  | ok a => exact ⟨fun h => ⟨a, rfl, h⟩, fun ⟨_, h, hf⟩ => by cases h; exact hf⟩

theorem bind_eq_error {x : Except ε α} {f : α → Except ε β} :
    x >>= f = .error e ↔ x = .error e ∨ ∃ a, x = .ok a ∧ f a = .error e := by
  cases x with
  | error e' => simp [bind, Except.bind]
  | ok a => simp [bind, Except.bind]

theorem pure_eq_ok : (pure a : Except ε α) = .ok b ↔ a = b :=
  ⟨fun h => by cases h; rfl, fun h => by rw [h]; rfl⟩

theorem map_eq_ok {f : α → β} {x : Except ε α} :
    f <$> x = .ok b ↔ ∃ a, x = .ok a ∧ f a = b := by
  rw [map_eq_pure_bind, bind_eq_ok]
  simp only [pure_eq_ok]

def Piece.walk (around : Scope.Surroundings) (scopes : Scope.Scopes) :
    Piece → Except Error (List Scope.Note)
  | .statements body => do return (← Scope.walkStmts around scopes body).2
  | .statement s => do return (← Scope.walkStmt around scopes s).2
  | .expression e => Scope.walkExpr around scopes e
  | .routine r => Scope.walkRoutine around scopes r

/-- The walk accepts the piece inside `σ`, in some surroundings, with the given notes. -/
def Walks (σ : Stack) (p : Piece) (own : List Scope.Note) : Prop :=
  ∃ around, p.walk around σ.names = .ok own

/-- The walk accepts each of the pieces, and these are the notes of all. -/
inductive WalksAll : List (Stack × Piece) → List Scope.Note → Prop
  | nil : WalksAll [] []
  | cons : Walks σ p own → WalksAll rest more → WalksAll ((σ, p) :: rest) (own ++ more)

namespace WalksAll

theorem single (h : Walks σ p own) : WalksAll [(σ, p)] own := by
  simpa using cons h nil

theorem append (h : WalksAll ps own) (h' : WalksAll qs more) :
    WalksAll (ps ++ qs) (own ++ more) := by
  induction h with
  | nil => exact h'
  | cons hp _ ih => simpa only [List.cons_append, List.append_assoc] using cons hp ih

/-- The notes of one of the pieces stand between those of the others. -/
theorem split (h : WalksAll ps own) (hq : (σ, q) ∈ ps) :
    ∃ before behind notesBefore notes notesBehind, ps = before ++ (σ, q) :: behind ∧
      own = notesBefore ++ notes ++ notesBehind ∧ Walks σ q notes ∧
      WalksAll before notesBefore ∧ WalksAll behind notesBehind := by
  induction h with
  | nil => cases hq
  | @cons σ' p own rest more hp hrest ih =>
    rcases List.mem_cons.1 hq with heq | hmem
    · cases heq
      exact ⟨[], rest, [], own, more, rfl, rfl, hp, nil, hrest⟩
    · obtain ⟨before, behind, nb, n, na, rfl, rfl, hn, hb, ha⟩ := ih hmem
      exact ⟨(σ', p) :: before, behind, own ++ nb, n, na, rfl, by simp, hn, cons hp hb, ha⟩

end WalksAll

/-- Declarations aside, the walk leaves a statement with the scopes that it came with. -/
theorem walkStmt_after (s : Stmt) (hs : s.Proper)
    (h : Scope.walkStmt around σ.names s = .ok (scopes, notes)) :
    scopes = (Stack.after σ s).names := by
  cases s with
  | expression e | print e | block body =>
    simp only [Scope.walkStmt, bind_eq_ok, pure_eq_ok] at h
    obtain ⟨_, _, h⟩ := h
    cases h
    rfl
  | var name initial =>
    simp only [Scope.walkStmt, bind_eq_ok, pure_eq_ok] at h
    obtain ⟨_, _, h⟩ := h
    cases h
    simp [Stack.after]
  | function routine =>
    simp only [Scope.walkStmt, bind_eq_ok, pure_eq_ok] at h
    obtain ⟨_, _, h⟩ := h
    cases h
    simp [Stack.after]
  | classDecl name methods classMethods =>
    simp only [Scope.walkStmt, bind_eq_ok, pure_eq_ok] at h
    obtain ⟨_, _, _, _, h⟩ := h
    cases h
    simp [Stack.after]
  | breakLoop keyword =>
    simp only [Scope.walkStmt] at h
    split at h <;> cases h
    rfl
  | returnValue keyword value =>
    simp only [Scope.walkStmt] at h
    split at h
    · simp only [bind_eq_ok, pure_eq_ok] at h
      obtain ⟨_, _, h⟩ := h
      cases h
      rfl
    · cases h
  | importModule keyword path =>
    cases h
    rfl
  | exportDecl keyword declaration =>
    simp only [Scope.walkStmt] at h
    exact walkStmt_after declaration hs.2 h
  | whileLoop condition body =>
    simp only [Scope.walkStmt, bind_eq_ok, pure_eq_ok] at h
    obtain ⟨_, _, ⟨afterBody, _⟩, hbody, h⟩ := h
    cases h
    rw [walkStmt_after body hs.2 hbody, Stack.after_of_declares_none σ hs.1]
    rfl
  | ifElse condition yes no =>
    cases no with
    | none =>
      simp only [Scope.walkStmt, bind_eq_ok, pure_eq_ok] at h
      obtain ⟨_, _, ⟨afterYes, _⟩, hyes, h⟩ := h
      cases h
      rw [walkStmt_after yes hs.2 hyes, Stack.after_of_declares_none σ hs.1]
      rfl
    | some no =>
      simp only [Scope.walkStmt, bind_eq_ok, pure_eq_ok] at h
      obtain ⟨_, _, ⟨afterYes, _⟩, hyes, ⟨afterNo, _⟩, hno, h⟩ := h
      cases h
      obtain ⟨hyesNone, hyesProper, hnoNone, hnoProper⟩ := hs
      have hsame := walkStmt_after yes hyesProper hyes
      rw [Stack.after_of_declares_none σ hyesNone] at hsame
      subst hsame
      rw [walkStmt_after no hnoProper hno, Stack.after_of_declares_none σ hnoNone]
      rfl

theorem walkExprs_all (h : Scope.walkExprs around (Stack.names σ) es = .ok own) :
    WalksAll (es.map fun e => (σ, .expression e)) own := by
  induction es generalizing own with
  | nil =>
    cases h
    exact .nil
  | cons e es ih =>
    simp only [Scope.walkExprs, bind_eq_ok, pure_eq_ok] at h
    obtain ⟨first, hfirst, rest, hrest, rfl⟩ := h
    exact .cons ⟨around, hfirst⟩ (ih hrest)

theorem walkRoutines_all
    (h : Scope.walkRoutines around ([("this", true)] :: Stack.names σ) rs = .ok own) :
    WalksAll (rs.map fun r => (σ.receiver r, .routine r)) own := by
  induction rs generalizing own with
  | nil =>
    cases h
    exact .nil
  | cons r rs ih =>
    simp only [Scope.walkRoutines, bind_eq_ok, pure_eq_ok] at h
    obtain ⟨first, hfirst, rest, hrest, rfl⟩ := h
    exact .cons ⟨around, hfirst⟩ (ih hrest)

/-- An expression is walked through its parts, and noted itself at the end. -/
theorem walkExpr_parts (h : Scope.walkExpr around (Stack.names σ) e = .ok own) :
    ∃ inner, WalksAll (e.parts.map fun part => (σ, .expression part)) inner ∧
      own = inner ++ (Piece.expression e).ownNotes σ := by
  cases e with
  | literal value =>
    cases h
    exact ⟨[], .nil, rfl⟩
  | var id name =>
    simp only [Scope.walkExpr] at h
    split at h <;> cases h
    exact ⟨[], .nil, rfl⟩
  | this id keyword =>
    simp only [Scope.walkExpr] at h
    split at h <;> cases h
    exact ⟨[], .nil, rfl⟩
  | unary op inner | group inner | get inner name =>
    simp only [Scope.walkExpr] at h
    exact ⟨own, .single ⟨around, h⟩, by simp [Piece.ownNotes, Expr.refers?]⟩
  | assign id name value =>
    simp only [Scope.walkExpr, bind_eq_ok, pure_eq_ok] at h
    obtain ⟨notes, hvalue, rfl⟩ := h
    exact ⟨notes, .single ⟨around, hvalue⟩, rfl⟩
  | binary op left right | logical op left right | index left op right | set right op left =>
    simp only [Scope.walkExpr, bind_eq_ok, pure_eq_ok] at h
    obtain ⟨first, hleft, second, hright, rfl⟩ := h
    exact ⟨first ++ second, .cons ⟨around, hleft⟩ (.single ⟨around, hright⟩),
      by simp [Piece.ownNotes, Expr.refers?]⟩
  | conditional condition yes no =>
    simp only [Scope.walkExpr, bind_eq_ok, pure_eq_ok] at h
    obtain ⟨first, hcondition, second, hyes, third, hno, rfl⟩ := h
    refine ⟨first ++ (second ++ third), ?_, by simp [Piece.ownNotes, Expr.refers?]⟩
    exact .cons ⟨around, hcondition⟩ (.cons ⟨around, hyes⟩ (.single ⟨around, hno⟩))
  | call callee paren arguments =>
    simp only [Scope.walkExpr, bind_eq_ok, pure_eq_ok] at h
    obtain ⟨first, hcallee, rest, harguments, rfl⟩ := h
    exact ⟨first ++ rest, .cons ⟨around, hcallee⟩ (walkExprs_all harguments),
      by simp [Piece.ownNotes, Expr.refers?]⟩
  | array elements =>
    simp only [Scope.walkExpr] at h
    exact ⟨own, walkExprs_all h, by simp [Piece.ownNotes, Expr.refers?]⟩

theorem walkStmt_parts (hs : s.Proper)
    (h : Scope.walkStmt around (Stack.names σ) s = .ok (scopes, own)) :
    WalksAll (s.parts σ) own := by
  cases s with
  | expression e | print e =>
    simp only [Scope.walkStmt, bind_eq_ok, pure_eq_ok] at h
    obtain ⟨notes, he, h⟩ := h
    cases h
    exact .single ⟨around, he⟩
  | var name initial =>
    simp only [Scope.walkStmt, bind_eq_ok, pure_eq_ok] at h
    obtain ⟨notes, hinitial, h⟩ := h
    cases h
    cases initial with
    | none =>
      cases hinitial
      exact .nil
    | some e => exact .single ⟨around, by rw [Stack.names_enter]; exact hinitial⟩
  | block body =>
    simp only [Scope.walkStmt, bind_eq_ok, pure_eq_ok] at h
    obtain ⟨⟨last, notes⟩, hbody, h⟩ := h
    cases h
    exact .single ⟨around, by simp only [Piece.walk, Stack.names_block, hbody]; rfl⟩
  | function routine =>
    simp only [Scope.walkStmt, bind_eq_ok, pure_eq_ok] at h
    obtain ⟨notes, hroutine, h⟩ := h
    cases h
    exact .single ⟨around, by rw [Stack.names_enter]; exact hroutine⟩
  | classDecl name methods classMethods =>
    simp only [Scope.walkStmt, bind_eq_ok, pure_eq_ok] at h
    obtain ⟨notes, hmethods, more, hclassMethods, h⟩ := h
    cases h
    rw [← Stack.names_enter] at hmethods hclassMethods
    simp only [Stmt.parts, List.map_append]
    exact (walkRoutines_all hmethods).append (walkRoutines_all hclassMethods)
  | breakLoop keyword =>
    simp only [Scope.walkStmt] at h
    split at h <;> cases h
    exact .nil
  | returnValue keyword value =>
    simp only [Scope.walkStmt] at h
    split at h
    · simp only [bind_eq_ok, pure_eq_ok] at h
      obtain ⟨notes, hvalue, h⟩ := h
      cases h
      cases value with
      | none =>
        cases hvalue
        exact .nil
      | some e => exact .single ⟨around, hvalue⟩
    · cases h
  | importModule keyword path =>
    cases h
    exact .nil
  | exportDecl keyword declaration =>
    simp only [Scope.walkStmt] at h
    exact .single ⟨around, by simp only [Piece.walk, h]; rfl⟩
  | whileLoop condition body =>
    simp only [Scope.walkStmt, bind_eq_ok, pure_eq_ok] at h
    obtain ⟨notes, hcondition, ⟨last, more⟩, hbody, h⟩ := h
    cases h
    refine .cons ⟨around, hcondition⟩ (.single ⟨{ around with inLoop := true }, ?_⟩)
    simp only [Piece.walk, hbody]
    rfl
  | ifElse condition yes no =>
    cases no with
    | none =>
      simp only [Scope.walkStmt, bind_eq_ok, pure_eq_ok] at h
      obtain ⟨notes, hcondition, ⟨last, more⟩, hyes, h⟩ := h
      cases h
      refine .cons ⟨around, hcondition⟩ (.single ⟨around, ?_⟩)
      simp only [Piece.walk, hyes]
      rfl
    | some no =>
      simp only [Scope.walkStmt, bind_eq_ok, pure_eq_ok] at h
      obtain ⟨notes, hcondition, ⟨afterYes, notesYes⟩, hyes, ⟨afterNo, notesNo⟩, hno, h⟩ := h
      cases h
      -- The first branch declares nothing, so the second is walked in the same scopes.
      have hsame := walkStmt_after yes hs.2.1 hyes
      rw [Stack.after_of_declares_none σ hs.1] at hsame
      subst hsame
      rw [List.append_assoc]
      refine .cons ⟨around, hcondition⟩ (.cons ⟨around, ?_⟩ (.single ⟨around, ?_⟩))
      · simp only [Piece.walk, hyes]
        rfl
      · simp only [Piece.walk, hno]
        rfl

/-- The notes of a piece are those of its parts and its own. -/
theorem Walks.parts {p : Piece} (h : Walks σ p own) (hp : p.Proper) :
    ∃ inner, WalksAll (p.parts σ) inner ∧ own = inner ++ p.ownNotes σ := by
  obtain ⟨around, h⟩ := h
  cases p with
  | statements body =>
    simp only [Piece.walk, bind_eq_ok, pure_eq_ok] at h
    obtain ⟨⟨scopes, notes⟩, h, rfl⟩ := h
    refine ⟨notes, ?_, by simp [Piece.ownNotes]⟩
    cases body with
    | nil =>
      cases h
      exact .nil
    | cons s rest =>
      simp only [Scope.walkStmts, bind_eq_ok, pure_eq_ok] at h
      obtain ⟨⟨after, first⟩, hs, ⟨last, more⟩, hrest, h⟩ := h
      cases h
      obtain rfl := walkStmt_after s hp.1.1 hs
      refine .cons ⟨around, ?_⟩ (.single ⟨around, ?_⟩)
      · simp only [Piece.walk, hs]
        rfl
      · simp only [Piece.walk, hrest]
        rfl
  | statement s =>
    simp only [Piece.walk, bind_eq_ok, pure_eq_ok] at h
    obtain ⟨⟨scopes, notes⟩, h, rfl⟩ := h
    exact ⟨notes, walkStmt_parts hp.1 h, by simp [Piece.ownNotes]⟩
  | expression e => exact walkExpr_parts h
  | routine r =>
    obtain ⟨name, params, body⟩ := r
    simp only [Piece.walk, Scope.walkRoutine, bind_eq_ok, pure_eq_ok] at h
    obtain ⟨⟨scopes, notes⟩, h, rfl⟩ := h
    refine ⟨notes, .single ⟨{ around with inFunction := true, inLoop := false }, ?_⟩,
      by simp [Piece.ownNotes]⟩
    simp only [Piece.walk, Stack.names_call, h]
    rfl

-- ---------------------------------------------------------------------------
-- Notes and nodes
-- ---------------------------------------------------------------------------

theorem ownNotes_subperm (σ : Stack) (p : Piece) :
    ((p.ownNotes σ).map Prod.fst).Subperm p.ownIds := by
  cases p with
  | expression e =>
    cases hr : e.refers? with
    | none => simp [Piece.ownNotes, hr]
    | some node =>
      obtain ⟨id, name⟩ := node
      simp only [Piece.ownNotes, Piece.ownIds, hr, Scope.noteFor]
      split <;> simp
  | _ => simp [Piece.ownNotes]

theorem WalksAll.subperm (h : WalksAll ps own)
    (each : ∀ q ∈ ps, ∀ own, Walks q.1 q.2 own → (own.map Prod.fst).Subperm q.2.ids) :
    (own.map Prod.fst).Subperm (ps.flatMap fun q => q.2.ids) := by
  induction h with
  | nil => simp
  | cons hfirst _ ih =>
    simp only [List.map_append, List.flatMap_cons]
    have hrest := ih fun q hq => each q (List.mem_cons_of_mem _ hq)
    exact (each _ List.mem_cons_self _ hfirst).append hrest

/-- A node is noted at most once, and only nodes are. -/
theorem Walks.subperm {p : Piece} (h : Walks σ p own) (hp : p.Proper) :
    (own.map Prod.fst).Subperm p.ids := by
  induction σ, p using Piece.induction generalizing own with
  | step σ p ih =>
    obtain ⟨inner, hall, rfl⟩ := h.parts hp
    have hinner := hall.subperm fun q hq own hown => ih q hq hown (hp.part hq)
    rw [List.map_append]
    exact (hinner.append (ownNotes_subperm σ p)).trans (Piece.ids_perm σ p).symm.subperm

theorem WalksAll.mem_ids (h : WalksAll ps own) (hp : ∀ q ∈ ps, q.2.Proper) {n : Scope.Note}
    (hn : n ∈ own) : n.1 ∈ ps.flatMap fun q => q.2.ids :=
  (h.subperm fun q hq _ hown => hown.subperm (hp q hq)).subset (List.mem_map_of_mem hn)

-- ---------------------------------------------------------------------------
-- Names that are ready
-- ---------------------------------------------------------------------------

/-- Every name that the scope has seen is ready to be read. -/
def Open.Ready (scope : Open) : Prop :=
  ∀ name, scope.names.lookup name ≠ some false

def Stack.Ready (σ : Stack) : Prop :=
  ∀ scope ∈ σ, scope.Ready

/-- Only in its own initial value is a variable not ready, and no variable is named `this`. -/
def Stack.Settled (σ : Stack) : Piece → Prop
  | .expression _ =>
    (∀ scope ∈ σ.tail, scope.Ready) ∧ ∀ scope ∈ σ.head?, scope.names.lookup "this" ≠ some false
  | _ => σ.Ready

namespace Stack.Ready

variable {σ : Stack}

theorem settled (h : σ.Ready) (p : Piece) : σ.Settled p := by
  cases p with
  | expression e =>
    refine ⟨fun scope hs => h scope (List.mem_of_mem_tail hs), fun scope hs => ?_⟩
    exact h scope (List.mem_of_head? hs) "this"
  | _ => exact h

theorem cons (hscope : scope.Ready) (h : σ.Ready) : Ready (scope :: σ) := by
  intro other hother
  rcases List.mem_cons.1 hother with rfl | hmem
  · exact hscope
  · exact h other hmem

theorem entered (h : σ.Ready) (name : String) : (σ.enter name true).Ready := by
  cases σ with
  | nil => exact h
  | cons top outer =>
    refine cons ?_ fun scope hs => h scope (List.mem_cons_of_mem _ hs)
    intro other
    simp only [List.lookup_cons]
    split
    · simp
    · exact h top List.mem_cons_self other

theorem pending (h : σ.Ready) (hname : name ≠ "this") :
    (σ.enter name false).Settled (.expression e) := by
  cases σ with
  | nil => exact h.settled _
  | cons top outer =>
    refine ⟨fun scope hs => h scope (List.mem_cons_of_mem _ hs), ?_⟩
    rintro _ ⟨⟩
    simp only [List.lookup_cons, beq_false_of_ne (Ne.symm hname)]
    exact h top List.mem_cons_self "this"

theorem declared (h : σ.Ready) (name : String) :
    ((σ.enter name false).enter name true).Ready := by
  cases σ with
  | nil => exact h
  | cons top outer =>
    refine cons ?_ fun scope hs => h scope (List.mem_cons_of_mem _ hs)
    intro other
    simp only [List.lookup_cons]
    by_cases heq : other = name
    · simp [heq]
    · simpa only [beq_false_of_ne heq] using h top List.mem_cons_self other

theorem after (h : σ.Ready) (s : Stmt) : (σ.after s).Ready := by
  induction s using Stmt.declares.induct with
  | case1 keyword declaration ih => exact ih
  | case2 name initial => exact h.declared _
  | case3 routine => exact h.entered _
  | case4 name methods classMethods => exact h.entered _
  | case5 s hexport hvar hfunction hclass =>
    rw [Stack.after_of_declares_none σ (by cases s <;> simp_all [Stmt.declares])]
    exact h

theorem block (h : σ.Ready) (body : List Stmt) : (σ.block body).Ready :=
  cons (fun _ => by simp) h

theorem receiver (h : σ.Ready) (method : Routine) : (σ.receiver method).Ready := by
  refine cons (fun name => ?_) h
  simp only [List.lookup_cons, List.lookup_nil]
  split <;> simp

theorem call (h : σ.Ready) (routine : Routine) : (σ.call routine).Ready := by
  refine cons (fun name hname => ?_) h
  obtain ⟨before, behind, hsplit, -⟩ := List.lookup_eq_some_iff.1 hname
  dsimp only at hsplit
  have hmem : (name, false) ∈ routine.parameters.map fun p => (p.lexeme, true) := by
    rw [hsplit]
    simp
  simp at hmem

end Stack.Ready

theorem Stack.Settled.part {p : Piece} (h : σ.Settled p) (hp : p.Proper)
    (hq : (σ', q) ∈ p.parts σ) : σ'.Settled q := by
  cases p with
  | expression e =>
    obtain ⟨part, -, heq⟩ := List.mem_map.1 hq
    cases heq
    exact h
  | statements body =>
    replace h : σ.Ready := h
    cases body with
    | nil => cases hq
    | cons s rest =>
      simp only [Piece.parts, List.mem_cons, List.not_mem_nil, or_false] at hq
      rcases hq with heq | heq <;> cases heq
      · exact h
      · exact h.after s
  | routine r =>
    replace h : σ.Ready := h
    cases List.mem_singleton.1 hq
    exact h.call r
  | statement s =>
    replace h : σ.Ready := h
    cases s with
    | var name initial =>
      cases initial with
      | none => cases hq
      | some e =>
        cases List.mem_singleton.1 hq
        exact h.pending hp.2.1
    | block body =>
      cases List.mem_singleton.1 hq
      exact h.block body
    | function routine =>
      cases List.mem_singleton.1 hq
      exact h.entered _
    | classDecl name methods classMethods =>
      obtain ⟨r, -, heq⟩ := List.mem_map.1 hq
      cases heq
      exact (h.entered _).receiver r
    | ifElse condition yes no =>
      suffices hσ : σ' = σ by
        subst hσ
        exact h.settled q
      cases no <;> simp [Piece.parts, Stmt.parts] at hq <;> grind
    | whileLoop condition body =>
      simp only [Piece.parts, Stmt.parts, List.mem_cons, List.not_mem_nil, or_false] at hq
      rcases hq with heq | heq <;> cases heq <;> exact h.settled _
    | returnValue keyword value =>
      cases value with
      | none => cases hq
      | some e =>
        cases List.mem_singleton.1 hq
        exact h.settled _
    | breakLoop keyword | importModule keyword path => cases hq
    | expression e | print e | exportDecl keyword e =>
      cases List.mem_singleton.1 hq
      exact h.settled _

-- ---------------------------------------------------------------------------
-- Notes of a unit
-- ---------------------------------------------------------------------------

/-- Of the notes of a unit, those for the nodes of the piece are what the walk of the piece
gives. -/
structure Analysed (notes : List Scope.Note) (σ : Stack) (p : Piece) : Prop where
  walked : ∃ own, Walks σ p own ∧ ∀ id ∈ p.ids, ∀ d, (id, d) ∈ notes ↔ (id, d) ∈ own
  nodup : p.ids.Nodup
  proper : p.Proper
  settled : σ.Settled p

namespace Analysed

theorem apart {as bs : List NodeId} (h : (as ++ bs).Nodup) (ha : node ∈ as) (hb : node ∈ bs) :
    False :=
  (List.nodup_append.1 h).2.2 node ha node hb rfl

theorem part (h : Analysed notes σ p) (hq : (σ', q) ∈ p.parts σ) : Analysed notes σ' q := by
  obtain ⟨own, hwalks, hnotes⟩ := h.walked
  obtain ⟨inner, hall, rfl⟩ := hwalks.parts h.proper
  obtain ⟨before, behind, notesBefore, notesOf, notesBehind, hparts, rfl, hq', hbefore, hbehind⟩ :=
    hall.split hq
  have hids := Piece.ids_perm σ p
  have hnodup := hids.nodup_iff.1 h.nodup
  rw [hparts] at hids hnodup
  simp only [List.flatMap_append, List.flatMap_cons, List.append_assoc] at hids hnodup
  have hrest := (List.nodup_append.1 hnodup).2.1
  have hproper : ∀ r ∈ before ++ (σ', q) :: behind, r.2.Proper :=
    fun r hr => h.proper.part (hparts ▸ hr)
  refine ⟨⟨notesOf, hq', fun id hid d => ?_⟩, ?_, h.proper.part hq, h.settled.part h.proper hq⟩
  · rw [hnotes id (hids.mem_iff.2 (by simp [hid])) d]
    -- A note of another part is for a node of that part, and nodes are all different.
    have hnotBefore : (id, d) ∉ notesBefore := by
      intro hn
      have hother := hbefore.mem_ids (fun r hr => hproper r (by simp [hr])) hn
      exact apart hnodup hother (List.mem_append_left _ hid)
    have hnotBehind : (id, d) ∉ notesBehind := by
      intro hn
      have hother := hbehind.mem_ids (fun r hr => hproper r (by simp [hr])) hn
      exact apart hrest hid (List.mem_append_left _ hother)
    have hnotOwn : (id, d) ∉ p.ownNotes σ := by
      intro hn
      have hother := (ownNotes_subperm σ p).subset (List.mem_map_of_mem hn)
      exact apart hrest hid (List.mem_append_right _ hother)
    simp [hnotBefore, hnotBehind, hnotOwn]
  · exact (List.nodup_append.1 hrest).1

/-- The distance that is noted for a node is that of its name in the stack that it stands in. -/
theorem noted {id : NodeId} (h : Analysed notes σ (.expression e))
    (hr : e.refers? = some (id, name)) (d : Nat) :
    (id, d) ∈ notes ↔ Scope.distance? σ.names name.lexeme = some d := by
  obtain ⟨own, hwalks, hnotes⟩ := h.walked
  obtain ⟨inner, hall, rfl⟩ := hwalks.parts h.proper
  have hids := Piece.ids_perm σ (.expression e)
  have hnodup := hids.nodup_iff.1 h.nodup
  have hown : id ∈ (Piece.expression e).ownIds := by simp [Piece.ownIds, hr]
  have hinner : (id, d) ∉ inner := fun hn =>
    apart hnodup (hall.mem_ids (fun q hq => h.proper.part hq) hn) hown
  rw [hnotes id (hids.mem_iff.2 (List.mem_append_right _ hown)) d]
  simp only [List.mem_append, hinner, false_or, Piece.ownNotes, hr, Scope.noteFor]
  cases Scope.distance? σ.names name.lexeme <;> simp [eq_comm]

theorem ready (h : Analysed notes σ (.expression e)) (hr : e.reads? = some name)
    (hd : Scope.distance? σ.names name.lexeme = some d) :
    ∃ scope, σ[d]? = some scope ∧ scope.names.lookup name.lexeme = some true := by
  obtain ⟨hlt, hseen, -⟩ := List.findIdx?_eq_some_iff_getElem.1 hd
  rw [Stack.names, List.length_map] at hlt
  have hscope : σ[d]? = some σ[d] := List.getElem?_eq_getElem hlt
  refine ⟨σ[d], hscope, ?_⟩
  have hnot : σ[d].names.lookup name.lexeme ≠ some false := by
    cases d with
    | succ d =>
      refine h.settled.1 _ ?_ _
      cases σ with
      | nil => simp at hlt
      | cons top outer => exact List.getElem_mem _
    | zero =>
      cases σ with
      | nil => simp at hlt
      | cons top outer =>
        cases e with
        | var id name =>
          cases hr
          obtain ⟨own, ⟨around, hwalk⟩, -⟩ := h.walked
          simp only [Piece.walk, Scope.walkExpr, Scope.isPending, Stack.names, List.map_cons,
            List.head?_cons, Option.any_some] at hwalk
          split at hwalk
          · cases hwalk
          · next hpending => simpa using hpending
        | this id keyword =>
          cases hr
          rw [show name.lexeme = "this" from h.proper]
          exact h.settled.2 top rfl
        | _ => cases hr
  simp only [Stack.names, List.getElem_map, Option.isSome_iff_exists] at hseen
  obtain ⟨ready, hready⟩ := hseen
  cases ready with
  | true => exact hready
  | false => exact absurd hready hnot

end Analysed

/-- What was shown of a whole unit holds of every piece in it. -/
theorem Inside.analysed (h : Inside unit σ p) (hunit : Analysed notes [] unit.piece) :
    Analysed notes σ p := by
  induction h with
  | whole => exact hunit
  | part _ hq ih => exact ih.part hq

-- ---------------------------------------------------------------------------
-- Sources that are ready to run
-- ---------------------------------------------------------------------------

/-- A unit has been read with identities from `start` on, and walked. -/
structure Checked (start : NodeId) (p : Prepared Line) : Prop where
  fresh : Fresh p.tree.ids start p.nextId
  proper : p.tree.piece.Proper
  walked : Prepared.walkLine p.tree = .ok p.notes

def Prepared.mapTree (f : α → β) (p : Prepared α) : Prepared β :=
  ⟨f p.tree, p.notes, p.nextId⟩

theorem ofSource_eq_ok {read : List Token → NodeId → Except Error α × NodeId}
    (h : Prepared.ofSource read walk source start = .ok p) :
    ∃ tokens, (∀ t ∈ tokens, t.Worded) ∧ read tokens start = (.ok p.tree, p.nextId) ∧
      walk p.tree = .ok p.notes := by
  simp only [Prepared.ofSource, bind_eq_ok, pure_eq_ok] at h
  obtain ⟨tokens, hscan, h⟩ := h
  refine ⟨tokens, fun t ht => Lexer.scan_worded hscan ht, ?_⟩
  rcases hread : read tokens start with ⟨result, next⟩
  simp only [hread] at h
  obtain ⟨tree, rfl, notes, hwalk, rfl⟩ := h
  exact ⟨rfl, hwalk⟩

theorem program_checked (h : Prepared.program source start = .ok p) :
    Checked start (p.mapTree .statements) := by
  obtain ⟨tokens, hworded, hread, hwalk⟩ := ofSource_eq_ok h
  obtain ⟨hfresh, hproper⟩ := Parser.program_makes hread
  exact ⟨hfresh, ⟨hproper, Parser.program_worded hworded (congrArg Prod.fst hread)⟩, hwalk⟩

theorem loneExpression_checked (h : Prepared.loneExpression source start = .ok p) :
    Checked start (p.mapTree .expression) := by
  obtain ⟨tokens, hworded, hread, hwalk⟩ := ofSource_eq_ok h
  have hproper := Parser.loneExpression_worded hworded (congrArg Prod.fst hread)
  exact ⟨Parser.loneExpression_makes hread, hproper, hwalk⟩

theorem line_checked (h : Prepared.line source start = .ok p) : Checked start p := by
  obtain ⟨tokens, hworded, hread, hwalk⟩ := ofSource_eq_ok h
  obtain ⟨hfresh, hproper⟩ := Parser.line_makes hread
  have htree := Parser.line_worded hworded (congrArg Prod.fst hread)
  refine ⟨hfresh, ?_, hwalk⟩
  cases htree' : p.tree with
  | statements body =>
    rw [htree'] at hproper htree
    exact ⟨hproper, htree⟩
  | expression e =>
    rw [htree'] at htree
    exact htree

namespace Checked

theorem ids_piece (l : Line) : l.piece.ids = l.ids := by
  cases l <;> rfl

theorem walks (h : Checked start p) : Walks [] p.tree.piece p.notes := by
  refine ⟨.topLevel, ?_⟩
  have hwalked := h.walked
  cases htree : p.tree with
  | statements body =>
    rw [htree] at hwalked
    exact hwalked
  | expression e =>
    rw [htree] at hwalked
    exact hwalked

theorem analysed (h : Checked start p) : Analysed p.notes [] p.tree.piece where
  walked := ⟨p.notes, h.walks, fun _ _ _ => Iff.rfl⟩
  nodup := by
    rw [ids_piece]
    exact h.fresh.nodup
  proper := h.proper
  settled := Stack.Ready.settled (by simp [Stack.Ready]) _

theorem notes_subperm (h : Checked start p) : (p.notes.map Prod.fst).Subperm p.tree.ids := by
  have := h.walks.subperm h.proper
  rwa [ids_piece] at this

theorem notes_range (h : Checked start p) {n : Scope.Note} (hn : n ∈ p.notes) :
    start ≤ n.1 ∧ n.1 < p.nextId :=
  h.fresh.range _ (h.notes_subperm.subset (List.mem_map_of_mem hn))

theorem notes_nodup (h : Checked start p) : (p.notes.map Prod.fst).Nodup := by
  obtain ⟨ids, hperm, hsub⟩ := h.notes_subperm
  exact hperm.nodup_iff.1 (h.fresh.nodup.sublist hsub)

end Checked

end Treewalk
