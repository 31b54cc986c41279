import Treewalk.Proofs.Agreement
import Treewalk.Proofs.Correspondence

/-!
# Scoping, declared

Where a mention of a name stands in a unit, and which scopes around it have declared the name by
then, can be read off the tree without walking it: a block has the names that its statements
declare, up to the one that holds the mention, a body has its parameters besides, and around the
methods of a class stands `this`. The walk accepts a unit if its mentions keep four rules, finds
the first one that does not, and notes for each the number of scopes up to the innermost one that
has declared the name.
-/

namespace Treewalk

-- ---------------------------------------------------------------------------
-- What stands around a place
-- ---------------------------------------------------------------------------

/-- What a place in a unit can stand in. Of the statements of a body those are given that come
before the place, with the one that holds it. -/
inductive Layer where
  | block (upTo : List Stmt)
  | body (routine : Routine) (upTo : List Stmt)
  | methods
  | loop
  | initial (name : Token)

def Stmt.declaredNames (upTo : List Stmt) : List String :=
  upTo.filterMap fun s => s.declares.map Token.lexeme

namespace Layer

/-- The names that have been declared in the scope that the layer is, if it is one. -/
def declared? : Layer → Option (List String)
  | .block upTo => some (Stmt.declaredNames upTo)
  | .body routine upTo =>
    some (routine.parameters.map Token.lexeme ++ Stmt.declaredNames upTo)
  | .methods => some ["this"]
  | .loop | .initial _ => none

def isBody : Layer → Bool
  | .body _ _ => true
  | _ => false

def isLoop : Layer → Bool
  | .loop => true
  | _ => false

def isMethods : Layer → Bool
  | .methods => true
  | _ => false

end Layer

/-- What stands around a place, innermost first. -/
abbrev Trail := List Layer

namespace Trail

def scopes (τ : Trail) : List (List String) :=
  τ.filterMap Layer.declared?

/-- The number of scopes to leave for the innermost one that has declared the name. -/
def distance? (τ : Trail) (name : String) : Option Nat :=
  τ.scopes.findIdx? (·.contains name)

/-- In the body of a loop, with no function between. -/
def inLoop (τ : Trail) : Bool :=
  (τ.takeWhile (!·.isBody)).any Layer.isLoop

def inFunction (τ : Trail) : Bool :=
  τ.any Layer.isBody

def inClass (τ : Trail) : Bool :=
  τ.any Layer.isMethods

/-- In the initial value of a variable of that name, which is declared in a scope. -/
def initialises (name : String) : Trail → Bool
  | .initial x :: outer => x.lexeme == name && !(scopes outer).isEmpty
  | _ => false

end Trail

-- ---------------------------------------------------------------------------
-- Mentions
-- ---------------------------------------------------------------------------

/-- What a unit can mention that depends on what stands around. -/
inductive Mention where
  | breaks (keyword : Token)
  | returns (keyword : Token)
  | this (id : NodeId) (keyword : Token)
  | reads (id : NodeId) (name : Token)
  | assigns (id : NodeId) (name : Token)

/-- The variable that is mentioned, with the identity of the node. -/
def Mention.refers? : Mention → Option (NodeId × Token)
  | .breaks _ | .returns _ => none
  | .this id name | .reads id name | .assigns id name => some (id, name)

mutual

/-- What an expression mentions, in the order in which it is walked: the value before the variable
that it is assigned to, or the object whose field it is. -/
def Expr.mentions (τ : Trail) : Expr → List (Trail × Mention)
  | .literal _ => []
  | .group inner => inner.mentions τ
  | .unary _ right => right.mentions τ
  | .get object _ => object.mentions τ
  | .binary _ left right => left.mentions τ ++ right.mentions τ
  | .logical _ left right => left.mentions τ ++ right.mentions τ
  | .index target _ position => target.mentions τ ++ position.mentions τ
  | .conditional condition yes no => condition.mentions τ ++ yes.mentions τ ++ no.mentions τ
  | .var id name => [(τ, .reads id name)]
  | .assign id name value => value.mentions τ ++ [(τ, .assigns id name)]
  | .this id keyword => [(τ, .this id keyword)]
  | .call callee _ arguments => callee.mentions τ ++ Expr.mentionsOfAll τ arguments
  | .set object _ value => value.mentions τ ++ object.mentions τ
  | .array elements => Expr.mentionsOfAll τ elements

def Expr.mentionsOfAll (τ : Trail) : List Expr → List (Trail × Mention)
  | [] => []
  | e :: rest => e.mentions τ ++ Expr.mentionsOfAll τ rest

end

mutual

/-- What a statement mentions, in the order in which it is walked. -/
def Stmt.mentions (τ : Trail) : Stmt → List (Trail × Mention)
  | .expression e => e.mentions τ
  | .print e => e.mentions τ
  | .var _ none => []
  | .var name (some e) => e.mentions (.initial name :: τ)
  | .block body => Stmt.mentionsOfAll (.block · :: τ) [] body
  | .ifElse condition yes none => condition.mentions τ ++ yes.mentions τ
  | .ifElse condition yes (some no) => condition.mentions τ ++ yes.mentions τ ++ no.mentions τ
  | .whileLoop condition body => condition.mentions τ ++ body.mentions (.loop :: τ)
  | .breakLoop keyword => [(τ, .breaks keyword)]
  | .function routine => routine.mentions τ
  | .classDecl _ methods classMethods =>
    Routine.mentionsOfAll (.methods :: τ) methods ++
      Routine.mentionsOfAll (.methods :: τ) classMethods
  | .returnValue keyword none => [(τ, .returns keyword)]
  | .returnValue keyword (some e) => (τ, .returns keyword) :: e.mentions τ
  | .importModule _ _ => []
  | .exportDecl _ declaration => declaration.mentions τ

/-- Statements in turn; what stands around each depends on those before. -/
def Stmt.mentionsOfAll (around : List Stmt → Trail) (before : List Stmt) :
    List Stmt → List (Trail × Mention)
  | [] => []
  | s :: rest =>
    s.mentions (around (before ++ [s])) ++ Stmt.mentionsOfAll around (before ++ [s]) rest

def Routine.mentions (τ : Trail) : Routine → List (Trail × Mention)
  | ⟨name, params, body⟩ => Stmt.mentionsOfAll (.body ⟨name, params, body⟩ · :: τ) [] body

def Routine.mentionsOfAll (τ : Trail) : List Routine → List (Trail × Mention)
  | [] => []
  | r :: rest => r.mentions τ ++ Routine.mentionsOfAll τ rest

end

/-- What a unit mentions. Its own statements stand in nothing. -/
def unitMentions (body : List Stmt) : List (Trail × Mention) :=
  Stmt.mentionsOfAll (fun _ => []) [] body

namespace Scope

-- ---------------------------------------------------------------------------
-- What the mentions come to
-- ---------------------------------------------------------------------------

def mistake? : Trail × Mention → Option Error
  | (τ, .breaks keyword) =>
    if τ.inLoop then none else some (.scope keyword.site .breakOutsideLoop)
  | (τ, .returns keyword) =>
    if τ.inFunction then none else some (.scope keyword.site .returnOutsideFunction)
  | (τ, .this _ keyword) =>
    if τ.inClass then none else some (.scope keyword.site .thisOutsideClass)
  | (τ, .reads _ name) =>
    if τ.initialises name.lexeme then some (.scope name.site .ownInitializer) else none
  | (_, .assigns _ _) => none

def note? (x : Trail × Mention) : Option Note :=
  x.2.refers?.bind fun (id, name) => (x.1.distance? name.lexeme).map fun d => (id, d)

/-- The first mistake, or else all notes. -/
def outcome (mentions : List (Trail × Mention)) : Except Error (List Note) :=
  match mentions.findSome? mistake? with
  | some e => .error e
  | none => .ok (mentions.filterMap note?)

@[simp] theorem outcome_nil : outcome [] = pure [] := rfl

theorem outcome_append (first second : List (Trail × Mention)) :
    outcome (first ++ second) = do return (← outcome first) ++ (← outcome second) := by
  unfold outcome
  rw [List.findSome?_append, List.filterMap_append]
  cases first.findSome? mistake? with
  | some e => rfl
  | none => cases second.findSome? mistake? <;> rfl

theorem outcome_cons_none (h : mistake? x = none) (mentions : List (Trail × Mention)) :
    outcome (x :: mentions) = do return (note? x).toList ++ (← outcome mentions) := by
  unfold outcome
  rw [List.findSome?_cons, h, List.filterMap_cons]
  dsimp only
  cases mentions.findSome? mistake? <;> cases note? x <;> rfl

theorem outcome_cons_some (h : mistake? x = some e) (mentions : List (Trail × Mention)) :
    outcome (x :: mentions) = .error e := by
  unfold outcome
  rw [List.findSome?_cons, h]

-- ---------------------------------------------------------------------------
-- The scopes of the walk
-- ---------------------------------------------------------------------------

/-- The scopes have seen the names. -/
def Knows (scopes : Scopes) (declared : List (List String)) : Prop :=
  List.Forall₂ (fun (names : Names) seen => ∀ n, (names.lookup n).isSome = seen.contains n)
    scopes declared

/-- The state of the walk is as what stands around says. -/
structure Fits (around : Surroundings) (scopes : Scopes) (τ : Trail) : Prop where
  inLoop : around.inLoop = τ.inLoop
  inFunction : around.inFunction = τ.inFunction
  inClass : around.inClass = τ.inClass
  knows : Knows scopes τ.scopes

/-- No name waits for its value. -/
def Calm (scopes : Scopes) : Prop :=
  ∀ n, isPending scopes n = false

theorem Knows.distance (h : Knows scopes declared) (name : String) :
    distance? scopes name = declared.findIdx? (·.contains name) := by
  unfold distance?
  induction h with
  | nil => rfl
  | cons hnames _ ih => rw [List.findIdx?_cons, List.findIdx?_cons, hnames, ih]

theorem Knows.isEmpty (h : Knows scopes declared) : scopes.isEmpty = declared.isEmpty := by
  cases h <;> rfl

theorem lookup_cons_isSome (names : Names) (name : String) (ready : Bool) (n : String) :
    (((name, ready) :: names).lookup n).isSome = (n == name || (names.lookup n).isSome) := by
  rw [List.lookup_cons]
  cases n == name <;> rfl

/-- A name that is declared is seen in the innermost scope from then on. -/
def declareIn (name? : Option Token) : List (List String) → List (List String)
  | [] => []
  | seen :: outer => (seen ++ (name?.map Token.lexeme).toList) :: outer

theorem Knows.enter (h : Knows scopes declared) (name : Token) (ready : Bool) :
    Knows (Scope.enter name.lexeme ready scopes) (declareIn (some name) declared) := by
  cases h with
  | nil => exact .nil
  | cons hnames houter =>
    refine .cons (fun n => ?_) houter
    rw [lookup_cons_isSome, hnames, Bool.eq_iff_iff]
    simp [or_comm]

/-- Entering a name once more makes it known no better. -/
theorem knows_reentered : Knows (Scope.enter name true (Scope.enter name false scopes)) declared ↔
    Knows (Scope.enter name false scopes) declared := by
  cases scopes with
  | nil => rfl
  | cons names outer =>
    have same (n : String) : (((name, true) :: (name, false) :: names).lookup n).isSome =
        (((name, false) :: names).lookup n).isSome := by
      simp only [lookup_cons_isSome]
      cases n == name <;> rfl
    cases declared with
    | nil => simp [Knows, enter]
    | cons seen rest => simp only [Knows, enter, List.forall₂_cons, same]

theorem isPending_enter (name : String) (ready : Bool) (scopes : Scopes) (n : String) :
    isPending (enter name ready scopes) n =
      if n == name then !ready && !scopes.isEmpty else isPending scopes n := by
  cases scopes with
  | nil => cases n == name <;> simp [enter, isPending]
  | cons names outer =>
    simp only [enter, isPending, List.head?_cons, Option.any_some, List.lookup_cons]
    cases n == name <;> cases ready <;> rfl

/-- The scopes behind a statement of a body. -/
def behind (scopes : Scopes) : Stmt → Scopes
  | .var name _ => enter name.lexeme true (enter name.lexeme false scopes)
  | .function routine => enter routine.name.lexeme true scopes
  | .classDecl name _ _ => enter name.lexeme true scopes
  | .exportDecl _ declaration => behind scopes declaration
  | _ => scopes

theorem behind_of_declares_none (h : s.declares = none) : behind scopes s = scopes := by
  induction s using Stmt.declares.induct with
  | case1 keyword declaration ih => exact ih h
  | case2 => cases h
  | case3 => cases h
  | case4 => cases h
  | case5 s hexport hvar hfunction hclass => cases s <;> first | rfl | simp_all

theorem declareIn_none (declared : List (List String)) : declareIn none declared = declared := by
  cases declared <;> simp [declareIn]

theorem Knows.behind (h : Knows scopes declared) (s : Stmt) :
    Knows (Scope.behind scopes s) (declareIn s.declares declared) := by
  induction s using Stmt.declares.induct with
  | case1 keyword declaration ih => exact ih
  | case2 name initial => exact knows_reentered.2 (h.enter name false)
  | case3 routine => exact h.enter routine.name true
  | case4 name methods classMethods => exact h.enter name true
  | case5 s hexport hvar hfunction hclass =>
    have hnone : s.declares = none := by cases s <;> simp_all [Stmt.declares]
    rw [behind_of_declares_none hnone, hnone, declareIn_none]
    exact h

theorem Calm.behind (h : Calm scopes) (s : Stmt) : Calm (Scope.behind scopes s) := by
  intro n
  induction s using Stmt.declares.induct with
  | case1 keyword declaration ih => exact ih
  | case2 name initial =>
    simp only [Scope.behind, isPending_enter, h n]
    cases n == name.lexeme <;> simp
  | case3 routine =>
    simp only [Scope.behind, isPending_enter, h n]
    cases n == routine.name.lexeme <;> simp
  | case4 name methods classMethods =>
    simp only [Scope.behind, isPending_enter, h n]
    cases n == name.lexeme <;> simp
  | case5 s hexport hvar hfunction hclass =>
    rw [behind_of_declares_none (by cases s <;> simp_all [Stmt.declares])]
    exact h n

-- ---------------------------------------------------------------------------
-- The walk comes to what the mentions do
-- ---------------------------------------------------------------------------

theorem note?_toList {id : NodeId} (h : Fits around scopes τ)
    (hm : Mention.refers? m = some (id, name)) :
    (note? (τ, m)).toList = noteFor scopes id name.lexeme := by
  unfold note? noteFor Trail.distance?
  rw [hm, h.knows.distance]
  dsimp only [Option.bind_some]
  cases τ.scopes.findIdx? (·.contains name.lexeme) <;> rfl

mutual

theorem walkExpr_eq (h : Fits around scopes τ)
    (hp : ∀ n, isPending scopes n = τ.initialises n) :
    ∀ e : Expr, walkExpr around scopes e = outcome (e.mentions τ)
  | .literal _ => rfl
  | .group inner => walkExpr_eq h hp inner
  | .unary _ right => walkExpr_eq h hp right
  | .get object _ => walkExpr_eq h hp object
  | .binary _ left right => by
    rw [walkExpr, Expr.mentions, outcome_append, walkExpr_eq h hp left, walkExpr_eq h hp right]
  | .logical _ left right => by
    rw [walkExpr, Expr.mentions, outcome_append, walkExpr_eq h hp left, walkExpr_eq h hp right]
  | .index target _ position => by
    rw [walkExpr, Expr.mentions, outcome_append, walkExpr_eq h hp target,
      walkExpr_eq h hp position]
  | .conditional condition yes no => by
    rw [walkExpr, Expr.mentions, outcome_append, outcome_append, walkExpr_eq h hp condition,
      walkExpr_eq h hp yes, walkExpr_eq h hp no]
    simp only [bind_assoc, pure_bind]
  | .var id name => by
    rw [walkExpr, Expr.mentions, hp]
    split
    · next hown => exact (outcome_cons_some (x := (τ, .reads id name)) (if_pos hown) []).symm
    · next hown =>
      rw [outcome_cons_none (x := (τ, .reads id name)) (if_neg hown), note?_toList h rfl]
      simp
  | .assign id name value => by
    rw [walkExpr, Expr.mentions, outcome_append, walkExpr_eq h hp value,
      outcome_cons_none (x := (τ, .assigns id name)) rfl, note?_toList h rfl]
    simp
  | .this id keyword => by
    rw [walkExpr, Expr.mentions, h.inClass]
    split
    · next hclass =>
      rw [outcome_cons_none (x := (τ, .this id keyword)) (if_pos hclass), note?_toList h rfl]
      simp
    · next hclass =>
      exact (outcome_cons_some (x := (τ, .this id keyword)) (if_neg hclass) []).symm
  | .call callee _ arguments => by
    rw [walkExpr, Expr.mentions, outcome_append, walkExpr_eq h hp callee,
      walkExprs_eq h hp arguments]
  | .set object _ value => by
    rw [walkExpr, Expr.mentions, outcome_append, walkExpr_eq h hp value, walkExpr_eq h hp object]
  | .array elements => walkExprs_eq h hp elements

theorem walkExprs_eq (h : Fits around scopes τ)
    (hp : ∀ n, isPending scopes n = τ.initialises n) :
    ∀ es : List Expr, walkExprs around scopes es = outcome (Expr.mentionsOfAll τ es)
  | [] => rfl
  | e :: rest => by
    rw [walkExprs, Expr.mentionsOfAll, outcome_append, walkExpr_eq h hp e, walkExprs_eq h hp rest]

end

/-- What stands around the statements of a body. -/
inductive Body : (List Stmt → Trail) → Prop
  | unit : Body fun _ => []
  | block (τ : Trail) : Body (.block · :: τ)
  | routine (r : Routine) (τ : Trail) : Body (.body r · :: τ)

theorem declaredNames_append (upTo : List Stmt) (s : Stmt) :
    Stmt.declaredNames (upTo ++ [s]) =
      Stmt.declaredNames upTo ++ (s.declares.map Token.lexeme).toList := by
  unfold Stmt.declaredNames
  rw [List.filterMap_append]
  cases h : s.declares <;> simp [h]

theorem Body.scopes_append (h : Body stands) (before : List Stmt) (s : Stmt) :
    (stands (before ++ [s])).scopes = declareIn s.declares (stands before).scopes := by
  cases h with
  | unit => rfl
  | block τ =>
    simp only [Trail.scopes, List.filterMap_cons, Layer.declared?, declareIn, declaredNames_append]
  | routine r τ =>
    simp only [Trail.scopes, List.filterMap_cons, Layer.declared?, declareIn, declaredNames_append,
      List.append_assoc]

/-- Where a statement of a body stands, seen from one before it. -/
theorem Fits.behind (hb : Body stands) (h : Fits around scopes (stands before)) (s : Stmt) :
    Fits around (Scope.behind scopes s) (stands (before ++ [s])) where
  inLoop := by rw [h.inLoop]; cases hb <;> rfl
  inFunction := by rw [h.inFunction]; cases hb <;> rfl
  inClass := by rw [h.inClass]; cases hb <;> rfl
  knows := by
    rw [hb.scopes_append]
    exact h.knows.behind s

theorem Body.initialises (h : Body stands) (before : List Stmt) (name : String) :
    (stands before).initialises name = false := by
  cases h <;> rfl

theorem Fits.block (h : Fits around scopes τ) : Fits around ([] :: scopes) (.block [] :: τ) where
  inLoop := h.inLoop
  inFunction := h.inFunction
  inClass := h.inClass
  knows := .cons (fun _ => rfl) h.knows

theorem Fits.loop (h : Fits around scopes τ) :
    Fits { around with inLoop := true } scopes (.loop :: τ) :=
  ⟨rfl, h.inFunction, h.inClass, h.knows⟩

theorem Fits.methods (h : Fits around scopes τ) :
    Fits { around with inClass := true } ([("this", true)] :: scopes) (.methods :: τ) where
  inLoop := h.inLoop
  inFunction := h.inFunction
  inClass := rfl
  knows := by
    refine .cons (fun n => ?_) h.knows
    rw [lookup_cons_isSome]
    simp [beq_eq_decide]

theorem Fits.body (h : Fits around scopes τ) (r : Routine) :
    Fits { around with inFunction := true, inLoop := false }
      ((r.params.getD []).map (fun p => (p.lexeme, true)) :: scopes) (.body r [] :: τ) where
  inLoop := rfl
  inFunction := rfl
  inClass := h.inClass
  knows := by
    refine .cons (fun n => ?_) h.knows
    simp only [Stmt.declaredNames, List.filterMap_nil, List.append_nil, Routine.parameters]
    induction r.params.getD [] with
    | nil => rfl
    | cons p params ih => rw [List.map_cons, lookup_cons_isSome, ih]; rfl

theorem Fits.initial (h : Fits around (enter name.lexeme false scopes) τ) :
    Fits around (enter name.lexeme false scopes) (.initial name :: τ) :=
  ⟨h.inLoop, h.inFunction, h.inClass, h.knows⟩

theorem Calm.cons (h : ∀ n, names.lookup n ≠ some false) : Calm (names :: scopes) := by
  intro n
  simpa [isPending] using h n

theorem calm_parameters (params : List Token) :
    Calm (params.map (fun p => (p.lexeme, true)) :: scopes) := by
  refine .cons fun n h => ?_
  obtain ⟨before, after, hsplit, -⟩ := List.lookup_eq_some_iff.1 h
  have hmem : (n, false) ∈ params.map fun p => (p.lexeme, true) := by simp [hsplit]
  simp at hmem

/-- In its own initial value a variable waits for that value. -/
theorem pending_initial (h : Fits around (enter name.lexeme false scopes) τ) (hc : Calm scopes)
    (n : String) : isPending (enter name.lexeme false scopes) n =
      Trail.initialises n (.initial name :: τ) := by
  have hempty : scopes.isEmpty = τ.scopes.isEmpty := by
    rw [← h.knows.isEmpty]
    cases scopes <;> rfl
  rw [isPending_enter, hc n, Trail.initialises, ← hempty, Bool.eq_iff_iff]
  by_cases hn : n = name.lexeme <;> simp [hn, Ne.symm]

mutual

/-- A statement is walked from before the name is entered that it declares, though it stands where
the name is declared. -/
theorem walkStmt_eq (hc : Calm scopes) (hp : ∀ n, isPending scopes n = τ.initialises n) :
    ∀ s : Stmt, Fits around (behind scopes s) τ → s.Proper →
      walkStmt around scopes s = Prod.mk (behind scopes s) <$> outcome (s.mentions τ)
  | .expression e, h, _ => by
    replace h : Fits around scopes τ := h
    rw [walkStmt, Stmt.mentions, walkExpr_eq h hp e]
    rfl
  | .print e, h, _ => by
    replace h : Fits around scopes τ := h
    rw [walkStmt, Stmt.mentions, walkExpr_eq h hp e]
    rfl
  | .var name none, _, _ => rfl
  | .var name (some e), h, _ => by
    have hinner : Fits around (enter name.lexeme false scopes) τ :=
      ⟨h.inLoop, h.inFunction, h.inClass, knows_reentered.1 h.knows⟩
    rw [walkStmt, Stmt.mentions, walkOption,
      walkExpr_eq hinner.initial (pending_initial hinner hc) e]
    rfl
  | .block body, h, hs => by
    replace h : Fits around scopes τ := h
    rw [walkStmt, Stmt.mentions, walkStmts_eq (.block τ) h.block (.cons (by simp)) body hs]
    cases outcome (Stmt.mentionsOfAll (.block · :: τ) [] body) <;> rfl
  | .ifElse condition yes none, h, hs => by
    replace h : Fits around scopes τ := h
    have hyes : behind scopes yes = scopes := behind_of_declares_none hs.1
    rw [walkStmt, Stmt.mentions, outcome_append, walkExpr_eq h hp condition,
      walkStmt_eq hc hp yes (hyes.symm ▸ h) hs.2, hyes]
    cases outcome (condition.mentions τ) <;> cases outcome (yes.mentions τ) <;> rfl
  | .ifElse condition yes (some no), h, hs => by
    replace h : Fits around scopes τ := h
    have hyes : behind scopes yes = scopes := behind_of_declares_none hs.1
    have hno : behind scopes no = scopes := behind_of_declares_none hs.2.2.1
    rw [walkStmt, Stmt.mentions, outcome_append, outcome_append, walkExpr_eq h hp condition,
      walkStmt_eq hc hp yes (hyes.symm ▸ h) hs.2.1, hyes]
    simp only [map_eq_pure_bind, bind_assoc, pure_bind,
      walkStmt_eq hc hp no (hno.symm ▸ h) hs.2.2.2, hno]
    rfl
  | .whileLoop condition body, h, hs => by
    replace h : Fits around scopes τ := h
    have hbody : behind scopes body = scopes := behind_of_declares_none hs.1
    rw [walkStmt, Stmt.mentions, outcome_append, walkExpr_eq h hp condition,
      walkStmt_eq hc (τ := .loop :: τ) hc body (hbody.symm ▸ h.loop) hs.2, hbody]
    cases outcome (condition.mentions τ) <;> cases outcome (body.mentions (.loop :: τ)) <;> rfl
  | .breakLoop keyword, h, _ => by
    rw [walkStmt, Stmt.mentions, h.inLoop]
    split
    · next hloop => rw [outcome_cons_none (x := (τ, .breaks keyword)) (if_pos hloop)]; rfl
    · next hloop => rw [outcome_cons_some (x := (τ, .breaks keyword)) (if_neg hloop)]; rfl
  | .function routine, h, hs => by
    replace h : Fits around (enter routine.name.lexeme true scopes) τ := h
    rw [walkStmt, Stmt.mentions, walkRoutine_eq h routine hs.2]
    rfl
  | .classDecl name methods classMethods, h, hs => by
    replace h : Fits around (enter name.lexeme true scopes) τ := h
    rw [walkStmt, Stmt.mentions, outcome_append]
    simp only [map_eq_pure_bind, bind_assoc, pure_bind, walkRoutines_eq h.methods methods hs.1,
      walkRoutines_eq h.methods classMethods hs.2]
    rfl
  | .returnValue keyword none, h, _ => by
    rw [walkStmt, Stmt.mentions, h.inFunction]
    split
    · next hbody => rw [outcome_cons_none (x := (τ, .returns keyword)) (if_pos hbody)]; rfl
    · next hbody => rw [outcome_cons_some (x := (τ, .returns keyword)) (if_neg hbody)]; rfl
  | .returnValue keyword (some e), h, _ => by
    replace h : Fits around scopes τ := h
    rw [walkStmt, Stmt.mentions, h.inFunction, walkOption, walkExpr_eq h hp e]
    split
    · next hbody =>
      rw [outcome_cons_none (x := (τ, .returns keyword)) (if_pos hbody)]
      cases outcome (e.mentions τ) <;> rfl
    · next hbody => rw [outcome_cons_some (x := (τ, .returns keyword)) (if_neg hbody)]; rfl
  | .importModule _ _, _, _ => rfl
  | .exportDecl _ declaration, h, hs => walkStmt_eq hc hp declaration h hs.2

theorem walkStmts_eq (hb : Body stands) (h : Fits around scopes (stands before))
    (hc : Calm scopes) : ∀ body : List Stmt, Stmt.AllProper body →
      walkStmts around scopes body = Prod.mk (body.foldl behind scopes) <$>
        outcome (Stmt.mentionsOfAll stands before body)
  | [], _ => rfl
  | s :: rest, hs => by
    have hs' := h.behind hb s
    rw [walkStmts, Stmt.mentionsOfAll, outcome_append,
      walkStmt_eq hc (fun n => (hc n).trans (hb.initialises _ n).symm) s hs' hs.1]
    simp only [map_eq_pure_bind, bind_assoc, pure_bind,
      walkStmts_eq hb hs' (hc.behind s) rest hs.2]
    rfl

theorem walkRoutine_eq (h : Fits around scopes τ) :
    ∀ r : Routine, r.Proper → walkRoutine around scopes r = outcome (r.mentions τ)
  | ⟨name, params, body⟩, hr => by
    rw [walkRoutine, Routine.mentions,
      walkStmts_eq (.routine _ τ) (h.body ⟨name, params, body⟩) (calm_parameters _) body hr]
    simp only [map_eq_pure_bind, bind_assoc, pure_bind, bind_pure]

theorem walkRoutines_eq (h : Fits around scopes τ) :
    ∀ rs : List Routine, Routine.AllProper rs →
      walkRoutines around scopes rs = outcome (Routine.mentionsOfAll τ rs)
  | [], _ => rfl
  | r :: rest, hrs => by
    rw [walkRoutines, Routine.mentionsOfAll, outcome_append, walkRoutine_eq h r hrs.1,
      walkRoutines_eq h rest hrs.2]

end

theorem program_eq_outcome (hbody : Stmt.AllProper body) :
    program body = outcome (unitMentions body) := by
  have htop : Fits .topLevel [] [] := ⟨rfl, rfl, rfl, .nil⟩
  have hcalm : Calm [] := fun _ => rfl
  have hwalk : walkStmts .topLevel [] body =
      _ <$> outcome (Stmt.mentionsOfAll (fun _ => []) [] body) :=
    walkStmts_eq .unit htop hcalm body hbody
  rw [program, hwalk, unitMentions]
  simp only [map_eq_pure_bind, bind_assoc, pure_bind, bind_pure]

/-- The unit is accepted when none of its mentions is a mistake. -/
theorem outcome_eq_ok {mentions : List (Trail × Mention)} :
    (∃ notes, outcome mentions = .ok notes) ↔ ∀ x ∈ mentions, mistake? x = none := by
  rw [← List.findSome?_eq_none_iff]
  unfold outcome
  cases mentions.findSome? mistake? <;> simp

theorem outcome_notes {mentions : List (Trail × Mention)} (h : outcome mentions = .ok notes) :
    notes = mentions.filterMap note? := by
  unfold outcome at h
  split at h <;> cases h
  rfl

/-- The rules that the mentions of a unit have to keep. -/
theorem keeps_rules_iff {mentions : List (Trail × Mention)} :
    (∀ x ∈ mentions, mistake? x = none) ↔
      (∀ τ keyword, (τ, .breaks keyword) ∈ mentions → τ.inLoop) ∧
      (∀ τ keyword, (τ, .returns keyword) ∈ mentions → τ.inFunction) ∧
      (∀ τ id keyword, (τ, .this id keyword) ∈ mentions → τ.inClass) ∧
      ∀ τ id name, (τ, .reads id name) ∈ mentions → ¬τ.initialises name.lexeme := by
  constructor
  · intro h
    refine ⟨fun τ keyword hx => ?_, fun τ keyword hx => ?_, fun τ id keyword hx => ?_,
      fun τ id name hx => ?_⟩
    all_goals simpa [mistake?] using h _ hx
  · rintro ⟨hbreaks, hreturns, hthis, hreads⟩ ⟨τ, m⟩ hx
    cases m with
    | breaks keyword => exact if_pos (hbreaks τ keyword hx)
    | returns keyword => exact if_pos (hreturns τ keyword hx)
    | this id keyword => exact if_pos (hthis τ id keyword hx)
    | reads id name => exact if_neg (hreads τ id name hx)
    | assigns id name => rfl

theorem outcome_eq_error {mentions : List (Trail × Mention)} :
    outcome mentions = .error e ↔ mentions.findSome? mistake? = some e := by
  unfold outcome
  cases mentions.findSome? mistake? <;> simp

end Scope

-- ---------------------------------------------------------------------------
-- Mentions and nodes
-- ---------------------------------------------------------------------------

/-- The nodes of the mentions that refer to a variable. -/
def mentionedIds (mentions : List (Trail × Mention)) : List NodeId :=
  mentions.filterMap fun x => x.2.refers?.map Prod.fst

theorem mentionedIds_append (first second : List (Trail × Mention)) :
    mentionedIds (first ++ second) = mentionedIds first ++ mentionedIds second :=
  List.filterMap_append ..

mutual

theorem Expr.mentions_ids (τ : Trail) : ∀ e : Expr, (mentionedIds (e.mentions τ)).Perm e.ids
  | .literal _ => .refl _
  | .group inner => inner.mentions_ids τ
  | .unary _ right => right.mentions_ids τ
  | .get object _ => object.mentions_ids τ
  | .binary _ left right => by
    rw [Expr.mentions, mentionedIds_append]
    exact (left.mentions_ids τ).append (right.mentions_ids τ)
  | .logical _ left right => by
    rw [Expr.mentions, mentionedIds_append]
    exact (left.mentions_ids τ).append (right.mentions_ids τ)
  | .index target _ position => by
    rw [Expr.mentions, mentionedIds_append]
    exact (target.mentions_ids τ).append (position.mentions_ids τ)
  | .conditional condition yes no => by
    rw [Expr.mentions, mentionedIds_append, mentionedIds_append]
    exact ((condition.mentions_ids τ).append (yes.mentions_ids τ)).append (no.mentions_ids τ)
  | .var _ _ => .refl _
  | .this _ _ => .refl _
  | .assign id name value => by
    rw [Expr.mentions, mentionedIds_append]
    exact (value.mentions_ids τ).append_right [id]
  | .call callee _ arguments => by
    rw [Expr.mentions, mentionedIds_append]
    exact (callee.mentions_ids τ).append (Expr.mentionsOfAll_ids τ arguments)
  | .set object _ value => by
    rw [Expr.mentions, mentionedIds_append]
    exact ((value.mentions_ids τ).append (object.mentions_ids τ)).trans List.perm_append_comm
  | .array elements => Expr.mentionsOfAll_ids τ elements

theorem Expr.mentionsOfAll_ids (τ : Trail) :
    ∀ es : List Expr, (mentionedIds (Expr.mentionsOfAll τ es)).Perm (Expr.idsOfAll es)
  | [] => .refl _
  | e :: rest => by
    rw [Expr.mentionsOfAll, mentionedIds_append]
    exact (e.mentions_ids τ).append (Expr.mentionsOfAll_ids τ rest)

end

mutual

theorem Stmt.mentions_ids (τ : Trail) : ∀ s : Stmt, (mentionedIds (s.mentions τ)).Perm s.ids
  | .expression e => e.mentions_ids τ
  | .print e => e.mentions_ids τ
  | .var _ none => .refl _
  | .var _ (some e) => e.mentions_ids _
  | .block body => Stmt.mentionsOfAll_ids _ [] body
  | .ifElse condition yes none => by
    rw [Stmt.mentions, mentionedIds_append]
    exact (condition.mentions_ids τ).append (yes.mentions_ids τ)
  | .ifElse condition yes (some no) => by
    rw [Stmt.mentions, mentionedIds_append, mentionedIds_append]
    exact ((condition.mentions_ids τ).append (yes.mentions_ids τ)).append (no.mentions_ids τ)
  | .whileLoop condition body => by
    rw [Stmt.mentions, mentionedIds_append]
    exact (condition.mentions_ids τ).append (body.mentions_ids _)
  | .breakLoop _ => .refl _
  | .function routine => routine.mentions_ids τ
  | .classDecl _ methods classMethods => by
    rw [Stmt.mentions, mentionedIds_append]
    exact (Routine.mentionsOfAll_ids _ methods).append (Routine.mentionsOfAll_ids _ classMethods)
  | .returnValue _ none => .refl _
  | .returnValue _ (some e) => e.mentions_ids τ
  | .importModule _ _ => .refl _
  | .exportDecl _ declaration => declaration.mentions_ids τ

theorem Stmt.mentionsOfAll_ids (stands : List Stmt → Trail) (before : List Stmt) :
    ∀ body : List Stmt,
      (mentionedIds (Stmt.mentionsOfAll stands before body)).Perm (Stmt.idsOfAll body)
  | [] => .refl _
  | s :: rest => by
    rw [Stmt.mentionsOfAll, mentionedIds_append]
    exact (s.mentions_ids _).append (Stmt.mentionsOfAll_ids stands _ rest)

theorem Routine.mentions_ids (τ : Trail) :
    ∀ r : Routine, (mentionedIds (r.mentions τ)).Perm r.ids
  | ⟨_, _, body⟩ => Stmt.mentionsOfAll_ids _ [] body

theorem Routine.mentionsOfAll_ids (τ : Trail) :
    ∀ rs : List Routine, (mentionedIds (Routine.mentionsOfAll τ rs)).Perm (Routine.idsOfAll rs)
  | [] => .refl _
  | r :: rest => by
    rw [Routine.mentionsOfAll, mentionedIds_append]
    exact (r.mentions_ids τ).append (Routine.mentionsOfAll_ids τ rest)

end

theorem mem_unitMentions_ids {id : NodeId} : id ∈ Stmt.idsOfAll body ↔
    ∃ τ m name, (τ, m) ∈ unitMentions body ∧ m.refers? = some (id, name) := by
  rw [← (Stmt.mentionsOfAll_ids (fun _ => []) [] body).mem_iff, ← unitMentions, mentionedIds,
    List.mem_filterMap]
  simp only [Option.map_eq_some_iff, Prod.exists]
  constructor
  · rintro ⟨τ, m, hmem, _, name, hm, rfl⟩
    exact ⟨τ, m, name, hmem, hm⟩
  · rintro ⟨τ, m, name, hmem, hm⟩
    exact ⟨τ, m, hmem, id, name, hm, rfl⟩

namespace Scope

theorem mem_notes {mentions : List (Trail × Mention)} {id : NodeId} :
    (id, d) ∈ mentions.filterMap note? ↔ ∃ τ m name, (τ, m) ∈ mentions ∧
      m.refers? = some (id, name) ∧ τ.distance? name.lexeme = some d := by
  simp only [List.mem_filterMap, note?, Option.bind_eq_some_iff, Option.map_eq_some_iff,
    Prod.exists]
  constructor
  · rintro ⟨τ, m, hmem, node, name, hm, distance, hd, heq⟩
    cases heq
    exact ⟨τ, m, name, hmem, hm, hd⟩
  · rintro ⟨τ, m, name, hmem, hm, hd⟩
    exact ⟨τ, m, hmem, id, name, hm, d, hd, rfl⟩

theorem notes_sublist (mentions : List (Trail × Mention)) :
    ((mentions.filterMap note?).map Prod.fst).Sublist (mentionedIds mentions) := by
  induction mentions with
  | nil => exact .refl _
  | cons x rest ih =>
    obtain ⟨τ, m⟩ := x
    cases hm : m.refers? with
    | none => simpa [mentionedIds, note?, hm] using ih
    | some node =>
      obtain ⟨id, name⟩ := node
      cases hd : τ.distance? name.lexeme with
      | none => simpa [mentionedIds, note?, hm, hd] using ih.cons id
      | some d => simpa [mentionedIds, note?, hm, hd] using ih.cons_cons id

theorem lookup_eq_some_iff_mem {notes : List Note} {id : NodeId} {d : Nat}
    (hnodup : (notes.map Prod.fst).Nodup) : notes.lookup id = some d ↔ (id, d) ∈ notes := by
  induction notes with
  | nil => simp
  | cons note notes ih =>
    obtain ⟨node, distance⟩ := note
    rw [List.map_cons, List.nodup_cons] at hnodup
    rw [List.lookup_cons, List.mem_cons]
    by_cases h : id = node
    · subst h
      have hnot : (id, d) ∉ notes := fun hmem =>
        hnodup.1 (List.mem_map.2 ⟨(id, d), hmem, rfl⟩)
      simp [hnot, eq_comm]
    · simp [h, beq_false_of_ne h, ih hnodup.2]

end Scope

/-- When all nodes are different, no node has two mentions. -/
theorem mention_unique {mentions : List (Trail × Mention)} {id : NodeId}
    (hnodup : (mentionedIds mentions).Nodup) (hx : x ∈ mentions) (hy : y ∈ mentions)
    (hxid : x.2.refers? = some (id, name)) (hyid : y.2.refers? = some (id, name')) : x = y := by
  induction mentions with
  | nil => cases hx
  | cons z rest ih =>
    have later {w : Trail × Mention} {other : Token} (hw : w ∈ rest)
        (hwid : w.2.refers? = some (id, other)) : id ∈ mentionedIds rest :=
      List.mem_filterMap.2 ⟨w, hw, by rw [hwid]; rfl⟩
    have first {other : Token} (hzid : z.2.refers? = some (id, other)) :
        id ∉ mentionedIds rest := by
      rw [mentionedIds, List.filterMap_cons_some (by rw [hzid]; rfl), List.nodup_cons] at hnodup
      exact hnodup.1
    have hrest : (mentionedIds rest).Nodup :=
      hnodup.sublist ((List.sublist_cons_self z rest).filterMap _)
    rcases List.mem_cons.1 hx with rfl | hx'
    · rcases List.mem_cons.1 hy with rfl | hy'
      · rfl
      · exact absurd (later hy' hyid) (first hxid)
    · rcases List.mem_cons.1 hy with rfl | hy'
      · exact absurd (later hx' hxid) (first hyid)
      · exact ih hrest hx' hy'

/-- When all nodes are different, each has the note that its mention asks for. -/
theorem distance?_of_mention {mentions : List (Trail × Mention)} {id : NodeId}
    (hnodup : (mentionedIds mentions).Nodup) (hx : (τ, m) ∈ mentions)
    (hm : m.refers? = some (id, name)) :
    (⟨tree, mentions.filterMap Scope.note?, next⟩ : Prepared α).distance? id =
      τ.distance? name.lexeme := by
  have hnotes := hnodup.sublist (Scope.notes_sublist mentions)
  ext d
  rw [Prepared.distance?,
    Scope.lookup_eq_some_iff_mem (by rwa [List.map_reverse, List.nodup_reverse]),
    List.mem_reverse, Scope.mem_notes]
  constructor
  · rintro ⟨τ', m', name', hx', hm', hd⟩
    cases mention_unique hnodup hx hx' hm hm'
    cases hm.symm.trans hm'
    exact hd
  · exact fun hd => ⟨τ, m, name, hx, hm, hd⟩

theorem distance?_of_not_mentioned {mentions : List (Trail × Mention)} {id : NodeId}
    (hid : id ∉ mentionedIds mentions) :
    (⟨tree, mentions.filterMap Scope.note?, next⟩ : Prepared α).distance? id = none := by
  rw [Prepared.distance?, List.lookup_eq_none_iff]
  intro note hnote
  refine bne_iff_ne.2 fun heq => hid ?_
  rw [heq]
  exact (Scope.notes_sublist mentions).subset (List.mem_map_of_mem (List.mem_reverse.1 hnote))

/-- Whether a unit that was read is accepted, which mistake it is refused for, and what is noted
for its nodes: as the scopes around its mentions say. -/
theorem scoping_is_declarative (h : Parser.program tokens start = (.ok body, next)) :
    ((∃ notes, Scope.program body = .ok notes) ↔
      (∀ τ keyword, (τ, .breaks keyword) ∈ unitMentions body → τ.inLoop) ∧
      (∀ τ keyword, (τ, .returns keyword) ∈ unitMentions body → τ.inFunction) ∧
      (∀ τ id keyword, (τ, .this id keyword) ∈ unitMentions body → τ.inClass) ∧
      ∀ τ id name, (τ, .reads id name) ∈ unitMentions body → ¬τ.initialises name.lexeme) ∧
    (∀ e, Scope.program body = .error e ↔
      (unitMentions body).findSome? Scope.mistake? = some e) ∧
    ∀ notes, Scope.program body = .ok notes → ∀ units s, Reachable units s → s.nextId = start →
      (∀ τ m id name, (τ, m) ∈ unitMentions body → m.refers? = some (id, name) →
        (s.commit (⟨body, notes, next⟩ : Prepared (List Stmt))).distances[id]? =
          τ.distance? name.lexeme) ∧
      ∀ id, id ∉ Stmt.idsOfAll body →
        (s.commit (⟨body, notes, next⟩ : Prepared (List Stmt))).distances[id]? =
          s.distances[id]? := by
  obtain ⟨hfresh, hproper⟩ := Parser.program_makes h
  rw [Scope.program_eq_outcome hproper]
  refine ⟨?_, fun e => Scope.outcome_eq_error, ?_⟩
  · rw [Scope.outcome_eq_ok, Scope.keeps_rules_iff]
  · intro notes hnotes units s hs rfl
    obtain rfl := Scope.outcome_notes hnotes
    have hids := Stmt.mentionsOfAll_ids (fun _ => []) [] body
    rw [← unitMentions] at hids
    obtain ⟨hA, -⟩ := hs.accepted
    refine ⟨fun τ m id name hx hm => ?_, fun id hid => ?_⟩
    · have hid : id ∈ Stmt.idsOfAll body := mem_unitMentions_ids.2 ⟨τ, m, name, hx, hm⟩
      have hnone : s.distances[id]? = none := by
        cases hd : s.distances[id]? with
        | none => rfl
        | some d => exact absurd (hA.distances id d hd) (Nat.not_lt.2 (hfresh.range id hid).1)
      rw [getElem?_commit, hnone, Option.or_none]
      exact distance?_of_mention (hids.nodup_iff.2 hfresh.nodup) hx hm
    · rw [getElem?_commit, distance?_of_not_mentioned fun hmem => hid (hids.mem_iff.1 hmem),
        Option.none_or]

/-- The variable of a block, read in the block. -/
theorem block_variable_is_noted :
    let name : Token := ⟨.identifier, "a", 1⟩
    let semicolon : Token := ⟨.semicolon, ";", 1⟩
    let body : List Stmt := [.block [.var name none, .expression (.var 0 name)]]
    Parser.program [⟨.leftBrace, "\x7b", 1⟩, ⟨.kwVar, "var", 1⟩, name, semicolon, name, semicolon,
      ⟨.rightBrace, "\x7d", 1⟩] 0 = (.ok body, 1) ∧
    Scope.program body = .ok [(0, 0)] ∧
    ((Session.start (fun _ => none) none (.still 0)).commit
      (⟨body, [(0, 0)], 1⟩ : Prepared (List Stmt))).distances[(0 : NodeId)]? = some 0 := by
  intro name semicolon body
  have hread : Parser.program [⟨.leftBrace, "\x7b", 1⟩, ⟨.kwVar, "var", 1⟩, name, semicolon, name,
      semicolon, ⟨.rightBrace, "\x7d", 1⟩] 0 = (.ok body, 1) := rfl
  have hwalk : Scope.program body = .ok [(0, 0)] := rfl
  obtain ⟨-, -, hnoted⟩ := scoping_is_declarative hread
  have hmention : unitMentions body =
      [([.block [.var name none, .expression (.var 0 name)]], .reads 0 name)] := rfl
  refine ⟨hread, hwalk, ?_⟩
  rw [(hnoted _ hwalk [] _ .start rfl).1 _ _ 0 name (hmention ▸ List.mem_singleton_self _) rfl]
  decide

end Treewalk
