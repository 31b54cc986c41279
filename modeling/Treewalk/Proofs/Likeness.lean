import Treewalk.Proofs.Holdings

/-!
# Trees and values alike

Two trees are alike when they differ in the identities of their nodes and in the names of local
variables only: nodes stand for nodes with the same noted distance, and the names of each scope are
changed by one renaming, in the declarations and wherever a node leads to the scope. Names that no
scope binds are the same in both. Values are alike when the functions in them are; what programs
compute of a value does not tell it from one that is alike.
-/

namespace Treewalk

-- ---------------------------------------------------------------------------
-- Renamings
-- ---------------------------------------------------------------------------

/-- A change of names that keeps different names different. -/
abbrev Renaming := Equiv.Perm String

def Token.renamed (ρ : Renaming) (t : Token) : Token :=
  { t with lexeme := ρ t.lexeme }

@[simp] theorem Token.renamed_one (t : Token) : t.renamed 1 = t := rfl

theorem Token.renamed_eq_id : Token.renamed 1 = id := rfl

@[simp] theorem Token.lexeme_renamed (ρ : Renaming) (t : Token) :
    (t.renamed ρ).lexeme = ρ t.lexeme := rfl

/-- The renaming of each open scope, by its distance. -/
abbrev Renamings := Nat → Renaming

namespace Renamings

def plain : Renamings :=
  fun _ => 1

/-- The renamings inside a new scope. -/
def inside (ρ : Renaming) (env : Renamings) : Renamings
  | 0 => ρ
  | d + 1 => env d

/-- The renaming for a node with this distance. What has none is global and keeps its name. -/
def found (env : Renamings) : Option Nat → Renaming
  | some d => env d
  | none => 1

theorem inside_names {names : Renaming → Prop} (hρ : names ρ) (h : ∀ d, names (env d)) :
    ∀ d, names (inside ρ env d)
  | 0 => hρ
  | d + 1 => h d

@[simp] theorem inside_plain : inside 1 plain = plain := by
  funext d
  cases d <;> rfl

@[simp] theorem found_plain (d : Option Nat) : plain.found d = 1 := by
  cases d <;> rfl

end Renamings

open Renamings (plain inside)

-- ---------------------------------------------------------------------------
-- Trees
-- ---------------------------------------------------------------------------

/-- Which nodes stand for each other, and the distance that is noted for both. -/
abbrev Pairing :=
  NodeId → NodeId → Option Nat → Prop

mutual

inductive Expr.Like (N : Pairing) (env : Renamings) : Expr → Expr → Prop
  | literal (value : Literal) : Expr.Like N env (.literal value) (.literal value)
  | unary (op : Token) : Expr.Like N env right right' →
    Expr.Like N env (.unary op right) (.unary op right')
  | binary (op : Token) : Expr.Like N env left left' → Expr.Like N env right right' →
    Expr.Like N env (.binary op left right) (.binary op left' right')
  | logical (op : Token) : Expr.Like N env left left' → Expr.Like N env right right' →
    Expr.Like N env (.logical op left right) (.logical op left' right')
  | conditional : Expr.Like N env condition condition' → Expr.Like N env yes yes' →
    Expr.Like N env no no' →
    Expr.Like N env (.conditional condition yes no) (.conditional condition' yes' no')
  | group : Expr.Like N env e e' → Expr.Like N env (.group e) (.group e')
  | var (name : Token) : N node node' d →
    Expr.Like N env (.var node name) (.var node' (name.renamed (env.found d)))
  | assign (name : Token) : N node node' d → Expr.Like N env value value' →
    Expr.Like N env (.assign node name value) (.assign node' (name.renamed (env.found d)) value')
  | call (paren : Token) : Expr.Like N env callee callee' →
    Expr.AllLike N env arguments arguments' →
    Expr.Like N env (.call callee paren arguments) (.call callee' paren arguments')
  | get (name : Token) : Expr.Like N env object object' →
    Expr.Like N env (.get object name) (.get object' name)
  | set (name : Token) : Expr.Like N env object object' → Expr.Like N env value value' →
    Expr.Like N env (.set object name value) (.set object' name value')
  | this (keyword : Token) : N node node' d →
    Expr.Like N env (.this node keyword) (.this node' (keyword.renamed (env.found d)))
  | array : Expr.AllLike N env elements elements' →
    Expr.Like N env (.array elements) (.array elements')
  | index (bracket : Token) : Expr.Like N env target target' →
    Expr.Like N env position position' →
    Expr.Like N env (.index target bracket position) (.index target' bracket position')

inductive Expr.AllLike (N : Pairing) (env : Renamings) : List Expr → List Expr → Prop
  | nil : Expr.AllLike N env [] []
  | cons : Expr.Like N env e e' → Expr.AllLike N env es es' →
    Expr.AllLike N env (e :: es) (e' :: es')

end

mutual

/-- The scopes in the statement are renamed in ways that `names` admits. Functions, classes and
exported names keep their name, and an import stands only where all names do. -/
inductive Stmt.Like (names : Renaming → Prop) (N : Pairing) : Renamings → Stmt → Stmt → Prop
  | expression : Expr.Like N env e e' → Stmt.Like names N env (.expression e) (.expression e')
  | print : Expr.Like N env e e' → Stmt.Like names N env (.print e) (.print e')
  | var (name : Token) : Option.Rel (Expr.Like N env) initial initial' →
    Stmt.Like names N env (.var name initial) (.var (name.renamed (env 0)) initial')
  | block : names ρ → Stmt.AllLike names N (inside ρ env) body body' →
    Stmt.Like names N env (.block body) (.block body')
  | ifOnly : Expr.Like N env condition condition' → Stmt.Like names N env yes yes' →
    Stmt.Like names N env (.ifElse condition yes none) (.ifElse condition' yes' none)
  | ifElse : Expr.Like N env condition condition' → Stmt.Like names N env yes yes' →
    Stmt.Like names N env no no' →
    Stmt.Like names N env (.ifElse condition yes (some no)) (.ifElse condition' yes' (some no'))
  | whileLoop : Expr.Like N env condition condition' → Stmt.Like names N env body body' →
    Stmt.Like names N env (.whileLoop condition body) (.whileLoop condition' body')
  | breakLoop (keyword : Token) : Stmt.Like names N env (.breakLoop keyword) (.breakLoop keyword)
  | function : env 0 routine.name.lexeme = routine.name.lexeme →
    Routine.Like names N env routine routine' →
    Stmt.Like names N env (.function routine) (.function routine')
  | classDecl : env 0 name.lexeme = name.lexeme →
    Routine.AllLike names N (inside 1 env) methods methods' →
    Routine.AllLike names N (inside 1 env) classMethods classMethods' →
    Stmt.Like names N env (.classDecl name methods classMethods)
      (.classDecl name methods' classMethods')
  | returnValue (keyword : Token) : Option.Rel (Expr.Like N env) value value' →
    Stmt.Like names N env (.returnValue keyword value) (.returnValue keyword value')
  | importModule (keyword path : Token) : env 0 = 1 →
    Stmt.Like names N env (.importModule keyword path) (.importModule keyword path)
  | exportDecl (keyword : Token) :
    (∀ name, declaration.declared? = some name → env 0 name.lexeme = name.lexeme) →
    Stmt.Like names N env declaration declaration' →
    Stmt.Like names N env (.exportDecl keyword declaration) (.exportDecl keyword declaration')

inductive Stmt.AllLike (names : Renaming → Prop) (N : Pairing) :
    Renamings → List Stmt → List Stmt → Prop
  | nil : Stmt.AllLike names N env [] []
  | cons : Stmt.Like names N env s s' → Stmt.AllLike names N env rest rest' →
    Stmt.AllLike names N env (s :: rest) (s' :: rest')

/-- The parameters are renamed with the scope that they share with the body. -/
inductive Routine.Like (names : Renaming → Prop) (N : Pairing) :
    Renamings → Routine → Routine → Prop
  | intro (name : Token) (params : Option (List Token)) : names ρ →
    Stmt.AllLike names N (inside ρ env) body body' →
    Routine.Like names N env ⟨name, params, body⟩
      ⟨name, params.map (List.map (Token.renamed ρ)), body'⟩

inductive Routine.AllLike (names : Renaming → Prop) (N : Pairing) :
    Renamings → List Routine → List Routine → Prop
  | nil : Routine.AllLike names N env [] []
  | cons : Routine.Like names N env r r' → Routine.AllLike names N env rest rest' →
    Routine.AllLike names N env (r :: rest) (r' :: rest')

end

/-- At the top level no name is changed. -/
inductive Line.Like (names : Renaming → Prop) (N : Pairing) : Line → Line → Prop
  | statements : Stmt.AllLike names N plain body body' →
    Line.Like names N (.statements body) (.statements body')
  | expression : Expr.Like N plain e e' → Line.Like names N (.expression e) (.expression e')

inductive Opener.Like (names : Renaming → Prop) (N : Pairing) : Opener → Opener → Prop
  | block : (∀ d, names (env d)) → Stmt.AllLike names N env body body' →
    Opener.Like names N (.block body) (.block body')
  | call : (∀ d, names (env d)) → Routine.Like names N env routine routine' →
    Opener.Like names N (.call routine) (.call routine')
  | receiver : (∀ d, names (env d)) → Routine.Like names N env method method' →
    Opener.Like names N (.receiver method) (.receiver method')

/-- More pairs of nodes leave alike what is alike. -/
def Pairing.Le (N N' : Pairing) : Prop :=
  ∀ i j d, N i j d → N' i j d

section
variable {N N' : Pairing} {names : Renaming → Prop}

mutual

theorem Expr.Like.mono (hN : N.Le N') (h : Expr.Like N env e e') : Expr.Like N' env e e' := by
  cases h with
  | literal => exact .literal _
  | unary _ h => exact .unary _ (h.mono hN)
  | binary _ h₁ h₂ => exact .binary _ (h₁.mono hN) (h₂.mono hN)
  | logical _ h₁ h₂ => exact .logical _ (h₁.mono hN) (h₂.mono hN)
  | conditional h₁ h₂ h₃ => exact .conditional (h₁.mono hN) (h₂.mono hN) (h₃.mono hN)
  | group h => exact .group (h.mono hN)
  | var _ h => exact .var _ (hN _ _ _ h)
  | assign _ h h₁ => exact .assign _ (hN _ _ _ h) (h₁.mono hN)
  | call _ h hs => exact .call _ (h.mono hN) (hs.mono hN)
  | get _ h => exact .get _ (h.mono hN)
  | set _ h₁ h₂ => exact .set _ (h₁.mono hN) (h₂.mono hN)
  | this _ h => exact .this _ (hN _ _ _ h)
  | array hs => exact .array (hs.mono hN)
  | index _ h₁ h₂ => exact .index _ (h₁.mono hN) (h₂.mono hN)

theorem Expr.AllLike.mono (hN : N.Le N') (h : Expr.AllLike N env es es') :
    Expr.AllLike N' env es es' := by
  cases h with
  | nil => exact .nil
  | cons h hs => exact .cons (h.mono hN) (hs.mono hN)

end

theorem Expr.optionLike_mono (hN : N.Le N') (h : Option.Rel (Expr.Like N env) e e') :
    Option.Rel (Expr.Like N' env) e e' := by
  cases h with
  | some h => exact .some (h.mono hN)
  | none => exact .none

mutual

theorem Stmt.Like.mono (hN : N.Le N') (h : Stmt.Like names N env s s') :
    Stmt.Like names N' env s s' := by
  cases h with
  | expression h => exact .expression (h.mono hN)
  | print h => exact .print (h.mono hN)
  | var _ h => exact .var _ (Expr.optionLike_mono hN h)
  | block hρ hs => exact .block hρ (hs.mono hN)
  | ifOnly h h₁ => exact .ifOnly (h.mono hN) (h₁.mono hN)
  | ifElse h h₁ h₂ => exact .ifElse (h.mono hN) (h₁.mono hN) (h₂.mono hN)
  | whileLoop h h₁ => exact .whileLoop (h.mono hN) (h₁.mono hN)
  | breakLoop => exact .breakLoop _
  | function hname h => exact .function hname (h.mono hN)
  | classDecl hname h₁ h₂ => exact .classDecl hname (h₁.mono hN) (h₂.mono hN)
  | returnValue _ h => exact .returnValue _ (Expr.optionLike_mono hN h)
  | importModule _ _ h => exact .importModule _ _ h
  | exportDecl _ hname h => exact .exportDecl _ hname (h.mono hN)
termination_by sizeOf s
decreasing_by all_goals subst_vars; simp_wf <;> omega

theorem Stmt.AllLike.mono (hN : N.Le N') (h : Stmt.AllLike names N env body body') :
    Stmt.AllLike names N' env body body' := by
  cases h with
  | nil => exact .nil
  | cons h hs => exact .cons (h.mono hN) (hs.mono hN)
termination_by sizeOf body
decreasing_by all_goals subst_vars; simp_wf <;> omega

theorem Routine.Like.mono (hN : N.Le N') (h : Routine.Like names N env r r') :
    Routine.Like names N' env r r' := by
  cases h with
  | intro _ _ hρ h => exact .intro _ _ hρ (h.mono hN)
termination_by sizeOf r
decreasing_by all_goals subst_vars; simp_wf

theorem Routine.AllLike.mono (hN : N.Le N') (h : Routine.AllLike names N env rs rs') :
    Routine.AllLike names N' env rs rs' := by
  cases h with
  | nil => exact .nil
  | cons h hs => exact .cons (h.mono hN) (hs.mono hN)
termination_by sizeOf rs
decreasing_by all_goals subst_vars; simp_wf <;> omega

end

theorem Opener.Like.mono (hN : N.Le N') (h : Opener.Like names N o o') :
    Opener.Like names N' o o' := by
  cases h with
  | block henv h => exact .block henv (h.mono hN)
  | call henv h => exact .call henv (h.mono hN)
  | receiver henv h => exact .receiver henv (h.mono hN)

theorem Line.Like.mono (hN : N.Le N') (h : Line.Like names N l l') : Line.Like names N' l l' := by
  cases h with
  | statements h => exact .statements (h.mono hN)
  | expression h => exact .expression (h.mono hN)

theorem Routine.Like.name (h : Routine.Like names N env r r') : r'.name = r.name := by
  cases h
  rfl

theorem Routine.Like.isGetter (h : Routine.Like names N env r r') : r'.isGetter = r.isGetter := by
  cases h with
  | intro name params => cases params <;> rfl

theorem Routine.Like.arity (h : Routine.Like names N env r r') : r'.arity = r.arity := by
  cases h with
  | intro name params =>
    cases params with
    | none => rfl
    | some params => exact List.length_map _

theorem Stmt.Like.declared? (h : Stmt.Like names N env s s')
    (hname : ∀ name, s.declared? = some name → env 0 name.lexeme = name.lexeme) :
    s'.declared? = s.declared? := by
  cases h with
  | var name =>
    have heq : name.renamed (env 0) = name := by
      simp only [Token.renamed, hname name rfl]
    exact congrArg some heq
  | function _ h => exact congrArg some h.name
  | _ => rfl

end

-- ---------------------------------------------------------------------------
-- Numbering
-- ---------------------------------------------------------------------------

mutual

/-- The tree with other identities for its nodes. -/
def Expr.numbered (f : NodeId → NodeId) : Expr → Expr
  | .literal value => .literal value
  | .unary op right => .unary op (right.numbered f)
  | .binary op left right => .binary op (left.numbered f) (right.numbered f)
  | .logical op left right => .logical op (left.numbered f) (right.numbered f)
  | .conditional condition yes no =>
    .conditional (condition.numbered f) (yes.numbered f) (no.numbered f)
  | .group inner => .group (inner.numbered f)
  | .var id name => .var (f id) name
  | .assign id name value => .assign (f id) name (value.numbered f)
  | .call callee paren arguments => .call (callee.numbered f) paren (Expr.numberedAll f arguments)
  | .get object name => .get (object.numbered f) name
  | .set object name value => .set (object.numbered f) name (value.numbered f)
  | .this id keyword => .this (f id) keyword
  | .array elements => .array (Expr.numberedAll f elements)
  | .index target bracket position => .index (target.numbered f) bracket (position.numbered f)

def Expr.numberedAll (f : NodeId → NodeId) : List Expr → List Expr
  | [] => []
  | e :: rest => e.numbered f :: Expr.numberedAll f rest

end

mutual

def Stmt.numbered (f : NodeId → NodeId) : Stmt → Stmt
  | .expression e => .expression (e.numbered f)
  | .print e => .print (e.numbered f)
  | .var name initial => .var name (initial.map (Expr.numbered f))
  | .block body => .block (Stmt.numberedAll f body)
  | .ifElse condition yes none => .ifElse (condition.numbered f) (yes.numbered f) none
  | .ifElse condition yes (some no) =>
    .ifElse (condition.numbered f) (yes.numbered f) (some (no.numbered f))
  | .whileLoop condition body => .whileLoop (condition.numbered f) (body.numbered f)
  | .breakLoop keyword => .breakLoop keyword
  | .function routine => .function (routine.numbered f)
  | .classDecl name methods classMethods =>
    .classDecl name (Routine.numberedAll f methods) (Routine.numberedAll f classMethods)
  | .returnValue keyword value => .returnValue keyword (value.map (Expr.numbered f))
  | .importModule keyword path => .importModule keyword path
  | .exportDecl keyword declaration => .exportDecl keyword (declaration.numbered f)

def Stmt.numberedAll (f : NodeId → NodeId) : List Stmt → List Stmt
  | [] => []
  | s :: rest => s.numbered f :: Stmt.numberedAll f rest

def Routine.numbered (f : NodeId → NodeId) : Routine → Routine
  | ⟨name, params, body⟩ => ⟨name, params, Stmt.numberedAll f body⟩

def Routine.numberedAll (f : NodeId → NodeId) : List Routine → List Routine
  | [] => []
  | r :: rest => r.numbered f :: Routine.numberedAll f rest

end

def Line.numbered (f : NodeId → NodeId) : Line → Line
  | .statements body => .statements (Stmt.numberedAll f body)
  | .expression e => .expression (e.numbered f)

mutual

theorem Expr.numbered_id : ∀ e : Expr, e.numbered id = e
  | .literal _ => rfl
  | .unary _ right => by rw [Expr.numbered, right.numbered_id]
  | .binary _ left right => by rw [Expr.numbered, left.numbered_id, right.numbered_id]
  | .logical _ left right => by rw [Expr.numbered, left.numbered_id, right.numbered_id]
  | .conditional condition yes no => by
    rw [Expr.numbered, condition.numbered_id, yes.numbered_id, no.numbered_id]
  | .group inner => by rw [Expr.numbered, inner.numbered_id]
  | .var _ _ => rfl
  | .assign _ _ value => by rw [Expr.numbered, value.numbered_id, id]
  | .call callee _ arguments => by
    rw [Expr.numbered, callee.numbered_id, Expr.numberedAll_id arguments]
  | .get object _ => by rw [Expr.numbered, object.numbered_id]
  | .set object _ value => by rw [Expr.numbered, object.numbered_id, value.numbered_id]
  | .this _ _ => rfl
  | .array elements => by rw [Expr.numbered, Expr.numberedAll_id elements]
  | .index target _ position => by rw [Expr.numbered, target.numbered_id, position.numbered_id]

theorem Expr.numberedAll_id : ∀ es : List Expr, Expr.numberedAll id es = es
  | [] => rfl
  | e :: rest => by rw [Expr.numberedAll, e.numbered_id, Expr.numberedAll_id rest]

end

theorem Expr.map_numbered_id (e : Option Expr) : e.map (Expr.numbered id) = e := by
  rw [show Expr.numbered id = id from funext Expr.numbered_id, Option.map_id, id]

mutual

theorem Stmt.numbered_id : ∀ s : Stmt, s.numbered id = s
  | .expression e => by rw [Stmt.numbered, e.numbered_id]
  | .print e => by rw [Stmt.numbered, e.numbered_id]
  | .var _ initial => by rw [Stmt.numbered, Expr.map_numbered_id]
  | .block body => by rw [Stmt.numbered, Stmt.numberedAll_id body]
  | .ifElse condition yes none => by rw [Stmt.numbered, condition.numbered_id, yes.numbered_id]
  | .ifElse condition yes (some no) => by
    rw [Stmt.numbered, condition.numbered_id, yes.numbered_id, no.numbered_id]
  | .whileLoop condition body => by rw [Stmt.numbered, condition.numbered_id, body.numbered_id]
  | .breakLoop _ => rfl
  | .function routine => by rw [Stmt.numbered, routine.numbered_id]
  | .classDecl _ methods classMethods => by
    rw [Stmt.numbered, Routine.numberedAll_id methods, Routine.numberedAll_id classMethods]
  | .returnValue _ value => by rw [Stmt.numbered, Expr.map_numbered_id]
  | .importModule _ _ => rfl
  | .exportDecl _ declaration => by rw [Stmt.numbered, declaration.numbered_id]

theorem Stmt.numberedAll_id : ∀ body : List Stmt, Stmt.numberedAll id body = body
  | [] => rfl
  | s :: rest => by rw [Stmt.numberedAll, s.numbered_id, Stmt.numberedAll_id rest]

theorem Routine.numbered_id : ∀ r : Routine, r.numbered id = r
  | ⟨_, _, body⟩ => by rw [Routine.numbered, Stmt.numberedAll_id body]

theorem Routine.numberedAll_id : ∀ rs : List Routine, Routine.numberedAll id rs = rs
  | [] => rfl
  | r :: rest => by rw [Routine.numberedAll, r.numbered_id, Routine.numberedAll_id rest]

end

theorem Line.numbered_id (l : Line) : l.numbered id = l := by
  cases l with
  | statements body => rw [numbered, Stmt.numberedAll_id]
  | expression e => rw [numbered, e.numbered_id]

/-- Two numberings give nodes that stand for each other. -/
def Pairing.Pairs (N : Pairing) (f g : NodeId → NodeId) (ids : List NodeId) : Prop :=
  ∀ id ∈ ids, ∃ d, N (f id) (g id) d

section
variable {N : Pairing} {f g : NodeId → NodeId} {names : Renaming → Prop}

@[simp] theorem Pairing.pairs_append {as bs : List NodeId} :
    N.Pairs f g (as ++ bs) ↔ N.Pairs f g as ∧ N.Pairs f g bs := by
  simp only [Pairs, List.mem_append, or_imp, forall_and]

@[simp] theorem Pairing.pairs_single {node : NodeId} :
    N.Pairs f g [node] ↔ ∃ d, N (f node) (g node) d := by
  simp [Pairs]

mutual

theorem Expr.like_numbered :
    ∀ e : Expr, N.Pairs f g e.ids → Expr.Like N plain (e.numbered f) (e.numbered g)
  | .literal _, _ => .literal _
  | .unary _ right, h => .unary _ (right.like_numbered h)
  | .binary _ left right, h | .logical _ left right, h => by
    rw [Expr.ids, Pairing.pairs_append] at h
    first
      | exact .binary _ (left.like_numbered h.1) (right.like_numbered h.2)
      | exact .logical _ (left.like_numbered h.1) (right.like_numbered h.2)
  | .conditional condition yes no, h => by
    rw [Expr.ids, Pairing.pairs_append, Pairing.pairs_append] at h
    exact .conditional (condition.like_numbered h.1.1) (yes.like_numbered h.1.2)
      (no.like_numbered h.2)
  | .group inner, h => .group (inner.like_numbered h)
  | .var id name, h => by
    obtain ⟨d, hd⟩ := Pairing.pairs_single.1 h
    cases d <;> exact .var name hd
  | .assign id name value, h => by
    rw [Expr.ids, Pairing.pairs_append] at h
    obtain ⟨d, hd⟩ := Pairing.pairs_single.1 h.2
    cases d <;> exact .assign name hd (value.like_numbered h.1)
  | .call callee _ arguments, h => by
    rw [Expr.ids, Pairing.pairs_append] at h
    exact .call _ (callee.like_numbered h.1) (Expr.allLike_numbered arguments h.2)
  | .get object _, h => .get _ (object.like_numbered h)
  | .set object _ value, h => by
    rw [Expr.ids, Pairing.pairs_append] at h
    exact .set _ (object.like_numbered h.1) (value.like_numbered h.2)
  | .this id keyword, h => by
    obtain ⟨d, hd⟩ := Pairing.pairs_single.1 h
    cases d <;> exact .this keyword hd
  | .array elements, h => .array (Expr.allLike_numbered elements h)
  | .index target _ position, h => by
    rw [Expr.ids, Pairing.pairs_append] at h
    exact .index _ (target.like_numbered h.1) (position.like_numbered h.2)

theorem Expr.allLike_numbered : ∀ es : List Expr, N.Pairs f g (Expr.idsOfAll es) →
    Expr.AllLike N plain (Expr.numberedAll f es) (Expr.numberedAll g es)
  | [], _ => .nil
  | e :: rest, h => by
    rw [Expr.idsOfAll, Pairing.pairs_append] at h
    exact .cons (e.like_numbered h.1) (Expr.allLike_numbered rest h.2)

end

theorem Expr.optionLike_numbered (e : Option Expr) (h : N.Pairs f g (Expr.idsOfOption e)) :
    Option.Rel (Expr.Like N plain) (e.map (Expr.numbered f)) (e.map (Expr.numbered g)) := by
  cases e with
  | none => exact .none
  | some e => exact .some (e.like_numbered h)

mutual

theorem Stmt.like_numbered (h1 : names 1) : ∀ s : Stmt, N.Pairs f g s.ids →
    Stmt.Like names N plain (s.numbered f) (s.numbered g)
  | .expression e, h => .expression (e.like_numbered h)
  | .print e, h => .print (e.like_numbered h)
  | .var name initial, h => .var name (Expr.optionLike_numbered initial h)
  | .block body, h => .block h1 (Renamings.inside_plain.symm ▸ Stmt.allLike_numbered h1 body h)
  | .ifElse condition yes none, h => by
    rw [Stmt.ids, Pairing.pairs_append] at h
    exact .ifOnly (condition.like_numbered h.1) (yes.like_numbered h1 h.2)
  | .ifElse condition yes (some no), h => by
    rw [Stmt.ids, Pairing.pairs_append, Pairing.pairs_append] at h
    exact .ifElse (condition.like_numbered h.1.1) (yes.like_numbered h1 h.1.2)
      (no.like_numbered h1 h.2)
  | .whileLoop condition body, h => by
    rw [Stmt.ids, Pairing.pairs_append] at h
    exact .whileLoop (condition.like_numbered h.1) (body.like_numbered h1 h.2)
  | .breakLoop _, _ => .breakLoop _
  | .function routine, h => .function rfl (routine.like_numbered h1 h)
  | .classDecl name methods classMethods, h => by
    rw [Stmt.ids, Pairing.pairs_append] at h
    refine .classDecl rfl ?_ ?_
    · rw [Renamings.inside_plain]
      exact Routine.allLike_numbered h1 methods h.1
    · rw [Renamings.inside_plain]
      exact Routine.allLike_numbered h1 classMethods h.2
  | .returnValue _ value, h => .returnValue _ (Expr.optionLike_numbered value h)
  | .importModule _ _, _ => .importModule _ _ rfl
  | .exportDecl _ declaration, h => .exportDecl _ (fun _ _ => rfl) (declaration.like_numbered h1 h)

theorem Stmt.allLike_numbered (h1 : names 1) : ∀ body : List Stmt,
    N.Pairs f g (Stmt.idsOfAll body) →
    Stmt.AllLike names N plain (Stmt.numberedAll f body) (Stmt.numberedAll g body)
  | [], _ => .nil
  | s :: rest, h => by
    rw [Stmt.idsOfAll, Pairing.pairs_append] at h
    exact .cons (s.like_numbered h1 h.1) (Stmt.allLike_numbered h1 rest h.2)

theorem Routine.like_numbered (h1 : names 1) : ∀ r : Routine, N.Pairs f g r.ids →
    Routine.Like names N plain (r.numbered f) (r.numbered g)
  | ⟨name, params, body⟩, h => by
    have hbody := Stmt.allLike_numbered h1 body h
    rw [← Renamings.inside_plain] at hbody
    have hparams : params.map (List.map (Token.renamed 1)) = params := by
      simp [Token.renamed_eq_id]
    have hlike := Routine.Like.intro name params h1 hbody
    rw [hparams] at hlike
    exact hlike

theorem Routine.allLike_numbered (h1 : names 1) : ∀ rs : List Routine,
    N.Pairs f g (Routine.idsOfAll rs) →
    Routine.AllLike names N plain (Routine.numberedAll f rs) (Routine.numberedAll g rs)
  | [], _ => .nil
  | r :: rest, h => by
    rw [Routine.idsOfAll, Pairing.pairs_append] at h
    exact .cons (r.like_numbered h1 h.1) (Routine.allLike_numbered h1 rest h.2)

end

theorem Line.like_numbered (h1 : names 1) (l : Line) (h : N.Pairs f g l.ids) :
    Line.Like names N (l.numbered f) (l.numbered g) := by
  cases l with
  | statements body => exact .statements (Stmt.allLike_numbered h1 body h)
  | expression e => exact .expression (e.like_numbered h)

end

end Treewalk
