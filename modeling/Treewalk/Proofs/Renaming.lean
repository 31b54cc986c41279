import Mathlib.Logic.Equiv.Basic
import Treewalk.Proofs.Likeness

/-!
# Renaming the variable of one scope

A block or a function has variables of its own, which are declared directly in it: by `var`, or as
parameters. To give one of them another name is to change it in these declarations, and in those
nodes that are noted at the distance of the scope. The tree is then like the one before: the names
of that scope are changed by one renaming, which swaps the two names, and the names of no other
scope are.
-/

namespace Treewalk

open Renamings (plain inside)

-- ---------------------------------------------------------------------------
-- The names in a tree
-- ---------------------------------------------------------------------------

mutual

/-- The names of the variables that the expression refers to. -/
def Expr.names : Expr → List String
  | .literal _ => []
  | .unary _ right => right.names
  | .binary _ left right => left.names ++ right.names
  | .logical _ left right => left.names ++ right.names
  | .conditional condition yes no => condition.names ++ yes.names ++ no.names
  | .group inner => inner.names
  | .var _ name => [name.lexeme]
  | .assign _ name value => value.names ++ [name.lexeme]
  | .call callee _ arguments => callee.names ++ Expr.namesOfAll arguments
  | .get object _ => object.names
  | .set object _ value => object.names ++ value.names
  | .this _ _ => []
  | .array elements => Expr.namesOfAll elements
  | .index target _ position => target.names ++ position.names

def Expr.namesOfAll : List Expr → List String
  | [] => []
  | e :: rest => e.names ++ Expr.namesOfAll rest

end

def Expr.namesOfOption : Option Expr → List String
  | none => []
  | some e => e.names

mutual

/-- The names of the variables that the statement declares or refers to, in whichever scope. -/
def Stmt.names : Stmt → List String
  | .expression e => e.names
  | .print e => e.names
  | .var name initial => name.lexeme :: Expr.namesOfOption initial
  | .block body => Stmt.namesOfAll body
  | .ifElse condition yes none => condition.names ++ yes.names
  | .ifElse condition yes (some no) => condition.names ++ yes.names ++ no.names
  | .whileLoop condition body => condition.names ++ body.names
  | .breakLoop _ => []
  | .function routine => routine.name.lexeme :: routine.names
  | .classDecl name methods classMethods =>
    name.lexeme :: (Routine.namesOfAll methods ++ Routine.namesOfAll classMethods)
  | .returnValue _ value => Expr.namesOfOption value
  | .importModule _ _ => []
  | .exportDecl _ declaration => declaration.names

def Stmt.namesOfAll : List Stmt → List String
  | [] => []
  | s :: rest => s.names ++ Stmt.namesOfAll rest

/-- The names in the parameters and the body. -/
def Routine.names : Routine → List String
  | ⟨_, params, body⟩ => (params.getD []).map Token.lexeme ++ Stmt.namesOfAll body

def Routine.namesOfAll : List Routine → List String
  | [] => []
  | r :: rest => r.names ++ Routine.namesOfAll rest

end

def Line.names : Line → List String
  | .statements body => Stmt.namesOfAll body
  | .expression e => e.names

/-- Whatever the statement declares in the scope in which it stands, it declares `x` there by `var`
at most, without exporting it, and it imports nothing into the scope. -/
def Stmt.VarOnly (x : String) : Stmt → Prop
  | .function routine => routine.name.lexeme ≠ x
  | .classDecl name _ _ => name.lexeme ≠ x
  | .exportDecl _ declaration =>
    (∀ name, declaration.declared? = some name → name.lexeme ≠ x) ∧ declaration.VarOnly x
  | .importModule _ _ => False
  | .ifElse _ yes none => yes.VarOnly x
  | .ifElse _ yes (some no) => yes.VarOnly x ∧ no.VarOnly x
  | .whileLoop _ body => body.VarOnly x
  | _ => True

-- ---------------------------------------------------------------------------
-- Renaming
-- ---------------------------------------------------------------------------

/-- The token, with the name `y` if its name is `x`. -/
def Token.rename (x y : String) (t : Token) : Token :=
  if t.lexeme = x then { t with lexeme := y } else t

section
variable (noted : NodeId → Option Nat) (x y : String)

mutual

/-- Renames `x` in the nodes that are noted at the distance `depth`. -/
def Expr.rename (depth : Nat) : Expr → Expr
  | .literal value => .literal value
  | .unary op right => .unary op (right.rename depth)
  | .binary op left right => .binary op (left.rename depth) (right.rename depth)
  | .logical op left right => .logical op (left.rename depth) (right.rename depth)
  | .conditional condition yes no =>
    .conditional (condition.rename depth) (yes.rename depth) (no.rename depth)
  | .group inner => .group (inner.rename depth)
  | .var id name => .var id (if noted id = some depth then name.rename x y else name)
  | .assign id name value =>
    .assign id (if noted id = some depth then name.rename x y else name) (value.rename depth)
  | .call callee paren arguments =>
    .call (callee.rename depth) paren (Expr.renameAll depth arguments)
  | .get object name => .get (object.rename depth) name
  | .set object name value => .set (object.rename depth) name (value.rename depth)
  | .this id keyword => .this id keyword
  | .array elements => .array (Expr.renameAll depth elements)
  | .index target bracket position =>
    .index (target.rename depth) bracket (position.rename depth)

def Expr.renameAll (depth : Nat) : List Expr → List Expr
  | [] => []
  | e :: rest => e.rename depth :: Expr.renameAll depth rest

end

mutual

/-- Renames the variable `x` of the scope that is `depth` scopes out: in its declarations, which
stand in no further scope, and in the nodes that are noted at its distance. -/
def Stmt.rename (depth : Nat) : Stmt → Stmt
  | .expression e => .expression (e.rename noted x y depth)
  | .print e => .print (e.rename noted x y depth)
  | .var name initial =>
    .var (if depth = 0 then name.rename x y else name) (initial.map (Expr.rename noted x y depth))
  | .block body => .block (Stmt.renameAll (depth + 1) body)
  | .ifElse condition yes none =>
    .ifElse (condition.rename noted x y depth) (yes.rename depth) none
  | .ifElse condition yes (some no) =>
    .ifElse (condition.rename noted x y depth) (yes.rename depth) (some (no.rename depth))
  | .whileLoop condition body =>
    .whileLoop (condition.rename noted x y depth) (body.rename depth)
  | .breakLoop keyword => .breakLoop keyword
  | .function routine => .function (routine.rename depth)
  | .classDecl name methods classMethods =>
    .classDecl name (Routine.renameAll (depth + 1) methods)
      (Routine.renameAll (depth + 1) classMethods)
  | .returnValue keyword value => .returnValue keyword (value.map (Expr.rename noted x y depth))
  | .importModule keyword path => .importModule keyword path
  | .exportDecl keyword declaration => .exportDecl keyword (declaration.rename depth)

def Stmt.renameAll (depth : Nat) : List Stmt → List Stmt
  | [] => []
  | s :: rest => s.rename depth :: Stmt.renameAll depth rest

def Routine.rename (depth : Nat) : Routine → Routine
  | ⟨name, params, body⟩ => ⟨name, params, Stmt.renameAll (depth + 1) body⟩

def Routine.renameAll (depth : Nat) : List Routine → List Routine
  | [] => []
  | r :: rest => r.rename depth :: Routine.renameAll depth rest

end

/-- Renames the variable `x` of the scope of the routine itself. -/
def Routine.renameOwn : Routine → Routine
  | ⟨name, params, body⟩ =>
    ⟨name, params.map (List.map (Token.rename x y)), Stmt.renameAll noted x y 0 body⟩

mutual

/-- In the second statement, the variable `x` of one block or routine within the first is
renamed. -/
inductive Stmt.ScopeRenamed : Stmt → Stmt → Prop
  | own : (∀ s ∈ body, s.VarOnly x) →
    Stmt.ScopeRenamed (.block body) (.block (Stmt.renameAll noted x y 0 body))
  | block : Stmt.AllScopeRenamed body body' → Stmt.ScopeRenamed (.block body) (.block body')
  | ifYes : Stmt.ScopeRenamed yes yes' →
    Stmt.ScopeRenamed (.ifElse condition yes no) (.ifElse condition yes' no)
  | ifNo : Stmt.ScopeRenamed no no' →
    Stmt.ScopeRenamed (.ifElse condition yes (some no)) (.ifElse condition yes (some no'))
  | whileLoop : Stmt.ScopeRenamed body body' →
    Stmt.ScopeRenamed (.whileLoop condition body) (.whileLoop condition body')
  | function : Routine.ScopeRenamed routine routine' →
    Stmt.ScopeRenamed (.function routine) (.function routine')
  | methods : Routine.AllScopeRenamed methods methods' →
    Stmt.ScopeRenamed (.classDecl name methods classMethods)
      (.classDecl name methods' classMethods)
  | classMethods : Routine.AllScopeRenamed classMethods classMethods' →
    Stmt.ScopeRenamed (.classDecl name methods classMethods)
      (.classDecl name methods classMethods')
  | exportDecl : Stmt.ScopeRenamed declaration declaration' →
    Stmt.ScopeRenamed (.exportDecl keyword declaration) (.exportDecl keyword declaration')

inductive Stmt.AllScopeRenamed : List Stmt → List Stmt → Prop
  | head : Stmt.ScopeRenamed s s' → Stmt.AllScopeRenamed (s :: rest) (s' :: rest)
  | tail : Stmt.AllScopeRenamed rest rest' → Stmt.AllScopeRenamed (s :: rest) (s :: rest')

inductive Routine.ScopeRenamed : Routine → Routine → Prop
  | own : (∀ s ∈ body, s.VarOnly x) →
    Routine.ScopeRenamed ⟨name, params, body⟩ (Routine.renameOwn noted x y ⟨name, params, body⟩)
  | body : Stmt.AllScopeRenamed body body' →
    Routine.ScopeRenamed ⟨name, params, body⟩ ⟨name, params, body'⟩

inductive Routine.AllScopeRenamed : List Routine → List Routine → Prop
  | head : Routine.ScopeRenamed r r' → Routine.AllScopeRenamed (r :: rest) (r' :: rest)
  | tail : Routine.AllScopeRenamed rest rest' → Routine.AllScopeRenamed (r :: rest) (r :: rest')

end

inductive Line.ScopeRenamed : Line → Line → Prop
  | statements : Stmt.AllScopeRenamed noted x y body body' →
    Line.ScopeRenamed (.statements body) (.statements body')

end

-- ---------------------------------------------------------------------------
-- The renamed tree is like the other
-- ---------------------------------------------------------------------------

/-- The renaming of one scope, as it is seen `depth` scopes inside. -/
def Renamings.only (depth : Nat) (ρ : Renaming) : Renamings :=
  fun d => if d = depth then ρ else 1

namespace Renamings

@[simp] theorem inside_one_only (depth : Nat) (ρ : Renaming) :
    inside 1 (only depth ρ) = only (depth + 1) ρ := by
  funext d
  cases d with
  | zero => rfl
  | succ d => simp [inside, only]

@[simp] theorem inside_plain_eq_only (ρ : Renaming) : inside ρ plain = only 0 ρ := by
  funext d
  cases d <;> rfl

theorem found_only (depth : Nat) (ρ : Renaming) (d : Option Nat) :
    (only depth ρ).found d = if d = some depth then ρ else 1 := by
  cases d with
  | none => rfl
  | some d => simp [found, only]

end Renamings

theorem Token.rename_eq {t : Token} (x : String) (h : t.lexeme ≠ y) :
    Token.rename x y t = t.renamed (Equiv.swap x y) := by
  unfold rename renamed
  split
  · next hx => rw [hx, Equiv.swap_apply_left]
  · next hx => rw [Equiv.swap_apply_of_ne_of_ne hx h]

theorem Token.renamed_eq_self {t : Token} {ρ : Renaming} (h : ρ t.lexeme = t.lexeme) :
    t.renamed ρ = t := by
  unfold renamed
  rw [h]

section
variable {noted : NodeId → Option Nat} {x y : String}

/-- A node is renamed as the scope is to which it leads. -/
theorem Token.rename_found {t : Token} (x : String) (h : t.lexeme ≠ y) (d : Option Nat)
    (depth : Nat) :
    (if d = some depth then Token.rename x y t else t) =
      t.renamed ((Renamings.only depth (Equiv.swap x y)).found d) := by
  rw [Renamings.found_only]
  split
  · exact Token.rename_eq x h
  · rfl

theorem Renamings.found_only_this (h : Equiv.swap x y "this" = "this") (d : Option Nat) :
    (only depth (Equiv.swap x y)).found d "this" = "this" := by
  rw [found_only]
  split
  · exact h
  · rfl

/-- A name that the scope does not declare as its variable is not changed. -/
theorem Renamings.only_zero_eq (hx : depth = 0 → name ≠ x) (hy : name ≠ y) :
    only depth (Equiv.swap x y) 0 name = name := by
  unfold only
  split
  · next hdepth => exact Equiv.swap_apply_of_ne_of_ne (hx hdepth.symm) hy
  · rfl

theorem Stmt.declared?_mem_names {s : Stmt} (h : s.declared? = some name) :
    name.lexeme ∈ s.names := by
  cases s with
  | var _ _ | function _ | classDecl _ _ _ =>
    cases h
    exact List.mem_cons_self ..
  | _ => cases h

/-- What two trees may differ in, if the one is to be the other with `x` renamed to `y`. -/
structure Renames (names : Renaming → Prop) (N : Pairing) (noted : NodeId → Option Nat)
    (x y : String) : Prop where
  nodes : ∀ node, N node node (noted node)
  one : names 1
  swap : names (Equiv.swap x y)
  this : Equiv.swap x y "this" = "this"

variable {names : Renaming → Prop} {N : Pairing}

mutual

theorem Expr.like_rename (hS : Renames names N noted x y) (depth : Nat) :
    ∀ e : Expr, e.Worded → y ∉ e.names →
    Expr.Like N (.only depth (Equiv.swap x y)) e (e.rename noted x y depth)
  | .literal _, _, _ => .literal _
  | .unary _ right, hw, h => .unary _ (right.like_rename hS depth hw h)
  | .binary _ left right, hw, h => by
    rw [Expr.names, List.mem_append, not_or] at h
    exact .binary _ (left.like_rename hS depth hw.1 h.1) (right.like_rename hS depth hw.2 h.2)
  | .logical _ left right, hw, h => by
    rw [Expr.names, List.mem_append, not_or] at h
    exact .logical _ (left.like_rename hS depth hw.1 h.1) (right.like_rename hS depth hw.2 h.2)
  | .conditional condition yes no, hw, h => by
    rw [Expr.names, List.mem_append, List.mem_append, not_or, not_or] at h
    exact .conditional (condition.like_rename hS depth hw.1 h.1.1)
      (yes.like_rename hS depth hw.2.1 h.1.2) (no.like_rename hS depth hw.2.2 h.2)
  | .group inner, hw, h => .group (inner.like_rename hS depth hw h)
  | .var id name, _, h => by
    rw [Expr.names, List.mem_singleton] at h
    rw [Expr.rename, Token.rename_found x (Ne.symm h)]
    exact .var name (hS.nodes id)
  | .assign id name value, hw, h => by
    rw [Expr.names, List.mem_append, List.mem_singleton, not_or] at h
    rw [Expr.rename, Token.rename_found x (Ne.symm h.2)]
    exact .assign name (hS.nodes id) (value.like_rename hS depth hw.2 h.1)
  | .call callee _ arguments, hw, h => by
    rw [Expr.names, List.mem_append, not_or] at h
    exact .call _ (callee.like_rename hS depth hw.1 h.1)
      (Expr.allLike_rename hS depth arguments hw.2 h.2)
  | .get object _, hw, h => .get _ (object.like_rename hS depth hw h)
  | .set object _ value, hw, h => by
    rw [Expr.names, List.mem_append, not_or] at h
    exact .set _ (object.like_rename hS depth hw.1 h.1) (value.like_rename hS depth hw.2 h.2)
  | .this id keyword, hw, _ => by
    have hlike : Expr.Like N (.only depth (Equiv.swap x y)) (.this id keyword) _ :=
      .this keyword (hS.nodes id)
    rwa [Token.renamed_eq_self] at hlike
    rw [show keyword.lexeme = "this" from hw, Renamings.found_only_this hS.this]
  | .array elements, hw, h => .array (Expr.allLike_rename hS depth elements hw h)
  | .index target _ position, hw, h => by
    rw [Expr.names, List.mem_append, not_or] at h
    exact .index _ (target.like_rename hS depth hw.1 h.1) (position.like_rename hS depth hw.2 h.2)

theorem Expr.allLike_rename (hS : Renames names N noted x y) (depth : Nat) :
    ∀ es : List Expr, Expr.AllWorded es → y ∉ Expr.namesOfAll es →
    Expr.AllLike N (.only depth (Equiv.swap x y)) es (Expr.renameAll noted x y depth es)
  | [], _, _ => .nil
  | e :: rest, hw, h => by
    rw [Expr.namesOfAll, List.mem_append, not_or] at h
    exact .cons (e.like_rename hS depth hw.1 h.1) (Expr.allLike_rename hS depth rest hw.2 h.2)

end

theorem Expr.optionLike_rename (hS : Renames names N noted x y) (depth : Nat) (e : Option Expr)
    (hw : Expr.OptionWorded e) (h : y ∉ Expr.namesOfOption e) :
    Option.Rel (Expr.Like N (.only depth (Equiv.swap x y))) e
      (e.map (Expr.rename noted x y depth)) := by
  cases e with
  | none => exact .none
  | some e => exact .some (e.like_rename hS depth hw h)

mutual

theorem Stmt.like_rename (hS : Renames names N noted x y) (depth : Nat) :
    ∀ s : Stmt, s.Worded → y ∉ s.names → (depth = 0 → s.VarOnly x) →
    Stmt.Like names N (.only depth (Equiv.swap x y)) s (s.rename noted x y depth)
  | .expression e, hw, h, _ => .expression (e.like_rename hS depth hw h)
  | .print e, hw, h, _ => .print (e.like_rename hS depth hw h)
  | .var name initial, hw, h, _ => by
    rw [Stmt.names, List.mem_cons, not_or] at h
    have hlike : Stmt.Like names N (.only depth (Equiv.swap x y)) (.var name initial) _ :=
      .var name (Expr.optionLike_rename hS depth initial hw.2 h.2)
    have hname : name.renamed (Renamings.only depth (Equiv.swap x y) 0) =
        if depth = 0 then name.rename x y else name := by
      unfold Renamings.only
      by_cases hdepth : depth = 0
      · rw [if_pos hdepth.symm, if_pos hdepth, Token.rename_eq x (Ne.symm h.1)]
      · rw [if_neg (Ne.symm hdepth), if_neg hdepth, Token.renamed_one]
    rwa [hname] at hlike
  | .block body, hw, h, _ => by
    refine .block hS.one ?_
    rw [Renamings.inside_one_only]
    exact Stmt.allLike_rename hS (depth + 1) body hw h nofun
  | .ifElse condition yes none, hw, h, hvar => by
    rw [Stmt.names, List.mem_append, not_or] at h
    exact .ifOnly (condition.like_rename hS depth hw.1 h.1)
      (yes.like_rename hS depth hw.2 h.2 hvar)
  | .ifElse condition yes (some no), hw, h, hvar => by
    rw [Stmt.names, List.mem_append, List.mem_append, not_or, not_or] at h
    exact .ifElse (condition.like_rename hS depth hw.1 h.1.1)
      (yes.like_rename hS depth hw.2.1 h.1.2 fun hdepth => (hvar hdepth).1)
      (no.like_rename hS depth hw.2.2 h.2 fun hdepth => (hvar hdepth).2)
  | .whileLoop condition body, hw, h, hvar => by
    rw [Stmt.names, List.mem_append, not_or] at h
    exact .whileLoop (condition.like_rename hS depth hw.1 h.1)
      (body.like_rename hS depth hw.2 h.2 hvar)
  | .breakLoop _, _, _, _ => .breakLoop _
  | .function routine, hw, h, hvar => by
    rw [Stmt.names, List.mem_cons, not_or] at h
    exact .function (Renamings.only_zero_eq hvar (Ne.symm h.1))
      (routine.like_rename hS depth hw h.2)
  | .classDecl name methods classMethods, hw, h, hvar => by
    rw [Stmt.names, List.mem_cons, List.mem_append, not_or, not_or] at h
    refine .classDecl (Renamings.only_zero_eq hvar (Ne.symm h.1)) ?_ ?_
    · rw [Renamings.inside_one_only]
      exact Routine.allLike_rename hS (depth + 1) methods hw.1 h.2.1
    · rw [Renamings.inside_one_only]
      exact Routine.allLike_rename hS (depth + 1) classMethods hw.2 h.2.2
  | .returnValue _ value, hw, h, _ =>
    .returnValue _ (Expr.optionLike_rename hS depth value hw h)
  | .importModule _ _, _, _, hvar => .importModule _ _ (if_neg fun hdepth => hvar hdepth.symm)
  | .exportDecl _ declaration, hw, h, hvar => by
    refine .exportDecl _ (fun name hname => ?_)
      (declaration.like_rename hS depth hw h fun hdepth => (hvar hdepth).2)
    refine Renamings.only_zero_eq (fun hdepth => (hvar hdepth).1 name hname) ?_
    rintro rfl
    rw [Stmt.names] at h
    exact h (Stmt.declared?_mem_names hname)

theorem Stmt.allLike_rename (hS : Renames names N noted x y) (depth : Nat) :
    ∀ body : List Stmt, Stmt.AllWorded body → y ∉ Stmt.namesOfAll body →
      (depth = 0 → ∀ s ∈ body, s.VarOnly x) →
    Stmt.AllLike names N (.only depth (Equiv.swap x y)) body (Stmt.renameAll noted x y depth body)
  | [], _, _, _ => .nil
  | s :: rest, hw, h, hvar => by
    rw [Stmt.namesOfAll, List.mem_append, not_or] at h
    exact .cons
      (s.like_rename hS depth hw.1 h.1 fun hdepth => hvar hdepth s (List.mem_cons_self ..))
      (Stmt.allLike_rename hS depth rest hw.2 h.2
        fun hdepth s hs => hvar hdepth s (List.mem_cons_of_mem _ hs))

theorem Routine.like_rename (hS : Renames names N noted x y) (depth : Nat) :
    ∀ r : Routine, r.Worded → y ∉ r.names →
    Routine.Like names N (.only depth (Equiv.swap x y)) r (r.rename noted x y depth)
  | ⟨name, params, body⟩, hw, h => by
    rw [Routine.names, List.mem_append, not_or] at h
    have hbody := Stmt.allLike_rename hS (depth + 1) body hw h.2 nofun
    rw [← Renamings.inside_one_only] at hbody
    have hlike := Routine.Like.intro name params hS.one hbody
    rwa [Token.renamed_eq_id, List.map_id_fun, Option.map_id_fun, id] at hlike

theorem Routine.allLike_rename (hS : Renames names N noted x y) (depth : Nat) :
    ∀ rs : List Routine, Routine.AllWorded rs → y ∉ Routine.namesOfAll rs →
    Routine.AllLike names N (.only depth (Equiv.swap x y)) rs (Routine.renameAll noted x y depth rs)
  | [], _, _ => .nil
  | r :: rest, hw, h => by
    rw [Routine.namesOfAll, List.mem_append, not_or] at h
    exact .cons (r.like_rename hS depth hw.1 h.1) (Routine.allLike_rename hS depth rest hw.2 h.2)

end

theorem Pairing.pairs_id (hS : Renames names N noted x y) (ids : List NodeId) :
    N.Pairs id id ids :=
  fun node _ => ⟨noted node, hS.nodes node⟩

theorem Expr.like_refl (hS : Renames names N noted x y) (e : Expr) : Expr.Like N plain e e := by
  have hlike := e.like_numbered (Pairing.pairs_id hS e.ids)
  rwa [e.numbered_id] at hlike

theorem Stmt.like_refl (hS : Renames names N noted x y) (s : Stmt) :
    Stmt.Like names N plain s s := by
  have hlike := s.like_numbered hS.one (Pairing.pairs_id hS s.ids)
  rwa [s.numbered_id] at hlike

theorem Stmt.allLike_refl (hS : Renames names N noted x y) (body : List Stmt) :
    Stmt.AllLike names N plain body body := by
  have hlike := Stmt.allLike_numbered hS.one body (Pairing.pairs_id hS (Stmt.idsOfAll body))
  rwa [Stmt.numberedAll_id] at hlike

theorem Routine.like_refl (hS : Renames names N noted x y) (r : Routine) :
    Routine.Like names N plain r r := by
  have hlike := r.like_numbered hS.one (Pairing.pairs_id hS r.ids)
  rwa [r.numbered_id] at hlike

theorem Routine.allLike_refl (hS : Renames names N noted x y) (rs : List Routine) :
    Routine.AllLike names N plain rs rs := by
  have hlike := Routine.allLike_numbered hS.one rs (Pairing.pairs_id hS (Routine.idsOfAll rs))
  rwa [Routine.numberedAll_id] at hlike

theorem Routine.like_renameOwn (hS : Renames names N noted x y) (r : Routine) (hw : r.Worded)
    (h : y ∉ r.names) (hvar : ∀ s ∈ r.body, s.VarOnly x) :
    Routine.Like names N plain r (r.renameOwn noted x y) := by
  obtain ⟨name, params, body⟩ := r
  rw [Routine.names, List.mem_append, not_or] at h
  have hbody := Stmt.allLike_rename hS 0 body hw h.2 fun _ => hvar
  rw [← Renamings.inside_plain_eq_only] at hbody
  have hlike := Routine.Like.intro name params hS.swap hbody
  have hparams : params.map (List.map (Token.rename x y)) =
      params.map (List.map (Token.renamed (Equiv.swap x y))) := by
    cases params with
    | none => rfl
    | some params =>
      refine congrArg some (List.map_congr_left fun p hp => Token.rename_eq x ?_)
      rintro rfl
      exact h.1 (List.mem_map_of_mem hp)
  rwa [← hparams] at hlike

mutual

theorem Stmt.ScopeRenamed.like (hS : Renames names N noted x y)
    (h : Stmt.ScopeRenamed noted x y s s') :
    s.Worded → y ∉ s.names → Stmt.Like names N plain s s' := by
  cases h with
  | own hvar =>
    intro hw hy
    refine .block hS.swap ?_
    rw [Renamings.inside_plain_eq_only]
    exact Stmt.allLike_rename hS 0 _ hw hy fun _ => hvar
  | block h =>
    intro hw hy
    refine .block hS.one ?_
    rw [Renamings.inside_plain]
    exact h.like hS hw hy
  | @ifYes yes yes' condition no h =>
    cases no with
    | none =>
      intro hw hy
      rw [Stmt.names, List.mem_append, not_or] at hy
      exact .ifOnly (condition.like_refl hS) (h.like hS hw.2 hy.2)
    | some no =>
      intro hw hy
      rw [Stmt.names, List.mem_append, List.mem_append, not_or, not_or] at hy
      exact .ifElse (condition.like_refl hS) (h.like hS hw.2.1 hy.1.2) (no.like_refl hS)
  | @ifNo no no' condition yes h =>
    intro hw hy
    rw [Stmt.names, List.mem_append, List.mem_append, not_or, not_or] at hy
    exact .ifElse (condition.like_refl hS) (yes.like_refl hS) (h.like hS hw.2.2 hy.2)
  | @whileLoop body body' condition h =>
    intro hw hy
    rw [Stmt.names, List.mem_append, not_or] at hy
    exact .whileLoop (condition.like_refl hS) (h.like hS hw.2 hy.2)
  | function h =>
    intro hw hy
    rw [Stmt.names, List.mem_cons, not_or] at hy
    exact .function rfl (h.like hS hw hy.2)
  | @methods methods methods' name classMethods h =>
    intro hw hy
    rw [Stmt.names, List.mem_cons, List.mem_append, not_or, not_or] at hy
    refine .classDecl rfl ?_ ?_
    · rw [Renamings.inside_plain]
      exact h.like hS hw.1 hy.2.1
    · rw [Renamings.inside_plain]
      exact Routine.allLike_refl hS classMethods
  | @classMethods classMethods classMethods' name methods h =>
    intro hw hy
    rw [Stmt.names, List.mem_cons, List.mem_append, not_or, not_or] at hy
    refine .classDecl rfl ?_ ?_
    · rw [Renamings.inside_plain]
      exact Routine.allLike_refl hS methods
    · rw [Renamings.inside_plain]
      exact h.like hS hw.2 hy.2.2
  | exportDecl h =>
    intro hw hy
    exact .exportDecl _ (fun _ _ => rfl) (h.like hS hw hy)
termination_by sizeOf s
decreasing_by all_goals subst_vars; simp_wf <;> omega

theorem Stmt.AllScopeRenamed.like (hS : Renames names N noted x y)
    (h : Stmt.AllScopeRenamed noted x y body body') :
    Stmt.AllWorded body → y ∉ Stmt.namesOfAll body → Stmt.AllLike names N plain body body' := by
  cases h with
  | @head s s' rest h =>
    intro hw hy
    rw [Stmt.namesOfAll, List.mem_append, not_or] at hy
    exact .cons (h.like hS hw.1 hy.1) (Stmt.allLike_refl hS rest)
  | @tail rest rest' s h =>
    intro hw hy
    rw [Stmt.namesOfAll, List.mem_append, not_or] at hy
    exact .cons (s.like_refl hS) (h.like hS hw.2 hy.2)
termination_by sizeOf body
decreasing_by all_goals subst_vars; simp_wf <;> omega

theorem Routine.ScopeRenamed.like (hS : Renames names N noted x y)
    (h : Routine.ScopeRenamed noted x y r r') :
    r.Worded → y ∉ r.names → Routine.Like names N plain r r' := by
  cases h with
  | own hvar => exact fun hw hy => Routine.like_renameOwn hS _ hw hy hvar
  | @body body body' name params h =>
    intro hw hy
    rw [Routine.names, List.mem_append, not_or] at hy
    have hbody := h.like hS hw hy.2
    rw [← Renamings.inside_plain] at hbody
    have hlike := Routine.Like.intro name params hS.one hbody
    rwa [Token.renamed_eq_id, List.map_id_fun, Option.map_id_fun, id] at hlike
termination_by sizeOf r
decreasing_by all_goals subst_vars; simp_wf

theorem Routine.AllScopeRenamed.like (hS : Renames names N noted x y)
    (h : Routine.AllScopeRenamed noted x y rs rs') :
    Routine.AllWorded rs → y ∉ Routine.namesOfAll rs →
      Routine.AllLike names N plain rs rs' := by
  cases h with
  | @head r r' rest h =>
    intro hw hy
    rw [Routine.namesOfAll, List.mem_append, not_or] at hy
    exact .cons (h.like hS hw.1 hy.1) (Routine.allLike_refl hS rest)
  | @tail rest rest' r h =>
    intro hw hy
    rw [Routine.namesOfAll, List.mem_append, not_or] at hy
    exact .cons (r.like_refl hS) (h.like hS hw.2 hy.2)
termination_by sizeOf rs
decreasing_by all_goals subst_vars; simp_wf <;> omega

end

/-- What is the other with the variable of one scope renamed is like it. -/
theorem Line.ScopeRenamed.like (hS : Renames names N noted x y)
    (h : Line.ScopeRenamed noted x y l l') (hw : l.piece.Proper) (hy : y ∉ l.names) :
    Line.Like names N l l' := by
  cases h with
  | statements h => exact .statements (h.like hS hw.2 hy)

end

end Treewalk
