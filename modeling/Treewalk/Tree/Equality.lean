import Treewalk.Tree

/-!
# Equality of trees

Whether two trees are the same is decided node by node, so that what a source is read as can be
checked by evaluation. Trees hold lists of trees, for which the decision is not derived.
-/

namespace Treewalk

mutual

def Expr.equals : Expr → Expr → Bool
  | .literal value => fun
    | .literal value' => value = value'
    | _ => false
  | .unary op right => fun
    | .unary op' right' => op = op' && right.equals right'
    | _ => false
  | .binary op left right => fun
    | .binary op' left' right' => op = op' && (left.equals left' && right.equals right')
    | _ => false
  | .logical op left right => fun
    | .logical op' left' right' => op = op' && (left.equals left' && right.equals right')
    | _ => false
  | .conditional condition yes no => fun
    | .conditional condition' yes' no' =>
      condition.equals condition' && (yes.equals yes' && no.equals no')
    | _ => false
  | .group inner => fun
    | .group inner' => inner.equals inner'
    | _ => false
  | .var id name => fun
    | .var id' name' => id = id' && name = name'
    | _ => false
  | .assign id name value => fun
    | .assign id' name' value' => id = id' && (name = name' && value.equals value')
    | _ => false
  | .call callee paren arguments => fun
    | .call callee' paren' arguments' =>
      callee.equals callee' && (paren = paren' && Expr.equalsAll arguments arguments')
    | _ => false
  | .get object name => fun
    | .get object' name' => object.equals object' && name = name'
    | _ => false
  | .set object name value => fun
    | .set object' name' value' => object.equals object' && (name = name' && value.equals value')
    | _ => false
  | .this id keyword => fun
    | .this id' keyword' => id = id' && keyword = keyword'
    | _ => false
  | .array elements => fun
    | .array elements' => Expr.equalsAll elements elements'
    | _ => false
  | .index target bracket position => fun
    | .index target' bracket' position' =>
      target.equals target' && (bracket = bracket' && position.equals position')
    | _ => false

def Expr.equalsAll : List Expr → List Expr → Bool
  | [] => List.isEmpty
  | e :: rest => fun
    | e' :: rest' => e.equals e' && Expr.equalsAll rest rest'
    | [] => false

end

mutual

theorem Expr.equals_iff : (e e' : Expr) → (e.equals e' = true ↔ e = e')
  | .literal _, e' | .var _ _, e' | .this _ _, e' => by cases e' <;> simp [Expr.equals]
  | .unary _ e, e' | .group e, e' | .assign _ _ e, e' | .get e _, e' => by
    cases e' <;> simp [Expr.equals, e.equals_iff]
  | .binary _ e f, e' | .logical _ e f, e' | .set e _ f, e' | .index e _ f, e' => by
    cases e' <;> simp [Expr.equals, e.equals_iff, f.equals_iff]
  | .conditional e f g, e' => by
    cases e' <;> simp [Expr.equals, e.equals_iff, f.equals_iff, g.equals_iff]
  | .call e _ es, e' => by cases e' <;> simp [Expr.equals, e.equals_iff, Expr.equalsAll_iff es]
  | .array es, e' => by cases e' <;> simp [Expr.equals, Expr.equalsAll_iff es]

theorem Expr.equalsAll_iff : (es es' : List Expr) → (Expr.equalsAll es es' = true ↔ es = es')
  | [], es' => by cases es' <;> simp [Expr.equalsAll]
  | e :: es, es' => by
    cases es' <;> simp [Expr.equalsAll, e.equals_iff, Expr.equalsAll_iff es]

end

instance : DecidableEq Expr :=
  fun e e' => decidable_of_iff _ (e.equals_iff e')

mutual

def Stmt.equals : Stmt → Stmt → Bool
  | .expression e => fun
    | .expression e' => e = e'
    | _ => false
  | .print e => fun
    | .print e' => e = e'
    | _ => false
  | .var name initial => fun
    | .var name' initial' => name = name' && initial = initial'
    | _ => false
  | .block body => fun
    | .block body' => Stmt.equalsAll body body'
    | _ => false
  | .ifElse condition yes none => fun
    | .ifElse condition' yes' none => condition = condition' && yes.equals yes'
    | _ => false
  | .ifElse condition yes (some no) => fun
    | .ifElse condition' yes' (some no') =>
      condition = condition' && (yes.equals yes' && no.equals no')
    | _ => false
  | .whileLoop condition body => fun
    | .whileLoop condition' body' => condition = condition' && body.equals body'
    | _ => false
  | .breakLoop keyword => fun
    | .breakLoop keyword' => keyword = keyword'
    | _ => false
  | .function routine => fun
    | .function routine' => routine.equals routine'
    | _ => false
  | .classDecl name methods classMethods => fun
    | .classDecl name' methods' classMethods' =>
      name = name' && (Routine.equalsAll methods methods' &&
        Routine.equalsAll classMethods classMethods')
    | _ => false
  | .returnValue keyword value => fun
    | .returnValue keyword' value' => keyword = keyword' && value = value'
    | _ => false
  | .importModule keyword path => fun
    | .importModule keyword' path' => keyword = keyword' && path = path'
    | _ => false
  | .exportDecl keyword declaration => fun
    | .exportDecl keyword' declaration' => keyword = keyword' && declaration.equals declaration'
    | _ => false

def Stmt.equalsAll : List Stmt → List Stmt → Bool
  | [] => List.isEmpty
  | s :: rest => fun
    | s' :: rest' => s.equals s' && Stmt.equalsAll rest rest'
    | [] => false

def Routine.equals : Routine → Routine → Bool
  | ⟨name, params, body⟩ => fun r =>
    name = r.name && (params = r.params && Stmt.equalsAll body r.body)

def Routine.equalsAll : List Routine → List Routine → Bool
  | [] => List.isEmpty
  | r :: rest => fun
    | r' :: rest' => r.equals r' && Routine.equalsAll rest rest'
    | [] => false

end

mutual

theorem Stmt.equals_iff : (s s' : Stmt) → (s.equals s' = true ↔ s = s')
  | .expression _, s' | .print _, s' | .var _ _, s' | .breakLoop _, s' | .returnValue _ _, s'
  | .importModule _ _, s' => by cases s' <;> simp [Stmt.equals]
  | .block body, s' => by cases s' <;> simp [Stmt.equals, Stmt.equalsAll_iff body]
  | .ifElse _ yes none, s' => by
    cases s' with
    | ifElse _ _ no => cases no <;> simp [Stmt.equals, yes.equals_iff]
    | _ => simp [Stmt.equals]
  | .ifElse _ yes (some no), s' => by
    cases s' with
    | ifElse _ _ no' => cases no' <;> simp [Stmt.equals, yes.equals_iff, no.equals_iff]
    | _ => simp [Stmt.equals]
  | .whileLoop _ s, s' | .exportDecl _ s, s' => by cases s' <;> simp [Stmt.equals, s.equals_iff]
  | .function r, s' => by cases s' <;> simp [Stmt.equals, r.equals_iff]
  | .classDecl _ methods classMethods, s' => by
    cases s' <;> simp [Stmt.equals, Routine.equalsAll_iff methods,
      Routine.equalsAll_iff classMethods]

theorem Stmt.equalsAll_iff : (body body' : List Stmt) →
    (Stmt.equalsAll body body' = true ↔ body = body')
  | [], body' => by cases body' <;> simp [Stmt.equalsAll]
  | s :: body, body' => by
    cases body' <;> simp [Stmt.equalsAll, s.equals_iff, Stmt.equalsAll_iff body]

theorem Routine.equals_iff : (r r' : Routine) → (r.equals r' = true ↔ r = r')
  | ⟨_, _, body⟩, ⟨_, _, body'⟩ => by simp [Routine.equals, Stmt.equalsAll_iff body body']

theorem Routine.equalsAll_iff : (rs rs' : List Routine) →
    (Routine.equalsAll rs rs' = true ↔ rs = rs')
  | [], rs' => by cases rs' <;> simp [Routine.equalsAll]
  | r :: rs, rs' => by
    cases rs' <;> simp [Routine.equalsAll, r.equals_iff, Routine.equalsAll_iff rs]

end

instance : DecidableEq Stmt :=
  fun s s' => decidable_of_iff _ (s.equals_iff s')

instance : DecidableEq Routine :=
  fun r r' => decidable_of_iff _ (r.equals_iff r')

end Treewalk
