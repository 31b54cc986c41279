import Treewalk.Proofs.Agreement
import Treewalk.Proofs.Capture
import Treewalk.Proofs.Refusals

/-!
# Scoping is lexical

Which variable a name stands for is settled by where it stands, before anything runs. So the name
of a variable of a block or a function does not matter: renamed, in its declarations and in the
nodes that lead to it, to a name that occurs nowhere in the unit, it leaves every run of a session
as it was, whatever is entered before and after.
-/

namespace Treewalk

open Renamings (plain inside)

-- ---------------------------------------------------------------------------
-- Trees alike, counted from another number on
-- ---------------------------------------------------------------------------

/-- Numbered anew, the nodes among `ids` that stand for others still do. -/
def Pairing.Carries (N N' : Pairing) (f : NodeId → NodeId) (ids : List NodeId) : Prop :=
  ∀ i ∈ ids, ∀ j d, N i j d → N' (f i) (f j) d

section
variable {N N' : Pairing} {names : Renaming → Prop} {f : NodeId → NodeId}

@[simp] theorem Pairing.carries_append {ids ids' : List NodeId} :
    N.Carries N' f (ids ++ ids') ↔ N.Carries N' f ids ∧ N.Carries N' f ids' := by
  simp only [Carries, List.mem_append, or_imp, forall_and]

theorem Pairing.Carries.node {node : NodeId} (hN : N.Carries N' f [node]) (h : N node node' d) :
    N' (f node) (f node') d :=
  hN node (List.mem_cons_self ..) _ _ h

mutual

theorem Expr.Like.numbered {e e' : Expr} (hN : N.Carries N' f e.ids) (h : Expr.Like N env e e') :
    Expr.Like N' env (e.numbered f) (e'.numbered f) := by
  cases h with
  | literal => exact .literal _
  | unary _ h => exact .unary _ (h.numbered hN)
  | binary _ h₁ h₂ =>
    rw [Expr.ids, Pairing.carries_append] at hN
    exact .binary _ (h₁.numbered hN.1) (h₂.numbered hN.2)
  | logical _ h₁ h₂ =>
    rw [Expr.ids, Pairing.carries_append] at hN
    exact .logical _ (h₁.numbered hN.1) (h₂.numbered hN.2)
  | conditional h₁ h₂ h₃ =>
    rw [Expr.ids, Pairing.carries_append, Pairing.carries_append] at hN
    exact .conditional (h₁.numbered hN.1.1) (h₂.numbered hN.1.2) (h₃.numbered hN.2)
  | group h => exact .group (h.numbered hN)
  | var _ h => exact .var _ (hN.node h)
  | assign _ h h₁ =>
    rw [Expr.ids, Pairing.carries_append] at hN
    exact .assign _ (hN.2.node h) (h₁.numbered hN.1)
  | call _ h hs =>
    rw [Expr.ids, Pairing.carries_append] at hN
    exact .call _ (h.numbered hN.1) (hs.numbered hN.2)
  | get _ h => exact .get _ (h.numbered hN)
  | set _ h₁ h₂ =>
    rw [Expr.ids, Pairing.carries_append] at hN
    exact .set _ (h₁.numbered hN.1) (h₂.numbered hN.2)
  | this _ h => exact .this _ (hN.node h)
  | array hs => exact .array (hs.numbered hN)
  | index _ h₁ h₂ =>
    rw [Expr.ids, Pairing.carries_append] at hN
    exact .index _ (h₁.numbered hN.1) (h₂.numbered hN.2)

theorem Expr.AllLike.numbered {es es' : List Expr} (hN : N.Carries N' f (Expr.idsOfAll es))
    (h : Expr.AllLike N env es es') :
    Expr.AllLike N' env (Expr.numberedAll f es) (Expr.numberedAll f es') := by
  cases h with
  | nil => exact .nil
  | cons h hs =>
    rw [Expr.idsOfAll, Pairing.carries_append] at hN
    exact .cons (h.numbered hN.1) (hs.numbered hN.2)

end

theorem Expr.optionLike_map_numbered (hN : N.Carries N' f (Expr.idsOfOption e))
    (h : Option.Rel (Expr.Like N env) e e') :
    Option.Rel (Expr.Like N' env) (e.map (Expr.numbered f)) (e'.map (Expr.numbered f)) := by
  cases h with
  | some h => exact .some (h.numbered hN)
  | none => exact .none

theorem Stmt.declared?_numbered (f : NodeId → NodeId) (s : Stmt) :
    (s.numbered f).declared? = s.declared? := by
  cases s with
  | function routine => exact congrArg some (routine.name_numbered f)
  | ifElse condition yes no => cases no <;> rfl
  | _ => rfl

mutual

theorem Stmt.Like.numbered {s s' : Stmt} (hN : N.Carries N' f s.ids)
    (h : Stmt.Like names N env s s') :
    Stmt.Like names N' env (s.numbered f) (s'.numbered f) := by
  cases h with
  | expression h => exact .expression (h.numbered hN)
  | print h => exact .print (h.numbered hN)
  | var _ h => exact .var _ (Expr.optionLike_map_numbered hN h)
  | block hρ hs => exact .block hρ (hs.numbered hN)
  | ifOnly h h₁ =>
    rw [Stmt.ids, Pairing.carries_append] at hN
    exact .ifOnly (h.numbered hN.1) (h₁.numbered hN.2)
  | ifElse h h₁ h₂ =>
    rw [Stmt.ids, Pairing.carries_append, Pairing.carries_append] at hN
    exact .ifElse (h.numbered hN.1.1) (h₁.numbered hN.1.2) (h₂.numbered hN.2)
  | whileLoop h h₁ =>
    rw [Stmt.ids, Pairing.carries_append] at hN
    exact .whileLoop (h.numbered hN.1) (h₁.numbered hN.2)
  | breakLoop => exact .breakLoop _
  | function hname h =>
    rw [← Routine.name_numbered f] at hname
    exact .function hname (h.numbered hN)
  | classDecl hname h₁ h₂ =>
    rw [Stmt.ids, Pairing.carries_append] at hN
    exact .classDecl hname (h₁.numbered hN.1) (h₂.numbered hN.2)
  | returnValue _ h => exact .returnValue _ (Expr.optionLike_map_numbered hN h)
  | importModule _ _ h => exact .importModule _ _ h
  | exportDecl _ hname h =>
    rw [← Stmt.declared?_numbered f] at hname
    exact .exportDecl _ hname (h.numbered hN)
termination_by sizeOf s
decreasing_by all_goals subst_vars; simp_wf <;> omega

theorem Stmt.AllLike.numbered {body body' : List Stmt} (hN : N.Carries N' f (Stmt.idsOfAll body))
    (h : Stmt.AllLike names N env body body') :
    Stmt.AllLike names N' env (Stmt.numberedAll f body) (Stmt.numberedAll f body') := by
  cases h with
  | nil => exact .nil
  | cons h hs =>
    rw [Stmt.idsOfAll, Pairing.carries_append] at hN
    exact .cons (h.numbered hN.1) (hs.numbered hN.2)
termination_by sizeOf body
decreasing_by all_goals subst_vars; simp_wf <;> omega

theorem Routine.Like.numbered {r r' : Routine} (hN : N.Carries N' f r.ids)
    (h : Routine.Like names N env r r') :
    Routine.Like names N' env (r.numbered f) (r'.numbered f) := by
  cases h with
  | intro _ _ hρ h => exact .intro _ _ hρ (h.numbered hN)
termination_by sizeOf r
decreasing_by all_goals subst_vars; simp_wf

theorem Routine.AllLike.numbered {rs rs' : List Routine}
    (hN : N.Carries N' f (Routine.idsOfAll rs)) (h : Routine.AllLike names N env rs rs') :
    Routine.AllLike names N' env (Routine.numberedAll f rs) (Routine.numberedAll f rs') := by
  cases h with
  | nil => exact .nil
  | cons h hs =>
    rw [Routine.idsOfAll, Pairing.carries_append] at hN
    exact .cons (h.numbered hN.1) (hs.numbered hN.2)
termination_by sizeOf rs
decreasing_by all_goals subst_vars; simp_wf <;> omega

end

theorem Line.Like.numbered (hN : N.Carries N' f l.ids) (h : Line.Like names N l l') :
    Line.Like names N' (l.numbered f) (l'.numbered f) := by
  cases h with
  | statements h => exact .statements (h.numbered hN)
  | expression h => exact .expression (h.numbered hN)

end

-- ---------------------------------------------------------------------------
-- Entries of which one is the other renamed
-- ---------------------------------------------------------------------------

/-- What a source is read as, before it is walked, and the number for the next node. -/
def Prepared.reading (read : List Token → NodeId → Except Error α × NodeId) (source : String)
    (start : NodeId) : Except Error (α × NodeId) := do
  let tokens ← Lexer.scan (Text.Utf8.encode source)
  let (result, next) := read tokens start
  return (← result, next)

theorem ofSource_of_reading {read : List Token → NodeId → Except Error α × NodeId}
    {walk : α → Except Error (List Scope.Note)}
    (h : Prepared.reading read source start = .ok (tree, next)) (hwalk : walk tree = .ok notes) :
    Prepared.ofSource read walk source start = .ok ⟨tree, notes, next⟩ := by
  simp only [Prepared.reading, Prepared.ofSource, bind_eq_ok, pure_eq_ok] at h ⊢
  obtain ⟨tokens, htokens, tree', htree, h⟩ := h
  cases h
  exact ⟨tokens, htokens, tree, htree, notes, hwalk, rfl⟩

namespace Entry

def reading : Entry → NodeId → Except Error (Line × NodeId)
  | .unit source, start => Prod.map .statements id <$> Prepared.reading Parser.program source start
  | .expression source, start =>
    Prod.map .expression id <$> Prepared.reading Parser.loneExpression source start
  | .line source, start => Prepared.reading Parser.line source start

/-- What is read and passes the walk is prepared. -/
theorem prepared_of_reading (entry : Entry) (h : entry.reading start = .ok (l, next))
    (hwalk : Prepared.walkLine l = .ok notes) : entry.prepared start = .ok ⟨l, notes, next⟩ := by
  cases entry with
  | unit source =>
    obtain ⟨⟨body, _⟩, hbody, heq⟩ := map_eq_ok.1 h
    cases heq
    exact map_eq_ok.2 ⟨_, ofSource_of_reading hbody hwalk, rfl⟩
  | expression source =>
    obtain ⟨⟨e, _⟩, he, heq⟩ := map_eq_ok.1 h
    cases heq
    exact map_eq_ok.2 ⟨_, ofSource_of_reading he hwalk, rfl⟩
  | line source =>
    have hread : Prepared.reading Parser.line source start = .ok (l, next) := h
    exact ofSource_of_reading hread hwalk

theorem prepared_from (entry : Entry) (h : entry.prepared 0 = .ok p) (from₀ : NodeId) :
    entry.prepared from₀ = .ok (p.later (fun k => Line.numbered (· + k)) from₀) := by
  have hmaps := entry.prepared_later 0 from₀
  rwa [Nat.zero_add, h] at hmaps

theorem refused_from (entry : Entry) (h : entry.prepared 0 = .error e) (from₀ : NodeId) :
    entry.prepared from₀ = .error e := by
  have hmaps := entry.prepared_later 0 from₀
  rwa [Nat.zero_add, h] at hmaps

/-- The first entry is accepted, and the second is read as the first with the variable `x` of one
of its scopes renamed to `y`, a name that the first does not have. -/
def Renamed (x y : String) (entry entry' : Entry) : Prop :=
  ∃ p l, entry.prepared 0 = .ok p ∧ y ∉ p.tree.names ∧
    Line.ScopeRenamed p.distance? x y p.tree l ∧ entry'.reading 0 = .ok (l, p.nextId)

end Entry

-- ---------------------------------------------------------------------------
-- Renamed entries are prepared alike
-- ---------------------------------------------------------------------------

theorem Line.like_refl {names : Renaming → Prop} {N : Pairing} {noted : NodeId → Option Nat}
    (hS : Renames names N noted x y) (l : Line) : Line.Like names N l l := by
  cases l with
  | statements body => exact .statements (Stmt.allLike_refl hS body)
  | expression e => exact .expression (e.like_refl hS)

namespace Likeness

variable {x y : String}

/-- Nothing differs but the name of a variable in some scopes. -/
def swapping (x y : String) (hx : x ≠ "this") (hy : y ≠ "this") : Likeness where
  toTranslation := .ofNames (Swaps x y) (.inl rfl) <| by
    rintro ρ (rfl | rfl)
    · rfl
    · exact Equiv.swap_apply_of_ne_of_ne hx.symm hy.symm
  nodes := Eq
  texts _ _ := True
  agreed _ _ := False

/-- Each node of a source stands for itself, with its own distance. -/
def identical (p : Prepared α) : Pairing :=
  fun i j d => j = i ∧ p.distance? i = d

theorem identical_follows (hp : Checked from₀ p) : (identical p).Follows p.notes := by
  rintro i _ _ ⟨rfl, rfl⟩
  refine ⟨rfl, fun d => ⟨distance?_mem, fun hmem => ?_⟩⟩
  have hnodup : (p.notes.reverse.map Prod.fst).Nodup := by
    rw [List.map_reverse, List.nodup_reverse]
    exact hp.notes_nodup
  obtain ⟨before, after, hsplit⟩ := List.append_of_mem (List.mem_reverse.2 hmem)
  rw [hsplit, List.map_append, List.nodup_append] at hnodup
  refine List.lookup_eq_some_iff.2 ⟨before, after, hsplit, fun n hn => bne_iff_ne.2 ?_⟩
  exact (hnodup.2.2 _ (List.mem_map_of_mem hn) _ (List.mem_cons_self ..)).symm

theorem identical_renames (p : Prepared α) (hx : x ≠ "this") (hy : y ≠ "this") :
    Renames (Swaps x y) (identical p) p.distance? x y where
  nodes _ := ⟨rfl, rfl⟩
  one := .inl rfl
  swap := .inr rfl
  this := Equiv.swap_apply_of_ne_of_ne hx.symm hy.symm

/-- The renamed source is accepted, with the notes of the other, and its tree is like the other. -/
theorem renamed_prepared {entry entry' : Entry} (hx : x ≠ "this") (hy : y ≠ "this")
    (h : entry.Renamed x y entry') :
    ∃ p l, entry.prepared 0 = .ok p ∧ entry'.prepared 0 = .ok ⟨l, p.notes, p.nextId⟩ ∧
      Line.Like (Swaps x y) (identical p) p.tree l := by
  obtain ⟨p, l, hp, hfresh, hrenamed, hread⟩ := h
  have hchecked := entry.checked hp
  have hlike := hrenamed.like (identical_renames p hx hy) hchecked.proper hfresh
  have hwalk := hlike.walks (identical_follows hchecked) hy hchecked hfresh
  exact ⟨p, l, hp, entry'.prepared_of_reading hread hwalk, hlike⟩

theorem ready_renamed {p p' : Prepared Line} (hx : x ≠ "this") (hy : y ≠ "this")
    (h : Checked 0 p) (hnotes : p'.notes = p.notes) (hnext : p'.nextId = p.nextId)
    (hlike : Line.Like (Swaps x y) (identical p) p.tree p'.tree)
    (hstart : Checked from₀ (p.later (fun k => Line.numbered (· + k)) from₀))
    (hstart' : Checked from₀ (p'.later (fun k => Line.numbered (· + k)) from₀)) :
    (swapping x y hx hy).Ready from₀ from₀ (p.later (fun k => Line.numbered (· + k)) from₀)
      (p'.later (fun k => Line.numbered (· + k)) from₀) where
  le := hstart.fresh.le
  le' := hstart'.fresh.le
  nextId := congrArg (· + from₀) hnext.symm
  tree := by
    refine hlike.numbered ?_
    intro node hnode other d hpair
    obtain ⟨rfl, rfl⟩ := hpair
    have hlt := (h.fresh.range _ hnode).2
    refine ⟨rfl,
      ⟨Nat.le_add_left _ _, Nat.add_lt_add_right hlt _, Prepared.distance?_later _ _ _ _⟩,
      Nat.le_add_left _ _, Nat.add_lt_add_right (hnext ▸ hlt) _, ?_⟩
    rw [Prepared.distance?_later, Prepared.distance?, Prepared.distance?, hnotes]
  range i hi := by
    obtain ⟨d, hd⟩ := Option.isSome_iff_exists.1 hi
    exact hstart.notes_range (distance?_mem hd)
  range' i hi := by
    obtain ⟨d, hd⟩ := Option.isSome_iff_exists.1 hi
    exact hstart'.notes_range (distance?_mem hd)
  agreed _ _ h := h.elim

theorem prepares_alike {entry entry' : Entry} (hx : x ≠ "this") (hy : y ≠ "this")
    {p p' : Prepared Line} (hp : entry.prepared 0 = .ok p) (hp' : entry'.prepared 0 = .ok p')
    (hnotes : p'.notes = p.notes) (hnext : p'.nextId = p.nextId)
    (hlike : Line.Like (Swaps x y) (identical p) p.tree p'.tree) :
    (swapping x y hx hy).Prepares entry.prepared entry'.prepared := by
  rintro from₀ _ rfl
  have hlater := entry.prepared_from hp from₀
  have hlater' := entry'.prepared_from hp' from₀
  rw [hlater, hlater']
  exact .ok (ready_renamed hx hy (entry.checked hp) hnotes hnext hlike (entry.checked hlater)
    (entry'.checked hlater'))

theorem renamed_prepares {entry entry' : Entry} (hx : x ≠ "this") (hy : y ≠ "this")
    (h : entry.Renamed x y entry') :
    (swapping x y hx hy).Prepares entry.prepared entry'.prepared := by
  obtain ⟨p, l, hp, hp', hlike⟩ := renamed_prepared hx hy h
  exact prepares_alike hx hy hp hp' rfl rfl hlike

theorem unrenamed_prepares (entry : Entry) (hx : x ≠ "this") (hy : y ≠ "this") :
    (swapping x y hx hy).Prepares entry.prepared entry.prepared := by
  cases hp : entry.prepared 0 with
  | error e =>
    rintro from₀ _ rfl
    rw [entry.refused_from hp]
    exact .error e
  | ok p => exact prepares_alike hx hy hp hp rfl rfl (p.tree.like_refl (identical_renames p hx hy))

end Likeness

-- ---------------------------------------------------------------------------
-- Sessions with renamed sources
-- ---------------------------------------------------------------------------

/-- The same source, or the source with the variable `x` of one of its scopes renamed to `y`. -/
def Entry.UpToName (x y : String) (entry entry' : Entry) : Prop :=
  entry' = entry ∨ entry.Renamed x y entry'

/-- At the same time, with the same allowance. -/
structure Visit.UpToName (x y : String) (v v' : Visit) : Prop where
  clock : v'.clock = v.clock
  fuel : v'.fuel = v.fuel
  entry : v.entry.UpToName x y v'.entry

theorem Entry.UpToName.prepares (hx : x ≠ "this") (hy : y ≠ "this")
    (h : Entry.UpToName x y entry entry') :
    (Likeness.swapping x y hx hy).Prepares entry.prepared entry'.prepared := by
  rcases h with rfl | h
  · exact Likeness.unrenamed_prepares _ hx hy
  · exact Likeness.renamed_prepares hx hy h

/-- No visit stops because a resolved name is not bound. -/
theorem Reachable.visited_bound (hs : Reachable units s) (visits : List Visit) (site : Site)
    (name : String) (d : Nat) :
    .error (.error (.runtime site (.unbound name d))) ∉ (s.visited visits).1 := by
  induction visits generalizing units s with
  | nil => exact List.not_mem_nil
  | cons v rest ih =>
    have htold : Reachable units { s with clock := v.clock } := hs.told
    refine List.not_mem_cons_of_ne_of_not_mem (Ne.symm ?_) (ih (htold.run v.entry v.fuel))
    exact htold.run_bound v.entry v.fuel site trivial

/-- Names of local variables do not matter. Let two sessions have the same sources of modules and
the same visits, except that in some of the sources and entries the variable `x` of one block or
function is renamed to a name `y` that the source does not have: a variable that is declared there
by `var` or as a parameter and is not exported, with its declarations and the nodes that lead to it.
Each renamed source is accepted, with the notes of the other, and all visits come to the same
values, to whoever sees them, or fail with the same errors, and leave the same output. -/
theorem scoping_is_lexical (hx : x ≠ "this") (hy : y ≠ "this")
    (hsources : ∀ path, Option.Rel (fun source source' =>
      (Entry.unit source).UpToName x y (.unit source')) (sources path) (sources' path))
    (hvisits : List.Forall₂ (Visit.UpToName x y) visits visits') :
    (∀ entry entry' : Entry, entry.Renamed x y entry' → ∀ from₀, ∃ p p',
      entry.prepared from₀ = .ok p ∧ entry'.prepared from₀ = .ok p' ∧ p'.notes = p.notes) ∧
    SameVisits ((Session.start sources refusal clock).visited visits)
      ((Session.start sources' refusal clock).visited visits') := by
  constructor
  · intro entry entry' h from₀
    obtain ⟨p, l, hp, hp', -⟩ := Likeness.renamed_prepared hx hy h
    exact ⟨_, _, entry.prepared_from hp from₀, entry'.prepared_from hp' from₀, rfl⟩
  · have hmodules : ∀ path, Option.Rel (Likeness.swapping x y hx hy).Modules (sources path)
        (sources' path) := fun path => by
      have hsource := hsources path
      revert hsource
      generalize sources path = source
      generalize sources' path = source'
      rintro (h | _)
      · exact .some ⟨trivial, h.prepares hx hy⟩
      · exact .none
    have hs : (Likeness.swapping x y hx hy).Holds Likeness.blank plain
        (.start sources refusal clock) (.start sources' refusal clock) :=
      Likeness.start (Translation.ofNames_inPlace ..) rfl hmodules
    obtain ⟨W, -, ht, hresults⟩ := hs.visited (hvisits.imp fun _ _ h =>
      ⟨h.clock, h.fuel, h.entry.prepares hx hy⟩)
    refine ⟨Likeness.sameResults ht.arrays hresults fun _ _ hmem hhalt => ?_, ht.output.symm⟩
    cases hhalt with
    | same => rfl
    | unbound name d => exact absurd hmem (Reachable.start.visited_bound visits _ _ _)

-- A variable that is read in an inner block, before the block declares one of the same name.

def shadowed : String :=
  "\x7bvar a=true;\x7ba;var a;\x7dprint a;\x7d"

def unshadowed : String :=
  "\x7bvar b=true;\x7bb;var a;\x7dprint b;\x7d"

def shadowedTree : Prepared Line :=
  ⟨.statements [.block [.var ⟨.identifier, "a", 1⟩ (some (.literal (.bool true))),
    .block [.expression (.var 0 ⟨.identifier, "a", 1⟩), .var ⟨.identifier, "a", 1⟩ none],
    .print (.var 1 ⟨.identifier, "a", 1⟩)]], [(0, 1), (1, 0)], 2⟩

def unshadowedTree : Line :=
  .statements [.block [.var ⟨.identifier, "b", 1⟩ (some (.literal (.bool true))),
    .block [.expression (.var 0 ⟨.identifier, "b", 1⟩), .var ⟨.identifier, "a", 1⟩ none],
    .print (.var 1 ⟨.identifier, "b", 1⟩)]]

/-- The variable of the outer block is renamed wherever a node leads to it, and nothing is seen of
that. -/
theorem shadowed_variable_is_renamed :
    (Entry.unit shadowed).Renamed "a" "b" (.unit unshadowed) ∧
    SameVisits
      ((Session.start (fun _ => none) none (.still 0)).visited [⟨.still 0, .unit shadowed, 12⟩])
      ((Session.start (fun _ => none) none (.still 0)).visited
        [⟨.still 0, .unit unshadowed, 12⟩]) := by
  have hp : (Entry.unit shadowed).prepared 0 = .ok shadowedTree := by decide +kernel
  have hread : (Entry.unit unshadowed).reading 0 = .ok (unshadowedTree, 2) := by decide +kernel
  have hscope : Line.ScopeRenamed shadowedTree.distance? "a" "b" shadowedTree.tree unshadowedTree :=
    .statements (.head (.own (by simp [Stmt.VarOnly])))
  have hrenamed : (Entry.unit shadowed).Renamed "a" "b" (.unit unshadowed) :=
    ⟨shadowedTree, unshadowedTree, hp, by decide, hscope, hread⟩
  have hx : "a" ≠ "this" := by decide
  have hy : "b" ≠ "this" := by decide
  refine ⟨hrenamed, (scoping_is_lexical hx hy (fun _ => .none) ?_).2⟩
  exact .cons ⟨rfl, rfl, .inr hrenamed⟩ .nil

end Treewalk
