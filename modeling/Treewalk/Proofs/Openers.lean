import Treewalk.Proofs.Rounds

/-!
# What openers tell

A frame remembers what opened its scope. From that alone, and from the node that is evaluated, it
can be told which names the scope has seen by then. A scope that was opened for a round has seen
none: nothing that stands directly in it declares a name, or makes a function.
-/

namespace Treewalk

-- ---------------------------------------------------------------------------
-- Scopes of rounds
-- ---------------------------------------------------------------------------

/-- Nothing is declared or imported by the piece in the scope in which it stands. -/
def Piece.Still : Piece → Prop
  | .statements body => ∀ s ∈ body, s.keepsScope = true
  | .statement s => s.keepsScope = true
  | .expression _ => True
  | .routine _ => False

theorem Piece.not_still {s : Stmt} (h : s.keepsScope = false) : ¬ (Piece.statement s).Still :=
  fun hstill => Bool.false_ne_true (h.symm.trans hstill)

theorem Piece.statements_ne (body : List Stmt) (r : Routine) : Piece.statements body ≠ .routine r :=
  fun h => by cases h

theorem Piece.statement_ne (s : Stmt) (r : Routine) : Piece.statement s ≠ .routine r :=
  fun h => by cases h

theorem Piece.expression_ne (e : Expr) (r : Routine) : Piece.expression e ≠ .routine r :=
  fun h => by cases h

/-- The scopes of rounds have seen no name, and only what is still stands directly in one of
them. -/
structure Stack.Bare (chosen : Stmt → Bool) (σ : Stack) (p : Piece) : Prop where
  names : ∀ scope ∈ σ, scope.opener.isRound chosen = true → scope.names = []
  still : ∀ scope outer, σ = scope :: outer → scope.opener.isRound chosen = true → p.Still
  /-- Around a receiver stands the declaration of a class. -/
  method : ∀ scope outer r, σ = scope :: outer → scope.opener = .receiver r →
    (∃ r, p = .routine r) ∧ ∀ inner rest, outer = inner :: rest →
      inner.opener.isRound chosen = false

namespace Stack

variable {chosen : Stmt → Bool} {σ : Stack} {p q : Piece}

theorem after_nil (s : Stmt) : Stack.after [] s = [] := by
  induction s using Stmt.declares.induct with
  | case1 keyword declaration ih => exact ih
  | case2 => rfl
  | case3 => rfl
  | case4 => rfl
  | case5 s hexport hvar hfunction hclass =>
    exact after_of_declares_none [] (by cases s <;> simp_all [Stmt.declares])

/-- Behind a statement, the innermost scope has seen what the statement declares. -/
theorem after_cons (scope : Open) (outer : Stack) (s : Stmt) :
    ∃ names, Stack.after (scope :: outer) s = { scope with names := names } :: outer ∧
      ∀ n, (names.lookup n).isSome =
        ((scope.names.lookup n).isSome || (s.declares.map Token.lexeme).toList.contains n) := by
  induction s using Stmt.declares.induct with
  | case1 keyword declaration ih => exact ih
  | case2 name initial =>
    refine ⟨_, rfl, fun n => ?_⟩
    rw [Scope.lookup_cons_isSome, Scope.lookup_cons_isSome, Bool.eq_iff_iff]
    simp [Stmt.declares, or_comm]
  | case3 routine =>
    refine ⟨_, rfl, fun n => ?_⟩
    rw [Scope.lookup_cons_isSome, Bool.eq_iff_iff]
    simp [Stmt.declares, or_comm]
  | case4 name methods classMethods =>
    refine ⟨_, rfl, fun n => ?_⟩
    rw [Scope.lookup_cons_isSome, Bool.eq_iff_iff]
    simp [Stmt.declares, or_comm]
  | case5 s hexport hvar hfunction hclass =>
    have hnone : s.declares = none := by cases s <;> simp_all [Stmt.declares]
    exact ⟨scope.names, after_of_declares_none _ hnone, fun n => by simp [hnone]⟩

theorem declares_of_keepsScope {s : Stmt} (h : s.keepsScope = true) : s.declares = none := by
  cases s <;> first | rfl | cases h

namespace Bare

theorem nil (p : Piece) : Stack.Bare chosen [] p where
  names _ h := nomatch h
  still _ _ h := nomatch h
  method _ _ _ h _ := nomatch h

/-- Another piece in the same place. -/
theorem same (h : σ.Bare chosen p) (hstill : p.Still → q.Still) (hp : ∀ r, p ≠ .routine r) :
    σ.Bare chosen q where
  names := h.names
  still scope outer hσ hround := hstill (h.still scope outer hσ hround)
  method scope outer r hσ hr := by
    obtain ⟨⟨r', hr'⟩, -⟩ := h.method scope outer r hσ hr
    exact absurd hr' (hp r')

/-- Where something is declared, the names of the innermost scope may change. -/
theorem renamed {scope : Open} {outer : Stack} (h : Bare chosen (scope :: outer) p)
    (hstill : ¬ p.Still)
    (hp : ∀ r, p ≠ .routine r) (names : Scope.Names) (q : Piece) :
    Bare chosen ({ scope with names := names } :: outer) q where
  names inner hinner hround := by
    rcases List.mem_cons.1 hinner with rfl | hmem
    · exact absurd (h.still _ _ rfl hround) hstill
    · exact h.names inner (List.mem_cons_of_mem _ hmem) hround
  still inner rest hσ hround := by
    cases hσ
    exact absurd (h.still _ _ rfl hround) hstill
  method inner rest r hσ hr := by
    cases hσ
    obtain ⟨⟨r', hr'⟩, -⟩ := h.method scope outer r rfl hr
    exact absurd hr' (hp r')

theorem enter (h : σ.Bare chosen p) (hstill : ¬ p.Still) (hp : ∀ r, p ≠ .routine r) (name : String)
    (ready : Bool) (q : Piece) : (σ.enter name ready).Bare chosen q := by
  cases σ with
  | nil => exact nil q
  | cons scope outer => exact h.renamed hstill hp _ q

theorem after (h : σ.Bare chosen (.statements (s :: rest))) :
    (σ.after s).Bare chosen (.statements rest) := by
  by_cases hs : s.keepsScope = true
  · rw [after_of_declares_none σ (declares_of_keepsScope hs)]
    exact h.same (fun hstill other hother => hstill other (List.mem_cons_of_mem _ hother))
      (Piece.statements_ne _)
  · have hstill : ¬ (Piece.statements (s :: rest)).Still := fun hstill =>
      hs (hstill s List.mem_cons_self)
    cases σ with
    | nil =>
      rw [after_nil]
      exact nil _
    | cons scope outer =>
      obtain ⟨names, heq, -⟩ := after_cons scope outer s
      rw [heq]
      exact h.renamed hstill (Piece.statements_ne _) names _

/-- A new scope that is not for `this`. -/
theorem opens (h : σ.Bare chosen p) (scope : Open) (hopener : ∀ r, scope.opener ≠ .receiver r)
    (hround : scope.opener.isRound chosen = true → scope.names = [] ∧ q.Still) :
    Bare chosen (scope :: σ) q where
  names inner hinner hinnerRound := by
    rcases List.mem_cons.1 hinner with rfl | hmem
    · exact (hround hinnerRound).1
    · exact h.names inner hmem hinnerRound
  still inner rest hσ hinnerRound := by
    cases hσ
    exact (hround hinnerRound).2
  method inner rest r hσ hr := by
    cases hσ
    exact absurd hr (hopener r)

theorem block (h : σ.Bare chosen (.statement (.block body))) :
    (σ.block body).Bare chosen (.statements body) := by
  refine h.opens _ (fun _ h => by cases h) fun hround => ⟨rfl, fun s hs => ?_⟩
  simp only [Opener.isRound, Stmt.round?] at hround
  split at hround
  · next b step heq =>
    cases heq
    split at hround
    · next hkeeps =>
      rw [Bool.and_eq_true] at hkeeps
      rcases List.mem_cons.1 hs with rfl | hs
      · exact hkeeps.1
      · cases List.mem_singleton.1 hs
        rfl
    · cases hround
  · cases hround

theorem receiver (h : σ.Bare chosen p) (hstill : ¬ p.Still) (r : Routine) :
    (σ.receiver r).Bare chosen (.routine r) where
  names inner hinner hround := by
    rcases List.mem_cons.1 hinner with rfl | hmem
    · cases hround
    · exact h.names inner hmem hround
  still inner rest hσ hround := by
    cases hσ
    cases hround
  method inner outer r' hσ hr := by
    cases hσ
    refine ⟨⟨r, rfl⟩, fun scope rest hσ => ?_⟩
    cases hround : scope.opener.isRound chosen with
    | false => rfl
    | true => exact absurd (h.still scope rest hσ hround) hstill

theorem stmt_part (h : σ.Bare chosen (.statement s)) (hq : (σ', q) ∈ s.parts σ) :
    σ'.Bare chosen q := by
  cases s with
  | expression e | print e =>
    cases List.mem_singleton.1 hq
    exact h.same (fun _ => trivial) (Piece.statement_ne _)
  | var name initial =>
    cases initial with
    | none => cases hq
    | some e =>
      cases List.mem_singleton.1 hq
      exact h.enter (Piece.not_still rfl) (Piece.statement_ne _) _ _ _
  | block body =>
    cases List.mem_singleton.1 hq
    exact h.block
  | ifElse condition yes no =>
    have part {q : Piece} (hq : q = .expression condition ∨ q = .statement yes ∨
        ∃ other, no = some other ∧ q = .statement other) : σ.Bare chosen q := by
      refine h.same (fun hstill => ?_) (Piece.statement_ne _)
      cases no with
      | none =>
        rcases hq with rfl | rfl | ⟨_, hno, -⟩
        · trivial
        · exact hstill
        · cases hno
      | some no =>
        obtain ⟨hyes, hno⟩ := Bool.and_eq_true_iff.1 hstill
        rcases hq with rfl | rfl | ⟨_, heq, rfl⟩
        · trivial
        · exact hyes
        · cases heq
          exact hno
    cases no with
    | none =>
      simp only [Stmt.parts, List.mem_cons, Prod.mk.injEq, List.not_mem_nil, or_false] at hq
      rcases hq with ⟨rfl, rfl⟩ | ⟨rfl, rfl⟩
      · exact part (.inl rfl)
      · exact part (.inr (.inl rfl))
    | some no =>
      simp only [Stmt.parts, List.mem_cons, Prod.mk.injEq, List.not_mem_nil, or_false] at hq
      rcases hq with ⟨rfl, rfl⟩ | ⟨rfl, rfl⟩ | ⟨rfl, rfl⟩
      · exact part (.inl rfl)
      · exact part (.inr (.inl rfl))
      · exact part (.inr (.inr ⟨no, rfl, rfl⟩))
  | whileLoop condition body =>
    simp only [Stmt.parts, List.mem_cons, Prod.mk.injEq, List.not_mem_nil, or_false] at hq
    rcases hq with ⟨rfl, rfl⟩ | ⟨rfl, rfl⟩
    · exact h.same (fun _ => trivial) (Piece.statement_ne _)
    · exact h.same (fun hstill => hstill) (Piece.statement_ne _)
  | breakLoop keyword => cases hq
  | function routine =>
    cases List.mem_singleton.1 hq
    exact h.enter (Piece.not_still rfl) (Piece.statement_ne _) _ _ _
  | classDecl name methods classMethods =>
    obtain ⟨r, -, heq⟩ := List.mem_map.1 hq
    cases heq
    have hstill : ¬ (Piece.statement (.classDecl name methods classMethods)).Still :=
      Piece.not_still rfl
    have hentered := h.enter (q := .statement (.classDecl name methods classMethods)) hstill
      (Piece.statement_ne _) name.lexeme true
    exact hentered.receiver hstill r
  | returnValue keyword value =>
    cases value with
    | none => cases hq
    | some e =>
      cases List.mem_singleton.1 hq
      exact h.same (fun _ => trivial) (Piece.statement_ne _)
  | importModule keyword path => cases hq
  | exportDecl keyword declaration =>
    cases List.mem_singleton.1 hq
    exact h.same (fun hstill => absurd hstill (Piece.not_still rfl)) (Piece.statement_ne _)

theorem part (h : σ.Bare chosen p) (hq : (σ', q) ∈ p.parts σ) : σ'.Bare chosen q := by
  cases p with
  | statements body =>
    cases body with
    | nil => cases hq
    | cons s rest =>
      simp only [Piece.parts, List.mem_cons, Prod.mk.injEq, List.not_mem_nil, or_false] at hq
      rcases hq with ⟨rfl, rfl⟩ | ⟨rfl, rfl⟩
      · exact h.same (fun hstill => hstill s List.mem_cons_self) (Piece.statements_ne _)
      · exact h.after
  | statement s => exact h.stmt_part hq
  | expression e =>
    obtain ⟨part, -, heq⟩ := List.mem_map.1 hq
    cases heq
    exact h.same (fun _ => trivial) (Piece.expression_ne _)
  | routine r =>
    cases List.mem_singleton.1 hq
    exact h.opens _ (fun _ h => by cases h) fun h => by cases h

end Bare

end Stack

theorem Inside.bare (chosen : Stmt → Bool) (h : Inside unit σ p) : σ.Bare chosen p := by
  induction h with
  | whole => exact .nil _
  | part _ hq ih => exact ih.part hq

-- ---------------------------------------------------------------------------
-- Names that have been declared
-- ---------------------------------------------------------------------------

/-- The scope has seen the names that are declared in it where the node stands. -/
def Open.Sees (scope : Open) (node : NodeId) : Prop :=
  ∀ n, (scope.names.lookup n).isSome = (scope.opener.declared node).contains n

/-- What the piece adds to the scope in which it stands before it comes to the node. -/
def Piece.declared (node : NodeId) : Piece → List String
  | .statements body => Stmt.declaredNames (Stmt.upTo node body)
  | .statement s => (s.declares.map Token.lexeme).toList
  | .expression _ | .routine _ => []

/-- All scopes around the piece have seen what is declared in them where its nodes stand, but for
what the piece itself declares. -/
def Stack.Tells : Stack → Piece → Prop
  | [], _ => True
  | scope :: outer, p => ∀ node ∈ p.ids,
    (∀ n, (scope.opener.declared node).contains n =
      ((scope.names.lookup n).isSome || (p.declared node).contains n)) ∧
    ∀ s ∈ outer, s.Sees node

theorem Stmt.declaredNames_cons (s : Stmt) (rest : List Stmt) :
    Stmt.declaredNames (s :: rest) =
      (s.declares.map Token.lexeme).toList ++ Stmt.declaredNames rest := by
  unfold Stmt.declaredNames
  cases h : s.declares <;> simp [h]

theorem Scope.lookup_parameters (params : List Token) (n : String) :
    ((params.map fun p => (p.lexeme, true)).lookup n).isSome =
      (params.map Token.lexeme).contains n := by
  induction params with
  | nil => rfl
  | cons p rest ih =>
    rw [List.map_cons, lookup_cons_isSome, ih]
    rfl

namespace Stack.Tells

variable {σ : Stack} {p q : Piece} {node : NodeId}

theorem same (h : σ.Tells p) (hids : q.ids ⊆ p.ids)
    (hdeclared : ∀ node ∈ q.ids, q.declared node = p.declared node) : σ.Tells q := by
  cases σ with
  | nil => trivial
  | cons scope outer =>
    intro node hnode
    rw [hdeclared node hnode]
    exact h node (hids hnode)

/-- Where the piece declares nothing itself, all scopes have seen what is declared. -/
theorem sees (h : σ.Tells p) (hnode : node ∈ p.ids) (hnone : p.declared node = []) :
    ∀ scope ∈ σ, scope.Sees node := by
  cases σ with
  | nil => exact fun _ hmem => nomatch hmem
  | cons scope outer =>
    obtain ⟨hscope, houter⟩ := h node hnode
    intro inner hinner
    rcases List.mem_cons.1 hinner with rfl | hmem
    · intro n
      rw [hscope n, hnone]
      simp
    · exact houter inner hmem

/-- Behind the declaration of a name, for what the name was declared for. -/
theorem enter (h : σ.Tells p) (hids : q.ids ⊆ p.ids) (hp : ∀ node, p.declared node = [name])
    (hq : ∀ node, q.declared node = []) (ready : Bool) : (σ.enter name ready).Tells q := by
  cases σ with
  | nil => trivial
  | cons scope outer =>
    intro node hnode
    obtain ⟨hscope, houter⟩ := h node (hids hnode)
    refine ⟨fun n => ?_, houter⟩
    rw [hscope n, hp, hq, Scope.lookup_cons_isSome, Bool.eq_iff_iff]
    simp [or_comm]

/-- A scope is opened inside others. -/
theorem opens {scope : Open} (h : ∀ node ∈ q.ids, ∀ s ∈ σ, s.Sees node)
    (hscope : ∀ node ∈ q.ids, ∀ n, (scope.opener.declared node).contains n =
      ((scope.names.lookup n).isSome || (q.declared node).contains n)) : Tells (scope :: σ) q :=
  fun node hnode => ⟨hscope node hnode, h node hnode⟩

theorem first (h : σ.Tells (.statements (s :: rest))) : σ.Tells (.statement s) := by
  refine h.same (fun node hnode => List.mem_append_left _ hnode) fun node hnode => ?_
  have hupTo : Stmt.upTo node (s :: rest) = [s] := if_pos hnode
  rw [Piece.declared, Piece.declared, hupTo, Stmt.declaredNames_cons]
  exact (List.append_nil _).symm

theorem behind (h : σ.Tells (.statements (s :: rest)))
    (hnodup : (Stmt.idsOfAll (s :: rest)).Nodup) :
    (σ.after s).Tells (.statements rest) := by
  cases σ with
  | nil =>
    rw [after_nil]
    trivial
  | cons scope outer =>
    obtain ⟨names, heq, hnames⟩ := after_cons scope outer s
    rw [heq]
    intro node hnode
    obtain ⟨hscope, houter⟩ := h node (List.mem_append_right _ hnode)
    refine ⟨fun n => ?_, houter⟩
    have hnot : node ∉ s.ids := fun hmem => Analysed.apart hnodup hmem hnode
    have hupTo : Stmt.upTo node (s :: rest) = s :: Stmt.upTo node rest := if_neg hnot
    rw [hscope n, hnames n, Piece.declared, Piece.declared, hupTo, Stmt.declaredNames_cons,
      Bool.eq_iff_iff]
    simp [or_assoc]

theorem block (h : σ.Tells (.statement (.block body))) :
    (σ.block body).Tells (.statements body) :=
  opens (fun _ hnode => h.sees hnode rfl) fun _ _ _ => rfl

theorem call (h : σ.Tells (.routine r)) : (σ.call r).Tells (.statements r.body) := by
  obtain ⟨name, params, body⟩ := r
  refine opens (fun _ hnode => h.sees hnode rfl) fun node _ n => ?_
  rw [Scope.lookup_parameters, Bool.eq_iff_iff]
  simp [Opener.declared, Piece.declared]

theorem receiver (h : ∀ node ∈ r.ids, ∀ s ∈ σ, s.Sees node) :
    (σ.receiver r).Tells (.routine r) := by
  refine opens h fun node _ n => ?_
  rw [Scope.lookup_cons_isSome, Bool.eq_iff_iff]
  simp [Opener.declared, Piece.declared]

theorem stmt_part (h : σ.Tells (.statement s)) (hproper : s.Proper) (hq : (σ', q) ∈ s.parts σ) :
    σ'.Tells q := by
  have hids : q.ids ⊆ s.ids := fun node hnode => (Piece.ids_perm σ (.statement s)).mem_iff.2
    (List.mem_append_left _ (List.mem_flatMap.2 ⟨(σ', q), hq, hnode⟩))
  cases s with
  | expression e | print e =>
    cases List.mem_singleton.1 hq
    exact h.same hids fun _ _ => rfl
  | var name initial =>
    cases initial with
    | none => cases hq
    | some e =>
      cases List.mem_singleton.1 hq
      exact h.enter hids (fun _ => rfl) (fun _ => rfl) false
  | block body =>
    cases List.mem_singleton.1 hq
    exact h.block
  | ifElse condition yes no =>
    have branch {other : Stmt} (hnone : other.declares = none) (hids : other.ids ⊆ _) :
        σ.Tells (.statement other) :=
      h.same hids fun _ _ => by rw [Piece.declared, hnone]; rfl
    cases no with
    | none =>
      simp only [Stmt.parts, List.mem_cons, Prod.mk.injEq, List.not_mem_nil, or_false] at hq
      rcases hq with ⟨rfl, rfl⟩ | ⟨rfl, rfl⟩
      · exact h.same hids fun _ _ => rfl
      · exact branch hproper.1 hids
    | some no =>
      simp only [Stmt.parts, List.mem_cons, Prod.mk.injEq, List.not_mem_nil, or_false] at hq
      rcases hq with ⟨rfl, rfl⟩ | ⟨rfl, rfl⟩ | ⟨rfl, rfl⟩
      · exact h.same hids fun _ _ => rfl
      · exact branch hproper.1 hids
      · exact branch hproper.2.2.1 hids
  | whileLoop condition body =>
    simp only [Stmt.parts, List.mem_cons, Prod.mk.injEq, List.not_mem_nil, or_false] at hq
    rcases hq with ⟨rfl, rfl⟩ | ⟨rfl, rfl⟩
    · exact h.same hids fun _ _ => rfl
    · refine h.same hids fun _ _ => ?_
      rw [Piece.declared, hproper.1]
      rfl
  | breakLoop keyword => cases hq
  | function routine =>
    cases List.mem_singleton.1 hq
    exact h.enter hids (fun _ => rfl) (fun _ => rfl) true
  | classDecl name methods classMethods =>
    obtain ⟨r, hr, heq⟩ := List.mem_map.1 hq
    cases heq
    have hentered : (σ.enter name.lexeme true).Tells (.routine r) :=
      h.enter hids (fun _ => rfl) (fun _ => rfl) true
    exact receiver fun node hnode => hentered.sees hnode rfl
  | returnValue keyword value =>
    cases value with
    | none => cases hq
    | some e =>
      cases List.mem_singleton.1 hq
      exact h.same hids fun _ _ => rfl
  | importModule keyword path => cases hq
  | exportDecl keyword declaration =>
    cases List.mem_singleton.1 hq
    exact h.same hids fun _ _ => rfl

theorem part (h : σ.Tells p) (hproper : p.Proper) (hnodup : p.ids.Nodup)
    (hq : (σ', q) ∈ p.parts σ) : σ'.Tells q := by
  cases p with
  | statements body =>
    cases body with
    | nil => cases hq
    | cons s rest =>
      simp only [Piece.parts, List.mem_cons, Prod.mk.injEq, List.not_mem_nil, or_false] at hq
      rcases hq with ⟨rfl, rfl⟩ | ⟨rfl, rfl⟩
      · exact h.first
      · exact h.behind hnodup
  | statement s => exact h.stmt_part hproper.1 hq
  | expression e =>
    have hids : q.ids ⊆ e.ids := fun node hnode => (Piece.ids_perm σ (.expression e)).mem_iff.2
      (List.mem_append_left _ (List.mem_flatMap.2 ⟨(σ', q), hq, hnode⟩))
    obtain ⟨part, -, heq⟩ := List.mem_map.1 hq
    cases heq
    exact h.same hids fun _ _ => rfl
  | routine r =>
    cases List.mem_singleton.1 hq
    exact h.call

end Stack.Tells

theorem Inside.tells (h : Inside unit σ p) (hunit : Analysed notes [] unit.piece) : σ.Tells p := by
  induction h with
  | whole => trivial
  | part hinside hq ih =>
    have hanalysed := hinside.analysed hunit
    exact ih.part hanalysed.proper hanalysed.nodup hq

end Treewalk
