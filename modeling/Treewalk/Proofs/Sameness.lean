import Treewalk.Proofs.Contexts
import Treewalk.Proofs.Visits

/-!
# Sessions that differ in notes alone

The least likeness lets two sessions differ in nothing but the distances that are noted for some
nodes, none of which anything that they hold refers to. What is alike then is the same. Every
reachable session corresponds to itself in this way.
-/

namespace Treewalk

open Renamings (plain inside)

-- ---------------------------------------------------------------------------
-- Trees and values
-- ---------------------------------------------------------------------------

/-- Every node stands for itself. -/
def Pairing.Same (N : Pairing) : Prop :=
  ∀ i j d, N i j d → i = j

section
variable {N : Pairing}

mutual

theorem Expr.Like.eq_of_plain (hN : N.Same) (h : Expr.Like N plain e e') : e' = e := by
  cases h with
  | literal => rfl
  | unary _ h => rw [h.eq_of_plain hN]
  | binary _ h₁ h₂ => rw [h₁.eq_of_plain hN, h₂.eq_of_plain hN]
  | logical _ h₁ h₂ => rw [h₁.eq_of_plain hN, h₂.eq_of_plain hN]
  | conditional h₁ h₂ h₃ => rw [h₁.eq_of_plain hN, h₂.eq_of_plain hN, h₃.eq_of_plain hN]
  | group h => rw [h.eq_of_plain hN]
  | var name h => rw [hN _ _ _ h, Renamings.found_plain, Token.renamed_one]
  | assign name h h₁ =>
    rw [hN _ _ _ h, h₁.eq_of_plain hN, Renamings.found_plain, Token.renamed_one]
  | call _ h hs => rw [h.eq_of_plain hN, hs.eq_of_plain hN]
  | get _ h => rw [h.eq_of_plain hN]
  | set _ h₁ h₂ => rw [h₁.eq_of_plain hN, h₂.eq_of_plain hN]
  | this keyword h => rw [hN _ _ _ h, Renamings.found_plain, Token.renamed_one]
  | array hs => rw [hs.eq_of_plain hN]
  | index _ h₁ h₂ => rw [h₁.eq_of_plain hN, h₂.eq_of_plain hN]

theorem Expr.AllLike.eq_of_plain (hN : N.Same) (h : Expr.AllLike N plain es es') : es' = es := by
  cases h with
  | nil => rfl
  | cons h hs => rw [h.eq_of_plain hN, hs.eq_of_plain hN]

end

theorem Expr.Like.eq (hN : N.Same) (henv : env = plain) (h : Expr.Like N env e e') : e' = e :=
  Expr.Like.eq_of_plain hN (henv ▸ h)

theorem Expr.optionLike_eq (hN : N.Same) (henv : env = plain)
    (h : Option.Rel (Expr.Like N env) e e') : e' = e := by
  cases h with
  | some h => rw [h.eq hN henv]
  | none => rfl

theorem Renamings.inside_eq_plain (hρ : ρ = 1) (henv : env = plain) : inside ρ env = plain := by
  rw [hρ, henv, inside_plain]

mutual

theorem Stmt.Like.eq (hN : N.Same) (h : Stmt.Like (· = 1) N env s s') :
    env = plain → s' = s := by
  cases h with
  | expression h =>
    intro henv
    rw [h.eq hN henv]
  | print h =>
    intro henv
    rw [h.eq hN henv]
  | var name h =>
    intro henv
    rw [Expr.optionLike_eq hN henv h, henv]
    rfl
  | block hρ hs =>
    intro henv
    rw [hs.eq hN (Renamings.inside_eq_plain hρ henv)]
  | ifOnly h h₁ =>
    intro henv
    rw [h.eq hN henv, h₁.eq hN henv]
  | ifElse h h₁ h₂ =>
    intro henv
    rw [h.eq hN henv, h₁.eq hN henv, h₂.eq hN henv]
  | whileLoop h h₁ =>
    intro henv
    rw [h.eq hN henv, h₁.eq hN henv]
  | breakLoop => exact fun _ => rfl
  | function _ h =>
    intro henv
    rw [h.eq hN henv]
  | classDecl _ h₁ h₂ =>
    intro henv
    rw [h₁.eq hN (Renamings.inside_eq_plain rfl henv),
      h₂.eq hN (Renamings.inside_eq_plain rfl henv)]
  | returnValue _ h =>
    intro henv
    rw [Expr.optionLike_eq hN henv h]
  | importModule => exact fun _ => rfl
  | exportDecl _ _ h =>
    intro henv
    rw [h.eq hN henv]
termination_by sizeOf s
decreasing_by all_goals subst_vars; simp_wf <;> omega

theorem Stmt.AllLike.eq (hN : N.Same) (h : Stmt.AllLike (· = 1) N env body body') :
    env = plain → body' = body := by
  cases h with
  | nil => exact fun _ => rfl
  | cons h hs =>
    intro henv
    rw [h.eq hN henv, hs.eq hN henv]
termination_by sizeOf body
decreasing_by all_goals subst_vars; simp_wf <;> omega

theorem Routine.Like.eq (hN : N.Same) (h : Routine.Like (· = 1) N env r r') :
    env = plain → r' = r := by
  cases h with
  | intro name params hρ h =>
    intro henv
    rw [h.eq hN (Renamings.inside_eq_plain hρ henv), hρ, Token.renamed_eq_id, List.map_id_fun,
      Option.map_id_fun, id]
termination_by sizeOf r
decreasing_by all_goals subst_vars; simp_wf

theorem Routine.AllLike.eq (hN : N.Same) (h : Routine.AllLike (· = 1) N env rs rs') :
    env = plain → rs' = rs := by
  cases h with
  | nil => exact fun _ => rfl
  | cons h hs =>
    intro henv
    rw [h.eq hN henv, hs.eq hN henv]
termination_by sizeOf rs
decreasing_by all_goals subst_vars; simp_wf <;> omega

end

theorem Opener.Like.eq (hN : N.Same) (h : Opener.Like (· = 1) N o o') : o' = o := by
  cases h with
  | block henv h => rw [h.eq hN (funext henv)]
  | call henv h => rw [h.eq hN (funext henv)]
  | receiver henv h => rw [h.eq hN (funext henv)]

end

-- ---------------------------------------------------------------------------
-- Values
-- ---------------------------------------------------------------------------

/-- Every node stands for itself, and no name is changed. -/
structure World.Same (W : World) : Prop where
  noted : W.noted.Same
  renamings : ∀ frame < W.size, W.renamings frame = plain

theorem Table.Like.eq {R : α → α → Prop} (h : Table.Like 1 R t t')
    (hR : ∀ a b, R a b → b = a) : t' = t := by
  obtain ⟨entries⟩ := t
  obtain ⟨entries'⟩ := t'
  refine congrArg Table.mk
    (List.forall₂_eq_eq_eq ▸ h.imp fun entry entry' hentry => ?_ : _ = _).symm
  exact Prod.ext hentry.1.symm (hR _ _ hentry.2).symm

theorem rel_eq {R : α → α → Prop} (h : Option.Rel R a? b?) (hR : ∀ a b, R a b → b = a) :
    b? = a? := by
  cases h with
  | some h => rw [hR _ _ h]
  | none => rfl

/-- Nothing is renamed, and all identities are the same. -/
structure Translation.Exact (T : Translation) : Prop extends T.InPlace where
  names : ∀ ρ, T.names ρ → ρ = 1

section
variable {T : Translation} {W : World}

theorem Translation.Exact.names_eq (hT : T.Exact) : T.names = (· = 1) :=
  funext fun ρ => propext ⟨hT.names ρ, fun h => h ▸ T.names_one⟩

theorem Closure.Like.eq (hT : T.Exact) (hW : W.Same) (haround : around plain = plain)
    (h : Closure.Like T W around c c') : c' = c := by
  have henv : around (W.renamings c.frame) = plain := by rw [hW.renamings _ h.lt, haround]
  have hroutine := h.routine
  rw [hT.names_eq] at hroutine
  have hroutine := hroutine.eq hW.noted henv
  have hframe := h.frame
  have hhome := h.home
  rw [hT.frame] at hframe hhome
  cases c
  cases c'
  rw [Closure.mk.injEq]
  exact ⟨hroutine, hframe, h.initializer, hhome.trans Option.map_id'⟩

theorem Class.Like.eq (hT : T.Exact) (hW : W.Same) (h : Class.Like T W c c') : c' = c := by
  have hmethods := h.methods.eq fun _ _ h => h.eq hT hW Renamings.inside_plain
  have hclass := h.classMethods.eq fun _ _ h => h.eq hT hW Renamings.inside_plain
  have hid := h.id
  rw [hT.object] at hid
  cases c
  cases c'
  rw [Class.mk.injEq]
  exact ⟨hid, h.name, hmethods, hclass⟩

theorem Value.Like.eq (hT : T.Exact) (hW : W.Same) (h : Value.Like T W v v') : v' = v := by
  cases h with
  | plain => rfl
  | array => rw [hT.array, Shift.none_apply]
  | function _ h => rw [h.eq hT hW rfl, hT.function, Shift.none_apply]
  | classObject h => rw [h.eq hT hW]
  | object _ h => rw [h.eq hT hW, hT.object, Shift.none_apply]

theorem Value.AllLike.eq (hT : T.Exact) (hW : W.Same) (h : Value.AllLike T W vs vs') :
    vs' = vs := by
  induction h with
  | nil => rfl
  | cons hv _ ih => rw [hv.eq hT hW, ih]

theorem Arrays.Like.eq {as as' : Arrays} (hT : T.Exact) (hW : W.Same) (h : as.Like T W as') :
    as' = as := by
  have hsize := h.next
  rw [hT.array, Shift.none_next] at hsize
  cases as with | mk store =>
  cases as' with | mk store' =>
  refine congrArg Arrays.mk (Array.ext_getElem? fun made => ?_)
  by_cases hlt : made < Arrays.size ⟨store⟩
  · have helements := (h.elements made).eq hT hW
    rw [hT.array, Shift.none_apply] at helements
    rw [store_of_lt hlt, store_of_lt (hsize ▸ hlt), helements]
  · have hout := Nat.le_of_not_lt hlt
    rw [Array.getElem?_eq_none hout, Array.getElem?_eq_none (hsize.le.trans hout)]

theorem Module.Like.eq (hT : T.Exact) (hW : W.Same) (h : Module.Like T W m m') : m' = m := by
  have hexports := h.exports.eq fun _ _ h => h.eq hT hW
  have hframe := h.frame
  rw [hT.frame] at hframe
  cases m
  cases m'
  rw [Module.mk.injEq]
  exact ⟨hframe, hexports⟩

end

theorem Frames.store_getElem? {fs : Frames} {frame : FrameId} (h : frame < fs.size) :
    fs.store[frame]? = some ⟨fs.bindings frame, fs.parent? frame, fs.opener? frame⟩ := by
  have hfound : fs.store[frame]? = some fs.store[frame] := Array.getElem?_eq_getElem h
  simp only [bindings, parent?, opener?, hfound, Option.bind_some]

theorem Frames.Like.eq {T : Translation} {W : World} {fs fs' : Frames} (hT : T.Exact) (hW : W.Same)
    (h : fs.Like T W fs') : fs' = fs := by
  suffices fs'.store = fs.store by
    cases fs
    cases fs'
    rw [Frames.mk.injEq]
    exact this
  have hsize := h.next
  rw [hT.frame, Shift.none_next] at hsize
  refine Array.ext_getElem? fun frame => ?_
  by_cases hlt : frame < fs.size
  · have hbindings := h.bindings frame
    have hopener := h.opener frame
    have hparent := h.parent frame
    rw [hT.names _ (h.names frame (h.size ▸ hlt) 0)] at hbindings
    rw [hT.frame, Shift.none_apply] at hbindings hopener hparent
    rw [hT.names_eq] at hopener
    rw [store_getElem? (hsize ▸ hlt), store_getElem? hlt,
      hbindings.eq fun _ _ h => h.eq hT hW, hparent.trans Option.map_id',
      rel_eq hopener fun _ _ h => h.eq hW.noted]
  · have hout := Nat.le_of_not_lt hlt
    rw [Array.getElem?_eq_none hout, Array.getElem?_eq_none (hsize.le.trans hout)]

-- ---------------------------------------------------------------------------
-- Sessions
-- ---------------------------------------------------------------------------

/-- The sessions are the same, except that other distances may be noted for these nodes. -/
structure Session.SameBut (ids : List NodeId) (s s' : Session) : Prop where
  others : { s with distances := s'.distances } = s'
  distances : ∀ id ∉ ids, s'.distances[id]? = s.distances[id]?

/-- Nothing differs but the distances that are noted for these nodes. -/
def Likeness.same (ids : List NodeId) : Likeness :=
  ⟨.identity, Eq, Eq, fun i j => i = j ∧ i ∉ ids⟩

theorem Translation.identity_exact : identity.Exact :=
  ⟨ofNames_inPlace .., fun _ h => h⟩

namespace Likeness

variable {ids : List NodeId} {W : World} {env : Renamings} {s s' : Session}

theorem Holds.worldSame (h : (same ids).Holds W env s s') : W.Same where
  noted i j d hij := (h.notes.noted i j d hij).1
  renamings frame hlt := funext (h.frames.names frame hlt)

theorem Holds.sameBut (h : (same ids).Holds W env s s') : s.SameBut ids s' where
  others := by
    have hT := Translation.identity_exact
    have hsources : s'.sources = s.sources :=
      funext fun path => rel_eq (h.sources path) fun _ _ h => h.1.symm
    have hfields : s'.fields = s.fields :=
      Array.ext_getElem? fun made => rel_eq (h.fields made) fun _ _ ht =>
        ht.eq fun _ _ hv => hv.eq hT h.worldSame
    have harrays := h.arrays.eq hT h.worldSame
    have hmodules := h.modules.eq fun _ _ hm => hm.eq hT h.worldSame
    have hnextId : s.nextId = s'.nextId := h.notes.nextId
    have hframes := h.frames.eq hT h.worldSame
    have hidentity := Shift.none_next.1 h.nextIdentity
    have hcontext : s'.context = s.context := h.context
    cases s
    cases s'
    rw [Session.mk.injEq]
    exact ⟨hframes.symm, hfields.symm, harrays.symm, hidentity.symm, hnextId, rfl,
      hmodules.symm, h.started.symm, hsources.symm, hcontext.symm, h.output.symm, h.refusal.symm,
      h.clock.symm⟩
  distances id hid := h.notes.agreed id id ⟨rfl, hid⟩

theorem Halts.eq {L : Likeness} (hnames : ∀ ρ, L.names ρ → ρ = 1) (h : L.Halts halt halt') :
    halt' = halt := by
  cases h with
  | same => rfl
  | unbound name d hρ => rw [hnames _ hρ, Token.renamed_one]

-- ---------------------------------------------------------------------------
-- Every session is the same as itself
-- ---------------------------------------------------------------------------

theorem distance?_mem {p : Prepared α} (h : p.distance? node = some d) : (node, d) ∈ p.notes := by
  obtain ⟨before, after, hnotes, -⟩ := List.lookup_eq_some_iff.1 h
  rw [← List.mem_reverse, hnotes]
  exact List.mem_append_right _ (List.mem_cons_self ..)

/-- A source corresponds to itself, as its nodes do. -/
theorem ready_refl {L : Likeness} {start : NodeId} (hnodes : L.nodes = Eq)
    (hagreed : ∀ i j, L.agreed i j → i = j) (h : Checked start p) : L.Ready start start p p where
  le := h.fresh.le
  le' := h.fresh.le
  nextId := by rw [hnodes]
  tree := by
    have hpairs : (L.fresh start start p p).Pairs id id p.tree.ids := by
      intro node hnode
      obtain ⟨hlow, hhigh⟩ := h.fresh.range node hnode
      exact ⟨p.distance? node, by rw [hnodes], ⟨hlow, hhigh, rfl⟩, hlow, hhigh, rfl⟩
    have := Line.like_numbered L.names_one p.tree hpairs
    rwa [Line.numbered_id] at this
  range i hi := by
    obtain ⟨d, hd⟩ := Option.isSome_iff_exists.1 hi
    exact h.notes_range (distance?_mem hd)
  range' i hi := by
    obtain ⟨d, hd⟩ := Option.isSome_iff_exists.1 hi
    exact h.notes_range (distance?_mem hd)
  agreed i j hij := by rw [hagreed i j hij]

theorem prepares_refl {L : Likeness} (hnodes : L.nodes = Eq)
    (hagreed : ∀ i j, L.agreed i j → i = j) (entry : Entry) :
    L.Prepares entry.prepared entry.prepared := by
  intro start start' hstart
  obtain rfl : start = start' := by rwa [hnodes] at hstart
  cases hp : entry.prepared start with
  | ok p => exact .ok (ready_refl hnodes hagreed (entry.checked hp))
  | error e => exact .error e

theorem same_prepares (ids : List NodeId) (entry : Entry) :
    (same ids).Prepares entry.prepared entry.prepared :=
  prepares_refl rfl (fun _ _ hij => And.left hij) entry

theorem same_modules (ids : List NodeId) (source : String) : (same ids).Modules source source :=
  ⟨rfl, same_prepares ids (.unit source)⟩

/-- The distances of other nodes are known to agree. -/
theorem Holds.settle {ids' : List NodeId} (h : (same ids).Holds W env s s')
    (hagreed : ∀ id ∉ ids', s'.distances[id]? = s.distances[id]?) :
    (same ids').Holds W env s s' :=
  { h with
    notes := { h.notes with
      agreed := by
        rintro i j ⟨rfl, hi⟩
        exact hagreed i hi }
    sources := fun path => by
      obtain ⟨h₁, h₂⟩ | ⟨source, source', h₁, h₂, hsource⟩ := rel_cases (h.sources path)
      · rw [h₁, h₂]
        exact .none
      · obtain rfl : source = source' := hsource.1
        rw [h₁, h₂]
        exact .some (same_modules ids' source) }

/-- Every session that is reached is the same as itself. -/
theorem holds_same (hs : Reachable units s) (ids : List NodeId) :
    ∃ W, (same ids).Holds W plain s s := by
  induction hs with
  | @start sources refusal clock =>
    refine ⟨blank, Likeness.start Translation.identity_exact.toInPlace rfl fun path => ?_⟩
    cases sources path with
    | none => exact .none
    | some source => exact .some (same_modules ids source)
  | run entry fuel _ ih =>
    obtain ⟨W, hs⟩ := ih
    obtain ⟨W', -, ht, -⟩ := ((same_prepares ids entry).joint hs fuel).result
    exact ⟨W', ht⟩
  | told _ ih =>
    obtain ⟨W, hs⟩ := ih
    exact ⟨W, { hs with output := rfl, clock := rfl }⟩

theorem ResultLike.eq (hW : W.Same) (h : (Likeness.same ids).ResultLike W r r') : r' = r := by
  cases h with
  | ok hshown => rw [rel_eq hshown fun _ _ hv => hv.eq Translation.identity_exact hW]
  | halt hhalt => rw [hhalt.eq fun _ hρ => hρ]

/-- Whatever is entered later, the sessions go on in the same way. -/
theorem Holds.visited_eq (h : (same ids).Holds W plain s s') (visits : List Visit) :
    (s'.visited visits).1 = (s.visited visits).1 ∧
      (s.visited visits).2.SameBut ids (s'.visited visits).2 := by
  have hvisits : List.Forall₂ (same ids).Visits visits visits :=
    List.forall₂_same.2 fun v _ => ⟨rfl, rfl, same_prepares ids v.entry⟩
  obtain ⟨W', -, ht, hresults⟩ := h.visited hvisits
  refine ⟨?_, ht.sameBut⟩
  have heq := hresults.imp fun _ _ hr => (hr.eq ht.worldSame).symm
  rw [List.forall₂_eq_eq_eq] at heq
  exact heq.symm

end Likeness

end Treewalk
