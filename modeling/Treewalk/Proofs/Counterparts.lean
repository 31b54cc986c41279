import Treewalk.Proofs.Filling
import Treewalk.Proofs.Likeness

/-!
# Sessions that correspond

Two sessions correspond when the one has all frames, objects, functions, arrays and modules of the
other, possibly under other identities, and they hold values that are alike. A translation says how.
What is known of such a pair is a world: which nodes stand for each other, how many frames there
are, and how the names in the scopes around each frame are renamed. A world grows as the sessions
run; what was alike stays alike.
-/

namespace Treewalk

open Renamings (plain inside)

-- ---------------------------------------------------------------------------
-- Tables
-- ---------------------------------------------------------------------------

theorem rel_cases {R : α → β → Prop} {a? : Option α} {b? : Option β} (h : Option.Rel R a? b?) :
    (a? = none ∧ b? = none) ∨ ∃ a b, a? = some a ∧ b? = some b ∧ R a b := by
  cases h with
  | none => exact .inl ⟨rfl, rfl⟩
  | some h => exact .inr ⟨_, _, rfl, rfl, h⟩

namespace Table

/-- The same bindings in the same order, under names that `ρ` has changed. -/
def Like (ρ : Renaming) (R : α → β → Prop) (t : Table α) (t' : Table β) : Prop :=
  List.Forall₂ (fun entry entry' => entry'.1 = ρ entry.1 ∧ R entry.2 entry'.2) t.entries t'.entries

variable {ρ : Renaming} {R : α → β → Prop} {t : Table α} {t' : Table β}

theorem Like.empty : Like ρ R (empty : Table α) (empty : Table β) :=
  .nil

theorem Like.mono (h : t.Like ρ R t') (hR : ∀ a b, R a b → R' a b) : t.Like ρ R' t' :=
  List.Forall₂.imp (fun _ _ h => ⟨h.1, hR _ _ h.2⟩) h

theorem lookup_like {entries : List (String × α)} {entries' : List (String × β)}
    (h : List.Forall₂ (fun entry entry' => entry'.1 = ρ entry.1 ∧ R entry.2 entry'.2) entries
      entries') (name : String) :
    Option.Rel R (entries.lookup name) (entries'.lookup (ρ name)) := by
  induction h with
  | nil => exact .none
  | @cons entry entry' _ _ hentry _ ih =>
    obtain ⟨key, a⟩ := entry
    obtain ⟨key', b⟩ := entry'
    obtain ⟨rfl, hab⟩ := hentry
    have hbeq : (ρ name == ρ key) = (name == key) := by
      rw [Bool.eq_iff_iff, beq_iff_eq, beq_iff_eq, ρ.apply_eq_iff_eq]
    rw [List.lookup_cons, List.lookup_cons, hbeq]
    split
    · exact .some hab
    · exact ih

theorem Like.get? (h : t.Like ρ R t') (name : String) :
    Option.Rel R (t.get? name) (t'.get? (ρ name)) :=
  lookup_like h name

theorem Like.contains (h : t.Like ρ R t') (name : String) :
    t'.contains (ρ name) = t.contains name := by
  unfold Table.contains
  obtain ⟨h₁, h₂⟩ | ⟨a, b, h₁, h₂, -⟩ := rel_cases (h.get? name) <;> rw [h₁, h₂] <;> rfl

theorem put_like {entries : List (String × α)} {entries' : List (String × β)}
    (h : List.Forall₂ (fun entry entry' => entry'.1 = ρ entry.1 ∧ R entry.2 entry'.2) entries
      entries') (name : String) (hab : R a b) :
    List.Forall₂ (fun entry entry' => entry'.1 = ρ entry.1 ∧ R entry.2 entry'.2)
      (put name a entries) (put (ρ name) b entries') := by
  induction h with
  | nil => exact .cons ⟨rfl, hab⟩ .nil
  | @cons entry entry' _ _ hentry hrest ih =>
    obtain ⟨key, old⟩ := entry
    obtain ⟨key', old'⟩ := entry'
    obtain ⟨rfl, hold⟩ := hentry
    simp only [put, ρ.apply_eq_iff_eq]
    split
    · exact .cons ⟨rfl, hab⟩ hrest
    · exact .cons ⟨rfl, hold⟩ ih

theorem Like.insert (h : t.Like ρ R t') (name : String) (hab : R a b) :
    (t.insert name a).Like ρ R (t'.insert (ρ name) b) :=
  put_like h name hab

theorem Like.ofList {pairs : List (String × α)} {pairs' : List (String × β)}
    (h : List.Forall₂ (fun pair pair' => pair'.1 = pair.1 ∧ R pair.2 pair'.2) pairs pairs') :
    (Table.ofList pairs).Like 1 R (Table.ofList pairs') := by
  suffices ∀ (t : Table α) (t' : Table β), t.Like 1 R t' →
      (pairs.foldl (fun t pair => t.insert pair.1 pair.2) t).Like 1 R
        (pairs'.foldl (fun t pair => t.insert pair.1 pair.2) t') from this _ _ .empty
  induction h with
  | nil => exact fun _ _ ht => ht
  | cons hpair _ ih =>
    intro t t' ht
    refine ih _ _ ?_
    dsimp only
    rw [hpair.1]
    exact ht.insert _ hpair.2

end Table

-- ---------------------------------------------------------------------------
-- Identities
-- ---------------------------------------------------------------------------

/-- Under which identity one session has what another has. What came before `base` may be anywhere;
from there on both count on, the one `gap` ahead of the other. -/
structure Shift where
  apply : Nat → Nat
  injective : Function.Injective apply
  base : Nat
  gap : Nat
  apply_of_le : ∀ i, base ≤ i → apply i = i + gap

instance : CoeFun Shift fun _ => Nat → Nat :=
  ⟨Shift.apply⟩

namespace Shift

/-- All identities are the same. -/
def none : Shift :=
  ⟨id, Function.injective_id, 0, 0, fun _ _ => rfl⟩

@[simp] theorem none_apply (i : Nat) : none i = i := rfl

variable {σ : Shift}

@[simp] theorem apply_eq_iff {i j : Nat} : σ i = σ j ↔ i = j :=
  σ.injective.eq_iff

/-- The identities that are given next stand for each other. -/
structure Next (σ : Shift) (next next' : Nat) : Prop where
  le : σ.base ≤ next
  eq : next' = next + σ.gap

namespace Next

theorem apply (h : σ.Next next next') : next' = σ next :=
  h.eq.trans (σ.apply_of_le next h.le).symm

theorem succ (h : σ.Next next next') : σ.Next (next + 1) (next' + 1) :=
  ⟨Nat.le_succ_of_le h.le, by rw [h.eq, Nat.add_right_comm]⟩

/-- What is there in one session is there in the other. -/
theorem lt_iff (h : σ.Next next next') (i : Nat) : σ i < next' ↔ i < next := by
  have hbehind (i : Nat) (hi : next ≤ i) : σ i = i + σ.gap := σ.apply_of_le i (h.le.trans hi)
  constructor
  · intro hlt
    by_contra hge
    have := hbehind i (Nat.not_lt.1 hge)
    have := h.eq
    omega
  · intro hlt
    by_contra hge
    -- Then it would stand for the identity that far behind, and for that alone.
    obtain ⟨j, hj⟩ := Nat.exists_eq_add_of_le (Nat.not_lt.1 hge)
    have hsame : σ i = σ (next + j) := by
      rw [hbehind _ (Nat.le_add_right _ _), hj, h.eq, Nat.add_right_comm]
    exact absurd (σ.injective hsame) (by omega)

end Next

@[simp] theorem none_next : none.Next next next' ↔ next' = next :=
  ⟨fun h => h.eq, fun h => ⟨Nat.zero_le _, h⟩⟩

end Shift

/-- How what one session holds is told in another: which renamings a scope may have, and under which
identities the other session has what the first has. -/
structure Translation where
  names : Renaming → Prop
  frame : Shift
  object : Shift
  function : Shift
  array : Shift
  names_one : names 1
  names_this : ∀ ρ, names ρ → ρ "this" = "this"
  frame_root : frame rootFrame = rootFrame

/-- All identities are the same, and the scopes are renamed as `names` says. -/
def Translation.ofNames (names : Renaming → Prop) (names_one : names 1)
    (names_this : ∀ ρ, names ρ → ρ "this" = "this") : Translation :=
  ⟨names, .none, .none, .none, .none, names_one, names_this, rfl⟩

/-- Nothing is renamed. -/
def Translation.identity : Translation :=
  ofNames (· = 1) rfl (by rintro ρ rfl; rfl)

/-- All identities are the same in both sessions. -/
structure Translation.InPlace (T : Translation) : Prop where
  frame : T.frame = .none
  object : T.object = .none
  function : T.function = .none
  array : T.array = .none

theorem Translation.ofNames_inPlace (names : Renaming → Prop) (names_one : names 1)
    (names_this : ∀ ρ, names ρ → ρ "this" = "this") :
    (ofNames names names_one names_this).InPlace :=
  ⟨rfl, rfl, rfl, rfl⟩

-- ---------------------------------------------------------------------------
-- Worlds and values
-- ---------------------------------------------------------------------------

/-- What is known of two sessions that correspond. -/
structure World where
  noted : Pairing
  /-- The number of frames. -/
  size : Nat
  /-- The renamings of the scopes around each frame, its own first. -/
  renamings : FrameId → Renamings

namespace World

/-- No name is changed in the frame or around it. -/
def Plain (W : World) (frame : FrameId) : Prop :=
  frame < W.size ∧ W.renamings frame = plain

structure Grows (W W' : World) : Prop where
  noted : W.noted.Le W'.noted
  size : W.size ≤ W'.size
  renamings : ∀ frame < W.size, W'.renamings frame = W.renamings frame

variable {W W' : World}

theorem Grows.refl (W : World) : W.Grows W :=
  ⟨fun _ _ _ h => h, Nat.le_refl _, fun _ _ => rfl⟩

theorem Grows.trans (h : W.Grows W') (h' : W'.Grows W'') : W.Grows W'' where
  noted i j d hij := h'.noted i j d (h.noted i j d hij)
  size := Nat.le_trans h.size h'.size
  renamings frame hlt := by
    rw [h'.renamings frame (Nat.lt_of_lt_of_le hlt h.size), h.renamings frame hlt]

theorem Plain.grow (h : W.Plain frame) (hW : W.Grows W') : W'.Plain frame :=
  ⟨Nat.lt_of_lt_of_le h.1 hW.size, (hW.renamings frame h.1).trans h.2⟩

end World

/-- Functions of one frame, alike inside the scopes around it, and of one unit. -/
structure Closure.Like (T : Translation) (W : World) (around : Renamings → Renamings)
    (c c' : Closure) : Prop where
  routine : Routine.Like T.names W.noted (around (W.renamings c.frame)) c.routine c'.routine
  frame : c'.frame = T.frame c.frame
  lt : c.frame < W.size
  initializer : c'.initializer = c.initializer
  home : c'.home = c.home.map T.frame
  globals : W.Plain (c.home.getD rootFrame)

/-- Methods stand inside the scope for `this`. -/
abbrev Closure.MethodLike (T : Translation) (W : World) (c c' : Closure) : Prop :=
  Closure.Like T W (inside 1) c c'

structure Class.Like (T : Translation) (W : World) (c c' : Class) : Prop where
  id : c'.id = T.object c.id
  name : c'.name = c.name
  methods : Table.Like 1 (Closure.MethodLike T W) c.methods c'.methods
  classMethods : Table.Like 1 (Closure.MethodLike T W) c.classMethods c'.classMethods

inductive Value.Like (T : Translation) (W : World) : Value → Value → Prop
  | plain : Value.Plain v → Value.Like T W v v
  | array (made : ArrayId) : Value.Like T W (.array made) (.array (T.array made))
  | function (made : Identity) : Closure.Like T W id c c' →
    Value.Like T W (.function made c) (.function (T.function made) c')
  | classObject : Class.Like T W c c' → Value.Like T W (.classObject c) (.classObject c')
  | object (made : ObjectId) : Class.Like T W c c' →
    Value.Like T W (.object made c) (.object (T.object made) c')

abbrev Value.AllLike (T : Translation) (W : World) : List Value → List Value → Prop :=
  List.Forall₂ (Value.Like T W)

section
variable {T : Translation} {W W' : World}

theorem Closure.Like.grow (h : Closure.Like T W around c c') (hW : W.Grows W') :
    Closure.Like T W' around c c' where
  routine := hW.renamings c.frame h.lt ▸ h.routine.mono hW.noted
  frame := h.frame
  lt := Nat.lt_of_lt_of_le h.lt hW.size
  initializer := h.initializer
  home := h.home
  globals := h.globals.grow hW

theorem Closure.Like.home_getD (h : Closure.Like T W around c c') :
    c'.home.getD rootFrame = T.frame (c.home.getD rootFrame) := by
  rw [h.home]
  cases c.home with
  | none => exact T.frame_root.symm
  | some home => rfl

theorem Class.Like.grow (h : Class.Like T W c c') (hW : W.Grows W') : Class.Like T W' c c' where
  id := h.id
  name := h.name
  methods := h.methods.mono fun _ _ h => h.grow hW
  classMethods := h.classMethods.mono fun _ _ h => h.grow hW

theorem Class.Like.arity (h : Class.Like T W c c') : c'.arity = c.arity := by
  unfold Class.arity
  obtain ⟨h₁, h₂⟩ | ⟨init, init', h₁, h₂, hinit⟩ := rel_cases (h.methods.get? "init")
  · rw [h₁, show c'.methods.get? "init" = none from h₂]
  · rw [h₁, show c'.methods.get? "init" = some init' from h₂]
    exact hinit.routine.arity

namespace Value

theorem Like.grow (h : Like T W v v') (hW : W.Grows W') : Like T W' v v' := by
  cases h with
  | plain h => exact .plain h
  | array made => exact .array made
  | function _ h => exact .function _ (h.grow hW)
  | classObject h => exact .classObject (h.grow hW)
  | object _ h => exact .object _ (h.grow hW)

theorem AllLike.grow (h : AllLike T W vs vs') (hW : W.Grows W') : AllLike T W' vs vs' :=
  List.Forall₂.imp (fun _ _ h => h.grow hW) h

theorem AllLike.length (h : AllLike T W vs vs') : vs'.length = vs.length :=
  (List.Forall₂.length_eq h).symm

theorem AllLike.get? (h : AllLike T W vs vs') (i : Nat) :
    Option.Rel (Like T W) vs[i]? vs'[i]? := by
  induction h generalizing i with
  | nil => exact .none
  | cons hv _ ih =>
    cases i with
    | zero => exact .some hv
    | succ i => exact ih i

-- ---------------------------------------------------------------------------
-- What is computed of values
-- ---------------------------------------------------------------------------

theorem Like.textWith (h : Like T W v v') {f g : ArrayId → Option String}
    (hfg : ∀ made, f made = g (T.array made)) : v.textWith f = v'.textWith g := by
  cases h with
  | plain hplain => exact textWith_congr fun made hv => by subst hv; exact hplain.elim
  | array made => exact hfg made
  | function _ h => simp only [Value.textWith, h.routine.name]
  | classObject h => simp only [Value.textWith, h.name]
  | object _ h => simp only [Value.textWith, h.name]

theorem Like.isTruthy (h : Like T W v v') : v'.isTruthy = v.isTruthy := by
  cases h <;> rfl

theorem Like.isEqual (h : Like T W v v') (hu : Like T W u u') :
    v'.isEqual u' = v.isEqual u := by
  have hbeq (σ : Shift) (i j : Nat) : (σ i == σ j) = (i == j) := by
    rw [Bool.eq_iff_iff, beq_iff_eq, beq_iff_eq, σ.apply_eq_iff]
  cases h with
  | @plain v => cases hu with
    | plain => rfl
    | _ => cases v <;> first | rfl | contradiction
  | classObject h => cases hu with
    | @plain u => cases u <;> first | rfl | contradiction
    | classObject hu => simp only [Value.isEqual, h.id, hu.id, hbeq]
    | _ => rfl
  | _ => cases hu with
    | @plain u => cases u <;> first | rfl | contradiction
    | _ => first | rfl | exact hbeq _ _ _

theorem Like.objectId? (h : Like T W v v') : v'.objectId? = v.objectId?.map T.object := by
  cases h with
  | @plain v hplain => cases v <;> first | rfl | exact hplain.elim
  | classObject h => exact congrArg some h.id
  | _ => rfl

theorem Like.arity? (h : Like T W v v') : v'.arity? = v.arity? := by
  cases h with
  | function _ h => exact congrArg some h.routine.arity
  | classObject h => exact congrArg some h.arity
  | _ => rfl

theorem Like.typeName (h : Like T W v v') : v'.typeName = v.typeName := by
  cases h <;> rfl

end Value

end

/-- The same error, or results as `R` says. -/
inductive ExceptRel (R : α → β → Prop) : Except ε α → Except ε β → Prop
  | ok : R a b → ExceptRel R (.ok a) (.ok b)
  | error (e : ε) : ExceptRel R (.error e) (.error e)

theorem ExceptRel.of_map {R : γ → δ → Prop} {f : α → γ} {g : β → δ} {r : Except ε α}
    {r' : Except ε β} (h : ExceptRel R (f <$> r) (g <$> r')) :
    ExceptRel (fun a b => R (f a) (g b)) r r' := by
  cases r <;> cases r' <;> cases h
  · exact .error _
  · exact .ok (by assumption)

-- ---------------------------------------------------------------------------
-- Arrays
-- ---------------------------------------------------------------------------

structure Arrays.Like (T : Translation) (W : World) (as as' : Arrays) : Prop where
  next : T.array.Next as.size as'.size
  elements : ∀ made, Value.AllLike T W (as.elements made) (as'.elements (T.array made))

section
variable {T : Translation} {W W' : World} {as as' : Arrays}

namespace Arrays.Like

theorem grow (h : as.Like T W as') (hW : W.Grows W') : as.Like T W' as' :=
  ⟨h.next, fun made => (h.elements made).grow hW⟩

theorem text? (h : as.Like T W as') (hv : Value.Like T W v v') : as'.text? v' = as.text? v :=
  text?_congr (fun made => (h.elements made).imp fun _ _ hv _ _ => hv.textWith)
    fun _ _ => hv.textWith

theorem text (h : as.Like T W as') (hv : Value.Like T W v v') : as'.text v' = as.text v := by
  rw [Arrays.text, Arrays.text, h.text? hv]

theorem add (h : as.Like T W as') (hvs : Value.AllLike T W vs vs') :
    (as.add vs).Like T W (as'.add vs') where
  next := by
    rw [size_add, size_add]
    exact h.next.succ
  elements made := by
    have hnext : T.array made = as'.next ↔ made = as.next := by
      rw [show as'.next = T.array as.next from h.next.apply, Shift.apply_eq_iff]
    rw [elements_add, elements_add]
    simp only [hnext]
    split
    · exact hvs
    · exact h.elements made

end Arrays.Like

-- ---------------------------------------------------------------------------
-- Operators and native functions
-- ---------------------------------------------------------------------------

theorem ExceptRel.of_plain {r r' : Except ε Value} (h : r' = r)
    (hplain : ∀ v, r = .ok v → v.Plain) : ExceptRel (Value.Like T W) r r' := by
  subst h
  cases r' with
  | ok v => exact .ok (.plain (hplain v rfl))
  | error e => exact .error e

namespace Operator

variable {left left' right right' : Value}

theorem unary_like (op : Token) (h : Value.Like T W right right') :
    ExceptRel (Value.Like T W) (unary op right) (unary op right') := by
  refine .of_plain ?_ fun v hv => unary_plain hv
  cases h with
  | plain => rfl
  | _ =>
    unfold unary
    cases op.kind <;> rfl

theorem onNumbers_like (op : Token) {f : Float → Float → Value} (hl : Value.Like T W left left')
    (hr : Value.Like T W right right') (hf : ∀ x y, (f x y).Plain) :
    ExceptRel (Value.Like T W) (onNumbers op left right f) (onNumbers op left' right' f) := by
  refine .of_plain ?_ fun v hv => onNumbers_plain hv hf
  cases hl with
  | plain => cases hr with
    | plain => rfl
    | _ => cases left <;> rfl
  | _ => rfl

theorem divide_like (op : Token) (hl : Value.Like T W left left')
    (hr : Value.Like T W right right') :
    ExceptRel (Value.Like T W) (divide op left right) (divide op left' right') := by
  refine .of_plain ?_ fun v hv => divide_plain hv
  cases hl with
  | plain => cases hr with
    | plain => rfl
    | _ => cases left <;> rfl
  | _ => rfl

theorem plus_like (has : as.Like T W as') (hl : Value.Like T W left left')
    (hr : Value.Like T W right right') :
    ExceptRel (Value.Like T W) (plus as left right) (plus as' left' right') := by
  refine .of_plain ?_ fun v hv => plus_plain hv
  have htext : (do return .text ((← as'.text left') ++ (← as'.text right')) : Except Halt Value) =
      (do return .text ((← as.text left) ++ (← as.text right))) := by
    rw [has.text hl, has.text hr]
  cases hl with
  | plain => cases hr with
    | plain => cases left <;> cases right <;> first | rfl | exact htext
    | _ => cases left <;> exact htext
  | _ => exact htext

theorem binary_like (has : as.Like T W as') (op : Token) (hl : Value.Like T W left left')
    (hr : Value.Like T W right right') :
    ExceptRel (Value.Like T W) (binary as op left right) (binary as' op left' right') := by
  unfold binary
  cases op.kind
  case comma => exact .ok hr
  case equalEqual | bangEqual =>
    dsimp only
    rw [hl.isEqual hr]
    exact .ok (.plain trivial)
  case plus => exact plus_like has hl hr
  case slash => exact divide_like op hl hr
  all_goals first
    | exact onNumbers_like op hl hr fun _ _ => trivial
    | exact .error _

theorem index_like (has : as.Like T W as') (bracket : Token)
    (ht : Value.Like T W target target') (hp : Value.Like T W position position') :
    ExceptRel (Value.Like T W) (index as bracket target position)
      (index as' bracket target' position') := by
  cases hp with
  | @plain position =>
    cases position with
    | number x =>
      cases ht with
      | @plain target h =>
        refine .of_plain ?_ fun v hv => ?_
        · cases target <;> first | rfl | exact h.elim
        · rcases index_result hv with ⟨_, rfl, -⟩ | hplain
          · exact h.elim
          · exact hplain
      | array made =>
        have helement : Option.Rel (Value.Like T W)
            ((position? x).bind ((as.elements made)[·]?))
            ((position? x).bind ((as'.elements (T.array made))[·]?)) := by
          cases position? x with
          | none => exact .none
          | some i => exact (has.elements made).get? i
        obtain ⟨h₁, h₂⟩ | ⟨_, _, h₁, h₂, hv⟩ := rel_cases helement
        · simp only [index, h₁, h₂]
          exact .error _
        · simp only [index, h₁, h₂]
          exact .ok hv
      | _ => exact .error _
    | _ => exact .error _
  | _ => exact .error _

end Operator

theorem Native.length_like (has : as.Like T W as') (site : Site) (h : Value.Like T W v v') :
    Native.length as' site v' = Native.length as site v := by
  have hcounted : (do return .number (Number.ofCount (← as'.text v').length) : Except Halt Value) =
      (do return .number (Number.ofCount (← as.text v).length)) := by
    rw [has.text h]
  cases h with
  | @plain v hplain => cases v <;> first | rfl | exact hcounted | exact hplain.elim
  | array made => simp only [Native.length, (has.elements made).length]
  | _ => exact hcounted

theorem Native.call_like (has : as.Like T W as') (f : Native) (now : Float) (site : Site)
    (h : Value.AllLike T W arguments arguments') :
    ExceptRel (Value.Like T W) (f.call as now site arguments) (f.call as' now site arguments') := by
  refine .of_plain ?_ fun v hv => call_plain hv
  cases h with
  | nil => cases f <;> rfl
  | cons h =>
    cases f with
    | clock => rfl
    | error => simp only [Native.call, has.text h]
    | len => exact Native.length_like has site h

end

end Treewalk
