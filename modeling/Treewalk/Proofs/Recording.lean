import Treewalk.Proofs.Records
import Treewalk.Proofs.Regimes

/-!
# Keeping the record

Every step of the evaluator keeps the record: what it makes it puts down under the next number, and
what it stores, passes on or gives is in the record by then. The steps are gone through once, as
scripts, so that one record serves a run with all the tasks inside it. A step writes no field,
unless it is an assignment to one.
-/

namespace Treewalk

-- ---------------------------------------------------------------------------
-- Values of tasks
-- ---------------------------------------------------------------------------

/-- The values that a task is given. A class that is to have an instance counts as one. -/
def Task.values : Task → List Value
  | .callValue callee _ arguments => callee :: arguments
  | .construct c _ arguments => .classObject c :: arguments
  | .invoke _ _ arguments => arguments
  | _ => []

def Flow.values : Flow → List Value
  | .returning v => [v]
  | _ => []

/-- The values that a task gives. -/
def Task.given : (t : Task) → t.Answer → List Value
  | .evaluate _, v => [v]
  | .callValue _ _ _, v => [v]
  | .construct _ _ _, v => [v]
  | .invoke _ _ _, v => [v]
  | .execute _, flow => flow.values
  | .loop _ _, flow => flow.values
  | .interpret _, _ => []
  | .importModule _ _, _ => []
  | .splice _, _ => []

/-- What a program gets hold of when it reads a member: a getter is called there and then. -/
def Value.handed : Value → List Value
  | .function i c => if c.routine.isGetter then [] else [.function i c]
  | v => [v]

theorem Value.handed_subset (v : Value) : v.handed ⊆ [v] := by
  unfold handed
  split
  · split
    · exact List.nil_subset _
    · exact List.Subset.refl _
  · exact List.Subset.refl _

/-- A record that has the values of `Γ` has those of `Δ`. -/
def Yields (Γ Δ : List Value) : Prop :=
  ∀ r : Record, r.HasEach Γ → r.HasEach Δ

theorem Yields.of_subset (h : Δ ⊆ Γ) : Yields Γ Δ :=
  fun _ hr => hr.of_subset h

theorem Yields.of_plain (h : v.Plain) : Yields Γ [v] :=
  fun _ _ => ⟨Record.has_plain h, trivial⟩

theorem Yields.nil : Yields Γ [] :=
  fun _ _ => trivial

-- ---------------------------------------------------------------------------
-- Scripts that keep the record
-- ---------------------------------------------------------------------------

/-- From `s` on, whose record is `r`, the script keeps the record: if the worker does, in what it is
asked for, then the record goes on up to the end, and has the values of the result. Nothing that has
to be shown fails to have a text. -/
def Script.Logs (names : String → Prop) (out : α → List Value) : Script α → Record → Session → Prop
  | ends result s', r, s => s.Spares names s' ∧ result ≠ .error .endless ∧
    ∃ r', r.Le r' ∧ r'.Accepts s' ∧ ∀ a, result = .ok a → r'.HasEach (out a)
  | asks t v back next, r, s => s.Spares names v ∧
    ∃ r₁, r.Le r₁ ∧ r₁.Accepts v ∧ r₁.HasEach t.values ∧
      ∀ r₂ v', r₁.Le r₂ → r₂.Accepts v' → v'.Spares names (back v') ∧ r₂.Accepts (back v') ∧
        ∀ a, r₂.HasEach (t.given a) → (next a v').Logs names out r₂ v'

namespace Script.Logs

variable {names : String → Prop} {out : α → List Value}

theorem earlier {σ : Script α} (h : σ.Logs names out r₁ s₁) (hle : r.Le r₁)
    (hs : s.Spares names s₁) : σ.Logs names out r s := by
  cases σ with
  | ends result s' =>
    obtain ⟨hspares, hends, r', hr', hrest⟩ := h
    exact ⟨hs.trans hspares, hends, r', hle.trans hr', hrest⟩
  | asks t v back next =>
    obtain ⟨hspares, r', hr', hrest⟩ := h
    exact ⟨hs.trans hspares, r', hle.trans hr', hrest⟩

theorem bind {σ : Script α} {f : α → Session → Script β} {out' : β → List Value}
    (h : σ.Logs names out r s)
    (hf : ∀ a r' s', r.Le r' → r'.Accepts s' → r'.HasEach (out a) →
      (f a s').Logs names out' r' s') :
    (σ.bind f).Logs names out' r s := by
  induction σ generalizing r s with
  | ends result s' =>
    obtain ⟨hspares, hends, r', hle, haccepts, hout⟩ := h
    cases result with
    | ok a => exact (hf a r' s' hle haccepts (hout a rfl)).earlier hle hspares
    | error halt => exact ⟨hspares, fun h => hends (by cases h; rfl), r', hle, haccepts, nofun⟩
  | asks t v back next ih =>
    obtain ⟨hspares, r₁, hle₁, haccepts, hvalues, hrest⟩ := h
    refine ⟨hspares, r₁, hle₁, haccepts, hvalues, fun r₂ v' hle₂ haccepts₂ => ?_⟩
    obtain ⟨hback, haccepts', hnext⟩ := hrest r₂ v' hle₂ haccepts₂
    refine ⟨hback, haccepts', fun a ha => ih a v' (hnext a ha) fun b r' s' hle => ?_⟩
    exact hf b r' s' ((hle₁.trans hle₂).trans hle)

theorem leave {σ : Script α} (h : σ.Logs names out r s) (region : Region) (outer : Context) :
    (σ.leave region outer).Logs names out r s := by
  have hcontext (u : Session) (c : Context) : u.Spares names { u with context := c } := .of_eq rfl
  induction σ generalizing r s with
  | ends result s' =>
    obtain ⟨hspares, hends, r', hle, haccepts, hout⟩ := h
    exact ⟨hspares.trans (hcontext s' _), hends, r', hle, haccepts.context _, hout⟩
  | asks t v back next ih =>
    obtain ⟨hspares, r₁, hle₁, haccepts, hvalues, hrest⟩ := h
    refine ⟨hspares, r₁, hle₁, haccepts, hvalues, fun r₂ v' hle₂ haccepts₂ => ?_⟩
    obtain ⟨hback, haccepts', hnext⟩ := hrest r₂ v' hle₂ haccepts₂
    exact ⟨hback.trans (hcontext _ _), haccepts'.context _, fun a ha => ih a v' (hnext a ha)⟩

end Script.Logs

-- ---------------------------------------------------------------------------
-- Computations that keep the record
-- ---------------------------------------------------------------------------

/-- From `s` on, the computation follows a script that keeps every record that has the values of
`Γ`; of its result it has the values that `out` names. -/
def Logged (names : String → Prop) (Γ : List Value) (out : α → List Value) (m : Worker → Run α)
    (s : Session) : Prop :=
  ∃ σ : Script α, (∀ w, (m w).on s = σ.play w) ∧
    ∀ r : Record, r.Accepts s → r.HasEach Γ → σ.Logs names out r s

namespace Logged

variable {names : String → Prop} {Γ Δ : List Value} {out : α → List Value}
  {out' : β → List Value} {s : Session}

/-- A computation that leaves its worker alone. -/
theorem const {m : Run α}
    (h : ∀ r : Record, r.Accepts s → r.HasEach Γ → Triple m s
      (fun a s' => s.Spares names s' ∧ ∃ r', r.Le r' ∧ r'.Accepts s' ∧ r'.HasEach (out a))
      (fun halt s' => s.Spares names s' ∧ halt ≠ .endless ∧ ∃ r', r.Le r' ∧ r'.Accepts s')) :
    Logged names Γ out (fun _ => m) s := by
  refine ⟨.ends (m.on s).1 (m.on s).2, fun _ => rfl, fun r hr hΓ => ?_⟩
  have hm := h r hr hΓ
  rcases hrun : m.on s with ⟨halt | a, s'⟩
  · obtain ⟨hspares, hends, r', hle, haccepts⟩ := hm.halt hrun
    exact ⟨hspares, fun h => hends (Except.error.inj h), r', hle, haccepts, nofun⟩
  · obtain ⟨hspares, r', hle, haccepts, hout⟩ := hm.result hrun
    refine ⟨hspares, nofun, r', hle, haccepts, ?_⟩
    rintro _ ⟨⟩
    exact hout

theorem of_ok {m : Run α} {u : Session} (hm : m.on s = (.ok a, u)) (hs : s.Spares names u)
    (h : ∀ r : Record, r.Accepts s → r.HasEach Γ →
      ∃ r', r.Le r' ∧ r'.Accepts u ∧ r'.HasEach (out a)) : Logged names Γ out (fun _ => m) s :=
  const fun r hr hΓ => Triple.of_ok hm ⟨hs, h r hr hΓ⟩

theorem pure (h : Yields Γ (out a)) : Logged names Γ out (fun _ => Pure.pure a) s :=
  of_ok (Run.on_pure a s) (.refl s) fun r hr hΓ => ⟨r, .refl r, hr, h r hΓ⟩

theorem stop {m : Run α} (hm : m.on s = (.error halt, s)) (hends : halt ≠ .endless) :
    Logged names Γ out (fun _ => m) s :=
  const fun r hr _ => Triple.of_error hm ⟨.refl s, hends, r, .refl r, hr⟩

theorem fail : Logged names Γ out (fun _ => (Run.fail site fault : Run α)) s :=
  stop rfl nofun

/-- What is computed of values in the session. Its arrays point back, and so each has a text. -/
theorem ofResult {result : Except Halt α} (h : ∀ a, result = .ok a → Yields Γ (out a))
    (hhalts : ∀ halt, result = .error halt → halt.Ordinary s.arrays) :
    Logged names Γ out (fun _ => Run.ofResult result) s := by
  refine const fun r hr hΓ => ?_
  cases result with
  | ok a => exact Triple.pure ⟨.refl s, r, .refl r, hr, h a rfl r hΓ⟩
  | error halt =>
    refine Triple.of_error rfl ⟨.refl s, ?_, r, .refl r, hr⟩
    rintro rfl
    obtain ⟨v, hnone⟩ := hhalts _ rfl
    have hsome := hr.pointsBack.text?_isSome v
    rw [← hr.arrays, hnone] at hsome
    cases hsome

/-- What the session holds is in its record. -/
theorem stored {m : Worker → Run α} (hΔ : ∀ v ∈ Δ, s.Stores v)
    (hm : Logged names (Δ ++ Γ) out m s) :
    Logged names Γ out m s := by
  obtain ⟨σ, hplay, hlogs⟩ := hm
  refine ⟨σ, hplay, fun r hr hΓ => hlogs r hr (Record.HasEach.append ?_ hΓ)⟩
  exact Record.hasEach_iff.2 fun v hv => hr.stored v (hΔ v hv)

theorem from_values {m : Worker → Run α} (h : Yields Γ Δ) (hm : Logged names Δ out m s) :
    Logged names Γ out m s := by
  obtain ⟨σ, hplay, hlogs⟩ := hm
  exact ⟨σ, hplay, fun r hr hΓ => hlogs r hr (h r hΓ)⟩

/-- A task for the worker. -/
theorem ask {t : Task} (h : Yields Γ t.values) : Logged names Γ t.given (fun w => w t) s := by
  refine ⟨.asks t s id fun a s' => .ends (.ok a) s', fun w => ?_, fun r hr hΓ => ?_⟩
  · simp only [Script.play]
    rcases (w t).on s with ⟨_ | _, _⟩ <;> rfl
  · refine ⟨.refl s, r, .refl r, hr, h r hΓ, fun r₂ v' _ hr₂ => ⟨.refl v', hr₂, fun a ha => ?_⟩⟩
    refine ⟨.refl v', ?_, r₂, .refl r₂, hr₂, ?_⟩
    · rintro ⟨⟩
    · rintro _ ⟨⟩
      exact ha

theorem evaluate (e : Expr) : Logged names Γ (fun v => [v]) (fun w => w.evaluate e) s :=
  ask (t := .evaluate e) .nil

theorem execute (st : Stmt) : Logged names Γ Flow.values (fun w => w.execute st) s :=
  ask (t := .execute st) .nil

theorem bind {m : Worker → Run α} {f : α → Worker → Run β} (hm : Logged names Γ out m s)
    (hf : ∀ a s', Logged names (out a ++ Γ) out' (f a) s') :
    Logged names Γ out' (fun w => m w >>= fun a => f a w) s := by
  obtain ⟨σ, hplay, hlogs⟩ := hm
  choose next hnext hlogs' using hf
  refine ⟨σ.bind next, fun w => ?_, fun r hr hΓ =>
    (hlogs r hr hΓ).bind fun a r' s' hle hr' ha => ?_⟩
  · rw [Run.on_bind, hplay, Script.play_bind]
    rcases σ.play w with ⟨_ | a, s'⟩
    · rfl
    · exact hnext a s' w
  · exact hlogs' a s' r' hr' (ha.append (hΓ.mono hle))

/-- A first part whose result is known. -/
theorem first {m : Run α} {f : α → Worker → Run β} (hm : m.on s = (.ok a, s₁))
    (hs : s.Spares names s₁)
    (h : ∀ r : Record, r.Accepts s → r.HasEach Γ →
      ∃ r', r.Le r' ∧ r'.Accepts s₁ ∧ r'.HasEach Δ)
    (hf : Logged names (Δ ++ Γ) out' (f a) s₁) :
    Logged names Γ out' (fun w => m >>= fun a => f a w) s := by
  obtain ⟨σ, hplay, hlogs⟩ := hf
  refine ⟨σ, fun w => ?_, fun r hr hΓ => ?_⟩
  · rw [Run.on_bind, hm]
    exact hplay w
  · obtain ⟨r', hle, hr', hΔ⟩ := h r hr hΓ
    exact (hlogs r' hr' (hΔ.append (hΓ.mono hle))).earlier hle hs

/-- A first part that stores no value and gives none. -/
theorem next {m : Run α} {f : α → Worker → Run β} (hm : m.on s = (.ok a, s₁))
    (hfields : s₁.fields = s.fields) (h : ∀ r : Record, r.Accepts s → r.Accepts s₁)
    (hf : Logged names Γ out' (f a) s₁) :
    Logged names Γ out' (fun w => m >>= fun a => f a w) s :=
  first (Δ := []) hm (.of_eq hfields) (fun r hr _ => ⟨r, .refl r, h r hr, trivial⟩) hf

theorem get {f : Session → Worker → Run β} (hf : Logged names Γ out' (f s) s) :
    Logged names Γ out' (fun w => MonadState.get >>= fun s => f s w) s :=
  next (Run.on_get s) rfl (fun _ hr => hr) hf

theorem ite {c : Prop} [Decidable c] {m m' : Worker → Run α} (hm : Logged names Γ out m s)
    (hm' : Logged names Γ out m' s) : Logged names Γ out (fun w => if c then m w else m' w) s := by
  split
  · exact hm
  · exact hm'

theorem within {m : Worker → Run α} {region : Region}
    (hm : Logged names Γ out m { s with context := region.enter s.context }) :
    Logged names Γ out (fun w => Run.within region (m w)) s := by
  obtain ⟨σ, hplay, hlogs⟩ := hm
  refine ⟨σ.leave region s.context, fun w => ?_, fun r hr hΓ => ?_⟩
  · rw [Run.on_within, hplay, Script.play_leave]
  · exact ((hlogs r (hr.context _) hΓ).leave region s.context).earlier (.refl r) (.of_eq rfl)

theorem each (es : List Expr) : Logged names Γ id (fun w => Run.each w.evaluate es) s := by
  induction es generalizing s Γ with
  | nil => exact pure .nil
  | cons e rest ih =>
    refine (evaluate e).bind fun v _ => ih.bind fun vs _ => pure (.of_subset ?_)
    intro u hu
    rcases List.mem_cons.1 hu with rfl | hmem
    · exact List.mem_append_right _ List.mem_cons_self
    · exact List.mem_append_left _ hmem

theorem inSequence (body : List Stmt) :
    Logged names Γ Flow.values (fun w => Run.inSequence w.execute body) s := by
  induction body generalizing s Γ with
  | nil => exact pure .nil
  | cons st rest ih =>
    refine (execute st).bind fun flow _ => ?_
    cases flow with
    | normal => exact ih
    | breaking => exact pure .nil
    | returning v => exact pure (.of_subset (List.subset_append_left _ _))

theorem every (body : List Stmt) :
    Logged names Γ (fun _ => []) (fun w => Run.every w.execute body) s := by
  induction body generalizing s Γ with
  | nil => exact pure .nil
  | cons st rest ih => exact (execute st).bind fun _ _ => ih

-- ---------------------------------------------------------------------------
-- Variables and members
-- ---------------------------------------------------------------------------

theorem define {frame : FrameId} (hv : Yields Γ [v]) :
    Logged names Γ (fun _ => []) (fun _ => Run.define frame name v) s :=
  of_ok (u := { s with frames := s.frames.define frame name v }) rfl (.of_eq rfl)
    fun r hr hΓ => ⟨r, .refl r, hr.define (hv r hΓ).1 frame name, trivial⟩

theorem defineHere (hv : Yields Γ [v]) :
    Logged names Γ (fun _ => []) (fun _ => Run.defineHere name v) s :=
  get (define hv)

theorem on_functionValue (c : Closure) (s : Session) : (Run.functionValue c).on s =
    (.ok (.function s.nextIdentity c), { s with nextIdentity := s.nextIdentity + 1 }) := rfl

theorem functionValue {c : Closure} (hc : ∀ r : Record, r.HasEach Γ → c.routine.isGetter = false) :
    Logged names Γ (fun v => [v]) (fun _ => Run.functionValue c) s := by
  refine of_ok (on_functionValue c s) (.of_eq rfl) fun r hr hΓ =>
    ⟨_, Record.le_addFunction hr.fresh_function _, hr.function (.function s.nextIdentity c), ?_⟩
  exact ⟨⟨Record.functions_addFunction, hc r hΓ⟩, trivial⟩

theorem methodValue {c : Closure} :
    Logged names Γ Value.handed (fun _ => Run.functionValue c) s := by
  refine of_ok (on_functionValue c s) (.of_eq rfl) fun r hr _ =>
    ⟨_, Record.le_addFunction hr.fresh_function _, hr.function (.function s.nextIdentity c), ?_⟩
  cases hgetter : c.routine.isGetter with
  | true => simp only [Value.handed, hgetter, if_true, Record.HasEach]
  | false =>
    simp only [Value.handed, hgetter, Bool.false_eq_true, if_false]
    exact ⟨⟨Record.functions_addFunction, hgetter⟩, trivial⟩

theorem newArray (hvs : Yields Γ vs) : Logged names Γ (fun id => [.array id])
    (fun _ => Run.newArray vs) s := by
  refine of_ok (a := s.arrays.next) rfl (.of_eq rfl) fun r hr hΓ =>
    ⟨_, r.le_addArray vs, hr.array (hvs r hΓ), ?_, trivial⟩
  show s.arrays.next < (r.arrays.add vs).size
  rw [hr.arrays, Arrays.size_add]
  exact Nat.lt_succ_self _

theorem time : Logged names Γ (fun _ => []) (fun _ => Run.time) s :=
  of_ok (u := { s with clock := s.clock.tick }) rfl (.of_eq rfl)
    fun r hr _ => ⟨r, .refl r, hr.tick, trivial⟩

theorem textOf : Logged names Γ (fun _ => []) (fun _ => Run.textOf v) s :=
  get (ofResult (fun _ _ => .nil) fun _ => Arrays.text_error)

theorem newInstance {c : Class} (hc : Yields Γ [.classObject c]) :
    Logged names Γ (fun o => [.object o c]) (fun _ => Run.newObject) s :=
  of_ok (a := s.fields.size) rfl (.newObject s) fun r hr hΓ =>
    ⟨_, Record.le_addObject hr.fresh_object _, hr.object (.object s.fields.size c),
      ⟨Record.objects_addObject,
        (Record.le_addObject hr.fresh_object _).objects _ _ (hc r hΓ).1⟩, trivial⟩

theorem newClass (made : ObjectId → Class) (hmade : ∀ o, (made o).id = o) :
    Logged names Γ (fun o => [.classObject (made o)]) (fun _ => Run.newObject) s := by
  refine of_ok (a := s.fields.size) rfl (.newObject s) fun r hr _ =>
    ⟨_, Record.le_addObject hr.fresh_object _, hr.object (.classObject (made s.fields.size)), ?_,
      trivial⟩
  show (r.addObject s.fields.size _).objects (made s.fields.size).id = _
  rw [hmade]
  exact Record.objects_addObject

theorem setField {object : ObjectId} (hname : names name) (hv : Yields Γ [v]) :
    Logged names Γ (fun _ => []) (fun _ => Run.setField object name v) s :=
  of_ok (u := { s with fields := s.fields.modify object (·.insert name v) }) rfl
    (.setField s object name v hname)
    fun r hr hΓ => ⟨r, .refl r, hr.setField (hv r hΓ).1 object name, trivial⟩

omit s in
theorem mem_of_get? {t : Table α} {a : α} (h : t.get? name = some a) : (name, a) ∈ t.entries := by
  obtain ⟨before, behind, hsplit, -⟩ := List.lookup_eq_some_iff.1 h
  rw [hsplit]
  exact List.mem_append_right _ List.mem_cons_self

omit names Γ out' in
theorem stores_read {globals : FrameId} (h : s.frames.read globals name = .ok v) : s.Stores v := by
  unfold Frames.read Frames.get? at h
  split at h
  · next heq =>
    cases h
    split at heq
    · exact .bound (mem_of_get? heq)
    · cases heq
  · cases h

/-- A value that the session holds. -/
theorem held (hv : s.Stores v) : Logged names Γ (fun v => [v]) (fun _ => Pure.pure v) s :=
  stored (Δ := [v]) (by simpa using hv) (pure (.of_subset (List.subset_append_left _ _)))

theorem lookUp {node : NodeId} :
    Logged names Γ (fun v => [v]) (fun _ => Run.lookUp node name) s := by
  refine get ?_
  split
  · split
    · next v hv =>
      unfold Frames.getAt? at hv
      split at hv
      · exact held (.bound (mem_of_get? hv))
      · cases hv
    · exact fail
  · cases hread : s.frames.read s.context.globals name with
    | error e => exact stop rfl nofun
    | ok v => exact held (stores_read hread)

theorem assign {node : NodeId} (hv : Yields Γ [v]) :
    Logged names Γ (fun _ => []) (fun _ => Run.assign node name v) s := by
  obtain ⟨frame, hframe⟩ | ⟨site, fault, hfault⟩ := Regime.assignee_on node name s
  · exact next hframe rfl (fun _ hr => hr) (define hv)
  · have hassign : (Run.assign node name v).on s = (.error (.error (.runtime site fault)), s) := by
      rw [Run.assign, Run.on_bind, hfault]
    exact stop hassign fun h => by cases h

theorem bindReceiver {method : Closure} (hv : Yields Γ [receiver]) :
    Logged names Γ (fun _ => []) (fun _ => Run.bindReceiver method receiver) s := by
  have hframe : (Run.newFrame method.frame (.receiver method.routine)).on s = (.ok s.frames.next,
      { s with frames := s.frames.addScope method.frame (.receiver method.routine) }) := rfl
  exact next hframe rfl (fun r hr => hr.scope _ _) ((define hv).bind fun _ _ => pure .nil)

theorem memberOf {object : ObjectId} {methods : Table Closure} (hv : Yields Γ [receiver]) :
    Logged names Γ Value.handed (fun _ => Run.memberOf object methods receiver name) s := by
  refine next (a := s.field? object name.lexeme) rfl rfl (fun _ hr => hr) ?_
  cases hfield : s.field? object name.lexeme with
  | some v =>
    obtain ⟨table, htable, hget⟩ := Option.bind_eq_some_iff.1 hfield
    have hstored : ∀ u ∈ [v], s.Stores u := by simpa using .field htable (mem_of_get? hget)
    refine stored hstored (pure (.of_subset ?_))
    exact List.Subset.trans v.handed_subset (List.subset_append_left _ _)
  | none =>
    cases methods.get? name.lexeme with
    | none => exact fail
    | some method => exact (bindReceiver hv).bind fun _ _ => methodValue

theorem member (hv : Yields Γ [object]) :
    Logged names Γ Value.handed (fun _ => Run.member object name) s := by
  unfold Run.member
  split
  · exact memberOf hv
  · exact memberOf hv
  · exact fail

theorem receiver {c : Closure} :
    Logged names Γ (fun v => [v]) (fun _ => Run.receiver c site) s := by
  refine get ?_
  cases hthis : s.frames.getAt? c.frame 0 "this" with
  | none => exact fail
  | some v => exact held (.bound (mem_of_get? hthis))

theorem bindParameters {frame : FrameId} (params : List Token) (hvalues : Yields Γ values) :
    Logged names Γ (fun _ => []) (fun _ => Run.bindParameters frame params values) s := by
  induction params generalizing s values with
  | nil => exact pure .nil
  | cons p params ih =>
    cases values with
    | nil => exact pure .nil
    | cons v values =>
      refine (define fun r hr => ⟨(hvalues r hr).1, trivial⟩).bind fun _ _ => ih ?_
      exact fun r hr => (hvalues r hr).2

theorem printLine : Logged names Γ (fun _ => []) (fun _ => Run.printLine text) s := by
  obtain ⟨reason, hrun⟩ | hrun := Run.on_printLine text s
  · exact stop hrun nofun
  · exact of_ok hrun (.of_eq rfl) fun r hr _ => ⟨r, .refl r, hr.printed _, trivial⟩

theorem recordExport (hv : Yields Γ [v]) :
    Logged names Γ (fun _ => []) (fun _ => Run.recordExport name v) s := by
  obtain hrun | ⟨path, m, -, hm, hrun⟩ := Run.on_recordExport name v s
  · exact of_ok hrun (.refl s) fun r hr _ => ⟨r, .refl r, hr, trivial⟩
  · exact of_ok hrun (.of_eq rfl) fun r hr hΓ =>
      ⟨r, .refl r, hr.exported (hv r hΓ).1 hm name, trivial⟩

theorem declareClass : Logged names Γ (fun _ => [])
    (fun _ => Run.declareClass name methods classMethods) s := by
  refine (defineHere (.of_plain (v := .nil) trivial)).bind fun _ s₁ => ?_
  refine next (Account.closeAll_on ..) rfl (fun _ hr => hr) ?_
  refine next (Account.closeAll_on ..) rfl (fun _ hr => hr) ?_
  refine (newClass (Class.made · name methods classMethods s₁.context.frame
    (homeOf s₁.context.globals)) fun _ => rfl).bind ?_
  exact fun o _ => defineHere (.of_subset (List.subset_append_left _ _))

theorem adopt {frame : FrameId} (hv : Yields Γ [v]) :
    Logged names Γ (fun v => [v]) (fun _ => Run.adopt frame v) s := by
  unfold Run.adopt
  split
  · split
    · exact pure hv
    · exact functionValue fun r hr => (hv r hr).1.2
  · exact pure hv

theorem adoptAll {frame : FrameId} {entries : List (String × Value)}
    (h : Yields Γ (entries.map Prod.snd)) :
    Logged names Γ (fun _ => []) (fun _ => Run.adoptAll frame entries) s := by
  induction entries generalizing s with
  | nil => exact pure .nil
  | cons entry rest ih =>
    refine (adopt fun r hr => ⟨(h r hr).1, trivial⟩).bind fun v _ => ?_
    refine (defineHere (.of_subset (List.subset_append_left _ _))).bind fun _ _ => ?_
    refine from_values (Δ := Γ) (.of_subset ?_) (ih fun r hr => (h r hr).2)
    exact List.subset_append_right _ _

theorem splice : Logged names Γ (fun _ => []) (fun _ => Run.splice path) s := by
  refine get ?_
  split
  · next m hm =>
    refine stored (Δ := (s.frames.bindings m.frame).entries.map Prod.snd) (fun v hv => ?_)
      (adoptAll (.of_subset (List.subset_append_left _ _)))
    obtain ⟨entry, hentry, rfl⟩ := List.mem_map.1 hv
    exact .bound hentry
  · exact pure .nil

-- ---------------------------------------------------------------------------
-- Expressions
-- ---------------------------------------------------------------------------

theorem evaluateWith (e : Expr)
    (hnames : ∀ object name value, e = .set object name value → names name.lexeme) :
    Logged names Γ (fun v => [v]) (fun w => Run.evaluateWith w e) s := by
  cases e with
  | literal value => exact pure (.of_plain (Value.plain_toValue value))
  | group inner => exact evaluate inner
  | unary op right =>
    exact (evaluate right).bind fun _ _ =>
      ofResult (fun _ hv => .of_plain (Operator.unary_plain hv)) fun _ => Operator.unary_error _
  | binary op left right =>
    refine (evaluate left).bind fun _ _ => (evaluate right).bind fun _ _ => get ?_
    refine ofResult (fun v hv => ?_) fun _ => Operator.binary_error
    obtain rfl | hplain := Operator.binary_result hv
    · exact .of_subset (List.subset_append_left _ _)
    · exact .of_plain hplain
  | logical op left right =>
    exact (evaluate left).bind fun _ _ =>
      ite (pure (.of_subset (List.subset_append_left _ _))) (evaluate right)
  | conditional condition yes no =>
    exact (evaluate condition).bind fun _ _ => ite (evaluate yes) (evaluate no)
  | var node name => exact lookUp
  | this node keyword => exact lookUp
  | assign node name value =>
    refine (evaluate value).bind fun v _ => ?_
    refine (assign (.of_subset (List.subset_append_left _ _))).bind fun _ _ => ?_
    exact pure (.of_subset (List.subset_append_left _ _))
  | call callee paren arguments =>
    refine (evaluate callee).bind fun f _ => (each arguments).bind fun vs _ => ?_
    refine ask (t := .callValue f paren.site vs) (.of_subset ?_)
    exact List.cons_subset.2 ⟨List.mem_append_right _ List.mem_cons_self,
      List.subset_append_left _ _⟩
  | get object name =>
    refine (evaluate object).bind fun o _ => ?_
    refine (member (.of_subset (List.subset_append_left _ _))).bind fun v _ => ?_
    cases v with
    | function identity closure =>
      cases hgetter : closure.routine.isGetter with
      | true =>
        simp only [hgetter, if_true]
        exact ask (t := .invoke closure name.site []) .nil
      | false =>
        simp only [hgetter, Bool.false_eq_true, if_false, Value.handed]
        exact pure (.of_subset (List.subset_append_left _ _))
    | _ => exact pure (.of_subset (List.subset_append_left _ _))
  | set target name value =>
    refine (evaluate target).bind fun o _ => ?_
    split
    · refine (evaluate value).bind fun v _ => ?_
      refine (setField (hnames _ _ _ rfl) (.of_subset (List.subset_append_left _ _))).bind ?_
      exact fun _ _ => pure (.of_subset (List.subset_append_left _ _))
    · exact fail
  | array elements =>
    refine (each elements).bind fun _ _ => ?_
    exact (newArray (.of_subset (List.subset_append_left _ _))).bind fun _ _ =>
      pure (.of_subset (List.subset_append_left _ _))
  | index target bracket position =>
    refine (evaluate target).bind fun t _ => (evaluate position).bind fun i s₁ => get ?_
    cases hv : Operator.index s₁.arrays bracket t i with
    | error halt => exact ofResult nofun fun _ he => Operator.index_error (hv.trans he)
    | ok v =>
      obtain ⟨id, rfl, hmem⟩ | hplain := Operator.index_result hv
      · exact held (.element hmem)
      · exact pure (.of_plain hplain)

-- ---------------------------------------------------------------------------
-- Calls
-- ---------------------------------------------------------------------------

theorem callValueWith (callee : Value) (site : Site) (arguments : List Value) :
    Logged names (callee :: arguments) (fun v => [v])
      (fun w => Run.callValueWith w callee site arguments) s := by
  unfold Run.callValueWith
  split
  · exact fail
  · refine ite fail ?_
    split
    · exact ask (t := .invoke _ site arguments) (.of_subset (List.subset_cons_self _ _))
    · refine time.bind fun _ _ => get (ofResult (fun v hv => ?_) fun _ => Native.call_error)
      exact .of_plain (Native.call_plain hv)
    · exact ask (t := .construct _ site arguments) (.of_subset (List.Subset.refl _))
    · exact fail

theorem constructWith (c : Class) (site : Site) (arguments : List Value) :
    Logged names (.classObject c :: arguments) (fun v => [v])
      (fun w => Run.constructWith w c site arguments) s := by
  refine (newInstance (.of_subset (List.cons_subset.2 ⟨List.mem_cons_self, by simp⟩))).bind ?_
  intro o s₁
  have made : Yields ([.object o c] ++ .classObject c :: arguments) [.object o c] :=
    .of_subset (List.subset_append_left _ _)
  split
  · refine (bindReceiver made).bind fun bound _ => ?_
    refine (ask (t := .invoke bound site arguments) (.of_subset ?_)).bind fun _ _ => pure ?_
    · intro v hv
      exact List.mem_append_right _ (List.mem_append_right _ (List.mem_cons_of_mem _ hv))
    · exact fun r hr => made r (hr.of_subset (List.subset_append_right _ _))
  · exact pure made

theorem invokeWith (closure : Closure) (site : Site) (arguments : List Value) :
    Logged names arguments (fun v => [v]) (fun w => Run.invokeWith w closure site arguments) s := by
  have hframe : (Run.newFrame closure.frame (.call closure.routine)).on s = (.ok s.frames.next,
      { s with frames := s.frames.addScope closure.frame (.call closure.routine) }) := rfl
  refine next hframe rfl (fun r hr => hr.scope _ _) ?_
  refine (bindParameters _ (.of_subset (List.Subset.refl _))).bind fun _ _ => ?_
  refine (within (inSequence closure.routine.body)).bind fun flow _ => ite receiver ?_
  cases flow with
  | returning v => exact pure (.of_subset (List.subset_append_left _ _))
  | normal | breaking => exact pure (.of_plain trivial)

-- ---------------------------------------------------------------------------
-- Statements
-- ---------------------------------------------------------------------------

theorem executeWith (st : Stmt) (hlisted : ∀ r, st = .function r → r.isGetter = false) :
    Logged names Γ Flow.values (fun w => Run.executeWith w st) s := by
  cases st with
  | expression e => exact (evaluate e).bind fun _ _ => pure .nil
  | print e =>
    exact (evaluate e).bind fun _ _ => textOf.bind fun _ _ => printLine.bind fun _ _ => pure .nil
  | var name initial =>
    cases initial with
    | none =>
      refine next (Run.on_pure Value.unset s) rfl (fun _ hr => hr) ?_
      exact (defineHere (.of_plain (v := .unset) trivial)).bind fun _ _ => pure .nil
    | some e =>
      refine (evaluate e).bind fun _ _ => ?_
      exact (defineHere (.of_subset (List.subset_append_left _ _))).bind fun _ _ => pure .nil
  | block body =>
    have hframe : (Run.newFrame s.context.frame (.block body)).on s = (.ok s.frames.next,
        { s with frames := s.frames.addScope s.context.frame (.block body) }) := rfl
    exact get (next hframe rfl (fun r hr => hr.scope _ _) (within (inSequence body)))
  | ifElse condition yes no =>
    refine (evaluate condition).bind fun _ _ => ite (execute yes) ?_
    cases no with
    | none => exact pure .nil
    | some no => exact execute no
  | whileLoop condition body => exact ask (t := .loop condition body) .nil
  | breakLoop keyword => exact pure .nil
  | function routine =>
    refine next (a := ⟨routine, s.context.frame, false, homeOf s.context.globals⟩) rfl rfl
      (fun _ hr => hr) ((functionValue fun _ _ => hlisted routine rfl).bind fun _ _ => ?_)
    exact (defineHere (.of_subset (List.subset_append_left _ _))).bind fun _ _ => pure .nil
  | classDecl name methods classMethods => exact declareClass.bind fun _ _ => pure .nil
  | returnValue keyword value =>
    cases value with
    | none => exact pure (.of_plain (v := .nil) trivial)
    | some e =>
      exact (evaluate e).bind fun _ _ => pure (.of_subset (List.subset_append_left _ _))
  | importModule keyword path =>
    obtain ⟨kind, lexeme, line⟩ := path
    cases kind with
    | text path => exact (ask (t := .importModule keyword.site path) .nil).bind fun _ _ => pure .nil
    | _ => exact fail
  | exportDecl keyword declaration =>
    refine (execute declaration).bind fun flow s₁ => ?_
    cases declaration.declared? with
    | none => exact fail
    | some name =>
      refine get ?_
      cases hlocal : s₁.frames.getLocal? s₁.context.frame name.lexeme with
      | none => exact (recordExport (.of_plain (v := .nil) trivial)).bind fun _ _ => pure .nil
      | some v =>
        refine stored (Δ := [v]) (by simpa using .bound (mem_of_get? hlocal)) ?_
        exact (recordExport (.of_subset (List.subset_append_left _ _))).bind fun _ _ => pure .nil

theorem loopWith (condition : Expr) (body : Stmt) :
    Logged names Γ Flow.values (fun w => Run.loopWith w condition body) s := by
  refine (evaluate condition).bind fun _ _ => ite ((execute body).bind fun flow _ => ?_) (pure .nil)
  cases flow with
  | normal => exact ask (t := .loop condition body) .nil
  | breaking => exact pure .nil
  | returning v => exact pure (.of_subset (List.subset_append_left _ _))

theorem importWith (site : Site) (path : String) :
    Logged names Γ (fun _ => []) (fun w => Run.importWith w site path) s := by
  cases hknown : s.modules.contains path with
  | true =>
    refine get ?_
    simp only [hknown, if_true]
    exact ask (t := .splice path) .nil
  | false =>
    cases hsource : s.sources path with
    | none =>
      refine get ?_
      simp only [hknown, hsource, Bool.false_eq_true, if_false]
      exact fail
    | some source =>
      cases hp : Prepared.program source s.nextId with
      | error e =>
        refine get ?_
        simp only [hknown, hsource, hp, Bool.false_eq_true, if_false]
        exact stop rfl nofun
      | ok p =>
        have hfirst : s.FirstImport path p := ⟨hknown, source, hsource, hp⟩
        refine ⟨.firstImport s path p, hfirst.step_on, fun r hr _ => ?_⟩
        refine ⟨.of_eq rfl, r, .refl r, hr.load path p, trivial, fun r₂ v hle hr₂ => ?_⟩
        have hback : v.Spares names { v with context := s.context } := .of_eq rfl
        refine ⟨hback, hr₂.context _, fun _ _ => ⟨hback, r₂, .refl r₂, hr₂.context _, trivial, ?_⟩⟩
        exact fun r₃ v' _ hr₃ =>
          ⟨.refl v', hr₃, fun _ _ => ⟨.refl v', nofun, r₃, .refl r₃, hr₃, fun _ _ => trivial⟩⟩

end Logged

/-- Every step keeps the record, and writes a field only if it is an assignment to one of that
name. -/
theorem step_logged (t : Task) (s : Session)
    (hnames : ∀ object name value, t = .evaluate (.set object name value) → names name.lexeme)
    (hlisted : ∀ r, t = .execute (.function r) → r.isGetter = false) :
    Logged names t.values t.given (fun w => w.step t) s := by
  cases t with
  | evaluate e =>
    exact .evaluateWith e fun object name value h => hnames object name value (by rw [h])
  | callValue callee site arguments => exact .callValueWith callee site arguments
  | construct c site arguments => exact .constructWith c site arguments
  | invoke closure site arguments => exact .invokeWith closure site arguments
  | execute st => exact .executeWith st fun r h => hlisted r (by rw [h])
  | loop condition body => exact .loopWith condition body
  | interpret body => exact .every body
  | importModule site path => exact .importWith site path
  | splice path => exact .splice

end Treewalk
