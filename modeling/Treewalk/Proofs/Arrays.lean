import Treewalk.Proofs.Lives

/-!
# Arrays are immutable and well-founded

The arrays of a session are cells, which values share by identity. Nothing but an array literal adds
to them, and it puts elements into a new cell that were there before it. So throughout a life the
store of arrays only grows, no array comes to hold itself, however indirectly, and every value can
be shown at every moment, as the same text from then on.
-/

namespace Treewalk

/-- The text of a value, now and in whatever the arrays grow to. -/
def Arrays.Shows (as : Arrays) (v : Value) (shown : String) : Prop :=
  ∀ later : Arrays, as.Grows later → later.text? v = some shown

/-- What a record has can be shown. -/
theorem Record.Has.shows {r : Record} (hback : r.arrays.PointsBack) (hv : r.Has v) :
    ∃ shown, r.arrays.Shows v shown := by
  obtain ⟨shown, hshown⟩ := Option.isSome_iff_exists.1 (hback.text?_isSome v)
  refine ⟨shown, fun later hgrows => (hback.text?_grows hgrows ?_).trans hshown⟩
  rintro id rfl
  exact hv

/-- What a record covers begins with arrays that the arrays behind it go on from, and these point
back. -/
theorem Record.Covers.arrays {r : Record} {k : Moment} (h : r.Covers k) :
    k.session.arrays.Grows k.after.arrays ∧ k.after.arrays.Grows r.arrays ∧
      k.after.arrays.PointsBack ∧ ∀ v, k.Knows v → ∃ shown, k.after.arrays.Shows v shown := by
  obtain ⟨r₂, hle, haccepts, hhas⟩ := h.behind
  obtain ⟨r₁, r₁', haccepts₁, -, hcontinues, -⟩ := h
  have hafter : k.after.arrays = r₁'.arrays := hcontinues.accepts.arrays
  have hlater : k.session.arrays.Grows k.after.arrays := by
    rw [haccepts₁.arrays, hafter]
    exact hcontinues.le.arrays
  rw [haccepts.arrays] at hlater ⊢
  exact ⟨hlater, hle.arrays, haccepts.pointsBack, fun v hv => (hhas v hv).shows haccepts.pointsBack⟩

/-- An array literal makes an array of what its parts give, from left to right. -/
theorem Run.on_array (hes : (Run.each w.evaluate es).on s = (.ok vs, s')) :
    (Worker.step w (.evaluate (.array es))).on s =
      (.ok (.array s'.arrays.next), { s' with arrays := s'.arrays.add vs }) := by
  show (evaluateWith w (.array es)).on s = _
  simp only [evaluateWith, on_bind, hes]
  rfl

/-- The cell that an array literal makes keeps the values that the parts of the literal gave, and no
cell has other elements at one moment of a life than at another, or at the end. Arrays lead to older
ones only, so at no moment is an array reached from itself. Whatever is at hand has a text, the same
in all that the session goes on to, and so has whatever the host is given; nothing that is carried
out fails for want of one. -/
theorem arrays_are_immutable (h : Life units given runs s₀) :
    (∀ (n : Nat) (es vs : List _) (s s' : Session),
      Moment.Of runs ⟨n + 1, .evaluate (.array es), s⟩ →
      (Run.each (worker n).evaluate es).on s = (.ok vs, s') →
      (worker (n + 1) (.evaluate (.array es))).on s =
        (.ok (.array s'.arrays.next), { s' with arrays := s'.arrays.add vs }) ∧
      s₀.arrays.elements s'.arrays.next = vs) ∧
    (∀ k : Moment, k.Of runs →
      k.session.arrays.Grows k.after.arrays ∧ k.after.arrays.Grows s₀.arrays ∧
      (∀ (k' : Moment) (id : Nat), k'.Of runs → id < k.session.arrays.size →
        id < k'.session.arrays.size →
        k'.session.arrays.elements id = k.session.arrays.elements id) ∧
      k.after.arrays.PointsBack ∧ (∀ id, ¬ Relation.TransGen k.after.arrays.Contains id id) ∧
      (∀ v, k.Knows v → ∃ shown, k.after.arrays.Shows v shown) ∧
      k.outcome.1 ≠ .error .endless) ∧
    (∀ id, ¬ Relation.TransGen s₀.arrays.Contains id id) ∧
    ∀ v ∈ given, ∃ shown, s₀.arrays.Shows v shown := by
  obtain ⟨r, haccepts, hgiven, hcovers⟩ := h.record
  have harrays : s₀.arrays = r.arrays := haccepts.arrays
  have hback := haccepts.pointsBack
  rw [harrays]
  refine ⟨fun n es vs s s' hk hes => ?_, fun k hk => ?_, hback.acyclic,
    fun v hv => (hgiven.of_mem hv).shows hback⟩
  · have hrun := Run.on_array (w := worker n) hes
    obtain ⟨-, hgrows, -⟩ := (hcovers _ hk).arrays
    have hafter : Moment.after ⟨n + 1, .evaluate (.array es), s⟩ = _ := congrArg Prod.snd hrun
    rw [hafter] at hgrows
    have hlt : s'.arrays.next < (s'.arrays.add vs).size := by
      rw [Arrays.size_add]
      exact Nat.lt_succ_self _
    exact ⟨hrun, (hgrows.elements hlt).trans (Arrays.elements_add_next ..)⟩
  · obtain ⟨hlater, hgrows, hpoints, hshows⟩ := (hcovers k hk).arrays
    refine ⟨hlater, hgrows, fun k' id hk' hid hid' => ?_, hpoints, hpoints.acyclic, hshows, ?_⟩
    · obtain ⟨hlater', hgrows', -⟩ := (hcovers k' hk').arrays
      rw [← (hlater'.trans hgrows').elements hid', (hlater.trans hgrows).elements hid]
    · obtain ⟨_, _, -, -, hcontinues, -⟩ := hcovers k hk
      exact hcontinues.ends

/-- `var a=[true];var b=[a,a];` -/
def nesting : Prepared Line :=
  ⟨.statements [
    .var ⟨.identifier, "a", 1⟩ (some (.array [.literal (.bool true)])),
    .var ⟨.identifier, "b", 1⟩ (some (.array [.var 0 ⟨.identifier, "a", 1⟩,
      .var 1 ⟨.identifier, "a", 1⟩]))], [], 2⟩

def nestedName : Prepared Line :=
  ⟨.expression (.var 2 ⟨.identifier, "b", 1⟩), [], 3⟩

def unnested : Session :=
  .start (fun _ => none) none (.still 0)

def nested : Session :=
  { unnested.commit nesting with
    frames := (Frames.initial.define rootFrame "a" (.array 0)).define rootFrame "b" (.array 1)
    arrays := (Arrays.empty.add [.bool true]).add [.array 0, .array 0] }

/-- An array with one array twice in it, given to the host and shown. -/
theorem nested_array_is_shown :
    Life [nestedName.tree, nesting.tree] [.array 1]
      [⟨9, nesting.tree.task, unnested.commit nesting⟩,
        ⟨9, nestedName.tree.task, nested.commit nestedName⟩] (nested.commit nestedName) ∧
    ¬ Relation.TransGen nested.arrays.Contains 1 1 ∧
    nested.arrays.Shows (.array 1) "[[true], [true]]" := by
  have hp : (Entry.unit "var a=[true];var b=[a,a];").prepared 0 = .ok nesting := by decide +kernel
  have hp' : (Entry.expression "b").prepared 2 = .ok nestedName := by decide +kernel
  have hstart : Life [] [] [] unnested := .start
  have hdeclares : (worker 9 nesting.tree.task).on (unnested.commit nesting) =
      (.ok (), nested) := rfl
  have hnames : (worker 9 nestedName.tree.task).on (nested.commit nestedName) =
      (.ok (.array 1), nested.commit nestedName) := rfl
  have hlife : Life [nestedName.tree, nesting.tree] [.array 1]
      [⟨9, nesting.tree.task, unnested.commit nesting⟩,
        ⟨9, nestedName.tree.task, nested.commit nestedName⟩] (nested.commit nestedName) :=
    (hstart.accepted 9 hp hdeclares).accepted 9 hp' hnames
  obtain ⟨-, -, hacyclic, hgiven⟩ := arrays_are_immutable hlife
  obtain ⟨shown, hshown⟩ := hgiven (.array 1) List.mem_cons_self
  have htext : nested.arrays.text? (.array 1) = some "[[true], [true]]" := by decide +kernel
  have hsame : some shown = some "[[true], [true]]" := (hshown _ (.refl _)).symm.trans htext
  cases hsame
  exact ⟨hlife, hacyclic 1, hshown⟩

end Treewalk
