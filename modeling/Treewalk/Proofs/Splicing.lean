import Treewalk.Proofs.Changes

/-!
# What an import passes on

An import binds, in the innermost frame, every name that the frame of the module binds, to the value
that it has there; only a function without module tag is passed on as a new function, with the tag
of the module. For this every name has to occur once in a frame, which holds in every session, as
does that the frames of modules are no frames of scopes.
-/

namespace Treewalk

-- ---------------------------------------------------------------------------
-- Names that occur once
-- ---------------------------------------------------------------------------

namespace Table

def Distinct (t : Table α) : Prop :=
  (t.entries.map Prod.fst).Nodup

theorem Distinct.empty : (Table.empty : Table α).Distinct :=
  List.nodup_nil

theorem map_fst_put (name : String) (value : α) (entries : List (String × α)) :
    (put name value entries).map Prod.fst =
      if name ∈ entries.map Prod.fst then entries.map Prod.fst
      else entries.map Prod.fst ++ [name] := by
  induction entries with
  | nil => rfl
  | cons entry rest ih =>
    obtain ⟨other, old⟩ := entry
    by_cases hname : name = other
    · simp [put, hname]
    · simp only [put, hname, if_false, List.map_cons, ih, List.mem_cons, false_or]
      split <;> rfl

theorem Distinct.insert {t : Table α} (h : t.Distinct) (name : String) (value : α) :
    (t.insert name value).Distinct := by
  unfold Distinct Table.insert
  rw [map_fst_put]
  split
  · exact h
  · next hname =>
    refine List.nodup_append.2 ⟨h, by simp, fun other hother last hlast heq => ?_⟩
    rw [List.mem_singleton.1 hlast] at heq
    exact hname (heq ▸ hother)

end Table

/-- The global frames of units are no frames of scopes, those of modules are not the root, and in
every frame a name occurs once. -/
structure Session.Grounded (s : Session) : Prop where
  root : rootFrame < s.frames.size ∧ s.frames.opener? rootFrame = none
  modules : ∀ path m, s.modules.get? path = some m →
    m.frame ≠ rootFrame ∧ m.frame < s.frames.size ∧ s.frames.opener? m.frame = none
  distinct : ∀ frame, (s.frames.bindings frame).Distinct

namespace Session.Grounded

variable {s s' : Session}

/-- What a session grows by, if not by modules, leaves it grounded. -/
theorem grown (h : s.Grounded) (hframes : s.frames.Grows s'.frames)
    (hmodules : ∀ path m, s'.modules.get? path = some m →
      ∃ m₀, s.modules.get? path = some m₀ ∧ m.frame = m₀.frame)
    (hdistinct : ∀ frame, (s'.frames.bindings frame).Distinct) : s'.Grounded where
  root := by
    refine ⟨Nat.lt_of_lt_of_le h.root.1 hframes.size, ?_⟩
    rw [hframes.opener _ h.root.1]
    exact h.root.2
  modules path m hm := by
    obtain ⟨m₀, hm₀, hframe⟩ := hmodules path m hm
    obtain ⟨hne, hlt, hopener⟩ := h.modules path m₀ hm₀
    rw [hframe]
    refine ⟨hne, Nat.lt_of_lt_of_le hlt hframes.size, ?_⟩
    rw [hframes.opener _ hlt]
    exact hopener
  distinct := hdistinct

theorem change (h : Change s s') (hs : s.Grounded) : s'.Grounded := by
  refine hs.grown h.later.grows.frames (fun path m hm => ?_) fun frame => ?_
  · cases h with
    | exported name value hm' =>
      simp only [Table.get?_insert] at hm
      split at hm
      · next heq =>
        subst heq
        cases hm
        exact ⟨_, hm', rfl⟩
      · exact ⟨m, hm, rfl⟩
    | _ => exact ⟨m, hm, rfl⟩
  · cases h with
    | frame parent opener =>
      rw [show (s.frames.addScope parent opener).bindings frame = s.frames.bindings frame from
        Frames.bindings_add ..]
      exact hs.distinct frame
    | bind other name value =>
      rw [Frames.bindings_define]
      split
      · exact (hs.distinct other).insert name value
      · exact hs.distinct frame
    | _ => exact hs.distinct frame

theorem load (hs : s.Grounded) (path : String) (p : Prepared (List Stmt)) :
    (s.load path p).Grounded where
  root := by
    have hgrows : s.frames.Grows (s.frames.addChild rootFrame) := .add ..
    refine ⟨Nat.lt_of_lt_of_le hs.root.1 hgrows.size, ?_⟩
    exact (hgrows.opener _ hs.root.1).trans hs.root.2
  modules other m hm := by
    simp only [Session.load, Table.get?_insert] at hm
    split at hm
    · cases hm
      exact ⟨Nat.ne_of_gt hs.root.1, s.frames.next_lt_add, Frames.opener?_add_next s.frames⟩
    · obtain ⟨hne, hlt, hopener⟩ := hs.modules other m hm
      have hgrows : s.frames.Grows (s.frames.addChild rootFrame) := .add ..
      exact ⟨hne, Nat.lt_of_lt_of_le hlt hgrows.size, (hgrows.opener _ hlt).trans hopener⟩
  distinct frame := by
    have hadd : (s.load path p).frames.bindings frame = s.frames.bindings frame :=
      Frames.bindings_add ..
    rw [hadd]
    exact hs.distinct frame

end Session.Grounded

theorem kept_grounded : KeptBetween Session.Grounded where
  change h hs := hs.change h
  enter hs := ⟨hs.root, hs.modules, hs.distinct⟩
  load hs _ _ _ := hs.load _ _
  back _ _ hs' := ⟨hs'.root, hs'.modules, hs'.distinct⟩
  start sources refusal clock := by
    refine ⟨⟨Frames.root_lt_initial, rfl⟩, fun path m hm => (nomatch hm), fun frame => ?_⟩
    exact Frames.initial_bindings .empty (fun _ f ht => ht.insert f.name _) frame
  commit _ hs := ⟨hs.root, hs.modules, hs.distinct⟩
  told _ _ hs := ⟨hs.root, hs.modules, hs.distinct⟩

-- ---------------------------------------------------------------------------
-- Splicing
-- ---------------------------------------------------------------------------

/-- What becomes of a value that is passed on by the module with the given frame: it is the same,
except that a function without module tag gets that of the module. -/
inductive Adopted (frame : FrameId) : Value → Value → Prop
  | same : (∀ identity c, v = .function identity c → c.home ≠ none) → Adopted frame v v
  | tagged : c.home = none →
    Adopted frame (.function identity c) (.function identity' { c with home := some frame })

namespace Run

theorem adopt_on (frame : FrameId) (v : Value) (s : Session) :
    ∃ v' s', (adopt frame v).on s = (.ok v', s') ∧ Adopted frame v v' ∧ s'.frames = s.frames ∧
      s'.context = s.context := by
  cases v with
  | function identity c =>
    cases hhome : c.home with
    | some home =>
      refine ⟨.function identity c, s, ?_, .same ?_, rfl, rfl⟩
      · simp only [adopt, hhome]
        rfl
      · rintro _ _ ⟨⟩
        simp [hhome]
    | none =>
      refine ⟨.function s.nextIdentity { c with home := some frame },
        { s with nextIdentity := s.nextIdentity + 1 }, ?_, .tagged hhome, rfl, rfl⟩
      simp only [adopt, hhome]
      rfl
  | _ => exact ⟨_, s, rfl, .same (by simp), rfl, rfl⟩

/-- Every given name is bound, in the innermost frame, to what is passed on; other names there, and
other frames, are left alone. -/
theorem adoptAll_on (frame : FrameId) (entries : List (String × Value)) (s : Session)
    (hlt : s.context.frame < s.frames.size) (hdistinct : (entries.map Prod.fst).Nodup) :
    ∃ s', (adoptAll frame entries).on s = (.ok (), s') ∧ s'.context = s.context ∧
      (∀ name v, (name, v) ∈ entries →
        ∃ v', s'.frames.getLocal? s.context.frame name = some v' ∧ Adopted frame v v') ∧
      ∀ other name, other ≠ s.context.frame ∨ name ∉ entries.map Prod.fst →
        s'.frames.getLocal? other name = s.frames.getLocal? other name := by
  induction entries generalizing s with
  | nil => exact ⟨s, rfl, rfl, fun _ _ h => (nomatch h), fun _ _ _ => rfl⟩
  | cons entry rest ih =>
    obtain ⟨name, v⟩ := entry
    rw [List.map_cons, List.nodup_cons] at hdistinct
    obtain ⟨v', s₁, hadopt, hadopted, hframes, hcontext⟩ := adopt_on frame v s
    let s₂ : Session := { s₁ with frames := s₁.frames.define s₁.context.frame name v' }
    have hdefine (other : FrameId) (name' : String) : s₂.frames.getLocal? other name' =
        if other = s.context.frame ∧ name' = name then some v'
        else s.frames.getLocal? other name' := by
      simp only [s₂, hframes, hcontext, Frames.getLocal?_define, hlt, true_and]
    have hlt₂ : s₂.context.frame < s₂.frames.size := by
      simp only [s₂, hframes, hcontext, Frames.size_define]
      exact hlt
    obtain ⟨s', hrest, hcontext', hbound, hkept⟩ := ih s₂ hlt₂ hdistinct.2
    have hhere : s₂.context.frame = s.context.frame := congrArg Context.frame hcontext
    rw [hhere] at hbound hkept
    refine ⟨s', ?_, hcontext'.trans hcontext, fun name' u hmem => ?_, fun other name' h => ?_⟩
    · simp only [adoptAll, on_bind, hadopt]
      exact hrest
    · rcases List.mem_cons.1 hmem with heq | hmem
      · cases heq
        refine ⟨v', ?_, hadopted⟩
        rw [hkept _ _ (.inr hdistinct.1), hdefine, if_pos ⟨rfl, rfl⟩]
      · exact hbound name' u hmem
    · rw [List.map_cons, List.mem_cons, not_or] at h
      rw [hkept other name' (h.imp_right And.right), hdefine, if_neg]
      rintro ⟨rfl, rfl⟩
      exact h.elim (fun h => h rfl) fun h => h.1 rfl

/-- An import of a module that is there binds all that the frame of the module binds. -/
theorem splice_on (hs : s.Grounded) (hlt : s.context.frame < s.frames.size)
    (hm : s.modules.get? path = some m) :
    ∃ s', (splice path).on s = (.ok (), s') ∧ s'.context = s.context ∧
      ∀ name v, (name, v) ∈ (s.frames.bindings m.frame).entries →
        ∃ v', s'.frames.getLocal? s.context.frame name = some v' ∧ Adopted m.frame v v' := by
  obtain ⟨s', hrun, hcontext, hbound, -⟩ :=
    adoptAll_on m.frame (s.frames.bindings m.frame).entries s hlt (hs.distinct m.frame)
  refine ⟨s', ?_, hcontext, hbound⟩
  simp only [splice, on_bind, on_get, hm]
  exact hrun

end Run

end Treewalk
