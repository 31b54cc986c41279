import Mathlib.Data.Finset.Card
import Mathlib.Data.List.Forall2
import Mathlib.Logic.Relation
import Treewalk.Arrays

/-!
# Texts of arrays

What an array says is a matter of the store. A store that only gains arrays, each with elements that
were there before it, has a text for every value, and keeps it when more arrays come.
-/

namespace Treewalk

theorem mapM_forall₂ {f : α → Option γ} {g : β → Option γ} {items : List α} {items' : List β}
    (h : List.Forall₂ (fun a b => f a = g b) items items') : items.mapM f = items'.mapM g := by
  induction h with
  | nil => rfl
  | cons hab _ ih => rw [List.mapM_cons, List.mapM_cons, hab, ih]

theorem isSome_of_mapM {f : α → Option β} {items : List α} (h : items.mapM f = some results) :
    ∀ a ∈ items, (f a).isSome := by
  induction items generalizing results with
  | nil => exact fun a ha => by cases ha
  | cons a rest ih =>
    rw [List.mapM_cons] at h
    obtain ⟨b, hb, hrest⟩ := Option.bind_eq_some_iff.1 h
    obtain ⟨bs, hbs, -⟩ := Option.bind_eq_some_iff.1 hrest
    intro c hc
    rcases List.mem_cons.1 hc with rfl | hmem
    · exact Option.isSome_iff_exists.2 ⟨b, hb⟩
    · exact ih hbs c hmem

theorem mapM_congr {f g : α → Option β} {items : List α} (h : ∀ a ∈ items, f a = g a) :
    items.mapM f = items.mapM g :=
  mapM_forall₂ (List.forall₂_same.2 h)

theorem mapM_mono {f g : α → Option β} {items : List α} (h : ∀ a b, f a = some b → g a = some b)
    (hf : items.mapM f = some results) : items.mapM g = some results := by
  induction items generalizing results with
  | nil => exact hf
  | cons a rest ih =>
    rw [List.mapM_cons] at hf ⊢
    obtain ⟨b, hb, hrest⟩ := Option.bind_eq_some_iff.1 hf
    obtain ⟨bs, hbs, hresults⟩ := Option.bind_eq_some_iff.1 hrest
    rw [h a b hb, ih hbs]
    exact hresults

theorem mapM_isSome {f : α → Option β} {items : List α} (h : ∀ a ∈ items, (f a).isSome) :
    (items.mapM f).isSome := by
  induction items with
  | nil => rfl
  | cons a rest ih =>
    obtain ⟨b, hb⟩ := Option.isSome_iff_exists.1 (h a List.mem_cons_self)
    obtain ⟨bs, hbs⟩ := Option.isSome_iff_exists.1 (ih fun a ha => h a (List.mem_cons_of_mem _ ha))
    rw [List.mapM_cons, hb, hbs]
    rfl

/-- The text of a value depends on the texts of no arrays but itself. -/
theorem Value.textWith_congr {v : Value} (h : ∀ id : Nat, v = .array id → f id = g id) :
    v.textWith f = v.textWith g := by
  cases v with
  | array id => exact h id rfl
  | bool b => cases b <;> rfl
  | _ => rfl

theorem Value.textWith_mono {v : Value} (h : ∀ id shown, f id = some shown → g id = some shown)
    (hv : v.textWith f = some shown) : v.textWith g = some shown := by
  cases v with
  | array id => exact h id shown hv
  | bool b => cases b <;> exact hv
  | _ => exact hv

theorem Value.textWith_isSome {v : Value} (h : ∀ id : Nat, v = .array id → (f id).isSome) :
    (v.textWith f).isSome := by
  cases v with
  | array id => exact h id rfl
  | bool b => cases b <;> rfl
  | _ => rfl

namespace Arrays

variable {as as' : Arrays}

theorem elements_of_store {id : Nat} (h : as.store[id]? = some kept) : as.elements id = kept := by
  rw [elements, h]

theorem store_of_lt {id : Nat} (h : id < as.size) : as.store[id]? = some (as.elements id) := by
  rw [elements, Array.getElem?_eq_getElem h]

theorem elements_of_le {id : Nat} (h : as.size ≤ id) : as.elements id = [] := by
  rw [elements, Array.getElem?_eq_none h]

@[simp] theorem size_add (as : Arrays) (elements : List Value) :
    (as.add elements).size = as.size + 1 := by
  simp [size, add]

@[simp] theorem elements_add_next (as : Arrays) (elements : List Value) :
    (as.add elements).elements as.next = elements := by
  rw [elements_add, if_pos rfl]

/-- Two stores whose arrays have elements that read alike say the same. -/
theorem write_eq (place : ArrayId → ArrayId)
    (h : ∀ id, List.Forall₂ (fun v v' => ∀ f g : ArrayId → Option String,
        (∀ i, f i = g (place i)) → v.textWith f = v'.textWith g)
      (as.elements id) (as'.elements (place id))) (depth : Nat) (id : ArrayId) :
    as.write depth id = as'.write depth (place id) := by
  induction depth generalizing id with
  | zero => rfl
  | succ depth ih =>
    simp only [write]
    rw [mapM_forall₂ ((h id).imp fun v v' hv => hv _ _ ih)]

-- ---------------------------------------------------------------------------
-- How deep one has to go
-- ---------------------------------------------------------------------------

theorem write_succ {id : ArrayId} (h : as.write depth id = some shown) :
    as.write (depth + 1) id = some shown := by
  induction depth generalizing id shown with
  | zero => cases h
  | succ depth ih =>
    rw [write] at h ⊢
    obtain ⟨texts, htexts, hshown⟩ := Option.bind_eq_some_iff.1 h
    have hdeeper : (as.elements id).mapM (Value.textWith (as.write (depth + 1))) = some texts :=
      mapM_mono (fun _ _ => Value.textWith_mono fun _ _ => ih) htexts
    rw [hdeeper]
    exact hshown

theorem write_mono {id : ArrayId} (h : as.write depth id = some shown) (hle : depth ≤ deeper) :
    as.write deeper id = some shown := by
  induction hle with
  | refl => exact h
  | step _ ih => exact write_succ ih

theorem write_isSome_iff (as : Arrays) (depth : Nat) (id : ArrayId) :
    (as.write (depth + 1) id).isSome ↔
      ∀ v ∈ as.elements id, (v.textWith (as.write depth)).isSome := by
  rw [write]
  constructor
  · intro h v hv
    obtain ⟨shown, hshown⟩ := Option.isSome_iff_exists.1 h
    obtain ⟨texts, htexts, -⟩ := Option.bind_eq_some_iff.1 hshown
    exact isSome_of_mapM htexts v hv
  · intro h
    obtain ⟨texts, htexts⟩ := Option.isSome_iff_exists.1 (mapM_isSome h)
    rw [htexts]
    rfl

/-- The arrays that have a text at this depth. -/
def writtenAt (as : Arrays) (depth : Nat) : Finset Nat :=
  (Finset.range as.size).filter fun id => (as.write depth id).isSome

theorem mem_writtenAt {id : Nat} :
    id ∈ as.writtenAt depth ↔ id < as.size ∧ (as.write depth id).isSome := by
  rw [writtenAt, Finset.mem_filter, Finset.mem_range]

theorem writtenAt_subset (as : Arrays) (depth : Nat) :
    as.writtenAt depth ⊆ as.writtenAt (depth + 1) := by
  intro id hid
  obtain ⟨hlt, hsome⟩ := mem_writtenAt.1 hid
  obtain ⟨shown, hshown⟩ := Option.isSome_iff_exists.1 hsome
  exact mem_writtenAt.2 ⟨hlt, Option.isSome_iff_exists.2 ⟨shown, write_succ hshown⟩⟩

theorem write_of_le {id : Nat} (h : as.size ≤ id) : as.write (depth + 1) id = some "[]" := by
  rw [write, elements_of_le h]
  rfl

/-- If one more level gives no array a text, then no number of levels does. -/
theorem writtenAt_stable (h : as.writtenAt (depth + 1) = as.writtenAt (depth + 2)) :
    as.writtenAt (depth + 2) = as.writtenAt (depth + 3) := by
  refine (as.writtenAt_subset _).antisymm fun id hid => ?_
  obtain ⟨hlt, hsome⟩ := mem_writtenAt.1 hid
  refine mem_writtenAt.2 ⟨hlt, (write_isSome_iff ..).2 fun v hv => ?_⟩
  have hv := (write_isSome_iff ..).1 hsome v hv
  refine Value.textWith_isSome fun j hj => ?_
  subst hj
  by_cases hin : j < as.size
  · exact (mem_writtenAt.1 (h ▸ mem_writtenAt.2 ⟨hin, hv⟩)).2
  · rw [write_of_le (Nat.not_lt.1 hin)]
    rfl

theorem writtenAt_grows (as : Arrays) (depth : Nat) :
    as.writtenAt (depth + 1) = as.writtenAt (depth + 2) ∨
      depth < (as.writtenAt (depth + 2)).card := by
  have larger (n : Nat) (h : as.writtenAt n ≠ as.writtenAt (n + 1)) :
      (as.writtenAt n).card < (as.writtenAt (n + 1)).card :=
    Finset.card_lt_card ((as.writtenAt_subset n).ssubset_of_ne h)
  induction depth with
  | zero =>
    by_cases h : as.writtenAt 1 = as.writtenAt 2
    · exact .inl h
    · exact .inr (Nat.zero_lt_of_lt (larger 1 h))
  | succ depth ih =>
    rcases ih with hstable | hcard
    · exact .inl (writtenAt_stable hstable)
    · by_cases h : as.writtenAt (depth + 2) = as.writtenAt (depth + 3)
      · exact .inl h
      · exact .inr (Nat.lt_of_le_of_lt hcard (larger _ h))

/-- Each level but the last gives one more array a text. -/
theorem writtenAt_size (as : Arrays) (more : Nat) :
    as.writtenAt (as.size + more + 1) = as.writtenAt (as.size + 1) := by
  have hsettled : as.writtenAt (as.size + 1) = as.writtenAt (as.size + 2) := by
    refine (as.writtenAt_grows as.size).resolve_right (Nat.not_lt.2 ?_)
    calc (as.writtenAt (as.size + 2)).card
        ≤ (Finset.range as.size).card := Finset.card_filter_le ..
      _ = as.size := Finset.card_range _
  have hstable (n : Nat) :
      as.writtenAt (as.size + n + 1) = as.writtenAt (as.size + n + 2) := by
    induction n with
    | zero => exact hsettled
    | succ n ih => exact writtenAt_stable ih
  induction more with
  | zero => rfl
  | succ more ih => exact (hstable more).symm.trans ih

/-- Going deeper than there are arrays gives nothing more. -/
theorem write_settled {id : Nat} (h : as.size < depth) :
    as.write depth id = as.write (as.size + 1) id := by
  obtain ⟨more, rfl⟩ := Nat.exists_eq_add_of_lt h
  by_cases hin : id < as.size
  · cases hwritten : as.write (as.size + 1) id with
    | some shown => exact write_mono hwritten (by omega)
    | none =>
      have hnot : id ∉ as.writtenAt (as.size + 1) := fun hmem => by
        have := (mem_writtenAt.1 hmem).2
        rw [hwritten] at this
        cases this
      rw [← as.writtenAt_size more, mem_writtenAt] at hnot
      exact Option.not_isSome_iff_eq_none.1 fun hsome => hnot ⟨hin, hsome⟩
  · rw [write_of_le (Nat.not_lt.1 hin), write_of_le (Nat.not_lt.1 hin)]

theorem text?_eq (h : as.size < depth) (v : Value) :
    as.text? v = v.textWith (as.write depth) :=
  Value.textWith_congr fun _ _ => (write_settled h).symm

/-- A value has a text if there is one at any depth. -/
theorem text?_eq_some_iff {v : Value} :
    as.text? v = some shown ↔ ∃ depth, v.textWith (as.write depth) = some shown := by
  refine ⟨fun h => ⟨_, h⟩, fun ⟨depth, h⟩ => ?_⟩
  rw [text?_eq (Nat.lt_of_lt_of_le (Nat.lt_succ_self _) (Nat.le_max_left as.size.succ depth))]
  exact Value.textWith_mono (fun _ _ hid => write_mono hid (Nat.le_max_right _ _)) h

/-- Two stores whose arrays have elements that read alike have the same texts. -/
theorem text?_congr {place : ArrayId → ArrayId}
    (h : ∀ id, List.Forall₂ (fun v v' => ∀ f g : ArrayId → Option String,
        (∀ i, f i = g (place i)) → v.textWith f = v'.textWith g)
      (as.elements id) (as'.elements (place id)))
    (hv : ∀ f g : ArrayId → Option String, (∀ i, f i = g (place i)) →
      v.textWith f = v'.textWith g) :
    as'.text? v' = as.text? v := by
  obtain ⟨depth, hdepth, hdepth'⟩ : ∃ depth, as.size < depth ∧ as'.size < depth :=
    ⟨_, Nat.lt_succ_of_le (Nat.le_max_left ..), Nat.lt_succ_of_le (Nat.le_max_right ..)⟩
  rw [text?_eq hdepth, text?_eq hdepth']
  exact (hv _ _ (write_eq place h _)).symm

-- ---------------------------------------------------------------------------
-- Stores that grow
-- ---------------------------------------------------------------------------

/-- Arrays stay as they are. -/
structure Grows (as as' : Arrays) : Prop where
  store : ∀ (id : Nat) (kept : List Value), as.store[id]? = some kept → as'.store[id]? = some kept

namespace Grows

theorem refl (as : Arrays) : as.Grows as :=
  ⟨fun _ _ h => h⟩

theorem trans {as as' as'' : Arrays} (h : as.Grows as') (h' : as'.Grows as'') : as.Grows as'' :=
  ⟨fun id kept hid => h'.store id kept (h.store id kept hid)⟩

theorem add (as : Arrays) (elements : List Value) : as.Grows (as.add elements) := by
  refine ⟨fun id kept hid => ?_⟩
  have hlt : id < as.store.size := (Array.getElem?_eq_some_iff.1 hid).1
  simp only [Arrays.add, Array.getElem?_push, Nat.ne_of_lt hlt, if_false]
  exact hid

theorem size (h : as.Grows as') : as.size ≤ as'.size := by
  by_contra hlt
  have hkept := h.store as'.size _ (store_of_lt (Nat.not_le.1 hlt))
  exact Nat.lt_irrefl _ (Array.getElem?_eq_some_iff.1 hkept).1

theorem elements (h : as.Grows as') {id : Nat} (hid : id < as.size) :
    as'.elements id = as.elements id :=
  elements_of_store (h.store id _ (store_of_lt hid))

end Grows

/-- The arrays in an array were there before it. -/
def PointsBack (as : Arrays) : Prop :=
  ∀ i j : Nat, .array j ∈ as.elements i → j < i

theorem PointsBack.empty : empty.PointsBack :=
  fun _ _ h => by cases h

theorem PointsBack.add {elements : List Value} (h : as.PointsBack)
    (helements : ∀ j : Nat, .array j ∈ elements → j < as.size) :
    (as.add elements).PointsBack := by
  intro i j hj
  rw [elements_add] at hj
  split at hj
  · next hi => exact hi ▸ helements j hj
  · exact h i j hj

/-- No array is deeper than the number of those before it. -/
theorem PointsBack.write_isSome (h : as.PointsBack) {id : Nat} (hid : id < depth) :
    (as.write depth id).isSome := by
  induction depth generalizing id with
  | zero => exact absurd hid (Nat.not_lt_zero id)
  | succ depth ih =>
    refine (write_isSome_iff ..).2 fun v hv => Value.textWith_isSome fun j hj => ih ?_
    exact Nat.lt_of_lt_of_le (h id j (hj ▸ hv)) (Nat.le_of_lt_succ hid)

/-- Every value has a text. -/
theorem PointsBack.text?_isSome (h : as.PointsBack) (v : Value) : (as.text? v).isSome := by
  refine Value.textWith_isSome fun id _ => ?_
  by_cases hid : id < as.size
  · exact h.write_isSome (Nat.lt_succ_of_lt hid)
  · rw [write_of_le (Nat.not_lt.1 hid)]
    rfl

theorem PointsBack.write_grows (h : as.PointsBack) (hgrows : as.Grows as') {id : Nat}
    (hid : id < as.size) : as'.write depth id = as.write depth id := by
  induction depth generalizing id with
  | zero => rfl
  | succ depth ih =>
    have htexts : (as.elements id).mapM (Value.textWith (as'.write depth)) =
        (as.elements id).mapM (Value.textWith (as.write depth)) :=
      mapM_congr fun v hv => Value.textWith_congr fun j hj =>
        ih (Nat.lt_trans (h id j (hj ▸ hv)) hid)
    simp only [write, hgrows.elements hid, htexts]

/-- A text stays the same in whatever the store grows to. -/
theorem PointsBack.text?_grows (h : as.PointsBack) (hgrows : as.Grows as') {v : Value}
    (hv : ∀ id : Nat, v = .array id → id < as.size) : as'.text? v = as.text? v := by
  have hdepth : as.size < as'.size + 1 := Nat.lt_succ_of_le hgrows.size
  rw [text?_eq hdepth]
  exact Value.textWith_congr fun id hid => h.write_grows hgrows (hv id hid)

/-- The second array is an element of the first. -/
def Contains (as : Arrays) (i j : Nat) : Prop :=
  .array j ∈ as.elements i

/-- No array is reached from itself. -/
theorem PointsBack.acyclic (h : as.PointsBack) (i : Nat) :
    ¬ Relation.TransGen as.Contains i i := by
  have smaller {j : Nat} (hij : Relation.TransGen as.Contains i j) : j < i := by
    induction hij with
    | single hij => exact h _ _ hij
    | tail _ hjk ih => exact Nat.lt_trans (h _ _ hjk) ih
  exact fun hcycle => Nat.lt_irrefl i (smaller hcycle)

end Arrays

end Treewalk
