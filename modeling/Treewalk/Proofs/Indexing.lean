import Mathlib.Algebra.Order.Floor.Semifield
import Mathlib.Data.Rat.Floor
import Treewalk.Native
import Treewalk.Operator
import Treewalk.Proofs.Roundings

/-!
# Indices

An index is a number, of which the integer part counts. The parts of a value that it can point at
are the elements of an array and the characters of a text, as many as the length that is told for
the value; past them an index fails. A number that is none has no integer part, but points where
zero points.
-/

namespace Treewalk

namespace Number

variable {m : Nat} {e : Int} {negative : Bool} {x : Float}

-- ---------------------------------------------------------------------------
-- Integer parts
-- ---------------------------------------------------------------------------

/-- The value of a finite number. -/
def rational? (x : Float) : Option ℚ :=
  match Binary.ofFloat x with
  | .finite negative m e => some (if negative then -value m e else value m e)
  | _ => none

/-- A value rounded toward zero. -/
def towardZero (q : ℚ) : ℤ :=
  if 0 ≤ q then ⌊q⌋ else ⌈q⌉

theorem value_nonneg (m : Nat) (e : Int) : 0 ≤ value m e :=
  mul_nonneg (Nat.cast_nonneg m) (zpow_pos two_pos e).le

theorem rational?_finite (hx : Binary.ofFloat x = .finite negative m e) :
    rational? x = some (if negative then -value m e else value m e) := by
  rw [rational?, hx]

theorem truncate_eq (negative : Bool) (m : Nat) (e : Int) :
    truncate negative m e = towardZero (if negative then -value m e else value m e) := by
  have hfloor : (((fraction m e).1 / (fraction m e).2 : Nat) : ℤ) = ⌊value m e⌋ := by
    rw [← Nat.floor_div_eq_div (K := ℚ), fraction_value,
      Int.natCast_floor_eq_floor (value_nonneg m e)]
  unfold truncate
  dsimp only
  rw [hfloor]
  cases negative with
  | false =>
    rw [if_neg Bool.false_ne_true, if_neg Bool.false_ne_true, towardZero,
      if_pos (value_nonneg m e)]
  | true =>
    rw [if_pos rfl, if_pos rfl, towardZero, Int.ceil_neg]
    split_ifs with h
    · obtain hzero : value m e = 0 := le_antisymm (neg_nonneg.1 h) (value_nonneg m e)
      rw [hzero]
      simp
    · rfl

theorem rational?_ofCount {n : Nat} (h : n ≤ 2 ^ 53) : rational? (ofCount n) = some (n : ℚ) := by
  obtain ⟨m, e, hx, hvalue⟩ := ofFloat_ofCount h
  rw [rational?_finite hx, if_neg Bool.false_ne_true, hvalue]

/-- The integer part of the number is the place. -/
def PointsAt (x : Float) (i : Nat) : Prop :=
  ∃ q, rational? x = some q ∧ towardZero q = i

theorem pointsAt_finite (hx : Binary.ofFloat x = .finite negative m e) :
    PointsAt x i ↔ truncate negative m e = i := by
  rw [truncate_eq]
  constructor
  · rintro ⟨q, hq, hi⟩
    rw [rational?_finite hx] at hq
    cases hq
    exact hi
  · exact fun hi => ⟨_, rational?_finite hx, hi⟩

theorem PointsAt.finite (h : PointsAt x i) :
    ∃ negative m e, Binary.ofFloat x = .finite negative m e := by
  obtain ⟨q, hq, -⟩ := h
  unfold rational? at hq
  split at hq
  · next hx => exact ⟨_, _, _, hx⟩
  · cases hq

theorem pointsAt_ofCount {n : Nat} (h : n ≤ 2 ^ 53) : PointsAt (ofCount n) n := by
  refine ⟨n, rational?_ofCount h, ?_⟩
  rw [towardZero, if_pos n.cast_nonneg, Int.floor_natCast]

end Number

namespace Operator

open Number

variable {x : Float} {parts : List α}

/-- What an index takes out of as many parts as there can be. -/
theorem position_iff (hsize : parts.length < 2 ^ 63) (hx : Binary.ofFloat x ≠ .nan) {part : α} :
    (position? x).bind (parts[·]?) = some part ↔ ∃ i, PointsAt x i ∧ parts[i]? = some part := by
  have hbound {i : Nat} (h : parts[i]? = some part) : i + 1 < 2 ^ 63 := by
    have := (List.getElem?_eq_some_iff.1 h).1
    omega
  unfold position? saturate
  cases hb : Binary.ofFloat x with
  | nan => exact absurd hb hx
  | infinite negative =>
    have hnone : ¬ ∃ i, PointsAt x i ∧ parts[i]? = some part := by
      rintro ⟨i, hi, -⟩
      obtain ⟨_, _, _, hfinite⟩ := hi.finite
      rw [hb] at hfinite
      cases hfinite
    refine iff_of_false (fun h => ?_) hnone
    cases negative with
    | true => cases h
    | false =>
      have hlt : 9223372036854775807 + 1 < 2 ^ 63 := hbound h
      exact absurd hlt (by decide)
  | finite negative m e =>
    simp only [pointsAt_finite hb]
    generalize truncate negative m e = t
    constructor
    · intro h
      obtain ⟨i, hi, hpart⟩ := Option.bind_eq_some_iff.1 h
      have hlt := hbound hpart
      rw [Int.mem_toNat?] at hi
      exact ⟨i, by omega, hpart⟩
    · rintro ⟨i, rfl, hpart⟩
      have hlt := hbound hpart
      refine Option.bind_eq_some_iff.2 ⟨i, ?_, hpart⟩
      rw [Int.mem_toNat?]
      omega

/-- A number that is none points where zero points. -/
theorem position_nan (hx : Binary.ofFloat x = .nan) : position? x = some 0 := by
  rw [position?, saturate, hx]
  rfl

end Operator

-- ---------------------------------------------------------------------------
-- Parts of values
-- ---------------------------------------------------------------------------

/-- What an index can point at in a value. -/
def Arrays.parts? (as : Arrays) : Value → Option (List Value)
  | .array id => some (as.elements id)
  | .text contents => some (contents.toList.map fun c => .text c.toString)
  | _ => none

/-- The fault of an index that points past the parts. -/
def Value.boundsFault : Value → RuntimeFault
  | .array .. => .arrayBounds
  | _ => .stringBounds

namespace Operator

open Number

variable {as : Arrays} {x : Float} {parts : List Value} {v : Value} {bracket : Token}

theorem index_eq (hv : as.parts? v = some parts) (bracket : Token) (x : Float) :
    index as bracket v (.number x) =
    ((position? x).bind (parts[·]?)).elim (fail bracket v.boundsFault) .ok := by
  cases v with
  | array id =>
    cases hv
    rw [index]
    cases (position? x).bind ((as.elements id)[·]?) <;> rfl
  | text contents =>
    cases hv
    rw [index]
    cases position? x with
    | none => rfl
    | some i =>
      simp only [Option.bind_some, List.getElem?_map]
      cases contents.toList[i]? <;> rfl
  | _ => cases hv

theorem length_eq (hv : as.parts? v = some parts) (site : Site) :
    Native.length as site v = .ok (.number (ofCount parts.length)) := by
  cases v with
  | array id =>
    cases hv
    rfl
  | text contents =>
    cases hv
    rw [List.length_map, String.length_toList]
    rfl
  | _ => cases hv

/-- Characters that are added to a text in turn. -/
theorem foldlM_plus (as : Arrays) (chars : List Char) (contents : String) :
    (chars.map fun c => Value.text c.toString).foldlM (plus as) (.text contents) =
      .ok (.text (contents ++ String.ofList chars)) := by
  induction chars generalizing contents with
  | nil => rw [List.map_nil, List.foldlM_nil, String.ofList_nil, String.append_empty]; rfl
  | cons c chars ih =>
    have hplus : plus as (.text contents) (.text c.toString) =
        .ok (.text (contents ++ c.toString)) := rfl
    have hsplit : String.ofList (c :: chars) = c.toString ++ String.ofList chars :=
      @String.ofList_append [c] chars
    rw [List.map_cons, List.foldlM_cons, hplus, hsplit, ← String.append_assoc]
    exact ih _

theorem parts_added {contents : String} (h : as.parts? (.text contents) = some (first :: rest)) :
    rest.foldlM (plus as) first = .ok (.text contents) := by
  obtain ⟨c, chars, hchars, rfl, rfl⟩ := List.map_eq_cons_iff.1 (Option.some.inj h)
  rw [foldlM_plus, ← String.ofList_toList (s := contents), hchars]
  exact congrArg (fun s => Except.ok (Value.text s)) (@String.ofList_append [c] chars).symm

theorem mapM_index {indices : List Float} {places : List Nat} (part : Nat → Value)
    (h : List.Forall₂ PointsAt indices places)
    (hindex : ∀ x i, PointsAt x i → i ∈ places → index as bracket v (.number x) = .ok (part i)) :
    indices.mapM (fun x => index as bracket v (.number x)) = .ok (places.map part) := by
  induction h with
  | nil => rfl
  | @cons x i indices places hi _ ih =>
    rw [List.mapM_cons, hindex x i hi List.mem_cons_self,
      ih fun x i hi hmem => hindex x i hi (List.mem_cons_of_mem _ hmem)]
    rfl

end Operator

open Operator Number

/-- In whatever store the arrays are kept, an index that is a number gives a part exactly if its
integer part is a place in front of the length of the value, and it is the part there; any other
fails with the fault of the value. Only what is no number points at the first part, if there is one.
The length is told exactly, and the parts of a text, taken out one by one and added, are the text.
-/
theorem indices_agree_with_length {as : Arrays} {v : Value} {parts : List Value}
    (hv : as.parts? v = some parts) (hsize : parts.length < 2 ^ 63) (bracket : Token) :
    (∀ site, Native.length as site v = .ok (.number (ofCount parts.length))) ∧
    (∀ n ≤ 2 ^ 53, rational? (ofCount n) = some (n : ℚ) ∧ PointsAt (ofCount n) n) ∧
    (∀ x, Binary.ofFloat x ≠ .nan →
      (∀ part, index as bracket v (.number x) = .ok part ↔
        ∃ i, PointsAt x i ∧ parts[i]? = some part) ∧
      ((¬ ∃ i, PointsAt x i ∧ i < parts.length) →
        index as bracket v (.number x) = .error (.error (.runtime bracket.site v.boundsFault)))) ∧
    (∀ x, Binary.ofFloat x = .nan → index as bracket v (.number x) =
      parts.head?.elim (.error (.error (.runtime bracket.site v.boundsFault))) .ok) ∧
    (∀ indices, List.Forall₂ PointsAt indices (List.range parts.length) →
      indices.mapM (fun x => index as bracket v (.number x)) = .ok parts) ∧
    ∀ contents first rest, v = .text contents → parts = first :: rest →
      rest.foldlM (plus as) first = .ok v := by
  have hindex := index_eq hv bracket
  have hok (x : Float) (hx : Binary.ofFloat x ≠ .nan) (part : Value) :
      index as bracket v (.number x) = .ok part ↔
        ∃ i, PointsAt x i ∧ parts[i]? = some part := by
    rw [hindex, ← position_iff hsize hx]
    cases (position? x).bind (parts[·]?) <;> simp [fail]
  refine ⟨length_eq hv, fun n hn => ⟨rational?_ofCount hn, pointsAt_ofCount hn⟩, ?_, ?_, ?_, ?_⟩
  · refine fun x hx => ⟨hok x hx, fun hnot => ?_⟩
    rw [hindex]
    cases hfound : (position? x).bind (parts[·]?) with
    | none => rfl
    | some part =>
      obtain ⟨i, hi, hpart⟩ := (position_iff hsize hx).1 hfound
      exact absurd ⟨i, hi, (List.getElem?_eq_some_iff.1 hpart).1⟩ hnot
  · intro x hx
    rw [hindex, position_nan hx, Option.bind_some, ← List.head?_eq_getElem?]
    rfl
  · intro indices h
    have hparts : (List.range parts.length).map (fun i => parts[i]?.getD .nil) = parts :=
      List.ext_getElem (by simp) fun i hi hi' => by simp [hi']
    refine (mapM_index (fun i => parts[i]?.getD .nil) h fun x i hi hmem => ?_).trans
      (congrArg _ hparts)
    have hlt := List.mem_range.1 hmem
    refine (hok x (fun hnan => ?_) _).2 ⟨i, hi, ?_⟩
    · obtain ⟨_, _, _, hfinite⟩ := hi.finite
      rw [hnan] at hfinite
      cases hfinite
    · rw [List.getElem?_eq_getElem hlt, Option.getD_some]
  · rintro contents first rest rfl rfl
    exact parts_added hv

/-- The second of two characters, of which the first has two bytes. -/
theorem second_character_is_found :
    Arrays.empty.parts? (.text "\u00E9b") = some [.text "\u00E9", .text "b"] ∧
      index .empty ⟨.rightBracket, "]", 1⟩ (.text "\u00E9b") (.number (ofCount 1)) =
        .ok (.text "b") := by
  have hparts : Arrays.empty.parts? (.text "\u00E9b") = some [.text "\u00E9", .text "b"] := by
    cbv
  have hone : PointsAt (ofCount 1) 1 := pointsAt_ofCount (by decide)
  obtain ⟨negative, m, e, hx⟩ := hone.finite
  obtain ⟨-, -, hindex, -⟩ := indices_agree_with_length hparts (by decide) ⟨.rightBracket, "]", 1⟩
  exact ⟨hparts, ((hindex _ (by rw [hx]; exact Binary.noConfusion)).1 _).2 ⟨1, hone, rfl⟩⟩

/-- What is no number has no integer part, but an element is found with it. -/
theorem element_without_place :
    Binary.ofFloat nan = .nan ∧ (∀ i, ¬ PointsAt nan i) ∧
      index (Arrays.empty.add [.bool true]) ⟨.rightBracket, "]", 1⟩ (.array 0) (.number nan) =
        .ok (.bool true) := by
  have hnan : Binary.ofFloat nan = .nan := by
    decide
  refine ⟨hnan, fun i hi => ?_, ?_⟩
  · obtain ⟨_, _, _, hfinite⟩ := hi.finite
    rw [hnan] at hfinite
    cases hfinite
  · rw [@index_eq _ [.bool true] _ rfl, position_nan hnan]
    rfl

end Treewalk
