import Treewalk.Error
import Treewalk.Value

/-!
# Arrays

An array is a cell that keeps its elements, under an identity. Elements may be arrays, so a store of
arrays could hold one that contains itself, and such an array has no text: writing it would never
end. Whether that happens is a matter of how a store comes about.
-/

namespace Treewalk

structure Arrays where
  store : Array (List Value)

namespace Arrays

def empty : Arrays :=
  ⟨#[]⟩

instance : Inhabited Arrays :=
  ⟨empty⟩

def size (as : Arrays) : Nat :=
  as.store.size

def next (as : Arrays) : ArrayId :=
  as.store.size

def add (as : Arrays) (elements : List Value) : Arrays :=
  ⟨as.store.push elements⟩

def elements (as : Arrays) (id : ArrayId) : List Value :=
  match as.store[id]? with
  | some elements => elements
  | none => []

/-- The text of an array, if the arrays in it lie at most `depth` deep, itself counted. -/
def write (as : Arrays) : (depth : Nat) → ArrayId → Option String
  | 0, _ => none
  | depth + 1, id => do
    let texts ← (as.elements id).mapM (Value.textWith (as.write depth))
    return "[" ++ ", ".intercalate texts ++ "]"

/-- The text of a value. Arrays that lie in one another deeper than there are arrays come back to
one of them, and have none. -/
def text? (as : Arrays) (v : Value) : Option String :=
  v.textWith (as.write (as.size + 1))

/-- The text of a value, for a computation that cannot go on without. -/
def text (as : Arrays) (v : Value) : Except Halt String :=
  match as.text? v with
  | some text => .ok text
  | none => .error .endless

@[simp] theorem elements_empty (id : ArrayId) : empty.elements id = [] := rfl

theorem elements_add (as : Arrays) (elements : List Value) (id : ArrayId) :
    (as.add elements).elements id = if id = as.next then elements else as.elements id := by
  by_cases h : id = as.store.size <;> simp [Arrays.elements, add, next, Array.getElem?_push, h]

end Arrays

end Treewalk
