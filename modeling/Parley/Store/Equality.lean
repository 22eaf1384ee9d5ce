import Parley.Store

/-! Equality of values. Values of different kinds differ, lists are compared item by item, blocks,
instances and classes by identity. Comparing two lists that contain themselves may never come to an
end; there is no answer then. -/

namespace Parley.Store

/-- Compares two values inside the pairs of lists of `path`, at most `fuel` pairs deep. -/
def equalWithin (s : Store) : Nat → List (ListRef × ListRef) → Value → Value → Option Bool
  | 0, _, .list a, .list b => if a = b then some true else none
  | fuel + 1, path, .list a, .list b =>
    if a = b then some true
    else if (a, b) ∈ path then none
    else if (s.list a).size ≠ (s.list b).size then some false
    else
      ((s.list a).toList.zip (s.list b).toList).allM fun p =>
        s.equalWithin fuel ((a, b) :: path) p.1 p.2
  | _, _, v, w => some (v = w)

/-- Whether two values are equal; `none` when the comparison does not end. Pairs of lists nested
deeper than there are pairs repeat one. -/
def equal? (s : Store) (v w : Value) : Option Bool :=
  s.equalWithin (s.lists.size * s.lists.size + 1) [] v w

/-- Whether some item of a list equals a value, tried from the first item on. -/
def includes? (s : Store) (items : List Value) (v : Value) : Option Bool :=
  items.anyM fun item => s.equal? item v

/-- The places, from zero, of the values that equal none before them. -/
def distinctFrom (s : Store) (i : Nat) (seen : List Value) : List Value → Option (List Nat)
  | [] => some []
  | v :: vs => do
    let places ← s.distinctFrom (i + 1) (v :: seen) vs
    return if ← s.includes? seen v then places else i :: places

/-- The places of the first of every sort of equal values. -/
def distinct? (s : Store) (values : List Value) : Option (List Nat) := s.distinctFrom 0 [] values

end Parley.Store
