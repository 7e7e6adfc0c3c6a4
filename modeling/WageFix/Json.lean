import Mathlib.Algebra.Order.Ring.Rat
import Mathlib.Algebra.Field.Rat
import Mathlib.Algebra.Order.Field.Rat

namespace Json

-- What a JSON string denotes once its escapes are read. An escape may leave a
-- surrogate without its partner.
abbrev CodePoint := Fin 0x110000

abbrev Text := List CodePoint

def text (s : String) : Text := s.toList.map fun c => Fin.ofNat 0x110000 c.toNat

def CodePoint.IsSurrogate (c : CodePoint) : Prop := 0xD800 ≤ c.val ∧ c.val < 0xE000

instance (c : CodePoint) : Decidable c.IsSurrogate := inferInstanceAs (Decidable (_ ∧ _))

def Text.WellFormed (t : Text) : Prop := ∀ c ∈ t, ¬ CodePoint.IsSurrogate c

instance (t : Text) : Decidable t.WellFormed :=
  List.decidableBAll (fun c => ¬ CodePoint.IsSurrogate c) t

-- A number as it is written. A fraction has at least one digit where there is one.
structure Number where
  negative : Bool
  integer : ℕ
  fraction : List (Fin 10)
  exponent : Option ℤ
  deriving DecidableEq, Repr

namespace Number

def ofNat (n : ℕ) : Number := ⟨false, n, [], none⟩

def IsInteger (n : Number) : Prop := n.fraction = [] ∧ n.exponent = none

instance (n : Number) : Decidable n.IsInteger := inferInstanceAs (Decidable (_ ∧ _))

def toInt (n : Number) : ℤ := if n.negative then -n.integer else n.integer

def toRat (n : Number) : ℚ :=
  let digits := n.fraction.foldl (fun (m : ℕ) d => 10 * m + d.val) n.integer
  let magnitude : ℚ := digits * 10 ^ (n.exponent.getD 0 - n.fraction.length)
  if n.negative then -magnitude else magnitude

def integerDigits (n : Number) : ℕ := (Nat.toDigits 10 n.integer).length

end Number

inductive Value where
  | null
  | bool (b : Bool)
  | num (n : Number)
  | str (t : Text)
  | arr (elements : List Value)
  | obj (members : List (Text × Value))

namespace Value

mutual

def depth : Value → ℕ
  | .null => 0
  | .bool _ => 0
  | .num _ => 0
  | .str _ => 0
  | .arr elements => elementsDepth elements + 1
  | .obj members => membersDepth members + 1

def elementsDepth : List Value → ℕ
  | [] => 0
  | v :: vs => max v.depth (elementsDepth vs)

def membersDepth : List (Text × Value) → ℕ
  | [] => 0
  | m :: ms => max (memberDepth m) (membersDepth ms)

def memberDepth : Text × Value → ℕ
  | (_, v) => v.depth

end

mutual

def numbers : Value → List Number
  | .null => []
  | .bool _ => []
  | .num n => [n]
  | .str _ => []
  | .arr elements => elementsNumbers elements
  | .obj members => membersNumbers members

def elementsNumbers : List Value → List Number
  | [] => []
  | v :: vs => v.numbers ++ elementsNumbers vs

def membersNumbers : List (Text × Value) → List Number
  | [] => []
  | m :: ms => memberNumbers m ++ membersNumbers ms

def memberNumbers : Text × Value → List Number
  | (_, v) => v.numbers

end

end Value

def valuesAt (key : Text) (members : List (Text × Value)) : List Value :=
  members.filterMap fun m => if m.1 = key then some m.2 else none

theorem mapM_cons_eq_some {α β : Type} {f : α → Option β} {x : α} {xs : List α} {ys : List β} :
    (x :: xs).mapM f = some ys ↔ ∃ y zs, f x = some y ∧ xs.mapM f = some zs ∧ ys = y :: zs := by
  rw [List.mapM_cons]
  constructor
  · intro h
    obtain ⟨y, hy, h⟩ := Option.bind_eq_some_iff.mp h
    obtain ⟨zs, hzs, h⟩ := Option.bind_eq_some_iff.mp h
    exact ⟨y, zs, hy, hzs, (Option.some.inj h).symm⟩
  · rintro ⟨y, zs, hy, hzs, rfl⟩
    simp [hy, hzs]

theorem getLast?_of_eq_singleton {vs : List Value} {v w : Value} (h : vs = [v])
    (hw : vs.getLast? = some w) : w = v := by
  subst h
  exact (Option.some.inj hw).symm

end Json
