import WageFix.Evm
import WageFix.Json
import WageFix.Binary64
import Mathlib.Data.Nat.Digits.Defs
import Mathlib.Data.List.DropRight

namespace WageFix.Wire

open Json

-- What one message makes a bridge send: issueTokens(to, amount).
structure Issue where
  to_ : Address
  amount : Uint256
  deriving DecidableEq, Repr

def wageMessage (user : String) (amount : Number) : Value :=
  .obj [(text "user", .str (text user)), (text "amount", .num amount)]

def hexDigit (c : CodePoint) : Option ℕ :=
  if 0x30 ≤ c.val ∧ c.val ≤ 0x39 then some (c.val - 0x30)
  else if 0x41 ≤ c.val ∧ c.val ≤ 0x46 then some (c.val - 0x41 + 10)
  else if 0x61 ≤ c.val ∧ c.val ≤ 0x66 then some (c.val - 0x61 + 10)
  else none

def addressOfDigits (digits : List ℕ) : Option Address :=
  if digits.length = 40 then some (Fin.ofNat (2 ^ 160) (Nat.ofDigits 16 digits.reverse)) else none

def addressOfHex (t : Text) : Option Address := (t.mapM hexDigit).bind addressOfDigits

def withoutPrefix (p t : Text) : Text := if p <+: t then t.drop p.length else t

-- The listener reads with serde_json, and addresses with the hex reader below
-- them, which passes over blanks between digits.
namespace Rust

structure WageEvent where
  user : Text
  amount : BitVec 64
  deriving DecidableEq, Repr

def readString : Value → Option Text
  | .str t => if t.WellFormed then some t else none
  | _ => none

-- A minus sign makes even zero a float.
def IsU64 (n : Number) : Prop := n.IsInteger ∧ n.negative = false ∧ n.integer < 2 ^ 64

instance (n : Number) : Decidable (IsU64 n) := inferInstanceAs (Decidable (_ ∧ _))

def readU64 : Value → Option (BitVec 64)
  | .num n => if IsU64 n then some (BitVec.ofNat 64 n.integer) else none
  | _ => none

def wageEvent (user amount : Value) : Option WageEvent := do
  let user ← readString user
  let amount ← readU64 amount
  return { user, amount }

-- The derived reader takes a map, in which it refuses a repeated field and
-- passes over unknown ones, or the fields in their order.
def WageEvent.deserialize : Value → Option WageEvent
  | .obj members =>
      if ∀ m ∈ members, m.1.WellFormed then
        match valuesAt (text "user") members, valuesAt (text "amount") members with
        | [user], [amount] => wageEvent user amount
        | _, _ => none
      else none
  | .arr [user, amount] => wageEvent user amount
  | _ => none

def IsBlank (c : CodePoint) : Prop := c.val = 0x20 ∨ c.val = 0x0D ∨ c.val = 0x0A ∨ c.val = 0x09

instance (c : CodePoint) : Decidable (IsBlank c) := inferInstanceAs (Decidable (_ ∨ _))

def parseAddress (user : Text) : Option Address :=
  addressOfHex ((withoutPrefix (text "0x") user).filter fun c => ¬ IsBlank c)

end Rust

def decodeRust (v : Value) : Option Issue := do
  let event ← Rust.WageEvent.deserialize v
  let to_ ← Rust.parseAddress event.user
  return { to_, amount := event.amount.setWidth 256 }

-- The consumer reads with json.loads, and converts what it finds.
namespace Python

-- How deep a document the interpreter still reads, and how many digits it
-- still turns into an integer.
structure Limits where
  nesting : ℕ
  digits : ℕ

def Loads (limits : Limits) (v : Value) : Prop :=
  v.depth ≤ limits.nesting ∧ ∀ n ∈ v.numbers, n.IsInteger → n.integerDigits ≤ limits.digits

instance (limits : Limits) (v : Value) : Decidable (Loads limits v) :=
  inferInstanceAs (Decidable (_ ∧ ∀ n ∈ v.numbers, n.IsInteger → _))

def remove0xPrefix (t : Text) : Text :=
  if text "0X" <+: t then t.drop 2 else withoutPrefix (text "0x") t

-- An integer is taken for the address that hex() writes.
def toChecksumAddress : Value → Option Address
  | .str t => addressOfHex (remove0xPrefix t)
  | .num n =>
      if n.IsInteger ∧ 0 ≤ n.toInt then addressOfDigits (Nat.digits 16 n.integer).reverse else none
  | _ => none

-- The zeros of the decimal digits of Unicode 15 outside of ASCII, each
-- followed by the other nine.
def zeros : List ℕ :=
  [0x660, 0x6F0, 0x7C0, 0x966, 0x9E6, 0xA66, 0xAE6, 0xB66, 0xBE6, 0xC66, 0xCE6, 0xD66, 0xDE6,
    0xE50, 0xED0, 0xF20, 0x1040, 0x1090, 0x17E0, 0x1810, 0x1946, 0x19D0, 0x1A80, 0x1A90, 0x1B50,
    0x1BB0, 0x1C40, 0x1C50, 0xA620, 0xA8D0, 0xA900, 0xA9D0, 0xA9F0, 0xAA50, 0xABF0, 0xFF10,
    0x104A0, 0x10D30, 0x11066, 0x110F0, 0x11136, 0x111D0, 0x112F0, 0x11450, 0x114D0, 0x11650,
    0x116C0, 0x11730, 0x118E0, 0x11950, 0x11C50, 0x11D50, 0x11DA0, 0x11F50, 0x16A60, 0x16AC0,
    0x16B50, 0x1D7CE, 0x1D7D8, 0x1D7E2, 0x1D7EC, 0x1D7F6, 0x1E140, 0x1E2F0, 0x1E4F0, 0x1E950,
    0x1FBF0]

def spaces : List ℕ :=
  [0x09, 0x0A, 0x0B, 0x0C, 0x0D, 0x20, 0x85, 0xA0, 0x1680, 0x2000, 0x2001, 0x2002, 0x2003, 0x2004,
    0x2005, 0x2006, 0x2007, 0x2008, 0x2009, 0x200A, 0x2028, 0x2029, 0x202F, 0x205F, 0x3000]

inductive Symbol where
  | space
  | digit (d : ℕ)
  | plus
  | minus
  | underscore
  | other
  deriving DecidableEq, Repr

def classify (c : CodePoint) : Symbol :=
  if c.val ∈ spaces then .space
  else if c.val = 0x2B then .plus
  else if c.val = 0x2D then .minus
  else if c.val = 0x5F then .underscore
  else
    match (0x30 :: zeros).find? fun z => z ≤ c.val ∧ c.val < z + 10 with
    | some z => .digit (c.val - z)
    | none => .other

-- Single underscores may stand between digits.
def readDigits : List Symbol → Option (List ℕ)
  | [.digit d] => some [d]
  | .digit d :: .underscore :: rest => (readDigits rest).map (d :: ·)
  | .digit d :: rest => (readDigits rest).map (d :: ·)
  | _ => none

def readNat (limits : Limits) (symbols : List Symbol) : Option ℕ := do
  let digits ← readDigits symbols
  if digits.length ≤ limits.digits then some (Nat.ofDigits 10 digits.reverse) else none

def parseInt (limits : Limits) (t : Text) : Option ℤ :=
  let symbols := (t.map classify).dropWhile (· = .space)
  match symbols.rdropWhile (· = .space) with
  | .minus :: rest => (readNat limits rest).map fun n => -n
  | .plus :: rest => (readNat limits rest).map fun n => n
  | rest => (readNat limits rest).map fun n => n

-- int() of what json.loads makes of a value: a float loses its fraction, and
-- an infinite one has no integer.
def toInt (limits : Limits) : Value → Option ℤ
  | .bool b => some b.toInt
  | .num n =>
      if n.IsInteger then some n.toInt else (Binary64.ofRat n.toRat).map Binary64.truncate
  | .str t => parseInt limits t
  | _ => none

def toUint256 (z : ℤ) : Option Uint256 :=
  if 0 ≤ z ∧ z < 2 ^ 256 then some (BitVec.ofInt 256 z) else none

end Python

-- The last one of a repeated key stays.
def decodePython (limits : Python.Limits) (v : Value) : Option Issue :=
  if Python.Loads limits v then
    match v with
    | .obj members => do
        let user ← (valuesAt (text "user") members).getLast?
        let to_ ← Python.toChecksumAddress user
        let amount ← (valuesAt (text "amount") members).getLast?
        let tokens ← Python.toInt limits amount
        let amount ← Python.toUint256 tokens
        return { to_, amount }
    | _ => none
  else none

end WageFix.Wire
