import Mathlib.Algebra.Order.Round
import Mathlib.Data.Int.Log
import Mathlib.Data.Rat.Floor

namespace Binary64

-- The whole number nearest to a rational, the even one of two.
def roundEven (q : ℚ) : ℤ :=
  let below := ⌊q⌋
  if q - below < 1 / 2 then below
  else if 1 / 2 < q - below then below + 1
  else if below % 2 = 0 then below else below + 1

def lastPlace (q : ℚ) : ℤ := max (Int.log 2 |q| - 52) (-1074)

-- The double nearest to a rational, none where that is infinite.
def ofRat (q : ℚ) : Option ℚ :=
  let r : ℚ := roundEven (q / 2 ^ lastPlace q) * 2 ^ lastPlace q
  if |r| < 2 ^ 1024 then some r else none

def truncate (q : ℚ) : ℤ := if 0 ≤ q then ⌊q⌋ else ⌈q⌉

end Binary64
