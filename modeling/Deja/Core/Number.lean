import Mathlib.Data.Int.Log
import Deja.Core.Grain

/-!
# JSON numbers

The exact value of a number and the double `Value::as_f64` turns it into.  An
integer of more than 53 bits is rounded to the nearest double, ties to even.
-/

namespace Deja

/-- The value of a finite double. -/
def f64Value (bits : UInt64) : ℚ :=
  let n := bits.toNat
  let exp : ℕ := n / 2 ^ 52 % 2 ^ 11
  let frac : ℕ := n % 2 ^ 52
  let abs : ℚ :=
    if exp = 0 then (frac : ℚ) / 2 ^ 1074
    else if exp < 1075 then ((2 ^ 52 + frac : ℕ) : ℚ) / 2 ^ (1075 - exp)
    else ((2 ^ 52 + frac : ℕ) : ℚ) * 2 ^ (exp - 1075)
  if n / 2 ^ 63 = 1 then -abs else abs

/-- `n as f64`, for a magnitude. -/
def roundNat (n : ℕ) : ℕ :=
  if n < 2 ^ 53 then n
  else
    let shift := Nat.log2 n - 52
    let quot := n / 2 ^ shift
    let rest := n % 2 ^ shift
    let half := 2 ^ (shift - 1)
    (if rest < half then quot else if half < rest then quot + 1 else quot + quot % 2) * 2 ^ shift

/-- `i as f64`. -/
def roundInt (i : ℤ) : ℤ := if i < 0 then -(roundNat i.natAbs : ℤ) else roundNat i.natAbs

/-- To the nearest integer, ties to even. -/
def roundEven (q : ℚ) : ℤ :=
  if q - ⌊q⌋ < 1 / 2 then ⌊q⌋ else if 1 / 2 < q - ⌊q⌋ then ⌊q⌋ + 1 else ⌊q⌋ + ⌊q⌋ % 2

/-- The double nearest to a rational, ties to even; `none` where it is infinite. -/
def roundRat (q : ℚ) : Option ℚ :=
  if q = 0 then some 0
  else
    let ulp : ℚ := 2 ^ max (Int.log 2 |q| - 52) (-1074)
    let r := roundEven (q / ulp) * ulp
    if |r| < 2 ^ 1024 then some r else none

/-- The quotient of two finite doubles. -/
def divF64 (x y : ℚ) : Option ℚ := roundRat (x / y)

namespace Json

/-- The exact value of a number. -/
def numValue : Json → Option ℚ
  | .int i => some i
  | .float bits => some (f64Value bits)
  | _ => none

/-- `Value::as_f64`. -/
def asF64 : Json → Option ℚ
  | .int i => some (roundInt i)
  | .float bits => some (f64Value bits)
  | _ => none

/-- `Value::as_u64`. -/
def asU64 : Json → Option ℕ
  | .int i => if 0 ≤ i ∧ i < 2 ^ 64 then some i.toNat else none
  | _ => none

/-- `Value::is_i64` or `Value::is_u64`. -/
def isInteger : Json → Bool
  | .int i => -(2 ^ 63) ≤ i ∧ i < 2 ^ 64
  | _ => false

/-- `Value::as_object`. -/
def asObject : Json → Option (List (String × Json))
  | .obj fields => some fields
  | _ => none

mutual

/-- Equality of values.  Where `across` holds, numbers compare by their value; else an
integer is no float, as for `==` of the library. -/
def eqValue (across : Bool) : Json → Json → Bool
  | .null, .null => true
  | .bool a, .bool b => a == b
  | .int i, .int j => i == j
  | .int i, .float b => across && decide ((i : ℚ) = f64Value b)
  | .float a, .int j => across && decide (f64Value a = j)
  | .float a, .float b => decide (f64Value a = f64Value b)
  | .str s, .str t => s == t
  | .arr xs, .arr ys => eqItems across xs ys
  | .obj fs, .obj gs => eqMembers across fs gs
  | _, _ => false

/-- Element by element. -/
def eqItems (across : Bool) : List Json → List Json → Bool
  | [], [] => true
  | x :: xs, y :: ys => eqValue across x y && eqItems across xs ys
  | _, _ => false

/-- Member by member, in key order. -/
def eqMembers (across : Bool) : List (String × Json) → List (String × Json) → Bool
  | [], [] => true
  | (k, x) :: fs, (l, y) :: gs => k == l && eqValue across x y && eqMembers across fs gs
  | _, _ => false

end

end Json

/-- Integers of at most 53 bits are doubles. -/
theorem roundInt_of_lt {i : ℤ} (h : i.natAbs < 2 ^ 53) : roundInt i = i := by
  unfold roundInt roundNat
  rw [if_pos h]
  split_ifs <;> omega

example : roundInt (2 ^ 53 + 1) = 2 ^ 53 := by decide +kernel

example : divF64 (10 ^ 17) 3 = some 33333333333333332 := by decide +kernel

end Deja
