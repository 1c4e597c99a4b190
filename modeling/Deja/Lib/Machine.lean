import Mathlib.Data.Int.Order.Basic

/-!
# Machine integers

Arithmetic that stops with a panic where a result does not fit its type, and the conversions
that cut a number to the width of a type.  A computation ends in a value, in an early return
or in a panic.
-/

namespace Deja

namespace Machine

/-- How a computation ends without its value. -/
inductive Halt (ε : Type) where
  | panic
  | ret (e : ε)
  deriving DecidableEq

/-- A computation that can panic, or return early. -/
abbrev Compute (ε α : Type) : Type := Except (Halt ε) α

variable {ε α β : Type}

/-- A number that has to lie between two bounds. -/
def fit (lo hi x : ℤ) : Compute ε ℤ := if lo ≤ x ∧ x ≤ hi then .ok x else .error .panic

/-- The result of an operation on `i32`. -/
def i32 (x : ℤ) : Compute ε ℤ := fit (-2147483648) 2147483647 x

/-- The result of an operation on `u32`. -/
def u32 (x : ℤ) : Compute ε ℤ := fit 0 4294967295 x

/-- The result of an operation on `i64`. -/
def i64 (x : ℤ) : Compute ε ℤ := fit (-9223372036854775808) 9223372036854775807 x

/-- `as i32`. -/
def asI32 (x : ℤ) : ℤ := (x + 2147483648) % 4294967296 - 2147483648

/-- `as u32`. -/
def asU32 (x : ℤ) : ℤ := x % 4294967296

/-- The sum of two `usize`. -/
def addUsize (a b : ℕ) : Compute ε ℕ :=
  if a + b ≤ 18446744073709551615 then .ok (a + b) else .error .panic

/-- `xs[i]`. -/
def index (xs : List α) (i : ℕ) : Compute ε α :=
  match xs[i]? with
  | some x => .ok x
  | none => .error .panic

/-- `xs[i..j]`. -/
def slice (xs : List α) (i j : ℕ) : Compute ε (List α) :=
  if i ≤ j ∧ j ≤ xs.length then .ok ((xs.drop i).take (j - i)) else .error .panic

theorem i32_ok {x : ℤ} (h : -2147483648 ≤ x ∧ x ≤ 2147483647) : (i32 x : Compute ε ℤ) = .ok x :=
  if_pos h

theorem u32_ok {x : ℤ} (h : 0 ≤ x ∧ x ≤ 4294967295) : (u32 x : Compute ε ℤ) = .ok x := if_pos h

theorem i64_ok {x : ℤ} (h : -9223372036854775808 ≤ x ∧ x ≤ 9223372036854775807) :
    (i64 x : Compute ε ℤ) = .ok x :=
  if_pos h

theorem i32_panic {x : ℤ} (h : ¬(-2147483648 ≤ x ∧ x ≤ 2147483647)) :
    (i32 x : Compute ε ℤ) = .error .panic :=
  if_neg h

theorem addUsize_ok {a b : ℕ} (h : a + b ≤ 18446744073709551615) :
    (addUsize a b : Compute ε ℕ) = .ok (a + b) :=
  if_pos h

theorem index_ok {xs : List α} {i : ℕ} (h : i < xs.length) :
    (index xs i : Compute ε α) = .ok xs[i] := by
  rw [index, List.getElem?_eq_getElem h]

theorem slice_ok {xs : List α} {i j : ℕ} (hij : i ≤ j) (hj : j ≤ xs.length) :
    (slice xs i j : Compute ε (List α)) = .ok ((xs.drop i).take (j - i)) :=
  if_pos ⟨hij, hj⟩

theorem ok_bind (a : α) (f : α → Compute ε β) : ((.ok a : Compute ε α) >>= f) = f a := rfl

theorem panic_bind (f : α → Compute ε β) :
    ((.error .panic : Compute ε α) >>= f) = .error .panic := rfl

theorem asI32_spec (x : ℤ) : -2147483648 ≤ asI32 x ∧ asI32 x ≤ 2147483647 ∧
    (x - asI32 x) % 4294967296 = 0 := by
  unfold asI32
  omega

theorem asI32_of_mem {x : ℤ} (h : -2147483648 ≤ x ∧ x ≤ 2147483647) : asI32 x = x := by
  unfold asI32
  omega

theorem asU32_of_mem {x : ℤ} (h : 0 ≤ x ∧ x ≤ 4294967295) : asU32 x = x := by
  unfold asU32
  omega

/-- The division that rounds to zero, applied to a dividend moved down where it is negative, is
the one that rounds down. -/
theorem tdiv_floor {k m : ℤ} (hk : 0 < k) (hm : k = m + 1) (z : ℤ) :
    (if 0 ≤ z then z else z - m).tdiv k = z / k := by
  split_ifs with hz
  · exact Int.tdiv_eq_ediv_of_nonneg hz
  · have hneg : z - m = -(m - z) := by omega
    have hdiv : (m - z) / k = -(z / k) := by
      have hmod := Int.emod_add_mul_ediv z k
      have hlt := Int.emod_lt_of_pos z hk
      have hpos := Int.emod_nonneg z (Int.ne_of_gt hk)
      have hsplit : m - z = m - z % k + k * -(z / k) := by
        rw [Int.mul_neg]
        omega
      rw [hsplit, Int.add_mul_ediv_left _ _ (Int.ne_of_gt hk),
        Int.ediv_eq_zero_of_lt (by omega) (by omega), Int.zero_add]
    rw [hneg, Int.neg_tdiv, Int.tdiv_eq_ediv_of_nonneg (by omega), hdiv, Int.neg_neg]

end Machine

end Deja
