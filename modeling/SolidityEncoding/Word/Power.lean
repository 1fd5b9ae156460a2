/-!
# Powers modulo a number

`powMod` squares its base once for every binary digit of the exponent, so that exponents of
hundreds of digits are no obstacle.  By `powMod_eq` it is the remainder of the power.
-/

namespace SolidityEncoding.Word

/-- The remainder of `base ^ exponent`, by repeated squaring. -/
def powMod (modulus base exponent : Nat) : Nat :=
  if exponent = 0 then 1 % modulus
  else
    let root := powMod modulus (base * base % modulus) (exponent / 2)
    if exponent % 2 = 1 then base * root % modulus else root
termination_by exponent

theorem powMod_eq (modulus base exponent : Nat) :
    powMod modulus base exponent = Nat.pow base exponent % modulus := by
  fun_induction powMod modulus base exponent with
  | case1 => simp
  | case2 base exponent h0 root hodd ih =>
    have hr : root = (base * base) ^ (exponent / 2) % modulus := ih.trans (Nat.pow_mod ..).symm
    have he : base ^ exponent = base * (base * base) ^ (exponent / 2) := by
      rw [← Nat.pow_two, ← Nat.pow_mul, Nat.mul_comm, ← Nat.pow_succ]
      congr 1
      omega
    change base * root % modulus = base ^ exponent % modulus
    rw [he, hr, Nat.mul_mod_mod]
  | case3 base exponent h0 root heven ih =>
    have he : base ^ exponent = (base * base) ^ (exponent / 2) := by
      rw [← Nat.pow_two, ← Nat.pow_mul]
      congr 1
      omega
    change root = base ^ exponent % modulus
    rw [he]
    exact ih.trans (Nat.pow_mod ..).symm

end SolidityEncoding.Word
