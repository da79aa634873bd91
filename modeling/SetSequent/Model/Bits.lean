/-!
# Bitwise operations on integers

An integer is read as an infinite word in two's complement: `n ≥ 0` has the bits of `n`, and
`-(n + 1)` has the opposite bits of `n`. Each operation reduces to one on natural numbers.
-/

namespace SetSequent.Model.Bits

/-- The bits of `m` that `n` lacks. -/
def without (m n : Nat) : Nat := m ^^^ (m &&& n)

/-- The bits that both integers have. -/
def both : Int → Int → Int
  | .ofNat m, .ofNat n => .ofNat (m &&& n)
  | .ofNat m, .negSucc n => .ofNat (without m n)
  | .negSucc m, .ofNat n => .ofNat (without n m)
  | .negSucc m, .negSucc n => .negSucc (m ||| n)

/-- The bits that one of the integers has. -/
def either : Int → Int → Int
  | .ofNat m, .ofNat n => .ofNat (m ||| n)
  | .ofNat m, .negSucc n => .negSucc (without n m)
  | .negSucc m, .ofNat n => .negSucc (without m n)
  | .negSucc m, .negSucc n => .negSucc (m &&& n)

/-- Bit `i` of an integer. -/
def bit (n : Int) (i : Nat) : Bool :=
  match n with
  | .ofNat n => n.testBit i
  | .negSucc n => !n.testBit i

theorem testBit_without (m n i : Nat) : (without m n).testBit i = (m.testBit i && !n.testBit i) := by
  simp only [without, Nat.testBit_xor, Nat.testBit_and]
  cases m.testBit i <;> cases n.testBit i <;> rfl

theorem bit_both (m n : Int) (i : Nat) : bit (both m n) i = (bit m i && bit n i) := by
  cases m <;> cases n <;> simp [both, bit, testBit_without, Bool.and_comm]

theorem bit_either (m n : Int) (i : Nat) : bit (either m n) i = (bit m i || bit n i) := by
  cases m <;> cases n <;> simp [either, bit, testBit_without, Bool.or_comm]

end SetSequent.Model.Bits
