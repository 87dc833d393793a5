import PatternCircuit.Text.Numeral

/-! # The field of circuit values -/

namespace PatternCircuit

/-- The order of the field, a prime of 255 bits. -/
def fieldOrder : Nat := 0x40000000000000000000000000000000224698fc094cf91b992d30ed00000001

theorem fieldOrder_pos : 0 < fieldOrder := by decide

/-- A value of a circuit cell: a number below the order of the field. -/
structure Scalar where
  val : Nat
  isLt : val < fieldOrder
deriving DecidableEq, Repr

namespace Scalar

theorem ext {x y : Scalar} (h : x.val = y.val) : x = y := by
  cases x
  cases y
  cases h
  rfl

def ofNat (n : Nat) : Scalar := ⟨n % fieldOrder, Nat.mod_lt n fieldOrder_pos⟩

instance (n : Nat) : OfNat Scalar n := ⟨ofNat n⟩

instance : Add Scalar := ⟨fun x y => ofNat (x.val + y.val)⟩

instance : Mul Scalar := ⟨fun x y => ofNat (x.val * y.val)⟩

instance : Neg Scalar := ⟨fun x => ofNat (fieldOrder - x.val)⟩

instance : Sub Scalar := ⟨fun x y => x + -y⟩

def ofInt : Int → Scalar
  | .ofNat n => ofNat n
  | .negSucc n => -ofNat (n + 1)

def ofByte (b : UInt8) : Scalar := ofNat b.toNat

def ofBool (b : Bool) : Scalar := ofNat b.toNat

/-- Repeated division with remainder. Started from `n` with coefficient zero and from `x` with
coefficient one, it ends at a coefficient whose product with `x` is their greatest common divisor
modulo `n`. -/
def coefficient (r : Nat) (s : Int) : Nat → Int → Int
  | 0, _ => s
  | k + 1, t => coefficient (k + 1) t (r % (k + 1)) (s - (r / (k + 1) : Nat) * t)
termination_by k => k
decreasing_by exact Nat.mod_lt r (Nat.succ_pos k)

/-- The multiplicative inverse; that of zero is zero. -/
def inverse (x : Scalar) : Scalar := ofInt (coefficient fieldOrder 0 x.val 1)

/-- Hexadecimal without leading zeros. -/
def text (x : Scalar) : String := "0x" ++ Numeral.hex x.val

end Scalar

end PatternCircuit
