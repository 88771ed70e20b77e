/-
  Big-endian numbers: byte strings read as numbers in base 256, most significant byte first.

  What is proved:
    1. `length_bigEndian`: a field of `n` bytes has `n` bytes, whatever is written into it.
    2. `ofBigEndian_lt`: a string of `n` bytes spells a number below `256 ^ n`.
    3. `ofBigEndian_bigEndian`: a field spells the number that was written into it, up to the bits dropped.
-/
namespace MessagePack

/-- A string of bytes, as it travels. -/
abbrev Bytes := List UInt8

/-- The low `8 * n` bits of `x` as `n` bytes, most significant byte first. Higher bits are dropped. -/
def bigEndian : Nat → Nat → Bytes
  | 0, _ => []
  | n + 1, x => UInt8.ofNat (x / Nat.pow 256 n) :: bigEndian n x

/-- The number that a byte string spells, most significant byte first. -/
def ofBigEndian (b : Bytes) : Nat :=
  b.foldl (fun acc x => acc * 256 + x.toNat) 0

@[simp] theorem length_bigEndian (n x : Nat) : (bigEndian n x).length = n := by
  induction n with
  | zero => rfl
  | succ n ih => simp [bigEndian, ih]

theorem pow_succ_length (x : UInt8) (b : Bytes) :
    Nat.pow 256 (x :: b).length = Nat.pow 256 b.length * 256 := rfl

theorem foldl_bigEndian (b : Bytes) (acc : Nat) :
    b.foldl (fun acc x => acc * 256 + x.toNat) acc = acc * Nat.pow 256 b.length + ofBigEndian b := by
  unfold ofBigEndian
  induction b generalizing acc with
  | nil => simp
  | cons x b ih =>
    simp only [List.foldl_cons, pow_succ_length, Nat.zero_mul, Nat.zero_add]
    rw [ih, ih x.toNat, Nat.add_mul, Nat.mul_assoc, Nat.mul_comm 256, Nat.add_assoc]

theorem ofBigEndian_cons (x : UInt8) (b : Bytes) :
    ofBigEndian (x :: b) = x.toNat * Nat.pow 256 b.length + ofBigEndian b := by
  rw [ofBigEndian, List.foldl_cons, foldl_bigEndian]
  simp

theorem ofBigEndian_lt (b : Bytes) : ofBigEndian b < Nat.pow 256 b.length := by
  induction b with
  | nil => simp [ofBigEndian]
  | cons x b ih =>
    rw [ofBigEndian_cons, pow_succ_length]
    have hx : x.toNat < 256 := x.toNat_lt
    have : x.toNat * Nat.pow 256 b.length ≤ 255 * Nat.pow 256 b.length :=
      Nat.mul_le_mul_right _ (by omega)
    omega

/-- A field spells what was written into it, up to the bits dropped. -/
theorem ofBigEndian_bigEndian (n x : Nat) : ofBigEndian (bigEndian n x) = x % Nat.pow 256 n := by
  induction n with
  | zero => exact (Nat.mod_one x).symm
  | succ n ih =>
    have hdigit : (UInt8.ofNat (x / Nat.pow 256 n)).toNat = x / Nat.pow 256 n % 256 := rfl
    rw [bigEndian, ofBigEndian_cons, ih, hdigit, length_bigEndian, Nat.add_comm, Nat.mul_comm]
    exact Nat.mod_mul.symm

end MessagePack
