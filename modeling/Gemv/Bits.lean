import Gemv.Numbers

/-! Single bits of machine words.

`pack` builds a number from its binary digits and `testBit_pack` reads them back, so a list of
flags and the word that carries it are the same data. `raise` and `lower` change one bit of a
control word and leave the others as they are. -/
namespace Gemv.Bits

/-- The number with the given binary digits, least significant first. -/
def pack : List Bool → Nat
  | [] => 0
  | b :: bs => b.toNat + 2 * pack bs

theorem pack_lt (bs : List Bool) : pack bs < 2 ^ bs.length := by
  induction bs with
  | nil => simp [pack]
  | cons b bs ih =>
    have hb : b.toNat ≤ 1 := Bool.toNat_le b
    simp only [pack, List.length_cons, Nat.pow_succ]
    omega

theorem testBit_pack (bs : List Bool) (i : Nat) : (pack bs).testBit i = bs.getD i false := by
  induction bs generalizing i with
  | nil => simp [pack]
  | cons b bs ih =>
    cases i with
    | zero => cases b <;> simp [pack, Nat.testBit_zero]
    | succ i =>
      have hhalf : (b.toNat + 2 * pack bs) / 2 = pack bs := by
        have hb : b.toNat ≤ 1 := Bool.toNat_le b
        omega
      simp [pack, Nat.testBit_succ, hhalf, ih]

def bit (v : UInt32) (k : Nat) : Bool := v.toBitVec.getLsbD k

def raise (v : UInt32) (k : Nat) : UInt32 := UInt32.ofBitVec (v.toBitVec ||| BitVec.twoPow 32 k)

def lower (v : UInt32) (k : Nat) : UInt32 := UInt32.ofBitVec (v.toBitVec &&& ~~~BitVec.twoPow 32 k)

/-- The bits that are high in `next` and low in `now`. -/
def rising (now next : UInt32) : UInt32 := UInt32.ofBitVec (next.toBitVec &&& ~~~now.toBitVec)

theorem bit_raise (v : UInt32) (k j : Nat) (hj : j < 32) :
    bit (raise v k) j = (bit v j || decide (j = k)) := by
  by_cases h : j = k
  · subst h; simp [bit, raise, hj]
  · simp [bit, raise, h, Ne.symm h]

theorem bit_lower (v : UInt32) (k j : Nat) (hj : j < 32) :
    bit (lower v k) j = (bit v j && !decide (j = k)) := by
  by_cases h : j = k
  · subst h; simp [bit, lower, hj]
  · simp [bit, lower, h, hj]

theorem bit_rising (now next : UInt32) (j : Nat) (hj : j < 32) :
    bit (rising now next) j = (bit next j && !bit now j) := by
  simp [bit, rising, hj]

/-- The word with bits 0, 1, … as listed. -/
def word (flags : List Bool) : UInt32 := UInt32.ofNat (pack flags)

end Gemv.Bits
