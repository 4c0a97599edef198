import Mathlib.Algebra.Group.Nat.Defs
import Mathlib.Data.List.Induction

/-!
# Big-endian numbers

Numbers as bytes of a width, the most significant first.
-/

namespace ShortReel.BigEndian

abbrev Bytes := List UInt8

/-- `int.from_bytes` of bytes in order. -/
def fromBytes (bytes : Bytes) : ℕ :=
  bytes.foldl (fun value byte => value * 256 + byte.toNat) 0

def toBytes : ℕ → ℕ → Bytes
  | 0, _ => []
  | width + 1, n => toBytes width (n / 256) ++ [UInt8.ofNat (n % 256)]

variable {width n : ℕ} {bytes : Bytes}

@[simp] theorem length_toBytes : (toBytes width n).length = width := by
  induction width generalizing n with
  | zero => rfl
  | succ width ih => rw [toBytes, List.length_append, ih, List.length_singleton]

theorem fromBytes_concat (bytes : Bytes) (byte : UInt8) :
    fromBytes (bytes ++ [byte]) = fromBytes bytes * 256 + byte.toNat := by
  unfold fromBytes
  rw [List.foldl_append]
  rfl

theorem fromBytes_toBytes (h : n < 256 ^ width) : fromBytes (toBytes width n) = n := by
  induction width generalizing n with
  | zero =>
      obtain rfl := Nat.lt_one_iff.mp h
      rfl
  | succ width ih =>
      have hdiv : n / 256 < 256 ^ width := by
        rw [Nat.pow_succ] at h
        exact Nat.div_lt_of_lt_mul (Nat.mul_comm _ _ ▸ h)
      rw [toBytes, fromBytes_concat, ih hdiv, UInt8.toNat_ofNat_of_lt' (Nat.mod_lt n (by decide))]
      exact Nat.div_add_mod' n 256

theorem fromBytes_lt (bytes : Bytes) : fromBytes bytes < 256 ^ bytes.length := by
  induction bytes using List.reverseRecOn with
  | nil => exact Nat.one_pos
  | append_singleton bytes byte ih =>
      have hbyte := byte.toNat_lt
      rw [fromBytes_concat, List.length_append, List.length_singleton, Nat.pow_succ]
      omega

theorem toBytes_fromBytes (bytes : Bytes) : toBytes bytes.length (fromBytes bytes) = bytes := by
  induction bytes using List.reverseRecOn with
  | nil => rfl
  | append_singleton bytes byte ih =>
      have hbyte : byte.toNat < 256 := byte.toNat_lt
      have hdiv : (fromBytes bytes * 256 + byte.toNat) / 256 = fromBytes bytes := by omega
      have hmod : (fromBytes bytes * 256 + byte.toNat) % 256 = byte.toNat := by omega
      rw [fromBytes_concat, List.length_append, List.length_singleton, toBytes, hdiv, hmod, ih,
        UInt8.ofNat_toNat]

end ShortReel.BigEndian
