import Acos.Lib.MachineInt
import Mathlib.Data.List.Basic

/-! Arrays of `int32_t` as bytes, the lowest byte first. -/
namespace Acos.IntBytes
open Acos.MachineInt

def IsInt32 (x : ℤ) : Prop := -2 ^ 31 ≤ x ∧ x < 2 ^ 31

instance (x : ℤ) : Decidable (IsInt32 x) := inferInstanceAs (Decidable (_ ∧ _))

def byteOf (x : ℤ) : UInt8 := UInt8.ofNat (x % 256).toNat

def encodeInt (x : ℤ) : List UInt8 :=
  [byteOf x, byteOf (x / 2 ^ 8), byteOf (x / 2 ^ 16), byteOf (x / 2 ^ 24)]

def decodeInt (a b c d : UInt8) : ℤ :=
  i32 (a.toNat + 2 ^ 8 * b.toNat + 2 ^ 16 * c.toNat + 2 ^ 24 * d.toNat)

def encodeInts (xs : List ℤ) : List UInt8 := xs.flatMap encodeInt

def decodeInts : List UInt8 → List ℤ
  | a :: b :: c :: d :: bytes => decodeInt a b c d :: decodeInts bytes
  | _ => []

@[simp] theorem encodeInts_nil : encodeInts [] = [] := rfl

theorem encodeInts_cons (x : ℤ) (xs : List ℤ) :
    encodeInts (x :: xs) = encodeInt x ++ encodeInts xs := rfl

@[simp] theorem encodeInts_append (xs ys : List ℤ) :
    encodeInts (xs ++ ys) = encodeInts xs ++ encodeInts ys := by
  simp [encodeInts]

@[simp] theorem encodeInts_length (xs : List ℤ) : (encodeInts xs).length = 4 * xs.length := by
  induction xs with
  | nil => rfl
  | cons x xs ih =>
    rw [encodeInts_cons, List.length_append, ih, List.length_cons]
    simp only [encodeInt, List.length_cons, List.length_nil]
    omega

theorem byteOf_toNat (x : ℤ) : ((byteOf x).toNat : ℤ) = x % 256 := by
  unfold byteOf
  rw [UInt8.toNat_ofNat']
  omega

theorem decodeInt_isInt32 (a b c d : UInt8) : IsInt32 (decodeInt a b c d) := by
  unfold IsInt32 decodeInt i32
  omega

theorem decodeInt_encodeInt {x : ℤ} (h : IsInt32 x) :
    decodeInt (byteOf x) (byteOf (x / 2 ^ 8)) (byteOf (x / 2 ^ 16)) (byteOf (x / 2 ^ 24)) = x := by
  obtain ⟨hlo, hhi⟩ := h
  simp only [decodeInt, byteOf_toNat, i32]
  omega

theorem decodeInts_encodeInts {xs : List ℤ} (h : ∀ x ∈ xs, IsInt32 x) :
    decodeInts (encodeInts xs) = xs := by
  induction xs with
  | nil => rfl
  | cons x xs ih =>
    have hcons : decodeInts (encodeInts (x :: xs)) = decodeInt (byteOf x) (byteOf (x / 2 ^ 8))
        (byteOf (x / 2 ^ 16)) (byteOf (x / 2 ^ 24)) :: decodeInts (encodeInts xs) := rfl
    rw [hcons, decodeInt_encodeInt (h x (by simp)), ih fun y hy => h y (by simp [hy])]

theorem byteOf_eq {x : ℤ} {b : UInt8} (h : x % 256 = b.toNat) : byteOf x = b := by
  apply UInt8.toNat_inj.mp
  have hbyte := byteOf_toNat x
  omega

theorem encodeInt_decodeInt (a b c d : UInt8) : encodeInt (decodeInt a b c d) = [a, b, c, d] := by
  have ha := a.toNat_lt
  have hb := b.toNat_lt
  have hc := c.toNat_lt
  have hd := d.toNat_lt
  have hvalue : ∃ k : ℤ, decodeInt a b c d =
      a.toNat + 2 ^ 8 * b.toNat + 2 ^ 16 * c.toNat + 2 ^ 24 * d.toNat + 2 ^ 32 * k := by
    refine ⟨(decodeInt a b c d - (a.toNat + 2 ^ 8 * b.toNat + 2 ^ 16 * c.toNat +
      2 ^ 24 * d.toNat)) / 2 ^ 32, ?_⟩
    unfold decodeInt i32
    omega
  obtain ⟨k, hk⟩ := hvalue
  unfold encodeInt
  rw [byteOf_eq (b := a) (by omega), byteOf_eq (b := b) (by omega), byteOf_eq (b := c) (by omega),
    byteOf_eq (b := d) (by omega)]

/-- Every block of `4 * n` bytes is an array of `n` integers. -/
theorem exists_encodeInts {n : ℕ} {bytes : List UInt8} (h : bytes.length = 4 * n) :
    encodeInts (decodeInts bytes) = bytes ∧ (decodeInts bytes).length = n ∧
      ∀ x ∈ decodeInts bytes, IsInt32 x := by
  induction n generalizing bytes with
  | zero =>
    have hnil : bytes = [] := List.length_eq_zero_iff.mp h
    rw [hnil]
    simp [decodeInts]
  | succ n ih =>
    obtain ⟨a, b, c, d, rest, rfl⟩ : ∃ a b c d rest, bytes = a :: b :: c :: d :: rest := by
      match bytes, h with
      | a :: b :: c :: d :: rest, _ => exact ⟨a, b, c, d, rest, rfl⟩
    have hrest : rest.length = 4 * n := by
      simp only [List.length_cons] at h
      omega
    obtain ⟨henc, hlen, hrange⟩ := ih hrest
    have hdec : decodeInts (a :: b :: c :: d :: rest) = decodeInt a b c d :: decodeInts rest := by
      rw [decodeInts]
    refine ⟨?_, ?_, ?_⟩
    · rw [hdec, encodeInts_cons, encodeInt_decodeInt, henc, List.cons_append, List.cons_append,
        List.cons_append, List.cons_append, List.nil_append]
    · rw [hdec, List.length_cons, hlen]
    · intro x hx
      rw [hdec] at hx
      rcases List.mem_cons.mp hx with heq | hx
      · rw [heq]
        exact decodeInt_isInt32 a b c d
      · exact hrange x hx

end Acos.IntBytes
