import Acos.Lib.Ieee

/-! `classify` of `generic-ieee754-classify/main.c`. The union gives the bits of its argument. -/
namespace Acos.FloatClassify
open Acos.Ieee

/-- `float_class_t`. -/
inductive FloatClass where
  | plusZero | minusZero | plusInf | minusInf | plusRegular | minusRegular
  | plusDenormal | minusDenormal | signalingNaN | quietNaN
  deriving DecidableEq, Repr

/-- The number of a class. -/
def FloatClass.value : FloatClass → ℕ
  | plusZero => 0x00
  | minusZero => 0x01
  | plusInf => 0xF0
  | minusInf => 0xF1
  | plusRegular => 0x10
  | minusRegular => 0x11
  | plusDenormal => 0x20
  | minusDenormal => 0x21
  | signalingNaN => 0x30
  | quietNaN => 0x31

def mantissaSize : UInt64 := 0x34

def signSize : UInt64 := 0x1

def lastBit : UInt64 := 0x1

def expSize : UInt64 := 0xb

def maxExponent : UInt16 := 0x7FF

/-- `S`, which is one byte. -/
def sign (b : UInt64) : UInt8 := (b >>> (mantissaSize + expSize)).toUInt8

/-- `E`, which is two bytes. -/
def exponent (b : UInt64) : UInt16 := ((b <<< signSize) >>> (mantissaSize + signSize)).toUInt16

/-- `M`. -/
def mantissa (b : UInt64) : UInt64 := (b <<< (expSize + signSize)) >>> (expSize + signSize)

def classify (b : UInt64) : FloatClass :=
  let S := sign b
  let E := exponent b
  let M := mantissa b
  if E = 0 ∧ M = 0 ∧ S = 0 then .plusZero
  else if E = 0 ∧ M = 0 then .minusZero
  else if E = maxExponent ∧ M = 0 ∧ S = 0 then .plusInf
  else if E = maxExponent ∧ M = 0 then .minusInf
  else if E = maxExponent ∧ M ≠ 0 ∧ (M >>> (mantissaSize - signSize)) &&& lastBit = 0 then
    .signalingNaN
  else if E = maxExponent then .quietNaN
  else if E = 0 ∧ S = 0 then .plusDenormal
  else if E = 0 then .minusDenormal
  else if S = 0 then .plusRegular
  else .minusRegular

/-- What the classes are meant to be, by the value. -/
def floatClass (f : Format) : Datum → FloatClass
  | .nan quiet => if quiet then .quietNaN else .signalingNaN
  | .infinity negative => if negative then .minusInf else .plusInf
  | .number negative v =>
    if v = 0 then if negative then .minusZero else .plusZero
    else if |v| < f.minNormal then if v < 0 then .minusDenormal else .plusDenormal
    else if v < 0 then .minusRegular else .plusRegular

end Acos.FloatClassify
