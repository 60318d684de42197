import Acos.Lib.CString
import Acos.Lib.IntBytes

/-! `overlap_image` of `inf06-4_generic_sse-blend-images/main.c` on the bytes of its files. A step
that C does not define has no result: an `int` that overflows, a buffer of a negative size. -/
namespace Acos.BlendImages
open Acos.CString Acos.IntBytes

structure Pixel where
  a : UInt8
  b : UInt8
  g : UInt8
  r : UInt8
  deriving DecidableEq

def Pixel.bytes (p : Pixel) : Bytes := [p.a, p.b, p.g, p.r]

/-- The value of an `int`. -/
def checked (x : ℤ) : Option ℤ := if IsInt32 x then some x else none

/-- `fread` over the bytes `old`, and the rest of the stream. What the stream does not have stays as
it was. -/
def fread (old stream : Bytes) : Bytes × Bytes :=
  (stream.take old.length ++ old.drop stream.length, stream.drop old.length)

/-- `fread` over a pixel. -/
def freadPixel (old : Pixel) : Bytes → Pixel × Bytes
  | a :: b :: g :: r :: rest => (⟨a, b, g, r⟩, rest)
  | [a, b, g] => (⟨a, b, g, old.r⟩, [])
  | [a, b] => (⟨a, b, old.g, old.r⟩, [])
  | [a] => (⟨a, old.b, old.g, old.r⟩, [])
  | [] => (old, [])

/-- The bytes of a new buffer are `junk`. -/
def copyBytes (junk : ℕ → UInt8) (N : ℤ) (source : Bytes) : Option (Bytes × Bytes) :=
  if 0 ≤ N then some (fread ((List.range N.toNat).map junk) source) else none

/-- `fseek` does nothing if it would go in front of the file. -/
def skipBytes (N : ℤ) (source : Bytes) : Bytes := source.drop N.toNat

def valueOf : Bytes → ℤ
  | [a, b, c, d] => decodeInt a b c d
  | _ => 0

/-- A value of four bytes, those bytes, and the rest of the stream. -/
def copyValue (junk : ℕ → UInt8) (source : Bytes) : ℤ × Bytes × Bytes :=
  let (value, source) := fread ((List.range 4).map junk) source
  (valueOf value, value, source)

/-- The pixels that are written, and the rest of `source1`. -/
def copyPixels (combine : Pixel → Pixel → Pixel) :
    ℕ → Pixel → Pixel → Bytes → Bytes → List Pixel × Bytes
  | 0, _, _, source1, _ => ([], source1)
  | n + 1, pixel1, pixel2, source1, source2 =>
    let (pixel1, source1) := freadPixel pixel1 source1
    let (pixel2, source2) := freadPixel pixel2 source2
    let (pixels, source1) := copyPixels combine n pixel1 pixel2 source1 source2
    (combine pixel1 pixel2 :: pixels, source1)

/-- What is written to `result`. -/
def overlapImage (combine : Pixel → Pixel → Pixel) (junk : ℕ → UInt8) (pixel1 pixel2 : Pixel)
    (source1 source2 : Bytes) : Option Bytes := do
  let (header, source1) ← copyBytes junk 2 source1
  let (file_size, sizeField, source1) := copyValue junk source1
  let (reserved, source1) ← copyBytes junk (10 - (2 + 4)) source1
  let (pixels_array_offset, offsetField, source1) := copyValue junk source1
  let (headerSize, source1) ← copyBytes junk (18 - (10 + 4)) source1
  let (width, widthField, source1) := copyValue junk source1
  let (height, heightField, source1) := copyValue junk source1
  let pixels_count ← checked (width * height)
  let gap ← checked (pixels_array_offset - (18 + (4 + 4)))
  let (info, source1) ← copyBytes junk gap source1
  let source2 := skipBytes pixels_array_offset source2
  let (pixels, source1) := copyPixels combine pixels_count.toNat pixel1 pixel2 source1 source2
  let size ← checked (pixels_count * 4)
  let offset ← checked (pixels_array_offset + size)
  let rest ← checked (file_size - offset)
  let (tail, _) ← copyBytes junk rest source1
  some (header ++ sizeField ++ reserved ++ offsetField ++ headerSize ++ widthField ++ heightField ++
    info ++ pixels.flatMap Pixel.bytes ++ tail)

end Acos.BlendImages
