import Acos.BlendImages.Model
import Mathlib.Data.List.Zip

/-! The pixels of the second image are read where those of the first begin, and their number is
negative if the rows stand from top to bottom. -/
namespace Acos.BlendImages
open Acos.CString Acos.IntBytes Acos.MachineInt

/-- An image of 32 bits a pixel. `info` is what stands between its height and its pixels. -/
structure Bmp where
  reserved : Bytes
  headerSize : ℕ
  width : ℤ
  height : ℤ
  info : Bytes
  pixels : List Pixel
  tail : Bytes
  reserved_length : reserved.length = 4
  header_fits : 40 ≤ headerSize ∧ headerSize ≤ 12 + info.length
  planes_bits : [1, 0, 32, 0] <+: info
  width_range : 0 < width ∧ IsInt32 width
  height_range : height ≠ 0 ∧ IsInt32 height
  pixels_length : pixels.length = width.natAbs * height.natAbs
  size_lt : 26 + info.length + 4 * pixels.length + tail.length < 2 ^ 32

namespace Bmp

/-- Where the pixels begin. -/
def offset (s : Bmp) : ℕ := 26 + s.info.length

def size (s : Bmp) : ℕ := s.offset + 4 * s.pixels.length + s.tail.length

/-- The header as far as the height. -/
def header (s : Bmp) : Bytes :=
  [66, 77] ++ encodeInt s.size ++ s.reserved ++ encodeInt s.offset ++ encodeInt s.headerSize ++
    encodeInt s.width ++ encodeInt s.height

/-- What stands in front of the pixels. -/
def front (s : Bmp) : Bytes := s.header ++ s.info

def bytes (s : Bmp) : Bytes := s.front ++ s.pixels.flatMap Pixel.bytes ++ s.tail

end Bmp

/-- `combine` makes the same of the pixels `qs` and `qs'`. -/
def Alike (combine : Pixel → Pixel → Pixel) (ps qs qs' : List Pixel) : Prop :=
  ∀ x ∈ ps.zip (qs.zip qs'), combine x.1 x.2.1 = combine x.1 x.2.2

/-- The first image with its pixels combined with those of the second. -/
def blended (combine : Pixel → Pixel → Pixel) (s1 s2 : Bmp) : Bytes :=
  s1.front ++ (List.zipWith combine s1.pixels s2.pixels).flatMap Pixel.bytes ++ s1.tail

/-- `n` pixels of a stream; `old` is what is there before. -/
def readPixels : ℕ → Pixel → Bytes → List Pixel
  | 0, _, _ => []
  | n + 1, old, stream =>
    (freadPixel old stream).1 :: readPixels n (freadPixel old stream).1 (freadPixel old stream).2

section
variable {combine : Pixel → Pixel → Pixel} {junk : ℕ → UInt8} {pixel1 pixel2 : Pixel}
  {s s1 s2 : Bmp} {front rest old source : Bytes} {n : ℕ}

theorem fread_append (h : old.length = front.length) :
    fread old (front ++ rest) = (front, rest) := by
  rw [fread, h, List.take_left, List.drop_left, List.drop_eq_nil_of_le (by simp [h]),
    List.append_nil]

theorem fread_length (old source : Bytes) : (fread old source).1.length = old.length := by
  rw [fread, List.length_append, List.length_take, List.length_drop]
  omega

theorem copyBytes_append {N : ℤ} (h : N = front.length) :
    copyBytes junk N (front ++ rest) = some (front, rest) := by
  rw [copyBytes, if_pos (by omega), fread_append (by simp [h])]

theorem copyValue_append (x : ℤ) :
    copyValue junk (encodeInt x ++ rest) = (i32 x, encodeInt x, rest) := by
  have hvalue : valueOf (encodeInt x) = i32 x := by
    simp only [encodeInt, valueOf, decodeInt, byteOf_toNat, i32]
    omega
  rw [← hvalue, copyValue, fread_append (by simp [encodeInt])]

theorem copyPixels_eq (ps : List Pixel) (pixel1 pixel2 : Pixel) (rest source2 : Bytes) :
    copyPixels combine ps.length pixel1 pixel2 (ps.flatMap Pixel.bytes ++ rest) source2 =
      (List.zipWith combine ps (readPixels ps.length pixel2 source2), rest) := by
  induction ps generalizing pixel1 pixel2 source2 with
  | nil => rfl
  | cons p ps ih =>
    have hread : freadPixel pixel1 ((p :: ps).flatMap Pixel.bytes ++ rest) =
        (p, ps.flatMap Pixel.bytes ++ rest) := rfl
    have hrest := ih p (freadPixel pixel2 source2).1 (freadPixel pixel2 source2).2
    rw [List.length_cons, copyPixels, hread, readPixels, List.zipWith_cons_cons]
    simp only [hrest]

theorem readPixels_length (n : ℕ) (old : Pixel) (source : Bytes) :
    (readPixels n old source).length = n := by
  induction n generalizing old source with
  | zero => rfl
  | succ n ih => rw [readPixels, List.length_cons, ih]

theorem readPixels_flatMap (ps : List Pixel) (old : Pixel) (rest : Bytes) :
    readPixels ps.length old (ps.flatMap Pixel.bytes ++ rest) = ps := by
  induction ps generalizing old with
  | nil => rfl
  | cons p ps ih => exact congrArg (p :: ·) (ih p)

theorem flatMap_bytes_length (ps : List Pixel) :
    (ps.flatMap Pixel.bytes).length = 4 * ps.length := by
  induction ps with
  | nil => rfl
  | cons p ps ih =>
    rw [List.flatMap_cons, List.length_append, ih, List.length_cons, Pixel.bytes]
    simp only [List.length_cons, List.length_nil]
    omega

theorem flatMap_bytes_inj {ps qs : List Pixel} (h : ps.length = qs.length) :
    ps.flatMap Pixel.bytes = qs.flatMap Pixel.bytes ↔ ps = qs := by
  constructor
  · intro heq
    have hps := readPixels_flatMap ps ⟨0, 0, 0, 0⟩ []
    rw [heq, h, readPixels_flatMap] at hps
    exact hps.symm
  · exact congrArg (List.flatMap Pixel.bytes)

theorem zipWith_eq_iff {ps qs qs' : List Pixel} (h : qs.length = ps.length)
    (h' : qs'.length = ps.length) :
    List.zipWith combine ps qs = List.zipWith combine ps qs' ↔ Alike combine ps qs qs' := by
  induction ps generalizing qs qs' with
  | nil => simp [Alike]
  | cons p ps ih =>
    obtain ⟨q, qs, rfl⟩ := List.exists_cons_of_length_eq_add_one h
    obtain ⟨q', qs', rfl⟩ := List.exists_cons_of_length_eq_add_one h'
    have hrest := ih (Nat.succ.inj h) (Nat.succ.inj h')
    rw [List.zipWith_cons_cons, List.zipWith_cons_cons, List.cons.injEq, hrest, Alike, Alike,
      List.zip_cons_cons, List.zip_cons_cons, List.forall_mem_cons]

/-- What follows the height. -/
theorem overlapImage_header (s1 : Bmp) (source2 : Bytes) :
    overlapImage combine junk pixel1 pixel2 s1.bytes source2 = (do
      let n ← checked (s1.width * s1.height)
      let gap ← checked (i32 s1.offset - (18 + (4 + 4)))
      let (info, source1) ←
        copyBytes junk gap (s1.info ++ (s1.pixels.flatMap Pixel.bytes ++ s1.tail))
      let (pixels, source1) :=
        copyPixels combine n.toNat pixel1 pixel2 source1 (skipBytes (i32 s1.offset) source2)
      let size ← checked (n * 4)
      let offset ← checked (i32 s1.offset + size)
      let rest ← checked (i32 s1.size - offset)
      let (tail, _) ← copyBytes junk rest source1
      some (s1.header ++ info ++ pixels.flatMap Pixel.bytes ++ tail)) := by
  have hwidth := i32_of_range s1.width_range.2.1 s1.width_range.2.2
  have hheight := i32_of_range s1.height_range.2.1 s1.height_range.2.2
  have hmark (rest : Bytes) : copyBytes junk 2 ([66, 77] ++ rest) = some ([66, 77], rest) :=
    copyBytes_append rfl
  have hreserved (rest : Bytes) :
      copyBytes junk (10 - (2 + 4)) (s1.reserved ++ rest) = some (s1.reserved, rest) :=
    copyBytes_append (by rw [s1.reserved_length]; rfl)
  have hsize (rest : Bytes) : copyBytes junk (18 - (10 + 4)) (encodeInt s1.headerSize ++ rest) =
      some (encodeInt s1.headerSize, rest) := copyBytes_append rfl
  simp only [overlapImage, Bmp.bytes, Bmp.front, Bmp.header, List.append_assoc, Option.bind_eq_bind]
  rw [hmark, Option.bind_some]
  simp only [copyValue_append]
  rw [hreserved, Option.bind_some]
  simp only [copyValue_append]
  rw [hsize, Option.bind_some]
  simp only [copyValue_append, hwidth, hheight]

theorem Bmp.offset_lt (s : Bmp) : s.offset + 4 * s.pixels.length + s.tail.length < 2 ^ 32 :=
  s.size_lt

theorem checked_eq_some {x y : ℤ} : checked x = some y ↔ IsInt32 x ∧ x = y := by
  rw [checked, Option.ite_none_right_eq_some, Option.some.injEq]

theorem copyBytes_eq_some {N : ℤ} {x : Bytes × Bytes} :
    copyBytes junk N source = some x ↔
      0 ≤ N ∧ fread ((List.range N.toNat).map junk) source = x := by
  rw [copyBytes, Option.ite_none_right_eq_some, Option.some.injEq]

/-- When there is a result, and which. -/
theorem overlapImage_eq_some {source2 result : Bytes} {c : ℤ} (hc : s1.width * s1.height = c)
    {pixels : List Pixel} {after : Bytes}
    (hcopy : copyPixels combine c.toNat pixel1 pixel2 (s1.pixels.flatMap Pixel.bytes ++ s1.tail)
      (source2.drop s1.offset) = (pixels, after)) :
    overlapImage combine junk pixel1 pixel2 s1.bytes source2 = some result ↔
      s1.offset < 2 ^ 31 ∧ IsInt32 (c * 4) ∧ IsInt32 (s1.offset + c * 4) ∧
        IsInt32 (i32 s1.size - (s1.offset + c * 4)) ∧ s1.offset + c * 4 ≤ i32 s1.size ∧
        s1.front ++ pixels.flatMap Pixel.bytes ++
          (fread ((List.range (i32 s1.size - (s1.offset + c * 4)).toNat).map junk) after).1 =
            result := by
  have hoffset : s1.offset < 2 ^ 32 := by
    have hlt := s1.offset_lt
    omega
  have hinfo : (s1.offset : ℤ) - (18 + (4 + 4)) = s1.info.length := by
    unfold Bmp.offset
    omega
  rw [overlapImage_header]
  simp only [Option.bind_eq_bind, Option.bind_eq_some_iff, checked_eq_some, Option.some.injEq, hc]
  constructor
  · rintro ⟨n, ⟨-, rfl⟩, gap, ⟨-, rfl⟩, copied, hcopied, size, ⟨hcount, rfl⟩, offset, ⟨hend, rfl⟩,
      rest, ⟨hrest, rfl⟩, tail, htail, rfl⟩
    have hlt : s1.offset < 2 ^ 31 := by
      have hnonneg := (copyBytes_eq_some.mp hcopied).1
      unfold i32 at hnonneg
      omega
    simp only [i32_natCast hlt] at hcopied hend hrest htail ⊢
    rw [copyBytes_append hinfo] at hcopied
    obtain rfl := Option.some.inj hcopied
    simp only [skipBytes, Int.toNat_natCast, hcopy] at htail ⊢
    obtain ⟨hnonneg, rfl⟩ := copyBytes_eq_some.mp htail
    exact ⟨hlt, hcount, hend, hrest, by omega, rfl⟩
  · rintro ⟨hlt, hcount, hend, hrest, hle, rfl⟩
    rw [i32_natCast hlt]
    have hskip : skipBytes (s1.offset : ℤ) source2 = source2.drop s1.offset := rfl
    have hsmall : IsInt32 c := by
      unfold IsInt32 at hcount ⊢
      omega
    have hgap : IsInt32 ((s1.offset : ℤ) - (18 + (4 + 4))) := by
      unfold IsInt32
      omega
    refine ⟨c, ⟨hsmall, rfl⟩, _, ⟨hgap, rfl⟩, _, copyBytes_append hinfo, _, ⟨hcount, rfl⟩, _,
      ⟨hend, rfl⟩, _, ⟨hrest, rfl⟩, _, copyBytes_eq_some.mpr ⟨by omega, rfl⟩, ?_⟩
    simp only [hskip, hcopy, Bmp.front]

theorem Bmp.count_of_pos (s : Bmp) (h : 0 < s.height) : s.width * s.height = s.pixels.length := by
  rw [s.pixels_length, Nat.cast_mul, Int.natAbs_of_nonneg h.le, Int.natAbs_of_nonneg
    s.width_range.1.le]

theorem Bmp.count_of_neg (s : Bmp) (h : s.height < 0) : s.width * s.height = -s.pixels.length := by
  rw [s.pixels_length, Nat.cast_mul, Int.ofNat_natAbs_of_nonpos h.le, Int.natAbs_of_nonneg
    s.width_range.1.le, mul_neg, neg_neg]

theorem Bmp.pixels_pos (s : Bmp) : 0 < s.pixels.length := by
  have hwidth := s.width_range.1
  have hheight := s.height_range.1
  rw [s.pixels_length]
  exact Nat.mul_pos (by omega) (by omega)

theorem Bmp.front_length (s : Bmp) : s.front.length = s.offset := by
  simp only [Bmp.front, Bmp.header, List.length_append, List.length_cons, List.length_nil,
    encodeInt, s.reserved_length, Bmp.offset]

theorem blended_length (h : s2.pixels.length = s1.pixels.length) :
    (blended combine s1 s2).length = s1.size := by
  rw [blended, List.length_append, List.length_append, flatMap_bytes_length, List.length_zipWith,
    h, Nat.min_self, s1.front_length, Bmp.size]

/-- An image from the top to the bottom does not get a file of its own length. -/
theorem overlapImage_of_neg (hneg : s1.height < 0) {source2 result : Bytes}
    (h : overlapImage combine junk pixel1 pixel2 s1.bytes source2 = some result) :
    result.length ≠ s1.size := by
  have hpos := s1.pixels_pos
  have hlt := s1.offset_lt
  have hsize : s1.size = s1.offset + 4 * s1.pixels.length + s1.tail.length := rfl
  have hcopy : copyPixels combine (-(s1.pixels.length : ℤ)).toNat pixel1 pixel2
      (s1.pixels.flatMap Pixel.bytes ++ s1.tail) (source2.drop s1.offset) =
      ([], s1.pixels.flatMap Pixel.bytes ++ s1.tail) := by
    rw [Int.toNat_neg_natCast]
    rfl
  obtain ⟨-, -, -, -, hle, rfl⟩ := (overlapImage_eq_some (s1.count_of_neg hneg) hcopy).mp h
  rw [List.flatMap_nil, List.append_nil, List.length_append, s1.front_length, fread_length,
    List.length_map, List.length_range]
  rcases i32_natCast_cases (k := s1.size) (by omega) with heq | heq <;> rw [heq] at hle ⊢ <;> omega

/-- An image from the bottom to the top. -/
theorem overlapImage_of_pos (hheight : 0 < s1.height) {source2 result : Bytes} :
    overlapImage combine junk pixel1 pixel2 s1.bytes source2 = some result ↔
      s1.size < 2 ^ 31 ∧ s1.front ++ (List.zipWith combine s1.pixels (readPixels s1.pixels.length
        pixel2 (source2.drop s1.offset))).flatMap Pixel.bytes ++ s1.tail = result := by
  have hlt := s1.offset_lt
  have hsize : s1.size = s1.offset + 4 * s1.pixels.length + s1.tail.length := rfl
  have hcopy : copyPixels combine s1.pixels.length pixel1 pixel2
      (s1.pixels.flatMap Pixel.bytes ++ s1.tail) (source2.drop s1.offset) = _ :=
    copyPixels_eq s1.pixels pixel1 pixel2 s1.tail (source2.drop s1.offset)
  have htail (hint : s1.size < 2 ^ 31) : (fread ((List.range (i32 s1.size -
      (s1.offset + (s1.pixels.length : ℤ) * 4)).toNat).map junk) s1.tail).1 = s1.tail := by
    have hrest : (i32 s1.size - (s1.offset + (s1.pixels.length : ℤ) * 4)).toNat =
        s1.tail.length := by
      rw [i32_natCast hint]
      omega
    have hread : fread ((List.range s1.tail.length).map junk) (s1.tail ++ []) = (s1.tail, []) :=
      fread_append (by simp)
    rw [List.append_nil] at hread
    rw [hrest, hread]
  rw [overlapImage_eq_some (s1.count_of_pos hheight) hcopy]
  constructor
  · rintro ⟨hoffset, hcount, hend, hrest, hle, rfl⟩
    have hint : s1.size < 2 ^ 31 := by
      unfold i32 at hle
      omega
    exact ⟨hint, by rw [htail hint]⟩
  · rintro ⟨hint, rfl⟩
    rw [htail hint, i32_natCast hint]
    unfold IsInt32
    exact ⟨by omega, by omega, by omega, by omega, by omega, rfl⟩

theorem pixels_length_eq (hwidth : s1.width = s2.width) (hheight : s1.height = s2.height) :
    s2.pixels.length = s1.pixels.length := by
  rw [s1.pixels_length, s2.pixels_length, hwidth, hheight]

/-- With the pixels at the same place the right ones are read. -/
theorem readPixels_of_offset (hoffset : s1.offset = s2.offset)
    (hpixels : s2.pixels.length = s1.pixels.length) :
    readPixels s1.pixels.length pixel2 (s2.bytes.drop s1.offset) = s2.pixels := by
  rw [hoffset, ← hpixels, Bmp.bytes, List.append_assoc, ← s2.front_length, List.drop_left,
    readPixels_flatMap]

/-- Every `combine` makes the same of two rows of pixels only if they are the same. -/
theorem forall_alike_iff {ps qs qs' : List Pixel} (h : qs.length = ps.length)
    (h' : qs'.length = ps.length) : (∀ combine, Alike combine ps qs qs') ↔ qs = qs' := by
  constructor
  · intro hall
    have hsecond (qs : List Pixel) (h : qs.length = ps.length) :
        List.zipWith (fun _ q => q) ps qs = qs := by
      rw [← List.map_uncurry_zip_eq_zipWith]
      exact List.map_snd_zip h.le
    have hzip := (zipWith_eq_iff h h').mpr (hall fun _ q => q)
    rwa [hsecond qs h, hsecond qs' h'] at hzip
  · rintro rfl combine
    exact (zipWith_eq_iff h h').mp rfl

theorem overlapImage_blended_iff (hwidth : s1.width = s2.width) (hheight : s1.height = s2.height) :
    overlapImage combine junk pixel1 pixel2 s1.bytes s2.bytes = some (blended combine s1 s2) ↔
      0 < s1.height ∧ s1.size < 2 ^ 31 ∧
        Alike combine s1.pixels
          (readPixels s1.pixels.length pixel2 (s2.bytes.drop s1.offset)) s2.pixels := by
  have hpixels := pixels_length_eq hwidth hheight
  rcases lt_or_gt_of_ne s1.height_range.1 with hneg | hpos
  · constructor
    · intro h
      exact absurd (blended_length hpixels) (overlapImage_of_neg hneg h)
    · rintro ⟨hpos, -⟩
      exact absurd hpos (by omega)
  · have hread := readPixels_length s1.pixels.length pixel2 (s2.bytes.drop s1.offset)
    rw [overlapImage_of_pos hpos, blended, List.append_cancel_right_eq, List.append_cancel_left_eq,
      flatMap_bytes_inj (by rw [List.length_zipWith, List.length_zipWith, hread, hpixels]),
      zipWith_eq_iff hread hpixels]
    exact (and_iff_right hpos).symm

/-- The images are combined if and only if the rows stand from the bottom to the top, the sizes
are `int`s, and what stands in the second image where the pixels of the first begin is as good as
its pixels. With every `combine` it is so only where those are its pixels, as they are where both
begin at the same place. -/
theorem overlapImage_iff (hwidth : s1.width = s2.width) (hheight : s1.height = s2.height) :
    (∀ combine,
      overlapImage combine junk pixel1 pixel2 s1.bytes s2.bytes = some (blended combine s1 s2) ↔
        0 < s1.height ∧ s1.size < 2 ^ 31 ∧
          Alike combine s1.pixels
            (readPixels s1.pixels.length pixel2 (s2.bytes.drop s1.offset)) s2.pixels) ∧
    ((∀ combine,
      overlapImage combine junk pixel1 pixel2 s1.bytes s2.bytes = some (blended combine s1 s2)) ↔
        0 < s1.height ∧ s1.size < 2 ^ 31 ∧
          readPixels s1.pixels.length pixel2 (s2.bytes.drop s1.offset) = s2.pixels) ∧
    (s1.offset = s2.offset →
      readPixels s1.pixels.length pixel2 (s2.bytes.drop s1.offset) = s2.pixels) := by
  have hpixels := pixels_length_eq hwidth hheight
  have hread := readPixels_length s1.pixels.length pixel2 (s2.bytes.drop s1.offset)
  have heach (combine : Pixel → Pixel → Pixel) :
      overlapImage combine junk pixel1 pixel2 s1.bytes s2.bytes = some (blended combine s1 s2) ↔
        0 < s1.height ∧ s1.size < 2 ^ 31 ∧ Alike combine s1.pixels
          (readPixels s1.pixels.length pixel2 (s2.bytes.drop s1.offset)) s2.pixels :=
    overlapImage_blended_iff hwidth hheight
  have : Nonempty (Pixel → Pixel → Pixel) := ⟨fun p1 _ => p1⟩
  refine ⟨heach, ?_, fun hoffset => readPixels_of_offset hoffset hpixels⟩
  rw [forall_congr' heach, forall_and, forall_and, forall_const, forall_const,
    forall_alike_iff hread hpixels]

end

/-- An image of two rows of two pixels, with `gap` in front of them. -/
def twoRows (height : ℤ) (h : height = 2 ∨ height = -2) (gap pixels : List Pixel)
    (hgap : gap.length ≤ 100) (hpixels : pixels.length = 4) : Bmp where
  reserved := [0, 0, 0, 0]
  headerSize := 40
  width := 2
  height := height
  info := [1, 0, 32, 0] ++ (List.replicate 24 0 ++ gap.flatMap Pixel.bytes)
  pixels := pixels
  tail := []
  reserved_length := rfl
  header_fits := by
    simp only [List.length_append, List.length_replicate, List.length_cons, List.length_nil]
    omega
  planes_bits := List.prefix_append _ _
  width_range := by decide
  height_range := by rcases h with rfl | rfl <;> decide
  pixels_length := by rcases h with rfl | rfl <;> exact hpixels
  size_lt := by
    simp only [List.length_append, List.length_replicate, List.length_cons, List.length_nil,
      flatMap_bytes_length]
    omega

def fourColours (height : ℤ) (h : height = 2 ∨ height = -2) : Bmp :=
  twoRows height h [] [⟨255, 1, 2, 3⟩, ⟨255, 4, 5, 6⟩, ⟨0, 8, 7, 6⟩, ⟨255, 9, 9, 9⟩] (by decide) rfl

/-- Its pixels begin one pixel later, but all of them are of one colour. -/
def oneColour : Bmp :=
  twoRows 2 (.inl rfl) [⟨255, 7, 7, 7⟩] (List.replicate 4 ⟨255, 7, 7, 7⟩) (by decide) rfl

theorem overlapImage_bottom_up :
    overlapImage (fun p1 p2 => if p1.a = 0 then p2 else p1) (fun _ => 0) ⟨0, 0, 0, 0⟩ ⟨0, 0, 0, 0⟩
      (fourColours 2 (.inl rfl)).bytes oneColour.bytes =
        some (blended (fun p1 p2 => if p1.a = 0 then p2 else p1) (fourColours 2 (.inl rfl))
          oneColour) := by
  have hread : readPixels 4 ⟨0, 0, 0, 0⟩ (oneColour.bytes.drop 54) = oneColour.pixels := rfl
  have hall := (@overlapImage_iff (fun _ => 0) ⟨0, 0, 0, 0⟩ ⟨0, 0, 0, 0⟩ (fourColours 2 (.inl rfl))
    oneColour rfl rfl).2.1.mpr ⟨by decide, by decide, hread⟩
  exact hall fun p1 p2 => if p1.a = 0 then p2 else p1

/-- Two rows from the top to the bottom. -/
theorem overlapImage_top_down : ¬ ∀ (combine : Pixel → Pixel → Pixel) (junk : ℕ → UInt8)
    (pixel1 pixel2 : Pixel) (s1 s2 : Bmp), s1.width = s2.width → s1.height = s2.height →
      overlapImage combine junk pixel1 pixel2 s1.bytes s2.bytes = some (blended combine s1 s2) := by
  intro h
  have hneg : (fourColours (-2) (.inr rfl)).height < 0 := by decide
  have hresult := h (fun _ p2 => p2) (fun _ => 0) ⟨0, 0, 0, 0⟩ ⟨0, 0, 0, 0⟩
    (fourColours (-2) (.inr rfl)) (fourColours (-2) (.inr rfl)) rfl rfl
  exact overlapImage_of_neg hneg hresult (blended_length rfl)

end Acos.BlendImages
