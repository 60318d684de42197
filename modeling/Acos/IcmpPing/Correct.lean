import Acos.Lib.CString
import Acos.Lib.OnesComplement
import Mathlib.Algebra.Group.Nat.Even

/-! The checksum of `inf22-1_posix_sockets_icmp-ping/main.c` over words of 16 bits, the low byte
first. -/
namespace Acos.IcmpPing
open Acos.CString Acos.OnesComplement

/-- The loop of `checksum` and the byte that is left over. -/
def checksumLoop : Bytes → ℕ → ℕ
  | a :: b :: rest, sum => checksumLoop rest ((sum + (a.toNat + 256 * b.toNat)) % 2 ^ 32)
  | [a], sum => (sum + a.toNat) % 2 ^ 32
  | [], sum => sum

def checksum (b : Bytes) : ℕ :=
  let sum := checksumLoop b 0
  let sum := (sum / 2 ^ 16 + sum % 2 ^ 16) % 2 ^ 32
  let sum := (sum + sum / 2 ^ 16) % 2 ^ 32
  (2 ^ 32 - 1 - sum) % 2 ^ 16

/-- The bytes of a `ushort`. -/
def ushortBytes (v : ℕ) : Bytes := [UInt8.ofNat v, UInt8.ofNat (v / 2 ^ 8)]

/-- The packet with the given bytes for the 32 bits of its checksum. -/
def icmpPacket (checksum : Bytes) : Bytes := [8, 0] ++ checksum ++ [1, 1, 1, 1]

/-- The checksum is stored as a `uint32_t`. -/
def makePingIcmpPacket : Bytes :=
  icmpPacket (ushortBytes (checksum (icmpPacket [0, 0, 0, 0])) ++ [0, 0])

/-- The words of a packet. -/
def words : Bytes → List ℕ
  | a :: b :: rest => (a.toNat + 256 * b.toNat) :: words rest
  | [a] => [a.toNat]
  | [] => []

section
variable {b front back : Bytes} {s sum v : ℕ}

theorem words_le (b : Bytes) : ∀ w ∈ words b, w ≤ 65535 := by
  induction b using words.induct with
  | case1 x y rest ih =>
    have hx := x.toNat_lt
    have hy := y.toNat_lt
    rw [words, List.forall_mem_cons]
    exact ⟨by omega, ih⟩
  | case2 x =>
    have hx := x.toNat_lt
    rw [words, List.forall_mem_singleton]
    omega
  | case3 => simp [words]

theorem words_sum_le (b : Bytes) : (words b).sum ≤ 65535 * ((b.length + 1) / 2) := by
  have hle := words_le b
  induction b using words.induct with
  | case1 x y rest ih =>
    rw [words, List.forall_mem_cons] at hle
    have hrest := ih hle.2
    rw [words, List.sum_cons, List.length_cons, List.length_cons]
    omega
  | case2 x =>
    rw [words, List.forall_mem_singleton] at hle
    rw [words, List.sum_singleton]
    simpa using hle
  | case3 => simp [words]

/-- The sum of the words of a packet has 31 bits at most. -/
theorem words_sum_lt (h : b.length ≤ 65534) : (words b).sum < 2 ^ 31 := by
  have hle := words_sum_le b
  omega

theorem words_append (hfront : Even front.length) (back : Bytes) :
    words (front ++ back) = words front ++ words back := by
  induction front using words.induct with
  | case1 x y rest ih =>
    have heven : Even rest.length := by simpa [Nat.even_add_one] using hfront
    simp only [List.cons_append, words, ih heven]
  | case2 x => simp at hfront
  | case3 => rfl

theorem checksumLoop_eq (h : sum + (words b).sum < 2 ^ 32) :
    checksumLoop b sum = sum + (words b).sum := by
  induction b using words.induct generalizing sum with
  | case1 x y rest ih =>
    rw [words, List.sum_cons] at h
    rw [checksumLoop, words, List.sum_cons, Nat.mod_eq_of_lt (by omega), ih (by omega)]
    omega
  | case2 x =>
    rw [words, List.sum_singleton] at h
    rw [checksumLoop, words, List.sum_singleton, Nat.mod_eq_of_lt h]
  | case3 => rfl

/-- Two additions of the carry are enough. -/
theorem foldCarry_foldCarry (h : s < 2 ^ 31) :
    foldCarry 65535 (foldCarry 65535 s) = canonical 65535 s := by
  have hfirst : foldCarry 65535 s < 2 ^ 15 + 2 ^ 16 := by
    unfold foldCarry
    omega
  have hsecond : foldCarry 65535 (foldCarry 65535 s) ≤ 65535 := by
    rw [foldCarry]
    omega
  rw [← canonical_of_le hsecond, canonical_foldCarry, canonical_foldCarry]

/-- `checksum` is the complement of the sum in ones' complement. -/
theorem checksum_eq (h : (words b).sum < 2 ^ 31) :
    checksum b = 65535 - canonical 65535 (words b).sum := by
  have hfold := foldCarry_foldCarry h
  have hloop : checksumLoop b 0 = 0 + (words b).sum := checksumLoop_eq (by omega)
  unfold foldCarry at hfold
  rw [checksum, hloop, ← hfold]
  generalize (words b).sum = s at h
  omega

theorem words_ushortBytes (h : v < 2 ^ 16) (back : Bytes) :
    words (ushortBytes v ++ back) = v :: words back := by
  simp only [ushortBytes, List.cons_append, List.nil_append, words, UInt8.toNat_ofNat']
  congr 1
  omega

theorem words_field (hfront : Even front.length) (h : v < 2 ^ 16) (back : Bytes) :
    words (front ++ (ushortBytes v ++ back)) = words front ++ v :: words back := by
  rw [words_append hfront, words_ushortBytes h]

theorem ushortBytes_length (v : ℕ) : (ushortBytes v).length = 2 := rfl

/-- The checksum of a packet is the complement of the sum of its words, which does
not overflow and is a word after two additions of the carry; with the checksum in its place the
checksum of the packet is 0. -/
theorem checksum_correct (hfront : Even front.length)
    (hlen : (front ++ (ushortBytes 0 ++ back)).length ≤ 65534) :
    checksum (front ++ (ushortBytes 0 ++ back)) =
        65535 - onesSum 65535 (words (front ++ (ushortBytes 0 ++ back))) ∧
      checksum (front ++ (ushortBytes (checksum (front ++ (ushortBytes 0 ++ back))) ++ back)) = 0 ∧
      ∀ v < 2 ^ 16, (words (front ++ (ushortBytes v ++ back))).sum < 2 ^ 32 ∧
        foldCarry 65535 (foldCarry 65535 (words (front ++ (ushortBytes v ++ back))).sum) =
          onesSum 65535 (words (front ++ (ushortBytes v ++ back))) := by
  have hlt : ∀ v, (words (front ++ (ushortBytes v ++ back))).sum < 2 ^ 31 := by
    intro v
    apply words_sum_lt
    simpa only [List.length_append, ushortBytes_length] using hlen
  have hones : ∀ v, onesSum 65535 (words (front ++ (ushortBytes v ++ back))) =
      canonical 65535 (words (front ++ (ushortBytes v ++ back))).sum :=
    fun v => onesSum_eq (by decide) (words_le _)
  have hvalue := checksum_eq (hlt 0)
  refine ⟨by rw [hvalue, hones], ?_, fun v _ => ⟨by have := hlt v; omega, ?_⟩⟩
  · have hword : checksum (front ++ (ushortBytes 0 ++ back)) < 2 ^ 16 := by omega
    have hsum : (words (front ++
          (ushortBytes (checksum (front ++ (ushortBytes 0 ++ back))) ++ back))).sum =
        (words (front ++ (ushortBytes 0 ++ back))).sum +
          (65535 - canonical 65535 (words (front ++ (ushortBytes 0 ++ back))).sum) := by
      rw [words_field hfront hword, hvalue, words_field hfront (by decide)]
      simp only [List.sum_append, List.sum_cons]
      omega
    rw [checksum_eq (hlt _), hsum, canonical_add_complement (by decide)]
  · rw [foldCarry_foldCarry (hlt v), hones]

end

theorem icmpPacket_split (v : ℕ) :
    icmpPacket (ushortBytes v ++ [0, 0]) = [8, 0] ++ (ushortBytes v ++ [0, 0, 1, 1, 1, 1]) := rfl

/-- The packet that `ping` sends, whose checksum field has 32 bits. -/
theorem checksum_ping : checksum makePingIcmpPacket = 0 := by
  have hfront : Even ([8, 0] : Bytes).length := by decide
  rw [makePingIcmpPacket, icmpPacket_split]
  exact (checksum_correct hfront (by decide)).2.1

end Acos.IcmpPing
