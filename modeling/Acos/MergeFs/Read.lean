import Acos.MergeFs.Model

/-! Reading through a handle: `custom_read` goes on where the handle stands, whatever offset it
is given, so it is right for reads in sequence. -/
namespace Acos.MergeFs
open Acos.CString Acos.MachineInt

/-- The bytes that a read is to give. -/
def slice (data : Bytes) (size off : ℕ) : Bytes := (data.drop off).take size

theorem slice_length (data : Bytes) (size off : ℕ) :
    (slice data size off).length = min size (data.length - off) := by
  simp [slice]

/-- The call gives the bytes from its offset on, and their number. -/
def AnswersRight (fh : Handle) (call : Call) : Prop :=
  (customRead fh call).2 =
    (((slice fh.data call.size call.off).length : ℤ), slice fh.data call.size call.off)

/-- All the calls of a sequence do. -/
def AllRight : Handle → List Call → Prop
  | _, [] => True
  | fh, call :: calls => AnswersRight fh call ∧ AllRight (customRead fh call).1 calls

/-- The read succeeds and transfers the `count` bytes that there are, a number that the returned
`int` can hold. -/
def Transfers (call : Call) (count : ℕ) : Prop :=
  ∃ limit, call.transfer = .ok limit ∧ count ≤ 1 + limit ∧ count < 2 ^ 31

/-- In a file of `n` bytes and from position `pos` on, each call is given the offset at which
the one before it ended, or has no bytes to read at either place. -/
def InSequence (n : ℕ) : ℕ → List Call → Prop
  | _, [] => True
  | pos, call :: calls =>
    (call.off = pos ∨ min call.size (n - pos) = 0 ∧ min call.size (n - call.off) = 0) ∧
      Transfers call (min call.size (n - pos)) ∧
      InSequence n (pos + min call.size (n - pos)) calls

/-- The file of `n` zeros with a one at `k`. -/
def oneAt (n k : ℕ) : Bytes := (List.replicate n 0).set k 1

theorem oneAt_length (n k : ℕ) : (oneAt n k).length = n := by
  simp [oneAt]

theorem slice_oneAt_ne {n p q s t : ℕ} (hpq : p < q) (hs : 0 < s) (ht : 0 < t) (hn : q < n) :
    slice (oneAt n p) s p ≠ slice (oneAt n p) t q := by
  intro heq
  have hhead := congrArg List.head? heq
  unfold slice oneAt at hhead
  rw [List.head?_take, List.head?_take, if_neg (by omega), if_neg (by omega), List.head?_drop,
    List.head?_drop, List.getElem?_set_self (by simp; omega),
    List.getElem?_set_ne (by omega)] at hhead
  simp [hn] at hhead

/-- Two places give the same bytes in every file if and only if they are one place, or there
is nothing to read at either. -/
theorem slices_eq_iff (n s t p q : ℕ) :
    (∀ data : Bytes, data.length = n → slice data s p = slice data t q) ↔
      min s (n - p) = min t (n - q) ∧ (p = q ∨ min s (n - p) = 0) := by
  constructor
  · intro h
    have hlen := congrArg List.length (h (List.replicate n 0) (by simp))
    simp only [slice_length, List.length_replicate] at hlen
    refine ⟨hlen, ?_⟩
    by_contra hnot
    rw [not_or] at hnot
    rcases Nat.lt_or_gt_of_ne hnot.1 with hlt | hlt
    · exact slice_oneAt_ne hlt (by omega) (by omega) (by omega) (h (oneAt n p) (oneAt_length n p))
    · exact slice_oneAt_ne hlt (by omega) (by omega) (by omega)
        (h (oneAt n q) (oneAt_length n q)).symm
  · rintro ⟨hlen, rfl | hzero⟩ data rfl
    · unfold slice
      rw [List.take_eq_take_min, List.length_drop, hlen, ← List.length_drop,
        ← List.take_eq_take_min]
    · have hleft : slice data s p = [] := by
        apply List.eq_nil_of_length_eq_zero
        rw [slice_length, hzero]
      have hright : slice data t q = [] := by
        apply List.eq_nil_of_length_eq_zero
        rw [slice_length, ← hlen, hzero]
      rw [hleft, hright]

/-- What a call does when its `read` does not fail. -/
theorem customRead_ok {fh : Handle} {call : Call} {limit : ℕ} (h : call.transfer = .ok limit) :
    customRead fh call =
      (⟨fh.data, fh.pos + min (min call.size (1 + limit)) (fh.data.length - fh.pos)⟩,
        i32 (min (min call.size (1 + limit)) (fh.data.length - fh.pos) : ℕ),
        slice fh.data (min call.size (1 + limit)) fh.pos) := by
  have hlen := slice_length fh.data (min call.size (1 + limit)) fh.pos
  rw [customRead, h]
  unfold slice at hlen ⊢
  simp only [hlen]

/-- One call is right for every file of `n` bytes. -/
theorem answersRight_iff (n pos : ℕ) (call : Call) :
    (∀ data : Bytes, data.length = n → AnswersRight ⟨data, pos⟩ call) ↔
      (call.off = pos ∨ min call.size (n - pos) = 0 ∧ min call.size (n - call.off) = 0) ∧
        Transfers call (min call.size (n - pos)) := by
  cases htransfer : call.transfer with
  | error errno =>
    have hpos := errno.pos
    constructor
    · intro h
      have hvalue := congrArg Prod.fst (h (List.replicate n 0) (by simp))
      simp only [customRead, htransfer] at hvalue
      omega
    · rintro ⟨-, limit, hok, -⟩
      rw [htransfer] at hok
      cases hok
  | ok limit =>
    have hbytes := slices_eq_iff n (min call.size (1 + limit)) call.size pos call.off
    constructor
    · intro h
      have hslices := hbytes.mp fun data hdata => by
        have hright := congrArg (fun r => r.2) (h data hdata)
        rw [customRead_ok htransfer] at hright
        exact hright
      have hvalue := congrArg Prod.fst (h (List.replicate n 0) (by simp))
      rw [customRead_ok htransfer, slice_length, List.length_replicate] at hvalue
      have hint : min (min call.size (1 + limit)) (n - pos) < 2 ^ 31 := by
        simp only [i32] at hvalue
        omega
      refine ⟨by omega, limit, htransfer, by omega, by omega⟩
    · rintro ⟨hplace, limit', hok, hlimit, hint⟩ data hdata
      rw [htransfer] at hok
      cases hok
      have hlen : min (min call.size (1 + limit)) (n - pos) = min call.size (n - call.off) := by
        omega
      have hslices := hbytes.mpr ⟨hlen, by omega⟩ data hdata
      unfold AnswersRight
      rw [customRead_ok htransfer, slice_length]
      simp only [hslices, hdata, hlen]
      rw [i32_of_range (by omega) (by omega)]

/-- A sequence of calls is right for every file of `n` bytes. -/
theorem allRight_iff (n pos : ℕ) (calls : List Call) :
    (∀ data : Bytes, data.length = n → AllRight ⟨data, pos⟩ calls) ↔ InSequence n pos calls := by
  induction calls generalizing pos with
  | nil => simp [AllRight, InSequence]
  | cons call calls ih =>
    have hcall := answersRight_iff n pos call
    have hnext (data : Bytes) (hdata : data.length = n)
        (htransfers : Transfers call (min call.size (n - pos))) :
        (customRead ⟨data, pos⟩ call).1 = ⟨data, pos + min call.size (n - pos)⟩ := by
      obtain ⟨limit, hok, hlimit, -⟩ := htransfers
      rw [customRead_ok hok, hdata]
      have hcount : min (min call.size (1 + limit)) (n - pos) = min call.size (n - pos) := by omega
      rw [hcount]
    simp only [AllRight, InSequence]
    constructor
    · intro h
      obtain ⟨hplace, htransfers⟩ := hcall.mp fun data hdata => (h data hdata).1
      refine ⟨hplace, htransfers, (ih _).mp fun data hdata => ?_⟩
      rw [← hnext data hdata htransfers]
      exact (h data hdata).2
    · rintro ⟨hplace, htransfers, hrest⟩ data hdata
      refine ⟨hcall.mpr ⟨hplace, htransfers⟩ data hdata, ?_⟩
      rw [hnext data hdata htransfers]
      exact (ih _).mpr hrest data hdata

/-- A file that is opened stands at its start. -/
theorem customOpen_pos {kernel : Kernel} {fs : FileSystem} {path : Bytes} {flags : ℕ} {value : ℤ}
    {fh : Handle} (h : customOpen kernel fs path flags = some (value, some fh)) : fh.pos = 0 := by
  unfold customOpen at h
  obtain ⟨my_file, -, hopen⟩ := Option.map_eq_some_iff.mp h
  split_ifs at hopen
  · simp at hopen
  · simp at hopen
  · cases hfile : kernel.openFile my_file.path_ with
    | error errno => simp [hfile] at hopen
    | ok data =>
      simp only [hfile, Prod.mk.injEq, Option.some.injEq] at hopen
      rw [← hopen.2]

/-- A kernel with one layer `l` and a file of these bytes under every name. -/
def fileKernel (data : Bytes) : Kernel where
  stat _ := .ok ⟨0, 0⟩
  openFile _ := .ok data
  opendir _ := none

def layer : FileSystem := ⟨[[108]], by decide, by decide⟩

theorem customOpen_file (data : Bytes) :
    customOpen (fileKernel data) layer [47, 97] O_RDONLY = some (0, some ⟨data, 0⟩) := rfl

/-- For the files of `n` bytes that `custom_open` opens, a sequence of calls of `custom_read`
gives the bytes it is asked for if and only if the calls are in sequence. -/
theorem custom_read_iff (n : ℕ) (calls : List Call) :
    (∀ kernel fs path flags fh, customOpen kernel fs path flags = some (0, some fh) →
      fh.data.length = n → AllRight fh calls) ↔ InSequence n 0 calls := by
  rw [← allRight_iff n 0 calls]
  constructor
  · intro h data hdata
    exact h _ _ _ _ _ (customOpen_file data) hdata
  · intro h kernel fs path flags fh hopen hlen
    have hfh : fh = ⟨fh.data, 0⟩ := by rw [← customOpen_pos hopen]
    rw [hfh]
    exact h fh.data hlen

/-- The first byte of a file, read twice. -/
def readTwice : List Call := [⟨1, 0, .ok 0⟩, ⟨1, 0, .ok 0⟩]

/-- The second read of the first byte gives the second byte. -/
theorem custom_read_twice :
    customOpen (fileKernel [120, 121]) layer [47, 97] O_RDONLY = some (0, some ⟨[120, 121], 0⟩) ∧
      (customRead ⟨[120, 121], 0⟩ ⟨1, 0, .ok 0⟩) = (⟨[120, 121], 1⟩, 1, [120]) ∧
      (customRead ⟨[120, 121], 1⟩ ⟨1, 0, .ok 0⟩) = (⟨[120, 121], 2⟩, 1, [121]) ∧
      ¬ AllRight ⟨[120, 121], 0⟩ readTwice := by
  have hfirst : customRead ⟨[120, 121], 0⟩ ⟨1, 0, .ok 0⟩ = (⟨[120, 121], 1⟩, 1, [120]) := by
    rw [customRead_ok rfl]
    decide
  have hsecond : customRead ⟨[120, 121], 1⟩ ⟨1, 0, .ok 0⟩ = (⟨[120, 121], 2⟩, 1, [121]) := by
    rw [customRead_ok rfl]
    decide
  refine ⟨customOpen_file _, hfirst, hsecond, ?_⟩
  rintro ⟨-, hright, -⟩
  rw [hfirst] at hright
  unfold AnswersRight at hright
  rw [hsecond] at hright
  revert hright
  decide

end Acos.MergeFs
