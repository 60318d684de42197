import Acos.Lib.MachineInt
import Acos.Lib.Transition

/-! The allocator of `inf10-3-posix_mmap_swap-file-mem-allocator/main.c` on a heap of 32-bit
words, and a client that allocates, frees and writes. -/
namespace Acos.SwapAlloc
open Acos.MachineInt

/-- How a call can fail to return: an access outside the mapping, one of the two calls of
`exit`, or a loop that does not end. -/
inductive Fault where
  | outside
  | segmentation
  | wrongPtr
  | endless
  deriving DecidableEq, Repr

/-- The words that can be accessed from `mymalloc_ptr` on, and `f_size` in words. -/
structure Heap where
  words : List ℤ
  f_size : ℕ
  deriving DecidableEq, Repr

/-- `*(mymalloc_ptr + i)`. -/
def Heap.load (h : Heap) (i : ℤ) : Except Fault ℤ :=
  if 0 ≤ i then
    match h.words[i.toNat]? with
    | some v => .ok v
    | none => .error .outside
  else .error .outside

def Heap.store (h : Heap) (i v : ℤ) : Except Fault Heap :=
  if 0 ≤ i ∧ i < h.words.length then .ok { h with words := h.words.set i.toNat v }
  else .error .outside

/-- The words that `mmap` of `length` bytes makes accessible. -/
def mappedWords (length : ℕ) : ℕ := (length + 4095) / 4096 * 1024

/-- `myalloc_initialize` for a file of `f_size` words, once `mmap` has made the words of
`mapping` accessible. -/
def myallocInitialize (f_size : ℕ) (mapping : List ℤ) : Except Fault Heap :=
  if f_size ≤ mapping.length then
    Heap.store ⟨List.replicate f_size 0 ++ mapping.drop f_size, f_size⟩ 0 (i32 (-i32 f_size))
  else .error .outside

def alignBytes (bytes_count : ℤ) : ℤ :=
  if bytes_count = 0 then 0 else i32 ((bytes_count - 1) / 4 + 1)

/-- The loop of `find_first_empty_gap`: the index and the size of the gap. -/
def findLoop (h : Heap) (size : ℤ) : ℕ → ℤ → ℤ → Except Fault (ℤ × ℤ)
  | 0, _, _ => .error .endless
  | fuel + 1, i, max_gap =>
    if u64 i < h.f_size then
      (h.load i).bind fun mem_shift =>
        if 0 < mem_shift then findLoop h size fuel (i32 (i + mem_shift)) 0
        else if mem_shift < 0 then
          let mem_shift := i32 (-mem_shift)
          if size ≤ u64 (mem_shift + max_gap) then
            .ok (i64 (i - max_gap), u64 (mem_shift + max_gap))
          else findLoop h size fuel (i32 (i + mem_shift)) (u64 (max_gap + mem_shift))
        else .error .segmentation
    else .ok (-1, 0)

def findFirstEmptyGap (h : Heap) (size : ℤ) : Except Fault (ℤ × ℤ) :=
  if size = 0 then .ok (0, 0) else findLoop h size (h.f_size + 1) 0 0

/-- `my_malloc` from the search on: `gap_idx` and `gap_size` are its results. -/
def takeGap (h : Heap) (size gap_idx gap_size : ℤ) : Except Fault (Heap × Option ℤ) :=
  if gap_idx = -1 then .ok (h, none)
  else
    (if size < gap_size then h.store (i64 (gap_idx + size)) (i32 (-(gap_size - size)))
      else .ok h).bind fun h =>
        (h.store gap_idx (i32 size)).bind fun h => .ok (h, some (gap_idx + 1))

/-- `my_malloc`: the heap after it and the index of the word it returns, `none` for `NULL`. -/
def myMalloc (h : Heap) (size : ℤ) : Except Fault (Heap × Option ℤ) :=
  if size = 0 then .ok (h, none)
  else
    let size := u64 (u64 (alignBytes size) + 1)
    (findFirstEmptyGap h size).bind fun (gap_idx, gap_size) => takeGap h size gap_idx gap_size

/-- The loop of `my_free` that adds the free blocks after the one at `aligned_ptr`. -/
def freeLoop (h : Heap) (aligned_ptr : ℤ) : ℕ → ℤ → Except Fault ℤ
  | 0, _ => .error .endless
  | fuel + 1, empty_space =>
    if aligned_ptr + empty_space < h.f_size then
      (h.load (aligned_ptr + empty_space)).bind fun next =>
        if next < 0 then freeLoop h aligned_ptr fuel (i32 (empty_space + -next))
        else .ok empty_space
    else .ok empty_space

def myFree (h : Heap) (ptr : Option ℤ) : Except Fault Heap :=
  match ptr with
  | none => .error .wrongPtr
  | some ptr =>
    if h.f_size ≤ ptr ∨ ptr < 0 then .error .wrongPtr
    else
      let aligned_ptr := ptr - 1
      (h.load aligned_ptr).bind fun header =>
        if header ≤ 0 then .ok h
        else (freeLoop h aligned_ptr (h.f_size + 1) header).bind fun empty_space =>
          h.store aligned_ptr (i32 (-empty_space))

/-- A heap with what its user knows: the allocated blocks as start and length with the header
word, and the pointers freed since the last `my_malloc`. -/
structure State where
  heap : Heap
  live : List (ℕ × ℕ)
  freed : List ℕ
  deriving DecidableEq, Repr

def initial (heap : Heap) : State := ⟨heap, [], []⟩

inductive Label where
  | malloc (bytes : ℕ)
  | free (ptr : ℕ)
  | refree (ptr : ℕ)
  | write (index : ℕ) (value : ℤ)
  deriving DecidableEq, Repr

/-- The length of the block for a request: its bytes rounded up to words, and a header. -/
def blockWords (bytes : ℕ) : ℕ := (bytes + 3) / 4 + 1

def Allowed (s : State) : Label → Prop
  | .malloc bytes => bytes ≤ 2 ^ 31
  | .free ptr => ∃ block ∈ s.live, block.1 + 1 = ptr
  | .refree ptr => ptr ∈ s.freed
  | .write index value =>
    (∃ block ∈ s.live, block.1 < index ∧ index < block.1 + block.2) ∧
      -2 ^ 31 ≤ value ∧ value < 2 ^ 31

instance (s : State) (l : Label) : Decidable (Allowed s l) :=
  match l with
  | .malloc bytes => inferInstanceAs (Decidable (bytes ≤ 2 ^ 31))
  | .free ptr => inferInstanceAs (Decidable (∃ block ∈ s.live, block.1 + 1 = ptr))
  | .refree ptr => inferInstanceAs (Decidable (ptr ∈ s.freed))
  | .write index value =>
    inferInstanceAs (Decidable ((∃ block ∈ s.live, block.1 < index ∧ index < block.1 + block.2) ∧
      -2 ^ 31 ≤ value ∧ value < 2 ^ 31))

/-- What an operation of the client does. -/
def step (s : State) : Label → Except Fault State
  | .malloc bytes =>
    (myMalloc s.heap bytes).map fun (heap, ptr) =>
      match ptr with
      | none => { s with heap := heap, freed := [] }
      | some ptr => ⟨heap, ((ptr - 1).toNat, blockWords bytes) :: s.live, []⟩
  | .free ptr =>
    (myFree s.heap (some ptr)).map fun heap =>
      ⟨heap, s.live.filter fun block => block.1 + 1 ≠ ptr, ptr :: s.freed⟩
  | .refree ptr => (myFree s.heap (some ptr)).map fun heap => { s with heap := heap }
  | .write index value => (s.heap.store index value).map fun heap => { s with heap := heap }

def next (s : State) (l : Label) : Option State :=
  if Allowed s l then (step s l).toOption else none

end Acos.SwapAlloc
