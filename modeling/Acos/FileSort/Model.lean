import Acos.Lib.IntBytes
import Acos.Lib.PosixFile

/-! The merge sort of a file of integers, `inf08-2_files-io_sort-file-contents/main.c`. A step
that would use bytes no call has read, or whose count of bytes is negative, has no result. -/
namespace Acos.FileSort
open Acos.IntBytes Acos.MachineInt Acos.PosixFile

def segmentSize : ℤ := 10000

def bufferSize : ℤ := 10000

/-- The files of the process and its `main_buffer`. -/
structure Process where
  world : World
  mainBuffer : List UInt8

/-- `count * sizeof(int)` on its way through a parameter of type `int`. -/
def byteCount (count : ℤ) : ℤ := i32 (u64 (u64 count * 4))

/-- `offset * sizeof(int)` on its way through a parameter of type `off_t`. -/
def byteOffset (offset : ℤ) : ℤ := i64 (u64 (u64 offset * 4))

/-- The rounds of `write_bytes`. -/
def writeLoop (sched : ℕ → ℕ) (fd : ℕ) : ℕ → World → List UInt8 → Option World
  | _, w, [] => some w
  | 0, _, _ => none
  | fuel + 1, w, byte :: bytes =>
    let (w, written) := w.write sched fd (byte :: bytes)
    writeLoop sched fd fuel w ((byte :: bytes).drop written)

def writeBytes (sched : ℕ → ℕ) (fd : ℕ) (w : World) (buffer : List UInt8) (bytesToWrite : ℤ) :
    Option World :=
  if 0 ≤ bytesToWrite ∧ bytesToWrite ≤ buffer.length then
    writeLoop sched fd bytesToWrite.toNat w (buffer.take bytesToWrite.toNat)
  else none

/-- The rounds of `read_bytes`: the last one is at the end of the file or of the count. -/
def readLoop (sched : ℕ → ℕ) (fd : ℕ) : ℕ → World → ℕ → Option (World × List UInt8)
  | _, w, 0 => some (w, [])
  | 0, _, _ => none
  | fuel + 1, w, count + 1 =>
    let (w, chunk) := w.read sched fd (count + 1)
    if chunk = [] then some (w, [])
    else (readLoop sched fd fuel w (count + 1 - chunk.length)).map fun (w, bytes) =>
      (w, chunk ++ bytes)

/-- The world after `read_bytes` and the bytes it put into the buffer. -/
def readBytes (sched : ℕ → ℕ) (fd : ℕ) (w : World) (bytesToRead : ℤ) :
    Option (World × List UInt8) :=
  if 0 ≤ bytesToRead then readLoop sched fd bytesToRead.toNat w bytesToRead.toNat else none

/-- `read_bytes` into a fresh array of integers, all of which the caller then uses. -/
def readInts (sched : ℕ → ℕ) (fd : ℕ) (w : World) (count : ℤ) : Option (World × List ℤ) := do
  let (w, bytes) ← readBytes sched fd w (byteCount count)
  if (bytes.length : ℤ) = 4 * count then some (w, decodeInts bytes) else none

/-- `write_bytes` of an array of integers. -/
def writeInts (sched : ℕ → ℕ) (fd : ℕ) (w : World) (xs : List ℤ) : Option World :=
  writeBytes sched fd w (encodeInts xs) (byteCount xs.length)

def cmp (a b : ℤ) : ℤ := i32 (a - b)

def move (w : World) (fd : ℕ) (offset : ℤ) : World := w.seekSet fd (byteOffset offset)

def sortFileSegment (sched : ℕ → ℕ) (qsort : (ℤ → ℤ → ℤ) → List ℤ → List ℤ) (fd : ℕ) (w : World)
    (buffSize : ℤ) : Option World :=
  if buffSize < 0 then none
  else do
    let curr := (w.files fd).pos
    let (w, buffer) ← readInts sched fd w buffSize
    writeInts sched fd (move w fd (curr / 4 : ℕ)) (qsort cmp buffer)

/-- The rounds of `copy_file_segment`. -/
def copyLoop (sched : ℕ → ℕ) (source target : ℕ) : ℕ → Process → ℤ → Option Process
  | fuel, p, bytesCount =>
    if bytesCount = 0 then some p
    else match fuel with
      | 0 => none
      | fuel + 1 => do
        let step := min bufferSize bytesCount
        let (w, bytes) ← readBytes sched source p.world step
        let mainBuffer := bytes ++ p.mainBuffer.drop bytes.length
        let w ← writeBytes sched target w mainBuffer step
        copyLoop sched source target fuel ⟨w, mainBuffer⟩ (bytesCount - step)

def copyFileSegment (sched : ℕ → ℕ) (source target : ℕ) (p : Process) (bytesCount : ℤ) :
    Option Process :=
  copyLoop sched source target bytesCount.toNat p bytesCount

/-- The merged integers and how many of them come from either side. It stops when one side is
used up. -/
def merge : List ℤ → List ℤ → List ℤ × ℕ × ℕ
  | l :: L, r :: R =>
    if l ≤ r then
      let (arr, left, right) := merge L (r :: R)
      (l :: arr, left + 1, right)
    else
      let (arr, left, right) := merge (l :: L) R
      (r :: arr, left, right + 1)
  | _, _ => ([], 0, 0)
termination_by L R => L.length + R.length

/-- The rounds of `merge_files`; the sizes it gives back are those of what is left. -/
def mergeLoop (sched : ℕ → ℕ) (fd1 fd2 fdOut : ℕ) : ℕ → World → ℤ → ℤ → Option (World × ℤ × ℤ)
  | fuel, w, size1, size2 =>
    if size1 = 0 ∨ size2 = 0 then some (w, size1, size2)
    else match fuel with
      | 0 => none
      | fuel + 1 => do
        let p1 := min size1 bufferSize
        let p2 := min size2 bufferSize
        let (w, buff1) ← readInts sched fd1 w p1
        let (w, buff2) ← readInts sched fd2 w p2
        let (buffOut, left, right) := merge buff1 buff2
        let w := w.seekCur fd1 (byteOffset (-(p1 - left)))
        let w := w.seekCur fd2 (byteOffset (-(p2 - right)))
        let w ← writeInts sched fdOut w buffOut
        mergeLoop sched fd1 fd2 fdOut fuel w (size1 - left) (size2 - right)

def mergeFiles (sched : ℕ → ℕ) (fd1 : ℕ) (size1 : ℤ) (fd2 : ℕ) (size2 : ℤ) (fdOut : ℕ)
    (p : Process) : Option Process := do
  let w := move (move p.world fd1 0) fd2 0
  let (w, size1, size2) ← mergeLoop sched fd1 fd2 fdOut (size1 + size2).toNat w size1 size2
  if size1 ≠ 0 ∨ size2 ≠ 0 then
    let (lastFd, lastSize) := if size2 ≠ 0 then (fd2, size2) else (fd1, size1)
    copyFileSegment sched lastFd fdOut ⟨w, p.mainBuffer⟩ (byteCount lastSize)
  else some ⟨w, p.mainBuffer⟩

def mergeSort (sched : ℕ → ℕ) (qsort : (ℤ → ℤ → ℤ) → List ℤ → List ℤ) (fd t1 t2 : ℕ) :
    ℕ → Process → ℤ → ℤ → Option Process
  | 0, _, _, _ => none
  | fuel + 1, p, left, right =>
    if right - left ≤ segmentSize then
      (sortFileSegment sched qsort fd (move p.world fd left) (right - left)).map fun w =>
        ⟨w, p.mainBuffer⟩
    else do
      let mid := left + (right - left) / 2
      let p ← mergeSort sched qsort fd t1 t2 fuel p left mid
      let p ← mergeSort sched qsort fd t1 t2 fuel p mid right
      let w := move (move p.world t1 0) t2 0
      let p ← copyFileSegment sched fd t1 ⟨move w fd left, p.mainBuffer⟩ (byteCount (mid - left))
      let p ← copyFileSegment sched fd t2 ⟨move p.world fd mid, p.mainBuffer⟩
        (byteCount (right - mid))
      mergeFiles sched t1 (mid - left) t2 (right - mid) fd
        ⟨move p.world fd left, p.mainBuffer⟩

end Acos.FileSort
