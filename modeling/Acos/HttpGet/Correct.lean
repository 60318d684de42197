import Acos.Lib.CString
import Mathlib.Data.List.Infix

/-! Printing a response: `http_get` of `inf23-0-http_http-get/main.c` and `print_response` of
`inf23-1-http_http-post/main.c`. -/
namespace Acos.HttpGet
open Acos.CString

/-- The size of `line`. -/
def line_size : ℕ := 10000

def headers_end : Bytes := [13, 10, 13, 10]

/-- What one call of `read` with a buffer of `sizeof(line) - 1` bytes stores. -/
structure Chunk where
  bytes : Bytes
  nonempty : bytes ≠ []
  short : bytes.length < line_size

/-- All the bytes that a series of reads stores. -/
def stream (chunks : List Chunk) : Bytes := chunks.flatMap Chunk.bytes

/-- The loop over the reads that are left, where the headers are skipped in the first line if
`skips` says so: what is printed. The result is `none` where `strstr` gives `NULL`, which the
addition of 4 turns into a pointer to no string. -/
def printChunks (skips : Bytes → Bool) : Bool → List Chunk → Option Bytes
  | _, [] => some []
  | first, chunk :: chunks =>
    let line := chunk.bytes ++ [0]
    let ptr := if first && skips line then (strstr headers_end line).map (· + 4) else some 0
    ptr.bind fun ptr => (printChunks skips false chunks).map (cString (line.drop ptr) ++ ·)

/-- `http_get` from its loop on. -/
def httpGet (chunks : List Chunk) : Option Bytes := printChunks (fun _ => true) true chunks

/-- `print_response`: the headers are skipped only if the first line starts with `HTTP`. -/
def printResponse (chunks : List Chunk) : Option Bytes :=
  printChunks (fun line => strncmpEq (cString line) [72, 84, 84, 80] 4) true chunks

/-- The first blank line of a response stands between `head` and `body`. -/
structure Splits (response head body : Bytes) : Prop where
  eq : response = head ++ (headers_end ++ body)
  first : ∀ q < head.length, ¬ headers_end <+: response.drop q

theorem Splits.isFirst {response head body : Bytes} (h : Splits response head body) :
    IsFirst headers_end response head.length := by
  refine ⟨?_, h.first⟩
  rw [h.eq, List.drop_left]
  exact List.prefix_append _ _

theorem Splits.body_eq {response head body : Bytes} (h : Splits response head body) :
    response.drop (head.length + 4) = body := by
  rw [h.eq, ← List.drop_drop, List.drop_left]
  rfl

/-- Of a line without terminators everything from a place on is printed. -/
theorem cString_line {s : Bytes} (hs : ∀ c ∈ s, c ≠ 0) {k : ℕ} (hk : k ≤ s.length) :
    cString ((s ++ [0]).drop k) = s.drop k := by
  rw [List.drop_append_of_le_length hk]
  unfold cString
  have hplain : ∀ c ∈ s.drop k, decide (c ≠ 0) = true := by
    intro c hc
    simpa using hs c (List.mem_of_mem_drop hc)
  rw [List.takeWhile_append_of_pos hplain]
  simp

theorem stream_cons (chunk : Chunk) (chunks : List Chunk) :
    stream (chunk :: chunks) = chunk.bytes ++ stream chunks := by
  simp [stream]

/-- After the first read the bytes are printed as they come. -/
theorem printChunks_rest (skips : Bytes → Bool) {chunks : List Chunk}
    (hnul : ∀ c ∈ stream chunks, c ≠ 0) :
    printChunks skips false chunks = some (stream chunks) := by
  induction chunks with
  | nil => rfl
  | cons chunk chunks ih =>
    rw [stream_cons] at hnul ⊢
    have hchunk : ∀ c ∈ chunk.bytes, c ≠ 0 := fun c hc => hnul c (List.mem_append_left _ hc)
    have hline := cString_line hchunk (Nat.zero_le chunk.bytes.length)
    have hrest := ih fun c hc => hnul c (List.mem_append_right _ hc)
    simp only [List.drop_zero] at hline
    simp [printChunks, hrest, hline]

/-- A response without skipping is printed whole. -/
theorem printChunks_keep {skips : Bytes → Bool} {chunk : Chunk} {chunks : List Chunk}
    (hnul : ∀ c ∈ stream (chunk :: chunks), c ≠ 0) (hskip : skips (chunk.bytes ++ [0]) = false) :
    printChunks skips true (chunk :: chunks) = some (stream (chunk :: chunks)) := by
  rw [← printChunks_rest skips hnul]
  simp [printChunks, hskip]

/-- With skipping, the body is printed if the first read has the blank line, else nothing is. -/
theorem printChunks_skip {skips : Bytes → Bool} {chunk : Chunk} {chunks : List Chunk}
    (hnul : ∀ c ∈ stream (chunk :: chunks), c ≠ 0) (hskip : skips (chunk.bytes ++ [0]) = true)
    {head body : Bytes} (h : Splits (stream (chunk :: chunks)) head body) :
    printChunks skips true (chunk :: chunks) =
      if headers_end <:+: chunk.bytes then some body else none := by
  have hbody := h.body_eq
  have hfirst := h.isFirst
  rw [stream_cons] at hnul hfirst hbody
  have hchunk : ∀ c ∈ chunk.bytes, c ≠ 0 := fun c hc => hnul c (List.mem_append_left _ hc)
  have hrest := printChunks_rest skips fun c hc => hnul c (List.mem_append_right _ hc)
  have hstrstr := @strstr_terminated headers_end _ (by decide) (by simp [headers_end]) hchunk
  simp only [printChunks, Bool.true_and, hskip, ↓reduceIte, hrest, Option.map_some]
  cases hfound : strstr headers_end (chunk.bytes ++ [0]) with
  | none =>
    rw [hfound] at hstrstr
    simp only [Option.map_none, Option.bind_none]
    rw [if_neg hstrstr]
  | some p =>
    rw [hfound] at hstrstr
    have hp := (hstrstr.append (by decide) (stream chunks)).unique hfirst
    have hle := hstrstr.1.length_le
    rw [List.length_drop] at hle
    have hfits : p + 4 ≤ chunk.bytes.length := by
      simp [headers_end] at hle
      omega
    have hinfix : headers_end <:+: chunk.bytes :=
      hstrstr.1.isInfix.trans (List.drop_suffix p _).isInfix
    simp only [Option.map_some, Option.bind_some]
    rw [if_pos hinfix, cString_line hchunk hfits, ← List.drop_append_of_le_length hfits, hp, hbody]

/-- `http_get` prints the body if and only if the first read reaches the end of the blank line. -/
theorem http_get_iff {chunks : List Chunk} (hnul : ∀ c ∈ stream chunks, c ≠ 0)
    {head body : Bytes} (h : Splits (stream chunks) head body) :
    httpGet chunks = some body ↔ ∃ chunk ∈ chunks.head?, headers_end <:+: chunk.bytes := by
  cases chunks with
  | nil =>
    have heq := congrArg List.length h.eq
    simp [stream, headers_end] at heq
  | cons chunk chunks =>
    unfold httpGet
    rw [printChunks_skip hnul rfl h]
    simp

/-- `print_response` prints the body if and only if the first read starts with `HTTP` too. -/
theorem print_response_iff {chunks : List Chunk} (hnul : ∀ c ∈ stream chunks, c ≠ 0)
    {head body : Bytes} (h : Splits (stream chunks) head body) :
    printResponse chunks = some body ↔ ∃ chunk ∈ chunks.head?,
      chunk.bytes.take 4 = [72, 84, 84, 80] ∧ headers_end <:+: chunk.bytes := by
  have heq := congrArg List.length h.eq
  cases chunks with
  | nil => simp [stream, headers_end] at heq
  | cons chunk chunks =>
    have hchunk : ∀ c ∈ chunk.bytes, c ≠ 0 := by
      intro c hc
      apply hnul c
      rw [stream_cons]
      exact List.mem_append_left _ hc
    have hline := cString_line hchunk (Nat.zero_le chunk.bytes.length)
    have htest : strncmpEq (cString (chunk.bytes ++ [0])) [72, 84, 84, 80] 4 =
        decide (chunk.bytes.take 4 = [72, 84, 84, 80]) := by
      rw [List.drop_zero, List.drop_zero] at hline
      rw [hline]
      rfl
    unfold printResponse
    by_cases hhttp : chunk.bytes.take 4 = [72, 84, 84, 80]
    · rw [printChunks_skip hnul (by simp [htest, hhttp]) h]
      simp [hhttp]
    · rw [printChunks_keep hnul (by simp [htest, hhttp])]
      have hlonger : stream (chunk :: chunks) ≠ body := by
        intro hsame
        rw [hsame] at heq
        simp [headers_end] at heq
        omega
      simp [hhttp, hlonger]

/-- `A` and a blank line in one read, then `x`, then `y` and a zero. -/
def together : List Chunk :=
  [⟨[65, 13, 10, 13, 10], by decide, by decide⟩, ⟨[120], by decide, by decide⟩,
    ⟨[121, 48], by decide, by decide⟩]

/-- A response with the blank line cut in two. -/
def apart : List Chunk :=
  [⟨[65, 13, 10], by decide, by decide⟩, ⟨[13, 10, 120], by decide, by decide⟩]

theorem splits_together : Splits (stream together) [65] [120, 121, 48] where
  eq := rfl
  first := by decide

theorem splits_apart : Splits (stream apart) [65] [120] where
  eq := rfl
  first := by decide

theorem http_get_together : httpGet together = some [120, 121, 48] :=
  (http_get_iff (by simp [together, stream]) splits_together).mpr
    ⟨⟨[65, 13, 10, 13, 10], by decide, by decide⟩, rfl, ⟨[65], [], rfl⟩⟩

/-- Nothing is printed when the first read ends inside the blank line. -/
theorem http_get_apart :
    (∀ c ∈ stream apart, c ≠ 0) ∧ Splits (stream apart) [65] [120] ∧ httpGet apart = none :=
  ⟨by simp [apart, stream], splits_apart, by decide⟩

end Acos.HttpGet
