import Acos.Lib.Scanf

/-! Requests and responses of HTTP as bytes: a first line, header lines, a blank line and a
body. -/
namespace Acos.HttpText
open Acos.CString Acos.Scanf

def crlf : Bytes := [13, 10]

/-- `HTTP/1.1`. -/
def version : Bytes := [72, 84, 84, 80, 47, 49, 46, 49]

/-- `Content-Length: `. -/
def contentLength : Bytes :=
  [67, 111, 110, 116, 101, 110, 116, 45, 76, 101, 110, 103, 116, 104, 58, 32]

structure Response where
  status : Bytes
  headers : List Bytes
  body : Bytes

def Response.bytes (r : Response) : Bytes :=
  r.status ++ (crlf ++ (r.headers.flatMap (· ++ crlf) ++ (crlf ++ r.body)))

/-- No line end in it. -/
def IsLine (line : Bytes) : Prop := ∀ c ∈ line, c ≠ 13 ∧ c ≠ 10

instance (line : Bytes) : Decidable (IsLine line) :=
  List.decidableBAll (fun c => c ≠ 13 ∧ c ≠ 10) line

structure Response.WellFormed (r : Response) : Prop where
  status : ∃ code reason, r.status = version ++ 32 :: (code ++ 32 :: reason) ∧ code.length = 3 ∧
    ∀ c ∈ code, isdigit c = true
  line : IsLine r.status
  headers : ∀ h ∈ r.headers, IsLine h ∧ ∃ name value, h = name ++ 58 :: value ∧ name ≠ []
  length : ∀ value, contentLength ++ value ∈ r.headers → value = decimal r.body.length

/-- The bytes are a whole response. -/
def Complete (bytes : Bytes) : Prop := ∃ r : Response, r.WellFormed ∧ r.bytes = bytes

/-- A line is determined by what it starts. -/
theorem line_unique {l l' rest rest' : Bytes} (h : IsLine l) (h' : IsLine l')
    (heq : l ++ (crlf ++ rest) = l' ++ (crlf ++ rest')) : l = l' ∧ rest = rest' := by
  induction l generalizing l' with
  | nil =>
    cases l' with
    | nil => exact ⟨rfl, List.append_cancel_left heq⟩
    | cons c l' => exact absurd (List.cons.inj heq).1.symm (h' c (by simp)).1
  | cons c l ih =>
    cases l' with
    | nil => exact absurd (List.cons.inj heq).1 (h c (by simp)).1
    | cons c' l' =>
      obtain ⟨hc, htail⟩ := List.cons.inj heq
      obtain ⟨hl, hrest⟩ := ih (fun d hd => h d (by simp [hd])) (fun d hd => h' d (by simp [hd]))
        htail
      exact ⟨by rw [hc, hl], hrest⟩

/-- The header lines are determined by what follows the first line. -/
theorem headers_unique {headers headers' : List Bytes} {rest rest' : Bytes}
    (h : ∀ line ∈ headers, IsLine line ∧ line ≠ [])
    (h' : ∀ line ∈ headers', IsLine line ∧ line ≠ [])
    (heq : headers.flatMap (· ++ crlf) ++ (crlf ++ rest) =
      headers'.flatMap (· ++ crlf) ++ (crlf ++ rest')) : headers = headers' ∧ rest = rest' := by
  -- a line does not begin with the end of a line
  have hblank : ∀ {line back rest : Bytes}, IsLine line ∧ line ≠ [] →
      crlf ++ rest ≠ line ++ back := by
    rintro line back rest ⟨hline, hne⟩ heq
    obtain ⟨c, line, rfl⟩ := List.exists_cons_of_ne_nil hne
    exact (hline c (by simp)).1 (List.cons.inj heq).1.symm
  induction headers generalizing headers' with
  | nil =>
    cases headers' with
    | nil => exact ⟨rfl, List.append_cancel_left heq⟩
    | cons line headers' =>
      rw [List.flatMap_cons, List.append_assoc, List.append_assoc] at heq
      exact absurd heq (hblank (h' line (by simp)))
  | cons line headers ih =>
    cases headers' with
    | nil =>
      rw [List.flatMap_cons, List.append_assoc, List.append_assoc] at heq
      exact absurd heq.symm (hblank (h line (by simp)))
    | cons line' headers' =>
      obtain ⟨hline, hrest⟩ := List.forall_mem_cons.mp h
      obtain ⟨hline', hrest'⟩ := List.forall_mem_cons.mp h'
      rw [List.flatMap_cons, List.flatMap_cons, List.append_assoc, List.append_assoc,
        List.append_assoc, List.append_assoc] at heq
      obtain ⟨rfl, hback⟩ := line_unique hline.1 hline'.1 heq
      obtain ⟨rfl, hend⟩ := ih hrest hrest' hback
      exact ⟨rfl, hend⟩

/-- A whole response has a blank line. -/
theorem Complete.blank {bytes : Bytes} (h : Complete bytes) : crlf ++ crlf <:+: bytes := by
  obtain ⟨r, -, rfl⟩ := h
  have hheaders : ∀ headers : List Bytes,
      crlf ++ crlf <:+: crlf ++ (headers.flatMap (· ++ crlf) ++ (crlf ++ r.body)) := by
    intro headers
    induction headers with
    | nil => exact ⟨[], r.body, by simp⟩
    | cons line headers ih =>
      obtain ⟨front, back, hsplit⟩ := ih
      refine ⟨crlf ++ line ++ front, back, ?_⟩
      rw [List.flatMap_cons]
      simp only [List.append_assoc] at hsplit ⊢
      rw [hsplit]
  exact (hheaders r.headers).trans (List.suffix_append _ _).isInfix

theorem Response.WellFormed.lines {r : Response} (hr : r.WellFormed) :
    ∀ line ∈ r.headers, IsLine line ∧ line ≠ [] := by
  intro line hmem
  obtain ⟨hline, name, value, rfl, -⟩ := hr.headers line hmem
  exact ⟨hline, by simp⟩

/-- A response with one header line has no other reading. -/
theorem Complete.length_header {status value body : Bytes} (hstatus : IsLine status)
    (hvalue : IsLine (contentLength ++ value))
    (h : Complete (status ++ (crlf ++ (contentLength ++ value ++ (crlf ++ (crlf ++ body)))))) :
    value = decimal body.length := by
  obtain ⟨r, hr, hbytes⟩ := h
  obtain ⟨-, hrest⟩ := line_unique hr.line hstatus hbytes
  have hone : r.headers.flatMap (· ++ crlf) ++ (crlf ++ r.body) =
      [contentLength ++ value].flatMap (· ++ crlf) ++ (crlf ++ body) := by
    rw [hrest]
    simp
  obtain ⟨hheaders, hbody⟩ := headers_unique hr.lines
    (List.forall_mem_singleton.mpr ⟨hvalue, by simp [contentLength]⟩) hone
  rw [← hbody]
  apply hr.length
  rw [hheaders]
  exact List.mem_singleton_self _

structure Request where
  method : Bytes
  target : Bytes
  version : Bytes
  headers : List Bytes
  body : Bytes

def Request.line (r : Request) : Bytes := r.method ++ 32 :: (r.target ++ 32 :: r.version)

def Request.bytes (r : Request) : Bytes :=
  r.line ++ (crlf ++ (r.headers.flatMap (· ++ crlf) ++ (crlf ++ r.body)))

/-- A word of the request line. -/
def IsWord (word : Bytes) : Prop := word ≠ [] ∧ IsLine word ∧ ∀ c ∈ word, c ≠ 32

instance (word : Bytes) : Decidable (IsWord word) :=
  have := List.decidableBAll (· ≠ 32) word
  inferInstanceAs (Decidable (word ≠ [] ∧ IsLine word ∧ ∀ c ∈ word, c ≠ 32))

/-- Three words, the last one a version; header lines that begin with a word and a colon; and one
length, that of the body. -/
structure Request.WellFormed (r : Request) : Prop where
  method : IsWord r.method
  target : IsWord r.target
  version : ∃ major minor, r.version = [72, 84, 84, 80, 47, major, 46, minor] ∧
    isdigit major = true ∧ isdigit minor = true
  headers : ∀ h ∈ r.headers, IsLine h ∧ ∃ name value, h = name ++ 58 :: value ∧ IsWord name
  sized : contentLength ++ decimal r.body.length ∈ r.headers
  length : ∀ value, contentLength ++ value ∈ r.headers → value = decimal r.body.length

theorem isLine_append {a b : Bytes} : IsLine (a ++ b) ↔ IsLine a ∧ IsLine b :=
  List.forall_mem_append

theorem isLine_cons {c : UInt8} {line : Bytes} :
    IsLine (c :: line) ↔ (c ≠ 13 ∧ c ≠ 10) ∧ IsLine line :=
  List.forall_mem_cons

theorem isLine_digits {digits : Bytes} (h : ∀ c ∈ digits, isdigit c = true) : IsLine digits := by
  intro c hc
  have hrange := isdigit_range (h c hc)
  constructor
  · rintro rfl
    exact absurd hrange.1 (by decide)
  · rintro rfl
    exact absurd hrange.1 (by decide)

theorem isLine_decimal (n : ℕ) : IsLine (decimal n) := isLine_digits (decimal_isdigit n)

theorem Request.WellFormed.line {r : Request} (hr : r.WellFormed) : IsLine r.line := by
  obtain ⟨major, minor, hversion, hmajor, hminor⟩ := hr.version
  have hdigits := isLine_cons.mp (@isLine_digits [major, minor] (by simp [hmajor, hminor]))
  simp only [Request.line, hversion, isLine_append, isLine_cons]
  exact ⟨hr.method.2.1, by decide, hr.target.2.1, by decide, by decide, by decide, by decide,
    by decide, by decide, hdigits.1, by decide, isLine_cons.mp hdigits.2⟩

theorem Request.WellFormed.lines {r : Request} (hr : r.WellFormed) :
    ∀ line ∈ r.headers, IsLine line ∧ line ≠ [] := by
  intro line hmem
  obtain ⟨hline, name, value, rfl, -⟩ := hr.headers line hmem
  exact ⟨hline, by simp⟩

end Acos.HttpText
