import Acos.HttpServer.Containment
import Acos.Lib.HttpText
import Acos.Lib.MachineInt

/-! What `make_response` writes to the client, in both HTTP servers, and when that is a whole
response. `sched` says how much of a text each `write` takes, `rsched` how much each `read`
gives. -/
namespace Acos.HttpServer.Response
open Acos.CString Acos.HttpText Acos.MachineInt Acos.PathNormal Acos.Scanf

/-- The bytes that the client has got, and the number of writes. -/
structure Client where
  sent : Bytes
  calls : ℕ

/-- What the system calls find for the path of a request: a failing `stat`, or a file with its
bits and contents, whether `open` succeeds, and what its program writes if `pipe` succeeds. -/
inductive Served where
  | missing (enoent : Bool)
  | file (st_mode : ℕ) (contents : Bytes) (opens : Bool) (output : Option Bytes)

def writeAll (sched : ℕ → ℕ) : ℕ → Client → Bytes → Option Client
  | 0, _, _ => none
  | fuel + 1, c, text =>
    let written := min text.length (1 + sched c.calls)
    let c : Client := ⟨c.sent ++ text.take written, c.calls + 1⟩
    if written = text.length then some c else writeAll sched fuel c (text.drop written)

/-- The value of `copy_file` is `-1` where there is no file to read from. -/
def copyLoop (sched rsched : ℕ → ℕ) : ℕ → ℕ → Client → Bytes → Option Client
  | 0, _, _, _ => none
  | fuel + 1, reads, c, contents =>
    let chunk := contents.take (min 1024 (1 + rsched reads))
    if chunk = [] then some c
    else (writeAll sched (chunk.length + 1) c chunk).bind fun c =>
      copyLoop sched rsched fuel (reads + 1) c (contents.drop chunk.length)

def copyFile (sched rsched : ℕ → ℕ) (c : Client) : Option Bytes → Option (Client × ℤ)
  | none => some (c, -1)
  | some contents =>
    (copyLoop sched rsched (contents.length + 1) 0 c contents).map fun c => (c, 0)

def appendText (sched : ℕ → ℕ) (c : Client) (text : Bytes) : Option Client :=
  writeAll sched (text.length + 1) c text

/-- `%d`. -/
def printInt (x : ℤ) : Bytes := if x < 0 then 45 :: decimal (-x).toNat else decimal x.toNat

/-- ` 200 OK` -/
def ok : Bytes := [32, 50, 48, 48, 32, 79, 75] ++ crlf

/-- ` 403 Forbidden` -/
def forbidden : Bytes := [32, 52, 48, 51, 32, 70, 111, 114, 98, 105, 100, 100, 101, 110] ++ crlf

/-- ` 404 Not Found` -/
def notFound : Bytes :=
  [32, 52, 48, 52, 32, 78, 111, 116, 32, 70, 111, 117, 110, 100] ++ crlf

/-- ` 418 I’m a teapot` -/
def teapot : Bytes :=
  [32, 52, 49, 56, 32, 73, 226, 128, 153, 109, 32, 97, 32, 116, 101, 97, 112, 111, 116] ++ crlf

/-- `Return file as-is`: the header and the contents. -/
def returnFile (sched rsched : ℕ → ℕ) (c : Client) (contents : Bytes) (opens : Bool) :
    Option (Client × ℤ) := do
  let c ← appendText sched c contentLength
  let file_size := i32 contents.length
  let c ← appendText sched c (printInt file_size)
  let c ← appendText sched c crlf
  let c ← appendText sched c crlf
  copyFile sched rsched c (if opens then some contents else none)

/-- `File executable. Exec and print output`. -/
def returnOutput (sched rsched : ℕ → ℕ) (c : Client) : Option Bytes → Option (Client × ℤ)
  | none => some (c, -1)
  | some output => do
    let c ← appendText sched c crlf
    copyFile sched rsched c (some output)

/-- `make_response` of a server that executes files, or of one that does not; `none` where `sprintf`
writes past the end of `filepath`. -/
def respond (executes : Bool) (sched rsched : ℕ → ℕ) (base_path filename : Bytes) (served : Served)
    (c : Client) : Option (Client × ℤ) :=
  let filename := skipSlash filename
  if filename.length < 1 then some (c, -1)
  else if MAX_FILEPATH_LEN ≤ (base_path ++ slash :: filename).length then none
  else do
    let c ← appendText sched c version
    match served with
    | .missing true => (appendText sched c notFound).map fun c => (c, 0)
    | .missing false => (appendText sched c teapot).map fun c => (c, 0)
    | .file st_mode contents opens output =>
      if st_mode &&& S_IRUSR = 0 then (appendText sched c forbidden).map fun c => (c, 0)
      else do
        let c ← appendText sched c ok
        if executes ∧ st_mode &&& S_IXUSR ≠ 0 then returnOutput sched rsched c output
        else returnFile sched rsched c contents opens

/-- `make_response` of `inf16-1_posix_sockets_http-server-1/main.c`. -/
def makeResponse1 := respond false

/-- `make_response` of `inf16-2_posix_sockets_http-server-2/main.c`. -/
def makeResponse2 := respond true

/-- `handle_request` behind `read_request`; `none` also where `strcpy` writes past the end of
`filename`. -/
def answerRequest (make_response : Bytes → Bytes → Served → Client → Option (Client × ℤ))
    (base_path request_text : Bytes) (served : Served) (c : Client) : Option (Client × ℤ) :=
  match readRequestHead request_text with
  | none => some (c, -1)
  | some filename =>
    if MAX_FILENAME_LEN ≤ filename.length then none
    else (make_response base_path filename served c).map fun (c, status) =>
      (c, if status = -1 then -1 else 0)

def handleRequest1 (sched rsched : ℕ → ℕ) := answerRequest (makeResponse1 sched rsched)

def handleRequest2 (sched rsched : ℕ → ℕ) := answerRequest (makeResponse2 sched rsched)

section Sent
variable (sched rsched : ℕ → ℕ)

theorem writeAll_sent {fuel : ℕ} {text : Bytes} (c : Client) (hfuel : text.length < fuel) :
    ∃ calls, writeAll sched fuel c text = some ⟨c.sent ++ text, calls⟩ := by
  induction fuel generalizing c text with
  | zero => omega
  | succ fuel ih =>
    rw [writeAll]
    by_cases hall : min text.length (1 + sched c.calls) = text.length
    · refine ⟨c.calls + 1, ?_⟩
      simp only [hall, if_true, List.take_length]
    · obtain ⟨calls, hrest⟩ := @ih (text.drop (min text.length (1 + sched c.calls)))
        ⟨c.sent ++ text.take (min text.length (1 + sched c.calls)), c.calls + 1⟩
        (by rw [List.length_drop]; omega)
      refine ⟨calls, ?_⟩
      simp only [hall, if_false]
      rw [hrest, List.append_assoc, List.take_append_drop]

theorem appendText_sent (c : Client) (text : Bytes) :
    ∃ calls, appendText sched c text = some ⟨c.sent ++ text, calls⟩ :=
  writeAll_sent sched c (Nat.lt_succ_self _)

theorem copyLoop_sent {fuel reads : ℕ} {contents : Bytes} (c : Client)
    (hfuel : contents.length < fuel) :
    ∃ calls, copyLoop sched rsched fuel reads c contents = some ⟨c.sent ++ contents, calls⟩ := by
  induction fuel generalizing c reads contents with
  | zero => omega
  | succ fuel ih =>
    rw [copyLoop]
    by_cases hend : contents.take (min 1024 (1 + rsched reads)) = []
    · have hnil : contents = [] := by
        rcases List.take_eq_nil_iff.mp hend with hzero | hnil
        · omega
        · exact hnil
      refine ⟨c.calls, ?_⟩
      simp only [hnil, List.take_nil, if_true, List.append_nil]
    · obtain ⟨chunk, hchunk⟩ : ∃ chunk, contents.take (min 1024 (1 + rsched reads)) = chunk :=
        ⟨_, rfl⟩
      have hsplit : chunk ++ contents.drop chunk.length = contents := by
        have hprefix : chunk <+: contents := by
          rw [← hchunk]
          exact List.take_prefix _ _
        nth_rewrite 1 [List.prefix_iff_eq_take.mp hprefix]
        exact List.take_append_drop _ _
      have hpos : 0 < chunk.length := by
        rw [← hchunk]
        exact List.length_pos_iff.mpr hend
      obtain ⟨calls1, hwrite⟩ := writeAll_sent sched c (Nat.lt_succ_self chunk.length)
      obtain ⟨calls2, hrest⟩ := @ih (reads + 1) (contents.drop chunk.length)
        ⟨c.sent ++ chunk, calls1⟩ (by
          have hlen := congrArg List.length hsplit
          rw [List.length_append] at hlen
          omega)
      refine ⟨calls2, ?_⟩
      rw [hchunk] at hend ⊢
      simp only [hend, if_false]
      rw [hwrite, Option.bind_some, hrest, List.append_assoc, hsplit]

theorem copyFile_sent (c : Client) (contents : Option Bytes) :
    ∃ calls status, copyFile sched rsched c contents =
      some (⟨c.sent ++ contents.getD [], calls⟩, status) := by
  cases contents with
  | none => exact ⟨c.calls, -1, by rw [Option.getD_none, List.append_nil]; rfl⟩
  | some contents =>
    obtain ⟨calls, hcopy⟩ :=
      @copyLoop_sent sched rsched _ 0 contents c (Nat.lt_succ_self contents.length)
    exact ⟨calls, 0, by rw [copyFile, hcopy]; rfl⟩

/-- The body of a file, behind its header. -/
def fileText (contents : Bytes) (opens : Bool) : Bytes :=
  contentLength ++ printInt (i32 contents.length) ++
    (crlf ++ (crlf ++ if opens then contents else []))

theorem returnFile_sent (c : Client) (contents : Bytes) (opens : Bool) :
    ∃ calls status, returnFile sched rsched c contents opens =
      some (⟨c.sent ++ fileText contents opens, calls⟩, status) := by
  obtain ⟨calls1, h1⟩ := appendText_sent sched c contentLength
  obtain ⟨calls2, h2⟩ := appendText_sent sched ⟨c.sent ++ contentLength, calls1⟩
    (printInt (i32 contents.length))
  obtain ⟨calls3, h3⟩ := appendText_sent sched
    ⟨c.sent ++ contentLength ++ printInt (i32 contents.length), calls2⟩ crlf
  obtain ⟨calls4, h4⟩ := appendText_sent sched
    ⟨c.sent ++ contentLength ++ printInt (i32 contents.length) ++ crlf, calls3⟩ crlf
  obtain ⟨calls, status, h5⟩ := copyFile_sent sched rsched
    ⟨c.sent ++ contentLength ++ printInt (i32 contents.length) ++ crlf ++ crlf, calls4⟩
    (if opens then some contents else none)
  refine ⟨calls, status, ?_⟩
  have hbody :
      (if opens then some contents else none).getD [] = if opens then contents else [] := by
    cases opens <;> rfl
  rw [hbody] at h5
  rw [returnFile, h1, Option.bind_eq_bind, Option.bind_some]
  simp only [h2, h3, h4, Option.bind_some, h5]
  simp only [fileText, List.append_assoc]

/-- The bytes of a response from the status on. -/
def answerText (executes : Bool) : Served → Bytes
  | .missing true => notFound
  | .missing false => teapot
  | .file st_mode contents opens output =>
    if st_mode &&& S_IRUSR = 0 then forbidden
    else if executes ∧ st_mode &&& S_IXUSR ≠ 0 then
      ok ++ match output with
        | none => []
        | some output => crlf ++ output
    else ok ++ fileText contents opens

/-- The schedules do not matter: the client gets the whole text. -/
theorem respond_sent (executes : Bool) {base_path filename : Bytes}
    (hfilename : 1 < filename.length)
    (hroom : (base_path ++ slash :: skipSlash filename).length < MAX_FILEPATH_LEN)
    (served : Served) (c : Client) :
    ∃ calls status, respond executes sched rsched base_path filename served c =
      some (⟨c.sent ++ (version ++ answerText executes served), calls⟩, status) := by
  obtain ⟨calls1, h1⟩ := appendText_sent sched c version
  have hmore : ∀ text, ∃ calls, appendText sched ⟨c.sent ++ version, calls1⟩ text =
      some ⟨c.sent ++ (version ++ text), calls⟩ := by
    intro text
    obtain ⟨calls, h2⟩ := appendText_sent sched ⟨c.sent ++ version, calls1⟩ text
    exact ⟨calls, by rw [h2, List.append_assoc]⟩
  have hskip := (skipSlash_length filename).2
  unfold respond
  dsimp only
  rw [if_neg (by omega), if_neg (by omega), h1, Option.bind_eq_bind, Option.bind_some]
  cases served with
  | missing enoent =>
    cases enoent with
    | true =>
      obtain ⟨calls, h2⟩ := hmore notFound
      exact ⟨calls, 0, by simp only [h2, Option.map_some, answerText]⟩
    | false =>
      obtain ⟨calls, h2⟩ := hmore teapot
      exact ⟨calls, 0, by simp only [h2, Option.map_some, answerText]⟩
  | file st_mode contents opens output =>
    simp only [answerText]
    by_cases hread : st_mode &&& S_IRUSR = 0
    · obtain ⟨calls, h2⟩ := hmore forbidden
      rw [if_pos hread, if_pos hread, h2]
      exact ⟨calls, 0, rfl⟩
    · obtain ⟨calls2, h2⟩ := hmore ok
      rw [if_neg hread, if_neg hread, h2, Option.bind_some]
      by_cases hexec : executes ∧ st_mode &&& S_IXUSR ≠ 0
      · rw [if_pos hexec, if_pos hexec]
        cases output with
        | none => exact ⟨calls2, -1, by rw [List.append_nil]; rfl⟩
        | some output =>
          obtain ⟨calls3, h3⟩ := appendText_sent sched ⟨c.sent ++ (version ++ ok), calls2⟩ crlf
          obtain ⟨calls, status, h4⟩ := copyFile_sent sched rsched
            ⟨c.sent ++ (version ++ ok) ++ crlf, calls3⟩ (some output)
          refine ⟨calls, status, ?_⟩
          rw [returnOutput, h3, Option.bind_eq_bind, Option.bind_some, h4, Option.getD_some]
          simp only [List.append_assoc]
      · obtain ⟨calls, status, h3⟩ :=
          returnFile_sent sched rsched ⟨c.sent ++ (version ++ ok), calls2⟩ contents opens
        refine ⟨calls, status, ?_⟩
        rw [if_neg hexec, if_neg hexec, h3]
        simp only [List.append_assoc]

end Sent

/-- The states of the served file for which the answer is a whole response. -/
def Served.Answered (executes : Bool) : Served → Prop
  | .missing _ => False
  | .file st_mode contents opens output =>
    st_mode &&& S_IRUSR ≠ 0 ∧
      if executes ∧ st_mode &&& S_IXUSR ≠ 0 then output ≠ none
      else if opens then contents.length < 2 ^ 31
      else contents.length % 2 ^ 32 = 0

section Complete

theorem isLine_of_range {line : Bytes} (h : ∀ c ∈ line, 32 ≤ c.toNat) : IsLine line := by
  intro c hc
  have hle := h c hc
  constructor
  · rintro rfl
    simp at hle
  · rintro rfl
    simp at hle

theorem isLine_printInt (x : ℤ) : IsLine (contentLength ++ printInt x) := by
  have hdigits : ∀ n, ∀ c ∈ decimal n, 32 ≤ c.toNat := by
    intro n c hc
    have hrange := isdigit_range (decimal_isdigit n c hc)
    omega
  have hheader : ∀ c ∈ contentLength, 32 ≤ c.toNat := by simp [contentLength]
  apply isLine_of_range
  intro c hc
  rcases List.mem_append.mp hc with hc | hc
  · exact hheader c hc
  · unfold printInt at hc
    split_ifs at hc
    · rcases List.mem_cons.mp hc with rfl | hc
      · decide
      · exact hdigits _ c hc
    · exact hdigits _ c hc

theorem printInt_eq_decimal (x : ℤ) (n : ℕ) : printInt x = decimal n ↔ x = n := by
  constructor
  · intro h
    unfold printInt at h
    split_ifs at h with hneg
    · have hdigit := decimal_isdigit n 45 (by rw [← h]; simp)
      cases hdigit
    · have heq := decimal_injective h
      omega
  · intro h
    rw [printInt, if_neg (by omega), h, Int.toNat_natCast]

/-- `HTTP/1.1 200 OK` -/
def statusOk : Bytes := version ++ [32, 50, 48, 48, 32, 79, 75]

theorem statusOk_spec : IsLine statusOk ∧ ∃ code reason,
    statusOk = version ++ 32 :: (code ++ 32 :: reason) ∧ code.length = 3 ∧
      ∀ c ∈ code, isdigit c = true := by
  refine ⟨isLine_of_range (by simp [statusOk, version]), [50, 48, 48], [79, 75], rfl, rfl, ?_⟩
  simp [isdigit]

theorem version_ok (rest : Bytes) : version ++ (ok ++ rest) = statusOk ++ (crlf ++ rest) := rfl

/-- A file with its length is a whole response if the printed length is that of the body. -/
theorem complete_file (contents : Bytes) (opens : Bool) :
    Complete (version ++ (ok ++ fileText contents opens)) ↔
      if opens then contents.length < 2 ^ 31 else contents.length % 2 ^ 32 = 0 := by
  obtain ⟨body, hbody⟩ : ∃ body, (if opens then contents else []) = body := ⟨_, rfl⟩
  have hsize : i32 contents.length = body.length ↔
      if opens then contents.length < 2 ^ 31 else contents.length % 2 ^ 32 = 0 := by
    rw [← hbody]
    unfold i32
    cases opens with
    | true =>
      simp only [if_true]
      omega
    | false =>
      simp only [Bool.false_eq_true, if_false, List.length_nil]
      omega
  rw [version_ok, fileText, hbody, ← hsize, ← printInt_eq_decimal]
  constructor
  · intro h
    exact h.length_header statusOk_spec.1 (isLine_printInt _)
  · intro hprint
    have hline : IsLine (contentLength ++ decimal body.length) := by
      rw [← hprint]
      exact isLine_printInt _
    refine ⟨⟨statusOk, [contentLength ++ decimal body.length], body⟩, ?_, ?_⟩
    · refine ⟨statusOk_spec.2, statusOk_spec.1, ?_, ?_⟩
      · intro line hmem
        rw [List.mem_singleton.mp hmem]
        exact ⟨hline, [67, 111, 110, 116, 101, 110, 116, 45, 76, 101, 110, 103, 116, 104],
          32 :: decimal body.length, rfl, List.cons_ne_nil _ _⟩
      · intro value hmem
        have heq := List.mem_singleton.mp hmem
        exact List.append_cancel_left heq
    · rw [hprint]
      simp [HttpText.Response.bytes]

theorem complete_output (output : Bytes) :
    Complete (version ++ (ok ++ (crlf ++ output))) := by
  rw [version_ok]
  refine ⟨⟨statusOk, [], output⟩, ⟨statusOk_spec.2, statusOk_spec.1, by simp, by simp⟩, ?_⟩
  simp [HttpText.Response.bytes]

/-- The answers that end with their status line are no whole responses. -/
theorem not_complete_status : ∀ text ∈ [ok, forbidden, notFound, teapot],
    ¬Complete (version ++ text) := by
  have hblank : ∀ text ∈ [ok, forbidden, notFound, teapot],
      ¬crlf ++ crlf <:+: version ++ text := by decide
  intro text htext h
  exact hblank text htext h.blank

theorem complete_answerText (executes : Bool) (served : Served) :
    Complete (version ++ answerText executes served) ↔ served.Answered executes := by
  cases served with
  | missing enoent =>
    have hnot : ¬Complete (version ++ answerText executes (.missing enoent)) := by
      cases enoent with
      | true => exact not_complete_status notFound (by simp)
      | false => exact not_complete_status teapot (by simp)
    exact ⟨hnot, False.elim⟩
  | file st_mode contents opens output =>
    simp only [answerText, Served.Answered]
    by_cases hread : st_mode &&& S_IRUSR = 0
    · rw [if_pos hread]
      exact ⟨fun h => absurd h (not_complete_status forbidden (by simp)),
        fun h => absurd hread h.1⟩
    rw [if_neg hread]
    by_cases hexec : executes ∧ st_mode &&& S_IXUSR ≠ 0
    · rw [if_pos hexec, if_pos hexec]
      cases output with
      | none =>
        rw [List.append_nil]
        exact ⟨fun h => absurd h (not_complete_status ok (by simp)), fun h => absurd rfl h.2⟩
      | some output =>
        exact ⟨fun _ => ⟨hread, Option.some_ne_none output⟩, fun _ => complete_output output⟩
    · rw [if_neg hexec, if_neg hexec, complete_file]
      exact ⟨fun h => ⟨hread, h⟩, fun h => h.2⟩

end Complete

/-- An accepted request that does not fit the arrays has no answer, and every other one the text for
the state of the file. -/
theorem answerRequest_sent (sched rsched : ℕ → ℕ) (executes : Bool)
    {base_path request filename : Bytes} (served : Served) (hhead : readRequestHead request = some filename) :
    (∃ c status, answerRequest (respond executes sched rsched) base_path request served ⟨[], 0⟩ =
        some (c, status) ∧ Complete c.sent) ↔
      Fits base_path filename ∧ served.Answered executes := by
  have hlen := readRequestHead_length hhead
  have hskip := (skipSlash_length filename).2
  rw [answerRequest, hhead]
  dsimp only
  by_cases hname : MAX_FILENAME_LEN ≤ filename.length
  · rw [if_pos hname]
    constructor
    · rintro ⟨c, status, heq, -⟩
      cases heq
    · rintro ⟨hfits, -⟩
      exact absurd hfits.1 (by omega)
  rw [if_neg hname]
  by_cases hpath : MAX_FILEPATH_LEN ≤ (base_path ++ slash :: skipSlash filename).length
  · have hnone : respond executes sched rsched base_path filename served ⟨[], 0⟩ = none := by
      unfold respond
      dsimp only
      rw [if_neg (by omega), if_pos hpath]
    rw [hnone]
    constructor
    · rintro ⟨c, status, heq, -⟩
      cases heq
    · rintro ⟨hfits, -⟩
      exact absurd hfits.2 (by omega)
  · obtain ⟨calls, status, hsent⟩ :=
      respond_sent sched rsched executes hlen (not_le.mp hpath) served ⟨[], 0⟩
    rw [hsent, ← complete_answerText executes served]
    constructor
    · rintro ⟨c, status', heq, hcomplete⟩
      cases heq
      exact ⟨⟨not_le.mp hname, not_le.mp hpath⟩, hcomplete⟩
    · rintro ⟨-, hcomplete⟩
      exact ⟨_, _, rfl, hcomplete⟩

/-- For every accepted request and every file: both servers write a whole response exactly if the
target and the path fit their arrays and the file is in one of the states of `Served.Answered`. -/
theorem response_complete_iff (base_path request filename : Bytes) (served : Served)
    (sched rsched : ℕ → ℕ) (hhead : readRequestHead request = some filename) :
    ((∃ c status, handleRequest1 sched rsched base_path request served ⟨[], 0⟩ = some (c, status) ∧
      Complete c.sent) ↔ Fits base_path filename ∧ served.Answered false) ∧
    ((∃ c status, handleRequest2 sched rsched base_path request served ⟨[], 0⟩ = some (c, status) ∧
      Complete c.sent) ↔ Fits base_path filename ∧ served.Answered true) :=
  ⟨answerRequest_sent sched rsched false served hhead,
    answerRequest_sent sched rsched true served hhead⟩

/-- A file of two bytes in the directory `b`, for the target `/a`. -/
theorem response_complete_plain :
    ∃ c status, handleRequest2 (fun _ => 0) (fun _ => 0) [98] plainRequest
      (.file 0o644 [104, 105] true none) ⟨[], 0⟩ = some (c, status) ∧ Complete c.sent :=
  (response_complete_iff [98] plainRequest [47, 97] (.file 0o644 [104, 105] true none) (fun _ => 0)
    (fun _ => 0) (by decide)).2.mpr ⟨⟨by decide, by decide⟩, by decide, by decide⟩

/-- The answer for a file that is not there lacks the blank line. -/
theorem response_missing_incomplete : ¬ ∀ base_path request filename served sched rsched,
    readRequestHead request = some filename →
    ∃ c status, handleRequest2 sched rsched base_path request served ⟨[], 0⟩ = some (c, status) ∧
      Complete c.sent := by
  intro hall
  have hhead : readRequestHead plainRequest = some [47, 97] := by decide
  have hmissing := hall [98] plainRequest [47, 97] (.missing true) (fun _ => 0) (fun _ => 0) hhead
  exact ((answerRequest_sent _ _ true (.missing true) hhead).mp hmissing).2

end Acos.HttpServer.Response
