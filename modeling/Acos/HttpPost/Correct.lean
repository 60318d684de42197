import Acos.HttpGet.Correct
import Acos.Lib.HttpText

/-! Sending a file: `http_post` of `inf23-1-http_http-post/main.c` up to its response. Each `write`
may take a part of its text or fail, each `read` gives some bytes of the file. -/
namespace Acos.HttpPost
open Acos.CString Acos.HttpGet Acos.HttpText Acos.Scanf

/-- The size of `request`. -/
def request_size : ℕ := 10000

/-- The bytes that the server has got, and the number of writes. -/
structure Connection where
  sent : Bytes
  calls : ℕ
  deriving DecidableEq

/-- `write_all`: the call `i` of `write` fails where `sched i` is `none`, and takes one byte and as
many more as it says otherwise. -/
def writeAll (sched : ℕ → Option ℕ) : ℕ → Connection → Bytes → Connection
  | 0, c, _ => c
  | fuel + 1, c, buffer =>
    match sched c.calls with
    | none => { c with calls := c.calls + 1 }
    | some limit =>
      let n := min buffer.length (1 + limit)
      if n = 0 then { c with calls := c.calls + 1 }
      else
        let c : Connection := ⟨c.sent ++ buffer.take n, c.calls + 1⟩
        if n = buffer.length then c else writeAll sched fuel c (buffer.drop n)

/-- `POST ` -/
def post : Bytes := [80, 79, 83, 84, 32]

/-- ` HTTP/1.0` -/
def http10 : Bytes := [32, 72, 84, 84, 80, 47, 49, 46, 48]

/-- `Host: ` -/
def host : Bytes := [72, 111, 115, 116, 58, 32]

/-- The lines that are printed into `request`, without the end of the last one. -/
def requestLines (server_name path : Bytes) (st_size : ℕ) : Bytes :=
  post ++ path ++ http10 ++ (crlf ++ (host ++ server_name ++ (crlf ++
    (contentLength ++ decimal st_size))))

/-- What a call of `read` stores in `buffer`. -/
structure Block where
  bytes : Bytes
  nonempty : bytes ≠ []
  short : bytes.length ≤ 1000

def contents (blocks : List Block) : Bytes := blocks.flatMap Block.bytes

/-- The loop over the file. -/
def sendBlocks (sched : ℕ → Option ℕ) (c : Connection) (blocks : List Block) : Connection :=
  blocks.foldl (fun c block => writeAll sched (block.bytes.length + 1) c block.bytes) c

/-- `http_post` before `print_response`; `none` where it writes past the end of `request`. The two
names are C strings. -/
def httpPost (sched : ℕ → Option ℕ) (server_name path : Bytes) (st_size : ℕ)
    (blocks : List Block) : Option Connection :=
  let request := requestLines server_name path st_size ++ headers_end
  if request_size ≤ request.length then none
  else some (sendBlocks sched (writeAll sched (request.length + 1) ⟨[], 0⟩ request) blocks)

/-- `POST` -/
def postMethod : Bytes := [80, 79, 83, 84]

/-- The server has got a well-formed request to this host for this path, with this body. -/
def Posted (server_name path body sent : Bytes) : Prop :=
  ∃ r : Request, r.WellFormed ∧ r.method = postMethod ∧ r.target = path ∧
    host ++ server_name ∈ r.headers ∧ r.body = body ∧ r.bytes = sent

section
variable {sched : ℕ → Option ℕ} {c : Connection} {buffer l rest : Bytes} {blocks : List Block}

/-- The calls of `write` from one number to another succeed. -/
def Succeed (sched : ℕ → Option ℕ) (first last : ℕ) : Prop :=
  ∀ i, first ≤ i → i < last → (sched i).isSome

theorem Succeed.append {a b d : ℕ} (hab : a ≤ b) (hbd : b ≤ d) :
    Succeed sched a d ↔ Succeed sched a b ∧ Succeed sched b d := by
  constructor
  · exact fun h => ⟨fun i hi hi' => h i hi (hi'.trans_le hbd), fun i hi hi' => h i (hab.trans hi) hi'⟩
  · rintro ⟨hfirst, hlast⟩ i hi hi'
    by_cases hib : i < b
    · exact hfirst i hi hib
    · exact hlast i (not_lt.mp hib) hi'

theorem succeed_one {a : ℕ} : Succeed sched a (a + 1) ↔ (sched a).isSome := by
  constructor
  · exact fun h => h a le_rfl (Nat.lt_succ_self a)
  · intro h i hi hi'
    obtain rfl : i = a := by omega
    exact h

/-- A prefix of the text is written, and all of it if no call fails. -/
theorem writeAll_spec {fuel : ℕ} (hfuel : buffer.length < fuel) (hne : buffer ≠ []) :
    ∃ k ≤ buffer.length, (writeAll sched fuel c buffer).sent = c.sent ++ buffer.take k ∧
      c.calls ≤ (writeAll sched fuel c buffer).calls ∧
      (k = buffer.length ↔ Succeed sched c.calls (writeAll sched fuel c buffer).calls) := by
  induction fuel generalizing c buffer with
  | zero => omega
  | succ fuel ih =>
    have hpos := List.length_pos_iff.mpr hne
    rw [writeAll]
    cases hcall : sched c.calls with
    | none =>
      refine ⟨0, Nat.zero_le _, by simp, Nat.le_succ _, ?_⟩
      simp only [succeed_one, hcall]
      simp
      omega
    | some limit =>
      have hn : min buffer.length (1 + limit) ≠ 0 := by omega
      simp only [hn, ↓reduceIte]
      split_ifs with hall
      · refine ⟨min buffer.length (1 + limit), Nat.min_le_left _ _, rfl, Nat.le_succ _, ?_⟩
        simp only [succeed_one, hcall, Option.isSome_some, hall]
      · generalize hstep : min buffer.length (1 + limit) = n at *
        have hlt : n < buffer.length := by omega
        have hrest : buffer.drop n ≠ [] := by
          rw [Ne, List.drop_eq_nil_iff]
          omega
        obtain ⟨k, hk, hsent, hcalls, hiff⟩ :=
          @ih ⟨c.sent ++ buffer.take n, c.calls + 1⟩ (buffer.drop n) (by simp; omega) hrest
        simp only [List.length_drop] at hk hiff hcalls
        refine ⟨n + k, by omega, ?_, by omega, ?_⟩
        · rw [hsent, List.append_assoc, List.take_add]
        · rw [Succeed.append (Nat.le_succ _) hcalls, succeed_one, hcall, ← hiff]
          simp
          omega

/-- The blocks go out whole if no call fails, and otherwise something is missing. -/
theorem sendBlocks_spec (sched : ℕ → Option ℕ) (c : Connection) (blocks : List Block) :
    ∃ parts : Bytes, (sendBlocks sched c blocks).sent = c.sent ++ parts ∧
      c.calls ≤ (sendBlocks sched c blocks).calls ∧ parts.length ≤ (contents blocks).length ∧
      (parts.length = (contents blocks).length →
        Succeed sched c.calls (sendBlocks sched c blocks).calls) ∧
      (Succeed sched c.calls (sendBlocks sched c blocks).calls → parts = contents blocks) := by
  induction blocks generalizing c with
  | nil => exact ⟨[], by simp [sendBlocks], le_rfl, le_rfl,
      fun _ i hi hi' => absurd hi' (not_lt.mpr hi), fun _ => rfl⟩
  | cons block blocks ih =>
    obtain ⟨k, hk, hsent, hcalls, hiff⟩ :=
      @writeAll_spec sched c block.bytes _ (Nat.lt_succ_self _) block.nonempty
    obtain ⟨parts, hparts, hcalls', hle, hwhole, hall⟩ :=
      ih (writeAll sched (block.bytes.length + 1) c block.bytes)
    have hcontents : contents (block :: blocks) = block.bytes ++ contents blocks := by
      simp [contents]
    refine ⟨block.bytes.take k ++ parts, ?_, hcalls.trans hcalls', ?_, fun hlength => ?_,
      fun hsucceed => ?_⟩
    · rw [← List.append_assoc, ← hsent]
      exact hparts
    · rw [hcontents, List.length_append, List.length_append, List.length_take]
      omega
    · rw [hcontents, List.length_append, List.length_append, List.length_take] at hlength
      exact (Succeed.append hcalls hcalls').mpr ⟨hiff.mp (by omega), hwhole (by omega)⟩
    · obtain ⟨hfirst, hlast⟩ := (Succeed.append hcalls hcalls').mp hsucceed
      rw [hall hlast, hcontents, hiff.mpr hfirst, List.take_length]

variable {server_name path body : Bytes} {st_size : ℕ}

/-- The printed request, with a body behind it. -/
def printedRequest (server_name path : Bytes) (st_size : ℕ) (body : Bytes) : Request where
  method := postMethod
  target := path
  version := [72, 84, 84, 80, 47, 49, 46, 48]
  headers := [host ++ server_name, contentLength ++ decimal st_size]
  body := body

theorem printedRequest_bytes (server_name path : Bytes) (st_size : ℕ) (body : Bytes) :
    requestLines server_name path st_size ++ headers_end ++ body =
      (printedRequest server_name path st_size body).bytes := by
  simp [requestLines, printedRequest, Request.bytes, Request.line, post, postMethod, http10,
    headers_end, crlf]

theorem printedRequest_line (hpath : IsWord path) :
    IsLine (printedRequest server_name path st_size body).line := by
  have hversion : IsLine (32 :: [72, 84, 84, 80, 47, 49, 46, 48]) := by decide
  have hmethod : IsLine (postMethod ++ [32]) := by decide
  rw [printedRequest, Request.line, List.append_cons]
  exact isLine_append.mpr ⟨hmethod, isLine_append.mpr ⟨hpath.2.1, hversion⟩⟩

theorem printedRequest_lines (hserver : IsLine server_name) :
    ∀ line ∈ (printedRequest server_name path st_size body).headers, IsLine line ∧ line ≠ [] := by
  have hnames : IsLine host ∧ IsLine contentLength := by
    constructor <;> decide
  intro line hline
  rcases List.mem_pair.mp hline with rfl | rfl
  · exact ⟨isLine_append.mpr ⟨hnames.1, hserver⟩, by simp [host]⟩
  · exact ⟨isLine_append.mpr ⟨hnames.2, isLine_decimal st_size⟩, by simp [contentLength]⟩

/-- With the length of its body the printed request is well-formed. -/
theorem printedRequest_wellFormed (hpath : IsWord path) (hserver : IsLine server_name) :
    (printedRequest server_name path body.length body).WellFormed where
  method := (by decide : IsWord postMethod)
  target := hpath
  version := ⟨49, 48, rfl, by decide, by decide⟩
  headers := by
    intro line hline
    refine ⟨(printedRequest_lines hserver line hline).1, ?_⟩
    rcases List.mem_pair.mp hline with rfl | rfl
    · exact ⟨[72, 111, 115, 116], 32 :: server_name, rfl, by decide⟩
    · exact ⟨[67, 111, 110, 116, 101, 110, 116, 45, 76, 101, 110, 103, 116, 104],
        32 :: decimal body.length, rfl, by decide⟩
  sized := by simp [printedRequest]
  length := by
    intro value hvalue
    rcases List.mem_pair.mp hvalue with heq | heq
    · exact absurd (List.cons.inj heq).1 (by decide)
    · exact List.append_cancel_left heq

/-- A well-formed request whose lines begin the printed ones has just these lines. -/
theorem printedRequest_unique {r : Request} {back : Bytes} (hr : r.WellFormed)
    (hpath : IsWord path) (hserver : IsLine server_name)
    (h : r.line ++ (crlf ++ (r.headers.flatMap (· ++ crlf) ++ (crlf ++ back))) =
      requestLines server_name path st_size ++ headers_end) :
    contentLength ++ decimal st_size ∈ r.headers ∧ back = [] := by
  have hprinted := printedRequest_bytes server_name path st_size []
  rw [List.append_nil] at hprinted
  rw [hprinted, Request.bytes] at h
  obtain ⟨-, hrest⟩ := line_unique hr.line (printedRequest_line hpath) h
  obtain ⟨hheaders, hback⟩ := headers_unique hr.lines (printedRequest_lines hserver) hrest
  refine ⟨?_, hback⟩
  rw [hheaders]
  simp [printedRequest]

/-- The server gets a whole well-formed request exactly where the path is a word and the name of the
server has no line end, no call of `write` fails, and the length of the file is the one that `fstat`
has given. -/
theorem http_post_iff (h : httpPost sched server_name path st_size blocks = some c) :
    Posted server_name path (contents blocks) c.sent ↔
      IsWord path ∧ IsLine server_name ∧ Succeed sched 0 c.calls ∧
        st_size = (contents blocks).length := by
  unfold httpPost at h
  simp only at h
  split_ifs at h
  cases h
  obtain ⟨text, htext⟩ : ∃ text, requestLines server_name path st_size ++ headers_end = text :=
    ⟨_, rfl⟩
  rw [htext]
  obtain ⟨k, hk, hsent, hcalls, hiff⟩ := @writeAll_spec sched ⟨[], 0⟩ text _ (Nat.lt_succ_self _)
    (by rw [← htext]; simp [headers_end])
  obtain ⟨parts, hparts, hcalls', hle, hwhole, hall⟩ := sendBlocks_spec sched
    (writeAll sched (text.length + 1) ⟨[], 0⟩ text) blocks
  rw [hparts, hsent, List.nil_append, Succeed.append hcalls hcalls', ← hiff]
  constructor
  · rintro ⟨r, hr, -, rfl, hhost, hbody, hbytes⟩
    have hserver := (isLine_append.mp (hr.headers _ hhost).1).2
    obtain ⟨lines, hlines⟩ : ∃ lines,
        r.line ++ (crlf ++ (r.headers.flatMap (· ++ crlf) ++ crlf)) = lines := ⟨_, rfl⟩
    have hsplit : lines ++ contents blocks = text.take k ++ parts := by
      rw [← hbytes, ← hlines, ← hbody]
      simp [Request.bytes]
    have hlength := congrArg List.length hsplit
    rw [List.length_append, List.length_append, List.length_take] at hlength
    -- the lines and the blank line are within what is written of the request
    have hprefix : lines <+: text := by
      apply List.IsPrefix.trans _ (List.take_prefix k text)
      apply List.prefix_of_prefix_length_le _ (List.prefix_append _ parts)
      · rw [List.length_take]
        omega
      · rw [← hsplit]
        exact List.prefix_append _ _
    obtain ⟨back, hback⟩ := hprefix
    have hwritten := congrArg List.length hback
    rw [List.length_append] at hwritten
    obtain ⟨hsized, rfl⟩ := @printedRequest_unique _ _ st_size r back hr hr.target hserver
      (by rw [htext, ← hback, ← hlines]; simp)
    have hsize := decimal_injective (hr.length _ hsized)
    rw [hbody] at hsize
    exact ⟨hr.target, hserver, ⟨by rw [List.length_nil] at hwritten; omega,
      hwhole (by rw [List.length_nil] at hwritten; omega)⟩, hsize⟩
  · rintro ⟨hpath, hserver, ⟨hfirst, hlast⟩, rfl⟩
    refine ⟨_, printedRequest_wellFormed hpath hserver, rfl, rfl, List.mem_cons_self, rfl, ?_⟩
    rw [hfirst, List.take_length, hall hlast, ← htext]
    exact (printedRequest_bytes server_name path _ _).symm

/-- A file of three bytes, read in two blocks. -/
def threeBytes : List Block :=
  [⟨[97, 98], by decide, by decide⟩, ⟨[99], by decide, by decide⟩]

/-- Every write takes up to three bytes. -/
theorem http_post_three : ∃ c, httpPost (fun _ => some 2) [104] [47] 3 threeBytes = some c ∧
    Posted [104] [47] (contents threeBytes) c.sent := by
  have hfits : ¬ request_size ≤ (requestLines [104] [47] 3 ++ headers_end).length := by
    have hdecimal : (decimal 3).length ≤ 1 := decimal_length_le (by decide) (by decide)
    simp only [requestLines, request_size, List.length_append, post, http10, host, crlf,
      contentLength, headers_end, List.length_cons, List.length_nil]
    omega
  obtain ⟨c, hc⟩ : ∃ c, httpPost (fun _ => some 2) [104] [47] 3 threeBytes = some c := by
    simp only [httpPost, if_neg hfits]
    exact ⟨_, rfl⟩
  refine ⟨c, hc, (http_post_iff hc).mpr ⟨by decide, by decide,
    fun _ _ _ => rfl, rfl⟩⟩

end
end Acos.HttpPost
