import Acos.DnsResolver.Model

/-! Which received buffers `parse_dns_packet` and `get_ip` handle without leaving an array. The
condition is read off the bytes from front to back, without positions. -/
namespace Acos.DnsResolver
open Acos.Buffer Acos.CString

/-- A number in network order. -/
def net16 (high low : UInt8) : ℕ := 256 * high.toNat + low.toNat

def questionsCount (buffer : Bytes) : ℕ := net16 (buffer.getD 4 0) (buffer.getD 5 0)

def answersCount (buffer : Bytes) : ℕ := net16 (buffer.getD 6 0) (buffer.getD 7 0)

/-- The bytes after a question: a name up to its terminator, and four bytes. -/
def afterQuestion (bytes : Bytes) : Option Bytes :=
  match bytes.dropWhile (· ≠ 0) with
  | [] => none
  | _ :: rest => some (rest.drop 4)

def afterQuestions : ℕ → Bytes → Option Bytes
  | 0, bytes => some bytes
  | count + 1, bytes => (afterQuestion bytes).bind fun rest => afterQuestions count rest

/-- Each answer starts with 16 bytes; the length of its data says where the next one starts. -/
def AnswersFit : ℕ → Bytes → Prop
  | 0, _ => True
  | count + 1, bytes =>
    16 ≤ bytes.length ∧
      AnswersFit count (bytes.drop (12 + net16 (bytes.getD 10 0) (bytes.getD 11 0)))

/-- At most ten answers, and all that is read of the questions and answers is there. -/
structure ReplyFits (buffer : Bytes) : Prop where
  few : answersCount buffer ≤ 10
  inside : ∃ rest, afterQuestions (questionsCount buffer) (buffer.drop 12) = some rest ∧
    AnswersFit (answersCount buffer) rest

theorem ntohs_word16 (a b : UInt8) : (ntohs (word16 a b)).toNat = net16 a b := by
  have ha := a.toNat_lt
  have hb := b.toNat_lt
  have hword : (word16 a b).toNat = a.toNat + 256 * b.toNat := by
    rw [word16, UInt16.toNat_ofNat']
    omega
  have hhigh : (a.toNat + 256 * b.toNat) / 256 = b.toNat := by omega
  have hlow : (a.toNat + 256 * b.toNat) % 256 = a.toNat := by omega
  rw [ntohs, UInt16.toNat_ofNat', hword, hhigh, hlow, net16]
  omega

theorem afterQuestion_strlenAt (buffer : Bytes) (pos : ℕ) :
    afterQuestion (buffer.drop pos) =
      (strlenAt buffer pos).map fun len => buffer.drop (pos + (len + 1) + 4) := by
  have hsplit := List.takeWhile_append_dropWhile (p := (· ≠ 0)) (l := buffer.drop pos)
  have hname : (buffer.drop pos).takeWhile (· ≠ 0) = cString (buffer.drop pos) := rfl
  rw [hname] at hsplit
  unfold afterQuestion strlenAt
  cases hrest : (buffer.drop pos).dropWhile (· ≠ 0) with
  | nil =>
    rw [hrest, List.append_nil] at hsplit
    rw [hsplit, if_neg (lt_irrefl _)]
    rfl
  | cons c rest =>
    rw [hrest] at hsplit
    have hlen : (cString (buffer.drop pos)).length < (buffer.drop pos).length := by
      have hcount := congrArg List.length hsplit
      rw [List.length_append, List.length_cons] at hcount
      omega
    have hdrop : buffer.drop (pos + ((cString (buffer.drop pos)).length + 1) + 4) =
        rest.drop 4 := by
      rw [← List.drop_drop, ← List.drop_drop]
      congr 1
      nth_rewrite 2 [← hsplit]
      rw [← List.drop_drop, List.drop_left]
      rfl
    rw [if_pos hlen, Option.map_some, hdrop]

theorem strlenAt_le {buffer : Bytes} {pos len : ℕ} (h : strlenAt buffer pos = some len) :
    pos + len < buffer.length := by
  unfold strlenAt at h
  split_ifs at h with hlt
  cases h
  rw [List.length_drop] at hlt
  omega

section Loops
variable {buffer : Bytes}

theorem skipLoop_afterQuestions (hbuffer : buffer.length = 1000) (count : ℕ) {elapsed : UInt32}
    (helapsed : elapsed.toNat ≤ 1004) :
    afterQuestions count (buffer.drop elapsed.toNat) =
        (skipLoop buffer count elapsed).map (fun e => buffer.drop e.toNat) ∧
      ∀ e, skipLoop buffer count elapsed = some e → e.toNat ≤ 1004 := by
  induction count generalizing elapsed with
  | zero =>
    refine ⟨rfl, fun e he => ?_⟩
    cases he
    exact helapsed
  | succ count ih =>
    rw [afterQuestions, afterQuestion_strlenAt]
    unfold skipLoop
    cases hlen : strlenAt buffer elapsed.toNat with
    | none => exact ⟨rfl, fun e he => by cases he⟩
    | some len =>
      have hle := strlenAt_le hlen
      have hnext : (elapsed + UInt32.ofNat (len + 1) + 4).toNat =
          elapsed.toNat + (len + 1) + 4 := by
        rw [UInt32.toNat_add, UInt32.toNat_add, UInt32.toNat_ofNat']
        show ((elapsed.toNat + (len + 1) % 2 ^ 32) % 2 ^ 32 + 4) % 2 ^ 32 = _
        omega
      have hrest := @ih (elapsed + UInt32.ofNat (len + 1) + 4) (by omega)
      rw [hnext] at hrest
      exact hrest

theorem exists_sixteen (bytes : Bytes) (h : 16 ≤ bytes.length) :
    ∃ answer, Answer.ofBytes (bytes.take 16) = some answer ∧
      (ntohs answer.data_length).toNat = net16 (bytes.getD 10 0) (bytes.getD 11 0) := by
  match bytes, h with
  | n0 :: n1 :: t0 :: t1 :: c0 :: c1 :: l0 :: l1 :: l2 :: l3 :: d0 :: d1 :: i0 :: i1 :: i2 :: i3 ::
      rest, _ =>
    exact ⟨_, rfl, ntohs_word16 d0 d1⟩

theorem answerLoop_isSome (hbuffer : buffer.length = 1000) (count : ℕ) {i : ℕ} (elapsed : UInt32)
    (answers : ℕ → Answer) (hi : i ≤ 10) :
    (answerLoop buffer count i elapsed answers).isSome ↔
      i + count ≤ 10 ∧ AnswersFit count (buffer.drop elapsed.toNat) := by
  induction count generalizing i elapsed answers with
  | zero => simp [answerLoop, AnswersFit, hi]
  | succ count ih =>
    rw [answerLoop, AnswersFit]
    by_cases hfits : 16 ≤ (buffer.drop elapsed.toNat).length
    · rw [List.length_drop] at hfits
      have hload : load buffer elapsed.toNat 16 = some ((buffer.drop elapsed.toNat).take 16) := by
        rw [load, if_pos (by omega)]
      obtain ⟨answer, hanswer, hdata⟩ :=
        exists_sixteen (buffer.drop elapsed.toNat) (by rw [List.length_drop]; omega)
      have hnext : (elapsed + UInt32.ofNat (ntohs answer.data_length).toNat - 4 + 16).toNat =
          elapsed.toNat + (12 + (ntohs answer.data_length).toNat) := by
        have hlt := (ntohs answer.data_length).toNat_lt
        rw [UInt32.toNat_add, UInt32.toNat_sub, UInt32.toNat_add, UInt32.toNat_ofNat']
        show ((2 ^ 32 - 4 + (elapsed.toNat + (ntohs answer.data_length).toNat % 2 ^ 32) % 2 ^ 32) %
          2 ^ 32 + 16) % 2 ^ 32 = _
        omega
      simp only [hload, hanswer, Option.bind_eq_bind, Option.bind_some]
      by_cases hlt : i < answersSize
      · have hrest := ih (i := i + 1)
          (elapsed + UInt32.ofNat (ntohs answer.data_length).toNat - 4 + 16)
          (Function.update answers i answer) hlt
        rw [hnext] at hrest
        rw [if_pos hlt, hrest, List.drop_drop, hdata]
        constructor
        · rintro ⟨hcount, hinside⟩
          exact ⟨by omega, by rw [List.length_drop]; omega, hinside⟩
        · rintro ⟨hcount, -, hinside⟩
          exact ⟨by omega, hinside⟩
      · rw [if_neg hlt]
        unfold answersSize at hlt
        simp only [Option.isSome_none, Bool.false_eq_true, false_iff, not_and]
        omega
    · have hload : load buffer elapsed.toNat 16 = none := by
        rw [List.length_drop] at hfits
        rw [load, if_neg (by omega)]
      have hnone : (none : Option (ℕ → Answer)).isSome ↔
          i + (count + 1) ≤ 10 ∧ 16 ≤ (buffer.drop elapsed.toNat).length ∧
            AnswersFit count ((buffer.drop elapsed.toNat).drop
              (12 + net16 ((buffer.drop elapsed.toNat).getD 10 0)
                ((buffer.drop elapsed.toNat).getD 11 0))) :=
        ⟨fun h => (by cases h), fun h => absurd h.2.1 hfits⟩
      rw [hload]
      exact hnone

theorem ipLoop_isSome (answers : ℕ → Answer) {count i : ℕ} (h : i + count ≤ 10) :
    (ipLoop answers count i).isSome := by
  induction count generalizing i with
  | zero => rfl
  | succ count ih =>
    rw [ipLoop, if_pos (by unfold answersSize; omega)]
    split_ifs
    · rfl
    · exact ih (by omega)

end Loops

theorem header_ofBytes {buffer : Bytes} (h : 12 ≤ buffer.length) :
    ∃ header, (load buffer 0 12).bind Header.ofBytes = some header ∧
      (ntohs header.questions_count).toNat = questionsCount buffer ∧
      (ntohs header.answers_count).toNat = answersCount buffer := by
  match buffer, h with
  | t0 :: t1 :: f0 :: f1 :: q0 :: q1 :: a0 :: a1 :: u0 :: u1 :: x0 :: x1 :: rest, _ =>
    exact ⟨⟨word16 t0 t1, (f0, f1), word16 q0 q1, word16 a0 a1, word16 u0 u1, word16 x0 x1⟩,
      by simp [load, Header.ofBytes], ntohs_word16 q0 q1, ntohs_word16 a0 a1⟩

theorem parseReply_eq {buffer : Bytes} (hbuffer : 12 ≤ buffer.length) (answers : ℕ → Answer) :
    parseReply buffer answers =
      (skipLoop buffer (questionsCount buffer) 12).bind fun elapsed =>
        (answerLoop buffer (answersCount buffer) 0 elapsed answers).bind fun answers' =>
          ipLoop answers' (answersCount buffer) 0 := by
  obtain ⟨header, hheader, hquestions, hanswers⟩ := header_ofBytes hbuffer
  obtain ⟨bytes, hload, hbytes⟩ := Option.bind_eq_some_iff.mp hheader
  simp only [parseReply, parseDnsPacket, getIp, Option.bind_eq_bind, hload, hbytes, hquestions,
    hanswers, Option.bind_some, Option.bind_assoc]

/-- A buffer is handled inside the arrays if and only if it fits. -/
theorem parse_reply_iff (buffer : Bytes) (answers : ℕ → Answer) (hbuffer : buffer.length = 1000) :
    (parseReply buffer answers).isSome ↔ ReplyFits buffer := by
  obtain ⟨hskip, hend⟩ := skipLoop_afterQuestions hbuffer (questionsCount buffer)
    (show (12 : UInt32).toNat ≤ 1004 by decide)
  have htwelve : (12 : UInt32).toNat = 12 := rfl
  rw [htwelve] at hskip
  rw [parseReply_eq (by omega)]
  cases hquestions : skipLoop buffer (questionsCount buffer) 12 with
  | none =>
    rw [hquestions, Option.map_none] at hskip
    constructor
    · intro h
      cases h
    · intro h
      obtain ⟨rest, hrest, -⟩ := h.inside
      rw [hskip] at hrest
      cases hrest
  | some elapsed =>
    rw [hquestions, Option.map_some] at hskip
    have hloop := answerLoop_isSome hbuffer (answersCount buffer) elapsed answers
      (Nat.zero_le 10)
    rw [Nat.zero_add] at hloop
    rw [Option.bind_some]
    constructor
    · intro h
      obtain ⟨ip, hip⟩ := Option.isSome_iff_exists.mp h
      obtain ⟨answers', hanswers, -⟩ := Option.bind_eq_some_iff.mp hip
      obtain ⟨hfew, hfit⟩ := hloop.mp (by rw [hanswers]; rfl)
      exact ⟨hfew, _, hskip, hfit⟩
    · intro h
      obtain ⟨rest, hrest, hfit⟩ := h.inside
      rw [hskip] at hrest
      cases hrest
      obtain ⟨answers', hanswers⟩ := Option.isSome_iff_exists.mp (hloop.mpr ⟨h.few, hfit⟩)
      rw [hanswers, Option.bind_some]
      exact ipLoop_isSome answers' (by rw [Nat.zero_add]; exact h.few)

/-- A header that announces `n` answers and no questions, and zeros. -/
def announcing (n : UInt8) : Bytes := [0, 0, 0, 0, 0, 0, 0, n] ++ List.replicate 992 0

theorem announcing_length (n : UInt8) : (announcing n).length = 1000 := by
  simp only [announcing, List.length_append, List.length_replicate, List.length_cons,
    List.length_nil]

def noAnswer : Answer := ⟨0, 0, 0, [], 0, []⟩

/-- A question for `a.b`, an answer with two bytes of text and one with an address. -/
def textAndAddress (rest : Bytes) : Bytes :=
  [0, 0, 129, 128, 0, 1, 0, 2, 0, 0, 0, 0, 1, 97, 1, 98, 0, 0, 1, 0, 1,
    192, 12, 0, 16, 0, 1, 0, 0, 0, 60, 0, 2, 104, 105,
    192, 12, 0, 1, 0, 1, 0, 0, 0, 60, 0, 4, 10, 0, 0, 1] ++ rest

theorem textAndAddress_fits (rest : Bytes) : ReplyFits (textAndAddress rest) where
  few := Nat.le_of_ble_eq_true rfl
  inside := by
    refine ⟨(textAndAddress rest).drop 21, rfl, ?_, ?_, trivial⟩
    · exact Nat.le_add_left 16 _
    · exact Nat.le_add_left 16 _

theorem parse_reply_text_and_address :
    (parseReply (textAndAddress (List.replicate 949 0)) fun _ => noAnswer).isSome :=
  (parse_reply_iff _ _ (by
    rw [textAndAddress, List.length_append, List.length_replicate]
    rfl)).mpr (textAndAddress_fits _)

/-- A reply that announces eleven answers makes the parser leave its array or the buffer. -/
theorem parse_reply_eleven_answers : ¬ ∀ buffer answers, buffer.length = 1000 →
    (parseReply buffer answers).isSome := by
  intro hall
  have hsome := hall (announcing 11) (fun _ => noAnswer) (announcing_length 11)
  rw [parseReply_eq (by rw [announcing_length]; omega)] at hsome
  obtain ⟨ip, hip⟩ := Option.isSome_iff_exists.mp hsome
  obtain ⟨elapsed, -, hrest⟩ := Option.bind_eq_some_iff.mp hip
  obtain ⟨answers, hanswers, -⟩ := Option.bind_eq_some_iff.mp hrest
  have hcount : answersCount (announcing 11) = 11 := rfl
  have hloop := (answerLoop_isSome (announcing_length 11) (answersCount (announcing 11)) _ _
    (Nat.zero_le 10)).mp (by rw [hanswers]; rfl)
  omega

end Acos.DnsResolver
