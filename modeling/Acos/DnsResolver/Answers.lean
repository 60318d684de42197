import Acos.DnsResolver.Question
import Acos.DnsResolver.Reply

/-! What `parse_dns_packet` and `get_ip` find in a whole reply that follows the format of DNS. The
names of the questions are passed over as C strings. -/
namespace Acos.DnsResolver
open Acos.Buffer Acos.CString

/-- A number of 16 bits in network order. -/
def netBytes (x : UInt16) : Bytes := [UInt8.ofNat (x.toNat / 256), UInt8.ofNat x.toNat]

/-- A question with an uncompressed name; a label may hold any octets. -/
structure AskedQuestion where
  labels : List Bytes
  type : UInt16
  «class» : UInt16

def AskedQuestion.bytes (q : AskedQuestion) : Bytes :=
  encodeName q.labels ++ 0 :: (netBytes q.type ++ netBytes q.class)

structure AskedQuestion.WellFormed (q : AskedQuestion) : Prop where
  short : ∀ label ∈ q.labels, 0 < label.length ∧ label.length ≤ 63
  total : (encodeName q.labels).length ≤ 254

/-- A resource record; its owner is a pointer to a name in the message. -/
structure Record where
  pointer : UInt8 × UInt8
  type : UInt16
  «class» : UInt16
  ttl : UInt8 × UInt8 × UInt8 × UInt8
  data : Bytes

/-- The part of a record in front of its data. -/
def Record.head (r : Record) : Bytes :=
  [r.pointer.1, r.pointer.2] ++ netBytes r.type ++ netBytes r.class ++
    [r.ttl.1, r.ttl.2.1, r.ttl.2.2.1, r.ttl.2.2.2] ++ netBytes (UInt16.ofNat r.data.length)

def Record.bytes (r : Record) : Bytes := r.head ++ r.data

/-- A record of type A (1) holds an address of four bytes. -/
structure Record.WellFormed (r : Record) : Prop where
  pointer : 0xC0 ≤ r.pointer.1
  length : r.data.length < 2 ^ 16
  address : r.type = 1 → r.data.length = 4

structure Reply where
  transaction_id : UInt8 × UInt8
  flags : UInt8 × UInt8
  questions : List AskedQuestion
  answers : List Record
  authority : UInt16
  additional : UInt16
  /-- The two other sections. -/
  rest : Bytes

def Reply.header (reply : Reply) : Bytes :=
  [reply.transaction_id.1, reply.transaction_id.2, reply.flags.1, reply.flags.2] ++
    netBytes (UInt16.ofNat reply.questions.length) ++
    netBytes (UInt16.ofNat reply.answers.length) ++ netBytes reply.authority ++
    netBytes reply.additional

def Reply.bytes (reply : Reply) : Bytes :=
  reply.header ++ (reply.questions.flatMap AskedQuestion.bytes ++
    (reply.answers.flatMap Record.bytes ++ reply.rest))

structure Reply.WellFormed (reply : Reply) : Prop where
  countable : reply.questions.length < 2 ^ 16
  few : reply.answers.length ≤ 10
  questions : ∀ q ∈ reply.questions, q.WellFormed
  answers : ∀ r ∈ reply.answers, r.WellFormed

/-- The data of the first answer of type A, zeros if there is none. -/
def firstAddress : List Record → Bytes
  | [] => [0, 0, 0, 0]
  | r :: records => if r.type = 1 then r.data else firstAddress records

/-- From position `pos` on, `size` bytes have room for 16 bytes from the start of every record. -/
def RecordsInside (size : ℕ) : ℕ → List Record → Prop
  | _, [] => True
  | pos, r :: records => pos + 16 ≤ size ∧ RecordsInside size (pos + r.bytes.length) records

/-- The reply is there as a whole, and so are the 16 bytes from the start of each of its answers. -/
structure Reply.Holds (reply : Reply) (buffer : Bytes) : Prop where
  whole : reply.bytes <+: buffer
  records : RecordsInside buffer.length
    (12 + (reply.questions.flatMap AskedQuestion.bytes).length) reply.answers

/-- Read as strings with four bytes behind each, the questions end where their section ends. -/
def SkippedExactly (questions : List AskedQuestion) : Prop :=
  afterQuestions questions.length (questions.flatMap AskedQuestion.bytes) = some []

section Questions
variable {buffer : Bytes}

/-- The first terminator of a text with one has four bytes behind it. -/
theorem split_string (text four : Bytes) (hfour : four.length = 4) :
    ∃ name next left, text ++ 0 :: four = name ++ 0 :: (next ++ left) ∧ (∀ c ∈ name, c ≠ 0) ∧
      next.length = 4 := by
  induction text with
  | nil => exact ⟨[], four, [], by simp, by simp, hfour⟩
  | cons c text ih =>
    by_cases hc : c = 0
    · refine ⟨[], (text ++ 0 :: four).take 4, (text ++ 0 :: four).drop 4, ?_, by simp, ?_⟩
      · rw [hc, List.take_append_drop]
        rfl
      · rw [List.length_take, List.length_append, List.length_cons]
        omega
    · obtain ⟨name, next, left, hsplit, hname, hnext⟩ := ih
      refine ⟨c :: name, next, left, ?_, List.forall_mem_cons.mpr ⟨hc, hname⟩, hnext⟩
      rw [List.cons_append, hsplit]
      rfl

theorem takeWhile_string {name : Bytes} (rest : Bytes) (hname : ∀ c ∈ name, c ≠ 0) :
    (name ++ 0 :: rest).takeWhile (· ≠ 0) = name := by
  rw [List.takeWhile_append_of_pos (by simpa using hname)]
  simp

theorem afterQuestion_string {name next : Bytes} (rest : Bytes) (hname : ∀ c ∈ name, c ≠ 0)
    (hnext : next.length = 4) :
    afterQuestion (name ++ 0 :: (next ++ rest)) = some rest := by
  have hdrop : (name ++ 0 :: (next ++ rest)).dropWhile (· ≠ 0) = 0 :: (next ++ rest) := by
    rw [List.dropWhile_append_of_pos (by simpa using hname)]
    simp
  rw [afterQuestion, hdrop]
  dsimp only
  rw [← hnext, List.drop_left]

theorem strlenAt_string {name rest : Bytes} {pos : ℕ} (hname : ∀ c ∈ name, c ≠ 0)
    (h : buffer.drop pos = name ++ 0 :: rest) : strlenAt buffer pos = some name.length := by
  have hstring : cString (buffer.drop pos) = name := by
    rw [h]
    exact takeWhile_string rest hname
  have hlen : name.length < (buffer.drop pos).length := by
    rw [h, List.length_append, List.length_cons]
    omega
  rw [strlenAt, hstring, if_pos hlen]

theorem questionBytes_eq (q : AskedQuestion) :
    q.bytes = encodeName q.labels ++ 0 :: (netBytes q.type ++ netBytes q.class) := rfl

theorem questionBytes_length (q : AskedQuestion) :
    q.bytes.length = (encodeName q.labels).length + 5 := by
  simp [AskedQuestion.bytes, netBytes]

/-- The walk over the questions stays inside their section and leaves some last bytes of it, the
same whatever follows. `front` is what the questions before have left. -/
theorem skipLoop_section (questions : List AskedQuestion) (front : Bytes) :
    ∃ left, afterQuestions questions.length (front ++ questions.flatMap AskedQuestion.bytes) =
        some left ∧
      ∀ (buffer : Bytes) (elapsed : UInt32) (rest : Bytes),
        elapsed.toNat + (front ++ questions.flatMap AskedQuestion.bytes).length < 2 ^ 32 →
        buffer.drop elapsed.toNat =
          front ++ questions.flatMap AskedQuestion.bytes ++ rest →
        ∃ e, skipLoop buffer questions.length elapsed = some e ∧
          buffer.drop e.toNat = left ++ rest ∧ e.toNat + left.length =
            elapsed.toNat + (front ++ questions.flatMap AskedQuestion.bytes).length := by
  induction questions generalizing front with
  | nil =>
    refine ⟨front, by simp [afterQuestions], fun buffer elapsed rest _ hdrop => ?_⟩
    rw [List.flatMap_nil, List.append_nil] at hdrop ⊢
    exact ⟨elapsed, rfl, hdrop, rfl⟩
  | cons q questions ih =>
    obtain ⟨name, next, left, hsplit, hname, hnext⟩ :=
      split_string (front ++ encodeName q.labels) (netBytes q.type ++ netBytes q.class) rfl
    obtain ⟨last, hafter, hskip⟩ := ih left
    have hbytes : front ++ (q :: questions).flatMap AskedQuestion.bytes =
        name ++ 0 :: (next ++ (left ++ questions.flatMap AskedQuestion.bytes)) := by
      rw [List.flatMap_cons, questionBytes_eq, ← List.append_assoc, ← List.append_assoc, hsplit]
      simp
    rw [hbytes]
    refine ⟨last, ?_, fun buffer elapsed rest hroom hdrop => ?_⟩
    · rw [List.length_cons, afterQuestions, afterQuestion_string _ hname hnext, Option.bind_some,
        hafter]
    · have hstring : buffer.drop elapsed.toNat = name ++ 0 :: (next ++
          (left ++ questions.flatMap AskedQuestion.bytes ++ rest)) := by
        rw [hdrop]
        simp
      have hlen : (name ++ 0 :: (next ++ (left ++ questions.flatMap AskedQuestion.bytes))).length =
          name.length + 5 + (left ++ questions.flatMap AskedQuestion.bytes).length := by
        rw [List.length_append, List.length_cons, List.length_append, hnext]
        omega
      rw [hlen] at hroom ⊢
      have htoNat : (elapsed + UInt32.ofNat (name.length + 1) + 4).toNat =
          elapsed.toNat + (name.length + 5) := by
        rw [UInt32.toNat_add, UInt32.toNat_add, UInt32.toNat_ofNat']
        show ((elapsed.toNat + (name.length + 1) % 2 ^ 32) % 2 ^ 32 + 4) % 2 ^ 32 = _
        omega
      have hback : buffer.drop (elapsed + UInt32.ofNat (name.length + 1) + 4).toNat =
          left ++ questions.flatMap AskedQuestion.bytes ++ rest := by
        have hfive : (name ++ 0 :: next).length = name.length + 5 := by
          rw [List.length_append, List.length_cons, hnext]
        rw [htoNat, ← List.drop_drop, hstring, ← hfive, ← List.cons_append, ← List.append_assoc,
          List.drop_left]
      obtain ⟨e, he, hrest, hpos⟩ := hskip buffer _ rest (by rw [htoNat]; omega) hback
      refine ⟨e, ?_, hrest, by rw [hpos, htoNat]; omega⟩
      rw [List.length_cons, skipLoop, strlenAt_string hname hstring]
      exact he

/-- Without a NUL octet the questions are passed over one by one. -/
theorem skippedExactly_of_plain {questions : List AskedQuestion}
    (hquestions : ∀ q ∈ questions, ∀ c ∈ encodeName q.labels, c ≠ 0) :
    SkippedExactly questions := by
  unfold SkippedExactly
  induction questions with
  | nil => rfl
  | cons q questions ih =>
    obtain ⟨hq, hrest⟩ := List.forall_mem_cons.mp hquestions
    rw [List.length_cons, afterQuestions, List.flatMap_cons, questionBytes_eq, List.append_assoc,
      List.cons_append, afterQuestion_string _ hq rfl, Option.bind_some, ih hrest]

end Questions

section Records
variable {buffer : Bytes}

theorem net16_netBytes {n : ℕ} (h : n < 2 ^ 16) :
    net16 (UInt8.ofNat ((UInt16.ofNat n).toNat / 256)) (UInt8.ofNat (UInt16.ofNat n).toNat) =
      n := by
  rw [UInt16.toNat_ofNat', Nat.mod_eq_of_lt h, net16, UInt8.toNat_ofNat', UInt8.toNat_ofNat']
  omega

theorem htons_toNat (x : UInt16) : (htons x).toNat = x.toNat / 256 + 256 * (x.toNat % 256) := by
  have hx := x.toNat_lt
  rw [htons, ntohs, UInt16.toNat_ofNat', Nat.mod_eq_of_lt (by omega)]

theorem ntohs_htons (x : UInt16) : ntohs (htons x) = x := by
  apply UInt16.toNat_inj.mp
  have hx := x.toNat_lt
  have hswap := htons_toNat (htons x)
  rw [htons_toNat x] at hswap
  show (htons (htons x)).toNat = _
  omega

theorem word16_netBytes (x : UInt16) :
    word16 (UInt8.ofNat (x.toNat / 256)) (UInt8.ofNat x.toNat) = htons x := by
  apply UInt16.toNat_inj.mp
  have hx := x.toNat_lt
  have hhigh : x.toNat / 256 % 2 ^ 8 = x.toNat / 256 := Nat.mod_eq_of_lt (by omega)
  rw [htons_toNat, word16, UInt8.toNat_ofNat', UInt8.toNat_ofNat', UInt16.toNat_ofNat', hhigh,
    Nat.mod_eq_of_lt (by omega)]

/-- What `memcpy` makes of a record and the four bytes behind its head. -/
def Record.overlay (r : Record) (ip : Bytes) : Answer where
  name_ptr := word16 r.pointer.1 r.pointer.2
  type := htons r.type
  «class» := htons r.class
  ttl := [r.ttl.1, r.ttl.2.1, r.ttl.2.2.1, r.ttl.2.2.2]
  data_length := htons (UInt16.ofNat r.data.length)
  ip := ip

/-- What the functions use of a record. -/
structure Matches (answer : Answer) (r : Record) : Prop where
  type : ntohs answer.type = r.type
  data_length : (ntohs answer.data_length).toNat = r.data.length
  ip : r.type = 1 → answer.ip = r.data

theorem recordHead_length (r : Record) : r.head.length = 12 := rfl

theorem recordBytes_length (r : Record) : r.bytes.length = 12 + r.data.length := by
  rw [Record.bytes, List.length_append, recordHead_length]

theorem ofBytes_head (r : Record) {ip : Bytes} (hip : ip.length = 4) :
    Answer.ofBytes (r.head ++ ip) = some (r.overlay ip) := by
  obtain ⟨i0, i1, i2, i3, rfl⟩ := List.length_eq_four.mp hip
  simp only [Record.overlay, ← word16_netBytes]
  rfl

theorem load_record {r : Record} {rest : Bytes} {pos : ℕ} (hr : r.WellFormed)
    (h : buffer.drop pos = r.bytes ++ rest) (hin : pos + 16 ≤ buffer.length) :
    ∃ answer, (load buffer pos 16).bind Answer.ofBytes = some answer ∧ Matches answer r := by
  have hlen := congrArg List.length h
  rw [Record.bytes, List.append_assoc] at h
  rw [List.length_drop, List.length_append, recordBytes_length] at hlen
  have htake : (buffer.drop pos).take 16 = r.head ++ (r.data ++ rest).take 4 := by
    rw [h, List.take_append, List.take_of_length_le (Nat.le_of_ble_eq_true rfl),
      recordHead_length]
  refine ⟨r.overlay ((r.data ++ rest).take 4), ?_, ntohs_htons _, ?_, fun hA => ?_⟩
  · rw [load, if_pos hin, htake, Option.bind_some]
    exact ofBytes_head r (by rw [List.length_take, List.length_append]; omega)
  · have hfits := hr.length
    show (ntohs (htons _)).toNat = _
    rw [ntohs_htons, UInt16.toNat_ofNat']
    omega
  · show (r.data ++ rest).take 4 = _
    rw [← hr.address hA, List.take_left]

theorem answerLoop_records {records : List Record} {elapsed : UInt32} {rest : Bytes} {i : ℕ}
    (answers : ℕ → Answer) (hrecords : ∀ r ∈ records, r.WellFormed)
    (h : buffer.drop elapsed.toNat = records.flatMap Record.bytes ++ rest)
    (hroom : elapsed.toNat + (records.flatMap Record.bytes).length < 2 ^ 32)
    (hfew : i + records.length ≤ answersSize)
    (hinside : RecordsInside buffer.length elapsed.toNat records) :
    ∃ answers', answerLoop buffer records.length i elapsed answers = some answers' ∧
      (∀ k r, records[k]? = some r → Matches (answers' (i + k)) r) ∧
      ∀ j < i, answers' j = answers j := by
  induction records generalizing elapsed i answers with
  | nil => exact ⟨answers, rfl, by simp, fun _ _ => rfl⟩
  | cons r records ih =>
    obtain ⟨hr, hrest⟩ := List.forall_mem_cons.mp hrecords
    obtain ⟨hin, hinside⟩ := hinside
    rw [List.flatMap_cons, List.append_assoc] at h
    rw [List.flatMap_cons, List.length_append] at hroom
    rw [List.length_cons] at hfew ⊢
    have hsize := recordBytes_length r
    obtain ⟨answer, hload, hmatch⟩ := load_record hr h hin
    obtain ⟨bytes, hbytes, hanswer⟩ := Option.bind_eq_some_iff.mp hload
    -- the subtraction makes up for the four bytes that the head already counts
    have hnext : (elapsed + UInt32.ofNat (ntohs answer.data_length).toNat - 4 + 16).toNat =
        elapsed.toNat + r.bytes.length := by
      rw [hmatch.data_length, UInt32.toNat_add, UInt32.toNat_sub, UInt32.toNat_add,
        UInt32.toNat_ofNat']
      show ((2 ^ 32 - 4 + (elapsed.toNat + r.data.length % 2 ^ 32) % 2 ^ 32) % 2 ^ 32 + 16) %
        2 ^ 32 = _
      omega
    have hback : buffer.drop (elapsed.toNat + r.bytes.length) =
        records.flatMap Record.bytes ++ rest := by
      rw [← List.drop_drop, h, List.drop_left]
    rw [← hnext] at hback hinside
    obtain ⟨answers', hloop, hmatches, hframe⟩ := ih (i := i + 1)
      (Function.update answers i answer) hrest hback (by omega) (by omega) hinside
    rw [answerLoop]
    simp only [hbytes, hanswer, Option.bind_eq_bind, Option.bind_some]
    rw [if_pos (by omega)]
    refine ⟨answers', hloop, fun k r' hk => ?_, fun j hj => ?_⟩
    · cases k with
      | zero =>
        obtain rfl : r = r' := by simpa using hk
        rw [Nat.add_zero, hframe i (by omega), Function.update_self]
        exact hmatch
      | succ k =>
        rw [show i + (k + 1) = i + 1 + k by omega]
        exact hmatches k r' (by simpa using hk)
    · rw [hframe j (by omega), Function.update_of_ne (by omega)]

theorem ipLoop_matches {answers : ℕ → Answer} {records : List Record} {i : ℕ}
    (hmatches : ∀ k r, records[k]? = some r → Matches (answers (i + k)) r)
    (hfew : i + records.length ≤ answersSize) :
    ipLoop answers records.length i = some (firstAddress records) := by
  induction records generalizing i with
  | nil => rfl
  | cons r records ih =>
    have hr := hmatches 0 r rfl
    rw [List.length_cons] at hfew ⊢
    rw [Nat.add_zero] at hr
    rw [ipLoop, if_pos (by omega), hr.type, firstAddress]
    by_cases hA : r.type = 1
    · rw [if_pos hA, if_pos hA, hr.ip hA]
    · rw [if_neg hA, if_neg hA]
      apply ih _ (by omega)
      intro k r' hk
      rw [show i + 1 + k = i + (k + 1) by omega]
      exact hmatches (k + 1) r' (by simpa using hk)

end Records

theorem answersBytes_length_le {records : List Record} (h : ∀ r ∈ records, r.WellFormed) :
    (records.flatMap Record.bytes).length ≤ records.length * (12 + 2 ^ 16) := by
  induction records with
  | nil => rfl
  | cons r records ih =>
    obtain ⟨hr, hrest⟩ := List.forall_mem_cons.mp h
    have hle := ih hrest
    have hlen := hr.length
    rw [List.flatMap_cons, List.length_append, recordBytes_length, List.length_cons]
    omega

theorem questionsBytes_length_le {questions : List AskedQuestion}
    (h : ∀ q ∈ questions, q.WellFormed) :
    (questions.flatMap AskedQuestion.bytes).length ≤ questions.length * 259 := by
  induction questions with
  | nil => rfl
  | cons q questions ih =>
    obtain ⟨hq, hrest⟩ := List.forall_mem_cons.mp h
    have hle := ih hrest
    have htotal := hq.total
    rw [List.flatMap_cons, List.length_append, questionBytes_length, List.length_cons]
    omega

section Main
variable {reply : Reply} {buffer : Bytes}

theorem header_length (reply : Reply) : reply.header.length = 12 := rfl

/-- The counts of the header, and what follows it. -/
theorem parse_counts (hreply : reply.WellFormed) (hwhole : reply.bytes <+: buffer) :
    questionsCount buffer = reply.questions.length ∧ answersCount buffer = reply.answers.length ∧
      12 ≤ buffer.length ∧ ∃ rest, buffer.drop 12 =
        reply.questions.flatMap AskedQuestion.bytes ++
          (reply.answers.flatMap Record.bytes ++ rest) := by
  obtain ⟨after, rfl⟩ := hwhole
  have hfew := hreply.few
  have hsplit : reply.bytes ++ after =
      reply.header ++ (reply.questions.flatMap AskedQuestion.bytes ++
        (reply.answers.flatMap Record.bytes ++ (reply.rest ++ after))) := by
    simp only [Reply.bytes, List.append_assoc]
  rw [hsplit]
  refine ⟨net16_netBytes hreply.countable, net16_netBytes (by omega), ?_, reply.rest ++ after, ?_⟩
  · rw [List.length_append, header_length]
    omega
  · rw [← header_length reply, List.drop_left]

/-- The walk over the questions of a reply leaves some last bytes of their section. -/
theorem parseReply_skip (hreply : reply.WellFormed) (hwhole : reply.bytes <+: buffer)
    (answers : ℕ → Answer) : ∃ left rest e,
      afterQuestions reply.questions.length (reply.questions.flatMap AskedQuestion.bytes) =
        some left ∧
      buffer.drop e.toNat = left ++ (reply.answers.flatMap Record.bytes ++ rest) ∧
      e.toNat + left.length = 12 + (reply.questions.flatMap AskedQuestion.bytes).length ∧
      parseReply buffer answers =
        (answerLoop buffer reply.answers.length 0 e answers).bind fun answers' =>
          ipLoop answers' reply.answers.length 0 := by
  obtain ⟨hquestions, hanswers, htwelve, rest, hdrop⟩ := parse_counts hreply hwhole
  have hroom := questionsBytes_length_le hreply.questions
  have hcount := hreply.countable
  obtain ⟨left, hafter, hskip⟩ := skipLoop_section reply.questions []
  rw [List.nil_append] at hafter hskip
  obtain ⟨e, he, hleft, hpos⟩ := hskip buffer 12 (reply.answers.flatMap Record.bytes ++ rest)
    (show 12 + _ < 2 ^ 32 by omega) hdrop
  refine ⟨left, rest, e, hafter, hleft, hpos, ?_⟩
  rw [parseReply_eq htwelve, hquestions, hanswers, he, Option.bind_some]

/-- If nothing of the questions is left, the first address is found. -/
theorem parseReply_exact (hreply : reply.WellFormed) (hholds : reply.Holds buffer)
    (hskipped : SkippedExactly reply.questions) (answers : ℕ → Answer) :
    parseReply buffer answers = some (firstAddress reply.answers) := by
  obtain ⟨left, rest, e, hafter, hdrop, hpos, hparse⟩ :=
    parseReply_skip hreply hholds.whole answers
  have hroom := questionsBytes_length_le hreply.questions
  have hroom' := answersBytes_length_le hreply.answers
  have hcount := hreply.countable
  have hfew := hreply.few
  obtain rfl : left = [] := by
    rw [hskipped, Option.some.injEq] at hafter
    exact hafter.symm
  rw [List.nil_append] at hdrop
  rw [List.length_nil, Nat.add_zero] at hpos
  obtain ⟨answers', hloop, hmatches, -⟩ := @answerLoop_records buffer reply.answers e rest 0
    answers hreply.answers hdrop (by omega) (by unfold answersSize; omega)
    (by rw [hpos]; exact hholds.records)
  rw [hparse, hloop, Option.bind_some]
  exact ipLoop_matches hmatches (by unfold answersSize; omega)

/-- An answer of type A with the address `x.0.0.0`. -/
def addressRecord (x : UInt8) : Record := ⟨(0xC0, 12), 1, 1, (0, 0, 0, 60), [x, 0, 0, 0]⟩

theorem addressRecord_wellFormed (x : UInt8) : (addressRecord x).WellFormed :=
  ⟨UInt8.le_refl 192, by show 4 < 2 ^ 16; decide, fun _ => rfl⟩

/-- A reply with the questions and the answers, and nothing else. -/
def replyTo (questions : List AskedQuestion) (answers : List Record) : Reply :=
  ⟨(0, 0), (0x81, 0x80), questions, answers, 0, 0, []⟩

/-- Of one answer, the result is zeros or the four bytes from the twelfth on. -/
theorem parse_one {left rest : Bytes} {e : UInt32} (answers : ℕ → Answer)
    (hdrop : buffer.drop e.toNat = left ++ rest) (hlong : 16 ≤ rest.length) :
    ((answerLoop buffer 1 0 e answers).bind fun answers' => ipLoop answers' 1 0) =
        some [0, 0, 0, 0] ∨
      ((answerLoop buffer 1 0 e answers).bind fun answers' => ipLoop answers' 1 0) =
        some (((left ++ rest).drop 12).take 4) := by
  have hlen := congrArg List.length hdrop
  rw [List.length_drop, List.length_append] at hlen
  obtain ⟨answer, hanswer, hip⟩ : ∃ answer,
      Answer.ofBytes ((left ++ rest).take 16) = some answer ∧
        answer.ip = ((left ++ rest).drop 12).take 4 := by
    have hsixteen : 16 ≤ (left ++ rest).length := by
      rw [List.length_append]
      omega
    match left ++ rest, hsixteen with
    | n0 :: n1 :: t0 :: t1 :: c0 :: c1 :: l0 :: l1 :: l2 :: l3 :: d0 :: d1 :: i0 :: i1 :: i2 ::
        i3 :: back, _ => exact ⟨_, rfl, rfl⟩
  have hload : load buffer e.toNat 16 = some ((left ++ rest).take 16) := by
    rw [load, if_pos (by omega), hdrop]
  rw [answerLoop]
  simp only [hload, hanswer, Option.bind_eq_bind, Option.bind_some, answerLoop, ipLoop]
  rw [if_pos (by decide), Option.bind_some, if_pos (by decide), Function.update_self, hip]
  split_ifs
  · exact .inr rfl
  · exact .inl rfl

/-- Where something is left of the questions, the byte that is read as the first of the address is
not one of the address. -/
theorem read_early {left : Bytes} (hpos : 0 < left.length) : ∃ b, ∀ x rest,
    ((left ++ ((addressRecord x).bytes ++ rest)).drop 12).take 4 =
      b :: ((left ++ ((addressRecord x).bytes ++ rest)).drop 13).take 3 := by
  have hlen : 12 < (left ++ (addressRecord 0).head).length := by
    rw [List.length_append, recordHead_length]
    omega
  refine ⟨(left ++ (addressRecord 0).head).getD 12 0, fun x rest => ?_⟩
  have hsame : left ++ ((addressRecord x).bytes ++ rest) =
      (left ++ (addressRecord 0).head) ++ ([x, 0, 0, 0] ++ rest) := by
    simp [Record.bytes, Record.head, addressRecord]
  have hin : 12 < (left ++ (addressRecord 0).head ++ ([x, 0, 0, 0] ++ rest)).length := by
    rw [List.length_append]
    omega
  rw [hsame, List.drop_eq_getElem_cons hin, List.take_succ_cons, List.getElem_append_left hlen,
    List.getD_eq_getElem?_getD, List.getElem?_eq_getElem hlen, Option.getD_some]

theorem exists_other_byte (b : UInt8) : ∃ x : UInt8, x ≠ 0 ∧ x ≠ b := by
  by_cases hone : b = 1
  · exact ⟨2, by decide, by rw [hone]; decide⟩
  · exact ⟨1, by decide, Ne.symm hone⟩

theorem replyTo_wellFormed {questions : List AskedQuestion}
    (hcount : questions.length < 2 ^ 16) (hquestions : ∀ q ∈ questions, q.WellFormed) (x : UInt8) :
    (replyTo questions [addressRecord x]).WellFormed :=
  ⟨hcount, by show 1 ≤ 10; decide, hquestions,
    List.forall_mem_singleton.mpr (addressRecord_wellFormed x)⟩

/-- If something is left of the questions, some address is not found. -/
theorem parseReply_left {questions : List AskedQuestion} (hcount : questions.length < 2 ^ 16)
    (hquestions : ∀ q ∈ questions, q.WellFormed) (answers : ℕ → Answer)
    (hnot : ¬ SkippedExactly questions) :
    ∃ x, parseReply (replyTo questions [addressRecord x]).bytes answers ≠
      some (addressRecord x).data := by
  obtain ⟨left, hafter, -⟩ := skipLoop_section questions []
  rw [List.nil_append] at hafter
  have hpos : 0 < left.length := by
    apply List.length_pos_iff.mpr
    rintro rfl
    exact hnot hafter
  obtain ⟨b, hb⟩ := read_early hpos
  obtain ⟨x, hzero, hother⟩ := exists_other_byte b
  refine ⟨x, fun hparse => ?_⟩
  obtain ⟨left', rest, e, hafter', hdrop, -, heq⟩ :=
    parseReply_skip (replyTo_wellFormed hcount hquestions x) (List.prefix_refl _) answers
  obtain rfl : left = left' := Option.some.inj (hafter.symm.trans hafter')
  have hrecords : (replyTo questions [addressRecord x]).answers.flatMap Record.bytes =
      (addressRecord x).bytes := List.append_nil _
  rw [hrecords] at hdrop
  have hlong : 16 ≤ ((addressRecord x).bytes ++ rest).length := by
    rw [List.length_append, recordBytes_length]
    show 16 ≤ 12 + 4 + _
    omega
  rw [hparse] at heq
  rcases parse_one answers hdrop hlong with hresult | hresult
  · have hdata := Option.some.inj (heq.trans hresult)
    exact hzero (List.head_eq_of_cons_eq hdata)
  · rw [hb] at hresult
    have hdata := Option.some.inj (heq.trans hresult)
    exact hother (List.head_eq_of_cons_eq hdata)

/-- In every whole reply to these questions the first address is found, if and only if the
questions, read as strings, end where their section ends. -/
theorem parse_reply_address_iff (questions : List AskedQuestion)
    (hcount : questions.length < 2 ^ 16) (hquestions : ∀ q ∈ questions, q.WellFormed) :
    (∀ (reply : Reply) (buffer : Bytes) (answers : ℕ → Answer), reply.WellFormed →
      reply.questions = questions → reply.Holds buffer →
        parseReply buffer answers = some (firstAddress reply.answers)) ↔
      SkippedExactly questions := by
  constructor
  · intro hall
    by_contra hnot
    obtain ⟨x, hx⟩ := parseReply_left hcount hquestions (fun _ => noAnswer) hnot
    have hreply := replyTo_wellFormed hcount hquestions x
    have hholds : (replyTo questions [addressRecord x]).Holds
        (replyTo questions [addressRecord x]).bytes := by
      refine ⟨List.prefix_refl _, ?_, trivial⟩
      simp only [replyTo, Reply.bytes, List.flatMap_cons, List.flatMap_nil, List.append_nil,
        List.length_append, header_length, recordBytes_length]
      show _ ≤ 12 + (_ + (12 + 4))
      omega
    exact hx (hall _ _ _ hreply rfl hholds)
  · rintro hskipped reply buffer answers hreply rfl hholds
    exact parseReply_exact hreply hholds hskipped answers

end Main

/-- A question for `a.b`, an answer of type TXT, and one of type A. -/
def textThenAddress (text : Bytes) : Reply :=
  replyTo [⟨shortName, 1, 1⟩] [⟨(0xC0, 12), 16, 1, (0, 0, 0, 60), text⟩, addressRecord 10]

theorem textThenAddress_wellFormed {text : Bytes} (h : text.length < 2 ^ 16) :
    (textThenAddress text).WellFormed where
  countable := by show 1 < 2 ^ 16; decide
  few := by show 2 ≤ 10; decide
  questions := List.forall_mem_singleton.mpr ⟨shortName_valid.short, by decide⟩
  answers := by
    intro r hr
    rcases List.mem_pair.mp hr with rfl | rfl
    · exact ⟨UInt8.le_refl 192, h, fun htype => absurd htype (show (16 : UInt16) ≠ 1 by decide)⟩
    · exact addressRecord_wellFormed 10

theorem textThenAddress_holds (text rest : Bytes) :
    (textThenAddress text).Holds ((textThenAddress text).bytes ++ rest) := by
  refine ⟨List.prefix_append _ _, ?_⟩
  have hlen : (textThenAddress text).bytes.length = 21 + ((12 + text.length) + 16) := by
    simp only [textThenAddress, replyTo, Reply.bytes, List.flatMap_cons, List.flatMap_nil,
      List.append_nil, List.length_append, recordBytes_length, header_length]
    show 12 + (9 + (12 + text.length + (12 + 4))) = _
    omega
  rw [List.length_append, hlen]
  refine ⟨?_, ?_, trivial⟩
  · show 21 + 16 ≤ _
    omega
  · rw [recordBytes_length]
    show 21 + (12 + text.length) + 16 ≤ _
    omega

/-- The address is found behind a text of 300 bytes. -/
theorem parse_reply_address_text :
    parseReply ((textThenAddress (List.replicate 300 120)).bytes ++ List.replicate 600 0)
      (fun _ => noAnswer) = some [10, 0, 0, 0] := by
  have hreply := @textThenAddress_wellFormed (List.replicate 300 120)
    (by rw [List.length_replicate]; decide)
  have hskipped : SkippedExactly [⟨shortName, 1, 1⟩] :=
    skippedExactly_of_plain (List.forall_mem_singleton.mpr
      (encodeName_plain shortName_valid.short shortName_valid.nonzero))
  have hall := (parse_reply_address_iff [⟨shortName, 1, 1⟩] hreply.countable
    hreply.questions).mpr hskipped
  exact hall _ _ (fun _ => noAnswer) hreply rfl (textThenAddress_holds _ _)

/-- A question whose only label has a NUL octet in its middle, and an answer of type A. -/
def nulLabel : Reply := replyTo [⟨[[97, 0, 98]], 1, 1⟩] [addressRecord 10]

theorem nulLabel_wellFormed : nulLabel.WellFormed :=
  replyTo_wellFormed (by decide) (List.forall_mem_singleton.mpr ⟨by decide, by decide⟩) 10

/-- The answer is read two bytes too early, and no address is found. -/
theorem parse_reply_address_lost : ¬ ∀ (reply : Reply) (buffer : Bytes) (answers : ℕ → Answer),
    reply.WellFormed → buffer.length = 1000 → reply.Holds buffer →
      parseReply buffer answers = some (firstAddress reply.answers) := by
  intro hall
  have hparse : parseReply (nulLabel.bytes ++ List.replicate 963 0) (fun _ => noAnswer) =
      some [0, 0, 0, 0] := by decide +kernel
  have hlen : (nulLabel.bytes ++ List.replicate 963 (0 : UInt8)).length = 1000 := by
    rw [List.length_append, List.length_replicate]
    rfl
  have hholds : nulLabel.Holds (nulLabel.bytes ++ List.replicate 963 0) := by
    refine ⟨List.prefix_append _ _, ?_, trivial⟩
    rw [hlen]
    decide
  rw [hall _ _ _ nulLabel_wellFormed hlen hholds] at hparse
  cases hparse

end Acos.DnsResolver
