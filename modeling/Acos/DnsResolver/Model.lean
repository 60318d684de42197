import Acos.Lib.Buffer
import Mathlib.Data.UInt
import Mathlib.Logic.Function.Basic

/-! The requests and replies of `inf22-2_posix_sockets_udp-dns-resolver/main.c`. The host is
little-endian; an access outside an array has no result. -/
namespace Acos.DnsResolver
open Acos.Buffer Acos.CString

/-- The 16-bit value of two bytes in memory. -/
def word16 (low high : UInt8) : UInt16 := UInt16.ofNat (low.toNat + 256 * high.toNat)

def bytes16 (x : UInt16) : Bytes := [UInt8.ofNat x.toNat, UInt8.ofNat (x.toNat / 256)]

def ntohs (x : UInt16) : UInt16 := UInt16.ofNat (x.toNat / 256 + 256 * (x.toNat % 256))

def htons (x : UInt16) : UInt16 := ntohs x

structure QuestionFlags where
  type : UInt16
  «class» : UInt16

structure Question where
  domain : Bytes
  flags : QuestionFlags

structure Answer where
  name_ptr : UInt16
  type : UInt16
  «class» : UInt16
  ttl : Bytes
  data_length : UInt16
  ip : Bytes

structure Header where
  transaction_id : UInt16
  flags : UInt8 × UInt8
  questions_count : UInt16
  answers_count : UInt16
  authority : UInt16
  additional : UInt16

def Header.bytes (h : Header) : Bytes :=
  bytes16 h.transaction_id ++ [h.flags.1, h.flags.2] ++ bytes16 h.questions_count ++
    bytes16 h.answers_count ++ bytes16 h.authority ++ bytes16 h.additional

def QuestionFlags.bytes (f : QuestionFlags) : Bytes := bytes16 f.type ++ bytes16 f.class

/-- The header that `build_dns_request` makes. -/
def buildDnsRequest (questions_count : UInt16) : Header where
  transaction_id := 0
  flags := (1, 0)
  questions_count := htons questions_count
  answers_count := 0
  authority := 0
  additional := 0

/-- The variables of `build_dns_question`. -/
structure Builder where
  domain : Bytes
  word : Bytes
  passed : ℕ
  word_len : UInt8

/-- The end of a label: its length and its bytes go to the end of `question->domain`. -/
def Builder.endWord (b : Builder) : Option Builder := do
  let domain ← store b.domain (cString b.domain).length [b.word_len]
  let domain ← store domain (cString domain).length (strncpy (b.word.take b.word_len.toNat))
  some ⟨domain, b.word, b.passed + b.word_len.toNat + 1, 0⟩

def Builder.putChar (b : Builder) (i : ℕ) (c : UInt8) : Option Builder := do
  let word ← store b.word (i - b.passed) [c]
  some { b with word := word, word_len := b.word_len + 1 }

/-- The loop of `build_dns_question` from the character `i` on. -/
def questionLoop : Bytes → ℕ → Builder → Option Builder
  | [], _, b => b.endWord
  | c :: domain, i, b =>
    if c = 46 then b.endWord.bind fun b => questionLoop domain (i + 1) b
    else (b.putChar i c).bind fun b => questionLoop domain (i + 1) b

/-- `word` is not initialised in the source; zeros stand for what it holds. -/
def buildDnsQuestion (domain : Bytes) : Option Question :=
  (questionLoop domain 0 ⟨List.replicate 1000 0, List.replicate 256 0, 0, 0⟩).map fun b =>
    ⟨b.domain, ⟨htons 1, htons 1⟩⟩

/-- The loop of `represent_dns_packet`; its position is one byte wide. -/
def representLoop (questions : List Question) : ℕ → ℕ → Bytes → UInt8 → Option (Bytes × UInt8)
  | 0, _, buffer, elapsed => some (buffer, elapsed)
  | count + 1, i, buffer, elapsed =>
    match questions[i]? with
    | none => none
    | some question => do
      let name := cString question.domain
      let buffer ← store buffer elapsed.toNat (name ++ [0])
      let elapsed := elapsed + UInt8.ofNat ((UInt16.ofNat name.length).toNat + 1)
      let buffer ← store buffer elapsed.toNat question.flags.bytes
      representLoop questions count (i + 1) buffer (elapsed + 4)

def representDnsPacket (header : Header) (questions : List Question) (buffer : Bytes) :
    Option (Bytes × UInt8) := do
  let buffer ← store buffer 0 header.bytes
  representLoop questions (ntohs header.questions_count).toNat 0 buffer 12

/-- The bytes that `resolve_domain` sends, from a buffer that may hold anything before. -/
def dnsRequest (buffer domain : Bytes) : Option Bytes := do
  let header := buildDnsRequest 1
  let question ← buildDnsQuestion domain
  let (buffer, request_size) ← representDnsPacket header [question] buffer
  some (buffer.take request_size.toNat)

/-- The questions of a reply are skipped. -/
def skipLoop (buffer : Bytes) : ℕ → UInt32 → Option UInt32
  | 0, elapsed => some elapsed
  | count + 1, elapsed => do
    let len ← strlenAt buffer elapsed.toNat
    skipLoop buffer count (elapsed + UInt32.ofNat (len + 1) + 4)

/-- `memcpy` of 16 bytes into a `dns_answer_t`. -/
def Answer.ofBytes : Bytes → Option Answer
  | [n0, n1, t0, t1, c0, c1, l0, l1, l2, l3, d0, d1, i0, i1, i2, i3] =>
    some ⟨word16 n0 n1, word16 t0 t1, word16 c0 c1, [l0, l1, l2, l3], word16 d0 d1,
      [i0, i1, i2, i3]⟩
  | _ => none

/-- The array that the caller of `parse_dns_packet` provides. -/
def answersSize : ℕ := 10

def answerLoop (buffer : Bytes) : ℕ → ℕ → UInt32 → (ℕ → Answer) → Option (ℕ → Answer)
  | 0, _, _, answers => some answers
  | count + 1, i, elapsed, answers => do
    let bytes ← load buffer elapsed.toNat 16
    let answer ← Answer.ofBytes bytes
    if i < answersSize then
      let elapsed := elapsed + UInt32.ofNat (ntohs answer.data_length).toNat - 4
      answerLoop buffer count (i + 1) (elapsed + 16) (Function.update answers i answer)
    else none

def Header.ofBytes : Bytes → Option Header
  | [t0, t1, f0, f1, q0, q1, a0, a1, u0, u1, x0, x1] =>
    some ⟨word16 t0 t1, (f0, f1), word16 q0 q1, word16 a0 a1, word16 u0 u1, word16 x0 x1⟩
  | _ => none

def parseDnsPacket (buffer : Bytes) (answers : ℕ → Answer) : Option (Header × (ℕ → Answer)) := do
  let bytes ← load buffer 0 12
  let header ← Header.ofBytes bytes
  let elapsed ← skipLoop buffer (ntohs header.questions_count).toNat 12
  let answers ← answerLoop buffer (ntohs header.answers_count).toNat 0 elapsed answers
  some (header, answers)

/-- The loop of `get_ip` from the answer `i` on. -/
def ipLoop (answers : ℕ → Answer) : ℕ → ℕ → Option Bytes
  | 0, _ => some [0, 0, 0, 0]
  | count + 1, i =>
    if i < answersSize then
      if ntohs (answers i).type = 1 then some (answers i).ip else ipLoop answers count (i + 1)
    else none

def getIp (header : Header) (answers : ℕ → Answer) : Option Bytes :=
  ipLoop answers (ntohs header.answers_count).toNat 0

/-- `parse_dns_packet` and `get_ip` on a received buffer, with an array that is not set yet. -/
def parseReply (buffer : Bytes) (answers : ℕ → Answer) : Option Bytes := do
  let (header, answers) ← parseDnsPacket buffer answers
  getIp header answers

end Acos.DnsResolver
