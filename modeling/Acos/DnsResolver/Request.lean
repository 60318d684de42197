import Acos.DnsResolver.Model

/-! The request for a domain name against the format of DNS. The position at which
`represent_dns_packet` writes is one byte wide, which is too narrow for the longest names. -/
namespace Acos.DnsResolver
open Acos.Buffer Acos.CString

/-- The labels with dots between them. -/
def dotted : List Bytes → Bytes
  | [] => []
  | [label] => label
  | label :: labels => label ++ 46 :: dotted labels

structure ValidName (labels : List Bytes) : Prop where
  nonempty : labels ≠ []
  short : ∀ label ∈ labels, 0 < label.length ∧ label.length ≤ 63
  plain : ∀ label ∈ labels, ∀ c ∈ label, c ≠ 0 ∧ c ≠ 46
  total : (dotted labels).length ≤ 253

theorem ValidName.nonzero {labels : List Bytes} (h : ValidName labels) :
    ∀ label ∈ labels, ∀ c ∈ label, c ≠ 0 := fun label hlabel c hc => (h.plain label hlabel c hc).1

def encodeLabel (label : Bytes) : Bytes := UInt8.ofNat label.length :: label

def encodeName (labels : List Bytes) : Bytes := labels.flatMap encodeLabel

/-- The request for a name, byte by byte. -/
def wire (labels : List Bytes) : Bytes :=
  [0, 0, 1, 0, 0, 1, 0, 0, 0, 0, 0, 0] ++ (encodeName labels ++ [0] ++ [0, 1, 0, 1])

/-- Labels up to the empty one. -/
def parseLabels : ℕ → Bytes → Option (List Bytes × Bytes)
  | 0, _ => none
  | _, [] => none
  | fuel + 1, n :: bytes =>
    if n = 0 then some ([], bytes)
    else if n.toNat ≤ 63 ∧ n.toNat ≤ bytes.length then
      (parseLabels fuel (bytes.drop n.toNat)).map fun (labels, rest) =>
        (bytes.take n.toNat :: labels, rest)
    else none

/-- The name in a query of one question of type and class 1, with nothing behind it. -/
def parseQuery (bytes : Bytes) : Option Bytes :=
  if (bytes.drop 4).take 2 = [0, 1] then
    match parseLabels bytes.length (bytes.drop 12) with
    | some (labels, [0, 1, 0, 1]) => some (dotted labels)
    | _ => none
  else none

section Labels
variable {label : Bytes}

theorem encodeName_cons (label : Bytes) (labels : List Bytes) :
    encodeName (label :: labels) = encodeLabel label ++ encodeName labels := rfl

theorem dotted_cons_cons (label next : Bytes) (labels : List Bytes) :
    dotted (label :: next :: labels) = label ++ 46 :: dotted (next :: labels) := rfl

theorem encodeName_length {labels : List Bytes} (h : labels ≠ []) :
    (encodeName labels).length = (dotted labels).length + 1 := by
  induction labels with
  | nil => exact absurd rfl h
  | cons label labels ih =>
    cases labels with
    | nil => simp [encodeName, encodeLabel, dotted]
    | cons next labels =>
      have hrest := ih (List.cons_ne_nil next labels)
      rw [encodeName_cons, List.length_append, hrest, dotted_cons_cons]
      simp only [encodeLabel, List.length_append, List.length_cons]
      omega

theorem encodeName_plain {labels : List Bytes}
    (hshort : ∀ label ∈ labels, 0 < label.length ∧ label.length ≤ 63)
    (hplain : ∀ label ∈ labels, ∀ c ∈ label, c ≠ 0) : ∀ c ∈ encodeName labels, c ≠ 0 := by
  intro c hc
  obtain ⟨label, hlabel, hmem⟩ := List.mem_flatMap.mp hc
  rcases List.mem_cons.mp hmem with heq | hmem
  · obtain ⟨hpos, hle⟩ := hshort label hlabel
    intro hzero
    rw [hzero] at heq
    have hnat := congrArg UInt8.toNat heq
    rw [UInt8.toNat_ofNat'] at hnat
    simp only [UInt8.toNat_zero] at hnat
    omega
  · exact hplain label hlabel c hmem

theorem cString_append_zeros {s : Bytes} {n : ℕ} (hs : ∀ c ∈ s, c ≠ 0) (hn : 0 < n) :
    cString (s ++ List.replicate n 0) = s := by
  obtain ⟨m, rfl⟩ : ∃ m, n = m + 1 := ⟨n - 1, by omega⟩
  unfold cString
  rw [List.takeWhile_append_of_pos (by simpa using hs), List.replicate_succ]
  simp

theorem parseLabels_encodeName {labels : List Bytes} {fuel : ℕ} (rest : Bytes)
    (hshort : ∀ label ∈ labels, 0 < label.length ∧ label.length ≤ 63)
    (hfuel : labels.length < fuel) :
    parseLabels fuel (encodeName labels ++ 0 :: rest) = some (labels, rest) := by
  induction labels generalizing fuel with
  | nil =>
    obtain ⟨fuel, rfl⟩ : ∃ k, fuel = k + 1 := ⟨fuel - 1, by simp at hfuel; omega⟩
    simp [encodeName, parseLabels]
  | cons label labels ih =>
    obtain ⟨fuel, rfl⟩ : ∃ k, fuel = k + 1 := ⟨fuel - 1, by simp at hfuel; omega⟩
    obtain ⟨hpos, hle⟩ := hshort label (by simp)
    have hlen : (UInt8.ofNat label.length).toNat = label.length := by
      rw [UInt8.toNat_ofNat']
      omega
    have hne : UInt8.ofNat label.length ≠ 0 := by
      intro heq
      rw [heq] at hlen
      simp only [UInt8.toNat_zero] at hlen
      omega
    have hrest := @ih fuel (fun l hl => hshort l (by simp [hl])) (by simp at hfuel; omega)
    have hfits : label.length ≤ 63 ∧
        label.length ≤ (label ++ (encodeName labels ++ 0 :: rest)).length := by
      rw [List.length_append]
      omega
    rw [encodeName_cons, encodeLabel, List.cons_append, List.cons_append, List.append_assoc,
      parseLabels, if_neg hne, hlen, if_pos hfits, List.drop_left, List.take_left, hrest,
      Option.map_some]

end Labels

theorem labels_length_le (labels : List Bytes) : labels.length ≤ (encodeName labels).length := by
  induction labels with
  | nil => simp
  | cons label labels ih =>
    rw [encodeName_cons, List.length_append, List.length_cons]
    simp only [encodeLabel, List.length_cons]
    omega

theorem parseQuery_wire {labels : List Bytes}
    (hshort : ∀ label ∈ labels, 0 < label.length ∧ label.length ≤ 63) :
    parseQuery (wire labels) = some (dotted labels) := by
  have hcount := labels_length_le labels
  have hlen : labels.length < (wire labels).length := by
    simp only [wire, List.length_append, List.length_cons, List.length_nil]
    omega
  have hdrop : (wire labels).drop 12 = encodeName labels ++ 0 :: [0, 1, 0, 1] := by
    simp [wire]
  have hone : ((wire labels).drop 4).take 2 = [0, 1] := rfl
  rw [parseQuery, if_pos hone, hdrop, parseLabels_encodeName _ hshort hlen]
  rfl

section Question

/-- What `build_dns_question` has after the characters `seen` of a label. -/
structure InLabel (b : Builder) (domain : Bytes) (start : ℕ) (seen : Bytes) : Prop where
  domain : b.domain = domain
  passed : b.passed = start
  word : b.word.take seen.length = seen
  size : b.word.length = 256
  word_len : b.word_len.toNat = seen.length

theorem putChar_inLabel {b : Builder} {domain seen : Bytes} {start : ℕ} {c : UInt8}
    (hb : InLabel b domain start seen) (hlen : seen.length < 63) :
    ∃ b', b.putChar (start + seen.length) c = some b' ∧
      InLabel b' domain start (seen ++ [c]) := by
  have hindex : start + seen.length - b.passed = seen.length := by
    rw [hb.passed]
    omega
  have hfits : seen.length + [c].length ≤ b.word.length := by
    rw [hb.size, List.length_singleton]
    omega
  refine ⟨⟨b.domain, b.word.take seen.length ++ [c] ++ b.word.drop (seen.length + 1), b.passed,
    b.word_len + 1⟩, ?_, hb.domain, hb.passed, ?_, ?_, ?_⟩
  · rw [Builder.putChar, hindex, store, if_pos hfits]
    rfl
  · rw [hb.word, List.take_left]
  · simp only [hb.word, List.length_append, List.length_drop, List.length_singleton, hb.size]
    omega
  · rw [UInt8.toNat_add, hb.word_len, List.length_append, List.length_singleton]
    show (seen.length + 1) % 256 = seen.length + 1
    omega

/-- A label goes character by character into `word`. -/
theorem questionLoop_label {b : Builder} {domain seen : Bytes} {start : ℕ} (label rest : Bytes)
    (hb : InLabel b domain start seen) (hdots : ∀ c ∈ label, c ≠ 46)
    (hlen : seen.length + label.length ≤ 63) :
    ∃ b', questionLoop (label ++ rest) (start + seen.length) b =
        questionLoop rest (start + (seen ++ label).length) b' ∧
      InLabel b' domain start (seen ++ label) := by
  induction label generalizing b seen with
  | nil =>
    rw [List.append_nil]
    exact ⟨b, rfl, hb⟩
  | cons c label ih =>
    rw [List.length_cons] at hlen
    obtain ⟨b1, hput, hb1⟩ := putChar_inLabel (c := c) hb (by omega)
    obtain ⟨b2, hloop, hb2⟩ := ih hb1 (fun d hd => hdots d (by simp [hd]))
      (by rw [List.length_append, List.length_singleton]; omega)
    rw [List.append_assoc, List.singleton_append] at hloop hb2
    refine ⟨b2, ?_, hb2⟩
    rw [List.cons_append, questionLoop, if_neg (hdots c (by simp)), hput, Option.bind_some,
      ← hloop, List.length_append, List.length_singleton, Nat.add_assoc]

/-- The end of a label moves it to the end of the name. -/
theorem endWord_inLabel {b : Builder} {name label : Bytes} {start n : ℕ}
    (hb : InLabel b (name ++ List.replicate n 0) start label) (hname : ∀ c ∈ name, c ≠ 0)
    (hlabel : ∀ c ∈ label, c ≠ 0) (hpos : 0 < label.length) (hlen : label.length ≤ 63)
    (hroom : 64 < n) :
    ∃ b', b.endWord = some b' ∧
      InLabel b' (name ++ encodeLabel label ++ List.replicate (n - (label.length + 1)) 0)
        (start + label.length + 1) [] := by
  obtain ⟨m, rfl⟩ : ∃ m, n = label.length + 1 + m := ⟨n - (label.length + 1), by omega⟩
  have hword_len : b.word_len = UInt8.ofNat label.length := by
    rw [← hb.word_len, UInt8.ofNat_toNat]
  have hne : b.word_len ≠ 0 := by
    intro heq
    have hzero := hb.word_len
    rw [heq, UInt8.toNat_zero] at hzero
    omega
  have hstring : cString b.domain = name := by
    rw [hb.domain]
    exact cString_append_zeros hname (by omega)
  -- first the length of the label
  have hsplit : List.replicate (label.length + 1 + m) (0 : UInt8) =
      [0] ++ List.replicate (label.length + m) 0 := by
    rw [List.singleton_append, ← List.replicate_succ]
    congr 1
    omega
  have hstore1 : store b.domain name.length [b.word_len] =
      some (name ++ ([b.word_len] ++ List.replicate (label.length + m) 0)) := by
    rw [hb.domain, hsplit]
    exact store_append rfl
  have hstring1 : cString (name ++ ([b.word_len] ++ List.replicate (label.length + m) 0)) =
      name ++ [b.word_len] := by
    rw [← List.append_assoc]
    apply cString_append_zeros
    · intro c hc
      rcases List.mem_append.mp hc with hc | hc
      · exact hname c hc
      · rw [List.mem_singleton.mp hc]
        exact hne
    · omega
  -- then its characters
  have hcopy : strncpy (b.word.take b.word_len.toNat) = label := by
    rw [hb.word_len, hb.word, strncpy, cString_of_plain hlabel, Nat.sub_self,
      List.replicate_zero, List.append_nil]
  have hstore2 : store (name ++ ([b.word_len] ++ List.replicate (label.length + m) 0))
      (name ++ [b.word_len]).length label =
        some (name ++ [b.word_len] ++ (label ++ List.replicate m 0)) := by
    rw [← List.append_assoc, List.replicate_add]
    exact store_append (by rw [List.length_replicate])
  refine ⟨⟨name ++ [b.word_len] ++ (label ++ List.replicate m 0), b.word,
    b.passed + b.word_len.toNat + 1, 0⟩, ?_, ?_⟩
  · rw [Builder.endWord, hstring, hstore1]
    simp only [Option.bind_eq_bind, Option.bind_some]
    rw [hstring1, hcopy, hstore2, Option.bind_some]
  · refine ⟨?_, ?_, rfl, hb.size, rfl⟩
    · have hrest : label.length + 1 + m - (label.length + 1) = m := by omega
      rw [hrest, hword_len, encodeLabel]
      simp
    · show b.passed + b.word_len.toNat + 1 = _
      rw [hb.passed, hb.word_len]

/-- The loop over the rest of a name, from the start of a label. -/
theorem questionLoop_labels {labels : List Bytes} {b : Builder} {name : Bytes} {start n : ℕ}
    (hb : InLabel b (name ++ List.replicate n 0) start []) (hne : labels ≠ [])
    (hname : ∀ c ∈ name, c ≠ 0) (hshort : ∀ label ∈ labels, 0 < label.length ∧ label.length ≤ 63)
    (hplain : ∀ label ∈ labels, ∀ c ∈ label, c ≠ 0 ∧ c ≠ 46)
    (hroom : (encodeName labels).length + 64 < n) :
    ∃ b', questionLoop (dotted labels) start b = some b' ∧
      b'.domain = name ++ encodeName labels ++
        List.replicate (n - (encodeName labels).length) 0 := by
  induction labels generalizing b name start n with
  | nil => exact absurd rfl hne
  | cons label labels ih =>
    obtain ⟨hpos, hle⟩ := hshort label (by simp)
    have hchars := hplain label (by simp)
    rw [encodeName_cons, List.length_append] at hroom ⊢
    have hlabel : (encodeLabel label).length = label.length + 1 := by
      rw [encodeLabel, List.length_cons]
    have hend : ∀ rest, ∃ b1, questionLoop (label ++ rest) start b =
        questionLoop rest (start + label.length) b1 ∧
          InLabel b1 (name ++ List.replicate n 0) start label := by
      intro rest
      have hloop := questionLoop_label label rest hb (fun c hc => (hchars c hc).2)
        (by rw [List.length_nil]; omega)
      rw [List.nil_append, List.length_nil, Nat.add_zero] at hloop
      exact hloop
    cases labels with
    | nil =>
      obtain ⟨b1, hloop, hb1⟩ := hend []
      obtain ⟨b2, hflush, hb2⟩ := endWord_inLabel hb1 hname (fun c hc => (hchars c hc).1) hpos hle
        (by omega)
      rw [List.append_nil] at hloop
      refine ⟨b2, ?_, ?_⟩
      · rw [dotted, hloop, questionLoop, hflush]
      · rw [hb2.domain, hlabel]
        simp [encodeName]
    | cons next labels =>
      obtain ⟨b1, hloop, hb1⟩ := hend (46 :: dotted (next :: labels))
      obtain ⟨b2, hflush, hb2⟩ := endWord_inLabel hb1 hname (fun c hc => (hchars c hc).1) hpos hle
        (by omega)
      have hname2 : ∀ c ∈ name ++ encodeLabel label, c ≠ 0 := by
        intro c hc
        rcases List.mem_append.mp hc with hc | hc
        · exact hname c hc
        · exact @encodeName_plain [label] (by simpa using ⟨hpos, hle⟩)
            (by simpa using fun c hc => (hchars c hc).1) c (by simpa [encodeName] using hc)
      obtain ⟨b3, hrest, hb3⟩ := ih hb2 (List.cons_ne_nil next labels) hname2
        (fun l hl => hshort l (by simp [hl])) (fun l hl => hplain l (by simp [hl])) (by omega)
      refine ⟨b3, ?_, ?_⟩
      · rw [dotted_cons_cons, hloop, questionLoop, if_pos rfl, hflush, Option.bind_some, hrest]
      · have hcount : n - (label.length + 1) - (encodeName (next :: labels)).length =
            n - (label.length + 1 + (encodeName (next :: labels)).length) := by omega
        rw [hb3, hlabel, hcount, List.append_assoc name]

theorem encodeName_length_le {labels : List Bytes} (h : ValidName labels) :
    (encodeName labels).length ≤ 254 := by
  have htotal := h.total
  rw [encodeName_length h.nonempty]
  omega

/-- `build_dns_question` encodes every valid name, also the longest ones. -/
theorem buildDnsQuestion_valid {labels : List Bytes} (h : ValidName labels) :
    buildDnsQuestion (dotted labels) = some
      ⟨encodeName labels ++ List.replicate (1000 - (encodeName labels).length) 0,
        ⟨htons 1, htons 1⟩⟩ := by
  have hlen := encodeName_length_le h
  have hstart : InLabel ⟨List.replicate 1000 0, List.replicate 256 0, 0, 0⟩
      ([] ++ List.replicate 1000 0) 0 [] :=
    ⟨rfl, rfl, rfl, List.length_replicate, rfl⟩
  obtain ⟨b, hloop, hdomain⟩ := questionLoop_labels hstart h.nonempty (by simp) h.short h.plain
    (by omega)
  rw [buildDnsQuestion, hloop, Option.map_some, hdomain, List.nil_append]

end Question

/-- Up to 237 characters, every position fits into a byte. -/
theorem dnsRequest_short {buffer : Bytes} {labels : List Bytes} (hbuffer : buffer.length = 1000)
    (h : ValidName labels) (hlen : (dotted labels).length ≤ 237) :
    dnsRequest buffer (dotted labels) = some (wire labels) := by
  have hquestion := buildDnsQuestion_valid h
  have hsize := encodeName_length h.nonempty
  obtain ⟨n, hn⟩ : ∃ n, 1000 - (encodeName labels).length = n := ⟨_, rfl⟩
  rw [hn] at hquestion
  have hname : cString (encodeName labels ++ List.replicate n 0) = encodeName labels :=
    cString_append_zeros (encodeName_plain h.short h.nonzero) (by omega)
  obtain ⟨header, hheader⟩ : ∃ header, (buildDnsRequest 1).bytes = header := ⟨_, rfl⟩
  have hheader12 : header.length = 12 := by
    rw [← hheader]
    rfl
  have hcount : (ntohs (buildDnsRequest 1).questions_count).toNat = 1 := by decide
  have hwidth : (UInt16.ofNat (encodeName labels).length).toNat = (encodeName labels).length := by
    rw [UInt16.toNat_ofNat']
    omega
  have helapsed : (12 + UInt8.ofNat ((encodeName labels).length + 1) : UInt8).toNat =
      (header ++ (encodeName labels ++ [0])).length := by
    rw [UInt8.toNat_add, UInt8.toNat_ofNat', List.length_append, List.length_append,
      List.length_singleton, hheader12]
    show (12 + ((encodeName labels).length + 1) % 256) % 256 = _
    omega
  have hend : (12 + UInt8.ofNat ((encodeName labels).length + 1) + 4 : UInt8).toNat =
      (header ++ (encodeName labels ++ [0]) ++ [0, 1, 0, 1]).length := by
    rw [UInt8.toNat_add, helapsed]
    simp only [List.length_append, hheader12, List.length_cons, List.length_nil, hsize]
    show (_ + 4) % 256 = _
    omega
  -- the header, the name and the flags are stored one behind the other
  obtain ⟨buffer1, hstore1, hlen1, hprefix1⟩ := @store_after buffer [] header List.nil_prefix
    (by rw [hheader12, List.length_nil]; omega)
  rw [List.nil_append] at hprefix1
  rw [List.length_nil] at hstore1
  obtain ⟨buffer2, hstore2, hlen2, hprefix2⟩ := store_after (encodeName labels ++ [0])
    hprefix1 (by
      rw [hheader12, List.length_append, List.length_singleton]
      omega)
  obtain ⟨buffer3, hstore3, hlen3, hprefix3⟩ := store_after [0, 1, 0, 1]
    hprefix2 (by
      simp only [List.length_append, List.length_cons, List.length_nil, hheader12]
      omega)
  rw [hheader12] at hstore2
  have hloop : representLoop [⟨encodeName labels ++ List.replicate n 0, ⟨htons 1, htons 1⟩⟩] 1 0
      buffer1 12 = some (buffer3, 12 + UInt8.ofNat ((encodeName labels).length + 1) + 4) := by
    have hflags : (⟨htons 1, htons 1⟩ : QuestionFlags).bytes = [0, 1, 0, 1] := by decide
    rw [representLoop]
    simp only [List.getElem?_cons_zero, hname, hwidth, hflags, helapsed]
    show (store buffer1 12 (encodeName labels ++ [0])).bind _ = _
    rw [hstore2, Option.bind_some, hstore3]
    rfl
  have hrepresent : representDnsPacket (buildDnsRequest 1)
      [⟨encodeName labels ++ List.replicate n 0, ⟨htons 1, htons 1⟩⟩] buffer =
        some (buffer3, 12 + UInt8.ofNat ((encodeName labels).length + 1) + 4) := by
    rw [representDnsPacket, hheader, hcount]
    show (store buffer 0 header).bind _ = _
    rw [hstore1]
    exact hloop
  rw [dnsRequest, hquestion]
  simp only [Option.bind_eq_bind, Option.bind_some, hrepresent, hend]
  rw [← List.prefix_iff_eq_take.mp hprefix3, ← hheader]
  simp only [wire, List.append_assoc]
  rfl

/-- The size that is returned fits into a byte. -/
theorem dnsRequest_length {buffer domain request : Bytes}
    (h : dnsRequest buffer domain = some request) : request.length ≤ 255 := by
  simp only [dnsRequest, Option.bind_eq_bind, Option.bind_eq_some_iff] at h
  obtain ⟨question, -, ⟨buffer', request_size⟩, -, heq⟩ := h
  cases heq
  have hsize := request_size.toNat_lt
  show (buffer'.take request_size.toNat).length ≤ 255
  rw [List.length_take]
  omega

/-- The request is the one that DNS prescribes if and only if the name has at most 237
characters; the names of 238 to 253 characters are cut. -/
theorem dns_request_iff (buffer : Bytes) (labels : List Bytes) (hbuffer : buffer.length = 1000)
    (h : ValidName labels) :
    (∃ request, dnsRequest buffer (dotted labels) = some request ∧
      request.length = 18 + (dotted labels).length ∧ request = wire labels ∧
        parseQuery request = some (dotted labels)) ↔ (dotted labels).length ≤ 237 := by
  constructor
  · intro hrequest
    obtain ⟨request, hsent, hlen, -, -⟩ := hrequest
    have hle := dnsRequest_length hsent
    omega
  · intro hlen
    refine ⟨wire labels, dnsRequest_short hbuffer h hlen, ?_, rfl, parseQuery_wire h.short⟩
    have hsize := encodeName_length h.nonempty
    simp only [wire, List.length_append, List.length_cons, List.length_nil, hsize]
    omega

/-- `a.b` -/
def shortName : List Bytes := [[97], [98]]

theorem shortName_valid : ValidName shortName where
  nonempty := by decide
  short := by decide
  plain := by
    intro label hlabel c hc
    rcases List.mem_pair.mp hlabel with rfl | rfl
    · rw [List.mem_singleton.mp hc]
      decide
    · rw [List.mem_singleton.mp hc]
      decide
  total := by decide

theorem dns_request_short_name :
    (∃ request, dnsRequest (List.replicate 1000 0) (dotted shortName) = some request ∧
      request.length = 18 + (dotted shortName).length ∧ request = wire shortName ∧
        parseQuery request = some (dotted shortName)) ↔ (dotted shortName).length ≤ 237 :=
  dns_request_iff (List.replicate 1000 0) shortName List.length_replicate shortName_valid

/-- Three labels of 63 letters and one of 46. -/
def longName : List Bytes :=
  [List.replicate 63 97, List.replicate 63 97, List.replicate 63 97, List.replicate 46 97]

theorem longName_length : (dotted longName).length = 238 := by
  simp only [longName, dotted, List.length_append, List.length_cons, List.length_replicate]

theorem longName_valid : ValidName longName where
  nonempty := List.cons_ne_nil _ _
  short := by
    simp only [longName, List.forall_mem_cons, List.length_replicate, List.not_mem_nil,
      false_implies, implies_true]
    decide
  plain := by
    have hletters : ∀ k, ∀ c ∈ List.replicate k (97 : UInt8), c ≠ 0 ∧ c ≠ 46 := by
      intro k c hc
      rw [List.eq_of_mem_replicate hc]
      decide
    simp only [longName, List.forall_mem_cons, List.not_mem_nil, false_implies, implies_true,
      and_true]
    exact ⟨hletters 63, hletters 63, hletters 63, hletters 46⟩
  total := by rw [longName_length]; omega

/-- The request for a name of 238 characters is no longer than 255 bytes. -/
theorem dns_request_long_name : ¬ ∀ buffer labels, buffer.length = 1000 → ValidName labels →
    ∃ request, dnsRequest buffer (dotted labels) = some request ∧
      request.length = 18 + (dotted labels).length := by
  intro hall
  obtain ⟨request, hsent, hlen⟩ :=
    hall (List.replicate 1000 0) longName List.length_replicate longName_valid
  have hle := dnsRequest_length hsent
  rw [longName_length] at hlen
  omega

end Acos.DnsResolver
