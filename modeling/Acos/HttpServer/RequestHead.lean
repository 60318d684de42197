import Acos.HttpServer.Processes
import Acos.Lib.HttpText

/-! Which request texts `read_request_head` accepts, and what it takes for the target. Its three
calls of `strtok` see spaces where the format has them, but line ends only in the last call, and
two of the tokens are compared by their first characters. -/
namespace Acos.HttpServer
open Acos.CString Acos.HttpText

/-- `GET`. -/
def get : Bytes := [71, 69, 84]

/-- The delimiters of the third call of `strtok`. -/
def lineDelims : Bytes := [32, 13, 10]

/-- A text as `read_request_head` takes it apart. -/
structure ReadHead where
  before : Bytes
  method : Bytes
  gap : Bytes
  target : Bytes
  gap' : Bytes
  protocol : Bytes
  rest : Bytes
  before_spaces : ∀ c ∈ before, c ∈ [32]
  method_word : ∀ c ∈ method, c ∉ [32]
  method_get : get <+: method
  gap_spaces : ∀ c ∈ gap, c ∈ [32]
  target_word : ∀ c ∈ target, c ∉ [32]
  target_long : 2 ≤ target.length
  gap'_delims : ∀ c ∈ gap', c ∈ lineDelims
  protocol_word : ∀ c ∈ protocol, c ∉ lineDelims
  protocol_version : version <+: protocol
  rest_delim : ∀ c ∈ rest.head?, c ∈ lineDelims

def ReadHead.text (h : ReadHead) : Bytes :=
  h.before ++ (h.method ++ 32 :: (h.gap ++ (h.target ++ 32 :: (h.gap' ++ (h.protocol ++ h.rest)))))

/-- No CR LF in it. -/
def OneLine (line : Bytes) : Prop := ¬ crlf <:+: line

/-- The parts of the text are what the format has in their places, up to a line end. -/
structure ReadHead.Exact (h : ReadHead) : Prop where
  before : h.before = []
  method : h.method = get
  target : OneLine h.target
  gap' : ∀ c ∈ h.gap', c = 32
  protocol : h.protocol = version
  rest : h.rest = [] ∨ crlf <+: h.rest

/-- The text up to its first CR LF. -/
def firstLine : Bytes → Bytes
  | [] => []
  | c :: text => if crlf.isPrefixOf (c :: text) then [] else c :: firstLine text

/-- The method, a target of at least two characters and the protocol, with spaces between them. -/
def IsRequestLine (line target : Bytes) : Prop :=
  ∃ gap gap', line = get ++ (gap ++ (target ++ (gap' ++ version))) ∧ gap ≠ [] ∧ gap' ≠ [] ∧
    (∀ c ∈ gap, c = 32) ∧ (∀ c ∈ gap', c = 32) ∧ 2 ≤ target.length ∧ 32 ∉ target

/-- A call of `strtok` that another one follows successfully: its token ends at a delimiter. -/
theorem strtok_space {s token next rest' rest : Bytes} {delims : Bytes}
    (h : strtok [32] s = some (token, rest)) (hnext : strtok delims rest = some (next, rest')) :
    ∃ skipped, (∀ c ∈ skipped, c ∈ [(32 : UInt8)]) ∧ (∀ c ∈ token, c ∉ [(32 : UInt8)]) ∧
      s = skipped ++ (token ++ 32 :: rest) := by
  obtain ⟨skipped, back, hskipped, -, htoken, hback, rfl, rfl⟩ := strtok_eq_some.mp h
  obtain ⟨skipped', back', -, hne, -, -, hrest, -⟩ := strtok_eq_some.mp hnext
  refine ⟨skipped, hskipped, htoken, ?_⟩
  cases back with
  | nil =>
    have hnil := congrArg List.length hrest
    have hpos := List.length_pos_iff.mpr hne
    simp only [List.drop_nil, List.length_nil, List.length_append] at hnil
    omega
  | cons d back =>
    rw [List.mem_singleton.mp (hback d rfl)]
    rfl

/-- The function accepts the texts that it can take apart so. -/
theorem readRequestHead_eq_some {request_buffer filename : Bytes} :
    readRequestHead request_buffer = some filename ↔
      ∃ h : ReadHead, h.text = cString request_buffer ∧ h.target = filename := by
  constructor
  · intro h
    unfold readRequestHead at h
    split at h
    · cases h
    next token rest htoken =>
    split_ifs at h with hget
    split at h
    · cases h
    next target rest' htarget =>
    split_ifs at h with hshort
    split at h
    · cases h
    next protocol rest'' hprotocol =>
    split_ifs at h with hhttp
    obtain rfl : target = filename := by simpa using h
    obtain ⟨before, hbefore, hmethod, htext⟩ := strtok_space htoken htarget
    obtain ⟨gap, hgap, hword, rfl⟩ := strtok_space htarget hprotocol
    obtain ⟨gap', back, hgap', -, hproto, hback, rfl, -⟩ := strtok_eq_some.mp hprotocol
    exact ⟨⟨before, token, gap, target, gap', protocol, back, hbefore, hmethod,
      (strncmpEq_eq_true rfl).mp hget, hgap, hword, by omega, hgap', hproto,
      (strncmpEq_eq_true rfl).mp hhttp, hback⟩, htext.symm, rfl⟩
  · rintro ⟨h, htext, rfl⟩
    have hlong := h.target_long
    have hmethod : strtok [32] (cString request_buffer) = some (h.method,
        h.gap ++ (h.target ++ 32 :: (h.gap' ++ (h.protocol ++ h.rest)))) := by
      rw [strtok_eq_some, ← htext]
      exact ⟨h.before, _, h.before_spaces, h.method_get.ne_nil (by decide), h.method_word,
        by simp, rfl, rfl⟩
    have htarget : strtok [32] (h.gap ++ (h.target ++ 32 :: (h.gap' ++ (h.protocol ++ h.rest)))) =
        some (h.target, h.gap' ++ (h.protocol ++ h.rest)) := by
      rw [strtok_eq_some]
      exact ⟨h.gap, _, h.gap_spaces, List.ne_nil_of_length_pos (by omega), h.target_word, by simp,
        rfl, rfl⟩
    have hprotocol : strtok [32, 13, 10] (h.gap' ++ (h.protocol ++ h.rest)) =
        some (h.protocol, h.rest.drop 1) := by
      rw [strtok_eq_some]
      exact ⟨h.gap', _, h.gap'_delims, h.protocol_version.ne_nil (by decide), h.protocol_word,
        h.rest_delim, rfl, rfl⟩
    have hget : strncmpEq [71, 69, 84] h.method 3 = true :=
      (strncmpEq_eq_true rfl).mpr h.method_get
    have hhttp : strncmpEq [72, 84, 84, 80, 47, 49, 46, 49] h.protocol 8 = true :=
      (strncmpEq_eq_true rfl).mpr h.protocol_version
    unfold readRequestHead
    rw [hmethod]
    dsimp only
    rw [if_pos hget, htarget]
    dsimp only
    rw [if_neg (by omega), hprotocol]
    dsimp only
    rw [if_pos hhttp]

/-- There is one way to take a text apart. -/
theorem ReadHead.unique {h h' : ReadHead} (heq : h.text = h'.text) : h = h' := by
  have hword {word back delims : Bytes} (hne : word ≠ []) (hword : ∀ c ∈ word, c ∉ delims) :
      ∀ c ∈ (word ++ back).head?, decide (c ∈ delims) = false := by
    obtain ⟨c, word, rfl⟩ := List.exists_cons_of_ne_nil hne
    simpa using hword c (by simp)
  have htarget (h : ReadHead) : h.target ≠ [] :=
    List.ne_nil_of_length_pos (Nat.lt_of_lt_of_le Nat.two_pos h.target_long)
  have hmethod (h : ReadHead) : h.method ≠ [] := h.method_get.ne_nil (by decide)
  have hprotocol (h : ReadHead) : h.protocol ≠ [] := h.protocol_version.ne_nil (by decide)
  unfold ReadHead.text at heq
  obtain ⟨h1, heq⟩ := span_unique (p := (· ∈ [32])) (by simpa using h.before_spaces)
    (hword (hmethod h) h.method_word) (by simpa using h'.before_spaces)
    (hword (hmethod h') h'.method_word) heq
  obtain ⟨h2, heq⟩ := span_unique (p := (· ∉ [32])) (by simpa using h.method_word) (by simp)
    (by simpa using h'.method_word) (by simp) heq
  obtain ⟨h3, heq⟩ := span_unique (p := (· ∈ [32])) (by simpa using h.gap_spaces)
    (hword (htarget h) h.target_word) (by simpa using h'.gap_spaces)
    (hword (htarget h') h'.target_word) (List.cons.inj heq).2
  obtain ⟨h4, heq⟩ := span_unique (p := (· ∉ [32])) (by simpa using h.target_word) (by simp)
    (by simpa using h'.target_word) (by simp) heq
  obtain ⟨h5, heq⟩ := span_unique (p := (· ∈ lineDelims)) (by simpa using h.gap'_delims)
    (hword (hprotocol h) h.protocol_word) (by simpa using h'.gap'_delims)
    (hword (hprotocol h') h'.protocol_word) (List.cons.inj heq).2
  obtain ⟨h6, h7⟩ := span_unique (p := (· ∉ lineDelims)) (by simpa using h.protocol_word)
    (by simpa using h.rest_delim) (by simpa using h'.protocol_word) (by simpa using h'.rest_delim)
    heq
  cases h
  cases h'
  simp only [mk.injEq]
  exact ⟨h1, h2, h3, h4, h5, h6, h7⟩

theorem oneLine_nil : OneLine [] := fun h => absurd h.length_le (by decide)

theorem oneLine_cons {c : UInt8} {line : Bytes} :
    OneLine (c :: line) ↔ ¬ crlf <+: c :: line ∧ OneLine line := by
  rw [OneLine, List.infix_cons_iff, not_or, OneLine]

theorem oneLine_of_plain {line : Bytes} (h : ∀ c ∈ line, c ≠ 13) : OneLine line :=
  fun hcrlf => h 13 (hcrlf.subset (by decide)) rfl

/-- A line break does not come from putting together what ends in no CR. -/
theorem OneLine.append {a b : Bytes} (ha : OneLine a) (hb : OneLine b)
    (hends : b.head? ≠ some 10 ∨ a.getLast? ≠ some 13) : OneLine (a ++ b) := by
  induction a with
  | nil => exact hb
  | cons c a ih =>
    rw [oneLine_cons] at ha
    rw [List.cons_append, oneLine_cons]
    cases a with
    | nil =>
      refine ⟨?_, hb⟩
      rintro ⟨rest, hrest⟩
      obtain ⟨hc, hrest⟩ := List.cons.inj hrest
      rw [List.nil_append] at hrest
      rcases hends with hhead | hlast
      · exact hhead (by rw [← hrest]; rfl)
      · exact hlast (by rw [← hc]; rfl)
    | cons d a =>
      refine ⟨fun hcrlf => ha.1 ?_, ih ha.2 (by rwa [List.getLast?_cons_cons] at hends)⟩
      exact List.prefix_of_prefix_length_le hcrlf (List.prefix_append (c :: d :: a) b)
        (Nat.le_add_left _ _)

theorem firstLine_append {line ending : Bytes} (hline : OneLine line)
    (hending : ending = [] ∨ crlf <+: ending) : firstLine (line ++ ending) = line := by
  induction line with
  | nil =>
    rcases hending with rfl | ⟨rest, rfl⟩
    · rfl
    · rfl
  | cons c line ih =>
    have hno : ¬ crlf <+: c :: (line ++ ending) := by
      intro hcrlf
      cases line with
      | nil =>
        have hten : ending.head? = some 10 := by
          obtain ⟨rest, hrest⟩ := hcrlf
          rw [List.nil_append] at hrest
          rw [← (List.cons.inj hrest).2]
          rfl
        rcases hending with rfl | ⟨rest, rfl⟩
        · cases hten
        · exact absurd hten (show some (13 : UInt8) ≠ some 10 by decide)
      | cons d line =>
        exact (oneLine_cons.mp hline).1 (List.prefix_of_prefix_length_le hcrlf
          (List.prefix_append (c :: d :: line) ending) (Nat.le_add_left _ _))
    rw [List.cons_append, firstLine, if_neg (mt List.isPrefixOf_iff_prefix.mp hno),
      ih (oneLine_cons.mp hline).2]

theorem firstLine_spec (text : Bytes) : ∃ ending, text = firstLine text ++ ending ∧
    (ending = [] ∨ crlf <+: ending) ∧ OneLine (firstLine text) := by
  induction text with
  | nil => exact ⟨[], rfl, .inl rfl, oneLine_nil⟩
  | cons c text ih =>
    rw [firstLine]
    split_ifs with hcrlf
    · exact ⟨c :: text, rfl, .inr (List.isPrefixOf_iff_prefix.mp hcrlf), oneLine_nil⟩
    · obtain ⟨ending, htext, hending, hline⟩ := ih
      refine ⟨ending, by rw [List.cons_append, ← htext], hending, oneLine_cons.mpr ⟨?_, hline⟩⟩
      intro hfirst
      apply hcrlf
      rw [List.isPrefixOf_iff_prefix, htext]
      exact hfirst.trans (List.prefix_append (c :: firstLine text) ending)

theorem get_word : ∀ c ∈ get, c ∉ [(32 : UInt8)] := by simp [get]

theorem version_word : ∀ c ∈ version, c ∉ lineDelims := by simp [version, lineDelims]

theorem get_plain : ∀ c ∈ get, c ≠ 13 := by simp [get]

theorem oneLine_version : OneLine version := oneLine_of_plain (by simp [version])

/-- The texts with a request line are the ones that are taken apart exactly. -/
theorem isRequestLine_iff {text target : Bytes} : IsRequestLine (firstLine text) target ↔
    ∃ h : ReadHead, h.text = text ∧ h.target = target ∧ h.Exact := by
  constructor
  · rintro ⟨gap, gap', hline, hgap, hgap', hspaces, hspaces', hlong, hword⟩
    obtain ⟨ending, htext, hending, hone⟩ := firstLine_spec text
    obtain ⟨s, gap, rfl⟩ := List.exists_cons_of_ne_nil hgap
    obtain ⟨s', gap', rfl⟩ := List.exists_cons_of_ne_nil hgap'
    obtain ⟨rfl, hfill⟩ := List.forall_mem_cons.mp hspaces
    obtain ⟨rfl, hfill'⟩ := List.forall_mem_cons.mp hspaces'
    have htarget : OneLine target := fun hcrlf => hone <| hcrlf.trans <| by
      rw [hline]
      exact ⟨get ++ 32 :: gap, 32 :: gap' ++ version, by simp⟩
    refine ⟨⟨[], get, gap, target, gap', version, ending, by simp, get_word, List.prefix_rfl,
      by simpa using hfill, ?_, hlong, ?_, version_word, List.prefix_rfl, ?_⟩, ?_, rfl,
      ⟨rfl, rfl, htarget, hfill', rfl, hending⟩⟩
    · rintro c hc hspace
      rw [List.mem_singleton.mp hspace] at hc
      exact hword hc
    · intro c hc
      rw [hfill' c hc]
      decide
    · rcases hending with rfl | ⟨rest, rfl⟩
      · simp
      · simp [crlf, lineDelims]
    · rw [hline] at htext
      simp [ReadHead.text, htext]
  · rintro ⟨h, rfl, rfl, hexact⟩
    have hspaces : ∀ c ∈ h.gap, c = 32 := by simpa using h.gap_spaces
    have hplain {gap : Bytes} (hgap : ∀ c ∈ gap, c = 32) : ∀ c ∈ 32 :: gap, c ≠ 13 := by
      intro c hc
      rcases List.mem_cons.mp hc with rfl | hc
      · decide
      · rw [hgap c hc]
        decide
    have hback : OneLine (32 :: h.gap' ++ version) :=
      (oneLine_of_plain (hplain hexact.gap')).append oneLine_version (.inl (by decide))
    have hfront : ∀ c ∈ get ++ 32 :: h.gap, c ≠ 13 := by
      intro c hc
      rcases List.mem_append.mp hc with hc | hc
      · exact get_plain c hc
      · exact hplain hspaces c hc
    have hline : OneLine ((get ++ 32 :: h.gap) ++ (h.target ++ (32 :: h.gap' ++ version))) := by
      apply (oneLine_of_plain hfront).append (hexact.target.append hback (.inl (by simp)))
      exact .inr fun hlast => hfront 13 (List.mem_of_getLast? hlast) rfl
    have htext : h.text = ((get ++ 32 :: h.gap) ++ (h.target ++ (32 :: h.gap' ++ version))) ++
        h.rest := by
      rw [ReadHead.text, hexact.before, hexact.method, hexact.protocol]
      simp
    rw [htext, firstLine_append hline hexact.rest]
    refine ⟨32 :: h.gap, 32 :: h.gap', by simp, by simp, by simp, by simpa using hspaces,
      by simpa using hexact.gap', h.target_long, fun hmem => h.target_word 32 hmem (by simp)⟩

/-- On a text without NUL the function does what the format says if and only if, wherever it can
take the text apart, every part is exact. -/
theorem read_request_head_iff (request_buffer : Bytes) (hplain : ∀ c ∈ request_buffer, c ≠ 0) :
    (∀ filename, readRequestHead request_buffer = some filename ↔
      IsRequestLine (firstLine request_buffer) filename) ↔
        ∀ h : ReadHead, h.text = request_buffer → h.Exact := by
  have hstring := cString_of_plain hplain
  constructor
  · intro hall h htext
    have hread : readRequestHead request_buffer = some h.target :=
      readRequestHead_eq_some.mpr ⟨h, by rw [hstring, htext], rfl⟩
    obtain ⟨h', htext', -, hexact⟩ := isRequestLine_iff.mp ((hall _).mp hread)
    rwa [ReadHead.unique (htext.trans htext'.symm)]
  · intro hexact filename
    rw [readRequestHead_eq_some, isRequestLine_iff, hstring]
    constructor
    · rintro ⟨h, htext, htarget⟩
      exact ⟨h, htext, htarget, hexact h htext⟩
    · rintro ⟨h, htext, htarget, -⟩
      exact ⟨h, htext, htarget⟩

/-- `GETX /a HTTP/1.1` and a blank line. -/
def getxRequest : Bytes :=
  [71, 69, 84, 88, 32, 47, 97, 32, 72, 84, 84, 80, 47, 49, 46, 49, 13, 10, 13, 10]

/-- `GET /a HTTP/1.1` and a blank line. -/
def plainHead : Bytes :=
  [71, 69, 84, 32, 47, 97, 32, 72, 84, 84, 80, 47, 49, 46, 49, 13, 10, 13, 10]

theorem read_request_head_plain : readRequestHead plainHead = some [47, 97] ∧
    IsRequestLine (firstLine plainHead) [47, 97] ∧ ¬ IsRequestLine (firstLine plainHead) [47] := by
  have hiff : ∀ filename, readRequestHead plainHead = some filename ↔
      IsRequestLine (firstLine plainHead) filename := by
    refine (read_request_head_iff plainHead (by simp [plainHead])).mpr fun h htext => ?_
    have hparts : (⟨[], get, [], [47, 97], [], version, crlfcrlf, by simp, get_word,
        List.prefix_rfl, by simp, by simp, by simp, by simp, version_word, List.prefix_rfl,
        by simp [crlfcrlf, lineDelims]⟩ : ReadHead).text = plainHead := rfl
    rw [ReadHead.unique (htext.trans hparts.symm)]
    exact ⟨rfl, rfl, oneLine_of_plain (by simp), by simp, rfl, .inr (by decide)⟩
  have hread : readRequestHead plainHead = some [47, 97] := by decide
  refine ⟨hread, (hiff [47, 97]).mp hread, fun hother => ?_⟩
  have hsame := hread.symm.trans ((hiff [47]).mpr hother)
  exact absurd hsame (by decide)

theorem read_request_head_getx : ¬ ∀ request_buffer : Bytes, (∀ c ∈ request_buffer, c ≠ 0) →
    ∀ filename, readRequestHead request_buffer = some filename ↔
      IsRequestLine (firstLine request_buffer) filename := by
  intro hall
  obtain ⟨gap, gap', hline, hgap, -, hspaces, -, -, -⟩ :=
    (hall getxRequest (by simp [getxRequest]) [47, 97]).mp (by decide)
  obtain ⟨c, gap, rfl⟩ := List.exists_cons_of_ne_nil hgap
  have hfirst : firstLine getxRequest =
      get ++ [88, 32, 47, 97, 32, 72, 84, 84, 80, 47, 49, 46, 49] := by decide
  rw [hfirst] at hline
  have hc := (List.cons.inj (List.append_cancel_left hline)).1
  rw [hspaces c (by simp)] at hc
  exact absurd hc (by decide)

/-- What `strcpy` and `sprintf` write for the text stays within `filename` and `filepath`. -/
def HeadFits (base_path request_buffer : Bytes) : Prop :=
  ∀ filename, readRequestHead request_buffer = some filename →
    filename.length + 1 ≤ MAX_FILENAME_LEN ∧
      ∀ filepath, makeResponse base_path filename = .stat filepath →
        filepath.length + 1 ≤ MAX_FILEPATH_LEN

theorem makeResponse_length {base_path filename filepath : Bytes}
    (h : makeResponse base_path filename = .stat filepath) :
    filepath.length ≤ base_path.length + 1 + filename.length := by
  have hskip := (skipSlash_length filename).1
  unfold makeResponse at h
  dsimp only at h
  split_ifs at h
  obtain rfl := Pc.stat.inj h
  rw [List.length_append, List.length_cons]
  omega

/-- No length is checked before `strcpy`: the arrays suffice exactly for the texts whose second
word is short wherever the function can take them apart. -/
theorem read_request_head_fits_iff (base_path request_buffer : Bytes)
    (hbase : base_path.length < 190) : HeadFits base_path request_buffer ↔
      ∀ h : ReadHead, h.text = cString request_buffer → h.target.length < 300 := by
  constructor
  · intro hfits h htext
    exact (hfits h.target (readRequestHead_eq_some.mpr ⟨h, htext, rfl⟩)).1
  · intro hshort filename hread
    obtain ⟨h, htext, rfl⟩ := readRequestHead_eq_some.mp hread
    have htarget := hshort h htext
    refine ⟨htarget, fun filepath hpath => ?_⟩
    have hlength := makeResponse_length hpath
    rw [MAX_FILEPATH_LEN]
    omega

theorem read_request_head_fits_plain : HeadFits [46] plainHead := by
  refine (read_request_head_fits_iff [46] plainHead (by decide)).mpr fun h htext => ?_
  have hlength := congrArg List.length htext
  have hplain : (cString plainHead).length = 19 := by decide
  simp only [ReadHead.text, List.length_append, List.length_cons, hplain] at hlength
  omega

/-- `GET /aa…a HTTP/1.1` and a blank line, with `n` letters. -/
def lettersRequest (n : ℕ) : Bytes :=
  get ++ 32 :: (47 :: List.replicate n 97 ++ 32 :: version) ++ crlfcrlf

theorem lettersRequest_plain (n : ℕ) : ∀ c ∈ lettersRequest n, c ≠ 0 := by
  simp [lettersRequest, get, version, crlfcrlf, or_imp, forall_and]

theorem lettersRequest_length (n : ℕ) : (lettersRequest n).length = n + 18 := by
  simp [lettersRequest, get, version, crlfcrlf]

/-- It comes in one piece. -/
theorem readRequest_letters {n : ℕ} (hn : n ≤ 4000) :
    readRequest [some (lettersRequest n)] [] =
      some (((n + 18 : ℕ) : ℤ), lettersRequest n) := by
  have hcons : lettersRequest n = 71 :: ([69, 84] ++ 32 ::
      (47 :: List.replicate n 97 ++ 32 :: version) ++ crlfcrlf) := rfl
  rw [hcons, readRequest, ← hcons]
  dsimp only
  rw [strncpy_of_plain (lettersRequest_plain n), List.nil_append, lettersRequest_length,
    if_neg (by rw [MAX_REQUEST_LEN, List.length_nil]; omega), if_pos]
  exact ⟨by omega, by rw [lettersRequest, List.drop_left' (by simp [get, version])]⟩

/-- Its parts: the target has a slash before the letters. -/
theorem readRequestHead_letters {n : ℕ} (hn : 1 ≤ n) :
    readRequestHead (lettersRequest n) = some (47 :: List.replicate n 97) := by
  rw [readRequestHead_eq_some, cString_of_plain (lettersRequest_plain n)]
  exact ⟨⟨[], get, [], 47 :: List.replicate n 97, [], version, crlfcrlf, by simp, get_word,
    List.prefix_rfl, by simp, by simp, by simpa using hn, by simp, version_word, List.prefix_rfl,
    by simp [crlfcrlf, lineDelims]⟩, by simp [lettersRequest, ReadHead.text], rfl⟩

theorem read_request_head_fits_long : ¬ ∀ (base_path request_text : Bytes)
    (chunks : List (Option Bytes)) (size : ℤ), base_path.length < 190 →
      (∀ c ∈ chunks, (c.getD []).length ≤ buffer_size) →
        readRequest chunks [] = some (size, request_text) → 0 < size →
          HeadFits base_path request_text := by
  intro hall
  have hpiece : ∀ c ∈ [some (lettersRequest 299)], (c.getD []).length ≤ buffer_size := by
    intro c hc
    rw [List.mem_singleton.mp hc, Option.getD_some, lettersRequest_length, buffer_size]
    decide
  have hread := readRequest_letters (show 299 ≤ 4000 by decide)
  have hfits := hall [46] (lettersRequest 299) _ _ (by decide) hpiece hread (by decide)
  have hlong := (hfits _ (readRequestHead_letters (by decide))).1
  rw [List.length_cons, List.length_replicate, MAX_FILENAME_LEN] at hlong
  omega

end Acos.HttpServer
