import Acos.ExecCgi.Model
import Mathlib.Algebra.Group.Nat.Even

/-! The headers are read as pairs of words. So the pairs agree with the lines only as long as the
values in front have one word each, or an odd number of words on the whole. -/
namespace Acos.ExecCgi
open Acos.CString Acos.Scanf

/-- A string without white space and terminators. -/
def IsWord (w : Bytes) : Prop := w ≠ [] ∧ ∀ c ∈ w, isspace c = false ∧ c ≠ 0

/-- What the loop makes of the words: the value of `HTTP_HOST` for those of `header_value` and
`HTTP_HOST` at the start. -/
def lastHost : List Bytes → Option Bytes → Option Bytes → Option Bytes
  | [], _, host => host
  | [name], value, host => if name = hostName then value else host
  | name :: value :: ws, _, host =>
    lastHost ws (some value) (if name = hostName then some value else host)

/-- No word `Host:` has an even number of words in front of it. -/
def Absent (ws : List Bytes) : Prop := ∀ j, ws[2 * j]? ≠ some hostName

/-- The last word `Host:` with an even number of words in front of it stands before the word
`host`, or at the end behind it; `value` is what stands in front of all the words. -/
def AlignedFrom (value : Option Bytes) (ws : List Bytes) (host : Bytes) : Prop :=
  ∃ front back, ws = front ++ hostName :: back ∧ Even front.length ∧ Absent back.tail ∧
    (back.head? = some host ∨ back = [] ∧ front.getLast?.or value = some host)

def Aligned (ws : List Bytes) (host : Bytes) : Prop := AlignedFrom none ws host

section
variable {ws : List Bytes} {host w name next : Bytes} {value start : Option Bytes} {size : ℕ}

theorem absent_nil : Absent [] := fun _ => by simp

theorem absent_singleton : Absent [name] ↔ name ≠ hostName := by
  constructor
  · exact fun h heq => h 0 (by simp [heq])
  · intro hne j
    cases j with
    | zero => simpa using hne
    | succ j => simp [Nat.mul_add]

theorem absent_cons_cons : Absent (name :: next :: ws) ↔ name ≠ hostName ∧ Absent ws := by
  constructor
  · exact fun h => ⟨fun heq => h 0 (by simp [heq]), fun j => by simpa [Nat.mul_add] using h (j + 1)⟩
  · rintro ⟨hne, h⟩ j
    cases j with
    | zero => simpa using hne
    | succ j => simpa [Nat.mul_add] using h j

theorem not_alignedFrom_nil : ¬ AlignedFrom value [] host := by
  rintro ⟨front, back, hws, -⟩
  simp at hws

theorem alignedFrom_singleton :
    AlignedFrom value [name] host ↔ name = hostName ∧ value = some host := by
  constructor
  · rintro ⟨front, back, hws, -, -, hvalue⟩
    cases front with
    | nil =>
      obtain ⟨rfl, rfl⟩ := List.cons.inj hws
      exact ⟨rfl, by simpa using hvalue⟩
    | cons x front => simp at hws
  · rintro ⟨rfl, hvalue⟩
    exact ⟨[], [], rfl, Even.zero, absent_nil, .inr ⟨rfl, hvalue⟩⟩

theorem alignedFrom_cons_cons :
    AlignedFrom value (name :: next :: ws) host ↔
      AlignedFrom (some next) ws host ∨ name = hostName ∧ Absent ws ∧ next = host := by
  constructor
  · rintro ⟨front, back, hws, heven, habsent, hvalue⟩
    match front with
    | [] =>
      obtain ⟨rfl, rfl⟩ := List.cons.inj hws
      exact .inr ⟨rfl, habsent, by simpa using hvalue⟩
    | [x] => simp at heven
    | x :: y :: front =>
      obtain ⟨rfl, hrest⟩ := List.cons.inj hws
      obtain ⟨rfl, rfl⟩ := List.cons.inj hrest
      refine .inl ⟨front, back, rfl, by simpa [Nat.even_add_one] using heven, habsent, ?_⟩
      cases front <;> simpa [List.getLast?_cons] using hvalue
  · rintro (⟨front, back, rfl, heven, habsent, hvalue⟩ | ⟨rfl, habsent, rfl⟩)
    · refine ⟨name :: next :: front, back, rfl, by simpa [Nat.even_add_one] using heven, habsent, ?_⟩
      cases front <;> simpa [List.getLast?_cons] using hvalue
    · exact ⟨[], next :: ws, rfl, Even.zero, habsent, .inl rfl⟩

theorem lastHost_iff (ws : List Bytes) (value start : Option Bytes) :
    lastHost ws value start = some host ↔
      AlignedFrom value ws host ∨ Absent ws ∧ start = some host := by
  match ws with
  | [] => simp [lastHost, not_alignedFrom_nil, absent_nil]
  | [name] =>
    rw [lastHost, alignedFrom_singleton, absent_singleton]
    split_ifs with hname <;> simp [hname]
  | name :: next :: ws =>
    rw [lastHost, lastHost_iff ws, alignedFrom_cons_cons, absent_cons_cons]
    split_ifs with hname
    · simp [hname]
    · simp [hname]

/-- The loop reads the words of the stream, if all of them fit. -/
theorem headerLoop_eq {stream : Bytes} (hplain : ∀ w ∈ words stream, ∀ c ∈ w, c ≠ 0)
    (hvalue : ∀ v ∈ value, ∀ c ∈ v, c ≠ 0) :
    headerLoop stream value start =
      if ∀ w ∈ words stream, w.length < maxName then some (lastHost (words stream) value start)
      else none := by
  induction hn : stream.length using Nat.strong_induction_on generalizing stream value start with
  | _ n ih =>
    unfold headerLoop
    split
    · rename_i hnone
      simp [scanString_none hnone, lastHost]
    · rename_i name rest hname
      obtain ⟨hwords, hshorter⟩ := scanString_some hname
      rw [← words_dropWhile rest] at hwords
      rw [hwords] at hplain ⊢
      rw [cString_of_plain (hplain name List.mem_cons_self)]
      simp only [List.forall_mem_cons]
      by_cases hfit : name.length < maxName
      · rw [if_pos hfit]
        split
        · rename_i hnone
          have hstored : value.map cString = value := by
            cases value with
            | none => rfl
            | some v => rw [Option.map_some, cString_of_plain (hvalue v rfl)]
          simp [scanString_none hnone, hfit, hstored, lastHost]
        · rename_i next rest' hnext
          obtain ⟨hwords', hshorter'⟩ := scanString_some hnext
          rw [← words_dropWhile rest'] at hwords'
          rw [hwords'] at hplain ⊢
          obtain ⟨-, hplain⟩ := List.forall_mem_cons.mp hplain
          obtain ⟨hplain₂, hplain⟩ := List.forall_mem_cons.mp hplain
          have hless : (rest'.dropWhile isspace).length < n := by
            have h₁ := (List.dropWhile_sublist isspace (l := rest)).length_le
            have h₂ := (List.dropWhile_sublist isspace (l := rest')).length_le
            omega
          rw [ih _ hless hplain (fun v hv => by rw [← Option.some.inj hv]; exact hplain₂) rfl,
            cString_of_plain hplain₂, lastHost]
          simp only [List.forall_mem_cons, hfit, true_and, ite_and]
      · rw [if_neg hfit, if_neg fun h => hfit h.1]

theorem dropWhile_word (hw : IsWord w) (s : Bytes) : (w ++ s).dropWhile isspace = w ++ s := by
  obtain ⟨c, w, rfl⟩ := List.exists_cons_of_ne_nil hw.1
  rw [List.cons_append, List.dropWhile_cons, (hw.2 c List.mem_cons_self).1]
  rfl

theorem cString_word (hw : IsWord w) : cString w = w := cString_of_plain fun c hc => (hw.2 c hc).2

/-- `%s` reads a word up to the space behind it. -/
theorem scanWord_word (hw : IsWord w) (size : ℕ) (rest : Bytes) :
    scanWord size (w ++ 32 :: rest) =
      if w.length < size then some (w, rest.dropWhile isspace) else none := by
  have hscan : scanString (w ++ 32 :: rest) = (some w, 32 :: rest) :=
    scanString_word (List.forall_mem_nil _) hw.1 (fun c hc => (hw.2 c hc).1) (by decide)
  rw [scanWord, hscan]
  rfl

theorem scanLiteral_self (text stream : Bytes) :
    scanLiteral text (text ++ stream) = stream.dropWhile isspace := by
  induction text with
  | nil => rfl
  | cons c text ih => rw [List.cons_append, scanLiteral, if_pos rfl, ih]

end

structure Header where
  name : Bytes
  value : Bytes

/-- The value is not empty and does not go on on another line. -/
def Header.WellFormed (h : Header) : Prop :=
  IsWord h.name ∧ h.name.getLast? = some 58 ∧ h.value ≠ [] ∧ ∀ c ∈ h.value, c ≠ 10 ∧ c ≠ 0

/-- A request: the first line, the headers with `Host` among them, and what comes behind them. -/
structure Request where
  method : Bytes
  target : Bytes
  before : List Header
  host : Bytes
  after : List Header
  newline : Bytes
  tail : Bytes

namespace Request

def headers (r : Request) : List Header := r.before ++ ⟨hostName, r.host⟩ :: r.after

def headerText (r : Request) : Bytes :=
  r.headers.flatMap fun h => h.name ++ 32 :: (h.value ++ r.newline)

def text (r : Request) : Bytes :=
  r.method ++ 32 :: (r.target ++ 32 :: (HttpText.version ++
    (r.newline ++ (r.headerText ++ r.tail))))

structure WellFormed (r : Request) : Prop where
  method : IsWord r.method
  target : IsWord r.target
  host : IsWord r.host
  before : ∀ h ∈ r.before, h.WellFormed ∧ h.name ≠ hostName
  after : ∀ h ∈ r.after, h.WellFormed ∧ h.name ≠ hostName
  newline : r.newline = [10] ∨ r.newline = HttpText.crlf
  tail : ∀ c ∈ r.tail, isspace c = true

/-- The words of the headers. -/
def words (r : Request) : List Bytes := r.headers.flatMap fun h => h.name :: Scanf.words h.value

def path (r : Request) : Bytes := r.target.takeWhile (· ≠ 63)

/-- What is taken for the query. -/
def query (r : Request) (stale : Option Bytes) : Bytes :=
  if r.path.length < r.target.length then r.target.drop (r.path.length + 1) else stale.getD []

/-- There is a path, and everything has room in its array and in the environment. -/
structure Fits (r : Request) (stale : Option Bytes) : Prop where
  method : r.method.length < 10
  target : r.target.length < maxName
  path_ne_nil : r.path ≠ []
  path : scriptNameName.length + r.path.length < maxName
  query : queryStringName.length + (r.query stale).length < maxName
  words : ∀ w ∈ r.words, w.length < maxName
  host : httpHostName.length + r.host.length < maxName

end Request

section
variable {r : Request} {stale : Option Bytes} {newline tail : Bytes} {query : Bytes}

theorem words_spaces (htail : ∀ c ∈ tail, isspace c = true) : words tail = [] := by
  by_cases hne : tail = []
  · rw [hne, words_nil]
  · have h := words_append_spaces hne htail [] []
    simpa using h

theorem words_headers {hs : List Header} (hnames : ∀ h ∈ hs, IsWord h.name) (hne : newline ≠ [])
    (hnewline : ∀ c ∈ newline, isspace c = true) (htail : ∀ c ∈ tail, isspace c = true) :
    words (hs.flatMap (fun h => h.name ++ 32 :: (h.value ++ newline)) ++ tail) =
      hs.flatMap fun h => h.name :: words h.value := by
  induction hs with
  | nil => exact words_spaces htail
  | cons h hs ih =>
    obtain ⟨hname, hnames⟩ := List.forall_mem_cons.mp hnames
    simp only [List.flatMap_cons, List.append_assoc, List.cons_append]
    rw [words_append_space (by decide), words_append_spaces hne hnewline, ih hnames,
      words_of_word hname.1 fun c hc => (hname.2 c hc).1]
    rfl

theorem isWord_hostName : IsWord hostName := by
  refine ⟨by decide, ?_⟩
  simp [hostName, isspace]

theorem isWord_version : IsWord HttpText.version := by
  refine ⟨by decide, ?_⟩
  simp [HttpText.version, isspace]

namespace Request.WellFormed

theorem names (h : r.WellFormed) : ∀ x ∈ r.headers, IsWord x.name := by
  intro x hx
  rcases List.mem_append.mp hx with hx | hx
  · exact (h.before x hx).1.1
  · rcases List.mem_cons.mp hx with rfl | hx
    · exact isWord_hostName
    · exact (h.after x hx).1.1

theorem newline_space (h : r.WellFormed) : r.newline ≠ [] ∧ ∀ c ∈ r.newline, isspace c = true := by
  rcases h.newline with heq | heq
  all_goals
    rw [heq]
    simp [HttpText.crlf, isspace]

theorem plain (h : r.WellFormed) : ∀ w ∈ r.words, ∀ c ∈ w, c ≠ 0 := by
  intro w hw c hc
  obtain ⟨x, hx, hw⟩ := List.mem_flatMap.mp hw
  rcases List.mem_cons.mp hw with rfl | hw
  · exact ((h.names x hx).2 c hc).2
  · have hmem := words_subset hw hc
    rcases List.mem_append.mp hx with hx | hx
    · exact ((h.before x hx).1.2.2.2 c hmem).2
    · rcases List.mem_cons.mp hx with rfl | hx
      · exact (h.host.2 c hmem).2
      · exact ((h.after x hx).1.2.2.2 c hmem).2

/-- What the loop reads behind the first line. -/
theorem headerLoop_text (h : r.WellFormed) :
    headerLoop (scanLiteral HttpText.version (HttpText.version ++
        (r.newline ++ (r.headerText ++ r.tail)))) none none =
      if ∀ w ∈ r.words, w.length < maxName then some (lastHost r.words none none) else none := by
  obtain ⟨hne, hspace⟩ := h.newline_space
  have hwords : Scanf.words ((r.newline ++ (r.headerText ++ r.tail)).dropWhile isspace) =
      r.words := by
    rw [words_dropWhile, ← List.nil_append (r.newline ++ _), words_append_spaces hne hspace,
      words_nil, List.nil_append]
    exact words_headers h.names hne hspace h.tail
  rw [scanLiteral_self, headerLoop_eq (hwords.symm ▸ h.plain) (by simp), hwords]

end Request.WellFormed

theorem scanPath_eq (r : Request) :
    scanPath r.target = if r.path ≠ [] ∧ r.path.length + 1 < maxName then some r.path else none :=
  rfl

/-- `%s` reads the whole of a string without white space. -/
theorem scanString_whole {s : Bytes} (h : ∀ c ∈ s, isspace c = false) :
    (scanString s).1 = if s = [] then none else some s := by
  cases s with
  | nil => rfl
  | cons c s =>
    have hdrop : (c :: s).dropWhile isspace = c :: s := by
      rw [List.dropWhile_cons, h c List.mem_cons_self]
      rfl
    have hall : (c :: s).takeWhile (!isspace ·) = c :: s :=
      List.takeWhile_eq_self_iff.mpr fun d hd => by rw [h d hd]; rfl
    simp only [scanString, hdrop, hall]
    rfl

theorem scanQuery_eq (h : r.WellFormed) : scanQuery stale r.target r.path =
    if (r.query stale).length < maxName then some (r.query stale) else none := by
  unfold scanQuery Request.query
  by_cases hmark : r.path.length < r.target.length
  · have hplain : ∀ c ∈ r.target.drop (r.path.length + 1), isspace c = false :=
      fun c hc => (h.target.2 c (List.mem_of_mem_drop hc)).1
    simp only [if_pos hmark, scanString_whole hplain]
    by_cases hempty : r.target.drop (r.path.length + 1) = []
    · rw [hempty]
      rfl
    · rw [if_neg hempty]
  · simp only [if_neg hmark]
    cases stale <;> rfl

theorem scanWord_method (h : r.WellFormed) : scanWord 10 r.text =
    if r.method.length < 10 then
      some (r.method, r.target ++ 32 :: (HttpText.version ++
        (r.newline ++ (r.headerText ++ r.tail))))
    else none := by
  rw [Request.text, scanWord_word h.method, dropWhile_word h.target]

theorem scanWord_target (h : r.WellFormed) :
    scanWord maxName (r.target ++ 32 :: (HttpText.version ++
        (r.newline ++ (r.headerText ++ r.tail)))) =
      if r.target.length < maxName then
        some (r.target, HttpText.version ++ (r.newline ++ (r.headerText ++ r.tail)))
      else none := by
  rw [scanWord_word h.target, dropWhile_word isWord_version]

/-- What the program has read. -/
theorem readRequest_iff (h : r.WellFormed) {v : Variables} :
    readRequest stale r.text = some v ↔ r.method.length < 10 ∧ r.target.length < maxName ∧
      (r.path ≠ [] ∧ r.path.length + 1 < maxName) ∧ (r.query stale).length < maxName ∧
      (∀ w ∈ r.words, w.length < maxName) ∧
      ⟨r.method, 46 :: r.path, r.query stale, lastHost r.words none none⟩ = v := by
  unfold readRequest
  rw [scanWord_method h]
  by_cases hmethod : r.method.length < 10
  · simp only [if_pos hmethod, Option.bind_eq_bind, Option.bind_some, scanWord_target h]
    by_cases htarget : r.target.length < maxName
    · simp only [if_pos htarget, Option.bind_some, cString_word h.method, cString_word h.target,
        scanPath_eq, h.headerLoop_text]
      simp only [Option.bind_eq_some_iff, Option.ite_none_right_eq_some, Option.some.injEq, hmethod,
        htarget, true_and]
      constructor
      · rintro ⟨path, ⟨hpath, rfl⟩, query, hquery, host, ⟨hwords, rfl⟩, rfl⟩
        rw [scanQuery_eq h, Option.ite_none_right_eq_some] at hquery
        obtain ⟨hquery, heq⟩ := hquery
        exact ⟨hpath, hquery, hwords, by rw [Option.some.inj heq]⟩
      · rintro ⟨hpath, hquery, hwords, rfl⟩
        exact ⟨_, ⟨hpath, rfl⟩, _, by rw [scanQuery_eq h, if_pos hquery], _, ⟨hwords, rfl⟩, rfl⟩
    · simp [htarget]
  · simp [hmethod]

/-- The script gets the variables if all of them fit. -/
theorem environment_iff {v : Variables} {host : Bytes} :
    (∃ env, environment v = some env ∧ env.head? = some (httpHostName ++ host)) ↔
      v.HTTP_HOST = some host ∧ (httpHostName ++ host).length < maxName ∧
        (queryStringName ++ v.QUERY_STRING).length < maxName ∧
        (requestMethodName ++ v.REQUEST_METHOD).length < maxName ∧
        (scriptNameName ++ v.SCRIPT_NAME.drop 1).length < maxName := by
  unfold environment entry
  simp only [Option.bind_eq_bind, Option.bind_eq_some_iff, Option.ite_none_right_eq_some,
    Option.some.injEq]
  constructor
  · rintro ⟨env, ⟨value, hvalue, -, ⟨hhost, rfl⟩, -, ⟨hquery, rfl⟩, -, ⟨hmethod, rfl⟩, -,
      ⟨hscript, rfl⟩, rfl⟩, hhead⟩
    rw [List.head?_cons, Option.some.injEq, List.append_cancel_left_eq] at hhead
    subst hhead
    exact ⟨hvalue, hhost, hquery, hmethod, hscript⟩
  · rintro ⟨hvalue, hhost, hquery, hmethod, hscript⟩
    exact ⟨_, ⟨host, hvalue, _, ⟨hhost, rfl⟩, _, ⟨hquery, rfl⟩, _, ⟨hmethod, rfl⟩, _,
      ⟨hscript, rfl⟩, rfl⟩, rfl⟩

/-- What the script gets, for the words that the loop has read. -/
theorem main_iff (h : r.WellFormed) :
    (∃ env, main stale r.text = some env ∧ env.head? = some (httpHostName ++ r.host)) ↔
      r.Fits stale ∧ lastHost r.words none none = some r.host := by
  have hsplit : (∃ env, main stale r.text = some env ∧
      env.head? = some (httpHostName ++ r.host)) ↔
      ∃ v, readRequest stale r.text = some v ∧
        ∃ env, environment v = some env ∧ env.head? = some (httpHostName ++ r.host) := by
    simp only [main, Option.bind_eq_some_iff]
    constructor
    · rintro ⟨env, ⟨v, hv, henv⟩, hhead⟩
      exact ⟨v, hv, env, henv, hhead⟩
    · rintro ⟨v, hv, env, henv, hhead⟩
      exact ⟨env, ⟨v, hv, henv⟩, hhead⟩
  rw [hsplit]
  simp only [readRequest_iff h, environment_iff, List.length_append]
  constructor
  · rintro ⟨v, ⟨hmethod, htarget, hpath, hquery, hwords, rfl⟩, hhost, hhostlen, hquerylen, -,
      hscript⟩
    exact ⟨⟨hmethod, htarget, hpath.1, hscript, hquerylen, hwords, hhostlen⟩, hhost⟩
  · rintro ⟨hfits, hhost⟩
    have hscript : 12 + r.path.length < maxName := hfits.path
    have hquery : 13 + (r.query stale).length < maxName := hfits.query
    have hmethod := hfits.method
    refine ⟨_, ⟨hmethod, hfits.target, ⟨hfits.path_ne_nil, ?_⟩, ?_, hfits.words, rfl⟩, hhost,
      hfits.host, hfits.query, ?_, hfits.path⟩
    · omega
    · omega
    · simp only [requestMethodName, maxName, List.length_cons, List.length_nil]
      omega

/-- The script gets the value of `Host` if and only if the words are aligned with it and everything
fits. -/
theorem host_passed_iff (h : r.WellFormed) (stale : Option Bytes) :
    (∃ env, main stale r.text = some env ∧ env.head? = some (httpHostName ++ r.host)) ↔
      r.Fits stale ∧ Aligned r.words r.host := by
  rw [main_iff h, lastHost_iff, Aligned, or_iff_left (by simp)]

end

/-- A request for `/a` from the host `h` among other headers. -/
def requestWith (before after : List Header) : Request :=
  ⟨[71], [47, 97], before, [104], after, [10], []⟩

theorem requestWith_wellFormed {before after : List Header}
    (hbefore : ∀ x ∈ before, x.WellFormed ∧ x.name ≠ hostName)
    (hafter : ∀ x ∈ after, x.WellFormed ∧ x.name ≠ hostName) :
    (requestWith before after).WellFormed where
  method := by simp [requestWith, IsWord, isspace]
  target := by simp [requestWith, IsWord, isspace]
  host := by simp [requestWith, IsWord, isspace]
  before := hbefore
  after := hafter
  newline := .inl rfl
  tail := by simp [requestWith]

/-- `A: b`. -/
def oneWord : Header := ⟨[65, 58], [98]⟩

/-- `A: b c`. -/
def twoWords : Header := ⟨[65, 58], [98, 32, 99]⟩

theorem oneWord_wellFormed : ∀ x ∈ [oneWord], x.WellFormed ∧ x.name ≠ hostName := by
  intro x hx
  rw [List.mem_singleton.mp hx]
  simp [oneWord, Header.WellFormed, IsWord, isspace, hostName]

theorem twoWords_wellFormed : ∀ x ∈ [twoWords], x.WellFormed ∧ x.name ≠ hostName := by
  intro x hx
  rw [List.mem_singleton.mp hx]
  simp [twoWords, Header.WellFormed, IsWord, isspace, hostName]

theorem words_host : words [104] = [[104]] := words_of_word (by decide) (by simp [isspace])

theorem words_oneWord : words oneWord.value = [[98]] :=
  words_of_word (by decide) (by simp [oneWord, isspace])

theorem words_twoWords : words twoWords.value = [[98], [99]] := by
  have hc : words [99] = [[99]] := words_of_word (by decide) (by simp [isspace])
  exact (words_append_space (c := 32) (by decide) [98] [99]).trans
    (congrArg₂ (· ++ ·) words_oneWord hc)

/-- A value of one word stands in front of the host, and one of two words behind it. -/
theorem host_passed_among_others :
    ∃ env, main none (requestWith [oneWord] [twoWords]).text = some env ∧
      env.head? = some (httpHostName ++ [104]) := by
  have hwords : (requestWith [oneWord] [twoWords]).words =
      [[65, 58], [98]] ++ hostName :: [[104], [65, 58], [98], [99]] := by
    simp [Request.words, Request.headers, requestWith, words_host, words_oneWord, words_twoWords]
    simp [oneWord, twoWords]
  have hfits : (requestWith [oneWord] [twoWords]).Fits none := by
    refine ⟨by decide, by decide, by decide, by decide, by decide, ?_, by decide⟩
    rw [hwords]
    simp [hostName, maxName]
  have habsent : Absent [[65, 58], [98], [99]] :=
    absent_cons_cons.mpr ⟨by decide, absent_singleton.mpr (by decide)⟩
  exact (host_passed_iff (requestWith_wellFormed oneWord_wellFormed twoWords_wellFormed) none).mpr
    ⟨hfits, _, _, hwords, by decide, habsent, .inl rfl⟩

/-- The value of two words in front of it takes `Host:` for a value. -/
theorem host_passed_two_words :
    ¬ ∀ (r : Request) (stale : Option Bytes), r.WellFormed →
      ∃ env, main stale r.text = some env ∧ env.head? = some (httpHostName ++ r.host) := by
  intro hall
  have hwell : (requestWith [twoWords] []).WellFormed :=
    requestWith_wellFormed twoWords_wellFormed (List.forall_mem_nil _)
  have hwords : (requestWith [twoWords] []).words = [[65, 58], [98], [99], hostName, [104]] := by
    simp [Request.words, Request.headers, requestWith, words_twoWords, words_host]
    rfl
  have hhost := ((main_iff hwell).mp (hall _ none hwell)).2
  rw [hwords] at hhost
  exact absurd hhost (by decide)

end Acos.ExecCgi
