import Acos.HttpServer.Request
import Mathlib.Data.List.Forall2

/-! How `read_request` depends on the way in which a stream arrives. It looks for the blank line
at the end of each chunk only, and copies each chunk only up to a NUL byte. -/
namespace Acos.HttpServer
open Acos.CString

/-- The most bytes that `read_request` accepts. -/
def maxRequest : ℕ := MAX_REQUEST_LEN - 2

/-- What `recv` returns for these chunks, and then for a client that has stopped sending. -/
def received (chunks : List Bytes) : List (Option Bytes) := chunks.map some ++ [some []]

/-- The value of `read_request`, and the text if the value is not `-1`. -/
def answer (chunks : List Bytes) : Option (ℤ × Bytes) :=
  (readRequest (received chunks) []).map fun (value, text) =>
    (value, if value = -1 then [] else text)

structure Splitting (stream : Bytes) (chunks : List Bytes) : Prop where
  join : chunks.flatten = stream
  sizes : ∀ chunk ∈ chunks, 1 ≤ chunk.length ∧ chunk.length ≤ buffer_size

/-- How many bytes a stream has up to and with its first blank line. -/
def headEnd : Bytes → Option ℕ
  | [] => none
  | c :: stream =>
    if crlfcrlf <+: c :: stream then some 4 else (headEnd stream).map (· + 1)

/-- No NUL byte is followed by another one that is not NUL. -/
def NulsTrail (stream : Bytes) : Prop := ∀ a x b, stream = a ++ 0 :: x :: b → x = 0

/-- The streams whose request does not depend on the chunks. -/
def Framed (stream : Bytes) : Prop :=
  (maxRequest < stream.length ∧ ∀ e, headEnd stream = some e → maxRequest < e) ∨
    (stream.length ≤ maxRequest ∧ (∀ e, headEnd stream = some e → e = stream.length) ∧
      NulsTrail stream)

theorem headEnd_spec {stream : Bytes} {e : ℕ} (h : headEnd stream = some e) :
    4 ≤ e ∧ e ≤ stream.length ∧ (stream.take e).drop (e - 4) = crlfcrlf := by
  induction stream generalizing e with
  | nil => cases h
  | cons c stream ih =>
    rw [headEnd] at h
    split_ifs at h with hblank
    · cases h
      obtain ⟨rest, hrest⟩ := hblank
      rw [← hrest]
      refine ⟨le_refl 4, ?_, ?_⟩
      · rw [List.length_append]
        exact Nat.le_add_right 4 _
      · show (crlfcrlf ++ rest).take crlfcrlf.length = crlfcrlf
        exact List.take_left
    · obtain ⟨k, hk, rfl⟩ := Option.map_eq_some_iff.mp h
      obtain ⟨hmin, hlen, htake⟩ := ih hk
      refine ⟨by omega, by rw [List.length_cons]; omega, ?_⟩
      have hindex : k + 1 - 4 = k - 4 + 1 := by omega
      rw [List.take_succ_cons, hindex, List.drop_succ_cons]
      exact htake

/-- A blank line somewhere bounds the position of the first one. -/
theorem headEnd_le {stream : Bytes} {k : ℕ} (h : crlfcrlf <+: stream.drop k) :
    ∃ e, headEnd stream = some e ∧ e ≤ k + 4 := by
  induction stream generalizing k with
  | nil =>
    rw [List.drop_nil] at h
    exact absurd (List.prefix_nil.mp h) (by decide)
  | cons c stream ih =>
    rw [headEnd]
    split_ifs with hblank
    · exact ⟨4, rfl, by omega⟩
    · cases k with
      | zero => exact absurd h hblank
      | succ k =>
        obtain ⟨e, he, hle⟩ := ih h
        exact ⟨e + 1, by rw [he]; rfl, by omega⟩

theorem readRequest_end (text : Bytes) (rest : List (Option Bytes)) :
    readRequest (some [] :: rest) text = some ((text.length : ℤ), text) := rfl

theorem readRequest_chunk {chunk : Bytes} (hne : chunk ≠ []) (rest : List (Option Bytes))
    (text : Bytes) :
    readRequest (some chunk :: rest) text =
      if maxRequest < text.length + chunk.length then some ((-1 : ℤ), text)
      else if 4 ≤ (text ++ strncpy chunk).length ∧
          (text ++ strncpy chunk).drop ((text ++ strncpy chunk).length - 4) = crlfcrlf then
        some (((text ++ strncpy chunk).length : ℤ), text ++ strncpy chunk)
      else readRequest rest (text ++ strncpy chunk) := by
  obtain ⟨b, bs, rfl⟩ := List.exists_cons_of_ne_nil hne
  rfl

theorem strncpy_length (chunk : Bytes) : (strncpy chunk).length = chunk.length := by
  have hle : (cString chunk).length ≤ chunk.length := (List.takeWhile_prefix _).length_le
  rw [strncpy, List.length_append, List.length_replicate]
  omega

theorem strncpy_of_nulsTrail {chunk : Bytes} (h : NulsTrail chunk) : strncpy chunk = chunk := by
  have hrest : ∀ c ∈ chunk.dropWhile (· ≠ 0), c = 0 := by
    induction chunk with
    | nil =>
      intro c hc
      cases hc
    | cons c chunk ih =>
      have htail : NulsTrail chunk := fun a x b hsplit =>
        h (c :: a) x b (by rw [hsplit, List.cons_append])
      by_cases hc : c = 0
      · have hall : ∀ d ∈ chunk, d = 0 := by
          intro d hd
          cases chunk with
          | nil => cases hd
          | cons d' chunk =>
            have hd' : d' = 0 := h [] d' chunk (by rw [hc]; rfl)
            rcases List.mem_cons.mp hd with heq | hd
            · rw [heq, hd']
            · apply ih htail
              rw [hd']
              simpa using .inr hd
        rw [hc]
        simpa using hall
      · rw [List.dropWhile_cons_of_pos (by simpa using hc)]
        exact ih htail
  have hsplit := List.takeWhile_append_dropWhile (p := (· ≠ 0)) (l := chunk)
  have hzeros := List.eq_replicate_of_mem hrest
  have hlen := congrArg List.length hsplit
  rw [List.length_append] at hlen
  have hcount : chunk.length - (cString chunk).length = (chunk.dropWhile (· ≠ 0)).length := by
    unfold cString
    omega
  rw [strncpy, hcount, ← hzeros]
  exact hsplit

theorem NulsTrail.chunk {stream chunk : Bytes} (h : NulsTrail stream) (hin : chunk <:+: stream) :
    NulsTrail chunk := by
  intro a x b hsplit
  obtain ⟨front, back, hjoin⟩ := hin
  apply h (front ++ a) x (b ++ back)
  rw [← hjoin, hsplit]
  simp only [List.append_assoc, List.cons_append]

theorem strncpy_singleton (c : UInt8) : strncpy [c] = [c] := by
  apply strncpy_of_nulsTrail
  intro a x b hsplit
  have hlen := congrArg List.length hsplit
  simp only [List.length_append, List.length_cons, List.length_nil] at hlen
  omega

/-- What a text holds of a stream: each byte of it, or a zero in its place. -/
def Masked (text stream : Bytes) : Prop := List.Forall₂ (fun t s => t = s ∨ t = 0) text stream

theorem Masked.append {a b c d : Bytes} (h : Masked a b) (h' : Masked c d) :
    Masked (a ++ c) (b ++ d) := List.rel_append h h'

theorem masked_strncpy (chunk : Bytes) : Masked (strncpy chunk) chunk := by
  have hrest : ∀ rest : Bytes, Masked (List.replicate rest.length 0) rest := by
    intro rest
    induction rest with
    | nil => exact List.Forall₂.nil
    | cons c rest ih => exact List.Forall₂.cons (.inr rfl) ih
  have hfront : ∀ front : Bytes, Masked front front := fun front =>
    List.forall₂_same.mpr fun c _ => .inl rfl
  have hsplit := List.takeWhile_append_dropWhile (p := (· ≠ 0)) (l := chunk)
  have hlen := congrArg List.length hsplit
  rw [List.length_append] at hlen
  have hcount : chunk.length - (cString chunk).length = (chunk.dropWhile (· ≠ 0)).length := by
    unfold cString
    omega
  have hmask := (hfront (cString chunk)).append (hrest (chunk.dropWhile (· ≠ 0)))
  rw [show cString chunk ++ chunk.dropWhile (· ≠ 0) = chunk from hsplit] at hmask
  rw [strncpy, hcount]
  exact hmask

/-- A blank line in the text is one in the stream. -/
theorem Masked.blank {text stream : Bytes} (h : Masked text stream) (k : ℕ)
    (hblank : text.drop k = crlfcrlf) : stream.drop k = crlfcrlf := by
  have hdrop : List.Forall₂ (fun t s => t = s ∨ t = 0) crlfcrlf (stream.drop k) := by
    rw [← hblank]
    exact List.forall₂_drop k h
  have hsame : ∀ t s : Bytes, (∀ c ∈ t, c ≠ 0) →
      List.Forall₂ (fun t s => t = s ∨ t = 0) t s → t = s := by
    intro t s hne hrel
    induction hrel with
    | nil => rfl
    | cons hhead _ ih =>
      rw [ih fun c hc => hne c (by simp [hc]), hhead.resolve_right (hne _ (by simp))]
  exact (hsame crlfcrlf _ (by simp [crlfcrlf]) hdrop).symm

section Runs

theorem received_cons (chunk : Bytes) (chunks : List Bytes) :
    received (chunk :: chunks) = some chunk :: received chunks := rfl

/-- A blank line at the end of what has been read bounds the end of the head. -/
theorem headEnd_of_blank {front : Bytes} (back : Bytes) (hlen : 4 ≤ front.length)
    (hblank : front.drop (front.length - 4) = crlfcrlf) :
    ∃ e, headEnd (front ++ back) = some e ∧ e ≤ front.length := by
  have hprefix : crlfcrlf <+: (front ++ back).drop (front.length - 4) := by
    rw [List.drop_append_of_le_length (by omega), hblank]
    exact List.prefix_append _ _
  obtain ⟨e, he, hle⟩ := headEnd_le hprefix
  exact ⟨e, he, by omega⟩

/-- A stream that is too long, and whose head is, is refused. -/
theorem readRequest_long {chunks : List Bytes} {front text : Bytes} (hmask : Masked text front)
    (hne : ∀ chunk ∈ chunks, chunk ≠ []) (hfront : front.length ≤ maxRequest)
    (hlong : maxRequest < (front ++ chunks.flatten).length)
    (hhead : ∀ e, headEnd (front ++ chunks.flatten) = some e → maxRequest < e) :
    ∃ text', readRequest (received chunks) text = some (-1, text') := by
  induction chunks generalizing front text with
  | nil =>
    rw [List.flatten_nil, List.append_nil] at hlong
    omega
  | cons chunk chunks ih =>
    have hlen := hmask.length_eq
    have hmask' : Masked (text ++ strncpy chunk) (front ++ chunk) :=
      hmask.append (masked_strncpy chunk)
    rw [received_cons, readRequest_chunk (hne chunk (by simp))]
    rw [List.flatten_cons, ← List.append_assoc] at hlong hhead
    by_cases hover : maxRequest < text.length + chunk.length
    · rw [if_pos hover]
      exact ⟨text, rfl⟩
    rw [if_neg hover]
    by_cases hblank : 4 ≤ (text ++ strncpy chunk).length ∧
        (text ++ strncpy chunk).drop ((text ++ strncpy chunk).length - 4) = crlfcrlf
    · have hlen' := hmask'.length_eq
      have hstream := hmask'.blank _ hblank.2
      rw [hlen'] at hstream hblank
      obtain ⟨e, he, hle⟩ := headEnd_of_blank chunks.flatten hblank.1 hstream
      have hbound := hhead e he
      rw [List.length_append] at hle
      omega
    · rw [if_neg hblank]
      exact ih hmask' (fun c hc => hne c (by simp [hc]))
        (by rw [List.length_append]; omega) hlong hhead

/-- A stream that fits and ends with its head, if that ends at all, is read as it is. -/
theorem readRequest_exact {chunks : List Bytes} {front : Bytes}
    (hchunks : ∀ chunk ∈ chunks, chunk ≠ [] ∧ strncpy chunk = chunk)
    (hfits : (front ++ chunks.flatten).length ≤ maxRequest)
    (hhead : ∀ e, headEnd (front ++ chunks.flatten) = some e →
      e = (front ++ chunks.flatten).length) :
    readRequest (received chunks) front =
      some (((front ++ chunks.flatten).length : ℤ), front ++ chunks.flatten) := by
  induction chunks generalizing front with
  | nil =>
    rw [List.flatten_nil, List.append_nil]
    exact readRequest_end front []
  | cons chunk chunks ih =>
    obtain ⟨hne, hcopy⟩ := hchunks chunk (by simp)
    rw [received_cons, readRequest_chunk hne, hcopy]
    rw [List.flatten_cons, ← List.append_assoc] at hfits hhead ⊢
    have hover : ¬maxRequest < front.length + chunk.length := by
      rw [List.length_append, List.length_append] at hfits
      omega
    rw [if_neg hover]
    by_cases hblank : 4 ≤ (front ++ chunk).length ∧
        (front ++ chunk).drop ((front ++ chunk).length - 4) = crlfcrlf
    · obtain ⟨e, he, hle⟩ := headEnd_of_blank chunks.flatten hblank.1 hblank.2
      have hend := hhead e he
      have hnil : chunks.flatten = [] := by
        apply List.length_eq_zero_iff.mp
        rw [List.length_append] at hend
        omega
      rw [if_pos hblank, hnil, List.append_nil]
    · rw [if_neg hblank]
      exact ih (fun c hc => hchunks c (by simp [hc])) hfits hhead

/-- What `read_request` accepts is made of the first of the chunks, as they are copied. -/
theorem readRequest_shape {chunks : List Bytes} {text text' : Bytes} {value : ℤ}
    (hne : ∀ chunk ∈ chunks, chunk ≠ [])
    (h : readRequest (received chunks) text = some (value, text')) :
    value = -1 ∨ ∃ first, first <+: chunks ∧ text' = text ++ (first.map strncpy).flatten ∧
      value = text'.length := by
  induction chunks generalizing text with
  | nil =>
    cases h
    exact .inr ⟨[], List.nil_prefix, (List.append_nil _).symm, rfl⟩
  | cons chunk chunks ih =>
    rw [received_cons, readRequest_chunk (hne chunk (by simp))] at h
    split_ifs at h with hover hblank
    · cases h
      exact .inl rfl
    · cases h
      refine .inr ⟨[chunk], ?_, ?_, rfl⟩
      · exact List.prefix_append [chunk] chunks
      · simp
    · rcases ih (fun c hc => hne c (by simp [hc])) h with hvalue | ⟨first, hfirst, htext, hvalue⟩
      · exact .inl hvalue
      · refine .inr ⟨chunk :: first, List.cons_prefix_cons.mpr ⟨rfl, hfirst⟩, ?_, hvalue⟩
        rw [htext, List.map_cons, List.flatten_cons, List.append_assoc]

end Runs

section Framing
variable {stream : Bytes}

theorem Splitting.nonempty {chunks : List Bytes} (h : Splitting stream chunks) :
    ∀ chunk ∈ chunks, chunk ≠ [] := by
  intro chunk hchunk hnil
  have hsize := (h.sizes chunk hchunk).1
  rw [hnil, List.length_nil] at hsize
  omega

theorem answer_eq {chunks : List Bytes} {value : ℤ} {text : Bytes}
    (h : readRequest (received chunks) [] = some (value, text)) :
    answer chunks = some (value, if value = -1 then [] else text) := by
  rw [answer, h]
  rfl

/-- The answer to a stream that is framed, however it is cut. -/
theorem answer_of_framed (h : Framed stream) :
    ∃ a, ∀ chunks, Splitting stream chunks → answer chunks = a := by
  rcases h with ⟨hlong, hhead⟩ | ⟨hfits, hhead, hnuls⟩
  · refine ⟨some (-1, []), fun chunks hchunks => ?_⟩
    obtain ⟨text, hread⟩ := @readRequest_long chunks [] [] List.Forall₂.nil
      hchunks.nonempty (Nat.zero_le _) (by rw [List.nil_append, hchunks.join]; exact hlong)
      (by rw [List.nil_append, hchunks.join]; exact hhead)
    rw [answer_eq hread, if_pos rfl]
  · refine ⟨some (stream.length, stream), fun chunks hchunks => ?_⟩
    have hcopy : ∀ chunk ∈ chunks, chunk ≠ [] ∧ strncpy chunk = chunk := by
      intro chunk hchunk
      have hin : chunk <:+: stream := by
        rw [← hchunks.join]
        exact List.infix_of_mem_flatten hchunk
      exact ⟨hchunks.nonempty chunk hchunk, strncpy_of_nulsTrail (hnuls.chunk hin)⟩
    have hread := @readRequest_exact chunks [] hcopy
      (by rw [List.nil_append, hchunks.join]; exact hfits)
      (by rw [List.nil_append, hchunks.join]; exact hhead)
    rw [List.nil_append, hchunks.join] at hread
    rw [answer_eq hread, if_neg (by omega)]

/-- One byte after the other. -/
def singles (stream : Bytes) : List Bytes := stream.map fun c => [c]

theorem singles_flatten (stream : Bytes) : (singles stream).flatten = stream := by
  induction stream with
  | nil => rfl
  | cons c stream ih =>
    show [c] ++ (singles stream).flatten = c :: stream
    rw [ih, List.singleton_append]

theorem singles_copied (stream : Bytes) : (singles stream).map strncpy = singles stream := by
  unfold singles
  rw [List.map_map]
  exact List.map_congr_left fun c _ => strncpy_singleton c

theorem singles_splitting (stream : Bytes) : Splitting stream (singles stream) := by
  refine ⟨singles_flatten stream, fun chunk hchunk => ?_⟩
  obtain ⟨c, -, rfl⟩ := List.mem_map.mp hchunk
  exact ⟨le_refl 1, by unfold buffer_size; simp⟩

theorem answer_singles (hfits : stream.length ≤ maxRequest)
    (hhead : ∀ e, headEnd stream = some e → e = stream.length) :
    answer (singles stream) = some ((stream.length : ℤ), stream) := by
  have hcopy : ∀ chunk ∈ singles stream, chunk ≠ [] ∧ strncpy chunk = chunk := by
    intro chunk hchunk
    obtain ⟨c, -, rfl⟩ := List.mem_map.mp hchunk
    exact ⟨List.cons_ne_nil c [], strncpy_singleton c⟩
  have hread := @readRequest_exact (singles stream) [] hcopy
    (by rw [List.nil_append, singles_flatten]; exact hfits)
    (by rw [List.nil_append, singles_flatten]; exact hhead)
  rw [List.nil_append, singles_flatten] at hread
  rw [answer_eq hread, if_neg (by omega)]

/-- One byte after the other, but for two that come together. -/
def paired (a : Bytes) (x y : UInt8) (b : Bytes) : List Bytes :=
  singles a ++ [x, y] :: singles b

theorem paired_splitting (a : Bytes) (x y : UInt8) (b : Bytes) :
    Splitting (a ++ x :: y :: b) (paired a x y b) := by
  refine ⟨?_, fun chunk hchunk => ?_⟩
  · rw [paired, List.flatten_append, List.flatten_cons, singles_flatten, singles_flatten]
    rfl
  · rcases List.mem_append.mp hchunk with hchunk | hchunk
    · exact (singles_splitting a).sizes chunk hchunk
    · rcases List.mem_cons.mp hchunk with heq | hchunk
      · rw [heq]
        exact ⟨by simp, by unfold buffer_size; simp⟩
      · exact (singles_splitting b).sizes chunk hchunk

/-- The first chunks end before the pair, or go beyond it. -/
theorem prefix_paired {a b : Bytes} {x y : UInt8} {first : List Bytes}
    (h : first <+: paired a x y b) :
    first <+: singles a ∨ ∃ rest, first = singles a ++ [x, y] :: rest := by
  rcases List.prefix_or_prefix_of_prefix h (List.prefix_append (singles a) _) with hfirst | hfirst
  · exact .inl hfirst
  · obtain ⟨rest, rfl⟩ := hfirst
    have hrest : rest <+: [x, y] :: singles b := (List.prefix_append_right_inj _).mp h
    cases rest with
    | nil =>
      rw [List.append_nil]
      exact .inl List.prefix_rfl
    | cons chunk rest =>
      rw [(List.cons_prefix_cons.mp hrest).1]
      exact .inr ⟨rest, rfl⟩

/-- What an accepted text of a stream with a pair can be. -/
theorem paired_text {a b text : Bytes} {x y : UInt8} {value : ℤ} (hvalue : value ≠ -1)
    (h : answer (paired a x y b) = some (value, text)) :
    value = text.length ∧
      (text.length ≤ a.length ∨ ∃ rest, text = a ++ (strncpy [x, y] ++ rest)) := by
  obtain ⟨⟨v, t⟩, hread, heq⟩ := Option.map_eq_some_iff.mp h
  have hvalue' : v = value := congrArg Prod.fst heq
  have htext : t = text := by
    have hsnd : (if v = -1 then [] else t) = text := congrArg Prod.snd heq
    rwa [if_neg (by rw [hvalue']; exact hvalue)] at hsnd
  rw [hvalue', htext] at hread
  obtain ⟨first, hfirst, hmade, hlen⟩ :=
    (readRequest_shape (paired_splitting a x y b).nonempty hread).resolve_left hvalue
  rw [List.nil_append] at hmade
  refine ⟨hlen, ?_⟩
  rcases prefix_paired hfirst with hshort | ⟨rest, hrest⟩
  · left
    obtain ⟨rest, hrest⟩ := hshort
    have hflat := congrArg (fun chunks => (chunks.map strncpy).flatten.length) hrest
    simp only [List.map_append, List.flatten_append, List.length_append, singles_copied,
      singles_flatten] at hflat
    rw [hmade]
    omega
  · right
    refine ⟨(rest.map strncpy).flatten, ?_⟩
    rw [hmade, hrest, List.map_append, List.flatten_append, singles_copied, singles_flatten,
      List.map_cons, List.flatten_cons]

theorem framed_of_answers
    (hsame : ∀ chunks chunks', Splitting stream chunks → Splitting stream chunks' →
      answer chunks = answer chunks')
    (htext : ∀ e, headEnd stream = some e → e ≤ maxRequest → ∀ chunks, Splitting stream chunks →
      answer chunks = some ((e : ℤ), stream.take e)) : Framed stream := by
  -- nothing follows a head that fits
  have hend : ∀ e, headEnd stream = some e → e ≤ maxRequest → e = stream.length := by
    intro e he hfits
    obtain ⟨hmin, hle, -⟩ := headEnd_spec he
    by_contra hne
    obtain ⟨a, x, y, b, hsplit, ha⟩ : ∃ a x y b, stream = a ++ x :: y :: b ∧ a.length = e - 1 := by
      have htwo : 2 ≤ (stream.drop (e - 1)).length := by
        rw [List.length_drop]
        omega
      obtain ⟨x, y, b, hdrop⟩ : ∃ x y b, stream.drop (e - 1) = x :: y :: b := by
        match stream.drop (e - 1), htwo with
        | x :: y :: b, _ => exact ⟨x, y, b, rfl⟩
      refine ⟨stream.take (e - 1), x, y, b, ?_, ?_⟩
      · rw [← hdrop, List.take_append_drop]
      · rw [List.length_take]
        omega
    have hanswer :=
      htext e he hfits (paired a x y b) (by rw [hsplit]; exact paired_splitting a x y b)
    obtain ⟨hvalue, hcases⟩ := paired_text (by omega) hanswer
    have hlen : (stream.take e).length = e := by
      rw [List.length_take]
      omega
    rcases hcases with hshort | ⟨rest, hrest⟩
    · omega
    · have hcount := congrArg List.length hrest
      rw [hlen, List.length_append, List.length_append, strncpy_length] at hcount
      simp only [List.length_cons, List.length_nil] at hcount
      omega
  by_cases hlong : maxRequest < stream.length
  · left
    refine ⟨hlong, fun e he => ?_⟩
    by_contra hfits
    have heq := hend e he (by omega)
    omega
  · right
    have hhead : ∀ e, headEnd stream = some e → e = stream.length := by
      intro e he
      have hle := (headEnd_spec he).2.1
      exact hend e he (by omega)
    refine ⟨by omega, hhead, ?_⟩
    intro a x b hsplit
    have hanswer := hsame (paired a 0 x b) (singles stream)
      (by rw [hsplit]; exact paired_splitting a 0 x b) (singles_splitting stream)
    rw [answer_singles (by omega) hhead] at hanswer
    rcases (paired_text (by omega) hanswer).2 with hshort | ⟨rest, hrest⟩
    · rw [hsplit, List.length_append, List.length_cons] at hshort
      omega
    · have hzeros : strncpy [0, x] = [0, 0] := rfl
      rw [hzeros] at hrest
      have hcancel := List.append_cancel_left (hsplit.symm.trans hrest)
      exact (List.cons.inj (List.cons.inj hcancel).2).1

end Framing

/-- All ways of cutting a stream have the same answer, the request up to its blank line if that
fits, if and only if the stream is framed. -/
theorem read_request_iff_framed (stream : Bytes) :
    ((∀ chunks chunks', Splitting stream chunks → Splitting stream chunks' →
        answer chunks = answer chunks') ∧
      ∀ e, headEnd stream = some e → e ≤ maxRequest → ∀ chunks, Splitting stream chunks →
        answer chunks = some ((e : ℤ), stream.take e)) ↔ Framed stream := by
  constructor
  · intro h
    exact framed_of_answers h.1 h.2
  · intro h
    obtain ⟨a, ha⟩ := answer_of_framed h
    refine ⟨fun chunks chunks' hchunks hchunks' => by rw [ha _ hchunks, ha _ hchunks'], ?_⟩
    intro e he hfits chunks hchunks
    rcases h with hlong | hshort
    · have hbound := hlong.2 e he
      omega
    · have hend := hshort.2.1 e he
      rw [ha chunks hchunks, ← ha _ (singles_splitting stream),
        answer_singles hshort.1 hshort.2.1, hend, List.take_length]

/-- A blank line and one more byte, in one chunk and in two. -/
theorem read_request_depends_on_chunks : ¬ ∀ stream chunks chunks', Splitting stream chunks →
    Splitting stream chunks' → answer chunks = answer chunks' := by
  intro hall
  have hsame := hall [13, 10, 13, 10, 65] [[13, 10, 13, 10, 65]] [[13, 10, 13, 10], [65]]
    ⟨rfl, by simp [buffer_size]⟩ ⟨rfl, by simp [buffer_size]⟩
  have hone : answer [[13, 10, 13, 10, 65]] = some (5, [13, 10, 13, 10, 65]) := by decide
  have htwo : answer [[13, 10, 13, 10], [65]] = some (4, [13, 10, 13, 10]) := by decide
  rw [hone, htwo] at hsame
  simp at hsame

end Acos.HttpServer
