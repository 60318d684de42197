import Mathlib.Data.Int.Notation
import Mathlib.Data.List.TakeWhile

/-! C strings as lists of bytes, with the terminator left out. -/
namespace Acos.CString

abbrev Bytes := List UInt8

/-- The string that starts at the first byte of a buffer. -/
def cString (buffer : Bytes) : Bytes := buffer.takeWhile (· ≠ 0)

/-- What `strncpy` stores for a source of `src.length` bytes: the string and zeros after it. -/
def strncpy (src : Bytes) : Bytes :=
  cString src ++ List.replicate (src.length - (cString src).length) 0

/-- `strncmp(a, b, n) == 0`. -/
def strncmpEq (a b : Bytes) (n : ℕ) : Bool := a.take n = b.take n

/-- The next token of `s` and what `strtok` keeps for its next call; `none` is `NULL`. -/
def strtok (delims s : Bytes) : Option (Bytes × Bytes) :=
  match s.dropWhile (· ∈ delims) with
  | [] => none
  | t => some (t.takeWhile (· ∉ delims), (t.dropWhile (· ∉ delims)).drop 1)

/-- The position of the first occurrence of `needle`; the search ends at the terminator. -/
def strstr (needle : Bytes) : Bytes → Option ℕ
  | [] => none
  | c :: s =>
    if needle.isPrefixOf (c :: s) then some 0
    else if c = 0 then none
    else (strstr needle s).map (· + 1)

/-- `isspace` in the C locale. -/
def isspace (c : UInt8) : Bool := c = 32 || (9 ≤ c && c ≤ 13)

def isdigit (c : UInt8) : Bool := 48 ≤ c && c ≤ 57

theorem cString_of_plain {s : Bytes} (h : ∀ c ∈ s, c ≠ 0) : cString s = s := by
  unfold cString
  exact List.takeWhile_eq_self_iff.mpr (by simpa using h)

theorem strncpy_of_plain {src : Bytes} (h : ∀ c ∈ src, c ≠ 0) : strncpy src = src := by
  rw [strncpy, cString_of_plain h, Nat.sub_self]
  exact List.append_nil src

/-- The longest prefix that satisfies a test, and what comes after it. -/
theorem span_append {p : UInt8 → Bool} {front back : Bytes} (hfront : ∀ c ∈ front, p c = true)
    (hback : ∀ c ∈ back.head?, p c = false) :
    (front ++ back).takeWhile p = front ∧ (front ++ back).dropWhile p = back := by
  induction front with
  | nil =>
    cases back with
    | nil => exact ⟨rfl, rfl⟩
    | cons c back => simp [hback c rfl]
  | cons b front ih =>
    have hb := hfront b (by simp)
    have htail := ih fun c hc => hfront c (by simp [hc])
    simp [hb, htail.1, htail.2]

theorem span_unique {p : UInt8 → Bool} {front back front' back' : Bytes}
    (hfront : ∀ c ∈ front, p c = true) (hback : ∀ c ∈ back.head?, p c = false)
    (hfront' : ∀ c ∈ front', p c = true) (hback' : ∀ c ∈ back'.head?, p c = false)
    (h : front ++ back = front' ++ back') : front = front' ∧ back = back' := by
  obtain ⟨htake, hdrop⟩ := span_append hfront hback
  obtain ⟨htake', hdrop'⟩ := span_append hfront' hback'
  rw [h] at htake hdrop
  exact ⟨htake.symm.trans htake', hdrop.symm.trans hdrop'⟩

theorem head?_dropWhile {p : UInt8 → Bool} (s : Bytes) :
    ∀ c ∈ (s.dropWhile p).head?, p c = false := by
  intro c hc
  have hnot := List.head?_dropWhile_not p s
  rw [Option.mem_def.mp hc] at hnot
  exact hnot

theorem strncmpEq_eq_true {a b : Bytes} {n : ℕ} (ha : a.length = n) :
    strncmpEq a b n = true ↔ a <+: b := by
  rw [strncmpEq, decide_eq_true_eq, List.take_of_length_le (by omega), ← ha,
    ← List.prefix_iff_eq_take]

/-- What `strtok` finds: a token between delimiters. -/
theorem strtok_eq_some {delims s token rest : Bytes} : strtok delims s = some (token, rest) ↔
    ∃ skipped back, (∀ c ∈ skipped, c ∈ delims) ∧ token ≠ [] ∧ (∀ c ∈ token, c ∉ delims) ∧
      (∀ c ∈ back.head?, c ∈ delims) ∧ s = skipped ++ (token ++ back) ∧ rest = back.drop 1 := by
  constructor
  · intro h
    obtain ⟨t, ht⟩ : ∃ t, s.dropWhile (· ∈ delims) = t := ⟨_, rfl⟩
    have hskipped := List.takeWhile_append_dropWhile (p := (· ∈ delims)) (l := s)
    have hfirst : ∀ c ∈ t.head?, c ∉ delims := by
      intro c hc
      have hnot := head?_dropWhile s (p := (· ∈ delims)) c (by rwa [ht])
      simpa using hnot
    unfold strtok at h
    rw [ht] at h hskipped
    cases t with
    | nil => cases h
    | cons c t =>
      simp only [Option.some.injEq, Prod.mk.injEq] at h
      obtain ⟨rfl, rfl⟩ := h
      have hsplit := List.takeWhile_append_dropWhile (p := (· ∉ delims)) (l := c :: t)
      refine ⟨s.takeWhile (· ∈ delims), (c :: t).dropWhile (· ∉ delims), ?_, ?_, ?_, ?_, ?_, rfl⟩
      · exact fun d hd => by simpa using List.mem_takeWhile_imp hd
      · simp [hfirst c rfl]
      · exact fun d hd => by simpa using List.mem_takeWhile_imp hd
      · exact fun d hd => by simpa using head?_dropWhile (c :: t) (p := (· ∉ delims)) d hd
      · rw [hsplit, hskipped]
  · rintro ⟨skipped, back, hskipped, hne, htoken, hback, rfl, rfl⟩
    have hhead : ∀ c ∈ (token ++ back).head?, decide (c ∈ delims) = false := by
      obtain ⟨c, token, rfl⟩ := List.exists_cons_of_ne_nil hne
      simpa using htoken c (by simp)
    obtain ⟨-, hdrop⟩ := span_append (p := (· ∈ delims)) (by simpa using hskipped) hhead
    have hword : ∀ c ∈ token, decide (c ∉ delims) = true := by simpa using htoken
    have hend : ∀ c ∈ back.head?, decide (c ∉ delims) = false := by simpa using hback
    obtain ⟨htake, hrest⟩ := span_append hword hend
    obtain ⟨c, token', rfl⟩ := List.exists_cons_of_ne_nil hne
    unfold strtok
    rw [hdrop]
    simp only [List.cons_append] at htake hrest ⊢
    rw [htake, hrest]

theorem strncmpEq_short {a b : Bytes} {n : ℕ} (ha : a.length < n) (hb : b.length < n) :
    strncmpEq a b n = decide (a = b) := by
  unfold strncmpEq
  rw [List.take_of_length_le (by omega), List.take_of_length_le (by omega)]

/-- The first occurrence of `needle` in `s` is at `p`. -/
def IsFirst (needle s : Bytes) (p : ℕ) : Prop :=
  needle <+: s.drop p ∧ ∀ q < p, ¬ needle <+: s.drop q

theorem IsFirst.unique {needle s : Bytes} {p q : ℕ} (hp : IsFirst needle s p)
    (hq : IsFirst needle s q) : p = q := by
  have hpq : ¬ p < q := fun h => hq.2 p h hp.1
  have hqp : ¬ q < p := fun h => hp.2 q h hq.1
  omega

/-- A first occurrence stays the first one when more bytes follow. -/
theorem IsFirst.append {needle s : Bytes} {p : ℕ} (h : IsFirst needle s p) (hne : needle ≠ [])
    (rest : Bytes) : IsFirst needle (s ++ rest) p := by
  have hfits := h.1.length_le
  have hpos := List.length_pos_iff.mpr hne
  rw [List.length_drop] at hfits
  constructor
  · rw [List.drop_append_of_le_length (by omega)]
    exact h.1.trans (List.prefix_append _ _)
  · intro q hq hstart
    rw [List.drop_append_of_le_length (by omega)] at hstart
    apply h.2 q hq
    apply List.prefix_of_prefix_length_le hstart (List.prefix_append _ rest)
    rw [List.length_drop]
    omega

/-- On a terminated line `strstr` finds the first occurrence, or there is none. -/
theorem strstr_terminated {needle s : Bytes} (hne : needle ≠ []) (hneedle : ∀ c ∈ needle, c ≠ 0)
    (hs : ∀ c ∈ s, c ≠ 0) :
    match strstr needle (s ++ [0]) with
    | some p => IsFirst needle s p
    | none => ¬ needle <:+: s := by
  have hstart (t : Bytes) : needle <+: t ++ [0] ↔ needle <+: t := by
    rw [List.prefix_concat_iff]
    constructor
    · rintro (rfl | h)
      · exact absurd rfl (hneedle 0 (by simp))
      · exact h
    · exact Or.inr
  induction s with
  | nil =>
    have hno : needle.isPrefixOf [0] = false := by
      have hnil := hstart []
      simp only [List.nil_append, List.prefix_nil, hne, iff_false] at hnil
      rw [← Bool.not_eq_true, List.isPrefixOf_iff_prefix]
      exact hnil
    simp [strstr, hno, hne]
  | cons c s ih =>
    have hc : c ≠ 0 := hs c (by simp)
    have ih := ih fun d hd => hs d (by simp [hd])
    rw [List.cons_append, strstr]
    by_cases hhere : needle <+: c :: s
    · have hfound : needle.isPrefixOf (c :: (s ++ [0])) = true :=
        List.isPrefixOf_iff_prefix.mpr ((hstart (c :: s)).mpr hhere)
      rw [if_pos hfound]
      exact ⟨hhere, fun q hq => absurd hq (by omega)⟩
    · have hno : ¬ needle.isPrefixOf (c :: (s ++ [0])) = true := fun h =>
        hhere ((hstart (c :: s)).mp (List.isPrefixOf_iff_prefix.mp h))
      rw [if_neg hno, if_neg hc]
      cases hrest : strstr needle (s ++ [0]) with
      | none =>
        rw [hrest] at ih
        simp only [Option.map_none]
        rw [List.infix_cons_iff]
        exact not_or.mpr ⟨hhere, ih⟩
      | some p =>
        rw [hrest] at ih
        simp only [Option.map_some]
        refine ⟨ih.1, fun q hq => ?_⟩
        cases q with
        | zero => exact hhere
        | succ q => exact ih.2 q (by omega)

end Acos.CString
