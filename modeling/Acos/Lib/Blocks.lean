import Mathlib.Algebra.BigOperators.Group.List.Basic
import Mathlib.Algebra.Order.Ring.Int
import Mathlib.Data.List.TakeWhile

/-! Memory cut into blocks, each of which starts with a word that holds its length: positive
for a used block, negative for a free one. -/
namespace Acos.Blocks

/-- The number of words that the blocks with these headers take. -/
def cover (bs : List ℤ) : ℕ := (bs.map Int.natAbs).sum

@[simp] theorem cover_nil : cover [] = 0 := rfl

@[simp] theorem cover_cons (b : ℤ) (bs : List ℤ) : cover (b :: bs) = b.natAbs + cover bs := by
  simp [cover]

@[simp] theorem cover_append (xs ys : List ℤ) : cover (xs ++ ys) = cover xs + cover ys := by
  simp [cover]

/-- The headers met from word `i` on are `bs`, none of them zero, and they lead to word `j`. -/
def Tiles (words : List ℤ) : ℕ → List ℤ → ℕ → Prop
  | i, [], j => i = j
  | i, b :: bs, j => words[i]? = some b ∧ b ≠ 0 ∧ Tiles words (i + b.natAbs) bs j

section Tiles
variable {words : List ℤ} {i j : ℕ} {bs : List ℤ}

theorem Tiles.end_eq (h : Tiles words i bs j) : j = i + cover bs := by
  induction bs generalizing i with
  | nil => simpa using h.symm
  | cons b bs ih =>
    obtain ⟨_, _, hrest⟩ := h
    have hend := ih hrest
    rw [cover_cons]
    omega

theorem tiles_append {xs ys : List ℤ} :
    Tiles words i (xs ++ ys) j ↔
      Tiles words i xs (i + cover xs) ∧ Tiles words (i + cover xs) ys j := by
  induction xs generalizing i with
  | nil => simp [Tiles]
  | cons x xs ih =>
    simp only [List.cons_append, Tiles, ih, cover_cons, Nat.add_assoc, and_assoc]

/-- A tiling depends only on the words between its ends. -/
theorem Tiles.congr {words' : List ℤ} (h : Tiles words i bs j)
    (hsame : ∀ k, i ≤ k → k < j → words'[k]? = words[k]?) : Tiles words' i bs j := by
  induction bs generalizing i with
  | nil => exact h
  | cons b bs ih =>
    obtain ⟨hb, hne, hrest⟩ := h
    have hend := hrest.end_eq
    have hpos : 0 < b.natAbs := Int.natAbs_pos.mpr hne
    refine ⟨?_, hne, ih hrest fun k hk => hsame k (by omega)⟩
    rw [hsame i (by omega) (by omega), hb]

theorem Tiles.ne_zero (h : Tiles words i bs j) : ∀ b ∈ bs, b ≠ 0 := by
  induction bs generalizing i with
  | nil => simp
  | cons b bs ih =>
    obtain ⟨_, hne, hrest⟩ := h
    intro c hc
    rcases List.mem_cons.mp hc with rfl | hc
    · exact hne
    · exact ih hrest c hc

theorem Tiles.length_le (h : Tiles words i bs j) : bs.length ≤ cover bs := by
  induction bs generalizing i with
  | nil => simp
  | cons b bs ih =>
    obtain ⟨_, hne, hrest⟩ := h
    have hpos : 0 < b.natAbs := Int.natAbs_pos.mpr hne
    have hle := ih hrest
    rw [cover_cons, List.length_cons]
    omega

end Tiles

/-- The used blocks among those from word `i` on, each with its start and its length. -/
def used : ℕ → List ℤ → List (ℕ × ℕ)
  | _, [] => []
  | i, b :: bs =>
    if 0 < b then (i, b.natAbs) :: used (i + b.natAbs) bs else used (i + b.natAbs) bs

/-- The two blocks have no word in common. -/
def Apart (a b : ℕ × ℕ) : Prop := a.1 + a.2 ≤ b.1 ∨ b.1 + b.2 ≤ a.1

theorem Apart.symm {a b : ℕ × ℕ} (h : Apart a b) : Apart b a := Or.symm h

section Used
variable {i : ℕ} {bs : List ℤ}

theorem used_append (i : ℕ) (xs ys : List ℤ) :
    used i (xs ++ ys) = used i xs ++ used (i + cover xs) ys := by
  induction xs generalizing i with
  | nil => simp [used]
  | cons x xs ih =>
    simp only [List.cons_append, used, ih, cover_cons, Nat.add_assoc]
    split_ifs <;> rfl

theorem used_of_free (i : ℕ) (h : ∀ b ∈ bs, b < 0) : used i bs = [] := by
  induction bs generalizing i with
  | nil => rfl
  | cons b bs ih =>
    have hb := h b (by simp)
    rw [used, if_neg (by omega)]
    exact ih _ fun c hc => h c (by simp [hc])

theorem used_bounds {x : ℕ × ℕ} (h : x ∈ used i bs) :
    i ≤ x.1 ∧ 0 < x.2 ∧ x.1 + x.2 ≤ i + cover bs := by
  induction bs generalizing i with
  | nil => simp [used] at h
  | cons b bs ih =>
    rw [used] at h
    rw [cover_cons]
    split_ifs at h with hb
    · rcases List.mem_cons.mp h with rfl | h
      · simp only
        omega
      · have hrest := ih h
        omega
    · have hrest := ih h
      omega

theorem used_pairwise (i : ℕ) (bs : List ℤ) : (used i bs).Pairwise Apart := by
  induction bs generalizing i with
  | nil => exact .nil
  | cons b bs ih =>
    rw [used]
    split_ifs with hb
    · refine .cons ?_ (ih _)
      intro x hx
      exact .inl (used_bounds hx).1
    · exact ih _

/-- A used block splits the headers at its own. -/
theorem used_split {x : ℕ × ℕ} (h : x ∈ used i bs) :
    ∃ pre post, bs = pre ++ (x.2 : ℤ) :: post ∧ x.1 = i + cover pre ∧ 0 < x.2 := by
  induction bs generalizing i with
  | nil => simp [used] at h
  | cons b bs ih =>
    rw [used] at h
    have hlater : x ∈ used (i + b.natAbs) bs →
        ∃ pre post, b :: bs = pre ++ (x.2 : ℤ) :: post ∧ x.1 = i + cover pre ∧ 0 < x.2 := by
      intro hx
      obtain ⟨pre, post, rfl, hstart, hpos⟩ := ih hx
      refine ⟨b :: pre, post, rfl, ?_, hpos⟩
      rw [cover_cons]
      omega
    split_ifs at h with hb
    · rcases List.mem_cons.mp h with rfl | h
      · refine ⟨[], bs, ?_, by simp, by simp only; omega⟩
        simp only [List.nil_append]
        congr 1
        omega
      · exact hlater h
    · exact hlater h

end Used

/-- A maximal run of free blocks, with its start and its length in words. -/
def FreeRun (bs : List ℤ) (start length : ℕ) : Prop :=
  ∃ pre free post, bs = pre ++ (free ++ post) ∧ free ≠ [] ∧ (∀ b ∈ free, b < 0) ∧
    (∀ b ∈ pre.getLast?, 0 < b) ∧ (∀ b ∈ post.head?, 0 < b) ∧ start = cover pre ∧
    length = cover free

/-- The lowest maximal run of at least `size` words starts at `start`. -/
structure LowestRun (bs : List ℤ) (size start : ℕ) : Prop where
  fits : ∃ length, FreeRun bs start length ∧ size ≤ length
  least : ∀ start' length, FreeRun bs start' length → size ≤ length → start ≤ start'

section FreeRun
variable {bs before : List ℤ} {b : ℤ} {start length : ℕ}

theorem FreeRun.length_le (h : FreeRun bs start length) : start + length ≤ cover bs := by
  obtain ⟨pre, free, post, rfl, -, -, -, -, rfl, rfl⟩ := h
  simp only [cover_append]
  omega

/-- Free blocks at the start are part of one run. -/
theorem freeRun_front (hneg : ∀ b ∈ before, b < 0) (hne : before ≠ []) (hbs : ∀ b ∈ bs, b ≠ 0) :
    ∃ length, FreeRun (before ++ bs) 0 length ∧ cover before ≤ length := by
  refine ⟨cover (before ++ bs.takeWhile (· < 0)), ⟨[], before ++ bs.takeWhile (· < 0),
    bs.dropWhile (· < 0), ?_, ?_, ?_, by simp, ?_, rfl, rfl⟩, ?_⟩
  · rw [List.nil_append, List.append_assoc, List.takeWhile_append_dropWhile]
  · simp [hne]
  · intro c hc
    rcases List.mem_append.mp hc with hc | hc
    · exact hneg c hc
    · simpa using List.mem_takeWhile_imp hc
  · intro c hc
    have hnot := List.head?_dropWhile_not (· < 0) bs
    rw [Option.mem_def.mp hc] at hnot
    have hmem := (List.dropWhile_suffix (l := bs) (· < 0)).subset (List.mem_of_head? hc)
    have hzero := hbs c hmem
    simp only [decide_eq_false_iff_not] at hnot
    omega
  · rw [cover_append]
    exact Nat.le_add_right _ _

/-- The runs around a used block: the free blocks before it, and those behind it. -/
theorem freeRun_used (hneg : ∀ c ∈ before, c < 0) (hb : 0 < b)
    (h : FreeRun (before ++ b :: bs) start length) :
    start = 0 ∧ length = cover before ∨
      ∃ start', FreeRun bs start' length ∧ start = cover before + b.natAbs + start' := by
  obtain ⟨pre, free, post, heq, hne, hfree, hpre, hpost, rfl, rfl⟩ := h
  rcases List.append_eq_append_iff.mp heq with ⟨between, rfl, hrest⟩ | ⟨between, rfl, hrest⟩
  · cases between with
    | nil =>
      cases free with
      | nil => exact absurd rfl hne
      | cons c free =>
        rw [List.nil_append, List.cons_append, List.cons.injEq] at hrest
        have hc := hfree c List.mem_cons_self
        omega
    | cons c between =>
      rw [List.cons_append, List.cons.injEq] at hrest
      obtain ⟨rfl, rfl⟩ := hrest
      refine .inr ⟨cover between, ⟨between, free, post, rfl, hne, hfree, ?_, hpost, rfl, rfl⟩, ?_⟩
      · intro d hd
        apply hpre d
        rw [List.getLast?_append, List.getLast?_cons, Option.mem_def.mp hd]
        rfl
      · simp only [cover_append, cover_cons]
        omega
  · have hnil : pre = [] := by
      by_contra hpre_ne
      have hlast := hpre _ (List.getLast?_eq_some_getLast hpre_ne)
      have hlast' := hneg _ (List.mem_append_left between (List.getLast_mem hpre_ne))
      omega
    subst hnil
    rw [List.nil_append] at hneg ⊢
    rcases List.append_eq_append_iff.mp hrest with ⟨more, rfl, hmore⟩ | ⟨more, rfl, hmore⟩
    · cases more with
      | nil => exact .inl ⟨rfl, by simp⟩
      | cons c more =>
        have hc := hneg c (by simp)
        have hc' := hpost c (by rw [hmore]; rfl)
        omega
    · cases more with
      | nil => exact .inl ⟨rfl, by simp⟩
      | cons c more =>
        rw [List.cons_append, List.cons.injEq] at hmore
        have hc := hfree c (by simp)
        omega

/-- A run behind a used block is one of the whole. -/
theorem FreeRun.used (h : FreeRun bs start length) (before : List ℤ) (hb : 0 < b) :
    FreeRun (before ++ b :: bs) (cover before + b.natAbs + start) length := by
  obtain ⟨pre, free, post, rfl, hne, hfree, hpre, hpost, rfl, rfl⟩ := h
  refine ⟨before ++ b :: pre, free, post, by simp, hne, hfree, ?_, hpost, ?_, rfl⟩
  · intro c hc
    rw [List.getLast?_append, List.getLast?_cons] at hc
    cases hlast : pre.getLast? with
    | none =>
      rw [hlast] at hc
      cases hc
      exact hb
    | some d =>
      rw [hlast] at hc
      cases hc
      exact hpre _ hlast
  · simp only [cover_append, cover_cons]
    omega

end FreeRun

end Acos.Blocks
