import Acos.AsmMergesort.Recursion

/-! `mergesort` sorts a segment of several elements exactly when its last index is at most `2 ^ 30`.
Behind that, a merge on the right edge of the recursion adds two indices whose sum is no `int`. -/
namespace Acos.AsmMergesort
open Acos.MachineInt Acos.WordMemory Acos.X86

/-- The elements of an array in memory. -/
def elements (mem : Memory) (X : ℕ) (x : ℕ) : ℤ := i32 (load 4 mem (X + 4 * x))

/-- Every call for these indices comes back with the segment of `in` sorted in `out`, as `MergeSort`
sorts every array that has this segment; the registers are as they were, and nothing else has
changed but the stack below. -/
def SortsSegment (p r : ℕ) : Prop :=
  ∀ (layout : Layout Label) (m : Machine) (s inp out : ℕ), Callable s p r inp out →
    m.reg .rsp = s → m.reg .rdi = p → m.reg .rsi = r → m.reg .rdx = inp → m.reg .rcx = out →
    ∃ m', Steps code layout (m, .at .mergesort) (m', layout.resolve (load 8 m.mem s)) ∧
      (segment (elements m'.mem out) p (r + 1 - p)).Perm
        (segment (elements m.mem inp) p (r + 1 - p)) ∧
      (segment (elements m'.mem out) p (r + 1 - p)).Pairwise (· ≤ ·) ∧
      (∀ A, segment A p (r + 1 - p) = segment (elements m.mem inp) p (r + 1 - p) →
        segment (elements m'.mem out) p (r + 1 - p) =
          segment (MergeSort A p r) p (r + 1 - p)) ∧
      (∀ reg ∈ restored, m'.reg reg = m.reg reg) ∧ m'.reg .rsp = s + 8 ∧
      Keeps (fun a => ¬ Changeable s p r out a) m.mem m'.mem

section
variable {p r : ℕ}

theorem sortsSegment_of_le (hle : p ≤ r) (hr : r < 2 ^ 31) (h : p = r ∨ r ≤ 2 ^ 30) :
    SortsSegment p r := by
  intro layout m s inp out hcall hsp hdi hsi hdx hcx
  obtain ⟨m', hsteps, hregs, hrsp, _, hkeeps, hout⟩ :=
    sorts_mergesort layout (elements m.mem inp) p r hle hr s m hcall hsp hdi hsi hdx hcx
      fun _ _ _ => rfl
  rw [IntMergeSort_eq h] at hout
  have hsegment : segment (elements m'.mem out) p (r + 1 - p) =
      segment (MergeSort (elements m.mem inp) p r) p (r + 1 - p) :=
    segment_congr fun x hx hx' => hout x hx (by omega)
  obtain ⟨hperm, hsorted, _⟩ := MergeSort_spec (elements m.mem inp) p r
  refine ⟨m', hsteps, ?_, ?_, ?_, hregs, hrsp, hkeeps⟩
  · rw [hsegment]
    exact hperm
  · rw [hsegment]
    exact hsorted
  · intro A hA
    obtain ⟨hpermA, hsortedA, _⟩ := MergeSort_spec A p r
    rw [hA] at hpermA
    rw [hsegment]
    exact (hperm.trans hpermA.symm).eq_of_pairwise' hsorted hsortedA

/-- An array at 0 whose elements are 1 up to the index `r`, which has a 0. -/
def onesBefore (r : ℕ) : Memory := fun a => if a % 4 = 0 ∧ a < 4 * r then 1 else 0

theorem load_onesBefore (r x : ℕ) :
    load 4 (onesBefore r) (0 + 4 * x) = if x < r then 1 else 0 := by
  have hlow : (0 + 4 * x) % 4 = 0 ∧ 0 + 4 * x < 4 * r ↔ x < r := by omega
  have hhigh (b : ℕ) (hb : 4 * x < b ∧ b < 4 * x + 4) : onesBefore r b = 0 :=
    if_neg (by omega)
  rw [load, load, load, load, load, hhigh (0 + 4 * x + 1) (by omega),
    hhigh (0 + 4 * x + 1 + 1) (by omega), hhigh (0 + 4 * x + 1 + 1 + 1) (by omega), onesBefore,
    if_congr hlow rfl rfl]
  split_ifs <;> rfl

theorem load_onesBefore_behind {n a : ℕ} (h : 4 * r ≤ a) : load n (onesBefore r) a = 0 := by
  induction n generalizing a with
  | zero => rfl
  | succ n ih =>
    rw [load, ih (by omega), onesBefore, if_neg (by omega)]
    rfl

theorem elements_onesBefore (r x : ℕ) :
    elements (onesBefore r) 0 x = if x < r then 1 else 0 := by
  rw [elements, load_onesBefore]
  split_ifs <;> decide

/-- The code from the address 1 on. -/
def lowLayout : Layout Label where
  place l := l.ctorIdx + 1
  resolve a := if 0 < a ∧ a ≤ 39 then .at (Label.ofNat (a - 1)) else .out a
  place_lt l := by cases l <;> decide
  resolve_place l := by cases l <;> rfl

/-- A call for the segment of this array, from address 0. -/
def onesMachine (p r : ℕ) : Machine :=
  let blank : Machine := ⟨fun _ => 0, fun _ => by decide, onesBefore r, none, fun _ => 0⟩
  (((blank.set .rsp (2 ^ 62)).set .rdi p).set .rsi r).set .rcx (2 ^ 34)

theorem callable_ones (hle : p ≤ r) (hr : r < 2 ^ 31) : Callable (2 ^ 62) p r 0 (2 ^ 34) := by
  have hclog : Nat.clog 2 (r + 1 - p) ≤ 31 := Nat.clog_le_of_le_pow (by omega)
  have hroom : stackRoom (r + 1 - p) ≤ 2 ^ 40 := by
    unfold stackRoom
    omega
  exact ⟨by omega, by omega, by omega, by omega, by omega, by omega, by omega⟩

/-- The 0 does not come to the front. -/
theorem not_sortsSegment (hlt : p < r) (hr : r < 2 ^ 31) (h : 2 ^ 30 < r) : ¬ SortsSegment p r := by
  intro hsorts
  have hcall := callable_ones hlt.le hr
  have hmem : (onesMachine p r).mem = onesBefore r := rfl
  have hsp : (onesMachine p r).reg .rsp = 2 ^ 62 := by simp [onesMachine]
  have hdi : (onesMachine p r).reg .rdi = p := by
    simp [onesMachine]
    omega
  have hsi : (onesMachine p r).reg .rsi = r := by
    simp [onesMachine]
    omega
  have hdx : (onesMachine p r).reg .rdx = 0 := by simp [onesMachine]
  have hcx : (onesMachine p r).reg .rcx = 2 ^ 34 := by simp [onesMachine]
  have hback : load 8 (onesMachine p r).mem (2 ^ 62) = 0 := load_onesBefore_behind (by omega)
  generalize onesMachine p r = m at *
  obtain ⟨m', hsteps, hperm, hsorted, _⟩ := hsorts lowLayout m _ _ _ hcall hsp hdi hsi hdx hcx
  obtain ⟨m'', hreturned⟩ := sorts_mergesort lowLayout (elements m.mem 0) p r hlt.le hr _ m hcall
    hsp hdi hsi hdx hcx fun _ _ _ => rfl
  have hsteps' := hreturned.steps
  rw [hback] at hsteps hsteps'
  obtain rfl : m' = m'' := (Prod.mk.inj (hsteps.unique hsteps' rfl rfl)).1
  have hones (x : ℕ) : elements m.mem 0 x = if x < r then 1 else 0 := by
    rw [hmem, elements_onesBefore]
  have hfirst : elements m'.mem (2 ^ 34) p = 1 := by
    rw [elements, hreturned.shows_out p le_rfl (by omega)]
    exact IntMergeSort_first _ p r hlt h fun x _ hx => (hones x).trans (if_pos hx)
  have hlast : (0 : ℤ) ∈ segment (elements m'.mem (2 ^ 34)) p (r + 1 - p) := by
    apply hperm.symm.subset
    have hzero : elements m.mem 0 r = 0 := (hones r).trans (if_neg (lt_irrefl r))
    rw [← hzero]
    exact mem_segment hlt.le (by omega)
  obtain ⟨c, hc⟩ : ∃ c, r + 1 - p = c + 1 := ⟨r - p, by omega⟩
  rw [hc, segment_succ, hfirst] at hsorted hlast
  rcases List.mem_cons.mp hlast with hzero | htail
  · exact absurd hzero zero_ne_one
  · exact absurd (List.rel_of_pairwise_cons hsorted htail) (by decide)

/-- The routine sorts all segments whose sums of indices stay in the numbers of `merge__`. -/
theorem mergesort_sorts_iff (hle : p ≤ r) (hsum : p + r < 2 ^ 31) :
    SortsSegment p r ↔ p = r ∨ r ≤ 2 ^ 30 := by
  constructor
  · intro hsorts
    by_contra hnot
    exact not_sortsSegment (by omega) (by omega) (by omega) hsorts
  · exact sortsSegment_of_le hle (by omega)

theorem mergesort_sorts_iff_four : SortsSegment 0 3 ↔ 0 = 3 ∨ 3 ≤ 2 ^ 30 :=
  mergesort_sorts_iff (by decide) (by decide)

/-- The right half of this segment has the sum `2 ^ 31 + 1`. -/
theorem mergesort_right_half : 2 ^ 30 - 2 + (2 ^ 30 + 1) < 2 ^ 31 ∧
    ¬ SortsSegment (2 ^ 30 - 2) (2 ^ 30 + 1) :=
  ⟨by decide, not_sortsSegment (by decide) (by decide) (by decide)⟩

end

end Acos.AsmMergesort
