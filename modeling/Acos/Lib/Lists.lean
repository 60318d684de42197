import Mathlib.Data.List.FinRange
import Mathlib.Data.List.Range
import Mathlib.Tactic.Ring

/-! Facts about lists: what several producers make together, and neighbours in a list. -/
namespace Acos.Lists

variable {ι α : Type*}

/-- One more element for one producer is one more element altogether. -/
theorem flatMap_insert_perm [DecidableEq ι] (f : ι → List α) (v : α) {is : List ι}
    (hn : is.Nodup) {i : ι} (hi : i ∈ is) :
    (is.flatMap fun j => if i = j then v :: f j else f j).Perm (v :: is.flatMap f) := by
  induction is with
  | nil => simp at hi
  | cons j is ih =>
    obtain ⟨hj, hn⟩ := List.nodup_cons.mp hn
    by_cases hij : i = j
    · subst hij
      have hrest : (is.flatMap fun j => if i = j then v :: f j else f j) = is.flatMap f := by
        apply List.flatMap_congr
        intro x hx
        rw [if_neg (fun h : i = x => hj (h ▸ hx))]
      simp only [List.flatMap_cons, ↓reduceIte, hrest]
      exact List.Perm.refl _
    · have hi' : i ∈ is := (List.mem_cons.mp hi).resolve_left hij
      simp only [List.flatMap_cons, hij, ↓reduceIte]
      exact ((ih hn hi').append_left (f j)).trans List.perm_middle

/-- Consecutive blocks of `k` numbers make up an initial segment. -/
theorem flatMap_blocks (n k : ℕ) :
    ((List.finRange n).flatMap fun w : Fin n => List.range' (w * k) k) = List.range (n * k) := by
  rw [List.range_eq_range']
  induction n with
  | zero => simp
  | succ n ih =>
    rw [List.finRange_succ_last, List.flatMap_append, List.flatMap_map]
    simp only [Fin.val_castSucc, ih, List.flatMap_cons, Fin.val_last, List.flatMap_nil,
      List.append_nil, Nat.succ_mul]
    simpa using @List.range'_append 0 (n * k) k 1

theorem length_flatMap_range {g : ℕ → List α} {n k : ℕ} (h : ∀ j < n, (g j).length = k) :
    ((List.range n).flatMap g).length = n * k := by
  induction n with
  | zero => simp
  | succ n ih =>
    rw [List.range_succ, List.flatMap_append, List.length_append,
      ih fun j hj => h j (Nat.lt_succ_of_lt hj), List.flatMap_singleton, h n (Nat.lt_succ_self n),
      Nat.succ_mul]

/-- Changing one block of several changes the whole in one place. -/
theorem flatMap_range_change {g g' : ℕ → List α} {i n : ℕ} (hi : i < n)
    (h : ∀ j ≠ i, g' j = g j) : ∃ back,
      (List.range n).flatMap g = (List.range i).flatMap g ++ (g i ++ back) ∧
        (List.range n).flatMap g' = (List.range i).flatMap g ++ (g' i ++ back) := by
  induction n with
  | zero => omega
  | succ n ih =>
    rw [List.range_succ, List.flatMap_append, List.flatMap_append, List.flatMap_singleton,
      List.flatMap_singleton]
    rcases Nat.lt_succ_iff_lt_or_eq.mp hi with hlt | rfl
    · obtain ⟨back, hg, hg'⟩ := ih hlt
      refine ⟨back ++ g n, ?_, ?_⟩
      · rw [hg]
        simp only [List.append_assoc]
      · rw [hg', h n (Nat.ne_of_gt hlt)]
        simp only [List.append_assoc]
    · refine ⟨[], by simp, ?_⟩
      rw [List.append_nil, List.append_left_inj]
      exact List.flatMap_congr fun j hj => h j (Nat.ne_of_lt (List.mem_range.mp hj))

/-- A table of `n * k` entries, by blocks of `k`. -/
theorem map_range_mul (f : ℕ → α) (n k : ℕ) : (List.range (n * k)).map f =
    (List.range n).flatMap fun i => (List.range k).map fun j => f (i * k + j) := by
  induction n with
  | zero => simp
  | succ n ih =>
    rw [List.range_succ, List.flatMap_append, List.flatMap_singleton, ← ih, Nat.succ_mul,
      List.range_add, List.map_append, List.map_map]
    rfl

theorem merge_sorted {L R : List ℤ} (hL : L.Pairwise (· ≤ ·)) (hR : R.Pairwise (· ≤ ·)) :
    (List.merge L R).Pairwise (· ≤ ·) := by
  have hsorted : (List.merge L R).Pairwise fun a b => decide (a ≤ b) = true := List.pairwise_merge
    (fun a b c hab hbc => decide_eq_true ((of_decide_eq_true hab).trans (of_decide_eq_true hbc)))
    (fun a b => by
      rw [Bool.or_eq_true, decide_eq_true_iff, decide_eq_true_iff]
      exact le_total a b)
    L R (hL.imp fun h => decide_eq_true h) (hR.imp fun h => decide_eq_true h)
  exact hsorted.imp fun h => of_decide_eq_true h

/-- Blocks of equal lengths are compared one by one. -/
theorem flatMap_eq_iff {f g : ι → List α} {l : List ι}
    (hlen : ∀ x ∈ l, (f x).length = (g x).length) :
    l.flatMap f = l.flatMap g ↔ ∀ x ∈ l, f x = g x := by
  induction l with
  | nil => simp
  | cons x l ih =>
    obtain ⟨hx, hl⟩ := List.forall_mem_cons.mp hlen
    rw [List.flatMap_cons, List.flatMap_cons, List.forall_mem_cons, ← ih hl]
    constructor
    · exact fun h => List.append_inj h hx
    · rintro ⟨hfirst, hrest⟩
      rw [hfirst, hrest]

/-- An element of a list without repetitions has one right neighbour. -/
theorem pair_infix_right {l : List α} (hn : l.Nodup) {p q r : α} (hq : [p, q] <:+: l)
    (hr : [p, r] <:+: l) : q = r := by
  induction l with
  | nil => simp at hq
  | cons x l ih =>
    obtain ⟨hx, hn⟩ := List.nodup_cons.mp hn
    have htail {y : α} (h : [p, y] <:+: l) : p ∈ l := h.subset (by simp)
    rcases List.infix_cons_iff.mp hq with hq | hq <;> rcases List.infix_cons_iff.mp hr with hr | hr
    · obtain ⟨u, hu⟩ := hq
      obtain ⟨v, hv⟩ := hr
      simp only [List.cons_append, List.nil_append] at hu hv
      have h := List.cons.inj (hu.trans hv.symm)
      exact (List.cons.inj h.2).1
    · exact absurd ((List.cons_prefix_cons.mp hq).1 ▸ htail hr) hx
    · exact absurd ((List.cons_prefix_cons.mp hr).1 ▸ htail hq) hx
    · exact ih hn hq hr

/-- The last element of a list without repetitions has no right neighbour. -/
theorem pair_infix_ne_getLast {l : List α} (hn : l.Nodup) {p q : α} (h : [p, q] <:+: l) :
    l.getLast? ≠ some p := by
  obtain ⟨u, v, rfl⟩ := h
  intro hlast
  have hmem : p ∈ q :: v := by
    rw [List.append_assoc, List.getLast?_append_of_ne_nil _ (by simp)] at hlast
    simp only [List.cons_append, List.nil_append, List.getLast?_cons_cons] at hlast
    exact List.mem_of_getLast? hlast
  have hp : p ∉ q :: v := by
    simp only [List.append_assoc, List.cons_append, List.nil_append] at hn
    exact (List.nodup_cons.mp (List.nodup_append.mp hn).2.1).1
  exact hp hmem

/-- A smaller element in the place of another makes a smaller sum. -/
theorem sum_map_set_lt (f : α → ℕ) {l : List α} {k : ℕ} {a b : α} (h : l[k]? = some a)
    (hlt : f b < f a) : ((l.set k b).map f).sum < (l.map f).sum := by
  induction l generalizing k with
  | nil => simp at h
  | cons x l ih =>
    cases k with
    | zero =>
      simp only [List.getElem?_cons_zero, Option.some.injEq] at h
      subst h
      simp only [List.set_cons_zero, List.map_cons, List.sum_cons]
      omega
    | succ k =>
      have hrest := ih (by simpa using h)
      simp only [List.set_cons_succ, List.map_cons, List.sum_cons]
      omega

theorem eraseDups_concat_of_mem [BEq α] [LawfulBEq α] {l : List α} {a : α} (h : a ∈ l) :
    (l ++ [a]).eraseDups = l.eraseDups := by
  rw [List.eraseDups_append]
  simp [List.removeAll, h]

theorem eraseDups_concat_of_notMem [BEq α] [LawfulBEq α] {l : List α} {a : α} (h : a ∉ l) :
    (l ++ [a]).eraseDups = l.eraseDups ++ [a] := by
  rw [List.eraseDups_append]
  simp [List.removeAll, List.eraseDups_cons, h]

theorem nodup_eraseDups [BEq α] [LawfulBEq α] (l : List α) : l.eraseDups.Nodup := by
  induction l using List.reverseRecOn with
  | nil => simp
  | append_singleton l a ih =>
    by_cases ha : a ∈ l
    · rw [eraseDups_concat_of_mem ha]
      exact ih
    · rw [eraseDups_concat_of_notMem ha]
      apply ih.append (List.nodup_singleton a)
      rw [List.disjoint_singleton, List.mem_eraseDups]
      exact ha

end Acos.Lists
