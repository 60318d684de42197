import Acos.AtomicStack.Links
import Mathlib.Data.List.Range
import Mathlib.Data.List.Perm.Basic
import Mathlib.Tactic.Linarith
import Mathlib.Tactic.Ring

/-! The order of the exchanges is the order of the list. Once all threads are joined every field is
set, and each number is in the list once, those of one thread in the order of its loop. -/
namespace Acos.AtomicStack
open Acos.ForkJoin Acos.MachineInt Acos.Transition

/-- The numbers of the thread `w`. -/
def block (k w : ℕ) (v : ℤ) : Bool := decide ((w * k : ℤ) ≤ v ∧ v < ((w + 1) * k : ℤ))

/-- The first `j` numbers of the thread `w`, the last one in front. -/
def given (k w j : ℕ) : List ℤ := ((List.range' (w * k) j).map Nat.cast).reverse

/-- The list has all numbers, and those of one thread from the last to the first. -/
structure Complete (N k : ℕ) (out : List ℤ) : Prop where
  perm : out.Perm ((List.range (N * k)).map Nat.cast)
  order : ∀ w < N, out.filter (block k w) = given k w k

/-- Whether the item of the call under way is in the list. -/
def Pc.pushed : Pc → ℕ
  | .link _ _ => 1
  | .store _ => 1
  | _ => 0

/-- The thread `w` has made `j` calls. -/
structure Progress (k w : ℕ) (x : Worker) (vs : List ℤ) (j : ℕ) : Prop where
  counter : x.i = (w * k + j : ℕ)
  bound : j ≤ k
  busy : x.pc ≠ .test → x.pc ≠ .finished → j < k
  ended : x.pc = .finished → j = k
  pushed : vs.filter (block k w) = given k w (j + x.pc.pushed)

/-- The invariant of the threads, when the list has the values `vs`. -/
structure Inv (N k : ℕ) (s : Shared) (threads : ℕ → Option Worker) (vs : List ℤ) : Prop where
  chain : Chain s.items threads s.head vs
  owned : Owned s.items threads
  progress : ∀ w x, threads w = some x → w < N ∧ ∃ j, Progress k w x vs j
  absent : ∀ w < N, threads w = none → vs.filter (block k w) = []
  within : ∀ v ∈ vs, ∃ w < N, block k w v

/-- The steps that a thread has before it. -/
def rank (k w : ℕ) (x : Worker) : ℕ :=
  match x.pc with
  | .test => 4 * (end_val k w - x.i).toNat + 1
  | .exchange _ => 4 * (end_val k w - x.i).toNat
  | .link _ _ => 4 * (end_val k w - x.i).toNat - 1
  | .store _ => 4 * (end_val k w - x.i).toNat - 2
  | .finished => 0

section
variable {N k w w' j : ℕ} {v : ℤ} {vs out : List ℤ}

theorem block_iff : block k w v ↔ (w * k : ℤ) ≤ v ∧ v < ((w + 1) * k : ℤ) := by
  simp [block]

/-- The blocks of two threads do not meet. -/
theorem block_unique (h : block k w v) (h' : block k w' v) : w = w' := by
  rw [block_iff] at h h'
  have hlt : ((w : ℤ) * k < (w' + 1) * k) ∧ ((w' : ℤ) * k < (w + 1) * k) :=
    ⟨h.1.trans_lt h'.2, h'.1.trans_lt h.2⟩
  have hk : (0 : ℤ) ≤ k := Int.natCast_nonneg k
  have h₁ := lt_of_mul_lt_mul_right hlt.1 hk
  have h₂ := lt_of_mul_lt_mul_right hlt.2 hk
  omega

theorem block_counter (hj : j < k) : block k w ((w * k + j : ℕ) : ℤ) := by
  rw [block_iff]
  push_cast
  constructor <;> nlinarith

theorem given_succ (k w j : ℕ) : given k w (j + 1) = ((w * k + j : ℕ) : ℤ) :: given k w j := by
  simp [given, List.range'_concat]

theorem mem_given : v ∈ given k w j ↔ ∃ i < j, v = ((w * k + i : ℕ) : ℤ) := by
  simp only [given, List.mem_reverse, List.mem_map, List.mem_range'_1]
  constructor
  · rintro ⟨n, ⟨hlo, hhi⟩, rfl⟩
    exact ⟨n - w * k, by omega, by congr 1; omega⟩
  · rintro ⟨i, hi, rfl⟩
    exact ⟨w * k + i, by omega, rfl⟩

theorem nodup_given (k w j : ℕ) : (given k w j).Nodup := by
  rw [given, List.nodup_reverse]
  exact List.Nodup.map Nat.cast_injective List.nodup_range'

theorem complete_of_blocks (horder : ∀ w < N, out.filter (block k w) = given k w k)
    (hwithin : ∀ v ∈ out, ∃ w < N, block k w v) : Complete N k out := by
  refine ⟨?_, horder⟩
  have hnodup : out.Nodup := by
    rw [List.nodup_iff_count_le_one]
    intro v
    by_cases hv : v ∈ out
    · obtain ⟨w, hw, hblock⟩ := hwithin v hv
      rw [← List.count_filter hblock, horder w hw]
      exact List.nodup_iff_count_le_one.mp (nodup_given k w k) v
    · rw [List.count_eq_zero_of_not_mem hv]
      exact Nat.zero_le 1
  rw [List.perm_ext_iff_of_nodup hnodup (List.Nodup.map Nat.cast_injective List.nodup_range)]
  intro v
  simp only [List.mem_map, List.mem_range]
  constructor
  · intro hv
    obtain ⟨w, hw, hblock⟩ := hwithin v hv
    have hmem := List.mem_filter.mpr ⟨hv, hblock⟩
    rw [horder w hw] at hmem
    obtain ⟨i, hi, rfl⟩ := mem_given.mp hmem
    have hle : (w + 1) * k ≤ N * k := Nat.mul_le_mul_right k hw
    exact ⟨w * k + i, by rw [Nat.add_mul] at hle; omega, rfl⟩
  · rintro ⟨n, hn, rfl⟩
    have hk : 0 < k := Nat.pos_of_mul_pos_left (Nat.zero_lt_of_lt hn)
    have hw : n / k < N := Nat.div_lt_of_lt_mul (by rwa [Nat.mul_comm] at hn)
    have hmem : (n : ℤ) ∈ given k (n / k) k := by
      rw [mem_given]
      refine ⟨n % k, Nat.mod_lt n hk, ?_⟩
      rw [Nat.mul_comm, Nat.div_add_mod]
    rw [← horder _ hw] at hmem
    exact (List.mem_filter.mp hmem).1

end

section
variable {N k w : ℕ} {s s' : Shared} {threads : ℕ → Option Worker} {x x' : Worker} {action : Action}
  {vs : List ℤ}

theorem end_val_eq (hfits : N * k < 2 ^ 31) (hw : w < N) : end_val k w = ((w * k + k : ℕ) : ℤ) := by
  have hle : (w + 1) * k ≤ N * k := Nat.mul_le_mul_right k hw
  rw [Nat.add_mul, Nat.one_mul] at hle
  have hcast : ((w : ℤ) + 1) * k = ((w * k + k : ℕ) : ℤ) := by
    push_cast
    ring
  rw [end_val, hcast]
  exact i32_natCast (by omega)

theorem calls_left (hfits : N * k < 2 ^ 31) (hw : w < N) (j : ℕ) :
    (end_val k w - (w * k + j : ℕ)).toNat = k - j := by
  rw [end_val_eq hfits hw]
  omega

theorem start_val_eq (hfits : N * k < 2 ^ 31) (hw : w < N) : start_val k w = ((w * k : ℕ) : ℤ) := by
  have hle : w * k ≤ N * k := Nat.mul_le_mul_right k hw.le
  rw [start_val]
  exact_mod_cast i32_natCast (k := w * k) (by omega)

theorem empty_inv (N k : ℕ) : Inv N k empty (fun _ => none) [] where
  chain := rfl
  owned := ⟨nofun, nofun, 0, fun _ _ => rfl⟩
  progress w x h := by cases h
  absent w _ _ := rfl
  within v hv := by cases hv

theorem Inv.start (hfits : N * k < 2 ^ 31) (h : Inv N k s threads vs) (hw : w < N)
    (hnone : threads w = none) :
    Inv N k s (Function.update threads w (some ((program N k).start w))) vs := by
  obtain ⟨howned, hchain⟩ := start_links s.items (x := (program N k).start w) rfl hnone
  refine ⟨hchain h.chain, howned h.owned, fun w' y hy => ?_, fun w' hw' hy => ?_, h.within⟩
  · by_cases hne : w' = w
    · subst hne
      obtain rfl : (program N k).start w' = y := by simpa using hy
      exact ⟨hw, 0, start_val_eq hfits hw, Nat.zero_le k, fun htest => absurd rfl htest, nofun,
        h.absent w' hw hnone⟩
    · rw [Function.update_of_ne hne] at hy
      exact h.progress w' y hy
  · by_cases hne : w' = w
    · simp [hne] at hy
    · rw [Function.update_of_ne hne] at hy
      exact h.absent w' hw' hy

/-- A step that leaves the list as it is. -/
theorem Inv.quiet (h : Inv N k s threads vs) (hx : threads w = some x)
    (hstep : step k w s x action = some (s', x')) (hhead : s'.head = s.head)
    (hprogress : ∀ j, Progress k w x vs j → ∃ j', Progress k w x' vs j') :
    Inv N k s' (Function.update threads w (some x')) vs := by
  obtain ⟨hw, j, hj⟩ := h.progress w x hx
  refine ⟨hhead ▸ chain_step h.owned hx hstep h.chain, owned_step h.owned hx hstep, fun w' y hy => ?_,
    fun w' hw' hy => ?_, h.within⟩
  · by_cases hne : w' = w
    · subst hne
      obtain rfl : x' = y := by simpa using hy
      exact ⟨hw, hprogress j hj⟩
    · rw [Function.update_of_ne hne] at hy
      exact h.progress w' y hy
  · by_cases hne : w' = w
    · simp [hne] at hy
    · rw [Function.update_of_ne hne] at hy
      exact h.absent w' hw' hy

/-- The exchange puts the number of the thread in front. -/
theorem Inv.exchange {a : Addr} (h : Inv N k s threads vs) (hx : threads w = some x)
    (hpc : x.pc = .exchange a)
    (hstep : step k w s x action = some (⟨s.items, some a⟩, ⟨.link a s.head, x.i⟩)) :
    Inv N k ⟨s.items, some a⟩ (Function.update threads w (some ⟨.link a s.head, x.i⟩))
      (x.i :: vs) := by
  obtain ⟨hw, j, hcounter, hbound, hbusy, _, hpushed⟩ := h.progress w x hx
  have hj : j < k := hbusy (by simp [hpc]) (by simp [hpc])
  have hmine : block k w x.i := by
    rw [hcounter]
    exact block_counter hj
  have hother : ∀ w', w' ≠ w → (x.i :: vs).filter (block k w') = vs.filter (block k w') := by
    intro w' hne
    exact List.filter_cons_of_neg fun hblock => hne (block_unique hblock hmine)
  refine ⟨⟨a, s.head, rfl, .inr ⟨w, _, Function.update_self .., rfl, .inr ⟨s.head, rfl⟩⟩,
    .inr ⟨w, _, Function.update_self .., rfl⟩, chain_step h.owned hx hstep h.chain⟩,
    owned_step h.owned hx hstep, fun w' y hy => ?_, fun w' hw' hy => ?_, fun v hv => ?_⟩
  · by_cases hne : w' = w
    · subst hne
      obtain rfl := Option.some.inj (by simpa using hy)
      refine ⟨hw, j, hcounter, hbound, fun _ _ => hj, nofun, ?_⟩
      rw [List.filter_cons_of_pos hmine, hpushed, hpc, hcounter]
      exact (given_succ k w' j).symm
    · rw [Function.update_of_ne hne] at hy
      obtain ⟨hw', j', h₁, h₂, h₃, h₄, h₅⟩ := h.progress w' y hy
      exact ⟨hw', j', h₁, h₂, h₃, h₄, (hother w' hne).trans h₅⟩
  · by_cases hne : w' = w
    · simp [hne] at hy
    · rw [Function.update_of_ne hne] at hy
      rw [hother w' hne]
      exact h.absent w' hw' hy
  · rcases List.mem_cons.mp hv with rfl | hv
    · exact ⟨w, hw, hmine⟩
    · exact h.within v hv

theorem Inv.step (hfits : N * k < 2 ^ 31) (h : Inv N k s threads vs) (hx : threads w = some x)
    (hstep : step k w s x action = some (s', x')) :
    (∃ vs', Inv N k s' (Function.update threads w (some x')) vs') ∧ rank k w x' < rank k w x := by
  obtain ⟨hw, j, hcounter, hbound, hbusy, _, _⟩ := h.progress w x hx
  have hend := end_val_eq hfits hw
  have hleft := calls_left hfits hw j
  rw [← hcounter] at hleft
  rcases step_cases hstep with ⟨b, hpc, hlt, hnone, rfl, rfl⟩ | ⟨hpc, hle, rfl, rfl⟩ |
    ⟨b, hpc, rfl, rfl⟩ | ⟨b, old, item, hpc, hitem, rfl, rfl⟩ | ⟨b, item, hpc, hitem, rfl, rfl⟩
  · refine ⟨⟨vs, h.quiet hx hstep rfl fun j' hj' => ?_⟩, by simp [rank, hpc]⟩
    have hlt' : j' < k := by
      have hcounter' := hj'.counter
      omega
    have hpushed := hj'.pushed
    rw [hpc] at hpushed
    exact ⟨j', hj'.counter, hj'.bound, fun _ _ => hlt', nofun, hpushed⟩
  · refine ⟨⟨vs, h.quiet hx hstep rfl fun j' hj' => ?_⟩, by simp [rank, hpc]⟩
    have heq : j' = k := by
      have hcounter' := hj'.counter
      have hbound' := hj'.bound
      omega
    have hpushed := hj'.pushed
    rw [hpc] at hpushed
    exact ⟨j', hj'.counter, hj'.bound, fun _ hne => absurd rfl hne, fun _ => heq, hpushed⟩
  · have hj : j < k := hbusy (by simp [hpc]) (by simp [hpc])
    refine ⟨⟨x.i :: vs, h.exchange hx hpc hstep⟩, ?_⟩
    simp only [rank, hpc, hleft]
    omega
  · have hj : j < k := hbusy (by simp [hpc]) (by simp [hpc])
    refine ⟨⟨vs, h.quiet hx hstep rfl fun j' hj' => ?_⟩, ?_⟩
    · have hpushed := hj'.pushed
      rw [hpc] at hpushed
      exact ⟨j', hj'.counter, hj'.bound, fun _ _ => hj'.busy (by simp [hpc]) (by simp [hpc]), nofun,
        hpushed⟩
    · simp only [rank, hpc, hleft]
      omega
  · have hj : j < k := hbusy (by simp [hpc]) (by simp [hpc])
    refine ⟨⟨vs, h.quiet hx hstep rfl fun j' hj' => ?_⟩, ?_⟩
    · have hpushed := hj'.pushed
      rw [hpc] at hpushed
      have hlt' := hj'.busy (by simp [hpc]) (by simp [hpc])
      refine ⟨j' + 1, ?_, hlt', fun htest => absurd rfl htest, nofun, hpushed⟩
      simp only [hj'.counter]
      push_cast
      ring
    · have hnext := calls_left hfits hw (j + 1)
      rw [show ((w * k + (j + 1) : ℕ) : ℤ) = x.i + 1 by rw [hcounter]; push_cast; ring] at hnext
      simp only [rank, hpc, hleft, hnext]
      omega

theorem rules (hfits : N * k < 2 ^ 31) :
    Rules (program N k) (fun s threads => ∃ vs, Inv N k s threads vs) (rank k) where
  start := by
    rintro s threads w ⟨vs, h⟩ hw hnone
    exact ⟨vs, h.start hfits hw hnone⟩
  step := by
    rintro s threads w x action s' x' ⟨vs, h⟩ hx hstep
    exact h.step hfits hx hstep
  stays := by
    intro w s x action hdone
    have hpc : x.pc = .finished := by simpa [program] using hdone
    rcases action with a | _ <;> simp [program, AtomicStack.step, hpc]
  moves := by
    rintro s threads w x ⟨vs, h⟩ hx hdone
    refine ⟨w, x, ?_⟩
    have hitem : ∀ a, x.pc.item = some a → ∃ item, s.items a = some item := by
      intro a ha
      obtain ⟨next, hset, _⟩ := h.owned.unset w x a hx ha
      exact ⟨_, hset⟩
    cases hpc : x.pc with
    | test =>
      by_cases hlt : x.i < end_val k w
      · obtain ⟨b, hb⟩ := h.owned.bound
        exact ⟨.malloc b, hx, by simp [program, AtomicStack.step, hpc, hlt, hb b le_rfl]⟩
      · exact ⟨.go, hx, by simp [program, AtomicStack.step, hpc, hlt]⟩
    | exchange a => exact ⟨.go, hx, by simp [program, AtomicStack.step, hpc]⟩
    | link a old =>
      obtain ⟨item, hset⟩ := hitem a (by rw [hpc]; rfl)
      exact ⟨.go, hx, by simp [program, AtomicStack.step, hpc, hset]⟩
    | store a =>
      obtain ⟨item, hset⟩ := hitem a (by rw [hpc]; rfl)
      exact ⟨.go, hx, by simp [program, AtomicStack.step, hpc, hset]⟩
    | finished => exact absurd (by simp [program, hpc]) hdone

/-- Once all threads are joined the list is whole. -/
theorem Inv.complete (main : Main) (h : Inv N k s threads vs)
    (hjoined : State.Joined (program N k) ⟨s, threads, main⟩) :
    Complete N k vs ∧ ∀ w x, threads w = some x → x.pc.item = none := by
  have hfinished : ∀ w < N, ∃ x, threads w = some x ∧ x.pc = .finished := by
    intro w hw
    obtain ⟨x, hx, hdone⟩ := hjoined.2 w hw
    exact ⟨x, hx, by simpa [program] using hdone⟩
  refine ⟨complete_of_blocks (fun w hw => ?_) h.within, fun w x hx => ?_⟩
  · obtain ⟨x, hx, hpc⟩ := hfinished w hw
    obtain ⟨_, j, hj⟩ := h.progress w x hx
    rw [hj.pushed, hj.ended hpc, hpc]
    rfl
  · obtain ⟨x', hx', hpc⟩ := hfinished w (h.progress w x hx).1
    obtain rfl : x' = x := Option.some.inj (hx' ▸ hx)
    rw [hpc]
    rfl

/-- Without numbers the list stays empty. -/
theorem Inv.head_eq_none (h : Inv N k s threads vs) (hzero : N * k = 0) : s.head = none := by
  have hnil : vs = [] := by
    refine List.eq_nil_iff_forall_not_mem.mpr fun v hv => ?_
    obtain ⟨w, hw, hblock⟩ := h.within v hv
    obtain rfl : k = 0 := (Nat.mul_eq_zero.mp hzero).resolve_left (by omega)
    simp [block] at hblock
    omega
  subst hnil
  exact h.chain

/-- Whatever the order of the steps and the addresses: after the last join `print_list` prints every
number once, unless there is none and it reads through `NULL`. -/
theorem list_complete_iff (hfits : N * k < 2 ^ 31) :
    Inevitably (next (program N k)) (fun s => s.Joined (program N k) ∧ ∃ calls out,
      print_list s.shared.items calls s.shared.head = some out ∧ Complete N k out) (initial empty) ↔
      0 < N * k := by
  constructor
  · intro h
    by_contra hzero
    refine not_inevitably_of_invariant
      (I := fun s => Ordered (program N k) s ∧ ∃ vs, Inv N k s.shared s.threads vs) ?_ ?_ ?_ h
    · rintro s ⟨_, vs, hs⟩ ⟨_, calls, out, hout, _⟩
      rw [hs.head_eq_none (by omega)] at hout
      cases calls <;> cases hout
    · exact fun s l t hs hl => (rules hfits).next_inv l hs hl
    · exact ⟨initial_ordered _ _, [], empty_inv N k⟩
  · intro hpos
    refine ((rules hfits).inevitably_joined ⟨[], empty_inv N k⟩).mono ?_
    rintro s ⟨hjoined, vs, hs⟩
    obtain ⟨hcomplete, hdone⟩ := hs.complete s.main hjoined
    have hne : vs ≠ [] := by
      rintro rfl
      have hlength := hcomplete.perm.length_eq
      simp only [List.length_nil, List.length_map, List.length_range] at hlength
      omega
    exact ⟨hjoined, _, vs, hs.chain.print_list hdone hne, hcomplete⟩

/-- Four threads with 500 numbers each. -/
theorem list_complete_four : 0 < 4 * 500 ∧ Inevitably (next (program 4 500))
    (fun s => s.Joined (program 4 500) ∧ ∃ calls out,
      print_list s.shared.items calls s.shared.head = some out ∧ Complete 4 500 out)
    (initial empty) :=
  ⟨by decide, (list_complete_iff (by norm_num)).mpr (by decide)⟩

end
end Acos.AtomicStack
