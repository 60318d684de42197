import Acos.Lib.CString
import Mathlib.Logic.Function.Basic
import Mathlib.Logic.Relation

/-! Memory as bytes at places, with everything that it has held before, and C strings in it. -/
namespace Acos.ByteMemory
open Acos.CString

abbrev Memory := ℕ → UInt8

/-- What the memory holds, and what it has held before every store so far. -/
structure Run where
  memory : Memory
  past : List Memory

def Run.store (run : Run) (place : ℕ) (byte : UInt8) : Run :=
  ⟨Function.update run.memory place byte, run.memory :: run.past⟩

/-- `P` holds of the memory now and before every store. -/
def Run.Always (P : Memory → Prop) (run : Run) : Prop :=
  ∀ memory ∈ run.memory :: run.past, P memory

instance (P : Memory → Prop) [DecidablePred P] (run : Run) : Decidable (run.Always P) :=
  inferInstanceAs (Decidable (∀ memory ∈ run.memory :: run.past, P memory))

/-- The second run goes on from the first by stores that `P` allows. -/
def Stores (P : ℕ → UInt8 → Prop) : Run → Run → Prop :=
  Relation.ReflTransGen fun run later =>
    ∃ place byte, P place byte ∧ later = run.store place byte

section Stores
variable {P Q : ℕ → UInt8 → Prop} {run later last : Run} {place : ℕ} {byte : UInt8}

theorem Stores.refl (run : Run) : Stores P run run := Relation.ReflTransGen.refl

theorem Stores.trans (h : Stores P run later) (hlast : Stores P later last) :
    Stores P run last :=
  Relation.ReflTransGen.trans h hlast

theorem Stores.single (h : P place byte) : Stores P run (run.store place byte) :=
  Relation.ReflTransGen.single ⟨place, byte, h, rfl⟩

theorem Stores.mono (h : Stores P run later) (hPQ : ∀ place byte, P place byte → Q place byte) :
    Stores Q run later := by
  refine Relation.ReflTransGen.mono ?_ _ _ h
  rintro before after ⟨place, byte, hP, heq⟩
  exact ⟨place, byte, hPQ place byte hP, heq⟩

/-- A place at which nothing is stored keeps its byte. -/
theorem Stores.frame (h : Stores P run later) (hplace : ∀ byte, ¬ P place byte) :
    later.memory place = run.memory place := by
  induction h with
  | refl => rfl
  | tail _ hstep ih =>
    obtain ⟨place', byte, hP, rfl⟩ := hstep
    have hne : place ≠ place' := by
      rintro rfl
      exact hplace byte hP
    rw [← ih]
    exact Function.update_of_ne hne _ _

/-- A place at which only one byte is ever stored keeps it. -/
theorem Stores.keeps (h : Stores P run later) (hplace : ∀ b, P place b → b = byte)
    (hrun : run.Always (· place = byte)) : later.Always (· place = byte) := by
  induction h with
  | refl => exact hrun
  | tail _ hstep ih =>
    obtain ⟨place', b, hP, rfl⟩ := hstep
    refine List.forall_mem_cons.mpr ⟨?_, ih⟩
    by_cases heq : place = place'
    · subst heq
      exact (Function.update_self _ _ _).trans (hplace b hP)
    · exact (Function.update_of_ne heq _ _).trans (ih _ List.mem_cons_self)

/-- What memory held in a run it has held in every run that goes on from it. -/
theorem Stores.past (h : Stores P run later) {memory : Memory}
    (hmem : memory ∈ run.memory :: run.past) : memory ∈ later.memory :: later.past := by
  induction h with
  | refl => exact hmem
  | tail _ hstep ih =>
    obtain ⟨_, _, _, rfl⟩ := hstep
    exact List.mem_cons_of_mem _ ih

/-- Stores at the places from `first` on and before `last`. -/
def Within (first last : ℕ) (place : ℕ) (_ : UInt8) : Prop := first ≤ place ∧ place < last

theorem Stores.widen {first last first' last' : ℕ}
    (h : Stores (Within first last) run later) (hfirst : first' ≤ first) (hlast : last ≤ last') :
    Stores (Within first' last') run later :=
  h.mono fun _ _ hplace => ⟨hfirst.trans hplace.1, hplace.2.trans_le hlast⟩

end Stores

/-- The string at a place, with its terminator. -/
def Holds (memory : Memory) : ℕ → Bytes → Prop
  | place, [] => memory place = 0
  | place, c :: s => memory place = c ∧ c ≠ 0 ∧ Holds memory (place + 1) s

/-- The string at a place as far as `fuel` bytes show it. -/
def stringAt (memory : Memory) : ℕ → ℕ → Bytes
  | 0, _ => []
  | fuel + 1, place =>
    if memory place = 0 then [] else memory place :: stringAt memory fuel (place + 1)

section Holds
variable {memory later : Memory} {place : ℕ} {s t : Bytes}

theorem Holds.stringAt {fuel : ℕ} (h : Holds memory place s) (hfuel : s.length ≤ fuel) :
    stringAt memory fuel place = s := by
  induction s generalizing fuel place with
  | nil =>
    cases fuel with
    | zero => rfl
    | succ fuel => exact if_pos h
  | cons c s ih =>
    obtain ⟨hc, hne, hs⟩ := h
    rw [List.length_cons] at hfuel
    obtain ⟨fuel, rfl⟩ := Nat.exists_eq_add_of_le' (show 1 ≤ fuel by omega)
    rw [ByteMemory.stringAt, hc, if_neg hne, ih hs (by omega)]

theorem Holds.stringAt_eq_nil {fuel : ℕ} (h : Holds memory place s) (hfuel : 0 < fuel) :
    ByteMemory.stringAt memory fuel place = [] ↔ s = [] := by
  obtain ⟨fuel, rfl⟩ := Nat.exists_eq_add_of_le' hfuel
  cases s with
  | nil =>
    have hzero : memory place = 0 := h
    simp [ByteMemory.stringAt, hzero]
  | cons c s =>
    obtain ⟨hc, hne, _⟩ := h
    simp [ByteMemory.stringAt, hc, hne]

/-- The bytes of a string are not 0. -/
theorem Holds.byte_ne {k : ℕ} (h : Holds memory place s) (hfirst : place ≤ k)
    (hlast : k < place + s.length) : memory k ≠ 0 := by
  induction s generalizing place with
  | nil =>
    rw [List.length_nil] at hlast
    omega
  | cons c s ih =>
    obtain ⟨hc, hne, hs⟩ := h
    rw [List.length_cons] at hlast
    by_cases heq : k = place
    · rwa [heq, hc]
    · exact ih hs (by omega) (by omega)

theorem Holds.terminator (h : Holds memory place s) : memory (place + s.length) = 0 := by
  induction s generalizing place with
  | nil => exact h
  | cons c s ih =>
    have hs := ih h.2.2
    rwa [List.length_cons, Nat.add_comm s.length, ← Nat.add_assoc]

/-- A string of which every byte is found at another place later. -/
theorem Holds.move {place' : ℕ} (h : Holds memory place s)
    (hmove : ∀ k ≤ s.length, later (place' + k) = memory (place + k)) : Holds later place' s := by
  induction s generalizing place place' with
  | nil => exact (hmove 0 (Nat.le_refl _)).trans h
  | cons c s ih =>
    obtain ⟨hc, hne, hs⟩ := h
    refine ⟨(hmove 0 (Nat.zero_le _)).trans hc, hne, ih hs fun k hk => ?_⟩
    have hnext := hmove (k + 1) (Nat.succ_le_succ hk)
    rwa [Nat.add_right_comm, Nat.add_assoc place' k, Nat.add_right_comm place, Nat.add_assoc place]

/-- A store does not change a string behind it. -/
theorem Holds.store {run : Run} {place' : ℕ} {byte : UInt8} (h : Holds run.memory place s)
    (hplace : place' < place) : Holds (run.store place' byte).memory place s :=
  h.move fun k _ => Function.update_of_ne (show place + k ≠ place' by omega) _ _

theorem Holds.tail (h : Holds memory place (s ++ t)) : Holds memory (place + s.length) t := by
  induction s generalizing place with
  | nil => exact h
  | cons c s ih =>
    have hs := ih h.2.2
    rwa [List.length_cons, Nat.add_comm s.length, ← Nat.add_assoc]

theorem Holds.drop {k : ℕ} (h : Holds memory place s) (hk : k ≤ s.length) :
    Holds memory (place + k) (s.drop k) := by
  rw [← List.take_append_drop k s] at h
  have htail := h.tail
  rwa [List.length_take_of_le hk] at htail

/-- A string of which the first bytes stay and the rest is replaced. -/
theorem Holds.replace {u : Bytes} (h : Holds memory place (s ++ t))
    (hkeep : ∀ k, place ≤ k → k < place + s.length → later k = memory k)
    (hu : Holds later (place + s.length) u) : Holds later place (s ++ u) := by
  induction s generalizing place with
  | nil => exact hu
  | cons c s ih =>
    obtain ⟨hc, hne, hs⟩ := h
    rw [List.length_cons] at hkeep hu
    refine ⟨(hkeep place (Nat.le_refl _) (by omega)).trans hc, hne, ih hs ?_ ?_⟩
    · exact fun k hk hlast => hkeep k (by omega) (by omega)
    · rwa [Nat.add_assoc, Nat.add_comm 1]

end Holds

end Acos.ByteMemory
