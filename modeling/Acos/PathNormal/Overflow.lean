import Acos.PathNormal.Dots
import Acos.PathNormal.InPlace

/-! Whether `normalize_path` works within the characters of its argument. Every `../` that the loop
writes is paid for by what was removed, but for one character at the end of a path of `..` only. -/
namespace Acos.PathNormal
open Acos.CString Acos.ByteMemory

/-- The string at the start of the array has its terminator among the first `length + 1` bytes. -/
def Fits (length : ℕ) (memory : Memory) : Prop := ∃ place ≤ length, memory place = 0

instance (length : ℕ) : DecidablePred (Fits length) := fun memory =>
  decidable_of_iff (∃ place < length + 1, memory place = 0) <| by
    simp only [Fits, Nat.lt_succ_iff]

section Loop
variable {run kept later : Run} {path fuel n : ℕ} {p rest : Bytes}

theorem Grown.terminator {len place : ℕ} {byte : UInt8} (h : Grown path len place byte)
    (hfits : path + 3 + len ≤ n) (hplace : place = n) : byte = 0 := by
  obtain ⟨_, hle, hend⟩ := h
  exact hend (by omega)

/-- As long as the path is not one of `..` only that fills the array, the terminator of the
original string stays. -/
theorem normalizeLoopAt_fits (hfuel : p.length + 1 < fuel) (h : Holds run.memory path p)
    (hn : path + p.length ≤ n) (hups : ¬ (path + p.length = n ∧ OnlyUps p))
    (hrun : run.Always (· n = 0)) (hloop : normalizeLoopAt fuel run path = some later) :
    later.Always (· n = 0) := by
  induction fuel generalizing run path p with
  | zero => omega
  | succ fuel ih =>
    obtain ⟨kept, rest, flag, hleft, hle, hlt, hrest, hstores, hround⟩ :=
      normalizeLoopAt_succ (show p.length < fuel by omega) h
    have hkept : kept.Always (· n = 0) :=
      hstores.keeps (fun byte hwithin => by have hlast := hwithin.2; omega) hrun
    rw [hround] at hloop
    cases flag with
    | true =>
      have hshort := hlt rfl
      obtain ⟨hgrown, hwrites⟩ := grow_holds hrest
      have hgrowth := surplus_growth (show p.length < fuel by omega) hleft
      have hroom : path + 3 + rest.length ≤ n ∧ ¬ (path + 3 + rest.length = n ∧ OnlyUps rest) := by
        rcases hgrowth with ⟨hlen, hups', hnot⟩ | ⟨hlen, hiff⟩
        · have hless : path + p.length ≠ n := fun heq => hups ⟨heq, hups'⟩
          exact ⟨by omega, fun h => hnot h.2⟩
        · exact ⟨by omega, fun ⟨heq, hrest'⟩ => hups ⟨by omega, hiff.mpr ⟨by omega, hrest'⟩⟩⟩
      have hgrew := hwrites.keeps (fun byte hgrows => hgrows.terminator hroom.1 rfl) hkept
      exact ih (show rest.length + 1 < fuel by omega) (hgrown.tail (s := dotDotSlash)) hroom.1
        hroom.2 hgrew hloop
    | false =>
      have hlater : kept = later := by simpa using hloop
      exact hlater ▸ hkept

/-- A path of `..` only that fills the array makes it overflow. -/
theorem normalizeLoopAt_overflows (hfuel : p.length + 1 < fuel) (h : Holds run.memory path p)
    (hups : OnlyUps p) (hbefore : ∀ k < path, run.memory k ≠ 0)
    (hloop : normalizeLoopAt fuel run path = some later) :
    ¬ later.Always (Fits (path + p.length)) := by
  induction fuel generalizing run path p with
  | zero => omega
  | succ fuel ih =>
    obtain ⟨kept, rest, flag, hleft, hle, hlt, hrest, hstores, hround⟩ :=
      normalizeLoopAt_succ (show p.length < fuel by omega) h
    obtain ⟨rest', hsurplus⟩ := hups.surplus (show p.length < fuel by omega)
    obtain ⟨rfl, rfl⟩ : rest' = rest ∧ true = flag := by simpa [hsurplus] using hleft
    have hshort := hlt rfl
    obtain ⟨hgrown, hwrites⟩ := grow_holds hrest
    rw [hround, if_pos rfl] at hloop
    -- No byte in front of what is left is 0 once `../` is written.
    have hfront : ∀ k < path + 3 + rest'.length,
        (strncpyAt (shiftUp kept path 3 (rest'.length + 1)) path dotDotSlash).memory k ≠ 0 := by
      intro k hk
      by_cases hbelow : k < path
      · rw [hwrites.frame fun _ hgrows => by have hfirst := hgrows.1; omega,
          hstores.frame fun _ hwithin => by have hfirst := hwithin.1; omega]
        exact hbefore k hbelow
      · refine hgrown.byte_ne (by omega) ?_
        rw [List.length_append]
        have hthree : dotDotSlash.length = 3 := rfl
        omega
    rcases surplus_growth (show p.length < fuel by omega) hsurplus with ⟨hlen, _, _⟩ | ⟨_, hiff⟩
    · obtain ⟨run', left, hloopAt, _, _, hlast⟩ := normalizeLoopAt_simulates
        (show rest'.length + 1 < fuel by omega) (hgrown.tail (s := dotDotSlash))
      obtain rfl : run' = later := by
        rw [← Option.some_inj, ← hloopAt, ← hloop]
        rfl
      intro hfits
      obtain ⟨place, hplace, hzero⟩ := hfits _ (hlast.past List.mem_cons_self)
      exact hfront place (by omega) hzero
    · obtain ⟨hlen, hups'⟩ := hiff.mp hups
      have hsum : path + 3 + rest'.length = path + p.length := by omega
      rw [← hsum]
      exact ih (show rest'.length + 1 < fuel by omega) (hgrown.tail (s := dotDotSlash)) hups'
        (fun k hk => hfront k (by omega)) hloop

end Loop

section Main
variable {fuel : ℕ} {path left : Bytes} {memory : Memory}

theorem normalizeLoop_dot (hfuel : 2 < fuel) : normalizeLoop fuel [dot] = some [] := by
  obtain ⟨fuel, rfl⟩ := Nat.exists_eq_add_of_le' hfuel
  rfl

/-- Of the paths of one character only `.` leaves nothing. -/
theorem eq_dot_of_normalizeLoop (hlen : path.length = 1) (hfuel : path.length + 1 < fuel)
    (hloop : normalizeLoop fuel path = some []) : path = [dot] := by
  obtain ⟨c, rfl⟩ := List.length_eq_one_iff.mp hlen
  by_contra hne
  have hc : c ≠ dot := fun heq => hne (by rw [heq])
  have hdots : NoDots [c] := by
    intro d hd
    by_cases hslash : c = slash
    · subst hslash
      simp at hd
    · rw [components_of_plain (by simpa using Ne.symm hslash) (List.cons_ne_nil _ _)] at hd
      rw [List.mem_singleton.mp hd]
      simpa using hc
  have hrun := normalizePath_squeeze hfuel hdots (List.cons_ne_nil _ _)
  rw [normalizePath, hloop] at hrun
  simp [squeeze] at hrun

/-- The `./` that stands for an empty result has two characters. -/
theorem dotSlash_overflows (run : Run) :
    ¬ (strncpyAt run 0 [dot, slash, 0]).Always (Fits 1) := by
  intro hfits
  obtain ⟨place, hplace, hzero⟩ := hfits _ List.mem_cons_self
  obtain rfl | rfl : place = 0 ∨ place = 1 := by omega
  all_goals simp [strncpyAt, Run.store, Function.update, dot, slash] at hzero

theorem dotSlash_fits {run : Run} {n : ℕ} (hn : 2 ≤ n) (hrun : run.Always (· n = 0)) :
    (strncpyAt run 0 [dot, slash, 0]).Always (· n = 0) := by
  refine (strncpyAt_stores run 0 _).keeps ?_ hrun
  rintro byte ⟨k, hbyte, hplace⟩
  have hk : k < 3 := (List.getElem?_eq_some_iff.mp hbyte).1
  obtain rfl : k = 2 := by omega
  simpa using hbyte.symm

/-- For a non-empty path the string in the array never gets longer than the path exactly when the
path is neither `.` nor one of `..` only. -/
theorem normalize_path_in_place_iff (hne : path ≠ []) (hstring : Holds memory 0 path)
    (hfuel : path.length + 1 < fuel) :
    ∃ later, normalizePathAt fuel ⟨memory, []⟩ = some later ∧
      (later.Always (Fits path.length) ↔ path ≠ [dot] ∧ ¬ OnlyUps path) := by
  have hstart : Holds (Run.mk memory []).memory 0 path := hstring
  have hpos := List.length_pos_iff.mpr hne
  obtain ⟨kept, left, hloopAt, hloop, hleft, _⟩ := normalizeLoopAt_simulates hfuel hstart
  have hnil := hleft.stringAt_eq_nil (show 0 < fuel by omega)
  rw [normalizePathAt, hloopAt, Option.map_some]
  simp only [List.length_eq_zero_iff, hnil]
  refine ⟨_, rfl, fun hfits => ⟨?_, fun hups => ?_⟩, fun hcond => ?_⟩
  · rintro rfl
    obtain rfl : left = [] := by
      simpa [normalizeLoop_dot (show 2 < fuel from hfuel)] using hloop.symm
    rw [if_pos rfl] at hfits
    exact dotSlash_overflows kept hfits
  · have hover := normalizeLoopAt_overflows hfuel hstart hups
      (fun k hk => absurd hk (Nat.not_lt_zero k)) hloopAt
    rw [Nat.zero_add] at hover
    refine hover fun earlier hmem => hfits earlier ?_
    split_ifs
    · exact (strncpyAt_stores kept 0 _).past hmem
    · exact hmem
  · obtain ⟨hdot, hups⟩ := hcond
    have hkept : kept.Always (· path.length = 0) := by
      have hterm : memory path.length = 0 := by simpa using hstring.terminator
      exact normalizeLoopAt_fits hfuel hstart (Nat.zero_add _).le (fun h => hups h.2)
        (List.forall_mem_singleton.mpr hterm) hloopAt
    have hlater : Run.Always (· path.length = 0)
        (if left = [] then strncpyAt kept 0 [dot, slash, 0] else kept) := by
      split_ifs with hempty
      · have hone : path.length ≠ 1 := fun hlen =>
          hdot (eq_dot_of_normalizeLoop hlen hfuel (hempty ▸ hloop))
        exact dotSlash_fits (by omega) hkept
      · exact hkept
    exact fun earlier hmem => ⟨path.length, Nat.le_refl _, hlater earlier hmem⟩

/-- An array with the path and other bytes behind it. -/
def arrayOf (path : Bytes) : Memory := fun place => (path ++ [0]).getD place 7

/-- `a/..`. -/
def nameThenUp : Bytes := [97, slash, dot, dot]

theorem normalize_path_in_place_up :
    ∃ later, normalizePathAt 6 ⟨arrayOf nameThenUp, []⟩ = some later ∧
      (later.Always (Fits nameThenUp.length) ↔ nameThenUp ≠ [dot] ∧ ¬ OnlyUps nameThenUp) :=
  normalize_path_in_place_iff (List.cons_ne_nil _ _)
    (by simp [Holds, arrayOf, nameThenUp, slash, dot]) (by decide)

theorem normalize_path_overflows :
    Holds (arrayOf [dot, dot]) 0 [dot, dot] ∧
      ∃ later, normalizePathAt 4 ⟨arrayOf [dot, dot], []⟩ = some later ∧
        ¬ later.Always (Fits 2) := by
  refine ⟨by simp [Holds, arrayOf, dot], _, rfl, ?_⟩
  decide

end Main

end Acos.PathNormal
