import Acos.Lib.Memory
import Acos.PathNormal.Length

/-! `normalize_path` byte by byte, in the array of its caller. The array starts at place 0; a path
is the place that its pointer points to, and `fuel` bounds the bytes that a loop goes over. What
the functions leave in the array is what they leave of the strings. -/
namespace Acos.PathNormal
open Acos.CString Acos.ByteMemory

/-- `shift_path` for a shift that is not negative: the bytes up to the terminator move down. -/
def shiftDown : ℕ → Run → ℕ → ℕ → Run
  | 0, run, _, _ => run
  | fuel + 1, run, path, shift =>
    let c := run.memory (path + shift)
    let run := run.store path c
    if c = 0 then run else shiftDown fuel run (path + 1) shift

/-- `shift_path` for the shift `-shift`: the first `count` bytes move up, the last one first. -/
def shiftUp (run : Run) (path shift : ℕ) : ℕ → Run
  | 0 => run
  | count + 1 =>
    shiftUp (run.store (path + count + shift) (run.memory (path + count))) path shift count

/-- `strncpy_` from a literal. -/
def strncpyAt (run : Run) (dest : ℕ) : Bytes → Run
  | [] => run
  | c :: source => strncpyAt (run.store dest c) (dest + 1) source

/-- `restore_coupler`, with the value that it returns. -/
def restoreCouplerAt (fuel : ℕ) (run : Run) (path : ℕ) : Run × ℕ :=
  let coupler := ((stringAt run.memory fuel path).takeWhile (· = slash)).length
  (if 1 < coupler then shiftDown fuel run path (coupler - 1) else run, if 0 < coupler then 1 else 0)

/-- `normalize_relative_path` from `path_begin` on, with `recur` for its calls of itself. -/
def normalizeFromAt (fuel : ℕ) (recur : Run → ℕ → Option (Run × Bool)) (run : Run)
    (path_begin : ℕ) : Option (Run × Bool) :=
  let path := path_begin + (readName (stringAt run.memory fuel path_begin)).length
  let (run, moved) := restoreCouplerAt fuel run path
  let path := path + moved
  let component := stringAt run.memory fuel path_begin
  if strncmpZero component [dot, dot] 2 then
    some (shiftDown fuel run path_begin (path - path_begin), true)
  else if strncmpZero component [dot] 1 then
    recur (shiftDown fuel run path_begin (path - path_begin)) path_begin
  else
    (recur run path).bind fun (run, flag) =>
      if flag then recur (shiftDown fuel run path_begin (path - path_begin)) path_begin
      else some (run, false)

/-- `normalize_relative_path`, with the value that it returns. -/
def normalizeRelativePathAt : ℕ → Run → ℕ → Option (Run × Bool)
  | 0, _, _ => none
  | fuel + 1, run, path =>
    if run.memory path = 0 then some (run, false)
    else
      let (run, moved) := restoreCouplerAt (fuel + 1) run path
      normalizeFromAt (fuel + 1) (normalizeRelativePathAt fuel) run (path + moved)

/-- The loop of `normalize_path`. -/
def normalizeLoopAt : ℕ → Run → ℕ → Option Run
  | 0, _, _ => none
  | fuel + 1, run, path =>
    (normalizeRelativePathAt fuel run path).bind fun (run, flag) =>
      if flag then
        let run := shiftUp run path 3 ((stringAt run.memory fuel path).length + 1)
        normalizeLoopAt fuel (strncpyAt run path dotDotSlash) (path + 3)
      else some run

/-- `normalize_path`. -/
def normalizePathAt (fuel : ℕ) (run : Run) : Option Run :=
  (normalizeLoopAt fuel run 0).map fun run =>
    if (stringAt run.memory fuel 0).length = 0 then strncpyAt run 0 [dot, slash, 0] else run

section Copy
variable {run : Run} {path shift fuel : ℕ} {s : Bytes}

theorem shiftDown_holds (h : Holds run.memory (path + shift) s) (hfuel : s.length < fuel) :
    Holds (shiftDown fuel run path shift).memory path s ∧
      Stores (Within path (path + s.length + 1)) run (shiftDown fuel run path shift) := by
  induction s generalizing fuel run path with
  | nil =>
    obtain ⟨fuel, rfl⟩ := Nat.exists_eq_add_of_le' hfuel
    have hzero : run.memory (path + shift) = 0 := h
    have hshift : shiftDown (fuel + 1) run path shift = run.store path 0 := by
      simp [shiftDown, hzero]
    rw [List.length_nil, hshift]
    exact ⟨Function.update_self _ _ _, Stores.single ⟨Nat.le_refl _, Nat.lt_succ_self _⟩⟩
  | cons c s ih =>
    rw [List.length_cons] at hfuel ⊢
    obtain ⟨fuel, rfl⟩ := Nat.exists_eq_add_of_le' (show 1 ≤ fuel by omega)
    obtain ⟨hc, hne, hs⟩ := h
    have hshift : shiftDown (fuel + 1) run path shift =
        shiftDown fuel (run.store path c) (path + 1) shift := by
      simp [shiftDown, hc, hne]
    have hs' : Holds (run.store path c).memory (path + 1 + shift) s :=
      Holds.store (by rwa [Nat.add_right_comm]) (by omega)
    obtain ⟨hrest, hstores⟩ := ih hs' (show s.length < fuel by omega)
    rw [hshift]
    refine ⟨⟨?_, hne, hrest⟩, ?_⟩
    · rw [hstores.frame fun _ hwithin => by have hfirst := hwithin.1; omega]
      exact Function.update_self _ _ _
    · exact (Stores.single ⟨Nat.le_refl _, by omega⟩).trans (hstores.widen (by omega) (by omega))

/-- The stores of `shiftUp`. -/
def Moved (run : Run) (path shift count place : ℕ) (byte : UInt8) : Prop :=
  ∃ k < count, place = path + shift + k ∧ byte = run.memory (path + k)

theorem shiftUp_moves (run : Run) (path shift count : ℕ) :
    (∀ k < count, (shiftUp run path shift count).memory (path + shift + k) =
      run.memory (path + k)) ∧
    Stores (Moved run path shift count) run (shiftUp run path shift count) := by
  induction count generalizing run with
  | zero => exact ⟨nofun, Stores.refl run⟩
  | succ count ih =>
    have hold : ∀ k < count, (run.store (path + count + shift) (run.memory (path + count))).memory
        (path + k) = run.memory (path + k) := fun k hk =>
      Function.update_of_ne (show path + k ≠ path + count + shift by omega) _ _
    obtain ⟨hmoved, hstores⟩ :=
      ih (run.store (path + count + shift) (run.memory (path + count)))
    refine ⟨fun k hk => ?_, ?_⟩
    · rcases Nat.lt_succ_iff_lt_or_eq.mp hk with hlt | rfl
      · exact (hmoved k hlt).trans (hold k hlt)
      · have hnot : ∀ byte, ¬ Moved (run.store (path + k + shift) (run.memory (path + k))) path
            shift k (path + shift + k) byte := by
          rintro byte ⟨j, hj, heq, _⟩
          omega
        have hplace : path + shift + k = path + k + shift := by omega
        refine (hstores.frame hnot).trans ?_
        rw [hplace]
        exact Function.update_self _ _ _
    · refine (Stores.single ⟨count, Nat.lt_succ_self _, by omega, rfl⟩).trans (hstores.mono ?_)
      rintro place byte ⟨k, hk, hplace, hbyte⟩
      exact ⟨k, by omega, hplace, hbyte.trans (hold k hk)⟩

theorem strncpyAt_stores (run : Run) (dest : ℕ) (source : Bytes) :
    Stores (fun place byte => ∃ k, source[k]? = some byte ∧ place = dest + k) run
      (strncpyAt run dest source) := by
  induction source generalizing run dest with
  | nil => exact Stores.refl run
  | cons c source ih =>
    refine (Stores.single ⟨0, rfl, rfl⟩).trans ((ih (run.store dest c) (dest + 1)).mono ?_)
    rintro place byte ⟨k, hbyte, hplace⟩
    exact ⟨k + 1, by simpa using hbyte, by omega⟩

theorem strncpyAt_holds {dest : ℕ} {source : Bytes}
    (h : Holds run.memory (dest + source.length) s) (hsource : ∀ c ∈ source, c ≠ 0) :
    Holds (strncpyAt run dest source).memory dest (source ++ s) := by
  induction source generalizing run dest with
  | nil => exact h
  | cons c source ih =>
    obtain ⟨hne, hrest⟩ := List.forall_mem_cons.mp hsource
    rw [List.length_cons] at h
    have hs : Holds (run.store dest c).memory (dest + 1 + source.length) s :=
      Holds.store (by rwa [Nat.add_assoc, Nat.add_comm 1]) (by omega)
    have hframe : (strncpyAt (run.store dest c) (dest + 1) source).memory dest =
        (run.store dest c).memory dest :=
      (strncpyAt_stores (run.store dest c) (dest + 1) source).frame
        fun byte ⟨k, _, hplace⟩ => by omega
    exact ⟨hframe.trans (Function.update_self _ _ _), hne, ih hs hrest⟩

/-- The stores that put three bytes in front of a string of `len` bytes. -/
def Grown (path len place : ℕ) (byte : UInt8) : Prop :=
  path ≤ place ∧ place ≤ path + 3 + len ∧ (place = path + 3 + len → byte = 0)

theorem grow_holds (h : Holds run.memory path s) :
    Holds (strncpyAt (shiftUp run path 3 (s.length + 1)) path dotDotSlash).memory path
        (dotDotSlash ++ s) ∧
      Stores (Grown path s.length) run
        (strncpyAt (shiftUp run path 3 (s.length + 1)) path dotDotSlash) := by
  obtain ⟨hmoved, hstores⟩ := shiftUp_moves run path 3 (s.length + 1)
  have hup : Holds (shiftUp run path 3 (s.length + 1)).memory (path + 3) s :=
    h.move fun k hk => hmoved k (by omega)
  refine ⟨strncpyAt_holds hup (by simp [dotDotSlash, dot, slash]), (hstores.mono ?_).trans
    ((strncpyAt_stores _ path dotDotSlash).mono ?_)⟩
  · rintro place byte ⟨k, hk, hplace, hbyte⟩
    refine ⟨by omega, by omega, fun hend => ?_⟩
    have hlast : k = s.length := by omega
    rw [hbyte, hlast]
    exact h.terminator
  · rintro place byte ⟨k, hbyte, hplace⟩
    have hk : k < 3 := (List.getElem?_eq_some_iff.mp hbyte).1
    exact ⟨by omega, by omega, fun hend => by omega⟩

end Copy

section Simulation
variable {run : Run} {path fuel : ℕ} {p s name tail : Bytes}

/-- What a call leaves in the array at `path` is what the call leaves of the string there, and
nothing is stored outside of that string. -/
def Simulates (run : Run) (path : ℕ) (p : Bytes) (later : Option (Run × Bool))
    (left : Option (Bytes × Bool)) : Prop :=
  ∃ run' s flag, later = some (run', flag) ∧ left = some (s, flag) ∧ Holds run'.memory path s ∧
    Stores (Within path (path + p.length)) run run'

theorem restoreCouplerAt_holds (h : Holds run.memory path p) (hfuel : p.length < fuel) :
    Holds (restoreCouplerAt fuel run path).1.memory path (restoreCoupler p).1 ∧
      (restoreCouplerAt fuel run path).2 = (restoreCoupler p).2 ∧
      Stores (Within path (path + p.length)) run (restoreCouplerAt fuel run path).1 := by
  unfold restoreCouplerAt restoreCoupler
  rw [h.stringAt hfuel.le]
  have hle : (p.takeWhile (· = slash)).length ≤ p.length := (List.takeWhile_prefix _).length_le
  by_cases hmany : 1 < (p.takeWhile (· = slash)).length
  · obtain ⟨hholds, hstores⟩ := shiftDown_holds (h.drop (show _ - 1 ≤ p.length by omega))
      (show (p.drop ((p.takeWhile (· = slash)).length - 1)).length < fuel by
        rw [List.length_drop]
        omega)
    simp only [if_pos hmany, shiftPath]
    rw [List.length_drop] at hstores
    exact ⟨hholds, trivial, hstores.widen (Nat.le_refl _) (by omega)⟩
  · simp only [if_neg hmany]
    exact ⟨h, trivial, Stores.refl run⟩

/-- The array once the slashes after a name are restored. -/
theorem restoreCouplerAt_name (hcut : Cut name tail) (h : Holds run.memory path (name ++ tail))
    (hfuel : tail.length < fuel) :
    ∃ kept, restoreCouplerAt fuel run (path + name.length) = (kept, (tail.take 1).length) ∧
      Holds kept.memory path (name ++ (tail.take 1 ++ afterSlashes tail)) ∧
      Stores (Within path (path + name.length + tail.length)) run kept := by
  obtain ⟨hkept, hmoved, hstores⟩ := restoreCouplerAt_holds h.tail hfuel
  rw [restoreCoupler_tail hcut.atEnd] at hkept hmoved
  refine ⟨_, Prod.ext rfl hmoved, h.replace (fun k _ hk => ?_) hkept,
    hstores.widen (Nat.le_add_right _ _) (Nat.le_refl _)⟩
  exact hstores.frame fun _ hwithin => by have hfirst := hwithin.1; omega

/-- What follows a name is moved down over it. -/
theorem shiftDown_name (hcut : Cut name tail)
    (h : Holds run.memory (path + (name.length + (tail.take 1).length)) s)
    (hle : s.length ≤ (afterSlashes tail).length) (hfuel : s.length < fuel) :
    Holds (shiftDown fuel run path (name.length + (tail.take 1).length)).memory path s ∧
      Stores (Within path (path + name.length + tail.length)) run
        (shiftDown fuel run path (name.length + (tail.take 1).length)) := by
  have hpos := List.length_pos_iff.mpr hcut.nonempty
  have hafter := kept_length_le hcut.atEnd
  obtain ⟨hholds, hstores⟩ := shiftDown_holds h hfuel
  exact ⟨hholds, hstores.widen (Nat.le_refl _) (by omega)⟩

/-- `normalize_relative_path` at a name in the array, next to its string. -/
theorem normalizeFromAt_simulates {recurAt : Run → ℕ → Option (Run × Bool)}
    {recur : Bytes → Option (Bytes × Bool)} (hcut : Cut name tail)
    (hrecur : ∀ run path p, p.length ≤ (afterSlashes tail).length → Holds run.memory path p →
      Simulates run path p (recurAt run path) (recur p))
    (hle : ∀ s flag, recur (afterSlashes tail) = some (s, flag) →
      s.length ≤ (afterSlashes tail).length)
    (h : Holds run.memory path (name ++ tail)) (hfuel : (name ++ tail).length < fuel) :
    Simulates run path (name ++ tail) (normalizeFromAt fuel recurAt run path)
      (normalizeFrom recur (name ++ tail)) := by
  have hlen := kept_length_le hcut.atEnd
  have hread := h.stringAt hfuel.le
  rw [List.length_append] at hfuel
  obtain ⟨kept, hrestore, hall, hstores⟩ :=
    restoreCouplerAt_name hcut h (show tail.length < fuel by omega)
  have hkept := hall.stringAt
    (show (name ++ (tail.take 1 ++ afterSlashes tail)).length ≤ fuel by
      simp only [List.length_append]
      omega)
  rw [← List.append_assoc] at hall
  have hafter := hall.tail
  rw [List.length_append] at hafter
  have hplace : path + name.length + (tail.take 1).length - path =
      name.length + (tail.take 1).length := by omega
  unfold normalizeFromAt Simulates
  rw [normalizeFrom_name recur hcut.plain hcut.atEnd, List.length_append, ← Nat.add_assoc]
  simp only [hread, readName_append hcut.plain hcut.atEnd, hrestore, hkept, hplace]
  split_ifs with hdd hd
  · obtain ⟨hholds, hshift⟩ :=
      shiftDown_name hcut hafter (Nat.le_refl _) (show _ < fuel by omega)
    exact ⟨_, _, true, rfl, rfl, hholds, hstores.trans hshift⟩
  · obtain ⟨hholds, hshift⟩ :=
      shiftDown_name hcut hafter (Nat.le_refl _) (show _ < fuel by omega)
    obtain ⟨run', s, flag, hrunAt, hrun, hs, hrest⟩ := hrecur _ path _ (Nat.le_refl _) hholds
    exact ⟨run', s, flag, hrunAt, hrun, hs,
      (hstores.trans hshift).trans (hrest.widen (Nat.le_refl _) (by omega))⟩
  · obtain ⟨run', s, flag, hrunAt, hrun, hs, hrest⟩ := hrecur kept
      (path + (name.length + (tail.take 1).length)) _ (Nat.le_refl _) hafter
    rw [Nat.add_assoc path, hrunAt, hrun, Option.bind_some, Option.bind_some]
    have hshort := hle s flag hrun
    have hstores' := hstores.trans (hrest.widen (Nat.le_add_right _ _) (by omega))
    cases flag with
    | true =>
      obtain ⟨hholds, hshift⟩ := shiftDown_name hcut hs hshort (show _ < fuel by omega)
      obtain ⟨run'', s', flag', hrunAt', hrun', hs', hlast⟩ := hrecur _ path s hshort hholds
      exact ⟨run'', s', flag', hrunAt', hrun', hs',
        (hstores'.trans hshift).trans (hlast.widen (Nat.le_refl _) (by omega))⟩
    | false =>
      rw [← List.length_append] at hs
      refine ⟨run', _, false, rfl, rfl, hall.replace (fun k _ hk => ?_) hs, hstores'⟩
      rw [List.length_append] at hk
      exact hrest.frame fun _ hwithin => by have hfirst := hwithin.1; omega

theorem normalizeFromAt_nil {recurAt : Run → ℕ → Option (Run × Bool)}
    {recur : Bytes → Option (Bytes × Bool)}
    (hrecur : Simulates run path [] (recurAt run path) (recur []))
    (hnil : recur [] = some ([], false)) (h : Holds run.memory path []) :
    Simulates run path [] (normalizeFromAt fuel recurAt run path) (normalizeFrom recur []) := by
  obtain ⟨run', s, flag, hrunAt, hrun, hs, hstores⟩ := hrecur
  obtain ⟨rfl, rfl⟩ : [] = s ∧ false = flag := by simpa [hnil] using hrun
  have hstring := h.stringAt (Nat.zero_le fuel)
  refine ⟨run', [], false, ?_, ?_, hs, hstores⟩
  · simp [normalizeFromAt, restoreCouplerAt, hstring, readName, strncmpZero, hrunAt]
  · simp [normalizeFrom, restoreCoupler, readName, strncmpZero, hnil]

/-- Behind the slashes at its start a path is empty or goes on with a name. -/
theorem normalizeFromAt_head (hpos : 0 < fuel)
    (hrecur : ∀ run path p, p.length < fuel → Holds run.memory path p →
      Simulates run path p (normalizeRelativePathAt fuel run path) (normalizeRelativePath fuel p))
    (hfuel : p.length ≤ fuel) (hhead : p.head? ≠ some slash) (h : Holds run.memory path p) :
    Simulates run path p (normalizeFromAt (fuel + 1) (normalizeRelativePathAt fuel) run path)
      (normalizeFrom (normalizeRelativePath fuel) p) := by
  by_cases hempty : p = []
  · subst hempty
    refine normalizeFromAt_nil (hrecur run path [] hpos h) ?_ h
    obtain ⟨fuel, rfl⟩ := Nat.exists_eq_add_of_le' hpos
    rfl
  · obtain ⟨name, tail, rfl, hcut⟩ := exists_cut hempty hhead
    have hname := List.length_pos_iff.mpr hcut.nonempty
    have hlen := afterSlashes_length_le tail
    have hsum : (name ++ tail).length = name.length + tail.length := List.length_append
    refine normalizeFromAt_simulates hcut
      (fun run path p hp hholds => hrecur run path p (by omega) hholds) ?_ h (by omega)
    intro s flag hrun
    obtain ⟨rest, flag', hrun', hle, _⟩ :=
      normalizeRelativePath_length (show (afterSlashes tail).length < fuel by omega)
    rw [hrun, Option.some_inj, Prod.mk.injEq] at hrun'
    exact hrun'.1 ▸ hle

/-- `normalize_relative_path` in the array does what it does with the string. -/
theorem normalizeRelativePathAt_simulates (hfuel : p.length < fuel) (h : Holds run.memory path p) :
    Simulates run path p (normalizeRelativePathAt fuel run path)
      (normalizeRelativePath fuel p) := by
  induction fuel generalizing run path p with
  | zero => omega
  | succ fuel ih =>
    by_cases hempty : p = []
    · subst hempty
      have hzero : run.memory path = 0 := h
      exact ⟨run, [], false, by simp [normalizeRelativePathAt, hzero], rfl, h, Stores.refl run⟩
    · have hpos := List.length_pos_iff.mpr hempty
      have hne : run.memory path ≠ 0 := h.byte_ne (Nat.le_refl _) (by omega)
      obtain ⟨hkept, hmoved, hstores⟩ := restoreCouplerAt_holds h hfuel
      rw [normalizeRelativePathAt, if_neg hne, normalizeRelativePath, if_neg hempty]
      rcases hpair : restoreCouplerAt (fuel + 1) run path with ⟨kept, moved⟩
      simp only [hpair] at hkept hmoved hstores
      by_cases hhead : p.head? = some slash
      · obtain ⟨p, rfl⟩ := exists_slash hhead
        have hlen := afterSlashes_length_le p
        rw [List.length_cons] at hfuel hpos hstores
        rw [restoreCoupler_slash] at hkept hmoved ⊢
        obtain ⟨hbyte, hslash, hafter⟩ := hkept
        simp only at hmoved
        subst hmoved
        obtain ⟨run', s, flag, hrunAt, hrun, hs, hrest⟩ := normalizeFromAt_head (by omega)
          (fun _ _ _ hp hholds => ih hp hholds) (show (afterSlashes p).length ≤ fuel by omega)
          (afterSlashes_head p) hafter
        refine ⟨run', slash :: s, flag, hrunAt, by simp [hrun], ⟨?_, hslash, hs⟩, ?_⟩
        · exact (hrest.frame fun _ hwithin => by have hfirst := hwithin.1; omega).trans hbyte
        · rw [List.length_cons]
          exact hstores.trans (hrest.widen (Nat.le_succ _) (by omega))
      · rw [restoreCoupler_of_head hhead] at hkept hmoved ⊢
        simp only at hkept hmoved
        subst hmoved
        obtain ⟨run', s, flag, hrunAt, hrun, hs, hrest⟩ := normalizeFromAt_head (by omega)
          (fun _ _ _ hp hholds => ih hp hholds) (Nat.lt_succ_iff.mp hfuel) hhead hkept
        exact ⟨run', s, flag, hrunAt, by simp [hrun], hs, hstores.trans hrest⟩

/-- One round of the loop in the array. -/
theorem normalizeLoopAt_succ (hfuel : p.length < fuel) (h : Holds run.memory path p) :
    ∃ kept rest flag, normalizeRelativePath fuel p = some (rest, flag) ∧
      rest.length ≤ p.length ∧ (flag = true → rest.length < p.length) ∧
      Holds kept.memory path rest ∧ Stores (Within path (path + p.length)) run kept ∧
      normalizeLoopAt (fuel + 1) run path = if flag then
        normalizeLoopAt fuel (strncpyAt (shiftUp kept path 3 (rest.length + 1)) path dotDotSlash)
          (path + 3) else some kept := by
  obtain ⟨kept, rest, flag, hrunAt, hrun, hrest, hstores⟩ :=
    normalizeRelativePathAt_simulates hfuel h
  obtain ⟨rest', flag', hrun', hle, hlt⟩ := normalizeRelativePath_length hfuel
  obtain ⟨rfl, rfl⟩ : rest = rest' ∧ flag = flag' := by simpa [hrun] using hrun'
  refine ⟨kept, rest, flag, hrun, hle, hlt, hrest, hstores, ?_⟩
  rw [normalizeLoopAt, hrunAt, Option.bind_some]
  simp only [hrest.stringAt (hle.trans hfuel.le)]

theorem normalizeLoopAt_simulates (hfuel : p.length + 1 < fuel) (h : Holds run.memory path p) :
    ∃ run' left, normalizeLoopAt fuel run path = some run' ∧ normalizeLoop fuel p = some left ∧
      Holds run'.memory path left ∧ Stores (fun place _ => path ≤ place) run run' := by
  induction fuel generalizing run path p with
  | zero => omega
  | succ fuel ih =>
    obtain ⟨kept, rest, flag, hrun, hle, hlt, hrest, hstores, hround⟩ :=
      normalizeLoopAt_succ (show p.length < fuel by omega) h
    have hkept : Stores (fun place _ => path ≤ place) run kept :=
      hstores.mono fun _ _ hwithin => hwithin.1
    rw [hround, normalizeLoop, hrun, Option.bind_some]
    cases flag with
    | true =>
      have hshort := hlt rfl
      obtain ⟨hgrown, hwrites⟩ := grow_holds hrest
      obtain ⟨run', left, hloopAt, hloop, hleft, hlast⟩ :=
        ih (show rest.length + 1 < fuel by omega) (hgrown.tail (s := dotDotSlash))
      refine ⟨run', dotDotSlash ++ left, hloopAt, by simp [hloop],
        hgrown.replace (fun k _ hk => ?_) hleft,
        (hkept.trans (hwrites.mono ?_)).trans (hlast.mono ?_)⟩
      · exact hlast.frame fun _ hplace => by
          have hk' : k < path + 3 := hk
          omega
      · exact fun _ _ hplace => hplace.1
      · exact fun _ _ hplace => by omega
    | false => exact ⟨kept, rest, rfl, rfl, hrest, hkept⟩

/-- `normalize_path` in the array does what it does with the string. -/
theorem normalizePathAt_simulates (hfuel : p.length + 1 < fuel) (h : Holds run.memory 0 p) :
    ∃ run' result, normalizePathAt fuel run = some run' ∧ normalizePath fuel p = some result ∧
      Holds run'.memory 0 result := by
  obtain ⟨kept, left, hloopAt, hloop, hleft, _⟩ := normalizeLoopAt_simulates hfuel h
  have hempty := hleft.stringAt_eq_nil (show 0 < fuel by omega)
  rw [normalizePathAt, normalizePath, hloopAt, hloop, Option.map_some, Option.map_some]
  simp only [List.length_eq_zero_iff, hempty]
  refine ⟨_, _, rfl, rfl, ?_⟩
  split_ifs
  · simp [Holds, strncpyAt, Run.store, Function.update, dot, slash]
  · exact hleft

/-- A string in the array gets shorter in every call that returns 1, and never longer; so the loop
of `normalize_path` comes to its end. -/
theorem normalize_relative_path_shrinks (h : Holds run.memory path s) :
    (∀ fuel, s.length < fuel → ∃ later rest flag,
      normalizeRelativePathAt fuel run path = some (later, flag) ∧ Holds later.memory path rest ∧
        rest.length ≤ s.length ∧ (flag = true → rest.length < s.length)) ∧
      ∀ fuel, s.length + 1 < fuel → ∃ later, normalizeLoopAt fuel run path = some later := by
  constructor
  · intro fuel hfuel
    obtain ⟨later, rest, flag, hrunAt, hrun, hrest, _⟩ :=
      normalizeRelativePathAt_simulates hfuel h
    obtain ⟨rest', flag', hrun', hle, hlt⟩ := normalizeRelativePath_length hfuel
    obtain ⟨rfl, rfl⟩ : rest = rest' ∧ flag = flag' := by simpa [hrun] using hrun'
    exact ⟨later, rest, flag, hrunAt, hrest, hle, hlt⟩
  · intro fuel hfuel
    obtain ⟨later, left, hloopAt, _⟩ := normalizeLoopAt_simulates hfuel h
    exact ⟨later, hloopAt⟩

/-- An array that starts with the string. -/
def stringArray (s : Bytes) : Run := ⟨fun place => s.getD place 0, []⟩

/-- `a/..`, of which nothing is left. -/
theorem normalize_relative_path_shrinks_up :
    (∀ fuel, 4 < fuel → ∃ later rest flag,
      normalizeRelativePathAt fuel (stringArray [97, slash, dot, dot]) 0 = some (later, flag) ∧
        Holds later.memory 0 rest ∧ rest.length ≤ 4 ∧ (flag = true → rest.length < 4)) ∧
      ∀ fuel, 4 + 1 < fuel →
        ∃ later, normalizeLoopAt fuel (stringArray [97, slash, dot, dot]) 0 = some later :=
  normalize_relative_path_shrinks (s := [97, slash, dot, dot])
    (by simp [Holds, stringArray, slash, dot])

end Simulation

end Acos.PathNormal
