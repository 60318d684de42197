import Acos.FileSort.Merge
import Acos.Lib.Lists
import Mathlib.Data.List.Sort

/-! `merge_sort` sorts the part of the file it is called for and leaves the rest of it alone. The
temporary files may hold anything; each level of the recursion writes over them. -/
namespace Acos.FileSort
open Acos.IntBytes Acos.Lists Acos.MachineInt Acos.PosixFile

variable (sched : ℕ → ℕ) {qsort : (ℤ → ℤ → ℤ) → List ℤ → List ℤ}

/-- `qsort` with `cmp` sorts every array whose elements are among the given ones. -/
def Sorts (qsort : (ℤ → ℤ → ℤ) → List ℤ → List ℤ) (xs : List ℤ) : Prop :=
  ∀ buffer : List ℤ, (∀ x ∈ buffer, x ∈ xs) →
    (qsort cmp buffer).Perm buffer ∧ (qsort cmp buffer).Pairwise (· ≤ ·)

/-- In whatever order, `qsort` leaves what was in such an array. -/
def Permutes (qsort : (ℤ → ℤ → ℤ) → List ℤ → List ℤ) (xs : List ℤ) : Prop :=
  ∀ buffer : List ℤ, (∀ x ∈ buffer, x ∈ xs) → (qsort cmp buffer).Perm buffer

theorem sortFileSegment_files {fd k : ℕ} {w : World} {P Q : List UInt8} {xs : List ℤ}
    (hP : P.length = 4 * k) (hdata : (w.files fd).data = P ++ (encodeInts xs ++ Q))
    (hpos : (w.files fd).pos = 4 * k) (hxs : ∀ x ∈ xs, IsInt32 x)
    (hk : k < 2 ^ 61) (hlen : 4 * xs.length < 2 ^ 31) (hqsort : (qsort cmp xs).Perm xs) :
    ∃ w', sortFileSegment sched qsort fd w xs.length = some w' ∧
      (w'.files fd).data = P ++ (encodeInts (qsort cmp xs) ++ Q) := by
  have hcount : (qsort cmp xs).length = xs.length := hqsort.length_eq
  have hahead : encodeInts xs <+: (w.files fd).data.drop (w.files fd).pos := by
    rw [hdata, hpos, ← hP, List.drop_left]
    exact List.prefix_append _ _
  obtain ⟨w1, hread, hupd1⟩ := readInts_updated sched xs hxs (by omega) hahead
  have hmove := move_updated w1 fd (k := k) (by omega)
  rw [hupd1.file] at hmove
  have hfile : (move w1 fd k).files fd = ⟨P ++ (encodeInts xs ++ Q), P.length⟩ := by
    rw [hmove.file, hP, ← hdata]
  obtain ⟨w2, hwrite, hupd2⟩ := writeInts_updated sched fd
    (w := move w1 fd k) (qsort cmp xs) (by omega)
    (by
      rw [hfile]
      show P.length ≤ (P ++ (encodeInts xs ++ Q)).length
      rw [List.length_append]
      omega)
  refine ⟨w2, ?_, ?_⟩
  · have hcurr : (w.files fd).pos / 4 = k := by omega
    rw [sortFileSegment, if_neg (by omega)]
    simp only [hcurr, hread, Option.bind_eq_bind]
    rw [Option.bind_some, hwrite]
  · have hsame : (encodeInts xs).length = (encodeInts (qsort cmp xs)).length := by
      rw [encodeInts_length, encodeInts_length, hcount]
    rw [hupd2.file, hfile]
    exact overwrite_middle hsame

/-- Numbers at the position of the file are copied to the start of a temporary one. -/
theorem copyOut_files {fd temp : ℕ} {p : Process} {P R : List UInt8} {xs : List ℤ}
    (hne : fd ≠ temp) (hlen : 4 * xs.length < 2 ^ 31)
    (hfile : p.world.files fd = ⟨P ++ (encodeInts xs ++ R), P.length⟩)
    (htemp : (p.world.files temp).pos = 0) :
    ∃ p', copyFileSegment sched fd temp p (byteCount xs.length) = some p' ∧
      (p'.world.files fd).data = P ++ (encodeInts xs ++ R) ∧
      encodeInts xs <+: (p'.world.files temp).data ∧
      (∀ k, k ≠ fd → k ≠ temp → p'.world.files k = p.world.files k) ∧
      CopyCall.Exact sched ⟨fd, temp, p, xs.length⟩ := by
  have hahead : encodeInts xs <+: (p.world.files fd).data.drop (p.world.files fd).pos := by
    rw [hfile, List.drop_left]
    exact List.prefix_append _ _
  have hpos : (p.world.files temp).pos ≤ (p.world.files temp).data.length := by
    rw [htemp]
    exact Nat.zero_le _
  obtain ⟨p', hcopy, hdata, htarget, hframe⟩ :=
    copyFileSegment_files sched xs hne hlen hahead hpos
  refine ⟨p', hcopy, hdata.trans (congrArg File.data hfile), ?_, hframe,
    exact_of_ahead sched xs hne rfl hlen hahead hpos⟩
  rw [htarget, htemp, overwrite_of_le (Nat.zero_le _), List.take_zero, List.nil_append]
  exact List.prefix_append _ _

/-- Before the copies: the temporary files are at their starts, the file at the first integer. -/
theorem moved_files {fd t1 t2 left : ℕ} {w : World} {P R : List UInt8} (ht : t1 ≠ t2) (h1 : t1 ≠ fd)
    (h2 : t2 ≠ fd) (hP : P.length = 4 * left) (hdata : (w.files fd).data = P ++ R)
    (hleft : left < 2 ^ 61) :
    ∃ w', move (move (move w t1 0) t2 0) fd left = w' ∧ w'.files fd = ⟨P ++ R, P.length⟩ ∧
      (w'.files t1).pos = 0 ∧ (w'.files t2).pos = 0 := by
  have hm1 := move_updated w t1 (k := 0) (by omega)
  have hm2 := move_updated (move w t1 0) t2 (k := 0) (by omega)
  rw [Nat.cast_zero] at hm1 hm2
  have hm3 := move_updated (move (move w t1 0) t2 0) fd (k := left) hleft
  refine ⟨_, rfl, ?_, ?_, ?_⟩
  · rw [hm3.file, hm2.frame fd (Ne.symm h2), hm1.frame fd (Ne.symm h1), hdata, hP]
  · rw [hm3.frame t1 h1, hm2.frame t1 ht, hm1.file]
  · rw [hm3.frame t2 h2, hm2.file]

/-- Both halves are in place: they are copied out, and merged back over their place. -/
theorem mergeHalves_files {fd t1 t2 left : ℕ} {p : Process} {P Q : List UInt8} {A B : List ℤ}
    (ht : t1 ≠ t2) (h1 : t1 ≠ fd) (h2 : t2 ≠ fd) (hP : P.length = 4 * left)
    (hdata : (p.world.files fd).data = P ++ (encodeInts (A ++ B) ++ Q))
    (hA : ∀ x ∈ A, IsInt32 x) (hB : ∀ x ∈ B, IsInt32 x)
    (hright : left + A.length < 2 ^ 61) (hlen1 : 4 * A.length < 2 ^ 31)
    (hlen2 : 4 * B.length < 2 ^ 31) :
    ∃ p1 p2 p3,
      copyFileSegment sched fd t1
        ⟨move (move (move p.world t1 0) t2 0) fd left, p.mainBuffer⟩ (byteCount A.length) =
          some p1 ∧
      copyFileSegment sched fd t2 ⟨move p1.world fd (left + A.length : ℕ), p1.mainBuffer⟩
        (byteCount B.length) = some p2 ∧
      mergeFiles sched t1 A.length t2 B.length fd ⟨move p2.world fd left, p2.mainBuffer⟩ =
        some p3 ∧
      (p3.world.files fd).data = P ++ (encodeInts (List.merge A B) ++ Q) ∧
      CopyCall.Exact sched
        ⟨fd, t1, ⟨move (move (move p.world t1 0) t2 0) fd left, p.mainBuffer⟩, A.length⟩ ∧
      CopyCall.Exact sched
        ⟨fd, t2, ⟨move p1.world fd (left + A.length : ℕ), p1.mainBuffer⟩, B.length⟩ ∧
      ∀ c ∈ mergeFilesCalls sched t1 A.length t2 B.length fd
        ⟨move p2.world fd left, p2.mainBuffer⟩, c.Exact sched := by
  rw [encodeInts_append, List.append_assoc] at hdata
  obtain ⟨w, hw, hfd, ht1, ht2⟩ := moved_files ht h1 h2 hP hdata (by omega)
  -- the first half goes to `t1`
  obtain ⟨p1, hcopy1, hdata1, htarget1, hframe1, hexact1⟩ :=
    copyOut_files sched (p := ⟨w, p.mainBuffer⟩) (Ne.symm h1) hlen1 hfd ht1
  have hm4 := move_updated p1.world fd (k := left + A.length) (by omega)
  obtain ⟨w4, hw4⟩ : ∃ w4, move p1.world fd (left + A.length : ℕ) = w4 := ⟨_, rfl⟩
  rw [hw4, hdata1] at hm4
  have hfd4 : w4.files fd =
      ⟨(P ++ encodeInts A) ++ (encodeInts B ++ Q), (P ++ encodeInts A).length⟩ := by
    rw [hm4.file, List.append_assoc, List.length_append, encodeInts_length, hP, Nat.mul_add]
  have ht24 : (w4.files t2).pos = 0 := by
    rw [hm4.frame t2 h2, hframe1 t2 h2 (Ne.symm ht), ht2]
  -- the second half goes to `t2`
  obtain ⟨p2, hcopy2, hdata2, htarget2, hframe2, hexact2⟩ :=
    copyOut_files sched (p := ⟨w4, p1.mainBuffer⟩) (Ne.symm h2) hlen2 hfd4 ht24
  have hm5 := move_updated p2.world fd (k := left) (by omega)
  obtain ⟨w5, hw5⟩ : ∃ w5, move p2.world fd left = w5 := ⟨_, rfl⟩
  rw [hw5, hdata2] at hm5
  have hleft : encodeInts A <+: (w5.files t1).data := by
    rw [hm5.frame t1 h1, hframe2 t1 h1 ht, hm4.frame t1 h1]
    exact htarget1
  have hright : encodeInts B <+: (w5.files t2).data := by
    rw [hm5.frame t2 h2]
    exact htarget2
  have hfd5 : w5.files fd = ⟨P ++ (encodeInts (A ++ B) ++ Q), P.length⟩ := by
    rw [hm5.file, hP, encodeInts_append, List.append_assoc, List.append_assoc]
  -- both come back merged
  obtain ⟨⟨p3, hmerge, hresult⟩, hexact3⟩ := mergeFiles_files sched (p := ⟨w5, p2.mainBuffer⟩)
    ht h1 h2 hA hB hlen1 hlen2 hleft hright
    (by
      show (w5.files fd).pos ≤ (w5.files fd).data.length
      rw [hfd5, List.length_append]
      exact Nat.le_add_right _ _)
  simp only [hfd5] at hresult
  rw [hw]
  refine ⟨p1, p2, p3, hcopy1, ?_, ?_, ?_, hexact1, ?_, ?_⟩
  · rw [hw4]
    exact hcopy2
  · rw [hw5]
    exact hmerge
  · rw [hresult]
    apply overwrite_middle
    rw [encodeInts_length, encodeInts_length, List.length_merge, List.length_append]
  · rw [hw4]
    exact hexact2
  · rw [hw5]
    exact hexact3

theorem mergeSort_split {fd t1 t2 fuel : ℕ} {p p1 p2 p3 p4 p5 : Process} {left right mid : ℤ}
    (h : ¬right - left ≤ segmentSize) (hmid : left + (right - left) / 2 = mid)
    (hsort1 : mergeSort sched qsort fd t1 t2 fuel p left mid = some p1)
    (hsort2 : mergeSort sched qsort fd t1 t2 fuel p1 mid right = some p2)
    (hcopy1 : copyFileSegment sched fd t1
      ⟨move (move (move p2.world t1 0) t2 0) fd left, p2.mainBuffer⟩ (byteCount (mid - left)) =
        some p3)
    (hcopy2 : copyFileSegment sched fd t2 ⟨move p3.world fd mid, p3.mainBuffer⟩
      (byteCount (right - mid)) = some p4)
    (hmerge : mergeFiles sched t1 (mid - left) t2 (right - mid) fd
      ⟨move p4.world fd left, p4.mainBuffer⟩ = some p5) :
    mergeSort sched qsort fd t1 t2 (fuel + 1) p left right = some p5 := by
  rw [mergeSort, if_neg h]
  dsimp only
  rw [hmid, hsort1, Option.bind_eq_bind, Option.bind_some, hsort2, Option.bind_some, hcopy1,
    Option.bind_some, hcopy2, Option.bind_some, hmerge]

/-- The calls of the two halves, the two copies, and the call of `merge_files`. -/
theorem mergeSortCalls_split {fd t1 t2 fuel : ℕ} {p p1 p2 p3 p4 : Process} {left right mid : ℤ}
    (h : ¬right - left ≤ segmentSize) (hmid : left + (right - left) / 2 = mid)
    (hsort1 : mergeSort sched qsort fd t1 t2 fuel p left mid = some p1)
    (hsort2 : mergeSort sched qsort fd t1 t2 fuel p1 mid right = some p2)
    (hcopy1 : copyFileSegment sched fd t1
      ⟨move (move (move p2.world t1 0) t2 0) fd left, p2.mainBuffer⟩ (byteCount (mid - left)) =
        some p3)
    (hcopy2 : copyFileSegment sched fd t2 ⟨move p3.world fd mid, p3.mainBuffer⟩
      (byteCount (right - mid)) = some p4) :
    mergeSortCalls sched qsort fd t1 t2 (fuel + 1) p left right =
      mergeSortCalls sched qsort fd t1 t2 fuel p left mid ++
        (mergeSortCalls sched qsort fd t1 t2 fuel p1 mid right ++
          ⟨fd, t1, ⟨move (move (move p2.world t1 0) t2 0) fd left, p2.mainBuffer⟩, mid - left⟩ ::
          ⟨fd, t2, ⟨move p3.world fd mid, p3.mainBuffer⟩, right - mid⟩ ::
            mergeFilesCalls sched t1 (mid - left) t2 (right - mid) fd
              ⟨move p4.world fd left, p4.mainBuffer⟩) := by
  rw [mergeSortCalls, if_neg h]
  dsimp only
  rw [hmid, hsort1, Option.elim_some, hsort2, Option.elim_some, CopyCall.run, hcopy1,
    Option.elim_some, CopyCall.run, hcopy2, Option.elim_some]

/-- `merge_sort` permutes the integers between `left` and `right`, and sorts them if `qsort` sorts;
where there are not too many of them, all its copies are exact. -/
theorem mergeSort_files {fd t1 t2 fuel left : ℕ} {p : Process} {P Q : List UInt8}
    {xs all : List ℤ} (ht : t1 ≠ t2) (h1 : t1 ≠ fd) (h2 : t2 ≠ fd) (hqsort : Permutes qsort all)
    (hall : ∀ x ∈ all, IsInt32 x) (hsub : ∀ x ∈ xs, x ∈ all) (hP : P.length = 4 * left)
    (hdata : (p.world.files fd).data = P ++ (encodeInts xs ++ Q))
    (hend : left + xs.length < 2 ^ 61) (hlen : xs.length + 2 ≤ 2 ^ 30) (hfuel : xs.length < fuel) :
    ∃ p' ys, mergeSort sched qsort fd t1 t2 fuel p left (left + xs.length) = some p' ∧
      (p'.world.files fd).data = P ++ (encodeInts ys ++ Q) ∧ ys.Perm xs ∧
      (Sorts qsort all → ys.Pairwise (· ≤ ·)) ∧
      ∀ c ∈ mergeSortCalls sched qsort fd t1 t2 fuel p left (left + xs.length), c.Exact sched := by
  induction fuel generalizing p P Q xs left with
  | zero => omega
  | succ fuel ih =>
    have hxs : ∀ x ∈ xs, IsInt32 x := fun x hx => hall x (hsub x hx)
    have hsize : (left + xs.length : ℤ) - left = xs.length := by omega
    by_cases hsmall : xs.length ≤ 10000
    · have hperm := hqsort xs hsub
      have hmove := move_updated p.world fd (k := left) (by omega)
      rw [hdata] at hmove
      obtain ⟨w', hsort, hresult⟩ := sortFileSegment_files sched (w := move p.world fd left)
        hP (by rw [hmove.file]) (by rw [hmove.file]) hxs (by omega) (by omega) hperm
      have hle : (left + xs.length : ℤ) - left ≤ segmentSize := by
        rw [hsize]
        unfold segmentSize
        omega
      refine ⟨⟨w', p.mainBuffer⟩, qsort cmp xs, ?_, hresult, hperm,
        fun hsorts => (hsorts xs hsub).2, ?_⟩
      · rw [mergeSort, if_pos hle, hsize, hsort, Option.map_some]
      · rw [mergeSortCalls, if_pos hle]
        exact fun c hc => absurd hc List.not_mem_nil
    -- the two halves
    obtain ⟨A, B, rfl, hA⟩ : ∃ A B, xs = A ++ B ∧ A.length = xs.length / 2 :=
      ⟨xs.take (xs.length / 2), xs.drop (xs.length / 2), (List.take_append_drop _ _).symm, by
        rw [List.length_take]
        omega⟩
    rw [List.length_append] at hA hlen hend hfuel hsmall hsize
    rw [encodeInts_append, List.append_assoc] at hdata
    obtain ⟨p1, A', hsort1, hdata1, hpermA, hsortedA, hcalls1⟩ := @ih left p P (encodeInts B ++ Q) A
      (fun x hx => hsub x (List.mem_append_left B hx)) hP hdata (by omega) (by omega) (by omega)
    have hlenA : A'.length = A.length := hpermA.length_eq
    obtain ⟨p2, B', hsort2, hdata2, hpermB, hsortedB, hcalls2⟩ := @ih (left + A.length) p1
      (P ++ encodeInts A') Q B
      (fun x hx => hsub x (List.mem_append_right A hx))
      (by rw [List.length_append, encodeInts_length]; omega)
      (by rw [hdata1, List.append_assoc]) (by omega) (by omega) (by omega)
    have hlenB : B'.length = B.length := hpermB.length_eq
    obtain ⟨p3, p4, p5, hcopy1, hcopy2, hmerge, hresult, hexact1, hexact2, hexact3⟩ :=
      mergeHalves_files sched (p := p2) (A := A') (B := B') ht h1 h2 hP
        (by rw [hdata2, encodeInts_append, List.append_assoc, List.append_assoc])
        (fun x hx => hxs x (List.mem_append_left B (hpermA.subset hx)))
        (fun x hx => hxs x (List.mem_append_right A (hpermB.subset hx))) (by omega) (by omega)
        (by omega)
    rw [hlenA] at hcopy1 hcopy2 hmerge hexact1 hexact2 hexact3
    rw [hlenB] at hcopy2 hmerge hexact2 hexact3
    have hmerged : (List.merge A' B').Perm (A' ++ B') := List.merge_perm_append _
    have hperm : (List.merge A' B').Perm (A ++ B) := hmerged.trans (hpermA.append hpermB)
    have hright : ((left + A.length : ℕ) + B.length : ℤ) = left + (A ++ B).length := by
      rw [List.length_append]
      omega
    have hfirst : ((left + A.length : ℕ) : ℤ) - left = A.length := by omega
    have hsecond : (left + (A ++ B).length : ℤ) - (left + A.length : ℕ) = B.length := by omega
    have hmiddle : (left : ℤ) + A.length = (left + A.length : ℕ) := by omega
    have hlarge : ¬(left + (A ++ B).length : ℤ) - left ≤ segmentSize := by
      unfold segmentSize
      omega
    have hmid : (left : ℤ) + ((left + (A ++ B).length : ℤ) - left) / 2 = (left + A.length : ℕ) := by
      omega
    rw [hmiddle] at hsort1 hcalls1
    rw [hright] at hsort2 hcalls2
    rw [← hfirst] at hcopy1 hmerge hexact1 hexact3
    rw [← hsecond] at hcopy2 hmerge hexact2 hexact3
    refine ⟨p5, List.merge A' B', ?_, hresult, hperm,
      fun hsorts => merge_sorted (hsortedA hsorts) (hsortedB hsorts), ?_⟩
    · exact mergeSort_split sched hlarge hmid hsort1 hsort2 hcopy1 hcopy2 hmerge
    · rw [mergeSortCalls_split sched hlarge hmid hsort1 hsort2 hcopy1 hcopy2]
      intro c hc
      rcases List.mem_append.mp hc with hc | hc
      · exact hcalls1 c hc
      rcases List.mem_append.mp hc with hc | hc
      · exact hcalls2 c hc
      rcases List.mem_cons.mp hc with rfl | hc
      · exact hexact1
      rcases List.mem_cons.mp hc with rfl | hc
      · exact hexact2
      · exact hexact3 c hc

/-- For every file that begins with `n` integers, whatever the transfers and the temporary files
are like, the sort ends; then the integers are in order, and the rest of the file is as before. -/
theorem merge_sort_sorts_file (qsort : (ℤ → ℤ → ℤ) → List ℤ → List ℤ)
    (p : Process) (fd t1 t2 n fuel : ℕ) (ht : t1 ≠ t2) (h1 : t1 ≠ fd) (h2 : t2 ≠ fd)
    (hn : 4 * n < 2 ^ 31) (hsize : 4 * n ≤ (p.world.files fd).data.length)
    (hqsort : Sorts qsort (decodeInts ((p.world.files fd).data.take (4 * n)))) (hfuel : n < fuel) :
    ∃ p', mergeSort sched qsort fd t1 t2 fuel p 0 n = some p' ∧
      (decodeInts ((p'.world.files fd).data.take (4 * n))).Perm
        (decodeInts ((p.world.files fd).data.take (4 * n))) ∧
      (decodeInts ((p'.world.files fd).data.take (4 * n))).Pairwise (· ≤ ·) ∧
      (p'.world.files fd).data.drop (4 * n) = (p.world.files fd).data.drop (4 * n) := by
  have htake : ((p.world.files fd).data.take (4 * n)).length = 4 * n := by
    rw [List.length_take]
    omega
  obtain ⟨hencode, hcount, hrange⟩ := exists_encodeInts htake
  obtain ⟨xs, hxs⟩ : ∃ xs, decodeInts ((p.world.files fd).data.take (4 * n)) = xs := ⟨_, rfl⟩
  rw [hxs] at hencode hcount hrange hqsort ⊢
  obtain ⟨p', ys, hsort, hdata, hperm, hsorted, -⟩ := @mergeSort_files sched qsort fd t1
    t2 fuel 0 p [] ((p.world.files fd).data.drop (4 * n)) xs xs ht h1 h2
    (fun buffer hbuffer => (hqsort buffer hbuffer).1) hrange (fun x hx => hx) rfl
    (by rw [hencode, List.nil_append, List.take_append_drop]) (by omega) (by omega) (by omega)
  rw [Nat.cast_zero, zero_add, hcount] at hsort
  rw [List.nil_append] at hdata
  have hlen : (encodeInts ys).length = 4 * n := by
    rw [encodeInts_length, hperm.length_eq, hcount]
  have hfront : (p'.world.files fd).data.take (4 * n) = encodeInts ys := by
    rw [hdata, ← hlen, List.take_left]
  have hints : decodeInts (encodeInts ys) = ys :=
    decodeInts_encodeInts fun y hy => hrange y (hperm.subset hy)
  refine ⟨p', hsort, ?_, ?_, ?_⟩
  · rw [hfront, hints]
    exact hperm
  · rw [hfront, hints]
    exact hsorted hqsort
  · rw [hdata, ← hlen, List.drop_left]

/-- An insertion sort under the name of the library's. -/
def insertionQsort (cmp : ℤ → ℤ → ℤ) (xs : List ℤ) : List ℤ :=
  xs.insertionSort fun a b => cmp a b ≤ 0

theorem insertionQsort_sorts {xs : List ℤ} (h : ∀ a ∈ xs, ∀ b ∈ xs, cmp a b ≤ 0 ↔ a ≤ b) :
    Sorts insertionQsort xs := by
  intro buffer hbuffer
  have hsame : insertionQsort cmp buffer = buffer.insertionSort (· ≤ ·) := by
    have hmap := List.map_insertionSort (r := fun a b => cmp a b ≤ 0) (s := (· ≤ ·)) id buffer
      fun a ha b hb => h a (hbuffer a ha) b (hbuffer b hb)
    rw [List.map_id, List.map_id] at hmap
    exact hmap
  rw [hsame]
  exact ⟨List.perm_insertionSort (· ≤ ·) buffer, List.pairwise_insertionSort (· ≤ ·) buffer⟩

/-- The integers from `n` down to one. -/
def falling (n : ℕ) : List ℤ := (List.range n).map fun i : ℕ => (n : ℤ) - i

@[simp] theorem falling_length (n : ℕ) : (falling n).length = n := by
  rw [falling, List.length_map, List.length_range]

theorem mem_falling {n : ℕ} {x : ℤ} (h : x ∈ falling n) : 0 ≤ x ∧ x ≤ n := by
  obtain ⟨i, hi, rfl⟩ := List.mem_map.mp h
  have hlt : i < n := List.mem_range.mp hi
  omega

/-- A file of `n` falling integers and one more byte, and two empty ones. -/
def fallingFile (n : ℕ) : Process :=
  ⟨⟨fun fd => if fd = 0 then ⟨encodeInts (falling n) ++ [9], 0⟩ else ⟨[], 0⟩, 0⟩, []⟩

theorem fallingFile_data (n : ℕ) :
    ((fallingFile n).world.files 0).data = encodeInts (falling n) ++ [9] := rfl

theorem fallingFile_size (n : ℕ) : 4 * n ≤ ((fallingFile n).world.files 0).data.length := by
  rw [fallingFile_data, List.length_append, encodeInts_length, falling_length]
  omega

theorem falling_isInt32 {n : ℕ} (hn : n < 2 ^ 31) : ∀ x ∈ falling n, IsInt32 x := by
  intro x hx
  have hbounds := mem_falling hx
  unfold IsInt32
  omega

theorem fallingFile_ints {n : ℕ} (hn : n < 2 ^ 31) :
    decodeInts (((fallingFile n).world.files 0).data.take (4 * n)) = falling n := by
  have hlen : (encodeInts (falling n)).length = 4 * n := by
    rw [encodeInts_length, falling_length]
  rw [fallingFile_data, ← hlen, List.take_left, decodeInts_encodeInts (falling_isInt32 hn)]

/-- The difference of two falling integers is an `int`, so `cmp` compares them. -/
theorem cmp_falling {n : ℕ} (hn : n < 2 ^ 31) :
    ∀ a ∈ falling n, ∀ b ∈ falling n, cmp a b ≤ 0 ↔ a ≤ b := by
  intro a ha b hb
  have hboundsA := mem_falling ha
  have hboundsB := mem_falling hb
  rw [cmp, i32_of_range (by omega) (by omega)]
  omega

/-- Four segments are sorted and merged twice. -/
theorem merge_sort_four_segments :
    ∃ p', mergeSort (fun i => i) insertionQsort 0 1 2 40000 (fallingFile 30000) 0 (30000 : ℕ) =
        some p' ∧
      (decodeInts ((p'.world.files 0).data.take (4 * 30000))).Perm
        (decodeInts (((fallingFile 30000).world.files 0).data.take (4 * 30000))) ∧
      (decodeInts ((p'.world.files 0).data.take (4 * 30000))).Pairwise (· ≤ ·) ∧
      (p'.world.files 0).data.drop (4 * 30000) =
        ((fallingFile 30000).world.files 0).data.drop (4 * 30000) := by
  have hsorts : Sorts insertionQsort
      (decodeInts (((fallingFile 30000).world.files 0).data.take (4 * 30000))) := by
    rw [fallingFile_ints (by decide)]
    exact insertionQsort_sorts (cmp_falling (by decide))
  exact merge_sort_sorts_file (fun i => i) insertionQsort (fallingFile 30000) 0 1 2 30000 40000
    (by decide) (by decide) (by decide) (by decide) (fallingFile_size 30000) hsorts (by decide)

end Acos.FileSort
