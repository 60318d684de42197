import Acos.FileSort.Copies

/-! Merging two files window by window. What the files hold ahead of their offsets is what is left
to merge. -/
namespace Acos.FileSort
open Acos.IntBytes Acos.MachineInt Acos.PosixFile

variable (sched : ℕ → ℕ)

theorem merge_counts (L R : List ℤ) :
    (merge L R).2.1 ≤ L.length ∧ (merge L R).2.2 ≤ R.length ∧
      (merge L R).1.length = (merge L R).2.1 + (merge L R).2.2 ∧
      (L ≠ [] → R ≠ [] → 0 < (merge L R).1.length) := by
  fun_induction merge L R with
  | case1 l L r R hle arr left right heq ih =>
    rw [heq] at ih
    simp only [List.length_cons] at ih ⊢
    omega
  | case2 l L r R hle arr left right heq ih =>
    rw [heq] at ih
    simp only [List.length_cons] at ih ⊢
    omega
  | case3 L R h =>
    refine ⟨Nat.zero_le _, Nat.zero_le _, rfl, fun hL hR => ?_⟩
    obtain ⟨l, L', rfl⟩ := List.exists_cons_of_ne_nil hL
    obtain ⟨r, R', rfl⟩ := List.exists_cons_of_ne_nil hR
    exact absurd rfl (h l L' r R' rfl)

/-- A merge of two windows is the front of the merge of the lists they start. -/
theorem merge_windows (L R X Y : List ℤ) :
    List.merge (L ++ X) (R ++ Y) =
      (merge L R).1 ++ List.merge (L.drop (merge L R).2.1 ++ X) (R.drop (merge L R).2.2 ++ Y) := by
  fun_induction merge L R with
  | case1 l L r R hle arr left right heq ih =>
    rw [heq] at ih
    rw [List.cons_append, List.cons_append, List.cons_merge_cons, if_pos (by simpa using hle),
      ← List.cons_append, ih]
    rfl
  | case2 l L r R hle arr left right heq ih =>
    rw [heq] at ih
    rw [List.cons_append, List.cons_append, List.cons_merge_cons, if_neg (by simpa using hle),
      ← List.cons_append, ih]
    rfl
  | case3 L R h => rfl

/-- A merge of two windows uses a part of each, and is the front of the merge of the lists. -/
theorem merge_front {L R out : List ℤ} {n1 n2 left right : ℕ} (hn1 : n1 ≤ L.length)
    (hn2 : n2 ≤ R.length) (h : merge (L.take n1) (R.take n2) = (out, left, right)) :
    left ≤ n1 ∧ right ≤ n2 ∧ out.length = left + right ∧ (0 < n1 → 0 < n2 → 0 < out.length) ∧
      List.merge L R = out ++ List.merge (L.drop left) (R.drop right) := by
  have htake1 : (L.take n1).length = n1 := by rw [List.length_take, min_eq_left hn1]
  have htake2 : (R.take n2).length = n2 := by rw [List.length_take, min_eq_left hn2]
  obtain ⟨hused1, hused2, hcount, hsome⟩ := merge_counts (L.take n1) (R.take n2)
  have hwindows := merge_windows (L.take n1) (R.take n2) (L.drop n1) (R.drop n2)
  rw [h] at hused1 hused2 hcount hsome hwindows
  rw [← List.drop_append_of_le_length hused1, ← List.drop_append_of_le_length hused2,
    List.take_append_drop, List.take_append_drop] at hwindows
  rw [htake1] at hused1
  rw [htake2] at hused2
  refine ⟨hused1, hused2, hcount, fun hpos1 hpos2 => ?_, hwindows⟩
  exact hsome (List.ne_nil_of_length_pos (by omega)) (List.ne_nil_of_length_pos (by omega))

theorem merge_used_up (L R : List ℤ) (h : L = [] ∨ R = []) : List.merge L R = L ++ R := by
  rcases h with h | h
  · rw [h, List.nil_append]
    simp
  · rw [h, List.append_nil]
    simp

theorem encodeInts_take_ahead {file : File} {xs : List ℤ} (n : ℕ)
    (h : encodeInts xs <+: file.data.drop file.pos) :
    encodeInts (xs.take n) <+: file.data.drop file.pos := by
  rw [← List.take_append_drop n xs, encodeInts_append] at h
  exact (List.prefix_append _ _).trans h

theorem encodeInts_drop_ahead {file : File} {xs : List ℤ} {n : ℕ} (hn : n ≤ xs.length)
    (h : encodeInts xs <+: file.data.drop file.pos) :
    encodeInts (xs.drop n) <+: file.data.drop (file.pos + 4 * n) := by
  have hlen : (encodeInts (xs.take n)).length = 4 * n := by
    rw [encodeInts_length, List.length_take, min_eq_left hn]
  rw [← List.take_append_drop n xs, encodeInts_append] at h
  have hdrop := h.drop (4 * n)
  rw [← hlen, List.drop_left, hlen, List.drop_drop] at hdrop
  exact hdrop

/-- Going back over the part of a window of `n` integers that was not used. -/
theorem seekBack_updated {w : World} {fd n used : ℕ} (hused : used ≤ n) (hn : n < 2 ^ 31)
    {file : File} (hfile : w.files fd = ⟨file.data, file.pos + 4 * n⟩) :
    Updated w (w.seekCur fd (byteOffset (-((n : ℤ) - used)))) fd
      ⟨file.data, file.pos + 4 * used⟩ := by
  have hoffset : byteOffset (-((n : ℤ) - used)) = -(4 * (n - used) : ℕ) := by
    rw [byteOffset_of_range (by omega) (by omega)]
    omega
  have hback := seekCur_updated w fd (4 * (n - used))
    (by rw [hfile]; show _ ≤ file.pos + 4 * n; omega)
  rw [hfile] at hback
  have hpos : file.pos + 4 * n - 4 * (n - used) = file.pos + 4 * used := by omega
  simp only [hpos] at hback
  rw [hoffset]
  exact hback

theorem mergeLoop_step {fd1 fd2 fdOut fuel left right : ℕ} {w w1 w2 w' : World} {size1 size2 : ℤ}
    {buff1 buff2 out : List ℤ} (hsizes : ¬(size1 = 0 ∨ size2 = 0))
    (hread1 : readInts sched fd1 w (min size1 bufferSize) = some (w1, buff1))
    (hread2 : readInts sched fd2 w1 (min size2 bufferSize) = some (w2, buff2))
    (hmerge : merge buff1 buff2 = (out, left, right))
    (hwrite : writeInts sched fdOut
      ((w2.seekCur fd1 (byteOffset (-(min size1 bufferSize - left)))).seekCur fd2
        (byteOffset (-(min size2 bufferSize - right)))) out = some w') :
    mergeLoop sched fd1 fd2 fdOut (fuel + 1) w size1 size2 =
      mergeLoop sched fd1 fd2 fdOut fuel w' (size1 - left) (size2 - right) := by
  rw [mergeLoop, if_neg hsizes]
  simp only [hread1]
  rw [Option.bind_eq_bind, Option.bind_some]
  dsimp only
  rw [hread2, Option.bind_some]
  dsimp only
  rw [hmerge]
  dsimp only
  rw [hwrite, Option.bind_eq_bind, Option.bind_some]

/-- One round merges what it can of two windows and moves the files behind what it has used. -/
theorem mergeLoop_round {fd1 fd2 fdOut : ℕ} {w : World} {L R : List ℤ} (fuel : ℕ) (h12 : fd1 ≠ fd2)
    (h1 : fd1 ≠ fdOut) (h2 : fd2 ≠ fdOut) (hne1 : L ≠ []) (hne2 : R ≠ [])
    (hL : ∀ x ∈ L, IsInt32 x) (hR : ∀ x ∈ R, IsInt32 x)
    (hlen1 : 4 * L.length < 2 ^ 31) (hlen2 : 4 * R.length < 2 ^ 31)
    (hahead1 : encodeInts L <+: (w.files fd1).data.drop (w.files fd1).pos)
    (hahead2 : encodeInts R <+: (w.files fd2).data.drop (w.files fd2).pos)
    (hpos : (w.files fdOut).pos ≤ (w.files fdOut).data.length) :
    ∃ w' out left right,
      mergeLoop sched fd1 fd2 fdOut (fuel + 1) w L.length R.length =
        mergeLoop sched fd1 fd2 fdOut fuel w' (L.drop left).length (R.drop right).length ∧
      left ≤ L.length ∧ right ≤ R.length ∧ 0 < out.length ∧ out.length = left + right ∧
      List.merge L R = out ++ List.merge (L.drop left) (R.drop right) ∧
      w'.files fd1 = ⟨(w.files fd1).data, (w.files fd1).pos + 4 * left⟩ ∧
      w'.files fd2 = ⟨(w.files fd2).data, (w.files fd2).pos + 4 * right⟩ ∧
      w'.files fdOut = ⟨overwrite (w.files fdOut).data (w.files fdOut).pos (encodeInts out),
        (w.files fdOut).pos + 4 * out.length⟩ := by
  have hlen1 := List.length_pos_iff.mpr hne1
  have hlen2 := List.length_pos_iff.mpr hne2
  obtain ⟨n1, hn1⟩ : ∃ n, n = min L.length 10000 := ⟨_, rfl⟩
  obtain ⟨n2, hn2⟩ : ∃ n, n = min R.length 10000 := ⟨_, rfl⟩
  have hp1 : min (L.length : ℤ) bufferSize = n1 := by rw [hn1, min_bufferSize]
  have hp2 : min (R.length : ℤ) bufferSize = n2 := by rw [hn2, min_bufferSize]
  have htake1 : (L.take n1).length = n1 := by
    rw [List.length_take]
    omega
  have htake2 : (R.take n2).length = n2 := by
    rw [List.length_take]
    omega
  obtain ⟨⟨out, left, right⟩, hmerge⟩ : ∃ r, merge (L.take n1) (R.take n2) = r := ⟨_, rfl⟩
  obtain ⟨hused1, hused2, hcount, hprogress, hwindows⟩ :=
    merge_front (by omega) (by omega) hmerge
  -- the two windows are read
  obtain ⟨w1, hread1, hupd1⟩ := readInts_updated sched (L.take n1)
    (fun x hx => hL x (List.mem_of_mem_take hx)) (by omega)
    (encodeInts_take_ahead n1 hahead1)
  have hfile2 := hupd1.frame fd2 (Ne.symm h12)
  obtain ⟨w2, hread2, hupd2⟩ := readInts_updated sched (w := w1)
    (R.take n2) (fun x hx => hR x (List.mem_of_mem_take hx)) (by omega)
    (by rw [hfile2]; exact encodeInts_take_ahead n2 hahead2)
  rw [htake1] at hread1 hupd1
  rw [htake2, hfile2] at hupd2
  rw [htake2] at hread2
  -- the files go back to what was not used
  have hback1 := seekBack_updated hused1 (by omega) ((hupd2.frame fd1 h12).trans hupd1.file)
  have hback2 := seekBack_updated hused2 (by omega)
    ((hback1.frame fd2 (Ne.symm h12)).trans hupd2.file)
  obtain ⟨w3, hw3⟩ : ∃ w3, w2.seekCur fd1 (byteOffset (-((n1 : ℤ) - left))) = w3 := ⟨_, rfl⟩
  rw [hw3] at hback1 hback2
  obtain ⟨w4, hw4⟩ : ∃ w4, w3.seekCur fd2 (byteOffset (-((n2 : ℤ) - right))) = w4 := ⟨_, rfl⟩
  rw [hw4] at hback2
  have hout4 : w4.files fdOut = w.files fdOut := by
    rw [hback2.frame fdOut (Ne.symm h2), hback1.frame fdOut (Ne.symm h1),
      hupd2.frame fdOut (Ne.symm h2), hupd1.frame fdOut (Ne.symm h1)]
  -- what was merged is written
  obtain ⟨w5, hwrite, hupd5⟩ := writeInts_updated sched fdOut (w := w4) out
    (by omega) (by rwa [hout4])
  rw [hout4] at hupd5
  refine ⟨w5, out, left, right, ?_, by omega, by omega, hprogress (by omega) (by omega), hcount,
    hwindows, ?_, ?_, hupd5.file⟩
  · have hsize1 : ((L.drop left).length : ℤ) = L.length - left := by
      rw [List.length_drop]
      omega
    have hsize2 : ((R.drop right).length : ℤ) = R.length - right := by
      rw [List.length_drop]
      omega
    rw [mergeLoop_step sched (by simp [hne1, hne2]) (by rw [hp1]; exact hread1)
      (by rw [hp2]; exact hread2) hmerge (by rw [hp1, hp2, hw3, hw4]; exact hwrite), hsize1, hsize2]
  · rw [hupd5.frame fd1 h1, hback2.frame fd1 h12, hback1.file]
  · rw [hupd5.frame fd2 h2, hback2.file]

theorem mergeLoop_files {fd1 fd2 fdOut fuel : ℕ} {w : World} {L R : List ℤ} (h12 : fd1 ≠ fd2)
    (h1 : fd1 ≠ fdOut) (h2 : fd2 ≠ fdOut) (hfuel : L.length + R.length ≤ fuel)
    (hL : ∀ x ∈ L, IsInt32 x) (hR : ∀ x ∈ R, IsInt32 x)
    (hlen1 : 4 * L.length < 2 ^ 31) (hlen2 : 4 * R.length < 2 ^ 31)
    (hahead1 : encodeInts L <+: (w.files fd1).data.drop (w.files fd1).pos)
    (hahead2 : encodeInts R <+: (w.files fd2).data.drop (w.files fd2).pos)
    (hpos : (w.files fdOut).pos ≤ (w.files fdOut).data.length) :
    ∃ w' out L' R',
      mergeLoop sched fd1 fd2 fdOut fuel w L.length R.length =
        some (w', (L'.length : ℤ), (R'.length : ℤ)) ∧
      (L' = [] ∨ R' = []) ∧ L' <:+ L ∧ R' <:+ R ∧ List.merge L R = out ++ (L' ++ R') ∧
      encodeInts L' <+: (w'.files fd1).data.drop (w'.files fd1).pos ∧
      encodeInts R' <+: (w'.files fd2).data.drop (w'.files fd2).pos ∧
      w'.files fdOut = ⟨overwrite (w.files fdOut).data (w.files fdOut).pos (encodeInts out),
        (w.files fdOut).pos + 4 * out.length⟩ := by
  induction fuel generalizing w L R with
  | zero =>
    have hnil : L = [] := List.length_eq_zero_iff.mp (by omega)
    refine ⟨w, [], L, R, ?_, Or.inl hnil, List.suffix_rfl, List.suffix_rfl, ?_, hahead1, hahead2,
      ?_⟩
    · rw [mergeLoop, if_pos (by simp [hnil])]
    · rw [merge_used_up L R (Or.inl hnil), List.nil_append]
    · rw [encodeInts_nil, overwrite_nil hpos, List.length_nil]
      rfl
  | succ fuel ih =>
    by_cases hnil : L = [] ∨ R = []
    · refine ⟨w, [], L, R, ?_, hnil, List.suffix_rfl, List.suffix_rfl, ?_, hahead1, hahead2, ?_⟩
      · rw [mergeLoop, if_pos (by simpa using hnil)]
      · rw [merge_used_up L R hnil, List.nil_append]
      · rw [encodeInts_nil, overwrite_nil hpos, List.length_nil]
        rfl
    have hne1 : L ≠ [] := fun h => hnil (Or.inl h)
    have hne2 : R ≠ [] := fun h => hnil (Or.inr h)
    obtain ⟨w1, out, left, right, hround, hleft, hright, hprogress, hcount, hmerge, hfile1, hfile2,
      hfile⟩ :=
      mergeLoop_round sched fuel h12 h1 h2 hne1 hne2 hL hR hlen1 hlen2 hahead1 hahead2 hpos
    have hsize1 : (L.drop left).length = L.length - left := List.length_drop
    have hsize2 : (R.drop right).length = R.length - right := List.length_drop
    have hend : (encodeInts out).length = 4 * out.length := encodeInts_length out
    obtain ⟨w', out', L', R', hloop, hdone, hleft', hright', hrest, hrest1, hrest2, hresult⟩ :=
      @ih w1 (L.drop left) (R.drop right) (by omega)
      (fun x hx => hL x (List.mem_of_mem_drop hx)) (fun x hx => hR x (List.mem_of_mem_drop hx))
      (by omega) (by omega)
      (by rw [hfile1]; exact encodeInts_drop_ahead hleft hahead1)
      (by rw [hfile2]; exact encodeInts_drop_ahead hright hahead2)
      (by
        rw [hfile, ← hend]
        exact overwrite_length _ hpos)
    refine ⟨w', out ++ out', L', R', hround.trans hloop, hdone,
      hleft'.trans (List.drop_suffix left L), hright'.trans (List.drop_suffix right R), ?_, hrest1,
      hrest2, ?_⟩
    · rw [hmerge, hrest, List.append_assoc]
    · have htwo := overwrite_overwrite (a := encodeInts out) (b := encodeInts out') hpos
      rw [hend, ← encodeInts_append] at htwo
      rw [hresult, hfile, htwo, List.length_append, Nat.add_assoc, Nat.mul_add]

/-- `merge_files` writes the merge of what the two files start with, and its call is exact. -/
theorem mergeFiles_files {fd1 fd2 fdOut : ℕ} {p : Process} {L R : List ℤ} (h12 : fd1 ≠ fd2)
    (h1 : fd1 ≠ fdOut) (h2 : fd2 ≠ fdOut) (hL : ∀ x ∈ L, IsInt32 x) (hR : ∀ x ∈ R, IsInt32 x)
    (hlen1 : 4 * L.length < 2 ^ 31) (hlen2 : 4 * R.length < 2 ^ 31)
    (hdata1 : encodeInts L <+: (p.world.files fd1).data)
    (hdata2 : encodeInts R <+: (p.world.files fd2).data)
    (hpos : (p.world.files fdOut).pos ≤ (p.world.files fdOut).data.length) :
    (∃ p', mergeFiles sched fd1 L.length fd2 R.length fdOut p = some p' ∧
      (p'.world.files fdOut).data = overwrite (p.world.files fdOut).data (p.world.files fdOut).pos
        (encodeInts (List.merge L R))) ∧
      ∀ c ∈ mergeFilesCalls sched fd1 L.length fd2 R.length fdOut p, c.Exact sched := by
  have hmove1 := move_updated p.world fd1 (k := 0) (by omega)
  have hmove2 := move_updated (move p.world fd1 0) fd2 (k := 0) (by omega)
  rw [Nat.cast_zero] at hmove1 hmove2
  obtain ⟨w, hw⟩ : ∃ w, move (move p.world fd1 0) fd2 0 = w := ⟨_, rfl⟩
  rw [hw] at hmove2
  have hfile1 := (hmove2.frame fd1 h12).trans hmove1.file
  have hfile2 := hmove2.file
  rw [hmove1.frame fd2 (Ne.symm h12)] at hfile2
  have hout := (hmove2.frame fdOut (Ne.symm h2)).trans (hmove1.frame fdOut (Ne.symm h1))
  obtain ⟨w', out, L', R', hloop, hdone, hleft, hright, hmerge, hrest1, hrest2, hresult⟩ :=
    mergeLoop_files sched h12 h1 h2 (le_refl (L.length + R.length)) hL hR hlen1 hlen2
      (by rw [hfile1]; exact hdata1) (by rw [hfile2]; exact hdata2) (by rwa [hout])
  rw [hout] at hresult
  have hlen1' : 4 * L'.length < 2 ^ 31 := by
    have hle := hleft.length_le
    omega
  have hlen2' : 4 * R'.length < 2 ^ 31 := by
    have hle := hright.length_le
    omega
  have hend : (encodeInts out).length = 4 * out.length := encodeInts_length out
  have hpos' : (w'.files fdOut).pos ≤ (w'.files fdOut).data.length := by
    rw [hresult, ← hend]
    exact overwrite_length _ hpos
  have hfuel : ((L.length : ℤ) + R.length).toNat = L.length + R.length := by omega
  rw [mergeFiles, mergeFilesCalls, hw, hfuel, hloop]
  simp only [Option.bind_eq_bind, Option.bind_some]
  by_cases hR' : R' = []
  · by_cases hL' : L' = []
    · refine ⟨⟨_, if_neg (by simp [hL', hR']), ?_⟩, ?_⟩
      · rw [hL', hR', List.append_nil, List.append_nil] at hmerge
        rw [hresult, hmerge]
      · rw [if_neg (by simp [hL', hR'])]
        exact fun c hc => absurd hc (List.not_mem_nil)
    · obtain ⟨p', hcopy, -, htarget, -⟩ := copyFileSegment_files sched
        (p := ⟨w', p.mainBuffer⟩) L' h1 hlen1' hrest1 hpos'
      rw [if_pos (by simp [hL']), if_neg (by simp [hR']), if_pos (by simp [hL'])]
      refine ⟨⟨p', hcopy, ?_⟩, fun c hc => ?_⟩
      · have htwo := overwrite_overwrite (a := encodeInts out) (b := encodeInts L') hpos
        rw [hR', List.append_nil] at hmerge
        rw [htarget, hresult, ← hend, htwo, hmerge, encodeInts_append]
      · rw [List.mem_singleton.mp hc]
        exact exact_of_ahead sched L' h1 rfl hlen1' hrest1 hpos'
  · have hL' : L' = [] := hdone.resolve_right hR'
    obtain ⟨p', hcopy, -, htarget, -⟩ := copyFileSegment_files sched
      (p := ⟨w', p.mainBuffer⟩) R' h2 hlen2' hrest2 hpos'
    rw [if_pos (by simp [hR']), if_pos (by simp [hR']), if_pos (by simp [hR'])]
    refine ⟨⟨p', hcopy, ?_⟩, fun c hc => ?_⟩
    · have htwo := overwrite_overwrite (a := encodeInts out) (b := encodeInts R') hpos
      rw [hL', List.nil_append] at hmerge
      rw [htarget, hresult, ← hend, htwo, hmerge, encodeInts_append]
    · rw [List.mem_singleton.mp hc]
      exact exact_of_ahead sched R' h2 rfl hlen2' hrest2 hpos'

end Acos.FileSort
