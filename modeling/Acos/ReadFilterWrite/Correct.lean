import Acos.ReadFilterWrite.Model

/-! The filter writes from the start of its outputs on, so what it leaves in them is right when
they have held no more than that. -/
namespace Acos.ReadFilterWrite
open Acos.CString Acos.PosixFile

/-- No call fails. -/
def Kernel.Reliable (k : Kernel) : Prop := ∀ call, k.fails call = false

section Transfers
variable {k : Kernel} {fd : ℕ} {w : World}

theorem read_spec (k : Kernel) (w : World) (fd : ℕ) {n : ℕ} (hn : 0 < n) :
    ∃ w' status, k.read w fd n = (w', status) ∧ (k.Reliable → status.isSome) ∧
      ∀ chunk, status = some chunk →
        (∃ j ≤ n, chunk = ((w.files fd).data.drop (w.files fd).pos).take j) ∧
          (chunk = [] → (w.files fd).data.drop (w.files fd).pos = []) ∧
          Updated w w' fd ⟨(w.files fd).data, (w.files fd).pos + chunk.length⟩ := by
  by_cases hfails : k.fails w.calls = true
  · refine ⟨_, none, if_pos hfails, fun hreliable => ?_, nofun⟩
    exact absurd hfails (by simp [hreliable w.calls])
  · refine ⟨_, _, if_neg hfails, fun _ => rfl, ?_⟩
    rintro chunk ⟨⟩
    refine ⟨⟨_, Nat.min_le_left n _, rfl⟩, fun hnil => ?_, updated_update w fd _ _⟩
    rcases List.take_eq_nil_iff.mp hnil with hzero | hend
    · omega
    · exact hend

/-- `read_bytes` fails, or it gives what there is up to the count. -/
theorem readLoop_spec (k : Kernel) (fd : ℕ) {fuel count : ℕ} (hfuel : count ≤ fuel) (w : World) :
    ∃ w' status, readLoop k fd fuel w count = some (w', status) ∧ (k.Reliable → status.isSome) ∧
      ∀ bytes, status = some bytes →
        bytes = ((w.files fd).data.drop (w.files fd).pos).take count ∧
          Updated w w' fd ⟨(w.files fd).data, (w.files fd).pos + bytes.length⟩ := by
  induction fuel generalizing w count with
  | zero =>
    obtain rfl : count = 0 := by omega
    refine ⟨w, some [], rfl, fun _ => rfl, ?_⟩
    rintro _ ⟨⟩
    exact ⟨rfl, Updated.refl w fd⟩
  | succ fuel ih =>
    cases count with
    | zero =>
      refine ⟨w, some [], rfl, fun _ => rfl, ?_⟩
      rintro _ ⟨⟩
      exact ⟨rfl, Updated.refl w fd⟩
    | succ count =>
      obtain ⟨w1, status, hread, hreliable, hchunk⟩ := read_spec k w fd (Nat.succ_pos count)
      rw [readLoop, hread]
      cases status with
      | none => exact ⟨w1, none, rfl, hreliable, nofun⟩
      | some chunk =>
        obtain ⟨⟨j, hj, htake⟩, hend, hupd⟩ := hchunk chunk rfl
        by_cases hnil : chunk = []
        · refine ⟨w1, some [], if_pos hnil, fun _ => rfl, ?_⟩
          rintro _ ⟨⟩
          rw [hend hnil]
          exact ⟨List.take_nil.symm, by rwa [hnil] at hupd⟩
        · have hpos := List.length_pos_iff.mpr hnil
          have hlen : chunk.length ≤ j := by
            rw [htake, List.length_take]
            exact Nat.min_le_left _ _
          obtain ⟨w2, rest, hloop, hok, hrest⟩ :=
            @ih (count + 1 - chunk.length) (by omega) w1
          refine ⟨w2, rest.map (chunk ++ ·), by simp [hnil, hloop], fun h => by simpa using hok h,
            fun bytes hbytes => ?_⟩
          obtain ⟨tail, rfl, rfl⟩ := Option.map_eq_some_iff.mp hbytes
          obtain ⟨htail, hupd'⟩ := hrest tail rfl
          rw [hupd.file] at htail hupd'
          have hchunk' : chunk = ((w.files fd).data.drop (w.files fd).pos).take chunk.length := by
            rw [htake, List.length_take, ← List.take_eq_take_min]
          refine ⟨?_, ?_⟩
          · have hsum : count + 1 = chunk.length + (count + 1 - chunk.length) := by omega
            rw [hsum, List.take_add, ← hchunk', List.drop_drop, htail]
          · rw [List.length_append, ← Nat.add_assoc]
            exact hupd.trans hupd'

theorem write_spec (k : Kernel) (w : World) (fd : ℕ) {bytes : Bytes} (hne : bytes ≠ []) :
    ∃ w' status, k.write w fd bytes = (w', status) ∧ (k.Reliable → status.isSome) ∧
      ∀ n, status = some n → 0 < n ∧ n ≤ bytes.length ∧
        Updated w w' fd ⟨overwrite (w.files fd).data (w.files fd).pos (bytes.take n),
          (w.files fd).pos + n⟩ := by
  by_cases hfails : k.fails w.calls = true
  · refine ⟨_, none, if_pos hfails, fun hreliable => ?_, nofun⟩
    exact absurd hfails (by simp [hreliable w.calls])
  · obtain ⟨w', n, hn, hle, hwrite, hupd⟩ := write_updated k.sched w fd hne
    refine ⟨w', some n, by simp [Kernel.write, hfails, hwrite], fun _ => rfl, ?_⟩
    rintro _ ⟨⟩
    exact ⟨hn, hle, hupd⟩

/-- `write_bytes` fails, or it writes all the bytes from the offset on. -/
theorem writeLoop_spec (k : Kernel) (fd : ℕ) {fuel : ℕ} {bytes : Bytes}
    (hfuel : bytes.length ≤ fuel) {w : World} (hpos : (w.files fd).pos ≤ (w.files fd).data.length) :
    ∃ w' written, writeLoop k fd fuel w bytes = some (w', written) ∧
      (k.Reliable → written = true) ∧
      (written = true → Updated w w' fd
        ⟨overwrite (w.files fd).data (w.files fd).pos bytes, (w.files fd).pos + bytes.length⟩) := by
  induction fuel generalizing w bytes with
  | zero =>
    obtain rfl : bytes = [] := List.length_eq_zero_iff.mp (by omega)
    rw [overwrite_nil hpos]
    exact ⟨w, true, rfl, fun _ => rfl, fun _ => Updated.refl w fd⟩
  | succ fuel ih =>
    cases bytes with
    | nil =>
      rw [overwrite_nil hpos]
      exact ⟨w, true, rfl, fun _ => rfl, fun _ => Updated.refl w fd⟩
    | cons byte bytes =>
      obtain ⟨w1, status, hwrite, hreliable, hwritten⟩ :=
        write_spec k w fd (List.cons_ne_nil byte bytes)
      rw [writeLoop, hwrite]
      cases status with
      | none => exact ⟨w1, false, rfl, fun h => absurd (hreliable h) (by simp), nofun⟩
      | some n =>
        obtain ⟨hn, hnle, hupd⟩ := hwritten n rfl
        have hlen : ((byte :: bytes).take n).length = n := List.length_take_of_le hnle
        have hpos1 : (w1.files fd).pos ≤ (w1.files fd).data.length := by
          rw [hupd.file]
          have hle := overwrite_length ((byte :: bytes).take n) hpos
          rwa [hlen] at hle
        obtain ⟨w2, written, hloop, hok, hrest⟩ := @ih ((byte :: bytes).drop n)
          (by rw [List.length_drop]; omega) w1 hpos1
        refine ⟨w2, written, hloop, hok, fun hdone => ?_⟩
        have htwo := overwrite_overwrite (a := (byte :: bytes).take n)
          (b := (byte :: bytes).drop n) hpos
        have hend : (w.files fd).pos + n + ((byte :: bytes).drop n).length =
            (w.files fd).pos + (byte :: bytes).length := by
          rw [List.length_drop]
          omega
        have hupd' := hrest hdone
        rw [hlen, List.take_append_drop] at htwo
        rw [hupd.file] at hupd'
        simp only [htwo, hend] at hupd'
        exact hupd.trans hupd'

end Transfers

theorem split_eq (read_buffer : Bytes) :
    split read_buffer = (read_buffer.filter isdigit, read_buffer.filter (!isdigit ·)) := by
  have hgen : ∀ digits other : Bytes, read_buffer.foldl splitByte (digits, other) =
      (digits ++ read_buffer.filter isdigit, other ++ read_buffer.filter (!isdigit ·)) := by
    induction read_buffer with
    | nil => simp
    | cons c read_buffer ih =>
      intro digits other
      rw [List.foldl_cons]
      cases hc : isdigit c <;> simp [splitByte, hc, ih]
  exact hgen [] []

/-- An output that has held `data`, when `written` is written. -/
def written (data written : Bytes) : File := ⟨overwrite data 0 written, written.length⟩

/-- The files when all that was read before `pos` is written. -/
structure Progress (input digits other : Bytes) (pos : ℕ) (w : World) : Prop where
  source : w.files input_file = ⟨input, pos⟩
  digits : w.files output_digits = written digits ((input.take pos).filter isdigit)
  other : w.files output_other = written other ((input.take pos).filter (!isdigit ·))

section Loop
variable {k : Kernel} {input digits other bytes : Bytes} {w : World} {pos : ℕ}

theorem opened_progress (input digits other : Bytes) :
    Progress input digits other 0 (opened input digits other) := by
  refine ⟨rfl, ?_, ?_⟩
  · rw [List.take_zero, List.filter_nil, written, overwrite_nil (Nat.zero_le _)]
    rfl
  · rw [List.take_zero, List.filter_nil, written, overwrite_nil (Nat.zero_le _)]
    rfl

/-- An output is written on where it ends. -/
theorem writeBytes_written (k : Kernel) {fd : ℕ} {data a : Bytes}
    (h : w.files fd = written data a) (b : Bytes) :
    ∃ w' done, writeBytes k fd w b = some (w', done) ∧ (k.Reliable → done = true) ∧
      (done = true → Updated w w' fd (written data (a ++ b))) := by
  have hpos : (w.files fd).pos ≤ (w.files fd).data.length := by
    have hle := overwrite_length a (Nat.zero_le data.length)
    rw [Nat.zero_add] at hle
    rwa [h]
  obtain ⟨w', done, hwrite, hok, hupd⟩ := writeLoop_spec k fd (Nat.le_refl b.length) hpos
  refine ⟨w', done, hwrite, hok, fun hdone => ?_⟩
  have hmore := overwrite_overwrite (a := a) (b := b) (Nat.zero_le data.length)
  rw [Nat.zero_add] at hmore
  have hupd' := hupd hdone
  rw [h] at hupd'
  simp only [written, hmore, ← List.length_append] at hupd'
  exact hupd'

/-- From some point on the loop exits with 0 only when it has written all of the input. -/
theorem mainLoop_progress (h : Progress input digits other pos w) (hpos : pos ≤ input.length)
    {fuel : ℕ} (hfuel : input.length - pos < fuel) :
    ∃ w' code, mainLoop k fuel w = some (w', code) ∧ (k.Reliable → code = 0) ∧
      (code = 0 → Progress input digits other input.length w') := by
  induction fuel generalizing pos w with
  | zero => omega
  | succ fuel ih =>
    obtain ⟨w1, status, hread, hreliable, hbytes⟩ :=
      readLoop_spec k input_file (Nat.le_refl buffer_size) w
    rw [mainLoop, readBytes, hread, Option.bind_eq_bind, Option.bind_some]
    cases status with
    | none => exact ⟨w1, 3, rfl, fun hall => absurd (hreliable hall) (by simp), nofun⟩
    | some bytes =>
      obtain ⟨htake, hupd⟩ := hbytes bytes rfl
      rw [h.source] at htake hupd
      simp only at htake hupd
      have hdigits1 := (hupd.frame output_digits (by decide)).trans h.digits
      have hother1 := (hupd.frame output_other (by decide)).trans h.other
      by_cases hnil : bytes = []
      · have hend : pos = input.length := by
          rw [hnil, eq_comm, List.take_eq_nil_iff, List.drop_eq_nil_iff] at htake
          have hle := htake.resolve_left (by decide)
          omega
        subst hend
        refine ⟨w1, 0, by simp [hnil], fun _ => rfl, fun _ => ⟨?_, hdigits1, hother1⟩⟩
        rw [hupd.file, hnil]
        rfl
      · have hlen := List.length_pos_iff.mpr hnil
        have hsum := congrArg List.length htake
        rw [List.length_take, List.length_drop] at hsum
        have hall : input.take (pos + bytes.length) = input.take pos ++ bytes := by
          rw [List.take_add, hsum, ← List.length_drop, ← List.take_eq_take_min, ← htake]
        obtain ⟨w2, done, hwrite, hok, hdone⟩ :=
          writeBytes_written k hdigits1 (bytes.filter isdigit)
        simp only [hnil, if_false, split_eq]
        rw [hwrite, Option.bind_eq_bind, Option.bind_some]
        cases done with
        | false => exact ⟨w2, 3, rfl, fun hreliable => absurd (hok hreliable) (by simp), nofun⟩
        | true =>
          have hupd2 := hdone rfl
          have hother2 := (hupd2.frame output_other (by decide)).trans hother1
          obtain ⟨w3, done, hwrite', hok', hdone'⟩ :=
            writeBytes_written k hother2 (bytes.filter (!isdigit ·))
          simp only [Bool.not_true, Bool.false_eq_true, if_false]
          rw [hwrite', Option.bind_some]
          cases done with
          | false => exact ⟨w3, 3, rfl, fun hreliable => absurd (hok' hreliable) (by simp), nofun⟩
          | true =>
            have hupd3 := hdone' rfl
            have hnext : Progress input digits other (pos + bytes.length) w3 := by
              refine ⟨?_, ?_, ?_⟩
              · rw [hupd3.frame _ (by decide), hupd2.frame _ (by decide), hupd.file]
              · rw [hupd3.frame _ (by decide), hupd2.file, hall, List.filter_append]
              · rw [hupd3.file, hall, List.filter_append]
            exact ih hnext (by omega) (by omega)

end Loop

/-- Nothing is left of what an output has held. -/
theorem overwrite_start_eq_iff (data bytes : Bytes) :
    overwrite data 0 bytes = bytes ↔ data.length ≤ bytes.length := by
  rw [overwrite_of_le (Nat.zero_le _), List.take_zero, List.nil_append, Nat.zero_add,
    List.append_right_eq_self, List.drop_eq_nil_iff]

/-- The outputs hold what they should. -/
def Exact (input : Bytes) (w : World) : Prop :=
  (w.files output_digits).data = input.filter isdigit ∧
    (w.files output_other).data = input.filter (!isdigit ·)

/-- When the filter exits with 0, its outputs are right exactly when neither of them has held more
bytes than it is given. -/
theorem filter_exact_iff (k : Kernel) (argc : ℕ) (opens : Opens) (input digits other : Bytes)
    {fuel : ℕ} (hfuel : input.length < fuel) :
    ∃ w code, main k fuel argc opens (opened input digits other) = some (w, code) ∧
      (3 ≤ argc → opens = ⟨none, true, true⟩ → k.Reliable → code = 0) ∧
      (code = 0 → (Exact input w ↔ digits.length ≤ (input.filter isdigit).length ∧
        other.length ≤ (input.filter (!isdigit ·)).length)) := by
  obtain ⟨w, code, hloop, hok, hdone⟩ := mainLoop_progress (k := k)
    (opened_progress input digits other) (Nat.zero_le _) (show input.length - 0 < fuel from hfuel)
  have hexact : code = 0 → (Exact input w ↔ digits.length ≤ (input.filter isdigit).length ∧
      other.length ≤ (input.filter (!isdigit ·)).length) := by
    intro hcode
    obtain ⟨-, hdigits, hother⟩ := hdone hcode
    rw [Exact, hdigits, hother, List.take_length]
    exact and_congr (overwrite_start_eq_iff _ _) (overwrite_start_eq_iff _ _)
  by_cases hargc : argc < 3
  · exact ⟨_, 3, if_pos hargc, fun hle => by omega, nofun⟩
  · rw [main, if_neg hargc]
    cases hinput : opens.input with
    | some errno =>
      refine ⟨_, _, rfl, fun _ heq => ?_, fun hcode => ?_⟩
      · rw [heq] at hinput
        cases hinput
      · split_ifs at hcode
    | none =>
      by_cases hopen : (!opens.digits || !opens.other) = true
      · refine ⟨_, 2, if_pos hopen, fun _ heq => ?_, nofun⟩
        rw [heq] at hopen
        cases hopen
      · exact ⟨w, code, (if_neg hopen).trans hloop, fun _ _ => hok, hexact⟩

/-- Transfers of one byte each. -/
def oneByte : Kernel := ⟨fun _ => 0, fun _ => false⟩

/-- The input is `1a`, and both outputs are new. -/
theorem filter_exact_new :
    ∃ w code, main oneByte 3 4 ⟨none, true, true⟩ (opened [49, 97] [] []) = some (w, code) ∧
      (3 ≤ 4 → (⟨none, true, true⟩ : Opens) = ⟨none, true, true⟩ → oneByte.Reliable → code = 0) ∧
      (code = 0 → (Exact [49, 97] w ↔
        ([] : Bytes).length ≤ (([49, 97] : Bytes).filter isdigit).length ∧
          ([] : Bytes).length ≤ (([49, 97] : Bytes).filter (!isdigit ·)).length)) :=
  filter_exact_iff oneByte 4 ⟨none, true, true⟩ [49, 97] [] [] (by decide)

/-- The input is `1`, and the first output has held `23`, of which the `3` is left. -/
theorem filter_keeps_old :
    ∃ w, main oneByte 2 4 ⟨none, true, true⟩ (opened [49] [50, 51] []) = some (w, 0) ∧
      (w.files output_digits).data = [49, 51] ∧ ¬ Exact [49] w := by
  refine ⟨_, rfl, rfl, fun h => ?_⟩
  exact absurd h.1 (by decide)

end Acos.ReadFilterWrite
