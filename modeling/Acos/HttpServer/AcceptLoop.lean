import Acos.HttpServer.Processes

/-! Which processes can run the accept loop. A child that fails to execute its file returns
through `execute_file`, `make_response` and `handle_request` into the loop of the server. -/
namespace Acos.HttpServer
open Acos.CString Acos.Transition

section Steps
variable {base_path : Bytes} {s t : Table} {l : Label}

theorem act_forked {p p' : Process} {a : Act} (h : act base_path p a = some p') :
    p'.forked = p.forked := by
  unfold act at h
  split at h
  case h_3 =>
    split_ifs at h
    obtain ⟨request, _, rfl⟩ := Option.map_eq_some_iff.mp h
    rfl
  case h_11 =>
    split_ifs at h
    cases h
    rfl
  all_goals cases h
  all_goals rfl

/-- The processes after `kill`, `wait` and the signal handlers are old ones, some of them
terminated. -/
def Settled (s t : Table) : Prop :=
  ∀ q p', t q = some p' →
    ∃ p, s q = some p ∧ p'.forked = p.forked ∧ (p'.pc = p.pc ∨ p'.pc = .zombie)

theorem Settled.trans {u : Table} (h₁ : Settled s t) (h₂ : Settled t u) : Settled s u := by
  intro q p'' hq
  obtain ⟨p', hp', hf', hpc'⟩ := h₂ q p'' hq
  obtain ⟨p, hp, hf, hpc⟩ := h₁ q p' hp'
  refine ⟨p, hp, hf'.trans hf, ?_⟩
  rcases hpc' with h | h
  · rw [h]
    exact hpc
  · exact .inr h

theorem settled_update {pid : ℤ} {p p' : Process} (hp : s pid = some p)
    (hf : p'.forked = p.forked) (hpc : p'.pc = p.pc ∨ p'.pc = .zombie) :
    Settled s (Function.update s pid (some p')) := by
  intro q r hq
  by_cases hqp : q = pid
  · subst hqp
    rw [Function.update_self] at hq
    cases hq
    exact ⟨p, hp, hf, hpc⟩
  · rw [Function.update_of_ne hqp] at hq
    exact ⟨r, hq, rfl, .inl rfl⟩

theorem settled_killed (s : Table) (pid : ℤ) : Settled s (killed s pid) := by
  intro q r hq
  unfold killed at hq
  split_ifs at hq
  · obtain ⟨p, hp, rfl⟩ := Option.map_eq_some_iff.mp hq
    exact ⟨p, hp, rfl, .inr rfl⟩
  · exact ⟨r, hq, rfl, .inl rfl⟩

theorem settled_reap {parent pid : ℤ} (h : reap s parent pid = some t) : Settled s t := by
  unfold reap at h
  split at h
  · cases h
  · split_ifs at h
    cases h
    intro q r hq
    by_cases hqp : q = pid
    · subst hqp
      simp at hq
    · rw [Function.update_of_ne hqp] at hq
      exact ⟨r, hq, rfl, .inl rfl⟩

/-- What a step does to the processes: it runs one of them, forks one, or settles some. -/
theorem next_cases (h : next base_path s l = some t) :
    (∃ pid a p p', l = .act pid a ∧ s pid = some p ∧ act base_path p a = some p' ∧
      t = Function.update s pid (some p')) ∨
    (∃ pid child p filepath readEnd, s pid = some p ∧ p.pc = .fork filepath readEnd ∧
      t = Function.update
        (Function.update s pid (some { p with pc := .storeChild child readEnd }))
        child (some { p with forked := true, parent := pid, pc := .exec filepath })) ∨
    Settled s t := by
  cases l with
  | act pid a =>
    simp only [next] at h
    split at h
    · cases h
    next p hp =>
      obtain ⟨p', hact, rfl⟩ := Option.map_eq_some_iff.mp h
      exact .inl ⟨pid, a, p, p', rfl, hp, hact, rfl⟩
  | fork pid child =>
    simp only [next] at h
    split at h
    · cases h
    next p hp =>
      split at h
      next filepath readEnd hpc =>
        split_ifs at h
        cases h
        exact .inr (.inl ⟨pid, child, p, filepath, readEnd, hp, hpc, rfl⟩)
      · cases h
  | interrupt pid reaped =>
    right
    right
    simp only [next] at h
    split at h
    · cases h
    next p hp =>
      split_ifs at h
      · have hstop : Settled s (Function.update s pid
            (some { p with must_stop_server := true, current_child_pid := -1 })) :=
          settled_update hp rfl (.inl rfl)
        have hkill := hstop.trans (settled_killed _ p.current_child_pid)
        cases reaped with
        | none =>
          cases h
          exact hkill
        | some q => exact hkill.trans (settled_reap h)
      · cases h
        exact settled_update hp rfl (.inl rfl)
  | childExited pid reaped =>
    right
    right
    simp only [next] at h
    split at h
    · cases h
    next p hp =>
      have hset : Settled s (Function.update s pid (some { p with current_child_pid := -1 })) :=
        settled_update hp rfl (.inl rfl)
      split_ifs at h
      · exact hset.trans (settled_reap h)
      · cases h
        exact hset
      · cases h
        exact fun q r hq => ⟨r, hq, rfl, .inl rfl⟩
  | exit pid =>
    right
    right
    simp only [next] at h
    split at h
    · cases h
    next p hp =>
      cases h
      exact settled_update hp rfl (.inr rfl)

end Steps

/-- The control points of a child that does not come back. -/
def Pc.leaving : Pc → Bool
  | .exec _ => true
  | .replaced => true
  | .zombie => true
  | _ => false

def ChildrenLeave (s : Table) : Prop :=
  ∀ pid p, s pid = some p → p.forked = true → p.pc.leaving = true

/-- The condition on a step: if it is a call of `execl`, the call succeeds. -/
def ExecSucceeds (_ : Table) : Label → Prop
  | .act _ (.exec ok) => ok = true
  | _ => True

theorem initial_childrenLeave (server : ℤ) : ChildrenLeave (initial server) := by
  intro pid p hp hf
  unfold initial at hp
  by_cases h : pid = server
  · subst h
    rw [Function.update_self] at hp
    cases hp
    cases hf
  · rw [Function.update_of_ne h] at hp
    cases hp

/-- From `exec`, a process that does not fail goes on in the new program. -/
theorem act_leaving {base_path : Bytes} {p p' : Process} {a : Act} (hp : p.pc.leaving = true)
    (hexec : ∀ ok, a = .exec ok → ok = true) (h : act base_path p a = some p') :
    p'.pc = .replaced := by
  unfold act at h
  split at h
  case h_8 ok heq =>
    cases h
    simp [hexec ok rfl]
  case h_13 => cases h
  all_goals
    next heq => simp [heq, Pc.leaving] at hp

theorem next_childrenLeave {base_path : Bytes} {s t : Table} {l : Label}
    (hs : ChildrenLeave s) (hl : ExecSucceeds s l) (h : next base_path s l = some t) :
    ChildrenLeave t := by
  intro q r hq hf
  rcases next_cases h with ⟨pid, a, p, p', rfl, hp, hact, rfl⟩ |
    ⟨pid, child, p, filepath, readEnd, hp, hpc, rfl⟩ | hset
  · by_cases hqp : q = pid
    · subst hqp
      rw [Function.update_self] at hq
      cases hq
      have hleave := hs q p hp ((act_forked hact).symm.trans hf)
      have hexec : ∀ ok, a = .exec ok → ok = true := by
        rintro ok rfl
        exact hl
      rw [act_leaving hleave hexec hact]
      rfl
    · rw [Function.update_of_ne hqp] at hq
      exact hs q r hq hf
  · by_cases hqc : q = child
    · subst hqc
      rw [Function.update_self] at hq
      cases hq
      rfl
    · rw [Function.update_of_ne hqc] at hq
      by_cases hqp : q = pid
      · subst hqp
        rw [Function.update_self] at hq
        cases hq
        have hleave := hs q p hp hf
        simp [hpc, Pc.leaving] at hleave
      · rw [Function.update_of_ne hqp] at hq
        exact hs q r hq hf
  · obtain ⟨p, hp, hforked, hpc⟩ := hset q r hq
    rcases hpc with hpc | hpc
    · rw [hpc]
      exact hs q p hp (hforked.symm.trans hf)
    · rw [hpc]
      rfl

theorem ChildrenLeave.onlyServerAccepts {s : Table} (h : ChildrenLeave s) :
    OnlyServerAccepts s := by
  intro pid p hp hloop
  by_contra hf
  have hleave := h pid p hp (by simpa using hf)
  unfold Pc.inAcceptLoop at hloop
  split at hloop
  next hpc => simp [hpc, Pc.leaving] at hleave
  next hpc => simp [hpc, Pc.leaving] at hleave
  · cases hloop

/-- Along a run in which every `execl` succeeds, no child comes back to the accept loop. -/
theorem accept_loop_of_exec {base_path : Bytes} {server : ℤ} {ls : List Label} {s : Table}
    (hexec : Along (next base_path) ExecSucceeds (initial server) ls)
    (hrun : run (next base_path) (initial server) ls = some s) : OnlyServerAccepts s :=
  (run_invariant_along (fun _ _ _ hs hl hnext => next_childrenLeave hs hl hnext)
    (initial_childrenLeave server) hexec hrun).onlyServerAccepts

/-- `GET /cgi HTTP/1.1` and a blank line. -/
def getCgi : Bytes :=
  [71, 69, 84, 32, 47, 99, 103, 105, 32, 72, 84, 84, 80, 47, 49, 46, 49, 13, 10, 13, 10]

/-- The server, process 1, takes one request for a path with the read and execute bits and
forks process 2 for it. -/
def requestForExecutable : List Label :=
  [.act 1 .checkStop, .act 1 (.accept true), .act 1 (.recv [some getCgi]),
    .act 1 (.stat (.found 0o755)), .act 1 (.pipe (some 5)), .fork 1 2]

/-- The program runs, ends and is waited for while the server goes back to its loop. -/
def executedRequest : List Label :=
  requestForExecutable ++
    [.act 2 (.exec true), .act 1 .storeChild, .act 1 .ret, .exit 2, .childExited 1 true,
      .act 1 (.copyFile 0), .act 1 .ret, .act 1 .ret]

theorem accept_loop_executed :
    ∃ s, run (next []) (initial 1) executedRequest = some s ∧ s 2 = none ∧
      OnlyServerAccepts s := by
  obtain ⟨s, hrun, hgone⟩ :
      ∃ s, run (next []) (initial 1) executedRequest = some s ∧ s 2 = none := ⟨_, rfl, rfl⟩
  have hexec : Along (next []) ExecSucceeds (initial 1) executedRequest := by
    simp [Along, executedRequest, requestForExecutable, ExecSucceeds]
  exact ⟨s, hrun, hgone, accept_loop_of_exec hexec hrun⟩

/-- The steps of a child in which `execl` fails and its callers return. -/
def execFails (pid : ℤ) : List Label :=
  [.act pid (.exec false), .act pid .ret, .act pid .ret, .act pid .ret]

/-- A failed `execl` always leads the child back into the loop, if nothing kills it before. -/
theorem execFails_checkStop {base_path : Bytes} {s : Table} {pid : ℤ} {p : Process}
    {filepath : Bytes} (hp : s pid = some p) (hpc : p.pc = .exec filepath) :
    run (next base_path) s (execFails pid) =
      some (Function.update s pid (some { p with pc := .checkStop })) := by
  simp [execFails, run, next, act, hp, hpc, afterReturn]

/-- A request for a directory brings its child into the accept loop. -/
theorem child_accepts : ¬ ∀ base_path server s,
    Reachable (next base_path) (initial server) s → OnlyServerAccepts s := by
  intro hall
  obtain ⟨s, hrun, p, hp, hpc, hf⟩ : ∃ s,
      run (next []) (initial 1) (requestForExecutable ++ execFails 2) = some s ∧
        ∃ p, s 2 = some p ∧ p.pc = .checkStop ∧ p.forked = true := ⟨_, rfl, _, rfl, rfl, rfl⟩
  have honly := hall [] 1 s ⟨_, hrun⟩ 2 p hp (by rw [hpc]; rfl)
  simp [hf] at honly

end Acos.HttpServer
