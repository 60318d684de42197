import Acos.Lib.FinSum
import Acos.ToHand.Model
import Mathlib.Data.List.Infix

/-! One token goes from the parent to a smoker and back, and what is not yet printed goes with it.
The signals come when no smoker has one, so that they cut nothing off. -/
namespace Acos.ToHand
open Acos.CString Acos.FinSum Acos.Transition

/-- What the smokers print for this input. -/
def lines (input : Bytes) : Bytes := input.flatMap fun to_hand => line (idOf to_hand)

/-- The smoker has taken its token and not yet given it back. -/
def SmokerPc.inside : SmokerPc → Bool
  | .printf | .fflush | .post => true
  | _ => false

/-- The tokens at a smoker: in its semaphore, in its hands, in the semaphore for the parent. -/
def Smoker.token (me : Smoker) : ℕ := me.resources + me.pc.inside.toNat + me.smoked

/-- What the smoker has still to write for its token. -/
def Smoker.owed (smoker_id : ℕ) (me : Smoker) : Bytes :=
  (if 0 < me.resources ∨ me.pc = .printf then line smoker_id else []) ++ me.buffer

/-- What has been handed out and not been written. -/
def State.owed (s : State) : Bytes :=
  match s.parent with
  | .post id => line id
  | .wait id => (s.smokers id).owed id
  | _ => []

/-- How many tokens are at smoker `i`: one while the parent waits for it. -/
def ParentPc.tokens : ParentPc → ℕ → ℕ
  | .wait id, i => if i = id then 1 else 0
  | _, _ => 0

/-- The smoker's `SIGTERM` has been sent. -/
def ParentPc.Signalled : ParentPc → ℕ → Prop
  | .kill k, i => i < k
  | .waitpid k, i => i ≤ k
  | .returned, _ => True
  | _, _ => False

/-- The smoker is not forked. -/
def ParentPc.Absent : ParentPc → ℕ → Prop
  | .fork k, i => k ≤ i
  | _, i => n_smokers ≤ i

/-- The loops stay in their ranges, and the input is read to its end. -/
def State.Within (s : State) : Prop :=
  match s.parent with
  | .fork k => k ≤ n_smokers
  | .scanf => True
  | .post id | .wait id => id < n_smokers
  | .kill k => k ≤ n_smokers ∧ s.input = []
  | .waitpid k => k < n_smokers ∧ s.input = []
  | .returned => s.input = []

/-- The invariant of the parent and the smokers. -/
structure Inv (input₀ : Bytes) (s : State) : Prop where
  within : s.Within
  buffer : ∀ i, (s.smokers i).pc ≠ .fflush → (s.smokers i).buffer = []
  forked : ∀ i, (s.smokers i).pc = .absent ↔ s.parent.Absent i
  signalled : ∀ i, (s.smokers i).pending ∨ (s.smokers i).pc = .dead → s.parent.Signalled i
  ended : ∀ i < n_smokers, s.parent.Signalled i →
    (s.smokers i).pc = .dead ∨ ((s.smokers i).pending ∧ s.parent = .waitpid i)
  token : ∀ i, (s.smokers i).token = s.parent.tokens i
  printed : lines input₀ = s.printed ++ s.owed ++ lines s.input

/-- The steps that a smoker has before it, as long as it gets no other token. -/
def Smoker.rank (me : Smoker) : ℕ :=
  5 * me.resources + me.smoked + match me.pc with
    | .absent => 9
    | .sigaction => 2
    | .wait => 1
    | .printf => 5
    | .fflush => 4
    | .post => 3
    | .dead => 0

/-- The same for the parent; each byte of the input is worth a whole turn. -/
def State.parentRank (s : State) : ℕ :=
  match s.parent with
  | .fork k => 8 * s.input.length + 14 - k
  | .scanf => 8 * s.input.length + 10
  | .post _ => 8 * s.input.length + 17
  | .wait _ => 8 * s.input.length + 11
  | .kill k => 7 - 2 * k
  | .waitpid k => 6 - 2 * k
  | .returned => 0

def State.rank (s : State) : ℕ := s.parentRank + ∑ i ∈ Finset.range n_smokers, (s.smokers i).rank

section Smoker
variable {terminal : Bool} {i : ℕ} {me me' : Smoker} {out : Bytes}

/-- A step passes the token on, and what it writes is no longer owed. -/
theorem Smoker.step_token (hbuffer : me.pc ≠ .fflush → me.buffer = []) (htoken : me.token ≤ 1)
    (h : me.step terminal i = some (me', out)) :
    me'.token = me.token ∧ me.owed i = out ++ me'.owed i ∧
      (me'.pc ≠ .fflush → me'.buffer = []) ∧ me'.rank < me.rank := by
  obtain ⟨pc, pending, buffer, resources, smoked⟩ := me
  cases pc with
  | absent | dead => cases h
  | sigaction =>
    obtain rfl : buffer = [] := hbuffer (by simp)
    cases h
    exact ⟨rfl, by simp [Smoker.owed], fun _ => rfl, by simp [Smoker.rank]⟩
  | wait =>
    obtain rfl : buffer = [] := hbuffer (by simp)
    simp only [Smoker.step] at h
    split_ifs at h with hpos
    cases h
    refine ⟨?_, ?_, fun _ => rfl, ?_⟩
    · simp [Smoker.token, SmokerPc.inside]
      omega
    · simp [Smoker.owed, hpos]
    · simp only [Smoker.rank]
      omega
  | printf =>
    obtain rfl : buffer = [] := hbuffer (by simp)
    obtain rfl : resources = 0 := by
      simp [Smoker.token, SmokerPc.inside] at htoken
      omega
    cases terminal <;> cases h
    · exact ⟨rfl, by simp [Smoker.owed], fun hne => absurd rfl hne, by simp [Smoker.rank]⟩
    · exact ⟨rfl, by simp [Smoker.owed], fun hne => absurd rfl hne, by simp [Smoker.rank]⟩
  | fflush =>
    obtain rfl : resources = 0 := by
      simp [Smoker.token, SmokerPc.inside] at htoken
      omega
    cases h
    exact ⟨rfl, by simp [Smoker.owed], fun _ => rfl, by simp [Smoker.rank]⟩
  | post =>
    obtain rfl : buffer = [] := hbuffer (by simp)
    cases h
    refine ⟨?_, by simp [Smoker.owed], fun _ => rfl, ?_⟩
    · simp [Smoker.token, SmokerPc.inside]
      omega
    · simp only [Smoker.rank]
      omega

theorem Smoker.step_alive (h : me.step terminal i = some (me', out)) :
    me'.pending = me.pending ∧ me.pc ≠ .dead ∧ me.pc ≠ .absent ∧ me'.pc ≠ .dead ∧
      me'.pc ≠ .absent := by
  unfold Smoker.step at h
  cases hpc : me.pc with
  | absent | dead => simp [hpc] at h
  | wait =>
    simp only [hpc] at h
    split_ifs at h
    cases h
    simp
  | printf =>
    simp only [hpc] at h
    split_ifs at h <;> cases h <;> simp
  | sigaction | fflush | post =>
    simp only [hpc] at h
    cases h
    simp

/-- Without a token there is nothing to write. -/
theorem Smoker.owed_eq_nil (hbuffer : me.pc ≠ .fflush → me.buffer = []) (h : me.token = 0) :
    me.owed i = [] := by
  simp only [Smoker.token] at h
  have hinside : me.pc.inside = false := by
    cases hpc : me.pc.inside with
    | false => rfl
    | true => simp [hpc] at h
  have hresources : me.resources = 0 := by omega
  cases hpc : me.pc <;> simp [hpc, SmokerPc.inside] at hinside <;>
    simp [Smoker.owed, hpc, hresources, hbuffer]

variable (terminal i) in
/-- A smoker with a token can go on, or has given it back. -/
theorem Smoker.step_isSome (hforked : me.pc ≠ .absent) (hdead : me.pc ≠ .dead)
    (htoken : me.token = 1) (hsmoked : me.smoked = 0) : ∃ r, me.step terminal i = some r := by
  unfold Smoker.step
  cases hpc : me.pc with
  | absent => exact absurd hpc hforked
  | dead => exact absurd hpc hdead
  | wait =>
    have hpos : 0 < me.resources := by
      simp [Smoker.token, hpc, SmokerPc.inside] at htoken
      omega
    exact ⟨_, if_pos hpos⟩
  | printf => cases terminal <;> exact ⟨_, rfl⟩
  | sigaction | fflush | post => exact ⟨_, rfl⟩

end Smoker

section Step
variable {terminal : Bool} {input₀ : Bytes} {s t : State} {i k : ℕ}

@[simp] theorem set_smokers (s : State) (i j : ℕ) (smoker : Smoker) :
    (s.set i smoker).smokers j = if j = i then smoker else s.smokers j := by
  simp [State.set, Function.update_apply]

@[simp] theorem set_parent (s : State) (i : ℕ) (smoker : Smoker) :
    (s.set i smoker).parent = s.parent := rfl

@[simp] theorem set_input (s : State) (i : ℕ) (smoker : Smoker) :
    (s.set i smoker).input = s.input := rfl

@[simp] theorem set_printed (s : State) (i : ℕ) (smoker : Smoker) :
    (s.set i smoker).printed = s.printed := rfl

theorem initial_inv (input : Bytes) : Inv input (initial input) where
  within := Nat.zero_le _
  buffer _ _ := rfl
  forked i := ⟨fun _ => Nat.zero_le i, fun _ => rfl⟩
  signalled i h := by simp [initial] at h
  ended i _ h := h.elim
  token _ := rfl
  printed := rfl

theorem idOf_lt (to_hand : UInt8) : idOf to_hand < n_smokers := by
  simp only [idOf, n_smokers]
  split_ifs <;> omega

theorem Inv.token_le (h : Inv input₀ s) (i : ℕ) : (s.smokers i).token ≤ 1 := by
  rw [h.token i]
  unfold ParentPc.tokens
  split
  · split_ifs <;> omega
  · omega

/-- What a smoker owes that the parent does not wait for is nothing. -/
theorem Inv.owed_eq_nil (h : Inv input₀ s) (hturn : s.parent ≠ .wait i) :
    (s.smokers i).owed i = [] := by
  refine Smoker.owed_eq_nil (h.buffer i) ?_
  rw [h.token i]
  cases hparent : s.parent with
  | wait id =>
    have hne : i ≠ id := fun heq => hturn (heq ▸ hparent)
    simp [ParentPc.tokens, hne]
  | _ => rfl

theorem Inv.smoker (h : Inv input₀ s) (hstep : next terminal s (.smoker i) = some t) :
    Inv input₀ t := by
  obtain ⟨⟨me, out⟩, hme, rfl⟩ := Option.map_eq_some_iff.mp hstep
  obtain ⟨htoken, howed, hbuffer, _⟩ := Smoker.step_token (h.buffer i) (h.token_le i) hme
  obtain ⟨hpending, hbefore, hforked, hdead, hthere⟩ := Smoker.step_alive hme
  refine ⟨h.within, fun j => ?_, fun j => ?_, fun j => ?_, fun j hj hsignalled => ?_, fun j => ?_, ?_⟩
  · by_cases hji : j = i
    · simpa [hji] using hbuffer
    · simpa [hji] using h.buffer j
  · by_cases hji : j = i
    · simpa [hji, hforked, hthere] using h.forked i
    · simpa [hji] using h.forked j
  · by_cases hji : j = i
    · have hold := h.signalled i
      simpa [hji, hpending, hbefore, hdead] using hold
    · simpa [hji] using h.signalled j
  · by_cases hji : j = i
    · have hold := h.ended i (hji ▸ hj) (hji ▸ hsignalled)
      simpa [hji, hpending, hbefore, hdead] using hold
    · simpa [hji] using h.ended j hj hsignalled
  · by_cases hji : j = i
    · simpa [hji, htoken] using h.token i
    · simpa [hji] using h.token j
  · have hold := h.printed
    by_cases hturn : s.parent = .wait i
    · simp only [State.owed, hturn, howed] at hold
      simpa [State.owed, hturn] using hold
    · rw [h.owed_eq_nil hturn] at howed
      obtain ⟨rfl, _⟩ := List.nil_eq_append_iff.mp howed
      have hsame : ({ s.set i me with printed := s.printed ++ [] } : State).owed = s.owed := by
        simp only [State.owed, set_parent, set_smokers]
        cases hparent : s.parent with
        | wait id =>
          have hne : id ≠ i := fun heq => hturn (heq ▸ hparent)
          simp [hne]
        | _ => rfl
      rw [hsame]
      simpa using hold

/-- A signal that is delivered finds its smoker without a token. -/
theorem Inv.deliver (h : Inv input₀ s) (hstep : next terminal s (.deliver i) = some t) :
    Inv input₀ t := by
  obtain ⟨me, hme, rfl⟩ := Option.map_eq_some_iff.mp hstep
  unfold Smoker.deliver at hme
  split_ifs at hme with hcond
  obtain ⟨hpending, hforked, _⟩ := hcond
  cases hme
  have hsignalled := h.signalled i (.inl hpending)
  have hturn : s.parent ≠ .wait i := by
    intro hparent
    rw [hparent] at hsignalled
    exact hsignalled
  have hbuffer : (s.smokers i).buffer = [] :=
    (List.append_eq_nil_iff.mp (h.owed_eq_nil hturn)).2
  have htoken : (s.smokers i).token = 0 := by
    rw [h.token i]
    cases hparent : s.parent with
    | wait id =>
      have hne : i ≠ id := fun heq => hturn (heq ▸ hparent)
      simp [ParentPc.tokens, hne]
    | _ => rfl
  refine ⟨h.within, fun j => ?_, fun j => ?_, fun j => ?_, fun j hj hpast => ?_, fun j => ?_, ?_⟩
  · by_cases hji : j = i
    · simp [hji, hbuffer]
    · simpa [hji] using h.buffer j
  · by_cases hji : j = i
    · simpa [hji, hforked] using h.forked i
    · simpa [hji] using h.forked j
  · by_cases hji : j = i
    · simpa [hji, ParentPc.Signalled] using hsignalled
    · simpa [hji] using h.signalled j
  · by_cases hji : j = i
    · simp [hji]
    · simpa [hji] using h.ended j hj hpast
  · by_cases hji : j = i
    · have hsame := h.token i
      rw [htoken] at hsame
      simp only [Smoker.token, Nat.add_eq_zero_iff] at htoken
      simp [hji, Smoker.token, SmokerPc.inside, ← hsame, htoken]
    · simpa [hji] using h.token j
  · have hsame : (s.set i { s.smokers i with pc := .dead, pending := false }).owed = s.owed := by
      simp only [State.owed, set_parent, set_smokers]
      cases hparent : s.parent with
      | wait id =>
        have hne : id ≠ i := fun heq => hturn (heq ▸ hparent)
        simp [hne]
      | _ => rfl
    rw [hsame]
    exact h.printed

/-- The smoker that the parent has just forked is at its first action. -/
theorem Inv.fork (h : Inv input₀ s) (hparent : s.parent = .fork k) (hk : k < n_smokers) :
    Inv input₀ { s.set k ⟨.sigaction, false, [], 0, 0⟩ with parent := .fork (k + 1) } := by
  have hold := h.printed
  have htoken := h.token
  have hsignalled := h.signalled
  have hforked := h.forked
  simp only [State.owed, hparent] at hold htoken hsignalled hforked
  refine ⟨hk, fun j => ?_, fun j => ?_, fun j => ?_, fun j _ hpast => hpast.elim, fun j => ?_,
    by simpa [State.owed] using hold⟩
  · by_cases hjk : j = k
    · simp [hjk]
    · simpa [hjk] using h.buffer j
  · by_cases hjk : j = k
    · simp [hjk, ParentPc.Absent]
    · have hlt : k ≤ j ↔ k + 1 ≤ j := by omega
      simpa [hjk, ParentPc.Absent, hlt] using hforked j
  · by_cases hjk : j = k
    · simp [hjk]
    · simpa [hjk, ParentPc.Signalled] using hsignalled j
  · by_cases hjk : j = k
    · simp [hjk, Smoker.token, SmokerPc.inside, ParentPc.tokens]
    · simpa [hjk, ParentPc.tokens] using htoken j

theorem Inv.forks_over (h : Inv input₀ s) (hparent : s.parent = .fork k) (hk : ¬ k < n_smokers) :
    Inv input₀ { s with parent := .scanf } := by
  have hold := h.printed
  have htoken := h.token
  have hsignalled := h.signalled
  have hforked := h.forked
  have hall : k = n_smokers := by
    have hwithin : k ≤ n_smokers := by simpa [hparent, State.Within] using h.within
    omega
  simp only [State.owed, hparent, hall] at hold htoken hsignalled hforked
  exact ⟨trivial, h.buffer, hforked, hsignalled, fun j _ hpast => hpast.elim, htoken,
    by simpa [State.owed] using hold⟩

theorem Inv.read {to_hand : UInt8} {input : Bytes} (h : Inv input₀ s) (hparent : s.parent = .scanf)
    (hinput : s.input = to_hand :: input) :
    Inv input₀ { s with input := input, parent := .post (idOf to_hand) } := by
  have hold := h.printed
  have htoken := h.token
  have hsignalled := h.signalled
  have hforked := h.forked
  simp only [State.owed, hparent, hinput] at hold htoken hsignalled hforked
  exact ⟨idOf_lt to_hand, h.buffer, hforked, hsignalled,
    fun j _ hpast => hpast.elim, htoken, by simpa [State.owed, lines] using hold⟩

theorem Inv.end_of_input (h : Inv input₀ s) (hparent : s.parent = .scanf) (hinput : s.input = []) :
    Inv input₀ { s with parent := .kill 0 } := by
  have hold := h.printed
  have htoken := h.token
  have hsignalled := h.signalled
  have hforked := h.forked
  simp only [State.owed, hparent] at hold htoken hsignalled hforked
  exact ⟨⟨Nat.zero_le _, hinput⟩, h.buffer, hforked,
    fun j hj => (hsignalled j hj).elim, fun j _ hpast => absurd hpast (Nat.not_lt_zero j), htoken,
    by simpa [State.owed] using hold⟩

theorem Inv.post (h : Inv input₀ s) (hparent : s.parent = .post i) :
    Inv input₀ { s.set i { s.smokers i with resources := (s.smokers i).resources + 1 } with
      parent := .wait i } := by
  have hwithin : i < n_smokers := by simpa [hparent, State.Within] using h.within
  have hold := h.printed
  have htoken := h.token
  have hsignalled := h.signalled
  have howed := Smoker.owed_eq_nil (i := i) (h.buffer i) (by rw [h.token i, hparent]; rfl)
  have hforked := h.forked
  simp only [State.owed, hparent] at hold htoken hsignalled hforked
  refine ⟨hwithin, fun j => ?_, fun j => ?_, fun j => ?_, fun j _ hpast => hpast.elim,
    fun j => ?_, ?_⟩
  · by_cases hji : j = i
    · simpa [hji] using h.buffer i
    · simpa [hji] using h.buffer j
  · by_cases hji : j = i
    · simpa [hji, ParentPc.Absent] using hforked i
    · simpa [hji, ParentPc.Absent] using hforked j
  · by_cases hji : j = i
    · simpa [hji, ParentPc.Signalled] using hsignalled i
    · simpa [hji, ParentPc.Signalled] using hsignalled j
  · by_cases hji : j = i
    · have hzero := htoken i
      simp only [Smoker.token, ParentPc.tokens, Nat.add_eq_zero_iff] at hzero
      simp [hji, Smoker.token, ParentPc.tokens, hzero]
    · simpa [hji, ParentPc.tokens] using htoken j
  · have hbuffer : (s.smokers i).buffer = [] := (List.append_eq_nil_iff.mp howed).2
    simpa [State.owed, Smoker.owed, hbuffer] using hold

theorem Inv.wait (h : Inv input₀ s) (hparent : s.parent = .wait i)
    (hsmoked : 0 < (s.smokers i).smoked) :
    Inv input₀ { s.set i { s.smokers i with smoked := (s.smokers i).smoked - 1 } with
      parent := .scanf } := by
  have hold := h.printed
  have htoken := h.token
  have hsignalled := h.signalled
  have hone := h.token_le i
  have hforked := h.forked
  simp only [State.owed, hparent] at hold htoken hsignalled hforked
  -- the token is back, so that the smoker has nothing left to write
  have hzero : ({ s.smokers i with smoked := (s.smokers i).smoked - 1 } : Smoker).token = 0 := by
    simp only [Smoker.token] at hone ⊢
    omega
  have howed : (s.smokers i).owed i = [] :=
    @Smoker.owed_eq_nil i { s.smokers i with smoked := (s.smokers i).smoked - 1 } (h.buffer i) hzero
  refine ⟨trivial, fun j => ?_, fun j => ?_, fun j => ?_, fun j _ hpast => hpast.elim,
    fun j => ?_, ?_⟩
  · by_cases hji : j = i
    · simpa [hji] using h.buffer i
    · simpa [hji] using h.buffer j
  · by_cases hji : j = i
    · simpa [hji, ParentPc.Absent] using hforked i
    · simpa [hji, ParentPc.Absent] using hforked j
  · by_cases hji : j = i
    · simpa [hji, ParentPc.Signalled] using hsignalled i
    · simpa [hji, ParentPc.Signalled] using hsignalled j
  · by_cases hji : j = i
    · simpa [hji, ParentPc.tokens] using hzero
    · simpa [hji, ParentPc.tokens] using htoken j
  · simpa [State.owed, howed] using hold

theorem Inv.kill (h : Inv input₀ s) (hparent : s.parent = .kill k) (hk : k < n_smokers) :
    Inv input₀ { s.set k { s.smokers k with pending := true } with parent := .waitpid k } := by
  have hold := h.printed
  have htoken := h.token
  have hsignalled := h.signalled
  have hended := h.ended
  have hforked := h.forked
  simp only [State.owed, hparent] at hold htoken hsignalled hended hforked
  have hwithin : k ≤ n_smokers ∧ s.input = [] := by simpa [hparent, State.Within] using h.within
  refine ⟨⟨hk, hwithin.2⟩, fun j => ?_, fun j => ?_, fun j hj => ?_, fun j hj hpast => ?_, fun j => ?_,
    by simpa [State.owed] using hold⟩
  · by_cases hjk : j = k
    · simpa [hjk] using h.buffer k
    · simpa [hjk] using h.buffer j
  · by_cases hjk : j = k
    · simpa [hjk, ParentPc.Absent] using hforked k
    · simpa [hjk, ParentPc.Absent] using hforked j
  · by_cases hjk : j = k
    · simp [hjk, ParentPc.Signalled]
    · exact Nat.le_of_lt (hsignalled j (by simpa [hjk] using hj))
  · by_cases hjk : j = k
    · simp [hjk]
    · have hlt : j < k := Nat.lt_of_le_of_ne hpast hjk
      exact .inl (by simpa [hjk] using hended j hj hlt)
  · by_cases hjk : j = k
    · simpa [hjk, ParentPc.tokens, Smoker.token] using htoken k
    · simpa [hjk, ParentPc.tokens] using htoken j

theorem Inv.kills_over (h : Inv input₀ s) (hparent : s.parent = .kill k) (hk : ¬ k < n_smokers) :
    Inv input₀ { s with parent := .returned } := by
  have hold := h.printed
  have htoken := h.token
  have hended := h.ended
  have hforked := h.forked
  simp only [State.owed, hparent] at hold htoken hended hforked
  have hwithin : k ≤ n_smokers ∧ s.input = [] := by simpa [hparent, State.Within] using h.within
  refine ⟨hwithin.2, h.buffer, hforked, fun _ _ => trivial,
    fun j hj _ => ?_, htoken, by simpa [State.owed] using hold⟩
  have hlt : j < k := by omega
  simpa using hended j hj hlt

theorem Inv.waitpid (h : Inv input₀ s) (hparent : s.parent = .waitpid k)
    (hdead : (s.smokers k).pc = .dead) : Inv input₀ { s with parent := .kill (k + 1) } := by
  have hold := h.printed
  have htoken := h.token
  have hsignalled := h.signalled
  have hended := h.ended
  have hwithin : k < n_smokers ∧ s.input = [] := by simpa [hparent, State.Within] using h.within
  have hforked := h.forked
  simp only [State.owed, hparent] at hold htoken hsignalled hended hforked
  refine ⟨hwithin, h.buffer, hforked,
    fun j hj => Nat.lt_succ_of_le (hsignalled j hj), fun j hj hpast => .inl ?_, htoken,
    by simpa [State.owed] using hold⟩
  by_cases hjk : j = k
  · rw [hjk]
    exact hdead
  · rcases hended j hj (Nat.le_of_lt_succ hpast) with hgone | ⟨_, heq⟩
    · exact hgone
    · exact absurd (ParentPc.waitpid.inj heq).symm hjk

theorem Inv.parent (h : Inv input₀ s) (hstep : next terminal s .parent = some t) :
    Inv input₀ t := by
  simp only [next, parentStep] at hstep
  cases hparent : s.parent with
  | fork k =>
    simp only [hparent] at hstep
    split_ifs at hstep with hk <;> cases hstep
    · exact h.fork hparent hk
    · exact h.forks_over hparent hk
  | scanf =>
    simp only [hparent] at hstep
    cases hinput : s.input with
    | nil =>
      rw [hinput] at hstep
      cases hstep
      exact hinput ▸ h.end_of_input hparent hinput
    | cons to_hand input =>
      rw [hinput] at hstep
      cases hstep
      exact h.read hparent hinput
  | post i =>
    simp only [hparent] at hstep
    cases hstep
    exact h.post hparent
  | wait i =>
    simp only [hparent] at hstep
    split_ifs at hstep with hsmoked
    cases hstep
    exact h.wait hparent hsmoked
  | kill k =>
    simp only [hparent] at hstep
    split_ifs at hstep with hk <;> cases hstep
    · exact h.kill hparent hk
    · exact h.kills_over hparent hk
  | waitpid k =>
    simp only [hparent] at hstep
    split_ifs at hstep with hdead
    cases hstep
    exact h.waitpid hparent hdead
  | returned =>
    simp only [hparent] at hstep
    cases hstep

theorem Inv.any (h : Inv input₀ s) {l : Label} (hstep : next terminal s l = some t) :
    Inv input₀ t := by
  cases l with
  | parent => exact h.parent hstep
  | smoker i => exact h.smoker hstep
  | deliver i => exact h.deliver hstep

end Step

section Rank
variable {terminal : Bool} {input₀ : Bytes} {s t : State} {i : ℕ}

theorem Inv.lt_n_smokers (h : Inv input₀ s) (hthere : (s.smokers i).pc ≠ .absent) :
    i < n_smokers := by
  rw [Ne, h.forked] at hthere
  have hwithin := h.within
  cases hparent : s.parent <;> simp only [hparent, ParentPc.Absent, State.Within] at * <;> omega

theorem rank_set (s : State) (me : Smoker) (hi : i < n_smokers) :
    ∑ j ∈ Finset.range n_smokers, ((s.set i me).smokers j).rank + (s.smokers i).rank =
      ∑ j ∈ Finset.range n_smokers, (s.smokers j).rank + me.rank := by
  have hsum := sum_change (f := fun j => (s.smokers j).rank)
    (g := fun j => ((s.set i me).smokers j).rank) (Finset.mem_range.mpr hi) fun j hj => by simp [hj]
  simpa using hsum

theorem Inv.parent_rank (h : Inv input₀ s) (hstep : next terminal s .parent = some t) :
    t.rank < s.rank := by
  have hwithin := h.within
  simp only [next, parentStep] at hstep
  cases hparent : s.parent with
  | fork k =>
    simp only [hparent] at hstep
    split_ifs at hstep with hk <;> cases hstep
    · have hsum := rank_set s ⟨.sigaction, false, [], 0, 0⟩ hk
      have habsent : (s.smokers k).pc = .absent := by
        rw [h.forked, hparent]
        exact Nat.le_refl k
      have hnew : (⟨.sigaction, false, [], 0, 0⟩ : Smoker).rank = 2 := rfl
      have hold : 9 ≤ (s.smokers k).rank := by simp [Smoker.rank, habsent]
      simp only [State.rank, State.parentRank, hparent, set_input, n_smokers] at *
      omega
    · have hle : k ≤ n_smokers := by simpa [hparent, State.Within] using hwithin
      simp only [State.rank, State.parentRank, hparent, n_smokers] at *
      omega
  | scanf =>
    simp only [hparent] at hstep
    cases hinput : s.input with
    | nil =>
      rw [hinput] at hstep
      cases hstep
      simp only [State.rank, State.parentRank, hparent, hinput]
      omega
    | cons to_hand input =>
      rw [hinput] at hstep
      cases hstep
      simp only [State.rank, State.parentRank, hparent, hinput, List.length_cons]
      omega
  | post i =>
    simp only [hparent] at hstep
    cases hstep
    have hsum := rank_set s { s.smokers i with resources := (s.smokers i).resources + 1 }
      (by simpa [hparent, State.Within] using hwithin)
    simp only [State.rank, State.parentRank, hparent, set_input]
    simp only [Smoker.rank] at *
    omega
  | wait i =>
    simp only [hparent] at hstep
    split_ifs at hstep with hsmoked
    cases hstep
    have hsum := rank_set s { s.smokers i with smoked := (s.smokers i).smoked - 1 }
      (by simpa [hparent, State.Within] using hwithin)
    simp only [State.rank, State.parentRank, hparent, set_input]
    simp only [Smoker.rank] at *
    omega
  | kill k =>
    simp only [hparent] at hstep
    split_ifs at hstep with hk <;> cases hstep
    · have hsum := rank_set s { s.smokers k with pending := true } hk
      have hsame : ({ s.smokers k with pending := true } : Smoker).rank = (s.smokers k).rank := rfl
      simp only [State.rank, State.parentRank, hparent, n_smokers] at *
      omega
    · obtain ⟨hle, _⟩ : k ≤ n_smokers ∧ s.input = [] := by
        simpa [hparent, State.Within] using hwithin
      simp only [State.rank, State.parentRank, hparent, n_smokers] at *
      omega
  | waitpid k =>
    simp only [hparent] at hstep
    split_ifs at hstep with hdead
    cases hstep
    obtain ⟨hlt, _⟩ : k < n_smokers ∧ s.input = [] := by
      simpa [hparent, State.Within] using hwithin
    simp only [State.rank, State.parentRank, hparent, n_smokers] at *
    omega
  | returned =>
    simp only [hparent] at hstep
    cases hstep

theorem Inv.next_rank (h : Inv input₀ s) {l : Label} (hstep : next terminal s l = some t) :
    t.rank < s.rank := by
  cases l with
  | parent => exact h.parent_rank hstep
  | smoker i =>
    obtain ⟨⟨me, out⟩, hme, rfl⟩ := Option.map_eq_some_iff.mp hstep
    have hlt := (Smoker.step_token (h.buffer i) (h.token_le i) hme).2.2.2
    have hsum := rank_set s me (h.lt_n_smokers (Smoker.step_alive hme).2.2.1)
    simp only [State.rank, State.parentRank, set_parent, set_input]
    omega
  | deliver i =>
    obtain ⟨me, hme, rfl⟩ := Option.map_eq_some_iff.mp hstep
    unfold Smoker.deliver at hme
    split_ifs at hme with hcond
    obtain ⟨_, hforked, hdead⟩ := hcond
    have hsum := rank_set s me (h.lt_n_smokers hforked)
    have hlt : me.rank < (s.smokers i).rank := by
      cases hme
      simp only [Smoker.rank]
      cases hpc : (s.smokers i).pc with
      | dead => exact absurd hpc hdead
      | _ => simp
    simp only [State.rank, State.parentRank, set_parent, set_input]
    omega

/-- Until the parent returns, it or the smoker that it waits for can go on. -/
theorem Inv.exists_next (h : Inv input₀ s) (hparent : s.parent ≠ .returned) :
    ∃ l t, next terminal s l = some t := by
  have hwithin := h.within
  cases hpc : s.parent with
  | fork k => exact ⟨.parent, by simp only [next, parentStep, hpc]; split_ifs <;> exact ⟨_, rfl⟩⟩
  | scanf =>
    cases hinput : s.input <;> exact ⟨.parent, by simp [next, parentStep, hpc, hinput]⟩
  | post i => exact ⟨.parent, by simp [next, parentStep, hpc]⟩
  | wait i =>
    by_cases hsmoked : 0 < (s.smokers i).smoked
    · exact ⟨.parent, by simp [next, parentStep, hpc, hsmoked]⟩
    · have hi : i < n_smokers := by simpa [hpc, State.Within] using hwithin
      have hone : (s.smokers i).token = 1 := by simp [h.token i, hpc, ParentPc.tokens]
      have hforked : (s.smokers i).pc ≠ .absent := by
        rw [Ne, h.forked, hpc]
        exact Nat.not_le.mpr hi
      have hdead : (s.smokers i).pc ≠ .dead := by
        intro hdead
        have hsignalled := h.signalled i (.inr hdead)
        rw [hpc] at hsignalled
        exact hsignalled
      obtain ⟨⟨me, out⟩, hme⟩ := Smoker.step_isSome terminal i hforked hdead hone (by omega)
      exact ⟨.smoker i, by simp [next, hme]⟩
  | kill k => exact ⟨.parent, by simp only [next, parentStep, hpc]; split_ifs <;> exact ⟨_, rfl⟩⟩
  | waitpid k =>
    by_cases hdead : (s.smokers k).pc = .dead
    · exact ⟨.parent, by simp [next, parentStep, hpc, hdead]⟩
    · obtain ⟨hk, _⟩ : k < n_smokers ∧ s.input = [] := by
        simpa [hpc, State.Within] using hwithin
      have hforked : (s.smokers k).pc ≠ .absent := by
        rw [Ne, h.forked, hpc]
        exact Nat.not_le.mpr hk
      have hpending := (h.ended k hk (by rw [hpc]; exact Nat.le_refl k)).resolve_left hdead
      exact ⟨.deliver k, by simp [next, Smoker.deliver, hpending.1, hforked, hdead]⟩
  | returned => exact absurd hpc hparent

end Rank

/-- Whatever the order of the steps: the program ends, its three children are gone, and for each
byte of the input, a newline included, its line is printed in turn. -/
theorem inevitably_printed (terminal : Bool) (input : Bytes) :
    Inevitably (next terminal) (fun s => s.parent = .returned ∧
      (∀ i < n_smokers, (s.smokers i).pc = .dead) ∧ s.printed = lines input) (initial input) := by
  apply inevitably_of_measure (I := Inv input) State.rank
  · intro s hs hnot
    refine hs.exists_next fun hreturned => hnot ⟨hreturned, fun i hi => ?_, ?_⟩
    · have hended := hs.ended i hi (by rw [hreturned]; trivial)
      simpa [hreturned] using hended
    · have hprinted := hs.printed
      have hinput : s.input = [] := by simpa [hreturned, State.Within] using hs.within
      rw [State.owed, hreturned, hinput] at hprinted
      simpa [lines] using hprinted.symm
  · exact fun s l t hs _ hstep => ⟨hs.any hstep, hs.next_rank hstep⟩
  · exact initial_inv input

/-- At every moment a prefix of these lines is printed, and all of them once a signal is sent: none
is lost in a buffer of a smoker that ends. -/
theorem printed_of_reachable (terminal : Bool) (input : Bytes) {s : State}
    (h : Reachable (next terminal) (initial input) s) :
    s.printed <+: lines input ∧ ∀ i, (s.smokers i).pending ∨ (s.smokers i).pc = .dead →
      s.printed = lines input ∧ ∀ j, (s.smokers j).buffer = [] := by
  have hs : Inv input s := h.invariant (fun _ _ _ h hl => h.any hl) (initial_inv input)
  have hprinted := hs.printed
  refine ⟨⟨s.owed ++ lines s.input, by simp [hprinted]⟩, fun i hi => ?_⟩
  have hsignalled := hs.signalled i hi
  have hwithin := hs.within
  obtain ⟨hinput, howed, hturn⟩ : s.input = [] ∧ s.owed = [] ∧ ∀ j, s.parent ≠ .wait j := by
    cases hparent : s.parent <;> simp_all [State.Within, State.owed, ParentPc.Signalled]
  constructor
  · rw [howed, hinput] at hprinted
    simpa [lines] using hprinted.symm
  · exact fun j => (List.append_eq_nil_iff.mp (hs.owed_eq_nil (hturn j))).2

/-- One line is printed and the other one is in the buffer of the second smoker. -/
theorem printed_of_reachable_two : ∃ s, Reachable (next false) (initial [116, 112]) s ∧
    s.printed <+: lines [116, 112] ∧ ∀ i, (s.smokers i).pending ∨ (s.smokers i).pc = .dead →
      s.printed = lines [116, 112] ∧ ∀ j, (s.smokers j).buffer = [] := by
  have hrun : (run (next false) (initial [116, 112]) [.parent, .parent, .parent, .parent, .parent,
      .parent, .smoker 0, .smoker 0, .smoker 0, .smoker 0, .smoker 0, .parent, .parent, .parent,
      .smoker 1, .smoker 1, .smoker 1]).isSome := rfl
  obtain ⟨s, hs⟩ := Option.isSome_iff_exists.mp hrun
  exact ⟨s, ⟨_, hs⟩, printed_of_reachable false [116, 112] ⟨_, hs⟩⟩

end Acos.ToHand
