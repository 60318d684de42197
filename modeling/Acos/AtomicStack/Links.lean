import Acos.AtomicStack.Model

/-! The list while fields are missing: each of them is set, or owed by the one thread that will set
it. -/
namespace Acos.AtomicStack

/-- The item that a thread has allocated and not yet completed. -/
def Pc.item : Pc → Option Addr
  | .exchange a => some a
  | .link a _ => some a
  | .store a => some a
  | _ => none

section
variable (items : Addr → Option Item) (threads : ℕ → Option Worker)

/-- The `next` of an item, set or owed. -/
def NextOf (a : Addr) (q : Option Addr) : Prop :=
  (∃ value, items a = some ⟨value, some q⟩) ∨ ∃ w x, threads w = some x ∧ x.pc = .link a q

/-- The `value` of an item, set or owed. -/
def ValueOf (a : Addr) (v : ℤ) : Prop :=
  (∃ next, items a = some ⟨some v, next⟩) ∨
    ∃ w x, threads w = some x ∧ x.i = v ∧ (x.pc = .store a ∨ ∃ old, x.pc = .link a old)

/-- The list from `p` on has these values. -/
def Chain : Option Addr → List ℤ → Prop
  | p, [] => p = none
  | p, v :: vs => ∃ a q, p = some a ∧ ValueOf items threads a v ∧ NextOf items threads a q ∧ Chain q vs

/-- The items that are not complete belong to one thread each. -/
structure Owned : Prop where
  unset : ∀ w x a, threads w = some x → x.pc.item = some a →
    ∃ next, items a = some ⟨none, next⟩ ∧ (x.pc ≠ .store a → next = none)
  apart : ∀ w w' x x' a, threads w = some x → threads w' = some x' → x.pc.item = some a →
    x'.pc.item = some a → w = w'
  bound : ∃ b, ∀ a, b ≤ a → items a = none

end

section
variable {k w : ℕ} {s s' : Shared} {me me' : Worker} {action : Action}

/-- What one step of a thread does. -/
theorem step_cases (h : step k w s me action = some (s', me')) :
    (∃ a, me.pc = .test ∧ me.i < end_val k w ∧ s.items a = none ∧
        s' = ⟨Function.update s.items a (some ⟨none, none⟩), s.head⟩ ∧
        me' = ⟨.exchange a, me.i⟩) ∨
      (me.pc = .test ∧ end_val k w ≤ me.i ∧ s' = s ∧ me' = ⟨.finished, me.i⟩) ∨
      (∃ a, me.pc = .exchange a ∧ s' = ⟨s.items, some a⟩ ∧ me' = ⟨.link a s.head, me.i⟩) ∨
      (∃ a old item, me.pc = .link a old ∧ s.items a = some item ∧
        s' = ⟨Function.update s.items a (some ⟨item.value, some old⟩), s.head⟩ ∧
        me' = ⟨.store a, me.i⟩) ∨
      ∃ a item, me.pc = .store a ∧ s.items a = some item ∧
        s' = ⟨Function.update s.items a (some ⟨some me.i, item.next⟩), s.head⟩ ∧
        me' = ⟨.test, me.i + 1⟩ := by
  obtain ⟨pc, i⟩ := me
  cases action with
  | malloc a =>
    simp only [step, Option.ite_none_right_eq_some, Option.some.injEq, Prod.mk.injEq] at h
    obtain ⟨⟨hpc, hlt, hnone⟩, rfl, rfl⟩ := h
    exact .inl ⟨a, hpc, hlt, hnone, rfl, rfl⟩
  | go =>
    cases pc with
    | test =>
      simp only [step, Option.ite_none_left_eq_some, Option.some.injEq, Prod.mk.injEq, not_lt] at h
      obtain ⟨hle, rfl, rfl⟩ := h
      exact .inr (.inl ⟨rfl, hle, rfl, rfl⟩)
    | exchange a =>
      simp only [step, Option.some.injEq, Prod.mk.injEq] at h
      obtain ⟨rfl, rfl⟩ := h
      exact .inr (.inr (.inl ⟨a, rfl, rfl, rfl⟩))
    | link a old =>
      obtain ⟨item, hitem, heq⟩ := Option.map_eq_some_iff.mp h
      obtain ⟨rfl, rfl⟩ := Prod.mk.inj heq
      exact .inr (.inr (.inr (.inl ⟨a, old, item, rfl, hitem, rfl, rfl⟩)))
    | store a =>
      obtain ⟨item, hitem, heq⟩ := Option.map_eq_some_iff.mp h
      obtain ⟨rfl, rfl⟩ := Prod.mk.inj heq
      exact .inr (.inr (.inr (.inr ⟨a, item, rfl, hitem, rfl, rfl⟩)))
    | finished => simp [step] at h

end

section
variable {k w : ℕ} {s s' : Shared} {threads : ℕ → Option Worker} {x x' : Worker} {action : Action}
  {a : Addr} {p q : Option Addr} {v : ℤ} {vs : List ℤ}

theorem Chain.mono {items items' : Addr → Option Item} {threads' : ℕ → Option Worker}
    (h : Chain items threads p vs)
    (hvalue : ∀ a v, ValueOf items threads a v → ValueOf items' threads' a v)
    (hnext : ∀ a q, NextOf items threads a q → NextOf items' threads' a q) :
    Chain items' threads' p vs := by
  induction vs generalizing p with
  | nil => exact h
  | cons v vs ih =>
    obtain ⟨a, q, hp, hv, hq, hrest⟩ := h
    exact ⟨a, q, hp, hvalue a v hv, hnext a q hq, ih hrest⟩

/-- The thread that owes the `next` of an item is another one than the thread that moves. -/
theorem nextOf_other (h : ∃ w' y, threads w' = some y ∧ y.pc = .link a q)
    (hx : threads w = some x) (hne : x.pc ≠ .link a q) :
    ∃ w' y, Function.update threads w (some x') w' = some y ∧ y.pc = .link a q := by
  obtain ⟨w', y, hy, hpc⟩ := h
  have hww : w' ≠ w := by
    rintro rfl
    rw [hx, Option.some.injEq] at hy
    exact hne (hy ▸ hpc)
  exact ⟨w', y, by rw [Function.update_of_ne hww, hy], hpc⟩

theorem nextOf_step (howned : Owned s.items threads) (hx : threads w = some x)
    (hstep : step k w s x action = some (s', x')) (h : NextOf s.items threads a q) :
    NextOf s'.items (Function.update threads w (some x')) a q := by
  rcases step_cases hstep with ⟨b, hpc, _, hnone, rfl, rfl⟩ | ⟨hpc, _, rfl, rfl⟩ | ⟨b, hpc, rfl, rfl⟩ |
    ⟨b, old, item, hpc, hitem, rfl, rfl⟩ | ⟨b, item, hpc, hitem, rfl, rfl⟩
  · rcases h with ⟨value, hset⟩ | howed
    · have hab : a ≠ b := by
        rintro rfl
        simp [hnone] at hset
      exact .inl ⟨value, by simpa [hab] using hset⟩
    · exact .inr (nextOf_other howed hx (by simp [hpc]))
  · rcases h with hset | howed
    · exact .inl hset
    · exact .inr (nextOf_other howed hx (by simp [hpc]))
  · rcases h with hset | howed
    · exact .inl hset
    · exact .inr (nextOf_other howed hx (by simp [hpc]))
  · obtain ⟨next, hunset, hnext⟩ := howned.unset w x b hx (by rw [hpc]; rfl)
    rcases h with ⟨value, hset⟩ | howed
    · have hab : a ≠ b := by
        rintro rfl
        rw [hset, Option.some.injEq, Item.mk.injEq] at hunset
        have hnone := hnext (by simp [hpc])
        rw [hnone] at hunset
        cases hunset.2
      exact .inl ⟨value, by simpa [hab] using hset⟩
    · by_cases hmine : x.pc = .link a q
      · obtain ⟨rfl, rfl⟩ : b = a ∧ old = q := by simpa [hpc] using hmine
        exact .inl ⟨item.value, by simp⟩
      · exact .inr (nextOf_other howed hx hmine)
  · rcases h with ⟨value, hset⟩ | howed
    · by_cases hab : a = b
      · subst hab
        rw [hset, Option.some.injEq] at hitem
        exact .inl ⟨some x.i, by simp [← hitem]⟩
      · exact .inl ⟨value, by simpa [hab] using hset⟩
    · exact .inr (nextOf_other howed hx (by simp [hpc]))

/-- The same for the `value`. -/
theorem valueOf_other
    (h : ∃ w' y, threads w' = some y ∧ y.i = v ∧ (y.pc = .store a ∨ ∃ old, y.pc = .link a old))
    (hx : threads w = some x) (hne : x.pc ≠ .store a ∧ ∀ old, x.pc ≠ .link a old) :
    ∃ w' y, Function.update threads w (some x') w' = some y ∧ y.i = v ∧
      (y.pc = .store a ∨ ∃ old, y.pc = .link a old) := by
  obtain ⟨w', y, hy, hi, hpc⟩ := h
  have hww : w' ≠ w := by
    rintro rfl
    rw [hx, Option.some.injEq] at hy
    subst hy
    rcases hpc with hpc | ⟨old, hpc⟩
    · exact hne.1 hpc
    · exact hne.2 old hpc
  exact ⟨w', y, by rw [Function.update_of_ne hww, hy], hi, hpc⟩

theorem valueOf_step (howned : Owned s.items threads) (hx : threads w = some x)
    (hstep : step k w s x action = some (s', x')) (h : ValueOf s.items threads a v) :
    ValueOf s'.items (Function.update threads w (some x')) a v := by
  rcases step_cases hstep with ⟨b, hpc, _, hnone, rfl, rfl⟩ | ⟨hpc, _, rfl, rfl⟩ | ⟨b, hpc, rfl, rfl⟩ |
    ⟨b, old, item, hpc, hitem, rfl, rfl⟩ | ⟨b, item, hpc, hitem, rfl, rfl⟩
  · rcases h with ⟨next, hset⟩ | howed
    · have hab : a ≠ b := by
        rintro rfl
        simp [hnone] at hset
      exact .inl ⟨next, by simpa [hab] using hset⟩
    · exact .inr (valueOf_other howed hx (by simp [hpc]))
  · rcases h with hset | howed
    · exact .inl hset
    · exact .inr (valueOf_other howed hx (by simp [hpc]))
  · rcases h with hset | howed
    · exact .inl hset
    · exact .inr (valueOf_other howed hx (by simp [hpc]))
  · rcases h with ⟨next, hset⟩ | howed
    · by_cases hab : a = b
      · subst hab
        rw [hset, Option.some.injEq] at hitem
        exact .inl ⟨some old, by simp [← hitem]⟩
      · exact .inl ⟨next, by simpa [hab] using hset⟩
    · by_cases hab : a = b
      · subst hab
        obtain ⟨w', y, hy, hi, hyitem⟩ := howed
        have hww : w = w' := by
          apply howned.apart w w' x y a hx hy (by rw [hpc]; rfl)
          rcases hyitem with hyitem | ⟨old', hyitem⟩ <;> (rw [hyitem]; rfl)
        subst hww
        rw [hx, Option.some.injEq] at hy
        exact .inr ⟨w, _, Function.update_self .., hy ▸ hi, .inl rfl⟩
      · exact .inr (valueOf_other howed hx (by simp [hpc, Ne.symm hab]))
  · obtain ⟨next, hunset, _⟩ := howned.unset w x b hx (by rw [hpc]; rfl)
    rcases h with ⟨nx, hset⟩ | howed
    · have hab : a ≠ b := by
        rintro rfl
        simp [hset] at hunset
      exact .inl ⟨nx, by simpa [hab] using hset⟩
    · by_cases hab : a = b
      · subst hab
        obtain ⟨w', y, hy, hi, hyitem⟩ := howed
        have hww : w = w' := by
          apply howned.apart w w' x y a hx hy (by rw [hpc]; rfl)
          rcases hyitem with hyitem | ⟨old', hyitem⟩ <;> (rw [hyitem]; rfl)
        subst hww
        rw [hx, Option.some.injEq] at hy
        exact .inl ⟨item.next, by simp [← hi, hy]⟩
      · exact .inr (valueOf_other howed hx (by simp [hpc, Ne.symm hab]))

theorem chain_step (howned : Owned s.items threads) (hx : threads w = some x)
    (hstep : step k w s x action = some (s', x')) (h : Chain s.items threads p vs) :
    Chain s'.items (Function.update threads w (some x')) p vs :=
  h.mono (fun _ _ => valueOf_step howned hx hstep) fun _ _ => nextOf_step howned hx hstep

/-- What a step has to do to the item of its thread. -/
theorem Owned.change {items items' : Addr → Option Item} (h : Owned items threads)
    (hx : threads w = some x)
    (hframe : ∀ b item, x.pc.item ≠ some b → items b = some item → items' b = some item)
    (hitem : ∀ b, x'.pc.item = some b → (x.pc.item = some b ∨ items b = none) ∧
      ∃ next, items' b = some ⟨none, next⟩ ∧ (x'.pc ≠ .store b → next = none))
    (hbound : ∃ b, ∀ c, b ≤ c → items' c = none) :
    Owned items' (Function.update threads w (some x')) := by
  have hother : ∀ {w' y b}, w' ≠ w → threads w' = some y → y.pc.item = some b →
      x'.pc.item ≠ some b := by
    intro w' y b hne hy hb hb'
    rcases (hitem b hb').1 with hmine | hnone
    · exact hne (h.apart w' w y x b hy hx hb hmine)
    · obtain ⟨next, hset, _⟩ := h.unset w' y b hy hb
      simp [hnone] at hset
  refine ⟨fun w' y b hy hb => ?_, fun w₁ w₂ y₁ y₂ b h₁ h₂ hb₁ hb₂ => ?_, hbound⟩
  · by_cases hne : w' = w
    · subst hne
      obtain rfl : x' = y := by simpa using hy
      exact (hitem b hb).2
    · rw [Function.update_of_ne hne] at hy
      obtain ⟨next, hset, hnext⟩ := h.unset w' y b hy hb
      refine ⟨next, hframe b _ (fun hmine => ?_) hset, hnext⟩
      exact hne (h.apart w' w y x b hy hx hb hmine)
  · by_cases hne₁ : w₁ = w <;> by_cases hne₂ : w₂ = w
    · rw [hne₁, hne₂]
    · subst hne₁
      obtain rfl : x' = y₁ := by simpa using h₁
      rw [Function.update_of_ne hne₂] at h₂
      exact absurd hb₁ (hother hne₂ h₂ hb₂)
    · subst hne₂
      obtain rfl : x' = y₂ := by simpa using h₂
      rw [Function.update_of_ne hne₁] at h₁
      exact absurd hb₂ (hother hne₁ h₁ hb₁)
    · rw [Function.update_of_ne hne₁] at h₁
      rw [Function.update_of_ne hne₂] at h₂
      exact h.apart w₁ w₂ y₁ y₂ b h₁ h₂ hb₁ hb₂

theorem bound_update {items : Addr → Option Item} (h : ∃ b, ∀ c, b ≤ c → items c = none)
    (a : Addr) (item : Item) :
    ∃ b, ∀ c, b ≤ c → Function.update items a (some item) c = none := by
  obtain ⟨b, hb⟩ := h
  refine ⟨max b (a + 1), fun c hc => ?_⟩
  have hne : c ≠ a := by
    rintro rfl
    exact Nat.not_succ_le_self c ((le_max_right b (c + 1)).trans hc)
  rw [Function.update_of_ne hne]
  exact hb c ((le_max_left b (a + 1)).trans hc)

theorem owned_step (howned : Owned s.items threads) (hx : threads w = some x)
    (hstep : step k w s x action = some (s', x')) :
    Owned s'.items (Function.update threads w (some x')) := by
  rcases step_cases hstep with ⟨b, hpc, _, hnone, rfl, rfl⟩ | ⟨hpc, _, rfl, rfl⟩ | ⟨b, hpc, rfl, rfl⟩ |
    ⟨b, old, item, hpc, hitem, rfl, rfl⟩ | ⟨b, item, hpc, hitem, rfl, rfl⟩
  · refine howned.change hx (fun c item _ hset => ?_) (fun c hc => ?_)
      (bound_update howned.bound b _)
    · have hne : c ≠ b := by
        rintro rfl
        simp [hnone] at hset
      simpa [hne] using hset
    · obtain rfl : b = c := by simpa [Pc.item] using hc
      exact ⟨.inr hnone, none, by simp, fun _ => rfl⟩
  · exact howned.change hx (fun c item _ hset => hset) (fun c hc => by simp [Pc.item] at hc)
      howned.bound
  · refine howned.change hx (fun c item _ hset => hset) (fun c hc => ?_) howned.bound
    obtain rfl : b = c := by simpa [Pc.item] using hc
    obtain ⟨next, hset, hnext⟩ := howned.unset w x b hx (by rw [hpc]; rfl)
    exact ⟨.inl (by rw [hpc]; rfl), next, hset, fun _ => hnext (by simp [hpc])⟩
  · obtain ⟨next, hset, hnext⟩ := howned.unset w x b hx (by rw [hpc]; rfl)
    refine howned.change hx (fun c item' hc hset' => ?_) (fun c hc => ?_)
      (bound_update howned.bound b _)
    · have hne : c ≠ b := by
        rintro rfl
        exact hc (by rw [hpc]; rfl)
      simpa [hne] using hset'
    · obtain rfl : b = c := by simpa [Pc.item] using hc
      obtain rfl : ⟨none, next⟩ = item := Option.some.inj (hset ▸ hitem)
      exact ⟨.inl (by rw [hpc]; rfl), some old, by simp, fun hne => absurd rfl hne⟩
  · refine howned.change hx (fun c item' hc hset' => ?_) (fun c hc => by simp [Pc.item] at hc)
      (bound_update howned.bound b _)
    have hne : c ≠ b := by
      rintro rfl
      exact hc (by rw [hpc]; rfl)
    simpa [hne] using hset'

/-- A thread that starts owns nothing. -/
theorem start_links (items : Addr → Option Item) {x : Worker} (hx : x.pc.item = none)
    (hnone : threads w = none) :
    (Owned items threads → Owned items (Function.update threads w (some x))) ∧
      (Chain items threads p vs → Chain items (Function.update threads w (some x)) p vs) := by
  have hother : ∀ {w' y}, threads w' = some y →
      Function.update threads w (some x) w' = some y := by
    intro w' y hy
    have hne : w' ≠ w := by
      rintro rfl
      simp [hnone] at hy
    rw [Function.update_of_ne hne, hy]
  have hback : ∀ {w' y b}, Function.update threads w (some x) w' = some y →
      y.pc.item = some b → threads w' = some y := by
    intro w' y b hy hb
    by_cases hne : w' = w
    · subst hne
      obtain rfl : x = y := by simpa using hy
      rw [hx] at hb
      cases hb
    · rwa [Function.update_of_ne hne] at hy
  constructor
  · intro h
    exact ⟨fun w' y b hy hb => h.unset w' y b (hback hy hb) hb,
      fun w₁ w₂ y₁ y₂ b h₁ h₂ hb₁ hb₂ => h.apart w₁ w₂ y₁ y₂ b (hback h₁ hb₁) (hback h₂ hb₂) hb₁ hb₂,
      h.bound⟩
  · intro h
    refine h.mono (fun a v hv => ?_) fun a q hq => ?_
    · rcases hv with hset | ⟨w', y, hy, hrest⟩
      · exact .inl hset
      · exact .inr ⟨w', y, hother hy, hrest⟩
    · rcases hq with hset | ⟨w', y, hy, hrest⟩
      · exact .inl hset
      · exact .inr ⟨w', y, hother hy, hrest⟩

/-- Where no thread owes anything, the list is printed. -/
theorem Chain.print_list {items : Addr → Option Item}
    (hdone : ∀ w x, threads w = some x → x.pc.item = none) (h : Chain items threads p vs)
    (hne : vs ≠ []) : print_list items vs.length p = some vs := by
  induction vs generalizing p with
  | nil => exact absurd rfl hne
  | cons v vs ih =>
    obtain ⟨a, q, rfl, hv, hq, hrest⟩ := h
    obtain ⟨next, hset⟩ : ∃ next, items a = some ⟨some v, next⟩ := by
      refine hv.resolve_right ?_
      rintro ⟨w, x, hx, -, hpc⟩
      have hitem := hdone w x hx
      rcases hpc with hpc | ⟨old, hpc⟩ <;> simp [hpc, Pc.item] at hitem
    obtain ⟨value, hset'⟩ : ∃ value, items a = some ⟨value, some q⟩ := by
      refine hq.resolve_right ?_
      rintro ⟨w, x, hx, hpc⟩
      have hitem := hdone w x hx
      simp [hpc, Pc.item] at hitem
    obtain ⟨rfl, rfl⟩ : some v = value ∧ next = some q := by simpa [hset] using hset'
    cases vs with
    | nil =>
      obtain rfl : q = none := hrest
      simp [AtomicStack.print_list, hset]
    | cons v' vs =>
      obtain ⟨a', q', rfl, _⟩ := id hrest
      have hrec := ih hrest (List.cons_ne_nil _ _)
      rw [List.length_cons, AtomicStack.print_list, hset]
      simp only [hrec, Option.map_some]

end
end Acos.AtomicStack
