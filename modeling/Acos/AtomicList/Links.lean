import Acos.AtomicList.Counting

/-! The shape of the list while links are missing. The exchanges put the items in a
fixed order; between consecutive items of it the link is either written or still owed
by the one worker that will write it. -/
namespace Acos.AtomicList
open Acos.Lists

variable {n : ℕ}

/-- What the link after `p` holds: the head pointer for `none`, else a `next` field. -/
def nextOf (s : State n) : Option Addr → Option Addr
  | none => s.list.head
  | some a => (s.items a).bind Item.next

/-- The places links are written to, in the order of the exchanges. -/
def cells (chain : List Addr) : List (Option Addr) := none :: chain.map some

/-- The link from `p` to `q` is written, or some worker is about to write it. -/
def Edge (s : State n) (p q : Option Addr) : Prop :=
  ∃ a, q = some a ∧
    (nextOf s p = some a ∨ nextOf s p = none ∧ ∃ w, (s.workers w).pc = .link a p)

structure Linked (past : List (Label n)) (s : State n) (chain : List Addr) : Prop where
  nodup : chain.Nodup
  values : chain.map (valueAt s.items) = (exchanged past).map some
  tail : s.list.tail = chain.getLast?
  edges : (cells chain).IsChain (Edge s)
  open_end : nextOf s chain.getLast? = none
  fresh : ∀ w a, (s.workers w).pc = .exchange a →
    a ∉ chain ∧ s.items a = some ⟨(s.workers w).i, none⟩
  fresh_inj : ∀ w v a, (s.workers w).pc = .exchange a → (s.workers v).pc = .exchange a → w = v
  pending : ∀ w a p, (s.workers w).pc = .link a p →
    [p, some a] <:+: cells chain ∧ nextOf s p = none
  pending_inj : ∀ w v a p q, (s.workers w).pc = .link a p → (s.workers v).pc = .link a q → w = v

theorem initial_linked (k : ℕ) : Linked [] (initial n k) [] := by
  constructor <;> simp [initial, exchanged, cells, nextOf]

theorem cells_nodup {chain : List Addr} (h : chain.Nodup) : (cells chain).Nodup := by
  simp only [cells, List.nodup_cons, List.mem_map, reduceCtorEq, and_false, exists_false,
    not_false_eq_true, true_and]
  exact h.map (Option.some_injective _)

theorem cells_getLast? (chain : List Addr) : (cells chain).getLast? = some chain.getLast? := by
  cases chain <;> simp [cells, List.getLast?_cons, List.getLast?_map]

theorem cells_snoc (chain : List Addr) (a : Addr) :
    cells (chain ++ [a]) = cells chain ++ [some a] := by simp [cells]

/-- Every item of the chain has been allocated. -/
theorem Linked.allocated {past : List (Label n)} {s : State n} {chain : List Addr}
    (hs : Linked past s chain) {a : Addr} (ha : a ∈ chain) : ∃ it, s.items a = some it := by
  have hmem : valueAt s.items a ∈ (exchanged past).map some :=
    hs.values ▸ List.mem_map_of_mem ha
  obtain ⟨v, _, hv⟩ := List.mem_map.mp hmem
  obtain ⟨it, hit, _⟩ := Option.map_eq_some_iff.mp hv.symm
  exact ⟨it, hit⟩

/-- Steps that write no link and leave owed links owed keep every edge. -/
theorem Edge.mono {s t : State n} {p q : Option Addr} (h : Edge s p q)
    (hnext : nextOf t p = nextOf s p)
    (hpend : ∀ v a, (s.workers v).pc = .link a p → (t.workers v).pc = .link a p) :
    Edge t p q := by
  obtain ⟨a, rfl, hw | ⟨hnone, v, hv⟩⟩ := h
  · exact ⟨a, rfl, .inl (hnext.trans hw)⟩
  · exact ⟨a, rfl, .inr ⟨hnext.trans hnone, v, hpend v a hv⟩⟩

section Update
variable {workers : Fin n → Worker} {w : Fin n} {x : Worker}

/-- Where the worker that moves is not, another one has been before. -/
theorem place_before {P : Worker → Prop} (hx : ¬ P x) {v : Fin n}
    (hv : P (Function.update workers w x v)) : v ≠ w ∧ P (workers v) := by
  have hvw : v ≠ w := by
    rintro rfl
    rw [Function.update_self] at hv
    exact hx hv
  rw [Function.update_of_ne hvw] at hv
  exact ⟨hvw, hv⟩

/-- A worker that comes to a place where no other one has the same item keeps the items apart. -/
theorem only_update {P : Worker → Addr → Prop}
    (h : ∀ v u a, P (workers v) a → P (workers u) a → v = u)
    (hx : ∀ v a, v ≠ w → P x a → ¬ P (workers v) a) (v u : Fin n) (a : Addr)
    (hv : P (Function.update workers w x v) a) (hu : P (Function.update workers w x u) a) :
    v = u := by
  by_cases hvw : v = w <;> by_cases huw : u = w
  · rw [hvw, huw]
  · subst hvw
    rw [Function.update_self] at hv
    rw [Function.update_of_ne huw] at hu
    exact absurd hu (hx u a huw hv)
  · subst huw
    rw [Function.update_self] at hu
    rw [Function.update_of_ne hvw] at hv
    exact absurd hv (hx v a hvw hu)
  · rw [Function.update_of_ne hvw] at hv
    rw [Function.update_of_ne huw] at hu
    exact h v u a hv hu

end Update

section Step
variable {k : ℕ} {past : List (Label n)} {s t : State n} {chain : List Addr} {w : Fin n}

/-- The injectivity of owed links, for the item alone. -/
theorem Linked.pending_only (hs : Linked past s chain) (v u : Fin n) (a : Addr)
    (hv : ∃ p, (s.workers v).pc = .link a p) (hu : ∃ p, (s.workers u).pc = .link a p) : v = u := by
  obtain ⟨p, hp⟩ := hv
  obtain ⟨q, hq⟩ := hu
  exact hs.pending_inj v u a p q hp hq

/-- Steps of one worker that touch neither the list nor the items. -/
theorem Linked.control (hs : Linked past s chain) {l : Label n} {x : Worker}
    (hl : exchanged [l] = []) (hitems : t.items = s.items) (hhead : t.list.head = s.list.head)
    (htail : t.list.tail = s.list.tail)
    (hworkers : t.workers = Function.update s.workers w x)
    (hbefore : ∀ a p, (s.workers w).pc ≠ .link a p) (hafter : ∀ a p, x.pc ≠ .link a p)
    (hfresh : ∀ a, x.pc ≠ .exchange a) : Linked (past ++ [l]) t chain := by
  have hnext : nextOf t = nextOf s := by
    funext p
    cases p <;> simp [nextOf, hitems, hhead]
  refine ⟨hs.nodup, ?_, htail ▸ hs.tail, hs.edges.imp fun p q h => h.mono (by rw [hnext]) ?_,
    hnext ▸ hs.open_end, ?_, ?_, ?_, ?_⟩
  · rw [exchanged_append, hl, List.append_nil, hitems, hs.values]
  · intro v a hv
    have hvw : v ≠ w := fun h => hbefore a p (h ▸ hv)
    rw [hworkers, Function.update_of_ne hvw, hv]
  · intro v a hv
    rw [hworkers] at hv ⊢
    obtain ⟨hvw, hv⟩ := place_before (P := fun x => x.pc = .exchange a) (hfresh a) hv
    rw [Function.update_of_ne hvw, hitems]
    exact hs.fresh v a hv
  · rw [hworkers]
    apply only_update (P := fun x a => x.pc = .exchange a) hs.fresh_inj
    exact fun _ a _ ha => absurd ha (hfresh a)
  · intro v a p hv
    rw [hworkers] at hv
    obtain ⟨-, hv⟩ := place_before (P := fun x => x.pc = .link a p) (hafter a p) hv
    rw [hnext]
    exact hs.pending v a p hv
  · rw [hworkers]
    intro v u a p q hv hu
    obtain ⟨-, hv⟩ := place_before (P := fun x => x.pc = .link a p) (hafter a p) hv
    obtain ⟨-, hu⟩ := place_before (P := fun x => x.pc = .link a q) (hafter a q) hu
    exact hs.pending_inj v u a p q hv hu

/-- A new item is at no place of the list, and what the links hold stays. -/
theorem nextOf_alloc {item : Addr} {it : Item} (hnone : s.items item = none)
    (hit : it.next = none) {x : Worker} :
    nextOf ({ s with items := Function.update s.items item (some it) }.setWorker w x) =
      nextOf s := by
  funext p
  cases p with
  | none => rfl
  | some a =>
    by_cases ha : a = item
    · subst ha
      simp [nextOf, hnone, hit]
    · simp [nextOf, ha]

theorem Linked.alloc (hs : Linked past s chain) {item : Addr}
    (h : next k s (.alloc w item) = some t) : Linked (past ++ [.alloc w item]) t chain := by
  obtain ⟨hpc, _, hnone, rfl⟩ := next_alloc h
  have hne : ∀ a ∈ chain, a ≠ item := by
    rintro a ha rfl
    obtain ⟨it, hit⟩ := hs.allocated ha
    simp [hnone] at hit
  have hnext := @nextOf_alloc n s w item ⟨(s.workers w).i, none⟩ hnone rfl
    { s.workers w with pc := .exchange item }
  refine ⟨hs.nodup, ?_, hs.tail, hs.edges.imp ?_, by rw [hnext]; exact hs.open_end,
    ?_, ?_, ?_, ?_⟩
  · have hvalues := hs.values
    simp only [exchanged_append, exchanged, List.append_nil, ← hvalues]
    apply List.map_congr_left
    intro a ha
    simp [valueAt, hne a ha]
  · intro p q hpq
    apply hpq.mono (by rw [hnext])
    intro v a hv
    have hvw : v ≠ w := by
      rintro rfl
      simp [hpc] at hv
    simpa [hvw] using hv
  · intro v a hv
    by_cases hvw : v = w
    · subst hvw
      simp only [setWorker_self, Pc.exchange.injEq] at hv
      subst hv
      exact ⟨fun ha => hne _ ha rfl, by simp⟩
    · simp only [setWorker_workers, Function.update_of_ne hvw] at hv ⊢
      obtain ⟨hmem, hit⟩ := hs.fresh v a hv
      have ha : a ≠ item := by
        rintro rfl
        simp [hnone] at hit
      exact ⟨hmem, by simpa [ha] using hit⟩
  · apply only_update (P := fun x a => x.pc = .exchange a) hs.fresh_inj
    rintro v a - ha hv
    obtain rfl : item = a := by simpa using ha
    have hit := (hs.fresh v item hv).2
    simp [hnone] at hit
  · intro v a p hv
    obtain ⟨-, hv⟩ := place_before (P := fun x => x.pc = .link a p) (by simp) hv
    rw [hnext]
    exact hs.pending v a p hv
  · intro v u a p q hv hu
    obtain ⟨-, hv⟩ := place_before (P := fun x => x.pc = .link a p) (by simp) hv
    obtain ⟨-, hu⟩ := place_before (P := fun x => x.pc = .link a q) (by simp) hu
    exact hs.pending_inj v u a p q hv hu

theorem Linked.exchange (hs : Linked past s chain) {v : ℕ}
    (h : next k s (.exchange w v) = some t) :
    ∃ item, Linked (past ++ [.exchange w v]) t (chain ++ [item]) := by
  obtain ⟨item, hpc, rfl, rfl⟩ := next_exchange h
  obtain ⟨hmem, hitem⟩ := hs.fresh w item hpc
  have hnext : nextOf ({ s with list.tail := some item }.setWorker w
      { s.workers w with pc := .link item s.list.tail }) = nextOf s := by
    funext p
    cases p <;> rfl
  have hsub : cells chain <:+: cells (chain ++ [item]) := ⟨[], [some item], by simp [cells]⟩
  have hpair : [s.list.tail, some item] <:+: cells (chain ++ [item]) := by
    obtain ⟨l, hl⟩ := List.getLast?_eq_some_iff.mp (cells_getLast? chain)
    exact ⟨l, [], by rw [cells_snoc, hl, hs.tail]; simp⟩
  have hopen : nextOf s s.list.tail = none := hs.tail ▸ hs.open_end
  refine ⟨item, ?_, ?_, by simp, ?_, ?_, ?_, ?_, ?_, ?_⟩
  · simpa [List.nodup_append, hs.nodup] using fun a ha (h : a = item) => hmem (h ▸ ha)
  · simp [exchanged_append, exchanged, hs.values, valueAt, hitem]
  · rw [cells_snoc]
    refine List.isChain_append.mpr ⟨hs.edges.imp ?_, by simp, ?_⟩
    · intro p q hpq
      apply hpq.mono (by rw [hnext])
      intro u a hu
      have huw : u ≠ w := by
        rintro rfl
        simp [hpc] at hu
      simpa [huw] using hu
    · rw [cells_getLast?]
      rintro p hp q hq
      obtain rfl := Option.mem_some_iff.mp hp
      obtain rfl : some item = q := by simpa using hq
      rw [← hs.tail]
      exact ⟨item, rfl, .inr ⟨by rw [hnext]; exact hopen, w, by simp⟩⟩
  · simp [nextOf, hitem]
  · intro u a hu
    obtain ⟨huw, hu⟩ := place_before (P := fun x => x.pc = .exchange a) (by simp) hu
    obtain ⟨ha, hit⟩ := hs.fresh u a hu
    have hne : a ≠ item := by
      rintro rfl
      exact huw (hs.fresh_inj u w a hu hpc)
    exact ⟨by simp [ha, hne], by simpa [huw] using hit⟩
  · apply only_update (P := fun x a => x.pc = .exchange a) hs.fresh_inj
    rintro u a - ha
    simp at ha
  · intro u a p hu
    rw [hnext]
    by_cases huw : u = w
    · subst huw
      simp only [setWorker_self, Pc.link.injEq] at hu
      obtain ⟨rfl, rfl⟩ := hu
      exact ⟨hpair, hopen⟩
    · obtain ⟨hin, hp⟩ := hs.pending u a p (by simpa [huw] using hu)
      exact ⟨hin.trans hsub, hp⟩
  · intro u x a p q hu hx
    apply only_update (P := fun x a => ∃ p, x.pc = .link a p) hs.pending_only _ u x a
      ⟨p, hu⟩ ⟨q, hx⟩
    rintro y b - ⟨r, hr⟩ ⟨r', hy⟩
    obtain ⟨rfl, -⟩ : item = b ∧ s.list.tail = r := by simpa using hr
    have hin :=
      (hs.pending y item r' hy).1.subset (List.mem_cons_of_mem r' (List.mem_singleton_self _))
    simp [cells, hmem] at hin

/-- A link step writes exactly the link that its worker owes. -/
theorem next_link_frame (hs : Linked past s chain) (h : next k s (.link w) = some t) :
    ∃ item p, (s.workers w).pc = .link item p ∧
      t.workers = Function.update s.workers w { s.workers w with pc := .count } ∧
      t.list.tail = s.list.tail ∧ nextOf t = Function.update (nextOf s) p (some item) ∧
      (∀ a, valueAt t.items a = valueAt s.items a) ∧ ∀ a ∉ chain, t.items a = s.items a := by
  obtain ⟨item, ⟨hpc, rfl⟩ | ⟨tail, hpc, rfl⟩⟩ := next_link h
  · refine ⟨item, none, hpc, rfl, rfl, ?_, fun _ => rfl, fun _ _ => rfl⟩
    funext p
    cases p <;> simp [nextOf]
  · have hmem : tail ∈ chain := by
      have hin := (hs.pending w item (some tail) hpc).1.subset (List.mem_cons_self)
      simpa [cells] using hin
    obtain ⟨it, hit⟩ := hs.allocated hmem
    refine ⟨item, some tail, hpc, rfl, rfl, ?_, ?_, ?_⟩
    · funext p
      cases p with
      | none => simp [nextOf]
      | some a =>
        by_cases ha : a = tail
        · subst ha
          simp [nextOf, setNext, hit]
        · simp [nextOf, setNext, ha]
    · intro a
      by_cases ha : a = tail
      · subst ha
        simp [valueAt, setNext, hit]
      · simp [valueAt, setNext, ha]
    · intro a ha
      have hne : a ≠ tail := fun h => ha (h ▸ hmem)
      simp [setNext, hne]

theorem Linked.link (hs : Linked past s chain) (h : next k s (.link w) = some t) :
    Linked (past ++ [.link w]) t chain := by
  obtain ⟨item, p, hpc, hworkers, htail, hnext, hvalues, hitems⟩ := next_link_frame hs h
  obtain ⟨hpair, hnone⟩ := hs.pending w item p hpc
  have hnodup := cells_nodup hs.nodup
  have hself : (t.workers w).pc = .count := by rw [hworkers, Function.update_self]
  have hother : ∀ v, v ≠ w → t.workers v = s.workers v := fun v hv => by
    rw [hworkers, Function.update_of_ne hv]
  have hne : ∀ v, (t.workers v).pc ≠ .count → t.workers v = s.workers v := by
    intro v hv
    exact hother v fun hvw => hv (hvw ▸ hself)
  refine ⟨hs.nodup, ?_, htail ▸ hs.tail, hs.edges.imp ?_, ?_, ?_, ?_, ?_, ?_⟩
  · simp only [exchanged_append, exchanged, List.append_nil, ← hs.values]
    exact List.map_congr_left fun a _ => hvalues a
  · rintro q r ⟨a, rfl, hqa⟩
    refine ⟨a, rfl, ?_⟩
    by_cases hqp : q = p
    · subst hqp
      obtain ⟨v, hv⟩ : ∃ v, (s.workers v).pc = .link a q := by
        rcases hqa with hqa | hqa
        · simp [hnone] at hqa
        · exact hqa.2
      have ha := pair_infix_right hnodup (hs.pending v a q hv).1 hpair
      rw [hnext, Function.update_self, ha]
      exact .inl rfl
    · rw [hnext, Function.update_of_ne hqp]
      rcases hqa with hqa | ⟨hq, v, hv⟩
      · exact .inl hqa
      · refine .inr ⟨hq, v, ?_⟩
        rw [hother v ?_, hv]
        rintro rfl
        rw [hpc, Pc.link.injEq] at hv
        exact hqp hv.2.symm
  · have hlast := pair_infix_ne_getLast hnodup hpair
    rw [cells_getLast?] at hlast
    rw [hnext, Function.update_of_ne fun h => hlast (congrArg some h)]
    exact hs.open_end
  · intro v a hv
    have hv' := hne v (by simp [hv])
    rw [hv'] at hv ⊢
    obtain ⟨ha, hit⟩ := hs.fresh v a hv
    exact ⟨ha, (hitems a ha).trans hit⟩
  · intro v u a hv hu
    rw [hne v (by simp [hv])] at hv
    rw [hne u (by simp [hu])] at hu
    exact hs.fresh_inj v u a hv hu
  · intro v a q hv
    have hvw : v ≠ w := by
      rintro rfl
      simp [hself] at hv
    rw [hother v hvw] at hv
    obtain ⟨hin, hq⟩ := hs.pending v a q hv
    refine ⟨hin, ?_⟩
    have hqp : q ≠ p := by
      rintro rfl
      have ha := pair_infix_right hnodup hin hpair
      rw [Option.some.injEq] at ha
      subst ha
      exact hvw (hs.pending_inj v w a q q hv hpc)
    rw [hnext, Function.update_of_ne hqp, hq]
  · intro v u a q r hv hu
    rw [hne v (by simp [hv])] at hv
    rw [hne u (by simp [hu])] at hu
    exact hs.pending_inj v u a q r hv hu

/-- Every step keeps the items in the order of the exchanges. -/
theorem linked_step {l : Label n} (hs : Linked past s chain) (h : next k s l = some t) :
    ∃ chain', Linked (past ++ [l]) t chain' := by
  cases l with
  | alloc w item => exact ⟨chain, hs.alloc h⟩
  | exchange w v =>
    obtain ⟨item, hs⟩ := hs.exchange h
    exact ⟨chain ++ [item], hs⟩
  | link w => exact ⟨chain, hs.link h⟩
  | count w =>
    obtain ⟨hpc, rfl⟩ := next_count h
    exact ⟨chain, hs.control (w := w) (x := ⟨.test, (s.workers w).i + 1⟩) rfl rfl rfl rfl rfl
      (by simp [hpc]) (by simp) (by simp)⟩
  | leave w =>
    obtain ⟨hpc, _, rfl⟩ := next_leave h
    exact ⟨chain, hs.control (w := w) (x := { s.workers w with pc := .finished })
      rfl rfl rfl rfl rfl (by simp [hpc]) (by simp) (by simp)⟩

end Step

/-- Without owed links the chain is what following `next` from the head visits. -/
theorem Linked.visits {past : List (Label n)} {s : State n} {chain : List Addr}
    (hs : Linked past s chain) (hdone : ∀ w a p, (s.workers w).pc ≠ .link a p) :
    Visits s.items s.list.head chain := by
  have hedges : (cells chain).IsChain fun p q => ∃ a, q = some a ∧ nextOf s p = some a := by
    apply hs.edges.imp
    rintro p q ⟨a, rfl, hp | ⟨_, w, hw⟩⟩
    · exact ⟨a, rfl, hp⟩
    · exact absurd hw (hdone w a p)
  have hgen : ∀ (l : List Addr) (p : Option Addr), (∀ a ∈ l, a ∈ chain) →
      (p :: l.map some).IsChain (fun p q => ∃ a, q = some a ∧ nextOf s p = some a) →
      nextOf s ((p :: l.map some).getLast (by simp)) = none → Visits s.items (nextOf s p) l := by
    intro l
    induction l with
    | nil =>
      intro p _ _ hlast
      simpa [Visits] using hlast
    | cons a l ih =>
      intro p hmem hchain hlast
      rw [List.map_cons, List.isChain_cons_cons] at hchain
      obtain ⟨⟨b, hb, hp⟩, hrest⟩ := hchain
      obtain rfl := Option.some.inj hb
      obtain ⟨it, hit⟩ := hs.allocated (hmem a List.mem_cons_self)
      have htail := ih (some a) (fun x hx => hmem x (List.mem_cons_of_mem a hx)) hrest
        (by simpa using hlast)
      have hnext : nextOf s (some a) = it.next := by simp [nextOf, hit]
      exact ⟨hp, it, hit, hnext ▸ htail⟩
  apply hgen chain none (fun _ h => h) hedges
  have hlast := cells_getLast? chain
  rw [List.getLast?_eq_some_getLast (by simp [cells]), Option.some.injEq] at hlast
  exact hlast ▸ hs.open_end

end Acos.AtomicList
