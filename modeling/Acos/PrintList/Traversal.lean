import Acos.PrintList.Correct
import Mathlib.Logic.Relation

/-! Whether the traversal comes to an end depends on the file alone: nothing keeps it from going
round in a circle. -/
namespace Acos.PrintList
open Acos.CString Acos.IntBytes

/-- The offset that the item at `p` points to. -/
def follow (file : Bytes) (p : ℕ) : Option ℕ := (getItem file p).map Item.next_pointer

/-- The traversal goes on from one offset to another; 0 as a pointer is the end. -/
def Points (file : Bytes) (p q : ℕ) : Prop := follow file p = some q ∧ q ≠ 0

/-- The offsets that the traversal comes to. -/
def Reached (file : Bytes) : ℕ → Prop := Relation.ReflTransGen (Points file) 0

def RoomForItems (file : Bytes) : Prop := ∀ p, Reached file p → p + 8 ≤ file.length

section
variable {sched : ℕ → ℕ} {file : Bytes} {n p q : ℕ} {s s' : State} {items items' : List (ℕ × ℤ)}

theorem follow_eq_some : follow file p = some q ↔ ∃ value, getItem file p = some ⟨value, q⟩ := by
  rw [follow, Option.map_eq_some_iff]
  constructor
  · rintro ⟨⟨value, q⟩, hitem, rfl⟩
    exact ⟨value, hitem⟩
  · rintro ⟨value, hitem⟩
    exact ⟨_, hitem, rfl⟩

/-- An item that can be read has room in the file. -/
theorem room_of_follow (h : follow file p = some q) : p + 8 ≤ file.length := by
  obtain ⟨value, hitem⟩ := follow_eq_some.mp h
  unfold getItem at hitem
  split at hitem
  · rename_i hdrop
    have hlen := congrArg List.length hdrop
    rw [List.length_drop] at hlen
    simp only [List.length_cons] at hlen
    omega
  · cases hitem

theorem exists_getItem (h : p + 8 ≤ file.length) : ∃ item, getItem file p = some item := by
  have hlen : 8 ≤ (file.drop p).length := by
    rw [List.length_drop]
    omega
  rcases hdrop : file.drop p with
    _ | ⟨a, _ | ⟨b, _ | ⟨c, _ | ⟨d, _ | ⟨e, _ | ⟨f, _ | ⟨g, _ | ⟨h, rest⟩⟩⟩⟩⟩⟩⟩⟩
  case cons.cons.cons.cons.cons.cons.cons.cons =>
    rw [getItem, hdrop]
    exact ⟨_, rfl⟩
  all_goals simp [hdrop] at hlen

/-- Where the pointers come to an end there is a list. -/
theorem exists_chain (hreached : Relation.ReflTransGen (Points file) p q)
    (hend : follow file q = some 0) : ∃ items, Chain file p items := by
  induction hreached using Relation.ReflTransGen.head_induction_on with
  | refl =>
    obtain ⟨value, hitem⟩ := follow_eq_some.mp hend
    exact ⟨_, .last hitem⟩
  | head hstep _ ih =>
    obtain ⟨value, hitem⟩ := follow_eq_some.mp hstep.1
    obtain ⟨items, hitems⟩ := ih
    exact ⟨_, .cons hitem hstep.2 hitems⟩

/-- An offset determines the list that starts there. -/
theorem Chain.unique (h : Chain file p items) (h' : Chain file p items') : items = items' := by
  induction h generalizing items' with
  | last h =>
    cases h' with
    | last g => rw [← (Item.mk.inj (Option.some.inj (h.symm.trans g))).1]
    | cons g hq => exact absurd (Item.mk.inj (Option.some.inj (g.symm.trans h))).2 hq
  | cons h hq _ ih =>
    cases h' with
    | last g => exact absurd (Item.mk.inj (Option.some.inj (h.symm.trans g))).2 hq
    | cons g _ hitems =>
      obtain ⟨rfl, rfl⟩ := Item.mk.inj (Option.some.inj (h.symm.trans g))
      rw [ih hitems]

/-- The rest of a list from one of its offsets on is a list. -/
theorem Chain.of_mem (h : Chain file p items) (hq : q ∈ items.map Prod.fst) :
    ∃ items', Chain file q items' ∧ items'.length ≤ items.length := by
  induction h with
  | last h =>
    rw [List.map_singleton, List.mem_singleton] at hq
    exact ⟨_, hq ▸ .last h, le_rfl⟩
  | cons h hne hitems ih =>
    rw [List.map_cons, List.mem_cons] at hq
    rcases hq with rfl | hq
    · exact ⟨_, .cons h hne hitems, le_rfl⟩
    · obtain ⟨items', hchain, hlen⟩ := ih hq
      exact ⟨items', hchain, hlen.trans (Nat.le_succ _)⟩

/-- The traversal of a list comes to nothing but its items. -/
theorem Chain.of_reached (h : Chain file 0 items) (hreached : Reached file p) :
    ∃ items', Chain file p items' := by
  induction hreached with
  | refl => exact ⟨items, h⟩
  | tail _ hstep ih =>
    obtain ⟨items', hchain⟩ := ih
    obtain ⟨value, hitem⟩ := follow_eq_some.mp hstep.1
    cases hchain with
    | last h => exact absurd (Item.mk.inj (Option.some.inj (hitem.symm.trans h))).2 hstep.2
    | cons h _ hitems =>
      rw [(Item.mk.inj (Option.some.inj (hitem.symm.trans h))).2]
      exact ⟨_, hitems⟩

theorem Chain.roomForItems (h : Chain file 0 items) : RoomForItems file := by
  intro p hreached
  obtain ⟨items', hchain⟩ := h.of_reached hreached
  cases hchain with
  | last h => exact room_of_follow (follow_eq_some.mpr ⟨_, h⟩)
  | cons h _ _ => exact room_of_follow (follow_eq_some.mpr ⟨_, h⟩)

/-- A list visits no offset twice: it would be its own proper part. -/
theorem Chain.nodup (h : Chain file p items) : (items.map Prod.fst).Nodup := by
  induction h with
  | last h => exact List.nodup_singleton _
  | cons h hne hitems ih =>
    rw [List.map_cons, List.nodup_cons]
    refine ⟨fun hmem => ?_, ih⟩
    obtain ⟨items', hchain, hlen⟩ := hitems.of_mem hmem
    have hsame := hchain.unique (.cons h hne hitems)
    rw [hsame, List.length_cons] at hlen
    omega

/-- The loop goes on at an offset that it comes to. -/
structure Under (file : Bytes) (s : State) : Prop where
  pc : s.pc = .item ∨ s.pc = .check
  reached : Reached file s.next_pointer
  ne_zero : s.pc = .check → s.next_pointer ≠ 0
  roomy : s.Roomy

theorem step_under (sched : ℕ → ℕ) (hroom : RoomForItems file)
    (hnone : ¬ ∃ p, Reached file p ∧ follow file p = some 0) (h : Under file s) :
    ∃ s', step sched file s = some s' ∧ Under file s' := by
  rcases h.pc with hpc | hpc
  · obtain ⟨item, hitem⟩ := exists_getItem (hroom _ h.reached)
    have hfollow : follow file s.next_pointer = some item.next_pointer := by
      rw [follow, hitem]
      rfl
    have hne : item.next_pointer ≠ 0 := fun hzero =>
      hnone ⟨_, h.reached, hfollow.trans (congrArg some hzero)⟩
    have hbuffer : s.buffer.length ≤ 970 := by
      simpa only [State.Roomy, hpc, reduceCtorEq, if_false] using h.roomy
    obtain ⟨s', hstep, -, -, hpc', hnext, -⟩ := step_item sched hpc hbuffer hitem
    exact ⟨s', hstep, .inr hpc', hnext ▸ h.reached.tail ⟨hfollow, hne⟩, fun _ => hnext ▸ hne,
      step_roomy h.roomy hstep⟩
  · obtain ⟨s', hstep, -, -, hpc', hnext, -⟩ := step_check sched file hpc
    rw [if_pos (h.ne_zero hpc)] at hpc'
    exact ⟨s', hstep, .inl hpc', hnext ▸ h.reached, fun _ => hnext ▸ h.ne_zero hpc,
      step_roomy h.roomy hstep⟩

/-- Where no pointer is 0 the loop does not end. -/
theorem run_under (sched : ℕ → ℕ) (hroom : RoomForItems file)
    (hnone : ¬ ∃ p, Reached file p ∧ follow file p = some 0) (n : ℕ) :
    ∃ s, run sched file n = some s ∧ Under file s := by
  induction n with
  | zero =>
    have hpos : 0 < file.length := by
      have := hroom 0 .refl
      omega
    exact ⟨_, rfl, .inl (init_pc hpos), .refl,
      fun hpc => absurd ((init_pc hpos).symm.trans hpc) (by decide), Nat.zero_le _⟩
  | succ n ih =>
    obtain ⟨s, hrun, hs⟩ := ih
    obtain ⟨s', hstep, hs'⟩ := step_under sched hroom hnone hs
    exact ⟨s', run_succ hrun hstep, hs'⟩

theorem Under.not_done (h : Under file s) : s.pc ≠ .done := by
  rcases h.pc with hpc | hpc <;> simp [hpc]

/-- The traversal ends if and only if it comes to an item whose pointer is 0. It has then visited
each offset at most once; otherwise it goes on for ever. -/
theorem traversal_ends_iff (sched : ℕ → ℕ) (hroom : RoomForItems file) :
    ((∃ n s, run sched file n = some s ∧ s.pc = .done) ↔
        ∃ p, Reached file p ∧ follow file p = some 0) ∧
      (∀ n s, run sched file n = some s → s.pc = .done → s.visited.Nodup) ∧
      ((¬ ∃ p, Reached file p ∧ follow file p = some 0) →
        ∀ n, ∃ s, run sched file n = some s ∧ s.pc ≠ .done) := by
  have hends : (∃ n s, run sched file n = some s ∧ s.pc = .done) →
      ∃ p, Reached file p ∧ follow file p = some 0 := by
    rintro ⟨n, s, hrun, hdone⟩
    by_contra hnone
    obtain ⟨t, ht, hunder⟩ := run_under sched hroom hnone n
    exact hunder.not_done (Option.some.inj (ht.symm.trans hrun) ▸ hdone)
  refine ⟨⟨hends, ?_⟩, ?_, fun hnone n => ?_⟩
  · rintro ⟨p, hreached, hend⟩
    obtain ⟨items, hchain⟩ := exists_chain hreached hend
    obtain ⟨n, s, hrun, hdone, -⟩ := exists_done sched hchain
    exact ⟨n, s, hrun, hdone⟩
  · intro n s hrun hdone
    obtain ⟨p, hreached, hend⟩ := hends ⟨n, s, hrun, hdone⟩
    obtain ⟨items, hchain⟩ := exists_chain hreached hend
    rw [(output_of_done hchain hrun hdone).2]
    exact hchain.nodup
  · obtain ⟨s, hrun, hunder⟩ := run_under sched hroom hnone n
    exact ⟨s, hrun, hunder.not_done⟩

end

/-- The first item points to the third one, and that back to the second one. -/
def threeItems : Bytes := encodeInts [5, 16] ++ encodeInts [-1, 0] ++ encodeInts [7, 8]

theorem threeItems_first : getItem threeItems 0 = some ⟨5, 16⟩ :=
  getItem_encode [] (encodeInts [-1, 0, 7, 8]) (by decide) (by decide)

theorem threeItems_second : getItem threeItems 8 = some ⟨-1, 0⟩ :=
  getItem_encode (encodeInts [5, 16]) (encodeInts [7, 8]) (by decide) (by decide)

theorem threeItems_third : getItem threeItems 16 = some ⟨7, 8⟩ :=
  getItem_encode (encodeInts [5, 16, -1, 0]) [] (by decide) (by decide)

theorem threeItems_chain : Chain threeItems 0 [(0, 5), (16, 7), (8, -1)] :=
  .cons threeItems_first (by decide)
    (.cons threeItems_third (by decide) (.last threeItems_second))

theorem traversal_ends_three :
    (∃ n s, run (fun i => i) threeItems n = some s ∧ s.pc = .done) ∧
      ∀ n s, run (fun i => i) threeItems n = some s → s.pc = .done → s.visited.Nodup := by
  have hends := traversal_ends_iff (fun i => i) threeItems_chain.roomForItems
  have hthird : Points threeItems 0 16 := ⟨follow_eq_some.mpr ⟨5, threeItems_first⟩, by decide⟩
  have hsecond : Points threeItems 16 8 := ⟨follow_eq_some.mpr ⟨7, threeItems_third⟩, by decide⟩
  exact ⟨hends.1.mpr ⟨8, .tail (.tail .refl hthird) hsecond,
    follow_eq_some.mpr ⟨-1, threeItems_second⟩⟩, hends.2.1⟩

/-- The first item points to the second one, and that to itself. -/
def circle : Bytes := encodeInts [0, 8] ++ encodeInts [0, 8]

theorem circle_reached {p : ℕ} (h : Reached circle p) : follow circle p = some 8 := by
  have hfirst : getItem circle 0 = some ⟨0, 8⟩ :=
    getItem_encode [] (encodeInts [0, 8]) (by decide) (by decide)
  have hsecond : getItem circle 8 = some ⟨0, 8⟩ :=
    getItem_encode (encodeInts [0, 8]) [] (by decide) (by decide)
  induction h with
  | refl => exact follow_eq_some.mpr ⟨0, hfirst⟩
  | tail _ hstep ih =>
    rw [Option.some.inj (hstep.1.symm.trans ih)]
    exact follow_eq_some.mpr ⟨0, hsecond⟩

theorem traversal_of_circle :
    ¬ ∀ (sched : ℕ → ℕ) (file : Bytes), file ≠ [] → RoomForItems file →
      ∃ n s, run sched file n = some s ∧ s.pc = .done ∧ s.visited.Nodup := by
  intro hall
  have hroom : RoomForItems circle := fun p hreached => room_of_follow (circle_reached hreached)
  have hnone : ¬ ∃ p, Reached circle p ∧ follow circle p = some 0 := by
    rintro ⟨p, hreached, hend⟩
    exact absurd (Option.some.inj ((circle_reached hreached).symm.trans hend)) (by decide)
  obtain ⟨n, s, hrun, hdone, -⟩ := hall (fun _ => 0) circle (by decide) hroom
  obtain ⟨t, ht, hunder⟩ := run_under (fun _ => 0) hroom hnone n
  exact hunder.not_done (Option.some.inj (ht.symm.trans hrun) ▸ hdone)

end Acos.PrintList
