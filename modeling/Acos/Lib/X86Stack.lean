import Acos.Lib.X86

/-! Several registers pushed and popped one after the other. -/
namespace Acos.X86
open Acos.WordMemory

/-- The numbers of a list stand on the stack, the first on top. -/
def Stacked (mem : Memory) : ℕ → List ℕ → Prop
  | _, [] => True
  | a, v :: vs => load 8 mem a = v ∧ Stacked mem (a + 8) vs

/-- A memory that has kept everything but the bytes from `lo` to `hi`. -/
abbrev KeepsOutside (lo hi : ℕ) : Memory → Memory → Prop := Keeps fun a => a < lo ∨ hi ≤ a

section
variable {m : Machine} {mem mem' : Memory} {a v : ℕ} {vs ws : List ℕ} {r : Reg} {rs : List Reg}

theorem Stacked.congr (h : Stacked mem a vs)
    (hmem : ∀ b, a ≤ b → b < a + 8 * vs.length → mem' b = mem b) : Stacked mem' a vs := by
  induction vs generalizing a with
  | nil => trivial
  | cons v vs ih =>
    rw [List.length_cons] at hmem
    refine ⟨(load_congr fun b hlo hhi => hmem b hlo (by omega)).trans h.1, ih h.2 ?_⟩
    exact fun b hlo hhi => hmem b (by omega) (by omega)

theorem Stacked.append (h : Stacked mem a vs) (h' : Stacked mem (a + 8 * vs.length) ws) :
    Stacked mem a (vs ++ ws) := by
  induction vs generalizing a with
  | nil => simpa using h'
  | cons v vs ih =>
    refine ⟨h.1, ih h.2 ?_⟩
    rw [List.length_cons] at h'
    have hplace : a + 8 + 8 * vs.length = a + 8 * (vs.length + 1) := by ring
    rwa [hplace]

theorem Stacked.split (h : Stacked mem a (vs ++ ws)) :
    Stacked mem a vs ∧ Stacked mem (a + 8 * vs.length) ws := by
  induction vs generalizing a with
  | nil => exact ⟨trivial, by simpa using h⟩
  | cons v vs ih =>
    obtain ⟨hfront, hback⟩ := ih h.2
    have hplace : a + 8 + 8 * vs.length = a + 8 * (vs.length + 1) := by ring
    rw [hplace] at hback
    exact ⟨⟨h.1, hfront⟩, hback⟩

theorem push_rsp (h : 8 ≤ m.reg .rsp) : (m.push v).reg .rsp = m.reg .rsp - 8 := by
  have hlt := m.reg_lt .rsp
  have hminus := minus_qword h hlt
  rw [Machine.push, Machine.setMem_reg, Machine.set_reg, if_pos rfl, hminus]
  exact Nat.mod_eq_of_lt (by omega)

theorem push_mem (h : 8 ≤ m.reg .rsp) :
    (m.push v).mem = store 8 m.mem (m.reg .rsp - 8) v := by
  rw [Machine.push, Machine.setMem_mem, minus_qword h (m.reg_lt .rsp)]

theorem push_reg (h : r ≠ .rsp) : (m.push v).reg r = m.reg r :=
  Machine.set_reg_of_ne _ _ _ _ h

/-- What several pushes leave. -/
theorem execs_push (rs : List Reg) (hrs : .rsp ∉ rs) (h : 8 * rs.length ≤ m.reg .rsp) :
    (execs m (rs.map .push)).reg .rsp = m.reg .rsp - 8 * rs.length ∧
      Stacked (execs m (rs.map .push)).mem (m.reg .rsp - 8 * rs.length)
        (rs.reverse.map m.reg) ∧
      KeepsOutside (m.reg .rsp - 8 * rs.length) (m.reg .rsp) m.mem
        (execs m (rs.map .push)).mem := by
  induction rs generalizing m with
  | nil => exact ⟨rfl, trivial, Keeps.refl _ _⟩
  | cons r rs ih =>
    rw [List.mem_cons, not_or] at hrs
    rw [List.length_cons] at h
    have hlt := m.reg_lt r
    obtain ⟨hrsp, hstacked, hkeeps⟩ := ih (m := m.push (m.reg r)) hrs.2
      (by rw [push_rsp (by omega)]; omega)
    rw [push_rsp (by omega)] at hrsp hstacked hkeeps
    have hlow : m.reg .rsp - 8 - 8 * rs.length = m.reg .rsp - 8 * (rs.length + 1) := by omega
    rw [hlow] at hrsp hstacked hkeeps
    have hregs : rs.reverse.map (m.push (m.reg r)).reg = rs.reverse.map m.reg := by
      refine List.map_congr_left fun r' hr' => push_reg ?_
      rintro rfl
      exact hrs.2 (List.mem_reverse.mp hr')
    have htop : load 8 (execs (m.push (m.reg r)) (rs.map .push)).mem (m.reg .rsp - 8) = m.reg r := by
      rw [hkeeps.load fun b hlo _ => .inr hlo, push_mem (by omega)]
      exact load_store hlt
    refine ⟨hrsp, ?_, ?_⟩
    · rw [List.reverse_cons, List.map_append]
      refine (hregs ▸ hstacked).append ⟨?_, trivial⟩
      rw [List.length_map, List.length_reverse]
      have hplace : m.reg .rsp - 8 * (rs.length + 1) + 8 * rs.length = m.reg .rsp - 8 := by omega
      rw [hplace]
      exact htop
    · rw [push_mem (by omega)] at hkeeps
      refine Keeps.trans (store_keeps fun b hb => ?_) (hkeeps.mono fun b hb => ?_)
      · rw [List.length_cons] at hb
        omega
      · rw [List.length_cons] at hb
        omega

theorem pop_reg (m : Machine) (r : Reg) : (exec m (.pop r)).reg r = load 8 m.mem (m.reg .rsp) := by
  have hlt : load 8 m.mem (m.reg .rsp) < 2 ^ 64 := load_lt 8 m.mem _
  simp only [exec, Machine.set_reg, if_pos, Machine.top]
  exact Nat.mod_eq_of_lt hlt

theorem pop_rsp (hne : r ≠ .rsp) (h : m.reg .rsp + 8 < 2 ^ 64) :
    (exec m (.pop r)).reg .rsp = m.reg .rsp + 8 := by
  simp only [exec, Machine.drop, Machine.set_reg, if_neg hne.symm, if_pos]
  exact Nat.mod_eq_of_lt h

theorem execs_push_reg (rs : List Reg) (h : r ≠ .rsp) :
    (execs m (rs.map .push)).reg r = m.reg r := by
  apply execs_reg
  intro op hop
  obtain ⟨r', -, rfl⟩ := List.mem_map.mp hop
  exact List.mem_singleton.not.mpr h

theorem execs_pop_reg (hr : r ∉ rs) (hrsp : r ≠ .rsp) :
    (execs m (rs.map .pop)).reg r = m.reg r := by
  apply execs_reg
  intro op hop
  obtain ⟨r', hr', rfl⟩ := List.mem_map.mp hop
  have hne : r ≠ r' := by
    rintro rfl
    exact hr hr'
  simp [Op.writes, hne, hrsp]

theorem execs_pop_mem (m : Machine) (rs : List Reg) : (execs m (rs.map .pop)).mem = m.mem := by
  apply execs_mem
  intro op hop
  obtain ⟨r, -, rfl⟩ := List.mem_map.mp hop
  rfl

/-- What several pops leave. -/
theorem execs_pop (rs : List Reg) (hrs : .rsp ∉ rs) (hnodup : rs.Nodup) (hlength : vs.length = rs.length)
    (hstacked : Stacked m.mem (m.reg .rsp) vs) (h : m.reg .rsp + 8 * rs.length < 2 ^ 64) :
    (execs m (rs.map .pop)).reg .rsp = m.reg .rsp + 8 * rs.length ∧
      ∀ p ∈ rs.zip vs, (execs m (rs.map .pop)).reg p.1 = p.2 := by
  induction rs generalizing m vs with
  | nil => exact ⟨rfl, nofun⟩
  | cons r rs ih =>
    obtain ⟨v, vs, rfl⟩ := List.exists_cons_of_length_eq_add_one hlength
    rw [List.mem_cons, not_or] at hrs
    rw [List.nodup_cons] at hnodup
    rw [List.length_cons] at h
    have hmem : (exec m (.pop r)).mem = m.mem := exec_mem rfl
    have hrsp := pop_rsp (m := m) (Ne.symm hrs.1) (by omega)
    have hrest : Stacked (exec m (.pop r)).mem ((exec m (.pop r)).reg .rsp) vs := by
      rw [hmem, hrsp]
      exact hstacked.2
    obtain ⟨hend, hregs⟩ := ih hrs.2 hnodup.2 (by simpa using hlength) hrest (by rw [hrsp]; omega)
    rw [List.map_cons, execs_cons]
    refine ⟨by rw [hend, hrsp, List.length_cons]; ring, ?_⟩
    rw [List.zip_cons_cons, List.forall_mem_cons]
    refine ⟨?_, hregs⟩
    rw [execs_pop_reg hnodup.1 (Ne.symm hrs.1), pop_reg, hstacked.1]

end

end Acos.X86
