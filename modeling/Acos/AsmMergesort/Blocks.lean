import Acos.AsmMergesort.Model

/-! What the parts of the blocks of `merge__` do. -/
namespace Acos.AsmMergesort
open Acos.X86 Acos.WordMemory

/-- The address `d` bytes below another. -/
def below (b d : ℕ) : ℕ := address b 0 (-d)

theorem below_eq {b d : ℕ} (h : d ≤ b) (hb : b < 2 ^ 64) : below b d = b - d := address_neg h hb

@[simp] theorem read_slot (m : Machine) (w : Width) (d : ℕ) :
    m.read w (slot d) = load w.bytes m.mem (below (m.reg .rbp) d) := by
  simp [slot, below]

@[simp] theorem write_slot (m : Machine) (w : Width) (d v : ℕ) :
    m.write w (slot d) v =
      m.setMem (store w.bytes m.mem (below (m.reg .rbp) d) (v % w.modulus)) := by
  simp [slot, below]

section Counters
variable {m : Machine} {bp a i n x X out start counter count array : ℕ}

theorem exec_sourceIndex (hbp : m.reg .rbp = bp) (hlo : 144 ≤ bp) (hhi : bp < 2 ^ 64)
    (hs : start ≤ 136) (hc : counter ≤ 136) (ha : load 4 m.mem (bp - start) = a)
    (hi : load 4 m.mem (bp - counter) = i) (hlt : a + i < 2 ^ 31) :
    (execs m (sourceIndex start counter)).reg .rax = a + i ∧
      (execs m (sourceIndex start counter)).mem = m.mem := by
  simp (disch := omega) [sourceIndex, below_eq, Nat.mod_eq_of_lt, signExtend_of_lt, hbp, ha, hi]
  omega

theorem exec_fill (hbp : m.reg .rbp = bp) (hlo : 144 ≤ bp) (hhi : bp < 2 ^ 64) (hc : counter ≤ 136)
    (ha : array ≤ 136) (hx : m.reg .rax = x) (hi : load 4 m.mem (bp - counter) = i)
    (hout : load 8 m.mem (bp - 136) = out) (hX : load 8 m.mem (bp - array) = X)
    (hlt : i + 1 < 2 ^ 31) (hread : out + 4 * x + 4 ≤ 2 ^ 64)
    (hwrite : X + 4 * i + 4 ≤ bp - counter) :
    (execs m (fill counter array)).mem =
      store 4 (store 4 m.mem (X + 4 * i) (load 4 m.mem (out + 4 * x))) (bp - counter) (i + 1) := by
  have hv := load_lt 4 m.mem (out + 4 * x)
  simp (disch := omega) [fill, below_eq, address_scaled, address_base,
    Nat.mod_eq_of_lt, signExtend_of_lt, hbp, hi, hout, hX, hx, load_store_of_apart]

theorem exec_clear (hbp : m.reg .rbp = bp) (hhi : bp < 2 ^ 64) (hc : counter ≤ bp) :
    (execs m (clear counter)).mem = store 4 m.mem (bp - counter) 0 := by
  simp (disch := omega) [clear, below_eq, hbp]

theorem exec_compareCounter (hbp : m.reg .rbp = bp) (hlo : 144 ≤ bp) (hhi : bp < 2 ^ 64)
    (hc : counter ≤ 136) (hn : count ≤ 136) (hi : load 4 m.mem (bp - counter) = i)
    (hcount : load 4 m.mem (bp - count) = n) :
    (execs m (compareCounter counter count)).flags = some (compare .dword i n) ∧
      (execs m (compareCounter counter count)).mem = m.mem := by
  have hlt := load_lt 4 m.mem (bp - counter)
  simp (disch := omega) [compareCounter, below_eq, Nat.mod_eq_of_lt, hbp, hi, hcount]

theorem exec_startMerge (hbp : m.reg .rbp = bp) (hlo : 144 ≤ bp) (hhi : bp < 2 ^ 64)
    (ha : load 4 m.mem (bp - 92) = a) :
    (execs m startMerge).mem =
      store 4 (store 4 (store 4 m.mem (bp - 96) 0) (bp - 100) 0) (bp - 104) a := by
  have hlt := load_lt 4 m.mem (bp - 92)
  simp (disch := omega) [startMerge, clear, below_eq, Nat.mod_eq_of_lt, hbp, ha,
    load_store_of_apart]

theorem exec_compareHeads (hbp : m.reg .rbp = bp) (hlo : 144 ≤ bp) (hhi : bp < 2 ^ 64)
    (hi : load 4 m.mem (bp - 96) = i) (hj : load 4 m.mem (bp - 100) = a)
    (hL : load 8 m.mem (bp - 64) = x) (hR : load 8 m.mem (bp - 48) = X)
    (hilt : i < 2 ^ 31) (hjlt : a < 2 ^ 31) (hLlt : x + 4 * i < 2 ^ 64)
    (hRlt : X + 4 * a < 2 ^ 64) :
    (execs m compareHeads).flags =
        some (compare .dword (load 4 m.mem (x + 4 * i)) (load 4 m.mem (X + 4 * a))) ∧
      (execs m compareHeads).mem = m.mem := by
  have hv := load_lt 4 m.mem (x + 4 * i)
  have hw := load_lt 4 m.mem (X + 4 * a)
  simp (disch := omega) [compareHeads, below_eq, address_scaled, Nat.mod_eq_of_lt,
    signExtend_of_lt, hbp, hi, hj, hL, hR]

theorem exec_take {k : ℕ} (hbp : m.reg .rbp = bp) (hlo : 144 ≤ bp) (hhi : bp < 2 ^ 64)
    (hc : 96 ≤ counter ∧ counter ≤ 100) (ha : 48 ≤ array ∧ array ≤ 64)
    (hi : load 4 m.mem (bp - counter) = i) (hk : load 4 m.mem (bp - 104) = k)
    (hX : load 8 m.mem (bp - array) = X) (hout : load 8 m.mem (bp - 136) = out)
    (hilt : i + 1 < 2 ^ 31) (hklt : k < 2 ^ 31) (hread : X + 4 * i + 4 ≤ bp - 136)
    (hwrite : out + 4 * k + 4 ≤ 2 ^ 64) :
    (execs m (take counter array)).mem =
      store 4 (store 4 m.mem (bp - counter) (i + 1)) (out + 4 * k) (load 4 m.mem (X + 4 * i)) := by
  have hv := load_lt 4 m.mem (X + 4 * i)
  simp (disch := omega) [take, advance, put, below_eq, address_scaled, address_base, address_one,
    Nat.mod_eq_of_lt, signExtend_of_lt, hbp, hi, hk, hX, hout, load_store_of_apart,
    Nat.add_comm (4 * k) out]

theorem exec_takeRest {k : ℕ} (hbp : m.reg .rbp = bp) (hlo : 144 ≤ bp) (hhi : bp < 2 ^ 64)
    (hc : 96 ≤ counter ∧ counter ≤ 100) (ha : 48 ≤ array ∧ array ≤ 64)
    (hi : load 4 m.mem (bp - counter) = i) (hk : load 4 m.mem (bp - 104) = k)
    (hX : load 8 m.mem (bp - array) = X) (hout : load 8 m.mem (bp - 136) = out)
    (hilt : i + 1 < 2 ^ 31) (hklt : k < 2 ^ 31) (hread : X + 4 * i + 4 ≤ bp - 136)
    (hwrite : out + 4 * k + 4 ≤ 2 ^ 64) :
    (execs m (takeRest counter array)).mem =
      store 4 (store 4 (store 4 m.mem (bp - counter) (i + 1)) (bp - 104) (k + 1)) (out + 4 * k)
        (load 4 m.mem (X + 4 * i)) := by
  have hv := load_lt 4 m.mem (X + 4 * i)
  simp (disch := omega) [takeRest, advance, put, below_eq, address_scaled, address_base,
    address_one, Nat.mod_eq_of_lt, signExtend_of_lt, hbp, hi, hk, hX, hout, load_store_of_apart,
    Nat.add_comm (4 * k) out]

theorem exec_next {k : ℕ} (hbp : m.reg .rbp = bp) (hlo : 144 ≤ bp) (hhi : bp < 2 ^ 64)
    (hk : load 4 m.mem (bp - 104) = k) (hklt : k < 2 ^ 31) :
    (execs m [.alu .add .dword (slot 104) (.imm 1)]).mem = store 4 m.mem (bp - 104) (k + 1) := by
  simp (disch := omega) [below_eq, Nat.mod_eq_of_lt, hbp, hk]

end Counters

section Prologue
variable {m : Machine} {bp s p q r n1 n2 out : ℕ}

/-- `(p + r) / 2` in numbers of 32 bits, where a sum from `2 ^ 31` on is below 0. -/
def middle (p r : ℕ) : ℕ := if p + r < 2 ^ 31 then (p + r) / 2 else 2 ^ 31 + (p + r + 1) / 2

theorem half_dword (h : p + r < 2 ^ 32 - 1) :
    (Width.dword.signed (r + p + (r + p) / 2147483648) / 2 % 4294967296).toNat = middle p r := by
  unfold middle
  split_ifs with hsum
  · rw [Nat.div_eq_of_lt (by omega : r + p < 2147483648), Width.signed,
      MachineInt.i32_natCast (by omega : r + p + 0 < 2 ^ 31)]
    omega
  · rw [show (r + p) / 2147483648 = 1 by omega, Width.signed, MachineInt.i32]
    omega

theorem middle_lt (h : p + r < 2 ^ 32 - 1) : middle p r < 4294967296 := by
  unfold middle
  split_ifs <;> omega

theorem exec_midpoint (hbp : m.reg .rbp = bp) (hlo : 144 ≤ bp) (hhi : bp < 2 ^ 64)
    (hp : load 4 m.mem (bp - 116) = p) (hr : load 4 m.mem (bp - 120) = r)
    (hsum : p + r < 2 ^ 32 - 1) :
    (execs m midpoint).mem =
      store 4 (store 4 (store 4 m.mem (bp - 92) p) (bp - 88) r) (bp - 84) (middle p r) := by
  simp (disch := omega) [midpoint, below_eq, Nat.mod_eq_of_lt, hbp, hp, hr, load_store_of_apart,
    load_store, half_dword, Nat.mod_eq_of_lt (middle_lt hsum)]

/-- `t` is `r`, up to multiples of `2 ^ 32`. -/
theorem exec_counts {t : ℕ} (hbp : m.reg .rbp = bp) (hlo : 144 ≤ bp) (hhi : bp < 2 ^ 64)
    (hp : load 4 m.mem (bp - 92) = p) (hq : load 4 m.mem (bp - 84) = q)
    (hr : load 4 m.mem (bp - 88) = r) (hpq : p ≤ q) (hqlt : q + 1 < p + 2 ^ 32)
    (hqt : q ≤ t) (htq : t < q + 2 ^ 32) (ht : t % 2 ^ 32 = r) :
    (execs m counts).mem =
      store 4 (store 4 m.mem (bp - 80) (q - p + 1)) (bp - 76) (t - q) := by
  have hqload := load_lt 4 m.mem (bp - 84)
  have hright : minus .dword r q = t - q := by
    simp only [minus, Width.modulus]
    omega
  simp (disch := omega) [counts, below_eq, Nat.mod_eq_of_lt, hbp, hp, hq, hr, load_store_of_apart,
    minus_dword, hright]

/-- The caller's registers are saved below the return address. -/
theorem exec_enter (hsp : m.reg .rsp = s) (hlo : 152 ≤ s) (hhi : s < 2 ^ 64) :
    (execs m enter).reg .rbp = s - 8 ∧ (execs m enter).reg .rsp = s - 152 ∧
      (execs m enter).mem = store 8 (store 8 (store 8 (store 8 (store 8 m.mem (s - 8) (m.reg .rbp))
        (s - 16) (m.reg .r15)) (s - 24) (m.reg .r14)) (s - 32) (m.reg .r13)) (s - 40)
        (m.reg .r12) := by
  simp (disch := omega) [enter, hsp, Nat.mod_eq_of_lt, minus_qword, Nat.sub_sub]

theorem exec_arguments (hbp : m.reg .rbp = bp) (hlo : 144 ≤ bp) (hhi : bp < 2 ^ 64)
    (hp : m.reg .rdi = p) (hr : m.reg .rsi = r) (hplt : p < 2 ^ 31) (hrlt : r < 2 ^ 31) :
    (execs m arguments).mem = store 8 (store 8 (store 8 (store 4 (store 4 m.mem (bp - 116) p)
      (bp - 120) r) (bp - 128) (m.reg .rdx)) (bp - 136) (m.reg .rcx)) (bp - 40)
      (m.fs 40 % 2 ^ 64) := by
  simp (disch := omega) [arguments, below_eq, hbp, hp, hr, Nat.mod_eq_of_lt]

end Prologue

section Allocation
variable {m : Machine} {bp s n z count last array : ℕ} {a b c d : Reg}

/-- The size of the array, whose last index is kept. -/
def sizeOf (count last : ℕ) : List Op := [
  .mov .dword (.reg .rax) (slot count),
  .movsx .rdx .rax,
  .alu .sub .qword (.reg .rdx) (.imm 1),
  .mov .qword (slot last) (.reg .rdx)]

/-- The same number in registers that are not used. -/
def spare (a b c d : Reg) : List Op := [
  .movsx .rdx .rax,
  .mov .qword (.reg a) (.reg .rdx),
  .mov .dword (.reg b) (.imm 0),
  .movsx .rdx .rax,
  .mov .qword (.reg c) (.reg .rdx),
  .mov .dword (.reg d) (.imm 0)]

/-- The dividend, in `rax`, and the divisor. -/
def dividend : List Op := [
  .movsx .rax .rax,
  .lea .qword .rdx (scaled .rax),
  .mov .dword (.reg .rax) (.imm 16),
  .alu .sub .qword (.reg .rax) (.imm 1),
  .alu .add .qword (.reg .rax) (.reg .rdx),
  .mov .dword (.reg .rdi) (.imm 16),
  .mov .dword (.reg .rdx) (.imm 0)]

/-- The size, and where the whole pages end. -/
def pages : List Op := [
  .imul .rax .rax 16,
  .mov .qword (.reg .rdx) (.reg .rax),
  .alu .and .qword (.reg .rdx) (.imm (-4096)),
  .mov .qword (.reg .rdi) (.reg .rsp),
  .alu .sub .qword (.reg .rdi) (.reg .rdx),
  .mov .qword (.reg .rdx) (.reg .rdi)]

theorem allocate_eq (count last : ℕ) (a b c d : Reg) :
    allocate count last a b c d =
      sizeOf count last ++ spare a b c d ++ dividend ++ .div .rdi :: pages := rfl

/-- What is taken for an array whose size is the number `n` of 32 bits. -/
def arrayBytes (n : ℕ) : ℕ := 16 * ((15 + 4 * signExtend n) % 2 ^ 64 / 16)

theorem arrayBytes_of_lt (h : n < 2 ^ 31) : arrayBytes n = 16 * ((15 + 4 * n) / 16) := by
  rw [arrayBytes, signExtend_of_lt h]
  omega

theorem address_index (v : ℕ) : address 0 (v * 4) 0 = 4 * v % 2 ^ 64 := by
  unfold address
  omega

theorem exec_sizeOf (hbp : m.reg .rbp = bp) (hlo : 144 ≤ bp) (hhi : bp < 2 ^ 64)
    (hc : count ≤ 136) (hl : last ≤ 136) (hn : load 4 m.mem (bp - count) = n) :
    (execs m (sizeOf count last)).reg .rax = n ∧
      Keeps (fun a => a < bp - last ∨ bp - last + 8 ≤ a) m.mem
        (execs m (sizeOf count last)).mem := by
  have hv := load_lt 4 m.mem (bp - count)
  constructor
  · simp (disch := omega) [sizeOf, below_eq, hbp, hn, Nat.mod_eq_of_lt]
  · simp (disch := omega) only [sizeOf, execs_cons, execs_nil, exec, write_slot, Machine.setMem_mem,
      Machine.setFlags_reg, Machine.write_reg, Machine.set_reg, hbp, below_eq, reduceCtorEq,
      if_false]
    exact store_keeps fun a ha => ha

theorem exec_spare_mem (m : Machine) (a b c d : Reg) : (execs m (spare a b c d)).mem = m.mem :=
  execs_mem (by simp [spare, Op.stores])

theorem exec_spare_reg (m : Machine) {a b c d r : Reg} (hdx : r ≠ .rdx) (h : r ∉ [a, b, c, d]) :
    (execs m (spare a b c d)).reg r = m.reg r := by
  apply execs_reg
  simp only [List.mem_cons, List.not_mem_nil, or_false, not_or] at h
  simp [spare, Op.writes, hdx, h]

/-- The number of bytes, rounded up. -/
theorem exec_rounded (m : Machine) (N : ℕ) :
    (execs (m.set .rax N) dividend.tail).reg .rax = (15 + 4 * N) % 2 ^ 64 ∧
      (execs (m.set .rax N) dividend.tail).reg .rdi = 16 ∧
      (execs (m.set .rax N) dividend.tail).reg .rdx = 0 := by
  simp (disch := omega) [dividend, address_index, minus_qword]

theorem exec_dividend (hax : m.reg .rax = n) (hlt : n < 2 ^ 32) :
    (execs m dividend).reg .rax = (15 + 4 * signExtend n) % 2 ^ 64 ∧
      (execs m dividend).reg .rdi = 16 ∧ (execs m dividend).reg .rdx = 0 := by
  have hfirst : exec m (.movsx .rax .rax) = m.set .rax (signExtend n) := by
    rw [exec, Machine.read_reg, hax, Width.modulus, Nat.mod_eq_of_lt hlt]
  have hexecs : execs m dividend = execs (exec m (.movsx .rax .rax)) dividend.tail := execs_cons
  rw [hexecs, hfirst]
  exact exec_rounded m _

theorem exec_pages (hax : m.reg .rax = z) (hz : z < 2 ^ 60) (hsp : m.reg .rsp = s) :
    (execs m pages).reg .rax = 16 * z ∧
      (execs m pages).reg .rdx = minus .qword s (16 * z / 4096 * 4096) := by
  have hmask : 16 * z &&& 18446744073709547520 = 16 * z / 4096 * 4096 :=
    and_high (n := 52) (k := 12) (by omega)
  have him : ((z : ℤ) * 16 % 18446744073709551616).toNat = 16 * z := by omega
  have hs : s % 18446744073709551616 = s := Nat.mod_eq_of_lt (hsp ▸ m.reg_lt .rsp)
  have hminus (b : ℕ) : minus .qword s b % 18446744073709551616 = minus .qword s b :=
    Nat.mod_mod _ _
  simp (disch := omega) [pages, hax, hsp, Nat.mod_eq_of_lt, him, hmask, hs, hminus]

theorem exec_div {v : ℕ} (hax : m.reg .rax = v) (hdi : m.reg .rdi = 16) (hdx : m.reg .rdx = 0) :
    m.faults (.div .rdi) = false ∧ (exec m (.div .rdi)).reg .rax = v / 16 := by
  have hlt := m.reg_lt .rax
  have hdividend : m.dividend = v := by
    rw [Machine.dividend, hdx, hax, Nat.zero_mul, Nat.zero_add]
  rw [hax] at hlt
  constructor
  · simp only [Machine.faults, hdi, hdividend, decide_eq_false_iff_not]
    omega
  · simp only [exec, hdividend, hdi, Machine.setFlags_reg, Machine.set_reg, reduceCtorEq, if_false,
      if_true]
    omega

theorem exec_allocate (hbp : m.reg .rbp = bp) (hlo : 144 ≤ bp) (hhi : bp < 2 ^ 64)
    (hsp : m.reg .rsp = s) (hc : count ≤ 136) (hl : last ≤ 136)
    (hn : load 4 m.mem (bp - count) = n) (hrax : .rax ∉ [a, b, c, d])
    (hrsp : .rsp ∉ [a, b, c, d]) :
    sound m (allocate count last a b c d) ∧
      (execs m (allocate count last a b c d)).reg .rax = arrayBytes n ∧
      (execs m (allocate count last a b c d)).reg .rdx =
        minus .qword s (arrayBytes n / 4096 * 4096) ∧
      Keeps (fun a => a < bp - last ∨ bp - last + 8 ≤ a) m.mem
        (execs m (allocate count last a b c d)).mem := by
  have hlt := hn ▸ load_lt 4 m.mem (bp - count)
  obtain ⟨hsize, hmem⟩ := exec_sizeOf hbp hlo hhi hc hl hn
  have hsizesp : (execs m (sizeOf count last)).reg .rsp = m.reg .rsp :=
    execs_reg (by simp [sizeOf, slot, Op.writes])
  generalize hm1 : execs m (sizeOf count last) = m1 at hsize hmem hsizesp
  have hspare := exec_spare_reg m1 (r := .rax) (by decide) hrax
  have hsparesp := exec_spare_reg m1 (r := .rsp) (by decide) hrsp
  have hsparemem := exec_spare_mem m1 a b c d
  generalize hm2 : execs m1 (spare a b c d) = m2 at hspare hsparesp hsparemem
  obtain ⟨hax, hdi, hdx⟩ := exec_dividend (hspare.trans hsize) hlt
  have hdividendsp : (execs m2 dividend).reg .rsp = m2.reg .rsp := execs_reg (by decide)
  have hdividendmem : (execs m2 dividend).mem = m2.mem := execs_mem (by decide)
  generalize hm3 : execs m2 dividend = m3 at hax hdi hdx hdividendsp hdividendmem
  obtain ⟨hfaults, hquotient⟩ := exec_div hax hdi hdx
  have hdivsp : (exec m3 (.div .rdi)).reg .rsp = m3.reg .rsp := exec_reg (by decide)
  have hdivmem : (exec m3 (.div .rdi)).mem = m3.mem := exec_mem rfl
  have hsound : sound m3 (.div .rdi :: pages) := by
    rw [sound, hfaults, sound_of_plain (by decide)]
    rfl
  generalize hm4 : exec m3 (.div .rdi) = m4 at hquotient hdivsp hdivmem
  have hm4sp : m4.reg .rsp = s := by rw [hdivsp, hdividendsp, hsparesp, hsizesp, hsp]
  obtain ⟨hrax', hrdx'⟩ := exec_pages hquotient (by omega) hm4sp
  have hpagesmem : (execs m4 pages).mem = m4.mem := execs_mem (by decide)
  have hexecs : execs m (allocate count last a b c d) = execs m4 pages := by
    rw [allocate_eq, execs_append, execs_append, execs_append, hm1, hm2, hm3, execs_cons, hm4]
  rw [hexecs]
  refine ⟨?_, hrax', hrdx', ?_⟩
  · rw [allocate_eq, sound_append, sound_append, sound_append, execs_append, hm1, hm2,
      execs_append, execs_append, hm1, hm2, hm3, hsound]
    rw [sound_of_plain, sound_of_plain, sound_of_plain]
    · rfl
    · simp [dividend, Op.plain]
    · simp [spare, Op.plain]
    · simp [sizeOf, Op.plain]
  · rwa [hpagesmem, hdivmem, hdividendmem, hsparemem]

theorem exec_allocate_reg {r : Reg} (m : Machine) (h : r ∉ [.rax, .rdx, .rdi, a, b, c, d]) :
    (execs m (allocate count last a b c d)).reg r = m.reg r := by
  apply execs_reg
  simp only [List.mem_cons, List.not_mem_nil, or_false, not_or] at h
  simp [allocate, slot, Op.writes, h]

/-- The array starts at the next multiple of 4. -/
def arrayPlace (s : ℕ) : ℕ := (s + 3) % 2 ^ 64 / 4 * 4

theorem arrayPlace_lt (s : ℕ) : arrayPlace s < 2 ^ 64 := by
  unfold arrayPlace
  omega

theorem exec_placeArray (hbp : m.reg .rbp = bp) (hlo : 144 ≤ bp) (hhi : bp < 2 ^ 64)
    (hsp : m.reg .rsp = s) (ha : array ≤ 136) :
    (execs m (placeArray array)).mem = store 8 m.mem (bp - array) (arrayPlace s) := by
  have hround : (s + 3) % 18446744073709551616 / 4 * 4 < 18446744073709551616 := by omega
  simp (disch := omega) [placeArray, arrayPlace, below_eq, hbp, hsp, Nat.mod_eq_of_lt]

theorem exec_lastPage {z : ℕ} (hax : m.reg .rax = z) (hsp : m.reg .rsp = s) :
    (execs m lastPage).reg .rsp = minus .qword s (z % 4096) ∧ (execs m lastPage).mem = m.mem ∧
      (execs m lastPage).flags.isSome := by
  have hz := hax ▸ m.reg_lt .rax
  have hs : s % 18446744073709551616 = s := Nat.mod_eq_of_lt (hsp ▸ m.reg_lt .rsp)
  have hminus (b : ℕ) : minus .qword s b % 18446744073709551616 = minus .qword s b :=
    Nat.mod_mod _ _
  have hmask : z % 4294967296 &&& 4095 = z % 4096 := by
    rw [Nat.and_two_pow_sub_one_eq_mod _ 12]
    omega
  simp (disch := omega) [lastPage, hax, hsp, Nat.mod_eq_of_lt, hmask, hs, hminus]

theorem exec_or_zero (m : Machine) (a : Addr) :
    (exec m (.alu .or .qword (.mem a) (.imm 0))).mem = m.mem := by
  have hv := load_lt 8 m.mem (m.ea a)
  have hmod : load 8 m.mem (m.ea a) % 2 ^ 64 = load 8 m.mem (m.ea a) := Nat.mod_eq_of_lt hv
  have hzero : ((0 : ℤ) % (Width.qword.modulus : ℕ)).toNat = 0 := rfl
  rw [exec, Machine.read_imm, hzero, Alu.eval, Nat.or_zero, Machine.read_mem, Machine.write_mem,
    Machine.setFlags_mem, Machine.setMem_mem]
  show store 8 m.mem (m.ea a) (load 8 m.mem (m.ea a) % 2 ^ 64) = m.mem
  rw [hmod, store_load]

theorem exec_touch (m : Machine) : (execs m touch).mem = m.mem ∧
    (execs m touch).reg .rsp = m.reg .rsp := by
  refine ⟨?_, execs_reg (by decide)⟩
  rw [touch, execs_cons, execs_cons, execs_cons, execs_cons, execs_nil]
  rw [deref, exec_or_zero]
  rfl

theorem exec_probe (m : Machine) : (execs m probe).mem = m.mem ∧
    (execs m probe).reg .rsp = minus .qword (m.reg .rsp) 4096 := by
  constructor
  · rw [probe, execs_cons, execs_cons, execs_nil, exec_or_zero]
    rfl
  · rw [probe, execs_cons, execs_cons, execs_nil, exec_reg (by decide)]
    simp [minus]

end Allocation

section Leaving
variable {m : Machine} {bp s : ℕ}

theorem exec_checkCanary (hbp : m.reg .rbp = bp) (hlo : 144 ≤ bp) (hhi : bp < 2 ^ 64)
    (hcanary : load 8 m.mem (bp - 40) = m.fs 40 % 2 ^ 64) :
    (execs m checkCanary).flags = some ⟨true, false⟩ := by
  have hsame : signs .qword (m.fs 40 % 2 ^ 64 ^^^ m.fs 40 % 2 ^ 64) = ⟨true, false⟩ := by
    rw [Nat.xor_self]
    decide
  simp (disch := omega) [checkCanary, below_eq, hbp, hcanary, Alu.flags]
  simpa using hsame

theorem exec_leaveMerge (hbp : m.reg .rbp = bp) (hlo : 32 ≤ bp) (hhi : bp + 16 < 2 ^ 64) :
    (execs m leaveMerge).reg .rsp = bp + 8 ∧ (execs m leaveMerge).reg .rbp = load 8 m.mem bp := by
  have hv := load_lt 8 m.mem bp
  have hstart : address bp 0 (-32) = bp - 32 := address_neg hlo (by omega)
  simp (disch := omega) [leaveMerge, hbp, hstart, Nat.mod_eq_of_lt]
  have htop : bp - 32 + 8 + 8 + 8 + 8 = bp := by omega
  rw [htop]
  omega

end Leaving

end Acos.AsmMergesort
