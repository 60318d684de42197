import Mathlib.Logic.Function.Basic
import Mathlib.Tactic.Ring

/-! Numbers of several bytes in a memory of bytes, the low byte first. -/
namespace Acos.WordMemory

abbrev Memory := ℕ → UInt8

def load : ℕ → Memory → ℕ → ℕ
  | 0, _, _ => 0
  | n + 1, m, a => (m a).toNat + 256 * load n m (a + 1)

def store : ℕ → Memory → ℕ → ℕ → Memory
  | 0, m, _, _ => m
  | n + 1, m, a, v => Function.update (store n m (a + 1) (v / 256)) a (UInt8.ofNat v)

/-- The second memory has the bytes of the first wherever `P` holds. -/
def Keeps (P : ℕ → Prop) (m m' : Memory) : Prop := ∀ a, P a → m' a = m a

section
variable {n k : ℕ} {m m' m'' : Memory} {a b v : ℕ} {P Q : ℕ → Prop}

theorem Keeps.refl (P : ℕ → Prop) (m : Memory) : Keeps P m m := fun _ _ => rfl

theorem Keeps.trans (h : Keeps P m m') (h' : Keeps P m' m'') : Keeps P m m'' :=
  fun a ha => (h' a ha).trans (h a ha)

theorem Keeps.mono (h : Keeps P m m') (hPQ : ∀ a, Q a → P a) : Keeps Q m m' :=
  fun a ha => h a (hPQ a ha)

theorem load_lt (n : ℕ) (m : Memory) (a : ℕ) : load n m a < 256 ^ n := by
  induction n generalizing a with
  | zero => exact Nat.one_pos
  | succ n ih =>
    have hbyte := (m a).toNat_lt
    have hrest := ih (a + 1)
    rw [load, Nat.pow_succ]
    omega

theorem store_of_lt (h : b < a) : store n m a v b = m b := by
  induction n generalizing a v with
  | zero => rfl
  | succ n ih =>
    rw [store, Function.update_of_ne (Nat.ne_of_lt h)]
    exact ih (Nat.lt_succ_of_lt h)

theorem store_of_ge (h : a + n ≤ b) : store n m a v b = m b := by
  induction n generalizing a v with
  | zero => rfl
  | succ n ih =>
    rw [store, Function.update_of_ne (by omega)]
    exact ih (by omega)

theorem store_keeps (hP : ∀ b, P b → b < a ∨ a + n ≤ b) : Keeps P m (store n m a v) := by
  intro b hb
  rcases hP b hb with hlt | hge
  · exact store_of_lt hlt
  · exact store_of_ge hge

theorem Keeps.store (h : Keeps P m m') (hP : ∀ b, P b → b < a ∨ a + n ≤ b) :
    Keeps P m (store n m' a v) :=
  h.trans (store_keeps hP)

theorem load_congr (h : ∀ b, a ≤ b → b < a + n → m' b = m b) : load n m' a = load n m a := by
  induction n generalizing a with
  | zero => rfl
  | succ n ih =>
    rw [load, load, h a (le_refl a) (by omega), ih fun b hlo hhi => h b (by omega) (by omega)]

theorem Keeps.load (h : Keeps P m m') (hP : ∀ b, a ≤ b → b < a + n → P b) :
    load n m' a = load n m a :=
  load_congr fun b hlo hhi => h b (hP b hlo hhi)

theorem load_store (h : v < 256 ^ n) : load n (store n m a v) a = v := by
  induction n generalizing a v with
  | zero =>
    rw [Nat.pow_zero] at h
    rw [load]
    omega
  | succ n ih =>
    rw [Nat.pow_succ] at h
    have hrest : load n (store (n + 1) m a v) (a + 1) =
        load n (store n m (a + 1) (v / 256)) (a + 1) :=
      load_congr fun b hlo _ => Function.update_of_ne (by omega) _ _
    rw [load, hrest, ih (by omega), store, Function.update_self, UInt8.toNat_ofNat']
    omega

/-- The load of a place that a store does not touch. -/
theorem load_store_of_apart (h : a + n ≤ b ∨ b + k ≤ a) :
    load n (store k m b v) a = load n m a := by
  apply load_congr
  intro c hlo hhi
  rcases h with h | h
  · exact store_of_lt (by omega)
  · exact store_of_ge (by omega)

/-- Storing what is there changes nothing. -/
theorem store_load : store n m a (load n m a) = m := by
  induction n generalizing a with
  | zero => rfl
  | succ n ih =>
    have hbyte := (m a).toNat_lt
    have hlow : UInt8.ofNat ((m a).toNat + 256 * load n m (a + 1)) = m a := by
      apply UInt8.toNat_inj.mp
      rw [UInt8.toNat_ofNat']
      omega
    have hhigh : ((m a).toNat + 256 * load n m (a + 1)) / 256 = load n m (a + 1) := by omega
    rw [load, store, hhigh, ih, hlow]
    exact Function.update_eq_self a m

end

end Acos.WordMemory
