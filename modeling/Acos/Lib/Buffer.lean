import Acos.Lib.CString

/-! Buffers of a fixed size. An access that does not fit into the buffer has no result. -/
namespace Acos.Buffer
open Acos.CString

def load (buffer : Bytes) (pos n : ℕ) : Option Bytes :=
  if pos + n ≤ buffer.length then some ((buffer.drop pos).take n) else none

def store (buffer : Bytes) (pos : ℕ) (bytes : Bytes) : Option Bytes :=
  if pos + bytes.length ≤ buffer.length then
    some (buffer.take pos ++ bytes ++ buffer.drop (pos + bytes.length))
  else none

/-- `strlen(buffer + pos)`; it needs a terminator inside the buffer. -/
def strlenAt (buffer : Bytes) (pos : ℕ) : Option ℕ :=
  if (cString (buffer.drop pos)).length < (buffer.drop pos).length then
    some (cString (buffer.drop pos)).length
  else none

/-- Storing behind a part of the buffer that stays as it is. -/
theorem store_append {front old new back : Bytes} (h : old.length = new.length) :
    store (front ++ (old ++ back)) front.length new = some (front ++ (new ++ back)) := by
  have hfits : front.length + new.length ≤ (front ++ (old ++ back)).length := by
    simp only [List.length_append]
    omega
  rw [store, if_pos hfits, List.take_left, ← List.drop_drop, List.drop_left, ← h, List.drop_left,
    List.append_assoc]

theorem store_length {buffer bytes buffer' : Bytes} {pos : ℕ}
    (h : store buffer pos bytes = some buffer') : buffer'.length = buffer.length := by
  unfold store at h
  split_ifs at h with hfits
  cases h
  simp only [List.length_append, List.length_take, List.length_drop]
  omega

/-- Storing right behind what the buffer is known to start with. -/
theorem store_after {buffer front : Bytes} (bytes : Bytes) (hfront : front <+: buffer)
    (hfits : front.length + bytes.length ≤ buffer.length) :
    ∃ buffer', store buffer front.length bytes = some buffer' ∧
      buffer'.length = buffer.length ∧ front ++ bytes <+: buffer' := by
  obtain ⟨rest, rfl⟩ := hfront
  have hstore : store (front ++ rest) front.length bytes =
      some (front ++ bytes ++ rest.drop bytes.length) := by
    rw [store, if_pos hfits, List.take_left, ← List.drop_drop, List.drop_left]
  exact ⟨_, hstore, store_length hstore, List.prefix_append _ _⟩

end Acos.Buffer
