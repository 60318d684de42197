import Acos.Lib.MachineInt
import Acos.Lib.Scanf

/-! `getConstructorMangledName` of `inf21-2_posix_dl_cpp-class-loader/main.cpp`. The indices are
`int`s, whose arithmetic wraps around; in a comparison with a `size_t` they are converted to it. -/
namespace Acos.ClassLoader
open Acos.CString Acos.MachineInt Acos.Scanf

/-- `std::to_string` of an `int`. -/
def toString (value : ℤ) : Bytes := (if value < 0 then [45] else []) ++ decimal value.natAbs

/-- `substr`, which throws an exception if `pos` lies after the end. -/
def substr (text : Bytes) (pos n : ℤ) : Option Bytes :=
  if u64 pos ≤ text.length then some ((text.drop (u64 pos).toNat).take (u64 n).toNat) else none

/-- The inner loop from `i` on. -/
def nameLoop (className : Bytes) : ℕ → ℤ → ℤ → Option (ℤ × ℤ)
  | 0, _, _ => none
  | fuel + 1, name_len, i =>
    if u64 i < className.length ∧ className.getD (u64 i).toNat 0 ≠ 58 then
      nameLoop className fuel (i32 (name_len + 1)) (i32 (i + 1))
    else some (name_len, i)

/-- The outer loop from `i` on. -/
def manglingLoop (className : Bytes) : ℕ → Bytes → ℤ → Option Bytes
  | 0, _, _ => none
  | fuel + 1, name, i =>
    if u64 i < className.length then
      if className.getD (u64 i).toNat 0 ≠ 58 then
        (nameLoop className (className.length + 1) 0 i).bind fun (name_len, i) =>
          (substr className (i32 (i - name_len)) name_len).bind fun part =>
            manglingLoop className fuel (name ++ toString name_len ++ part) (i32 (i + 1))
      else manglingLoop className fuel name (i32 (i + 1))
    else some name

/-- `"_ZN"`. -/
def nestedMark : Bytes := [95, 90, 78]

/-- `"C1Ev"`. -/
def constructorMark : Bytes := [67, 49, 69, 118]

def getConstructorMangledName (className : Bytes) : Option Bytes :=
  (manglingLoop className (className.length + 1) nestedMark 0).map (· ++ constructorMark)

/-- `std::regex_replace` of `::` by `/`. -/
def replaceColons : Bytes → Bytes
  | 58 :: 58 :: rest => 47 :: replaceColons rest
  | c :: rest => c :: replaceColons rest
  | [] => []

/-- The file that `loadClass` opens; `CLASSPATH` is in the environment. -/
def libraryPath (classpath fullyQualifiedName : Bytes) : Bytes :=
  classpath ++ 47 :: replaceColons fullyQualifiedName ++ [46, 115, 111]

/-- `loadClass` up to `dlsym`: the symbol that is looked up if the library can be opened. -/
def loadClass (dlopen : Bytes → Bool) (classpath fullyQualifiedName : Bytes) : Option Bytes :=
  if dlopen (libraryPath classpath fullyQualifiedName) then
    getConstructorMangledName fullyQualifiedName
  else none

/-- Letters, digits, the underscore, and the bytes of other characters. -/
def isIdentifierByte (c : UInt8) : Bool :=
  isdigit c || (65 ≤ c && c ≤ 90) || c = 95 || (97 ≤ c && c ≤ 122) || 128 ≤ c

/-- A C++ identifier. -/
def IsIdentifier (c : Bytes) : Prop :=
  c ≠ [] ∧ (∀ a ∈ c.head?, isdigit a = false) ∧ ∀ a ∈ c, isIdentifierByte a = true

/-- The identifiers with `::` between them. -/
def qualified (cs : List Bytes) : Bytes := [58, 58].intercalate cs

/-- The identifiers with their lengths. -/
def components (cs : List Bytes) : Bytes := cs.flatMap fun c => decimal c.length ++ c

def mangled (cs : List Bytes) : Bytes := nestedMark ++ components cs ++ constructorMark

/-- The identifiers that a text with their lengths begins with. -/
def decodeComponents (text : Bytes) : List Bytes :=
  if _h : text.takeWhile isdigit = [] then []
  else
    let rest := text.dropWhile isdigit
    let n := value (text.takeWhile isdigit)
    rest.take n :: decodeComponents (rest.drop n)
termination_by text.length
decreasing_by
  have hsplit := congrArg List.length (List.takeWhile_append_dropWhile (p := isdigit) (l := text))
  have hpos := List.length_pos_iff.mpr _h
  rw [List.length_append] at hsplit
  rw [List.length_drop]
  omega

/-- The identifiers of a symbol. -/
def decode (symbol : Bytes) : List Bytes := decodeComponents (symbol.drop nestedMark.length)

section
variable {c front rest name : Bytes} {cs : List Bytes} {k : ℕ}

theorem identifier_no_colon (h : IsIdentifier c) : ∀ a ∈ c, a ≠ 58 := by
  intro a ha heq
  have hbyte := h.2.2 a ha
  rw [heq] at hbyte
  exact absurd hbyte (by decide)

theorem toString_natCast (n : ℕ) : toString n = decimal n := by
  rw [toString, if_neg (by omega), List.nil_append, Int.natAbs_natCast]

theorem getD_front (front : Bytes) (a : UInt8) (rest : Bytes) :
    (front ++ a :: rest).getD front.length 0 = a := by simp

/-- At the end of the name the last `++i` may wrap around, and the loop ends all the same. -/
theorem index_end {k : ℕ} (h : k < 2 ^ 31) : (k : ℤ) ≤ u64 (i32 (k + 1 : ℕ)) := by
  rcases i32_natCast_cases (show k + 1 < 2 ^ 32 by omega) with heq | heq <;>
    rw [heq] <;> unfold u64 <;> omega

theorem nameLoop_eq (hc : ∀ a ∈ c, a ≠ 58) (hrest : ∀ a ∈ rest.head?, a = 58)
    (hk : k ≤ front.length) (hi : front.length + c.length < 2 ^ 31) {fuel : ℕ}
    (hfuel : c.length < fuel) :
    nameLoop (front ++ (c ++ rest)) fuel k front.length =
      some (((k + c.length : ℕ) : ℤ), ((front.length + c.length : ℕ) : ℤ)) := by
  obtain ⟨fuel, rfl⟩ : ∃ fuel', fuel = fuel' + 1 := ⟨fuel - 1, by omega⟩
  have hindex : u64 (front.length : ℤ) = front.length := u64_of_range (by omega) (by omega)
  induction c generalizing front k fuel with
  | nil =>
    have hstop : ¬ (u64 front.length < (front ++ ([] ++ rest)).length ∧
        (front ++ ([] ++ rest)).getD (u64 front.length).toNat 0 ≠ 58) := by
      rw [hindex]
      cases rest with
      | nil => simp
      | cons a rest => simp [hrest a rfl]
    rw [nameLoop, if_neg hstop]
    rfl
  | cons a c ih =>
    obtain ⟨ha, hc⟩ := List.forall_mem_cons.mp hc
    rw [List.length_cons] at hi hfuel
    have hmore : u64 front.length < (front ++ (a :: c ++ rest)).length ∧
        (front ++ (a :: c ++ rest)).getD (u64 front.length).toNat 0 ≠ 58 := by
      rw [hindex, Int.toNat_natCast, List.cons_append, getD_front]
      refine ⟨?_, ha⟩
      simp only [List.length_append, List.length_cons]
      omega
    obtain ⟨fuel', rfl⟩ : ∃ fuel', fuel = fuel' + 1 := ⟨fuel - 1, by omega⟩
    have hshift := @ih (front ++ [a]) (k + 1) hc (by simpa using hk)
      (by simp only [List.length_append, List.length_singleton]; omega) fuel' (by omega)
      (u64_of_range (by omega) (by simp only [List.length_append, List.length_singleton]; omega))
    rw [List.append_assoc, List.length_append, List.length_singleton] at hshift
    have hlen : i32 ((k : ℤ) + 1) = (k + 1 : ℕ) := i32_natCast (k := k + 1) (by omega)
    have hnext : i32 ((front.length : ℤ) + 1) = (front.length + 1 : ℕ) :=
      i32_natCast (k := front.length + 1) (by omega)
    rw [nameLoop, if_pos hmore, hlen, hnext, List.cons_append, ← List.singleton_append, hshift,
      List.length_cons, Nat.add_assoc, Nat.add_assoc, Nat.add_comm 1]

theorem components_cons (c : Bytes) (cs : List Bytes) :
    components (c :: cs) = decimal c.length ++ c ++ components cs := by
  rw [components, List.flatMap_cons, components]

theorem qualified_cons (c d : Bytes) (cs : List Bytes) :
    qualified (c :: d :: cs) = c ++ ([58, 58] ++ qualified (d :: cs)) := by
  simp [qualified, List.intercalate, List.intersperse]

/-- A colon is passed over. -/
theorem manglingLoop_colon (front rest name : Bytes) {fuel : ℕ}
    (hi : front.length + 1 < 2 ^ 31) :
    manglingLoop (front ++ 58 :: rest) (fuel + 1) name front.length =
      manglingLoop (front ++ 58 :: rest) fuel name (front.length + 1 : ℕ) := by
  have hindex : u64 (front.length : ℤ) = front.length := u64_of_range (by omega) (by omega)
  have hin : u64 (front.length : ℤ) < (front ++ 58 :: rest).length := by
    rw [hindex]
    simp
  have hcolon : (front ++ 58 :: rest).getD (u64 (front.length : ℤ)).toNat 0 = 58 := by
    rw [hindex, Int.toNat_natCast, getD_front]
  have hnext : i32 ((front.length : ℤ) + 1) = (front.length + 1 : ℕ) :=
    i32_natCast (k := front.length + 1) hi
  rw [manglingLoop, if_pos hin, hcolon, if_neg (by simp), hnext]

/-- Behind an identifier and the colon after it stands another colon. -/
theorem manglingLoop_separator (front c rest name : Bytes) {fuel : ℕ}
    (hi : front.length + c.length + 2 < 2 ^ 31) :
    manglingLoop (front ++ (c ++ ([58, 58] ++ rest))) (fuel + 1) name
        (front.length + c.length + 1 : ℕ) =
      manglingLoop (front ++ (c ++ ([58, 58] ++ rest))) fuel name
        (front.length + c.length + 2 : ℕ) := by
  have h := @manglingLoop_colon (front ++ c ++ [58]) rest name fuel
    (by simp only [List.length_append, List.length_singleton]; omega)
  rw [List.length_append, List.length_append, List.length_singleton] at h
  simpa only [List.append_assoc, List.singleton_append, List.cons_append, List.nil_append] using h

/-- A name is written with its length. -/
theorem manglingLoop_name (hne : c ≠ []) (hc : ∀ a ∈ c, a ≠ 58) (hrest : ∀ a ∈ rest.head?, a = 58)
    (hi : front.length + c.length < 2 ^ 31) {fuel : ℕ} :
    manglingLoop (front ++ (c ++ rest)) (fuel + 1) name front.length =
      manglingLoop (front ++ (c ++ rest)) fuel (name ++ (decimal c.length ++ c))
        (i32 (front.length + c.length + 1 : ℕ)) := by
  have hindex : u64 (front.length : ℤ) = front.length := u64_of_range (by omega) (by omega)
  have hpos := List.length_pos_iff.mpr hne
  have hin : u64 (front.length : ℤ) < (front ++ (c ++ rest)).length := by
    simp only [hindex, List.length_append]
    omega
  have hchar : (front ++ (c ++ rest)).getD (u64 (front.length : ℤ)).toNat 0 ≠ 58 := by
    obtain ⟨a, c, rfl⟩ := List.exists_cons_of_ne_nil hne
    rw [hindex, Int.toNat_natCast, List.cons_append, getD_front]
    exact hc a List.mem_cons_self
  have hloop : nameLoop (front ++ (c ++ rest)) ((front ++ (c ++ rest)).length + 1) (0 : ℕ)
      front.length = some (((0 + c.length : ℕ) : ℤ), ((front.length + c.length : ℕ) : ℤ)) :=
    nameLoop_eq hc hrest (Nat.zero_le _) hi (by simp only [List.length_append]; omega)
  rw [Nat.zero_add, Nat.cast_zero] at hloop
  have hstart : i32 (((front.length + c.length : ℕ) : ℤ) - c.length) = front.length := by
    rw [Nat.cast_add, Int.add_sub_cancel]
    exact i32_natCast (by omega)
  have hpart : substr (front ++ (c ++ rest)) front.length c.length = some c := by
    have hlen : u64 (c.length : ℤ) = c.length := u64_of_range (by omega) (by omega)
    have hinside : (front.length : ℤ) ≤ (front ++ (c ++ rest)).length := by
      rw [List.length_append]
      omega
    rw [substr, hindex, hlen, if_pos hinside, Int.toNat_natCast, Int.toNat_natCast,
      List.drop_left, List.take_left]
  rw [manglingLoop, if_pos hin, if_pos hchar, hloop]
  simp only [Option.bind_some, hstart, hpart, toString_natCast, List.append_assoc]
  rfl

theorem manglingLoop_eq (hne : cs ≠ []) (hcs : ∀ c ∈ cs, c ≠ [] ∧ ∀ a ∈ c, a ≠ 58)
    (hi : (front ++ qualified cs).length < 2 ^ 31) {fuel : ℕ}
    (hfuel : (qualified cs).length < fuel) :
    manglingLoop (front ++ qualified cs) fuel name front.length =
      some (name ++ components cs) := by
  induction cs generalizing front name fuel with
  | nil => exact absurd rfl hne
  | cons c cs ih =>
    obtain ⟨⟨hc_ne, hc⟩, hcs⟩ := List.forall_mem_cons.mp hcs
    have hpos := List.length_pos_iff.mpr hc_ne
    cases cs with
    | nil =>
      have hone : qualified [c] = c ++ [] := by simp [qualified, List.intercalate]
      rw [hone, List.append_nil] at hfuel
      rw [hone, List.append_nil, List.length_append] at hi
      obtain ⟨fuel', rfl⟩ : ∃ fuel', fuel = fuel' + 1 + 1 := ⟨fuel - 2, by omega⟩
      have hend : ¬ u64 (i32 (front.length + c.length + 1 : ℕ)) <
          (front ++ (c ++ [])).length := by
        have hge := index_end hi
        rw [List.append_nil, List.length_append]
        omega
      rw [hone, manglingLoop_name hc_ne hc (by simp) hi, manglingLoop, if_neg hend]
      simp [components]
    | cons d cs =>
      have hlen : (qualified (c :: d :: cs)).length =
          c.length + 2 + (qualified (d :: cs)).length := by
        rw [qualified_cons, List.length_append, List.length_append]
        simp only [List.length_cons, List.length_nil]
        omega
      rw [List.length_append, hlen] at hi
      rw [hlen] at hfuel
      obtain ⟨fuel', rfl⟩ : ∃ fuel', fuel = fuel' + 1 + 1 := ⟨fuel - 2, by omega⟩
      have hrest (name : Bytes) :
          manglingLoop (front ++ (c ++ ([58, 58] ++ qualified (d :: cs)))) fuel' name
              (front.length + c.length + 2 : ℕ) = some (name ++ components (d :: cs)) := by
        have hfront : (front ++ c ++ [58, 58]).length = front.length + c.length + 2 := by
          rw [List.length_append, List.length_append]
          rfl
        have h := @ih (front ++ c ++ [58, 58]) name (by simp) hcs
          (by rw [List.length_append, hfront]; omega) fuel' (by omega)
        rw [hfront] at h
        simpa only [List.append_assoc] using h
      rw [qualified_cons, manglingLoop_name hc_ne hc (by simp) (by omega),
        i32_natCast (by omega), manglingLoop_separator front c _ _ (by omega), hrest,
        List.append_assoc, ← components_cons]

/-- The symbol of a name whose length an `int` can hold. -/
theorem getConstructorMangledName_eq (hne : cs ≠ []) (hcs : ∀ c ∈ cs, IsIdentifier c)
    (hlen : (qualified cs).length < 2 ^ 31) :
    getConstructorMangledName (qualified cs) = some (mangled cs) := by
  have h := @manglingLoop_eq [] nestedMark cs hne
    (fun c hc => ⟨(hcs c hc).1, identifier_no_colon (hcs c hc)⟩) hlen
    ((qualified cs).length + 1) (Nat.lt_succ_self _)
  rw [List.nil_append, List.length_nil, Nat.cast_zero] at h
  rw [getConstructorMangledName, h]
  rfl

/-- What follows the names does not begin with a digit. -/
theorem decodeComponents_eq (hcs : ∀ c ∈ cs, IsIdentifier c)
    (hrest : ∀ a ∈ rest.head?, isdigit a = false) :
    decodeComponents (components cs ++ rest) = cs := by
  induction cs with
  | nil =>
    have hnone : (components [] ++ rest).takeWhile isdigit = [] :=
      (span_append (fun _ hc => absurd hc List.not_mem_nil) hrest).1
    rw [decodeComponents, dif_pos hnone]
  | cons c cs ih =>
    obtain ⟨⟨hne, hfirst, -⟩, hcs⟩ := List.forall_mem_cons.mp hcs
    have hhead : ∀ a ∈ (c ++ (components cs ++ rest)).head?, isdigit a = false := by
      obtain ⟨a, c, rfl⟩ := List.exists_cons_of_ne_nil hne
      exact hfirst
    obtain ⟨htake, hdrop⟩ := span_append (decimal_isdigit c.length) hhead
    rw [components_cons, List.append_assoc, List.append_assoc, decodeComponents,
      dif_neg (by rw [htake]; exact decimal_ne_nil _)]
    simp only [htake, hdrop, value_decimal, List.take_left, List.drop_left]
    rw [ih hcs]

theorem decode_mangled (hcs : ∀ c ∈ cs, IsIdentifier c) : decode (mangled cs) = cs := by
  rw [decode, mangled, List.append_assoc, List.drop_left]
  exact decodeComponents_eq hcs (by simp [constructorMark, isdigit])

/-- The name has a symbol of the right form, from which it can be read off and which no other name
has. -/
structure Mangles (cs : List Bytes) : Prop where
  symbol : getConstructorMangledName (qualified cs) = some (mangled cs)
  decoded : decode (mangled cs) = cs
  unique : ∀ cs', cs' ≠ [] → (∀ c ∈ cs', IsIdentifier c) → (qualified cs').length < 2 ^ 31 →
    getConstructorMangledName (qualified cs') = getConstructorMangledName (qualified cs) → cs' = cs

/-- Every name whose length an `int` can hold is mangled. -/
theorem mangles_of_length (hne : cs ≠ []) (hcs : ∀ c ∈ cs, IsIdentifier c)
    (hlen : (qualified cs).length < 2 ^ 31) : Mangles cs := by
  have hsymbol := getConstructorMangledName_eq hne hcs hlen
  refine ⟨hsymbol, decode_mangled hcs, fun cs' hne' hcs' hlen' heq => ?_⟩
  rw [hsymbol, getConstructorMangledName_eq hne' hcs' hlen', Option.some.injEq] at heq
  rw [← decode_mangled hcs, ← heq, decode_mangled hcs']

theorem replaceColons_length (text : Bytes) : text.length ≤ 2 * (replaceColons text).length := by
  induction text using replaceColons.induct with
  | case1 rest ih =>
    rw [replaceColons]
    simp only [List.length_cons]
    omega
  | case2 c rest hcolons ih =>
    rw [replaceColons.eq_2 _ _ hcolons]
    simp only [List.length_cons]
    omega
  | case3 => exact Nat.zero_le _

/-- No library has a path of `PATH_MAX` bytes, so that `loadClass` mangles no longer names. -/
theorem loadClass_symbol {dlopen : Bytes → Bool} {classpath : Bytes} (hne : cs ≠ [])
    (hcs : ∀ c ∈ cs, IsIdentifier c) (hdlopen : ∀ path, dlopen path = true → path.length < 4096)
    (hopen : dlopen (libraryPath classpath (qualified cs)) = true) :
    loadClass dlopen classpath (qualified cs) = some (mangled cs) := by
  have hpath := hdlopen _ hopen
  have hlen := replaceColons_length (qualified cs)
  simp only [libraryPath, List.length_append, List.length_cons] at hpath
  rw [loadClass, if_pos hopen]
  apply getConstructorMangledName_eq hne hcs (by omega)

end

theorem replicate_identifier {n : ℕ} (hn : n ≠ 0) : IsIdentifier (List.replicate n 97) := by
  obtain ⟨n, rfl⟩ := Nat.exists_eq_succ_of_ne_zero hn
  refine ⟨by simp [List.replicate_succ], by simp [List.replicate_succ, isdigit], fun a ha => ?_⟩
  rw [List.eq_of_mem_replicate ha]
  decide

/-- `a::aa`. -/
theorem mangles_two : Mangles [List.replicate 1 97, List.replicate 2 97] := by
  apply mangles_of_length (List.cons_ne_nil _ _)
  · exact List.forall_mem_cons.mpr ⟨replicate_identifier (by decide),
      List.forall_mem_singleton.mpr (replicate_identifier (by decide))⟩
  · decide

end Acos.ClassLoader
