/-
Keys and values as bytes.  A name and a number that are written as one text, with
a separator between them, can be told apart again; a code writes a value in front
of other bytes and reads it back from there.
-/
import Mathlib

namespace ByteEncoding

section Text

/-- What stands behind the last separator decides where a list is divided. -/
theorem append_cons_inj {α : Type} {sep : α} {a b x y : List α} (hx : sep ∉ x)
    (hy : sep ∉ y) : a ++ sep :: x = b ++ sep :: y ↔ a = b ∧ x = y := by
  constructor
  · intro h
    rcases List.append_eq_append_iff.mp h with ⟨c, rfl, hc⟩ | ⟨c, rfl, hc⟩
    · cases c with
      | nil => exact ⟨(List.append_nil a).symm, (List.cons.inj hc).2⟩
      | cons d c =>
          obtain ⟨rfl, rfl⟩ := List.cons.inj hc
          exact absurd (List.mem_append_right c List.mem_cons_self) hx
    · cases c with
      | nil => exact ⟨List.append_nil b, (List.cons.inj hc).2.symm⟩
      | cons d c =>
          obtain ⟨rfl, rfl⟩ := List.cons.inj hc
          exact absurd (List.mem_append_right c List.mem_cons_self) hy
  · rintro ⟨rfl, rfl⟩
    rfl

variable {sep : Char} {name name' : String} {n n' : Nat}

/-- The separator stands in the numeral of no number. -/
theorem notMem_toString (hsep : sep.isDigit = false) (n : Nat) :
    sep ∉ (toString n).toList := by
  intro hmem
  rw [Nat.toString_eq_repr, Nat.toList_repr] at hmem
  have hdigit := Nat.isDigit_of_mem_toDigits (by omega) (by omega) hmem
  rw [hsep] at hdigit
  cases hdigit

/-- A name and a number are read off their text, whatever stands in the name. -/
theorem numbered_inj (hsep : sep.isDigit = false) :
    name ++ String.singleton sep ++ toString n =
        name' ++ String.singleton sep ++ toString n' ↔ name = name' ∧ n = n' := by
  rw [← String.toList_inj]
  simp only [String.toList_append, String.toList_singleton, List.append_assoc,
    List.singleton_append]
  rw [append_cons_inj (notMem_toString hsep n) (notMem_toString hsep n'),
    String.toList_inj, String.toList_inj]
  exact and_congr_right fun _ => Nat.repr_inj

end Text

/-- A way to write values of a type, and to read one off the front of a list. -/
structure Code (A : Type) where
  write : A → List UInt8
  read : List UInt8 → Option (A × List UInt8)
  read_write : ∀ a rest, read (write a ++ rest) = some (a, rest)

namespace Code

variable {A B : Type}

def unit : Code Unit where
  write _ := []
  read bytes := some ((), bytes)
  read_write _ _ := rfl

def byte : Code UInt8 where
  write b := [b]
  read
    | [] => none
    | b :: bytes => some (b, bytes)
  read_write _ _ := rfl

/-- A number, seven bits to a byte; the bytes before the last are marked. -/
def writeNat (n : Nat) : List UInt8 :=
  if n < 128 then [UInt8.ofNat n]
  else UInt8.ofNat (n % 128 + 128) :: writeNat (n / 128)

def readNat : List UInt8 → Option (Nat × List UInt8)
  | [] => none
  | byte :: bytes =>
      if byte.toNat < 128 then some (byte.toNat, bytes)
      else do
        let (high, rest) ← readNat bytes
        some (byte.toNat - 128 + 128 * high, rest)

theorem readNat_writeNat (n : Nat) (rest : List UInt8) :
    readNat (writeNat n ++ rest) = some (n, rest) := by
  induction n using writeNat.induct with
  | case1 n hlow =>
      have hbyte : (UInt8.ofNat n).toNat = n :=
        UInt8.toNat_ofNat_of_lt' (show n < 256 by omega)
      rw [writeNat, if_pos hlow, List.singleton_append, readNat, hbyte, if_pos hlow]
  | case2 n hlow ih =>
      have hbyte : (UInt8.ofNat (n % 128 + 128)).toNat = n % 128 + 128 :=
        UInt8.toNat_ofNat_of_lt' (show n % 128 + 128 < 256 by omega)
      rw [writeNat, if_neg hlow, List.cons_append, readNat, hbyte, if_neg (by omega),
        ih]
      have hsum : n % 128 + 128 - 128 + 128 * (n / 128) = n := by omega
      exact congrArg (fun m => some (m, rest)) hsum

def nat : Code Nat := ⟨writeNat, readNat, readNat_writeNat⟩

/-- One value behind the other. -/
def pair (left : Code A) (right : Code B) : Code (A × B) where
  write value := left.write value.1 ++ right.write value.2
  read bytes := (left.read bytes).bind fun (a, bytes) =>
    (right.read bytes).map fun (b, bytes) => ((a, b), bytes)
  read_write := by
    rintro ⟨a, b⟩ rest
    simp only [List.append_assoc, left.read_write, Option.bind_some,
      right.read_write, Option.map_some]

/-- A type whose values can be had from those of a type with a code. -/
def via (code : Code A) (raw : B → A) (back : A → B) (h : ∀ b, back (raw b) = b) :
    Code B where
  write b := code.write (raw b)
  read bytes := (code.read bytes).map fun (a, rest) => (back a, rest)
  read_write b rest := by
    simp only [code.read_write, Option.map_some, h]

/-- Read a value as often as `count` says. -/
def readMany (code : Code A) : Nat → List UInt8 → Option (List A × List UInt8)
  | 0, bytes => some ([], bytes)
  | count + 1, bytes => (code.read bytes).bind fun (a, bytes) =>
      (code.readMany count bytes).map fun (items, bytes) => (a :: items, bytes)

theorem readMany_flatMap (code : Code A) (items : List A) (rest : List UInt8) :
    code.readMany items.length (items.flatMap code.write ++ rest) =
      some (items, rest) := by
  induction items with
  | nil => rfl
  | cons a items ih =>
      simp only [List.flatMap_cons, List.append_assoc, List.length_cons, readMany,
        code.read_write, Option.bind_some, ih, Option.map_some]

/-- The length of a list comes before its items. -/
def list (code : Code A) : Code (List A) where
  write items := nat.write items.length ++ items.flatMap code.write
  read bytes := (nat.read bytes).bind fun (count, bytes) => code.readMany count bytes
  read_write items rest := by
    rw [List.append_assoc, nat.read_write, Option.bind_some]
    exact code.readMany_flatMap items rest

/-- A fixed number of values has no length in front. -/
def vector (code : Code A) [Inhabited A] (count : Nat) : Code (Vector A count) where
  write items := items.toList.flatMap code.write
  read bytes := (code.readMany count bytes).map fun (items, rest) =>
    (Vector.ofFn fun i => items.getD i default, rest)
  read_write items rest := by
    have hmany := code.readMany_flatMap items.toList rest
    rw [Vector.length_toList] at hmany
    have hitems : (Vector.ofFn fun i : Fin count =>
        items.toList.getD i default) = items := by
      ext i hi
      simp
    simp only [hmany, Option.map_some, hitems]

end Code

end ByteEncoding
