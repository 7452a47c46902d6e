import Mathlib.Algebra.GroupWithZero.Nat
import Mathlib.Data.List.Infix

/-!
This module contains printing and reading of text, a list of characters: integers in decimal that are
padded with zeros, fixed texts, texts that end where a separator occurs for the first time, and
sequences of records. Each reader takes off the front what its printer has put there.
-/

namespace Text

def isDigit (c : Char) : Bool :=
  c.isDigit

-- At least `w` characters
def padded (w n : Nat) : List Char :=
  List.replicate (w - (Nat.toDigits 10 n).length) '0' ++ Nat.toDigits 10 n

-- The sign counts
def paddedInt (w : Nat) : Int → List Char
  | .ofNat n => padded w n
  | .negSucc n => '-' :: padded (w - 1) (n + 1)

def readNat (l : List Char) : Option (Nat × List Char) :=
  if (l.takeWhile isDigit).isEmpty then
    none
  else
    some (Nat.ofDigitChars 10 (l.takeWhile isDigit) 0, l.dropWhile isDigit)

def readInt : List Char → Option (Int × List Char)
  | '-' :: l => (readNat l).map fun r => (-(r.1 : Int), r.2)
  | l => (readNat l).map fun r => ((r.1 : Int), r.2)

def expect (lit l : List Char) : Option (List Char) :=
  if lit.isPrefixOf l then
    some (l.drop lit.length)
  else
    none

-- What comes before the first `sep`, and what comes after it
def upTo (sep : List Char) : List Char → Option (List Char × List Char)
  | [] => if sep.isPrefixOf [] then some ([], []) else none
  | c :: l =>
    if sep.isPrefixOf (c :: l) then
      some ([], (c :: l).drop sep.length)
    else
      (upTo sep l).map fun r => (c :: r.1, r.2)

-- Records up to the end of the text, at most `fuel` of them
def readAll (read : List Char → Option (α × List Char)) : Nat → List Char → Option (List α)
  | _, [] => some []
  | 0, _ :: _ => none
  | fuel + 1, c :: l =>
    (read (c :: l)).bind fun r => (readAll read fuel r.2).map fun as => r.1 :: as

variable {w n : Nat} {l rest lit sep : List Char}

theorem padded_isDigit (hc : c ∈ padded w n) : isDigit c = true := by
  simp only [padded, List.mem_append, List.mem_replicate] at hc
  rcases hc with ⟨_, rfl⟩ | hc
  . rfl
  . exact Nat.isDigit_of_mem_toDigits (by decide) (by decide) hc

theorem padded_ne_nil : padded w n ≠ [] := by
  simp [padded, Nat.toDigits_ne_nil]

theorem ofDigitChars_padded : Nat.ofDigitChars 10 (padded w n) 0 = n := by
  rw [padded, Nat.ofDigitChars_append, Nat.ofDigitChars_replicate_zero, Nat.mul_zero,
    Nat.ofDigitChars_ten_toDigits]

-- A number ends where the digits end
def Ends (l : List Char) : Prop :=
  ∀ c ∈ l.head?, isDigit c = false

theorem ends_cons (h : isDigit c = false) : Ends (c :: l) := by
  intro d hd
  cases hd
  exact h

theorem takeWhile_ends (hl : ∀ c ∈ l, isDigit c = true) (h : Ends rest)
    : (l ++ rest).takeWhile isDigit = l ∧ (l ++ rest).dropWhile isDigit = rest := by
  have hrest : rest.takeWhile isDigit = [] ∧ rest.dropWhile isDigit = rest := by
    cases rest with
    | nil => exact ⟨rfl, rfl⟩
    | cons c rest =>
      have := h c rfl
      simp [this]
  rw [List.takeWhile_append_of_pos hl, List.dropWhile_append_of_pos hl, hrest.left, hrest.right,
    List.append_nil]
  exact ⟨rfl, rfl⟩

theorem readNat_padded (h : Ends rest) : readNat (padded w n ++ rest) = some (n, rest) := by
  rcases takeWhile_ends (fun c hc => padded_isDigit (w := w) (n := n) hc) h with ⟨htake, hdrop⟩
  unfold readNat
  rw [htake, hdrop, ofDigitChars_padded]
  simp [padded_ne_nil]

theorem readInt_padded (h : Ends rest) (z : Int)
    : readInt (paddedInt w z ++ rest) = some (z, rest) := by
  cases z with
  | ofNat n =>
    simp only [paddedInt]
    have hdigit : ∀ c l, padded w n ++ rest = c :: l → c ≠ '-' := by
      intro c l hc hminus
      rcases List.exists_cons_of_ne_nil (padded_ne_nil (w := w) (n := n)) with ⟨d, l', hd⟩
      have := padded_isDigit (w := w) (n := n) (c := d) (by simp [hd])
      rw [hd, List.cons_append, List.cons.injEq] at hc
      rw [hc.left, hminus] at this
      exact absurd this (by decide)
    have hread := readNat_padded (w := w) (n := n) h
    unfold readInt
    split
    . next l heq => exact absurd rfl (hdigit _ _ heq)
    . rw [hread]
      rfl
  | negSucc n =>
    simp only [paddedInt, List.cons_append, readInt, readNat_padded h, Option.map_some]
    rfl

theorem expect_append : expect lit (lit ++ rest) = some rest := by
  simp [expect]

theorem expect_cons {c : Char} : expect [c] (c :: l) = some l :=
  expect_append

-- A separator that begins inside of `l` would be found within `l` and what the separator itself adds
theorem not_prefix (h : ¬sep <:+: (c :: l) ++ sep.dropLast) (hne : sep ≠ [])
    : ¬sep <+: c :: (l ++ sep ++ rest) := by
  intro hprefix
  apply h
  have hsplit : c :: (l ++ sep ++ rest)
      = (c :: l) ++ sep.dropLast ++ ([sep.getLast hne] ++ rest) := by
    rw [List.append_assoc, List.append_assoc (c :: l), ← List.append_assoc sep.dropLast,
      List.dropLast_append_getLast, List.cons_append]
  rw [hsplit] at hprefix
  apply List.IsPrefix.isInfix
  apply List.prefix_of_prefix_length_le hprefix (List.prefix_append _ _)
  simp only [List.length_append, List.length_cons, List.length_dropLast]
  omega

theorem upTo_append (hne : sep ≠ []) (h : ¬sep <:+: l ++ sep.dropLast)
    : upTo sep (l ++ sep ++ rest) = some (l, rest) := by
  induction l with
  | nil =>
    rcases List.exists_cons_of_ne_nil hne with ⟨c, sep', rfl⟩
    simp [upTo]
  | cons c l ih =>
    have hfirst : ¬sep.isPrefixOf (c :: (l ++ sep ++ rest)) = true := by
      rw [List.isPrefixOf_iff_prefix]
      exact not_prefix h hne
    have hlater : ¬sep <:+: l ++ sep.dropLast := by
      intro hin
      exact h (hin.trans (List.suffix_cons c _).isInfix)
    simp only [List.cons_append, upTo, hfirst, Bool.false_eq_true, ↓reduceIte, ih hlater,
      Option.map_some]

theorem upTo_char {c : Char} (h : c ∉ l) : upTo [c] (l ++ c :: rest) = some (l, rest) := by
  have hin : ¬[c] <:+: l ++ [c].dropLast := by
    simpa [List.singleton_infix_iff] using h
  have hsplit : l ++ c :: rest = l ++ [c] ++ rest := by
    simp
  rw [hsplit]
  exact upTo_append (by simp) hin

theorem readAll_flatMap {read : List Char → Option (α × List Char)} {print : β → List Char}
    {value : β → α} (bs : List β) (hne : ∀ b ∈ bs, print b ≠ [])
    (hread : ∀ b ∈ bs, ∀ rest, read (print b ++ rest) = some (value b, rest)) (hfuel : bs.length ≤ fuel)
    : readAll read fuel (bs.flatMap print) = some (bs.map value) := by
  induction bs generalizing fuel with
  | nil => cases fuel <;> rfl
  | cons b bs ih =>
    cases fuel with
    | zero => cases hfuel
    | succ fuel =>
      have hfirst := hread b List.mem_cons_self (bs.flatMap print)
      have hlater := ih (fun b hb => hne b (List.mem_cons_of_mem _ hb))
        (fun b hb => hread b (List.mem_cons_of_mem _ hb)) (Nat.le_of_succ_le_succ hfuel)
      rcases List.exists_cons_of_ne_nil (hne b List.mem_cons_self) with ⟨c, l, hcl⟩
      rw [List.flatMap_cons]
      rw [hcl, List.cons_append] at hfirst ⊢
      simp only [readAll, hfirst, Option.bind_some, hlater, Option.map_some, List.map_cons]

end Text
