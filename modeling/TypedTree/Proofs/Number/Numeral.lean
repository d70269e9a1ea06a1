import Mathlib.Data.List.TakeWhile
import TypedTree.Json.Printer
import TypedTree.Proofs.Number.Reach

/-! How doubles are written in documents, and what their texts say. A text is read as the number its digits stand for,
    the point and the exponent taken into account; the text of a double reads as its shortest decimal, whichever of the
    two forms it has. So two finite doubles that are written the same are the same. -/

namespace TypedTree

/-! ### Digits -/

/-- The text consists of digits. -/
def IsDigits (ds : List Char) : Prop := ∀ c ∈ ds, c.isDigit = true

namespace IsDigits
variable {ds es : List Char}

theorem append (hd : IsDigits ds) (he : IsDigits es) : IsDigits (ds ++ es) := fun c hc =>
  (List.mem_append.mp hc).elim (hd c) (he c)

theorem of_append (h : IsDigits (ds ++ es)) : IsDigits ds ∧ IsDigits es :=
  ⟨fun c hc => h c (List.mem_append_left _ hc), fun c hc => h c (List.mem_append_right _ hc)⟩

theorem singleton {d : Char} (hd : d.isDigit = true) : IsDigits [d] := List.forall_mem_singleton.mpr hd

theorem zeros (n : ℕ) : IsDigits (List.replicate n '0') := fun c hc => by
  rw [List.eq_of_mem_replicate hc]
  rfl

theorem toDigits (n : ℕ) : IsDigits (Nat.toDigits 10 n) := fun _ hc =>
  Nat.isDigit_of_mem_toDigits (by decide) (by decide) hc

theorem ne (h : IsDigits ds) {x : Char} (hx : x.isDigit = false) : ∀ c ∈ ds, (c != x) = true := fun c hc => by
  rw [bne_iff_ne]
  rintro rfl
  rw [h c hc] at hx
  cases hx

end IsDigits

/-- The number that digits stand for. -/
def digitsValue (ds : List Char) : ℕ := Nat.ofDigitChars 10 ds 0

theorem digitsValue_zeros_append (n : ℕ) (ds : List Char) : digitsValue (List.replicate n '0' ++ ds) = digitsValue ds := by
  rw [digitsValue, Nat.ofDigitChars_append, Nat.ofDigitChars_replicate_zero]
  rfl

theorem digitsValue_append_zeros (ds : List Char) (n : ℕ) :
    digitsValue (ds ++ List.replicate n '0') = 10 ^ n * digitsValue ds := by
  rw [digitsValue, Nat.ofDigitChars_append, Nat.ofDigitChars_replicate_zero]
  rfl

theorem digitsValue_toDigits (n : ℕ) : digitsValue (Nat.toDigits 10 n) = n :=
  Nat.ofDigitChars_toDigits (by decide) (by decide)

/-! ### Texts of numbers -/

namespace Numeral

/-- What stands before the exponent. -/
def mantissa (t : List Char) : List Char := t.takeWhile (· != 'e')

/-- The digits behind the point. -/
def fraction (t : List Char) : List Char := ((mantissa t).dropWhile (· != '.')).tail

def exponent (t : List Char) : ℤ :=
  match t.dropWhile (· != 'e') with
  | 'e' :: '-' :: ds => -digitsValue ds
  | 'e' :: '+' :: ds => digitsValue ds
  | _ => 0

/-- The number that the text stands for, without a sign. -/
def value (t : List Char) : ℚ :=
  digitsValue ((mantissa t).filter (· != '.')) * 10 ^ (exponent t - (fraction t).length)

/-- The exponent part of a text. -/
def power (e : ℤ) : List Char := 'e' :: ((if e < 0 then ['-'] else ['+']) ++ Nat.toDigits 10 e.natAbs)

/-- The texts of numbers, with the numbers they stand for: digits on both sides of a point, or one digit before it and
    an exponent, and then perhaps no point. -/
inductive Denotes : List Char → ℚ → Prop
  | fixed {whole frac : List Char} (hw : IsDigits whole) (hf : IsDigits frac) (hne : whole ≠ []) :
      Denotes (whole ++ '.' :: frac) (digitsValue (whole ++ frac) * 10 ^ (-frac.length : ℤ))
  | digit {d : Char} (hd : d.isDigit = true) (e : ℤ) : Denotes ([d] ++ power e) (digitsValue [d] * 10 ^ e)
  | scientific {d : Char} {frac : List Char} (hd : d.isDigit = true) (hf : IsDigits frac) (e : ℤ) :
      Denotes (([d] ++ '.' :: frac) ++ power e) (digitsValue ([d] ++ frac) * 10 ^ (e - frac.length))

section Read
variable {whole frac : List Char}

theorem ne_of_isDigits (hw : IsDigits whole) (hf : IsDigits frac) : ∀ c ∈ whole ++ '.' :: frac, (c != 'e') = true := by
  intro c hc
  rcases List.mem_append.mp hc with hc | hc
  · exact hw.ne rfl c hc
  · rcases List.mem_cons.mp hc with rfl | hc
    · rfl
    · exact hf.ne rfl c hc

theorem split_point (hw : IsDigits whole) (hf : IsDigits frac) :
    (whole ++ '.' :: frac).filter (· != '.') = whole ++ frac ∧
      ((whole ++ '.' :: frac).dropWhile (· != '.')).tail = frac := by
  constructor
  · rw [List.filter_append, List.filter_cons_of_neg (by decide), List.filter_eq_self.mpr (hw.ne rfl),
      List.filter_eq_self.mpr (hf.ne rfl)]
  · rw [List.dropWhile_append_of_pos (hw.ne rfl)]
    rfl

theorem split_power {m : List Char} (hm : ∀ c ∈ m, (c != 'e') = true) (e : ℤ) :
    mantissa (m ++ power e) = m ∧ exponent (m ++ power e) = e := by
  constructor
  · rw [mantissa, List.takeWhile_append_of_pos hm]
    exact List.append_nil m
  · have hdrop : (m ++ power e).dropWhile (· != 'e') = power e := by
      rw [List.dropWhile_append_of_pos hm]
      rfl
    rw [exponent, hdrop, power]
    by_cases he : e < 0
    · rw [if_pos he]
      show -(digitsValue (Nat.toDigits 10 e.natAbs) : ℤ) = e
      rw [digitsValue_toDigits]
      omega
    · rw [if_neg he]
      show (digitsValue (Nat.toDigits 10 e.natAbs) : ℤ) = e
      rw [digitsValue_toDigits]
      omega

end Read

namespace Denotes
variable {t : List Char} {v w : ℚ}

theorem of_eq (h : Denotes t v) (hv : v = w) : Denotes t w := hv ▸ h

/-- A text stands for one number. -/
theorem value_eq (h : Denotes t v) : value t = v := by
  cases h with
  | fixed hw hf _ =>
    have hne := ne_of_isDigits hw hf
    obtain ⟨hfilter, hfrac⟩ := split_point hw hf
    rw [value, fraction, mantissa, List.takeWhile_eq_self_iff.mpr hne, exponent, List.dropWhile_eq_nil_iff.mpr hne, hfilter,
      hfrac, zero_sub]
  | digit hd e =>
    have hone := IsDigits.singleton hd
    obtain ⟨hm, he⟩ := split_power (hone.ne rfl) e
    rw [value, fraction, hm, he, List.filter_eq_self.mpr (hone.ne rfl), List.dropWhile_eq_nil_iff.mpr (hone.ne rfl)]
    simp
  | scientific hd hf e =>
    have hone := IsDigits.singleton hd
    obtain ⟨hm, he⟩ := split_power (ne_of_isDigits hone hf) e
    obtain ⟨hfilter, hfrac⟩ := split_point hone hf
    rw [value, fraction, hm, he, hfilter, hfrac]

/-- A text begins with a digit. -/
theorem head (h : Denotes t v) : ∃ d rest, t = d :: rest ∧ d.isDigit = true := by
  cases h with
  | fixed hw _ hne =>
    obtain ⟨d, rest, rfl⟩ := List.exists_cons_of_ne_nil hne
    exact ⟨d, _, rfl, hw d List.mem_cons_self⟩
  | digit hd e => exact ⟨_, _, rfl, hd⟩
  | scientific hd _ e => exact ⟨_, _, rfl, hd⟩

/-- A text has a point or an exponent. -/
theorem marked (h : Denotes t v) : '.' ∈ t ∨ 'e' ∈ t := by
  cases h <;> simp [power]

end Denotes
end Numeral

/-! ### The two forms -/

namespace Layout
open Numeral

theorem denotes_positional {ds : List Char} (h : IsDigits ds) (hne : ds ≠ []) (k : ℤ) :
    Denotes (positional ds k) (digitsValue ds * 10 ^ (k - ds.length)) := by
  unfold positional
  by_cases hk : k ≤ 0
  · rw [if_pos hk]
    have hfrac : IsDigits (List.replicate (-k).toNat '0' ++ ds) := (IsDigits.zeros _).append h
    refine (Denotes.fixed (.zeros 1) hfrac (by simp)).of_eq ?_
    rw [← List.append_assoc, List.replicate_append_replicate, digitsValue_zeros_append, List.length_append,
      List.length_replicate]
    congr 2
    omega
  · rw [if_neg hk]
    dsimp only
    obtain ⟨n, rfl⟩ := Int.eq_ofNat_of_zero_le (Int.not_le.mp hk).le
    rw [Int.toNat_natCast]
    by_cases hn : ds.length ≤ n
    -- All digits stand before the point, and zeros fill the rest.
    · have hdrop : (ds ++ List.replicate (n - ds.length) '0').drop n = [] := List.drop_eq_nil_iff.mpr (by simp; omega)
      have htake : (ds ++ List.replicate (n - ds.length) '0').take n = ds ++ List.replicate (n - ds.length) '0' :=
        List.take_of_length_le (by simp; omega)
      rw [hdrop, htake, List.isEmpty_nil, if_pos rfl]
      refine (Denotes.fixed (h.append (.zeros (n - ds.length))) (.zeros 1) (by simp [hne])).of_eq ?_
      rw [List.append_assoc, List.replicate_append_replicate, digitsValue_append_zeros, Nat.cast_mul, Nat.cast_pow,
        Nat.cast_ofNat, List.length_replicate, mul_comm ((10 : ℚ) ^ _), mul_assoc, ← zpow_natCast,
        ← zpow_add₀ (by norm_num : (10 : ℚ) ≠ 0)]
      congr 2
      push_cast
      omega
    · have hfrac : (ds.drop n).isEmpty = false := by simp; omega
      rw [Nat.sub_eq_zero_of_le (by omega), List.replicate_zero, List.append_nil, hfrac, if_neg Bool.false_ne_true]
      have hsplit : IsDigits (ds.take n ++ ds.drop n) := by rwa [List.take_append_drop]
      obtain ⟨htake, hdrop⟩ := hsplit.of_append
      refine (Denotes.fixed htake hdrop (by simp [hne]; omega)).of_eq ?_
      rw [List.take_append_drop, List.length_drop]
      congr 2
      omega

theorem denotes_scientific {d : Char} {rest : List Char} (hd : d.isDigit = true) (hr : IsDigits rest) (e : ℤ) :
    Denotes (scientific ['+'] (d :: rest) e) (digitsValue (d :: rest) * 10 ^ (e - rest.length)) := by
  cases rest with
  | nil =>
    refine (Denotes.digit hd e).of_eq ?_
    simp
  | cons r rest => exact .scientific hd hr e

/-- The digits without zeros at the end, and how many there were. -/
theorem exists_zeros (all : List Char) : ∃ k, all = (all.reverse.dropWhile (· == '0')).reverse ++ List.replicate k '0' := by
  have hzeros : ∀ c ∈ all.reverse.takeWhile (· == '0'), c = '0' := fun c hc => by
    have := List.mem_takeWhile_imp hc
    simpa using this
  have hsplit : all.reverse.takeWhile (· == '0') ++ all.reverse.dropWhile (· == '0') = all.reverse :=
    List.takeWhile_append_dropWhile
  rw [List.eq_replicate_of_mem hzeros] at hsplit
  have hall := congrArg List.reverse hsplit
  rw [List.reverse_append, List.reverse_replicate, List.reverse_reverse] at hall
  exact ⟨_, hall.symm⟩

/-- The text of a decimal stands for its value. -/
theorem denotes_magnitude {l : Layout} (hplus : l.plus = ['+']) {d : Decimal} (hd : d.digits ≠ 0) :
    Denotes (l.magnitude d) d.value := by
  obtain ⟨k, hk⟩ := exists_zeros (Nat.toDigits 10 d.digits)
  unfold magnitude digits
  dsimp only
  generalize ((Nat.toDigits 10 d.digits).reverse.dropWhile (· == '0')).reverse = ds at hk ⊢
  have hdigits : IsDigits ds := (IsDigits.of_append (hk ▸ IsDigits.toDigits d.digits)).1
  have hvalue : d.digits = 10 ^ k * digitsValue ds := by
    rw [← digitsValue_append_zeros, ← hk, digitsValue_toDigits]
  have hds : ds ≠ [] := by
    rintro rfl
    exact hd (by rw [hvalue]; rfl)
  have htarget : d.value = digitsValue ds * 10 ^ (d.exponent + k) := by
    rw [Decimal.value, hvalue, Nat.cast_mul, Nat.cast_pow, Nat.cast_ofNat, mul_comm ((10 : ℚ) ^ k), mul_assoc,
      ← zpow_natCast, ← zpow_add₀ (by norm_num : (10 : ℚ) ≠ 0), add_comm (k : ℤ)]
  rw [hk, List.length_append, List.length_replicate, htarget]
  split
  · refine (denotes_positional hdigits hds _).of_eq ?_
    congr 2
    push_cast
    omega
  · obtain ⟨c, rest, rfl⟩ := List.exists_cons_of_ne_nil hds
    rw [hplus]
    have hrest : IsDigits rest := fun c hc => hdigits c (List.mem_cons_of_mem _ hc)
    refine (denotes_scientific (hdigits c List.mem_cons_self) hrest _).of_eq ?_
    congr 2
    rw [List.length_cons]
    push_cast
    omega

end Layout

/-! ### Doubles -/

namespace Binary64

theorem isNaN_of_isFinite {x : Binary64} (h : x.isFinite = true) : x.isNaN = false := by
  rw [isFinite, bne_iff_ne] at h
  simp [isNaN, h]

end Binary64

namespace Json
open Numeral

/-- A finite double is written as a text of a number that tells its magnitude, with a sign in front if it is negative. -/
theorem exists_denotes {x : Binary64} (hx : x.isFinite = true) : ∃ t v, Denotes t v ∧
    numbers.write x = (if x.isNegative then '-' :: t else t) ∧ v = if x.isZero then 0 else (x.shortest .even).value := by
  have hwrite : numbers.write x = if x.isNegative then
      '-' :: (if x.isZero then ['0', '.', '0'] else numbers.magnitude (x.shortest .even))
      else if x.isZero then ['0', '.', '0'] else numbers.magnitude (x.shortest .even) := by
    rw [Layout.write, Binary64.isNaN_of_isFinite hx, hx]
    rfl
  refine ⟨_, _, ?_, hwrite, rfl⟩
  cases hz : x.isZero with
  | true =>
    refine (Denotes.fixed (.zeros 1) (.zeros 1) (by simp)).of_eq ?_
    rw [List.replicate_append_replicate, ← List.append_nil (List.replicate _ _), digitsValue_zeros_append]
    simp [digitsValue]
  | false =>
    refine Layout.denotes_magnitude rfl fun h0 => ?_
    have hpos := Binary64.shortest_pos hz .even
    rw [Decimal.value, h0] at hpos
    simp at hpos

theorem write_injective {x y : Binary64} (hx : x.isFinite = true) (hy : y.isFinite = true)
    (h : numbers.write x = numbers.write y) : x = y := by
  obtain ⟨t, v, ht, hxt, hv⟩ := exists_denotes hx
  obtain ⟨u, w, hu, hyu, hw⟩ := exists_denotes hy
  rw [hxt, hyu] at h
  have hminus : ∀ {t u : List Char} {v : ℚ}, Denotes t v → t ≠ '-' :: u := by
    rintro t u v ht rfl
    obtain ⟨d, rest, heq, hd⟩ := ht.head
    obtain rfl := (List.cons.inj heq).1
    cases hd
  -- A text begins with a digit, so a sign cannot be taken for it.
  obtain ⟨hsign, htext⟩ : x.isNegative = y.isNegative ∧ t = u := by
    cases hnx : x.isNegative <;> cases hny : y.isNegative <;>
      simp only [hnx, hny, if_true, if_false, Bool.false_eq_true] at h
    · exact ⟨rfl, h⟩
    · exact absurd h (hminus ht)
    · exact absurd h.symm (hminus hu)
    · exact ⟨rfl, (List.cons.inj h).2⟩
  have hvalue : v = w := by rw [← ht.value_eq, ← hu.value_eq, htext]
  refine Binary64.eq_of_rank hsign ?_
  rw [hv, hw] at hvalue
  cases hzx : x.isZero <;> cases hzy : y.isZero <;> rw [hzx, hzy] at hvalue
  · exact Binary64.rank_eq_of_shortest hzx hzy hvalue
  · exact absurd hvalue (Binary64.shortest_pos hzx .even).ne'
  · exact absurd hvalue (Binary64.shortest_pos hzy .even).ne
  · rw [(Binary64.isZero_iff x).mp hzx, (Binary64.isZero_iff y).mp hzy]

end Json
end TypedTree
