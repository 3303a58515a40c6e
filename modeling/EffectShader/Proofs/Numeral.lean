import EffectShader.Numeral
import EffectShader.Proofs.Text.Lines

/-!
# Written numbers read back

The decimal digits of an integer are read back as that integer, as long as it
fits in 64 bits.
-/

namespace EffectShader

/-!
# Digits
-/

theorem Text.head?_ofNat (n : Nat) : exists b s, Text.ofNat n = b :: s ∧ Byte.isDigit b = true := by
  fun_induction Text.ofNat n with
  | case1 n hn =>
      refine ⟨Byte.zero + n.toUInt8, [], rfl, ?_⟩
      revert n
      decide
  | case2 n hn ih =>
      rcases ih with ⟨b, s, hs, hb⟩
      exact ⟨b, s ++ [Byte.zero + (n % 10).toUInt8], by rw [hs]; rfl, hb⟩

theorem Text.isDigit_of_mem_ofNat {n : Nat} {b : UInt8} (h : b ∈ Text.ofNat n) :
    Byte.isDigit b = true := by
  have hdigit : forall d, d < 10 -> Byte.isDigit (Byte.zero + d.toUInt8) = true := by decide
  fun_induction Text.ofNat n with
  | case1 n hn =>
      rw [List.mem_singleton.mp h]
      exact hdigit n hn
  | case2 n hn ih =>
      rcases List.mem_append.mp h with h | h
      · exact ih h
      · rw [List.mem_singleton.mp h]
        exact hdigit (n % 10) (Nat.mod_lt n (by decide))

namespace Numeral

theorem digitsFrom?_append (base value : Nat) (s t : Text) :
    digitsFrom? base value (s ++ t) =
      (digitsFrom? base value s).bind fun v => digitsFrom? base v t := by
  induction s generalizing value with
  | nil => rfl
  | cons b s ih =>
      simp only [List.cons_append, digitsFrom?]
      cases digit? b with
      | none => rfl
      | some d =>
          dsimp only
          split
          · exact ih _
          · rfl

theorem digitsFrom?_digit (value : Nat) {d : Nat} (hd : d < 10) :
    digitsFrom? 10 value [Byte.zero + d.toUInt8] = some (10 * value + d) := by
  have hdigit : digit? (Byte.zero + d.toUInt8) = some d := by
    revert d
    decide
  simp [digitsFrom?, hdigit, hd]

theorem digitsFrom?_ofNat (n : Nat) : digitsFrom? 10 0 (Text.ofNat n) = some n := by
  fun_induction Text.ofNat n with
  | case1 n hn =>
      rw [digitsFrom?_digit 0 hn]
      simp
  | case2 n hn ih =>
      rw [digitsFrom?_append, ih, Option.bind_some, digitsFrom?_digit _ (Nat.mod_lt n (by decide)),
        Nat.div_add_mod]

/-!
# Integers
-/

theorem splitSign_ofInt (n : Int) :
    splitSign (Text.ofInt n) = (decide (n < 0), Text.ofNat n.natAbs) := by
  cases n with
  | ofNat n =>
      rcases Text.head?_ofNat n with ⟨b, s, hs, hb⟩
      show splitSign (Text.ofNat n) = _
      have hminus : b ≠ Byte.minus := by
        rintro rfl
        cases hb
      have hplus : b ≠ Byte.plus := by
        rintro rfl
        cases hb
      have habs : (Int.ofNat n).natAbs = n := rfl
      rw [habs, hs]
      unfold splitSign
      split
      · rename_i heq
        exact absurd (List.cons.inj heq).1 hminus
      · rename_i heq
        exact absurd (List.cons.inj heq).1 hplus
      · simp
  | negSucc n =>
      show (true, Text.ofNat (n + 1)) = _
      simp

theorem decimal?_ofInt (n : Int) :
    decimal? (Text.ofInt n) = if fits n then some n else none := by
  rcases Text.head?_ofNat n.natAbs with ⟨b, s, hs, _⟩
  have hsigned : signed (decide (n < 0)) n.natAbs = n := by
    unfold signed
    split
    · rename_i hneg
      have : n < 0 := of_decide_eq_true hneg
      omega
    · rename_i hneg
      have : ¬ n < 0 := by simpa using hneg
      omega
  unfold decimal? inBase?
  rw [splitSign_ofInt]
  simp only [digitsFrom?_ofNat, Option.bind_some, hsigned]
  rw [hs]
  rfl

end Numeral

theorem Text.mem_ofInt {n : Int} {b : UInt8} (h : b ∈ Text.ofInt n) :
    Byte.isDigit b = true ∨ b = Byte.minus := by
  cases n with
  | ofNat n => exact Or.inl (Text.isDigit_of_mem_ofNat h)
  | negSucc n =>
      rcases List.mem_cons.mp h with rfl | h
      · exact Or.inr rfl
      · exact Or.inl (Text.isDigit_of_mem_ofNat h)

theorem Text.newlines_ofInt (n : Int) : Text.newlines (Text.ofInt n) = 0 := by
  apply Text.newlines_of_not_mem
  intro hmem
  rcases Text.mem_ofInt hmem with hdigit | hminus
  · cases hdigit
  · cases hminus

end EffectShader
