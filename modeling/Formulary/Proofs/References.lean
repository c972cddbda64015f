import Formulary.Expr.Parser
import Formulary.Proofs.Words
import Mathlib.Data.List.TakeWhile

/-! # References as words

A reference is written as dollar signs and an index. Reading goes through the digits from the left,
so the index is the number that they spell, and writing that number gives the digits back unless
they start with a superfluous zero. -/

namespace Formulary

namespace Text

theorem digit?_eq_some {c : Char} {d : Nat} :
    digit? c = some d ↔ d < 10 ∧ c = d.digitChar := by
  have hle (a b : Char) : a ≤ b ↔ a.toNat ≤ b.toNat := by rfl
  have hdigit (h : d < 10) : d.digitChar.toNat = 48 + d := by
    rw [Nat.toNat_digitChar_of_lt_ten h, Nat.add_comm]
  have hzero : '0'.toNat = 48 := rfl
  have hnine : '9'.toNat = 57 := rfl
  simp only [digit?, hle, hzero, hnine]
  constructor
  · intro h
    split at h
    · next hc =>
      have hd : c.toNat - 48 = d := Option.some.inj h
      refine ⟨by omega, Char.toNat_inj.1 ?_⟩
      rw [hdigit (by omega)]
      omega
    · cases h
  · rintro ⟨hd, rfl⟩
    rw [hdigit hd, if_pos (by omega), Nat.add_sub_cancel_left]

theorem isWordChar_digitChar {d : Nat} (h : d < 10) : isWordChar d.digitChar = true := by
  have hall : ∀ d < 10, isWordChar d.digitChar = true := by decide
  exact hall d h

theorem toDigits_append_of_readDigits {value n : Nat} {cs : List Char} (hvalue : 0 < value)
    (h : readDigits value cs = .ok n) : Nat.toDigits 10 value ++ cs = Nat.toDigits 10 n := by
  induction cs generalizing value with
  | nil =>
    rw [readDigits, Except.ok.injEq] at h
    rw [h, List.append_nil]
  | cons c cs ih =>
    rw [readDigits] at h
    split at h
    · cases h
    · next d hd =>
      obtain ⟨hlt, rfl⟩ := digit?_eq_some.1 hd
      split at h
      · rw [← ih (by omega) h, ← Nat.toDigits_append_toDigits (by decide) hvalue hlt,
          Nat.toDigits_of_lt_base hlt, List.append_assoc]
        rfl
      · cases h

theorem toDigits_of_readDigits {n : Nat} {c : Char} {cs : List Char}
    (h : readDigits 0 (c :: cs) = .ok n) (hzero : c = '0' → cs = []) :
    Nat.toDigits 10 n = c :: cs := by
  rw [readDigits] at h
  split at h
  · cases h
  · next d hd =>
    obtain ⟨hlt, rfl⟩ := digit?_eq_some.1 hd
    rw [Nat.mul_zero, Nat.zero_add] at h
    split at h
    · cases d with
      | zero =>
        rw [hzero rfl, readDigits, Except.ok.injEq] at h
        rw [← h, hzero rfl, Nat.toDigits_of_lt_base (by decide)]
      | succ d =>
        rw [← toDigits_append_of_readDigits (Nat.succ_pos d) h, Nat.toDigits_of_lt_base hlt]
        rfl
    · cases h

theorem readDigits_append {value n : Nat} {cs ds : List Char} (h : readDigits value cs = .ok n) :
    readDigits value (cs ++ ds) = readDigits n ds := by
  induction cs generalizing value with
  | nil =>
    rw [readDigits, Except.ok.injEq] at h
    rw [h, List.nil_append]
  | cons c cs ih =>
    rw [readDigits] at h
    rw [List.cons_append, readDigits]
    split at h
    · cases h
    · next d hd =>
      split at h
      · next hlt =>
        rw [if_pos hlt]
        exact ih h
      · cases h

theorem readDigits_digitChar {value d : Nat} (hd : d < 10) (h : 10 * value + d < indexBound) :
    readDigits value [d.digitChar] = .ok (10 * value + d) := by
  rw [readDigits, digit?_eq_some.2 ⟨hd, rfl⟩]
  simp only [if_pos h, readDigits]

/-- An index in range is read back from its digits. -/
theorem readDigits_toDigits {n : Nat} (h : n < indexBound) :
    readDigits 0 (Nat.toDigits 10 n) = .ok n := by
  induction n using Nat.strongRecOn with
  | ind n ih =>
    by_cases hn : n < 10
    · rw [Nat.toDigits_of_lt_base hn, readDigits_digitChar hn (by omega)]
      simp
    · have hmod : n % 10 < 10 := Nat.mod_lt n (by decide)
      have hdiv : 10 * (n / 10) + n % 10 = n := Nat.div_add_mod n 10
      rw [Nat.toDigits_of_base_le (by decide) (Nat.le_of_not_lt hn),
        readDigits_append (ih (n / 10) (by omega) (by omega)), readDigits_digitChar hmod (by omega),
        hdiv]

theorem digits_of_readDigits {value n : Nat} {cs : List Char} (h : readDigits value cs = .ok n) :
    ∀ c ∈ cs, ∃ d < 10, c = d.digitChar := by
  induction cs generalizing value with
  | nil => simp
  | cons c cs ih =>
    rw [readDigits] at h
    split at h
    · cases h
    · next d hd =>
      split at h
      · intro x hx
        rcases List.mem_cons.1 hx with rfl | hx
        · exact ⟨d, digit?_eq_some.1 hd⟩
        · exact ih h x hx
      · cases h

end Text

namespace Parser

theorem dollars_append {c : Char} (hc : c ≠ '$') (cs : List Char) (count : Nat) :
    (List.replicate count '$' ++ c :: cs).takeWhile (· = '$') = List.replicate count '$' ∧
      (List.replicate count '$' ++ c :: cs).dropWhile (· = '$') = c :: cs := by
  induction count with
  | zero => simp [hc]
  | succ count ih => simp [List.replicate_succ, ih.1, ih.2]

theorem eq_replicate_dollars (cs : List Char) :
    cs.takeWhile (· = '$') = List.replicate (cs.takeWhile (· = '$')).length '$' := by
  rw [List.eq_replicate_iff]
  exact ⟨rfl, fun c hc => by simpa using List.mem_takeWhile_imp hc⟩

/-- A reference is dollar signs, one more than its level, and an index in range. -/
theorem parameter?_eq_some {word : String} {e : Expr} :
    parameter? word = some e ↔ ∃ level index c cs, e = .param level index ∧
      word.toList = List.replicate (level + 1) '$' ++ c :: cs ∧
      Text.readDigits 0 (c :: cs) = .ok index := by
  constructor
  · intro h
    rw [parameter?] at h
    split at h
    · next dollar level c cs hdollars hdigits =>
      split at h
      · next index hindex =>
        refine ⟨level.length, index, c, cs, (Option.some.inj h).symm, ?_, hindex⟩
        have hcount : (word.toList.takeWhile (· = '$')).length = level.length + 1 := by
          rw [hdollars, List.length_cons]
        rw [← hcount, ← eq_replicate_dollars, ← hdigits, List.takeWhile_append_dropWhile]
      · cases h
    · cases h
  · rintro ⟨level, index, c, cs, rfl, hword, hindex⟩
    have hc : c ≠ '$' := by
      obtain ⟨d, hd, rfl⟩ := Text.digits_of_readDigits hindex c List.mem_cons_self
      have hall : ∀ d < 10, d.digitChar ≠ '$' := by decide
      exact hall d hd
    obtain ⟨hdollars, hdigits⟩ := dollars_append hc cs (level + 1)
    rw [parameter?, hword, hdollars, hdigits]
    simp [List.replicate_succ, hindex]

theorem parameter?_parameterText {level index : Nat} (h : index < Text.indexBound) :
    parameter? (parameterText level index) = some (.param level index) := by
  obtain ⟨c, cs, hdigits⟩ := List.exists_cons_of_ne_nil (Nat.toDigits_ne_nil (n := index) (b := 10))
  refine parameter?_eq_some.2 ⟨level, index, c, cs, rfl, ?_, hdigits ▸ Text.readDigits_toDigits h⟩
  rw [parameterText, String.toList_append, String.toList_ofList, Nat.toString_eq_repr,
    Nat.toList_repr, hdigits]

/-- A reference whose index starts with a superfluous zero. -/
def isPadded (word : String) : Bool :=
  word.toList.head? = some '$' &&
    match word.toList.dropWhile (· = '$') with
    | '0' :: c :: cs => (c :: cs).all Char.isDigit
    | _ => false

theorem parameterText_of_parameter? {word : String} {level index : Nat}
    (h : parameter? word = some (.param level index)) (hpadded : isPadded word = false) :
    parameterText level index = word := by
  obtain ⟨level, index, c, cs, heq, hword, hindex⟩ := parameter?_eq_some.1 h
  cases heq
  have hdigit : ∀ x ∈ c :: cs, x.isDigit = true := by
    intro x hx
    obtain ⟨d, hd, rfl⟩ := Text.digits_of_readDigits hindex x hx
    rw [Nat.isDigit_digitChar, decide_eq_true hd]
  have hc : c ≠ '$' := by
    rintro rfl
    exact absurd (hdigit '$' List.mem_cons_self) (by decide)
  have hzero : c = '0' → cs = [] := by
    rintro rfl
    cases cs with
    | nil => rfl
    | cons d ds =>
      have hall : (d :: ds).all Char.isDigit = true :=
        List.all_eq_true.2 fun x hx => hdigit x (List.mem_cons_of_mem _ hx)
      have htrue : isPadded word = true := by
        rw [isPadded, hword, (dollars_append hc _ (level + 1)).2]
        simp only [hall, List.replicate_succ, List.cons_append, List.head?_cons, decide_true,
          Bool.true_and]
      rw [htrue] at hpadded
      cases hpadded
  rw [← String.toList_inj, hword, parameterText, String.toList_append, String.toList_ofList,
    Nat.toString_eq_repr, Nat.toList_repr, Text.toDigits_of_readDigits hindex hzero]

theorem isWord_of_parameter? {word : String} {e : Expr} (h : parameter? word = some e) :
    Text.isWord word = true ∧ word.toList.head? = some '$' := by
  obtain ⟨level, index, c, cs, -, hword, hindex⟩ := parameter?_eq_some.1 h
  refine ⟨?_, by rw [hword]; rfl⟩
  rw [← String.ofList_toList (s := word), hword, Text.isWord_ofList]
  refine ⟨by simp, fun x hx => ?_⟩
  rcases List.mem_append.1 hx with hx | hx
  · rw [List.eq_of_mem_replicate hx]
    decide
  · obtain ⟨d, hd, rfl⟩ := Text.digits_of_readDigits hindex x hx
    exact Text.isWordChar_digitChar hd

end Parser

end Formulary
