import Formulary.Proofs.Continuations
import Formulary.Proofs.Lexemes
import Formulary.Text.Recognizer

/-! # The tokens of a text

Tokens are told in two ways. A grammar says how they are read, and by their places they are what is
left of a text without its white space, cut at the brackets. The grammar reads every text to its
end, the places leave no choice, and both ways give the tokens of the scan. -/

namespace Formulary

open Text (Cursor Recognizer byteLength)

namespace Text.Recognizer

variable {α β : Type} {r : Recognizer α} {cursor after : Cursor} {x : α}

theorem bind_apply (r : Recognizer α) (f : α → Recognizer β) (cursor : Cursor) :
    (r >>= f) cursor = (r cursor).bind fun y => f y.1 y.2 := rfl

theorem orElse_apply (r s : Recognizer α) (cursor : Cursor) :
    (r <|> s) cursor = (r cursor <|> s cursor) := rfl

theorem map_apply (f : α → β) (r : Recognizer α) (cursor : Cursor) :
    (f <$> r) cursor = (r cursor).map fun y => (f y.1, y.2) := by
  cases h : r cursor <;> simp [Functor.map, StateT.map, h]

theorem pure_apply (x : α) (cursor : Cursor) :
    (pure x : Recognizer α) cursor = some (x, cursor) := rfl

theorem many_of_some (h : r cursor = some (x, after))
    (hread : after.rest.length < cursor.rest.length) :
    many r cursor = (many r after).map fun y => (x :: y.1, y.2) := by
  rw [many, h]
  simp [hread]

theorem many_of_none (h : r cursor = none) : many r cursor = some ([], cursor) := by
  rw [many, h]

theorem many_char (p : Char → Bool) (byte : Nat) (cs : List Char) :
    many (char p) ⟨byte, cs⟩ =
      some (cs.takeWhile p, ⟨byte + byteLength (cs.takeWhile p), cs.dropWhile p⟩) := by
  induction cs generalizing byte with
  | nil => exact many_of_none rfl
  | cons c cs ih =>
    cases hc : p c with
    | false =>
      rw [many_of_none (by simp [char, hc])]
      simp [hc, byteLength]
    | true =>
      have hread : char p ⟨byte, c :: cs⟩ = some (c, ⟨byte + c.utf8Size, cs⟩) := by simp [char, hc]
      rw [many_of_some hread (by simp), ih]
      simp [hc, byteLength, Nat.add_assoc]

section

variable {p : Char → Bool} {byte stop : Nat} {c : Char} {cs run rest : List Char}

theorem char_of_pos (h : p c = true) (byte : Nat) (cs : List Char) :
    char p ⟨byte, c :: cs⟩ = some (c, ⟨byte + c.utf8Size, cs⟩) := by
  simp [char, h]

theorem char_of_neg (h : ∀ c ∈ cs.head?, p c = false) (byte : Nat) : char p ⟨byte, cs⟩ = none := by
  cases cs with
  | nil => rfl
  | cons c cs => simp [char, h c rfl]

theorem many1_char (hne : run ≠ []) (hrun : ∀ c ∈ run, p c = true)
    (hnext : ∀ c ∈ rest.head?, p c = false) (byte : Nat) :
    many1 (char p) ⟨byte, run ++ rest⟩ = some (run, ⟨byte + byteLength run, rest⟩) := by
  obtain ⟨c, run, rfl⟩ := List.exists_cons_of_ne_nil hne
  rw [List.forall_mem_cons] at hrun
  rw [many1, bind_apply, List.cons_append, char_of_pos hrun.1, Option.bind_some, bind_apply,
    many_char, Option.bind_some, takeWhile_append_run hrun.2 hnext,
    dropWhile_append_run hrun.2 hnext, pure_apply, byteLength, Nat.add_assoc]

theorem many1_of_none {r : Recognizer α} {cursor : Cursor} (h : r cursor = none) :
    many1 r cursor = none := by
  rw [many1, bind_apply, h, Option.bind_none]

theorem slice_append {r : Recognizer α} {x : α} {stop : Nat}
    (h : r ⟨byte, run ++ rest⟩ = some (x, ⟨stop, rest⟩)) :
    slice r ⟨byte, run ++ rest⟩ = some (String.ofList run, ⟨stop, rest⟩) := by
  simp [slice, h]

theorem slice_of_none {r : Recognizer α} {cursor : Cursor} (h : r cursor = none) :
    slice r cursor = none := by
  rw [slice, h, Option.map_none]

end

end Text.Recognizer

namespace Token

namespace Grammar

open Text.Recognizer

/-- The classes of white space, as closed ranges. -/
def blankRanges : List (Char × Char) :=
  [('\t', '\r'), (' ', ' '), ('\u0085', '\u0085'), ('\u00a0', '\u00a0'), ('\u1680', '\u1680'),
   ('\u2000', '\u200a'), ('\u2028', '\u2028'), ('\u2029', '\u2029'), ('\u202f', '\u202f'),
   ('\u205f', '\u205f'), ('\u3000', '\u3000')]

def blank : Recognizer Char := char fun c => blankRanges.any fun r => r.1 ≤ c && c ≤ r.2

def blanks : Recognizer (List Char) := many blank

def bracket : Recognizer Char := char fun c => c = '(' || c = ')' || c = '{' || c = '}'

def wordChar : Recognizer Char := do
  notAhead bracket
  notAhead blank
  char fun _ => true

/-- A token with the text that is read, and with the bytes before and behind it. -/
def located (r : Recognizer String) : Recognizer Token := do
  let start ← position
  let text ← r
  let stop ← position
  return ⟨text, start, stop⟩

def token : Recognizer Token := located (slice bracket) <|> located (slice (many1 wordChar))

/-- Tokens with white space around them, which may be missing. -/
def tokens : Recognizer (List Token) := do
  let _ ← blanks
  let ts ← separated token blanks
  let _ ← blanks
  return ts

section

variable {byte stop : Nat} {c : Char} {cs run rest : List Char}

theorem any_blankRanges (c : Char) :
    (blankRanges.any fun r => r.1 ≤ c && c ≤ r.2) = Text.isBlank c := by
  rw [Bool.eq_iff_iff]
  simp only [blankRanges, Text.isBlank, Text.blankRanges, List.any_cons, List.any_nil,
    Bool.or_false, Bool.or_eq_true, Bool.and_eq_true, decide_eq_true_eq, Char.le_def,
    UInt32.le_iff_toNat_le]
  simp only [Char.toNat, Char.reduceVal, UInt32.reduceToNat]
  omega

theorem blank_eq : blank = char Text.isBlank := congrArg char (funext any_blankRanges)

theorem bracket_eq : bracket = char Text.isBracket := rfl

theorem wordChar_eq : wordChar = char Text.isWordChar := by
  funext ⟨byte, cs⟩
  cases cs with
  | nil => rfl
  | cons c cs =>
    cases hbracket : Text.isBracket c <;> cases hblank : Text.isBlank c <;>
      simp [wordChar, blank_eq, bracket_eq, bind_apply, notAhead, char, hbracket, hblank,
        Text.isWordChar]

theorem located_slice {α : Type} {r : Recognizer α} {x : α}
    (h : r ⟨byte, run ++ rest⟩ = some (x, ⟨stop, rest⟩)) :
    located (slice r) ⟨byte, run ++ rest⟩ =
      some (⟨String.ofList run, byte, stop⟩, ⟨stop, rest⟩) := by
  simp only [located, bind_apply, position, slice_append h, Option.bind_some, pure_apply]

theorem located_slice_of_none {α : Type} {r : Recognizer α} {cursor : Cursor}
    (h : r cursor = none) : located (slice r) cursor = none := by
  simp only [located, bind_apply, position, slice_of_none h, Option.bind_some, Option.bind_none]

theorem token_nil : token ⟨byte, []⟩ = none := by
  have hbracket : bracket ⟨byte, []⟩ = none := rfl
  have hrun : many1 wordChar ⟨byte, []⟩ = none := rfl
  rw [token, orElse_apply, located_slice_of_none hbracket, located_slice_of_none hrun]
  rfl

theorem token_of_bracket (h : Text.isBracket c = true) : token ⟨byte, c :: cs⟩ =
    some (⟨String.singleton c, byte, byte + c.utf8Size⟩, ⟨byte + c.utf8Size, cs⟩) := by
  have hread : bracket ⟨byte, [c] ++ cs⟩ = some (c, ⟨byte + c.utf8Size, cs⟩) :=
    char_of_pos h byte cs
  have hlocated := located_slice hread
  rw [← String.singleton_eq_ofList, List.singleton_append] at hlocated
  rw [token, orElse_apply, hlocated]
  rfl

theorem token_of_run (hne : run ≠ []) (hword : ∀ c ∈ run, Text.isWordChar c = true)
    (hnext : ∀ c ∈ rest.head?, Text.isWordChar c = false) : token ⟨byte, run ++ rest⟩ =
      some (⟨String.ofList run, byte, byte + byteLength run⟩, ⟨byte + byteLength run, rest⟩) := by
  obtain ⟨c, cs, rfl⟩ := List.exists_cons_of_ne_nil hne
  rw [List.forall_mem_cons] at hword
  have hbracket : bracket ⟨byte, c :: cs ++ rest⟩ = none := by
    simp [bracket_eq, char, (Text.isWordChar_iff.1 hword.1).2]
  have hread : many1 wordChar ⟨byte, c :: cs ++ rest⟩ =
      some (c :: cs, ⟨byte + byteLength (c :: cs), rest⟩) := by
    rw [wordChar_eq, many1_char hne (List.forall_mem_cons.2 hword) hnext]
  rw [token, orElse_apply, located_slice_of_none hbracket, located_slice hread]
  rfl

end

section

variable {byte : Nat} {c : Char} {cs : List Char}

theorem token_of_not_blank (h : Text.isBlank c = false) (byte : Nat) (cs : List Char) : ∃ t after,
    token ⟨byte, c :: cs⟩ = some (t, after) ∧ after.rest.length ≤ cs.length ∧
      scanFrom byte (c :: cs) = t :: scanFrom after.byte after.rest := by
  cases hword : Text.isWordChar c with
  | false =>
    have hbracket := (Text.isWordChar_eq_false.1 hword).resolve_left (by simp [h])
    exact ⟨_, _, token_of_bracket hbracket, le_refl _, scanFrom_bracket hbracket byte cs⟩
  | true =>
    have hrun : ∀ d ∈ c :: cs.takeWhile Text.isWordChar, Text.isWordChar d = true :=
      List.forall_mem_cons.2 ⟨hword, fun d hd => List.mem_takeWhile_imp hd⟩
    have hnext := Text.head?_dropWhile (p := Text.isWordChar) cs
    have hsplit : c :: cs = c :: cs.takeWhile Text.isWordChar ++ cs.dropWhile Text.isWordChar := by
      rw [List.cons_append, List.takeWhile_append_dropWhile]
    rw [hsplit, token_of_run (List.cons_ne_nil _ _) hrun hnext,
      scanFrom_run (List.cons_ne_nil _ _) hrun hnext]
    exact ⟨_, _, rfl, (List.dropWhile_sublist Text.isWordChar).length_le, rfl⟩

theorem blanks_apply (byte : Nat) (cs : List Char) : blanks ⟨byte, cs⟩ =
    some (cs.takeWhile Text.isBlank,
      ⟨byte + byteLength (cs.takeWhile Text.isBlank), cs.dropWhile Text.isBlank⟩) := by
  rw [blanks, blank_eq, many_char]

theorem scanFrom_skip (byte : Nat) (cs : List Char) :
    scanFrom byte cs =
      scanFrom (byte + byteLength (cs.takeWhile Text.isBlank)) (cs.dropWhile Text.isBlank) := by
  rw [← scanFrom_blank_append fun c hc => List.mem_takeWhile_imp hc,
    List.takeWhile_append_dropWhile]

theorem many_token (byte : Nat) (cs : List Char) : ∃ after,
    many (blanks *> token) ⟨byte, cs⟩ = some (scanFrom byte cs, after) ∧
      ∀ c ∈ after.rest, Text.isBlank c = true := by
  induction hlength : cs.length using Nat.strongRecOn generalizing byte cs with
  | ind length ih =>
    have hnext : (blanks *> token) ⟨byte, cs⟩ =
        token ⟨byte + byteLength (cs.takeWhile Text.isBlank), cs.dropWhile Text.isBlank⟩ := by
      rw [seqRight_eq_bind, bind_apply, blanks_apply, Option.bind_some]
    rw [scanFrom_skip]
    cases hrest : cs.dropWhile Text.isBlank with
    | nil =>
      rw [hrest, token_nil] at hnext
      rw [many_of_none hnext, scanFrom]
      exact ⟨⟨byte, cs⟩, rfl, List.dropWhile_eq_nil_iff.1 hrest⟩
    | cons c rest =>
      have hc : Text.isBlank c = false :=
        Text.head?_dropWhile cs c (by rw [hrest]; rfl)
      obtain ⟨t, after, htoken, hafter, hscan⟩ := token_of_not_blank hc _ rest
      rw [hrest, htoken] at hnext
      have hshorter : after.rest.length < cs.length := by
        have hle := (List.dropWhile_sublist (l := cs) Text.isBlank).length_le
        rw [hrest, List.length_cons] at hle
        omega
      obtain ⟨last, hmany, hblank⟩ := ih _ (hlength ▸ hshorter) after.byte after.rest rfl
      refine ⟨last, ?_, hblank⟩
      rw [many_of_some hnext hshorter, hmany, hscan]
      rfl

/-- Where no blank comes first, all tokens are read, up to the blanks at the end. -/
theorem separated_token (byte : Nat) (h : ∀ c ∈ cs.head?, Text.isBlank c = false) : ∃ after,
    separated token blanks ⟨byte, cs⟩ = some (scanFrom byte cs, after) ∧
      ∀ c ∈ after.rest, Text.isBlank c = true := by
  cases cs with
  | nil =>
    refine ⟨⟨byte, []⟩, ?_, by simp⟩
    rw [separated, orElse_apply, bind_apply, token_nil]
    rfl
  | cons c cs =>
    obtain ⟨t, after, htoken, -, hscan⟩ := token_of_not_blank (h c rfl) byte cs
    obtain ⟨last, hmany, hblank⟩ := many_token after.byte after.rest
    refine ⟨last, ?_, hblank⟩
    rw [separated, orElse_apply, bind_apply, htoken, Option.bind_some, bind_apply, hmany, hscan]
    rfl

end

/-- The grammar reads every text to its end, and what it makes of it are the tokens of the scan. -/
theorem read?_tokens (text : String) : tokens.read? text = some (scan text) := by
  obtain ⟨after, hseparated, hblank⟩ :=
    separated_token (0 + byteLength (text.toList.takeWhile Text.isBlank))
      (Text.head?_dropWhile text.toList)
  rw [← scanFrom_skip] at hseparated
  have hend : after.rest.dropWhile Text.isBlank = [] := List.dropWhile_eq_nil_iff.2 hblank
  rw [read?, tokens, bind_apply, blanks_apply, Option.bind_some, bind_apply, hseparated,
    Option.bind_some, bind_apply, blanks_apply, hend]
  rfl

end Grammar

end Token

end Formulary
