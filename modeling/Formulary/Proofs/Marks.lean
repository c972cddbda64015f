import Formulary.Snippet
import Formulary.Proofs.Cutting
import Formulary.Proofs.RoundTrip

/-! # Marks under a text

An error of reading is about a part of the text: the token that is refused, all tokens behind a
whole expression, or nothing at the end of the text. The characters that are marked are those of the
part, or the last one where the part is empty. The text is shown with these marks if there is a
token in it. -/

namespace Formulary

open Text (byteLength IsSlice)
open Token (scan)

namespace Text

variable {text part part' : String} {start stop start' stop' : Nat}

/-- Two parts lie in one, unless the second ends before the first begins. -/
theorem IsSlice.join (h : IsSlice text start stop part) (h' : IsSlice text start' stop' part')
    (hle : start ≤ stop') : ∃ whole, IsSlice text start stop' whole := by
  obtain ⟨before, after, htext, rfl, rfl⟩ := isSlice_iff.1 h
  obtain ⟨before', after', htext', rfl, rfl⟩ := isSlice_iff.1 h'
  have hsplit : before' ++ part'.toList ++ after' = before ++ (part.toList ++ after) := by
    rw [← htext', htext, List.append_assoc]
  rcases List.append_eq_append_iff.1 hsplit with ⟨gap, rfl, -⟩ | ⟨whole, hfront, -⟩
  · -- The second part ends before the first, or just where it begins.
    simp only [byteLength_append] at hle
    obtain rfl := byteLength_eq_zero.1 (show byteLength gap = 0 by omega)
    refine ⟨"", isSlice_iff.2 ⟨before' ++ part'.toList, after', ?_, ?_, ?_⟩⟩ <;>
      simp [htext', byteLength]
  · refine ⟨String.ofList whole, isSlice_iff.2 ⟨before, after', ?_, rfl, ?_⟩⟩
    · rw [htext', hfront, String.toList_ofList]
    · rw [← byteLength_append, hfront, byteLength_append, String.toList_ofList]

theorem IsSlice.ne_empty_iff (h : IsSlice text start stop part) : part ≠ "" ↔ start < stop := by
  obtain ⟨before, after, -, -, rfl⟩ := h
  rw [Ne, ← String.utf8ByteSize_eq_zero_iff]
  omega

theorem isSlice_end (text : String) :
    IsSlice text text.utf8ByteSize text.utf8ByteSize "" :=
  ⟨text, "", by simp, rfl, by simp⟩

end Text

namespace Snippet

variable {text : String} {before part after : List Char}

/-- The characters at some positions. -/
def charsIn (text : String) (range : Nat × Nat) : String :=
  String.ofList ((text.toList.drop range.1).take (range.2 - range.1))

theorem charPosition_zero (cs : List Char) : charPosition 0 cs = 0 := by
  cases cs with
  | nil => rfl
  | cons c cs => simp [charPosition]

theorem charPosition_append (before after : List Char) :
    charPosition (byteLength before) (before ++ after) = before.length := by
  induction before with
  | nil => exact charPosition_zero after
  | cons c before ih =>
    have hsize := c.utf8Size_pos
    rw [List.cons_append, byteLength, charPosition, if_pos (by omega), Nat.add_sub_cancel_left, ih,
      List.length_cons, Nat.add_comm]

theorem markedRange_of_part (htext : text.toList = before ++ part ++ after) (hne : part ≠ []) :
    markedRange text (byteLength before) (byteLength before + byteLength part) =
      (before.length, before.length + part.length) := by
  have hfirst : charPosition (byteLength before) text.toList = before.length := by
    rw [htext, List.append_assoc, charPosition_append]
  have hlast : charPosition (byteLength before + byteLength part) text.toList =
      before.length + part.length := by
    rw [htext, ← Text.byteLength_append, charPosition_append, List.length_append]
  have hpos := List.length_pos_of_ne_nil hne
  rw [markedRange, hfirst, hlast]
  exact if_pos (by omega)

theorem charsIn_of_part (htext : text.toList = before ++ part ++ after) :
    charsIn text (before.length, before.length + part.length) = String.ofList part := by
  rw [charsIn, htext, List.append_assoc, List.drop_left, Nat.add_sub_cancel_left, List.take_left]

/-- At the end of a text its last character is marked. -/
theorem markedRange_end (text : String) :
    markedRange text text.utf8ByteSize text.utf8ByteSize =
      (text.toList.length - 1, text.toList.length) := by
  have hend : charPosition text.utf8ByteSize text.toList = text.toList.length := by
    simpa using charPosition_append text.toList []
  rw [markedRange, hend]
  simp

theorem toList_ne_nil {text : String} (h : scan text ≠ []) : text.toList ≠ [] := fun hnil =>
  h (by rw [scan, hnil, Token.scanFrom])

theorem isBlankText_iff {text : String} : isBlankText text = true ↔ scan text = [] := by
  rw [isBlankText, List.all_eq_true]
  constructor
  · intro hblank
    have hscan := Token.scanFrom_blank_append hblank 0 []
    rwa [List.append_nil] at hscan
  · intro hscan c hc
    obtain ⟨front, behind, htext⟩ := List.append_of_mem hc
    rw [← Token.outside_scan_iff (Text.isSlice_singleton_iff.2 ⟨front, behind, htext, rfl, rfl⟩),
      hscan]
    simp

end Snippet

namespace ParseFault

open Snippet

/-- The source is left out just if there is no token in it, and else it is marked. -/
theorem slice?_snippet (f : ParseFault) (text : String) (color : Bool) :
    ((f.snippet text color).slice? = none ↔ scan text = []) ∧
      (scan text ≠ [] → (f.snippet text color).slice? =
        some ⟨text, 1, markedRange text f.start f.stop⟩) := by
  rw [snippet]
  by_cases hblank : isBlankText text = true
  · have hscan := isBlankText_iff.1 hblank
    simp only [if_pos hblank, hscan, true_and]
    exact fun h => absurd rfl h
  · have hscan : scan text ≠ [] := mt isBlankText_iff.2 hblank
    simp [if_neg hblank, hscan]

/-- The error is about a part of the text: about one token, about all that follow a whole
expression, or about the end of the text. -/
structure IsAbout (v : Vocabulary) (text : String) (f : ParseFault) (part : String) : Prop where
  slice : IsSlice text f.start f.stop part
  token : part ≠ "" → f.error ≠ .trailingTokens → ⟨part, f.start, f.stop⟩ ∈ scan text
  trailing : f.error = .trailingTokens → part ≠ "" ∧ ∃ before t after e,
    scan text = before ++ t :: after ∧
    v.Leads Vocabulary.opening (before.map Token.text) (.complete e) ∧
    f.start = t.start ∧ f.stop = ((t :: after).getLast (List.cons_ne_nil t after)).stop
  atEnd : part = "" → f.start = text.utf8ByteSize ∧ ∃ expected, f.error = .endOfInput expected

variable {v : Vocabulary} {text : String} {f : ParseFault}

theorem isAbout_end (v : Vocabulary) (text : String) (expected : Expected) :
    IsAbout v text ⟨.endOfInput expected, text.utf8ByteSize, text.utf8ByteSize⟩ "" where
  slice := Text.isSlice_end text
  token h := absurd rfl h
  trailing h := nomatch h
  atEnd _ := ⟨rfl, expected, rfl⟩

theorem isAbout_token {t : Token} (ht : t ∈ scan text) (herror : f.error ≠ .trailingTokens)
    (hstart : f.start = t.start) (hstop : f.stop = t.stop) : f.IsAbout v text t.text where
  slice := by
    rw [hstart, hstop]
    exact Token.isSlice_of_mem_scan ht
  token _ _ := by
    rw [hstart, hstop]
    exact ht
  trailing h := absurd h herror
  atEnd h := by
    have hne := (Token.isSlice_of_mem_scan ht).ne_empty_iff.2 (Token.start_lt_stop_of_mem_scan ht)
    exact absurd h hne

theorem exists_isAbout_trailing {before after : List Token} {t : Token} {e : Expr}
    (hscan : scan text = before ++ t :: after)
    (hleads : v.Leads Vocabulary.opening (before.map Token.text) (.complete e)) :
    ∃ part, IsAbout v text ⟨.trailingTokens, t.start,
      ((t :: after).getLast (List.cons_ne_nil t after)).stop⟩ part := by
  have hmem : ∀ u ∈ t :: after, u ∈ scan text := fun u hu => hscan ▸ List.mem_append_right before hu
  have hlast := List.getLast_mem (List.cons_ne_nil t after)
  generalize hu : (t :: after).getLast (List.cons_ne_nil t after) = u at hlast
  have hsize := Token.start_lt_stop_of_mem_scan (hmem u hlast)
  have hlt : t.start < u.stop := by
    rcases List.mem_cons.1 hlast with rfl | hafter
    · exact hsize
    · have hordered := (Token.cuts_scan text).ordered
      rw [hscan] at hordered
      have hbehind := (List.pairwise_cons.1 (List.pairwise_append.1 hordered).2.1).1 u hafter
      have hfirst := Token.start_lt_stop_of_mem_scan (hmem t List.mem_cons_self)
      omega
  obtain ⟨part, hslice⟩ := (Token.isSlice_of_mem_scan (hmem t List.mem_cons_self)).join
    (Token.isSlice_of_mem_scan (hmem u hlast)) hlt.le
  have hne := hslice.ne_empty_iff.2 hlt
  exact ⟨part, hslice, fun _ h => absurd rfl h,
    fun _ => ⟨hne, before, t, after, e, hscan, hleads, rfl, congrArg Token.stop hu.symm⟩,
    fun h => absurd h hne⟩

theorem exists_isAbout (h : Expr.parse v text = .error f) : ∃ part, f.IsAbout v text part := by
  rcases Vocabulary.parse_cases v text with
    ⟨e, hleads⟩ | ⟨awaited, hleads⟩ | ⟨before, t, s, fault, hparse, hstops⟩
  · cases h.symm.trans (Vocabulary.parse_of_leads hleads)
  · obtain rfl := Except.error.inj (h.symm.trans (Vocabulary.parse_of_leads hleads))
    exact ⟨"", isAbout_end v text awaited.expected⟩
  · obtain rfl := Except.error.inj (h.symm.trans hparse)
    obtain ⟨after, hscan⟩ := hstops.tokens
    rcases hstops.error with ⟨-, e, rfl⟩ | ⟨herror, hstop, -⟩
    · -- All tokens that are left when the expression is whole are reported.
      have hrun := hstops.leads.run_eq rfl text.utf8ByteSize (t :: after)
      rw [← hscan] at hrun
      obtain rfl := Except.error.inj (h.symm.trans hrun)
      exact exists_isAbout_trailing hscan hstops.leads
    · exact ⟨t.text, isAbout_token (by simp [hscan]) herror hstops.start hstop⟩

theorem IsAbout.charsIn_markedRange {part : String} (h : f.IsAbout v text part) (hne : part ≠ "") :
    charsIn text (markedRange text f.start f.stop) = part := by
  obtain ⟨before, after, htext, hstart, hstop⟩ := Text.isSlice_iff.1 h.slice
  rw [hstop, hstart, markedRange_of_part htext (by simpa using hne), charsIn_of_part htext,
    String.ofList_toList]

/-- There are marks where there is any text, and nowhere else. -/
theorem IsAbout.markedRange_lt {part : String} (h : f.IsAbout v text part)
    (hscan : scan text ≠ []) :
    ∃ first last, markedRange text f.start f.stop = (first, last) ∧ first < last ∧
      last ≤ text.length := by
  obtain ⟨before, after, htext, hstart, hstop⟩ := Text.isSlice_iff.1 h.slice
  by_cases hne : part = ""
  · have hpos := List.length_pos_of_ne_nil (toList_ne_nil hscan)
    refine ⟨text.toList.length - 1, text.toList.length, ?_, by omega, String.length_toList.le⟩
    rw [hstop, hne, (h.atEnd hne).1]
    exact markedRange_end text
  · have hpos := List.length_pos_of_ne_nil (l := part.toList) (by simpa using hne)
    refine ⟨_, _, by rw [hstop, hstart, markedRange_of_part htext (by simpa using hne)], ?_, ?_⟩
    · omega
    · have hlength := congrArg List.length htext
      simp only [List.length_append, String.length_toList] at hlength
      rw [String.length_toList]
      omega

end ParseFault

open Snippet in
/-- Every error of reading is about a part of the text. If there is any token, some characters are
marked, and just those of the part unless it is empty. What is handed over to be drawn is the
message with these marks in the text, which is left out only where there is no token. -/
theorem Expr.fault_marked {v : Vocabulary} {text : String} {fault : ParseFault}
    (h : Expr.parse v text = .error fault) :
    ∃ part, fault.IsAbout v text part ∧
      (scan text ≠ [] → ∃ first last, markedRange text fault.start fault.stop = (first, last) ∧
        first < last ∧ last ≤ text.length) ∧
      (part ≠ "" → charsIn text (markedRange text fault.start fault.stop) = part) ∧
      ∀ color, (fault.snippet text color).title = fault.error.message ∧
        ((fault.snippet text color).slice? = none ↔ scan text = []) ∧
        (scan text ≠ [] → (fault.snippet text color).slice? =
          some ⟨text, 1, markedRange text fault.start fault.stop⟩) := by
  obtain ⟨part, hpart⟩ := ParseFault.exists_isAbout h
  exact ⟨part, hpart, hpart.markedRange_lt, hpart.charsIn_markedRange,
    fun color => ⟨rfl, fault.slice?_snippet text color⟩⟩

open Vocabulary in
/-- A letter of two bytes comes before the tokens that are left. -/
theorem Expr.fault_marked_small :
    Expr.parse small "not ж ( x" = .error ⟨.trailingTokens, 7, 10⟩ ∧
      Snippet.markedRange "not ж ( x" 7 10 = (6, 9) ∧
      ((⟨.trailingTokens, 7, 10⟩ : ParseFault).snippet "not ж ( x" false).slice? =
        some ⟨"not ж ( x", 1, (6, 9)⟩ ∧
      ∃ part, (⟨.trailingTokens, 7, 10⟩ : ParseFault).IsAbout small "not ж ( x" part ∧
        Snippet.charsIn "not ж ( x" (6, 9) = part := by
  have hparse : Expr.parse small "not ж ( x" = .error ⟨.trailingTokens, 7, 10⟩ := by decide
  obtain ⟨part, hpart, -, hmarked, hdrawn⟩ := Expr.fault_marked hparse
  obtain ⟨-, -, hslice⟩ := hdrawn false
  exact ⟨hparse, by decide, hslice (by decide), part, hpart, hmarked (hpart.trailing rfl).1⟩

end Formulary
