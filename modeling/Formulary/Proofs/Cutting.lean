import Formulary.Proofs.Tokenizing

/-! # Texts cut into tokens

Which tokens a text has can be told by their places alone: in order and apart, they leave out just
the white space, brackets are alone and everything else is as long as it can be. One list of tokens
only is such a cut. White space between two texts keeps their tokens apart. -/

namespace Formulary

open Text (byteLength)

namespace Text

/-- The part stands in the text from one byte to another. -/
def IsSlice (text : String) (start stop : Nat) (part : String) : Prop :=
  ∃ before after, text = before ++ part ++ after ∧ start = before.utf8ByteSize ∧
    stop = start + part.utf8ByteSize

variable {text part : String} {start stop : Nat}

theorem isSlice_iff : IsSlice text start stop part ↔
    ∃ before after, text.toList = before ++ part.toList ++ after ∧ start = byteLength before ∧
      stop = start + byteLength part.toList := by
  rw [byteLength_toList]
  constructor
  · rintro ⟨before, after, rfl, rfl, rfl⟩
    exact ⟨before.toList, after.toList, by simp, by simp, rfl⟩
  · rintro ⟨before, after, htext, rfl, rfl⟩
    refine ⟨String.ofList before, String.ofList after, ?_, ?_, rfl⟩
    · rw [← String.toList_inj, htext]
      simp
    · rw [← byteLength_toList, String.toList_ofList]

theorem isSlice_singleton_iff {c : Char} : IsSlice text start stop (String.singleton c) ↔
    ∃ front behind, text.toList = front ++ c :: behind ∧ start = byteLength front ∧
      stop = start + c.utf8Size := by
  simp [isSlice_iff, byteLength]

end Text

namespace Token

/-- The tokens cut the text: they stand in order and apart where they say, just the white space is
outside of them, every bracket is one of them, and each other one is a run of word characters that
ends on both sides where the word characters do. -/
structure Cuts (text : String) (ts : List Token) : Prop where
  ordered : ts.Pairwise fun t u => t.stop ≤ u.start
  nonempty : ∀ t ∈ ts, t.start < t.stop
  slice : ∀ t ∈ ts, Text.IsSlice text t.start t.stop t.text
  outside : ∀ c start stop, Text.IsSlice text start stop (String.singleton c) →
    ((∀ t ∈ ts, ¬ (t.start ≤ start ∧ start < t.stop)) ↔ Text.isBlank c = true)
  bracket : ∀ c start stop, Text.IsSlice text start stop (String.singleton c) →
    Text.isBracket c = true → ⟨String.singleton c, start, stop⟩ ∈ ts
  run : ∀ t ∈ ts, t.isBracket = false → (∀ c ∈ t.text.toList, Text.isWordChar c = true) ∧
    ∀ c start stop, Text.IsSlice text start stop (String.singleton c) →
      stop = t.start ∨ start = t.stop → Text.isWordChar c = false

variable {text : String} {ts : List Token} {t : Token}

theorem isSlice_of_mem_scan (h : t ∈ scan text) : Text.IsSlice text t.start t.stop t.text := by
  obtain ⟨before, body, after, htext, -, rfl⟩ := mem_scan_iff.1 h
  refine Text.isSlice_iff.2 ⟨before, after, ?_, rfl, ?_⟩ <;> rw [String.toList_ofList]
  exact htext

theorem outside_scan_iff {c : Char} {start stop : Nat}
    (h : Text.IsSlice text start stop (String.singleton c)) :
    (∀ t ∈ scan text, ¬ (t.start ≤ start ∧ start < t.stop)) ↔ Text.isBlank c = true := by
  obtain ⟨front, behind, htext, rfl, -⟩ := Text.isSlice_singleton_iff.1 h
  constructor
  · intro hout
    by_contra hblank
    obtain ⟨before, left, right, after, rfl, rfl, hlexeme⟩ :=
      Text.exists_lexeme (eq_false_of_ne_true hblank) front behind
    refine hout _ (mem_scan_iff.2 ⟨before, left ++ c :: right, after, ?_, hlexeme, rfl⟩) ?_
    · simp [htext]
    · have hsize := c.utf8Size_pos
      simp only [Text.byteLength_append, byteLength]
      omega
  · rintro hblank t ht ⟨hle, hlt⟩
    obtain ⟨before, body, after, hsplit, hlexeme, rfl⟩ := mem_scan_iff.1 ht
    obtain ⟨left, right, -, rfl, -⟩ := Text.exists_inside (htext.symm.trans hsplit) hle hlt
    rw [Text.not_isBlank_of_mem_lexeme hlexeme (by simp)] at hblank
    cases hblank

theorem bracket_mem_scan {c : Char} {start stop : Nat}
    (h : Text.IsSlice text start stop (String.singleton c)) (hc : Text.isBracket c = true) :
    ⟨String.singleton c, start, stop⟩ ∈ scan text := by
  obtain ⟨front, behind, htext, rfl, rfl⟩ := Text.isSlice_singleton_iff.1 h
  refine mem_scan_iff.2 ⟨front, [c], behind, by simp [htext], .bracket hc, ?_⟩
  rw [String.singleton_eq_ofList]
  rfl

theorem run_of_mem_scan (h : t ∈ scan text) (hbracket : t.isBracket = false) :
    (∀ c ∈ t.text.toList, Text.isWordChar c = true) ∧
      ∀ c start stop, Text.IsSlice text start stop (String.singleton c) →
        stop = t.start ∨ start = t.stop → Text.isWordChar c = false := by
  obtain ⟨before, body, after, htext, hlexeme, rfl⟩ := mem_scan_iff.1 h
  cases hlexeme with
  | @bracket _ d hd =>
    have hyes : isBracket
        ⟨String.ofList [d], byteLength before, byteLength before + byteLength [d]⟩ :=
      isBracket_iff.2 ⟨d, hd, String.singleton_eq_ofList.symm⟩
    exact absurd hyes (ne_true_of_eq_false hbracket)
  | run hne hword hleft hright =>
    refine ⟨by simpa using hword, fun c start stop hc hnext => ?_⟩
    obtain ⟨front, behind, hsplit, rfl, rfl⟩ := Text.isSlice_singleton_iff.1 hc
    rw [htext] at hsplit
    rcases hnext with hstart | hstop
    · have hsplit' : before ++ (body ++ after) = front ++ [c] ++ behind := by simpa using hsplit
      obtain ⟨rfl, -⟩ :=
        Text.append_inj_of_byteLength hsplit' (by simpa [byteLength] using hstart.symm)
      exact hleft c (by simp)
    · obtain ⟨-, rfl⟩ := Text.append_inj_of_byteLength hsplit (by simpa using hstop.symm)
      exact hright c (by simp)

theorem cuts_scan (text : String) : Cuts text (scan text) where
  ordered := pairwise_scanFrom 0 text.toList
  nonempty _ ht := start_lt_stop_of_mem_scan ht
  slice _ ht := isSlice_of_mem_scan ht
  outside _ _ _ h := outside_scan_iff h
  bracket _ _ _ h hc := bracket_mem_scan h hc
  run _ ht hbracket := run_of_mem_scan ht hbracket

theorem Cuts.mem_scan (h : Cuts text ts) (ht : t ∈ ts) : t ∈ scan text := by
  obtain ⟨before, after, htext, hstart, hstop⟩ := Text.isSlice_iff.1 (h.slice t ht)
  refine mem_scan_iff.2 ⟨before, t.text.toList, after, htext, ?_, ?_⟩
  · by_cases hbracket : t.isBracket = true
    · obtain ⟨c, hc, hword⟩ := isBracket_iff.1 hbracket
      rw [hword, String.toList_singleton]
      exact .bracket hc
    · obtain ⟨hword, hnext⟩ := h.run t ht (eq_false_of_ne_true hbracket)
      refine .run ?_ hword (fun c hc => ?_) (fun c hc => ?_)
      · have hnonempty := h.nonempty t ht
        rintro hnil
        rw [hstop, hnil, byteLength] at hnonempty
        exact lt_irrefl _ hnonempty
      · obtain ⟨front, rfl⟩ : ∃ front, before = front ++ [c] := by
          obtain ⟨hne, rfl⟩ := List.mem_getLast?_eq_getLast hc
          exact ⟨_, (List.dropLast_append_getLast hne).symm⟩
        refine hnext c (byteLength front) t.start ?_ (.inl rfl)
        exact Text.isSlice_singleton_iff.2
          ⟨front, t.text.toList ++ after, by simp [htext], rfl, by simp [hstart, byteLength]⟩
      · obtain ⟨behind, rfl⟩ := List.head?_eq_some_iff.1 (Option.mem_def.1 hc)
        refine hnext c t.stop (t.stop + c.utf8Size) ?_ (.inr rfl)
        exact Text.isSlice_singleton_iff.2
          ⟨before ++ t.text.toList, behind, htext, by simp [hstart, hstop], rfl⟩
  · rw [← hstart, ← hstop, String.ofList_toList]

theorem Cuts.mem_of_mem_scan (h : Cuts text ts) (ht : t ∈ scan text) : t ∈ ts := by
  obtain ⟨before, body, after, htext, hlexeme, rfl⟩ := mem_scan_iff.1 ht
  obtain ⟨c, right, rfl⟩ := List.exists_cons_of_ne_nil hlexeme.ne_nil
  have hfirst : text.toList = before ++ c :: (right ++ after) := by simp [htext]
  obtain ⟨u, hu, hle, hlt⟩ :
      ∃ u ∈ ts, u.start ≤ byteLength before ∧ byteLength before < u.stop := by
    by_contra hnone
    have hblank := (h.outside c _ _ (Text.isSlice_singleton_iff.2 ⟨_, _, hfirst, rfl, rfl⟩)).1
      fun u hu hcovers => hnone ⟨u, hu, hcovers⟩
    rw [Text.not_isBlank_of_mem_lexeme hlexeme List.mem_cons_self] at hblank
    cases hblank
  obtain ⟨before', body', after', htext', hlexeme', rfl⟩ := mem_scan_iff.1 (h.mem_scan hu)
  obtain ⟨left, right', hfront, rfl, hbehind⟩ :=
    Text.exists_inside (hfirst.symm.trans htext') hle hlt
  rw [← List.append_nil before] at hfront
  rw [← List.nil_append (c :: right)] at hlexeme
  obtain ⟨rfl, rfl, rfl⟩ := hlexeme.unique hlexeme' hfront hbehind
  exact hu

theorem Cuts.eq_scan (h : Cuts text ts) : ts = scan text := by
  have hsorted {us : List Token} (hus : Cuts text us) : us.Pairwise fun t u => t.start < u.start :=
    hus.ordered.imp_of_mem fun ht _ hle => lt_of_lt_of_le (hus.nonempty _ ht) hle
  have hnodup {us : List Token} (hus : Cuts text us) : us.Nodup := by
    refine (hsorted hus).imp ?_
    rintro t _ hlt rfl
    exact lt_irrefl _ hlt
  have hperm : ts.Perm (scan text) :=
    (List.perm_ext_iff_of_nodup (hnodup h) (hnodup (cuts_scan text))).2
      fun _ => ⟨h.mem_scan, h.mem_of_mem_scan⟩
  exact hperm.eq_of_pairwise (fun _ _ _ _ hlt hgt => absurd hgt (lt_asymm hlt)) (hsorted h)
    (hsorted (cuts_scan text))

theorem scan_append_blank {w : String} (hne : w ≠ "")
    (hblank : ∀ c ∈ w.toList, Text.isBlank c = true) (a b : String) :
    scan (a ++ w ++ b) = scan a ++ (scan b).map (move (a ++ w).utf8ByteSize) := by
  have hbehind : scanFrom (0 + byteLength a.toList) (w.toList ++ b.toList) =
      (scan b).map (move (a ++ w).utf8ByteSize) := by
    rw [scanFrom_blank_append hblank, Nat.add_assoc, scanFrom_add, String.utf8ByteSize_append,
      Text.byteLength_toList, Text.byteLength_toList]
    rfl
  obtain ⟨d, ds, hw⟩ : ∃ d ds, w.toList = d :: ds :=
    List.exists_cons_of_ne_nil (by simpa using hne)
  have hd : Text.isWordChar d = false := Text.isWordChar_eq_false.2 (.inl (hblank d (by simp [hw])))
  rw [scan, String.toList_append, String.toList_append, List.append_assoc, ← hbehind, hw,
    List.cons_append, scanFrom_append_separator hd]
  rfl

end Token

/-- The tokens of a text are exact. The grammar accepts every text and gives them, they are the only
ones that cut the text, and white space between two texts keeps their tokens apart. -/
theorem Token.scan_exact (text : String) :
    Grammar.tokens.read? text = some (scan text) ∧
    (∀ ts, Cuts text ts ↔ ts = scan text) ∧
    ∀ a w b, text = a ++ w ++ b → w ≠ "" → (∀ c ∈ w.toList, Text.isBlank c = true) →
      scan text = scan a ++ (scan b).map (move (a ++ w).utf8ByteSize) := by
  refine ⟨Grammar.read?_tokens text, fun ts => ⟨Cuts.eq_scan, ?_⟩, ?_⟩
  · rintro rfl
    exact cuts_scan text
  · rintro a w b rfl hne hblank
    exact scan_append_blank hne hblank a b

example : Token.scan "ж\u3000(b" = [⟨"ж", 0, 2⟩, ⟨"(", 5, 6⟩, ⟨"b", 6, 7⟩] := by decide

end Formulary
