import Formulary.Proofs.Words
import Mathlib.Data.List.DropRight
import Mathlib.Data.List.TakeWhile

/-! # Lexemes

A lexeme of a text is a bracket or a longest run of word characters. The tokens of a text are just
its lexemes, from the first to the last, with the bytes where they stand. -/

namespace Formulary

namespace Text

@[simp] theorem byteLength_append (cs ds : List Char) :
    byteLength (cs ++ ds) = byteLength cs + byteLength ds := by
  induction cs with
  | nil => simp [byteLength]
  | cons c cs ih => simp only [List.cons_append, byteLength, ih, Nat.add_assoc]

theorem byteLength_eq_zero {cs : List Char} : byteLength cs = 0 ↔ cs = [] := by
  cases cs with
  | nil => simp [byteLength]
  | cons c cs =>
    have hsize := c.utf8Size_pos
    simp only [byteLength, reduceCtorEq, iff_false]
    omega

theorem byteLength_pos {cs : List Char} (h : cs ≠ []) : 0 < byteLength cs :=
  Nat.pos_of_ne_zero fun hzero => h (byteLength_eq_zero.1 hzero)

@[simp] theorem byteLength_toList (text : String) : byteLength text.toList = text.utf8ByteSize := by
  suffices h : ∀ cs, byteLength cs = (String.ofList cs).utf8ByteSize by
    rw [h, String.ofList_toList]
  intro cs
  induction cs with
  | nil => simp [byteLength]
  | cons c cs ih =>
    rw [byteLength, ih, String.ofList_cons, String.utf8ByteSize_append,
      String.utf8ByteSize_singleton]

/-- Texts that go on to the same text and are as long are equal. -/
theorem append_inj_of_byteLength {cs ds rest rest' : List Char} (h : cs ++ rest = ds ++ rest')
    (hlength : byteLength cs = byteLength ds) : cs = ds ∧ rest = rest' := by
  rcases List.append_eq_append_iff.1 h with ⟨gap, rfl, rfl⟩ | ⟨gap, rfl, rfl⟩ <;>
  · rw [byteLength_append] at hlength
    obtain rfl := byteLength_eq_zero.1 (show byteLength gap = 0 by omega)
    simp

theorem head?_dropWhile {p : Char → Bool} (cs : List Char) :
    ∀ c ∈ (cs.dropWhile p).head?, p c = false := by
  intro c hc
  have hnot := List.head?_dropWhile_not p cs
  rwa [Option.mem_def.1 hc] at hnot

/-- A text is made of blanks, brackets and runs of word characters that end where the next word
character is not. -/
theorem induct_runs {motive : List Char → Prop} (nil : motive [])
    (blank : ∀ c cs, isBlank c = true → motive cs → motive (c :: cs))
    (bracket : ∀ c cs, isBracket c = true → motive cs → motive (c :: cs))
    (run : ∀ run cs, run ≠ [] → (∀ c ∈ run, isWordChar c = true) →
      (∀ c ∈ cs.head?, isWordChar c = false) → motive cs → motive (run ++ cs))
    (cs : List Char) : motive cs := by
  induction h : cs.length using Nat.strongRecOn generalizing cs with
  | ind length ih =>
    cases cs with
    | nil => exact nil
    | cons c cs =>
      have hshorter := ih cs.length (by simp [← h]) cs rfl
      cases hword : isWordChar c with
      | false =>
        rcases isWordChar_eq_false.1 hword with hc | hc
        · exact blank c cs hc hshorter
        · exact bracket c cs hc hshorter
      | true =>
        have hrest : (cs.dropWhile isWordChar).length < length := by
          have hle := (List.dropWhile_sublist (l := cs) isWordChar).length_le
          rw [← h, List.length_cons]
          omega
        have hrun := run (c :: cs.takeWhile isWordChar) (cs.dropWhile isWordChar)
          (List.cons_ne_nil _ _)
          (List.forall_mem_cons.2 ⟨hword, fun d hd => List.mem_takeWhile_imp hd⟩)
          (head?_dropWhile cs) (ih _ hrest _ rfl)
        rwa [List.cons_append, List.takeWhile_append_dropWhile] at hrun

/-- What stands between `before` and `after` is a bracket or a longest run of word characters. -/
inductive Lexeme : List Char → List Char → List Char → Prop where
  | bracket {before after : List Char} {c : Char} : isBracket c = true → Lexeme before [c] after
  | run {before run after : List Char} : run ≠ [] → (∀ c ∈ run, isWordChar c = true) →
    (∀ c ∈ before.getLast?, isWordChar c = false) → (∀ c ∈ after.head?, isWordChar c = false) →
    Lexeme before run after

theorem Lexeme.ne_nil {before body after : List Char} (h : Lexeme before body after) :
    body ≠ [] := by
  cases h with
  | bracket hc => exact List.cons_ne_nil _ []
  | run hne _ _ _ => exact hne

theorem not_isBlank_of_mem_lexeme {before body after : List Char} (h : Lexeme before body after)
    {c : Char} (hc : c ∈ body) : isBlank c = false := by
  cases h with
  | bracket hbracket =>
    obtain rfl := List.mem_singleton.1 hc
    exact isBlank_of_isBracket hbracket
  | run _ hword _ _ => exact (isWordChar_iff.1 (hword c hc)).1

/-- No run goes on from the end of one text into the next. -/
def Border (cs ds : List Char) : Prop :=
  ∀ c ∈ cs.getLast?, ∀ d ∈ ds.head?, ¬ (isWordChar c = true ∧ isWordChar d = true)

theorem border_of_left {c : Char} (h : isBlank c = true ∨ isBracket c = true) (ds : List Char) :
    Border [c] ds := by
  rintro _ ⟨⟩ d - ⟨hc, -⟩
  simp [isWordChar_eq_false.2 h] at hc

section

variable {before body after cs ds : List Char}

theorem Lexeme.append_right (h : Lexeme before body after)
    (hborder : Border (before ++ body ++ after) ds) : Lexeme before body (after ++ ds) := by
  cases h with
  | bracket hc => exact .bracket hc
  | run hne hword hleft hright =>
    refine .run hne hword hleft fun d hd => ?_
    cases after with
    | cons a after => exact hright d hd
    | nil =>
      have hlast : body.getLast hne ∈ (before ++ body ++ []).getLast? := by
        rw [List.append_nil, List.getLast?_append_of_ne_nil _ hne,
          List.getLast?_eq_some_getLast hne]
        rfl
      have hnot := hborder _ hlast d hd
      simpa [hword _ (List.getLast_mem hne)] using hnot

theorem Lexeme.append_left (h : Lexeme before body after)
    (hborder : Border cs (before ++ body ++ after)) : Lexeme (cs ++ before) body after := by
  cases h with
  | bracket hc => exact .bracket hc
  | run hne hword hleft hright =>
    refine .run hne hword (fun c hc => ?_) hright
    cases before with
    | cons b before =>
      rw [List.getLast?_append_of_ne_nil _ (List.cons_ne_nil b before)] at hc
      exact hleft c hc
    | nil =>
      rw [List.append_nil] at hc
      obtain ⟨first, rest, rfl⟩ := List.exists_cons_of_ne_nil hne
      have hnot := hborder c hc first rfl
      simpa [hword first List.mem_cons_self] using hnot

theorem Lexeme.of_append_right (h : Lexeme before body (after ++ ds)) :
    Lexeme before body after := by
  cases h with
  | bracket hc => exact .bracket hc
  | run hne hword hleft hright =>
    refine .run hne hword hleft fun d hd => hright d ?_
    rw [List.head?_append, Option.mem_def.1 hd]
    rfl

theorem Lexeme.of_append_left (h : Lexeme (cs ++ before) body after) :
    Lexeme before body after := by
  cases h with
  | bracket hc => exact .bracket hc
  | run hne hword hleft hright =>
    refine .run hne hword (fun c hc => hleft c ?_) hright
    rw [List.getLast?_append, Option.mem_def.1 hc]
    rfl

/-- A lexeme of two texts put together lies in one of them, if no run goes on across the border. -/
theorem Lexeme.split (h : Lexeme before body after) (hborder : Border cs ds)
    (hsplit : cs ++ ds = before ++ body ++ after) :
    (∃ inside, cs = before ++ body ++ inside ∧ after = inside ++ ds) ∨
      ∃ inside, before = cs ++ inside ∧ ds = inside ++ body ++ after := by
  rw [List.append_assoc] at hsplit
  rcases List.append_eq_append_iff.1 hsplit with ⟨inside, rfl, hds⟩ | ⟨front, rfl, hback⟩
  · exact .inr ⟨inside, rfl, hds.trans (List.append_assoc _ _ _).symm⟩
  · rcases List.append_eq_append_iff.1 hback with ⟨inside, rfl, hafter⟩ | ⟨back, rfl, rfl⟩
    · exact .inl ⟨inside, (List.append_assoc _ _ _).symm, hafter⟩
    · -- A body on both sides of the border is a run that goes on across it.
      by_cases hback : back = []
      · subst hback
        exact .inl ⟨[], by simp, rfl⟩
      by_cases hfront : front = []
      · subst hfront
        exact .inr ⟨[], by simp, by simp⟩
      obtain ⟨d, back, rfl⟩ := List.exists_cons_of_ne_nil hback
      have hlast : front.getLast hfront ∈ (before ++ front).getLast? := by
        rw [List.getLast?_append_of_ne_nil _ hfront, List.getLast?_eq_some_getLast hfront]
        rfl
      have hword : ∀ c ∈ front ++ d :: back, isWordChar c = true := by
        generalize hbody : front ++ d :: back = body at h
        cases h with
        | bracket hc =>
          have hlength := congrArg List.length hbody
          have hpos := List.length_pos_of_ne_nil hfront
          simp only [List.length_append, List.length_cons, List.length_nil] at hlength
          omega
        | run _ hword _ _ => exact hword
      have hmem : front.getLast hfront ∈ front ++ d :: back :=
        List.mem_append_left _ (List.getLast_mem hfront)
      exact absurd ⟨hword _ hmem, hword d (by simp)⟩ (hborder _ hlast d rfl)

end

end Text

namespace Token

variable {start : Nat} {cs ds : List Char} {t : Token}

/-- The token is a lexeme of the text from byte `start` on, with the bytes where it stands. -/
def IsLexeme (start : Nat) (cs : List Char) (t : Token) : Prop :=
  ∃ before body after, cs = before ++ body ++ after ∧ Text.Lexeme before body after ∧
    t = ⟨String.ofList body, start + Text.byteLength before,
      start + Text.byteLength before + Text.byteLength body⟩

theorem isLexeme_append (h : Text.Border cs ds) : IsLexeme start (cs ++ ds) t ↔
    IsLexeme start cs t ∨ IsLexeme (start + Text.byteLength cs) ds t := by
  constructor
  · rintro ⟨before, body, after, hsplit, hlexeme, rfl⟩
    rcases hlexeme.split h hsplit with ⟨inside, rfl, rfl⟩ | ⟨inside, rfl, rfl⟩
    · exact .inl ⟨before, body, inside, rfl, hlexeme.of_append_right, rfl⟩
    · refine .inr ⟨inside, body, after, rfl, hlexeme.of_append_left, ?_⟩
      simp only [Text.byteLength_append, Nat.add_assoc]
  · rintro (⟨before, body, after, rfl, hlexeme, rfl⟩ | ⟨before, body, after, rfl, hlexeme, rfl⟩)
    · exact ⟨before, body, after ++ ds, by simp, hlexeme.append_right h, rfl⟩
    · refine ⟨cs ++ before, body, after, by simp, hlexeme.append_left h, ?_⟩
      simp only [Text.byteLength_append, Nat.add_assoc]

theorem scanFrom_bracket {c : Char} (h : Text.isBracket c = true) (start : Nat) (cs : List Char) :
    scanFrom start (c :: cs) =
      ⟨String.singleton c, start, start + c.utf8Size⟩ :: scanFrom (start + c.utf8Size) cs := by
  simp [scanFrom, Text.isBlank_of_isBracket h, h]

theorem scanFrom_run {run : List Char} (hne : run ≠ [])
    (hword : ∀ c ∈ run, Text.isWordChar c = true)
    (hnext : ∀ c ∈ cs.head?, Text.isWordChar c = false) (start : Nat) :
    scanFrom start (run ++ cs) =
      ⟨String.ofList run, start, start + Text.byteLength run⟩ ::
        scanFrom (start + Text.byteLength run) cs := by
  cases cs with
  | nil => rw [List.append_nil, scanFrom_eq_singleton hne hword, scanFrom]
  | cons c cs =>
    rw [scanFrom_append_separator (hnext c rfl), scanFrom_eq_singleton hne hword,
      List.singleton_append]

theorem scanFrom_blank_append {gap : List Char} (h : ∀ c ∈ gap, Text.isBlank c = true)
    (start : Nat) (cs : List Char) :
    scanFrom start (gap ++ cs) = scanFrom (start + Text.byteLength gap) cs := by
  induction gap generalizing start with
  | nil => rfl
  | cons c gap ih =>
    rw [List.forall_mem_cons] at h
    rw [List.cons_append, scanFrom_blank h.1, ih h.2, Text.byteLength, Nat.add_assoc]

theorem not_isLexeme_nil : ¬ IsLexeme start [] t := by
  rintro ⟨before, body, after, hsplit, hlexeme, -⟩
  have hbody : body = [] := by simp_all
  exact hlexeme.ne_nil hbody

theorem isLexeme_singleton {c : Char} : IsLexeme start [c] t ↔
    Text.isBlank c = false ∧ t = ⟨String.singleton c, start, start + c.utf8Size⟩ := by
  constructor
  · rintro ⟨before, body, after, hsplit, hlexeme, rfl⟩
    obtain ⟨b, body, rfl⟩ := List.exists_cons_of_ne_nil hlexeme.ne_nil
    have hlength := congrArg List.length hsplit
    simp only [List.length_append, List.length_cons, List.length_nil] at hlength
    obtain rfl := List.eq_nil_of_length_eq_zero (l := before) (by omega)
    obtain rfl := List.eq_nil_of_length_eq_zero (l := body) (by omega)
    obtain rfl := List.eq_nil_of_length_eq_zero (l := after) (by omega)
    obtain ⟨rfl, -⟩ := List.cons.inj hsplit
    exact ⟨Text.not_isBlank_of_mem_lexeme hlexeme List.mem_cons_self,
      by rw [String.singleton_eq_ofList]; rfl⟩
  · rintro ⟨hblank, rfl⟩
    have hlexeme : Text.Lexeme [] [c] [] := by
      cases hword : Text.isWordChar c with
      | true => exact .run (List.cons_ne_nil c []) (by simpa using hword) (by simp) (by simp)
      | false =>
        refine .bracket ((Text.isWordChar_eq_false.1 hword).resolve_left ?_)
        simp [hblank]
    exact ⟨[], [c], [], rfl, hlexeme, by rw [String.singleton_eq_ofList]; rfl⟩

theorem isLexeme_run {run : List Char} (hne : run ≠ [])
    (hword : ∀ c ∈ run, Text.isWordChar c = true) :
    IsLexeme start run t ↔ t = ⟨String.ofList run, start, start + Text.byteLength run⟩ := by
  constructor
  · rintro ⟨before, body, after, rfl, hlexeme, rfl⟩
    cases hlexeme with
    | @bracket _ c hc =>
      have hnot := Text.isWordChar_eq_false.2 (.inr hc)
      simp [hword c (by simp)] at hnot
    | run _ _ hleft hright =>
      have hbefore : before = [] := by
        by_contra hbefore
        have hlast := hleft _ (List.getLast?_eq_some_getLast hbefore)
        simp [hword (before.getLast hbefore) (by simp)] at hlast
      have hafter : after = [] := by
        by_contra hafter
        have hfirst := hright _ (List.head?_eq_some_head hafter)
        simp [hword (after.head hafter) (by simp)] at hfirst
      subst hbefore hafter
      simp [Text.byteLength]
  · rintro rfl
    exact ⟨[], run, [], by simp, .run hne hword (by simp) (by simp), rfl⟩

/-- The tokens of a text are its lexemes. -/
theorem mem_scanFrom_iff : t ∈ scanFrom start cs ↔ IsLexeme start cs t := by
  induction cs using Text.induct_runs generalizing start with
  | nil => simp [scanFrom, not_isLexeme_nil]
  | blank c cs hblank ih =>
    have hborder : Text.Border [c] cs := Text.border_of_left (.inl hblank) cs
    rw [scanFrom_blank hblank, ih, ← List.singleton_append, isLexeme_append hborder,
      isLexeme_singleton]
    simp [hblank, Text.byteLength]
  | bracket c cs hbracket ih =>
    have hborder : Text.Border [c] cs := Text.border_of_left (.inr hbracket) cs
    rw [scanFrom_bracket hbracket, List.mem_cons, ih, ← List.singleton_append,
      isLexeme_append hborder, isLexeme_singleton]
    simp [Text.isBlank_of_isBracket hbracket, Text.byteLength]
  | run run cs hne hword hnext ih =>
    have hborder : Text.Border run cs := fun _ _ d hd h => by simp [hnext d hd] at h
    rw [scanFrom_run hne hword hnext, List.mem_cons, ih, isLexeme_append hborder,
      isLexeme_run hne hword]

theorem mem_scan_iff {text : String} : t ∈ scan text ↔ ∃ before body after,
    text.toList = before ++ body ++ after ∧ Text.Lexeme before body after ∧
      t = ⟨String.ofList body, Text.byteLength before,
        Text.byteLength before + Text.byteLength body⟩ := by
  rw [scan, mem_scanFrom_iff, IsLexeme]
  simp only [Nat.zero_add]

theorem isBracket_iff : t.isBracket = true ↔
    ∃ c, Text.isBracket c = true ∧ t.text = String.singleton c := by
  constructor
  · intro h
    simp only [isBracket, decide_eq_true_eq, List.mem_cons, List.not_mem_nil, or_false] at h
    rcases h with h | h | h | h <;> rw [h]
    · exact ⟨'(', by decide, by decide⟩
    · exact ⟨')', by decide, by decide⟩
    · exact ⟨'{', by decide, by decide⟩
    · exact ⟨'}', by decide, by decide⟩
  · rintro ⟨c, hc, htext⟩
    rw [isBracket, htext]
    exact decide_eq_true (Text.mem_brackets_of_isBracket hc)

theorem isBracket_or_isWord_of_mem_scan {text : String} (ht : t ∈ scan text) :
    t.isBracket = true ∨ Text.isWord t.text = true := by
  obtain ⟨before, body, after, -, hlexeme, rfl⟩ := mem_scan_iff.1 ht
  cases hlexeme with
  | @bracket _ c hc => exact .inl (isBracket_iff.2 ⟨c, hc, String.singleton_eq_ofList.symm⟩)
  | run hne hword _ _ => exact .inr (Text.isWord_ofList.2 ⟨hne, hword⟩)

theorem start_lt_stop_of_mem_scan {text : String} (ht : t ∈ scan text) : t.start < t.stop := by
  obtain ⟨before, body, after, -, hlexeme, rfl⟩ := mem_scan_iff.1 ht
  exact Nat.lt_add_of_pos_right (Text.byteLength_pos hlexeme.ne_nil)

theorem pairwise_scanFrom (start : Nat) (cs : List Char) :
    (scanFrom start cs).Pairwise fun t u => t.stop ≤ u.start := by
  induction cs using Text.induct_runs generalizing start with
  | nil => exact .nil
  | blank c cs hblank ih =>
    rw [scanFrom_blank hblank]
    exact ih _
  | bracket c cs hbracket ih =>
    rw [scanFrom_bracket hbracket]
    exact List.pairwise_cons.2 ⟨fun u hu => start_le_of_mem_scanFrom hu, ih _⟩
  | run run cs hne hword hnext ih =>
    rw [scanFrom_run hne hword hnext]
    exact List.pairwise_cons.2 ⟨fun u hu => start_le_of_mem_scanFrom hu, ih _⟩

end Token

namespace Text

section

variable {front behind before body after : List Char} {c : Char}

theorem exists_inside (h : front ++ c :: behind = before ++ body ++ after)
    (hle : byteLength before ≤ byteLength front)
    (hlt : byteLength front < byteLength before + byteLength body) :
    ∃ left right, front = before ++ left ∧ body = left ++ c :: right ∧ behind = right ++ after := by
  rw [List.append_assoc] at h
  have hfront : ∃ left, front = before ++ left ∧ left ++ c :: behind = body ++ after := by
    rcases List.append_eq_append_iff.1 h with ⟨gap, rfl, hgap⟩ | ⟨left, rfl, hleft⟩
    · rw [byteLength_append] at hle
      obtain rfl := byteLength_eq_zero.1 (show byteLength gap = 0 by omega)
      exact ⟨[], by simp, hgap⟩
    · exact ⟨left, rfl, hleft.symm⟩
  obtain ⟨left, rfl, hleft⟩ := hfront
  rw [byteLength_append, Nat.add_lt_add_iff_left] at hlt
  rcases List.append_eq_append_iff.1 hleft with ⟨right, rfl, hright⟩ | ⟨beyond, rfl, -⟩
  · cases right with
    | nil => simp at hlt
    | cons d right =>
      obtain ⟨rfl, rfl⟩ := List.cons.inj hright
      exact ⟨left, right, rfl, rfl, rfl⟩
  · rw [byteLength_append] at hlt
    omega

theorem takeWhile_append_run {p : Char → Bool} {run after : List Char}
    (hrun : ∀ c ∈ run, p c = true)
    (hafter : ∀ c ∈ after.head?, p c = false) : (run ++ after).takeWhile p = run := by
  rw [List.takeWhile_append_of_pos hrun]
  cases after with
  | nil => simp
  | cons c after => simp [hafter c rfl]

theorem dropWhile_append_run {p : Char → Bool} {run after : List Char}
    (hrun : ∀ c ∈ run, p c = true)
    (hafter : ∀ c ∈ after.head?, p c = false) : (run ++ after).dropWhile p = after := by
  rw [List.dropWhile_append_of_pos hrun]
  cases after with
  | nil => rfl
  | cons c after => simp [hafter c rfl]

/-- A character that is not blank is part of a lexeme. -/
theorem exists_lexeme (h : isBlank c = false) (front behind : List Char) :
    ∃ before left right after, front = before ++ left ∧ behind = right ++ after ∧
      Lexeme before (left ++ c :: right) after := by
  cases hword : isWordChar c with
  | false =>
    have hbracket := (isWordChar_eq_false.1 hword).resolve_left (by simp [h])
    exact ⟨front, [], [], behind, by simp, rfl, .bracket hbracket⟩
  | true =>
    refine ⟨front.rdropWhile isWordChar, front.rtakeWhile isWordChar, behind.takeWhile isWordChar,
      behind.dropWhile isWordChar, List.rdropWhile_append_rtakeWhile.symm,
      List.takeWhile_append_dropWhile.symm, .run (by simp) ?_ ?_ (head?_dropWhile behind)⟩
    · simp only [List.forall_mem_append, List.forall_mem_cons]
      exact ⟨fun d hd => List.mem_rtakeWhile_imp hd, hword, fun d hd => List.mem_takeWhile_imp hd⟩
    · intro d hd
      obtain ⟨hne, rfl⟩ := List.mem_getLast?_eq_getLast hd
      simpa using List.rdropWhile_last_not isWordChar front hne

theorem Lexeme.around {left right : List Char} (h : Lexeme before (left ++ c :: right) after) :
    (isWordChar c = false ∧ left = [] ∧ right = []) ∨
      (isWordChar c = true ∧ (before ++ left).rtakeWhile isWordChar = left ∧
        (right ++ after).takeWhile isWordChar = right) := by
  generalize hbody : left ++ c :: right = body at h
  cases h with
  | @bracket _ d hd =>
    cases left with
    | nil =>
      obtain ⟨rfl, rfl⟩ := List.cons.inj hbody
      exact .inl ⟨isWordChar_eq_false.2 (.inr hd), rfl, rfl⟩
    | cons e left => simp at hbody
  | run _ hword hleft hright =>
    subst hbody
    simp only [List.forall_mem_append, List.forall_mem_cons] at hword
    refine .inr ⟨hword.2.1, ?_, takeWhile_append_run hword.2.2 hright⟩
    rw [List.rtakeWhile, List.reverse_append, takeWhile_append_run, List.reverse_reverse]
    · simpa using hword.1
    · simpa [List.head?_reverse] using hleft

/-- There is one lexeme around a character only. -/
theorem Lexeme.unique {before' left left' right right' after' : List Char}
    (h : Lexeme before (left ++ c :: right) after)
    (h' : Lexeme before' (left' ++ c :: right') after')
    (hfront : before ++ left = before' ++ left') (hbehind : right ++ after = right' ++ after') :
    before = before' ∧ left = left' ∧ right = right' := by
  have hsides : left = left' ∧ right = right' := by
    rcases h.around with ⟨hc, hl, hr⟩ | ⟨hc, hl, hr⟩ <;>
      rcases h'.around with ⟨hc', hl', hr'⟩ | ⟨hc', hl', hr'⟩
    · exact ⟨hl.trans hl'.symm, hr.trans hr'.symm⟩
    · simp [hc] at hc'
    · simp [hc] at hc'
    · rw [hfront, hl'] at hl
      rw [hbehind, hr'] at hr
      exact ⟨hl.symm, hr.symm⟩
  obtain ⟨rfl, rfl⟩ := hsides
  exact ⟨List.append_cancel_right hfront, rfl, rfl⟩

end

end Text

end Formulary
