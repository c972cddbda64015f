import Formulary.Proofs.Reading

/-! # How a text may go on

A run reads words as long as each leads from one state to the next. Where it still awaits something
there are words that complete the expression, whatever waits around it, and where it refuses a word
nothing behind that word helps. So an error tells where a text stops being the start of one that
parses. -/

namespace Formulary

open Formulary.Parser (Frame State Awaited supply openNode start advance run)
open Token (words)

namespace Token

theorem words_append_space (s t : String) : words (s ++ " " ++ t) = words s ++ words t := by
  have hspace : (" " : String) = String.singleton ' ' := by decide
  rw [hspace, words_append_separator (by decide), ← hspace, words_space_append]

theorem words_text_of_mem_scan {text : String} {t : Token} (ht : t ∈ scan text) :
    words t.text = [t.text] := by
  rcases isBracket_or_isWord_of_mem_scan ht with hbracket | hword
  · simp only [isBracket, decide_eq_true_eq, List.mem_cons, List.not_mem_nil, or_false] at hbracket
    rcases hbracket with h | h | h | h <;> rw [h] <;> decide
  · exact words_of_isWord hword

end Token

namespace Vocabulary

variable {v : Vocabulary} {s s' : State} {ws us : List String} {stack : List Frame}

/-- The words are read one after the other, from the first state to the second. -/
inductive Leads (v : Vocabulary) : State → List String → State → Prop where
  | refl (s : State) : Leads v s [] s
  | step {awaited : Awaited} {t : Token} {s s' : State} {ws : List String} :
    advance v t awaited = .ok s → Leads v s ws s' → Leads v (.awaiting awaited) (t.text :: ws) s'

/-- Where a token stands matters for errors only. -/
theorem advance_of_text {t u : Token} (htext : u.text = t.text) (awaited : Awaited) :
    (advance v u awaited).toOption = (advance v t awaited).toOption := by
  have hbracket : u.isBracket = t.isBracket := by rw [Token.isBracket, Token.isBracket, htext]
  have hstart (stack : List Frame) :
      (start v u stack).toOption = (start v t stack).toOption := by
    simp only [start, htext, hbracket]
    split
    · rfl
    · rfl
    · rfl
    · repeat' split
      all_goals rfl
  cases awaited with
  | expression stack =>
    cases stack with
    | nil => exact hstart []
    | cons frame stack =>
      cases frame with
      | arguments arguments =>
        simp only [advance, htext]
        split
        · rfl
        · exact hstart _
      | _ => exact hstart _
  | boundName d names missing stack =>
    simp only [advance, htext, hbracket]
    repeat' split
    all_goals rfl
  | opening stack =>
    simp only [advance, htext]
    split <;> rfl
  | name arguments stack =>
    simp only [advance, htext, hbracket]
    split <;> rfl

theorem advance_eq_ok_of_text {t u : Token} (htext : u.text = t.text) {awaited : Awaited}
    (h : advance v t awaited = .ok s) : advance v u awaited = .ok s := by
  have hsame := advance_of_text (v := v) htext awaited
  rw [h] at hsame
  cases hu : advance v u awaited with
  | error fault => rw [hu] at hsame; cases hsame
  | ok s' => rw [hu] at hsame; exact congrArg Except.ok (Option.some.inj hsame)

theorem Leads.append {s'' : State} (h : v.Leads s ws s') (h' : v.Leads s' us s'') :
    v.Leads s (ws ++ us) s'' := by
  induction h with
  | refl s => exact h'
  | step hadvance _ ih => exact .step hadvance (ih h')

/-- Whatever tokens have the words. -/
theorem Leads.run_eq (h : v.Leads s ws s') {ts : List Token} (hts : ts.map Token.text = ws)
    (length : Nat) (rest : List Token) : run v length s (ts ++ rest) = run v length s' rest := by
  induction h generalizing ts with
  | refl s =>
    obtain rfl := List.map_eq_nil_iff.1 hts
    rfl
  | step hadvance _ ih =>
    obtain ⟨t, us, rfl, htext, hus⟩ := List.map_eq_cons_iff.1 hts
    rw [List.cons_append, run_cons (advance_eq_ok_of_text htext hadvance), ih hus]

/-- Some text takes the run to its end. -/
def Completes (v : Vocabulary) (s : State) : Prop := ∃ more e, v.Leads s (words more) (.complete e)

theorem Completes.step {awaited : Awaited} (h : v.Completes s) (word : String)
    (hword : words word = [word]) (hadvance : advance v ⟨word, 0, 0⟩ awaited = .ok s) :
    v.Completes (.awaiting awaited) := by
  obtain ⟨more, e, hleads⟩ := h
  refine ⟨word ++ " " ++ more, e, ?_⟩
  rw [Token.words_append_space, hword]
  exact .step hadvance hleads

def filler : String := "$0"

theorem words_filler : words filler = [filler] := by decide

theorem Completes.expression (h : ∀ e, v.Completes (supply e stack)) :
    v.Completes (.awaiting (.expression stack)) := by
  have hreference : Parser.parameter? filler = some (.param 0 0) := by decide
  apply (h (.param 0 0)).step filler words_filler
  exact (advance_expression (by decide) stack).trans (start_reference hreference)

theorem Completes.arguments (h : ∀ e, v.Completes (supply e stack)) (arguments : List Expr) :
    v.Completes (.awaiting (.expression (.arguments arguments :: stack))) := by
  have hname : v.Completes (.awaiting (.name arguments.reverse stack)) :=
    (h _).step filler words_filler rfl
  exact hname.step ")" (by decide) rfl

/-- A frame that counts its missing parts gets them one by one. -/
theorem completes_parts (frame : List Expr → Nat → Frame)
    (hlast : ∀ e es, v.Completes (supply e (frame es 0 :: stack)))
    (hnext : ∀ e es missing, supply e (frame es (missing + 1) :: stack) =
      .awaiting (.expression (frame (e :: es) missing :: stack)))
    (e : Expr) (es : List Expr) (missing : Nat) :
    v.Completes (supply e (frame es missing :: stack)) := by
  induction missing generalizing e es with
  | zero => exact hlast e es
  | succ missing ih =>
    rw [hnext]
    exact .expression fun e' => ih e' (e :: es)

theorem completes_supply (e : Expr) (stack : List Frame) : v.Completes (supply e stack) := by
  induction stack generalizing e with
  | nil => exact ⟨"", e, .refl _⟩
  | cons frame stack ih =>
    have hcomponents (type : TypeDefinition) (term e : Expr) (es : List Expr) (missing : Nat) :
        v.Completes (supply e (.typeComponent type term es missing :: stack)) :=
      completes_parts (.typeComponent type term) (fun _ _ => ih _) (fun _ _ _ => rfl) e es missing
    cases frame with
    | node head parts missing =>
      exact completes_parts (.node head) (fun _ _ => ih _) (fun _ _ _ => rfl) e parts missing
    | typeTerm type =>
      rw [supply]
      cases type.defaultArity with
      | zero => exact ih _
      | succ missing => exact .expression fun e' => hcomponents type e e' [] missing
    | typeComponent type term components missing => exact hcomponents type term e components missing
    | arguments arguments => exact .arguments ih (e :: arguments)

theorem completes_openNode (head : Head) (stack : List Frame) :
    v.Completes (openNode head stack) := by
  rw [openNode]
  cases head.partCount with
  | zero => exact completes_supply _ stack
  | succ missing => exact .expression fun e => completes_supply e _

theorem completes_boundName (d : ExpressionDefinition) (names : List String) (missing : Nat)
    (stack : List Frame) : v.Completes (.awaiting (.boundName d names missing stack)) := by
  induction missing generalizing names with
  | zero => exact (completes_openNode _ stack).step filler words_filler rfl
  | succ missing ih => exact (ih (filler :: names)).step filler words_filler rfl

theorem completes_awaiting (awaited : Awaited) : v.Completes (.awaiting awaited) := by
  have hexpression (stack : List Frame) : v.Completes (.awaiting (.expression stack)) :=
    .expression fun e => completes_supply e stack
  cases awaited with
  | expression stack => exact hexpression stack
  | boundName d names missing stack => exact completes_boundName d names missing stack
  | opening stack => exact (hexpression _).step "(" (by decide) rfl
  | name arguments stack => exact (completes_supply _ stack).step filler words_filler rfl

/-- No token of this word is read in the state. -/
def Refuses (v : Vocabulary) (s : State) (word : String) : Prop :=
  ∀ awaited t s', s = .awaiting awaited → t.text = word → advance v t awaited ≠ .ok s'

theorem refuses_complete (e : Expr) (word : String) : v.Refuses (.complete e) word :=
  fun _ _ _ h => nomatch h

theorem refuses_of_advance {awaited : Awaited} {t : Token} {fault : ParseFault}
    (h : advance v t awaited = .error fault) : v.Refuses (.awaiting awaited) t.text := by
  rintro _ u s' ⟨⟩ htext hu
  rw [advance_eq_ok_of_text htext.symm hu] at h
  cases h

theorem Refuses.run_ne {t : Token} (h : v.Refuses s t.text) (length : Nat) (ts : List Token)
    (e : Expr) : run v length s (t :: ts) ≠ .ok e := by
  cases s with
  | complete e' => simp [run]
  | awaiting awaited =>
    rw [run]
    split
    · simp
    · next s' hs' => exact absurd hs' (h awaited t s' rfl rfl)

/-- Every run over tokens reads as many of them as it can. -/
theorem exists_stop (s : State) (ts : List Token) : ∃ before after s', ts = before ++ after ∧
    v.Leads s (before.map Token.text) s' ∧ ∀ t ∈ after.head?, v.Refuses s' t.text := by
  induction ts generalizing s with
  | nil => exact ⟨[], [], s, rfl, .refl s, by simp⟩
  | cons t ts ih =>
    have hstop (h : v.Refuses s t.text) : ∃ before after s', t :: ts = before ++ after ∧
        v.Leads s (before.map Token.text) s' ∧ ∀ t ∈ after.head?, v.Refuses s' t.text :=
      ⟨[], t :: ts, s, rfl, .refl s, by simpa using h⟩
    cases s with
    | complete e => exact hstop (refuses_complete e t.text)
    | awaiting awaited =>
      cases hadvance : advance v t awaited with
      | error fault => exact hstop (refuses_of_advance hadvance)
      | ok next =>
        obtain ⟨before, after, s', rfl, hleads, hrefuses⟩ := ih next
        exact ⟨t :: before, after, s', rfl, .step hadvance hleads, hrefuses⟩

def Parses (v : Vocabulary) (text : String) : Prop := ∃ e, Expr.parse v text = .ok e

/-- The expression is malformed by nothing but the end of the text. -/
def EndsEarly (v : Vocabulary) (text : String) : Prop :=
  ∃ fault, Expr.parse v text = .error fault ∧ fault.error.isMalformed = true ∧
    fault.start = text.utf8ByteSize ∧ fault.stop = text.utf8ByteSize

def opening : State := .awaiting (.expression [])

/-- The error stands at a token that the run refuses, behind a whole expression or inside one. -/
structure Stops (v : Vocabulary) (text : String) (before : List Token) (t : Token) (s : State)
    (fault : ParseFault) : Prop where
  tokens : ∃ after, Token.scan text = before ++ t :: after
  leads : v.Leads opening (before.map Token.text) s
  refuses : v.Refuses s t.text
  start : fault.start = t.start
  error : fault.error = .trailingTokens ∧ (∃ e, s = .complete e) ∨
    fault.error ≠ .trailingTokens ∧ fault.stop = t.stop ∧ ∃ awaited, s = .awaiting awaited

variable {text : String}

theorem fault_of_start {t : Token} {fault : ParseFault} (h : start v t stack = .error fault) :
    fault.error ≠ .trailingTokens ∧ fault.start = t.start ∧ fault.stop = t.stop := by
  rw [start] at h
  split at h
  · cases h
  · cases h
  · cases h
  · by_cases happlication : t.text = applicationWord
    · rw [if_pos happlication] at h
      cases h
    · rw [if_neg happlication] at h
      by_cases hdollar : t.text.toList.head? = some '$'
      · rw [if_pos hdollar] at h
        split at h
        · cases h
        · obtain rfl := Except.error.inj h
          exact ⟨by simp [ParseFault.ofToken], rfl, rfl⟩
      · rw [if_neg hdollar] at h
        by_cases hbracket : t.isBracket = true
        · rw [if_pos hbracket] at h
          obtain rfl := Except.error.inj h
          exact ⟨by simp [ParseFault.ofToken], rfl, rfl⟩
        · rw [if_neg hbracket] at h
          cases h

theorem fault_of_advance {t : Token} {awaited : Awaited} {fault : ParseFault}
    (h : advance v t awaited = .error fault) :
    fault.error ≠ .trailingTokens ∧ fault.start = t.start ∧ fault.stop = t.stop := by
  cases awaited with
  | expression stack =>
    by_cases hclosing : t.text = ")"
    · cases stack with
      | nil => exact fault_of_start h
      | cons frame stack =>
        cases frame with
        | arguments arguments =>
          rw [advance, if_pos hclosing] at h
          cases h
        | _ => exact fault_of_start h
    · exact fault_of_start (advance_expression hclosing stack ▸ h)
  | boundName d names missing stack =>
    simp only [advance] at h
    split at h
    · obtain rfl := Except.error.inj h
      exact ⟨by simp [ParseFault.ofToken], rfl, rfl⟩
    · cases missing <;> cases h
  | opening stack =>
    simp only [advance] at h
    split at h
    · cases h
    · obtain rfl := Except.error.inj h
      exact ⟨by simp [ParseFault.ofToken], rfl, rfl⟩
  | name arguments stack =>
    simp only [advance] at h
    split at h
    · obtain rfl := Except.error.inj h
      exact ⟨by simp [ParseFault.ofToken], rfl, rfl⟩
    · cases h

theorem parse_of_leads (h : v.Leads opening (words text) s) :
    Expr.parse v text = run v text.utf8ByteSize s [] := by
  have hrun := h.run_eq rfl text.utf8ByteSize []
  rwa [List.append_nil] at hrun

/-- A text is read to its end, with or without a whole expression, or the run stops at a token. -/
theorem parse_cases (v : Vocabulary) (text : String) :
    (∃ e, v.Leads opening (words text) (.complete e)) ∨
      (∃ awaited, v.Leads opening (words text) (.awaiting awaited)) ∨
        ∃ before t s fault, Expr.parse v text = .error fault ∧ v.Stops text before t s fault := by
  obtain ⟨before, after, s, hscan, hleads, hrefuses⟩ :=
    exists_stop (v := v) opening (Token.scan text)
  cases after with
  | nil =>
    rw [List.append_nil] at hscan
    rw [← hscan] at hleads
    cases s with
    | complete e => exact .inl ⟨e, hleads⟩
    | awaiting awaited => exact .inr (.inl ⟨awaited, hleads⟩)
  | cons t after =>
    have hrefuses := hrefuses t rfl
    have hparse : Expr.parse v text = run v text.utf8ByteSize s (t :: after) := by
      rw [← hleads.run_eq rfl, ← hscan]
      rfl
    refine .inr (.inr ⟨before, t, s, ?_⟩)
    cases s with
    | complete e =>
      exact ⟨_, hparse, ⟨after, hscan⟩, hleads, hrefuses, rfl, .inl ⟨rfl, e, rfl⟩⟩
    | awaiting awaited =>
      rw [run] at hparse
      cases hadvance : advance v t awaited with
      | ok next => exact absurd hadvance (hrefuses awaited t next rfl rfl)
      | error fault =>
        obtain ⟨herror, hstart, hstop⟩ := fault_of_advance hadvance
        rw [hadvance] at hparse
        exact ⟨fault, hparse, ⟨after, hscan⟩, hleads, hrefuses, hstart,
          .inr ⟨herror, hstop, awaited, rfl⟩⟩

theorem Refuses.not_parses {word : String} (h : v.Refuses s word) (hleads : v.Leads opening ws s)
    (hbegins : ws ++ [word] <+: words text) : ¬ v.Parses text := by
  rintro ⟨e, he⟩
  obtain ⟨rest, hrest⟩ := hbegins
  rw [List.append_assoc] at hrest
  obtain ⟨before, others, hscan, hbefore, hothers⟩ := List.map_eq_append_iff.1 hrest.symm
  obtain ⟨t, after, rfl, rfl, -⟩ := List.map_eq_cons_iff.1 hothers
  rw [Expr.parse, hscan] at he
  exact h.run_ne _ after e ((hleads.run_eq hbefore _ (t :: after)).symm.trans he)

theorem exists_continuation {awaited : Awaited}
    (h : v.Leads opening (words text) (.awaiting awaited)) :
    ∃ more, v.Parses (text ++ " " ++ more) := by
  obtain ⟨more, e, hmore⟩ := completes_awaiting (v := v) awaited
  refine ⟨more, e, ?_⟩
  rw [parse_of_leads (s := .complete e) (Token.words_append_space text more ▸ h.append hmore)]
  rfl

theorem Stops.words_spaced {before : List Token} {t : Token} {fault : ParseFault}
    (h : v.Stops text before t s fault) :
    words (spaced (before.map Token.text)) = before.map Token.text := by
  obtain ⟨after, hscan⟩ := h.tokens
  have hbefore : ∀ u ∈ before, words u.text = [u.text] := fun u hu =>
    Token.words_text_of_mem_scan (hscan ▸ List.mem_append_left _ hu)
  rw [Token.words_spaced, List.flatMap_map, List.flatMap_congr hbefore, List.map_eq_flatMap]

theorem Stops.not_endsEarly {before : List Token} {t : Token} {fault : ParseFault}
    (h : v.Stops text before t s fault) (hparse : Expr.parse v text = .error fault) :
    ¬ v.EndsEarly text := by
  rintro ⟨fault', hparse', hmalformed, hstart, hstop⟩
  obtain rfl := Except.error.inj (hparse.symm.trans hparse')
  rcases h.error with ⟨herror, -⟩ | ⟨-, hstop', -⟩
  · rw [herror] at hmalformed
    cases hmalformed
  · obtain ⟨after, hscan⟩ := h.tokens
    have hmem : t ∈ Token.scan text := by simp [hscan]
    have hsize := Token.start_lt_stop_of_mem_scan hmem
    rw [← h.start, ← hstop', hstart, hstop] at hsize
    exact lt_irrefl _ hsize

theorem endsEarly_of_leads {awaited : Awaited}
    (h : v.Leads opening (words text) (.awaiting awaited)) : v.EndsEarly text :=
  ⟨_, parse_of_leads h, rfl, rfl, rfl⟩

theorem EndsEarly.not_parses (h : v.EndsEarly text) : ¬ v.Parses text := by
  obtain ⟨fault, hparse, -⟩ := h
  rintro ⟨e, he⟩
  cases hparse.symm.trans he

theorem Stops.not_parses_behind {before : List Token} {t : Token} {fault : ParseFault}
    (h : v.Stops text before t s fault) {text' : String}
    (hbegins : (before ++ [t]).map Token.text <+: words text') : ¬ v.Parses text' :=
  h.refuses.not_parses h.leads (by simpa using hbegins)

theorem Stops.not_parses_append {before : List Token} {t : Token} {fault : ParseFault}
    (h : v.Stops text before t s fault) (more : String) : ¬ v.Parses (text ++ " " ++ more) := by
  obtain ⟨after, hscan⟩ := h.tokens
  apply h.not_parses_behind
  rw [Token.words_append_space, Token.words, hscan]
  simp

/-- The words that were read parse, or begin something that does. -/
theorem Stops.words_before {before : List Token} {t : Token} {fault : ParseFault}
    (h : v.Stops text before t s fault) :
    (fault.error = .trailingTokens → v.Parses (spaced (before.map Token.text))) ∧
      (fault.error ≠ .trailingTokens →
        ∃ more, v.Parses (spaced (before.map Token.text) ++ " " ++ more)) := by
  have hleads := h.leads
  rw [← h.words_spaced] at hleads
  rcases h.error with ⟨herror, e, rfl⟩ | ⟨herror, -, awaited, rfl⟩
  · exact ⟨fun _ => ⟨e, parse_of_leads hleads⟩, fun hother => absurd herror hother⟩
  · exact ⟨fun htrailing => absurd htrailing herror, fun _ => exists_continuation hleads⟩

end Vocabulary

/-- Errors of the parser are earliest and exact. A text ends early exactly if it doesn't parse yet
but can be continued. Nothing else can be continued, and every other error starts at the first token
with which no text that parses can go on. -/
theorem Expr.parse_faults_exact (v : Vocabulary) (text : String) :
    (v.EndsEarly text ↔ ¬ v.Parses text ∧ ∃ more, v.Parses (text ++ " " ++ more)) ∧
    (¬ v.EndsEarly text → ∀ more, words more ≠ [] → ¬ v.Parses (text ++ " " ++ more)) ∧
    ∀ fault, Expr.parse v text = .error fault → ¬ v.EndsEarly text →
      ∃ before t after, Token.scan text = before ++ t :: after ∧ fault.start = t.start ∧
        (fault.error = .trailingTokens → v.Parses (spaced (before.map Token.text))) ∧
        (fault.error ≠ .trailingTokens →
          ∃ more, v.Parses (spaced (before.map Token.text) ++ " " ++ more)) ∧
        ∀ text', (before ++ [t]).map Token.text <+: words text' → ¬ v.Parses text' := by
  rcases Vocabulary.parse_cases v text with
    ⟨e, hleads⟩ | ⟨awaited, hleads⟩ | ⟨before, t, s, fault, hparse, hstops⟩
  · have hparses : v.Parses text := ⟨e, Vocabulary.parse_of_leads hleads⟩
    refine ⟨⟨fun h => absurd hparses h.not_parses, fun h => absurd hparses h.1⟩, ?_, ?_⟩
    · intro _ more hmore
      obtain ⟨word, rest, hwords⟩ := List.exists_cons_of_ne_nil hmore
      apply (Vocabulary.refuses_complete e word).not_parses hleads
      rw [Token.words_append_space, hwords]
      simp
    · intro fault hfault _
      cases hfault.symm.trans (Vocabulary.parse_of_leads hleads)
  · have hends := Vocabulary.endsEarly_of_leads hleads
    exact ⟨⟨fun _ => ⟨hends.not_parses, Vocabulary.exists_continuation hleads⟩, fun _ => hends⟩,
      fun h => absurd hends h, fun _ _ h => absurd hends h⟩
  · have hends := hstops.not_endsEarly hparse
    refine ⟨⟨fun h => absurd h hends, ?_⟩, fun _ more _ => hstops.not_parses_append more, ?_⟩
    · rintro ⟨-, more, hmore⟩
      exact absurd hmore (hstops.not_parses_append more)
    · intro fault' hparse' _
      obtain rfl := Except.error.inj (hparse.symm.trans hparse')
      obtain ⟨after, hscan⟩ := hstops.tokens
      obtain ⟨hwhole, hpart⟩ := hstops.words_before
      exact ⟨before, t, after, hscan, hstops.start, hwhole, hpart,
        fun _ => hstops.not_parses_behind⟩

end Formulary
