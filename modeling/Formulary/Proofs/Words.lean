import Formulary.Expr.Text
import Formulary.Token
import Mathlib.Data.List.Basic

/-! # Words of a text

The words of a text are the texts of its tokens. A separator cuts a text in two that are scanned
apart, so the words of a text put together from words are those words again, and a text of word
characters is one word. Positions of tokens play no part here. -/

namespace Formulary

namespace Text

/-- A word is one token that is no bracket. -/
def isWord (text : String) : Bool := text ≠ "" && text.toList.all isWordChar

def byteLength : List Char → Nat
  | [] => 0
  | c :: cs => c.utf8Size + byteLength cs

theorem isWordChar_eq_false {c : Char} :
    isWordChar c = false ↔ isBlank c = true ∨ isBracket c = true := by
  rw [isWordChar]
  cases isBlank c <;> cases isBracket c <;> simp

theorem isWordChar_iff {c : Char} :
    isWordChar c = true ↔ isBlank c = false ∧ isBracket c = false := by
  rw [isWordChar, Bool.and_eq_true, Bool.not_eq_true', Bool.not_eq_true']

theorem isWord_iff {text : String} :
    isWord text = true ↔ text ≠ "" ∧ ∀ c ∈ text.toList, isWordChar c = true := by
  simp [isWord, List.all_eq_true]

theorem isWord_ofList {cs : List Char} :
    isWord (String.ofList cs) = true ↔ cs ≠ [] ∧ ∀ c ∈ cs, isWordChar c = true := by
  rw [isWord_iff, String.toList_ofList, Ne, ← String.toList_inj, String.toList_ofList]
  simp

theorem not_isWord_of_mem {text : String} (h : text ∈ ["(", ")", "\x7b", "\x7d"]) :
    isWord text = false := by
  simp only [List.mem_cons, List.not_mem_nil, or_false] at h
  rcases h with rfl | rfl | rfl | rfl <;> decide

theorem mem_brackets_of_isBracket {c : Char} (h : isBracket c = true) :
    String.singleton c ∈ ["(", ")", "\x7b", "\x7d"] := by
  simp only [isBracket, Bool.or_eq_true, decide_eq_true_eq] at h
  rcases h with ((rfl | rfl) | rfl) | rfl <;> decide

end Text

namespace Token

def move (bytes : Nat) (t : Token) : Token := ⟨t.text, t.start + bytes, t.stop + bytes⟩

theorem attach_move (c : Char) (start bytes : Nat) (ts : List Token) :
    attach c (start + bytes) (ts.map (move bytes)) = (attach c start ts).map (move bytes) := by
  have hstop : start + bytes + c.utf8Size = start + c.utf8Size + bytes := by omega
  cases ts with
  | nil => simp [attach, move, hstop]
  | cons t ts =>
    have hstart : t.start + bytes = start + bytes + c.utf8Size ↔ t.start = start + c.utf8Size := by
      omega
    by_cases h : t.start = start + c.utf8Size ∧ (!t.isBracket) = true
    · have h' : (move bytes t).start = start + bytes + c.utf8Size ∧
          (!(move bytes t).isBracket) = true := ⟨hstart.2 h.1, h.2⟩
      rw [List.map_cons, attach, if_pos h', attach, if_pos h]
      rfl
    · have h' : ¬((move bytes t).start = start + bytes + c.utf8Size ∧
          (!(move bytes t).isBracket) = true) := fun h' => h ⟨hstart.1 h'.1, h'.2⟩
      rw [List.map_cons, attach, if_neg h', attach, if_neg h]
      simp [move, hstop]

/-- Tokens don't depend on where the text stands, their positions apart. -/
theorem scanFrom_add (start bytes : Nat) (cs : List Char) :
    scanFrom (start + bytes) cs = (scanFrom start cs).map (move bytes) := by
  induction cs generalizing start with
  | nil => rfl
  | cons c cs ih =>
    have hstop : start + bytes + c.utf8Size = start + c.utf8Size + bytes := by omega
    rw [scanFrom, scanFrom, hstop, ih]
    by_cases hblank : Text.isBlank c = true
    · simp [hblank]
    · by_cases hbracket : Text.isBracket c = true
      · simp [hblank, hbracket, move]
      · simp only [hblank, hbracket, Bool.false_eq_true, if_false]
        exact attach_move c start bytes _

theorem start_le_of_mem_attach {c : Char} {start : Nat} {ts : List Token} {t : Token}
    (hts : ∀ t ∈ ts, start ≤ t.start) (ht : t ∈ attach c start ts) : start ≤ t.start := by
  cases ts with
  | nil =>
    rw [attach, List.mem_singleton] at ht
    exact ht ▸ Nat.le_refl start
  | cons u us =>
    rw [attach] at ht
    split at ht
    · rcases List.mem_cons.1 ht with rfl | ht
      · exact Nat.le_refl start
      · exact hts t (List.mem_cons_of_mem u ht)
    · rcases List.mem_cons.1 ht with rfl | ht
      · exact Nat.le_refl start
      · exact hts t ht

theorem start_le_of_mem_scanFrom {start : Nat} {cs : List Char} {t : Token}
    (ht : t ∈ scanFrom start cs) : start ≤ t.start := by
  induction cs generalizing start t with
  | nil => simp [scanFrom] at ht
  | cons c cs ih =>
    have hrest : ∀ u ∈ scanFrom (start + c.utf8Size) cs, start ≤ u.start := fun u hu =>
      Nat.le_trans (Nat.le_add_right _ _) (ih hu)
    rw [scanFrom] at ht
    split at ht
    · exact hrest t ht
    · split at ht
      · rcases List.mem_cons.1 ht with rfl | ht
        · exact Nat.le_refl start
        · exact hrest t ht
      · exact start_le_of_mem_attach hrest ht

theorem attach_scanFrom_separator {c d : Char} (hd : Text.isWordChar d = false) (start : Nat)
    (cs : List Char) :
    attach c start (scanFrom (start + c.utf8Size) (d :: cs)) =
      ⟨String.singleton c, start, start + c.utf8Size⟩ ::
        scanFrom (start + c.utf8Size) (d :: cs) := by
  have hsize := d.utf8Size_pos
  rcases Text.isWordChar_eq_false.1 hd with hblank | hbracket
  · rw [scanFrom_blank hblank]
    cases hscan : scanFrom (start + c.utf8Size + d.utf8Size) cs with
    | nil => rfl
    | cons t ts =>
      have hstart : start + c.utf8Size + d.utf8Size ≤ t.start :=
        start_le_of_mem_scanFrom (hscan ▸ List.mem_cons_self)
      rw [attach, if_neg (by omega)]
  · have hblank := Text.isBlank_of_isBracket hbracket
    have htext := Text.mem_brackets_of_isBracket hbracket
    simp [scanFrom, hblank, hbracket, attach, isBracket, htext]

theorem attach_ne_nil (c : Char) (start : Nat) (ts : List Token) : attach c start ts ≠ [] := by
  cases ts with
  | nil => simp [attach]
  | cons t ts =>
    rw [attach]
    split <;> simp

theorem isWordChar_of_scanFrom_eq_nil {start : Nat} {c : Char} {cs : List Char}
    (h : scanFrom start (c :: cs) = []) : Text.isWordChar c = false := by
  rw [scanFrom] at h
  by_cases hblank : Text.isBlank c = true
  · exact Text.isWordChar_eq_false.2 (.inl hblank)
  · by_cases hbracket : Text.isBracket c = true
    · exact Text.isWordChar_eq_false.2 (.inr hbracket)
    · simp [hblank, hbracket, attach_ne_nil] at h

theorem scanFrom_append_separator {d : Char} (hd : Text.isWordChar d = false) (start : Nat)
    (cs ds : List Char) :
    scanFrom start (cs ++ d :: ds) =
      scanFrom start cs ++ scanFrom (start + Text.byteLength cs) (d :: ds) := by
  induction cs generalizing start with
  | nil => simp [scanFrom, Text.byteLength]
  | cons c cs ih =>
    have hlength : start + Text.byteLength (c :: cs) = start + c.utf8Size + Text.byteLength cs := by
      simp [Text.byteLength, Nat.add_assoc]
    rw [List.cons_append, scanFrom, scanFrom, ih, hlength]
    by_cases hblank : Text.isBlank c = true
    · simp [hblank]
    · by_cases hbracket : Text.isBracket c = true
      · simp [hblank, hbracket]
      · simp only [hblank, hbracket, Bool.false_eq_true, if_false]
        cases hscan : scanFrom (start + c.utf8Size) cs with
        | nil =>
          -- No token is left to attach to; what follows `c` is a separator in any case.
          cases cs with
          | nil => exact attach_scanFrom_separator hd start ds
          | cons b bs =>
            have hb := isWordChar_of_scanFrom_eq_nil hscan
            have hrest := ih (start + c.utf8Size)
            rw [hscan, List.nil_append, List.cons_append] at hrest
            rw [List.nil_append, ← hrest, attach_scanFrom_separator hb]
            rfl
        | cons t ts =>
          rw [List.cons_append, attach, attach]
          split <;> rfl

theorem isBracket_of_isWord {t : Token} (h : Text.isWord t.text = true) : t.isBracket = false := by
  rw [← Bool.not_eq_true]
  intro ht
  rw [Text.not_isWord_of_mem (by simpa only [isBracket, decide_eq_true_eq] using ht)] at h
  cases h

theorem scanFrom_eq_singleton {cs : List Char} (hcs : cs ≠ [])
    (h : ∀ c ∈ cs, Text.isWordChar c = true) (start : Nat) :
    scanFrom start cs = [⟨String.ofList cs, start, start + Text.byteLength cs⟩] := by
  induction cs generalizing start with
  | nil => exact absurd rfl hcs
  | cons c cs ih =>
    have hc := Text.isWordChar_iff.1 (h c List.mem_cons_self)
    have hrest : ∀ d ∈ cs, Text.isWordChar d = true := fun d hd => h d (List.mem_cons_of_mem c hd)
    simp only [scanFrom, hc.1, hc.2, Bool.false_eq_true, if_false]
    cases cs with
    | nil => rw [scanFrom, attach, String.singleton_eq_ofList]; rfl
    | cons d ds =>
      have hword := Text.isWord_ofList.2 ⟨List.cons_ne_nil d ds, hrest⟩
      rw [ih (List.cons_ne_nil d ds) hrest, attach,
        if_pos ⟨rfl, by rw [isBracket_of_isWord hword]; rfl⟩, ← String.ofList_cons]
      simp only [Text.byteLength, Nat.add_assoc]

def words (text : String) : List String := (scan text).map Token.text

theorem map_text_scanFrom (start : Nat) (cs : List Char) :
    (scanFrom start cs).map Token.text = words (String.ofList cs) := by
  have h := scanFrom_add 0 start cs
  rw [Nat.zero_add] at h
  rw [h, List.map_map, words, scan, String.toList_ofList]
  rfl

theorem words_append_separator {d : Char} (hd : Text.isWordChar d = false) (s t : String) :
    words (s ++ String.singleton d ++ t) = words s ++ words (String.singleton d ++ t) := by
  have h := scanFrom_append_separator hd 0 s.toList t.toList
  rw [words, scan, String.toList_append, String.toList_append, String.toList_singleton,
    List.append_assoc, List.singleton_append, h, List.map_append, map_text_scanFrom,
    map_text_scanFrom, String.ofList_toList]
  congr 2
  rw [← String.toList_inj]
  simp

theorem words_of_isWord {w : String} (h : Text.isWord w = true) : words w = [w] := by
  have hw : w.toList ≠ [] ∧ ∀ c ∈ w.toList, Text.isWordChar c = true := by
    rwa [← Text.isWord_ofList, String.ofList_toList]
  rw [words, scan, scanFrom_eq_singleton hw.1 hw.2, List.map_singleton, String.ofList_toList]

theorem words_space_append (s : String) : words (" " ++ s) = words s := by
  have h : (" " ++ s).toList = ' ' :: s.toList := by simp
  rw [words, scan, h, scanFrom_blank (by decide), map_text_scanFrom, String.ofList_toList]

theorem words_bracket_append {b : Char} (hb : Text.isBracket b = true) (s : String) :
    words (String.singleton b ++ s) = String.singleton b :: words s := by
  have hblank := Text.isBlank_of_isBracket hb
  rw [words, scan, String.toList_append, String.toList_singleton, List.singleton_append, scanFrom]
  simp only [hblank, hb, Bool.false_eq_true, if_false, if_true, List.map_cons, map_text_scanFrom,
    String.ofList_toList]

theorem words_spaced (texts : List String) : words (spaced texts) = texts.flatMap words := by
  induction texts with
  | nil => rfl
  | cons s texts ih =>
    by_cases h : texts = []
    · simp [spaced, h]
    · have hspace : (" " : String) = String.singleton ' ' := by decide
      rw [spaced, String.intercalate_cons_of_ne_nil h, hspace,
        words_append_separator (by decide), ← hspace, words_space_append, List.flatMap_cons, ← ih]
      rfl

/-- The words of an application, whose brackets stand right at the arguments. -/
theorem words_application (arguments : String) {name : String} (h : Text.isWord name = true) :
    words (applicationWord ++ " (" ++ arguments ++ ") " ++ name) =
      applicationWord :: "(" :: (words arguments ++ [")", name]) := by
  have hcut : applicationWord ++ " (" ++ arguments ++ ") " ++ name =
      applicationWord ++ String.singleton ' ' ++
        (String.singleton '(' ++ (arguments ++ String.singleton ')' ++ (" " ++ name))) := by
    rw [← String.toList_inj]
    simp
  have hspace : (String.singleton ' ' : String) = " " := by decide
  have hword : words applicationWord = [applicationWord] := words_of_isWord (by decide)
  rw [hcut, words_append_separator (by decide), hspace, words_space_append,
    words_bracket_append (by decide), words_append_separator (by decide),
    words_bracket_append (by decide), words_space_append, words_of_isWord h, hword]
  rfl

theorem flatMap_attach (c : Char) (start : Nat) (ts : List Token) :
    ((attach c start ts).flatMap fun t => t.text.toList) =
      c :: ts.flatMap fun t => t.text.toList := by
  cases ts with
  | nil => simp [attach]
  | cons t ts =>
    rw [attach]
    split <;> simp

/-- Cutting a text into tokens leaves out characters at most. -/
theorem sublist_scanFrom (start : Nat) (cs : List Char) :
    ((scanFrom start cs).flatMap fun t => t.text.toList).Sublist cs := by
  induction cs generalizing start with
  | nil => simp [scanFrom]
  | cons c cs ih =>
    rw [scanFrom]
    split
    · exact (ih _).cons c
    · split
      · simpa using ih _
      · rw [flatMap_attach]
        exact (ih _).cons_cons c

theorem length_le_of_mem_words {text w : String} (h : w ∈ words text) : w.length ≤ text.length := by
  obtain ⟨t, ht, rfl⟩ := List.mem_map.1 h
  have hword := (List.sublist_flatten_of_mem (List.mem_map_of_mem ht)).trans
    (sublist_scanFrom 0 text.toList)
  exact hword.length_le

end Token

end Formulary
