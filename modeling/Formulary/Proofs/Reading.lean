import Formulary.Proofs.Grammar
import Formulary.Proofs.Lexemes

/-! # Reading what words spell

The words of an expression take a run from awaiting it to supplying it, whatever waits around it. So
a text parses to what its words spell, and words spell one expression at most. -/

namespace Formulary

open Formulary.Parser (Frame State Awaited supply openNode openDefined start advance run)

namespace Vocabulary

variable {v : Vocabulary} {ws : List String} {stack : List Frame} {e : Expr} {t : Token}

theorem advance_expression (ht : t.text ≠ ")") (stack : List Frame) :
    advance v t (.expression stack) = start v t stack := by
  cases stack with
  | nil => rfl
  | cons frame stack => cases frame <;> simp [advance, ht]

theorem start_defined {d : ExpressionDefinition} (hd : v.expression? d.symbol = some d)
    (ht : t.text = d.symbol) : start v t stack = .ok (openDefined d stack) := by
  simp [start, ht, hd]

theorem start_type {type : TypeDefinition} (htype : v.OpensType type) (ht : t.text = type.symbol) :
    start v t stack = .ok (.awaiting (.expression (.typeTerm type :: stack))) := by
  simp [start, ht, htype.1, htype.2]

theorem start_fact {head : Head} (hhead : v.Opens head) (hkind : head.kind ≠ .defined)
    (ht : t.text = head.symbol) : start v t stack = .ok (openNode head stack) := by
  rw [opens_iff_of_not_defined hkind] at hhead
  simp [start, ht, hhead.1, hhead.2.1, hhead.2.2]

theorem start_application (ht : t.text = applicationWord) :
    start v t stack = .ok (.awaiting (.opening stack)) := by
  have hsymbol : isSymbol applicationWord = false := by decide
  obtain ⟨hexpression, htype, hfact⟩ := eq_none_of_not_isSymbol (v := v) hsymbol
  simp [start, ht, hexpression, htype, hfact]

theorem start_reference (ht : Parser.parameter? t.text = some e) :
    start v t stack = .ok (supply e stack) := by
  have hdollar := (Parser.isWord_of_parameter? ht).2
  have hsymbol : isSymbol t.text = false := by simp [isSymbol, hdollar]
  have hword : t.text ≠ applicationWord := fun h => by
    rw [h] at hdollar
    exact absurd hdollar (by decide)
  obtain ⟨hexpression, htype, hfact⟩ := eq_none_of_not_isSymbol (v := v) hsymbol
  simp [start, hexpression, htype, hfact, hword, hdollar, ht]

theorem start_name (ht : v.isName t.text = true) :
    start v t stack = .ok (supply (.var t.text none []) stack) := by
  simp only [isName, Bool.and_eq_true, Option.isNone_iff_eq_none, decide_eq_true_eq] at ht
  obtain ⟨⟨⟨⟨⟨hword, hexpression⟩, htype⟩, hfact⟩, happlication⟩, hdollar⟩ := ht
  simp [start, hexpression, htype, hfact, happlication, hdollar, Token.isBracket_of_isWord hword]

theorem ne_closing_of_isWord {w : String} (h : Text.isWord w = true) : w ≠ ")" := by
  rintro rfl
  exact absurd h (by decide)

theorem run_cons {length : Nat} {awaited : Awaited} {s : State} {ts : List Token}
    (h : advance v t awaited = .ok s) :
    run v length (.awaiting awaited) (t :: ts) = run v length s ts := by
  rw [run, h]

/-- The tokens take a run that awaits an expression to where it is supplied. -/
def Reads (v : Vocabulary) (length : Nat) (ts : List Token) (e : Expr) : Prop :=
  ∀ stack rest, run v length (.awaiting (.expression stack)) (ts ++ rest) =
    run v length (supply e stack) rest

/-- Whatever tokens have these words. -/
def ReadsWords (v : Vocabulary) (length : Nat) (p : List String × Expr) : Prop :=
  ∀ ts : List Token, ts.map Token.text = p.1 → v.Reads length ts p.2

theorem exists_tokens_cons {p : List String × Expr} {parts : Spellings} {ts : List Token}
    (h : ts.map Token.text = Spellings.words (p :: parts)) :
    ∃ us rs, ts = us ++ rs ∧ us.map Token.text = p.1 ∧ rs.map Token.text = parts.words :=
  List.map_eq_append_iff.1 h

section

variable {length : Nat} {parts : Spellings} {ts : List Token}

/-- A frame that counts its missing parts takes them one by one. -/
theorem run_parts (frame : List Expr → Nat → Frame) (finish : List Expr → Expr)
    (hlast : ∀ e es, supply e (frame es 0 :: stack) = supply (finish (es.reverse ++ [e])) stack)
    (hnext : ∀ e es missing, supply e (frame es (missing + 1) :: stack) =
      .awaiting (.expression (frame (e :: es) missing :: stack)))
    (hparts : ∀ p ∈ parts, v.ReadsWords length p) {missing : Nat}
    (hcount : parts.length = missing + 1) (hts : ts.map Token.text = parts.words)
    (es : List Expr) (rest : List Token) :
    run v length (.awaiting (.expression (frame es missing :: stack))) (ts ++ rest) =
      run v length (supply (finish (es.reverse ++ parts.exprs)) stack) rest := by
  induction parts generalizing missing ts es with
  | nil => cases hcount
  | cons p parts ih =>
    obtain ⟨us, rs, rfl, hus, hrs⟩ := exists_tokens_cons hts
    rw [List.append_assoc, hparts p List.mem_cons_self us hus]
    cases missing with
    | zero =>
      obtain rfl : parts = [] := List.length_eq_zero_iff.1 (Nat.succ.inj hcount)
      obtain rfl : rs = [] := List.map_eq_nil_iff.1 hrs
      rw [hlast]
      rfl
    | succ missing =>
      have hrest := ih (fun q hq => hparts q (List.mem_cons_of_mem p hq)) (Nat.succ.inj hcount) hrs
        (p.2 :: es)
      rw [hnext, hrest, List.reverse_cons, List.append_assoc]
      rfl

theorem run_arguments (hparts : ∀ p ∈ parts, v.ReadsWords length p)
    (hts : ts.map Token.text = parts.words) (es : List Expr) (rest : List Token) :
    run v length (.awaiting (.expression (.arguments es :: stack))) (ts ++ rest) =
      run v length (.awaiting (.expression (.arguments (parts.exprs.reverse ++ es) :: stack)))
        rest := by
  induction parts generalizing ts es with
  | nil =>
    obtain rfl : ts = [] := List.map_eq_nil_iff.1 hts
    rfl
  | cons p parts ih =>
    obtain ⟨us, rs, rfl, hus, hrs⟩ := exists_tokens_cons hts
    have hrest := ih (fun q hq => hparts q (List.mem_cons_of_mem p hq)) hrs (p.2 :: es)
    rw [List.append_assoc, hparts p List.mem_cons_self us hus, supply, hrest, Spellings.exprs_cons,
      List.reverse_cons, List.append_assoc]
    rfl

theorem run_openNode {head : Head} (hparts : ∀ p ∈ parts, v.ReadsWords length p)
    (hcount : parts.length = head.partCount) (hts : ts.map Token.text = parts.words)
    (rest : List Token) :
    run v length (openNode head stack) (ts ++ rest) =
      run v length (supply (Expr.close head parts.exprs) stack) rest := by
  rw [openNode]
  cases hmissing : head.partCount with
  | zero =>
    obtain rfl : parts = [] := List.length_eq_zero_iff.1 (hcount.trans hmissing)
    obtain rfl : ts = [] := List.map_eq_nil_iff.1 hts
    rfl
  | succ missing =>
    exact run_parts (.node head) (Expr.close head) (fun e es => rfl) (fun e es missing => rfl)
      hparts
      (hcount.trans hmissing) hts [] rest

theorem run_boundNames {d : ExpressionDefinition} {names : List String}
    (hnames : ∀ name ∈ names, Text.isWord name = true) {missing : Nat}
    (hcount : names.length = missing + 1) (hts : ts.map Token.text = names) (before : List String)
    (rest : List Token) :
    run v length (.awaiting (.boundName d before missing stack)) (ts ++ rest) =
      run v length (openNode (.defined d (before.reverse ++ names)) stack) rest := by
  induction names generalizing missing ts before with
  | nil => cases hcount
  | cons name names ih =>
    obtain ⟨t, ts, rfl, rfl, htail⟩ := List.map_eq_cons_iff.1 hts
    have hbracket := Token.isBracket_of_isWord (hnames _ List.mem_cons_self)
    cases missing with
    | zero =>
      obtain rfl : names = [] := List.length_eq_zero_iff.1 (Nat.succ.inj hcount)
      obtain rfl : ts = [] := List.map_eq_nil_iff.1 htail
      exact run_cons (by simp [advance, hbracket])
    | succ missing =>
      have hrest := ih (fun n hn => hnames n (List.mem_cons_of_mem _ hn)) (Nat.succ.inj hcount)
        htail (t.text :: before)
      rw [List.cons_append,
        run_cons (s := .awaiting (.boundName d (t.text :: before) missing stack))
        (by simp [advance, hbracket]), hrest, List.reverse_cons, List.append_assoc]
      rfl

theorem run_openDefined {d : ExpressionDefinition} {names : List String}
    (hnames : ∀ name ∈ names, Text.isWord name = true) (hcount : names.length = d.boundVariables)
    (hts : ts.map Token.text = names) (rest : List Token) :
    run v length (openDefined d stack) (ts ++ rest) =
      run v length (openNode (.defined d names) stack) rest := by
  rw [openDefined]
  cases hmissing : d.boundVariables with
  | zero =>
    obtain rfl : names = [] := List.length_eq_zero_iff.1 (hcount.trans hmissing)
    obtain rfl : ts = [] := List.map_eq_nil_iff.1 hts
    rfl
  | succ missing => exact run_boundNames hnames (hcount.trans hmissing) hts [] rest

theorem readsWords_node {head : Head} (hhead : v.Opens head)
    (hparts : ∀ p ∈ parts, v.ReadsWords length p) (hcount : parts.length = head.partCount) :
    v.ReadsWords length (head.words ++ parts.words, Expr.close head parts.exprs) := by
  intro ts hts stack rest
  obtain ⟨t, us, rfl, ht, hus⟩ := List.map_eq_cons_iff.1 hts
  obtain ⟨ns, rs, rfl, hns, hrs⟩ := List.map_eq_append_iff.1 hus
  have hclosing : t.text ≠ ")" :=
    ne_closing_of_isWord (isWord_of_opens hhead _ (ht ▸ List.mem_cons_self))
  by_cases hkind : head.kind = .defined
  · cases head with
    | defined d names =>
      rw [List.cons_append, run_cons ((advance_expression hclosing stack).trans
        (start_defined hhead.1 ht)), List.append_assoc, run_openDefined hhead.2.2 hhead.2.1 hns,
        run_openNode hparts hcount hrs]
    | _ => cases hkind
  · have hnames : head.boundNames = [] :=
      (of_factHead? ((opens_iff_of_not_defined hkind).1 hhead).2.2).2.2.1
    obtain rfl : ns = [] := List.map_eq_nil_iff.1 (hns.trans hnames)
    rw [List.cons_append, run_cons ((advance_expression hclosing stack).trans
      (start_fact hhead hkind ht)), List.nil_append, run_openNode hparts hcount hrs]

theorem readsWords_typing {type : TypeDefinition} (htype : v.OpensType type)
    {term : List String × Expr} (hterm : v.ReadsWords length term)
    (hparts : ∀ p ∈ parts, v.ReadsWords length p) (hcount : parts.length = type.defaultArity) :
    v.ReadsWords length (type.symbol :: (term.1 ++ parts.words),
      .typing (.bare type term.2 parts.exprs)) := by
  intro ts hts stack rest
  obtain ⟨t, us, rfl, ht, hus⟩ := List.map_eq_cons_iff.1 hts
  obtain ⟨ms, rs, rfl, hms, hrs⟩ := List.map_eq_append_iff.1 hus
  have hclosing : t.text ≠ ")" := ne_closing_of_isWord (ht ▸ htype.isWord)
  rw [List.cons_append, run_cons ((advance_expression hclosing stack).trans (start_type htype ht)),
    List.append_assoc, hterm ms hms, supply]
  cases hmissing : type.defaultArity with
  | zero =>
    obtain rfl : parts = [] := List.length_eq_zero_iff.1 (hcount.trans hmissing)
    obtain rfl : rs = [] := List.map_eq_nil_iff.1 hrs
    rfl
  | succ missing =>
    exact run_parts (.typeComponent type term.2) (fun es => .typing (.bare type term.2 es))
      (fun e es => rfl) (fun e es missing => rfl) hparts (hcount.trans hmissing) hrs [] rest

theorem readsWords_application {name : String} (hname : Text.isWord name = true)
    (hparts : ∀ p ∈ parts, v.ReadsWords length p) :
    v.ReadsWords length (applicationWord :: "(" :: (parts.words ++ [")", name]),
      .var name none parts.exprs) := by
  intro ts hts stack rest
  obtain ⟨t, us, rfl, ht, hus⟩ := List.map_eq_cons_iff.1 hts
  obtain ⟨opening, qs, rfl, hopening, hqs⟩ := List.map_eq_cons_iff.1 hus
  obtain ⟨as, ls, rfl, has, hls⟩ := List.map_eq_append_iff.1 hqs
  obtain ⟨closing, ns, rfl, hclosing, hns⟩ := List.map_eq_cons_iff.1 hls
  obtain ⟨n, ms, rfl, rfl, hms⟩ := List.map_eq_cons_iff.1 hns
  obtain rfl : ms = [] := List.map_eq_nil_iff.1 hms
  have hfirst : t.text ≠ ")" := by
    rw [ht]
    decide
  have hbracket := Token.isBracket_of_isWord hname
  have hopen : advance v opening (.opening stack) =
      .ok (.awaiting (.expression (.arguments [] :: stack))) := by simp [advance, hopening]
  have hclose : advance v closing (.expression (.arguments parts.exprs.reverse :: stack)) =
      .ok (.awaiting (.name parts.exprs stack)) := by simp [advance, hclosing]
  have hend : advance v n (.name parts.exprs stack) =
      .ok (supply (.var n.text none parts.exprs) stack) := by simp [advance, hbracket]
  rw [List.cons_append, run_cons ((advance_expression hfirst stack).trans (start_application ht)),
    List.cons_append, run_cons hopen, List.append_assoc, run_arguments hparts has, List.append_nil,
    List.cons_append, run_cons hclose, List.cons_append, run_cons hend]
  rfl

end

/-- The words of an expression are read as it. -/
theorem readsWords_of_spells (h : v.Spells ws e) (length : Nat) : v.ReadsWords length (ws, e) := by
  induction h with
  | @name name hname =>
    intro ts hts stack rest
    obtain ⟨t, us, rfl, rfl, hus⟩ := List.map_eq_cons_iff.1 hts
    obtain rfl : us = [] := List.map_eq_nil_iff.1 hus
    have hword : Text.isWord t.text = true := by
      simp only [isName, Bool.and_eq_true] at hname
      exact hname.1.1.1.1.1
    exact run_cons ((advance_expression (ne_closing_of_isWord hword) stack).trans
      (start_name hname))
  | application arguments harguments hname ih => exact readsWords_application hname ih
  | @reference word e he =>
    intro ts hts stack rest
    obtain ⟨t, us, rfl, rfl, hus⟩ := List.map_eq_cons_iff.1 hts
    obtain rfl : us = [] := List.map_eq_nil_iff.1 hus
    have hword := (Parser.isWord_of_parameter? he).1
    exact run_cons ((advance_expression (ne_closing_of_isWord hword) stack).trans
      (start_reference he))
  | node parts hparts hhead hcount ih => exact readsWords_node hhead ih hcount
  | typing term components hterm hcomponents htype hcount ihterm ih =>
    exact readsWords_typing htype ihterm ih hcount

theorem run_of_spells (h : v.Spells ws e) {ts : List Token} (hts : ts.map Token.text = ws)
    (length : Nat) : run v length (.awaiting (.expression [])) ts = .ok e := by
  have hrun := readsWords_of_spells h length ts hts [] []
  rw [List.append_nil] at hrun
  rw [hrun]
  rfl

/-- Words spell one expression at most. -/
theorem Spells.unique {e' : Expr} (h : v.Spells ws e) (h' : v.Spells ws e') : e = e' := by
  have hts : (ws.map fun w => Token.mk w 0 0).map Token.text = ws := by
    rw [List.map_map]
    exact List.map_id ws
  have hrun := run_of_spells h hts 0
  rw [run_of_spells h' hts 0] at hrun
  exact (Except.ok.inj hrun).symm

end Vocabulary

/-- A text parses to what its words spell. -/
theorem Expr.parse_eq_ok_iff {v : Vocabulary} {text : String} {e : Expr} :
    Expr.parse v text = .ok e ↔ v.Spells (Token.words text) e := by
  constructor
  · intro h
    have hreached : v.Reached [] (.awaiting (.expression [])) := .expression .nil
    exact Vocabulary.spells_of_run hreached
      (fun t ht => Token.isBracket_or_isWord_of_mem_scan ht) h
  · intro h
    exact Vocabulary.run_of_spells h rfl _

end Formulary
