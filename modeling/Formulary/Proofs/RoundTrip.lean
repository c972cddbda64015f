import Formulary.Proofs.Reading
import Formulary.Proofs.Refold

/-! # Reading what was written

The text of a legible expression is read as the expression with its conjunctions folded, as long as
every bare variable has a name that is read as a variable. An application without arguments is the
only way to any other name: it loses its brackets in the text, and then the name stands for itself.
-/

namespace Formulary

open Token (words)

theorem words_text_bare (type : TypeDefinition) (htype : Text.isWord type.symbol = true)
    (term : Expr) (components : List Expr) :
    words (Expr.typing (.bare type term components)).text =
      type.symbol :: (words term.text ++ components.flatMap fun e => words e.text) := by
  have htext : (Expr.typing (.bare type term components)).text =
      spaced (type.symbol :: term.text :: components.map Expr.text) := by
    rw [Expr.text_unfoldWith]
    rfl
  rw [htext, Token.words_spaced, List.flatMap_cons, List.flatMap_cons, Token.words_of_isWord htype,
    List.flatMap_map]
  rfl

theorem words_text_name {name : String} (h : Text.isWord name = true) :
    words (Expr.var name none []).text = [name] := by
  rw [Expr.text_var, if_pos rfl, Token.words_of_isWord h]

theorem words_text_param (level : Nat) {index : Nat} (h : index < Text.indexBound) :
    words (Expr.param level index).text = [parameterText level index] := by
  have hreference : Parser.parameter? (parameterText level index) = some (.param level index) :=
    Parser.parameter?_parameterText h
  exact Token.words_of_isWord (Parser.isWord_of_parameter? hreference).1

theorem words_spaced_node {head : Head} (hhead : ∀ w ∈ head.words, Text.isWord w = true)
    (parts : List Expr) :
    words (spaced (head.words ++ parts.map Expr.text)) =
      head.words ++ parts.flatMap fun e => words e.text := by
  have hwords : head.words.flatMap words = head.words := by
    rw [List.flatMap_congr fun w hw => Token.words_of_isWord (hhead w hw), List.flatMap_singleton']
  rw [Token.words_spaced, List.flatMap_append, hwords, List.flatMap_map]

namespace Vocabulary

variable {v : Vocabulary} {ws : List String} {e : Expr}

theorem isWord_of_isName {name : String} (h : v.isName name = true) : Text.isWord name = true := by
  simp only [isName, Bool.and_eq_true] at h
  exact h.1.1.1.1.1

theorem forall_mem_exprs {p : Expr → Prop} {parts : Spellings} (h : ∀ q ∈ parts, p q.2) :
    ∀ x ∈ parts.exprs, p x :=
  List.forall_mem_map.2 h

theorem infix_words {parts : Spellings} {p : List String × Expr} (hp : p ∈ parts) :
    p.1 <:+: parts.words := by
  obtain ⟨before, after, rfl⟩ := List.append_of_mem hp
  exact ⟨Spellings.words before, Spellings.words after, by simp⟩

/-- What leaves, closed nodes and bare statements have, all nodes of a spelled expression have. -/
theorem everywhere_of_spells {p : Expr → Prop}
    (hvar : ∀ name arguments, Text.isWord name = true → p (.var name none arguments))
    (hparam : ∀ word ∈ ws, ∀ level index, Parser.parameter? word = some (.param level index) →
      p (.param level index))
    (hclose : ∀ head parts, v.Opens head → parts.length = head.partCount →
      (∀ x ∈ parts, x.Everywhere p) → p (Expr.close head parts))
    (hbare : ∀ type term components, v.OpensType type → components.length = type.defaultArity →
      p (.typing (.bare type term components)))
    (h : v.Spells ws e) : e.Everywhere p := by
  -- The words of the parts are among those of the whole.
  suffices hall : ∀ us, (∀ w ∈ us, w ∈ ws) → ∀ x, v.Spells us x → x.Everywhere p from
    hall ws (fun _ hw => hw) e h
  intro us hus x hx
  induction hx with
  | @name name hname =>
    exact Expr.Everywhere.leaf_iff.2 (hvar name [] (isWord_of_isName hname))
  | application arguments harguments hname ih =>
    refine Expr.Everywhere.iff.2 ⟨hvar _ _ hname, forall_mem_exprs fun a ha => ih a ha ?_⟩
    intro w hw
    have hmem := (infix_words ha).subset hw
    exact hus w (by simp [hmem])
  | @reference word x hx =>
    obtain ⟨level, index, c, cs, rfl, -, -⟩ := Parser.parameter?_eq_some.1 hx
    have hword := hus word List.mem_cons_self
    exact Expr.Everywhere.param_iff.2 (hparam word hword level index hx)
  | node parts hparts hhead hcount ih =>
    have hexprs := forall_mem_exprs fun q hq => ih q hq fun w hw =>
      hus w (List.mem_append_right _ ((infix_words hq).subset hw))
    exact Expr.everywhere_close hexprs (hclose _ _ hhead (by simpa using hcount) hexprs)
  | typing term components hterm hcomponents htype hcount ihterm ih =>
    refine Expr.Everywhere.iff.2 ⟨hbare _ _ _ htype (by simpa using hcount), ?_⟩
    intro x hx
    rcases Typing.mem_children_bare.1 hx with rfl | hx
    · exact ihterm fun w hw => hus w (by simp [hw])
    · refine forall_mem_exprs (fun q hq => ih q hq fun w hw => ?_) x hx
      have hmem := (infix_words hq).subset hw
      exact hus w (by simp [hmem])

theorem legible_of_spells (h : v.Spells ws e) : v.Legible e := by
  apply everywhere_of_spells ?_ ?_ ?_ ?_ h
  · exact fun name arguments hname => ⟨rfl, hname⟩
  · intro word _ level index hread
    obtain ⟨level', index', c, cs, heq, -, hindex⟩ := Parser.parameter?_eq_some.1 hread
    cases heq
    exact Text.readDigits_lt (by decide) hindex
  · exact fun head parts hhead hcount hparts => (Expr.legible_close ⟨hhead, hcount⟩ hparts).root
  · exact fun type term components htype hcount => Typing.legible_bare htype term hcount

theorem settled_of_spells (h : v.Spells ws e) : e.Settled := by
  apply everywhere_of_spells ?_ ?_ ?_ ?_ h
  · exact fun name arguments hname => rfl
  · exact fun word _ level index _ => rfl
  · exact fun head parts hhead hcount hparts => (Expr.settled_close hparts).root
  · exact fun type term components htype hcount => rfl

theorem plain_name {name : String} (h : v.isName name = true) : v.Plain (.var name none []) :=
  Expr.Everywhere.leaf_iff.2 (by simpa [Expr.pattern?] using h)

theorem plain_application {name : String} {arguments : List Expr} (hne : arguments ≠ [])
    (harguments : ∀ x ∈ arguments, v.Plain x) : v.Plain (.var name none arguments) := by
  refine Expr.Everywhere.iff.2 ⟨?_, harguments⟩
  cases arguments with
  | nil => exact absurd rfl hne
  | cons a as => simp [Expr.pattern?]

theorem plain_param (level index : Nat) : v.Plain (.param level index) :=
  Expr.Everywhere.param_iff.2 (by simp [Expr.pattern?])

theorem plain_bare {type : TypeDefinition} {term : Expr} {components : List Expr}
    (hterm : v.Plain term) (hcomponents : ∀ x ∈ components, v.Plain x) :
    v.Plain (.typing (.bare type term components)) := by
  refine Expr.Everywhere.iff.2 ⟨by simp [Expr.pattern?], ?_⟩
  intro x hx
  rcases Typing.mem_children_bare.1 hx with rfl | hx
  · exact hterm
  · exact hcomponents x hx

/-- Without empty argument lists the name of every bare variable was read as a variable. -/
theorem plain_of_spells (h : v.Spells ws e) (hlists : ¬ [applicationWord, "(", ")"] <:+: ws) :
    v.Plain e := by
  induction h with
  | name hname => exact plain_name hname
  | @application name arguments harguments hname ih =>
    refine plain_application ?_ (forall_mem_exprs fun a ha => ih a ha fun hin => hlists ?_)
    · intro hnil
      obtain rfl : arguments = [] := List.map_eq_nil_iff.1 hnil
      exact hlists ⟨[], [name], rfl⟩
    · refine (hin.trans (infix_words ha)).trans ?_
      exact ⟨[applicationWord, "("], [")", name], by simp⟩
  | reference he =>
    obtain ⟨level, index, c, cs, rfl, -⟩ := Parser.parameter?_eq_some.1 he
    exact plain_param level index
  | node parts hparts hhead hcount ih =>
    refine Expr.plain_close (forall_mem_exprs fun p hp => ih p hp fun hin => hlists ?_)
    exact (hin.trans (infix_words hp)).trans (List.suffix_append _ _).isInfix
  | @typing type term components hterm hcomponents htype hcount ihterm ih =>
    refine plain_bare (ihterm fun hin => hlists ?_)
      (forall_mem_exprs fun p hp => ih p hp fun hin => hlists ?_)
    · exact hin.trans ⟨[type.symbol], components.words, by simp⟩
    · refine (hin.trans (infix_words hp)).trans ?_
      exact ⟨type.symbol :: term.1, [], by simp⟩

/-- What an expression is written as, and what comes back. -/
def reading (e : Expr) : List String × Expr := (words e.text, e.refold)

theorem words_map_reading (es : List Expr) :
    Spellings.words (es.map reading) = es.flatMap fun e => words e.text := by
  rw [Spellings.words, List.flatMap_map]
  rfl

theorem exprs_map_reading (es : List Expr) :
    Spellings.exprs (es.map reading) = es.map Expr.refold := by
  rw [Spellings.exprs, List.map_map]
  rfl

theorem spells_typing_bare {type : TypeDefinition} (htype : v.OpensType type) {term : Expr}
    {components : List Expr} (hcount : components.length = type.defaultArity)
    (hterm : v.Spells (words term.text) term.refold)
    (hcomponents : ∀ x ∈ components, v.Spells (words x.text) x.refold) :
    v.Spells (words (spaced (type.symbol :: term.text :: components.map Expr.text)))
      (.typing (.bare type term.refold (components.map Expr.refold))) := by
  have h := Spells.typing (reading term) (components.map reading) hterm
    (List.forall_mem_map.2 hcomponents) htype (by simpa using hcount)
  rw [words_map_reading, exprs_map_reading] at h
  rw [Token.words_spaced, List.flatMap_cons, List.flatMap_cons,
    Token.words_of_isWord htype.isWord, List.flatMap_map]
  exact h

theorem spells_node {head : Head} (hhead : v.Opens head) {parts : List Expr}
    (hcount : parts.length = head.partCount)
    (hparts : ∀ x ∈ parts, v.Spells (words x.text) x.refold) :
    v.Spells (words (spaced (head.words ++ parts.map Expr.text)))
      (Expr.close head (parts.map Expr.refold)) := by
  have h := Spells.node (parts.map reading) (List.forall_mem_map.2 hparts) hhead
    (by simpa using hcount)
  rw [words_map_reading, exprs_map_reading] at h
  rw [words_spaced_node (isWord_of_opens hhead)]
  exact h

/-- A legible statement is read from its conjuncts, which are folded one after the other. -/
theorem spells_typing {t : Typing Expr} (ht : t.Legible v)
    (hchildren : ∀ x ∈ t.children, v.Spells (words x.text) x.refold) :
    v.Spells (words (Expr.typing t).text) (.typing (t.map Expr.refold)) := by
  rw [← Typing.reread_eq (ht.map Expr.refold), Expr.text_unfoldWith, Typing.reread]
  apply Typing.unfoldWith_rel Expr.refold (r := fun s x => v.Spells (words s) x)
  · exact spells_typing_bare ht.type ht.base (hchildren _ (Typing.mem_children.2 (.inl rfl)))
      fun x hx => hchildren x (Typing.mem_children.2 (.inr (.inl (Typing.mem_baseComponents hx))))
  · intro s hs
    have hside := ht.sides s hs
    have hnode := spells_node hside.1 hside.2 fun x hx =>
      hchildren x (Typing.mem_children_of_mem_sides hs hx)
    rwa [Expr.close_of_ne (Typing.kind_ne_of_mem_sides hs)] at hnode
  · intro c hc x y x' y' hx hy
    have hconjoins := ht.conjoins hc
    have hnode := Spells.node [(words x, x'), (words y, y')] (by simp [hx, hy]) hconjoins.opens
      hconjoins.arity.symm
    have hsymbol : words c.symbol = [c.symbol] :=
      Token.words_of_isWord (isWord_of_opens hconjoins.opens _ List.mem_cons_self)
    have hwords : words (spaced [c.symbol, x, y]) =
        (Head.defined c []).words ++ Spellings.words [(words x, x'), (words y, y')] := by
      simp [Token.words_spaced, hsymbol, Head.words, Head.symbol, Head.boundNames]
    rw [hwords]
    exact hnode

/-- What a legible expression is written as is read as the same with its conjunctions folded. -/
theorem spells_text (hlegible : v.Legible e) (hplain : v.Plain e) :
    v.Spells (words e.text) e.refold := by
  induction e using Expr.induct with
  | var name disambiguator arguments ih =>
    obtain ⟨rfl, hname⟩ := hlegible.root
    cases arguments with
    | nil =>
      rw [words_text_name hname]
      exact .name (hplain.root name rfl)
    | cons a as =>
      have harguments := Spells.application ((a :: as).map reading)
        (List.forall_mem_map.2 fun x hx => ih x hx (hlegible.of_mem hx) (hplain.of_mem hx)) hname
      rw [words_map_reading, exprs_map_reading] at harguments
      rw [Expr.text_var, if_neg (List.cons_ne_nil a as), Token.words_application _ hname,
        Token.words_spaced, List.flatMap_map, Expr.refold_var]
      exact harguments
  | param level index =>
    rw [words_text_param level hlegible.root]
    exact .reference (Parser.parameter?_parameterText hlegible.root)
  | node head parts ih =>
    rw [Expr.text_node, Expr.refold_node]
    exact spells_node hlegible.root.1 hlegible.root.2 fun x hx =>
      ih x hx (hlegible.of_mem hx) (hplain.of_mem hx)
  | typing t ih =>
    rw [Expr.refold_typing]
    exact spells_typing hlegible.root fun x hx => ih x hx (hlegible.of_mem hx) (hplain.of_mem hx)

theorem words_text_close {head : Head} (hhead : v.Opens head) {parts : List Expr}
    (hcount : parts.length = head.partCount) (hparts : ∀ x ∈ parts, v.Legible x) :
    words (Expr.close head parts).text = head.words ++ parts.flatMap fun e => words e.text := by
  have htext := Expr.text_close ⟨hhead, hcount⟩ fun x hx => (hparts x hx).root
  rw [htext, words_spaced_node (isWord_of_opens hhead)]

theorem words_text_application {arguments : List Expr} (harguments : arguments ≠ []) {name : String}
    (hname : Text.isWord name = true) :
    words (Expr.var name none arguments).text =
      applicationWord :: "(" :: ((arguments.flatMap fun e => words e.text) ++ [")", name]) := by
  rw [Expr.text_var, if_neg harguments, Token.words_application _ hname, Token.words_spaced,
    List.flatMap_map]

theorem flatMap_exprs (f : Expr → List String) (parts : Spellings) :
    parts.exprs.flatMap f = parts.flatMap fun p => f p.2 := by
  rw [Spellings.exprs, List.flatMap_map]

/-- Without empty argument lists and padded references an expression is written as it was read. -/
theorem words_text_of_spells (h : v.Spells ws e) (hlists : ¬ [applicationWord, "(", ")"] <:+: ws)
    (hpadded : ∀ w ∈ ws, Parser.isPadded w = false) : words e.text = ws := by
  -- Both conditions go over to the words of a part, which stand together in `ws`.
  have hparts {parts : Spellings} {us : List String} (hin : parts.words <:+: us)
      (hlists : ¬ [applicationWord, "(", ")"] <:+: us)
      (hpadded : ∀ w ∈ us, Parser.isPadded w = false)
      (ih : ∀ p ∈ parts, ¬ [applicationWord, "(", ")"] <:+: p.1 →
        (∀ w ∈ p.1, Parser.isPadded w = false) → words p.2.text = p.1) :
      (parts.exprs.flatMap fun e => words e.text) = parts.words := by
    rw [flatMap_exprs]
    apply List.flatMap_congr
    intro p hp
    have hpart := (infix_words hp).trans hin
    exact ih p hp (fun h => hlists (h.trans hpart)) fun w hw => hpadded w (hpart.subset hw)
  induction h with
  | name hname => exact words_text_name (isWord_of_isName hname)
  | @application name arguments harguments hname ih =>
    have hne : arguments.exprs ≠ [] := by
      intro hnil
      obtain rfl : arguments = [] := List.map_eq_nil_iff.1 hnil
      exact hlists ⟨[], [name], rfl⟩
    have hin : arguments.words <:+: applicationWord :: "(" :: (arguments.words ++ [")", name]) :=
      ⟨[applicationWord, "("], [")", name], by simp⟩
    rw [words_text_application hne hname, hparts hin hlists hpadded ih]
  | @reference word e he =>
    obtain ⟨level, index, c, cs, rfl, -⟩ := Parser.parameter?_eq_some.1 he
    have htext : (Expr.param level index).text = word :=
      Parser.parameterText_of_parameter? he (hpadded word (List.mem_singleton.2 rfl))
    rw [htext, Token.words_of_isWord (Parser.isWord_of_parameter? he).1]
  | @node head parts hspells hhead hcount ih =>
    have hlegible := forall_mem_exprs fun p hp => legible_of_spells (hspells p hp)
    rw [words_text_close hhead (by simpa using hcount) hlegible,
      hparts (List.suffix_append _ _).isInfix hlists hpadded ih]
  | @typing type term components hterm hcomponents htype hcount ihterm ih =>
    have hfirst : term.1 <:+: type.symbol :: (term.1 ++ components.words) :=
      ⟨[type.symbol], components.words, by simp⟩
    have hin : components.words <:+: type.symbol :: (term.1 ++ components.words) :=
      ⟨type.symbol :: term.1, [], by simp⟩
    rw [words_text_bare type htype.isWord, hparts hin hlists hpadded ih,
      ihterm (fun h => hlists (h.trans hfirst)) fun w hw => hpadded w (hfirst.subset hw)]

/-- Writing uses no more words than were read, and all of them only for names read as variables. -/
structure Keeps (v : Vocabulary) (ws : List String) (e : Expr) : Prop where
  length_le : (words e.text).length ≤ ws.length
  plain : ws.length ≤ (words e.text).length → v.Plain e

theorem keeps_parts {parts : Spellings} (h : ∀ p ∈ parts, v.Keeps p.1 p.2) :
    (parts.exprs.flatMap fun e => words e.text).length ≤ parts.words.length ∧
      (parts.words.length ≤ (parts.exprs.flatMap fun e => words e.text).length →
        ∀ x ∈ parts.exprs, v.Plain x) := by
  induction parts with
  | nil => simp
  | cons p parts ih =>
    have hp := h p List.mem_cons_self
    have hlength := hp.length_le
    obtain ⟨hle, hplain⟩ := ih fun q hq => h q (List.mem_cons_of_mem p hq)
    simp only [Spellings.exprs_cons, Spellings.words_cons, List.flatMap_cons, List.length_append]
    refine ⟨by omega, fun hge => List.forall_mem_cons.2 ⟨hp.plain (by omega), hplain (by omega)⟩⟩

theorem Keeps.of_words {us : List String} (hwords : words e.text = us)
    (hle : us.length ≤ ws.length) (hplain : ws.length ≤ us.length → v.Plain e) : v.Keeps ws e :=
  ⟨hwords ▸ hle, hwords ▸ hplain⟩

theorem keeps_of_spells (h : v.Spells ws e) : v.Keeps ws e := by
  induction h with
  | name hname =>
    have hwords := words_text_name (isWord_of_isName hname)
    exact .of_words hwords (Nat.le_refl 1) fun _ => plain_name hname
  | @application name arguments harguments hname ih =>
    by_cases hnil : arguments.exprs = []
    · rw [hnil]
      apply Keeps.of_words (words_text_name hname)
      · simp
      · intro hle
        simp at hle
    · obtain ⟨hle, hplain⟩ := keeps_parts ih
      apply Keeps.of_words (words_text_application hnil hname)
      · simpa using hle
      · intro hge
        exact plain_application hnil (hplain (by simpa using hge))
  | reference he =>
    obtain ⟨level, index, c, cs, rfl, -, hindex⟩ := Parser.parameter?_eq_some.1 he
    have hbound : index < Text.indexBound := (legible_of_spells (v := v) (.reference he)).root
    exact .of_words (words_text_param level hbound) (Nat.le_refl 1) fun _ => plain_param level index
  | node parts hspells hhead hcount ih =>
    obtain ⟨hle, hplain⟩ := keeps_parts ih
    have hlegible := forall_mem_exprs fun p hp => legible_of_spells (hspells p hp)
    apply Keeps.of_words (words_text_close hhead (by simpa using hcount) hlegible)
    · simpa using hle
    · intro hge
      exact Expr.plain_close (hplain (by simpa using hge))
  | typing term components hterm hcomponents htype hcount ihterm ih =>
    obtain ⟨hle, hplain⟩ := keeps_parts ih
    have hfirst := ihterm.length_le
    apply Keeps.of_words (words_text_bare _ htype.isWord _ _)
    · simp only [List.length_cons, List.length_append]
      omega
    · intro hge
      simp only [List.length_cons, List.length_append] at hge
      exact plain_bare (ihterm.plain (by omega)) (hplain (by omega))

/-- What is read comes back if all its names do. -/
theorem parse_text_of_plain {text : String} (h : Expr.parse v text = .ok e) (hplain : v.Plain e) :
    Expr.parse v e.text = .ok e := by
  have hspells := Expr.parse_eq_ok_iff.1 h
  have hread := spells_text (legible_of_spells hspells) hplain
  rw [Expr.refold_of_settled (settled_of_spells hspells)] at hread
  exact Expr.parse_eq_ok_iff.2 hread

def smallNegation : ExpressionDefinition := ⟨"not", 1, 0, [], none, false⟩

def smallConjunction : ExpressionDefinition := ⟨"and", 2, 0, [conjunctionAttribute], none, false⟩

def smallProperty : PropertyDefinition := ⟨"even", none, none⟩

def smallType : TypeDefinition :=
  ⟨"number", none, [⟨"modulo", ["modulus"], none⟩], [smallProperty], [⟨"divisor", none, none⟩], none⟩

def small : Vocabulary := ⟨⟨[smallNegation, smallConjunction], [smallType], [], []⟩, by decide⟩

def smallQuantifier : ExpressionDefinition := ⟨"forall", 1, 1, [], none, false⟩

def smallBinding : Vocabulary :=
  ⟨⟨[smallNegation, smallConjunction, smallQuantifier], [smallType], [], []⟩, by decide⟩

def smallAnd (left right : Expr) : Expr := .node (.defined smallConjunction []) [left, right]

def smallForall (name : String) (body : Expr) : Expr :=
  .node (.defined smallQuantifier [name]) [body]

def smallNumber (term : Expr) : Expr := .typing (.bare smallType term [])

def smallEvenNumber (term : Expr) : Expr :=
  .typing ⟨smallType, term, none, [], [.property smallProperty], some smallConjunction⟩

def smallText : String := "and number with ($0 x) f even with ($0 x) f"

def smallTerm : Expr := .var "f" none [.param 0 0, .var "x" none []]

def smallStatement : Expr := smallEvenNumber smallTerm

theorem words_smallText : words smallText = ["and", "number", "with", "(", "$0", "x", ")", "f",
    "even", "with", "(", "$0", "x", ")", "f"] := by decide

end Vocabulary

open Vocabulary (small smallText smallStatement)

/-- The text of what was read reads the same exactly if every bare variable has a name that is read
as a variable. -/
theorem Expr.parse_text_eq_iff {v : Vocabulary} {text : String} {e : Expr}
    (h : parse v text = .ok e) : parse v e.text = .ok e ↔ v.Plain e := by
  constructor
  · intro hback
    have hkeeps := Vocabulary.keeps_of_spells (parse_eq_ok_iff.1 hback)
    exact hkeeps.plain (Nat.le_refl _)
  · exact Vocabulary.parse_text_of_plain h

theorem Expr.parse_text_eq_iff_small : parse small smallText = .ok smallStatement ∧
    (parse small smallStatement.text = .ok smallStatement ↔ small.Plain smallStatement) :=
  ⟨by decide, Expr.parse_text_eq_iff (show parse small smallText = .ok smallStatement by decide)⟩

/-- An application to nothing is written as its name, here the symbol of a definition. -/
theorem Expr.parse_text_ne_of_empty_list : parse small "with ( ) not" = .ok (.var "not" none []) ∧
    parse small (Expr.var "not" none []).text ≠ .ok (.var "not" none []) :=
  ⟨by decide, by decide⟩

/-- Reading and folding keep every word in its place, empty argument lists and superfluous zeros of
references apart. -/
theorem Expr.words_text_of_parse {v : Vocabulary} {text : String} {e : Expr}
    (hlists : ¬ [applicationWord, "(", ")"] <:+: words text)
    (hpadded : ∀ w ∈ words text, Parser.isPadded w = false) (h : parse v text = .ok e) :
    words e.text = words text :=
  Vocabulary.words_text_of_spells (parse_eq_ok_iff.1 h) hlists hpadded

theorem Expr.words_text_of_parse_small : words smallStatement.text = words smallText := by
  apply Expr.words_text_of_parse (v := small)
  · rw [Vocabulary.words_smallText]
    decide
  · rw [Vocabulary.words_smallText]
    decide
  · decide

end Formulary
