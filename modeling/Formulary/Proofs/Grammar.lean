import Formulary.Proofs.Legible
import Formulary.Proofs.References

/-! # The grammar of a vocabulary

The grammar says which words spell which expression, without a stack and without an order of
reading. A run over the tokens of a text keeps to it: at every moment the words read so far are
those of the waiting nodes and of their parts, so what a run ends with is spelled by all its words.
-/

namespace Formulary

open Formulary.Parser (Frame State Awaited supply openNode openDefined start advance run)

/-- Words that spell expressions one after the other. -/
abbrev Spellings := List (List String × Expr)

namespace Spellings

def words (parts : Spellings) : List String := parts.flatMap Prod.fst

def exprs (parts : Spellings) : List Expr := parts.map Prod.snd

@[simp] theorem words_nil : words [] = [] := rfl

@[simp] theorem exprs_nil : exprs [] = [] := rfl

@[simp] theorem words_cons (p : List String × Expr) (parts : Spellings) :
    words (p :: parts) = p.1 ++ words parts := rfl

@[simp] theorem exprs_cons (p : List String × Expr) (parts : Spellings) :
    exprs (p :: parts) = p.2 :: exprs parts := rfl

@[simp] theorem words_append (parts more : Spellings) :
    words (parts ++ more) = words parts ++ words more := by
  simp [words]

@[simp] theorem exprs_append (parts more : Spellings) :
    exprs (parts ++ more) = exprs parts ++ exprs more := by
  simp [exprs]

@[simp] theorem length_exprs (parts : Spellings) : (exprs parts).length = parts.length := by
  simp [exprs]

theorem forall_mem_append_singleton {p : List String × Expr → Prop} {parts : Spellings}
    {x : List String × Expr} (h : ∀ q ∈ parts, p q) (hx : p x) : ∀ q ∈ parts ++ [x], p q := by
  intro q hq
  rcases List.mem_append.1 hq with hq | hq
  · exact h q hq
  · exact List.mem_singleton.1 hq ▸ hx

end Spellings

namespace Vocabulary

/-- The words spell the expression, folded as far as it folds. -/
inductive Spells (v : Vocabulary) : List String → Expr → Prop where
  | name {name : String} : v.isName name = true → Spells v [name] (.var name none [])
  | application {name : String} (arguments : Spellings) :
    (∀ a ∈ arguments, Spells v a.1 a.2) → Text.isWord name = true →
    Spells v (applicationWord :: "(" :: (arguments.words ++ [")", name]))
      (.var name none arguments.exprs)
  | reference {word : String} {e : Expr} : Parser.parameter? word = some e → Spells v [word] e
  | node {head : Head} (parts : Spellings) :
    (∀ p ∈ parts, Spells v p.1 p.2) → v.Opens head → parts.length = head.partCount →
    Spells v (head.words ++ parts.words) (Expr.close head parts.exprs)
  | typing {type : TypeDefinition} (term : List String × Expr) (components : Spellings) :
    Spells v term.1 term.2 → (∀ p ∈ components, Spells v p.1 p.2) → v.OpensType type →
    components.length = type.defaultArity →
    Spells v (type.symbol :: (term.1 ++ components.words))
      (.typing (.bare type term.2 components.exprs))

/-- The words that the nodes of a stack and their parts so far are spelled with. -/
inductive Pending (v : Vocabulary) : List String → List Frame → Prop where
  | nil : Pending v [] []
  | node {ws : List String} {stack : List Frame} {head : Head} (missing : Nat) (parts : Spellings) :
    Pending v ws stack → v.Opens head → (∀ p ∈ parts, v.Spells p.1 p.2) →
    parts.length + (missing + 1) = head.partCount →
    Pending v (ws ++ head.words ++ parts.words) (.node head parts.exprs.reverse missing :: stack)
  | typeTerm {ws : List String} {stack : List Frame} {type : TypeDefinition} :
    Pending v ws stack → v.OpensType type →
    Pending v (ws ++ [type.symbol]) (.typeTerm type :: stack)
  | typeComponent {ws : List String} {stack : List Frame} {type : TypeDefinition}
    (term : List String × Expr) (missing : Nat) (components : Spellings) :
    Pending v ws stack → v.OpensType type → v.Spells term.1 term.2 →
    (∀ p ∈ components, v.Spells p.1 p.2) → components.length + (missing + 1) = type.defaultArity →
    Pending v (ws ++ type.symbol :: term.1 ++ components.words)
      (.typeComponent type term.2 components.exprs.reverse missing :: stack)
  | arguments {ws : List String} {stack : List Frame} (arguments : Spellings) :
    Pending v ws stack → (∀ a ∈ arguments, v.Spells a.1 a.2) →
    Pending v (ws ++ [applicationWord, "("] ++ arguments.words)
      (.arguments arguments.exprs.reverse :: stack)

/-- The words that take a run from its start to a state. -/
inductive Reached (v : Vocabulary) : List String → State → Prop where
  | complete {ws : List String} {e : Expr} : v.Spells ws e → Reached v ws (.complete e)
  | expression {ws : List String} {stack : List Frame} :
    v.Pending ws stack → Reached v ws (.awaiting (.expression stack))
  | boundName {ws : List String} {stack : List Frame} {d : ExpressionDefinition}
    (names : List String) (missing : Nat) :
    v.Pending ws stack → v.expression? d.symbol = some d →
    (∀ name ∈ names, Text.isWord name = true) → names.length + (missing + 1) = d.boundVariables →
    Reached v (ws ++ d.symbol :: names.reverse) (.awaiting (.boundName d names missing stack))
  | opening {ws : List String} {stack : List Frame} :
    v.Pending ws stack → Reached v (ws ++ [applicationWord]) (.awaiting (.opening stack))
  | name {ws : List String} {stack : List Frame} (arguments : Spellings) :
    v.Pending ws stack → (∀ a ∈ arguments, v.Spells a.1 a.2) →
    Reached v (ws ++ applicationWord :: "(" :: (arguments.words ++ [")"]))
      (.awaiting (.name arguments.exprs stack))

variable {v : Vocabulary} {ws us : List String} {stack : List Frame} {e : Expr}

theorem reached_supply (hstack : v.Pending ws stack) (he : v.Spells us e) :
    v.Reached (ws ++ us) (supply e stack) := by
  induction hstack generalizing us e with
  | nil => exact .complete he
  | @node ws stack head missing parts hstack hhead hparts hcount ih =>
    have hmore := Spellings.forall_mem_append_singleton (x := (us, e)) hparts he
    cases missing with
    | zero =>
      have hnode := ih (Spells.node _ hmore hhead (by simpa using hcount))
      simpa [supply] using hnode
    | succ missing =>
      have hpending := Pending.node missing _ hstack hhead hmore
        (by simpa [Nat.add_assoc, Nat.add_comm 1] using hcount)
      simpa [supply] using Reached.expression hpending
  | @typeTerm ws stack type hstack htype ih =>
    rw [supply]
    cases hcount : type.defaultArity with
    | zero =>
      have htyping := ih (Spells.typing (us, e) [] he (by simp) htype hcount.symm)
      simpa using htyping
    | succ missing =>
      have hpending := Pending.typeComponent (us, e) missing [] hstack htype
        he (by simp) (by simpa using hcount.symm)
      simpa using Reached.expression hpending
  | @typeComponent ws stack type term missing components hstack htype hterm hcomponents hcount ih =>
    have hmore := Spellings.forall_mem_append_singleton (x := (us, e)) hcomponents he
    cases missing with
    | zero =>
      have htyping := ih (Spells.typing _ _ hterm hmore htype (by simpa using hcount))
      simpa [supply] using htyping
    | succ missing =>
      have hpending := Pending.typeComponent _ missing _ hstack htype hterm hmore
        (by simpa [Nat.add_assoc, Nat.add_comm 1] using hcount)
      simpa [supply] using Reached.expression hpending
  | @arguments ws stack arguments hstack harguments ih =>
    have hmore := Spellings.forall_mem_append_singleton (x := (us, e)) harguments he
    simpa [supply] using Reached.expression (Pending.arguments _ hstack hmore)

theorem reached_openNode {head : Head} (hstack : v.Pending ws stack) (hhead : v.Opens head) :
    v.Reached (ws ++ head.words) (openNode head stack) := by
  rw [openNode]
  cases hcount : head.partCount with
  | zero =>
    have hnode := Spells.node (v := v) [] (by simp) hhead hcount.symm
    simpa using reached_supply hstack hnode
  | succ missing =>
    have hpending := Pending.node missing [] hstack hhead (by simp)
      (by simpa using hcount.symm)
    simpa using Reached.expression hpending

theorem reached_openDefined {d : ExpressionDefinition} (hstack : v.Pending ws stack)
    (hd : v.expression? d.symbol = some d) :
    v.Reached (ws ++ [d.symbol]) (openDefined d stack) := by
  rw [openDefined]
  cases hcount : d.boundVariables with
  | zero =>
    have hopens : v.Opens (.defined d []) := ⟨hd, hcount.symm, by simp⟩
    exact reached_openNode hstack hopens
  | succ missing =>
    exact Reached.boundName [] _ hstack hd (by simp) (by simpa using hcount.symm)

theorem reached_start {t : Token} {s : State} (hstack : v.Pending ws stack)
    (ht : t.isBracket = true ∨ Text.isWord t.text = true) (h : start v t stack = .ok s) :
    v.Reached (ws ++ [t.text]) s := by
  rw [start] at h
  split at h
  · next d _ _ hd =>
    obtain rfl := Except.ok.inj h
    obtain ⟨hsymbol, -⟩ := of_expression? hd
    rw [← hsymbol] at hd ⊢
    exact reached_openDefined hstack hd
  · next type _ hnone htype =>
    obtain rfl := Except.ok.inj h
    obtain ⟨hsymbol, -⟩ := of_type? htype
    rw [← hsymbol] at hnone htype ⊢
    exact .expression (.typeTerm hstack ⟨hnone, htype⟩)
  · next head hnone htype hhead =>
    obtain rfl := Except.ok.inj h
    obtain ⟨hsymbol, -, hnames, -⟩ := of_factHead? hhead
    have hwords : head.words = [t.text] := by rw [Head.words, hsymbol, hnames]
    have hkind := kind_of_factHead? hhead
    rw [← hwords]
    refine reached_openNode hstack ((opens_iff_of_not_defined hkind).2 ?_)
    rw [hsymbol]
    exact ⟨hnone, htype, hhead⟩
  · next hexpression htype hfact =>
    by_cases happlication : t.text = applicationWord
    · rw [if_pos happlication] at h
      obtain rfl := Except.ok.inj h
      rw [happlication]
      exact .opening hstack
    · rw [if_neg happlication] at h
      by_cases hdollar : t.text.toList.head? = some '$'
      · rw [if_pos hdollar] at h
        split at h
        · next e he =>
          obtain rfl := Except.ok.inj h
          exact reached_supply hstack (.reference he)
        · cases h
      · rw [if_neg hdollar] at h
        by_cases hbracket : t.isBracket = true
        · rw [if_pos hbracket] at h
          cases h
        · rw [if_neg hbracket] at h
          obtain rfl := Except.ok.inj h
          refine reached_supply hstack (.name ?_)
          simp [isName, ht.resolve_left hbracket, hexpression, htype, hfact, happlication, hdollar]

theorem reached_nextName {d : ExpressionDefinition} {names : List String} {missing : Nat}
    {t : Token} {s : State} (hstack : v.Pending ws stack) (hd : v.expression? d.symbol = some d)
    (hnames : ∀ name ∈ names, Text.isWord name = true)
    (hcount : names.length + (missing + 1) = d.boundVariables)
    (ht : t.isBracket = true ∨ Text.isWord t.text = true)
    (h : advance v t (.boundName d names missing stack) = .ok s) :
    v.Reached (ws ++ d.symbol :: names.reverse ++ [t.text]) s := by
  simp only [advance] at h
  split at h
  · cases h
  · next hbracket =>
    have hmore : ∀ name ∈ t.text :: names, Text.isWord name = true :=
      List.forall_mem_cons.2 ⟨ht.resolve_left hbracket, hnames⟩
    cases missing with
    | zero =>
      obtain rfl := Except.ok.inj h
      have hopens : v.Opens (.defined d (names.reverse ++ [t.text])) :=
        ⟨hd, by simpa using hcount, fun name hname => hmore name (by simpa [or_comm] using hname)⟩
      simpa [Head.words, Head.symbol, Head.boundNames] using reached_openNode hstack hopens
    | succ missing =>
      obtain rfl := Except.ok.inj h
      have hbound := Reached.boundName (t.text :: names) missing hstack hd
        hmore (by simpa [Nat.add_assoc, Nat.add_comm 1] using hcount)
      simpa using hbound

/-- One token leads from words read to one more word read. -/
theorem reached_advance {t : Token} {awaited : Awaited} {s : State}
    (hreached : v.Reached ws (.awaiting awaited))
    (ht : t.isBracket = true ∨ Text.isWord t.text = true) (h : advance v t awaited = .ok s) :
    v.Reached (ws ++ [t.text]) s := by
  cases hreached with
  | @expression ws stack hstack =>
    cases hstack with
    | @arguments us stack arguments hstack harguments =>
      rw [advance] at h
      split at h
      · next htext =>
        obtain rfl := Except.ok.inj h
        rw [htext, List.reverse_reverse]
        have hname := Reached.name _ hstack harguments
        simpa using hname
      · exact reached_start (.arguments arguments hstack harguments) ht h
    | nil => exact reached_start .nil ht h
    | node missing parts hstack hhead hparts hcount =>
      exact reached_start (.node missing parts hstack hhead hparts hcount) ht h
    | typeTerm hstack htype => exact reached_start (.typeTerm hstack htype) ht h
    | typeComponent term missing components hstack htype hterm hcomponents hcount =>
      have hpending := Pending.typeComponent term missing components hstack htype hterm hcomponents
        hcount
      exact reached_start hpending ht h
  | boundName names missing hstack hd hnames hcount =>
    exact reached_nextName hstack hd hnames hcount ht h
  | @opening us stack hstack =>
    rw [advance] at h
    split at h
    · next htext =>
      obtain rfl := Except.ok.inj h
      have harguments := Reached.expression (Pending.arguments [] hstack (by simp))
      simpa [htext] using harguments
    · cases h
  | @name us stack arguments hstack harguments =>
    rw [advance] at h
    split at h
    · cases h
    · next hbracket =>
      obtain rfl := Except.ok.inj h
      have hvar := Spells.application arguments harguments (ht.resolve_left hbracket)
      simpa using reached_supply hstack hvar

theorem spells_of_run {s : State} {ts : List Token} {length : Nat} (hreached : v.Reached ws s)
    (hts : ∀ t ∈ ts, t.isBracket = true ∨ Text.isWord t.text = true)
    (h : run v length s ts = .ok e) : v.Spells (ws ++ ts.map Token.text) e := by
  induction ts generalizing ws s with
  | nil =>
    cases hreached with
    | complete he =>
      obtain rfl := Except.ok.inj h
      simpa using he
    | _ => cases h
  | cons t ts ih =>
    cases s with
    | complete e' => cases h
    | awaiting awaited =>
      rw [run] at h
      split at h
      · cases h
      · next s hs =>
        have hnext := reached_advance hreached (hts t List.mem_cons_self) hs
        have hrest := ih hnext (fun u hu => hts u (List.mem_cons_of_mem t hu)) h
        simpa using hrest

end Vocabulary

end Formulary
