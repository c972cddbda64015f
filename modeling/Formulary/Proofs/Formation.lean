import Formulary.Proofs.Outer
import Formulary.Proofs.Patterns

/-! # Well-formed expressions

Expressions that were read have the counts that their definitions ask for, and their type
statements fold only what belongs together. No edit, rule, walk or unfolding breaks this, whatever
names are put in: all of them build nodes in the form of nodes that were there. -/

namespace Formulary

def Head.Belongs : Head → Prop
  | .qualified d parent => parent.qualifier? d.symbol = some d
  | .property d parent => d ∈ parent.properties
  | .relatedObject d parent => d ∈ parent.relatedObjects
  | .defined .. | .relation _ | .standalone _ => True

def Head.NamesAll : Head → Prop
  | .defined d names => names.length = d.boundVariables
  | _ => True

namespace Vocabulary

variable {v : Vocabulary} {head : Head}

theorem belongs_of_factHead? {symbol : String} (h : Parser.factHead? v symbol = some head) :
    head.Belongs := by
  have hsymbol := (of_factHead? h).1
  simp only [Parser.factHead?, Option.orElse_eq_orElse, Option.orElse_eq_or, Option.or_eq_some_iff,
    Option.map_eq_some_iff, Prod.exists] at h
  rcases h with ⟨d, parent, hd, rfl⟩ | ⟨-, ⟨d, parent, hd, rfl⟩ | ⟨-, ⟨d, parent, hd, rfl⟩ |
    ⟨-, ⟨d, hd, rfl⟩ | ⟨-, d, hd, rfl⟩⟩⟩⟩
  · have hfind := (of_findSome?_map hd).2
    rwa [← hsymbol] at hfind
  · exact List.mem_of_find?_eq_some (of_findSome?_map hd).2
  · exact List.mem_of_find?_eq_some (of_findSome?_map hd).2
  · trivial
  · trivial

theorem belongs_of_opens (h : v.Opens head) : head.Belongs := by
  cases head with
  | defined d names => trivial
  | _ => exact belongs_of_factHead? h.2.2

/-- The head is what its symbol stands for, whatever the names that it binds are. -/
def Knows (v : Vocabulary) : Head → Prop
  | .defined d names => v.expression? d.symbol = some d ∧ names.length = d.boundVariables
  | head => v.Opens head

theorem knows_of_opens (h : v.Opens head) : v.Knows head := by
  cases head with
  | defined d names => exact ⟨h.1, h.2.1⟩
  | _ => exact h

theorem Knows.namesAll (h : v.Knows head) : head.NamesAll := by
  cases head with
  | defined d names => exact h.2
  | _ => trivial

theorem Knows.mapBoundNames (h : v.Knows head) (f : String → String) :
    v.Knows (head.mapBoundNames f) := by
  cases head with
  | defined d names => exact ⟨h.1, by rw [List.length_map]; exact h.2⟩
  | _ => exact h

end Vocabulary

def Attachment.BelongsTo {α : Type} (type : TypeDefinition) : Attachment α → Prop
  | .property d => d ∈ type.properties
  | .relatedObject d _ => d ∈ type.relatedObjects

namespace Typing

variable {α : Type} {v : Vocabulary} {t : Typing α}

def slotCount (t : Typing α) : Nat :=
  match t.qualifier with
  | some q => q.componentNames.length
  | none => t.type.defaultArity

/-- What is folded into the statement fits its type and its other parts. -/
structure WellFormed (t : Typing α) : Prop where
  folded : t.conjunction.isSome = t.isFolded
  conjunction : ∀ c ∈ t.conjunction, c.conjoins = true ∧ c.arity = 2 ∧ c.boundVariables = 0
  qualifier : ∀ q ∈ t.qualifier, t.type.defaultQualifier = none ∧ q ∈ t.type.qualifiers
  components : t.components.length = t.slotCount
  attachments : ∀ a ∈ t.attachments, a.BelongsTo t.type
  required : ∀ a ∈ t.attachments, ∀ symbol ∈ a.requiredQualifier, t.type.defaultQualifier = none →
    ∃ q, t.type.qualifier? symbol = some q ∧ t.qualifier = some q
  used : ∀ a ∈ t.attachments, t.usesQualifier a = true →
    t.type.qualifierArity a.requiredQualifier = t.components.length

theorem mem_sides_of_qualifier {q : QualifierDefinition} (hq : t.qualifier = some q) :
    (Head.qualified q t.type, t.term :: t.components) ∈ t.sides := by
  simp [sides, hq]

theorem Legible.qualifier?_eq (ht : t.Legible v) {q : QualifierDefinition}
    (hq : t.qualifier = some q) : t.type.qualifier? q.symbol = some q :=
  Vocabulary.belongs_of_opens (ht.sides _ (mem_sides_of_qualifier hq)).1

theorem Legible.length_components (ht : t.Legible v) : t.components.length = t.slotCount := by
  cases hq : t.qualifier with
  | none =>
    have hbase := ht.base
    simpa [baseComponents, slotCount, hq] using hbase
  | some q =>
    have hside := (ht.sides _ (mem_sides_of_qualifier hq)).2
    simp only [slotCount, hq, Head.partCount, List.length_cons] at hside ⊢
    omega

theorem Legible.belongsTo (ht : t.Legible v) {a : Attachment α} (ha : a ∈ t.attachments) :
    a.BelongsTo t.type := by
  have hside : t.side a ∈ t.sides := List.mem_append_right _ (List.mem_map_of_mem ha)
  have hbelongs := Vocabulary.belongs_of_opens (ht.sides _ hside).1
  cases a with
  | property d => exact hbelongs
  | relatedObject d own => exact hbelongs

theorem Legible.qualifierArity_eq (ht : t.Legible v) {a : Attachment α} (ha : a ∈ t.attachments)
    (huses : t.usesQualifier a = true) :
    t.type.qualifierArity a.requiredQualifier = t.components.length := by
  have hside := (ht.sides _ (List.mem_append_right _ (List.mem_map_of_mem ha))).2
  rw [side_eq, if_pos huses, Attachment.partCount_head] at hside
  simp only [List.length_append, List.length_cons] at hside
  omega

theorem wellFormed_of_legible (ht : t.Legible v) : t.WellFormed where
  folded := by
    cases hfolded : t.isFolded with
    | true =>
      obtain ⟨c, hc, -⟩ := ht.conjunction hfolded
      rw [hc, Option.isSome_some]
    | false => rw [ht.plain hfolded, Option.isSome_none]
  conjunction c hc := by
    have hconjoins := ht.conjoins hc
    exact ⟨hconjoins.conjoins, hconjoins.arity, hconjoins.opens.2.1.symm⟩
  qualifier q hq :=
    ⟨ht.qualifier (by simp [Option.mem_def.1 hq]), List.mem_of_find?_eq_some (ht.qualifier?_eq hq)⟩
  components := ht.length_components
  attachments a ha := ht.belongsTo ha
  required a ha symbol hsymbol hdefault := by
    obtain ⟨q, hq, rfl⟩ := Option.map_eq_some_iff.1 (ht.required a ha symbol hsymbol hdefault)
    exact ⟨q, ht.qualifier?_eq hq, hq⟩
  used a ha huses := ht.qualifierArity_eq ha huses

end Typing

namespace Expr

def WellFormed : Expr → Prop
  | .node head parts => head.NamesAll ∧ parts.length = head.partCount
  | .typing t => t.WellFormed
  | .var .. | .param .. => True

end Expr

namespace Vocabulary

variable {v : Vocabulary} {e e' : Expr}

/-- The node is one that the vocabulary has, but for names: bound ones may be any strings, and so
may those of variables. -/
def Forms (v : Vocabulary) : Expr → Prop
  | .node head parts => v.Knows head ∧ parts.length = head.partCount
  | .typing t => t.Legible v
  | .var .. | .param .. => True

theorem wellFormed_of_forms (h : v.Forms e) : e.WellFormed := by
  cases e with
  | node head parts => exact ⟨h.1.namesAll, h.2⟩
  | typing t => exact Typing.wellFormed_of_legible h
  | _ => trivial

theorem forms_of_allows (h : v.Allows e) : v.Forms e := by
  cases e with
  | node head parts => exact ⟨knows_of_opens h.1, h.2⟩
  | typing t => exact h
  | _ => trivial

theorem formal_forms (v : Vocabulary) : Expr.Formal v.Forms where
  var _ _ := trivial
  param _ := trivial
  node hlength h := ⟨h.1, hlength.trans h.2⟩
  typing hform h := Typing.Legible.of_map_const_eq h hform

theorem forms_mapBoundNames {head : Head} {parts : List Expr} (h : v.Forms (.node head parts))
    (f : String → String) : v.Forms (.node (head.mapBoundNames f) parts) :=
  ⟨h.1.mapBoundNames f, by rw [partCount_mapBoundNames]; exact h.2⟩

theorem everywhere_forms_of_parse {text : String} (h : Expr.parse v text = .ok e) :
    e.Everywhere v.Forms :=
  (legible_of_spells (Expr.parse_eq_ok_iff.1 h)).imp fun _ => forms_of_allows

theorem everywhere_forms_of_renameRoot {name : String} {index depth : Nat} {x y : Expr}
    (hx : x.Everywhere v.Forms) (h : Expr.renameRoot name index depth x = .ok y) :
    y.Everywhere v.Forms := by
  unfold Expr.renameRoot at h
  split at h
  · next d names parts =>
    split at h
    · cases h
    · split at h
      · obtain rfl := Except.ok.inj h
        obtain ⟨⟨hd, hcount⟩, hparts⟩ := hx.root
        refine Expr.Everywhere.iff.2 ⟨⟨⟨hd, ?_⟩, hparts⟩, fun p hp => hx.of_mem hp⟩
        rw [List.length_set]
        exact hcount
      · cases h
  · cases h

theorem everywhere_forms_of_renameBound {name : String} {index : Nat} {path : Path}
    (he : e.Everywhere v.Forms) (h : e.renameBound name index path = .ok e') :
    e'.Everywhere v.Forms := by
  obtain ⟨edited, hedit, rfl⟩ := Expr.exists_of_renameBound h
  exact Expr.everywhere_of_editAt v.formal_forms
    (fun x y hx hy => everywhere_forms_of_renameRoot hx hy) hedit he

theorem everywhere_forms_bindVariables (names : List String) (he : e.Everywhere v.Forms) :
    (e.bindVariables names).Everywhere v.Forms := by
  apply Expr.everywhere_of_walk v.formal_forms .id ?_ ?_ ?_ he rfl
  · rintro depth name disambiguator x - rfl
    simp only [Expr.bindWalk]
    split
    · exact Expr.Everywhere.param_iff.2 trivial
    · exact Expr.Everywhere.leaf_iff.2 trivial
  · rintro depth level index x - rfl
    exact Expr.Everywhere.param_iff.2 trivial
  · exact fun head parts h => forms_mapBoundNames h _

theorem everywhere_forms_unfold (he : e.Everywhere v.Forms) : e.unfold.Everywhere v.Forms := by
  apply Expr.unfold_cases he
  rintro t rfl
  have ht : t.Legible v := he.root
  apply Expr.everywhere_unfold fun x hx => he.of_mem hx
  · exact Typing.legible_bare ht.type t.term ht.base
  · exact fun s hs => ⟨knows_of_opens (ht.sides s hs).1, (ht.sides s hs).2⟩
  · exact fun c hc x y => ⟨knows_of_opens (ht.conjoins hc).opens, (ht.conjoins hc).arity.symm⟩

theorem everywhere_forms_of_part {path : Path} {part : Expr} (he : e.Everywhere v.Forms)
    (h : e.part path = .ok part) : part.Everywhere v.Forms :=
  Expr.partFrom_induct (fun _ he => everywhere_forms_unfold he) (fun _ he _ hc => he.of_mem hc) h he

/-- The values that a rule puts into its right side are inside of the part that it replaces. -/
theorem everywhere_forms_of_applyAt {r : Rule} (hright : r.right.Everywhere v.Forms) {path : Path}
    {edited : Edited} (he : e.Everywhere v.Forms) (h : r.applyAt e path = .ok (some edited)) :
    edited.expr.Everywhere v.Forms := by
  obtain ⟨target, records, b, new, hpart, hmatch, hb, hnew, hreplace⟩ := r.exists_of_applyAt h
  have htarget := everywhere_forms_of_part he hpart
  -- Values need not be obtained by themselves: they can stand where no path leads.
  have hvalues (pattern : String) (value : Value) (hvalue : b.value? pattern = some value) :
      value.expr.Everywhere v.Forms := by
    obtain ⟨path', scopes, hmem, -⟩ := Bindings.exists_binding_of_value? hb hvalue
    obtain ⟨outer, hinside, -⟩ := Expr.inside_of_matchAt hmatch hmem
    exact htarget.inside hinside
  have hforms := b.everywhere_of_apply v.formal_forms hvalues
    (fun head parts h => forms_mapBoundNames h _) hright hnew
  exact Expr.everywhere_of_replace v.formal_forms hforms hreplace he

/-- What can be made of texts by any operations that succeed. Names of bound variables may be any
strings, and so may the names that are bound; the left side of a rule doesn't matter. -/
inductive Obtained (v : Vocabulary) : Expr → Prop
  | parsed {text : String} {e : Expr} : Expr.parse v text = .ok e → Obtained v e
  | replaced {e new : Expr} {path : Path} {edited : Edited} : Obtained v e → Obtained v new →
    e.replace path new = .ok edited → Obtained v edited.expr
  | renamed {e e' : Expr} {name : String} {index : Nat} {path : Path} : Obtained v e →
    e.renameBound name index path = .ok e' → Obtained v e'
  | rewritten {r : Rule} {e : Expr} {path : Path} {edited : Edited} : Obtained v r.right →
    Obtained v e → r.applyAt e path = .ok (some edited) → Obtained v edited.expr
  | bound {e : Expr} (names : List String) : Obtained v e → Obtained v (e.bindVariables names)
  | shifted {e e' : Expr} {amount : Int} : Obtained v e → e.shift? amount = some e' →
    Obtained v e'
  | unfolded {e : Expr} : Obtained v e → Obtained v e.unfold
  | part {e part : Expr} {path : Path} : Obtained v e → e.part path = .ok part → Obtained v part

theorem everywhere_forms_of_obtained (h : v.Obtained e) : e.Everywhere v.Forms := by
  induction h with
  | parsed h => exact everywhere_forms_of_parse h
  | replaced he hnew h ihe ihnew => exact Expr.everywhere_of_replace v.formal_forms ihnew h ihe
  | renamed he h ih => exact everywhere_forms_of_renameBound ih h
  | rewritten hright he h ihright ihe => exact everywhere_forms_of_applyAt ihright ihe h
  | bound names he ih => exact everywhere_forms_bindVariables names ih
  | shifted he h ih => exact Expr.everywhere_of_shift? v.formal_forms ih h
  | unfolded he ih => exact everywhere_forms_unfold ih
  | part he h ih => exact everywhere_forms_of_part ih h

end Vocabulary

namespace Expr

/-- No sequence of operations breaks the form of an expression that was read. -/
theorem wellFormed_of_obtained {v : Vocabulary} {e : Expr} (h : v.Obtained e) :
    e.Everywhere WellFormed :=
  (Vocabulary.everywhere_forms_of_obtained h).imp fun _ => Vocabulary.wellFormed_of_forms

open Vocabulary (small smallType smallConjunction smallProperty)
open Rule (smallDivisible)

def smallModulo (term modulus : Expr) : Expr :=
  .typing ⟨smallType, term, some ⟨"modulo", ["modulus"], none⟩, [modulus],
    [.property smallProperty], some smallConjunction⟩

/-- The number is replaced by a statement that is folded itself, and the modulus is bound. -/
theorem wellFormed_of_obtained_small :
    small.Obtained (smallModulo (smallDivisible (.var "d" none []) (.var "a" none []))
        (.param 0 0)) ∧
      (smallModulo (smallDivisible (.var "d" none []) (.var "a" none []))
        (.param 0 0)).Everywhere WellFormed := by
  have hread : parse small "and and number x modulo x m even x" =
      .ok (smallModulo (.var "x" none []) (.var "m" none [])) := by decide
  have hnew : parse small "and number a divisor d a" =
      .ok (smallDivisible (.var "d" none []) (.var "a" none [])) := by decide
  have hreplace : (smallModulo (.var "x" none []) (.var "m" none [])).replace [0, 1, 0]
      (smallDivisible (.var "d" none []) (.var "a" none [])) =
        .ok ⟨smallModulo (smallDivisible (.var "d" none []) (.var "a" none [])) (.var "m" none []),
          [[0, 0, 0], [0, 1, 0], [1, 0]]⟩ := by with_unfolding_all decide
  have hreplaced := Vocabulary.Obtained.replaced (.parsed hread) (.parsed hnew) hreplace
  have hobtained := hreplaced.bound ["m"]
  exact ⟨hobtained, wellFormed_of_obtained hobtained⟩

end Expr

end Formulary
